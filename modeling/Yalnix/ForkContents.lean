import Yalnix.FrameOwnership

namespace Yalnix.ForkContents

open Loops Machine AddressSpace Kernel Accesses FreeList FreeCounter Calls Runs Layout Allocation NewTable ForkLoop Frames FrameLeak
  SwitchFrames FrameOwnership

variable {s t : State} {info : ExceptionInfo} {m m₀ m' : Memory} {P : Slot → Prop} {w : Word} {b f g i j k parent child : Nat}

/-- The running process is copied to a child whose table is in the frame `f` of the page `k`. -/
structure Cloning (P : Slot → Prop) (parent child k f : Nat) (w : Word) (m : Memory) : Prop where
  owned : Owned P m
  parent : Leads m (m.space parent).region0 w
  child : Leads m (m.space child).region0 (.frame f)
  running : wordOf m.regPtr0 = w
  entry : ∀ j, j < pageTableLen → P (.entry w j)
  page : P (.kernel k)
  name : names m (.kernel k) = some f
  no_table : ∀ j, ¬ P (.entry (.frame f) j)

namespace Cloning

theorem kept (h : Cloning P parent child k f w m) : Kept m w := Owned.kept h.owned (h.entry 0 (by decide))

theorem kept_child (h : Cloning P parent child k f w m) : Kept m (.frame f) := by
  rintro g hg
  obtain rfl := Word.frame.inj hg
  exact (h.owned.holds.taken _ _ h.page h.name).2

theorem apart (h : Cloning P parent child k f w m) : w ≠ .frame f := fun he =>
  h.no_table 0 (he ▸ h.entry 0 (by decide))

theorem source (h : Cloning P parent child k f w m) (hj : j < pageTableLen) (hv : (w.read m j).valid = true) :
    m.freePages (w.read m j).pfn.toNat = .pageUsed ∧ (w.read m j).pfn.toNat ≠ f := by
  have hn : names m (.entry w j) = some (w.read m j).pfn.toNat := names_some.2 ⟨hv, rfl⟩
  refine ⟨(h.owned.holds.taken _ _ (h.entry j hj) hn).2, fun he => ?_⟩
  exact kernel_ne k w j (h.owned.holds.apart _ _ f h.page (h.entry j hj) h.name (he ▸ hn))

end Cloning

structure Written (m₀ : Memory) (w : Word) (f b i : Nat) (m : Memory) : Prop where
  copied : Copied m₀ w (.frame f) b i m
  pages : ∀ j < i, (w.read m₀ j).valid = true → m.frames (newFrame m₀ w j) = m₀.frames (w.read m₀ j).pfn.toNat

theorem newFrame_kept (h : Cloning P parent child k f w m₀) (hc : Copied m₀ w (.frame f) b i m) (hj : j < i)
    (hv : (w.read m₀ j).valid = true) : newFrame m₀ w j ≠ f ∧ ∀ g l, freeList m = g :: l → newFrame m₀ w j ≠ g := by
  have hmem : newFrame m₀ w j ∈ taken m₀ w i := (mem_taken_iff hc.enough).2 ⟨j, hj, hv, rfl⟩
  refine ⟨fun he => ?_, fun g l hl he => ?_⟩
  · have hfree := (mem_taken hc hmem).2
    rw [he, h.kept_child f rfl] at hfree
    cases hfree
  · have hused := hc.takes.used hmem
    rw [he, (head_free hl).2] at hused
    cases hused

theorem withFrame_frames {p : Pte} (hg : g ≠ f) (m : Memory) (b i n : Nat) :
    (withFrame m (.frame f) p b i n).frames g = m.frames g := put_of_ne hg ..

theorem source_frame {p : Pte} {n source : Nat} (h : Cloning P parent child k f w m₀) (hc : Copied m₀ w (.frame f) b i m)
    (hread : userFrame (withFrame m (.frame f) p b i n) i = .ok source) : source = (w.read m₀ i).pfn.toNat := by
  obtain ⟨e, he, hread⟩ := bind_ok.1 hread
  obtain ⟨-, hread⟩ := ite_error_ok.1 hread
  have hptr : wordOf (withFrame m (.frame f) p b i n).regPtr0 = w := (congrArg wordOf hc.fixed.regPtr0).trans h.running
  have he := walk_read he
  rw [hptr] at he
  have hborrow : w.read (withFrame m (.frame f) p b i n) i = w.read (take m n) i := by
    refine Eq.trans ?_ (word_read_write_other h.apart (take m n) i i
      { Word.read m i (.frame f) with valid := true, uprot := p.uprot, kprot := p.kprot, pfn := BitVec.ofInt 20 n })
    cases w <;> rfl
  have htake : w.read (take m n) i = w.read m i := by cases w <;> rfl
  rw [← Except.ok.inj hread, he, hborrow, htake, hc.parent i (Nat.le_refl i)]

theorem forkPage_written (h : Cloning P parent child k f w m₀) (hb : borrowPage m₀ = some b) (hi : i < pageTableLen)
    (hw : Written m₀ w f b i m) (hstep : forkPage parent child b i m = .ok m') : Written m₀ w f b (i + 1) m' := by
  have hc := hw.copied
  have hne {t : TablePtr} {v : Word} (hl : Leads m₀ t v) := borrowed_ne hb hl
  refine ⟨forkPage_copied h.owned.small h.parent h.child h.kept h.kept_child (fun _ _ => borrowed_ne hb) hc hstep, ?_⟩
  obtain ⟨w', wc, hw', hwc, -, hcase⟩ := forkPage_ok (hc.fixed.numPages ▸ h.owned.small) hstep
  rw [hc.fixed.space] at hw' hwc
  obtain rfl := leads_unique (hc.leads h.parent (hne h.parent)) hw'
  obtain rfl := leads_unique (hc.leads h.child (hne h.child)) hwc
  rw [hc.parent i (Nat.le_refl i)] at hcase
  intro j hj hv
  rcases hcase with ⟨hvi, g, l, source, hl, hread, -, rfl⟩ | ⟨hvi, rfl⟩
  · obtain rfl := source_frame h hc hread
    change put _ g _ (newFrame m₀ w j) = _
    rcases Nat.lt_succ_iff_lt_or_eq.1 hj with hj | rfl
    · obtain ⟨htable, hnew⟩ := newFrame_kept h hc hj hv
      rw [put_of_ne (hnew g l hl), withFrame_frames htable]
      exact hw.pages j hj hv
    · have hlist : freeList m₀ = taken m₀ w j ++ g :: l := by rw [hc.takes.list, hl]
      obtain ⟨hused, hsource⟩ := h.source hi hv
      rw [(taken_succ_valid hv hlist hc.enough).2.1, put_self, withFrame_frames hsource]
      refine hc.contents _ (fun he => hsource (Word.frame.inj he).symm) fun hmem => ?_
      rw [(mem_taken hc hmem).2] at hused
      cases hused
  · rcases Nat.lt_succ_iff_lt_or_eq.1 hj with hj | rfl
    · have htable := (newFrame_kept h hc hj hv).1
      exact (put_of_ne htable ..).trans (hw.pages j hj hv)
    · rw [hvi] at hv
      cases hv

structure SamePage (c p : Pte) (m m' : Memory) : Prop where
  uprot : c.uprot = p.uprot
  kprot : c.kprot = p.kprot
  contents : m'.frames c.pfn.toNat = m.frames p.pfn.toNat

theorem switchFork_pages (h : Cloning P parent child k f w m) (hfork : switchFork parent child m = .ok m')
    (hj : j < pageTableLen) (hv : (w.read m j).valid = true) : SamePage (Word.read m' j (.frame f)) (w.read m j) m m' := by
  obtain ⟨b, hb, hfork⟩ := bind_ok.1 hfork
  obtain ⟨u, hu, hfork⟩ := bind_ok.1 hfork
  obtain ⟨v, hback, hfork⟩ := bind_ok.1 hfork
  obtain rfl := Except.ok.inj hfork
  obtain ⟨-, rfl⟩ := returnPage_ok hback
  have hb := borrowR1Page_ok hb
  have hend : Written m w f b (0 + pageTableLen) u := upTo_invariant (Written m w f b)
    (fun i v v' _ hi hv hv' => forkPage_written h hb (by omega) hv hv') ⟨copied_start .., nofun⟩ hu
  rw [Nat.zero_add] at hend
  have hc := hend.copied
  have hentry : Word.read u j (.frame f) = copiedEntry m w (.frame f) j := by rw [hc.child, if_pos hj]
  rw [copiedEntry, if_pos hv] at hentry
  have huprot : (Word.read u j (.frame f)).uprot = (w.read m j).uprot := by rw [hentry]
  have hkprot : (Word.read u j (.frame f)).kprot = (w.read m j).kprot := by rw [hentry]
  refine ⟨huprot, hkprot, ?_⟩
  change u.frames (Word.read u j (.frame f)).pfn.toNat = _
  rw [hc.pfn h.owned.small hj hv]
  exact hend.pages j hj hv

/-- Fork gives the child the pages of its parent, with the same permissions and contents. -/
theorem fork_pages (hs : Sound s) (hm : s.mode = .user) (hsafe : ForkOwned s)
    (hbuild : buildRegion0 s.fam.count (createProc s).2.mem = .ok m)
    (hfork : switchFork s.curr s.fam.count (setSpace m s.fam.count (childSpace s.curr s.fam.count m)) = .ok m') :
    ∃ i, Forked s i m' ∧ Inherits s i m' ∧ ∀ j < pageTableLen, ((wordOf (s.mem.space s.curr).region0).read s.mem j).valid = true →
      SamePage (Word.read m' j (.frame (pageTableLen + i))) ((wordOf (s.mem.space s.curr).region0).read s.mem j) s.mem m' := by
  have hlive := hs.live_curr hm
  have hentry := inPlay_table hlive
  obtain ⟨i, hi, hchild⟩ := fork_owned hs hm hsafe hbuild hfork
  obtain ⟨i', hstart⟩ := fork_start hs hm hsafe hbuild
  obtain rfl : i' = i := by
    obtain ⟨u, hu, hm'⟩ := switchFork_table hfork
    have htable : (m'.space s.fam.count).region0 = .page (pageTableLen + i') := by
      rw [hm']
      change (u.space s.fam.count).region0 = _
      rw [hu.space]
      exact hstart.table.1
    have := TablePtr.page.inj (htable.symm.trans hi.child.1)
    omega
  have hcloning : Cloning (InPlay s) s.curr s.fam.count i' (pageTableLen + i') (wordOf (s.mem.space s.curr).region0)
      (setSpace m s.fam.count (childSpace s.curr s.fam.count m)) := by
    refine ⟨hstart.owned, hstart.parent, hstart.child, ?_, hentry, hstart.lt, hstart.page, hstart.no_table⟩
    rw [hstart.regPtr0, (hs.current.running (by simp [hm])).2]
  refine ⟨i', hi, hchild, fun j hj hv => ?_⟩
  have hpte : (wordOf (s.mem.space s.curr).region0).read (setSpace m s.fam.count (childSpace s.curr s.fam.count m)) j =
      (wordOf (s.mem.space s.curr).region0).read s.mem j := hstart.slots _ (hentry j hj) (kernel_ne i' _ j).symm
  obtain ⟨huprot, hkprot, hcontents⟩ := switchFork_pages hcloning hfork hj (hpte.symm ▸ hv)
  have hsource := (hcloning.source hj (hpte.symm ▸ hv)).2
  rw [hpte] at huprot hkprot hcontents hsource
  exact ⟨huprot, hkprot, hcontents.trans (hstart.contents _ hsource)⟩

end Yalnix.ForkContents
