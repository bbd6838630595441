import Yalnix.ForkCopies
import Yalnix.Frames

namespace Yalnix.SwitchFrames

open Loops Machine AddressSpace Accesses FreeList FreeCounter Layout Allocation NewTable ForkLoop ForkCopies Frames FrameLeak

variable {m m' u : Memory} {P : Slot → Prop} {w wc : Word} {x : Slot} {b f i j k proc parent child : Nat}

theorem Owned.kept (h : Owned P m) (hw : P (.entry w j)) : Kept m w := by
  rintro f rfl
  obtain ⟨i, hi, hn⟩ := h.backed f j hw
  exact (h.holds.taken _ _ hi hn).2

def Unnamed (P : Slot → Prop) (m : Memory) (i : Nat) : Prop := ∀ x, P x → names m x ≠ some (pageTableLen + i)

theorem Unnamed.no_table (h : Owned P m) (hu : Unnamed P m i) (j : Nat) : ¬ P (.entry (.frame (pageTableLen + i)) j) := by
  intro hP
  obtain ⟨k, hk, hn⟩ := h.backed _ j hP
  exact hu _ hk hn

theorem pte_region1 (hx : x ≠ .kernel i) (m : Memory) (e : Pte) : x.pte (writeRegion1 m i e) = x.pte m := by
  cases x with
  | kernel k => exact region1_write_of_ne (fun he => hx (congrArg Slot.kernel he)) ..
  | entry w j => cases w <;> rfl

/-- `BuildRegion0` leaves the slots in play as they are, except for the page of the new table. -/
structure Built (P : Slot → Prop) (proc i : Nat) (m m' : Memory) : Prop where
  owned : Owned P m'
  maps : Maps kernelStackPages (withTable proc i m) m'
  slots : ∀ x, P x → x ≠ .kernel i → x.pte m' = x.pte m
  contents : ∀ g, g ≠ pageTableLen + i → m'.frames g = m.frames g

theorem withTable_pte (hx : x ≠ .kernel i) : x.pte (withTable proc i m) = x.pte m := by
  cases x with
  | kernel k => exact withTable_region1 fun he => hx (congrArg Slot.kernel he)
  | entry w j => cases w <;> rfl

theorem withTable_owned (h : Owned P m) (hi : i < pageTableLen) (hinv : (m.region1Pt i).valid = false) (hkernel : P (.kernel i))
    (hu : Unnamed P m i) (hframe : pageTableLen + i < m.numPages) : Owned P (withTable proc i m) := by
  have hother {x : Slot} (hx : x ≠ .kernel i) : names (withTable proc i m) x = names m x := names_congr (withTable_pte hx)
  have hname : names (withTable proc i m) (.kernel i) = some (pageTableLen + i) := by
    rw [names_some]
    change ((withTable proc i m).region1Pt i).valid = true ∧ ((withTable proc i m).region1Pt i).pfn.toNat = _
    rw [withTable_entry]
    exact ⟨rfl, tablePfn hi⟩
  refine ⟨h.small, h.holds.acquire (fun y hy _ => hu y hy) hname (fun y hy hne => ⟨hy, hother hne⟩) (fun q hq => used_take hq)
    ⟨hframe, put_self ..⟩, fun g j hg => ?_⟩
  obtain ⟨k, hk, hn⟩ := h.backed g j hg
  refine ⟨k, hk, (hother fun he => ?_).trans hn⟩
  obtain rfl := Slot.kernel.inj he
  rw [names_none (x := .kernel k) hinv] at hn
  cases hn

theorem word_write_frames (h : w ≠ .frame f) (m : Memory) (k : Nat) (e : Pte) : (w.write m k e).frames f = m.frames f := by
  cases w with
  | static => rfl
  | frame g => exact put_of_ne (by rintro rfl; exact h rfl) ..

theorem mapPage_contents {t : TablePtr} {uprot kprot : BitVec 3} {n : Int} (hw : Leads m t w) (hg : w ≠ .frame f)
    (hmap : mapPage t uprot kprot n m = .ok m') : m'.frames f = m.frames f := by
  obtain ⟨j, w', -, -, hw', ⟨g, l, -, rfl⟩ | ⟨-, rfl⟩⟩ := mapPage_cases hmap
  · obtain rfl := leads_unique hw hw'
    exact word_write_frames hg ..
  · obtain rfl := leads_unique hw hw'
    exact word_write_frames hg ..

theorem mapPage_pte {t : TablePtr} {uprot kprot : BitVec 3} {n : Int} (hw : Leads m t w) (hx : ∀ j, x ≠ .entry w j)
    (hmap : mapPage t uprot kprot n m = .ok m') : x.pte m' = x.pte m := by
  obtain ⟨j, w', -, -, hw', ⟨f, l, -, rfl⟩ | ⟨-, rfl⟩⟩ := mapPage_cases hmap
  · obtain rfl := leads_unique hw hw'
    exact (pte_write (hx j) ..).trans (pte_mark ..)
  · obtain rfl := leads_unique hw hw'
    exact pte_write (hx j) ..

theorem Built.page (h : Built P proc i m m') (hi : i < pageTableLen) : names m' (.kernel i) = some (pageTableLen + i) := by
  rw [names_some]
  change (m'.region1Pt i).valid = true ∧ (m'.region1Pt i).pfn.toNat = _
  rw [h.maps.region1Pt, withTable_entry]
  exact ⟨rfl, tablePfn hi⟩

theorem buildRegion0_owned (h : Owned P m) (hkernel : ∀ i < pageTableLen, P (.kernel i))
    (hu : ∀ i, freeVirtualPage m = some i → Unnamed P m i) (hbuild : buildRegion0 proc m = .ok m') :
    ∃ i < pageTableLen, freeVirtualPage m = some i ∧ (m.region1Pt i).valid = false ∧ Built P proc i m m' := by
  obtain ⟨i, hpage, hi, hinv, hframe, hloop⟩ := buildRegion0_ok hbuild
  have hu := hu i hpage
  have hstart : Owned P (withTable proc i m) := withTable_owned h hi hinv (hkernel i hi) hu hframe
  have hw := withTable_leads (m := m) proc hi hframe
  have hout (j : Nat) : ¬ P (.entry (.frame (pageTableLen + i)) j) := hu.no_table h j
  have hend := upTo_invariant (fun _ v => Owned P v ∧ Leads v (.page (pageTableLen + i)) (.frame (pageTableLen + i)) ∧
      (∀ x, P x → x.pte v = x.pte (withTable proc i m)) ∧ ∀ g, g ≠ pageTableLen + i → v.frames g = m.frames g)
    (fun k v v' _ _ hv hv' => ?_) ⟨hstart, hw, fun _ _ => rfl, fun _ _ => rfl⟩ hloop
  · obtain ⟨howned, -, hpte, hcontents⟩ := hend
    exact ⟨i, hi, hpage, hinv, howned, mapLoop_maps hloop, fun x hx hne => (hpte x hx).trans (withTable_pte hne), hcontents⟩
  · obtain ⟨hv, hlead, hpte, hcontents⟩ := hv
    have hfix := Fixed.mapPage hv'
    refine ⟨mapPage_out hv hlead hout hv', ?_, fun x hx => ?_, fun g hg => ?_⟩
    · exact leads_congr hlead hfix.numPages fun _ _ => congrFun (mapPage_region1 hv') _
    · exact (mapPage_pte hlead (fun j he => hout j (he ▸ hx)) hv').trans (hpte x hx)
    · exact (mapPage_contents hlead (fun he => hg (Word.frame.inj he).symm) hv').trans (hcontents g hg)

def withEntries (P : Slot → Prop) (w : Word) (x : Slot) : Prop := P x ∨ ∃ j < pageTableLen, x = .entry w j

/-- The frame with the number of the page that is borrowed is no one's, nor one that the child gets. -/
def BorrowOwned (P : Slot → Prop) (m : Memory) (w : Word) : Prop :=
  ∀ b, borrowPage m = some b → Unnamed P m b ∧ pageTableLen + b ∉ taken m w pageTableLen

/-- What Fork leaves of the slots in play and of the frames in use, the child's table being in frame `f`. -/
structure Inherited (P : Slot → Prop) (f : Nat) (m m' : Memory) : Prop where
  owned : Owned (withEntries P (.frame f)) m'
  slots : ∀ x, P x → x.pte m' = x.pte m
  contents : ∀ g, InUse m g → g ≠ f → m'.frames g = m.frames g

theorem copied_slots (h : Owned P m) (hout : ∀ j, ¬ P (.entry wc j)) (hwc : wc ≠ .static)
    (hc : Copied m w wc b pageTableLen u) (hregion : m'.region1Pt = m.region1Pt) (hstatic : m'.region0Pt = u.region0Pt)
    (hframes : m'.frames = u.frames) (hx : P x) : x.pte m' = x.pte m := by
  cases x with
  | kernel k => exact congrFun hregion k
  | entry v j =>
      cases v with
      | static => exact congrFun (hstatic.trans (hc.static hwc)) j
      | frame g =>
          have hne : wc ≠ .frame g := fun he => hout j (he ▸ hx)
          have hfree : g ∉ taken m w pageTableLen := fun hmem => by
            have hused := Owned.kept h hx g rfl
            rw [(mem_taken hc hmem).2] at hused
            cases hused
          change m'.frames g j = m.frames g j
          rw [hframes, hc.contents g hne hfree]

theorem switchFork_owned (h : Owned P m) (hw : Leads m (m.space parent).region0 w) (hwc : Leads m (m.space child).region0 (.frame f))
    (hparent : P (.entry w k)) (hpage : P (.kernel i)) (hname : names m (.kernel i) = some f) (hout : ∀ j, ¬ P (.entry (.frame f) j))
    (hborrow : BorrowOwned P m w) (hfork : switchFork parent child m = .ok m') :
    Inherited P f m m' ∧ ∀ j < pageTableLen, (Word.read m' j (.frame f)).valid = (w.read m j).valid := by
  have hkept : Kept m (.frame f) := by
    rintro g hg
    obtain rfl := Word.frame.inj hg
    exact (h.holds.taken _ _ hpage hname).2
  obtain ⟨b, u, hb, -, hc, hm'⟩ := switchFork_copied h.small hw hwc (Owned.kept h hparent) hkept hfork
  obtain ⟨hunnamed, hapart⟩ := hborrow b hb
  have hslots (x : Slot) (hx : P x) : x.pte m' = x.pte m :=
    copied_slots h hout nofun hc (switchFork_region1 hfork) (by rw [hm']; rfl) (by rw [hm']; rfl) hx
  have hsame (x : Slot) (hx : P x) : names m' x = names m x := names_congr (hslots x hx)
  -- the child's entries name the frames taken
  have hchild {j g : Nat} (hj : j < pageTableLen) (hn : names m' (.entry (.frame f) j) = some g) :
      (w.read m j).valid = true ∧ newFrame m w j = g ∧ g ∈ taken m w pageTableLen := by
    obtain ⟨hv, hp⟩ := names_some.1 hn
    have hread : (Slot.entry (.frame f) j).pte m' = Word.read u j (.frame f) := by rw [hm']; rfl
    rw [hread] at hv hp
    rw [hc.valid_iff hj] at hv
    rw [hc.pfn h.small hj hv] at hp
    exact ⟨hv, hp, hp ▸ hc.newFrame_mem hj hv⟩
  have hmark {g : Nat} (hg : g ≠ pageTableLen + b) : m'.freePages g = u.freePages g := by
    rw [hm']
    exact put_of_ne hg ..
  have hpages : m'.numPages = m.numPages := by
    rw [hm']
    exact hc.fixed.numPages
  have hold {x : Slot} {g : Nat} (hx : P x) (hn : names m' x = some g) : names m x = some g ∧ InUse m g := by
    rw [hsame x hx] at hn
    exact ⟨hn, h.holds.taken x g hx hn⟩
  have hfree {g : Nat} (hg : g ∈ taken m w pageTableLen) (hu : InUse m g) : False := by
    have hused := hu.2
    rw [(mem_taken hc hg).2] at hused
    cases hused
  have hcontents (g : Nat) (hg : InUse m g) (hne : g ≠ f) : m'.frames g = m.frames g := by
    rw [← hc.contents g (fun he => hne (Word.frame.inj he).symm) fun hmem => hfree hmem hg, hm']
    rfl
  refine ⟨⟨⟨hpages ▸ h.small, ⟨fun x g hx hn => ?_, fun x y g hx hy hnx hny => ?_⟩, fun g j hg => ?_⟩, hslots, hcontents⟩,
    fun j hj => ?_⟩
  · rcases hx with hx | ⟨j, hj, rfl⟩
    · obtain ⟨hn, hu⟩ := hold hx hn
      refine ⟨hpages ▸ hu.1, ?_⟩
      rw [hmark fun he => hunnamed x hx (he ▸ hn), hc.takes.others fun hg => hfree hg hu]
      exact hu.2
    · obtain ⟨-, -, hg⟩ := hchild hj hn
      refine ⟨hpages ▸ (mem_taken hc hg).1, ?_⟩
      rw [hmark fun he => hapart (he ▸ hg)]
      exact hc.takes.used hg
  · rcases hx with hx | ⟨j, hj, rfl⟩ <;> rcases hy with hy | ⟨k, hk, rfl⟩
    · exact h.holds.apart x y g hx hy (hold hx hnx).1 (hold hy hny).1
    · exact (hfree (hchild hk hny).2.2 (hold hx hnx).2).elim
    · exact (hfree (hchild hj hnx).2.2 (hold hy hny).2).elim
    · obtain ⟨hvj, hnj, -⟩ := hchild hj hnx
      obtain ⟨hvk, hnk, -⟩ := hchild hk hny
      rw [newFrame_inj hc.enough hj hk hvj hvk (hnj.trans hnk.symm)]
  · rcases hg with hg | ⟨j', -, he⟩
    · obtain ⟨i', hi', hn⟩ := h.backed g j hg
      exact ⟨i', .inl hi', (hsame _ hi').trans hn⟩
    · obtain rfl := Word.frame.inj (Slot.entry.inj he).1
      exact ⟨i, .inl hpage, (hsame _ hpage).trans hname⟩
  · rw [← hc.valid_iff hj, hm']
    rfl

structure Lent (P : Slot → Prop) (m₀ : Memory) (b : Nat) (m : Memory) : Prop where
  owned : Owned P (writeRegion1 m b (m₀.region1Pt b))
  slots : ∀ x, P x → x.pte (writeRegion1 m b (m₀.region1Pt b)) = x.pte m₀
  fixed : Fixed m₀ m
  region1 : ∀ k, k ≠ b → m.region1Pt k = m₀.region1Pt k

theorem pte_restored (m : Memory) (b : Nat) (x : Slot) : x.pte (writeRegion1 m b (m.region1Pt b)) = x.pte m := by
  by_cases hx : x = .kernel b
  · subst hx
    exact region1_write_self ..
  · exact pte_region1 hx ..

theorem lent_start (h : Owned P m) (b : Nat) : Lent P m b m :=
  ⟨h.congr rfl (fun _ hf => hf) fun x _ => names_congr (pte_restored m b x), fun x _ => pte_restored m b x, .refl m, fun _ _ => rfl⟩

theorem copyStackPage_lent {m₀ : Memory} (hw : Leads m₀ (m₀.space proc).region0 w) (hb : borrowPage m₀ = some b)
    (hin : ∀ j < pageTableLen, P (.entry w j)) (hv : (w.read m₀ j).valid = true) (h : Lent P m₀ b m)
    (hcopy : copyStackPage proc b j m = .ok m') : Lent P m₀ b m' := by
  obtain ⟨e, he, hcopy⟩ := bind_ok.1 hcopy
  obtain ⟨j', w', hj, hlt, hw', rfl⟩ := readPte_ok.1 he
  obtain rfl := Int.ofNat.inj hj
  have hlead : Leads m (m₀.space proc).region0 w :=
    leads_congr hw h.fixed.numPages fun pg hpg => h.region1 _ (borrowed_ne hb hw pg hpg)
  obtain rfl := leads_unique hlead (h.fixed.space ▸ hw')
  obtain ⟨source, dest, -, hd, rfl⟩ := copyPage_ok.1 hcopy
  obtain ⟨-, -, hdest, -⟩ := kernelFrame_ok.1 hd
  rw [Nat.add_sub_cancel_left, region1_write_self] at hdest
  -- the frame written to is the one of a page of the kernel stack, not one of a table
  have hslot := h.slots _ (hin j hlt)
  have hread : w.read m j = (Slot.entry w j).pte (writeRegion1 m b (m₀.region1Pt b)) := by cases w <;> rfl
  have hnames : names (writeRegion1 m b (m₀.region1Pt b)) (.entry w j) = some dest :=
    names_some.2 ⟨(congrArg Pte.valid hslot).trans hv, (congrArg (fun e : Pte => e.pfn.toNat) hread).symm.trans hdest⟩
  have hno := h.owned.not_table (hin j hlt) hnames (fun i => (kernel_ne i w j).symm)
  have hput (e : Pte) (g : Nat → Nat → Pte) : writeRegion1 { writeRegion1 m b e with frames := g } b (m₀.region1Pt b) =
      { writeRegion1 m b (m₀.region1Pt b) with frames := g } := by
    unfold writeRegion1
    simp
  refine ⟨?_, fun x hx => ?_, h.fixed.trans ⟨rfl, rfl, rfl, rfl, rfl, rfl⟩, fun k hk => ?_⟩
  · rw [hput]
    exact h.owned.fill hno _
  · rw [hput, ← h.slots x hx]
    cases x with
    | kernel k => rfl
    | entry v k => exact word_read_copy (fun hv => hno k (hv ▸ hx)) ..
  · exact (region1_write_of_ne hk ..).trans (h.region1 k hk)

theorem switchNewProc_owned (h : Owned P m) (hw : Leads m (m.space proc).region0 w) (hin : ∀ j < pageTableLen, P (.entry w j))
    (hstack : ∀ j, kernelStackBase ≤ j → j < pageTableLen → (w.read m j).valid = true)
    (hborrow : ∀ b, borrowPage m = some b → Unnamed P m b) (hswitch : switchNewProc proc m = .ok m') :
    Owned P m' ∧ ∀ x, P x → x.pte m' = x.pte m := by
  obtain ⟨b, hb, hswitch⟩ := bind_ok.1 hswitch
  obtain ⟨u, hu, hswitch⟩ := bind_ok.1 hswitch
  obtain ⟨v, hv, hswitch⟩ := bind_ok.1 hswitch
  obtain rfl := Except.ok.inj hswitch
  have hb := borrowR1Page_ok hb
  have hlent : Lent P m b u := upTo_invariant (fun _ v => Lent P m b v)
    (fun k v v' hk hlt hv hv' => copyStackPage_lent hw hb hin (hstack k hk hlt) hv hv') (lent_start h b) hu
  obtain ⟨-, rfl⟩ := returnPage_ok hv
  have hslots (x : Slot) (hx : P x) : x.pte (setMark (writeRegion1 u b (m.region1Pt b)) (pageTableLen + b) .pageFree) = x.pte m :=
    (pte_mark (c := u.numFreePages) ..).trans (hlent.slots x hx)
  have howned : Owned P (setMark (writeRegion1 u b (m.region1Pt b)) (pageTableLen + b) .pageFree) := by
    refine hlent.owned.free (c := u.numFreePages) fun x hx hn => hborrow b hb x hx ?_
    rwa [names_congr (hlent.slots x hx)] at hn
  refine ⟨howned.congr rfl (fun _ hf => hf) fun x hx => names_congr ?_, fun x hx => ?_⟩
  · cases x with
    | kernel k => rfl
    | entry w j => cases w <;> rfl
  · refine Eq.trans ?_ (hslots x hx)
    cases x with
    | kernel k => rfl
    | entry w j => cases w <;> rfl

theorem releaseTable_owned (h : Owned P m) (hpage : ∀ i < pageTableLen, P (.kernel i))
    (hno : ∀ f j, P (.entry (.frame f) j) → names m (.kernel (m.space proc).freeVpn) ≠ some f)
    (hrelease : releaseTable proc m = .ok m') (hv : (m.region1Pt (m.space proc).freeVpn).valid = true) :
    Owned P m' ∧ ∀ x : Slot, x ≠ .kernel (m.space proc).freeVpn → x.pte m' = x.pte m := by
  obtain ⟨i, hi, hrelease⟩ := bind_ok.1 hrelease
  obtain ⟨hi, hlt⟩ := index_ok.1 hi
  obtain rfl := Int.ofNat.inj hi
  obtain ⟨f, hf, -, rfl⟩ := freePage_ok.1 hrelease
  obtain rfl := Int.ofNat.inj hf
  have hother {x : Slot} (hx : x ≠ .kernel (m.space proc).freeVpn) (e : Pte) :
      x.pte (writeRegion1 m (m.space proc).freeVpn e) = x.pte m := pte_region1 hx ..
  have hnone (e : Pte) (he : e.valid = false) : names (writeRegion1 m (m.space proc).freeVpn e) (.kernel (m.space proc).freeVpn) = none :=
    names_none ((congrArg Pte.valid (region1_write_self ..)).trans he)
  have hwritten (e : Pte) (he : e.valid = false) : Owned P (writeRegion1 m (m.space proc).freeVpn e) := by
    refine ⟨h.small, h.holds.drop (fun x hx => ?_) (fun _ hf => hf), fun g j hg => ?_⟩
    · by_cases hxi : x = .kernel (m.space proc).freeVpn
      · subst hxi
        exact .inl (hnone e he)
      · exact .inr ⟨hx, names_congr (hother hxi e)⟩
    · obtain ⟨k, hk, hn⟩ := h.backed g j hg
      refine ⟨k, hk, (names_congr (hother (fun he => hno g j hg ?_) e)).trans hn⟩
      rwa [← Slot.kernel.inj he]
  refine ⟨(hwritten { m.region1Pt (m.space proc).freeVpn with valid := false } rfl).free fun x hx hn => ?_, fun x hx => (pte_mark ..).trans (hother hx _)⟩
  by_cases hxi : x = .kernel (m.space proc).freeVpn
  · rw [hxi, hnone _ rfl] at hn
    cases hn
  · rw [names_congr (hother hxi _)] at hn
    exact hxi (h.holds.apart _ _ _ hx (hpage _ hlt) hn (names_some.2 ⟨hv, rfl⟩))

end Yalnix.SwitchFrames
