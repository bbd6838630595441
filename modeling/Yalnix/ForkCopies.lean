import Yalnix.BorrowedPage
import Yalnix.NewTable
import Yalnix.Translation

namespace Yalnix.ForkCopies

open Loops Machine AddressSpace Accesses FreeList FreeCounter Layout Allocation ForkLoop BorrowedPage

variable {m m₀ m' : Memory} {w : Word} {b f i j k n parent child vp : Nat}

/-- The child as `BuildRegion0` leaves it: its table is in the frame with the number of its page. -/
structure Prepared (child vp : Nat) (m : Memory) : Prop where
  page : vp < pageTableLen
  table : (m.space child).region0 = .page (pageTableLen + vp)
  entry : (m.region1Pt vp).valid = true ∧ (m.region1Pt vp).pfn.toNat = pageTableLen + vp
  frame : pageTableLen + vp < m.numPages
  stack : ∀ j, kernelStackBase ≤ j → j < pageTableLen → (m.frames (pageTableLen + vp) j).valid = true

abbrev childTable (vp : Nat) : Word := .frame (pageTableLen + vp)

/-- The child of a running parent is ready to be filled, and `b` is the page that is borrowed. -/
structure Ready (parent child vp b : Nat) (w : Word) (m : Memory) : Prop where
  named : NamedUsed m
  small : m.numPages < 2 ^ 20
  leads : Leads m (m.space parent).region0 w
  running : Selects m w
  prepared : Prepared child vp m
  enough : validEntries m w pageTableLen ≤ (freeList m).length
  borrow : borrowPage m = some b

structure Faithful (child : Nat) (w wc : Word) (m m' : Memory) : Prop where
  valid : ∀ j < pageTableLen, (wc.read m' j).valid = (w.read m j).valid
  prot : ∀ j < pageTableLen, (w.read m j).valid = true →
    (wc.read m' j).uprot = (w.read m j).uprot ∧ (wc.read m' j).kprot = (w.read m j).kprot
  contents : ∀ j < pageTableLen, (w.read m j).valid = true →
    m'.frames (wc.read m' j).pfn.toNat = m.frames (w.read m j).pfn.toNat
  distinct : ∀ j < pageTableLen, ∀ k < pageTableLen, (w.read m j).valid = true → (w.read m k).valid = true →
    (wc.read m' j).pfn = (wc.read m' k).pfn → j = k
  fresh : ∀ j < pageTableLen, (w.read m j).valid = true →
    (wc.read m' j).pfn.toNat < m.numPages ∧ m.freePages (wc.read m' j).pfn.toNat = .pageFree
  others : ∀ q ≠ child, ∀ v, Leads m (m.space q).region0 v → ∀ j < pageTableLen, (v.read m j).valid = true →
    m'.frames (v.read m j).pfn.toNat = m.frames (v.read m j).pfn.toNat
  parent : ∀ j, w.read m' j = w.read m j
  region1Pt : m'.region1Pt = m.region1Pt

/-- The frame with the number of the borrowed page is there, and the frame of the child's table is
neither the parent's table nor a page of another process. -/
structure TableApart (child vp b : Nat) (w : Word) (m : Memory) : Prop where
  room : pageTableLen + b < m.numPages
  parent : w ≠ childTable vp
  unnamed : ∀ q ≠ child, ∀ v, Leads m (m.space q).region0 v → ∀ j < pageTableLen, (v.read m j).valid = true →
    (v.read m j).pfn.toNat ≠ pageTableLen + vp

def ForksFaithfully (parent child : Nat) (w wc : Word) (m : Memory) : Prop :=
  ∃ m', switchFork parent child m = .ok m' ∧ Faithful child w wc m m' ∧
    ∀ keep c, c.mem = m → Translation.Current c → ∃ c', Translation.switchFork keep parent child c = .ok c' ∧ c'.mem = m'

theorem buildRegion0_prepared (hsmall : m.numPages < 2 ^ 20) (h : buildRegion0 child m = .ok m') :
    ∃ vp, Prepared child vp m' := by
  obtain ⟨i, -, hi, -, hframe, hloop⟩ := buildRegion0_ok h
  obtain ⟨-, js, hjs, -, hmap, -⟩ := Layout.mapLoop (g := fun a => (a : Int)) (fun a b he => Int.ofNat.inj he)
    (show (NewTable.withTable child i m).numPages < 2 ^ 20 from hsmall) (NewTable.withTable_leads _ hi hframe) hloop
  refine ⟨i, hi, ?_, ?_, hmap.fixed.numPages ▸ hframe, fun j hlo hhi => ?_⟩
  · rw [hmap.fixed.space]
    exact congrArg Space.region0 (setSpace_space_self ..)
  · rw [hmap.region1Pt]
    rw [NewTable.withTable_entry]
    exact ⟨rfl, NewTable.tablePfn hi⟩
  · exact hmap.valid j ((hjs j).2 ⟨j, hlo, hhi, rfl⟩)

theorem Prepared.leads (h : Prepared child vp m) : Leads m (m.space child).region0 (childTable vp) := by
  have hlt : pageTableLen + vp < 2 * pageTableLen := by
    have := h.page
    omega
  rw [h.table]
  refine .frame (kernelFrame_ok.2 ⟨⟨Nat.le_add_right .., hlt⟩, ?_⟩)
  rw [Nat.add_sub_cancel_left]
  exact ⟨h.entry.1, h.entry.2, h.frame⟩

namespace Ready

theorem kept (h : Ready parent child vp b w m) : Kept m w := kept_of_named h.named h.leads

theorem kept_child (h : Ready parent child vp b w m) : Kept m (childTable vp) := kept_of_named h.named h.prepared.leads

theorem table_used (h : Ready parent child vp b w m) : m.freePages (pageTableLen + vp) = .pageUsed := h.kept_child _ rfl

end Ready

theorem validEntries_mono (h : j ≤ k) : validEntries m w j ≤ validEntries m w k := by
  induction h with
  | refl => exact Nat.le_refl _
  | step _ ih =>
      rw [validEntries_succ]
      omega

theorem validEntries_lt (h : j < k) (hv : (w.read m j).valid = true) : validEntries m w j < validEntries m w k := by
  have hsucc : validEntries m w (j + 1) = validEntries m w j + 1 := by
    rw [validEntries_succ, hv]
    rfl
  have := validEntries_mono (m := m) (w := w) (show j + 1 ≤ k from h)
  omega

theorem newFrame_inj (henough : validEntries m w n ≤ (freeList m).length) (hj : j < n) (hk : k < n)
    (hvj : (w.read m j).valid = true) (hvk : (w.read m k).valid = true) (he : newFrame m w j = newFrame m w k) : j = k := by
  have hget (i : Nat) (hi : i < n) (hv : (w.read m i).valid = true) :
      ∃ h : validEntries m w i < (freeList m).length, newFrame m w i = (freeList m)[validEntries m w i] := by
    have hlt : validEntries m w i < (freeList m).length := Nat.lt_of_lt_of_le (validEntries_lt hi hv) henough
    refine ⟨hlt, ?_⟩
    rw [newFrame, List.getD_eq_getElem?_getD, List.getElem?_eq_getElem hlt]
    rfl
  obtain ⟨h₁, he₁⟩ := hget j hj hvj
  obtain ⟨h₂, he₂⟩ := hget k hk hvk
  rw [he₁, he₂] at he
  have hcount := (freeList_nodup m).getElem_inj_iff.1 he
  rcases Nat.lt_trichotomy j k with hlt | heq | hlt
  · have := validEntries_lt hlt hvj
    omega
  · exact heq
  · have := validEntries_lt hlt hvk
    omega

theorem taken_used (hc : Copied m₀ w (childTable vp) b i m) (hf : m₀.freePages f = .pageUsed) : f ∉ taken m₀ w i := fun hmem => by
  have hfree := (mem_taken hc hmem).2
  rw [hf] at hfree
  cases hfree

theorem others_kept (hr : Ready parent child vp b w m₀) (ha : TableApart child vp b w m₀)
    (hc : Copied m₀ w (childTable vp) b i m) {q : Nat} {v : Word} (hq : q ≠ child) (hv : Leads m₀ (m₀.space q).region0 v)
    (hj : j < pageTableLen) (hvalid : (v.read m₀ j).valid = true) :
    m.frames (v.read m₀ j).pfn.toNat = m₀.frames (v.read m₀ j).pfn.toNat := by
  refine hc.contents _ (fun he => ?_) (taken_used hc (hr.named.region0 q v hv j hj hvalid).2)
  exact ha.unnamed q hq v hv j hj hvalid (Word.frame.inj he).symm

theorem parent_kept (hr : Ready parent child vp b w m₀) (ha : TableApart child vp b w m₀)
    (hc : Copied m₀ w (childTable vp) b i m) (j : Nat) : w.read m j = w.read m₀ j := by
  cases w with
  | static => exact congrFun (hc.static nofun) j
  | frame f =>
      have hsame : m.frames f = m₀.frames f := hc.contents f ha.parent.symm (taken_used hc (hr.kept f rfl))
      exact congrFun hsame j

/-- The pages below `i` are copied, and the borrowed entry is in use. -/
structure Filling (m₀ : Memory) (w wc : Word) (b i : Nat) (m : Memory) : Prop where
  copied : Copied m₀ w wc b i m
  borrowed : (m.region1Pt b).valid = true
  pages : ∀ j < i, (w.read m₀ j).valid = true → m.frames (newFrame m₀ w j) = m₀.frames (w.read m₀ j).pfn.toNat

def filled (m : Memory) (wc : Word) (p : Pte) (b page f source : Nat) : Memory :=
  { withFrame m wc p b page f with
    frames := put (withFrame m wc p b page f).frames f ((withFrame m wc p b page f).frames source) }

theorem forkPage_filled {wc : Word} {l : List Nat} (hsmall : m.numPages < 2 ^ 20) (hsel : Selects m w)
    (hw : Leads m (m.space parent).region0 w) (hwc : Leads m (m.space child).region0 wc) (hne : w ≠ wc)
    (hi : i < pageTableLen) (hv : (w.read m i).valid = true) (hpfn : (w.read m i).pfn.toNat < m.numPages)
    (hl : freeList m = f :: l) (hb : b < pageTableLen) (hborrowed : (m.region1Pt b).valid = true) :
    forkPage parent child b i m = .ok (filled m wc (w.read m i) b i f (w.read m i).pfn.toNat) := by
  let p := w.read m i
  let u := wc.write (take m f) i { wc.read m i with valid := true, uprot := p.uprot, kprot := p.kprot, pfn := BitVec.ofInt 20 f }
  have hspace : u.space = m.space := by cases wc <;> rfl
  have hregion1 : u.region1Pt = m.region1Pt := by cases wc <;> rfl
  have hnum : u.numPages = m.numPages := by cases wc <;> rfl
  have hptr : u.regPtr0 = m.regPtr0 := by cases wc <;> rfl
  have hread : readPte u (u.space child).region0 i = .ok (wc.read u i) := by
    rw [hspace]
    exact readPte_ok.2 ⟨i, wc, rfl, hi, leads_congr hwc hnum fun _ _ => congrFun hregion1 _, rfl⟩
  have hentry : wc.read u i = { wc.read m i with valid := true, uprot := p.uprot, kprot := p.kprot, pfn := BitVec.ofInt 20 f } :=
    word_read_write ..
  -- the source is found through REG_PTR0, the destination through the borrowed entry
  have hu : w.read u i = w.read (take m f) i := word_read_write_other hne ..
  have hwu : w.read (withFrame m wc p b i f) i = p := by
    have hborrow : w.read (withFrame m wc p b i f) i = w.read u i := by cases w <;> rfl
    rw [hborrow, hu]
    cases w <;> rfl
  have hselu : Selects (withFrame m wc p b i f) w := selects_congr hsel hptr hnum
  have hsource : userFrame (withFrame m wc p b i f) i = .ok p.pfn.toNat := by
    refine bind_ok.2 ⟨p, ?_, ite_error_ok.2 ⟨⟨hi, hv, ?_⟩, rfl⟩⟩
    · rw [hselu.walk, hwu]
    · exact lt_of_lt_of_eq hpfn hnum.symm
  have hdest : kernelFrame (withFrame m wc p b i f) (pageTableLen + b) = .ok f := by
    have hself : (withFrame m wc p b i f).region1Pt b = { u.region1Pt b with pfn := BitVec.ofInt 20 f } := put_self ..
    refine kernelFrame_ok.2 ⟨⟨Nat.le_add_right .., by omega⟩, ?_⟩
    rw [Nat.add_sub_cancel_left, hself, hregion1]
    exact ⟨hborrowed, pfn_frame hsmall (head_free hl).1, lt_of_lt_of_eq (head_free hl).1 hnum.symm⟩
  refine bind_ok.2 ⟨p, readPte_ok.2 ⟨i, w, rfl, hi, hw, rfl⟩, ?_⟩
  rw [if_pos hv]
  refine bind_ok.2 ⟨u, mapPage_take p.uprot p.kprot hwc hi hl, bind_ok.2 ⟨_, hread, ?_⟩⟩
  rw [hentry]
  exact copyPage_ok.2 ⟨_, f, hsource, hdest, rfl⟩

theorem forkPage_skipped {wc : Word} (hw : Leads m (m.space parent).region0 w) (hwc : Leads m (m.space child).region0 wc)
    (hi : i < pageTableLen) (hv : (w.read m i).valid = false) :
    forkPage parent child b i m = .ok (wc.write m i { wc.read m i with valid := false }) := by
  refine bind_ok.2 ⟨w.read m i, readPte_ok.2 ⟨i, w, rfl, hi, hw, rfl⟩, ?_⟩
  rw [if_neg (Bool.eq_false_iff.1 hv)]
  exact bind_ok.2 ⟨_, readPte_ok.2 ⟨i, wc, rfl, hi, hwc, rfl⟩, writePte_ok.2 ⟨i, wc, rfl, hi, hwc, rfl⟩⟩

/-- A page filled before is in none of the frames that the next round writes. -/
theorem pages_kept (hr : Ready parent child vp b w m₀) (hc : Copied m₀ w (childTable vp) b i m) (hj : j < i)
    (hv : (w.read m₀ j).valid = true) : newFrame m₀ w j ≠ pageTableLen + vp ∧ ∀ l, freeList m = f :: l → newFrame m₀ w j ≠ f := by
  have hmem : newFrame m₀ w j ∈ taken m₀ w i := (mem_taken_iff hc.enough).2 ⟨j, hj, hv, rfl⟩
  refine ⟨fun he => ?_, fun l hl he => ?_⟩
  · have hfree := (mem_taken hc hmem).2
    rw [he, hr.table_used] at hfree
    cases hfree
  · have hused := hc.takes.used hmem
    rw [he, (head_free hl).2] at hused
    cases hused

theorem filling_valid {l : List Nat} (hr : Ready parent child vp b w m₀) (ha : TableApart child vp b w m₀)
    (hparent : parent ≠ child) (h : Filling m₀ w (childTable vp) b i m) (hi : i < pageTableLen)
    (hv : (w.read m₀ i).valid = true) (hl : freeList m = f :: l) :
    Filling m₀ w (childTable vp) b (i + 1) (filled m (childTable vp) (w.read m i) b i f (w.read m i).pfn.toNat) := by
  have hc := h.copied
  have hread : w.read m i = w.read m₀ i := parent_kept hr ha hc i
  have hfree : f ∉ taken m₀ w i ∧ m₀.freePages f = .pageFree := by
    have hlist := hc.takes.list
    rw [hl] at hlist
    have hmem : f ∈ freeList m₀ := by
      rw [hlist]
      simp
    refine ⟨fun ht => ?_, (mem_freeList.1 hmem).2⟩
    have hused := hc.takes.used ht
    rw [(head_free hl).2] at hused
    cases hused
  have hne {v : Word} (hk : Kept m₀ v) : v ≠ .frame f := by
    rintro rfl
    rw [hk f rfl] at hfree
    cases hfree.2
  have hcopied := copied_valid (w.read m i).pfn.toNat hc hv hl (hne hr.kept) (hne hr.kept_child)
  have hword (g : Nat) (hg : g ≠ pageTableLen + vp) :
      (withFrame m (childTable vp) (w.read m i) b i f).frames g = m.frames g := put_of_ne hg ..
  refine ⟨hcopied, ?_, fun j hj hvj => ?_⟩
  · have hself : (withFrame m (childTable vp) (w.read m i) b i f).region1Pt b =
        { m.region1Pt b with pfn := BitVec.ofInt 20 f } := put_self ..
    change ((withFrame m (childTable vp) (w.read m i) b i f).region1Pt b).valid = true
    rw [hself]
    exact h.borrowed
  · change put _ f _ (newFrame m₀ w j) = _
    rcases Nat.lt_succ_iff_lt_or_eq.1 hj with hj | rfl
    · obtain ⟨htable, hnew⟩ := pages_kept (f := f) hr hc hj hvj
      rw [put_of_ne (hnew l hl), hword _ htable]
      exact h.pages j hj hvj
    · have hlist : freeList m₀ = taken m₀ w j ++ f :: l := by rw [hc.takes.list, hl]
      have hsource : (w.read m j).pfn.toNat ≠ pageTableLen + vp := by
        rw [hread]
        exact ha.unnamed parent hparent w hr.leads j hi hvj
      rw [(taken_succ_valid hvj hlist hc.enough).2.1, put_self, hword _ hsource, hread]
      exact others_kept hr ha hc hparent hr.leads hi hvj

theorem filling_invalid (hr : Ready parent child vp b w m₀) (h : Filling m₀ w (childTable vp) b i m)
    (hb : (w.read m₀ i).valid = false) :
    Filling m₀ w (childTable vp) b (i + 1)
      ((childTable vp).write m i { (childTable vp).read m i with valid := false }) := by
  refine ⟨copied_invalid h.copied hb, h.borrowed, fun j hj hv => ?_⟩
  rcases Nat.lt_succ_iff_lt_or_eq.1 hj with hj | rfl
  · have htable := (pages_kept (f := 0) hr h.copied hj hv).1
    exact (put_of_ne htable ..).trans (h.pages j hj hv)
  · rw [hb] at hv
    cases hv

theorem forkPage_filling (hr : Ready parent child vp b w m₀) (ha : TableApart child vp b w m₀) (hparent : parent ≠ child)
    (hi : i < pageTableLen) (h : Filling m₀ w (childTable vp) b i m) :
    ∃ m', forkPage parent child b i m = .ok m' ∧ Filling m₀ w (childTable vp) b (i + 1) m' := by
  have hc := h.copied
  have hread : w.read m i = w.read m₀ i := parent_kept hr ha hc i
  have hne {t : TablePtr} {v : Word} (hl : Leads m₀ t v) := borrowed_ne hr.borrow hl
  have hw : Leads m (m.space parent).region0 w := by
    rw [hc.fixed.space]
    exact hc.leads hr.leads (hne hr.leads)
  have hwc : Leads m (m.space child).region0 (childTable vp) := by
    rw [hc.fixed.space]
    exact hc.leads hr.prepared.leads (hne hr.prepared.leads)
  cases hv : (w.read m₀ i).valid with
  | true =>
      have hleft : 0 < (freeList m).length := by
        have hcount := validEntries_lt hi hv
        have hlen := congrArg List.length hc.takes.list
        rw [List.length_append, taken, List.length_take] at hlen
        have := hr.enough
        omega
      obtain ⟨f, l, hl⟩ := List.exists_cons_of_length_pos hleft
      have hpfn : (w.read m i).pfn.toNat < m.numPages := by
        rw [hread, hc.fixed.numPages]
        exact (hr.named.region0 parent w hr.leads i hi hv).1
      have hstep := forkPage_filled (lt_of_eq_of_lt hc.fixed.numPages hr.small)
        (selects_congr hr.running hc.fixed.regPtr0 hc.fixed.numPages) hw hwc ha.parent hi (hread ▸ hv) hpfn hl
        (borrowPage_some hr.borrow).1 h.borrowed
      exact ⟨_, hstep, filling_valid hr ha hparent h hi hv hl⟩
  | false => exact ⟨_, forkPage_skipped hw hwc hi (hread ▸ hv), filling_invalid hr h hv⟩

def returned (m : Memory) (child b : Nat) (u : Memory) : Memory :=
  { setMark (writeRegion1 u b (m.region1Pt b)) (pageTableLen + b) .pageFree with
    regPtr0 := .page (pageTableLen + (m.space child).freeVpn) }

theorem switchFork_filled (hr : Ready parent child vp b w m) (ha : TableApart child vp b w m) (hparent : parent ≠ child) :
    ∃ u, switchFork parent child m = .ok (returned m child b u) ∧ Filling m w (childTable vp) b pageTableLen u := by
  have hstart : Filling m w (childTable vp) b 0 (writeRegion1 m b (tempEntry (m.region1Pt b))) := by
    refine ⟨copied_start .., ?_, nofun⟩
    rw [region1_write_self]
    rfl
  obtain ⟨u, hu, hfill⟩ := upTo_total (Filling m w (childTable vp) b) (n := pageTableLen)
    (fun i v _ hi hv => forkPage_filling hr ha hparent (by omega) hv) hstart
  rw [Nat.zero_add] at hfill
  have hfixed := hfill.copied.fixed
  have hindex : index (borrowR1Page m) pageTableLen = .ok b := by
    unfold borrowR1Page
    rw [hr.borrow]
    exact index_nat.2 (borrowPage_some hr.borrow).1
  have hframe : index ((b : Int) + pageTableLen) (writeRegion1 u b (m.region1Pt b)).numPages = .ok (pageTableLen + b) := by
    refine index_ok.2 ⟨by omega, ?_⟩
    exact lt_of_lt_of_eq ha.room hfixed.numPages.symm
  refine ⟨u, ?_, hfill⟩
  refine bind_ok.2 ⟨b, hindex, bind_ok.2 ⟨u, hu, bind_ok.2 ⟨_, bind_ok.2 ⟨_, hframe, rfl⟩, ?_⟩⟩⟩
  have hspace : (setMark (writeRegion1 u b (m.region1Pt b)) (pageTableLen + b) .pageFree).space = m.space := hfixed.space
  rw [returned, ← hspace]
  rfl

theorem returned_read (v : Word) (u : Memory) (j : Nat) : v.read (returned m child b u) j = v.read u j := by cases v <;> rfl

theorem filling_faithful {u : Memory} (hr : Ready parent child vp b w m) (ha : TableApart child vp b w m)
    (h : Filling m w (childTable vp) b pageTableLen u) : Faithful child w (childTable vp) m (returned m child b u) := by
  have hc := h.copied
  have hpfn (j : Nat) (hj : j < pageTableLen) (hv : (w.read m j).valid = true) :
      ((childTable vp).read (returned m child b u) j).pfn.toNat = newFrame m w j := by
    rw [returned_read]
    exact hc.pfn hr.small hj hv
  refine ⟨fun j hj => ?_, fun j hj hv => ?_, fun j hj hv => ?_, fun j hj k hk hvj hvk he => ?_, fun j hj hv => ?_,
    fun q hq v hl j hj hv => others_kept hr ha hc hq hl hj hv, fun j => ?_, funext fun k => ?_⟩
  · rw [returned_read]
    exact hc.valid_iff hj
  · rw [returned_read, hc.child, if_pos hj, copiedEntry, if_pos hv]
    exact ⟨rfl, rfl⟩
  · rw [hpfn j hj hv]
    exact h.pages j hj hv
  · have hnew := hpfn j hj hvj
    rw [he, hpfn k hk hvk] at hnew
    exact newFrame_inj hr.enough hj hk hvj hvk hnew.symm
  · rw [hpfn j hj hv]
    exact mem_taken hc (hc.newFrame_mem hj hv)
  · rw [returned_read]
    exact parent_kept hr ha hc j
  · change put u.region1Pt b (m.region1Pt b) k = m.region1Pt k
    by_cases hk : k = b
    · rw [hk, put_self]
    · rw [put_of_ne hk]
      exact hc.region1 k hk

theorem table_changes {u : Memory} (hr : Ready parent child vp b w m) (hc : Copied m w (childTable vp) b pageTableLen u) :
    u.frames (pageTableLen + vp) ≠ m.frames (pageTableLen + vp) := by
  intro he
  have hlt : kernelStackBase < pageTableLen := by decide
  have hold : (m.frames (pageTableLen + vp) kernelStackBase).valid = true := hr.prepared.stack _ (Nat.le_refl _) hlt
  have hsame : (childTable vp).read u kernelStackBase = (childTable vp).read m kernelStackBase := congrFun he _
  cases hv : (w.read m kernelStackBase).valid with
  | true =>
      have hfree := (mem_taken hc (hc.newFrame_mem hlt hv)).2
      rw [← hc.pfn hr.small hlt hv, hsame, (hr.named.region0 child _ hr.prepared.leads _ hlt hold).2] at hfree
      cases hfree
  | false =>
      have hvalid := hc.valid_iff hlt
      rw [hsame, hv] at hvalid
      exact absurd (hold.symm.trans hvalid) (by decide)

theorem faithful_apart (hr : Ready parent child vp b w m)
    (h : ForksFaithfully parent child w (childTable vp) m) : TableApart child vp b w m := by
  obtain ⟨m', hm', hf, -⟩ := h
  obtain ⟨b', u, hb', hroom, hc, rfl⟩ := switchFork_copied hr.small hr.leads hr.prepared.leads hr.kept hr.kept_child hm'
  obtain rfl := Option.some.inj (hr.borrow.symm.trans hb')
  have hchange := table_changes hr hc
  refine ⟨hroom, ?_, fun q hq v hl j hj hv he => ?_⟩
  · rintro rfl
    exact hchange (funext hf.parent)
  · have hsame := hf.others q hq v hl j hj hv
    rw [he] at hsame
    exact hchange hsame

/-- `SwitchFork` copies the parent, whatever the TLB keeps, exactly when there is a frame with the number of
the borrowed page and the frame of the child's table is neither the parent's table nor a page of another process. -/
theorem forks_faithfully_iff (hr : Ready parent child vp b w m) (hparent : parent ≠ child) :
    ForksFaithfully parent child w (childTable vp) m ↔ TableApart child vp b w m := by
  refine ⟨faithful_apart hr, fun ha => ?_⟩
  obtain ⟨u, hu, hfill⟩ := switchFork_filled hr ha hparent
  refine ⟨_, hu, filling_faithful hr ha hfill, fun keep c hmem hc => ?_⟩
  subst hmem
  obtain ⟨c', hc', hmem', -⟩ := Translation.switchFork_tracks keep hc hr.small hr.running hr.leads hr.prepared.leads hr.kept
    hr.kept_child ha.parent hu
  exact ⟨c', hc', hmem'⟩

def sharedFacts (stack : Nat) : Bool :=
  decide (validEntries (twoProcs stack) .static pageTableLen ≤ (freeList (twoProcs stack)).length) &&
  decide (borrowPage (twoProcs stack) = some 2)

theorem shared_facts : sharedFacts 700 = true ∧ sharedFacts 1018 = true := by
  decide +kernel

theorem twoProcs_ready {stack : Nat} (hstack : stack + 4 ≤ 1024) (hfacts : sharedFacts stack = true) :
    Ready 0 1 509 2 .static (twoProcs stack) := by
  simp only [sharedFacts, Bool.and_eq_true, decide_eq_true_eq] at hfacts
  refine ⟨twoProcs_namedUsed hstack, (by decide : 1024 < 2 ^ 20), (twoProcs_leads stack).1, .static rfl, ?_, hfacts.1, hfacts.2⟩
  exact ⟨by decide, rfl, ⟨rfl, rfl⟩, (by decide : 1021 < 1024), fun j hlo _ => decide_eq_true hlo⟩

/-- The last page of the stack of process 0 is in the frame that `BuildRegion0` took for the table of process 1. -/
theorem table_frame_shared :
    Ready 0 1 509 2 .static (twoProcs 1018) ∧ ¬ ForksFaithfully 0 1 .static (childTable 509) (twoProcs 1018) := by
  have hready : Ready 0 1 509 2 .static (twoProcs 1018) := twoProcs_ready (by decide) shared_facts.2
  refine ⟨hready, fun h => ?_⟩
  exact (faithful_apart hready h).unnamed 0 (by decide) .static (twoProcs_leads 1018).1 511 (by decide) rfl rfl

theorem forks_faithfully_iff_twoProcs : ForksFaithfully 0 1 .static (childTable 509) (twoProcs 700) := by
  refine (forks_faithfully_iff (twoProcs_ready (by decide) shared_facts.1) (by decide)).2
    ⟨(by decide : pageTableLen + 2 < 1024), nofun, fun q hq v hv j hj _ => ?_⟩
  have hspace : ((twoProcs 700).space q).region0 = .region0Pt := by
    change (if q = 1 then _ else _ : Space).region0 = _
    rw [if_neg hq]
  rw [hspace] at hv
  obtain rfl := leads_unique .static hv
  change (BitVec.ofNat 20 (700 + (j - kernelStackBase))).toNat ≠ pageTableLen + 509
  rw [BitVec.toNat_ofNat]
  simp only [pageTableLen, kernelStackBase] at hj ⊢
  omega

end Yalnix.ForkCopies
