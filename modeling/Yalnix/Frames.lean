import Yalnix.Ownership
import Yalnix.Allocation
import Yalnix.FrameLeak
import Yalnix.Layout

namespace Yalnix.Frames

open Loops Machine AddressSpace LoadProgram Accesses FreeList Allocation Ownership Layout FrameLeak

/-- What can hold a frame: an entry of Region 1, or one of the table at a word. -/
inductive Slot
  | kernel (i : Nat)
  | entry (w : Word) (j : Nat)

variable {m m' u : Memory} {t : TablePtr} {w : Word} {i : Int} {e : Pte} {f j k n : Nat} {P P' : Slot → Prop} {x : Slot}

def Slot.pte (m : Memory) : Slot → Pte
  | .kernel i => m.region1Pt i
  | .entry w j => w.read m j

def names (m : Memory) (x : Slot) : Option Nat := if (x.pte m).valid then some (x.pte m).pfn.toNat else none

/-- The valid slots in play name different frames, which are in use, and the
table a slot in play belongs to is itself in a frame of a page of Region 1 in play. -/
structure Owned (P : Slot → Prop) (m : Memory) : Prop where
  small : m.numPages < 2 ^ 20
  holds : Exclusive P (names m) (InUse m)
  backed : ∀ f j, P (.entry (.frame f) j) → ∃ i, P (.kernel i) ∧ names m (.kernel i) = some f

theorem names_some : names m x = some f ↔ (x.pte m).valid = true ∧ (x.pte m).pfn.toNat = f := by
  unfold names
  split <;> simp [*]

theorem names_none (h : (x.pte m).valid = false) : names m x = none := by simp [names, h]

theorem names_congr (h : x.pte m' = x.pte m) : names m' x = names m x := by rw [names, names, h]

theorem pte_write (h : x ≠ .entry w k) (m : Memory) (e : Pte) : x.pte (w.write m k e) = x.pte m := by
  cases x with
  | kernel i => exact congrFun (word_write_region1 ..) i
  | entry w' j =>
      by_cases hj : j = k
      · subst hj
        exact word_read_write_other (fun hw => h (congrArg (Slot.entry · j) hw)) ..
      · exact word_read_write_index hj ..

theorem kernel_ne (i : Nat) (w : Word) (k : Nat) : Slot.kernel i ≠ .entry w k := nofun

theorem pte_write_self (m : Memory) (w : Word) (k : Nat) (e : Pte) : (Slot.entry w k).pte (w.write m k e) = e :=
  word_read_write ..

theorem pte_mark (m : Memory) (f : Nat) (mark : PageMark) (c : Int) (x : Slot) :
    x.pte { setMark m f mark with numFreePages := c } = x.pte m := by
  cases x with
  | kernel i => rfl
  | entry w j => exact word_read_mark ..

theorem used_write (m : Memory) (w : Word) (k : Nat) (e : Pte) : InUse (w.write m k e) = InUse m := by
  cases w <;> rfl

theorem used_take (h : InUse m n) : InUse (take m f) n := by
  refine ⟨h.1, ?_⟩
  change put m.freePages f .pageUsed n = .pageUsed
  by_cases hn : n = f
  · rw [hn, put_self]
  · rw [put_of_ne hn]
    exact h.2

theorem not_used_head {l : List Nat} (h : freeList m = f :: l) : ¬ InUse m f := by
  rintro ⟨-, hu⟩
  rw [(head_free h).2] at hu
  cases hu

namespace Owned

theorem mono (h : Owned P m) (hP : ∀ x, P' x → P x)
    (hb : ∀ f j, P' (.entry (.frame f) j) → ∃ i, P' (.kernel i) ∧ names m (.kernel i) = some f) : Owned P' m :=
  ⟨h.small, h.holds.mono hP, hb⟩

theorem not_table (h : Owned P m) (hx : P x) (hn : names m x = some f) (hentry : ∀ i, x ≠ .kernel i) (j : Nat) :
    ¬ P (.entry (.frame f) j) := by
  intro hP
  obtain ⟨i, hi, hni⟩ := h.backed f j hP
  exact hentry i (h.holds.apart x (.kernel i) f hx hi hn hni)

theorem congr (h : Owned P m) (hn : m'.numPages = m.numPages) (hf : ∀ f, InUse m f → InUse m' f)
    (hpte : ∀ x, P x → names m' x = names m x) : Owned P m' := by
  refine ⟨hn ▸ h.small, h.holds.congr hpte hf, fun f j hP => ?_⟩
  obtain ⟨i, hi, hni⟩ := h.backed f j hP
  exact ⟨i, hi, (hpte _ hi).trans hni⟩

theorem write_none (h : Owned P m) (he : e.valid = false) : Owned P (w.write m k e) := by
  refine ⟨word_write_numPages m w k e ▸ h.small, h.holds.drop (fun x hx => ?_) (fun f hf => used_write m w k e ▸ hf),
    fun f j hP => ?_⟩
  · by_cases hxw : x = .entry w k
    · subst hxw
      exact .inl (names_none (by rwa [pte_write_self]))
    · exact .inr ⟨hx, names_congr (pte_write hxw ..)⟩
  · obtain ⟨i, hi, hni⟩ := h.backed f j hP
    exact ⟨i, hi, (names_congr (pte_write (kernel_ne _ _ _) ..)).trans hni⟩

theorem write_same (h : Owned P m) (hv : e.valid = (w.read m k).valid) (hp : e.pfn = (w.read m k).pfn) :
    Owned P (w.write m k e) := by
  refine h.congr (word_write_numPages ..) (fun f hf => used_write m w k e ▸ hf) fun x _ => ?_
  by_cases hxw : x = .entry w k
  · subst hxw
    unfold names
    rw [pte_write_self, hv, hp]
    rfl
  · exact names_congr (pte_write hxw ..)

theorem write_take {l : List Nat} (h : Owned P m) (hl : freeList m = f :: l) (he : e.valid = true) (hp : e.pfn.toNat = f)
    (hP : ∀ x, P' x → P x ∨ x = .entry w k)
    (hb : ∀ f j, P' (.entry (.frame f) j) → ∃ i, P' (.kernel i) ∧ names m (.kernel i) = some f) :
    Owned P' (w.write (take m f) k e) := by
  have hother {x : Slot} (hx : x ≠ .entry w k) : names (w.write (take m f) k e) x = names m x :=
    names_congr ((pte_write hx ..).trans (pte_mark ..))
  refine ⟨word_write_numPages (take m f) w k e ▸ h.small, ?_, fun g j hg => ?_⟩
  · refine h.holds.acquire (r := f) (x := .entry w k) (fun y hy _ hn => not_used_head hl (h.holds.taken y f hy hn)) ?_
      (fun y hy hne => ⟨(hP y hy).resolve_right hne, hother hne⟩) (fun q hq => ?_) ?_
    · rw [names_some, pte_write_self]
      exact ⟨he, hp⟩
    · rw [used_write]
      exact used_take hq
    · rw [used_write]
      exact ⟨(head_free hl).1, put_self ..⟩
  · obtain ⟨i, hi, hni⟩ := hb g j hg
    exact ⟨i, hi, (hother (kernel_ne _ _ _)).trans hni⟩

theorem free {c : Int} (h : Owned P m) (hf : ∀ x, P x → names m x ≠ some f) :
    Owned P { setMark m f .pageFree with numFreePages := c } := by
  have hnames (x : Slot) : names { setMark m f .pageFree with numFreePages := c } x = names m x := names_congr (pte_mark ..)
  refine ⟨h.small, (h.holds.release hf fun q hq hu => ?_).congr (fun x _ => hnames x) fun _ hq => hq, fun g j hP => ?_⟩
  · exact ⟨hu.1, (put_of_ne hq ..).trans hu.2⟩
  · obtain ⟨i, hi, hni⟩ := h.backed g j hP
    exact ⟨i, hi, (hnames _).trans hni⟩

theorem fill (h : Owned P m) (hf : ∀ j, ¬ P (.entry (.frame f) j)) (x : Nat → Pte) :
    Owned P { m with frames := put m.frames f x } := by
  refine h.congr rfl (fun _ hu => hu) fun y hy => names_congr ?_
  cases y with
  | kernel i => rfl
  | entry w j => exact word_read_copy (fun hw => hf j (hw ▸ hy)) ..

end Owned

theorem mapPage_owned {uprot kprot : BitVec 3} (h : Owned P m) (hl : freeList m ≠ []) (hmap : mapPage t uprot kprot i m = .ok m') :
    Owned P m' ∧ freeList m' = (freeList m).drop 1 := by
  obtain ⟨j, w, -, -, -, ⟨f, l, hf, rfl⟩ | ⟨hno, -⟩⟩ := mapPage_cases hmap
  · refine ⟨h.write_take hf rfl (pfn_frame h.small (head_free hf).1) (fun x hx => .inl hx) h.backed, ?_⟩
    rw [(SameMarks.word ..).list, freeList_take hf, hf]
    rfl
  · exact absurd hno hl

theorem mapPage_out {uprot kprot : BitVec 3} (h : Owned P m) (hw : Leads m t w) (hout : ∀ j, ¬ P (.entry w j))
    (hmap : mapPage t uprot kprot i m = .ok m') : Owned P m' := by
  by_cases hl : freeList m = []
  · obtain ⟨j, w', -, -, hw', ⟨f, l, hf, -⟩ | ⟨-, rfl⟩⟩ := mapPage_cases hmap
    · rw [hl] at hf
      cases hf
    · obtain rfl := leads_unique hw hw'
      refine h.congr (word_write_numPages ..) (fun f hf => used_write m w j _ ▸ hf) fun x hx => names_congr (pte_write ?_ ..)
      exact fun he => hout j (he ▸ hx)
  · exact (mapPage_owned h hl hmap).1

theorem mapPages_owned {uprot kprot : BitVec 3} {g : Nat → Int} {start : Nat} (h : Owned P m) (hn : n ≤ (freeList m).length)
    (hloop : upTo (fun i => mapPage t uprot kprot (g i)) start n m = .ok m') :
    Owned P m' ∧ freeList m' = (freeList m).drop n := by
  have hend := upTo_invariant (fun k u => Owned P u ∧ freeList u = (freeList m).drop (k - start))
    (fun k u v hk hlt hu hv => ?_) ⟨h, by rw [Nat.sub_self]; rfl⟩ hloop
  · rwa [Nat.add_sub_cancel_left] at hend
  · obtain ⟨hu, hlist⟩ := hu
    have hne : freeList u ≠ [] := by
      rw [hlist, ne_eq, List.drop_eq_nil_iff]
      omega
    obtain ⟨hv, hlist'⟩ := mapPage_owned hu hne hv
    refine ⟨hv, ?_⟩
    rw [hlist', hlist, List.drop_drop]
    congr 1
    omega

theorem freeEntry_owned (h : Owned P m) (hw : Leads m t w) (hin : k < kernelStackBase → P (.entry w k))
    (hfree : freeEntry t k m = .ok m') : Owned P m' := by
  rcases freeEntry_cases hw hfree with ⟨⟨hk, hv⟩, -, rfl⟩ | ⟨-, rfl⟩
  · have hwritten : Owned P (w.write m k { w.read m k with valid := false }) := h.write_none rfl
    have hmark : w.write { setMark m (w.read m k).pfn.toNat .pageFree with numFreePages := m.numFreePages + 1 } k
        { w.read m k with valid := false } =
        { setMark (w.write m k { w.read m k with valid := false }) (w.read m k).pfn.toNat .pageFree with
          numFreePages := m.numFreePages + 1 } := by
      cases w <;> rfl
    rw [hmark]
    refine hwritten.free fun x hx hn => ?_
    by_cases hxw : x = .entry w k
    · subst hxw
      rw [names_none (by rw [pte_write_self])] at hn
      cases hn
    · rw [names_congr (pte_write hxw ..)] at hn
      exact hxw (h.holds.apart _ _ _ hx (hin hk) hn (names_some.2 ⟨hv, rfl⟩))
  · exact h

theorem protectText_owned (h : Owned P m) (hp : protectText t k m = .ok m') : Owned P m' := by
  obtain ⟨e, he, hp⟩ := bind_ok.1 hp
  obtain ⟨j, w, hj, -, hw, rfl⟩ := readPte_ok.1 he
  obtain ⟨j', w', hj', -, hw', rfl⟩ := writePte_ok.1 hp
  obtain rfl := leads_unique hw hw'
  obtain rfl : j = j' := by omega
  exact h.write_same rfl rfl

/-- The frames that `LoadProgram` can give out once it has freed the old pages. -/
def available (m : Memory) (w : Word) : Nat :=
  (freeList m).length + (List.range kernelStackBase).countP fun j => (w.read m j).valid

def LoadOwned (m : Memory) (w : Word) (file : Option File) (args : List (List (BitVec 8))) : Prop :=
  ∀ li, Passes file args m li → (sizes m.cfg li args).textLen + (sizes m.cfg li args).dataLen +
    (sizes m.cfg li args).stackNpg.toNat ≤ available m w

theorem available_le (h : Owned P m) (hin : ∀ j, j < pageTableLen → P (.entry w j)) (hc : Cleared w m u) :
    available m w ≤ (freeList u).length := by
  have hslot {j : Nat} (hj : j ∈ (List.range kernelStackBase).filter fun j => (w.read m j).valid) :
      j < kernelStackBase ∧ P (.entry w j) ∧ names m (.entry w j) = some (w.read m j).pfn.toNat := by
    obtain ⟨hlt, hv⟩ := List.mem_filter.1 hj
    have hlt := List.mem_range.1 hlt
    refine ⟨hlt, hin j ?_, names_some.2 ⟨hv, rfl⟩⟩
    simp only [kernelStackBase, pageTableLen] at hlt ⊢
    omega
  have hnodup : (freeList m ++
      ((List.range kernelStackBase).filter fun j => (w.read m j).valid).map fun j => (w.read m j).pfn.toNat).Nodup := by
    refine List.nodup_append'.2 ⟨freeList_nodup m, ?_, fun f hf hf' => ?_⟩
    · refine List.Nodup.map_on (fun j hj k hk he => ?_) (List.nodup_range.filter _)
      obtain ⟨-, hPj, hnj⟩ := hslot hj
      obtain ⟨-, hPk, hnk⟩ := hslot hk
      exact (Slot.entry.inj (h.holds.apart _ _ _ hPj hPk hnj (he ▸ hnk))).2
    · obtain ⟨j, hj, rfl⟩ := List.mem_map.1 hf'
      obtain ⟨-, hPj, hnj⟩ := hslot hj
      have hused := (h.holds.taken _ _ hPj hnj).2
      rw [(mem_freeList.1 hf).2] at hused
      cases hused
  have hle : _ ≤ (freeList u).length := (List.subperm_of_subset hnodup fun f hf => ?_).length_le
  · rwa [List.length_append, List.length_map, ← List.countP_eq_length_filter] at hle
  · rcases List.mem_append.1 hf with hf | hf
    · obtain ⟨hlt, hfree⟩ := mem_freeList.1 hf
      exact mem_freeList.2 ⟨hc.fixed.numPages ▸ hlt, (hc.free f).2 (.inl hfree)⟩
    · obtain ⟨j, hj, rfl⟩ := List.mem_map.1 hf
      obtain ⟨hlt, hPj, hnj⟩ := hslot hj
      refine mem_freeList.2 ⟨hc.fixed.numPages ▸ (h.holds.taken _ _ hPj hnj).1, (hc.free _).2 (.inr ⟨j, hlt, ?_, rfl⟩)⟩
      exact (names_some.1 hnj).1

theorem layOut_owned {cfg : Config} {z : Sizes} (h : Owned P m) (hw : Leads m t w)
    (hin : ∀ j, j < pageTableLen → P (.entry w j))
    (henough : z.textLen + z.dataLen + z.stackNpg.toNat ≤ available m w)
    (hlay : layOut cfg t z m = .ok m') : Owned P m' := by
  obtain ⟨m₁, h₁, hlay⟩ := bind_ok.1 hlay
  obtain ⟨m₂, h₂, hlay⟩ := bind_ok.1 hlay
  obtain ⟨m₃, h₃, hlay⟩ := bind_ok.1 hlay
  obtain ⟨m₄, h₄, hlay⟩ := bind_ok.1 hlay
  have hfreed := upTo_invariant (fun k u => Owned P u ∧ Leads u t w) (fun k u v _ hk hu hv => ?_) ⟨h, hw⟩ h₁
  · have hclear := cleared hw h₁ h₂
    have hinvalid := upTo_invariant (fun k u => Owned P u ∧ Leads u t w) (fun k u v _ hk hu hv => ?_) hfreed h₂
    · have hlen := Nat.le_trans henough (available_le h hin hclear)
      obtain ⟨hm₃, hl₃⟩ := mapPages_owned hinvalid.1 (by omega) h₃
      obtain ⟨hm₄, hl₄⟩ := mapPages_owned hm₃ (by rw [hl₃, List.length_drop]; omega) h₄
      exact (mapPages_owned hm₄ (by rw [hl₄, hl₃, List.length_drop, List.length_drop]; omega) hlay).1
    · have hregion := SameRegion1.invalidate hv
      have hlead : Leads v t w := leads_congr hu.2 (Fixed.invalidate hv).numPages fun _ _ => congrFun hregion _
      obtain rfl := invalidate_cases hu.2 hv
      exact ⟨hu.1.write_none rfl, hlead⟩
  · have hregion := SameRegion1.freeEntry hv
    refine ⟨freeEntry_owned hu.1 hu.2 (fun hk => hin k ?_) hv,
      leads_congr hu.2 (Fixed.freeEntry hv).numPages fun _ _ => congrFun hregion _⟩
    simp only [kernelStackBase, pageTableLen] at hk ⊢
    omega

def wordOf : TablePtr → Word
  | .null | .region0Pt => .static
  | .page pg => .frame pg

theorem walk_read {page : Nat} (h : walk m page = .ok e) : e = (wordOf m.regPtr0).read m page := by
  unfold walk at h
  split at h
  case h_1 => cases h
  case h_2 hp =>
    rw [hp]
    exact (Except.ok.inj h).symm
  case h_3 pg hp =>
    rw [hp]
    exact (Except.ok.inj (ite_error_ok.1 h).2).symm

/-- A frame the running process can reach holds no table in play. -/
theorem userFrame_not_table {page : Nat} (h : Owned P m) (hin : ∀ j, j < pageTableLen → P (.entry (wordOf m.regPtr0) j))
    (hf : userFrame m page = .ok f) (j : Nat) : ¬ P (.entry (.frame f) j) := by
  obtain ⟨e, he, hf⟩ := bind_ok.1 hf
  obtain ⟨⟨hlt, hv, -⟩, hf⟩ := ite_error_ok.1 hf
  obtain rfl := Except.ok.inj hf
  obtain rfl := walk_read he
  exact h.not_table (hin page hlt) (names_some.2 ⟨hv, rfl⟩) (fun i => (kernel_ne _ _ _).symm) j

theorem storeByte_owned {vaddr : Nat} {x : BitVec 8} (h : Owned P m)
    (hin : ∀ j, j < pageTableLen → P (.entry (wordOf m.regPtr0) j)) (hs : storeByte vaddr x m = .ok m') : Owned P m' := by
  obtain ⟨f, hf, hs⟩ := bind_ok.1 hs
  obtain ⟨e, -, hs⟩ := bind_ok.1 hs
  obtain ⟨-, hs⟩ := ite_error_ok.1 hs
  obtain rfl := Except.ok.inj hs
  exact h.fill (userFrame_not_table h hin hf) _

theorem fill_owned {li : LoadInfo} {read : Option (List (BitVec 8))} {args : List (List (BitVec 8))} {z : Sizes}
    {info info' : ExceptionInfo} {r : Int} (h : Owned P m) (hin : ∀ j, j < pageTableLen → P (.entry (wordOf m.regPtr0) j))
    (hfill : fill t li read args z info m = .ok (r, info', m')) : Owned P m' := by
  have hrel := fill_relation (R := fun u v : Memory => Owned P u ∧ (∀ j, j < pageTableLen → P (.entry (wordOf u.regPtr0) j)) →
      Owned P v ∧ ∀ j, j < pageTableLen → P (.entry (wordOf v.regPtr0) j))
    (fun u hu => hu) (fun u v w huv hvw hu => hvw (huv hu))
    (fun vaddr x u v hs hu => ⟨storeByte_owned hu.1 hu.2 hs, by rw [(Fixed.storeByte hs).regPtr0]; exact hu.2⟩)
    (fun k u v hp hu => ⟨protectText_owned hu.1 hp, by rw [(Fixed.protectText hp).regPtr0]; exact hu.2⟩) hfill
  exact (hrel ⟨h, hin⟩).1

theorem pte_setSpace (m : Memory) (p : Nat) (sp : Space) (x : Slot) : x.pte (setSpace m p sp) = x.pte m := by
  cases x with
  | kernel i => rfl
  | entry w j => cases w <;> rfl

theorem Owned.setSpace (h : Owned P m) (p : Nat) (sp : Space) : Owned P (setSpace m p sp) :=
  h.congr rfl (fun _ hf => hf) fun x _ => names_congr (pte_setSpace m p sp x)

theorem loadProgram_owned {curr : Nat} {file : Option File} {args : List (List (BitVec 8))} {info info' : ExceptionInfo}
    {r : Int} (h : Owned P m) (hw : Leads m t w) (hin : ∀ j, j < pageTableLen → P (.entry w j))
    (hrun : ∀ j, j < pageTableLen → P (.entry (wordOf m.regPtr0) j))
    (henough : LoadOwned m w file args)
    (hload : loadProgram curr t file args info m = .ok (r, info', m')) : Owned P m' := by
  rcases loadProgram_ok hload with ⟨-, -, rfl⟩ | ⟨f, li, hf, hst, hv, ⟨-, -, -, rfl⟩ | ⟨hp, m₁, h₁, h₂⟩⟩
  · exact h
  · exact h.setSpace ..
  · have hlead : Leads (setSpace m curr { m.space curr with brk := newBrk (sizes m.cfg li args) }) t w :=
      leads_congr hw rfl fun _ _ => rfl
    have havail : available (setSpace m curr { m.space curr with brk := newBrk (sizes m.cfg li args) }) w = available m w := by
      cases w <;> rfl
    have hlay := layOut_owned (h.setSpace ..) hlead hin (havail ▸ henough li ⟨⟨f, hf, hst⟩, hv, hp⟩) h₁
    refine fill_owned (hlay.setSpace ..) ?_ h₂
    change ∀ j, j < pageTableLen → P (.entry (wordOf m₁.regPtr0) j)
    rw [(Fixed.layOut h₁).regPtr0]
    exact hrun

def without (P : Slot → Prop) (w : Word) (n : Nat) (x : Slot) : Prop := P x ∧ ∀ j < n, x ≠ .entry w j

theorem exitPages_owned {curr : Nat} (h : Owned P m) (hw : Leads m (m.space curr).region0 w)
    (hin : ∀ j, j < pageTableLen → P (.entry w j)) (hloop : upTo (exitPage curr) 0 pageTableLen m = .ok m') :
    Owned (without P w pageTableLen) m' := by
  have hend := upTo_invariant (fun k u => Owned (without P w k) u ∧ Fixed m u ∧ u.region1Pt = m.region1Pt)
    (fun k u v _ hk hu hv => ?_) ⟨h.mono (fun x hx => hx.1) fun f j hP => ?_, .refl m, rfl⟩ hloop
  · rw [Nat.zero_add] at hend
    exact hend.1
  · obtain ⟨hu, hfix, hregion⟩ := hu
    refine ⟨?_, hfix.trans (.exitPage hv), Eq.trans (SameRegion1.exitPage hv) hregion⟩
    have hless : Owned (without P w (k + 1)) u := by
      refine hu.mono (fun x hx => ⟨hx.1, fun j hj => hx.2 j (by omega)⟩) fun f j hP => ?_
      obtain ⟨i, hi, hni⟩ := hu.backed f j ⟨hP.1, fun j' hj' => hP.2 j' (by omega)⟩
      exact ⟨i, ⟨hi.1, fun _ _ => kernel_ne _ _ _⟩, hni⟩
    obtain ⟨e, he, hv⟩ := bind_ok.1 hv
    split at hv
    case isTrue hval =>
      obtain ⟨j, w', hj, hlt, hw', rfl⟩ := readPte_ok.1 he
      obtain rfl := Int.ofNat.inj hj
      rw [hfix.space] at hw'
      obtain rfl := leads_unique (Leads.of_fixed hw hfix hregion) hw'
      obtain ⟨f, hf, -, rfl⟩ := freePage_ok.1 hv
      obtain rfl := Int.ofNat.inj hf
      refine hless.free fun x hx hn => ?_
      have hentry : without P w k (.entry w k) := ⟨hin k hlt, fun j hj he => by
        have := (Slot.entry.inj he).2
        omega⟩
      have hkeep : without P w k x := ⟨hx.1, fun j hj => hx.2 j (by omega)⟩
      exact hx.2 k (by omega) (hu.holds.apart _ _ _ hkeep hentry hn (names_some.2 ⟨hval, rfl⟩))
    case isFalse =>
      obtain rfl := Except.ok.inj hv
      exact hless
  · obtain ⟨i, hi, hni⟩ := h.backed f j hP.1
    exact ⟨i, ⟨hi, fun _ _ => kernel_ne _ _ _⟩, hni⟩

theorem growStack_owned {curr vpn : Nat} (h : Owned P m)
    (henough : (toInt (toInt (m.space curr).sp - vpn)).toNat ≤ (freeList m).length) (hg : growStack curr vpn m = .ok m') :
    Owned P m' := by
  unfold growStack at hg
  dsimp only at hg
  obtain ⟨u, hu, hg⟩ := bind_ok.1 hg
  obtain rfl := Except.ok.inj hg
  exact (mapPages_owned h henough hu).1.setSpace ..

def brkPages (m : Memory) (curr addr : Nat) : Nat :=
  if roundedBrk addr < (m.space curr).brk then (toInt ((m.space curr).brk - roundedBrk addr)).toNat
  else (toInt (roundedBrk addr - (m.space curr).brk)).toNat

/-- A growing break finds frames, and the numbers of the pages that a falling
one passes are those of no frame in use, except for these pages of `region0Pt`. -/
def BrkOwned (P : Slot → Prop) (m : Memory) (curr addr : Nat) : Prop :=
  ((m.space curr).brk ≤ roundedBrk addr → brkPages m curr addr ≤ (freeList m).length) ∧
  (roundedBrk addr < (m.space curr).brk → memInvalidPages ≤ roundedBrk addr →
    ∀ k, (m.space curr).brk ≤ k → k < (m.space curr).brk + brkPages m curr addr → ∀ x, P x → names m x = some k →
      ∃ j, x = .entry .static j ∧ (m.space curr).brk ≤ j ∧ j < (m.space curr).brk + brkPages m curr addr)

theorem brkDown_owned (h : Owned P m) (hout : ∀ x, P x → names m x ≠ some k) (hb : brkDown k m = .ok m') :
    Owned P m' ∧ (∀ x : Slot, x ≠ .entry .static k → x.pte m' = x.pte m) ∧ (m'.region0Pt k).valid = false := by
  obtain ⟨u, hu, hb⟩ := bind_ok.1 hb
  obtain ⟨e, he, hb⟩ := bind_ok.1 hb
  obtain ⟨j, -, hj, hk, -, -⟩ := readPte_ok.1 he
  obtain rfl := Int.ofNat.inj hj
  rw [toInt_small (by omega) (by simp only [pageTableLen] at hk; omega)] at hu
  obtain ⟨f, hf, -, rfl⟩ := freePage_ok.1 hu
  obtain rfl := Int.ofNat.inj hf
  obtain ⟨j, w, hj, -, hw, rfl⟩ := writePte_ok.1 hb
  obtain rfl := Int.ofNat.inj hj
  cases hw
  have hfreed := h.free (c := m.numFreePages + 1) hout
  refine ⟨hfreed.write_none (w := .static) (k := k) rfl, fun x hx => (pte_write hx ..).trans (pte_mark ..), ?_⟩
  exact congrArg Pte.valid (put_self ..)

theorem Owned.play (h : Owned P m) (hP : ∀ x, P' x → P x ∨ names m x = none) (hk : ∀ i, P (.kernel i) → P' (.kernel i))
    (hb : ∀ f j, P' (.entry (.frame f) j) → P (.entry (.frame f) j)) : Owned P' m := by
  refine ⟨h.small, h.holds.drop (fun x hx => ?_) fun _ hf => hf, fun f j hx => ?_⟩
  · rcases hP x hx with hx | hn
    · exact .inr ⟨hx, rfl⟩
    · exact .inl hn
  · obtain ⟨i, hi, hni⟩ := h.backed f j (hb f j hx)
    exact ⟨i, hk i hi, hni⟩

def above (P : Slot → Prop) (brk n : Nat) (x : Slot) : Prop := P x ∧ ∀ j, brk ≤ j → j < brk + n → x ≠ .entry .static j

theorem brkFunc_owned {curr addr : Nat} {r : Int} (h : Owned P m) (hc : BrkOwned P m curr addr)
    (hb : brkFunc curr addr m = .ok (r, m')) : Owned P m' := by
  obtain ⟨hup, hdown⟩ := hc
  unfold brkFunc at hb
  dsimp only at hb
  split at hb
  case isTrue hlt =>
    obtain ⟨u, hu, hb⟩ := bind_ok.1 hb
    obtain ⟨-, rfl⟩ := Prod.mk.inj (Except.ok.inj hb)
    have hnames := hdown hlt.1 hlt.2
    have hn : brkPages m curr addr = (toInt ((m.space curr).brk - roundedBrk addr)).toNat := if_pos hlt.1
    rw [← hn] at hu
    have hend := upTo_invariant (fun k v => Owned (above P (m.space curr).brk (brkPages m curr addr)) v ∧
        (∀ x, above P (m.space curr).brk (brkPages m curr addr) x → names v x = names m x) ∧
        ∀ j, (m.space curr).brk ≤ j → j < k → (v.region0Pt j).valid = false) (fun k v v' hk hkn hv hv' => ?_) ⟨?_, ?_, ?_⟩ hu
    · obtain ⟨hend, -, hinv⟩ := hend
      refine (hend.play (fun x hx => ?_) (fun i hi => hi.1) fun f j hP => ⟨hP, ?_⟩).setSpace ..
      · by_cases habove : above P (m.space curr).brk (brkPages m curr addr) x
        · exact .inl habove
        · obtain ⟨j, hj, hjn, rfl⟩ : ∃ j, (m.space curr).brk ≤ j ∧ j < (m.space curr).brk + brkPages m curr addr ∧
              x = .entry .static j := by
            by_contra hno
            exact habove ⟨hx, fun j hj hjn he => hno ⟨j, hj, hjn, he⟩⟩
          exact .inr (names_none (hinv j hj hjn))
      · intro j' _ _ he
        cases (Slot.entry.inj he).1
    · obtain ⟨hv, hsame, hinv⟩ := hv
      have hout (x : Slot) (hx : above P (m.space curr).brk (brkPages m curr addr) x) : names v x ≠ some k := by
        intro hn
        rw [hsame x hx] at hn
        obtain ⟨j, rfl, hj, hjn⟩ := hnames k hk hkn x hx.1 hn
        exact hx.2 j hj hjn rfl
      obtain ⟨hv₂, hpte, hk'⟩ := brkDown_owned hv hout hv'
      refine ⟨hv₂, fun x hx => ?_, fun j hj hjk => ?_⟩
      · rw [names_congr (hpte x (hx.2 k hk hkn)), hsame x hx]
      · by_cases hjk' : j = k
        · rwa [hjk']
        · have hread := hpte (.entry .static j) fun he => hjk' (Slot.entry.inj he).2
          exact (congrArg Pte.valid hread).trans (hinv j hj (by omega))
    · refine h.mono (fun x hx => hx.1) fun f j hP => ?_
      obtain ⟨i, hi, hni⟩ := h.backed f j hP.1
      exact ⟨i, ⟨hi, fun _ _ _ => kernel_ne _ _ _⟩, hni⟩
    · exact fun _ _ => rfl
    · exact fun j hj hlt => absurd hj (by omega)
  case isFalse =>
    split at hb
    case isTrue hge =>
      obtain ⟨u, hu, hb⟩ := bind_ok.1 hb
      obtain ⟨-, rfl⟩ := Prod.mk.inj (Except.ok.inj hb)
      have hn : brkPages m curr addr = (toInt (roundedBrk addr - (m.space curr).brk)).toNat := if_neg (by omega)
      exact (mapPages_owned h (hn ▸ hup hge) hu).1.setSpace ..
    case isFalse =>
      obtain ⟨-, rfl⟩ := Prod.mk.inj (Except.ok.inj hb)
      exact h

/-- Malloc finds frames, and the pages it maps hold no table in play. -/
def HeapOwned (P : Slot → Prop) (m : Memory) (addr : Nat) : Prop :=
  m.vmEnabled = true → pagesNeeded m addr ≤ m.numFreePages → (pagesNeeded m addr).toNat ≤ (freeList m).length ∧
    ∀ k < (pagesNeeded m addr).toNat, ∀ i : Nat, currBrkPg m + k = i → ∀ f j, P (.entry (.frame f) j) → names m (.kernel i) ≠ some f

theorem setKernelBrk_owned {addr : Nat} {r : Int} (h : Owned P m) (hc : HeapOwned P m addr)
    (hb : setKernelBrk addr m = .ok (r, m')) : Owned P m' ∧
      ∀ f j, P (.entry (.frame f) j) → ∀ i, names m (.kernel i) = some f → names m' (.kernel i) = some f := by
  have hbreak {u : Memory} (hu : Owned P u) : Owned P { u with currKernelBrk := addr } :=
    hu.congr rfl (fun _ hf => hf) fun x _ => by cases x with
      | kernel i => rfl
      | entry w j => cases w <;> rfl
  rcases setKernelBrk_ok hb with ⟨-, -, -, rfl⟩ | ⟨-, -, rfl⟩ | ⟨hvm, hfree, -, u, hu, rfl⟩
  · exact ⟨h, fun _ _ _ _ hn => hn⟩
  · exact ⟨hbreak h, fun _ _ _ _ hn => hn⟩
  · obtain ⟨hlen, htables⟩ := hc hvm (Int.not_lt.1 hfree)
    have hend := upTo_invariant (fun k v => Owned P v ∧ freeList v = (freeList m).drop k ∧
        ∀ f j, P (.entry (.frame f) j) → ∀ i, names m (.kernel i) = some f → names v (.kernel i) = some f)
      (fun k v v' _ hk hv hv' => ?_) ⟨h, rfl, fun _ _ _ _ hn => hn⟩ hu
    · exact ⟨hbreak hend.1, hend.2.2⟩
    · obtain ⟨hv, hlist, hback⟩ := hv
      obtain ⟨i, hi, -, ⟨f, l, hf, rfl⟩ | ⟨hno, -⟩⟩ := mapKernelPage_cases hv'
      · have hother {x : Slot} (hx : x ≠ .kernel i) (e : Pte) : names (writeRegion1 (take v f) i e) x = names v x := by
          refine names_congr ?_
          cases x with
          | kernel i' => exact region1_write_of_ne (fun he => hx (congrArg Slot.kernel he)) ..
          | entry w j => cases w <;> rfl
        have hback' (e : Pte) (g j : Nat) (hg : P (.entry (.frame g) j)) (i' : Nat) (hn : names m (.kernel i') = some g) :
            names (writeRegion1 (take v f) i e) (.kernel i') = some g := by
          have hne : Slot.kernel i' ≠ .kernel i := fun he => by
            obtain rfl := Slot.kernel.inj he
            exact htables k (by omega) i' hi g j hg hn
          rw [hother hne]
          exact hback g j hg i' hn
        refine ⟨⟨hv.small, ?_, fun g j hg => ?_⟩, ?_, hback' _⟩
        · refine hv.holds.acquire (r := f) (x := .kernel i) (fun y hy _ hn => not_used_head hf (hv.holds.taken y f hy hn))
            (names_some.2 ⟨congrArg Pte.valid (region1_write_self ..), ?_⟩) (fun y hy hne => ⟨hy, hother hne _⟩)
            (fun q hq => used_take hq) ⟨(head_free hf).1, put_self ..⟩
          refine Eq.trans ?_ (pfn_frame hv.small (head_free hf).1)
          exact congrArg (fun e : Pte => e.pfn.toNat) (region1_write_self ..)
        · obtain ⟨i', hi', hn⟩ := h.backed g j hg
          exact ⟨i', hi', hback' _ g j hg i' hn⟩
        · change freeList (take v f) = _
          rw [freeList_take hf, ← List.drop_drop, ← hlist, hf]
          rfl
      · rw [hlist, List.drop_eq_nil_iff] at hno
        omega

end Yalnix.Frames
