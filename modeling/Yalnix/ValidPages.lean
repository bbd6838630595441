import Yalnix.Isolation
import Yalnix.StackGrowth

namespace Yalnix.ValidPages

open Loops Machine AddressSpace LoadProgram Accesses FreeList Layout Allocation StackGrowth Frames SwitchFrames Isolation

variable {m m' u : Memory} {P : Slot → Prop} {w v : Word} {ptr : TablePtr} {cfg : Config} {z : Sizes} {info info' : ExceptionInfo} {r : Int}
  {limit brk sp curr i j k n : Nat}

theorem protectText_read (h : protectText ptr k m = .ok m') (v : Word) (j : Nat) :
    ∃ kprot, v.read m' j = { v.read m j with kprot } := by
  obtain ⟨e, he, h⟩ := bind_ok.1 h
  obtain ⟨i, w, hi, -, hw, rfl⟩ := readPte_ok.1 he
  obtain ⟨i', w', hi', -, hw', rfl⟩ := writePte_ok.1 h
  obtain rfl := Int.ofNat.inj hi
  obtain rfl := Int.ofNat.inj hi'
  obtain rfl := leads_unique hw hw'
  by_cases hx : Slot.entry v j = .entry w k
  · obtain ⟨rfl, rfl⟩ := Slot.entry.inj hx
    exact ⟨_, word_read_write ..⟩
  · exact ⟨(v.read m j).kprot, pte_write hx ..⟩

theorem protectText_valid (h : protectText ptr k m = .ok m') (v : Word) (j : Nat) :
    (v.read m' j).valid = (v.read m j).valid := by
  obtain ⟨kprot, he⟩ := protectText_read h v j
  rw [he]

theorem storeByte_read {vaddr : Nat} {x : BitVec 8} (h : Owned P m) (hrun : ∀ j, j < pageTableLen → P (.entry (wordOf m.regPtr0) j))
    (hs : storeByte vaddr x m = .ok m') (hv : P (.entry v j)) : v.read m' j = v.read m j := by
  obtain ⟨f, hf, hs⟩ := bind_ok.1 hs
  obtain ⟨e, -, hs⟩ := bind_ok.1 hs
  obtain ⟨-, hs⟩ := ite_error_ok.1 hs
  obtain rfl := Except.ok.inj hs
  have hno := userFrame_not_table h hrun hf
  exact word_read_copy (fun he => hno j (he ▸ hv)) ..

theorem storeByte_valid {vaddr : Nat} {x : BitVec 8} (h : Owned P m) (hrun : ∀ j, j < pageTableLen → P (.entry (wordOf m.regPtr0) j))
    (hs : storeByte vaddr x m = .ok m') (hv : P (.entry v j)) : (v.read m' j).valid = (v.read m j).valid :=
  congrArg Pte.valid (storeByte_read h hrun hs hv)

theorem fill_valid {li : LoadInfo} {read : Option (List (BitVec 8))} {args : List (List (BitVec 8))} (h : Owned P m)
    (hrun : ∀ j, j < pageTableLen → P (.entry (wordOf m.regPtr0) j)) (hfill : fill ptr li read args z info m = .ok (r, info', m'))
    (hv : P (.entry v j)) : (v.read m' j).valid = (v.read m j).valid := by
  have hrel := fill_relation (R := fun u u' => Owned P u ∧ (∀ j, j < pageTableLen → P (.entry (wordOf u.regPtr0) j)) →
      (Owned P u' ∧ ∀ j, j < pageTableLen → P (.entry (wordOf u'.regPtr0) j)) ∧ (v.read u' j).valid = (v.read u j).valid)
    (fun u hu => ⟨hu, rfl⟩) (fun u₁ u₂ u₃ h₁ h₂ hu => ?_) (fun vaddr x u u' hs hu => ?_) (fun k u u' hp hu => ?_) hfill
  · exact (hrel ⟨h, hrun⟩).2
  · obtain ⟨hu₂, ht⟩ := h₁ hu
    exact ⟨(h₂ hu₂).1, (h₂ hu₂).2.trans ht⟩
  · exact ⟨⟨storeByte_owned hu.1 hu.2 hs, (Fixed.storeByte hs).regPtr0 ▸ hu.2⟩, storeByte_valid hu.1 hu.2 hs hv⟩
  · exact ⟨⟨protectText_owned hu.1 hp, (Fixed.protectText hp).regPtr0 ▸ hu.2⟩, protectText_valid hp v j⟩

/-- The table at `w` has the heap and the stack of the program and the kernel
stack it had, and the other tables in play are as they were. -/
structure Relaid (P : Slot → Prop) (w : Word) (limit brk sp : Nat) (m m' : Memory) : Prop where
  order : memInvalidPages ≤ brk ∧ brk ≤ sp ∧ sp ≤ limit ∧ limit ≤ kernelStackBase
  below : ∀ j < kernelStackBase, (w.read m' j).valid = true ↔ (memInvalidPages ≤ j ∧ j < brk) ∨ (sp ≤ j ∧ j < limit)
  above : ∀ j, kernelStackBase ≤ j → j < pageTableLen → (w.read m' j).valid = (w.read m j).valid
  others : ∀ v j, v ≠ w → j < pageTableLen → (∀ k, k < pageTableLen → P (.entry v k)) → (v.read m' j).valid = (v.read m j).valid

theorem Relaid.heapAndStack (h : Relaid P w limit brk sp m m')
    (hstack : ∀ j, kernelStackBase ≤ j → j < pageTableLen → (w.read m j).valid = true) : HeapAndStack m' w limit brk sp := by
  obtain ⟨-, hle, hsp, hlimit⟩ := h.order
  refine ⟨hle, hsp, hlimit, fun j hj => ?_⟩
  by_cases hlow : j < kernelStackBase
  · rw [h.below j hlow]
    omega
  · rw [h.above j (Nat.not_lt.1 hlow) hj]
    exact iff_of_true (hstack j (Nat.not_lt.1 hlow) hj) (.inr (.inr (Nat.not_lt.1 hlow)))

theorem layOut_relaid {li : LoadInfo} {args : List (List (BitVec 8))} (h : Owned P m) (hw : Leads m ptr w)
    (hin : ∀ j, j < pageTableLen → P (.entry w j)) (hlimit : StackLimit cfg) (hcounts : CountsFit cfg li args)
    (hvirt : fitsVirtual (sizes cfg li args) = true) (hlay : layOut cfg ptr (sizes cfg li args) m = .ok m') :
    Relaid P w cfg.userStackLimit (newBrk (sizes cfg li args)) (newSp cfg (sizes cfg li args)) m m' := by
  have hz := sizes_counted hcounts
  have hfits := pages_fit hlimit hcounts hvirt
  have hle := hlimit.le
  obtain ⟨m₂, m₃, m₄, js, ks, ls, hl⟩ := layOut_ok h.small hw hlay
  obtain ⟨hall, hmem⟩ := hl.mapped hz hfits
  rw [hz.brk, newSp_counted hlimit hz.stackNpg (by omega)]
  refine ⟨⟨by omega, by omega, by omega, hle⟩, fun j hj => ?_, fun j hj hlt => ?_, fun v j hne hj hv => ?_⟩
  · rw [hl.valid_iff hall hj, hmem]
    simp only [IsText, IsData, IsStack]
    omega
  · have hno : j ∉ js ++ ks ++ ls := fun hj' => by
      have := (hmem j).1 hj'
      simp only [IsText, IsData, IsStack] at this
      omega
    rw [hall.others j hno, hl.cleared.read j hlt, if_neg (by omega)]
  · exact congrArg Pte.valid (((Within.layOut hlay w hw).2.untouched h (hin 0 (by decide)) hv hne).entries j hj)

def Countable (m : Memory) (file : Option File) (args : List (List (BitVec 8))) : Prop :=
  ∀ li, Passes file args m li → CountsFit m.cfg li args

/-- `LoadProgram` leaves the tables, and has set `brk` if only the check of
physical memory failed, or it lays out the table that it is given. -/
theorem loadProgram_relaid {file : Option File} {args : List (List (BitVec 8))} (h : Owned P m) (hw : Leads m ptr w)
    (hin : ∀ j, j < pageTableLen → P (.entry w j)) (hrun : ∀ j, j < pageTableLen → P (.entry (wordOf m.regPtr0) j))
    (henough : LoadOwned m w file args) (hlimit : StackLimit m.cfg) (hcounts : Countable m file args)
    (hload : loadProgram curr ptr file args info m = .ok (r, info', m')) :
    (r ≠ 0 ∧ m' = m) ∨ ∃ f li, file = some f ∧ f.status = .success li ∧ fitsVirtual (sizes m.cfg li args) = true ∧
      (r ≠ 0 ∧ fitsPhysical (sizes m.cfg li args) m = false ∧
          m' = setSpace m curr { m.space curr with brk := newBrk (sizes m.cfg li args) } ∨
        fitsPhysical (sizes m.cfg li args) m = true ∧
          Relaid P w m.cfg.userStackLimit (newBrk (sizes m.cfg li args)) (newSp m.cfg (sizes m.cfg li args)) m m' ∧
          (m'.space curr).brk = newBrk (sizes m.cfg li args) ∧ (m'.space curr).sp = newSp m.cfg (sizes m.cfg li args)) := by
  rcases loadProgram_ok hload with ⟨hr, -, rfl⟩ | ⟨f, li, hf, hst, hvirt, ⟨hp, hr, -, rfl⟩ | ⟨hp, m₁, h₁, h₂⟩⟩
  · exact .inl ⟨by rw [hr]; decide, rfl⟩
  · exact .inr ⟨f, li, hf, hst, hvirt, .inl ⟨by rw [hr]; decide, hp, rfl⟩⟩
  refine .inr ⟨f, li, hf, hst, hvirt, .inr ⟨hp, ?_⟩⟩
  have hpasses : Passes file args m li := ⟨⟨f, hf, hst⟩, hvirt, hp⟩
  have hlead : Leads (setSpace m curr { m.space curr with brk := newBrk (sizes m.cfg li args) }) ptr w :=
    leads_congr hw rfl fun _ _ => rfl
  have havail : available (setSpace m curr { m.space curr with brk := newBrk (sizes m.cfg li args) }) w = available m w := by
    cases w <;> rfl
  have hfix := Fixed.layOut h₁
  have howned := layOut_owned (h.setSpace ..) hlead hin (havail ▸ henough li hpasses) h₁
  have hrelaid := layOut_relaid (h.setSpace ..) hlead hin hlimit (hcounts li hpasses) hvirt h₁
  have hrun₁ : ∀ j, j < pageTableLen → P (.entry (wordOf m₁.regPtr0) j) := by
    rw [hfix.regPtr0]
    exact hrun
  -- from the pages laid out on, the tables in play keep their valid entries
  have hkeep {v : Word} {j : Nat} (hv : P (.entry v j)) : (v.read m' j).valid = (v.read m₁ j).valid := by
    rw [fill_valid (howned.setSpace ..) hrun₁ h₂ hv, word_read_space]
  refine ⟨⟨hrelaid.order, fun j hj => ?_, fun j hj hlt => ?_, fun v j hne hj hv => ?_⟩, ?_, ?_⟩
  · have hlt : j < pageTableLen := Nat.lt_trans hj (by decide)
    rw [hkeep (hin j hlt), hrelaid.below j hj]
  · rw [hkeep (hin j hlt), hrelaid.above j hj hlt, word_read_space]
  · rw [hkeep (hv j hj), hrelaid.others v j hne hj hv, word_read_space]
  · rw [(Fixed.fill h₂).space, setSpace_space_self]
    dsimp only
    rw [hfix.space, setSpace_space_self]
  · rw [(Fixed.fill h₂).space, setSpace_space_self]
    dsimp only
    rw [show m₁.cfg = m.cfg from hfix.cfg]

theorem mapLoop_valid {uprot kprot : BitVec 3} {start : Nat} (hsmall : m.numPages < 2 ^ 20) (hw : Leads m ptr w)
    (h : upTo (fun a => mapPage ptr uprot kprot a) start n m = .ok m') (j : Nat) :
    (w.read m' j).valid = true ↔ (start ≤ j ∧ j < start + n) ∨ (w.read m j).valid = true := by
  obtain ⟨-, js, hjs, -, hmap, -⟩ := mapLoop (g := fun a => a) (fun a b he => Int.ofNat.inj he) hsmall hw h
  have hmem : j ∈ js ↔ start ≤ j ∧ j < start + n := by
    rw [hjs]
    exact ⟨fun ⟨a, h₁, h₂, h₃⟩ => by omega, fun ⟨h₁, h₂⟩ => ⟨j, h₁, h₂, rfl⟩⟩
  rw [← hmem]
  by_cases hj : j ∈ js
  · exact iff_of_true (hmap.valid j hj) (.inl hj)
  · rw [hmap.others j hj]
    exact ⟨.inr, fun h => h.resolve_left hj⟩

theorem heap_grown {b : Nat} (h : HeapAndStack m w limit brk sp) (hmin : memInvalidPages ≤ brk) (hle : brk ≤ b) (hb : b ≤ sp)
    (hv : ∀ j, (w.read m' j).valid = true ↔ (brk ≤ j ∧ j < b) ∨ (w.read m j).valid = true) : HeapAndStack m' w limit b sp := by
  refine ⟨hb, h.stack, h.below, fun j hj => ?_⟩
  rw [hv, h.valid j hj]
  omega

theorem stack_grown {b : Nat} (h : HeapAndStack m w limit brk sp) (hle : brk ≤ b) (hb : b ≤ sp)
    (hv : ∀ j, (w.read m' j).valid = true ↔ (b ≤ j ∧ j < sp) ∨ (w.read m j).valid = true) : HeapAndStack m' w limit brk b := by
  have hsp := h.stack
  refine ⟨hle, by omega, h.below, fun j hj => ?_⟩
  rw [hv, h.valid j hj]
  omega

theorem below_stack (h : HeapAndStack m w limit brk sp) (hj : j < limit) (hv : (w.read m j).valid = false) : j < sp := by
  by_contra hge
  have hiff := h.valid j (Nat.lt_trans (Nat.lt_of_lt_of_le hj h.below) (by decide))
  rw [hv] at hiff
  exact absurd (hiff.2 (by omega)) (by decide)

end Yalnix.ValidPages
