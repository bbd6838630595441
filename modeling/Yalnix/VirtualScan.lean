import Yalnix.KernelHeap
import Yalnix.NewTable

namespace Yalnix.VirtualScan

open Loops Machine Accesses KernelHeap NewTable

variable {m : Memory} {i k n page : Nat}

def scanStart : Nat := (pageTableLen + (pageTableLen - 3)) * pageSize

/-- The loop of `findFreeVirtualPage` as it is written, over byte addresses, for `n` rounds at most. -/
def scanLoop (m : Memory) : Nat → Nat → Except Fault (Option Nat)
  | 0, _ => .error .divergence
  | n + 1, vaddr =>
      if m.cfg.currKernelBrkAddr < vaddr then do
        let page ← index (toInt ((vaddr / pageSize : Nat) - (pageTableLen : Int))) pageTableLen
        if (m.region1Pt page).valid then scanLoop m n (toUlong (vaddr - (pageSize : Int))) else return some page
      else return none

def findByAddress (n : Nat) (m : Memory) : Except Fault (Int × Memory) := do
  match ← scanLoop m n scanStart with
  | some page =>
      let frame ← index (page + pageTableLen) m.numPages
      return (page, setMark m frame .pageUsed)
  | none => return (-1, m)

/-- The pages of Region 1 below the kernel break are mapped, there is a frame for
every page, and the variable `currKernelBrk` is in the data of the kernel. -/
structure KernelMapped (m : Memory) : Prop where
  mapped : ∀ page < pageTableLen, pageTableLen + page < (m.currKernelBrk + (pageSize - 1)) / pageSize →
    (m.region1Pt page).valid = true
  memory : 2 * pageTableLen ≤ m.numPages
  variable_ge : vmem1Base ≤ m.cfg.currKernelBrkAddr
  variable_lt : m.cfg.currKernelBrkAddr < m.currKernelBrk

structure Highest (m : Memory) (i : Nat) : Prop where
  start : i ≤ pageTableLen - 3
  invalid : (m.region1Pt i).valid = false
  above : ∀ k, i < k → k ≤ pageTableLen - 3 → (m.region1Pt k).valid = true
  kernel : m.currKernelBrk ≤ (pageTableLen + i) * pageSize

namespace KernelMapped

theorem valid_of_lt (h : KernelMapped m) (hpage : page < pageTableLen)
    (hlt : (pageTableLen + page) * pageSize < m.currKernelBrk) : (m.region1Pt page).valid = true := by
  refine h.mapped page hpage ?_
  simp only [pageSize] at hlt ⊢
  omega

/-- Where the search gives up, at the variable, only pages of the kernel are left. -/
theorem valid_of_le (h : KernelMapped m) (hpage : page < pageTableLen)
    (hle : (pageTableLen + page) * pageSize ≤ m.cfg.currKernelBrkAddr) : (m.region1Pt page).valid = true :=
  h.valid_of_lt hpage (Nat.lt_of_le_of_lt hle h.variable_lt)

theorem kernel_le (h : KernelMapped m) (hpage : page < pageTableLen) (hinv : (m.region1Pt page).valid = false) :
    m.currKernelBrk ≤ (pageTableLen + page) * pageSize := by
  refine Nat.le_of_not_lt fun hlt => ?_
  rw [h.valid_of_lt hpage hlt] at hinv
  cases hinv

theorem scanDown_none (h : KernelMapped m) (hn : n ≤ pageTableLen) (hscan : scanDown m n = none) :
    ∀ k < n, (m.region1Pt k).valid = true := by
  induction n with
  | zero => exact fun k hk => absurd hk (Nat.not_lt_zero k)
  | succ n ih =>
      intro k hk
      unfold scanDown at hscan
      split at hscan
      case isTrue =>
        split at hscan
        case isTrue hv =>
          rcases Nat.lt_succ_iff_lt_or_eq.1 hk with hlt | rfl
          · exact ih (Nat.le_of_succ_le hn) hscan k hlt
          · exact hv
        case isFalse => cases hscan
      case isFalse hstop =>
        refine h.valid_of_le (Nat.lt_of_lt_of_le hk hn) (Nat.le_trans ?_ (Nat.le_of_not_lt hstop))
        exact Nat.mul_le_mul_right _ (Nat.add_le_add_left (Nat.le_of_lt_succ hk) _)

end KernelMapped

theorem scanDown_above (hscan : scanDown m n = some i) : ∀ k, i < k → k < n → (m.region1Pt k).valid = true := by
  induction n with
  | zero => cases hscan
  | succ n ih =>
      intro k hik hk
      unfold scanDown at hscan
      split at hscan
      case isTrue =>
        split at hscan
        case isTrue hv =>
          rcases Nat.lt_succ_iff_lt_or_eq.1 hk with hlt | rfl
          · exact ih hscan k hik hlt
          · exact hv
        case isFalse =>
          obtain rfl := Option.some.inj hscan
          exact absurd (Nat.le_of_lt_succ hk) (Nat.not_le_of_lt hik)
      case isFalse => cases hscan

theorem address_below (hpage : page < pageTableLen) :
    toUlong (((pageTableLen + page) * pageSize : Nat) - (pageSize : Int)) = (pageTableLen + page - 1) * pageSize := by
  have hpos : pageSize ≤ (pageTableLen + page) * pageSize := Nat.le_mul_of_pos_left _ (Nat.add_pos_left (by decide) _)
  have hlt : (pageTableLen + page - 1) * pageSize < 2 ^ 64 := by
    simp only [pageTableLen, pageSize] at hpage ⊢
    omega
  rw [← Nat.cast_sub hpos, ← Nat.sub_one_mul, toUlong_nat hlt]

/-- The loop over addresses goes through the pages, the next one below `n` first. -/
theorem scanLoop_eq {fuel : Nat} (haddr : vmem1Base ≤ m.cfg.currKernelBrkAddr) (hn : n ≤ pageTableLen) (hfuel : n < fuel) :
    scanLoop m fuel ((pageTableLen + n - 1) * pageSize) = .ok (scanDown m n) := by
  induction n generalizing fuel with
  | zero =>
      obtain ⟨fuel, rfl⟩ := Nat.exists_eq_succ_of_ne_zero (Nat.ne_of_gt hfuel)
      have hle : (pageTableLen + 0 - 1) * pageSize ≤ vmem1Base := Nat.mul_le_mul_right _ (Nat.sub_le ..)
      exact if_neg (Nat.not_lt_of_le (Nat.le_trans hle haddr))
  | succ n ih =>
      obtain ⟨fuel, rfl⟩ := Nat.exists_eq_succ_of_ne_zero (Nat.ne_zero_of_lt hfuel)
      have hrest := ih (Nat.le_of_succ_le hn) (Nat.lt_of_succ_lt_succ hfuel)
      have hstart : pageTableLen + (n + 1) - 1 = pageTableLen + n := rfl
      rw [hstart, scanLoop, scanDown, region1_index hn, address_below hn, hrest]
      split
      · exact (apply_ite Except.ok ..).symm
      · rfl

theorem findByAddress_eq {fuel : Nat} (haddr : vmem1Base ≤ m.cfg.currKernelBrkAddr) (hfuel : pageTableLen ≤ fuel) :
    findByAddress fuel m = findFreeVirtualPage m := by
  have hstart : scanStart = (pageTableLen + (pageTableLen - 2) - 1) * pageSize := by decide
  have hscan : scanLoop m fuel scanStart = .ok (freeVirtualPage m) := by
    rw [hstart]
    exact scanLoop_eq haddr (Nat.sub_le ..) (Nat.lt_of_lt_of_le (by decide) hfuel)
  rw [findByAddress, hscan, findFreeVirtualPage]
  rfl

theorem find_some (h : KernelMapped m) (hi : freeVirtualPage m = some i) :
    findFreeVirtualPage m = .ok ((i : Int), setMark m (pageTableLen + i) .pageUsed) := by
  have hlt : pageTableLen + i < m.numPages := by
    have hpage := freeVirtualPage_lt hi
    have hmem := h.memory
    omega
  have hframe : index ((i : Int) + pageTableLen) m.numPages = .ok (pageTableLen + i) := by
    have hcast : (i : Int) + pageTableLen = ((pageTableLen + i : Nat) : Int) := by omega
    rw [hcast]
    exact index_nat.2 hlt
  rw [findFreeVirtualPage, hi]
  exact congrArg (· >>= fun frame => Except.ok ((i : Int), setMark m frame .pageUsed)) hframe

theorem find_none (hnone : freeVirtualPage m = none) : findFreeVirtualPage m = .ok (-1, m) := by
  rw [findFreeVirtualPage, hnone]

theorem Highest.unique (hi : Highest m i) (hk : Highest m k) : i = k := by
  rcases Nat.lt_trichotomy i k with hlt | rfl | hlt
  · cases hk.invalid.symm.trans (hi.above k hlt hk.start)
  · rfl
  · cases hi.invalid.symm.trans (hk.above i hlt hi.start)

theorem freeVirtualPage_highest (h : KernelMapped m) (hi : freeVirtualPage m = some i) : Highest m i := by
  obtain ⟨hlt, hinv⟩ := scanDown_some hi
  refine ⟨Nat.le_of_lt_succ hlt, hinv, fun k hik hk => scanDown_above hi k hik (Nat.lt_succ_of_le hk), ?_⟩
  exact h.kernel_le (Nat.lt_of_lt_of_le hlt (Nat.sub_le ..)) hinv

/-- The search ends, with the highest unmapped page above the kernel that it may give, or with -1 when
there is none. -/
theorem search_exact (h : KernelMapped m) (hn : pageTableLen ≤ n) :
    findByAddress n m = findFreeVirtualPage m ∧
      (∀ i : Nat, findByAddress n m = .ok ((i : Int), setMark m (pageTableLen + i) .pageUsed) ↔ Highest m i) ∧
      (findByAddress n m = .ok (-1, m) ↔ ∀ i ≤ pageTableLen - 3, (m.region1Pt i).valid = true) ∧
      ((∃ i, Highest m i) ∨ ∀ i ≤ pageTableLen - 3, (m.region1Pt i).valid = true) := by
  have heq := findByAddress_eq h.variable_ge hn
  rw [heq]
  refine ⟨rfl, ?_⟩
  cases hpage : freeVirtualPage m with
  | some i =>
      have hfound := find_some h hpage
      have hhigh := freeVirtualPage_highest h hpage
      rw [hfound]
      refine ⟨fun k => ⟨fun hk => ?_, fun hk => ?_⟩, ⟨fun hr => ?_, fun hall => ?_⟩, .inl ⟨i, hhigh⟩⟩
      · obtain rfl : i = k := Int.ofNat_inj.1 (Prod.mk.inj (Except.ok.inj hk)).1
        exact hhigh
      · rw [hhigh.unique hk]
      · have := (Prod.mk.inj (Except.ok.inj hr)).1
        omega
      · cases hhigh.invalid.symm.trans (hall i hhigh.start)
  | none =>
      have hall : ∀ i ≤ pageTableLen - 3, (m.region1Pt i).valid = true :=
        fun i hi => h.scanDown_none (Nat.sub_le ..) hpage i (Nat.lt_succ_of_le hi)
      rw [find_none hpage]
      refine ⟨fun k => ⟨fun hk => ?_, fun hk => ?_⟩, ⟨fun _ => hall, fun _ => rfl⟩, .inr hall⟩
      · have := (Prod.mk.inj (Except.ok.inj hk)).1
        omega
      · cases hk.invalid.symm.trans (hall k hk.start)

theorem fresh_mapped : KernelMapped (freshKernel ⟨0, 0, 0, 0, false⟩) where
  mapped := fun page _ hpage => by
    change pageTableLen + page < (vmem1Base + 2 * pageSize + (pageSize - 1)) / pageSize at hpage
    refine decide_eq_true ?_
    simp only [vmem1Base, pageTableLen, pageSize] at hpage
    omega
  memory := by decide
  variable_ge := by decide
  variable_lt := by decide

theorem search_exact_fresh :
    findByAddress pageTableLen (freshKernel ⟨0, 0, 0, 0, false⟩) =
      .ok (509, setMark (freshKernel ⟨0, 0, 0, 0, false⟩) 1021 .pageUsed) :=
  ((search_exact fresh_mapped (Nat.le_refl _)).2.1 509).2 ⟨Nat.le_refl _, rfl, fun k hik hk => by
    change k ≤ 509 at hk
    omega, by decide⟩

end Yalnix.VirtualScan
