import Yalnix.FreeCounter

namespace Yalnix.KernelHeap

open Loops Machine AddressSpace Accesses FreeList FreeCounter

variable {m m' : Memory} {pmemSize : BitVec 32} {addr i n : Nat} {r : Int}

def vmem1Limit : Nat := 2 * pageTableLen * pageSize

def Under (addr i : Nat) : Prop := vmem1Base + i * pageSize < addr

inductive Event
  | setKernelBrk (addr : Nat)
  | enableVm
  | buildRegion0 (proc : Nat)
  | other

/-- The break never moves down. What else the kernel does neither moves it nor
changes the table of Region 1. -/
inductive Step : Memory → Event → Memory → Prop
  | setKernelBrk {m m' : Memory} {addr : Nat} {r : Int} : m.currKernelBrk ≤ addr → addr ≤ vmem1Limit →
      setKernelBrk addr m = .ok (r, m') → Step m (.setKernelBrk addr) m'
  | enableVm {m : Memory} : m.vmEnabled = false → Step m .enableVm { m with vmEnabled := true }
  | buildRegion0 {m m' : Memory} {proc : Nat} : m.vmEnabled = true → buildRegion0 proc m = .ok m' →
      Step m (.buildRegion0 proc) m'
  | other {m m' : Memory} : m'.region1Pt = m.region1Pt → m'.currKernelBrk = m.currKernelBrk →
      m'.vmEnabled = m.vmEnabled → Step m .other m'

/-- Before virtual memory is on, the break does not pass the start of a page.
After that a call that is not refused finds the break at the start of a page,
and no page below the new break is in use. -/
def Allowed (m : Memory) : Event → Prop
  | .setKernelBrk addr =>
      if m.vmEnabled then
        m.numFreePages < pagesNeeded m addr ∨
        m.currKernelBrk % pageSize = 0 ∧ ∀ i, ¬ Under m.currKernelBrk i → Under addr i → (m.region1Pt i).valid = false
      else ∀ i, Under addr i → Under m.currKernelBrk i
  | _ => True

def Later : Memory → Memory → Prop := Relation.ReflTransGen fun m m' => ∃ e, Allowed m e ∧ Step m e m'

def Run (pmemSize : BitVec 32) (m₀ m : Memory) : Prop :=
  ∃ m₁, initPT (buildFreePages pmemSize m₀) = .ok m₁ ∧ Later m₁ m

structure Start (m₀ : Memory) : Prop where
  table : m₀.region1Pt = fun _ => Kernel.zeroPte
  vm : m₀.vmEnabled = false
  low : vmem1Base ≤ m₀.currKernelBrk
  high : m₀.currKernelBrk ≤ vmem1Limit

/-- The invariant: every page that starts below the break is valid. -/
structure Heap (m : Memory) : Prop where
  mapped : ∀ i, Under m.currKernelBrk i → (m.region1Pt i).valid = true
  low : vmem1Base ≤ m.currKernelBrk
  high : m.currKernelBrk ≤ vmem1Limit

theorem upToPage_nat (h : n ≤ vmem1Limit) : upToPage n = ((n + (pageSize - 1)) / pageSize : Nat) := by
  simp only [vmem1Limit, pageTableLen, pageSize] at h
  rw [upToPage, toLong_nat (by simp only [pageSize]; omega)]
  rfl

theorem downToPage_nat (h : n ≤ vmem1Limit) : downToPage n = (n / pageSize : Nat) := by
  simp only [vmem1Limit, pageTableLen, pageSize] at h
  rw [downToPage, toLong_nat (by omega)]
  rfl

theorem under_kernelPages (h : addr ≤ vmem1Limit) (hl : vmem1Base ≤ addr) : Under addr i ↔ i < kernelPages addr := by
  simp only [Under, kernelPages, vmem1Limit, vmem1Base, pageTableLen, pageSize] at *
  omega

theorem currBrkPg_nat (h : m.currKernelBrk ≤ vmem1Limit) (hl : vmem1Base ≤ m.currKernelBrk) :
    currBrkPg m = (m.currKernelBrk / pageSize - pageTableLen : Nat) := by
  rw [currBrkPg, downToPage_nat h]
  simp only [vmem1Limit, vmem1Base, pageTableLen, pageSize] at *
  rw [toInt_small (by omega) (by omega)]
  omega

theorem pagesNeeded_nat (h : m.currKernelBrk ≤ vmem1Limit) (ha : addr ≤ vmem1Limit) :
    pagesNeeded m addr = ((addr + (pageSize - 1)) / pageSize : Nat) - (m.currKernelBrk / pageSize : Nat) := by
  rw [pagesNeeded, upToPage_nat ha, downToPage_nat h]
  simp only [vmem1Limit, pageTableLen, pageSize] at *
  exact toInt_small (by omega) (by omega)

theorem region1_index {page : Nat} (hpage : page < pageTableLen) :
    index (toInt (((pageTableLen + page) * pageSize / pageSize : Nat) - (pageTableLen : Int))) pageTableLen = .ok page := by
  have hdiv : (pageTableLen + page) * pageSize / pageSize = pageTableLen + page := Nat.mul_div_cancel _ (by decide)
  have hsub : ((pageTableLen + page : Nat) : Int) - (pageTableLen : Int) = page := by omega
  have hlt : (page : Int) < 2 ^ 31 := by
    simp only [pageTableLen] at hpage
    omega
  rw [hdiv, hsub, toInt_small (by omega) hlt, index_nat.2 hpage]

theorem initRegion1_region1 {page : Nat} (h : initRegion1 page m = .ok m') :
    (m'.region1Pt page).valid = true ∧ ∀ k, k ≠ page → m'.region1Pt k = m.region1Pt k := by
  obtain ⟨k, hk, h⟩ := bind_ok.1 h
  obtain ⟨hkp, -⟩ := index_ok.1 hk
  obtain rfl := Int.ofNat.inj hkp
  obtain ⟨frame, -, h⟩ := bind_ok.1 h
  obtain rfl := Except.ok.inj h
  exact ⟨by simp [setMark, writeRegion1], fun k hk => region1_write_of_ne hk ..⟩

theorem initPT_heap (hs : Start m) (h : initPT (buildFreePages pmemSize m) = .ok m') : Heap m' := by
  obtain ⟨m₁, m₂, h₁, h₂, rfl, hfix⟩ := initPT_ok h
  have hbrk : m₂.currKernelBrk = m.currKernelBrk := hfix.currKernelBrk
  have hbrk₁ : m₁.currKernelBrk = m.currKernelBrk := (Fixed.upTo (fun _ _ _ => Fixed.initRegion0) h₁).currKernelBrk
  have hmapped := upTo_invariant (fun k u => ∀ i, i < k → (u.region1Pt i).valid = true)
    (fun k u v _ _ hu hstep i hi => by
      obtain ⟨hself, hother⟩ := initRegion1_region1 hstep
      by_cases he : i = k
      · rw [he, hself]
      · rw [hother i he]
        exact hu i (by omega)) (fun i hi => absurd hi (Nat.not_lt_zero i)) h₂
  refine ⟨fun i hi => hmapped i ?_, ?_, ?_⟩
  · rw [Nat.zero_add, hbrk₁]
    exact (under_kernelPages hs.high hs.low).1 (hbrk ▸ hi)
  · exact hbrk ▸ hs.low
  · exact hbrk ▸ hs.high

theorem mapKernelPage_region1 {k : Int} (h : mapKernelPage k m = .ok m') :
    ∃ j, k = (j : Nat) ∧ (m'.region1Pt j).valid = true ∧ ∀ i, i ≠ j → m'.region1Pt i = m.region1Pt i := by
  obtain ⟨j, rfl, -, ⟨f, l, -, rfl⟩ | ⟨-, rfl⟩⟩ := mapKernelPage_cases h
  · refine ⟨j, rfl, ?_, fun i hi => region1_write_of_ne hi ..⟩
    rw [region1_write_self]
  · refine ⟨j, rfl, ?_, fun i hi => region1_write_of_ne hi ..⟩
    rw [region1_write_self]

theorem mapKernelPages_region1 {b : Nat} (h : upTo (fun page => mapKernelPage ((b : Int) + page)) 0 n m = .ok m') :
    (∀ i, b ≤ i → i < b + n → (m'.region1Pt i).valid = true) ∧
      ∀ i, i < b ∨ b + n ≤ i → m'.region1Pt i = m.region1Pt i := by
  have hI := upTo_invariant (fun k u => (∀ i, b ≤ i → i < b + k → (u.region1Pt i).valid = true) ∧
      ∀ i, i < b ∨ b + k ≤ i → u.region1Pt i = m.region1Pt i)
    (fun k u v _ _ ⟨hu, hsame⟩ hstep => by
      obtain ⟨j, hj, hself, hother⟩ := mapKernelPage_region1 hstep
      obtain rfl : b + k = j := by omega
      refine ⟨fun i hb hi => ?_, fun i hi => ?_⟩
      · by_cases he : i = b + k
        · rw [he, hself]
        · rw [hother i he]
          exact hu i hb (by omega)
      · rw [hother i (by omega)]
        exact hsame i (by omega)) ⟨fun i hb hi => absurd hi (by omega), fun i _ => rfl⟩ h
  rwa [Nat.zero_add] at hI

/-- The table of the new process goes where no valid page is. -/
theorem buildRegion0_region1 {proc : Nat} (h : AddressSpace.buildRegion0 proc m = .ok m') :
    (∀ i, (m.region1Pt i).valid = true → m'.region1Pt i = m.region1Pt i) ∧ m'.currKernelBrk = m.currKernelBrk := by
  obtain ⟨j, -, hj, hinv, -, h⟩ := buildRegion0_ok h
  refine ⟨fun i hi => ?_, (Fixed.upTo (fun _ _ _ => Fixed.mapPage) h).currKernelBrk⟩
  have hsame := upTo_relation (fun u v : Memory => v.region1Pt = u.region1Pt) (fun _ => rfl)
    (fun _ _ _ h h' => h'.trans h) (fun _ _ _ _ _ => mapPage_region1) h
  have hne : i ≠ j := by
    rintro rfl
    rw [hinv] at hi
    cases hi
  rw [hsame]
  exact region1_write_of_ne hne ..

theorem setKernelBrk_step (hm : Heap m) (hle : m.currKernelBrk ≤ addr) (hlim : addr ≤ vmem1Limit)
    (ha : Allowed m (.setKernelBrk addr)) (h : AddressSpace.setKernelBrk addr m = .ok (r, m')) :
    Heap m' ∧ ∀ i, (m.region1Pt i).valid = true → m'.region1Pt i = m.region1Pt i := by
  have hlow := hm.low
  dsimp only [Allowed] at ha
  rcases setKernelBrk_ok h with ⟨-, -, -, rfl⟩ | ⟨hvm, -, rfl⟩ | ⟨hvm, hfree, -, u, hu, rfl⟩
  · exact ⟨hm, fun _ _ => rfl⟩
  · rw [hvm, if_neg Bool.false_ne_true] at ha
    exact ⟨⟨fun i hi => hm.mapped i (ha i hi), Nat.le_trans hlow hle, hlim⟩, fun _ _ => rfl⟩
  · rw [if_pos hvm] at ha
    obtain ⟨halign, hunused⟩ := ha.resolve_left hfree
    rw [currBrkPg_nat hm.high hlow, pagesNeeded_nat hm.high hlim] at hu
    obtain ⟨hnew, hsame⟩ := mapKernelPages_region1 hu
    have hhigh := hm.high
    refine ⟨⟨fun i (hi : Under addr i) => ?_, Nat.le_trans hlow hle, hlim⟩, fun i hi => ?_⟩ <;>
      simp only [Under, vmem1Limit, vmem1Base, pageTableLen, pageSize] at *
    · by_cases hold : 512 * 4096 + i * 4096 < m.currKernelBrk
      · rw [hsame i (by omega)]
        exact hm.mapped i hold
      · exact hnew i (by omega) (by omega)
    · apply hsame
      by_contra hin
      have := hunused i (by omega) (by omega)
      rw [this] at hi
      cases hi

theorem step_heap {e : Event} (hm : Heap m) (ha : Allowed m e) (h : Step m e m') :
    Heap m' ∧ ∀ i, (m.region1Pt i).valid = true → m'.region1Pt i = m.region1Pt i := by
  cases h with
  | setKernelBrk hle hlim h => exact setKernelBrk_step hm hle hlim ha h
  | enableVm _ => exact ⟨⟨hm.mapped, hm.low, hm.high⟩, fun _ _ => rfl⟩
  | buildRegion0 _ h =>
      obtain ⟨hsame, hbrk⟩ := buildRegion0_region1 h
      refine ⟨⟨fun i hi => ?_, hbrk ▸ hm.low, hbrk ▸ hm.high⟩, hsame⟩
      have hold := hm.mapped i (hbrk ▸ hi)
      rw [hsame i hold]
      exact hold
  | other htable hbrk _ =>
      refine ⟨⟨fun i hi => ?_, hbrk ▸ hm.low, hbrk ▸ hm.high⟩, fun i _ => by rw [htable]⟩
      rw [htable]
      exact hm.mapped i (hbrk ▸ hi)

theorem later_heap (hm : Heap m) (h : Later m m') :
    Heap m' ∧ ∀ i, (m.region1Pt i).valid = true → m'.region1Pt i = m.region1Pt i := by
  induction h with
  | refl => exact ⟨hm, fun _ _ => rfl⟩
  | tail _ hstep ih =>
      obtain ⟨e, ha, he⟩ := hstep
      obtain ⟨hu, hsame⟩ := ih
      obtain ⟨hv, hsame'⟩ := step_heap hu ha he
      refine ⟨hv, fun i hi => ?_⟩
      have hold := hsame i hi
      exact (hsame' i (hold ▸ hi)).trans hold

theorem run_heap {m₀ : Memory} (hs : Start m₀) (h : Run pmemSize m₀ m) : Heap m := by
  obtain ⟨m₁, h₁, hl⟩ := h
  exact (later_heap (initPT_heap hs h₁) hl).1

/-- In a run of allowed steps the heap is mapped once virtual memory is on, its
frames stay where they are, a call that succeeds changes no valid entry, and one
that does not changes nothing. -/
theorem heap_stays {m₀ : Memory} (hs : Start m₀) (h : Run pmemSize m₀ m) (hvm : m.vmEnabled = true) :
    (∀ i, Under m.currKernelBrk i → (m.region1Pt i).valid = true) ∧
      (∀ m', Later m m' → ∀ i, Under m.currKernelBrk i → (m'.region1Pt i).pfn = (m.region1Pt i).pfn) ∧
      ∀ addr r m', m.currKernelBrk ≤ addr → addr ≤ vmem1Limit → Allowed m (.setKernelBrk addr) →
        AddressSpace.setKernelBrk addr m = .ok (r, m') →
        (r = 0 → ∀ i, (m.region1Pt i).valid = true → m'.region1Pt i = m.region1Pt i) ∧ (r = ERROR → m' = m) := by
  have hm := run_heap hs h
  refine ⟨hm.mapped, fun m' hl i hi => ?_, fun addr r m' hle hlim ha hbrk => ⟨fun _ => ?_, fun hr => ?_⟩⟩
  · rw [(later_heap hm hl).2 i (hm.mapped i hi)]
  · exact (setKernelBrk_step hm hle hlim ha hbrk).2
  · rcases setKernelBrk_ok hbrk with ⟨-, -, -, rfl⟩ | ⟨hno, -⟩ | ⟨-, -, rfl, -⟩
    · rfl
    · rw [hno] at hvm
      cases hvm
    · exact absurd hr (by decide)

theorem rawMemory_start {brk : Nat} (hl : vmem1Base ≤ brk) (hh : brk ≤ vmem1Limit) : Start (rawMemory brk) :=
  ⟨rfl, rfl, hl, hh⟩

theorem small_growth : ∃ m₁ m₂ m₃, initPT (buildFreePages smallPmem (rawMemory (vmem1Base + pageSize))) = .ok m₁ ∧
    (m₁.vmEnabled = false ∧ m₁.currKernelBrk = vmem1Base + pageSize ∧ (m₁.region1Pt 1).valid = false) ∧
    AddressSpace.setKernelBrk (vmem1Base + pageSize + 100) { m₁ with vmEnabled := true } = .ok (0, m₂) ∧
    m₂.vmEnabled = true ∧ m₂.currKernelBrk = vmem1Base + pageSize + 100 ∧
    AddressSpace.setKernelBrk (vmem1Base + pageSize + 200) m₂ = .ok (0, m₃) ∧
    (m₃.region1Pt 1).pfn ≠ (m₂.region1Pt 1).pfn := by
  have h : yields (initPT (buildFreePages smallPmem (rawMemory (vmem1Base + pageSize)))) (fun m₁ =>
      (m₁.vmEnabled = false ∧ m₁.currKernelBrk = vmem1Base + pageSize ∧ (m₁.region1Pt 1).valid = false) &&
      yields (AddressSpace.setKernelBrk (vmem1Base + pageSize + 100) { m₁ with vmEnabled := true }) fun x₂ =>
        (x₂.1 = 0 ∧ x₂.2.vmEnabled = true ∧ x₂.2.currKernelBrk = vmem1Base + pageSize + 100) &&
        yields (AddressSpace.setKernelBrk (vmem1Base + pageSize + 200) x₂.2) fun x₃ =>
          x₃.1 = 0 ∧ (x₃.2.region1Pt 1).pfn ≠ (x₂.2.region1Pt 1).pfn) = true := by
    decide +kernel
  simp only [yields_iff, Bool.and_eq_true, decide_eq_true_eq] at h
  obtain ⟨m₁, h₁, hm₁, ⟨r₂, m₂⟩, h₂, ⟨rfl, hm₂⟩, ⟨r₃, m₃⟩, h₃, rfl, hm₃⟩ := h
  exact ⟨m₁, m₂, m₃, h₁, hm₁, h₂, hm₂.1, hm₂.2, h₃, hm₃⟩

theorem small_run : ∃ m m', Run smallPmem (rawMemory (vmem1Base + pageSize)) m ∧ m.vmEnabled = true ∧
    m.currKernelBrk = vmem1Base + pageSize + 100 ∧ Step m (.setKernelBrk (vmem1Base + pageSize + 200)) m' ∧
    (m'.region1Pt 1).pfn ≠ (m.region1Pt 1).pfn := by
  obtain ⟨m₁, m₂, m₃, h₁, ⟨hvm₁, hbrk₁, hv₁⟩, h₂, hvm₂, hbrk₂, h₃, hpfn⟩ := small_growth
  have hlim {n : Nat} (hn : n ≤ 200) : vmem1Base + pageSize + n ≤ vmem1Limit := by
    simp only [vmem1Limit, vmem1Base, pageTableLen, pageSize]
    omega
  refine ⟨m₂, m₃, ⟨m₁, h₁, ?_⟩, hvm₂, hbrk₂, .setKernelBrk (hbrk₂ ▸ Nat.add_le_add_left (by omega) _) (hlim (by omega)) h₃,
    hpfn⟩
  apply Relation.ReflTransGen.tail (b := { m₁ with vmEnabled := true })
  · exact .single ⟨.enableVm, True.intro, .enableVm hvm₁⟩
  · refine ⟨.setKernelBrk (vmem1Base + pageSize + 100), ?_, .setKernelBrk ?_ (hlim (by omega)) h₂⟩
    · dsimp only [Allowed]
      rw [if_pos rfl, hbrk₁]
      refine .inr ⟨by decide, fun i hi hi' => ?_⟩
      simp only [Under, vmem1Base, pageTableLen, pageSize] at hi hi'
      obtain rfl : i = 1 := by omega
      exact hv₁
    · exact hbrk₁ ▸ Nat.le_add_right ..

theorem heap_stays_small : ∃ m : Memory, m.vmEnabled = true ∧ m.currKernelBrk = vmem1Base + pageSize + 100 ∧
    ∀ i, Under m.currKernelBrk i → (m.region1Pt i).valid = true := by
  obtain ⟨m, m', hr, hvm, hbrk, -⟩ := small_run
  refine ⟨m, hvm, hbrk, (heap_stays (rawMemory_start ?_ ?_) hr hvm).1⟩
  · exact Nat.le_add_right ..
  · decide

/-- The break moves within a page of the heap, and the page gets another frame. -/
theorem heap_page_moves : ∃ m m', Run smallPmem (rawMemory (vmem1Base + pageSize)) m ∧ m.vmEnabled = true ∧
    Step m (.setKernelBrk (vmem1Base + pageSize + 200)) m' ∧ Under m.currKernelBrk 1 ∧
    (m.region1Pt 1).valid = true ∧ (m'.region1Pt 1).pfn ≠ (m.region1Pt 1).pfn := by
  obtain ⟨m, m', hr, hvm, hbrk, hstep, hpfn⟩ := small_run
  have hunder : Under m.currKernelBrk 1 := by
    rw [hbrk, Under]
    decide
  have hs := rawMemory_start (Nat.le_add_right vmem1Base pageSize) (by decide)
  exact ⟨m, m', hr, hvm, hstep, hunder, (run_heap hs hr).mapped 1 hunder, hpfn⟩

end Yalnix.KernelHeap
