import Yalnix.ExitFrames
import Yalnix.FamilyTree
import Yalnix.ForkLoop
import Yalnix.Indices
import Yalnix.NewTable

namespace Yalnix.ForkErrors

open Loops Machine AddressSpace LoadProgram Processes Kernel Accesses FreeList FreeCounter Allocation ForkLoop Calls Runs ReadyQueue FamilyTree

variable {s t u : State} {info : ExceptionInfo} {m m' : Memory} {p : TablePtr} {w : Word} {i n start : Nat}

/-- `ForkFunc` comes back with the value, in whichever process its switch goes to. -/
def Returns (info : ExceptionInfo) (s : State) (value : Int) (t : State) : Prop :=
  trapKernelHandler .fork info s = .ok (some (setReg0 info value), t) ∨
    ∃ u, trapKernelHandler .fork info s = .ok (none, u) ∧ resume none u = .ok (some (setReg0 info value), t)

structure Untouched (s t : State) : Prop where
  current : t.curr = s.curr
  children : ∀ l, Children s.fam s.curr l → Children t.fam s.curr l
  ready : ∀ ps, Holds s.sched ps → Holds t.sched ps
  region1Pt : t.mem.region1Pt = s.mem.region1Pt
  region0 : ∀ p w, Leads s.mem (s.mem.space p).region0 w → ∀ j < pageTableLen, w.read t.mem j = w.read s.mem j
  freePages : ∀ f < s.mem.numPages, t.mem.freePages f = s.mem.freePages f
  numFreePages : t.mem.numFreePages = s.mem.numFreePages

def FailsCleanly (info : ExceptionInfo) (s : State) : Prop := ∃ t, Returns info s ERROR t ∧ Untouched s t

/-- A new process cannot be given the page of its table, its kernel stack, or a frame for each
valid entry of the table `w` of its parent. -/
def Exhausted (m : Memory) (w : Word) : Prop :=
  ∀ i, freeVirtualPage m = some i → pageTableLen + i < m.numPages →
    (freeList (setMark m (pageTableLen + i) .pageUsed)).length < kernelStackPages + validEntries m w pageTableLen

theorem setReg0_inj {x y : Int} (h : setReg0 info x = setReg0 info y) : toUlong x = toUlong y := by
  have := congrFun (congrArg ExceptionInfo.regs h) 0
  simpa [setReg0] using this

theorem fork_result (h : Returns info s ERROR t) : False := by
  rcases h with h | ⟨u, h, hres⟩
  · obtain ⟨v, -, h⟩ := bind_ok.1 h
    cases h
  · obtain ⟨v, hv, h⟩ := bind_ok.1 h
    obtain ⟨-, rfl⟩ := Prod.mk.inj (Except.ok.inj h)
    obtain ⟨m, m', fam, sched, -, -, -, hpush, rfl⟩ := forkFunc_ok hv
    have hcurr : sched.currProc = s.fam.count := (push_keeps hpush).curr
    obtain ⟨hreg, -⟩ := Prod.mk.inj (Except.ok.inj hres)
    have hzero := setReg0_inj (Option.some.inj hreg)
    rw [forkResult, State.curr, hcurr, if_pos rfl] at hzero
    cases hzero

theorem validEntries_grow (h : ∀ j, (w.read m j).valid = true → (w.read m' j).valid = true) (n : Nat) :
    validEntries m w n ≤ validEntries m' w n :=
  List.countP_mono_left fun j _ => h j

theorem built_parent {proc : Nat} (hp : proc ≠ n) (hw : Leads m (m.space proc).region0 w) (hkept : Kept m w)
    (h : buildRegion0 n m = .ok m') : Leads m' (m'.space proc).region0 w ∧ Kept m' w ∧
      validEntries m w pageTableLen ≤ validEntries m' w pageTableLen := by
  obtain ⟨i, -, -, hinvalid, -, hloop⟩ := buildRegion0_ok h
  have hmaps : Maps kernelStackPages (NewTable.withTable n i m) m' := mapLoop_maps hloop
  have hspace : m'.space proc = m.space proc := by
    rw [hmaps.fixed.space]
    exact put_of_ne hp ..
  refine ⟨?_, fun f hf => hmaps.used f ?_, validEntries_grow (fun j hv => hmaps.valid w j ?_) _⟩
  · rw [hspace]
    refine leads_congr hw hmaps.fixed.numPages fun pg hpg => ?_
    have hother : pg - pageTableLen ≠ i := by
      rintro rfl
      rw [leads_page_valid (hpg ▸ hw)] at hinvalid
      cases hinvalid
    rw [hmaps.region1Pt]
    exact NewTable.withTable_region1 hother
  · change put m.freePages _ _ f = _
    rw [put_apply, hkept f hf, ite_self]
  · cases w <;> exact hv

theorem built_child (h : buildRegion0 n m = .ok m') : ∃ i, freeVirtualPage m = some i ∧ pageTableLen + i < m.numPages ∧
    Leads m' (m'.space n).region0 (.frame (pageTableLen + i)) ∧ Kept m' (.frame (pageTableLen + i)) ∧
    freeList m' = (freeList (setMark m (pageTableLen + i) .pageUsed)).drop kernelStackPages := by
  obtain ⟨i, hpage, hi, -, hframe, hloop⟩ := buildRegion0_ok h
  have hmaps : Maps kernelStackPages (NewTable.withTable n i m) m' := mapLoop_maps hloop
  refine ⟨i, hpage, hframe, ?_, ?_, hmaps.list⟩
  · have hspace : (m'.space n).region0 = .page (pageTableLen + i) := by
      rw [hmaps.fixed.space]
      exact congrArg Space.region0 (setSpace_space_self ..)
    rw [hspace]
    exact leads_congr (NewTable.withTable_leads _ hi hframe) hmaps.fixed.numPages fun _ _ => congrFun hmaps.region1Pt _
  · rintro f he
    obtain rfl := Word.frame.inj he
    exact hmaps.used _ (put_self ..)

/-- The four frames of the kernel stack are gone when the pages of the parent are copied. -/
theorem exhausted_faults (hsmall : s.mem.numPages < 2 ^ 20) (hcurr : s.curr < s.fam.count)
    (hw : Leads s.mem (s.mem.space s.curr).region0 w) (hkept : Kept s.mem w)
    (hvalid : 0 < validEntries s.mem w pageTableLen) (h : Exhausted s.mem w) : ∃ e, forkFunc info s = .error e := by
  cases hfork : forkFunc info s with
  | error e => exact ⟨e, rfl⟩
  | ok t =>
      obtain ⟨m, m', fam, sched, hbuild, hswitch, -, -, -⟩ := forkFunc_ok hfork
      have hne : s.curr ≠ s.fam.count := Nat.ne_of_lt hcurr
      have hspace : (createProc s).2.mem.space s.curr = s.mem.space s.curr := put_of_ne hne ..
      have hw₀ : Leads (createProc s).2.mem ((createProc s).2.mem.space s.curr).region0 w := by
        rw [hspace]
        exact leads_congr hw rfl fun _ _ => rfl
      have hread (j : Nat) : w.read (createProc s).2.mem j = w.read s.mem j := by cases w <;> rfl
      obtain ⟨hw₁, hkept₁, hmono⟩ := built_parent hne hw₀ hkept hbuild
      obtain ⟨i, hpage, hframe, hwc, hkc, hlist⟩ := built_child hbuild
      have hsame : freeVirtualPage (createProc s).2.mem = freeVirtualPage s.mem := Indices.freeVirtualPage_congr rfl rfl
      have hshort := h i (hsame.symm.trans hpage) hframe
      -- the pcb of the child gets the break and the stack of the parent, and keeps its table
      let m₁ := setSpace m s.fam.count (childSpace s.curr s.fam.count m)
      have hspace₁ : m₁.space s.curr = m.space s.curr := put_of_ne hne ..
      have hspace₂ : (m₁.space s.fam.count).region0 = (m.space s.fam.count).region0 :=
        (congrArg Space.region0 (setSpace_space_self ..)).trans rfl
      have hw₂ : Leads m₁ (m₁.space s.curr).region0 w := by
        rw [hspace₁]
        exact leads_congr hw₁ rfl fun _ _ => rfl
      have hwc₂ : Leads m₁ (m₁.space s.fam.count).region0 (.frame (pageTableLen + i)) := by
        rw [hspace₂]
        exact leads_congr hwc rfl fun _ _ => rfl
      have hsmall₁ : m₁.numPages < 2 ^ 20 := by
        obtain ⟨k, -, hfixed⟩ := buildRegion0_table hbuild
        exact lt_of_eq_of_lt hfixed.numPages hsmall
      obtain ⟨b, u, -, -, hcopied, -⟩ := switchFork_copied hsmall₁ hw₂ hwc₂ hkept₁ hkc hswitch
      have hread₀ : validEntries (createProc s).2.mem w pageTableLen = validEntries s.mem w pageTableLen := by
        simp only [validEntries, hread]
      have hread₁ : validEntries m₁ w pageTableLen = validEntries m w pageTableLen := by cases w <;> rfl
      have hlist₁ : freeList m₁ = (freeList (setMark s.mem (pageTableLen + i) .pageUsed)).drop kernelStackPages := hlist
      have henough := hcopied.enough
      rw [hlist₁, hread₁, List.length_drop] at henough
      omega

/-- Too few frames, or no page, for a new process: the kernel leaves the defined behaviour of C and of the
machine in the middle of Fork. Nowhere does `ForkFunc` return ERROR. -/
theorem fork_never_clean (info : ExceptionInfo) (s : State) : ¬ FailsCleanly info s ∧
    ∀ w, s.mem.numPages < 2 ^ 20 → s.curr < s.fam.count → Leads s.mem (s.mem.space s.curr).region0 w → Kept s.mem w →
      0 < validEntries s.mem w pageTableLen → Exhausted s.mem w → ∃ e, forkFunc info s = .error e :=
  ⟨fun ⟨_, hreturns, _⟩ => fork_result hreturns, fun _ => exhausted_faults⟩

def sixFrames : State :=
  { zeroState with
    mem := { zeroState.mem with
      cfg := ⟨kernelStackBase, vmem1Base, vmem1Base + 100⟩
      numPages := 1024
      freePages := fun p => if p < 6 then .pageFree else .pageUsed
      numFreePages := 6
      region0Pt := fun j => ⟨BitVec.ofNat 20 j, 0, 0, 3, kernelStackBase ≤ j⟩
      region1Pt := fun i => ⟨BitVec.ofNat 20 (pageTableLen + i), 0, 0, 3, i < 2⟩
      regPtr0 := .region0Pt
      space := fun _ => ⟨0, 0, .region0Pt, 0⟩ }
    fam := { zeroState.fam with count := 1 }
    sched := { noItems with currProc := 0 } }

def sixFramesFacts : Bool :=
  decide (freeVirtualPage sixFrames.mem = some 509) &&
  decide ((freeList (setMark sixFrames.mem (pageTableLen + 509) .pageUsed)).length = 6) &&
  decide (validEntries sixFrames.mem .static pageTableLen = 4)

theorem sixFrames_facts : sixFramesFacts = true := by
  decide +kernel

theorem sixFrames_exhausted : Exhausted sixFrames.mem .static ∧ validEntries sixFrames.mem .static pageTableLen = 4 := by
  have hfacts := sixFrames_facts
  simp only [sixFramesFacts, Bool.and_eq_true, decide_eq_true_eq] at hfacts
  obtain ⟨⟨hpage, hlen⟩, hvalid⟩ := hfacts
  refine ⟨fun i hi _ => ?_, hvalid⟩
  obtain rfl := Option.some.inj (hpage.symm.trans hi)
  rw [hlen, hvalid]
  decide

/-- The kernel stack takes four of the six frames, and the pages of the parent are four. -/
theorem fork_no_error : Exhausted sixFrames.mem .static ∧ ¬ FailsCleanly smallInfo sixFrames :=
  ⟨sixFrames_exhausted.1, fun ⟨_, hreturns, _⟩ => fork_result hreturns⟩

theorem fork_never_clean_six : ∃ e, forkFunc smallInfo sixFrames = .error e := by
  obtain ⟨hexhausted, hvalid⟩ := sixFrames_exhausted
  exact (fork_never_clean smallInfo sixFrames).2 .static (by decide) (by decide) .static nofun (by omega) hexhausted

end Yalnix.ForkErrors
