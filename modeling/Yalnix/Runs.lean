import Yalnix.Boot
import Mathlib.Logic.Relation

namespace Yalnix.Runs

open Loops Machine LoadProgram Processes Kernel

/-- What makes the machine go on: a trap or an interrupt, the resumption of a
suspended process in the kernel, malloc growing the kernel heap, or an
instruction of the process that runs in user mode. -/
inductive Event
  | call (c : Call) (info : ExceptionInfo)
  | memoryTrap (info : ExceptionInfo)
  | fatalTrap (info : ExceptionInfo)
  | clock (info : ExceptionInfo)
  | resume (file : Option File)
  | kernelBrk (addr : Nat)
  | userStore (vaddr : Nat) (x : BitVec 8)

def State.userMode (s : State) : Prop :=
  match s.mode with
  | .user => True
  | _ => False

theorem userMode_iff {s : State} : State.userMode s ↔ s.mode = .user := by
  unfold State.userMode
  cases s.mode <;> simp

instance (s : State) : Decidable (State.userMode s) :=
  match h : s.mode with
  | .user => .isTrue (userMode_iff.2 h)
  | .resuming _ => .isFalse fun hu => by simp [State.userMode, h] at hu
  | .hung => .isFalse fun hu => by simp [State.userMode, h] at hu

def mapped (m : Memory) (page : Nat) : Bool :=
  match walk m page with
  | .ok e => page < pageTableLen && e.valid
  | .error _ => false

/-- A store in user mode needs the permission of the entry. -/
def userStore (vaddr : Nat) (x : BitVec 8) (m : Memory) : Except Fault Memory := do
  let f ← userFrame m (vaddr / pageSize)
  let e ← walk m (vaddr / pageSize)
  let i := vaddr % pageSize / 4
  if e.uprot &&& protWrite ≠ 0 then .ok (writeWord m f i ((m.frames f i).setByte (vaddr % 4) x))
  else .error .unmapped

theorem userStore_ok {vaddr : Nat} {x : BitVec 8} {m m' : Memory} (h : userStore vaddr x m = .ok m') :
    ∃ f e, userFrame m (vaddr / pageSize) = .ok f ∧ walk m (vaddr / pageSize) = .ok e ∧
      e.uprot &&& protWrite ≠ 0 ∧ m' = writeWord m f (vaddr % pageSize / 4)
        ((m.frames f (vaddr % pageSize / 4)).setByte (vaddr % 4) x) := by
  obtain ⟨f, hf, h⟩ := bind_ok.1 h
  obtain ⟨e, he, h⟩ := bind_ok.1 h
  obtain ⟨hw, h⟩ := ite_error_ok.1 h
  exact ⟨f, e, hf, he, hw, (Except.ok.inj h).symm⟩

/-- Interrupts do not nest in the kernel, and the machine reports MAPERR only
for a page without a valid entry. -/
def enabled (s : State) : Event → Prop
  | .call _ _ | .fatalTrap _ | .clock _ | .userStore _ _ => State.userMode s
  | .memoryTrap info => State.userMode s ∧ (info.code = trapMemoryMaperr → mapped s.mem (info.addr / pageSize) = false)
  | .resume _ => ¬ State.userMode s
  | .kernelBrk _ => True

instance (s : State) (e : Event) : Decidable (enabled s e) :=
  match e with
  | .call _ _ | .fatalTrap _ | .clock _ | .userStore _ _ => inferInstanceAs (Decidable (State.userMode s))
  | .memoryTrap info => inferInstanceAs (Decidable (State.userMode s ∧
      (info.code = trapMemoryMaperr → mapped s.mem (info.addr / pageSize) = false)))
  | .resume _ => inferInstanceAs (Decidable (¬ State.userMode s))
  | .kernelBrk _ => inferInstanceAs (Decidable True)

def next (s : State) : Event → Except Fault State
  | .call c info => Prod.snd <$> trapKernelHandler c info s
  | .memoryTrap info => Prod.snd <$> trapMemoryHandler info s
  | .fatalTrap info => Prod.snd <$> trapFatalHandler info s
  | .clock info => Prod.snd <$> trapClockHandler info s
  | .resume file => Prod.snd <$> Kernel.resume file s
  | .kernelBrk addr => do
      let (_, mem) ← AddressSpace.setKernelBrk addr s.mem
      return { s with mem }
  | .userStore vaddr x => do
      let mem ← userStore vaddr x s.mem
      return { s with mem }

def Step (s : State) (e : Event) (t : State) : Prop := enabled s e ∧ next s e = .ok t

/-- The states reached from `s` by steps that are all `allowed`. -/
def Reaches (allowed : State → Event → Prop) : State → State → Prop :=
  Relation.ReflTransGen fun s t => ∃ e, allowed s e ∧ Step s e t

def Reachable (allowed : State → Event → Prop) (env : BootEnv) (t : State) : Prop :=
  ∃ s, kernelStart env = .ok s ∧ Reaches allowed s t

/-- A process that was created and did not exit. -/
def live (s : State) (p : Nat) : Prop := p < s.fam.count ∧ s.exited p = false

instance (s : State) (p : Nat) : Decidable (live s p) := inferInstanceAs (Decidable (_ ∧ _))

def smallInfo : ExceptionInfo := ⟨0, 0, 0, 0, 0, fun _ => 0⟩

def smallFile : File := ⟨.success ⟨0, 4, 0, 0⟩, some [0, 0, 0, 0]⟩

def zeroState : State where
  mem :=
    { cfg := ⟨kernelStackBase, 0, 0⟩, numPages := 0, freePages := fun _ => .pageFree, numFreePages := 0
      region0Pt := fun _ => zeroPte, region1Pt := fun _ => zeroPte, frames := fun _ _ => zeroPte
      currKernelBrk := 0, vmEnabled := false, regPtr0 := .null, space := fun _ => ⟨0, 0, .null, 0⟩ }
  fam :=
    { count := 0, nextProcId := 0, processId := fun _ => 0, parent := fun _ => none
      childrenHead := fun _ => none, childrenTail := fun _ => none, nextSibling := fun _ => none
      prevSibling := fun _ => none, exitedChildrenHead := fun _ => none, exitedChildrenTail := fun _ => none
      waiting := fun _ => false
      records := ⟨0, fun _ => false, 0, fun _ => 0, fun _ => 0, fun _ => none, fun _ => none⟩ }
  sched :=
    { items := ⟨0, fun _ => false, fun _ => none, fun _ => 0, fun _ => 0, fun _ => none⟩
      queueHead := none, queueTail := none, queueSize := 0
      waitingQueueHead := none, waitingQueueTail := none, waitingQueueSize := 0
      delayTicks := fun _ => 0, currProc := 0, idlePcb := 0, ticksPassed := 0 }
  ctx := fun _ => ⟨0, .wait, smallInfo⟩
  cpu := 0
  mode := .user
  exited := fun _ => false

/-- 1024 frames, and a kernel that takes one page of Region 1. -/
def smallBoot : BootEnv where
  cfg := ⟨507, vmem1Base, vmem1Base + 100⟩
  pmemSize := BitVec.ofNat 32 (1024 * pageSize)
  kernelBrk := vmem1Base + pageSize
  termsBrk := []
  idleFile := some smallFile
  initFile := some smallFile
  cmdArgs := []
  info := smallInfo
  raw := zeroState

def stepsTo (s : State) (e : Event) (test : State → Bool) : Bool :=
  if enabled s e then
    match next s e with
    | .ok t => test t
    | .error _ => false
  else false

theorem stepsTo_iff {s : State} {e : Event} {test : State → Bool} :
    stepsTo s e test = true ↔ ∃ t, Step s e t ∧ test t = true := by
  unfold stepsTo Step
  by_cases hen : enabled s e
  · cases h : next s e <;> simp [hen]
  · simp [hen]

def startsIn (test : State → Bool) : Bool :=
  match kernelStart smallBoot with
  | .ok s => test s
  | .error _ => false

theorem startsIn_iff {test : State → Bool} :
    startsIn test = true ↔ ∃ s, kernelStart smallBoot = .ok s ∧ test s = true := by
  unfold startsIn
  cases h : kernelStart smallBoot <;> simp

def atFork (s : State) : Bool :=
  match s.mode with
  | .resuming c =>
      match c.kont with
      | .fork _ => true
      | _ => false
  | _ => false

theorem atFork_kont {s : State} (h : atFork s = true) : ∃ c child, s.mode = .resuming c ∧ c.kont = .fork child := by
  unfold atFork at h
  split at h
  case h_1 c hm =>
    split at h
    case h_1 child hk => exact ⟨c, child, hm, hk⟩
    case h_2 => cases h
  case h_2 => cases h

theorem kont_atFork {s : State} {c : Context} (h : atFork s = true) (hm : s.mode = .resuming c) :
    ∃ child, c.kont = .fork child := by
  obtain ⟨c', child, hm', hk⟩ := atFork_kont h
  obtain rfl := Mode.resuming.inj (hm.symm.trans hm')
  exact ⟨child, hk⟩

theorem resume_atFork {s t : State} {file : Option File} {out : Option ExceptionInfo} (h : atFork s = true)
    (hr : Kernel.resume file s = .ok (out, t)) : t = { s with mode := .user } := by
  obtain ⟨c, child, hm, hk⟩ := atFork_kont h
  unfold Kernel.resume at hr
  simp only [hm, hk] at hr
  exact (Prod.mk.inj (Except.ok.inj hr)).2.symm

def smallPtr : Nat := memInvalidPages * pageSize

def tableEntry (s : State) (p i : Nat) : Except Fault Pte := readPte s.mem (s.mem.space p).region0 i

/-- Init makes a child, which exits with status 7, and init comes back from Fork. -/
structure SmallFamily (s₀ s₁ s₂ s₃ s₄ : State) : Prop where
  boot : kernelStart smallBoot = .ok s₀
  fork : Step s₀ (.call .fork smallInfo) s₁
  child : Step s₁ (.resume none) s₂
  exit : Step s₂ (.call (.exit 7) smallInfo) s₃
  parent : Step s₃ (.resume none) s₄
  start : s₀.curr = 1 ∧ s₀.sched.idlePcb = 0 ∧ s₀.fam.count = 2 ∧ live s₀ 1
  forked : atFork s₁ = true ∧ s₁.curr = 2 ∧ s₁.sched.idlePcb = 0 ∧ live s₁ 2
  exited : atFork s₃ = true ∧ s₃.curr = 1 ∧ live s₃ 1
  wait_faults : trapKernelHandler (.wait smallPtr) smallInfo s₄ = .error .nullDeref
  table_left : (s₀.mem.region1Pt 508).valid = false ∧ (s₄.mem.region1Pt 508).valid = true

/-- What goes wrong on the way: init moves its break up, three ticks pass in the
child, or the child moves its break down. -/
structure SmallFaults (s₀ s₂ : State) : Prop where
  brkUp : ∃ u, Step s₀ (.call (.brk (18 * pageSize)) smallInfo) u ∧
    ((s₀.mem.region0Pt 17).valid = false ∧ (u.mem.region0Pt 17).valid = true) ∧
    (u.mem.space 1).brk = 18 ∧ (tableEntry u 1 17).toOption.map Pte.valid = some false
  ticks : ∃ u₁ u₂ u₃, Step s₂ (.clock smallInfo) u₁ ∧ Step u₁ (.clock smallInfo) u₂ ∧ Step u₂ (.clock smallInfo) u₃ ∧
    (State.userMode u₃ ∧ u₃.cpu = 2 ∧ u₃.curr = 1 ∧ getPid u₃ = 1 ∧
      u₃.mem.regPtr0 ≠ (u₃.mem.space u₃.curr).region0)
  brkDown : ∃ u, Step s₂ (.call (.brk (16 * pageSize)) smallInfo) u ∧ live u 2 ∧
    (tableEntry u 2 511).toOption.map (fun e => (e.valid, e.pfn)) = some (true, 17) ∧ u.mem.freePages 17 = .pageFree

theorem small_family : ∃ s₀ s₁ s₂ s₃ s₄, SmallFamily s₀ s₁ s₂ s₃ s₄ ∧ SmallFaults s₀ s₂ := by
  have h : startsIn (fun s₀ =>
      (s₀.curr = 1 ∧ s₀.sched.idlePcb = 0 ∧ s₀.fam.count = 2 ∧ live s₀ 1) &&
      stepsTo s₀ (.call (.brk (18 * pageSize)) smallInfo) (fun u =>
        ((s₀.mem.region0Pt 17).valid = false ∧ (u.mem.region0Pt 17).valid = true) &&
        ((u.mem.space 1).brk = 18 ∧ (tableEntry u 1 17).toOption.map Pte.valid = some false)) &&
      stepsTo s₀ (.call .fork smallInfo) fun s₁ =>
        (atFork s₁ = true ∧ s₁.curr = 2 ∧ s₁.sched.idlePcb = 0 ∧ live s₁ 2) &&
        stepsTo s₁ (.resume none) fun s₂ =>
          stepsTo s₂ (.clock smallInfo) (fun u₁ => stepsTo u₁ (.clock smallInfo) fun u₂ =>
            stepsTo u₂ (.clock smallInfo) fun u₃ =>
              (State.userMode u₃ ∧ u₃.cpu = 2 ∧ u₃.curr = 1 ∧ getPid u₃ = 1 ∧
                u₃.mem.regPtr0 ≠ (u₃.mem.space u₃.curr).region0)) &&
          stepsTo s₂ (.call (.brk (16 * pageSize)) smallInfo) (fun u => live u 2 &&
            ((tableEntry u 2 511).toOption.map (fun e => (e.valid, e.pfn)) = some (true, 17) &&
              u.mem.freePages 17 = .pageFree)) &&
          stepsTo s₂ (.call (.exit 7) smallInfo) fun s₃ =>
            (atFork s₃ = true ∧ s₃.curr = 1 ∧ live s₃ 1) &&
            stepsTo s₃ (.resume none) fun s₄ =>
              ((s₀.mem.region1Pt 508).valid = false ∧ (s₄.mem.region1Pt 508).valid = true) &&
              match trapKernelHandler (.wait smallPtr) smallInfo s₄ with
              | .error f => f = .nullDeref
              | .ok _ => false) = true := by
    decide +kernel
  simp only [startsIn_iff, stepsTo_iff, Bool.and_eq_true, decide_eq_true_eq] at h
  obtain ⟨s₀, h₀, ⟨hs₀, hup⟩, s₁, h₁, hs₁, s₂, h₂, ⟨⟨u₁, hu₁, u₂, hu₂, u₃, hu₃, hticks⟩, hdown⟩, s₃, h₃, hs₃, s₄, h₄,
    htable, hw⟩ := h
  refine ⟨s₀, s₁, s₂, s₃, s₄, ⟨h₀, h₁, h₂, h₃, h₄, hs₀, hs₁, hs₃, ?_, htable⟩,
    hup, ⟨u₁, u₂, u₃, hu₁, hu₂, hu₃, hticks⟩, hdown⟩
  split at hw
  case h_1 f hf => rw [hf, of_decide_eq_true hw]
  case h_2 => cases hw

/-- Init makes a child and the child makes one, which exits. Then init is next,
and waits for its child. -/
structure SmallLine (s₀ s₁ s₂ s₃ s₄ s₅ s₆ s₇ : State) : Prop where
  boot : kernelStart smallBoot = .ok s₀
  fork : Step s₀ (.call .fork smallInfo) s₁
  child : Step s₁ (.resume none) s₂
  forkAgain : Step s₂ (.call .fork smallInfo) s₃
  grandchild : Step s₃ (.resume none) s₄
  exit : Step s₄ (.call (.exit 7) smallInfo) s₅
  parent : Step s₅ (.resume none) s₆
  wait : Step s₆ (.call (.wait smallPtr) smallInfo) s₇
  start : s₀.curr = 1 ∧ s₀.sched.idlePcb = 0 ∧ s₀.fam.count = 2 ∧ live s₀ 1
  forked : atFork s₁ = true ∧ s₁.curr = 2 ∧ s₁.sched.idlePcb = 0 ∧ s₁.fam.count = 3 ∧ live s₁ 2
  forkedAgain : atFork s₃ = true ∧ s₃.curr = 3 ∧ s₃.sched.idlePcb = 0 ∧ live s₃ 3
  exited : atFork s₅ = true ∧ s₅.curr = 1 ∧ s₅.sched.idlePcb = 0 ∧ live s₅ 1 ∧ s₅.exited 2 = false
  blocked : ¬ State.userMode s₇

theorem small_line : ∃ s₀ s₁ s₂ s₃ s₄ s₅ s₆ s₇, SmallLine s₀ s₁ s₂ s₃ s₄ s₅ s₆ s₇ := by
  have h : startsIn (fun s₀ =>
      (s₀.curr = 1 ∧ s₀.sched.idlePcb = 0 ∧ s₀.fam.count = 2 ∧ live s₀ 1) &&
      stepsTo s₀ (.call .fork smallInfo) fun s₁ =>
        (atFork s₁ = true ∧ s₁.curr = 2 ∧ s₁.sched.idlePcb = 0 ∧ s₁.fam.count = 3 ∧ live s₁ 2) &&
        stepsTo s₁ (.resume none) fun s₂ => stepsTo s₂ (.call .fork smallInfo) fun s₃ =>
          (atFork s₃ = true ∧ s₃.curr = 3 ∧ s₃.sched.idlePcb = 0 ∧ live s₃ 3) &&
          stepsTo s₃ (.resume none) fun s₄ => stepsTo s₄ (.call (.exit 7) smallInfo) fun s₅ =>
            (atFork s₅ = true ∧ s₅.curr = 1 ∧ s₅.sched.idlePcb = 0 ∧ live s₅ 1 ∧ s₅.exited 2 = false) &&
            stepsTo s₅ (.resume none) fun s₆ => stepsTo s₆ (.call (.wait smallPtr) smallInfo) fun s₇ =>
              ¬ State.userMode s₇) = true := by
    decide +kernel
  simp only [startsIn_iff, stepsTo_iff, Bool.and_eq_true, decide_eq_true_eq] at h
  obtain ⟨s₀, h₀, hs₀, s₁, h₁, hs₁, s₂, h₂, s₃, h₃, hs₃, s₄, h₄, s₅, h₅, hs₅, s₆, h₆, s₇, h₇, hs₇⟩ := h
  exact ⟨s₀, s₁, s₂, s₃, s₄, s₅, s₆, s₇, h₀, h₁, h₂, h₃, h₄, h₅, h₆, h₇, hs₀, hs₁, hs₃, hs₅, hs₇⟩

theorem step_atFork {s t : State} {file : Option File} (hf : atFork s = true) (h : Step s (.resume file) t) :
    t = { s with mode := .user } := by
  obtain ⟨⟨out, u⟩, hu, rfl⟩ := map_ok.1 h.2
  exact resume_atFork hf hu

theorem SmallFamily.child_eq {s₀ s₁ s₂ s₃ s₄ : State} (h : SmallFamily s₀ s₁ s₂ s₃ s₄) : s₂ = { s₁ with mode := .user } :=
  step_atFork h.forked.1 h.child

theorem SmallFamily.parent_eq {s₀ s₁ s₂ s₃ s₄ : State} (h : SmallFamily s₀ s₁ s₂ s₃ s₄) : s₄ = { s₃ with mode := .user } :=
  step_atFork h.exited.1 h.parent

end Yalnix.Runs
