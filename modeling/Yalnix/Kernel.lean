import Yalnix.LoadProgram
import Yalnix.Queues

namespace Yalnix.Kernel

open Loops Machine LoadProgram Processes Queues

/-- Where kernel code stops in a call of `ContextSwitch`, with the local
variables it uses after it. -/
inductive Kont
  | boot (pcb2 : Nat) (cmdArgs : List (List (BitVec 8)))
  | fork (child : Nat)
  | wait
  | delay
  | clock (item : Nat)
  | exit

/-- A `SavedContext`: the process whose execution it is, the place in the
kernel where it goes on, and the registers it will return to user mode with. -/
structure Context where
  owner : Nat
  kont : Kont
  info : ExceptionInfo

inductive Mode
  | user
  | resuming (c : Context)
  | hung

/-- The whole machine. `cpu` is the process whose execution the processor
carries on, which is not what `curr_proc` says but what is so. `exited` tells
for which processes `ExitFunc` was called; no code reads it. -/
structure State where
  mem : Memory
  fam : Family
  sched : Sched
  ctx : Nat → Context
  cpu : Nat
  mode : Mode
  exited : Nat → Bool

def State.curr (s : State) : Nat := s.sched.currProc

/-- `create_pcb`. It sets neither `sp` nor `parent`. -/
def createProc (s : State) : Nat × State :=
  let (new, fam) := createPcb s.fam
  let space := { s.mem.space new with brk := toUlong (-1), region0 := .null, freeVpn := toUlong (-1) }
  (new, { s with
    fam
    mem := setSpace s.mem new space
    sched.delayTicks := Function.update s.sched.delayTicks new (-1) })

/-- The hardware's `ContextSwitch(switch, &curr_proc->ctx, ..)`: the running
context goes to the pcb of `curr_proc`, and the context the function returns,
named by its pcb, is resumed. -/
def contextSwitch (kont : Kont) (info : ExceptionInfo) (switch : State → Except Fault (Nat × State))
    (s : State) : Except Fault State := do
  let saved := { s with ctx := Function.update s.ctx s.curr ⟨s.cpu, kont, info⟩ }
  let (p, s) ← switch saved
  return { s with cpu := (s.ctx p).owner, mode := .resuming (s.ctx p) }

/-- `proc->ctx = *ctxp`. The copy runs on the kernel stack of `proc`. -/
def copyContext (ctxp proc : Nat) (s : State) : State :=
  { s with ctx := Function.update s.ctx proc { s.ctx ctxp with owner := proc } }

def switchNewProc (proc1 proc2 : Nat) (s : State) : Except Fault (Nat × State) := do
  let s := copyContext proc1 proc2 s
  let mem ← AddressSpace.switchNewProc proc2 s.mem
  return (proc2, { s with mem, sched.currProc := proc2 })

def switchFork (parent child : Nat) (s : State) : Except Fault (Nat × State) := do
  let s := copyContext parent child s
  let mem ← AddressSpace.switchFork parent child s.mem
  let sched ← pushProcToQueue parent { s.sched with currProc := child }
  return (child, { s with mem, sched })

def switchExist (proc2 : Nat) (s : State) : Except Fault (Nat × State) :=
  .ok (proc2, { s with mem := AddressSpace.switchExist proc2 s.mem, sched.currProc := proc2 })

def switchExit (proc1 proc2 : Nat) (s : State) : Except Fault (Nat × State) := do
  let mem ← AddressSpace.switchExit proc1 proc2 s.mem
  return (proc2, { s with mem, sched.currProc := proc2 })

def forkFunc (info : ExceptionInfo) (s : State) : Except Fault State := do
  let parent := s.curr
  let (child, s) := createProc s
  let mem ← AddressSpace.buildRegion0 child s.mem
  let space := { mem.space child with sp := (mem.space parent).sp, brk := (mem.space parent).brk }
  let fam ← linkChild parent child s.fam
  contextSwitch (.fork child) info (switchFork parent child) { s with fam, mem := setSpace mem child space }

/-- The return value of `ForkFunc`, in whichever process comes back from its switch. -/
def forkResult (child : Nat) (s : State) : Int :=
  if s.fam.processId s.curr = s.fam.processId child then 0 else s.fam.processId child

def execFunc (file : Option File) (args : List (List (BitVec 8))) (info : ExceptionInfo) (s : State) :
    Except Fault (Int × ExceptionInfo × State) := do
  let (res, info, mem) ← loadProgram s.curr (s.mem.space s.curr).region0 file args info s.mem
  if res = ERROR then return (ERROR, info, { s with mem }) else return (0, info, { s with mem })

def exitFunc (status : Int) (info : ExceptionInfo) (s : State) : Except Fault State := do
  let curr := s.curr
  let (woken, fam) ← exitLinks curr status s.fam
  let sched ← match woken with
    | some parent => pushProcToQueue parent s.sched
    | none => pure s.sched
  let (next, sched) ← findReadyPcb sched
  let exited := Function.update s.exited curr true
  contextSwitch .exit info (switchExit curr next) { s with fam, sched, exited }

/-- The return value is given when the call returns without a switch. -/
def waitFunc (info : ExceptionInfo) (s : State) : Except Fault (Option Int × State) := do
  if (s.fam.exitedChildrenHead s.curr).isNone then
    if (s.fam.childrenHead s.curr).isNone then
      return (some ERROR, s)
    else
      let fam := { s.fam with waiting := Function.update s.fam.waiting s.curr true }
      let (next, sched) ← findReadyPcb s.sched
      let s ← contextSwitch .wait info (switchExist next) { s with fam, sched }
      return (none, s)
  else
    let (pid, fam) ← collect s.curr s.fam
    return (some pid, { s with fam })

def delayFunc (clockTicks : Int) (info : ExceptionInfo) (s : State) : Except Fault (Option Int × State) := do
  if clockTicks = 0 then
    return (some 0, s)
  else if clockTicks < 0 then
    return (some ERROR, s)
  else
    let (node, items) := s.sched.items.alloc s.curr
    let sched : Sched := { s.sched with
      items := { items with ticksLeft := Function.update items.ticksLeft node clockTicks }
      delayTicks := Function.update s.sched.delayTicks s.curr clockTicks }
    let sched ← removeProcFromReadyQueue s.curr s.fam.processId sched
    let sched ← pushItemToWaitingQueue node sched
    let (next, sched) ← findReadyPcb sched
    let s ← contextSwitch .delay info (switchExist next) { s with sched }
    return (none, s)

def getPid (s : State) : Int := s.fam.processId s.curr

/-- A kernel call with its arguments. What the file system holds for the name
given to Exec is part of the call. -/
inductive Call
  | fork
  | exec (file : Option File) (args : List (List (BitVec 8)))
  | exit (status : Int)
  | wait (statusPtr : Nat)
  | getPid
  | brk (addr : Nat)
  | delay (clockTicks : Nat)

def setReg0 (info : ExceptionInfo) (value : Int) : ExceptionInfo :=
  { info with regs := Function.update info.regs 0 (toUlong value) }

abbrev Outcome := Option ExceptionInfo × State

/-- The status given to Exit is not passed on, and neither is the pointer given to Wait. -/
def trapKernelHandler (call : Call) (info : ExceptionInfo) (s : State) : Except Fault Outcome :=
  match call with
  | .fork => do
      let s ← forkFunc info s
      return (none, s)
  | .exec file args => do
      let (res, info, s) ← execFunc file args info s
      return (some (setReg0 info res), s)
  | .exit _ => do
      let s ← exitFunc 0 info s
      return (none, s)
  | .wait _ => do
      let (res, s) ← waitFunc info s
      return (res.map (setReg0 info), s)
  | .getPid => .ok (some (setReg0 info (getPid s)), s)
  | .brk addr => do
      let (res, mem) ← AddressSpace.brkFunc s.curr addr s.mem
      return (some (setReg0 info res), { s with mem })
  | .delay clockTicks => do
      let (res, s) ← delayFunc (toInt clockTicks) info s
      return (res.map (setReg0 info), s)

def trapMemoryMaperr : Int := 1

def growsStack (s : State) (info : ExceptionInfo) : Bool :=
  info.code = trapMemoryMaperr ∧ ¬ info.addr > kernelStackBase * pageSize ∧
    ¬ toUlong (downToPage info.addr) < (s.mem.space s.curr).brk

def trapMemoryHandler (info : ExceptionInfo) (s : State) : Except Fault Outcome :=
  if growsStack s info then do
    let mem ← AddressSpace.growStack s.curr (toUlong (downToPage info.addr)) s.mem
    return (some info, { s with mem })
  else do
    let s ← exitFunc 1 info s
    return (none, s)

/-- `TrapIllegalHandler` and `TrapMathHandler` end the process whatever the code is. -/
def trapFatalHandler (info : ExceptionInfo) (s : State) : Except Fault Outcome := do
  let s ← exitFunc 1 info s
  return (none, s)

/-- The walk of `TrapClockHandler` over the delay queue and the tick after it.
The walk stops in the context switch to a process whose delay has expired. -/
def clockWalk (info : ExceptionInfo) : Nat → Ptr → State → Except Fault Outcome
  | _, none, s => do
      let sched ← tick s.sched
      return (some info, { s with sched, mode := .user })
  | 0, some _, _ => .error .divergence
  | n + 1, some item, s => do
      let item ← s.sched.items.deref (some item)
      let proc := s.sched.items.proc item
      let ticks := s.sched.delayTicks proc - 1
      let s := { s with sched.delayTicks := Function.update s.sched.delayTicks proc ticks }
      if ticks ≤ 0 then do
        let sched ← removeItemFromWaitingQueue item s.sched
        let sched ← pushProcToQueue proc sched
        let s ← contextSwitch (.clock item) info (switchExist proc) { s with sched }
        return (none, s)
      else clockWalk info n (s.sched.items.next item) s

def trapClockHandler (info : ExceptionInfo) (s : State) : Except Fault Outcome :=
  clockWalk info (s.sched.items.count + 1) s.sched.waitingQueueHead s

/-- What a process does in the kernel when its context is resumed, up to its
return to user mode or its next context switch. The file is the one the first
line of `KernelStart` after its switch loads. -/
def resume (file : Option File) (s : State) : Except Fault Outcome :=
  match s.mode with
  | .resuming c =>
      match c.kont with
      | .boot pcb2 cmdArgs => do
          let (_, info, mem) ← loadProgram s.curr (s.mem.space pcb2).region0 file cmdArgs c.info s.mem
          return (some info, { s with mem, mode := .user })
      | .fork child => .ok (some (setReg0 c.info (forkResult child s)), { s with mode := .user })
      | .wait => do
          let (pid, fam) ← collect s.curr s.fam
          return (some (setReg0 c.info pid), { s with fam, mode := .user })
      | .delay => .ok (some (setReg0 c.info 0), { s with mode := .user })
      | .clock item => do
          let item ← s.sched.items.deref (some item)
          clockWalk c.info (s.sched.items.count + 1) (s.sched.items.next item) s
      | .exit => do
          let mem ← AddressSpace.releaseTable s.curr s.mem
          return (none, { s with mem, mode := .hung })
  | _ => .ok (none, s)

/-- What `KernelStart` is given, what the allocator does to the break before
virtual memory is on (`kernelBrk` is the break on entry to `initPT`), the files
of idle and init, and what memory holds at power-on. -/
structure BootEnv where
  cfg : Config
  pmemSize : BitVec 32
  kernelBrk : Nat
  termsBrk : List Nat
  idleFile : Option File
  initFile : Option File
  cmdArgs : List (List (BitVec 8))
  info : ExceptionInfo
  raw : State

def zeroPte : Pte := ⟨0, 0, 0, 0, false⟩

/-- Static variables have their initial values; the rest is as memory was. -/
def powerOn (env : BootEnv) : State :=
  { env.raw with
    mem := { env.raw.mem with
      cfg := env.cfg
      region0Pt := fun _ => zeroPte
      region1Pt := fun _ => zeroPte
      currKernelBrk := env.kernelBrk
      vmEnabled := false }
    fam := { env.raw.fam with
      count := 0
      nextProcId := 0
      records := { env.raw.fam.records with count := 0, freed := fun _ => false, staleReads := 0 } }
    sched := { env.raw.sched with
      items := { env.raw.sched.items with count := 0, freed := fun _ => false }
      queueHead := none
      queueTail := none
      queueSize := 0
      waitingQueueHead := none
      waitingQueueTail := none
      waitingQueueSize := 0
      ticksPassed := 0 }
    mode := .user
    exited := fun _ => false }

def bootTables (env : BootEnv) : Except Fault State := do
  let s := powerOn env
  let mem ← AddressSpace.initPT (AddressSpace.buildFreePages env.pmemSize s.mem)
  let mem ← env.termsBrk.foldlM (fun m addr => Prod.snd <$> AddressSpace.setKernelBrk addr m) mem
  return { s with mem := { mem with vmEnabled := true } }

def bootIdle (env : BootEnv) (s : State) : Except Fault (ExceptionInfo × State) := do
  let (pcb1, s) := createProc s
  let space := { s.mem.space pcb1 with region0 := .region0Pt }
  let s := { s with mem := setSpace s.mem pcb1 space, sched.currProc := pcb1, cpu := pcb1 }
  let (_, info, mem) ← loadProgram pcb1 .region0Pt env.idleFile env.cmdArgs env.info s.mem
  return (info, { s with mem, sched.idlePcb := pcb1 })

def bootInit (env : BootEnv) (info : ExceptionInfo) (s : State) : Except Fault State := do
  let (pcb2, s) := createProc s
  let mem ← AddressSpace.buildRegion0 pcb2 s.mem
  contextSwitch (.boot pcb2 env.cmdArgs) info (switchNewProc s.curr pcb2) { s with mem }

/-- The state in which `KernelStart` returns, in the context of init. -/
def kernelStart (env : BootEnv) : Except Fault State := do
  let s ← bootTables env
  let (info, s) ← bootIdle env s
  let s ← bootInit env info s
  let (_, s) ← resume env.initFile s
  return s

end Yalnix.Kernel
