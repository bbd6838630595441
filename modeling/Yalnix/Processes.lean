import Yalnix.Machine

namespace Yalnix.Processes

open Loops Machine

/-- A pointer to a pcb, a queue item or an exit record. NULL is `none`. -/
abbrev Ptr := Option Nat

/-- The use of a pointer into a heap that has handed out the addresses below
`count`. A pointer that was never set may hold any value. -/
def deref (count : Nat) (freed : Nat → Bool) : Ptr → Except Fault Nat
  | none => .error .nullDeref
  | some a => if a < count then if freed a then .error .freedDeref else .ok a else .error .wildDeref

/-- The heap of `struct exitedChild`, field by field. A cell keeps its bytes
when it is freed; `staleReads` counts the reads of one after that. -/
structure Records where
  count : Nat
  freed : Nat → Bool
  staleReads : Nat
  status : Nat → Int
  processId : Nat → Nat
  prev : Nat → Ptr
  next : Nat → Ptr

/-- The fields of `struct pcb` that tie processes to each other, by the address
of the pcb, and the exit records. Fields that no one set hold what malloc left. -/
structure Family where
  count : Nat
  nextProcId : Nat
  processId : Nat → Nat
  parent : Nat → Ptr
  childrenHead : Nat → Ptr
  childrenTail : Nat → Ptr
  nextSibling : Nat → Ptr
  prevSibling : Nat → Ptr
  exitedChildrenHead : Nat → Ptr
  exitedChildrenTail : Nat → Ptr
  waiting : Nat → Bool
  records : Records

def Family.deref (f : Family) (p : Ptr) : Except Fault Nat := Processes.deref f.count (fun _ => false) p

def Records.deref (r : Records) (p : Ptr) : Except Fault Nat := Processes.deref r.count r.freed p

/-- The links that `create_pcb` sets. It leaves `parent` alone. -/
def createPcb (f : Family) : Nat × Family :=
  let new := f.count
  (new, { f with
    count := f.count + 1
    processId := Function.update f.processId new f.nextProcId
    nextProcId := f.nextProcId + 1
    childrenHead := Function.update f.childrenHead new none
    childrenTail := Function.update f.childrenTail new none
    nextSibling := Function.update f.nextSibling new none
    prevSibling := Function.update f.prevSibling new none
    exitedChildrenHead := Function.update f.exitedChildrenHead new none
    exitedChildrenTail := Function.update f.exitedChildrenTail new none
    waiting := Function.update f.waiting new false })

/-- The lines of `ForkFunc` that set the relations between parent and child. -/
def linkChild (parent child : Nat) (f : Family) : Except Fault Family := do
  let f := { f with
    parent := Function.update f.parent child (some parent)
    prevSibling := Function.update f.prevSibling child (f.childrenTail parent) }
  let f ← if (f.childrenHead parent).isNone then
      pure { f with childrenHead := Function.update f.childrenHead parent (some child) }
    else do
      let tail ← f.deref (f.childrenTail parent)
      pure { f with nextSibling := Function.update f.nextSibling tail (some child) }
  return { f with childrenTail := Function.update f.childrenTail parent (some child) }

def removeChildFromParent (item parent : Nat) (f : Family) : Except Fault Family := do
  if f.childrenHead parent = some item ∧ f.childrenTail parent = some item then
    return { f with
      childrenHead := Function.update f.childrenHead parent none
      childrenTail := Function.update f.childrenTail parent none
      nextSibling := Function.update f.nextSibling item none
      prevSibling := Function.update f.prevSibling item none }
  else if f.childrenHead parent = some item then
    let head ← f.deref (f.nextSibling item)
    return { f with
      childrenHead := Function.update f.childrenHead parent (some head)
      prevSibling := Function.update f.prevSibling head none }
  else if f.childrenTail parent = some item then
    let tail ← f.deref (f.prevSibling item)
    return { f with
      childrenTail := Function.update f.childrenTail parent (some tail)
      nextSibling := Function.update f.nextSibling tail none }
  else
    let prev ← f.deref (f.prevSibling item)
    let f := { f with nextSibling := Function.update f.nextSibling prev (f.nextSibling item) }
    let next ← f.deref (f.nextSibling item)
    return { f with prevSibling := Function.update f.prevSibling next (f.prevSibling item) }

def pushExitToExited (child current : Nat) (f : Family) : Except Fault Family := do
  let f := { f with records.next := Function.update f.records.next child none }
  if (f.exitedChildrenHead current).isNone then
    return { f with
      exitedChildrenHead := Function.update f.exitedChildrenHead current (some child)
      exitedChildrenTail := Function.update f.exitedChildrenTail current (some child) }
  else
    let tail ← f.records.deref (f.exitedChildrenTail current)
    return { f with
      records.next := Function.update f.records.next tail (some child)
      records.prev := Function.update f.records.prev child (some tail)
      exitedChildrenTail := Function.update f.exitedChildrenTail current (some child) }

/-- The new head is dereferenced even when the queue has become empty. -/
def removeHeadFromExitQueue (current : Nat) (f : Family) : Except Fault Family := do
  match f.exitedChildrenHead current with
  | none => return f
  | some _ => do
      let nextChild ← f.records.deref (f.exitedChildrenHead current)
      let f := if f.exitedChildrenHead current = f.exitedChildrenTail current then { f with
          exitedChildrenHead := Function.update f.exitedChildrenHead current none
          exitedChildrenTail := Function.update f.exitedChildrenTail current none }
        else f
      let f := { f with
        exitedChildrenHead := Function.update f.exitedChildrenHead current (f.records.next nextChild) }
      let head ← f.records.deref (f.exitedChildrenHead current)
      return { f with
        records.prev := Function.update f.records.prev head none
        records.freed := Function.update f.records.freed nextChild true }

def orphanChildren : Nat → Ptr → Family → Except Fault Family
  | _, none, f => .ok f
  | 0, some _, _ => .error .divergence
  | n + 1, some child, f => do
      let child ← f.deref (some child)
      let f := { f with parent := Function.update f.parent child none }
      orphanChildren n (f.nextSibling child) f

/-- The loop of `ExitFunc` over the children of the parent. It goes on from the
node it has just removed. -/
def removeFromParent (curr parent : Nat) : Nat → Ptr → Family → Except Fault Family
  | _, none, f => .ok f
  | 0, some _, _ => .error .divergence
  | n + 1, some child, f => do
      let child ← f.deref (some child)
      let f ← if f.processId child = f.processId curr then removeChildFromParent child parent f else pure f
      removeFromParent curr parent n (f.nextSibling child) f

def reportExit (curr : Nat) (status : Int) (parent : Nat) (f : Family) : Except Fault Family :=
  let exited := f.records.count
  pushExitToExited exited parent { f with
    records.count := f.records.count + 1
    records.freed := Function.update f.records.freed exited false
    records.processId := Function.update f.records.processId exited (f.processId curr)
    records.status := Function.update f.records.status exited status }

/-- `ExitFunc` up to its context switch, on the links. The parent is returned
when it has to go to the ready queue. -/
def exitLinks (curr : Nat) (status : Int) (f : Family) : Except Fault (Ptr × Family) := do
  let f ← orphanChildren f.count (f.childrenHead curr) f
  match f.parent curr with
  | none => return (none, f)
  | some parent => do
      let parent ← f.deref (some parent)
      let f ← removeFromParent curr parent f.count (f.childrenHead parent) f
      let f ← reportExit curr status parent f
      if f.waiting parent then
        return (some parent, { f with waiting := Function.update f.waiting parent false })
      else return (none, f)

/-- `WaitFunc` from the point where an exit record is expected. The record is
read once more after it has been freed, and its status goes to the local copy
of `status_ptr` only. -/
def collect (curr : Nat) (f : Family) : Except Fault (Int × Family) := do
  let exited := f.exitedChildrenHead curr
  let f ← removeHeadFromExitQueue curr f
  match exited with
  | none => .error .nullDeref
  | some a => return (f.records.processId a, { f with records.staleReads := f.records.staleReads + (f.records.freed a).toNat })

end Yalnix.Processes
