import Yalnix.Processes

namespace Yalnix.Queues

open Loops Machine Processes

/-- The heap of `struct queue_item`, field by field. -/
structure Items where
  count : Nat
  freed : Nat → Bool
  prev : Nat → Ptr
  proc : Nat → Nat
  ticksLeft : Nat → Int
  next : Nat → Ptr

/-- The ready queue, the delay queue, and the processes they schedule. -/
structure Sched where
  items : Items
  queueHead : Ptr
  queueTail : Ptr
  queueSize : Int
  waitingQueueHead : Ptr
  waitingQueueTail : Ptr
  waitingQueueSize : Int
  delayTicks : Nat → Int
  currProc : Nat
  idlePcb : Nat
  ticksPassed : Int

def Items.deref (h : Items) (p : Ptr) : Except Fault Nat := Processes.deref h.count h.freed p

theorem items_deref_some {h : Items} {a : Nat} (ha : a < h.count) (hf : h.freed a = false) : h.deref (some a) = .ok a := by
  simp [Items.deref, Processes.deref, ha, hf]

/-- malloc of a queue item. Its `prev` and `next` hold what was there before. -/
def Items.alloc (h : Items) (proc : Nat) : Nat × Items :=
  (h.count, { h with
    count := h.count + 1
    freed := Function.update h.freed h.count false
    proc := Function.update h.proc h.count proc })

def Items.free (h : Items) (a : Nat) : Except Fault Items :=
  if h.freed a then .error .doubleFree else .ok { h with freed := Function.update h.freed a true }

def pushProcToQueue (proc : Nat) (s : Sched) : Except Fault Sched := do
  let (new, items) := s.items.alloc proc
  let s : Sched := { s with items }
  let s ← if s.queueSize = 0 then
      pure { s with queueHead := some new, queueTail := some new }
    else do
      let tail ← s.items.deref s.queueTail
      pure { s with items.next := Function.update s.items.next tail (some new), queueTail := some new }
  return { s with queueSize := s.queueSize + 1 }

/-- The four cases in which an item leaves a queue with the given head and tail. -/
def unlinkItem (item : Nat) (head tail : Ptr) (h : Items) : Except Fault (Ptr × Ptr × Items) :=
  if head = some item ∧ tail = some item then
    .ok (none, none, h)
  else if head = some item then do
    let new ← h.deref (h.next item)
    return (some new, tail, { h with prev := Function.update h.prev new none })
  else if tail = some item then do
    let new ← h.deref (h.prev item)
    return (head, some new, { h with next := Function.update h.next new none })
  else do
    let prev ← h.deref (h.prev item)
    let h := { h with next := Function.update h.next prev (h.next item) }
    let next ← h.deref (h.next item)
    return (head, tail, { h with prev := Function.update h.prev next (h.prev item) })

def removeItemFromReadyQueue (item : Nat) (s : Sched) : Except Fault Sched := do
  let (queueHead, queueTail, items) ← unlinkItem item s.queueHead s.queueTail s.items
  let items ← items.free item
  return { s with queueHead, queueTail, items, queueSize := s.queueSize - 1 }

def removeItemFromWaitingQueue (item : Nat) (s : Sched) : Except Fault Sched := do
  let (waitingQueueHead, waitingQueueTail, items) ← unlinkItem item s.waitingQueueHead s.waitingQueueTail s.items
  let items ← items.free item
  return { s with waitingQueueHead, waitingQueueTail, items, waitingQueueSize := s.waitingQueueSize - 1 }

/-- The walk reads `next` of an item it may just have freed. -/
def removeProcLoop (pid : Nat) (processId : Nat → Nat) : Nat → Ptr → Sched → Except Fault Sched
  | _, none, s => .ok s
  | 0, some _, _ => .error .divergence
  | n + 1, some item, s => do
      let item ← s.items.deref (some item)
      let s ← if processId (s.items.proc item) = pid then removeItemFromReadyQueue item s else pure s
      let item ← s.items.deref (some item)
      removeProcLoop pid processId n (s.items.next item) s

def removeProcFromReadyQueue (proc : Nat) (processId : Nat → Nat) (s : Sched) : Except Fault Sched :=
  removeProcLoop (processId proc) processId (s.items.count + 1) s.queueHead s

/-- The head of the ready queue, or idle when its size is 0. -/
def findReadyPcb (s : Sched) : Except Fault (Nat × Sched) := do
  if s.queueSize = 0 then
    return (s.idlePcb, s)
  else
    let head ← s.items.deref s.queueHead
    let popped := s.items.proc head
    let s ← removeItemFromReadyQueue head s
    return (popped, s)

/-- `curr_proc` is replaced without a context switch. -/
def setNextProc (s : Sched) : Except Fault (Int × Sched) := do
  if s.queueSize = 0 then
    return (-1, s)
  else
    let _ ← s.items.deref s.queueHead
    let s ← pushProcToQueue s.currProc s
    let head ← s.items.deref s.queueHead
    return (1, { s with
      currProc := s.items.proc head
      queueHead := s.items.next head
      queueSize := s.queueSize - 1 })

def tick (s : Sched) : Except Fault Sched := do
  let s := { s with ticksPassed := s.ticksPassed + 1 }
  if s.ticksPassed > 2 then
    let (res, s) ← setNextProc s
    if res = 1 then return { s with ticksPassed := 0 } else return s
  else return s

def pushItemToWaitingQueue (new : Nat) (s : Sched) : Except Fault Sched := do
  let s := { s with items.next := Function.update s.items.next new none }
  let s ← if s.waitingQueueSize = 0 then
      pure { s with waitingQueueHead := some new, waitingQueueTail := some new }
    else do
      let tail ← s.items.deref s.waitingQueueTail
      pure { s with
        items.next := Function.update s.items.next tail (some new)
        items.prev := Function.update s.items.prev new (some tail)
        waitingQueueTail := some new }
  return { s with waitingQueueSize := s.waitingQueueSize + 1 }

end Yalnix.Queues
