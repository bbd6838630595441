import Yalnix.Queues

namespace Yalnix.Terminals

open Loops Machine Processes Queues

def numTerminals : Nat := 4

def terminalMaxLine : Nat := 1024

structure Lines where
  count : Nat
  content : Nat → Nat
  len : Nat → Int
  next : Nat → Ptr

structure Term where
  readIn : Ptr
  writeOut : Ptr
  readQueue : Ptr
  writeQueue : Ptr
  mutex : Int

/-- What one TtyTransmit gives the terminal. -/
structure Transmission where
  tty : Nat
  buf : Nat
  len : Int
  deriving DecidableEq

/-- The terminals, the fields of the first `procs` pcbs that chain them, and the
memory that malloc hands out as buffers from `heapTop` on. `started` is what the
hardware was given so far; no code reads it. -/
structure Devices where
  lines : Lines
  terms : Nat → Term
  procs : Nat
  readQNext : Nat → Ptr
  writeQNext : Nat → Ptr
  heapTop : Nat
  bytes : Nat → BitVec 8
  started : List Transmission

def Lines.deref (h : Lines) (p : Ptr) : Except Fault Nat := Processes.deref h.count (fun _ => false) p

def Lines.alloc (h : Lines) (content : Nat) (len : Int) : Nat × Lines :=
  (h.count, { count := h.count + 1
              content := Function.update h.content h.count content
              len := Function.update h.len h.count len
              next := Function.update h.next h.count none })

/-- The walk to the last node of a chain, which then leads to `new`. -/
def linkLast (count new : Nat) : Nat → Nat → (Nat → Ptr) → Except Fault (Nat → Ptr)
  | 0, _, _ => .error .divergence
  | n + 1, curr, next =>
      match next curr with
      | none => .ok (Function.update next curr (some new))
      | some _ => do
          let curr ← Processes.deref count (fun _ => false) (next curr)
          linkLast count new n curr next

/-- The body shared by `addToLineTail` and `addToProcTail`. A head that is NULL
is assigned in the callee only. -/
def addToTail (count : Nat) (head : Ptr) (new : Nat) (next : Nat → Ptr) : Except Fault (Nat → Ptr) :=
  match head with
  | none => .ok next
  | some _ => do
      let curr ← Processes.deref count (fun _ => false) head
      linkLast count new count curr next

def addToLineTail (head : Ptr) (new : Nat) (h : Lines) : Except Fault Lines := do
  let next ← addToTail h.count head new h.next
  return { h with next }

def addToProcTail (head : Ptr) (new : Nat) (s : Devices) : Except Fault Devices := do
  let writeQNext ← addToTail s.procs head new s.writeQNext
  return { s with writeQNext }

/-- The pointer whose low bytes have been overwritten. -/
def overlay : Nat → List (BitVec 8) → Nat
  | p, [] => p
  | p, x :: xs => x.toNat + 256 * overlay (p / 256) xs

/-- `TtyReceive` is given the address of the pointer `new_line`, and puts the
line there, over what follows the pointer on the stack if it is longer. The
struct is a copy, so a first line is lost with it. -/
def ttyReceiveFunc (tty : Int) (line : List (BitVec 8)) (s : Devices) : Except Fault (Int × Devices) := do
  let newLine := s.heapTop
  let s := { s with heapTop := s.heapTop + terminalMaxLine }
  if 8 < line.length then .error .wildDeref
  else
    let newLine := overlay newLine line
    let (new, lines) := s.lines.alloc newLine line.length
    let t ← index tty numTerminals
    let tty := s.terms t
    match tty.readIn with
    | none => return (line.length, { s with lines })
    | some _ => do
        let curr ← lines.deref tty.readIn
        let next ← linkLast lines.count new lines.count curr lines.next
        return (line.length, { s with lines := { lines with next } })

def trapTTYReceiveHandler (code : Int) (line : List (BitVec 8)) (s : Devices) : Except Fault Devices := do
  let (_, s) ← ttyReceiveFunc code line s
  return s

/-- It ends in Halt, so there is no state after it. -/
def ttyReadFunc (tty : Int) (curr : Nat) (s : Devices) : Except Fault Devices := do
  let t ← index tty numTerminals
  match (s.terms t).readQueue with
  | none => return { s with terms := Function.update s.terms t { s.terms t with readQueue := some curr } }
  | some _ => do
      let ptr ← Processes.deref s.procs (fun _ => false) (s.terms t).readQueue
      let readQNext ← linkLast s.procs curr s.procs ptr s.readQNext
      return { s with readQNext }

/-- The terminals and the scheduler. `kont` tells of which processes that are
suspended in `TtyTransmitFunc` the mutex of which terminal is set when they go on. -/
structure Console where
  sched : Sched
  terminals : Devices
  kont : Nat → Option Nat

def ttyTransmit (tty buf : Nat) (len : Int) (s : Console) : Console :=
  { s with terminals.started := s.terminals.started ++ [⟨tty, buf, len⟩] }

/-- The process that has become current goes on behind its own ContextSwitch. -/
def goOn (s : Console) : Console :=
  match s.kont s.sched.currProc with
  | none => s
  | some t => { s with
      terminals.terms := Function.update s.terminals.terms t { s.terminals.terms t with mutex := 1 }
      kont := Function.update s.kont s.sched.currProc none }

def switchExist (kont : Option Nat) (next : Nat) (s : Console) : Console :=
  goOn { s with kont := Function.update s.kont s.sched.currProc kont, sched.currProc := next }

def ttyWriteFunc (tty : Int) (buf : Nat) (len : Int) (s : Console) : Except Fault Console := do
  let (new, lines) := s.terminals.lines.alloc buf len
  let t ← index tty numTerminals
  let term := s.terminals.terms t
  let lines ← addToLineTail term.writeOut new lines
  let terminals ← addToProcTail term.writeQueue s.sched.currProc { s.terminals with lines }
  let s := { s with terminals }
  let s := if term.mutex = 1 then ttyTransmit t buf len s else s
  let (next, sched) ← findReadyPcb s.sched
  return switchExist none next { s with sched }

def ttyTransmitFunc (tty : Int) (s : Console) : Except Fault Console := do
  let t ← index tty numTerminals
  let term := s.terminals.terms t
  let s ← match term.writeOut with
    | none => pure s
    | some _ => do
        let line ← s.terminals.lines.deref term.writeOut
        pure (ttyTransmit t (s.terminals.lines.content line) (s.terminals.lines.len line) s)
  match term.writeQueue with
  | none => do
      let (next, sched) ← findReadyPcb s.sched
      return switchExist none next { s with sched }
  | some _ => do
      let next ← Processes.deref s.terminals.procs (fun _ => false) term.writeQueue
      return switchExist (some t) next s

def trapTTYTransmitHandler (code : Int) (s : Console) : Except Fault Console := ttyTransmitFunc code s

def initTerminals (s : Devices) : Devices :=
  { s with terms := fun t => if t < numTerminals then ⟨none, none, none, none, 1⟩ else s.terms t }

end Yalnix.Terminals
