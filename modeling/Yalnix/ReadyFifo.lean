import Mathlib.Data.List.Rotate
import Yalnix.ReadyQueue

namespace Yalnix.ReadyFifo

open Loops Machine Processes Queues ReadyQueue

/-- A queue of processes, beside the one that runs and the one that runs when there is no other. -/
structure Fifo where
  queue : List Nat
  curr : Nat
  idle : Nat

inductive Op
  | push (proc : Nat)
  | find
  | setNext

inductive Result
  | done
  | proc (p : Nat)
  | code (r : Int)

def Fifo.step : Op → Fifo → Result × Fifo
  | .push p, q => (.done, { q with queue := q.queue ++ [p] })
  | .find, q =>
      match q.queue with
      | [] => (.proc q.idle, q)
      | p :: ps => (.proc p, { q with queue := ps })
  | .setNext, q =>
      match q.queue with
      | [] => (.code (-1), q)
      | p :: ps => (.code 1, { q with queue := ps ++ [q.curr], curr := p })

def Fifo.run : List Op → Fifo → List Result × Fifo
  | [], q => ([], q)
  | op :: ops, q =>
      let (r, q) := q.step op
      let (rs, q) := q.run ops
      (r :: rs, q)

def step : Op → Sched → Except Fault (Result × Sched)
  | .push p, s => do
      let s ← pushProcToQueue p s
      return (.done, s)
  | .find, s => do
      let (p, s) ← findReadyPcb s
      return (.proc p, s)
  | .setNext, s => do
      let (r, s) ← setNextProc s
      return (.code r, s)

def run : List Op → Sched → Except Fault (List Result × Sched)
  | [], s => .ok ([], s)
  | op :: ops, s => do
      let (r, s) ← step op s
      let (rs, s) ← run ops s
      return (r :: rs, s)

structure Represents (s : Sched) (l : List Nat) (q : Fifo) : Prop where
  ready : Ready s l
  queue : l.map s.items.proc = q.queue
  curr : s.currProc = q.curr
  idle : s.idlePcb = q.idle
  empty : l = [] → s.queueHead = none ∧ s.queueTail = none

variable {s t : Sched} {a p : Nat} {l : List Nat} {q : Fifo}

theorem map_proc {l' : List Nat} (hr : Ready s l) (ho : OnlyReady l' s t) : l.map t.items.proc = l.map s.items.proc :=
  List.map_congr_left fun a ha => ho.proc a (hr.valid a ha).1

theorem push_represents (hs : Represents s l q) (p : Nat) :
    ∃ t, pushProcToQueue p s = .ok t ∧ Represents t (l ++ [s.items.count]) { q with queue := q.queue ++ [p] } := by
  obtain ⟨t, ht, hr, ho, hproc, -⟩ := push_ok hs.ready p
  refine ⟨t, ht, hr, ?_, ?_, ?_, by simp⟩
  · rw [List.map_append, map_proc hs.ready ho, hs.queue, List.map_singleton, hproc]
  · rw [ho.rest]
    exact hs.curr
  · rw [ho.rest]
    exact hs.idle

theorem pop_last (hr : Ready s [a]) (ht : findReadyPcb s = .ok (p, t)) : t.queueHead = none ∧ t.queueTail = none := by
  obtain ⟨e, hhead, -⟩ := hr.path
  obtain ⟨halt, hafree⟩ := hr.valid a List.mem_cons_self
  have htail : s.queueTail = some a := hr.tail (by simp)
  have hsize : s.queueSize ≠ 0 := by
    rw [hr.size]
    simp
  have hd : s.items.deref (some a) = .ok a := items_deref_some halt hafree
  simp only [findReadyPcb, hsize, if_false, hhead, hd, removeItemFromReadyQueue, unlinkItem, htail, and_self, if_true,
    Items.free, hafree, Bool.false_eq_true, bind, Except.bind, pure, Except.pure] at ht
  obtain ⟨-, rfl⟩ := Prod.mk.inj (Except.ok.inj ht)
  exact ⟨rfl, rfl⟩

theorem find_represents (hs : Represents s (a :: l) q) :
    ∃ t, findReadyPcb s = .ok (s.items.proc a, t) ∧ Represents t l { q with queue := l.map s.items.proc } := by
  obtain ⟨t, ht, hr, ho, -⟩ := pop_ok hs.ready
  refine ⟨t, ht, hr, List.map_congr_left fun b hb => ?_, ?_, ?_, ?_⟩
  · exact ho.proc b (hs.ready.valid b (List.mem_cons_of_mem _ hb)).1
  · rw [ho.rest]
    exact hs.curr
  · rw [ho.rest]
    exact hs.idle
  · rintro rfl
    exact pop_last hs.ready ht

theorem setNext_represents (hs : Represents s (a :: l) q) :
    ∃ t, setNextProc s = .ok (1, t) ∧
      Represents t (l ++ [s.items.count]) { q with queue := l.map s.items.proc ++ [q.curr], curr := s.items.proc a } := by
  obtain ⟨c, -, ho, hproc, hset, hr⟩ := setNext_ok hs.ready
  have hlt (b : Nat) (hb : b ∈ a :: l) : b < s.items.count := (hs.ready.valid b hb).1
  refine ⟨_, hset, hr, ?_, ho.proc a (hlt a List.mem_cons_self), ?_, by simp⟩
  · have hmap : l.map c.items.proc = l.map s.items.proc :=
      List.map_congr_left fun b hb => ho.proc b (hlt b (List.mem_cons_of_mem _ hb))
    dsimp only
    rw [List.map_append, hmap, List.map_singleton, hproc, hs.curr]
  · change c.idlePcb = q.idle
    rw [ho.rest]
    exact hs.idle

theorem step_represents (hs : Represents s l q) (op : Op) :
    ∃ t l', step op s = .ok ((q.step op).1, t) ∧ Represents t l' (q.step op).2 := by
  cases op with
  | push p =>
      obtain ⟨t, ht, hr⟩ := push_represents hs p
      exact ⟨t, _, by rw [step, ht]; rfl, hr⟩
  | find =>
      cases l with
      | nil =>
          have hq : q.queue = [] := hs.queue.symm
          refine ⟨s, [], ?_, by simpa only [Fifo.step, hq] using hs⟩
          rw [step, pop_empty hs.ready, hs.idle]
          simp only [Fifo.step, hq]
          rfl
      | cons a l =>
          have hq : q.queue = s.items.proc a :: l.map s.items.proc := hs.queue.symm
          obtain ⟨t, ht, hr⟩ := find_represents hs
          refine ⟨t, l, ?_, by simpa only [Fifo.step, hq] using hr⟩
          rw [step, ht]
          simp only [Fifo.step, hq]
          rfl
  | setNext =>
      cases l with
      | nil =>
          have hq : q.queue = [] := hs.queue.symm
          refine ⟨s, [], ?_, by simpa only [Fifo.step, hq] using hs⟩
          rw [step, setNext_empty hs.ready]
          simp only [Fifo.step, hq]
          rfl
      | cons a l =>
          have hq : q.queue = s.items.proc a :: l.map s.items.proc := hs.queue.symm
          obtain ⟨t, ht, hr⟩ := setNext_represents hs
          refine ⟨t, _, ?_, by simpa only [Fifo.step, hq] using hr⟩
          rw [step, ht]
          simp only [Fifo.step, hq]
          rfl

theorem run_represents (hs : Represents s l q) (ops : List Op) :
    ∃ t l', run ops s = .ok ((q.run ops).1, t) ∧ Represents t l' (q.run ops).2 := by
  induction ops generalizing s l q with
  | nil => exact ⟨s, l, rfl, hs⟩
  | cons op ops ih =>
      obtain ⟨u, lu, hu, hru⟩ := step_represents hs op
      obtain ⟨t, lt, ht, hrt⟩ := ih hru
      refine ⟨t, lt, ?_, hrt⟩
      rw [run, hu]
      simp only [bind, Except.bind, ht]
      rfl

/-- `SetNextProc` turns the processes that run and wait to run by one place. -/
theorem setNext_rotates (q : Fifo) :
    (q.step .setNext).2.curr :: (q.step .setNext).2.queue = (q.curr :: q.queue).rotate 1 := by
  obtain ⟨queue, curr, idle⟩ := q
  cases queue with
  | nil => simp [Fifo.step]
  | cons p ps => simp [Fifo.step, List.rotate_cons_succ]

theorem setNext_idle (q : Fifo) : (q.step .setNext).2.idle = q.idle := by
  obtain ⟨queue, curr, idle⟩ := q
  cases queue <;> rfl

theorem run_setNext (q : Fifo) (n : Nat) :
    (q.run (List.replicate n .setNext)).2.curr :: (q.run (List.replicate n .setNext)).2.queue =
      (q.curr :: q.queue).rotate n ∧ (q.run (List.replicate n .setNext)).2.idle = q.idle := by
  induction n generalizing q with
  | zero => simp [Fifo.run]
  | succ n ih =>
      obtain ⟨hq, hi⟩ := ih (q.step .setNext).2
      refine ⟨?_, hi.trans (setNext_idle q)⟩
      rw [List.replicate_succ]
      exact hq.trans (by rw [setNext_rotates, List.rotate_rotate, Nat.add_comm])

theorem run_setNext_round (q : Fifo) : (q.run (List.replicate (q.queue.length + 1) .setNext)).2 = q := by
  obtain ⟨hq, hi⟩ := run_setNext q (q.queue.length + 1)
  rw [show q.queue.length + 1 = (q.curr :: q.queue).length from rfl, List.rotate_length] at hq
  obtain ⟨hc, hq⟩ := List.cons.inj hq
  generalize (q.run _).2 = r at hc hq hi
  cases r
  cases q
  simp_all

theorem represents_empty (hh : s.queueHead = none) (ht : s.queueTail = none) (hz : s.queueSize = 0) :
    Represents s [] ⟨[], s.currProc, s.idlePcb⟩ :=
  ⟨⟨⟨none, hh⟩, by simp, hz, List.nodup_nil, nofun⟩, rfl, rfl, rfl, fun _ => ⟨hh, ht⟩⟩

/-- Any calls from the empty queue do to the linked list what they do to the
queue it stands for, with the same results; on an empty queue the last two
operations change nothing, and a full round of `SetNextProc` changes nothing. -/
theorem ready_queue_fifo (hh : s.queueHead = none) (ht : s.queueTail = none) (hz : s.queueSize = 0) (ops : List Op) :
    ∃ t l, run ops s = .ok ((Fifo.run ops ⟨[], s.currProc, s.idlePcb⟩).1, t) ∧
      Represents t l (Fifo.run ops ⟨[], s.currProc, s.idlePcb⟩).2 ∧ t.queueSize = l.length ∧
      (l ≠ [] → t.queueTail = l.getLast?) ∧ (l = [] → t.queueHead = none ∧ t.queueTail = none) ∧
      (l = [] → findReadyPcb t = .ok (t.idlePcb, t) ∧ setNextProc t = .ok (-1, t)) ∧
      ∃ rs u l', run (List.replicate (l.length + 1) .setNext) t = .ok (rs, u) ∧
        Represents u l' (Fifo.run ops ⟨[], s.currProc, s.idlePcb⟩).2 := by
  obtain ⟨t, l, hrun, hr⟩ := run_represents (represents_empty hh ht hz) ops
  refine ⟨t, l, hrun, hr, hr.ready.size, hr.ready.tail, hr.empty, ?_, ?_⟩
  · rintro rfl
    exact ⟨pop_empty hr.ready, setNext_empty hr.ready⟩
  · obtain ⟨u, l', hu, hru⟩ := run_represents hr (List.replicate (l.length + 1) .setNext)
    refine ⟨_, u, l', hu, ?_⟩
    have hlen : l.length = (Fifo.run ops ⟨[], s.currProc, s.idlePcb⟩).2.queue.length := by
      rw [← hr.queue, List.length_map]
    rw [hlen, run_setNext_round] at hru
    exact hru

theorem ready_queue_fifo_noItems :
    ∃ t l, run [.push 4, .setNext, .find, .find] noItems = .ok ([.done, .code 1, .proc 1, .proc 0], t) ∧
      Represents t l ⟨[], 4, 0⟩ := by
  obtain ⟨t, l, hrun, hr, -⟩ := ready_queue_fifo (s := noItems) rfl rfl rfl [.push 4, .setNext, .find, .find]
  exact ⟨t, l, hrun, hr⟩

end Yalnix.ReadyFifo
