import Yalnix.ClockQueues
import Yalnix.CurrProc

namespace Yalnix.DelayTicks

open Loops Machine LoadProgram Processes Queues Kernel Chains Calls Boot Clock ReadyQueue Runs ClockQueues

def DelayQueue (a : Sched) (ds : List Nat) : Prop := Path a.items.next a.waitingQueueHead ds none

/-- A call of Delay: who called, for how long, and how many clock interrupts
there were since. -/
structure DelayCall where
  proc : Nat
  asked : Int
  age : Nat

def DelayCall.older (c : DelayCall) : DelayCall := { c with age := c.age + 1 }

def DelayCall.waits (c : DelayCall) : Bool := (c.age : Int) < c.asked

def pending (h : List DelayCall) : List DelayCall := h.filter DelayCall.waits

def asks : Event → Option Int
  | .call (.delay clockTicks) _ => if 0 < toInt clockTicks then some (toInt clockTicks) else none
  | _ => none

def record (h : List DelayCall) (s : State) (e : Event) : List DelayCall :=
  match e with
  | .clock _ => h.map DelayCall.older
  | _ =>
      match asks e with
      | some n => h ++ [⟨s.curr, n, 0⟩]
      | none => h

/-- A delay expires at the end of the delay queue only, no process that was
interrupted by one goes on, and who calls Delay is on neither queue, where the
links of the ready queue end with its last item. -/
def Allowed (s : State) (e : Event) : Prop :=
  match e with
  | .clock _ => ∀ ds, DelayQueue s.sched ds → ∀ i ∈ ds.dropLast, 1 < s.sched.delayTicks (s.sched.items.proc i)
  | .resume _ => ∀ c item, s.mode = .resuming c → c.kont ≠ .clock item
  | _ => asks e ≠ none → (∀ ds, DelayQueue s.sched ds → s.curr ∉ ds.map s.sched.items.proc) ∧
      ∃ rs : List Nat, Path s.sched.items.next s.sched.queueHead rs none ∧ s.sched.queueSize = rs.length ∧
        ∀ i ∈ rs, s.fam.processId (s.sched.items.proc i) ≠ s.fam.processId s.curr

inductive Run (env : BootEnv) : State → List DelayCall → Prop
  | boot {s : State} : kernelStart env = .ok s → Run env s []
  | step {s t : State} {h : List DelayCall} {e : Event} :
      Run env s h → Allowed s e → Step s e t → Run env t (record h s e)

/-- The processes on the delay queue are those whose calls are pending, each
once, with the ticks that are left. -/
structure Sleeping (n : Nat) (h : List DelayCall) (a : Sched) (rs ds : List Nat) : Prop where
  queued : Queued a rs ds
  back : ∃ e, Path a.items.prev a.waitingQueueTail ds.reverse e
  procs : ds.map a.items.proc = (pending h).map DelayCall.proc
  once : ((pending h).map DelayCall.proc).Nodup
  left : ∀ c ∈ pending h, a.delayTicks c.proc = c.asked - c.age
  curr_lt : a.currProc < n
  idle_lt : a.idlePcb < n
  items_lt : ∀ i, i < a.items.count → a.items.proc i < n

variable {env : BootEnv} {s t : State} {a b : Sched} {h : List DelayCall} {rs rs' ds : List Nat} {info : ExceptionInfo}
  {n p : Nat}

namespace Sleeping

theorem ready (hs : Sleeping n h a rs ds) (hr : Ready b rs') (ho : OnlyReady rs a b)
    (hsub : ∀ i ∈ rs', i ∈ rs ∨ a.items.count ≤ i) (hnew : ∀ i, a.items.count ≤ i → i < b.items.count → b.items.proc i < n) :
    Sleeping n h b rs' ds := by
  have hq := hs.queued
  have hrest := ho.rest
  have hout {i : Nat} (hi : i ∈ ds) : i ∉ rs := hq.disjoint i hi
  have hlt {i : Nat} (hi : i ∈ ds) : i < a.items.count := (hq.valid i hi).1
  have hproc {i : Nat} (hi : i ∈ ds) : b.items.proc i = a.items.proc i := ho.proc i (hlt hi)
  refine ⟨⟨hr, ?_, ?_, ?_, hq.nodup, fun i hi => ?_, fun i hi hm => ?_⟩, ?_, ?_, hs.once, ?_, ?_, ?_, fun i hi => ?_⟩
  · rw [show b.waitingQueueHead = a.waitingQueueHead by rw [hrest]]
    exact (path_congr fun i hi => ho.next i (hout hi)).2 hq.path
  · rw [show b.waitingQueueTail = a.waitingQueueTail by rw [hrest]]
    exact hq.tail
  · rw [show b.waitingQueueSize = a.waitingQueueSize by rw [hrest]]
    exact hq.size
  · exact ⟨Nat.lt_of_lt_of_le (hlt hi) ho.count, (ho.freed i (hout hi) (hlt hi)).trans (hq.valid i hi).2⟩
  · rcases hsub i hm with hm | hm
    · exact hout hi hm
    · exact absurd (hlt hi) (Nat.not_lt.2 hm)
  · obtain ⟨e, he⟩ := hs.back
    refine ⟨e, ?_⟩
    rw [show b.waitingQueueTail = a.waitingQueueTail by rw [hrest]]
    exact (path_congr fun i hi => ho.prev i (hout (List.mem_reverse.1 hi))).2 he
  · rw [List.map_congr_left fun i hi => hproc hi]
    exact hs.procs
  · rw [show b.delayTicks = a.delayTicks by rw [hrest]]
    exact hs.left
  · rw [show b.currProc = a.currProc by rw [hrest]]
    exact hs.curr_lt
  · rw [show b.idlePcb = a.idlePcb by rw [hrest]]
    exact hs.idle_lt
  · by_cases hi' : i < a.items.count
    · rw [ho.proc i hi']
      exact hs.items_lt i hi'
    · exact hnew i (Nat.not_lt.1 hi') hi

theorem push (hs : Sleeping n h a rs ds) (hp : p < n) :
    ∃ b, pushProcToQueue p a = .ok b ∧ Sleeping n h b (rs ++ [a.items.count]) ds := by
  obtain ⟨b, hb, hr, ho, hproc, hcount⟩ := push_ok hs.queued.ready p
  refine ⟨b, hb, hs.ready hr ho (fun i hi => ?_) fun i hi hi' => ?_⟩
  · rcases List.mem_append.1 hi with hi | hi
    · exact .inl hi
    · exact .inr (List.mem_singleton.1 hi ▸ Nat.le_refl _)
  · obtain rfl : i = a.items.count := by omega
    rwa [hproc]

theorem enter (hs : Sleeping n h a rs ds) (hp : p < n) : Sleeping n h { a with currProc := p } rs ds :=
  ⟨queued_congr hs.queued rfl rfl rfl rfl rfl rfl rfl, hs.back, hs.procs, hs.once, hs.left, hp, hs.idle_lt, hs.items_lt⟩

theorem pop (hs : Sleeping n h a rs ds) : ∃ p b rs', findReadyPcb a = .ok (p, b) ∧ p < n ∧ Sleeping n h b rs' ds := by
  cases rs with
  | nil => exact ⟨_, _, _, pop_empty hs.queued.ready, hs.idle_lt, hs⟩
  | cons i rs =>
      obtain ⟨b, hb, hr, ho, hcount⟩ := pop_ok hs.queued.ready
      refine ⟨_, b, rs, hb, hs.items_lt i (hs.queued.ready.valid i List.mem_cons_self).1, ?_⟩
      exact hs.ready hr ho (fun i hi => .inl (List.mem_cons_of_mem _ hi)) fun i hi hi' => by omega

theorem mono {n' : Nat} (hs : Sleeping n h a rs ds) (hn : n ≤ n') : Sleeping n' h a rs ds :=
  ⟨hs.queued, hs.back, hs.procs, hs.once, hs.left, Nat.lt_of_lt_of_le hs.curr_lt hn, Nat.lt_of_lt_of_le hs.idle_lt hn,
    fun i hi => Nat.lt_of_lt_of_le (hs.items_lt i hi) hn⟩

theorem count {h' : List DelayCall} {ds' : List Nat} {delays : Nat → Int} (hs : Sleeping n h a rs ds)
    (hq : Queued a rs ds') (hback : ∃ e, Path a.items.prev a.waitingQueueTail ds'.reverse e)
    (hprocs : ds'.map a.items.proc = (pending h').map DelayCall.proc) (honce : ((pending h').map DelayCall.proc).Nodup)
    (hleft : ∀ c ∈ pending h', delays c.proc = c.asked - c.age) :
    Sleeping n h' { a with delayTicks := delays } rs ds' :=
  ⟨queued_congr hq rfl rfl rfl rfl rfl rfl rfl, hback, hprocs, honce, hleft, hs.curr_lt, hs.idle_lt, hs.items_lt⟩

end Sleeping

theorem waits_iff {c : DelayCall} : c.waits = true ↔ (c.age : Int) < c.asked := decide_eq_true_iff

theorem older_waits_iff {c : DelayCall} : c.older.waits = true ↔ (c.age : Int) + 1 < c.asked := waits_iff

theorem pending_older (h : List DelayCall) :
    pending (h.map DelayCall.older) = ((pending h).filter fun c => c.older.waits).map DelayCall.older := by
  unfold pending
  rw [List.filter_map, List.filter_filter]
  congr 1
  refine List.filter_congr fun c _ => ?_
  rw [Function.comp_apply, Bool.eq_iff_iff, Bool.and_eq_true, older_waits_iff, waits_iff]
  omega

def countDown (l : List Nat) (a : Sched) : Nat → Int :=
  fun p => if p ∈ l.map a.items.proc then a.delayTicks p - 1 else a.delayTicks p

theorem countDown_nil (a : Sched) : countDown [] a = a.delayTicks := by
  funext p
  simp [countDown]

theorem countDown_cons {i : Nat} {l : List Nat} (hd : a.items.proc i ∉ l.map a.items.proc) :
    countDown l { a with delayTicks := Function.update a.delayTicks (a.items.proc i) (a.delayTicks (a.items.proc i) - 1) } =
      countDown (i :: l) a := by
  funext p
  simp only [countDown, List.map_cons, List.mem_cons]
  by_cases hp : p = a.items.proc i
  · rw [hp, if_neg hd, if_pos (.inl rfl), Function.update_self]
  · rw [Function.update_of_ne hp]
    simp only [hp, false_or]

theorem clockWalk_past (info : ExceptionInfo) {l : List Nat} {x y : Ptr} (hl : Path s.sched.items.next x l y)
    (hvalid : ∀ i ∈ l, s.sched.items.deref (some i) = .ok i) (hd : (l.map s.sched.items.proc).Nodup)
    (hlate : ∀ i ∈ l, 1 < s.sched.delayTicks (s.sched.items.proc i)) :
    clockWalk info (l.length + n) x s = clockWalk info n y { s with sched.delayTicks := countDown l s.sched } := by
  induction l generalizing x s with
  | nil =>
      obtain rfl : x = y := hl
      rw [List.length_nil, Nat.zero_add, countDown_nil]
  | cons i l ih =>
      obtain ⟨rfl, hl⟩ := hl
      obtain ⟨hnot, hd⟩ := List.nodup_cons.1 hd
      have hi := hlate i List.mem_cons_self
      rw [List.length_cons, show l.length + 1 + n = (l.length + n) + 1 by omega]
      simp only [clockWalk, hvalid i List.mem_cons_self, bind, Except.bind]
      rw [if_neg (by omega), ← countDown_cons hnot]
      refine ih (s := { s with sched.delayTicks := Function.update s.sched.delayTicks (s.sched.items.proc i) _ }) hl
        (fun j hj => hvalid j (List.mem_cons_of_mem _ hj)) hd fun j hj => ?_
      have hne : s.sched.items.proc j ≠ s.sched.items.proc i := fun he => hnot (he ▸ List.mem_map_of_mem hj)
      dsimp only
      rw [Function.update_of_ne hne]
      exact hlate j (List.mem_cons_of_mem _ hj)

theorem setNextProc_sleeping {i : Nat} (hs : Sleeping n h a (i :: rs) ds) :
    ∃ b, setNextProc a = .ok (1, b) ∧ Sleeping n h b (rs ++ [a.items.count]) ds ∧ b.delayTicks = a.delayTicks := by
  obtain ⟨b, hb, hq, hcurr, hidle, hnew, hproc⟩ := setNextProc_rotates hs.queued
  refine ⟨b, hb, ?_⟩
  have hi := hs.items_lt i (hs.queued.ready.valid i List.mem_cons_self).1
  have hds : ds.map b.items.proc = ds.map a.items.proc :=
    List.map_congr_left fun j hj => hproc j (hs.queued.valid j hj).1
  have hitems : ∀ j, j < b.items.count → j < a.items.count ∨ j = a.items.count := by
    rcases setNextProc_ok hb with ⟨-, hr, -⟩ | ⟨-, -, c, head, hpush, -, rfl⟩
    · exact absurd hr (by decide)
    · obtain ⟨next, rfl⟩ := pushProc_ok hpush
      exact fun j hj => Nat.lt_or_eq_of_le (Nat.le_of_lt_succ hj)
  have hlt : ∀ j, j < b.items.count → b.items.proc j < n := by
    intro j hj
    rcases hitems j hj with hj | rfl
    · rw [hproc j hj]
      exact hs.items_lt j hj
    · rw [hnew]
      exact hs.curr_lt
  rcases setNextProc_ok hb with ⟨-, hr, -⟩ | ⟨-, -, c, head, hpush, -, rfl⟩
  · exact absurd hr (by decide)
  · obtain ⟨next, rfl⟩ := pushProc_ok hpush
    exact ⟨⟨hq, hs.back, hds.trans hs.procs, hs.once, hs.left, hcurr ▸ hi, hs.idle_lt, hlt⟩, rfl⟩

theorem tick_sleeping (hs : Sleeping n h a rs ds) :
    ∃ b rs', tick a = .ok b ∧ Sleeping n h b rs' ds ∧ b.delayTicks = a.delayTicks := by
  have hcongr {c : Sched} {rs' : List Nat} {k : Int} (hc : Sleeping n h c rs' ds) :
      Sleeping n h { c with ticksPassed := k } rs' ds :=
    ⟨queued_congr hc.queued rfl rfl rfl rfl rfl rfl rfl, hc.back, hc.procs, hc.once, hc.left, hc.curr_lt, hc.idle_lt,
      hc.items_lt⟩
  by_cases hr : 2 ≤ a.ticksPassed ∧ a.queueSize ≠ 0
  · cases rs with
    | nil => exact absurd hs.queued.ready.size hr.2
    | cons i rs =>
        have hgt : a.ticksPassed + 1 > 2 := by omega
        obtain ⟨b, hb, hsb, hdelay⟩ := setNextProc_sleeping (hcongr (k := a.ticksPassed + 1) hs)
        refine ⟨{ b with ticksPassed := 0 }, _, ?_, hcongr hsb, hdelay⟩
        simp only [tick, if_pos hgt, hb, bind, Except.bind, if_true, pure, Except.pure]
  · exact ⟨_, rs, tick_stays hr, hcongr hs, rfl⟩

theorem ready_elsewhere (hr : Ready a rs) (hnext : ∀ j ∈ rs, b.items.next j = a.items.next j)
    (hfreed : ∀ j ∈ rs, b.items.freed j = a.items.freed j) (hcount : a.items.count ≤ b.items.count)
    (hh : b.queueHead = a.queueHead) (ht : b.queueTail = a.queueTail) (hz : b.queueSize = a.queueSize) : Ready b rs := by
  obtain ⟨e, he⟩ := hr.path
  refine ⟨⟨e, ?_⟩, ?_, ?_, hr.nodup, fun j hj => ?_⟩
  · rw [hh]
    exact (path_congr hnext).2 he
  · rw [ht]
    exact hr.tail
  · rw [hz]
    exact hr.size
  · exact ⟨Nat.lt_of_lt_of_le (hr.valid j hj).1 hcount, (hfreed j hj).trans (hr.valid j hj).2⟩

theorem removeWaiting_last {i : Nat} (hs : Queued a rs (ds ++ [i]))
    (hback : ∃ e, Path a.items.prev a.waitingQueueTail (ds ++ [i]).reverse e) :
    ∃ b, removeItemFromWaitingQueue i a = .ok b ∧ Queued b rs ds ∧
      (∃ e, Path b.items.prev b.waitingQueueTail ds.reverse e) ∧ b.delayTicks = a.delayTicks ∧
      b.currProc = a.currProc ∧ b.idlePcb = a.idlePcb ∧ b.items.proc = a.items.proc ∧ b.items.count = a.items.count := by
  have hi := hs.valid i (by simp)
  obtain ⟨hnodup, -, hnot⟩ := List.nodup_append.1 hs.nodup
  have hne {j : Nat} (hj : j ∈ ds) : j ≠ i := hnot j hj i (by simp)
  have hoff : i ∉ rs := hs.disjoint i (by simp)
  have htail : a.waitingQueueTail = some i := hs.tail.trans (by simp)
  have hfreed {j : Nat} (hj : j ≠ i) : Function.update a.items.freed i true j = a.items.freed j :=
    Function.update_of_ne hj ..
  have hvalid : ∀ j ∈ ds, j < a.items.count ∧ Function.update a.items.freed i true j = false := fun j hj => by
    rw [hfreed (hne hj)]
    exact hs.valid j (by simp [hj])
  have hsize : a.waitingQueueSize - 1 = ds.length := by
    rw [hs.size]
    simp
  rcases List.eq_nil_or_concat' ds with rfl | ⟨l, y, rfl⟩
  · obtain ⟨hhead, -⟩ := hs.path
    refine ⟨{ a with
      items := { a.items with freed := Function.update a.items.freed i true }
      waitingQueueHead := none, waitingQueueTail := none, waitingQueueSize := a.waitingQueueSize - 1 }, ?_,
      ⟨?_, rfl, rfl, hsize, hnodup, hvalid, nofun⟩, ⟨none, rfl⟩, rfl, rfl, rfl, rfl, rfl⟩
    · simp [removeItemFromWaitingQueue, unlinkItem, hhead, htail, Items.free, hi.2, bind, Except.bind, pure, Except.pure]
    · refine ready_elsewhere hs.ready ?_ ?_ ?_ rfl rfl rfl
      · exact fun _ _ => rfl
      · exact fun j hj => hfreed fun he => hoff (he ▸ hj)
      · exact Nat.le_refl _
  · obtain ⟨e, hb⟩ := hback
    rw [List.reverse_append, List.reverse_append] at hb
    obtain ⟨-, hprev, hb⟩ := hb
    obtain ⟨m, hl, hm, hy, -⟩ := path_append.1 (by simpa only [List.append_assoc] using hs.path)
    have hyi : y < a.items.count ∧ a.items.freed y = false := hs.valid y (by simp)
    have hyl : y ∉ l := fun h => (List.nodup_append.1 hnodup).2.2 y h y (by simp) rfl
    have hhead : a.waitingQueueHead ≠ some i := by
      intro he
      cases l with
      | nil => exact hne (j := i) (by rw [← Option.some.inj (he.symm.trans (hl.trans hm))]; simp) rfl
      | cons x l => exact hne (j := i) (by rw [← Option.some.inj (he.symm.trans hl.1)]; simp) rfl
    refine ⟨{ a with
      items := { a.items with
        next := Function.update a.items.next y none
        freed := Function.update a.items.freed i true }
      waitingQueueTail := some y, waitingQueueSize := a.waitingQueueSize - 1 }, ?_,
      ⟨?_, ?_, ?_, hsize, hnodup, hvalid, fun j hj => hs.disjoint j (List.mem_append_left _ hj)⟩, ⟨e, ?_⟩, rfl, rfl, rfl, rfl,
        rfl⟩
    · have hd : a.items.deref (a.items.prev i) = .ok y := by
        rw [hprev]
        exact items_deref_some hyi.1 hyi.2
      simp [removeItemFromWaitingQueue, unlinkItem, hhead, htail, hd, Items.free, hi.2, bind, Except.bind, pure, Except.pure]
    · refine ready_elsewhere hs.ready ?_ ?_ ?_ rfl rfl rfl
      · exact fun j hj => Function.update_of_ne (by rintro rfl; exact hs.disjoint j (by simp) hj) ..
      · exact fun j hj => hfreed fun he => hoff (he ▸ hj)
      · exact Nat.le_refl _
    · refine path_append.2 ⟨m, (path_congr fun j hj => ?_).2 hl, hm, ?_⟩
      · exact Function.update_of_ne (by rintro rfl; exact hyl hj) ..
      · exact Function.update_self ..
    · simp
    · rw [List.reverse_append]
      exact ⟨rfl, hb⟩

theorem countDown_concat {i : Nat} {l : List Nat} (hd : a.items.proc i ∉ l.map a.items.proc) :
    Function.update (countDown l a) (a.items.proc i) (countDown l a (a.items.proc i) - 1) = countDown (l ++ [i]) a := by
  funext p
  simp only [countDown, List.map_append, List.map_singleton, List.mem_append, List.mem_singleton]
  by_cases hp : p = a.items.proc i
  · rw [hp, Function.update_self, if_neg hd, if_pos (.inr rfl)]
  · rw [Function.update_of_ne hp]
    simp only [hp, or_false]
    rfl

theorem older_left {c : DelayCall} (hs : Sleeping n h a rs ds) (hm : c.proc ∈ ds.map a.items.proc) (hc : c ∈ pending h) :
    countDown ds a c.older.proc = c.older.asked - c.older.age := by
  change countDown ds a c.proc = c.asked - ((c.age + 1 : Nat) : Int)
  rw [countDown, if_pos hm, hs.left c hc]
  omega

theorem clock_counts (info : ExceptionInfo) (hs : Sleeping s.fam.count h s.sched rs ds)
    (hlate : ∀ i ∈ ds, 1 < s.sched.delayTicks (s.sched.items.proc i)) :
    ∃ out t rs', trapClockHandler info s = .ok (out, t) ∧ t.fam = s.fam ∧
      Sleeping s.fam.count (h.map DelayCall.older) t.sched rs' ds ∧ t.sched.delayTicks = countDown ds s.sched := by
  have hq := hs.queued
  have hd : (ds.map s.sched.items.proc).Nodup := hs.procs ▸ hs.once
  have hlen := length_le_of_lt hq.nodup fun i hi => (hq.valid i hi).1
  have hleft : ∀ c ∈ pending h, 1 < c.asked - c.age := by
    intro c hc
    have hm : c.proc ∈ ds.map s.sched.items.proc := hs.procs ▸ List.mem_map_of_mem hc
    obtain ⟨i, hi, hic⟩ := List.mem_map.1 hm
    rw [← hs.left c hc, ← hic]
    exact hlate i hi
  have hpending : pending (h.map DelayCall.older) = (pending h).map DelayCall.older := by
    rw [pending_older, List.filter_eq_self.2 fun c hc => older_waits_iff.2 (by have := hleft c hc; omega)]
  have hsame : (pending (h.map DelayCall.older)).map DelayCall.proc = (pending h).map DelayCall.proc := by
    rw [hpending, List.map_map]
    rfl
  have hcount : Sleeping s.fam.count (h.map DelayCall.older) { s.sched with delayTicks := countDown ds s.sched } rs ds := by
    refine hs.count hq hs.back (hsame ▸ hs.procs) (hsame ▸ hs.once) fun c hc => ?_
    rw [hpending] at hc
    obtain ⟨c, hmem, rfl⟩ := List.mem_map.1 hc
    exact older_left hs (hs.procs ▸ List.mem_map_of_mem hmem) hmem
  obtain ⟨b, rs', hb, hsb, hdelay⟩ := tick_sleeping hcount
  refine ⟨some info, { s with sched := b, mode := .user }, rs', ?_, rfl, hsb, hdelay⟩
  have hwalk := clockWalk_past info (n := s.sched.items.count + 1 - ds.length) hq.path
    (fun i hi => items_deref_some (hq.valid i hi).1 (hq.valid i hi).2) hd hlate
  rw [show ds.length + (s.sched.items.count + 1 - ds.length) = s.sched.items.count + 1 by omega] at hwalk
  unfold trapClockHandler
  rw [hwalk]
  cases s.sched.items.count + 1 - ds.length <;> simp only [clockWalk, hb, bind, Except.bind, pure, Except.pure]

theorem clock_expires (info : ExceptionInfo) {i : Nat} (hs : Sleeping s.fam.count h s.sched rs (ds ++ [i]))
    (hlate : ∀ j ∈ ds, 1 < s.sched.delayTicks (s.sched.items.proc j))
    (hexp : s.sched.delayTicks (s.sched.items.proc i) ≤ 1) :
    ∃ out t rs', trapClockHandler info s = .ok (out, t) ∧ t.fam = s.fam ∧
      Sleeping s.fam.count (h.map DelayCall.older) t.sched rs' ds ∧ t.sched.delayTicks = countDown (ds ++ [i]) s.sched := by
  have hq := hs.queued
  have hlen := length_le_of_lt hq.nodup fun i hi => (hq.valid i hi).1
  have hi := hq.valid i (by simp)
  obtain ⟨L, c, hL⟩ : ∃ L c, pending h = L ++ [c] := by
    rcases List.eq_nil_or_concat' (pending h) with hnil | h
    · have := congrArg List.length hs.procs
      simp [hnil] at this
    · exact h
  have hprocs := hs.procs
  have honce := hs.once
  have hdrop : (ds ++ [i]).map s.sched.items.proc = (pending h).map DelayCall.proc := hs.procs
  rw [hL, List.map_append, List.map_append] at hprocs
  obtain ⟨hds, hic⟩ := List.append_inj' hprocs rfl
  have hic : s.sched.items.proc i = c.proc := List.singleton_inj.1 hic
  have hcall {d : DelayCall} (hd : d ∈ L ++ [c]) : s.sched.delayTicks d.proc = d.asked - d.age := hs.left d (hL ▸ hd)
  have hpending : pending (h.map DelayCall.older) = L.map DelayCall.older := by
    rw [pending_older, hL, List.filter_append, List.filter_eq_self.2 fun d hd => ?_, List.filter_eq_nil_iff.2 fun d hd => ?_,
      List.append_nil]
    · obtain rfl := List.mem_singleton.1 hd
      rw [hic, hcall (List.mem_append_right _ hd)] at hexp
      rw [older_waits_iff]
      omega
    · have hm : d.proc ∈ ds.map s.sched.items.proc := hds ▸ List.mem_map_of_mem hd
      obtain ⟨j, hj, hjd⟩ := List.mem_map.1 hm
      have hlt := hlate j hj
      rw [hjd, hcall (List.mem_append_left _ hd)] at hlt
      exact older_waits_iff.2 (by omega)
  have hsame : (pending (h.map DelayCall.older)).map DelayCall.proc = L.map DelayCall.proc := by
    rw [hpending, List.map_map]
    rfl
  have hnodup : (L.map DelayCall.proc).Nodup ∧ c.proc ∉ L.map DelayCall.proc := by
    rw [hL, List.map_append, List.map_singleton, List.nodup_append] at honce
    exact ⟨honce.1, fun hm => honce.2.2 _ hm c.proc (by simp) rfl⟩
  have hoff : s.sched.items.proc i ∉ ds.map s.sched.items.proc := by
    rw [hds, hic]
    exact hnodup.2
  -- the item leaves the delay queue before its process is pushed and entered
  obtain ⟨b, hb, hqb, hback, hdelay, hcurr, hidle, hproc, hcount⟩ := removeWaiting_last
    (a := { s.sched with delayTicks := countDown (ds ++ [i]) s.sched }) (queued_congr hq rfl rfl rfl rfl rfl rfl rfl) hs.back
  have hsb : Sleeping s.fam.count (h.map DelayCall.older) b rs ds := by
    refine ⟨hqb, hback, ?_, hsame ▸ hnodup.1, fun d hd => ?_, hcurr ▸ hs.curr_lt, hidle ▸ hs.idle_lt, ?_⟩
    · rw [hproc, hsame]
      exact hds
    · rw [hpending] at hd
      obtain ⟨d, hmem, rfl⟩ := List.mem_map.1 hd
      have hin : d ∈ pending h := hL ▸ List.mem_append_left _ hmem
      rw [hdelay]
      exact older_left hs (hdrop ▸ List.mem_map_of_mem hin) hin
    · rw [hproc, hcount]
      exact hs.items_lt
  have hlt := hs.items_lt i hi.1
  obtain ⟨b', hb', hsb'⟩ := hsb.push hlt
  obtain ⟨m, hpath, rfl, -⟩ := path_append.1 hq.path
  have hwalk := clockWalk_past info (n := s.sched.items.count - ds.length + 1) hpath
    (fun j hj => items_deref_some (hq.valid j (by simp [hj])).1 (hq.valid j (by simp [hj])).2)
    (hds ▸ hnodup.1) hlate
  rw [List.length_append, List.length_singleton] at hlen
  rw [show ds.length + (s.sched.items.count - ds.length + 1) = s.sched.items.count + 1 by omega] at hwalk
  have hleft : countDown ds s.sched (s.sched.items.proc i) - 1 ≤ 0 := by
    rw [countDown, if_neg hoff]
    omega
  have hd := items_deref_some hi.1 hi.2
  have hdelay' : b'.delayTicks = b.delayTicks := by
    obtain ⟨next, rfl⟩ := pushProc_ok hb'
    rfl
  obtain ⟨t, ht, hfam, hsched⟩ : ∃ t, contextSwitch (.clock i) info (switchExist (s.sched.items.proc i))
      { s with sched := b' } = .ok t ∧ t.fam = s.fam ∧ t.sched = { b' with currProc := s.sched.items.proc i } :=
    ⟨_, rfl, rfl, rfl⟩
  refine ⟨none, t, rs ++ [b.items.count], ?_, hfam, ?_, ?_⟩
  · unfold trapClockHandler
    rw [hwalk]
    simp only [clockWalk, hd, bind, Except.bind, if_pos hleft, countDown_concat hoff, hb, hb', ht, pure, Except.pure]
  · rw [hsched]
    exact hsb'.enter hlt
  · rw [hsched]
    exact hdelay'.trans hdelay

theorem clock_sleeping (hs : Sleeping s.fam.count h s.sched rs ds) (ha : Allowed s (.clock info)) :
    ∃ out t rs' ds', trapClockHandler info s = .ok (out, t) ∧ t.fam = s.fam ∧
      Sleeping s.fam.count (h.map DelayCall.older) t.sched rs' ds' ∧ t.sched.delayTicks = countDown ds s.sched := by
  have hlate := ha ds hs.queued.path
  rcases List.eq_nil_or_concat' ds with rfl | ⟨l, i, rfl⟩
  · obtain ⟨out, t, rs', h'⟩ := clock_counts info hs nofun
    exact ⟨out, t, rs', [], h'⟩
  · rw [List.dropLast_concat] at hlate
    by_cases hi : 1 < s.sched.delayTicks (s.sched.items.proc i)
    · obtain ⟨out, t, rs', h'⟩ := clock_counts info hs fun j hj => by
        rcases List.mem_append.1 hj with hj | hj
        · exact hlate j hj
        · rwa [List.mem_singleton.1 hj]
      exact ⟨out, t, rs', _, h'⟩
    · obtain ⟨out, t, rs', h'⟩ := clock_expires info hs hlate (by omega)
      exact ⟨out, t, rs', l, h'⟩

theorem removeProcLoop_absent {pid k : Nat} {processId : Nat → Nat} {x : Ptr} (hr : Path a.items.next x rs none)
    (hvalid : ∀ i ∈ rs, a.items.deref (some i) = .ok i) (hpid : ∀ i ∈ rs, processId (a.items.proc i) ≠ pid)
    (hk : rs.length ≤ k) : removeProcLoop pid processId k x a = .ok a := by
  induction rs generalizing x k with
  | nil =>
      obtain rfl : x = none := hr
      cases k <;> rfl
  | cons i rs ih =>
      obtain ⟨rfl, hr⟩ := hr
      cases k with
      | zero => cases hk
      | succ k =>
          have hi := hvalid i List.mem_cons_self
          simp only [removeProcLoop, hi, if_neg (hpid i List.mem_cons_self), bind, Except.bind, pure, Except.pure]
          exact ih hr (fun j hj => hvalid j (List.mem_cons_of_mem _ hj)) (fun j hj => hpid j (List.mem_cons_of_mem _ hj))
            (Nat.le_of_succ_le_succ hk)

theorem pushWaiting_last {i : Nat} (hs : Queued a rs ds) (hback : ∃ e, Path a.items.prev a.waitingQueueTail ds.reverse e)
    (hi : i < a.items.count ∧ a.items.freed i = false) (hrs : i ∉ rs) (hds : i ∉ ds) :
    ∃ b, pushItemToWaitingQueue i a = .ok b ∧ Queued b rs (ds ++ [i]) ∧
      (∃ e, Path b.items.prev b.waitingQueueTail (ds ++ [i]).reverse e) ∧ b.delayTicks = a.delayTicks ∧
      b.currProc = a.currProc ∧ b.idlePcb = a.idlePcb ∧ b.items.proc = a.items.proc ∧ b.items.count = a.items.count := by
  have hnodup : (ds ++ [i]).Nodup := List.nodup_append.2 ⟨hs.nodup, List.nodup_singleton _, fun j hj k hk => by
    rintro rfl
    exact hds (List.mem_singleton.1 hk ▸ hj)⟩
  have hvalid : ∀ j ∈ ds ++ [i], j < a.items.count ∧ a.items.freed j = false := by
    intro j hj
    rcases List.mem_append.1 hj with hj | hj
    · exact hs.valid j hj
    · exact List.mem_singleton.1 hj ▸ hi
  have hdisjoint : ∀ j ∈ ds ++ [i], j ∉ rs := by
    intro j hj
    rcases List.mem_append.1 hj with hj | hj
    · exact hs.disjoint j hj
    · exact List.mem_singleton.1 hj ▸ hrs
  have hne {j : Nat} (hj : j ∈ rs) : j ≠ i := fun he => hrs (he ▸ hj)
  rcases List.eq_nil_or_concat' ds with rfl | ⟨l, y, rfl⟩
  · have hsize : a.waitingQueueSize = 0 := hs.size
    refine ⟨{ a with
      items := { a.items with next := Function.update a.items.next i none }
      waitingQueueHead := some i, waitingQueueTail := some i, waitingQueueSize := a.waitingQueueSize + 1 }, ?_,
      ⟨?_, ⟨rfl, Function.update_self ..⟩, rfl, ?_, hnodup, hvalid, hdisjoint⟩, ⟨_, rfl, rfl⟩, rfl, rfl, rfl, rfl, rfl⟩
    · simp [pushItemToWaitingQueue, hsize, bind, Except.bind, pure, Except.pure]
    · refine ready_elsewhere hs.ready ?_ ?_ ?_ rfl rfl rfl
      · exact fun j hj => Function.update_of_ne (hne hj) ..
      · exact fun _ _ => rfl
      · exact Nat.le_refl _
    · rw [hsize]
      rfl
  · have hsize : a.waitingQueueSize ≠ 0 := by
      rw [hs.size]
      simp only [List.length_append, List.length_singleton]
      omega
    have htail : a.waitingQueueTail = some y := hs.tail.trans (by simp)
    obtain ⟨hylt, hyfree⟩ := hs.valid y (by simp)
    have hd : a.items.deref (some y) = .ok y := items_deref_some hylt hyfree
    have hyi : y ≠ i := fun he => hds (by simp [he])
    have hyrs {j : Nat} (hj : j ∈ rs) : j ≠ y := fun he => hs.disjoint y (by simp) (he ▸ hj)
    have hlnodup := List.nodup_append.1 hs.nodup
    obtain ⟨m, hl, hm, -⟩ := path_append.1 hs.path
    obtain ⟨e, hb⟩ := hback
    refine ⟨{ a with
      items := { a.items with
        next := Function.update (Function.update a.items.next i none) y (some i)
        prev := Function.update a.items.prev i (some y) }
      waitingQueueTail := some i, waitingQueueSize := a.waitingQueueSize + 1 }, ?_,
      ⟨?_, ?_, ?_, ?_, hnodup, hvalid, hdisjoint⟩, ⟨e, ?_⟩, rfl, rfl, rfl, rfl, rfl⟩
    · have hd' : Items.deref { a.items with next := Function.update a.items.next i none } (some y) = .ok y := hd
      simp only [pushItemToWaitingQueue, if_neg hsize, htail, hd', bind, Except.bind, pure, Except.pure]
    · refine ready_elsewhere hs.ready (fun j hj => ?_) ?_ ?_ rfl rfl rfl
      · dsimp only
        rw [Function.update_of_ne (hyrs hj), Function.update_of_ne (hne hj)]
      · exact fun _ _ => rfl
      · exact Nat.le_refl _
    · refine path_append.2 ⟨some i, path_append.2 ⟨m, (path_congr fun j hj => ?_).2 hl, hm, Function.update_self ..⟩, rfl, ?_⟩
      · have hjy : j ≠ y := fun he => hlnodup.2.2 j hj y (by simp) he
        have hji : j ≠ i := fun he => hds (by simp [← he, hj])
        exact (Function.update_of_ne hjy ..).trans (Function.update_of_ne hji ..)
      · exact (Function.update_of_ne (Ne.symm hyi) ..).trans (Function.update_self ..)
    · simp
    · change a.waitingQueueSize + 1 = _
      rw [hs.size]
      simp
      omega
    · rw [List.reverse_append]
      refine ⟨rfl, ?_⟩
      dsimp only
      rw [Function.update_self, ← htail]
      refine (path_congr fun j hj => ?_).2 hb
      exact Function.update_of_ne (by rintro rfl; exact hds (List.mem_reverse.1 hj)) ..

theorem queued_alloc {delays : Nat → Int} {ticks : Nat → Int} (hs : Queued a rs ds) (p : Nat) :
    Queued { a with items := { (a.items.alloc p).2 with ticksLeft := ticks }, delayTicks := delays } rs ds := by
  have hfreed {i : Nat} (hi : i < a.items.count) : Function.update a.items.freed a.items.count false i = a.items.freed i :=
    Function.update_of_ne (Nat.ne_of_lt hi) ..
  refine ⟨?_, hs.path, hs.tail, hs.size, hs.nodup, fun i hi => ?_, hs.disjoint⟩
  · refine ready_elsewhere hs.ready ?_ ?_ ?_ rfl rfl rfl
    · exact fun _ _ => rfl
    · exact fun i hi => hfreed (hs.ready.valid i hi).1
    · exact Nat.le_succ _
  · exact ⟨Nat.lt_succ_of_lt (hs.valid i hi).1, (hfreed (hs.valid i hi).1).trans (hs.valid i hi).2⟩

theorem pending_concat {c : DelayCall} (hc : c.waits = true) : pending (h ++ [c]) = pending h ++ [c] := by
  unfold pending
  rw [List.filter_append, List.filter_cons_of_pos hc, List.filter_nil]

theorem delay_sleeping {k : Int} {res : Option Int} (hs : Sleeping s.fam.count h s.sched rs ds) (hk : 0 < k)
    (hcurr : s.curr ∉ ds.map s.sched.items.proc)
    (hready : ∃ rs : List Nat, Path s.sched.items.next s.sched.queueHead rs none ∧ s.sched.queueSize = rs.length ∧
      ∀ i ∈ rs, s.fam.processId (s.sched.items.proc i) ≠ s.fam.processId s.curr)
    (hd : delayFunc k info s = .ok (res, t)) :
    t.fam = s.fam ∧ ∃ rs' ds', Sleeping s.fam.count (h ++ [⟨s.curr, k, 0⟩]) t.sched rs' ds' := by
  have hq := hs.queued
  obtain ⟨rs', hpath, hsize, hpid⟩ := hready
  obtain rfl : rs = rs' := by
    obtain ⟨e, he⟩ := hq.ready.path
    have hlen : (rs.length : Int) = rs'.length := hq.ready.size.symm.trans hsize
    exact path_unique_length he hpath (by omega)
  unfold delayFunc at hd
  rw [if_neg (by omega), if_neg (by omega)] at hd
  obtain ⟨removed, hremoved, hd⟩ := bind_ok.1 hd
  obtain ⟨queued, hqueued, hd⟩ := bind_ok.1 hd
  obtain ⟨⟨next, sched⟩, hnext, hd⟩ := bind_ok.1 hd
  obtain ⟨u, hu, hd⟩ := bind_ok.1 hd
  obtain ⟨-, rfl⟩ := Prod.mk.inj (Except.ok.inj hd)
  -- the queues with the new item, which is on neither
  let a : Sched := { s.sched with
    items := { (s.sched.items.alloc s.curr).2 with
      ticksLeft := Function.update s.sched.items.ticksLeft s.sched.items.count k }
    delayTicks := Function.update s.sched.delayTicks s.curr k }
  have ha : Queued a rs ds := queued_alloc hq s.curr
  have hproc {i : Nat} (hi : i < s.sched.items.count) : a.items.proc i = s.sched.items.proc i :=
    Function.update_of_ne (Nat.ne_of_lt hi) ..
  have hnew : a.items.proc s.sched.items.count = s.curr := Function.update_self ..
  have hlen := length_le_of_lt hq.ready.nodup fun i hi => (hq.ready.valid i hi).1
  have habsent : removeProcFromReadyQueue s.curr s.fam.processId a = .ok a :=
    removeProcLoop_absent hpath (fun i hi => items_deref_some (ha.ready.valid i hi).1 (ha.ready.valid i hi).2)
      (fun i hi => by rw [hproc (hq.ready.valid i hi).1]; exact hpid i hi)
      (show rs.length ≤ s.sched.items.count + 1 + 1 by omega)
  obtain rfl : a = removed := Except.ok.inj (habsent.symm.trans hremoved)
  obtain ⟨b, hb, hqb, hback, hdelay, hcb, hib, hprocb, hcount⟩ := pushWaiting_last (i := s.sched.items.count) ha hs.back
    ⟨Nat.lt_succ_self _, Function.update_self ..⟩ (fun hi => Nat.lt_irrefl _ (hq.ready.valid _ hi).1)
    (fun hi => Nat.lt_irrefl _ (hq.valid _ hi).1)
  obtain rfl : b = queued := Except.ok.inj (hb.symm.trans hqueued)
  have hlast : pending (h ++ [⟨s.curr, k, 0⟩]) = pending h ++ [⟨s.curr, k, 0⟩] := pending_concat (waits_iff.2 hk)
  have hmem {c : DelayCall} (hc : c ∈ pending h) : c.proc ≠ s.curr := by
    intro he
    exact hcurr (hs.procs ▸ he ▸ List.mem_map_of_mem hc)
  have hsb : Sleeping s.fam.count (h ++ [⟨s.curr, k, 0⟩]) b rs (ds ++ [s.sched.items.count]) := by
    refine ⟨hqb, hback, ?_, ?_, fun c hc => ?_, hcb ▸ hs.curr_lt, hib ▸ hs.idle_lt, fun i hi => ?_⟩
    · rw [hlast, hprocb, List.map_append, List.map_append, ← hs.procs, List.map_congr_left fun i hi => hproc (hq.valid i hi).1,
        List.map_singleton, List.map_singleton, hnew]
    · rw [hlast, List.map_append, List.map_singleton]
      refine List.nodup_append.2 ⟨hs.once, List.nodup_singleton _, fun p hp q hq' => ?_⟩
      obtain ⟨c, hc, rfl⟩ := List.mem_map.1 hp
      rw [List.mem_singleton.1 hq']
      exact hmem hc
    · rw [hdelay]
      rw [hlast] at hc
      rcases List.mem_append.1 hc with hc | hc
      · exact (Function.update_of_ne (hmem hc) ..).trans (hs.left c hc)
      · rw [List.mem_singleton.1 hc]
        exact (Function.update_self ..).trans (by simp)
    · rw [hprocb]
      rw [hcount] at hi
      rcases Nat.lt_or_eq_of_le (Nat.le_of_lt_succ hi) with hi | rfl
      · rw [hproc hi]
        exact hs.items_lt i hi
      · rw [hnew]
        exact hs.curr_lt
  obtain ⟨p, c, rs', hpop, hp, hsc⟩ := hsb.pop
  obtain ⟨rfl, rfl⟩ := Prod.mk.inj (Except.ok.inj (hpop.symm.trans hnext))
  obtain ⟨r, v, hv, rfl⟩ := contextSwitch_ok hu
  obtain ⟨rfl, rfl⟩ := Prod.mk.inj (Except.ok.inj hv)
  exact ⟨rfl, _, _, hsc.enter hp⟩

theorem exit_sleeping {status : Int} (hs : Sleeping s.fam.count h s.sched rs ds) (he : exitFunc status info s = .ok t) :
    ∃ rs', Sleeping t.fam.count h t.sched rs' ds := by
  obtain ⟨woken, fam, sched, next, sched', mem, hlinks, hwake, hnext, -, rfl⟩ := exitFunc_ok he
  obtain ⟨hcount, hlt⟩ := exitLinks_count hlinks
  obtain ⟨rs₁, hs₁⟩ : ∃ rs₁, Sleeping s.fam.count h sched rs₁ ds := by
    cases woken with
    | none =>
        obtain rfl := Except.ok.inj hwake
        exact ⟨rs, hs⟩
    | some p =>
        obtain ⟨b, hb, hsb⟩ := hs.push (hlt p rfl)
        obtain rfl : b = sched := Except.ok.inj (hb.symm.trans hwake)
        exact ⟨_, hsb⟩
  obtain ⟨p, b, rs', hpop, hp, hsb⟩ := hs₁.pop
  obtain ⟨rfl, rfl⟩ := Prod.mk.inj (Except.ok.inj (hpop.symm.trans hnext))
  exact ⟨rs', (hsb.enter hp).mono (Nat.le_of_eq hcount.symm)⟩

theorem fork_sleeping (hs : Sleeping s.fam.count h s.sched rs ds) (hf : forkFunc info s = .ok t) :
    ∃ rs', Sleeping t.fam.count h t.sched rs' ds := by
  obtain ⟨m, m', fam, sched, -, -, hlink, hpush, rfl⟩ := forkFunc_ok hf
  have hcount : fam.count = s.fam.count + 1 := linkChild_count hlink
  have hnew {c : DelayCall} (hc : c ∈ pending h) : c.proc ≠ s.fam.count := by
    have hm : c.proc ∈ ds.map s.sched.items.proc := hs.procs ▸ List.mem_map_of_mem hc
    obtain ⟨i, hi, hic⟩ := List.mem_map.1 hm
    have := hs.items_lt i (hs.queued.valid i hi).1
    omega
  have hdelays : Sleeping s.fam.count h (createProc s).2.sched rs ds :=
    hs.count hs.queued hs.back hs.procs hs.once fun c hc => (Function.update_of_ne (hnew hc) ..).trans (hs.left c hc)
  have hchild := (hdelays.mono (Nat.le_succ _)).enter (Nat.lt_succ_self s.fam.count)
  obtain ⟨b, hb, hsb⟩ := hchild.push (Nat.lt_succ_of_lt hs.curr_lt)
  obtain rfl : b = sched := Except.ok.inj (hb.symm.trans hpush)
  exact ⟨_, hsb.mono (Nat.le_of_eq hcount.symm)⟩

theorem call_sleeping {c : Call} (hs : Sleeping s.fam.count h s.sched rs ds)
    (ha : Allowed s (.call c info)) (hn : next s (.call c info) = .ok t) :
    ∃ rs' ds', Sleeping t.fam.count (record h s (.call c info)) t.sched rs' ds' := by
  obtain ⟨⟨out, u⟩, hcall, rfl⟩ := map_ok.1 hn
  cases c with
  | fork =>
      obtain ⟨v, hv, hr⟩ := bind_ok.1 hcall
      obtain ⟨-, rfl⟩ := Prod.mk.inj (Except.ok.inj hr)
      obtain ⟨rs', hs'⟩ := fork_sleeping hs hv
      exact ⟨rs', ds, hs'⟩
  | exec file args =>
      obtain ⟨⟨r, info', v⟩, hv, hr⟩ := bind_ok.1 hcall
      obtain ⟨-, rfl⟩ := Prod.mk.inj (Except.ok.inj hr)
      obtain ⟨r', mem, -, -, rfl⟩ := execFunc_ok hv
      exact ⟨rs, ds, hs⟩
  | exit status =>
      obtain ⟨v, hv, hr⟩ := bind_ok.1 hcall
      obtain ⟨-, rfl⟩ := Prod.mk.inj (Except.ok.inj hr)
      obtain ⟨rs', hs'⟩ := exit_sleeping hs hv
      exact ⟨rs', ds, hs'⟩
  | wait ptr =>
      obtain ⟨⟨res, v⟩, hv, hr⟩ := bind_ok.1 hcall
      obtain ⟨-, rfl⟩ := Prod.mk.inj (Except.ok.inj hr)
      rcases waitFunc_ok hv with ⟨-, -, -, rfl⟩ | ⟨-, -, -, next, sched, hnext, rfl⟩ | ⟨-, pid, fam, hcol, -, rfl⟩
      · exact ⟨rs, ds, hs⟩
      · obtain ⟨p, b, rs', hpop, hp, hsb⟩ := hs.pop
        obtain ⟨rfl, rfl⟩ := Prod.mk.inj (Except.ok.inj (hpop.symm.trans hnext))
        exact ⟨rs', ds, hsb.enter hp⟩
      · exact ⟨rs, ds, hs.mono (Nat.le_of_eq (collect_count hcol).symm)⟩
  | getPid =>
      obtain ⟨-, rfl⟩ := Prod.mk.inj (Except.ok.inj hcall)
      exact ⟨rs, ds, hs⟩
  | brk addr =>
      obtain ⟨⟨r, mem⟩, hmem, hr⟩ := bind_ok.1 hcall
      obtain ⟨-, rfl⟩ := Prod.mk.inj (Except.ok.inj hr)
      exact ⟨rs, ds, hs⟩
  | delay clockTicks =>
      obtain ⟨⟨res, v⟩, hv, hr⟩ := bind_ok.1 hcall
      obtain ⟨-, rfl⟩ := Prod.mk.inj (Except.ok.inj hr)
      by_cases hk : 0 < toInt clockTicks
      · have hask : asks (.call (.delay clockTicks) info) = some (toInt clockTicks) := if_pos hk
        obtain ⟨hcurr, hready⟩ := ha (by rw [hask]; exact Option.some_ne_none _)
        obtain ⟨hfam, rs', ds', hs'⟩ := delay_sleeping hs hk (hcurr ds hs.queued.path) hready hv
        refine ⟨rs', ds', ?_⟩
        simp only [record, hask, hfam]
        exact hs'
      · have hask : asks (.call (.delay clockTicks) info) = none := if_neg hk
        refine ⟨rs, ds, ?_⟩
        simp only [record, hask]
        rcases delayFunc_ok hv with ⟨-, rfl⟩ | ⟨hpos, -⟩
        · exact hs
        · exact absurd hpos hk

theorem resume_sleeping {file : Option File} (hs : Sleeping s.fam.count h s.sched rs ds)
    (ha : Allowed s (.resume file)) (hn : next s (.resume file) = .ok t) :
    ∃ rs' ds', Sleeping t.fam.count h t.sched rs' ds' := by
  obtain ⟨⟨out, u⟩, hres, rfl⟩ := map_ok.1 hn
  unfold resume at hres
  cases hm : s.mode with
  | user | hung =>
      simp only [hm] at hres
      obtain ⟨-, rfl⟩ := Prod.mk.inj (Except.ok.inj hres)
      exact ⟨rs, ds, hs⟩
  | resuming c =>
      simp only [hm] at hres
      cases hk : c.kont with
      | boot pcb2 cmdArgs =>
          simp only [hk] at hres
          obtain ⟨⟨r, info, mem⟩, -, hr⟩ := bind_ok.1 hres
          obtain ⟨-, rfl⟩ := Prod.mk.inj (Except.ok.inj hr)
          exact ⟨rs, ds, hs⟩
      | fork child | delay =>
          simp only [hk] at hres
          obtain ⟨-, rfl⟩ := Prod.mk.inj (Except.ok.inj hres)
          exact ⟨rs, ds, hs⟩
      | wait =>
          simp only [hk] at hres
          obtain ⟨⟨pid, fam⟩, hcol, hr⟩ := bind_ok.1 hres
          obtain ⟨-, rfl⟩ := Prod.mk.inj (Except.ok.inj hr)
          exact ⟨rs, ds, hs.mono (Nat.le_of_eq (collect_count hcol).symm)⟩
      | clock item => exact absurd hk (ha c item hm)
      | exit =>
          simp only [hk] at hres
          obtain ⟨mem, -, hr⟩ := bind_ok.1 hres
          obtain ⟨-, rfl⟩ := Prod.mk.inj (Except.ok.inj hr)
          exact ⟨rs, ds, hs⟩

theorem step_sleeping {e : Event} (hs : Sleeping s.fam.count h s.sched rs ds) (ha : Allowed s e) (hst : Step s e t) :
    ∃ rs' ds', Sleeping t.fam.count (record h s e) t.sched rs' ds' := by
  obtain ⟨-, hn⟩ := hst
  cases e with
  | call c info => exact call_sleeping hs ha hn
  | memoryTrap info =>
      obtain ⟨⟨out, u⟩, htrap, rfl⟩ := map_ok.1 hn
      rcases memoryTrap_ok htrap with ⟨-, -, mem, hmem, rfl⟩ | ⟨-, -, hexit⟩
      · exact ⟨rs, ds, hs⟩
      · obtain ⟨rs', hs'⟩ := exit_sleeping hs hexit
        exact ⟨rs', ds, hs'⟩
  | fatalTrap info =>
      obtain ⟨⟨out, u⟩, htrap, rfl⟩ := map_ok.1 hn
      obtain ⟨v, hv, hr⟩ := bind_ok.1 htrap
      obtain ⟨-, rfl⟩ := Prod.mk.inj (Except.ok.inj hr)
      obtain ⟨rs', hs'⟩ := exit_sleeping hs hv
      exact ⟨rs', ds, hs'⟩
  | clock info =>
      obtain ⟨out, u, rs', ds', hu, hfam, hsu, -⟩ := clock_sleeping hs ha
      have hun : next s (.clock info) = .ok u := map_ok.2 ⟨_, hu, rfl⟩
      obtain rfl : u = t := Except.ok.inj (hun.symm.trans hn)
      exact ⟨rs', ds', hfam ▸ hsu⟩
  | resume file => exact resume_sleeping hs ha hn
  | kernelBrk addr =>
      obtain ⟨⟨r, mem⟩, -, hr⟩ := bind_ok.1 hn
      obtain rfl := Except.ok.inj hr
      exact ⟨rs, ds, hs⟩
  | userStore vaddr x =>
      obtain ⟨mem, -, hr⟩ := bind_ok.1 hn
      obtain rfl := Except.ok.inj hr
      exact ⟨rs, ds, hs⟩

theorem run_sleeping (hr : Run env s h) : ∃ rs ds, Sleeping s.fam.count h s.sched rs ds := by
  induction hr with
  | boot hb =>
      obtain ⟨m, m₁, m₂, m₃, m₄, i, i', -, rfl⟩ := kernelStart_ok hb
      refine ⟨[], [], ⟨⟨⟨none, rfl⟩, fun h => absurd rfl h, rfl, List.nodup_nil, fun i hi => absurd hi List.not_mem_nil⟩, rfl,
        rfl, rfl, List.nodup_nil, fun i hi => absurd hi List.not_mem_nil, fun i hi => absurd hi List.not_mem_nil⟩,
        ⟨_, rfl⟩, rfl, List.nodup_nil, fun c hc => absurd hc List.not_mem_nil, Nat.lt_succ_self 1, Nat.zero_lt_succ 1,
        fun i hi => absurd hi (Nat.not_lt_zero i)⟩
  | step _ ha hst ih =>
      obtain ⟨rs, ds, hs⟩ := ih
      exact step_sleeping hs ha hst

/-- The delay queue holds those whose calls are pending, with the ticks left to
them, and a clock interrupt takes one tick from each. -/
theorem delay_counts (hr : Run env s h) :
    ∃ ds, DelayQueue s.sched ds ∧ ds.map s.sched.items.proc = (pending h).map DelayCall.proc ∧
      ((pending h).map DelayCall.proc).Nodup ∧ (∀ c ∈ pending h, s.sched.delayTicks c.proc = c.asked - c.age) ∧
      ∀ info, State.userMode s → Allowed s (.clock info) → ∃ t, Step s (.clock info) t ∧
        ∀ p, t.sched.delayTicks p =
          if p ∈ ds.map s.sched.items.proc then s.sched.delayTicks p - 1 else s.sched.delayTicks p := by
  obtain ⟨rs, ds, hs⟩ := run_sleeping hr
  refine ⟨ds, hs.queued.path, hs.procs, hs.once, hs.left, fun info hu ha => ?_⟩
  obtain ⟨out, t, rs', ds', ht, -, -, hdelay⟩ := clock_sleeping hs ha
  exact ⟨t, ⟨hu, map_ok.2 ⟨_, ht, rfl⟩⟩, fun p => congrFun hdelay p⟩

def fromClock (s : State) : Bool :=
  match s.mode with
  | .resuming ⟨_, .clock _, _⟩ => true
  | _ => false

theorem fromClock_resume (h : fromClock s = false) (file : Option File) : Allowed s (.resume file) := by
  rintro ⟨owner, kont, saved⟩ item hm rfl
  simp [fromClock, hm] at h

/-- Init sleeps for a tick; or its child and then init do. -/
def delaysCompute : Bool :=
  startsIn fun s₀ =>
    (stepsTo s₀ (.call (.delay 1) smallInfo) fun s₁ => !fromClock s₁ && stepsTo s₁ (.resume none) fun s₂ =>
      stepsTo s₂ (.clock smallInfo) fun _ => true) &&
    stepsTo s₀ (.call .fork smallInfo) fun s₁ => stepsTo s₁ (.resume none) fun s₂ =>
      stepsTo s₂ (.call (.delay 1) smallInfo) fun s₃ => stepsTo s₃ (.resume none) fun s₄ =>
        stepsTo s₄ (.call (.delay 1) smallInfo) fun s₅ => stepsTo s₅ (.resume none) fun s₆ =>
          stepsTo s₆ (.clock smallInfo) fun s₇ => decide (s₆.sched.waitingQueueHead = some 1 ∧
            s₆.sched.items.next 1 = some 2 ∧ s₆.sched.items.next 2 = none ∧ s₆.sched.items.proc 2 = 1 ∧
            s₆.sched.delayTicks 1 = 1 ∧ s₇.sched.delayTicks 1 = 1)

theorem delays_compute : delaysCompute = true := by
  decide +kernel

theorem boot_queues (h : kernelStart env = .ok s) :
    s.sched.queueHead = none ∧ s.sched.queueSize = 0 ∧ s.sched.waitingQueueHead = none ∧ s.curr = 1 := by
  obtain ⟨m, m₁, m₂, m₃, m₄, i, i', -, rfl⟩ := kernelStart_ok h
  exact ⟨rfl, rfl, rfl, rfl⟩

theorem delay_counts_small : ∃ s h t, Run smallBoot s h ∧ (pending h).map DelayCall.proc = [1] ∧
    s.sched.delayTicks 1 = 1 ∧ Step s (.clock smallInfo) t ∧ t.sched.delayTicks 1 = 0 := by
  obtain ⟨s₀, hboot, hc⟩ := startsIn_iff.1 delays_compute
  obtain ⟨s₁, hdelay, hc⟩ := stepsTo_iff.1 (Bool.and_eq_true_iff.1 hc).1
  obtain ⟨hnot, hc⟩ := Bool.and_eq_true_iff.1 hc
  obtain ⟨s₂, hresume, hc⟩ := stepsTo_iff.1 hc
  obtain ⟨s₃, hclock, -⟩ := stepsTo_iff.1 hc
  obtain ⟨hq, hz, hw, hcurr⟩ := boot_queues hboot
  have ha : Allowed s₀ (.call (.delay 1) smallInfo) := by
    refine fun _ => ⟨fun ds hds => ?_, [], hq, hz, fun i hi => absurd hi List.not_mem_nil⟩
    cases ds with
    | nil => exact List.not_mem_nil
    | cons i ds => cases hw.symm.trans hds.1
  have hrun := ((Run.boot hboot).step ha hdelay).step (fromClock_resume (Bool.not_eq_true' _ ▸ hnot) none) hresume
  have hrecord : record (record [] s₀ (.call (.delay 1) smallInfo)) s₁ (.resume none) = [⟨1, 1, 0⟩] := by
    have hone : record (record [] s₀ (.call (.delay 1) smallInfo)) s₁ (.resume none) = [⟨s₀.curr, 1, 0⟩] := rfl
    rw [hone, hcurr]
  rw [hrecord] at hrun
  obtain ⟨ds, hds, hprocs, -, hleft, hnext⟩ := delay_counts hrun
  have hprocs : ds.map s₂.sched.items.proc = [1] := hprocs
  have hlen : ds.length = 1 := by simpa using congrArg List.length hprocs
  obtain ⟨t, ht, hticks⟩ := hnext smallInfo hclock.1 fun ds' hds' i hi => by
    rw [path_unique hds' hds, List.eq_nil_of_length_eq_zero (List.length_dropLast.trans (by omega))] at hi
    exact absurd hi List.not_mem_nil
  have hone : s₂.sched.delayTicks 1 = 1 := hleft ⟨1, 1, 0⟩ List.mem_cons_self
  refine ⟨s₂, _, t, hrun, rfl, hone, ht, ?_⟩
  rw [hticks, hprocs, if_pos List.mem_cons_self, hone]
  rfl

/-- When the delays of two processes expire together, the second one is not
counted. -/
theorem second_delay_waits : ∃ s t ds p, Reachable (fun _ _ => True) smallBoot s ∧ DelayQueue s.sched ds ∧
    p ∈ ds.map s.sched.items.proc ∧ Step s (.clock smallInfo) t ∧ 0 < s.sched.delayTicks p ∧
    t.sched.delayTicks p = s.sched.delayTicks p := by
  obtain ⟨s₀, hboot, hc⟩ := startsIn_iff.1 delays_compute
  obtain ⟨s₁, h₁, hc⟩ := stepsTo_iff.1 (Bool.and_eq_true_iff.1 hc).2
  obtain ⟨s₂, h₂, hc⟩ := stepsTo_iff.1 hc
  obtain ⟨s₃, h₃, hc⟩ := stepsTo_iff.1 hc
  obtain ⟨s₄, h₄, hc⟩ := stepsTo_iff.1 hc
  obtain ⟨s₅, h₅, hc⟩ := stepsTo_iff.1 hc
  obtain ⟨s₆, h₆, hc⟩ := stepsTo_iff.1 hc
  obtain ⟨s₇, h₇, hc⟩ := stepsTo_iff.1 hc
  obtain ⟨hhead, hnext, hend, hproc, hleft, hsame⟩ := of_decide_eq_true hc
  have hstep {s t : State} {e : Event} (h : Reaches (fun _ _ => True) s₀ s) (hst : Step s e t) :
      Reaches (fun _ _ => True) s₀ t := h.tail ⟨e, trivial, hst⟩
  have hreach := hstep (hstep (hstep (hstep (hstep (hstep .refl h₁) h₂) h₃) h₄) h₅) h₆
  refine ⟨s₆, s₇, [1, 2], 1, ⟨s₀, hboot, hreach⟩, ⟨hhead, ?_⟩, ?_, h₇, ?_, ?_⟩
  · exact ⟨hnext, hend⟩
  · simp [hproc]
  · rw [hleft]
    decide
  · rw [hsame, hleft]

end Yalnix.DelayTicks
