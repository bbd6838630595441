import Yalnix.Clock
import Yalnix.ReadyQueue
import Yalnix.Runs

namespace Yalnix.ClockQueues

open Loops Machine LoadProgram Processes Queues Kernel Chains Calls Clock ReadyQueue Runs

structure Queued (a : Sched) (rs ds : List Nat) : Prop where
  ready : Ready a rs
  path : Path a.items.next a.waitingQueueHead ds none
  tail : a.waitingQueueTail = ds.getLast?
  size : a.waitingQueueSize = ds.length
  nodup : ds.Nodup
  valid : ∀ i ∈ ds, i < a.items.count ∧ a.items.freed i = false
  disjoint : ∀ i ∈ ds, i ∉ rs

/-- In how many places `p` is: it runs, it is ready, it sleeps, it waits for a child. -/
def places (s : State) (rs ds : List Nat) (p : Nat) : Nat :=
  (if p = s.curr then 1 else 0) + (rs.map s.sched.items.proc).count p + (ds.map s.sched.items.proc).count p +
    (s.fam.waiting p).toNat

/-- Each live process but idle is in one place, and idle is on no queue. Who
sleeps was suspended in `DelayFunc`. -/
structure Placed (s : State) (rs ds : List Nat) : Prop where
  queued : Queued s.sched rs ds
  curr_live : live s s.curr
  members : ∀ i ∈ rs ++ ds, live s (s.sched.items.proc i) ∧ s.sched.items.proc i ≠ s.sched.idlePcb
  once : ∀ p, live s p → p ≠ s.sched.idlePcb → places s rs ds p = 1
  sleeping : ∀ i ∈ ds, (s.ctx (s.sched.items.proc i)).kont = .delay

def clockInterrupt (info : ExceptionInfo) (s : State) : Except Fault State := do
  let (_, t) ← trapClockHandler info s
  if State.userMode t then
    return t
  else do
    let (_, t) ← resume none t
    return t

def KeepsPlaces (info : ExceptionInfo) (s : State) (ds : List Nat) : Prop :=
  ∃ t rs' ds', clockInterrupt info s = .ok t ∧ State.userMode t ∧ Placed t rs' ds' ∧
    (s.curr = t.curr ∨ s.curr ∈ rs'.map t.sched.items.proc) ∧
    ∀ i ∈ ds, s.sched.delayTicks (s.sched.items.proc i) ≤ 1 →
      s.sched.items.proc i = t.curr ∨ (rs'.map t.sched.items.proc).count (s.sched.items.proc i) = 1

variable {s t : State} {a b : Sched} {rs ds : List Nat} {info : ExceptionInfo}

theorem queued_congr (hs : Queued a rs ds) (hi : b.items = a.items) (hh : b.queueHead = a.queueHead)
    (ht : b.queueTail = a.queueTail) (hz : b.queueSize = a.queueSize) (hwh : b.waitingQueueHead = a.waitingQueueHead)
    (hwt : b.waitingQueueTail = a.waitingQueueTail) (hwz : b.waitingQueueSize = a.waitingQueueSize) :
    Queued b rs ds := by
  have hr := hs.ready
  refine ⟨⟨?_, ?_, ?_, hr.nodup, ?_⟩, ?_, ?_, ?_, hs.nodup, ?_, hs.disjoint⟩
  · rw [hi, hh]
    exact hr.path
  · rw [ht]
    exact hr.tail
  · rw [hz]
    exact hr.size
  · rw [hi]
    exact hr.valid
  · rw [hi, hwh]
    exact hs.path
  · rw [hwt]
    exact hs.tail
  · rw [hwz]
    exact hs.size
  · rw [hi]
    exact hs.valid

theorem tick_stays (h : ¬ (2 ≤ a.ticksPassed ∧ a.queueSize ≠ 0)) :
    tick a = .ok { a with ticksPassed := a.ticksPassed + 1 } := by
  unfold tick
  dsimp only
  split
  case isTrue hgt =>
    have hz : a.queueSize = 0 := by
      by_contra hz
      exact h ⟨by omega, hz⟩
    simp [setNextProc, hz, bind, Except.bind, pure, Except.pure]
  case isFalse => rfl

theorem setNextProc_rotates {h : Nat} (hs : Queued a (h :: rs) ds) :
    ∃ b, setNextProc a = .ok (1, b) ∧ Queued b (rs ++ [a.items.count]) ds ∧ b.currProc = a.items.proc h ∧
      b.idlePcb = a.idlePcb ∧ b.items.proc a.items.count = a.currProc ∧
      ∀ i, i < a.items.count → b.items.proc i = a.items.proc i := by
  have hr := hs.ready
  obtain ⟨c, -, ho, hproc, hset, hrc⟩ := setNext_ok hr
  have hlt := (hr.valid h List.mem_cons_self).1
  refine ⟨_, hset, ?_, ho.proc h hlt, ?_, hproc, ho.proc⟩
  · have hold {i : Nat} (hi : i ∈ ds) : i ∉ h :: rs ∧ i < a.items.count := ⟨hs.disjoint i hi, (hs.valid i hi).1⟩
    have hrest := ho.rest
    refine ⟨hrc, ?_, ?_, ?_, hs.nodup, fun i hi => ?_, fun i hi => ?_⟩
    · change Path c.items.next c.waitingQueueHead ds none
      rw [hrest]
      exact (path_congr fun i hi => ho.next i (hold hi).1).2 hs.path
    · change c.waitingQueueTail = _
      rw [hrest]
      exact hs.tail
    · change c.waitingQueueSize = _
      rw [hrest]
      exact hs.size
    · obtain ⟨hni, hi'⟩ := hold hi
      exact ⟨Nat.lt_of_lt_of_le hi' ho.count, (ho.freed i hni hi').trans (hs.valid i hi).2⟩
    · obtain ⟨hni, hi'⟩ := hold hi
      simp only [List.mem_append, List.mem_singleton, not_or]
      exact ⟨fun hm => hni (List.mem_cons_of_mem _ hm), Nat.ne_of_lt hi'⟩
  · change c.idlePcb = a.idlePcb
    rw [ho.rest]

theorem placed_rotates {h : Nat} (hs : Placed s (h :: rs) ds) (hne : s.curr ≠ s.sched.idlePcb)
    (hq : Queued b (rs ++ [s.sched.items.count]) ds) (hcurr : b.currProc = s.sched.items.proc h)
    (hidle : b.idlePcb = s.sched.idlePcb) (hnew : b.items.proc s.sched.items.count = s.curr)
    (hproc : ∀ i, i < s.sched.items.count → b.items.proc i = s.sched.items.proc i) :
    Placed { s with sched := b, mode := .user } (rs ++ [s.sched.items.count]) ds := by
  have hrs (i : Nat) (hi : i ∈ rs) : b.items.proc i = s.sched.items.proc i :=
    hproc i (hs.queued.ready.valid i (List.mem_cons_of_mem _ hi)).1
  have hds (i : Nat) (hi : i ∈ ds) : b.items.proc i = s.sched.items.proc i := hproc i (hs.queued.valid i hi).1
  refine ⟨hq, ?_, fun i hi => ?_, fun p hp hpi => ?_, fun i hi => ?_⟩
  · change live s b.currProc
    rw [hcurr]
    exact (hs.members h (by simp)).1
  · change live s (b.items.proc i) ∧ b.items.proc i ≠ b.idlePcb
    rw [hidle]
    simp only [List.mem_append, List.mem_singleton] at hi
    rcases hi with (hi | rfl) | hi
    · rw [hrs i hi]
      exact hs.members i (by simp [hi])
    · rw [hnew]
      exact ⟨hs.curr_live, hne⟩
    · rw [hds i hi]
      exact hs.members i (by simp [hi])
  · have honce := hs.once p hp (hidle ▸ hpi)
    simp only [places, List.map_cons, List.count_cons, beq_iff_eq] at honce
    change (if p = b.currProc then 1 else 0) + ((rs ++ [s.sched.items.count]).map b.items.proc).count p +
      (ds.map b.items.proc).count p + (s.fam.waiting p).toNat = 1
    rw [List.map_append, List.map_singleton, hnew, hcurr, List.map_congr_left hrs, List.map_congr_left hds,
      List.count_append, List.count_singleton]
    simp only [beq_iff_eq, eq_comm (b := p)] at honce ⊢
    omega
  · change (s.ctx (b.items.proc i)).kont = .delay
    rw [hds i hi]
    exact hs.sleeping i hi

theorem clockInterrupt_quiet (info : ExceptionInfo) (hs : Placed s rs ds) (hexp : delayExpires s.sched = false) :
    ∃ ticks, clockInterrupt info s = do
      let sched ← tick { s.sched with delayTicks := ticks }
      return { s with sched, mode := .user } := by
  have hq := hs.queued
  have hlen : ds.length ≤ s.sched.items.count + 1 :=
    Nat.le_succ_of_le (length_le_of_lt hq.nodup fun i hi => (hq.valid i hi).1)
  obtain ⟨ticks, h⟩ := clockWalk_quiet info hq.path hlen
    (fun i hi => items_deref_some (hq.valid i hi).1 (hq.valid i hi).2) hexp
  refine ⟨ticks, ?_⟩
  unfold clockInterrupt trapClockHandler
  rw [h]
  cases tick { s.sched with delayTicks := ticks } <;> rfl

theorem expires_false {n : Nat} {x : Ptr} {l : List Nat} (hl : Path a.items.next x l none) (hn : l.length ≤ n)
    (hd : (l.map a.items.proc).Nodup) (h : expires n x a = false) :
    ∀ i ∈ l, ¬ a.delayTicks (a.items.proc i) ≤ 1 := by
  induction l generalizing n x a with
  | nil => exact fun i hi => absurd hi List.not_mem_nil
  | cons item l ih =>
      obtain ⟨rfl, hl⟩ := hl
      cases n with
      | zero => simp at hn
      | succ n =>
          simp only [expires, Bool.or_eq_false_iff, decide_eq_false_iff_not] at h
          obtain ⟨hnot, hd⟩ := List.nodup_cons.1 hd
          let proc := a.items.proc item
          let delayTicks := Function.update a.delayTicks proc (a.delayTicks proc - 1)
          have htail := ih (a := { a with delayTicks }) hl (Nat.le_of_succ_le_succ hn) hd h.2
          intro i hi
          rcases List.mem_cons.1 hi with rfl | hi
          · omega
          · have hne : a.items.proc i ≠ a.items.proc item := fun he => hnot (he ▸ List.mem_map_of_mem hi)
            have hlate : ¬ delayTicks (a.items.proc i) ≤ 1 := htail i hi
            have hsame : delayTicks (a.items.proc i) = a.delayTicks (a.items.proc i) := Function.update_of_ne hne ..
            rwa [hsame] at hlate

theorem sleepers_nodup (hs : Placed s rs ds) : (ds.map s.sched.items.proc).Nodup := by
  rw [List.nodup_iff_count_le_one]
  intro p
  by_cases hp : p ∈ ds.map s.sched.items.proc
  · obtain ⟨i, hi, rfl⟩ := List.mem_map.1 hp
    obtain ⟨hlive, hidle⟩ := hs.members i (by simp [hi])
    have := hs.once _ hlive hidle
    unfold places at this
    omega
  · rw [List.count_eq_zero.2 hp]
    omega

theorem tail_off {i : Nat} (hs : Placed s rs ds) (htail : s.sched.queueTail = some i) (hsize : 0 < s.sched.queueSize) :
    s.sched.items.proc i ≠ s.curr ∧ s.sched.items.proc i ≠ s.sched.idlePcb := by
  have hr := hs.queued.ready
  have hne : rs ≠ [] := by
    rintro rfl
    have := hr.size
    simp only [List.length_nil] at this
    omega
  have hi : i ∈ rs := List.mem_of_getLast? ((hr.tail hne).symm.trans htail)
  obtain ⟨hlive, hidle⟩ := hs.members i (by simp [hi])
  refine ⟨fun he => ?_, hidle⟩
  have hone := hs.once _ hlive hidle
  have hcount : 0 < (rs.map s.sched.items.proc).count (s.sched.items.proc i) :=
    List.count_pos_iff.2 (List.mem_map_of_mem hi)
  rw [places, if_pos he] at hone
  omega

theorem size_nonneg (hs : Placed s rs ds) : 0 ≤ s.sched.queueSize := by
  rw [hs.queued.ready.size]
  exact Int.natCast_nonneg _

/-- A process whose delay expires is made current after it was put on the ready queue. -/
theorem expiry_breaks {rs' ds' : List Nat} (hs : Placed s rs ds) (hexp : delayExpires s.sched = true)
    (h : clockInterrupt info s = .ok t) (ht : Placed t rs' ds') : False := by
  obtain ⟨⟨out, u⟩, hu, h⟩ := bind_ok.1 h
  rcases clockWalk_ok hu with ⟨hquiet, -⟩ | ⟨-, -, ticks, item, sched, sched', hlt, hmem, hremove, hpush, rfl⟩
  · have hquiet : delayExpires s.sched = false := hquiet
    rw [hquiet] at hexp
    cases hexp
  · have hitem : item ∈ ds := hmem ds hs.queued.path
    obtain ⟨hlive, hidle⟩ := hs.members item (by simp [hitem])
    have hne : s.sched.items.proc item ≠ s.curr := by
      intro he
      have hone := hs.once _ hlive hidle
      have hcount : 0 < (ds.map s.sched.items.proc).count (s.sched.items.proc item) :=
        List.count_pos_iff.2 (List.mem_map_of_mem hitem)
      rw [places, if_pos he] at hone
      omega
    have hctx : saveContext (.clock item) info s (s.sched.items.proc item) = s.ctx (s.sched.items.proc item) :=
      Function.update_of_ne hne ..
    have hkont := hs.sleeping item hitem
    simp only [State.userMode, switched, resume, hctx, hkont, bind, Except.bind] at h
    obtain ⟨-, head, tail, prev, next, rfl⟩ := removeWaiting_ok hremove
    obtain ⟨next', rfl⟩ := pushProc_ok hpush
    have hsched := congrArg State.sched (Except.ok.inj h).symm
    have hcurr : t.sched.currProc = s.sched.items.proc item := by rw [hsched]
    have htail : t.sched.queueTail = some s.sched.items.count := by rw [hsched]
    have hsize : t.sched.queueSize = s.sched.queueSize + 1 := by rw [hsched]
    have hproc : t.sched.items.proc s.sched.items.count = s.sched.items.proc item := by
      rw [hsched]
      exact Function.update_self ..
    have hpos := size_nonneg hs
    exact (tail_off ht htail (by omega)).1 (hproc.trans hcurr.symm)

/-- When `SetNextProc` runs in the idle process it puts idle on the ready queue. -/
theorem idle_breaks {rs' ds' : List Nat} (hs : Placed s rs ds) (hidle : s.curr = s.sched.idlePcb)
    (hrot : rotates s.sched = true) (h : clockInterrupt info s = .ok t) (ht : Placed t rs' ds') : False := by
  simp only [rotates, Bool.and_eq_true, Bool.not_eq_true', decide_eq_true_eq, bne_iff_ne] at hrot
  obtain ⟨⟨hexp, hpassed⟩, hsize⟩ := hrot
  obtain ⟨ticks, hclock⟩ := clockInterrupt_quiet info hs hexp
  rw [hclock] at h
  obtain ⟨sched, htick, h⟩ := bind_ok.1 h
  rcases tick_ok htick with ⟨hno, -⟩ | ⟨-, c, hc, rfl⟩
  · exact hno ⟨hpassed, hsize⟩
  · rcases setNextProc_ok hc with ⟨hz, -⟩ | ⟨-, -, d, head, hpush, -, rfl⟩
    · exact hsize hz
    · obtain ⟨next, rfl⟩ := pushProc_ok hpush
      have hsched := congrArg State.sched (Except.ok.inj h).symm
      have htail : t.sched.queueTail = some s.sched.items.count := by rw [hsched]
      have hsize' : t.sched.queueSize = s.sched.queueSize + 1 - 1 := by rw [hsched]
      have hidle' : t.sched.idlePcb = s.sched.idlePcb := by rw [hsched]
      have hproc : t.sched.items.proc s.sched.items.count = s.curr := by
        rw [hsched]
        exact Function.update_self ..
      have hpos := size_nonneg hs
      refine (tail_off ht htail (by omega)).2 ?_
      rw [hproc, hidle', hidle]

/-- The clock interrupt keeps every process in its one place exactly when no
delay expires at this tick and `SetNextProc` does not run in the idle process. -/
theorem keepsPlaces_iff (hs : Placed s rs ds) :
    KeepsPlaces info s ds ↔ delayExpires s.sched = false ∧ (rotates s.sched = true → s.curr ≠ s.sched.idlePcb) := by
  constructor
  · rintro ⟨t, rs', ds', h, -, ht, -⟩
    refine ⟨?_, fun hrot hidle => idle_breaks hs hidle hrot h ht⟩
    rw [Bool.eq_false_iff]
    exact fun hexp => expiry_breaks hs hexp h ht
  · rintro ⟨hexp, hrot⟩
    obtain ⟨ticks, hclock⟩ := clockInterrupt_quiet info hs hexp
    have hlate : ∀ i ∈ ds, ¬ s.sched.delayTicks (s.sched.items.proc i) ≤ 1 := by
      have hq := hs.queued
      refine expires_false hq.path ?_ (sleepers_nodup hs) hexp
      exact Nat.le_succ_of_le (length_le_of_lt hq.nodup fun i hi => (hq.valid i hi).1)
    have hq : Queued { s.sched with delayTicks := ticks, ticksPassed := s.sched.ticksPassed + 1 } rs ds :=
      queued_congr hs.queued rfl rfl rfl rfl rfl rfl rfl
    by_cases hrotates : 2 ≤ s.sched.ticksPassed ∧ s.sched.queueSize ≠ 0
    · have hne : s.curr ≠ s.sched.idlePcb := hrot (by simp [rotates, hexp, hrotates])
      cases rs with
      | nil => exact absurd hs.queued.ready.size hrotates.2
      | cons h rs =>
          obtain ⟨b, hb, hqb, hcurr, hidle, hnew, hproc⟩ := setNextProc_rotates hq
          have htick : tick { s.sched with delayTicks := ticks } = .ok { b with ticksPassed := 0 } := by
            have hgt : s.sched.ticksPassed + 1 > 2 := by omega
            simp only [tick, if_pos hgt, hb, bind, Except.bind, if_true, pure, Except.pure]
          have hplaced := placed_rotates (b := { b with ticksPassed := 0 }) hs hne
            (queued_congr hqb rfl rfl rfl rfl rfl rfl rfl) hcurr hidle hnew hproc
          refine ⟨{ s with sched := { b with ticksPassed := 0 }, mode := .user }, _, ds, ?_, trivial, hplaced, .inr ?_,
            fun i hi hle => absurd hle (hlate i hi)⟩
          · rw [hclock, htick]
            rfl
          · exact List.mem_map.2 ⟨s.sched.items.count, by simp, hnew⟩
    · refine ⟨{ s with
        sched := { s.sched with delayTicks := ticks, ticksPassed := s.sched.ticksPassed + 1 }
        mode := .user }, rs, ds, ?_, trivial, ?_, .inl rfl, fun i hi hle => absurd hle (hlate i hi)⟩
      · have htick := tick_stays (a := { s.sched with delayTicks := ticks }) hrotates
        rw [hclock, htick]
        rfl
      · exact ⟨hq, hs.curr_live, hs.members, hs.once, hs.sleeping⟩

def sleeper (ticks : Int) : State :=
  { zeroState with
    fam := { zeroState.fam with count := 2 }
    sched := { zeroState.sched with
      items := { zeroState.sched.items with count := 1, proc := fun _ => 1 }
      waitingQueueHead := some 0
      waitingQueueTail := some 0
      waitingQueueSize := 1
      delayTicks := fun _ => ticks }
    ctx := fun p => ⟨p, .delay, smallInfo⟩ }

theorem sleeper_placed (ticks : Int) : Placed (sleeper ticks) [] [0] := by
  have hready : Ready (sleeper ticks).sched [] := ⟨⟨none, rfl⟩, fun h => absurd rfl h, rfl, List.nodup_nil, nofun⟩
  refine ⟨⟨hready, ⟨rfl, rfl⟩, rfl, rfl, List.nodup_singleton 0, ?_, nofun⟩, ⟨Nat.zero_lt_succ 1, rfl⟩, ?_, ?_, ?_⟩
  · simp [sleeper, zeroState]
  · simp [sleeper, zeroState, live]
  · rintro p ⟨hp, -⟩ hidle
    change p < 2 at hp
    change p ≠ 0 at hidle
    obtain rfl : p = 1 := by omega
    rfl
  · exact fun _ _ => rfl

theorem keepsPlaces_small : KeepsPlaces smallInfo (sleeper 5) [0] :=
  (keepsPlaces_iff (sleeper_placed 5)).2 ⟨rfl, nofun⟩

/-- The sleeper wakes at this tick: it runs, and it is on the ready queue. -/
theorem sleeper_doubled_small : Placed (sleeper 1) [] [0] ∧
    (∃ t, clockInterrupt smallInfo (sleeper 1) = .ok t ∧ t.curr = 1 ∧ t.sched.queueHead.map t.sched.items.proc = some 1) ∧
    ¬ KeepsPlaces smallInfo (sleeper 1) [0] := by
  refine ⟨sleeper_placed 1, ?_, ?_⟩
  · exact ⟨_, rfl, rfl, rfl⟩
  · rintro ⟨t, rs', ds', h, -, ht, -⟩
    exact expiry_breaks (sleeper_placed 1) rfl h ht

end Yalnix.ClockQueues
