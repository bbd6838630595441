import Yalnix.Calls
import Yalnix.Chains

namespace Yalnix.Clock

open Loops Machine LoadProgram Processes Queues Kernel Chains Calls

variable {s t : State} {a b : Sched} {info : ExceptionInfo} {out : Option ExceptionInfo} {x : Ptr} {n : Nat}

/-- The walk over the delay queue, as `TrapClockHandler` makes it, comes to a
process whose last tick this is. -/
def expires : Nat → Ptr → Sched → Bool
  | n + 1, some item, a =>
      let ticks := a.delayTicks (a.items.proc item) - 1
      ticks ≤ 0 ||
        expires n (a.items.next item)
          { a with delayTicks := Function.update a.delayTicks (a.items.proc item) ticks }
  | _, _, _ => false

def delayExpires (a : Sched) : Bool := expires (a.items.count + 1) a.waitingQueueHead a

/-- The walk gets to the tick, and the tick to `SetNextProc` with a ready queue that is not empty. -/
def rotates (a : Sched) : Bool := !delayExpires a && 2 ≤ a.ticksPassed && a.queueSize != 0

def replaces (a : Sched) : Bool := rotates a && a.queueHead.map a.items.proc != some a.currProc

theorem setNextProc_ok {r : Int} (h : setNextProc a = .ok (r, b)) :
    (a.queueSize = 0 ∧ r = -1 ∧ b = a) ∨
    (a.queueSize ≠ 0 ∧ r = 1 ∧ ∃ c head, pushProcToQueue a.currProc a = .ok c ∧
      (a.queueHead = some head ∧ head < c.items.count) ∧ b = { c with
        currProc := c.items.proc head
        queueHead := c.items.next head
        queueSize := c.queueSize - 1 }) := by
  unfold setNextProc at h
  split at h
  case isTrue hz =>
    obtain ⟨rfl, rfl⟩ := Prod.mk.inj (Except.ok.inj h)
    exact .inl ⟨hz, rfl, rfl⟩
  case isFalse hz =>
    obtain ⟨first, -, h⟩ := bind_ok.1 h
    obtain ⟨c, hc, h⟩ := bind_ok.1 h
    obtain ⟨head, hhead, h⟩ := bind_ok.1 h
    obtain ⟨rfl, rfl⟩ := Prod.mk.inj (Except.ok.inj h)
    refine .inr ⟨hz, rfl, c, head, hc, ⟨?_, (items_deref_ok hhead).2.1⟩, rfl⟩
    obtain ⟨next, rfl⟩ := pushProc_ok hc
    have hq := (items_deref_ok hhead).1
    rwa [if_neg hz] at hq

theorem tick_ok (h : tick a = .ok b) :
    (¬ (2 ≤ a.ticksPassed ∧ a.queueSize ≠ 0) ∧ b = { a with ticksPassed := a.ticksPassed + 1 }) ∨
    ((2 ≤ a.ticksPassed ∧ a.queueSize ≠ 0) ∧ ∃ c, setNextProc { a with ticksPassed := a.ticksPassed + 1 } = .ok (1, c) ∧
      b = { c with ticksPassed := 0 }) := by
  unfold tick at h
  dsimp only at h
  split at h
  case isTrue hgt =>
    obtain ⟨⟨r, c⟩, hc, h⟩ := bind_ok.1 h
    rcases setNextProc_ok hc with ⟨hz, rfl, rfl⟩ | ⟨hz, rfl, -⟩
    · exact .inl ⟨fun hn => hn.2 hz, (Except.ok.inj h).symm⟩
    · exact .inr ⟨⟨by omega, hz⟩, c, hc, (Except.ok.inj h).symm⟩
  case isFalse hle =>
    exact .inl ⟨fun hn => hle (by omega), (Except.ok.inj h).symm⟩

/-- The walk ends with a tick, or in the switch to the first process whose delay
has expired, which is by then on the ready queue. -/
theorem clockWalk_ok (h : clockWalk info n x s = .ok (out, t)) :
    (expires n x s.sched = false ∧ out = some info ∧ ∃ ticks sched, tick { s.sched with delayTicks := ticks } = .ok sched ∧
      t = { s with sched, mode := .user }) ∨
    (expires n x s.sched = true ∧ out = none ∧ ∃ ticks item sched sched',
      item < s.sched.items.count ∧ (∀ l, Path s.sched.items.next x l none → item ∈ l) ∧
      removeItemFromWaitingQueue item { s.sched with delayTicks := ticks } = .ok sched ∧
      pushProcToQueue (s.sched.items.proc item) sched = .ok sched' ∧
      t = switched (.clock item) info (s.sched.items.proc item) s
        { s with mem := AddressSpace.switchExist (s.sched.items.proc item) s.mem, sched := sched' }) := by
  induction n generalizing x s with
  | zero =>
      cases x with
      | none =>
          obtain ⟨sched, hsched, h⟩ := bind_ok.1 h
          obtain ⟨rfl, rfl⟩ := Prod.mk.inj (Except.ok.inj h)
          exact .inl ⟨rfl, rfl, s.sched.delayTicks, sched, hsched, rfl⟩
      | some item => cases h
  | succ n ih =>
      cases x with
      | none =>
          obtain ⟨sched, hsched, h⟩ := bind_ok.1 h
          obtain ⟨rfl, rfl⟩ := Prod.mk.inj (Except.ok.inj h)
          exact .inl ⟨rfl, rfl, s.sched.delayTicks, sched, hsched, rfl⟩
      | some item =>
          obtain ⟨i, hi, h⟩ := bind_ok.1 h
          obtain ⟨hi', hlt, -⟩ := items_deref_ok hi
          obtain rfl := Option.some.inj hi'
          dsimp only at h
          by_cases hexp : s.sched.delayTicks (s.sched.items.proc item) - 1 ≤ 0
          · rw [if_pos hexp] at h
            obtain ⟨sched, hremove, h⟩ := bind_ok.1 h
            obtain ⟨sched', hpush, h⟩ := bind_ok.1 h
            obtain ⟨u, hu, h⟩ := bind_ok.1 h
            obtain ⟨rfl, rfl⟩ := Prod.mk.inj (Except.ok.inj h)
            refine .inr ⟨by simp [expires, hexp], rfl, _, item, sched, sched', hlt, fun l hl => ?_, hremove, hpush, ?_⟩
            · obtain ⟨l', rfl, -⟩ := path_some hl
              exact List.mem_cons_self
            apply contextSwitch_exist hu
            · rfl
            · rfl
            · obtain ⟨-, head, tail, prev, next, rfl⟩ := removeWaiting_ok hremove
              exact (push_keeps hpush).curr
          · rw [if_neg hexp] at h
            simp only [expires, hexp, decide_false, Bool.false_or]
            refine (ih h).imp_right ?_
            rintro ⟨hx, hout, ticks, i, sched, sched', hi, hmem, hrest⟩
            refine ⟨hx, hout, ticks, i, sched, sched', hi, fun l hl => ?_, hrest⟩
            obtain ⟨l', rfl, hl'⟩ := path_some hl
            exact List.mem_cons_of_mem _ (hmem l' hl')

theorem clockWalk_quiet (info : ExceptionInfo) {l : List Nat} (hl : Path s.sched.items.next x l none) (hn : l.length ≤ n)
    (hvalid : ∀ i ∈ l, s.sched.items.deref (some i) = .ok i) (hexp : expires n x s.sched = false) :
    ∃ ticks, clockWalk info n x s = do
      let sched ← tick { s.sched with delayTicks := ticks }
      return (some info, { s with sched, mode := .user }) := by
  induction l generalizing n x s with
  | nil =>
      obtain rfl : x = none := hl
      exact ⟨s.sched.delayTicks, by cases n <;> rfl⟩
  | cons item l ih =>
      obtain ⟨rfl, hl⟩ := hl
      cases n with
      | zero => simp at hn
      | succ n =>
          simp only [expires, Bool.or_eq_false_iff, decide_eq_false_iff_not] at hexp
          have hd := hvalid item List.mem_cons_self
          let proc := s.sched.items.proc item
          let delayTicks := Function.update s.sched.delayTicks proc (s.sched.delayTicks proc - 1)
          obtain ⟨ticks, h⟩ := ih (s := { s with sched.delayTicks := delayTicks }) hl (Nat.le_of_succ_le_succ hn)
            (fun i hi => hvalid i (List.mem_cons_of_mem _ hi)) hexp.2
          refine ⟨ticks, ?_⟩
          simp only [clockWalk, hd, bind, Except.bind, hexp.1, if_false]
          exact h

/-- What the operations on the two queues do not touch, as long as new items are
for the first `n` processes. -/
structure Grows (n : Nat) (a b : Sched) : Prop where
  curr : b.currProc = a.currProc
  idle : b.idlePcb = a.idlePcb
  count : a.items.count ≤ b.items.count
  proc : ∀ i, i < a.items.count → b.items.proc i = a.items.proc i
  new : ∀ i, a.items.count ≤ i → i < b.items.count → b.items.proc i < n
  freed : ∀ i, i < a.items.count → a.items.freed i = true → b.items.freed i = true

namespace Grows

theorem refl (n : Nat) (a : Sched) : Grows n a a :=
  ⟨rfl, rfl, Nat.le_refl _, fun _ _ => rfl, fun _ h h' => absurd h' (Nat.not_lt.2 h), fun _ _ h => h⟩

theorem trans {c : Sched} (h : Grows n a b) (h' : Grows n b c) : Grows n a c where
  curr := h'.curr.trans h.curr
  idle := h'.idle.trans h.idle
  count := Nat.le_trans h.count h'.count
  proc i hi := (h'.proc i (Nat.lt_of_lt_of_le hi h.count)).trans (h.proc i hi)
  new i hi hi' := by
    by_cases hb : i < b.items.count
    · rw [h'.proc i hb]
      exact h.new i hi hb
    · exact h'.new i (Nat.not_lt.1 hb) hi'
  freed i hi hf := h'.freed i (Nat.lt_of_lt_of_le hi h.count) (h.freed i hi hf)

theorem of_eq (hcurr : b.currProc = a.currProc) (hidle : b.idlePcb = a.idlePcb) (hitems : b.items = a.items) :
    Grows n a b := by
  refine ⟨hcurr, hidle, Nat.le_of_eq (congrArg Items.count hitems.symm), ?_, ?_, ?_⟩ <;> rw [hitems]
  · exact fun _ _ => rfl
  · exact fun _ h h' => absurd h' (Nat.not_lt.2 h)
  · exact fun _ _ h => h

theorem alloc {p : Nat} (hp : p < n) (hcurr : b.currProc = a.currProc) (hidle : b.idlePcb = a.idlePcb)
    (hcount : b.items.count = a.items.count + 1) (hproc : b.items.proc = Function.update a.items.proc a.items.count p)
    (hfreed : b.items.freed = Function.update a.items.freed a.items.count false) : Grows n a b := by
  refine ⟨hcurr, hidle, by omega, fun i hi => ?_, fun i hi hi' => ?_, fun i hi hf => ?_⟩
  · rw [hproc, Function.update_of_ne (Nat.ne_of_lt hi)]
  · obtain rfl : i = a.items.count := by omega
    rwa [hproc, Function.update_self]
  · rwa [hfreed, Function.update_of_ne (Nat.ne_of_lt hi)]

theorem push {p : Nat} (hp : p < n) (h : pushProcToQueue p a = .ok b) : Grows n a b := by
  obtain ⟨next, rfl⟩ := pushProc_ok h
  apply alloc hp <;> rfl

theorem free {i item : Nat} {freed : Nat → Bool} (h : freed i = true) : Function.update freed item true i = true := by
  by_cases hi : i = item
  · rw [hi, Function.update_self]
  · rw [Function.update_of_ne hi, h]

theorem removeReady {item : Nat} (h : removeItemFromReadyQueue item a = .ok b) : Grows n a b := by
  obtain ⟨-, head, tail, prev, next, rfl⟩ := removeReady_ok h
  exact ⟨rfl, rfl, Nat.le_refl _, fun _ _ => rfl, fun _ h h' => absurd h' (Nat.not_lt.2 h), fun _ _ h => free h⟩

theorem removeWaiting {item : Nat} (h : removeItemFromWaitingQueue item a = .ok b) : Grows n a b := by
  obtain ⟨-, head, tail, prev, next, rfl⟩ := removeWaiting_ok h
  exact ⟨rfl, rfl, Nat.le_refl _, fun _ _ => rfl, fun _ h h' => absurd h' (Nat.not_lt.2 h), fun _ _ h => free h⟩

theorem findReady {p : Nat} (h : findReadyPcb a = .ok (p, b)) : Grows n a b := by
  rcases findReady_ok h with ⟨-, rfl⟩ | ⟨item, -, -, h⟩
  · exact refl n b
  · exact removeReady h

theorem removeProcLoop {pid : Nat} {processId : Nat → Nat} {k : Nat} (h : removeProcLoop pid processId k x a = .ok b) :
    Grows n a b := by
  induction k generalizing x a with
  | zero =>
      cases x with
      | none =>
          obtain rfl := Except.ok.inj h
          exact refl n a
      | some item => cases h
  | succ k ih =>
      cases x with
      | none =>
          obtain rfl := Except.ok.inj h
          exact refl n a
      | some item =>
          obtain ⟨i, -, h⟩ := bind_ok.1 h
          dsimp only at h
          split at h
          case isTrue =>
            obtain ⟨c, hc, h⟩ := bind_ok.1 h
            obtain ⟨j, -, h⟩ := bind_ok.1 h
            exact (removeReady hc).trans (ih h)
          case isFalse =>
            obtain ⟨c, hc, h⟩ := bind_ok.1 h
            obtain rfl := Except.ok.inj hc
            obtain ⟨j, -, h⟩ := bind_ok.1 h
            exact ih h

theorem pushWaiting {item : Nat} (h : pushItemToWaitingQueue item a = .ok b) : Grows n a b := by
  unfold pushItemToWaitingQueue at h
  dsimp only at h
  split at h
  case isTrue =>
    obtain rfl := Except.ok.inj h
    exact ⟨rfl, rfl, Nat.le_refl _, fun _ _ => rfl, fun _ h h' => absurd h' (Nat.not_lt.2 h), fun _ _ h => h⟩
  case isFalse =>
    obtain ⟨tail, -, h⟩ := bind_ok.1 h
    obtain rfl := Except.ok.inj h
    exact ⟨rfl, rfl, Nat.le_refl _, fun _ _ => rfl, fun _ h h' => absurd h' (Nat.not_lt.2 h), fun _ _ h => h⟩

end Grows

theorem push_ticks {p : Nat} (h : pushProcToQueue p a = .ok b) : b.ticksPassed = a.ticksPassed := by
  obtain ⟨next, rfl⟩ := pushProc_ok h
  rfl

theorem removeReady_ticks {item : Nat} (h : removeItemFromReadyQueue item a = .ok b) : b.ticksPassed = a.ticksPassed := by
  obtain ⟨-, head, tail, prev, next, rfl⟩ := removeReady_ok h
  rfl

theorem findReady_ticks {p : Nat} (h : findReadyPcb a = .ok (p, b)) : b.ticksPassed = a.ticksPassed := by
  rcases findReady_ok h with ⟨-, rfl⟩ | ⟨item, -, -, h⟩
  · rfl
  · exact removeReady_ticks h

theorem removeProcLoop_ticks {pid : Nat} {processId : Nat → Nat} {k : Nat}
    (h : removeProcLoop pid processId k x a = .ok b) : b.ticksPassed = a.ticksPassed := by
  induction k generalizing x a with
  | zero =>
      cases x with
      | none =>
          obtain rfl := Except.ok.inj h
          rfl
      | some item => cases h
  | succ k ih =>
      cases x with
      | none =>
          obtain rfl := Except.ok.inj h
          rfl
      | some item =>
          obtain ⟨i, -, h⟩ := bind_ok.1 h
          dsimp only at h
          split at h
          case isTrue =>
            obtain ⟨c, hc, h⟩ := bind_ok.1 h
            obtain ⟨j, -, h⟩ := bind_ok.1 h
            exact (ih h).trans (removeReady_ticks hc)
          case isFalse =>
            obtain ⟨c, hc, h⟩ := bind_ok.1 h
            obtain rfl := Except.ok.inj hc
            obtain ⟨j, -, h⟩ := bind_ok.1 h
            exact ih h

theorem pushWaiting_ticks {item : Nat} (h : pushItemToWaitingQueue item a = .ok b) : b.ticksPassed = a.ticksPassed := by
  unfold pushItemToWaitingQueue at h
  dsimp only at h
  split at h
  case isTrue =>
    obtain rfl := Except.ok.inj h
    rfl
  case isFalse =>
    obtain ⟨tail, -, h⟩ := bind_ok.1 h
    obtain rfl := Except.ok.inj h
    rfl

theorem delayFunc_ok {clockTicks : Int} {res : Option Int} (h : delayFunc clockTicks info s = .ok (res, t)) :
    ((clockTicks = 0 ∧ res = some 0 ∨ clockTicks < 0 ∧ res = some ERROR) ∧ t = s) ∨
    (0 < clockTicks ∧ res = none ∧ ∃ queued next sched, queued.items.proc s.sched.items.count = s.curr ∧
      (∀ n, s.curr < n → Grows n s.sched queued) ∧ queued.ticksPassed = s.sched.ticksPassed ∧
      findReadyPcb queued = .ok (next, sched) ∧
      t = switched .delay info next s { s with mem := AddressSpace.switchExist next s.mem, sched }) := by
  unfold delayFunc at h
  split at h
  case isTrue hz =>
    obtain ⟨rfl, rfl⟩ := Prod.mk.inj (Except.ok.inj h)
    exact .inl ⟨.inl ⟨hz, rfl⟩, rfl⟩
  case isFalse hz =>
    split at h
    case isTrue hneg =>
      obtain ⟨rfl, rfl⟩ := Prod.mk.inj (Except.ok.inj h)
      exact .inl ⟨.inr ⟨hneg, rfl⟩, rfl⟩
    case isFalse hneg =>
      obtain ⟨removed, hremoved, h⟩ := bind_ok.1 h
      obtain ⟨queued, hqueued, h⟩ := bind_ok.1 h
      obtain ⟨⟨next, sched⟩, hnext, h⟩ := bind_ok.1 h
      obtain ⟨u, hu, h⟩ := bind_ok.1 h
      obtain ⟨rfl, rfl⟩ := Prod.mk.inj (Except.ok.inj h)
      have hgrows (n : Nat) : Grows n _ queued := (Grows.removeProcLoop hremoved).trans (.pushWaiting hqueued)
      have hticks := (pushWaiting_ticks hqueued).trans (removeProcLoop_ticks hremoved)
      refine .inr ⟨by omega, rfl, queued, next, sched, ?_, fun n hcurr => ?_, hticks, hnext, ?_⟩
      · rw [(hgrows 0).proc _ (Nat.lt_succ_self _)]
        exact Function.update_self ..
      · refine Grows.trans ?_ (hgrows n)
        apply Grows.alloc hcurr <;> rfl
      · apply contextSwitch_exist hu
        · rfl
        · rfl
        · exact (findReady_keeps hnext).curr.trans (hgrows 0).curr

end Yalnix.Clock
