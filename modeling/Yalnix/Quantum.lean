import Yalnix.CurrProc

namespace Yalnix.Quantum

open Loops Machine LoadProgram Processes Queues Kernel Calls Boot Runs Clock

variable {env : BootEnv} {s t : State} {e : Event} {info : ExceptionInfo}

/-- The part of the delay queue that the clock handler walks over in this step,
if it does. -/
def walked (s : State) : Event → Option Ptr
  | .clock _ => some s.sched.waitingQueueHead
  | .resume _ =>
      match s.mode with
      | .resuming c =>
          match c.kont with
          | .clock item => some (s.sched.items.next item)
          | _ => none
      | _ => none
  | _ => none

def ticks (s : State) (e : Event) : Bool :=
  match walked s e with
  | some x => !expires (s.sched.items.count + 1) x s.sched
  | none => false

/-- `Tick_` puts the current process on the ready queue, and in its place the
one at the head of that queue. -/
def replaced (s t : State) : Bool :=
  s.sched.queueHead.map t.sched.items.proc = some t.curr ∧ t.sched.items.count = s.sched.items.count + 1

/-- Calls of `Tick_` since the current process became current, and since `Tick_`
last replaced one. -/
structure History where
  current : Nat
  replacement : Nat

def History.next (h : History) (s : State) (e : Event) (t : State) : History :=
  if ticks s e then
    if replaced s t then ⟨0, 0⟩ else ⟨h.current + 1, h.replacement + 1⟩
  else
    match t.mode with
    | .resuming _ => { h with current := 0 }
    | _ => h

structure Moment where
  before : State
  history : History
  event : Event
  after : State

inductive Trace (env : BootEnv) : List Moment → State → History → Prop
  | boot {s : State} : kernelStart env = .ok s → Trace env [] s ⟨0, 0⟩
  | step {l : List Moment} {s t : State} {h : History} {e : Event} :
      Trace env l s h → Step s e t → Trace env (l ++ [⟨s, h, e, t⟩]) t (h.next s e t)

/-- The current process is replaced if and only if this is at least its second
tick and the ready queue is not empty. -/
def KeepsQuantum (x : Moment) : Prop :=
  ticks x.before x.event = true →
    (replaced x.before x.after = true ↔ 2 ≤ x.history.current + 1 ∧ x.before.sched.queueSize ≠ 0)

/-- The process has been current for a tick if and only if there were two since
the last replacement, unless no one is ready. -/
def InStep (x : Moment) : Prop :=
  ticks x.before x.event = true → x.before.sched.queueSize = 0 ∨
    (1 ≤ x.history.current ↔ 2 ≤ x.history.replacement)

theorem tick_replaces {delays : Nat → Int} {sched : Sched} (mode : Mode)
    (h : tick { s.sched with delayTicks := delays } = .ok sched) :
    (replaced s { s with sched, mode } = true ↔ 2 ≤ s.sched.ticksPassed ∧ s.sched.queueSize ≠ 0) ∧
      sched.ticksPassed = if replaced s { s with sched, mode } then 0 else s.sched.ticksPassed + 1 := by
  rcases tick_ok h with ⟨hno, rfl⟩ | ⟨hyes, c, hc, rfl⟩
  · have hr : replaced s { s with
        sched := { s.sched with delayTicks := delays, ticksPassed := s.sched.ticksPassed + 1 }, mode } = false := by
      simp [replaced]
    rw [hr]
    exact ⟨⟨nofun, fun h => absurd h hno⟩, rfl⟩
  · rcases setNextProc_ok hc with ⟨hz, -⟩ | ⟨-, -, d, head, hpush, ⟨hhead, -⟩, rfl⟩
    · exact absurd hz hyes.2
    · have hhead : s.sched.queueHead = some head := hhead
      obtain ⟨next, rfl⟩ := pushProc_ok hpush
      refine (fun hr => ⟨iff_of_true hr hyes, (if_pos hr).symm⟩) ?_
      simp [replaced, hhead, State.curr, Items.alloc]

theorem walk_ticks {x : Ptr} {out : Option ExceptionInfo}
    (h : clockWalk info (s.sched.items.count + 1) x s = .ok (out, t)) :
    (expires (s.sched.items.count + 1) x s.sched = false ∧
      ∃ delays sched, tick { s.sched with delayTicks := delays } = .ok sched ∧ t = { s with sched, mode := .user }) ∨
    (expires (s.sched.items.count + 1) x s.sched = true ∧ t.sched.ticksPassed = s.sched.ticksPassed ∧
      State.userMode t = False) := by
  refine (clockWalk_ok h).imp (fun ⟨hx, _, ht⟩ => ⟨hx, ht⟩) ?_
  rintro ⟨hx, -, delays, item, sched, sched', -, -, hremove, hpush, rfl⟩
  refine ⟨hx, ?_, rfl⟩
  have hpushed := push_ticks hpush
  obtain ⟨-, head, tail, prev, next, rfl⟩ := removeWaiting_ok hremove
  exact hpushed

theorem exit_ticks {status : Int} (h : exitFunc status info s = .ok t) :
    t.sched.ticksPassed = s.sched.ticksPassed := by
  obtain ⟨woken, fam, sched, next, sched', mem, -, hwake, hnext, -, rfl⟩ := exitFunc_ok h
  refine (findReady_ticks hnext).trans ?_
  cases woken with
  | none =>
      obtain rfl := Except.ok.inj hwake
      rfl
  | some p => exact push_ticks hwake

theorem step_ticks (h : Step s e t) :
    (ticks s e = true ∧ ∃ delays sched, tick { s.sched with delayTicks := delays } = .ok sched ∧
      t = { s with sched, mode := .user }) ∨
    (ticks s e = false ∧ t.sched.ticksPassed = s.sched.ticksPassed) := by
  obtain ⟨-, hn⟩ := h
  cases e with
  | call c info =>
      refine .inr ⟨rfl, ?_⟩
      obtain ⟨⟨out, u⟩, hcall, rfl⟩ := map_ok.1 hn
      cases c with
      | fork =>
          obtain ⟨v, hv, h⟩ := bind_ok.1 hcall
          obtain ⟨-, rfl⟩ := Prod.mk.inj (Except.ok.inj h)
          obtain ⟨m, m', fam, sched, -, -, -, hpush, rfl⟩ := forkFunc_ok hv
          have hticks := push_ticks hpush
          exact hticks
      | exec file args =>
          obtain ⟨⟨r, info', v⟩, hv, h⟩ := bind_ok.1 hcall
          obtain ⟨-, rfl⟩ := Prod.mk.inj (Except.ok.inj h)
          obtain ⟨r', mem, -, -, rfl⟩ := execFunc_ok hv
          rfl
      | exit status =>
          obtain ⟨v, hv, h⟩ := bind_ok.1 hcall
          obtain ⟨-, rfl⟩ := Prod.mk.inj (Except.ok.inj h)
          exact exit_ticks hv
      | wait ptr =>
          obtain ⟨⟨res, v⟩, hv, h⟩ := bind_ok.1 hcall
          obtain ⟨-, rfl⟩ := Prod.mk.inj (Except.ok.inj h)
          rcases waitFunc_ok hv with ⟨-, -, -, rfl⟩ | ⟨-, -, -, next, sched, hnext, rfl⟩ | ⟨-, pid, fam, -, -, rfl⟩
          · rfl
          · have hticks := findReady_ticks hnext
            exact hticks
          · rfl
      | getPid =>
          obtain ⟨-, rfl⟩ := Prod.mk.inj (Except.ok.inj hcall)
          rfl
      | brk addr =>
          obtain ⟨⟨r, mem⟩, hmem, h⟩ := bind_ok.1 hcall
          obtain ⟨-, rfl⟩ := Prod.mk.inj (Except.ok.inj h)
          rfl
      | delay clockTicks =>
          obtain ⟨⟨res, v⟩, hv, h⟩ := bind_ok.1 hcall
          obtain ⟨-, rfl⟩ := Prod.mk.inj (Except.ok.inj h)
          rcases delayFunc_ok hv with ⟨-, rfl⟩ | ⟨-, -, queued, next, sched, -, -, hticks, hnext, rfl⟩
          · rfl
          · exact (findReady_ticks hnext).trans hticks
  | memoryTrap info =>
      refine .inr ⟨rfl, ?_⟩
      obtain ⟨⟨out, u⟩, htrap, rfl⟩ := map_ok.1 hn
      rcases memoryTrap_ok htrap with ⟨-, -, mem, hmem, rfl⟩ | ⟨-, -, hexit⟩
      · rfl
      · exact exit_ticks hexit
  | fatalTrap info =>
      refine .inr ⟨rfl, ?_⟩
      obtain ⟨⟨out, u⟩, htrap, rfl⟩ := map_ok.1 hn
      obtain ⟨v, hv, h⟩ := bind_ok.1 htrap
      obtain ⟨-, rfl⟩ := Prod.mk.inj (Except.ok.inj h)
      exact exit_ticks hv
  | clock info =>
      obtain ⟨⟨out, u⟩, hclock, rfl⟩ := map_ok.1 hn
      simp only [ticks, walked, Bool.not_eq_true', Bool.not_eq_false']
      exact (walk_ticks hclock).imp_right fun ⟨hx, ht, _⟩ => ⟨hx, ht⟩
  | resume file =>
      obtain ⟨⟨out, u⟩, hres, rfl⟩ := map_ok.1 hn
      unfold resume at hres
      cases hm : s.mode with
      | user | hung =>
          simp only [hm] at hres
          obtain ⟨-, rfl⟩ := Prod.mk.inj (Except.ok.inj hres)
          exact .inr ⟨by simp [ticks, walked, hm], rfl⟩
      | resuming c =>
          simp only [hm] at hres
          cases hk : c.kont with
          | boot pcb2 cmdArgs =>
              simp only [hk] at hres
              obtain ⟨⟨r, info, mem⟩, -, h⟩ := bind_ok.1 hres
              obtain ⟨-, rfl⟩ := Prod.mk.inj (Except.ok.inj h)
              exact .inr ⟨by simp [ticks, walked, hm, hk], rfl⟩
          | fork child | delay =>
              simp only [hk] at hres
              obtain ⟨-, rfl⟩ := Prod.mk.inj (Except.ok.inj hres)
              exact .inr ⟨by simp [ticks, walked, hm, hk], rfl⟩
          | wait =>
              simp only [hk] at hres
              obtain ⟨⟨pid, fam⟩, -, h⟩ := bind_ok.1 hres
              obtain ⟨-, rfl⟩ := Prod.mk.inj (Except.ok.inj h)
              exact .inr ⟨by simp [ticks, walked, hm, hk], rfl⟩
          | clock item =>
              simp only [hk] at hres
              obtain ⟨i, hi, hwalk⟩ := bind_ok.1 hres
              obtain ⟨hi', -, -⟩ := items_deref_ok hi
              obtain rfl := Option.some.inj hi'
              simp only [ticks, walked, hm, hk, Bool.not_eq_true', Bool.not_eq_false']
              exact (walk_ticks hwalk).imp_right fun ⟨hx, ht, _⟩ => ⟨hx, ht⟩
          | exit =>
              simp only [hk] at hres
              obtain ⟨mem, -, h⟩ := bind_ok.1 hres
              obtain ⟨-, rfl⟩ := Prod.mk.inj (Except.ok.inj h)
              exact .inr ⟨by simp [ticks, walked, hm, hk], rfl⟩
  | kernelBrk addr =>
      obtain ⟨⟨r, mem⟩, -, h⟩ := bind_ok.1 hn
      obtain rfl := Except.ok.inj h
      exact .inr ⟨rfl, rfl⟩
  | userStore vaddr x =>
      obtain ⟨mem, -, h⟩ := bind_ok.1 hn
      obtain rfl := Except.ok.inj h
      exact .inr ⟨rfl, rfl⟩

theorem step_history {h : History} (hs : s.sched.ticksPassed = h.replacement) (hst : Step s e t) :
    t.sched.ticksPassed = (h.next s e t).replacement ∧
      (ticks s e = true → (replaced s t = true ↔ 2 ≤ h.replacement ∧ s.sched.queueSize ≠ 0)) := by
  unfold History.next
  rcases step_ticks hst with ⟨ht, delays, sched, htick, rfl⟩ | ⟨ht, hsame⟩
  · obtain ⟨hr, hpassed⟩ := tick_replaces .user htick
    rw [if_pos ht]
    refine ⟨?_, fun _ => ?_⟩
    · change sched.ticksPassed = _
      rw [hpassed]
      split
      · rfl
      · change s.sched.ticksPassed + 1 = (h.replacement + 1 : Nat)
        omega
    · rw [hr]
      omega
  · rw [if_neg (by rw [ht]; exact Bool.false_ne_true)]
    refine ⟨hsame.trans ?_, fun h => absurd (ht.symm.trans h) Bool.false_ne_true⟩
    split <;> exact hs

/-- `ticks_passed` counts the calls of `Tick_` since it last replaced a process. -/
theorem trace_ticks {l : List Moment} {h : History} (ht : Trace env l s h) :
    s.sched.ticksPassed = h.replacement ∧ ∀ x ∈ l, ticks x.before x.event = true →
      (replaced x.before x.after = true ↔ 2 ≤ x.history.replacement ∧ x.before.sched.queueSize ≠ 0) := by
  induction ht with
  | boot hb =>
      obtain ⟨m, m₁, m₂, m₃, m₄, i, i', -, rfl⟩ := kernelStart_ok hb
      exact ⟨rfl, fun x hx => absurd hx List.not_mem_nil⟩
  | step _ hst ih =>
      obtain ⟨hs, hl⟩ := ih
      obtain ⟨hnext, hr⟩ := step_history hs hst
      refine ⟨hnext, fun x hx => ?_⟩
      rcases List.mem_append.1 hx with hx | hx
      · exact hl x hx
      · obtain rfl := List.mem_singleton.1 hx
        exact hr

/-- A run keeps the quantum at each tick if and only if it is in step at each. -/
theorem quantum_iff {l : List Moment} {h : History} (ht : Trace env l s h) :
    (∀ x ∈ l, KeepsQuantum x) ↔ ∀ x ∈ l, InStep x := by
  refine forall₂_congr fun x hx => forall_congr' fun hticks => ?_
  rw [(trace_ticks ht).2 x hx hticks]
  omega

theorem clock_ticks (h : Step s (.clock info) t) (hu : State.userMode t) : ticks s (.clock info) = true := by
  obtain ⟨⟨out, u⟩, hclock, rfl⟩ := map_ok.1 h.2
  rcases walk_ticks hclock with ⟨hx, -⟩ | ⟨-, -, hno⟩
  · simp [ticks, walked, hx]
  · exact absurd hu (by rw [hno]; exact not_false)

theorem tick_counts (h : Step s (.clock info) t) (hu : State.userMode t) (hlt : s.sched.ticksPassed < 2) :
    replaced s t = false ∧ t.sched.ticksPassed = s.sched.ticksPassed + 1 ∧ t.sched.queueSize = s.sched.queueSize ∧
      t.curr = s.curr := by
  rcases step_ticks h with ⟨-, delays, sched, htick, rfl⟩ | ⟨hno, -⟩
  · obtain ⟨hr, -⟩ := tick_replaces .user htick
    refine ⟨Bool.eq_false_iff.2 fun h => by have := (hr.1 h).1; omega, ?_⟩
    rcases tick_ok htick with ⟨-, rfl⟩ | ⟨⟨hpassed, -⟩, -⟩
    · exact ⟨rfl, rfl, rfl⟩
    · exact absurd hpassed (by change ¬ 2 ≤ s.sched.ticksPassed; omega)
  · rw [clock_ticks h hu] at hno
    cases hno

theorem next_quiet (ht : ticks s e = false) : History.next ⟨0, 0⟩ s e t = ⟨0, 0⟩ := by
  rw [History.next, if_neg (by rw [ht]; exact Bool.false_ne_true)]
  split <;> rfl

theorem next_counts {h : History} (ht : ticks s e = true) (hr : replaced s t = false) :
    h.next s e t = ⟨h.current + 1, h.replacement + 1⟩ := by
  rw [History.next, if_pos ht, if_neg (by rw [hr]; exact Bool.false_ne_true)]

theorem atFork_ticks (h : atFork s = true) (file : Option File) : ticks s (.resume file) = false := by
  obtain ⟨c, child, hm, hk⟩ := atFork_kont h
  simp [ticks, walked, hm, hk]

theorem small_trace : ∃ l, ∃ u₁ u₂ : State, Trace smallBoot (l ++ [⟨u₁, ⟨1, 1⟩, .clock smallInfo, u₂⟩]) u₂ ⟨2, 2⟩ ∧
    Trace smallBoot l u₁ ⟨1, 1⟩ ∧ (∀ x ∈ l, InStep x) ∧ l ≠ [] ∧ ¬ KeepsQuantum ⟨u₁, ⟨1, 1⟩, .clock smallInfo, u₂⟩ := by
  obtain ⟨s₀, s₁, s₂, s₃, s₄, hf, hfaults⟩ := small_family
  obtain ⟨u₁, u₂, u₃, h₁, h₂, h₃, hu₃, -, hcurr₃, -⟩ := hfaults.ticks
  have hfork := atFork_ticks hf.forked.1 none
  have t₂ := ((Trace.boot hf.boot).step hf.fork).step hf.child
  rw [next_quiet (s := s₀) rfl, next_quiet hfork] at t₂
  have hu₁ : State.userMode u₁ := h₂.1
  have hu₂ : State.userMode u₂ := h₃.1
  have hp₂ : s₂.sched.ticksPassed = 0 := (trace_ticks t₂).1
  obtain ⟨hr₁, hp₁, -, hcurr₁⟩ := tick_counts h₁ hu₁ (by omega)
  have hk₁ := clock_ticks h₁ hu₁
  have t₃ := t₂.step h₁
  rw [next_counts hk₁ hr₁] at t₃
  obtain ⟨hr₂, -, hq₂, hcurr₂⟩ := tick_counts h₂ hu₂ (by omega)
  have hk₂ := clock_ticks h₂ hu₂
  have t₄ := t₃.step h₂
  rw [next_counts hk₂ hr₂] at t₄
  refine ⟨_, u₁, u₂, t₄, t₃, fun x hx => ?_, by simp, fun hno => ?_⟩
  · simp only [List.nil_append, List.cons_append, List.mem_cons, List.not_mem_nil, or_false] at hx
    rcases hx with rfl | rfl | rfl
    · exact fun h => absurd h Bool.false_ne_true
    · exact fun h => absurd (hfork.symm.trans h) Bool.false_ne_true
    · exact fun _ => .inr (by simp)
  · have hsize : u₁.sched.queueSize ≠ 0 := by
      intro hz
      rcases step_ticks h₃ with ⟨-, delays, sched, htick, rfl⟩ | ⟨hno₃, -⟩
      · rcases tick_ok htick with ⟨-, rfl⟩ | ⟨⟨-, hz'⟩, -⟩
        · have h2 : s₂.curr = 2 := by rw [hf.child_eq]; exact hf.forked.2.1
          exact absurd ((hcurr₂.trans hcurr₁).trans h2) (by rw [show u₂.curr = 1 from hcurr₃]; decide)
        · exact hz' (hq₂.trans hz)
      · rw [clock_ticks h₃ hu₃] at hno₃
        cases hno₃
    have := (hno hk₂).2 ⟨Nat.le_refl _, hsize⟩
    rw [hr₂] at this
    cases this

theorem quantum_small : ∃ l s h, Trace smallBoot l s h ∧ l ≠ [] ∧ ∀ x ∈ l, KeepsQuantum x := by
  obtain ⟨l, u₁, u₂, -, ht, hin, hne, -⟩ := small_trace
  exact ⟨l, u₁, _, ht, hne, (quantum_iff ht).2 hin⟩

/-- The second tick in the child does not replace it by its parent, which is ready. -/
theorem second_tick_early : ∃ l s h, Trace smallBoot l s h ∧ ¬ ∀ x ∈ l, KeepsQuantum x := by
  obtain ⟨l, u₁, u₂, ht, -, -, -, hno⟩ := small_trace
  exact ⟨_, u₂, _, ht, fun hk => hno (hk _ (List.mem_append_right l List.mem_cons_self))⟩

end Yalnix.Quantum
