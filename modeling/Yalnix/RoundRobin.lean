import Mathlib.Data.List.Rotate
import Yalnix.Blocking
import Yalnix.Quantum

namespace Yalnix.RoundRobin

open Loops Machine LoadProgram Processes Queues Kernel Accesses Calls Boot Runs Clock ReadyQueue Blocking

variable {s t u : State} {e : Event} {a b : Sched} {ps : List Nat} {n k : Nat}

def clocks : Event → Nat
  | .clock _ => 1
  | _ => 0

/-- The steps from `s` to `t` with `n` clock interrupts among them, none of which leaves user mode. -/
inductive Ticks (s : State) : Nat → State → Prop
  | refl : State.userMode s → Ticks s 0 s
  | step {n : Nat} {u t : State} {e : Event} : Ticks s n u → Step u e t → State.userMode t → Ticks s (n + clocks e) t

theorem Ticks.userMode (h : Ticks s n t) : State.userMode t := by
  cases h with
  | refl hm => exact hm
  | step _ _ hm => exact hm

structure Stays (s t : State) : Prop where
  cpu : t.cpu = s.cpu
  table : t.mem.regPtr0 = s.mem.regPtr0
  ids : t.fam.processId = s.fam.processId

theorem switched_leaves {kont : Kont} {info : ExceptionInfo} {q : Nat} : ¬ State.userMode (switched kont info q s u) := id

theorem exit_leaves {status : Int} {info : ExceptionInfo} (h : exitFunc status info s = .ok t) : ¬ State.userMode t := by
  obtain ⟨woken, fam, sched, next, sched', mem, -, -, -, -, rfl⟩ := exitFunc_ok h
  exact switched_leaves

theorem call_stays {c : Call} {info : ExceptionInfo} {out : Option ExceptionInfo} (ht : State.userMode t)
    (h : trapKernelHandler c info s = .ok (out, t)) : Stays s t ∧ t.sched = s.sched := by
  cases c with
  | fork =>
      obtain ⟨v, hv, h⟩ := bind_ok.1 h
      obtain ⟨-, rfl⟩ := Prod.mk.inj (Except.ok.inj h)
      obtain ⟨m, m', fam, sched, -, -, -, -, rfl⟩ := forkFunc_ok hv
      exact absurd ht id
  | exec file args =>
      obtain ⟨⟨r, info', v⟩, hv, h⟩ := bind_ok.1 h
      obtain ⟨-, rfl⟩ := Prod.mk.inj (Except.ok.inj h)
      obtain ⟨r', mem, hload, -, rfl⟩ := execFunc_ok hv
      exact ⟨⟨rfl, (loadProgram_moves hload).regPtr0, rfl⟩, rfl⟩
  | exit status =>
      obtain ⟨v, hv, h⟩ := bind_ok.1 h
      obtain ⟨-, rfl⟩ := Prod.mk.inj (Except.ok.inj h)
      exact absurd ht (exit_leaves hv)
  | wait ptr =>
      obtain ⟨⟨res, v⟩, hv, h⟩ := bind_ok.1 h
      obtain ⟨-, rfl⟩ := Prod.mk.inj (Except.ok.inj h)
      rcases waitFunc_ok hv with ⟨-, -, -, rfl⟩ | ⟨-, -, -, next, sched, -, rfl⟩ | ⟨-, pid, fam, hcol, -, rfl⟩
      · exact ⟨⟨rfl, rfl, rfl⟩, rfl⟩
      · exact absurd ht switched_leaves
      · exact ⟨⟨rfl, rfl, ids_processId (collect_ids hcol)⟩, rfl⟩
  | getPid =>
      obtain ⟨-, rfl⟩ := Prod.mk.inj (Except.ok.inj h)
      exact ⟨⟨rfl, rfl, rfl⟩, rfl⟩
  | brk addr =>
      obtain ⟨⟨r, mem⟩, hmem, h⟩ := bind_ok.1 h
      obtain ⟨-, rfl⟩ := Prod.mk.inj (Except.ok.inj h)
      exact ⟨⟨rfl, (brkFunc_moves hmem).regPtr0, rfl⟩, rfl⟩
  | delay clockTicks =>
      obtain ⟨⟨res, v⟩, hv, h⟩ := bind_ok.1 h
      obtain ⟨-, rfl⟩ := Prod.mk.inj (Except.ok.inj h)
      rcases delayFunc_ok hv with ⟨-, rfl⟩ | ⟨-, -, queued, next, sched, -, -, -, -, rfl⟩
      · exact ⟨⟨rfl, rfl, rfl⟩, rfl⟩
      · exact absurd ht switched_leaves

theorem step_stays (hs : State.userMode s) (ht : State.userMode t) (h : Step s e t) :
    Stays s t ∧ ((clocks e = 1 ∧ ∃ delays, tick { s.sched with delayTicks := delays } = .ok t.sched) ∨
      (clocks e = 0 ∧ t.sched = s.sched)) := by
  obtain ⟨hen, hn⟩ := h
  cases e with
  | call c info =>
      obtain ⟨⟨out, v⟩, hcall, rfl⟩ := map_ok.1 hn
      exact (call_stays ht hcall).imp_right fun h => .inr ⟨rfl, h⟩
  | memoryTrap info =>
      obtain ⟨⟨out, v⟩, htrap, rfl⟩ := map_ok.1 hn
      rcases memoryTrap_ok htrap with ⟨-, -, mem, hmem, rfl⟩ | ⟨-, -, hexit⟩
      · exact ⟨⟨rfl, (growStack_moves hmem).regPtr0, rfl⟩, .inr ⟨rfl, rfl⟩⟩
      · exact absurd ht (exit_leaves hexit)
  | fatalTrap info =>
      obtain ⟨⟨out, v⟩, htrap, rfl⟩ := map_ok.1 hn
      obtain ⟨w, hw, h⟩ := bind_ok.1 htrap
      obtain ⟨-, rfl⟩ := Prod.mk.inj (Except.ok.inj h)
      exact absurd ht (exit_leaves hw)
  | clock info =>
      obtain ⟨⟨out, v⟩, hclock, rfl⟩ := map_ok.1 hn
      rcases clockWalk_ok hclock with ⟨-, -, delays, sched, htick, rfl⟩ | ⟨-, -, delays, item, sched, sched', -, -, -, -, rfl⟩
      · exact ⟨⟨rfl, rfl, rfl⟩, .inl ⟨rfl, delays, htick⟩⟩
      · exact absurd ht switched_leaves
  | resume file => exact absurd hs hen
  | kernelBrk addr =>
      obtain ⟨⟨r, mem⟩, hmem, h⟩ := bind_ok.1 hn
      obtain rfl := Except.ok.inj h
      exact ⟨⟨rfl, (setKernelBrk_space hmem).1, rfl⟩, .inr ⟨rfl, rfl⟩⟩
  | userStore vaddr x =>
      obtain ⟨mem, hmem, h⟩ := bind_ok.1 hn
      obtain rfl := Except.ok.inj h
      obtain ⟨f, e, -, -, -, -, rfl⟩ := userStore_ok hmem
      exact ⟨⟨rfl, rfl, rfl⟩, .inr ⟨rfl, rfl⟩⟩

theorem holds_setNext {p : Nat} (h : Holds a (p :: ps)) :
    ∃ b, setNextProc a = .ok (1, b) ∧ Holds b (ps ++ [a.currProc]) ∧ b.currProc = p := by
  obtain ⟨l, hr, hl⟩ := h
  obtain ⟨i, l, rfl, rfl, rfl⟩ := List.map_eq_cons_iff.1 hl
  obtain ⟨c, -, ho, hproc, hset, hr'⟩ := setNext_ok hr
  have hlt (j : Nat) (hj : j ∈ i :: l) : j < a.items.count := (hr.valid j hj).1
  refine ⟨_, hset, ⟨_, hr', ?_⟩, ho.proc i (hlt i List.mem_cons_self)⟩
  dsimp only
  rw [List.map_append, List.map_singleton, hproc]
  exact congrArg (· ++ [a.currProc]) (List.map_congr_left fun j hj => ho.proc j (hlt j (List.mem_cons_of_mem _ hj)))

theorem tick_waits (h : tick a = .ok b) : b.waitingQueueHead = a.waitingQueueHead := by
  rcases tick_ok h with ⟨-, rfl⟩ | ⟨-, c, hc, rfl⟩
  · rfl
  · rcases setNextProc_ok hc with ⟨-, -, rfl⟩ | ⟨-, -, d, head, hpush, -, rfl⟩
    · rfl
    · obtain ⟨next, rfl⟩ := pushProc_ok hpush
      rfl

/-- The third tick gives the turn to the head of the ready queue, and the ticks are counted anew. -/
theorem tick_turns (hs : Holds a ps) (hk : a.ticksPassed = k) :
    ∃ b ps' j, tick a = .ok b ∧ Holds b ps' ∧ b.ticksPassed = (j : Nat) ∧
      b.currProc :: ps' = (a.currProc :: ps).rotate ((min k 2 + 1) / 3) ∧ (ps = [] ∨ min j 2 = (min k 2 + 1) % 3) := by
  let counted : Sched := { a with ticksPassed := a.ticksPassed + 1 }
  have hcounted : counted.ticksPassed = (k + 1 : Nat) := by
    change a.ticksPassed + 1 = _
    omega
  have hholds : Holds counted ps := holds_congr hs rfl rfl rfl rfl
  by_cases hgt : counted.ticksPassed > 2
  · cases ps with
    | nil =>
        obtain ⟨l, hr, hl⟩ := hholds
        obtain rfl := List.map_eq_nil_iff.1 hl
        refine ⟨counted, [], k + 1, ?_, ⟨[], hr, rfl⟩, hcounted, (List.rotate_singleton _ _).symm, .inl rfl⟩
        change (if counted.ticksPassed > 2 then _ else _) = _
        rw [if_pos hgt, setNext_empty hr]
        rfl
    | cons p ps =>
        obtain ⟨b, hb, hholds', hcurr⟩ := holds_setNext hholds
        have hk2 : min k 2 = 2 := by omega
        refine ⟨{ b with ticksPassed := 0 }, ps ++ [a.currProc], 0, ?_, holds_congr hholds' rfl rfl rfl rfl, rfl, ?_, ?_⟩
        · change (if counted.ticksPassed > 2 then _ else _) = _
          rw [if_pos hgt, hb]
          rfl
        · rw [hk2, ← hcurr]
          rfl
        · rw [hk2]
          exact .inr rfl
  · refine ⟨counted, ps, k + 1, if_neg hgt, hholds, hcounted, ?_, .inr (by omega)⟩
    rw [Nat.div_eq_of_lt (by omega), List.rotate_zero]

/-- What is so of the queue and the counter after `n` clock interrupts. -/
structure Turned (s : State) (ps : List Nat) (k n : Nat) (t : State) : Prop where
  stays : Stays s t
  turns : ∃ ps' j, Holds t.sched ps' ∧ t.sched.ticksPassed = (j : Nat) ∧
    t.curr :: ps' = (s.curr :: ps).rotate ((min k 2 + n) / 3) ∧ (ps = [] ∨ min j 2 = (min k 2 + n) % 3)

theorem ticks_turned (hs : Holds s.sched ps) (hk : s.sched.ticksPassed = k) (h : Ticks s n t) : Turned s ps k n t := by
  induction h with
  | refl _ =>
      refine ⟨⟨rfl, rfl, rfl⟩, ps, k, hs, hk, ?_, .inr (by omega)⟩
      rw [Nat.div_eq_of_lt (by omega), List.rotate_zero]
  | @step n u t e hu hstep ht ih =>
      obtain ⟨⟨hcpu, htable, hids⟩, us, i, hholds, hi, hturn, hcount⟩ := ih
      obtain ⟨hstays, hsched⟩ := step_stays hu.userMode ht hstep
      refine ⟨⟨hstays.cpu.trans hcpu, hstays.table.trans htable, hstays.ids.trans hids⟩, ?_⟩
      rcases hsched with ⟨hone, delays, htick⟩ | ⟨hzero, hsame⟩
      · obtain ⟨b, ps', j, hb, hb', hj, hturn', hcount'⟩ := tick_turns (k := i) (a := { u.sched with delayTicks := delays })
          (holds_congr hholds rfl rfl rfl rfl) hi
        obtain rfl := Except.ok.inj (hb.symm.trans htick)
        refine ⟨ps', j, hb', hj, ?_⟩
        change t.curr :: ps' = (u.curr :: us).rotate _ at hturn'
        rcases hcount with rfl | hcount
        · -- no one is ready: the list has one element, however it is turned
          rw [List.rotate_singleton] at hturn ⊢
          rw [hturn, List.rotate_singleton] at hturn'
          exact ⟨hturn', .inl rfl⟩
        · have hlen : us.length = ps.length := by simpa using congrArg List.length hturn
          refine ⟨?_, ?_⟩
          · rw [hturn', hturn, List.rotate_rotate, hone]
            exact congrArg _ (by omega)
          · rcases hcount' with rfl | hcount'
            · exact .inl (List.eq_nil_of_length_eq_zero hlen.symm)
            · exact .inr (by omega)
      · rw [hzero, Nat.add_zero]
        refine ⟨us, i, by rwa [hsame], by rwa [hsame], ?_, hcount⟩
        rw [State.curr, hsame]
        exact hturn

theorem ticks_go_on (info : ExceptionInfo) (hu : State.userMode s) (hs : Holds s.sched ps) (hk : s.sched.ticksPassed = k)
    (hw : s.sched.waitingQueueHead = none) (n : Nat) : ∃ t, Ticks s n t ∧ t.sched.waitingQueueHead = none := by
  induction n with
  | zero => exact ⟨s, .refl hu, hw⟩
  | succ n ih =>
      obtain ⟨t, ht, hwt⟩ := ih
      obtain ⟨ps', j, hholds, hj, -⟩ := (ticks_turned hs hk ht).turns
      obtain ⟨b, us, i, hb, -⟩ := tick_turns hholds hj
      refine ⟨{ t with sched := b, mode := .user }, .step (e := .clock info) ht ⟨ht.userMode, ?_⟩ trivial,
        (tick_waits hb).trans hwt⟩
      have hclock : trapClockHandler info t = .ok (some info, { t with sched := b, mode := .user }) := by
        rw [trapClockHandler, hwt, clockWalk, hb]
        rfl
      rw [next, hclock]
      rfl

/-- As long as no call, trap or expired delay leads to a context switch, the
clock turns the ready queue with `curr_proc` at its front, one place for each
three ticks, while one process has the processor and its table: within three
ticks for each ready process the kernel takes the one that runs for it, and
GetPid tells the one that runs its id. -/
theorem ticks_rename (hu : State.userMode s) (hs : Holds s.sched ps) (hk : s.sched.ticksPassed = k) :
    (∀ n t, Ticks s n t → t.cpu = s.cpu ∧ t.mem.regPtr0 = s.mem.regPtr0 ∧ ∃ ps', Holds t.sched ps' ∧
      t.curr :: ps' = (s.curr :: ps).rotate ((min k 2 + n) / 3)) ∧
    ∀ p ∈ ps, ∃ n ≤ 3 * ps.length, (∀ t, Ticks s n t → t.cpu = s.cpu ∧ t.curr = p ∧ getPid t = s.fam.processId p) ∧
      (s.sched.waitingQueueHead = none → ∃ t, Ticks s n t) := by
  refine ⟨fun n t ht => ?_, fun p hp => ?_⟩
  · obtain ⟨⟨hcpu, htable, -⟩, ps', j, hholds, -, hturn, -⟩ := ticks_turned hs hk ht
    exact ⟨hcpu, htable, ps', hholds, hturn⟩
  · obtain ⟨i, hi, rfl⟩ := List.mem_iff_getElem.1 hp
    refine ⟨3 * (i + 1) - min k 2, by omega, fun t ht => ?_, fun hw => ?_⟩
    · obtain ⟨⟨hcpu, -, hids⟩, ps', j, -, -, hturn, -⟩ := ticks_turned hs hk ht
      have hplaces : (min k 2 + (3 * (i + 1) - min k 2)) / 3 = i + 1 := by omega
      have hcurr : t.curr = ps[i] := by
        have hhead := congrArg List.head? hturn
        rw [hplaces, List.head?_rotate (by simpa using hi)] at hhead
        simpa [hi] using hhead
      exact ⟨hcpu, hcurr, by rw [getPid, hcurr, hids]⟩
    · obtain ⟨t, ht, -⟩ := ticks_go_on smallInfo hu hs hk hw (3 * (i + 1) - min k 2)
      exact ⟨t, ht⟩

theorem small_ticks {s₀ s₁ s₂ s₃ s₄ : State} (h : SmallFamily s₀ s₁ s₂ s₃ s₄) : s₂.sched.ticksPassed = 0 := by
  have hticks₀ : s₀.sched.ticksPassed = 0 := (Quantum.trace_ticks (.boot h.boot)).1
  have hticks₁ : s₁.sched.ticksPassed = s₀.sched.ticksPassed :=
    (Quantum.step_ticks h.fork).elim (fun hyes => absurd hyes.1 Bool.false_ne_true) And.right
  obtain rfl := h.child_eq
  exact hticks₁.trans hticks₀

theorem ticks_rename_small : ∃ s t n, Reachable (fun _ _ => True) smallBoot s ∧ s.curr = 2 ∧ n ≤ 3 ∧ Ticks s n t ∧
    t.cpu = s.cpu ∧ t.curr = 1 := by
  obtain ⟨s₀, s₁, s₂, s₃, s₄, h, -⟩ := small_family
  obtain ⟨hholds, hw⟩ := small_child h
  have hu : State.userMode s₂ := h.exit.1
  have hcurr : s₂.curr = 2 := by
    rw [h.child_eq]
    exact h.forked.2.1
  obtain ⟨n, hn, hall, hex⟩ := (ticks_rename (k := 0) hu hholds (small_ticks h)).2 1 List.mem_cons_self
  obtain ⟨t, ht⟩ := hex hw
  obtain ⟨hcpu, hname, -⟩ := hall t ht
  exact ⟨s₂, t, n, ⟨s₀, h.boot, .tail (.single ⟨_, trivial, h.fork⟩) ⟨_, trivial, h.child⟩⟩, hcurr, hn, ht, hcpu, hname⟩

end Yalnix.RoundRobin
