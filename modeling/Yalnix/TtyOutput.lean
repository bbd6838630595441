import Yalnix.Terminals
import Yalnix.ReadyQueue
import Yalnix.TtyInput

namespace Yalnix.TtyOutput

open Loops Machine Processes Queues Accesses Chains ReadyQueue Terminals

structure Call where
  tty : Int
  proc : Nat
  buf : Nat
  len : Int

/-- The terminals and what has happened to them: the calls of TtyWrite, and how
many transmissions of a terminal its interrupt has reported. -/
structure Traffic where
  console : Console
  calls : List Call
  completed : Nat → Nat

inductive Event where
  | write (tty : Int) (buf : Nat) (len : Int)
  | transmitted (tty : Nat)
  | received (code : Int) (line : List (BitVec 8))
  | other (sched : Sched) (procs : Nat) (writeQNext : Nat → Ptr)

def startedOn (t : Nat) (s : Traffic) : List (Nat × Int) :=
  (s.console.terminals.started.filter fun x => x.tty = t).map fun x => (x.buf, x.len)

def callsOn (t : Nat) (s : Traffic) : List Call := s.calls.filter fun c => c.tty = t

def wantedOn (t : Nat) (s : Traffic) : List (Nat × Int) := (callsOn t s).map fun c => (c.buf, c.len)

/-- Whose transmission the next interrupt of the terminal reports. -/
def writer (t : Nat) (s : Traffic) : Option Nat := (callsOn t s)[s.completed t]?.map Call.proc

/-- There is one interrupt for each transmission. What else the kernel does may
make any process current, which then goes on, and leaves a ready queue. -/
inductive Step : Traffic → Event → Traffic → Prop
  | write {s : Traffic} {tty : Int} {buf : Nat} {len : Int} {c : Console} :
      ttyWriteFunc tty buf len s.console = .ok c →
      Step s (.write tty buf len) { s with console := c, calls := s.calls ++ [⟨tty, s.console.sched.currProc, buf, len⟩] }
  | transmitted {s : Traffic} {t : Nat} {c : Console} :
      s.completed t < (startedOn t s).length →
      trapTTYTransmitHandler t s.console = .ok c →
      Step s (.transmitted t) { s with console := c, completed := Function.update s.completed t (s.completed t + 1) }
  | received {s : Traffic} {code : Int} {line : List (BitVec 8)} {d : Devices} :
      trapTTYReceiveHandler code line s.console.terminals = .ok d →
      Step s (.received code line) { s with console.terminals := d }
  | other {s : Traffic} {sched : Sched} {procs : Nat} {writeQNext : Nat → Ptr} {ps : List Nat} :
      Holds sched ps →
      Step s (.other sched procs writeQNext)
        { s with console := goOn { s.console with
            sched, terminals := { s.console.terminals with procs, writeQNext } } }

def Runnable (s : Traffic) (p : Nat) : Prop :=
  p = s.console.sched.currProc ∨ ∃ ps, Holds s.console.sched ps ∧ p ∈ ps

/-- One transmission at a time, each of a call's buffer, in the order of the
calls, and none is left when the terminal has completed all that was started. -/
structure InOrder (s : Traffic) : Prop where
  exclusive : ∀ t, t < numTerminals → (startedOn t s).length ≤ s.completed t + 1
  order : ∀ t, t < numTerminals → startedOn t s <+: wantedOn t s
  drained : ∀ t, t < numTerminals → s.completed t = (startedOn t s).length → startedOn t s = wantedOn t s

/-- The interrupt makes the writer runnable and no one else, and whoever was
runnable stays so. -/
def Unblocks (s : Traffic) (t : Nat) (s' : Traffic) : Prop :=
  ∀ p, Runnable s' p ↔ Runnable s p ∨ writer t s = some p

def Meets (s : Traffic) : Event → Traffic → Prop
  | .transmitted t, s' => InOrder s' ∧ Unblocks s t s'
  | _, s' => InOrder s'

/-- No call on a busy terminal, and no transmit interrupt unless the interrupted
process and the writer are on the ready queue already, or both are idle and the
queue is empty. -/
def Allowed (s : Traffic) : Event → Prop
  | .write tty _ _ => ∀ t : Nat, tty = t → s.completed t = (startedOn t s).length
  | .transmitted t => ∃ ps w, Holds s.console.sched ps ∧ writer t s = some w ∧
      if ps = [] then s.console.sched.currProc = s.console.sched.idlePcb ∧ w = s.console.sched.idlePcb
      else s.console.sched.currProc ∈ ps ∧ w ∈ ps
  | _ => True

structure Booted (s : Traffic) : Prop where
  terminals : ∃ d, s.console.terminals = initTerminals d
  started : s.console.terminals.started = []
  kont : ∀ p, s.console.kont p = none
  ready : ∃ ps, Holds s.console.sched ps
  calls : s.calls = []
  completed : ∀ t, s.completed t = 0

inductive Run : Traffic → Prop
  | boot {s : Traffic} : Booted s → Run s
  | step {s s' : Traffic} {e : Event} : Run s → Step s e s' → Allowed s e → Run s'

/-- The lists of a terminal stay empty and its mutex set, so that every call
starts its own transmission. -/
structure Unused (s : Traffic) : Prop where
  writeOut : ∀ t, t < numTerminals → (s.console.terminals.terms t).writeOut = none
  writeQueue : ∀ t, t < numTerminals → (s.console.terminals.terms t).writeQueue = none
  mutex : ∀ t, t < numTerminals → (s.console.terminals.terms t).mutex = 1
  kont : ∀ p, s.console.kont p = none
  ready : ∃ ps, Holds s.console.sched ps
  all : ∀ t, startedOn t s = wantedOn t s
  most : ∀ t, s.completed t ≤ (startedOn t s).length

variable {s s' : Traffic} {c c' : Console} {e : Event} {t buf : Nat} {tty len : Int}

theorem goOn_none (hk : c.kont c.sched.currProc = none) : goOn c = c := by
  simp [goOn, hk]

theorem switchExist_none (hk : ∀ p, c.kont p = none) (next : Nat) :
    switchExist none next c = { c with sched.currProc := next } := by
  have h : Function.update c.kont c.sched.currProc none = c.kont := Function.update_eq_self_iff.2 (hk _).symm
  unfold switchExist
  rw [h]
  exact goOn_none (hk _)

theorem addToLineTail_none (new : Nat) (h : Lines) : addToLineTail none new h = .ok h := rfl

theorem addToProcTail_none (new : Nat) (d : Devices) : addToProcTail none new d = .ok d := rfl

theorem write_ok (hu : Unused s) (h : ttyWriteFunc tty buf len s.console = .ok c) :
    ∃ t : Nat, ∃ next sched, tty = t ∧ t < numTerminals ∧ findReadyPcb s.console.sched = .ok (next, sched) ∧
      c = { s.console with
        terminals := { s.console.terminals with
          lines := (s.console.terminals.lines.alloc buf len).2
          started := s.console.terminals.started ++ [⟨t, buf, len⟩] }
        sched := { sched with currProc := next } } := by
  unfold ttyWriteFunc at h
  dsimp only at h
  obtain ⟨t, hi, ht⟩ := bind_ok.1 h
  obtain ⟨rfl, hlt⟩ := index_ok.1 hi
  rw [hu.writeOut t hlt, hu.writeQueue t hlt, hu.mutex t hlt, addToLineTail_none] at ht
  obtain ⟨lines, hlines, hd⟩ := bind_ok.1 ht
  obtain rfl := Except.ok.inj hlines
  rw [addToProcTail_none] at hd
  obtain ⟨d, hd, hf⟩ := bind_ok.1 hd
  obtain rfl := Except.ok.inj hd
  rw [if_pos rfl] at hf
  obtain ⟨⟨next, sched⟩, hfind, hc⟩ := bind_ok.1 hf
  refine ⟨t, next, sched, rfl, hlt, hfind, (Except.ok.inj hc).symm.trans (switchExist_none ?_ next)⟩
  exact hu.kont

theorem transmit_eq (hu : Unused s) (ht : t < numTerminals) :
    trapTTYTransmitHandler t s.console = (do
      let (next, sched) ← findReadyPcb s.console.sched
      return switchExist none next { s.console with sched }) := by
  unfold trapTTYTransmitHandler ttyTransmitFunc
  rw [index_ok.2 ⟨rfl, ht⟩]
  simp only [hu.writeOut t ht, hu.writeQueue t ht, bind, Except.bind, pure, Except.pure]

theorem transmit_ok (hu : Unused s) (ht : t < numTerminals) (h : trapTTYTransmitHandler t s.console = .ok c) :
    ∃ next sched, findReadyPcb s.console.sched = .ok (next, sched) ∧
      c = { s.console with sched := { sched with currProc := next } } := by
  rw [transmit_eq hu ht] at h
  obtain ⟨⟨next, sched⟩, hfind, hc⟩ := bind_ok.1 h
  refine ⟨next, sched, hfind, (Except.ok.inj hc).symm.trans (switchExist_none ?_ next)⟩
  exact hu.kont

theorem transmit_total (hu : Unused s) (ht : t < numTerminals) : ∃ c, trapTTYTransmitHandler t s.console = .ok c := by
  rw [transmit_eq hu ht]
  obtain ⟨ps, hps⟩ := hu.ready
  cases ps with
  | nil => exact ⟨_, bind_ok.2 ⟨_, holds_pop_empty hps, rfl⟩⟩
  | cons a ps =>
      obtain ⟨sched, l, hpop, -⟩ := holds_pop hps
      exact ⟨_, bind_ok.2 ⟨_, hpop, rfl⟩⟩

theorem find_holds {sched sched' : Sched} {ps : List Nat} {next : Nat} (hp : Holds sched ps)
    (h : findReadyPcb sched = .ok (next, sched')) :
    Holds { sched' with currProc := next } ps.tail ∧ next = ps.headD sched.idlePcb := by
  cases ps with
  | nil =>
      rw [holds_pop_empty hp] at h
      obtain ⟨rfl, rfl⟩ := Prod.mk.inj (Except.ok.inj h)
      exact ⟨holds_congr hp rfl rfl rfl rfl, rfl⟩
  | cons a ps =>
      obtain ⟨u, l, hu, hps, -⟩ := holds_pop hp
      rw [hu] at h
      obtain ⟨rfl, rfl⟩ := Prod.mk.inj (Except.ok.inj h)
      exact ⟨holds_congr hps rfl rfl rfl rfl, rfl⟩

theorem runnable_iff {ps : List Nat} (hp : Holds s.console.sched ps) (p : Nat) :
    Runnable s p ↔ p = s.console.sched.currProc ∨ p ∈ ps := by
  refine or_congr_right ⟨fun ⟨qs, hq, h⟩ => ?_, fun h => ⟨ps, hp, h⟩⟩
  rwa [holds_unique hp hq]

theorem inOrder_iff (hu : Unused s) :
    InOrder s ↔ ∀ t, t < numTerminals → (startedOn t s).length ≤ s.completed t + 1 :=
  ⟨InOrder.exclusive, fun h => ⟨h, fun t _ => hu.all t ▸ List.prefix_rfl, fun t _ _ => hu.all t⟩⟩

theorem startedOn_write (t₀ : Nat) {d : Devices} (hd : d.started = s.console.terminals.started ++ [⟨t₀, buf, len⟩])
    (hs : s'.console.terminals = d) (t : Nat) :
    startedOn t s' = startedOn t s ++ if t₀ = t then [(buf, len)] else [] := by
  subst hs
  unfold startedOn
  rw [hd, List.filter_append, List.map_append]
  split <;> simp [*]

theorem wantedOn_write (t₀ p : Nat) (hs : s'.calls = s.calls ++ [⟨t₀, p, buf, len⟩]) (t : Nat) :
    wantedOn t s' = wantedOn t s ++ if t₀ = t then [(buf, len)] else [] := by
  unfold wantedOn callsOn
  rw [hs, List.filter_append, List.map_append]
  split
  case isTrue ht => simp [ht]
  case isFalse ht =>
    have hcast : ¬ (t₀ : Int) = t := fun h => ht (Int.ofNat_inj.1 h)
    simp [hcast]

theorem unused_step (hu : Unused s) (h : Step s e s') : Unused s' := by
  cases h with
  | @write tty buf len c hw =>
      obtain ⟨t₀, next, sched, rfl, hlt, hfind, rfl⟩ := write_ok hu hw
      obtain ⟨ps, hps⟩ := hu.ready
      refine ⟨hu.writeOut, hu.writeQueue, hu.mutex, hu.kont, ⟨_, (find_holds hps hfind).1⟩, fun t => ?_, fun t => ?_⟩
      · rw [startedOn_write t₀ rfl rfl, wantedOn_write t₀ _ rfl, hu.all t]
      · rw [startedOn_write t₀ rfl rfl, List.length_append]
        exact Nat.le_add_right_of_le (hu.most t)
  | @transmitted t c hlt ht =>
      have htty : t < numTerminals := by
        obtain ⟨k, hk, -⟩ := bind_ok.1 ht
        obtain ⟨hkt, hk⟩ := index_ok.1 hk
        omega
      obtain ⟨next, sched, hfind, rfl⟩ := transmit_ok hu htty ht
      obtain ⟨ps, hps⟩ := hu.ready
      refine ⟨hu.writeOut, hu.writeQueue, hu.mutex, hu.kont, ⟨_, (find_holds hps hfind).1⟩, hu.all, fun t' => ?_⟩
      change Function.update s.completed t (s.completed t + 1) t' ≤ (startedOn t' s).length
      by_cases he : t' = t
      · subst he
        rwa [Function.update_self]
      · rw [Function.update_of_ne he]
        exact hu.most t'
  | @received code line d hd =>
      obtain ⟨hterms, hstarted⟩ := TtyInput.receive_same hd
      have hon (t : Nat) : startedOn t { s with console.terminals := d } = startedOn t s := by
        unfold startedOn
        rw [hstarted]
      refine ⟨?_, ?_, ?_, hu.kont, hu.ready, fun t => (hon t).trans (hu.all t), fun t => ?_⟩
      · simpa only [hterms] using hu.writeOut
      · simpa only [hterms] using hu.writeQueue
      · simpa only [hterms] using hu.mutex
      · rw [hon t]
        exact hu.most t
  | @other sched procs writeQNext ps hps =>
      rw [goOn_none]
      · exact ⟨hu.writeOut, hu.writeQueue, hu.mutex, hu.kont, ⟨ps, hps⟩, hu.all, hu.most⟩
      · exact hu.kont _

theorem writer_some (hu : Unused s) (hlt : s.completed t < (startedOn t s).length) : ∃ w, writer t s = some w := by
  rw [hu.all t, wantedOn, List.length_map] at hlt
  exact ⟨_, by rw [writer, List.getElem?_eq_getElem hlt, Option.map_some]⟩

theorem unblocks_iff (hu : Unused s) (ht : t < numTerminals) (hlt : s.completed t < (startedOn t s).length)
    (hc : trapTTYTransmitHandler t s.console = .ok c) {completed : Nat → Nat} :
    Unblocks s t { s with console := c, completed } ↔ Allowed s (.transmitted t) := by
  obtain ⟨next, sched, hfind, rfl⟩ := transmit_ok hu ht hc
  obtain ⟨ps, hps⟩ := hu.ready
  obtain ⟨w, hw⟩ := writer_some hu hlt
  obtain ⟨hps', hnext⟩ := find_holds hps hfind
  have hallowed : Allowed s (.transmitted t) ↔
      if ps = [] then s.console.sched.currProc = s.console.sched.idlePcb ∧ w = s.console.sched.idlePcb
      else s.console.sched.currProc ∈ ps ∧ w ∈ ps := by
    refine ⟨fun ⟨qs, v, hq, hv, h⟩ => ?_, fun h => ⟨ps, w, hps, hw, h⟩⟩
    obtain rfl := holds_unique hq hps
    obtain rfl := Option.some.inj (hv.symm.trans hw)
    exact h
  rw [hallowed]
  have hafter (p : Nat) : Runnable { s with
      console := { s.console with sched := { sched with currProc := next } }, completed } p ↔
      p = next ∨ p ∈ ps.tail := runnable_iff hps' p
  simp only [Unblocks, hafter, runnable_iff hps, hw, Option.some.injEq]
  cases ps with
  | nil =>
      obtain rfl : next = s.console.sched.idlePcb := hnext
      rw [if_pos rfl]
      constructor
      · intro h
        exact ⟨by simpa using (h s.console.sched.currProc).2 (.inl (.inl rfl)), by simpa using (h w).2 (.inr rfl)⟩
      · rintro ⟨hcurr, rfl⟩ p
        rw [hcurr]
        simp [eq_comm]
  | cons a ps =>
      obtain rfl : next = a := hnext
      rw [if_neg (List.cons_ne_nil _ _), List.tail_cons]
      constructor
      · intro h
        exact ⟨List.mem_cons.2 ((h s.console.sched.currProc).2 (.inl (.inl rfl))), List.mem_cons.2 ((h w).2 (.inr rfl))⟩
      · rintro ⟨hcurr, hmem⟩ p
        rw [← List.mem_cons]
        refine ⟨fun h => .inl (.inr h), ?_⟩
        rintro ((rfl | h) | rfl)
        · exact hcurr
        · exact h
        · exact hmem

theorem write_inOrder_iff (hu : Unused s) (ho : InOrder s) (hu' : Unused s') (t₀ : Nat) (ht₀ : t₀ < numTerminals)
    (hon : ∀ t, startedOn t s' = startedOn t s ++ if t₀ = t then [(buf, len)] else [])
    (hc : s'.completed = s.completed) :
    InOrder s' ↔ s.completed t₀ = (startedOn t₀ s).length := by
  rw [inOrder_iff hu', hc]
  have hmost := hu.most t₀
  constructor
  · intro h
    have := h t₀ ht₀
    rw [hon, if_pos rfl, List.length_append, List.length_singleton] at this
    omega
  · intro h t ht
    rw [hon]
    by_cases he : t₀ = t
    · subst he
      rw [if_pos rfl, List.length_append, List.length_singleton]
      omega
    · rw [if_neg he, List.append_nil]
      exact ho.exclusive t ht

theorem meets_iff (hu : Unused s) (ho : InOrder s) (h : Step s e s') : Meets s e s' ↔ Allowed s e := by
  have hu' := unused_step hu h
  cases h with
  | @write tty buf len c hw =>
      obtain ⟨t₀, next, sched, rfl, hlt, -, rfl⟩ := write_ok hu hw
      let u : Traffic := { s with
        console := { s.console with
          terminals := { s.console.terminals with
            lines := (s.console.terminals.lines.alloc buf len).2
            started := s.console.terminals.started ++ [⟨t₀, buf, len⟩] }
          sched := { sched with currProc := next } }
        calls := s.calls ++ [⟨t₀, s.console.sched.currProc, buf, len⟩] }
      have hon (t : Nat) : startedOn t u = startedOn t s ++ if t₀ = t then [(buf, len)] else [] :=
        startedOn_write t₀ rfl rfl t
      refine (write_inOrder_iff hu ho hu' t₀ hlt hon rfl).trans ?_
      refine ⟨fun h t ht => ?_, fun h => h t₀ rfl⟩
      obtain rfl := Int.ofNat.inj ht
      exact h
  | @transmitted t c hlt ht =>
      have htty : t < numTerminals := by
        obtain ⟨k, hk, -⟩ := bind_ok.1 ht
        obtain ⟨hkt, hk⟩ := index_ok.1 hk
        omega
      refine Iff.trans (and_iff_right ?_) (unblocks_iff hu htty hlt ht)
      obtain ⟨next, sched, -, rfl⟩ := transmit_ok hu htty ht
      rw [inOrder_iff hu']
      intro t' ht'
      change (startedOn t' s).length ≤ Function.update s.completed t (s.completed t + 1) t' + 1
      have := ho.exclusive t' ht'
      by_cases he : t' = t
      · subst he
        rw [Function.update_self]
        omega
      · rwa [Function.update_of_ne he]
  | received hd =>
      obtain ⟨-, hstarted⟩ := TtyInput.receive_same hd
      refine iff_true_intro ((inOrder_iff hu').2 fun t ht => ?_)
      have := ho.exclusive t ht
      unfold startedOn at this ⊢
      rwa [hstarted]
  | other hps =>
      refine iff_true_intro ((inOrder_iff hu').2 fun t ht => ?_)
      rw [goOn_none]
      · exact ho.exclusive t ht
      · exact hu.kont _

theorem run_unused (h : Run s) : Unused s ∧ InOrder s := by
  induction h with
  | @boot s h =>
      obtain ⟨d, hd⟩ := h.terminals
      have hterm (t : Nat) (ht : t < numTerminals) : s.console.terminals.terms t = ⟨none, none, none, none, 1⟩ := by
        rw [hd]
        exact if_pos ht
      have hstarted (t : Nat) : startedOn t s = [] := by rw [startedOn, h.started]; rfl
      have hwanted (t : Nat) : wantedOn t s = [] := by rw [wantedOn, callsOn, h.calls]; rfl
      have hu : Unused s := ⟨fun t ht => by rw [hterm t ht], fun t ht => by rw [hterm t ht],
        fun t ht => by rw [hterm t ht], h.kont, h.ready, fun t => (hstarted t).trans (hwanted t).symm,
        fun t => by rw [h.completed t]; exact Nat.zero_le _⟩
      refine ⟨hu, (inOrder_iff hu).2 fun t _ => ?_⟩
      rw [hstarted t]
      exact Nat.zero_le _
  | @step s s' e _ hs ha ih =>
      obtain ⟨hu, ho⟩ := ih
      have hm := (meets_iff hu ho hs).2 ha
      refine ⟨unused_step hu hs, ?_⟩
      cases e with
      | transmitted t => exact hm.1
      | _ => exact hm

/-- While only allowed steps have been made, the output is in order, and the
next step keeps the protocol if and only if it is allowed as well. -/
theorem output_protocol_iff (h : Run s) :
    InOrder s ∧ ∀ e s', Step s e s' → (Meets s e s' ↔ Allowed s e) := by
  obtain ⟨hu, ho⟩ := run_unused h
  exact ⟨ho, fun e s' hs => meets_iff hu ho hs⟩

def firstTraffic (curr : Nat) : Traffic where
  console := ⟨⟨⟨0, fun _ => false, fun _ => none, fun _ => 0, fun _ => 0, fun _ => none⟩, none, none, 0, none, none, 0,
    fun _ => 0, curr, 0, 0⟩, initTerminals TtyInput.freshDevices, fun _ => none⟩
  calls := []
  completed := fun _ => 0

theorem firstTraffic_booted (curr : Nat) : Booted (firstTraffic curr) :=
  ⟨⟨_, rfl⟩, rfl, fun _ => rfl, ⟨[], [], ⟨⟨none, rfl⟩, fun h => absurd rfl h, rfl, List.nodup_nil, nofun⟩, rfl⟩, rfl,
    fun _ => rfl⟩

theorem firstTraffic_write (curr : Nat) :
    ∃ s' s'', Step (firstTraffic curr) (.write 0 70 3) s' ∧ Run s' ∧ Step s' (.transmitted 0) s'' ∧
      (Allowed s' (.transmitted 0) ↔ curr = 0) := by
  have h₀ : Run (firstTraffic curr) := .boot (firstTraffic_booted curr)
  obtain ⟨s', h₁, ha, hq, hcalls, hdone, hc, hi⟩ : ∃ s', Step (firstTraffic curr) (.write 0 70 3) s' ∧
      Allowed (firstTraffic curr) (.write 0 70 3) ∧ s'.console.sched.queueSize = 0 ∧
      s'.calls = [⟨0, curr, 70, 3⟩] ∧ s'.completed 0 = 0 ∧ s'.console.sched.currProc = 0 ∧
      s'.console.sched.idlePcb = 0 := by
    obtain ⟨c, hc⟩ : ∃ c, ttyWriteFunc 0 70 3 (firstTraffic curr).console = .ok c := ⟨_, rfl⟩
    have h₁ := Step.write hc
    obtain ⟨t, next, sched, -, -, hfind, rfl⟩ := write_ok (run_unused h₀).1 hc
    obtain ⟨rfl, rfl⟩ := Prod.mk.inj (Except.ok.inj hfind)
    refine ⟨_, h₁, fun t ht => ?_, rfl, rfl, rfl, rfl, rfl⟩
    obtain rfl : t = 0 := by omega
    rfl
  have hr := h₀.step h₁ ha
  have hlt : s'.completed 0 < (startedOn 0 s').length := by
    rw [(run_unused hr).1.all, hdone]
    simp [wantedOn, callsOn, hcalls]
  have hw : writer 0 s' = some curr := by simp [writer, callsOn, hcalls, hdone]
  obtain ⟨c, h₂⟩ := transmit_total (run_unused hr).1 (t := 0) (by decide)
  obtain ⟨ps, hps⟩ := (run_unused hr).1.ready
  have hnil (qs : List Nat) (hqs : Holds s'.console.sched qs) : qs = [] := by
    have hlen := holds_size hqs
    exact List.length_eq_zero_iff.1 (by omega)
  refine ⟨s', _, h₁, hr, .transmitted hlt h₂, ⟨fun ⟨qs, w, hqs, hw', h⟩ => ?_, fun h => ?_⟩⟩
  · rw [if_pos (hnil qs hqs)] at h
    exact (Option.some.inj (hw.symm.trans hw')).trans (h.2.trans hi)
  · refine ⟨ps, curr, hps, hw, ?_⟩
    rw [if_pos (hnil ps hps)]
    exact ⟨hc.trans hi.symm, h.trans hi.symm⟩

theorem output_protocol_small :
    ∃ s s', Run s ∧ Step s (.transmitted 0) s' ∧ InOrder s ∧ Meets s (.transmitted 0) s' := by
  obtain ⟨s, s', -, hr, hs, ha⟩ := firstTraffic_write 0
  obtain ⟨ho, hm⟩ := output_protocol_iff hr
  exact ⟨s, s', hr, hs, ho, (hm _ _ hs).2 (ha.2 rfl)⟩

/-- Process 1 writes a line. The interrupt that reports it makes no one runnable. -/
theorem writer_stays_blocked :
    ∃ s s' s'', Booted s ∧ Step s (.write 0 70 3) s' ∧ Step s' (.transmitted 0) s'' ∧
      ¬ Meets s' (.transmitted 0) s'' := by
  obtain ⟨s', s'', h₁, hr, h₂, ha⟩ := firstTraffic_write 1
  obtain ⟨hu, ho⟩ := run_unused hr
  refine ⟨firstTraffic 1, s', s'', firstTraffic_booted 1, h₁, h₂, fun hm => ?_⟩
  exact absurd (ha.1 ((meets_iff hu ho h₂).1 hm)) (by decide)

end Yalnix.TtyOutput
