import Yalnix.Clock
import Yalnix.Runs

namespace Yalnix.CurrProc

open Loops Machine LoadProgram Processes Queues Kernel Chains Accesses Calls Boot Runs Clock

/-- Every context is kept in the pcb of its process, and `curr_proc` is the
process that has the processor and its table. -/
structure Current (s : State) : Prop where
  curr_lt : s.curr < s.fam.count
  idle_lt : s.sched.idlePcb < s.fam.count
  items_lt : ∀ i, i < s.sched.items.count → s.sched.items.proc i < s.fam.count
  owner : ∀ p, p < s.fam.count → (s.ctx p).owner = p
  clock : ∀ p i, p < s.fam.count → (s.ctx p).kont = .clock i →
    i < s.sched.items.count ∧ s.sched.items.freed i = true
  dead : ∀ p, p < s.fam.count → s.exited p = true → (s.ctx p).kont = .exit
  unborn : ∀ p, s.fam.count ≤ p → s.exited p = false
  alive : s.mode = .user → s.exited s.curr = false
  running : s.mode ≠ .hung → s.cpu = s.curr ∧ s.mem.regPtr0 = (s.mem.space s.curr).region0
  resumes : ∀ c, s.mode = .resuming c → c = s.ctx s.curr

variable {env : BootEnv} {s t : State} {info : ExceptionInfo} {kont : Kont} {p q : Nat}

theorem findReady_lt {n : Nat} {a b : Sched} (hitems : ∀ i, i < a.items.count → a.items.proc i < n)
    (hidle : a.idlePcb < n) (h : findReadyPcb a = .ok (p, b)) : p < n := by
  rcases findReady_ok h with ⟨rfl, -⟩ | ⟨item, hlt, rfl, -⟩
  · exact hidle
  · exact hitems item hlt

theorem grows_items {n : Nat} {a b : Sched} (hg : Grows n a b) (ha : ∀ i, i < a.items.count → a.items.proc i < n) :
    ∀ i, i < b.items.count → b.items.proc i < n := by
  intro i hi
  by_cases h : i < a.items.count
  · rw [hg.proc i h]
    exact ha i h
  · exact hg.new i (Nat.not_lt.1 h) hi

/-- What a switch has to leave in order that the process it goes to is current. -/
structure Switches (kont : Kont) (q : Nat) (s u : State) : Prop where
  count : u.fam.count = s.fam.count
  grows : Grows s.fam.count s.sched u.sched
  clock : ∀ i, kont = .clock i → i < u.sched.items.count ∧ u.sched.items.freed i = true
  exited : u.exited = s.exited ∨ kont = .exit ∧ u.exited = Function.update s.exited s.curr true
  table : u.mem.regPtr0 = (u.mem.space q).region0
  next : q < s.fam.count

theorem switched_current {u : State} (hs : Current s) (hm : s.mode = .user) (hu : Switches kont q s u) :
    Current (switched kont info q s u) := by
  have hcpu : s.cpu = s.curr := (hs.running (by simp [hm])).1
  have hcount := hu.count
  have howner (p : Nat) (hp : p < s.fam.count) : (saveContext kont info s p).owner = p := by
    by_cases h : p = s.curr
    · rw [h, saveContext, Function.update_self]
      exact hcpu
    · rw [saveContext, Function.update_of_ne h]
      exact hs.owner p hp
  refine ⟨?_, ?_, ?_, ?_, ?_, ?_, ?_, fun hu => ?_, fun _ => ⟨?_, ?_⟩, fun c hc => (Mode.resuming.inj hc).symm⟩
  · exact hcount ▸ hu.next
  · change u.sched.idlePcb < u.fam.count
    rw [hcount, hu.grows.idle]
    exact hs.idle_lt
  · change ∀ i, i < u.sched.items.count → u.sched.items.proc i < u.fam.count
    rw [hcount]
    exact grows_items hu.grows hs.items_lt
  · exact fun p hp => howner p (hcount ▸ hp)
  · intro p i hp hk
    change (saveContext kont info s p).kont = .clock i at hk
    by_cases h : p = s.curr
    · rw [h, saveContext, Function.update_self] at hk
      exact hu.clock i hk
    · rw [saveContext, Function.update_of_ne h] at hk
      obtain ⟨hlt, hf⟩ := hs.clock p i (hcount ▸ hp) hk
      exact ⟨Nat.lt_of_lt_of_le hlt hu.grows.count, hu.grows.freed i hlt hf⟩
  · intro p hp he
    change u.exited p = true at he
    change (saveContext kont info s p).kont = .exit
    by_cases h : p = s.curr
    · rw [h, saveContext, Function.update_self]
      rcases hu.exited with hex | ⟨hk, -⟩
      · rw [hex, h, hs.alive hm] at he
        cases he
      · exact hk
    · rw [saveContext, Function.update_of_ne h]
      apply hs.dead p (hcount ▸ hp)
      rcases hu.exited with hex | ⟨-, hex⟩
      · rwa [hex] at he
      · rwa [hex, Function.update_of_ne h] at he
  · intro p hp
    change u.fam.count ≤ p at hp
    rw [hcount] at hp
    change u.exited p = false
    rcases hu.exited with hex | ⟨-, hex⟩
    · rw [hex]
      exact hs.unborn p hp
    · have hcurr := hs.curr_lt
      rw [hex, Function.update_of_ne (by omega)]
      exact hs.unborn p hp
  · cases hu
  · exact howner q hu.next
  · exact hu.table

theorem current_congr (hs : Current s) (hcount : t.fam.count = s.fam.count) (hgrows : Grows s.fam.count s.sched t.sched)
    (hctx : t.ctx = s.ctx) (hcpu : t.cpu = s.cpu) (hexited : t.exited = s.exited)
    (hmem : t.mem.regPtr0 = s.mem.regPtr0 ∧ ∀ p, (t.mem.space p).region0 = (s.mem.space p).region0)
    (hmode : t.mode = s.mode ∨ t.mode = .user ∧ s.exited s.curr = false ∧ s.mode ≠ .hung) : Current t := by
  have hc : t.curr = s.curr := hgrows.curr
  refine ⟨?_, ?_, ?_, ?_, fun p i hp hk => ?_, ?_, ?_, fun hu => ?_, fun hh => ?_, fun c hcr => ?_⟩
  · rw [hc, hcount]
    exact hs.curr_lt
  · rw [hgrows.idle, hcount]
    exact hs.idle_lt
  · rw [hcount]
    exact grows_items hgrows hs.items_lt
  · rw [hctx, hcount]
    exact hs.owner
  · rw [hctx] at hk
    obtain ⟨hi, hf⟩ := hs.clock p i (hcount ▸ hp) hk
    exact ⟨Nat.lt_of_lt_of_le hi hgrows.count, hgrows.freed i hi hf⟩
  · rw [hctx, hcount, hexited]
    exact hs.dead
  · rw [hcount, hexited]
    exact hs.unborn
  · rw [hexited, hc]
    rcases hmode with h | ⟨-, h, -⟩
    · exact hs.alive (h ▸ hu)
    · exact h
  · rw [hc, hcpu, hmem.1, hmem.2]
    apply hs.running
    rcases hmode with h | ⟨-, -, h⟩
    · exact h ▸ hh
    · exact h
  · rcases hmode with h | ⟨h, -⟩
    · rw [hc, hctx]
      exact hs.resumes c (h ▸ hcr)
    · rw [h] at hcr
      cases hcr

theorem moves_tables {curr : Nat} {m m' : Memory} (h : Moves curr m m') :
    m'.regPtr0 = m.regPtr0 ∧ ∀ p, (m'.space p).region0 = (m.space p).region0 := ⟨h.regPtr0, h.region0⟩

theorem boot_current (h : kernelStart env = .ok s) : Current s := by
  obtain ⟨m, m₁, m₂, m₃, m₄, i, i', hst, rfl⟩ := kernelStart_ok h
  have h2 {p : Nat} (hp : p < 2) : p = 0 ∨ p = 1 := by omega
  refine ⟨Nat.lt_succ_self 1, Nat.zero_lt_succ 1, nofun, fun p hp => ?_, fun p i hp hk => ?_, fun p hp he => ?_,
    fun _ _ => rfl, fun _ => rfl, fun _ => ⟨rfl, ?_⟩, nofun⟩
  · obtain rfl | rfl := h2 hp <;> rfl
  · obtain rfl | rfl := h2 hp <;> cases hk
  · cases he
  · obtain ⟨k, -, hbuild⟩ := buildRegion0_table hst.build
    obtain ⟨u, hu, henter⟩ := switchNewProc_table hst.enter
    obtain ⟨r, hinit⟩ := hst.init
    have hmoves := loadProgram_moves hinit
    change m₄.regPtr0 = (m₄.space 1).region0
    rw [hmoves.regPtr0, hmoves.region0, henter]
    dsimp only
    rw [hu.space, hbuild.space]
    simp

theorem fork_current (hs : Current s) (hm : s.mode = .user) (h : forkFunc info s = .ok t) : Current t := by
  obtain ⟨m, m', fam, sched, hbuild, hfork, hlink, hpush, rfl⟩ := forkFunc_ok h
  have hcpu : s.cpu = s.curr := (hs.running (by simp [hm])).1
  have hcount : fam.count = s.fam.count + 1 := linkChild_count hlink
  have hgrows : Grows (s.fam.count + 1) { (createProc s).2.sched with currProc := s.fam.count } sched :=
    .push (Nat.lt_succ_of_lt hs.curr_lt) hpush
  have hold {p : Nat} (hp : p < s.fam.count + 1) (hne : p ≠ s.fam.count) : p < s.fam.count := by omega
  have hcurr : sched.currProc = s.fam.count := hgrows.curr
  have hctx (p : Nat) (hp : p < s.fam.count + 1) : p = s.fam.count ∨ p = s.curr ∨
      p < s.fam.count ∧ p ≠ s.fam.count ∧ p ≠ s.curr := by omega
  have hcurr_ne : s.curr ≠ s.fam.count := Nat.ne_of_lt hs.curr_lt
  refine ⟨?_, ?_, ?_, ?_, ?_, ?_, ?_, nofun, fun _ => ⟨hcurr.symm, ?_⟩, fun c hc => ?_⟩
  · change sched.currProc < fam.count
    omega
  · change sched.idlePcb < fam.count
    rw [hgrows.idle, hcount]
    exact Nat.lt_succ_of_lt hs.idle_lt
  · change ∀ i, i < sched.items.count → sched.items.proc i < fam.count
    rw [hcount]
    exact grows_items hgrows fun i hi => Nat.lt_succ_of_lt (hs.items_lt i hi)
  · intro p hp
    change p < fam.count at hp
    dsimp only
    rcases hctx p (hcount ▸ hp) with rfl | rfl | ⟨hlt, hne, hne'⟩
    · rw [Function.update_self]
    · rw [Function.update_of_ne hcurr_ne, saveContext, Function.update_self, hcpu]
    · rw [Function.update_of_ne hne, saveContext, Function.update_of_ne hne', hs.owner p hlt]
  · intro p i hp hk
    change p < fam.count at hp
    dsimp only at hk
    rcases hctx p (hcount ▸ hp) with rfl | rfl | ⟨hlt, hne, hne'⟩
    · rw [Function.update_self] at hk
      cases hk
    · rw [Function.update_of_ne hcurr_ne, saveContext, Function.update_self] at hk
      cases hk
    · rw [Function.update_of_ne hne, saveContext, Function.update_of_ne hne'] at hk
      obtain ⟨hi, hf⟩ := hs.clock p i hlt hk
      exact ⟨Nat.lt_of_lt_of_le hi hgrows.count, hgrows.freed i hi hf⟩
  · intro p hp he
    change p < fam.count at hp
    dsimp only at he ⊢
    rcases hctx p (hcount ▸ hp) with rfl | rfl | ⟨hlt, hne, hne'⟩
    · rw [hs.unborn _ (Nat.le_refl _)] at he
      cases he
    · rw [hs.alive hm] at he
      cases he
    · rw [Function.update_of_ne hne, saveContext, Function.update_of_ne hne']
      exact hs.dead p hlt he
  · intro p hp
    change fam.count ≤ p at hp
    exact hs.unborn p (by omega)
  · obtain ⟨k, -, hb⟩ := buildRegion0_table hbuild
    obtain ⟨u, hu, rfl⟩ := switchFork_table hfork
    change TablePtr.page _ = (u.space sched.currProc).region0
    rw [hcurr, hu.space]
    simp only [setSpace, put_self, childSpace, hb.space]
  · obtain rfl := Mode.resuming.inj hc
    dsimp only [State.curr]
    rw [hcurr, Function.update_self]

theorem wake_grows {n : Nat} {woken : Ptr} {a b : Sched} (hw : ∀ p, woken = some p → p < n) (h : wake woken a = .ok b) :
    Grows n a b := by
  cases woken with
  | none =>
      obtain rfl := Except.ok.inj h
      exact .refl n a
  | some p => exact .push (hw p rfl) h

theorem exit_current {status : Int} (hs : Current s) (hm : s.mode = .user) (h : exitFunc status info s = .ok t) :
    Current t := by
  obtain ⟨woken, fam, sched, next, sched', mem, hlinks, hwake, hnext, hmem, rfl⟩ := exitFunc_ok h
  obtain ⟨hcount, hwoken⟩ := exitLinks_count hlinks
  have hgrows := wake_grows hwoken hwake
  have hitems := grows_items hgrows hs.items_lt
  apply switched_current hs hm
  refine ⟨hcount, hgrows.trans (.findReady hnext), nofun, .inr ⟨rfl, rfl⟩, ?_, ?_⟩
  · obtain ⟨u, hu, rfl⟩ := switchExit_table hmem
    rfl
  · exact findReady_lt hitems (hgrows.idle.symm ▸ hs.idle_lt) hnext

theorem collect_current {pid : Int} {fam : Family} {mode : Mode} (hs : Current s) (hcol : collect s.curr s.fam = .ok (pid, fam))
    (hmode : mode = s.mode ∨ mode = .user ∧ s.exited s.curr = false ∧ s.mode ≠ .hung) : Current { s with fam, mode } :=
  current_congr hs (collect_count hcol) (.refl ..) rfl rfl rfl ⟨rfl, fun _ => rfl⟩ hmode

theorem wait_current {res : Option Int} (hs : Current s) (hm : s.mode = .user) (h : waitFunc info s = .ok (res, t)) :
    Current t := by
  rcases waitFunc_ok h with ⟨-, -, -, rfl⟩ | ⟨-, -, -, next, sched, hnext, rfl⟩ | ⟨-, pid, fam, hcol, -, rfl⟩
  · exact hs
  · apply switched_current hs hm
    exact ⟨rfl, .findReady hnext, nofun, .inl rfl, rfl, findReady_lt hs.items_lt hs.idle_lt hnext⟩
  · exact collect_current hs hcol (.inl rfl)

theorem delay_current {clockTicks : Int} {res : Option Int} (hs : Current s) (hm : s.mode = .user)
    (h : delayFunc clockTicks info s = .ok (res, t)) : Current t := by
  rcases delayFunc_ok h with ⟨-, rfl⟩ | ⟨-, -, queued, next, sched, -, hgrows, -, hnext, rfl⟩
  · exact hs
  · have hq := hgrows _ hs.curr_lt
    apply switched_current hs hm
    refine ⟨rfl, hq.trans (.findReady hnext), nofun, .inl rfl, rfl, ?_⟩
    exact findReady_lt (grows_items hq hs.items_lt) (hq.idle.symm ▸ hs.idle_lt) hnext

theorem mem_current {mem : Memory} (hs : Current s)
    (hmem : mem.regPtr0 = s.mem.regPtr0 ∧ ∀ p, (mem.space p).region0 = (s.mem.space p).region0) :
    Current { s with mem } :=
  current_congr hs rfl (.refl ..) rfl rfl rfl hmem (.inl rfl)

/-- A tick that does not replace `curr_proc` leaves it current, and so does the
switch to a process whose delay has expired. -/
theorem clock_current {out : Option ExceptionInfo} (hs : Current s) (hm : s.mode = .user)
    (hquiet : replaces s.sched = false) (h : trapClockHandler info s = .ok (out, t)) : Current t := by
  rcases clockWalk_ok h with ⟨hexp, -, ticks, sched, htick, rfl⟩ | ⟨-, -, ticks, item, sched, sched', hlt, -, hremove, hpush, rfl⟩
  · refine current_congr (t := { s with sched, mode := .user }) hs rfl ?_ rfl rfl rfl ⟨rfl, fun _ => rfl⟩ (.inl hm.symm)
    rcases tick_ok htick with ⟨-, rfl⟩ | ⟨⟨hpassed, hsize⟩, c, hc, rfl⟩
    · exact .of_eq rfl rfl rfl
    · rcases setNextProc_ok hc with ⟨hz, -⟩ | ⟨-, -, d, head, hpush, ⟨hhead, -⟩, rfl⟩
      · exact absurd hz hsize
      · have hdelay : delayExpires s.sched = false := hexp
        have hp : 2 ≤ s.sched.ticksPassed := hpassed
        have hz : s.sched.queueSize ≠ 0 := hsize
        have hq : s.sched.queueHead = some head := hhead
        have hcurr : s.sched.items.proc head = s.sched.currProc := by
          simpa [replaces, rotates, hdelay, hp, hz, hq] using hquiet
        have hgrows : Grows s.fam.count s.sched d := by
          have hg := Grows.push hs.curr_lt hpush
          exact ⟨hg.curr, hg.idle, hg.count, hg.proc, hg.new, hg.freed⟩
        refine ⟨?_, hgrows.idle, hgrows.count, hgrows.proc, hgrows.new, hgrows.freed⟩
        obtain ⟨next, rfl⟩ := pushProc_ok hpush
        change Function.update s.sched.items.proc s.sched.items.count s.sched.currProc head = s.sched.currProc
        by_cases hnew : head = s.sched.items.count
        · rw [hnew, Function.update_self]
        · rw [Function.update_of_ne hnew, hcurr]
  · have hremoved : Grows s.fam.count s.sched sched := by
      have hg : Grows s.fam.count { s.sched with delayTicks := ticks } sched := .removeWaiting hremove
      exact ⟨hg.curr, hg.idle, hg.count, hg.proc, hg.new, hg.freed⟩
    have hpushed : Grows s.fam.count sched sched' := .push (hs.items_lt item hlt) hpush
    apply switched_current hs hm
    refine ⟨rfl, hremoved.trans hpushed, fun i hi => ?_, .inl rfl, rfl, hs.items_lt item hlt⟩
    obtain rfl := Kont.clock.inj hi
    obtain ⟨-, head, tail, prev, next, rfl⟩ := removeWaiting_ok hremove
    refine ⟨Nat.lt_of_lt_of_le hlt hpushed.count, hpushed.freed item hlt ?_⟩
    exact Function.update_self ..

theorem resume_current {file : Option File} {out : Option ExceptionInfo} (hs : Current s)
    (h : resume file s = .ok (out, t)) : Current t := by
  unfold resume at h
  cases hm : s.mode with
  | user | hung =>
      simp only [hm] at h
      obtain ⟨-, rfl⟩ := Prod.mk.inj (Except.ok.inj h)
      exact hs
  | resuming c =>
      simp only [hm] at h
      have hc := hs.resumes c hm
      have halive (hk : c.kont ≠ .exit) : s.exited s.curr = false := by
        rw [Bool.eq_false_iff]
        exact fun he => hk (hc ▸ hs.dead _ hs.curr_lt he)
      have huser (hk : c.kont ≠ .exit) : Mode.user = s.mode ∨ Mode.user = .user ∧ s.exited s.curr = false ∧ s.mode ≠ .hung :=
        .inr ⟨rfl, halive hk, by simp [hm]⟩
      cases hk : c.kont with
      | boot pcb2 cmdArgs =>
          simp only [hk] at h
          obtain ⟨⟨r, info, mem⟩, hload, h⟩ := bind_ok.1 h
          obtain ⟨-, rfl⟩ := Prod.mk.inj (Except.ok.inj h)
          exact current_congr hs rfl (.refl ..) rfl rfl rfl (moves_tables (loadProgram_moves hload))
            (huser (by simp [hk]))
      | fork child | delay =>
          simp only [hk] at h
          obtain ⟨-, rfl⟩ := Prod.mk.inj (Except.ok.inj h)
          exact current_congr hs rfl (.refl ..) rfl rfl rfl ⟨rfl, fun _ => rfl⟩ (huser (by simp [hk]))
      | wait =>
          simp only [hk] at h
          obtain ⟨⟨pid, fam⟩, hcol, h⟩ := bind_ok.1 h
          obtain ⟨-, rfl⟩ := Prod.mk.inj (Except.ok.inj h)
          rw [← hm] at *
          exact collect_current hs hcol (huser (by simp [hk]))
      | clock item =>
          simp only [hk] at h
          obtain ⟨i, hi, -⟩ := bind_ok.1 h
          obtain ⟨hi', -, hf⟩ := items_deref_ok hi
          obtain rfl := Option.some.inj hi'
          rw [(hs.clock _ item hs.curr_lt (hc ▸ hk)).2] at hf
          cases hf
      | exit =>
          simp only [hk] at h
          obtain ⟨mem, -, h⟩ := bind_ok.1 h
          obtain ⟨-, rfl⟩ := Prod.mk.inj (Except.ok.inj h)
          exact ⟨hs.curr_lt, hs.idle_lt, hs.items_lt, hs.owner, hs.clock, hs.dead, hs.unborn, nofun,
            fun hh => absurd rfl hh, nofun⟩

/-- The kernel reads no queue item that is freed or not set: no clock handler goes on after
the switch to a process whose delay has expired, and Delay finds the end of the ready queue
and its caller not on it. -/
def Fresh (s : State) : Event → Prop
  | .resume _ => ∀ c item, s.mode = .resuming c → c.kont ≠ .clock item
  | .call (.delay clockTicks) _ => 0 < toInt clockTicks → ∃ rs : List Nat, Path s.sched.items.next s.sched.queueHead rs none ∧
      ∀ i ∈ rs, s.sched.items.deref (some i) = .ok i ∧ s.fam.processId (s.sched.items.proc i) ≠ s.fam.processId s.curr
  | _ => True

theorem removeProcLoop_reads {pid k : Nat} {processId : Nat → Nat} {x : Ptr} {a b : Sched}
    (h : removeProcLoop pid processId k x a = .ok b) : ∃ rs : List Nat, Path a.items.next x rs none ∧
      ∀ i ∈ rs, a.items.deref (some i) = .ok i ∧ processId (a.items.proc i) ≠ pid := by
  induction k generalizing x with
  | zero =>
      cases x with
      | none => exact ⟨[], rfl, nofun⟩
      | some item => cases h
  | succ k ih =>
      cases x with
      | none => exact ⟨[], rfl, nofun⟩
      | some item =>
          obtain ⟨i, hi, h⟩ := bind_ok.1 h
          obtain rfl := Option.some.inj (items_deref_ok hi).1
          dsimp only at h
          split at h
          case isTrue =>
            obtain ⟨c, hc, h⟩ := bind_ok.1 h
            obtain ⟨j, hj, -⟩ := bind_ok.1 h
            obtain rfl := Option.some.inj (items_deref_ok hj).1
            exact absurd hj (removed_deref hc)
          case isFalse hne =>
            obtain ⟨c, hc, h⟩ := bind_ok.1 h
            obtain rfl := Except.ok.inj hc
            obtain ⟨j, hj, h⟩ := bind_ok.1 h
            obtain rfl := Option.some.inj (items_deref_ok hj).1
            obtain ⟨rs, hpath, hrs⟩ := ih h
            exact ⟨item :: rs, ⟨rfl, hpath⟩, List.forall_mem_cons.2 ⟨⟨hi, hne⟩, hrs⟩⟩

/-- Where the kernel reads an item that is not there, the model has no next state. -/
theorem step_fresh {e : Event} (hs : Current s) (h : Step s e t) : Fresh s e := by
  obtain ⟨-, hnext⟩ := h
  cases e with
  | resume file =>
      intro c item hm hk
      obtain ⟨⟨out, u⟩, hres, -⟩ := map_ok.1 hnext
      simp only [Kernel.resume, hm, hk] at hres
      obtain ⟨i, hi, -⟩ := bind_ok.1 hres
      obtain ⟨he, -, hf⟩ := items_deref_ok hi
      obtain rfl := Option.some.inj he
      rw [(hs.clock _ item hs.curr_lt (hs.resumes c hm ▸ hk)).2] at hf
      cases hf
  | call c info =>
      cases c with
      | delay clockTicks =>
          intro hpos
          obtain ⟨⟨out, u⟩, hcall, -⟩ := map_ok.1 hnext
          obtain ⟨⟨res, v⟩, hd, -⟩ := bind_ok.1 hcall
          rw [delayFunc, if_neg (by omega), if_neg (by omega)] at hd
          obtain ⟨a, ha, -⟩ := bind_ok.1 hd
          obtain ⟨rs, hpath, hrs⟩ := removeProcLoop_reads ha
          refine ⟨rs, hpath, fun i hi => ?_⟩
          obtain ⟨hderef, hpid⟩ := hrs i hi
          obtain ⟨-, hlt, hfreed⟩ := items_deref_ok hderef
          -- the item that Delay has just allocated is the caller's
          have hne : i ≠ s.sched.items.count := by
            rintro rfl
            exact hpid (congrArg s.fam.processId (Function.update_self ..))
          have hlt : i < s.sched.items.count := Nat.lt_of_le_of_ne (Nat.le_of_lt_succ hlt) hne
          simp only [Function.update_of_ne hne] at hfreed hpid
          exact ⟨items_deref_some hlt hfreed, hpid⟩
      | _ => trivial
  | _ => trivial

/-- And `SetNextProc` puts no other process in the place of `curr_proc`. -/
def Quiet (s : State) (e : Event) : Prop := Fresh s e ∧ ∀ info, e = .clock info → replaces s.sched = false

theorem step_current {e : Event} (hs : Current s) (he : Quiet s e) (h : Step s e t) : Current t := by
  obtain ⟨hen, hnext⟩ := h
  cases e with
  | call c info =>
      obtain ⟨⟨out, u⟩, hcall, rfl⟩ := map_ok.1 hnext
      have hm := userMode_iff.1 hen
      cases c with
      | fork =>
          obtain ⟨v, hv, h⟩ := bind_ok.1 hcall
          obtain ⟨-, rfl⟩ := Prod.mk.inj (Except.ok.inj h)
          exact fork_current hs hm hv
      | exec file args =>
          obtain ⟨⟨r, info', v⟩, hv, h⟩ := bind_ok.1 hcall
          obtain ⟨-, rfl⟩ := Prod.mk.inj (Except.ok.inj h)
          obtain ⟨r', mem, hload, -, rfl⟩ := execFunc_ok hv
          exact mem_current hs (moves_tables (loadProgram_moves hload))
      | exit status =>
          obtain ⟨v, hv, h⟩ := bind_ok.1 hcall
          obtain ⟨-, rfl⟩ := Prod.mk.inj (Except.ok.inj h)
          exact exit_current hs hm hv
      | wait ptr =>
          obtain ⟨⟨res, v⟩, hv, h⟩ := bind_ok.1 hcall
          obtain ⟨-, rfl⟩ := Prod.mk.inj (Except.ok.inj h)
          exact wait_current hs hm hv
      | getPid =>
          obtain ⟨-, rfl⟩ := Prod.mk.inj (Except.ok.inj hcall)
          exact hs
      | brk addr =>
          obtain ⟨⟨r, mem⟩, hmem, h⟩ := bind_ok.1 hcall
          obtain ⟨-, rfl⟩ := Prod.mk.inj (Except.ok.inj h)
          exact mem_current hs (moves_tables (brkFunc_moves hmem))
      | delay clockTicks =>
          obtain ⟨⟨res, v⟩, hv, h⟩ := bind_ok.1 hcall
          obtain ⟨-, rfl⟩ := Prod.mk.inj (Except.ok.inj h)
          exact delay_current hs hm hv
  | memoryTrap info =>
      obtain ⟨⟨out, u⟩, htrap, rfl⟩ := map_ok.1 hnext
      rcases memoryTrap_ok htrap with ⟨-, -, mem, hmem, rfl⟩ | ⟨-, -, hexit⟩
      · exact mem_current hs (moves_tables (growStack_moves hmem))
      · exact exit_current hs (userMode_iff.1 hen.1) hexit
  | fatalTrap info =>
      obtain ⟨⟨out, u⟩, htrap, rfl⟩ := map_ok.1 hnext
      obtain ⟨v, hv, h⟩ := bind_ok.1 htrap
      obtain ⟨-, rfl⟩ := Prod.mk.inj (Except.ok.inj h)
      exact exit_current hs (userMode_iff.1 hen) hv
  | clock info =>
      obtain ⟨⟨out, u⟩, hclock, rfl⟩ := map_ok.1 hnext
      exact clock_current hs (userMode_iff.1 hen) (he.2 info rfl) hclock
  | resume file =>
      obtain ⟨⟨out, u⟩, hres, rfl⟩ := map_ok.1 hnext
      exact resume_current hs hres
  | kernelBrk addr =>
      obtain ⟨⟨r, mem⟩, hmem, h⟩ := bind_ok.1 hnext
      obtain rfl := Except.ok.inj h
      obtain ⟨hptr, hspace⟩ := setKernelBrk_space hmem
      exact mem_current hs ⟨hptr, fun p => by rw [hspace]⟩
  | userStore vaddr x =>
      obtain ⟨mem, hmem, h⟩ := bind_ok.1 hnext
      obtain rfl := Except.ok.inj h
      obtain ⟨f, e, -, -, -, -, rfl⟩ := userStore_ok hmem
      exact mem_current hs ⟨rfl, fun p => rfl⟩

theorem reachable_current (h : Reachable Quiet env t) : Current t := by
  obtain ⟨s, hs, hreach⟩ := h
  induction hreach with
  | refl => exact boot_current hs
  | tail _ hstep ih =>
      obtain ⟨e, he, hstep⟩ := hstep
      exact step_current ih he hstep

/-- In every quiet run `curr_proc` is the process that runs, every context is in
the pcb it belongs to, and stays so whatever the next switch saves. -/
theorem reachable_curr_runs (h : Reachable Quiet env t) :
    (State.userMode t → t.mem.regPtr0 = (t.mem.space t.curr).region0 ∧ t.cpu = t.curr ∧ live t t.curr ∧
      getPid t = t.fam.processId t.cpu ∧
      ∀ kont info p, p < t.fam.count → (saveContext kont info t p).owner = p) ∧
    (∀ c, t.mode = .resuming c → t.mem.regPtr0 = (t.mem.space t.curr).region0 ∧ c = t.ctx t.curr ∧ c.owner = t.curr) := by
  have hs := reachable_current h
  refine ⟨fun hu => ?_, fun c hc => ?_⟩
  · have hm := userMode_iff.1 hu
    obtain ⟨hcpu, hptr⟩ := hs.running (by simp [hm])
    refine ⟨hptr, hcpu, ⟨hs.curr_lt, hs.alive hm⟩, by rw [hcpu]; rfl, fun kont info p hp => ?_⟩
    by_cases hpc : p = t.curr
    · rw [hpc, saveContext, Function.update_self]
      exact hcpu
    · rw [saveContext, Function.update_of_ne hpc]
      exact hs.owner p hp
  · obtain rfl := hs.resumes c hc
    exact ⟨(hs.running (by simp [hc])).2, rfl, hs.owner _ hs.curr_lt⟩

theorem quiet_atFork {file : Option File} (h : atFork s = true) : Quiet s (.resume file) := by
  refine ⟨fun c item hm hk => ?_, nofun⟩
  obtain ⟨child, hfork⟩ := kont_atFork h hm
  cases hk.symm.trans hfork

theorem reachable_curr_runs_small : ∃ t, Reachable Quiet smallBoot t ∧ State.userMode t ∧
    t.mem.regPtr0 = (t.mem.space t.curr).region0 ∧ t.cpu = t.curr := by
  obtain ⟨s₀, s₁, s₂, s₃, s₄, h, -⟩ := small_family
  have hreach : Reachable Quiet smallBoot s₄ :=
    ⟨s₀, h.boot, .tail (.tail (.tail (.single ⟨.call .fork smallInfo, ⟨trivial, nofun⟩, h.fork⟩)
      ⟨_, quiet_atFork h.forked.1, h.child⟩) ⟨.call (.exit 7) smallInfo, ⟨trivial, nofun⟩, h.exit⟩)
      ⟨_, quiet_atFork h.exited.1, h.parent⟩⟩
  obtain rfl := h.parent_eq
  obtain ⟨hptr, hcpu, -⟩ := (reachable_curr_runs hreach).1 trivial
  exact ⟨_, hreach, trivial, hptr, hcpu⟩

/-- Three ticks after the child began to run the kernel takes it for its parent. -/
theorem ticks_replace_small : ∃ t, Reachable (fun _ _ => True) smallBoot t ∧ State.userMode t ∧ t.cpu = 2 ∧ t.curr = 1 ∧
    getPid t = 1 ∧ t.mem.regPtr0 ≠ (t.mem.space t.curr).region0 := by
  obtain ⟨s₀, s₁, s₂, s₃, s₄, h, hf⟩ := small_family
  obtain ⟨u₁, u₂, u₃, h₁, h₂, h₃, hu⟩ := hf.ticks
  refine ⟨u₃, ⟨s₀, h.boot, ?_⟩, hu⟩
  refine .tail (.tail (.tail (.tail (.single ⟨_, trivial, h.fork⟩) ⟨_, trivial, h.child⟩) ⟨_, trivial, h₁⟩)
    ⟨_, trivial, h₂⟩) ⟨_, trivial, h₃⟩

end Yalnix.CurrProc
