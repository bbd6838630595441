import Yalnix.ProcessTree
import Yalnix.ReadyQueue

namespace Yalnix.Blocking

open Loops Machine LoadProgram Processes Queues Kernel Chains Forests FamilyTree Calls Boot Runs ProcessTree ReadyQueue

/-- The places in the kernel where a process that may run again was suspended.
After the switch in `WaitFunc` there has to be something to collect. -/
def Resumable (F : Forest) (p : Nat) : Kont → Prop
  | .fork _ => True
  | .wait => F.reports p ≠ []
  | _ => False

/-- The processes apart from the one that gives up the processor: idle waits at
the end of boot, and the others are on the ready queue or wait for a child. -/
structure Parked (s : State) (F : Forest) (ps : List Nat) : Prop where
  represents : Represents s.fam F
  live_iff : ∀ p, F.live p ↔ live s p
  unborn : ∀ p, F.born ≤ p → s.exited p = false
  idle : s.sched.idlePcb = 0
  idle_live : F.live 0
  idle_kont : ∃ pcb args, (s.ctx 0).kont = .boot pcb args
  holds : Holds s.sched ps
  no_delays : s.sched.waitingQueueHead = none ∧ s.sched.waitingQueueSize = 0
  nodup : ps.Nodup
  ready : ∀ p ∈ ps, F.live p ∧ p ≠ 0 ∧ s.fam.waiting p = false ∧ Resumable F p (s.ctx p).kont
  placed : ∀ p, F.live p → p ≠ 0 → p ∈ ps ∨ s.fam.waiting p = true
  waiting : ∀ p, F.live p → s.fam.waiting p = true → p ≠ 0 ∧ F.reports p = [] ∧ F.kids p ≠ [] ∧ (s.ctx p).kont = .wait

structure Scheduled (s : State) (F : Forest) (ps : List Nat) : Prop where
  represents : Represents s.fam F
  live_iff : ∀ p, F.live p ↔ live s p
  unborn : ∀ p, F.born ≤ p → s.exited p = false
  idle : s.sched.idlePcb = 0
  idle_live : F.live 0
  idle_kont : s.curr ≠ 0 → ∃ pcb args, (s.ctx 0).kont = .boot pcb args
  holds : Holds s.sched ps
  no_delays : s.sched.waitingQueueHead = none ∧ s.sched.waitingQueueSize = 0
  nodup : ps.Nodup
  ready : ∀ p ∈ ps, F.live p ∧ p ≠ 0 ∧ s.fam.waiting p = false ∧ Resumable F p (s.ctx p).kont
  placed : ∀ p, F.live p → p ≠ 0 → p = s.curr ∨ p ∈ ps ∨ s.fam.waiting p = true
  waiting : ∀ p, F.live p → s.fam.waiting p = true → p ≠ 0 ∧ F.reports p = [] ∧ F.kids p ≠ [] ∧ (s.ctx p).kont = .wait
  curr_live : F.live s.curr
  curr_awake : s.fam.waiting s.curr = false
  curr_off : s.curr ∉ ps
  idle_last : s.curr = 0 → ∀ p, F.live p → p = 0
  resumes : ∀ c, s.mode = .resuming c →
    (s.curr ≠ 0 ∧ Resumable F s.curr c.kont) ∨ (s.curr = 0 ∧ ∃ pcb args, c.kont = .boot pcb args)
  not_hung : s.mode ≠ .hung

variable {env : BootEnv} {s t : State} {F : Forest} {ps : List Nat} {p q : Nat}

/-- Whoever `FindReadyPcb` finds, no process is left behind. It finds idle only
when no other process is live: the youngest of those that wait would have no child. -/
theorem parked_dispatch {next : Nat} {sched : Sched} (mem : Memory) (cpu : Nat) (hs : Parked s F ps)
    (h : findReadyPcb s.sched = .ok (next, sched)) :
    Scheduled { s with mem, sched := { sched with currProc := next }, cpu, mode := .resuming (s.ctx next) } F ps.tail := by
  cases ps with
  | nil =>
      rw [holds_pop_empty hs.holds] at h
      obtain ⟨rfl, rfl⟩ := Prod.mk.inj (Except.ok.inj h)
      have hcurr : s.sched.idlePcb = 0 := hs.idle
      have hwait (p : Nat) (hp : F.live p) (hne : p ≠ 0) : s.fam.waiting p = true :=
        (hs.placed p hp hne).resolve_left List.not_mem_nil
      refine ⟨hs.represents, hs.live_iff, hs.unborn, hs.idle, hs.idle_live, fun hne => absurd hs.idle hne, ?_,
        hs.no_delays, hs.nodup, hs.ready, fun p hp hne => .inr (.inr (hwait p hp hne)), hs.waiting, ?_, ?_,
        List.not_mem_nil, fun _ p hp => ?_, ?_, nofun⟩
      · exact holds_congr hs.holds rfl rfl rfl rfl
      · exact hcurr ▸ hs.idle_live
      · rw [show s.sched.idlePcb = 0 from hs.idle]
        rw [Bool.eq_false_iff]
        exact fun hw => (hs.waiting 0 hs.idle_live hw).1 rfl
      · by_contra hne
        obtain ⟨q, hq, hpq, hnil⟩ := exists_childless hp
        exact (hs.waiting q hq (hwait q hq (by omega))).2.2.1 hnil
      · rintro c hc
        obtain rfl := Mode.resuming.inj hc
        exact .inr ⟨hs.idle, hcurr ▸ hs.idle_kont⟩
  | cons p ps =>
      obtain ⟨s', l, hpop, hholds, ho⟩ := holds_pop hs.holds
      rw [hpop] at h
      obtain ⟨rfl, rfl⟩ := Prod.mk.inj (Except.ok.inj h)
      obtain ⟨hnot, hnodup⟩ := List.nodup_cons.1 hs.nodup
      obtain ⟨hp, hp0, hpw, hpk⟩ := hs.ready p List.mem_cons_self
      refine ⟨hs.represents, hs.live_iff, hs.unborn, ?_, hs.idle_live, fun _ => hs.idle_kont, ?_, ?_, hnodup,
        fun q hq => hs.ready q (List.mem_cons_of_mem _ hq), fun q hq hne => ?_, hs.waiting, hp, hpw, hnot,
        fun h0 => absurd h0 hp0, ?_, nofun⟩
      · rw [ho.rest]
        exact hs.idle
      · exact holds_congr hholds rfl rfl rfl rfl
      · rw [ho.rest]
        exact hs.no_delays
      · rcases hs.placed q hq hne with hm | hw
        · exact (List.mem_cons.1 hm).imp_right .inl
        · exact .inr (.inr hw)
      · rintro c hc
        obtain rfl := Mode.resuming.inj hc
        exact .inl ⟨hp0, hpk⟩

theorem boot_scheduled (h : kernelStart env = .ok s) (h₀ : env.raw.fam.parent 0 = none)
    (h₁ : env.raw.fam.parent 1 = none) : Scheduled s bootForest [] := by
  have hs := boot_traced h h₀ h₁
  obtain ⟨m, m₁, m₂, m₃, m₄, i, i', -, rfl⟩ := kernelStart_ok h
  have hwaiting (p : Nat) (hp : p < 2) : (createPcb (createPcb (powerOn env).fam).2).2.waiting p = false := by
    obtain rfl | rfl : p = 0 ∨ p = 1 := by omega
    · simp [createPcb, powerOn]
    · simp [createPcb, powerOn]
  have h1 : bootForest.live 1 := (bootForest_live 1).2 (by omega)
  have h0 : bootForest.live 0 := (bootForest_live 0).2 (by omega)
  refine ⟨hs.represents, hs.live_iff, hs.unborn, rfl, h0, fun _ => ⟨1, env.cmdArgs, rfl⟩, ?_, ⟨rfl, rfl⟩,
    List.nodup_nil, fun p hp => absurd hp List.not_mem_nil, fun p hp hne => ?_, fun p hp hw => ?_, h1,
    hwaiting 1 (by omega), List.not_mem_nil, fun h => ?_, fun c hc => ?_, fun hh => ?_⟩
  · refine ⟨[], ⟨⟨none, rfl⟩, fun h => absurd rfl h, rfl, List.nodup_nil, fun a ha => ?_⟩, rfl⟩
    cases ha
  · have := (bootForest_live p).1 hp
    exact .inl (show p = 1 by omega)
  · rw [hwaiting p ((bootForest_live p).1 hp)] at hw
    cases hw
  · cases h
  · cases hc
  · cases hh

theorem fork_scheduled {info : ExceptionInfo} (hs : Scheduled s F ps) (hne : s.curr ≠ 0)
    (h : forkFunc info s = .ok t) : ∃ hp, Scheduled t (F.fork s.curr hp) (ps ++ [s.curr]) := by
  have hp := hs.curr_live
  have hcount := hs.represents.count
  have hborn : s.curr < F.born := F.born_of_live hp
  obtain ⟨m, m', fam, sched, -, -, hlink, hpush, rfl⟩ := forkFunc_ok h
  obtain ⟨fam', hfam, hrep, hwaiting, -⟩ := forkLinks_represents hs.represents hp
  obtain rfl := Except.ok.inj (hlink.symm.trans hfam)
  have hholds : Holds { (createProc s).2.sched with currProc := s.fam.count } ps :=
    holds_congr hs.holds rfl rfl rfl rfl
  obtain ⟨sched', l, hsched, hholds', ho⟩ := holds_push hholds s.curr
  obtain rfl := Except.ok.inj (hpush.symm.trans hsched)
  have hcurr' : sched.currProc = F.born := by
    rw [ho.rest]
    exact hcount
  have hnew : s.exited F.born = false := hs.unborn F.born (Nat.le_refl _)
  have hold {q : Nat} (hq : F.live q) : q ≠ F.born := Nat.ne_of_lt (F.born_of_live hq)
  have hctx {q : Nat} (hq : F.live q) (hqc : q ≠ s.curr) :
      Function.update (saveContext (.fork s.fam.count) info s) s.fam.count
        ⟨s.fam.count, .fork s.fam.count, info⟩ q = s.ctx q := by
    rw [Function.update_of_ne (hcount ▸ hold hq)]
    exact Function.update_of_ne hqc ..
  have hwait {q : Nat} (hq : F.live q) : fam.waiting q = s.fam.waiting q := by
    rw [hwaiting]
    exact Function.update_of_ne (hcount ▸ hold hq) ..
  refine ⟨hp, hrep, ?_, fun q hq => hs.unborn q (Nat.le_of_succ_le hq), ?_, .inl hs.idle_live, fun _ => ?_, ?_, ?_, ?_,
    ?_, ?_, ?_, ?_, ?_, ?_, ?_, ?_, nofun⟩
  · intro q
    change F.live q ∨ q = F.born ↔ q < fam.count ∧ s.exited q = false
    rw [hs.live_iff, live, hrep.count]
    change _ ↔ q < F.born + 1 ∧ _
    constructor
    · rintro (⟨hlt, he⟩ | rfl)
      · exact ⟨by omega, he⟩
      · exact ⟨Nat.lt_succ_self _, hnew⟩
    · rintro ⟨hlt, he⟩
      rcases Nat.lt_succ_iff_lt_or_eq.1 hlt with hlt | rfl
      · exact .inl ⟨by omega, he⟩
      · exact .inr rfl
  · rw [ho.rest]
    exact hs.idle
  · dsimp only
    rw [hctx hs.idle_live (Ne.symm hne)]
    exact hs.idle_kont hne
  · exact holds_congr hholds' rfl rfl rfl rfl
  · rw [ho.rest]
    exact hs.no_delays
  · exact List.nodup_append.2 ⟨hs.nodup, List.nodup_singleton _, fun a ha b hb => by
      rintro rfl
      exact hs.curr_off (List.mem_singleton.1 hb ▸ ha)⟩
  · intro q hq
    rcases List.mem_append.1 hq with hq | hq
    · obtain ⟨hql, hq0, hqw, hqk⟩ := hs.ready q hq
      refine ⟨.inl hql, hq0, (hwait hql).trans hqw, ?_⟩
      dsimp only
      rw [hctx hql (by rintro rfl; exact hs.curr_off hq)]
      generalize (s.ctx q).kont = k at hqk ⊢
      cases k <;> first | exact hqk | skip
      change (F.fork s.curr hp).reports q ≠ []
      rwa [fork_reports hp hql]
    · obtain rfl := List.mem_singleton.1 hq
      refine ⟨.inl hp, hne, (hwait hp).trans hs.curr_awake, ?_⟩
      dsimp only
      rw [Function.update_of_ne (hcount ▸ hold hp)]
      simp [saveContext, Resumable]
  · rintro q (hql | rfl) hq0
    · rcases hs.placed q hql hq0 with rfl | hm | hw
      · exact .inr (.inl (by simp))
      · exact .inr (.inl (by simp [hm]))
      · exact .inr (.inr ((hwait hql).trans hw))
    · exact .inl hcurr'.symm
  · rintro q (hql | rfl) hw
    · rw [hwait hql] at hw
      obtain ⟨hq0, hrep0, hkids, hk⟩ := hs.waiting q hql hw
      have hqc : q ≠ s.curr := by
        rintro rfl
        rw [hs.curr_awake] at hw
        cases hw
      refine ⟨hq0, (fork_reports hp hql).trans hrep0, ?_, ?_⟩
      · rwa [fork_kids hp hql hqc]
      · dsimp only
        rwa [hctx hql hqc]
    · rw [hwaiting, hcount, Function.update_self] at hw
      cases hw
  · change F.live sched.currProc ∨ sched.currProc = F.born
    exact .inr hcurr'
  · change fam.waiting sched.currProc = false
    rw [hcurr', hwaiting, hcount, Function.update_self]
  · change sched.currProc ∉ ps ++ [s.curr]
    rw [hcurr']
    simp only [List.mem_append, List.mem_singleton, not_or]
    exact ⟨fun hm => hold (hs.ready _ hm).1 rfl, by omega⟩
  · intro h0
    change sched.currProc = 0 at h0
    omega
  · rintro c hc
    obtain rfl := Mode.resuming.inj hc
    refine .inl ⟨?_, trivial⟩
    change sched.currProc ≠ 0
    omega

theorem wake_holds {woken : Ptr} {sched : Sched} (h : wake woken s.sched = .ok sched) (hs : Holds s.sched ps) :
    ∃ l, Holds sched (ps ++ woken.toList) ∧ OnlyReady l s.sched sched := by
  cases woken with
  | none =>
      obtain rfl := Except.ok.inj h
      exact ⟨[], by simpa using hs, rfl, Nat.le_refl _, fun _ _ => rfl, fun _ _ => rfl, fun _ _ _ => rfl, fun _ _ => rfl⟩
  | some p =>
      obtain ⟨sched', l, hpush, hholds, ho⟩ := holds_push hs p
      obtain rfl := Except.ok.inj (h.symm.trans hpush)
      exact ⟨l, hholds, ho⟩

theorem exit_scheduled {info : ExceptionInfo} {status : Int} (hs : Scheduled s F ps) (hne : s.curr ≠ 0)
    (h : exitFunc status info s = .ok t) : ∃ ps', Scheduled t (F.exit s.curr status) ps' := by
  have hp := hs.curr_live
  obtain ⟨woken, fam, sched, next, sched', mem, hlinks, hwake, hnext, -, rfl⟩ := exitFunc_ok h
  obtain ⟨woken', fam', hfam, hrep, hwoken, hwaiting, -⟩ := exitLinks_represents hs.represents hp status
  obtain ⟨rfl, rfl⟩ := Prod.mk.inj (Except.ok.inj (hlinks.symm.trans hfam))
  obtain ⟨l, hholds, ho⟩ := wake_holds hwake hs.holds
  have hcount : fam.count = s.fam.count := hrep.count.trans hs.represents.count.symm
  have hctx {q : Nat} (hq : q ≠ s.curr) : saveContext .exit info s q = s.ctx q := Function.update_of_ne hq ..
  have hreports {q : Nat} (hq : F.reports q ≠ []) : (F.exit s.curr status).reports q ≠ [] := by
    change (if s.curr ∈ F.kids q then _ else _) ≠ []
    split
    · simp
    · exact hq
  have hparked : Parked { s with fam, sched, exited := Function.update s.exited s.curr true, ctx := saveContext .exit info s }
      (F.exit s.curr status) (ps ++ woken.toList) := by
    refine ⟨hrep, ?_, ?_, ?_, ⟨hs.idle_live, Ne.symm hne⟩, ?_, hholds, ?_, ?_, ?_, ?_, ?_⟩
    · intro q
      change F.live q ∧ q ≠ s.curr ↔ q < fam.count ∧ Function.update s.exited s.curr true q = false
      rw [hs.live_iff, live, hcount]
      by_cases he : q = s.curr <;> simp [he]
    · intro q hq
      have hlt := F.born_of_live hp
      change F.born ≤ q at hq
      exact (Function.update_of_ne (by omega) ..).trans (hs.unborn q hq)
    · rw [ho.rest]
      exact hs.idle
    · dsimp only
      rw [hctx (Ne.symm hne)]
      exact hs.idle_kont hne
    · rw [ho.rest]
      exact hs.no_delays
    · refine List.nodup_append.2 ⟨hs.nodup, ?_, fun a ha b hb hab => ?_⟩
      · cases woken <;> simp
      · have hw := (hwoken b).1 (Option.mem_toList.1 hb)
        have hr := (hs.ready a ha).2.2.1
        rw [hab, hw.2] at hr
        cases hr
    · intro q hq
      rcases List.mem_append.1 hq with hq | hq
      · obtain ⟨hql, hq0, hqw, hqk⟩ := hs.ready q hq
        have hqc : q ≠ s.curr := by rintro rfl; exact hs.curr_off hq
        refine ⟨⟨hql, hqc⟩, hq0, ?_, ?_⟩
        · dsimp only
          rw [hwaiting q, hqw, ite_self]
        · dsimp only
          rw [hctx hqc]
          generalize (s.ctx q).kont = k at hqk ⊢
          cases k <;> first | exact hqk | skip
          exact hreports hqk
      · have hw : woken = some q := Option.mem_toList.1 hq
        obtain ⟨⟨hql, hk⟩, hqw⟩ := (hwoken q).1 hw
        obtain ⟨hq0, -, -, hqk⟩ := hs.waiting q hql hqw
        have hqc : q ≠ s.curr := by rintro rfl; exact not_kid_of_self hql hk
        refine ⟨⟨hql, hqc⟩, hq0, ?_, ?_⟩
        · dsimp only
          rw [hwaiting q, if_pos hw]
        · dsimp only
          rw [hctx hqc, hqk]
          change (if s.curr ∈ F.kids q then _ else _) ≠ []
          rw [if_pos hk]
          simp
    · rintro q ⟨hql, hqc⟩ hq0
      change q ∈ ps ++ woken.toList ∨ fam.waiting q = true
      by_cases hw : woken = some q
      · exact .inl (List.mem_append_right _ (Option.mem_toList.2 hw))
      · rw [hwaiting q, if_neg hw]
        rcases hs.placed q hql hq0 with h | h | h
        · exact absurd h hqc
        · exact .inl (List.mem_append_left _ h)
        · exact .inr h
    · rintro q ⟨hql, hqc⟩ hqw
      change fam.waiting q = true at hqw
      rw [hwaiting q] at hqw
      by_cases hw : woken = some q
      · rw [if_pos hw] at hqw
        cases hqw
      · rw [if_neg hw] at hqw
        obtain ⟨hq0, hr0, hkids, hqk⟩ := hs.waiting q hql hqw
        have hk : s.curr ∉ F.kids q := fun hk => hw ((hwoken q).2 ⟨⟨hql, hk⟩, hqw⟩)
        refine ⟨hq0, ?_, ?_, ?_⟩
        · change (if s.curr ∈ F.kids q then _ else _) = []
          rw [if_neg hk, hr0]
        · change (F.kids q).erase s.curr ≠ []
          rwa [List.erase_of_not_mem hk]
        · dsimp only
          rw [hctx hqc]
          exact hqk
  exact ⟨_, parked_dispatch mem _ hparked hnext⟩

theorem collect_scheduled {pid : Int} {fam : Family} (hs : Scheduled s F ps) (hmode : t.mode = .user)
    (h : collect s.curr s.fam = .ok (pid, fam)) (ht : t = { s with fam, mode := t.mode }) :
    Scheduled t (F.collect s.curr) ps := by
  have hp := hs.curr_live
  obtain ⟨a, b, l, -, -, hrep, hw, -⟩ := collect_ok hs.represents hp h
  have hcount : fam.count = s.fam.count := hrep.count.trans hs.represents.count.symm
  have hreports {q : Nat} (hq : q ≠ s.curr) : (F.collect s.curr).reports q = F.reports q :=
    Function.update_of_ne hq ..
  rw [ht, hmode]
  refine ⟨hrep, fun q => ?_, hs.unborn, hs.idle, hs.idle_live, hs.idle_kont, hs.holds, hs.no_delays, hs.nodup,
    fun q hq => ?_, ?_, fun q hql hqw => ?_, hs.curr_live, ?_, hs.curr_off, hs.idle_last, nofun, nofun⟩
  · change F.live q ↔ q < fam.count ∧ _
    rw [hs.live_iff, live, hcount]
  · obtain ⟨hql, hq0, hqw, hqk⟩ := hs.ready q hq
    have hqc : q ≠ s.curr := by rintro rfl; exact hs.curr_off hq
    refine ⟨hql, hq0, hw ▸ hqw, ?_⟩
    generalize (s.ctx q).kont = k at hqk ⊢
    cases k <;> first | exact hqk | skip
    change (F.collect s.curr).reports q ≠ []
    rwa [hreports hqc]
  · rw [show ({ s with fam, mode := .user } : State).fam.waiting = s.fam.waiting from hw]
    exact hs.placed
  · have hqw' : s.fam.waiting q = true := hw ▸ hqw
    obtain ⟨hq0, hr0, hkids, hqk⟩ := hs.waiting q hql hqw'
    have hqc : q ≠ s.curr := by
      rintro rfl
      rw [hs.curr_awake] at hqw'
      cases hqw'
    exact ⟨hq0, (hreports hqc).trans hr0, hkids, hqk⟩
  · exact hw ▸ hs.curr_awake

theorem block_scheduled (info : ExceptionInfo) {next : Nat} {sched : Sched} (hs : Scheduled s F ps) (hne : s.curr ≠ 0)
    (hnone : s.fam.exitedChildrenHead s.curr = none) (hkids : s.fam.childrenHead s.curr ≠ none)
    (hnext : findReadyPcb s.sched = .ok (next, sched)) :
    Scheduled (switched .wait info next s { s with
      mem := AddressSpace.switchExist next s.mem
      fam := { s.fam with waiting := Function.update s.fam.waiting s.curr true }
      sched }) F ps.tail := by
  have hp := hs.curr_live
  have hctx {q : Nat} (hq : q ≠ s.curr) : saveContext .wait info s q = s.ctx q := Function.update_of_ne hq ..
  have hparked : Parked { s with
      fam := { s.fam with waiting := Function.update s.fam.waiting s.curr true }
      ctx := saveContext .wait info s } F ps := by
    refine ⟨represents_waiting hs.represents _, hs.live_iff, hs.unborn, hs.idle, hs.idle_live, ?_, hs.holds,
      hs.no_delays, hs.nodup, fun q hq => ?_, fun q hql hq0 => ?_, fun q hql hqw => ?_⟩
    · dsimp only
      rw [hctx (Ne.symm hne)]
      exact hs.idle_kont hne
    · obtain ⟨hql, hq0, hqw, hqk⟩ := hs.ready q hq
      have hqc : q ≠ s.curr := by rintro rfl; exact hs.curr_off hq
      refine ⟨hql, hq0, (Function.update_of_ne hqc ..).trans hqw, ?_⟩
      dsimp only
      rw [hctx hqc]
      exact hqk
    · change q ∈ ps ∨ Function.update s.fam.waiting s.curr true q = true
      rcases hs.placed q hql hq0 with rfl | h | h
      · exact .inr (Function.update_self ..)
      · exact .inl h
      · by_cases hqc : q = s.curr
        · exact .inr (hqc ▸ Function.update_self ..)
        · exact .inr ((Function.update_of_ne hqc ..).trans h)
    · by_cases hqc : q = s.curr
      · subst hqc
        refine ⟨hne, (head_none_iff hs.represents hp).1 hnone, fun h => hkids ((kids_none_iff hs.represents hp).2 h), ?_⟩
        simp [saveContext]
      · change Function.update s.fam.waiting s.curr true q = true at hqw
        rw [Function.update_of_ne hqc] at hqw
        dsimp only
        rw [hctx hqc]
        exact hs.waiting q hql hqw
  exact parked_dispatch _ _ hparked hnext

theorem wait_scheduled {info : ExceptionInfo} {res : Option Int} (hs : Scheduled s F ps) (hne : s.curr ≠ 0)
    (hmode : s.mode = .user) (h : waitFunc info s = .ok (res, t)) : ∃ F' ps', Scheduled t F' ps' := by
  rcases waitFunc_ok h with ⟨-, -, -, rfl⟩ | ⟨hnone, hkids, -, next, sched, hnext, rfl⟩ | ⟨-, pid, fam, hcol, -, rfl⟩
  · exact ⟨F, ps, hs⟩
  · exact ⟨F, _, block_scheduled info hs hne hnone hkids hnext⟩
  · exact ⟨_, ps, collect_scheduled hs hmode hcol rfl⟩

theorem mem_scheduled (hs : Scheduled s F ps) (mem : Memory) {mode : Mode} (hmode : mode = s.mode ∨ mode = .user) :
    Scheduled { s with mem, mode } F ps := by
  refine ⟨hs.represents, hs.live_iff, hs.unborn, hs.idle, hs.idle_live, hs.idle_kont, hs.holds, hs.no_delays, hs.nodup,
    hs.ready, hs.placed, hs.waiting, hs.curr_live, hs.curr_awake, hs.curr_off, hs.idle_last, ?_, ?_⟩
  · rintro c rfl
    exact hs.resumes c (hmode.resolve_right nofun).symm
  · rintro rfl
    exact hs.not_hung (hmode.resolve_right nofun).symm

theorem resume_scheduled {file : Option File} {out : Option ExceptionInfo} (hs : Scheduled s F ps)
    (h : resume file s = .ok (out, t)) : ∃ F' ps', Scheduled t F' ps' := by
  unfold resume at h
  cases hm : s.mode with
  | user | hung =>
      simp only [hm] at h
      obtain ⟨-, rfl⟩ := Prod.mk.inj (Except.ok.inj h)
      exact ⟨F, ps, hs⟩
  | resuming c =>
      simp only [hm] at h
      have hk := hs.resumes c hm
      cases hkont : c.kont with
      | boot pcb2 cmdArgs =>
          simp only [hkont] at h
          obtain ⟨⟨r, info, mem⟩, -, h⟩ := bind_ok.1 h
          obtain ⟨-, rfl⟩ := Prod.mk.inj (Except.ok.inj h)
          exact ⟨F, ps, mem_scheduled hs mem (.inr rfl)⟩
      | fork child =>
          simp only [hkont] at h
          obtain ⟨-, rfl⟩ := Prod.mk.inj (Except.ok.inj h)
          exact ⟨F, ps, mem_scheduled hs s.mem (.inr rfl)⟩
      | wait =>
          simp only [hkont] at h
          obtain ⟨⟨pid, fam⟩, hcol, h⟩ := bind_ok.1 h
          obtain ⟨-, rfl⟩ := Prod.mk.inj (Except.ok.inj h)
          exact ⟨_, ps, collect_scheduled hs rfl hcol rfl⟩
      | delay | clock item | exit => simp [hkont, Resumable] at hk

/-- The calls of the run are Fork, Wait and Exit, and idle makes none. -/
def Blocks (s : State) : Event → Prop
  | .call .fork _ | .call (.exit _) _ | .call (.wait _) _ => s.curr ≠ s.sched.idlePcb
  | .resume _ => True
  | _ => False

theorem step_scheduled {e : Event} (hs : Scheduled s F ps) (he : Blocks s e) (h : Step s e t) :
    ∃ F' ps', Scheduled t F' ps' := by
  obtain ⟨hen, hnext⟩ := h
  cases e with
  | call c info =>
      obtain ⟨⟨out, u⟩, hcall, rfl⟩ := map_ok.1 hnext
      cases c with
      | fork =>
          obtain ⟨v, hv, h⟩ := bind_ok.1 hcall
          obtain ⟨-, rfl⟩ := Prod.mk.inj (Except.ok.inj h)
          obtain ⟨_, hf⟩ := fork_scheduled hs (hs.idle ▸ he) hv
          exact ⟨_, _, hf⟩
      | exit status =>
          obtain ⟨v, hv, h⟩ := bind_ok.1 hcall
          obtain ⟨-, rfl⟩ := Prod.mk.inj (Except.ok.inj h)
          obtain ⟨ps', hf⟩ := exit_scheduled hs (hs.idle ▸ he) hv
          exact ⟨_, ps', hf⟩
      | wait ptr =>
          obtain ⟨⟨res, v⟩, hv, h⟩ := bind_ok.1 hcall
          obtain ⟨-, rfl⟩ := Prod.mk.inj (Except.ok.inj h)
          exact wait_scheduled hs (hs.idle ▸ he) (userMode_iff.1 hen) hv
      | exec | getPid | brk | delay => exact absurd he id
  | resume file =>
      obtain ⟨⟨out, u⟩, hres, rfl⟩ := map_ok.1 hnext
      exact resume_scheduled hs hres
  | memoryTrap | fatalTrap | clock | kernelBrk | userStore => exact absurd he id

theorem reachable_scheduled (h₀ : env.raw.fam.parent 0 = none) (h₁ : env.raw.fam.parent 1 = none)
    (h : Reachable Blocks env t) : ∃ F ps, Scheduled t F ps := by
  obtain ⟨s, hs, hreach⟩ := h
  induction hreach with
  | refl => exact ⟨_, _, boot_scheduled hs h₀ h₁⟩
  | tail _ hstep ih =>
      obtain ⟨F, ps, hs⟩ := ih
      obtain ⟨e, he, hstep⟩ := hstep
      exact step_scheduled hs he hstep

inductive Place (t : State) (ps : List Nat) (p : Nat) : Prop
  | current (hp : p = t.curr) (hoff : ps.count p = 0) (hw : t.fam.waiting p = false)
  | ready (hp : p ≠ t.curr) (hon : ps.count p = 1) (hw : t.fam.waiting p = false)
  | waits (hp : p ≠ t.curr) (hoff : ps.count p = 0) (hw : t.fam.waiting p = true)

/-- In every state of a run of Fork, Wait and Exit calls each live process is in
one place, none waits for nothing, and idle runs only when it is alone. -/
theorem reachable_places (h₀ : env.raw.fam.parent 0 = none) (h₁ : env.raw.fam.parent 1 = none)
    (h : Reachable Blocks env t) :
    ∃ ps, Holds t.sched ps ∧ t.sched.waitingQueueHead = none ∧ t.sched.waitingQueueSize = 0 ∧
      (∀ p, live t p → p ≠ t.sched.idlePcb → Place t ps p) ∧
      (∀ p, live t p → t.fam.waiting p = true →
        t.fam.exitedChildrenHead p = none ∧ t.fam.childrenHead p ≠ none) ∧
      (∀ c, t.mode = .resuming c → c.kont = .wait → t.fam.exitedChildrenHead t.curr ≠ none) ∧
      t.sched.idlePcb ∉ ps ∧
      (t.curr = t.sched.idlePcb → ∀ p, live t p → p = t.sched.idlePcb) := by
  obtain ⟨F, ps, hs⟩ := reachable_scheduled h₀ h₁ h
  have hr := hs.represents
  refine ⟨ps, hs.holds, hs.no_delays.1, hs.no_delays.2, fun p hp hne => ?_, fun p hp hw => ?_, fun c hc hk => ?_, ?_,
    fun hcurr p hp => ?_⟩
  · have hpF := (hs.live_iff p).2 hp
    rw [hs.idle] at hne
    by_cases hcurr : p = t.curr
    · exact .current hcurr (List.count_eq_zero.2 (hcurr ▸ hs.curr_off)) (hcurr ▸ hs.curr_awake)
    · by_cases hm : p ∈ ps
      · exact .ready hcurr (List.count_eq_one_of_mem hs.nodup hm) (hs.ready p hm).2.2.1
      · exact .waits hcurr (List.count_eq_zero.2 hm) (((hs.placed p hpF hne).resolve_left hcurr).resolve_left hm)
  · have hpF := (hs.live_iff p).2 hp
    obtain ⟨-, hr0, hkids, -⟩ := hs.waiting p hpF hw
    exact ⟨(head_none_iff hr hpF).2 hr0, fun h => hkids ((kids_none_iff hr hpF).1 h)⟩
  · rcases hs.resumes c hc with ⟨-, hres⟩ | ⟨-, pcb, args, hb⟩
    · rw [hk] at hres
      exact fun h => hres ((head_none_iff hr hs.curr_live).1 h)
    · rw [hk] at hb
      cases hb
  · rw [hs.idle]
    exact fun h => (hs.ready 0 h).2.1 rfl
  · rw [hs.idle] at hcurr ⊢
    exact hs.idle_last hcurr p ((hs.live_iff p).2 hp)

theorem findReady_holds {a b : Sched} {next : Nat} (hs : Holds a ps) (h : findReadyPcb a = .ok (next, b)) :
    next = ps.headD a.idlePcb ∧ Holds b ps.tail := by
  cases ps with
  | nil =>
      rw [holds_pop_empty hs] at h
      obtain ⟨rfl, rfl⟩ := Prod.mk.inj (Except.ok.inj h)
      exact ⟨rfl, hs⟩
  | cons p ps =>
      obtain ⟨b', l, hb, hholds, -⟩ := holds_pop hs
      rw [hb] at h
      obtain ⟨rfl, rfl⟩ := Prod.mk.inj (Except.ok.inj h)
      exact ⟨rfl, hholds⟩

theorem fork_holds {info : ExceptionInfo} (hs : Holds s.sched ps) (h : forkFunc info s = .ok t) :
    Holds t.sched (ps ++ [s.curr]) := by
  obtain ⟨m, m', fam, sched, -, -, -, hpush, rfl⟩ := forkFunc_ok h
  have hs' : Holds { (createProc s).2.sched with currProc := s.fam.count } ps := holds_congr hs rfl rfl rfl rfl
  obtain ⟨sched', l, hsched, hholds, -⟩ := holds_push hs' s.curr
  obtain rfl := Except.ok.inj (hpush.symm.trans hsched)
  exact hholds

theorem fork_step_holds {info : ExceptionInfo} (hs : Holds s.sched ps) (h : Step s (.call .fork info) t) :
    Holds t.sched (ps ++ [s.curr]) := by
  obtain ⟨⟨out, u⟩, hcall, rfl⟩ := map_ok.1 h.2
  obtain ⟨v, hv, hcall⟩ := bind_ok.1 hcall
  obtain ⟨-, rfl⟩ := Prod.mk.inj (Except.ok.inj hcall)
  exact fork_holds hs hv

theorem small_child {s₀ s₁ s₂ s₃ s₄ : State} (h : SmallFamily s₀ s₁ s₂ s₃ s₄) :
    Holds s₂.sched [1] ∧ s₂.sched.waitingQueueHead = none := by
  obtain ⟨hcurr₀, -⟩ := h.start
  obtain ⟨⟨out, u⟩, hcall, hu⟩ := map_ok.1 h.fork.2
  obtain ⟨v, hv, hcall⟩ := bind_ok.1 hcall
  obtain ⟨-, rfl⟩ := Prod.mk.inj (Except.ok.inj hcall)
  obtain rfl : v = s₁ := hu
  obtain ⟨_, hs⟩ := fork_scheduled (boot_scheduled h.boot rfl rfl) (by omega) hv
  have hholds : Holds v.sched [1] := hcurr₀ ▸ hs.holds
  obtain rfl := h.child_eq
  exact ⟨hholds, hs.no_delays.1⟩

theorem reachable_places_small : ∃ t ps, Reachable Blocks smallBoot t ∧ t.curr = 1 ∧ live t 1 ∧ Holds t.sched ps ∧
    (1 ≠ t.sched.idlePcb → Place t ps 1) := by
  obtain ⟨s₀, s₁, s₂, s₃, s₄, h, -⟩ := small_family
  obtain ⟨hcurr₀, hidle₀, -, -⟩ := h.start
  obtain ⟨-, hcurr₁, hidle₁, -⟩ := h.forked
  have hreach : Reachable Blocks smallBoot s₄ := by
    refine ⟨s₀, h.boot, .tail (.tail (.tail (.single ⟨_, ?_, h.fork⟩) ⟨.resume none, trivial, h.child⟩) ⟨_, ?_, h.exit⟩)
      ⟨.resume none, trivial, h.parent⟩⟩
    · change s₀.curr ≠ s₀.sched.idlePcb
      omega
    · obtain rfl := h.child_eq
      change s₁.curr ≠ s₁.sched.idlePcb
      omega
  obtain ⟨ps, hholds, -, -, hplace, -⟩ := reachable_places rfl rfl hreach
  obtain rfl := h.parent_eq
  exact ⟨_, ps, hreach, h.exited.2.1, h.exited.2.2, hholds, hplace 1 h.exited.2.2⟩

end Yalnix.Blocking
