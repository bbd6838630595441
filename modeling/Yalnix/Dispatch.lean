import Yalnix.Blocking
import Yalnix.ProcessSystem

namespace Yalnix.Dispatch

open Loops Machine LoadProgram Processes Queues Kernel Forests FamilyTree Calls Boot Runs ProcessTree ReadyQueue Blocking
open ProcessSystem (System Act)

variable {env : BootEnv} {s t u : State} {o : System} {F : Forest} {ps : List Nat} {info : ExceptionInfo} {e : Event} {n p q : Nat}

/-- What a step means to the scheduler, if anything. -/
def act (s : State) : Event → Option Act
  | .call .fork _ => some .fork
  | .call (.exit _) _ => some (.exit 0)
  | .call (.wait _) _ => some .wait
  | .memoryTrap info => if growsStack s info then none else some (.exit 1)
  | .fatalTrap _ => some (.exit 1)
  | .resume _ => some .resume
  | _ => none

def taken (t : State) : Option Act → Nat
  | some (.exit _) => 1
  | some .wait => if State.userMode t then 0 else 1
  | _ => 0

/-- There are no clock interrupts and no Delay calls, and idle makes no calls and no traps. -/
def Undelayed (s : State) : Event → Prop
  | .clock _ | .call (.delay _) _ => False
  | .call _ _ | .memoryTrap _ | .fatalTrap _ => s.curr ≠ s.sched.idlePcb
  | _ => True

/-- Linked lists, flags and contexts stand for the system. A process that does
not run is in Wait if its context says so. -/
structure Refines (s : State) (o : System) : Prop where
  scheduled : Scheduled s o.forest o.ready
  curr : s.curr = o.curr
  asleep : ∀ q, o.forest.live q → q ≠ s.curr → (o.inWait q = true ↔ (s.ctx q).kont = .wait)
  resuming : ∀ c, s.mode = .resuming c → (o.inWait s.curr = true ↔ c.kont = .wait)
  user : s.mode = .user → o.inWait s.curr = false

theorem waiting_iff (hr : Refines s o) (hq : o.forest.live q) (hne : q ≠ s.curr) :
    s.fam.waiting q = true ↔ o.inWait q = true ∧ q ∉ o.ready := by
  rw [hr.asleep q hq hne]
  have hs := hr.scheduled
  constructor
  · intro hw
    obtain ⟨-, -, -, hk⟩ := hs.waiting q hq hw
    refine ⟨hk, fun hm => ?_⟩
    rw [(hs.ready q hm).2.2.1] at hw
    cases hw
  · rintro ⟨hk, hoff⟩
    have hq0 : q ≠ 0 := by
      rintro rfl
      obtain ⟨pcb, args, hb⟩ := hs.idle_kont (Ne.symm hne)
      rw [hb] at hk
      cases hk
    exact ((hs.placed q hq hq0).resolve_left hne).resolve_left hoff

theorem switched_refines {kont : Kont} {next : Nat} {inWait : Nat → Bool} (hr : Refines s o)
    (hs : Scheduled (switched kont info next s u) F ps) (hlive : ∀ q, F.live q → o.forest.live q) (hne : next ≠ s.curr)
    (hself : F.live s.curr → (inWait s.curr = true ↔ kont = .wait)) (hsame : ∀ q, q ≠ s.curr → inWait q = o.inWait q) :
    Refines (switched kont info next s u) ⟨F, ps, next, inWait⟩ := by
  have hctx {q : Nat} (hq : q ≠ s.curr) : saveContext kont info s q = s.ctx q := Function.update_of_ne hq ..
  have hnext : F.live next := hs.curr_live
  refine ⟨hs, rfl, fun q hq _ => ?_, fun c hc => ?_, nofun⟩
  · change inWait q = true ↔ (saveContext kont info s q).kont = .wait
    by_cases hqc : q = s.curr
    · subst hqc
      rw [saveContext, Function.update_self]
      exact hself hq
    · rw [hctx hqc, hsame q hqc]
      exact hr.asleep q (hlive q hq) hqc
  · obtain rfl := Mode.resuming.inj hc
    change inWait next = true ↔ (saveContext kont info s next).kont = .wait
    rw [hctx hne, hsame next hne]
    exact hr.asleep next (hlive next hnext) hne

theorem mem_refines (hr : Refines s o) (mem : Memory) : Refines { s with mem } o :=
  ⟨mem_scheduled hr.scheduled mem (.inl rfl), hr.curr, hr.asleep, hr.resuming, hr.user⟩

theorem fork_refines (hr : Refines s o) (hne : s.curr ≠ 0) (hm : s.mode = .user) (h : forkFunc info s = .ok t) :
    ∃ o', ProcessSystem.Step o .fork 0 o' ∧ Refines t o' := by
  obtain ⟨forest, ready, curr, inWait⟩ := o
  obtain rfl : s.curr = curr := hr.curr
  obtain ⟨hp, hs⟩ := fork_scheduled hr.scheduled hne h
  refine ⟨_, .fork hp, ?_⟩
  have hcount : s.fam.count = forest.born := hr.scheduled.represents.count
  have hborn : s.curr < forest.born := forest.born_of_live hp
  obtain ⟨m, m', fam, sched, -, -, -, hpush, rfl⟩ := forkFunc_ok h
  have hcurr : sched.currProc = forest.born := (push_keeps hpush).curr.trans hcount
  refine ⟨hs, hcurr, fun q hq hqc => ?_, fun c hc => ?_, fun hu => by cases hu⟩
  · change q ≠ sched.currProc at hqc
    rw [hcurr] at hqc
    have hql : forest.live q := Or.resolve_right hq hqc
    change Function.update inWait forest.born false q = true ↔
      (Function.update (saveContext (.fork s.fam.count) info s) s.fam.count ⟨s.fam.count, .fork s.fam.count, info⟩ q).kont = .wait
    rw [Function.update_of_ne hqc, Function.update_of_ne (hcount ▸ hqc)]
    by_cases hself : q = s.curr
    · have hout : inWait s.curr = false := hr.user hm
      rw [hself, saveContext, Function.update_self, hout]
      exact iff_of_false Bool.false_ne_true (by simp)
    · rw [saveContext, Function.update_of_ne hself]
      exact hr.asleep q hql hself
  · obtain rfl := Mode.resuming.inj hc
    change Function.update inWait forest.born false sched.currProc = true ↔ _
    rw [hcurr, Function.update_self]
    exact iff_of_false Bool.false_ne_true (by simp)

theorem exit_refines {status : Int} (hr : Refines s o) (hne : s.curr ≠ 0) (h : exitFunc status info s = .ok t) :
    ∃ o', ProcessSystem.Step o (.exit status) 1 o' ∧ Refines t o' := by
  obtain ⟨forest, ready, curr, inWait⟩ := o
  obtain rfl : s.curr = curr := hr.curr
  have hs := hr.scheduled
  have hp := hs.curr_live
  obtain ⟨ps, hs'⟩ := exit_scheduled hs hne h
  obtain ⟨woken, fam, sched, next, sched', mem, hlinks, hwake, hnext, -, rfl⟩ := exitFunc_ok h
  obtain ⟨woken', fam', hfam, -, hwoken, -, -⟩ := exitLinks_represents hs.represents hp status
  obtain ⟨rfl, rfl⟩ := Prod.mk.inj (Except.ok.inj (hlinks.symm.trans hfam))
  obtain ⟨l, hholds, ho⟩ := wake_holds hwake hs.holds
  obtain ⟨hnext, hholds'⟩ := findReady_holds hholds hnext
  have hidle : sched.idlePcb = 0 := by
    rw [ho.rest]
    exact hs.idle
  obtain rfl : ps = (ready ++ woken.toList).tail :=
    holds_unique hs'.holds (holds_congr hholds' rfl rfl rfl rfl)
  have hwakes (q : Nat) : woken = some q ↔ System.Wakes ⟨forest, ready, s.curr, inWait⟩ q := by
    rw [hwoken q]
    constructor
    · rintro ⟨⟨hq, hk⟩, hw⟩
      have hqc : q ≠ s.curr := fun he => not_kid_of_self hq (he ▸ hk)
      exact ⟨hq, hk, (waiting_iff hr hq hqc).1 hw⟩
    · rintro ⟨hq, hk, hw⟩
      have hqc : q ≠ s.curr := fun he => not_kid_of_self hq (he ▸ hk)
      exact ⟨⟨hq, hk⟩, (waiting_iff hr hq hqc).2 hw⟩
  rw [hidle] at hnext
  subst hnext
  exact ⟨_, .exit hwakes,
    switched_refines hr hs' (fun q hq => hq.1) hs'.curr_live.2 (fun hl => absurd rfl hl.2) fun _ _ => rfl⟩

theorem wait_refines {res : Option Int} (hr : Refines s o) (hne : s.curr ≠ 0) (hm : s.mode = .user)
    (h : waitFunc info s = .ok (res, t)) : ∃ o', ProcessSystem.Step o .wait (taken t (some .wait)) o' ∧ Refines t o' := by
  obtain ⟨forest, ready, curr, inWait⟩ := o
  obtain rfl : s.curr = curr := hr.curr
  have hs := hr.scheduled
  have hp := hs.curr_live
  have hrep := hs.represents
  have huser {fam : Family} : taken { s with fam } (some .wait) = 0 := if_pos (userMode_iff.2 hm)
  rcases waitFunc_ok h with ⟨hnone, hkids, -, rfl⟩ | ⟨hnone, hkids, -, next, sched, hnext, rfl⟩ | ⟨hsome, pid, fam, hcol, -, rfl⟩
  · rw [show taken t (some .wait) = 0 from huser]
    exact ⟨_, .noChild ((head_none_iff hrep hp).1 hnone) ((kids_none_iff hrep hp).1 hkids), hr⟩
  · have hs' := block_scheduled info hs hne hnone hkids hnext
    obtain ⟨hnext, -⟩ := findReady_holds hs.holds hnext
    rw [hs.idle] at hnext
    subst hnext
    refine ⟨_, .sleep ((head_none_iff hrep hp).1 hnone) (fun hk => hkids ((kids_none_iff hrep hp).2 hk)), ?_⟩
    refine switched_refines hr hs' (fun q hq => hq) (fun he => ?_) (fun _ => ?_) fun q hq => Function.update_of_ne hq ..
    · have hawake := hs'.curr_awake
      change Function.update s.fam.waiting s.curr true (ready.headD 0) = false at hawake
      rw [he, Function.update_self] at hawake
      cases hawake
    · exact iff_of_true (Function.update_self ..) rfl
  · rw [huser]
    exact ⟨_, .collect (fun hn => hsome ((head_none_iff hrep hp).2 hn)), collect_scheduled hs hm hcol rfl, rfl,
      hr.asleep, hr.resuming, hr.user⟩

theorem resume_refines {file : Option File} {out : Option ExceptionInfo} (hr : Refines s o) (hu : s.mode ≠ .user)
    (h : resume file s = .ok (out, t)) : ∃ o', ProcessSystem.Step o .resume 0 o' ∧ Refines t o' := by
  obtain ⟨forest, ready, curr, inWait⟩ := o
  obtain rfl : s.curr = curr := hr.curr
  have hs := hr.scheduled
  cases hm : s.mode with
  | user => exact absurd hm hu
  | hung => exact absurd hm hs.not_hung
  | resuming c =>
      have hwait : inWait s.curr = true ↔ c.kont = .wait := hr.resuming c hm
      have hback (hk : c.kont ≠ .wait) (mem : Memory) : ∃ o', ProcessSystem.Step ⟨forest, ready, s.curr, inWait⟩ .resume 0 o' ∧
          Refines { s with mem, mode := .user } o' := by
        have hout : inWait s.curr = false := Bool.eq_false_iff.2 fun hw => hk (hwait.1 hw)
        exact ⟨_, .back hout, mem_scheduled hs mem (.inr rfl), rfl, hr.asleep, nofun, fun _ => hout⟩
      have hresumes := hs.resumes c hm
      simp only [resume, hm] at h
      cases hkont : c.kont with
      | boot pcb2 cmdArgs =>
          simp only [hkont] at h
          obtain ⟨⟨r, info, mem⟩, -, h⟩ := bind_ok.1 h
          obtain ⟨-, rfl⟩ := Prod.mk.inj (Except.ok.inj h)
          exact hback (by simp [hkont]) mem
      | fork child =>
          simp only [hkont] at h
          obtain ⟨-, rfl⟩ := Prod.mk.inj (Except.ok.inj h)
          exact hback (by simp [hkont]) s.mem
      | wait =>
          simp only [hkont] at h
          obtain ⟨⟨pid, fam⟩, hcol, h⟩ := bind_ok.1 h
          obtain ⟨-, rfl⟩ := Prod.mk.inj (Except.ok.inj h)
          have hreports : forest.reports s.curr ≠ [] := by
            rcases hresumes with ⟨-, hres⟩ | ⟨-, pcb, args, hb⟩
            · rw [hkont] at hres
              exact hres
            · rw [hkont] at hb
              cases hb
          refine ⟨_, .backFromWait (hwait.2 hkont) hreports, collect_scheduled hs rfl hcol rfl, rfl, fun q hq hqc => ?_, nofun,
            fun _ => Function.update_self ..⟩
          change Function.update inWait s.curr false q = true ↔ (s.ctx q).kont = .wait
          have hne : q ≠ s.curr := hqc
          rw [Function.update_of_ne hne]
          exact hr.asleep q hq hne
      | delay | clock item | exit => simp [hkont, Resumable] at hresumes

def Does (o : System) (a : Option Act) (n : Nat) (o' : System) : Prop :=
  match a with
  | some a => ProcessSystem.Step o a n o'
  | none => n = 0 ∧ o' = o

theorem step_does (hr : Refines s o) (he : Undelayed s e) (h : Step s e t) :
    ∃ o', Does o (act s e) (taken t (act s e)) o' ∧ Refines t o' := by
  obtain ⟨hen, hnext⟩ := h
  have hidle := hr.scheduled.idle
  cases e with
  | call c info =>
      have hm : s.mode = .user := userMode_iff.1 hen
      obtain ⟨⟨out, u⟩, hcall, rfl⟩ := map_ok.1 hnext
      cases c with
      | fork =>
          obtain ⟨v, hv, h⟩ := bind_ok.1 hcall
          obtain ⟨-, rfl⟩ := Prod.mk.inj (Except.ok.inj h)
          exact fork_refines hr (hidle ▸ he) hm hv
      | exec file args =>
          obtain ⟨⟨r, info', v⟩, hv, h⟩ := bind_ok.1 hcall
          obtain ⟨-, rfl⟩ := Prod.mk.inj (Except.ok.inj h)
          obtain ⟨r', mem, -, -, rfl⟩ := execFunc_ok hv
          exact ⟨o, ⟨rfl, rfl⟩, mem_refines hr mem⟩
      | exit status =>
          obtain ⟨v, hv, h⟩ := bind_ok.1 hcall
          obtain ⟨-, rfl⟩ := Prod.mk.inj (Except.ok.inj h)
          exact exit_refines hr (hidle ▸ he) hv
      | wait ptr =>
          obtain ⟨⟨res, v⟩, hv, h⟩ := bind_ok.1 hcall
          obtain ⟨-, rfl⟩ := Prod.mk.inj (Except.ok.inj h)
          exact wait_refines hr (hidle ▸ he) hm hv
      | getPid =>
          obtain ⟨-, rfl⟩ := Prod.mk.inj (Except.ok.inj hcall)
          exact ⟨o, ⟨rfl, rfl⟩, hr⟩
      | brk addr =>
          obtain ⟨⟨r, mem⟩, -, h⟩ := bind_ok.1 hcall
          obtain ⟨-, rfl⟩ := Prod.mk.inj (Except.ok.inj h)
          exact ⟨o, ⟨rfl, rfl⟩, mem_refines hr mem⟩
      | delay => exact absurd he id
  | memoryTrap info =>
      obtain ⟨⟨out, u⟩, htrap, rfl⟩ := map_ok.1 hnext
      rcases memoryTrap_ok htrap with ⟨hgrow, -, mem, -, rfl⟩ | ⟨hgrow, -, hexit⟩
      · rw [act, if_pos hgrow]
        exact ⟨o, ⟨rfl, rfl⟩, mem_refines hr mem⟩
      · rw [act, if_neg (by simp [hgrow])]
        exact exit_refines hr (hidle ▸ he) hexit
  | fatalTrap info =>
      obtain ⟨⟨out, u⟩, htrap, rfl⟩ := map_ok.1 hnext
      obtain ⟨v, hv, h⟩ := bind_ok.1 htrap
      obtain ⟨-, rfl⟩ := Prod.mk.inj (Except.ok.inj h)
      exact exit_refines hr (hidle ▸ he) hv
  | clock => exact absurd he id
  | resume file =>
      obtain ⟨⟨out, u⟩, hres, rfl⟩ := map_ok.1 hnext
      exact resume_refines hr (fun hm => hen (userMode_iff.2 hm)) hres
  | kernelBrk addr =>
      obtain ⟨⟨r, mem⟩, -, h⟩ := bind_ok.1 hnext
      obtain rfl := Except.ok.inj h
      exact ⟨o, ⟨rfl, rfl⟩, mem_refines hr mem⟩
  | userStore vaddr x =>
      obtain ⟨mem, -, h⟩ := bind_ok.1 hnext
      obtain rfl := Except.ok.inj h
      exact ⟨o, ⟨rfl, rfl⟩, mem_refines hr mem⟩

/-- The acts on the way from `s`, and how many they take from the ready queue. -/
inductive Path (s : State) : List Act → Nat → State → Prop
  | nil : Path s [] 0 s
  | step {as : List Act} {n : Nat} {u t : State} {e : Event} :
      Path s as n u → Undelayed u e → Step u e t → Path s (as ++ (act u e).toList) (n + taken t (act u e)) t

theorem path_runs {as : List Act} (hr : Refines s o) (h : Path s as n t) :
    ∃ o', ProcessSystem.Run o as n o' ∧ Refines t o' := by
  induction h with
  | nil => exact ⟨o, .nil, hr⟩
  | @step as n u t e _ he hstep ih =>
      obtain ⟨v, hrun, hv⟩ := ih
      obtain ⟨w, hdoes, hw⟩ := step_does hv he hstep
      refine ⟨w, ?_, hw⟩
      cases ha : act u e with
      | none =>
          rw [ha] at hdoes
          obtain ⟨hn, rfl⟩ := hdoes
          rw [hn, Option.toList_none, List.append_nil, Nat.add_zero]
          exact hrun
      | some a =>
          rw [ha] at hdoes
          exact .step hrun hdoes

def start : System := ⟨bootForest, [], 1, fun _ => false⟩

theorem boot_refines (h : kernelStart env = .ok s) (h₀ : env.raw.fam.parent 0 = none)
    (h₁ : env.raw.fam.parent 1 = none) : Refines s start := by
  have hs := boot_scheduled h h₀ h₁
  obtain ⟨m, m₁, m₂, m₃, m₄, i, i', -, rfl⟩ := kernelStart_ok h
  refine ⟨hs, rfl, fun q hq hqc => ?_, nofun, fun _ => rfl⟩
  have hq2 := (bootForest_live q).1 hq
  obtain rfl : q = 0 := by
    change q ≠ 1 at hqc
    omega
  obtain ⟨pcb, args, hk⟩ := hs.idle_kont Nat.one_ne_zero
  rw [hk]
  exact iff_of_false Bool.false_ne_true nofun

/-- Without clock interrupts and Delay calls the kernel is the system of
processes: whatever the processes and malloc do to memory, who runs, who is
ready and in which order, who sleeps, who is whose child and who has exited is
what the same acts make of the system, and the ready queue is taken from as often. -/
theorem path_refines {as : List Act} (hs : kernelStart env = .ok s) (h₀ : env.raw.fam.parent 0 = none)
    (h₁ : env.raw.fam.parent 1 = none) (h : Path s as n t) :
    ∃ o, ProcessSystem.Run start as n o ∧ t.curr = o.curr ∧ Holds t.sched o.ready ∧ Represents t.fam o.forest ∧
      (∀ p, o.forest.live p ↔ live t p) ∧
      ∀ p, live t p → p ≠ t.curr → (t.fam.waiting p = true ↔ o.inWait p = true ∧ p ∉ o.ready) := by
  obtain ⟨o, hrun, hr⟩ := path_runs (boot_refines hs h₀ h₁) h
  have hsched := hr.scheduled
  refine ⟨o, hrun, hr.curr, hsched.holds, hsched.represents, hsched.live_iff, fun p hp hne => ?_⟩
  exact waiting_iff hr ((hsched.live_iff p).2 hp) hne

theorem small_path {s₀ s₁ s₂ s₃ s₄ : State} (h : SmallFamily s₀ s₁ s₂ s₃ s₄) :
    Path s₀ [.fork, .resume] 0 s₂ ∧ Undelayed s₂ (.call (.exit 7) smallInfo) ∧
      Path s₀ [.fork, .resume, .exit 0, .resume] 1 s₄ := by
  obtain ⟨hcurr₀, hidle₀, -⟩ := h.start
  obtain ⟨-, hcurr₁, hidle₁, -⟩ := h.forked
  have hfork : Undelayed s₀ (.call .fork smallInfo) := by
    change s₀.curr ≠ s₀.sched.idlePcb
    omega
  have hexit : Undelayed s₂ (.call (.exit 7) smallInfo) := by
    obtain rfl := h.child_eq
    change s₁.curr ≠ s₁.sched.idlePcb
    omega
  have hpath : Path s₀ [.fork, .resume] 0 s₂ :=
    .step (e := .resume none) (.step .nil hfork h.fork) trivial h.child
  exact ⟨hpath, hexit, .step (e := .resume none) (.step hpath hexit h.exit) trivial h.parent⟩

theorem path_refines_small : ∃ (t : State) (o : System), ProcessSystem.Run start [.fork, .resume, .exit 0, .resume] 1 o ∧
    t.curr = o.curr ∧ Holds t.sched o.ready ∧ o.curr = 1 := by
  obtain ⟨s₀, s₁, s₂, s₃, s₄, h, -⟩ := small_family
  obtain ⟨o, hrun, hcurr, hholds, -⟩ := path_refines h.boot rfl rfl (small_path h).2.2
  have hcurr₄ : s₄.curr = 1 := by
    rw [h.parent_eq]
    exact h.exited.2.1
  exact ⟨s₄, o, hrun, hcurr, hholds, hcurr.symm.trans hcurr₄⟩

/-- The ready queue is fair: nobody is put before a process that is ready, and
once the `i` before it have been taken it is the next one that runs. -/
theorem ready_in_turn {as bs : List Act} {i m : Nat} (hs : kernelStart env = .ok s) (h₀ : env.raw.fam.parent 0 = none)
    (h₁ : env.raw.fam.parent 1 = none) (h : Path s as n t) (hps : Holds t.sched ps) (hp : ps[i]? = some p)
    (hrun : Path t bs m u) :
    (m ≤ i → ∃ qs, Holds u.sched qs ∧ qs[i - m]? = some p) ∧
      ∀ e v, m = i → Undelayed u e → Step u e v → taken v (act u e) = 1 → v.curr = p := by
  obtain ⟨o, -, hr⟩ := path_runs (boot_refines hs h₀ h₁) h
  obtain rfl := holds_unique hps hr.scheduled.holds
  obtain ⟨o', hrun', hr'⟩ := path_runs hr hrun
  refine ⟨fun hm => ⟨_, hr'.scheduled.holds, ProcessSystem.run_line hrun' hp hm⟩, ?_⟩
  rintro e v rfl he hstep htaken
  obtain ⟨o'', hdoes, hr''⟩ := step_does hr' he hstep
  cases ha : act u e with
  | none =>
      rw [ha] at htaken
      cases htaken
  | some a =>
      rw [htaken, ha] at hdoes
      exact hr''.curr.trans (ProcessSystem.run_turn hrun' hp hdoes)

/-- The child of init is second in line while its own child runs. When that one
has exited, init runs, and when init waits, its child does. -/
theorem ready_in_turn_small : ∃ s t u v, kernelStart smallBoot = .ok s ∧ Path s [.fork, .resume, .fork, .resume] 0 t ∧
    Holds t.sched [1, 2] ∧ Path t [.exit 0, .resume] 1 u ∧
    (∃ qs, Holds u.sched qs ∧ qs[0]? = some 2) ∧ Step u (.call (.wait smallPtr) smallInfo) v ∧ v.curr = 2 := by
  obtain ⟨s₀, s₁, s₂, s₃, s₄, s₅, s₆, s₇, h⟩ := small_line
  obtain rfl := step_atFork h.forked.1 h.child
  obtain rfl := step_atFork h.forkedAgain.1 h.grandchild
  obtain rfl := step_atFork h.exited.1 h.parent
  obtain ⟨hcurr₀, hidle₀, -⟩ := h.start
  obtain ⟨-, hcurr₁, hidle₁, -⟩ := h.forked
  obtain ⟨-, hcurr₃, hidle₃, -⟩ := h.forkedAgain
  obtain ⟨-, hcurr₅, hidle₅, -⟩ := h.exited
  have hfork : Undelayed s₀ (.call .fork smallInfo) := by
    change s₀.curr ≠ s₀.sched.idlePcb
    omega
  have hagain : Undelayed { s₁ with mode := .user } (.call .fork smallInfo) := by
    change s₁.curr ≠ s₁.sched.idlePcb
    omega
  have hexit : Undelayed { s₃ with mode := .user } (.call (.exit 7) smallInfo) := by
    change s₃.curr ≠ s₃.sched.idlePcb
    omega
  have hwait : Undelayed { s₅ with mode := .user } (.call (.wait smallPtr) smallInfo) := by
    change s₅.curr ≠ s₅.sched.idlePcb
    omega
  have htwo : Path s₀ [.fork, .resume] 0 { s₁ with mode := .user } :=
    .step (e := .resume none) (.step .nil hfork h.fork) trivial h.child
  have hpath : Path s₀ [.fork, .resume, .fork, .resume] 0 { s₃ with mode := .user } :=
    .step (e := .resume none) (.step htwo hagain h.forkAgain) trivial h.grandchild
  have hrun : Path { s₃ with mode := .user } [.exit 0, .resume] 1 { s₅ with mode := .user } :=
    .step (e := .resume none) (.step .nil hexit h.exit) trivial h.parent
  have hone : Holds s₁.sched [1] := hcurr₀ ▸ fork_step_holds (boot_scheduled h.boot rfl rfl).holds h.fork
  have hholds : Holds s₃.sched ([1] ++ [s₁.curr]) := fork_step_holds (s := { s₁ with mode := .user }) hone h.forkAgain
  rw [hcurr₁] at hholds
  have htaken : taken s₇ (some .wait) = 1 := if_neg h.blocked
  obtain ⟨hline, hturn⟩ := ready_in_turn (i := 1) (p := 2) h.boot rfl rfl hpath hholds rfl hrun
  exact ⟨s₀, _, _, s₇, h.boot, hpath, hholds, hrun, hline (Nat.le_refl 1), h.wait, hturn _ s₇ rfl hwait h.wait htaken⟩

end Yalnix.Dispatch
