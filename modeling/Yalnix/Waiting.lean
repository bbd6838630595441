import Yalnix.Blocking

namespace Yalnix.Waiting

open Loops Machine LoadProgram Processes Queues Kernel Chains Forests FamilyTree Calls Boot Runs ProcessTree ReadyQueue
open Blocking

def loadByte (m : Memory) (vaddr : Nat) : Except Fault (BitVec 8) := do
  let f ← userFrame m (vaddr / pageSize)
  return ((m.frames f (vaddr % pageSize / 4)).toBits >>> (8 * (vaddr % 4))).setWidth 8

def loadInt (m : Memory) (ptr : Nat) : Except Fault Int := do
  let b₀ ← loadByte m ptr
  let b₁ ← loadByte m (ptr + 1)
  let b₂ ← loadByte m (ptr + 2)
  let b₃ ← loadByte m (ptr + 3)
  return (b₃ ++ b₂ ++ b₁ ++ b₀).toInt

def Killed (info : ExceptionInfo) (s : State) (out : Option ExceptionInfo) (t : State) : Prop :=
  trapFatalHandler info s = .ok (out, t) ∨ growsStack s info = false ∧ trapMemoryHandler info s = .ok (out, t)

/-- Runs of Fork, Exit and Wait calls and of ends that the kernel forces.
`asked` is the status each process has asked to report, ERROR if it was killed. -/
inductive WaitRun (env : BootEnv) : List TreeEvent → (Nat → Int) → State → Prop
  | boot {s : State} : kernelStart env = .ok s → WaitRun env [] (fun _ => 0) s
  | dispatch {tr : List TreeEvent} {asked : Nat → Int} {s t : State} {ps : List Nat} :
      WaitRun env tr asked s → t.fam = s.fam → t.exited = s.exited → Holds t.sched ps → WaitRun env tr asked t
  | fork {tr : List TreeEvent} {asked : Nat → Int} {s t : State} {info : ExceptionInfo} {out : Option ExceptionInfo} :
      WaitRun env tr asked s → live s s.curr → trapKernelHandler .fork info s = .ok (out, t) →
      WaitRun env (tr ++ [.fork s.curr s.fam.count]) asked t
  | exit {tr : List TreeEvent} {asked : Nat → Int} {s t : State} {info : ExceptionInfo} {out : Option ExceptionInfo}
      {status : Int} :
      WaitRun env tr asked s → live s s.curr → trapKernelHandler (.exit status) info s = .ok (out, t) →
      WaitRun env (tr ++ [.exit s.curr 0]) (Function.update asked s.curr status) t
  | killed {tr : List TreeEvent} {asked : Nat → Int} {s t : State} {info : ExceptionInfo} {out : Option ExceptionInfo} :
      WaitRun env tr asked s → live s s.curr → Killed info s out t →
      WaitRun env (tr ++ [.exit s.curr 1]) (Function.update asked s.curr ERROR) t
  | wait {tr : List TreeEvent} {asked : Nat → Int} {s t : State} {info : ExceptionInfo} {out : Option ExceptionInfo}
      {ptr : Nat} :
      WaitRun env tr asked s → live s s.curr → pending tr s.curr = [] →
      trapKernelHandler (.wait ptr) info s = .ok (out, t) → WaitRun env tr asked t
  | collect {tr : List TreeEvent} {asked : Nat → Int} {s t : State} {info : ExceptionInfo} {out : Option ExceptionInfo}
      {ptr : Nat} :
      WaitRun env tr asked s → live s s.curr → pending tr s.curr ≠ [] →
      trapKernelHandler (.wait ptr) info s = .ok (out, t) → WaitRun env (tr ++ [.collect s.curr]) asked t
  | woken {tr : List TreeEvent} {asked : Nat → Int} {s t : State} {c : Context} {file : Option File}
      {out : Option ExceptionInfo} :
      WaitRun env tr asked s → live s s.curr → s.mode = .resuming c → c.kont = .wait →
      resume file s = .ok (out, t) → WaitRun env (tr ++ [.collect s.curr]) asked t

/-- What Wait promises of the exit of `q` when it collects it: `q` and its
status are reported, the records left are those of `rest`, and no record was
read after it had been freed. -/
structure Collected (asked : Nat → Int) (ptr q : Nat) (rest : List Nat) (s t : State) : Prop where
  status : loadInt t.mem ptr = .ok (asked q)
  records : ∃ recs : List Nat, Path t.fam.records.next (t.fam.exitedChildrenHead s.curr) recs none ∧
    recs.map t.fam.records.processId = rest.map s.fam.processId
  clean : t.fam.records.staleReads = s.fam.records.staleReads

/-- A call of Wait keeps the promise: the oldest exit is collected if there is
one, a process with no child gets ERROR, and any other blocks. -/
def WaitLaw (tr : List TreeEvent) (asked : Nat → Int) (ptr : Nat) (info : ExceptionInfo) (s : State) : Prop :=
  match pending tr s.curr with
  | [] =>
      if liveKids tr s s.curr = [] then trapKernelHandler (.wait ptr) info s = .ok (some (setReg0 info ERROR), s)
      else ∃ t, trapKernelHandler (.wait ptr) info s = .ok (none, t)
  | e :: rest =>
      ∃ t, trapKernelHandler (.wait ptr) info s = .ok (some (setReg0 info (s.fam.processId e.1)), t) ∧
        Collected asked ptr e.1 (rest.map Prod.fst) s t

def WokenLaw (tr : List TreeEvent) (asked : Nat → Int) (ptr : Nat) (file : Option File) (c : Context) (s : State) : Prop :=
  ∃ e rest t, pending tr s.curr = e :: rest ∧
    resume file s = .ok (some (setReg0 c.info (s.fam.processId e.1)), t) ∧
    Collected asked ptr e.1 (rest.map Prod.fst) s t

variable {env : BootEnv} {tr : List TreeEvent} {asked : Nat → Int} {s t : State} {F : Forest} {ps : List Nat}
variable {info : ExceptionInfo} {out : Option ExceptionInfo} {ptr : Nat} {c : Context} {file : Option File}

theorem exit_holds {status : Int} (hs : Holds s.sched ps) (h : exitFunc status info s = .ok t) :
    ∃ ps', Holds t.sched ps' := by
  obtain ⟨woken, fam, sched, next, sched', mem, -, hwake, hnext, -, rfl⟩ := exitFunc_ok h
  obtain ⟨l, hholds, -⟩ := wake_holds hwake hs
  have hnext' : findReadyPcb ({ s with sched } : State).sched = .ok (next, sched') := hnext
  exact ⟨_, holds_congr (findReady_holds hholds hnext').2 rfl rfl rfl rfl⟩

theorem killed_exit (h : Killed info s out t) : exitFunc 1 info s = .ok t := by
  have hexit (h : (do let s ← exitFunc 1 info s; return (none, s)) = Except.ok (out, t)) : exitFunc 1 info s = .ok t := by
    obtain ⟨u, hu, h⟩ := bind_ok.1 h
    obtain ⟨-, rfl⟩ := Prod.mk.inj (Except.ok.inj h)
    exact hu
  rcases h with h | ⟨hg, h⟩
  · exact hexit h
  · unfold trapMemoryHandler at h
    rw [hg] at h
    exact hexit h

/-- `WaitFunc` comes out of `collect` only with an exit that was pending, and it
has read the freed record. -/
theorem collect_traced {pid : Int} {fam : Family} (mode : Mode) (hs : Traced tr s F) (hcurr : live s s.curr)
    (h : collect s.curr s.fam = .ok (pid, fam)) :
    pending tr s.curr ≠ [] ∧ Traced (tr ++ [.collect s.curr]) { s with fam, mode } (F.collect s.curr) ∧
      fam.records.staleReads = s.fam.records.staleReads + 1 := by
  have hp := (hs.live_iff _).2 hcurr
  obtain ⟨a, b, l, hreports, -, hcol, -, hstale⟩ := collect_ok hs.represents hp h
  have hne : F.reports s.curr ≠ [] := by simp [hreports]
  exact ⟨hs.reports _ hp ▸ hne, traced_collect hs hp hne hcol rfl, hstale⟩

theorem head_pending (hs : Traced tr s F) (hcurr : live s s.curr) :
    s.fam.exitedChildrenHead s.curr = none ↔ pending tr s.curr = [] := by
  have hp := (hs.live_iff _).2 hcurr
  rw [head_none_iff hs.represents hp, hs.reports _ hp]

theorem kids_liveKids (hs : Traced tr s F) (hcurr : live s s.curr) :
    s.fam.childrenHead s.curr = none ↔ liveKids tr s s.curr = [] := by
  have hp := (hs.live_iff _).2 hcurr
  rw [kids_none_iff hs.represents hp, hs.kids _ hp]

theorem wait_traced (hs : Traced tr s F) (hholds : Holds s.sched ps) (hcurr : live s s.curr)
    (h : trapKernelHandler (.wait ptr) info s = .ok (out, t)) :
    (pending tr s.curr = [] ∧ Traced tr t F ∧ ∃ ps', Holds t.sched ps') ∨
    (pending tr s.curr ≠ [] ∧ Traced (tr ++ [.collect s.curr]) t (F.collect s.curr) ∧ Holds t.sched ps ∧
      t.fam.records.staleReads = s.fam.records.staleReads + 1) := by
  obtain ⟨⟨res, u⟩, hwait, h⟩ := bind_ok.1 h
  obtain ⟨-, rfl⟩ := Prod.mk.inj (Except.ok.inj h)
  rcases waitFunc_ok hwait with ⟨hnone, -, -, rfl⟩ | ⟨hnone, -, -, next, sched, hnext, rfl⟩ | ⟨-, pid, fam, hcol, -, rfl⟩
  · exact .inl ⟨(head_pending hs hcurr).1 hnone, hs, ps, hholds⟩
  · exact .inl ⟨(head_pending hs hcurr).1 hnone, traced_congr hs (represents_waiting hs.represents _) rfl, _,
      holds_congr (findReady_holds hholds hnext).2 rfl rfl rfl rfl⟩
  · obtain ⟨hne, ht, hstale⟩ := collect_traced s.mode hs hcurr hcol
    exact .inr ⟨hne, ht, hholds, hstale⟩

theorem woken_collect (hm : s.mode = .resuming c) (hk : c.kont = .wait) (h : resume file s = .ok (out, t)) :
    ∃ pid fam, collect s.curr s.fam = .ok (pid, fam) ∧ t = { s with fam, mode := .user } := by
  unfold resume at h
  simp only [hm, hk] at h
  obtain ⟨⟨pid, fam⟩, hcol, h⟩ := bind_ok.1 h
  obtain ⟨-, rfl⟩ := Prod.mk.inj (Except.ok.inj h)
  exact ⟨pid, fam, hcol, rfl⟩

theorem waitRun_traced (h₀ : env.raw.fam.parent 0 = none) (h₁ : env.raw.fam.parent 1 = none)
    (h : WaitRun env tr asked s) : ∃ F ps, Traced tr s F ∧ Holds s.sched ps := by
  induction h with
  | boot h =>
      exact ⟨_, _, boot_traced h h₀ h₁, (boot_scheduled h h₀ h₁).holds⟩
  | dispatch _ hf he hholds ih =>
      obtain ⟨F, -, hs, -⟩ := ih
      exact ⟨F, _, traced_congr hs (hf ▸ hs.represents) he, hholds⟩
  | fork _ hcurr h ih =>
      obtain ⟨F, ps, hs, hholds⟩ := ih
      obtain ⟨u, hu, h⟩ := bind_ok.1 h
      obtain ⟨-, rfl⟩ := Prod.mk.inj (Except.ok.inj h)
      obtain ⟨_, ht⟩ := traced_fork hs hcurr hu
      exact ⟨_, _, ht, fork_holds hholds hu⟩
  | exit _ hcurr h ih =>
      obtain ⟨F, ps, hs, hholds⟩ := ih
      obtain ⟨u, hu, h⟩ := bind_ok.1 h
      obtain ⟨-, rfl⟩ := Prod.mk.inj (Except.ok.inj h)
      obtain ⟨ps', ht⟩ := exit_holds hholds hu
      exact ⟨_, ps', traced_exit hs hcurr hu, ht⟩
  | killed _ hcurr h ih =>
      obtain ⟨F, ps, hs, hholds⟩ := ih
      obtain ⟨ps', ht⟩ := exit_holds hholds (killed_exit h)
      exact ⟨_, ps', traced_exit hs hcurr (killed_exit h), ht⟩
  | wait _ hcurr hnone h ih =>
      obtain ⟨F, ps, hs, hholds⟩ := ih
      rcases wait_traced hs hholds hcurr h with ⟨-, ht, ps', hps'⟩ | ⟨hne, -⟩
      · exact ⟨F, ps', ht, hps'⟩
      · exact absurd hnone hne
  | collect _ hcurr hne h ih =>
      obtain ⟨F, ps, hs, hholds⟩ := ih
      rcases wait_traced hs hholds hcurr h with ⟨hnone, -⟩ | ⟨-, ht, hps', -⟩
      · exact absurd hnone hne
      · exact ⟨_, ps, ht, hps'⟩
  | woken _ hcurr hm hk h ih =>
      obtain ⟨F, ps, hs, hholds⟩ := ih
      obtain ⟨pid, fam, hcol, rfl⟩ := woken_collect hm hk h
      obtain ⟨-, ht, -⟩ := collect_traced .user hs hcurr hcol
      exact ⟨_, ps, ht, hholds⟩

theorem wait_lawful (hs : Traced tr s F) (hholds : Holds s.sched ps) (hcurr : live s s.curr)
    (hnone : pending tr s.curr = []) : WaitLaw tr asked ptr info s := by
  have hhead := (head_pending hs hcurr).2 hnone
  unfold WaitLaw
  rw [hnone]
  dsimp only
  split
  case isTrue hkids =>
    simp [trapKernelHandler, waitFunc, hhead, (kids_liveKids hs hcurr).2 hkids, bind, Except.bind, pure, Except.pure]
  case isFalse hkids =>
    have hkids' : (s.fam.childrenHead s.curr).isNone = false := by
      rw [Option.isNone_eq_false_iff, Option.isSome_iff_ne_none]
      exact fun h => hkids ((kids_liveKids hs hcurr).1 h)
    obtain ⟨next, sched, hnext⟩ : ∃ next sched, findReadyPcb s.sched = .ok (next, sched) := by
      cases ps with
      | nil => exact ⟨_, _, holds_pop_empty hholds⟩
      | cons p ps =>
          obtain ⟨sched, -, hpop, -⟩ := holds_pop hholds
          exact ⟨p, sched, hpop⟩
    simp [trapKernelHandler, waitFunc, hhead, hkids', hnext, contextSwitch, switchExist, bind, Except.bind, pure,
      Except.pure]

/-- In every run a call of Wait keeps its promise exactly when its caller has no
exit to collect, and a call that has blocked does not keep it. -/
theorem waitRun_lawful_iff (h₀ : env.raw.fam.parent 0 = none) (h₁ : env.raw.fam.parent 1 = none)
    (h : WaitRun env tr asked s) (hcurr : live s s.curr) :
    (∀ ptr info, WaitLaw tr asked ptr info s ↔ pending tr s.curr = []) ∧
      ∀ ptr file c, s.mode = .resuming c → c.kont = .wait → ¬ WokenLaw tr asked ptr file c s := by
  obtain ⟨F, ps, hs, hholds⟩ := waitRun_traced h₀ h₁ h
  refine ⟨fun ptr info => ⟨fun hlaw => ?_, wait_lawful hs hholds hcurr⟩, ?_⟩
  · by_contra hne
    obtain ⟨e, rest, hpend⟩ := List.exists_cons_of_ne_nil hne
    simp only [WaitLaw, hpend] at hlaw
    obtain ⟨t, ht, hcol⟩ := hlaw
    rcases wait_traced hs hholds hcurr ht with ⟨hnone, -⟩ | ⟨-, -, -, hstale⟩
    · exact hne hnone
    · have := hcol.clean
      omega
  · rintro ptr file c hm hk ⟨e, rest, t, -, ht, hlaw⟩
    obtain ⟨pid, fam, hcol, rfl⟩ := woken_collect hm hk ht
    obtain ⟨-, -, hstale⟩ := collect_traced .user hs hcurr hcol
    have hclean : fam.records.staleReads = s.fam.records.staleReads := hlaw.clean
    omega

theorem WaitLaw.blocks (h : WaitLaw tr asked ptr info s) (hnone : pending tr s.curr = []) (hkids : liveKids tr s s.curr ≠ []) :
    ∃ t, trapKernelHandler (.wait ptr) info s = .ok (none, t) := by
  unfold WaitLaw at h
  rw [hnone] at h
  dsimp only at h
  rwa [if_neg hkids] at h

theorem waitRun_back (h₀ : env.raw.fam.parent 0 = none) (h₁ : env.raw.fam.parent 1 = none) (h : WaitRun env tr asked s) :
    WaitRun env tr asked { s with mode := .user } := by
  obtain ⟨_, _, -, hholds⟩ := waitRun_traced h₀ h₁ h
  exact .dispatch h rfl rfl hholds

/-- Init waits while its child, which has outlived its own child, is ready, and blocks. -/
theorem waitRun_lawful_small : ∃ tr asked s, WaitRun smallBoot tr asked s ∧ s.curr = 1 ∧ liveKids tr s 1 = [2] ∧
    WaitLaw tr asked smallPtr smallInfo s ∧ ∃ t, trapKernelHandler (.wait smallPtr) smallInfo s = .ok (none, t) := by
  obtain ⟨s₀, s₁, s₂, s₃, s₄, s₅, s₆, s₇, h⟩ := small_line
  obtain ⟨⟨out₁, u₁⟩, hfork, rfl⟩ := map_ok.1 h.fork.2
  obtain ⟨⟨out₃, u₃⟩, hagain, rfl⟩ := map_ok.1 h.forkAgain.2
  obtain ⟨⟨out₅, u₅⟩, hexit, rfl⟩ := map_ok.1 h.exit.2
  obtain rfl := step_atFork h.forked.1 h.child
  obtain rfl := step_atFork h.forkedAgain.1 h.grandchild
  obtain rfl := step_atFork h.exited.1 h.parent
  obtain ⟨hcurr₀, -, hcount₀, hlive₀⟩ := h.start
  obtain ⟨-, hcurr₁, -, hcount₁, hlive₁⟩ := h.forked
  obtain ⟨-, hcurr₃, -, hlive₃⟩ := h.forkedAgain
  obtain ⟨-, hcurr₅, -, hlive₅, hkid⟩ := h.exited
  have h₁ := waitRun_back rfl rfl (.fork (.boot h.boot) (hcurr₀ ▸ hlive₀) hfork)
  have h₃ := waitRun_back rfl rfl (.fork h₁ (hcurr₁ ▸ hlive₁) hagain)
  have h₅ := waitRun_back rfl rfl (.exit h₃ (hcurr₃ ▸ hlive₃) hexit)
  rw [hcurr₀, hcount₀, show State.curr { u₁ with mode := .user } = 2 from hcurr₁, show u₁.fam.count = 3 from hcount₁,
    show State.curr { u₃ with mode := .user } = 3 from hcurr₃] at h₅
  have hkids : liveKids [.fork 1 2, .fork 2 3, .exit 3 0] { u₅ with mode := .user } 1 = [2] :=
    List.filter_cons_of_pos (by rw [hkid]; rfl)
  have hcurr : State.curr { u₅ with mode := .user } = 1 := hcurr₅
  have hnone : pending [.fork 1 2, .fork 2 3, .exit 3 0] (State.curr { u₅ with mode := .user }) = [] := by
    rw [hcurr]
    rfl
  have hlaw := ((waitRun_lawful_iff rfl rfl h₅ (hcurr₅ ▸ hlive₅)).1 smallPtr smallInfo).2 hnone
  refine ⟨_, _, _, h₅, hcurr, hkids, hlaw, hlaw.blocks hnone ?_⟩
  rw [hcurr]
  exact hkids ▸ List.cons_ne_nil 2 []

/-- The child has exited with status 7, and its parent, the only caller of Wait,
dereferences NULL. -/
theorem wait_faults_small : ∃ tr asked s, WaitRun smallBoot tr asked s ∧ live s s.curr ∧
    pending tr s.curr = [(2, 0)] ∧ asked 2 = 7 ∧
    trapKernelHandler (.wait smallPtr) smallInfo s = .error .nullDeref ∧ ¬ WaitLaw tr asked smallPtr smallInfo s := by
  obtain ⟨s₀, s₁, s₂, s₃, s₄, h, -⟩ := small_family
  obtain ⟨⟨out₁, u₁⟩, hfork, rfl⟩ := map_ok.1 h.fork.2
  obtain ⟨⟨out₃, u₃⟩, hexit, rfl⟩ := map_ok.1 h.exit.2
  obtain rfl := h.child_eq
  obtain rfl := h.parent_eq
  obtain ⟨hcurr₀, -, hcount, hlive₀⟩ := h.start
  obtain ⟨-, hcurr₁, -, hlive₁⟩ := h.forked
  obtain ⟨-, hcurr₃, hlive₃⟩ := h.exited
  have h₁ := waitRun_back rfl rfl (.fork (.boot h.boot) (hcurr₀ ▸ hlive₀) hfork)
  have h₃ := waitRun_back rfl rfl (.exit h₁ (hcurr₁ ▸ hlive₁) hexit)
  rw [hcurr₀, hcount, show State.curr { u₁ with mode := .user } = 2 from hcurr₁] at h₃
  refine ⟨_, _, _, h₃, hcurr₃ ▸ hlive₃, ?_, Function.update_self .., h.wait_faults, ?_⟩
  · rw [show State.curr { u₃ with mode := .user } = 1 from hcurr₃]
    rfl
  · rw [WaitLaw, show State.curr { u₃ with mode := .user } = 1 from hcurr₃]
    rintro ⟨t, ht, -⟩
    rw [h.wait_faults] at ht
    cases ht

end Yalnix.Waiting
