import Yalnix.Calls
import Yalnix.Accesses

namespace Yalnix.Boot

open Loops Machine LoadProgram Processes Queues Kernel Accesses Calls

variable {env : BootEnv} {s t : State} {info : ExceptionInfo}

theorem setKernelBrk_early {addrs : List Nat} {m m' : Memory} (hvm : m.vmEnabled = false)
    (h : addrs.foldlM (fun m addr => Prod.snd <$> AddressSpace.setKernelBrk addr m) m = .ok m') :
    m' = { m with currKernelBrk := m'.currKernelBrk } := by
  induction addrs generalizing m with
  | nil =>
      obtain rfl := Except.ok.inj h
      rfl
  | cons addr addrs ih =>
      rw [List.foldlM_cons] at h
      obtain ⟨u, hu, h⟩ := bind_ok.1 h
      simp only [AddressSpace.setKernelBrk, hvm, Bool.not_false, if_true] at hu
      obtain rfl : { m with currKernelBrk := addr, vmEnabled := false } = u := Except.ok.inj hu
      rw [ih rfl h, hvm]

structure Tables (env : BootEnv) (m : Memory) : Prop where
  tables : ∃ m₀, AddressSpace.initPT (AddressSpace.buildFreePages env.pmemSize (powerOn env).mem) = .ok m₀ ∧
    m = { m₀ with currKernelBrk := m.currKernelBrk, vmEnabled := true }

/-- The memory states of `KernelStart`: virtual memory goes on in `m`, idle is
loaded in `m₁`, the table of init is built in `m₂` and entered in `m₃`. -/
structure Stages (env : BootEnv) (m m₁ m₂ m₃ m₄ : Memory) (idleInfo initInfo : ExceptionInfo) : Prop where
  tables : Tables env m
  idle : ∃ r, loadProgram 0 .region0Pt env.idleFile env.cmdArgs env.info
    (setSpace m 0 { m.space 0 with brk := toUlong (-1), region0 := .region0Pt, freeVpn := toUlong (-1) }) = .ok (r, idleInfo, m₁)
  build : AddressSpace.buildRegion0 1
    (setSpace m₁ 1 { m₁.space 1 with brk := toUlong (-1), region0 := .null, freeVpn := toUlong (-1) }) = .ok m₂
  enter : AddressSpace.switchNewProc 1 m₂ = .ok m₃
  init : ∃ r, loadProgram 1 (m₃.space 1).region0 env.initFile env.cmdArgs idleInfo m₃ = .ok (r, initInfo, m₄)

theorem bootTables_ok (h : bootTables env = .ok s) :
    ∃ m, Tables env m ∧ s = { powerOn env with mem := m } := by
  obtain ⟨m₀, hm₀, h⟩ := bind_ok.1 h
  obtain ⟨m, hm, hs⟩ := bind_ok.1 h
  obtain ⟨m₁, m₂, -, -, rfl, hfix⟩ := initPT_ok hm₀
  refine ⟨_, ⟨_, hm₀, ?_⟩, (Except.ok.inj hs).symm⟩
  rw [setKernelBrk_early (m := { m₂ with regPtr0 := .region0Pt }) hfix.vmEnabled hm]

theorem createProc_eq {n : Nat} (h : s.fam.count = n) : createProc s = (n, { s with
    fam := (createPcb s.fam).2
    mem := setSpace s.mem n { s.mem.space n with brk := toUlong (-1), region0 := .null, freeVpn := toUlong (-1) }
    sched.delayTicks := Function.update s.sched.delayTicks n (-1) }) := by
  subst h
  rfl

theorem bootIdle_ok {s t : State} (h : bootIdle env s = .ok (info, t)) (hcount : s.fam.count = 0) :
    ∃ r m, loadProgram 0 .region0Pt env.idleFile env.cmdArgs env.info
      (setSpace s.mem 0 { s.mem.space 0 with brk := toUlong (-1), region0 := .region0Pt, freeVpn := toUlong (-1) })
        = .ok (r, info, m) ∧
      t = { s with
        mem := m
        fam := (createPcb s.fam).2
        sched := { s.sched with
          delayTicks := Function.update s.sched.delayTicks 0 (-1)
          currProc := 0
          idlePcb := 0 }
        cpu := 0 } := by
  unfold bootIdle at h
  rw [createProc_eq hcount] at h
  obtain ⟨⟨r, info', m⟩, hload, h⟩ := bind_ok.1 h
  obtain ⟨rfl, rfl⟩ := Prod.mk.inj (Except.ok.inj h)
  rw [setSpace_space_self, setSpace_idem] at hload
  exact ⟨r, m, hload, rfl⟩

theorem bootInit_ok {s t : State} (h : bootInit env info s = .ok t) (hcount : s.fam.count = 1)
    (hcurr : s.curr = 0) (hcpu : s.cpu = 0) :
    ∃ m₂ m₃, AddressSpace.buildRegion0 1
        (setSpace s.mem 1 { s.mem.space 1 with brk := toUlong (-1), region0 := .null, freeVpn := toUlong (-1) }) = .ok m₂ ∧
      AddressSpace.switchNewProc 1 m₂ = .ok m₃ ∧
      t = { s with
        mem := m₃
        fam := (createPcb s.fam).2
        sched := { s.sched with
          delayTicks := Function.update s.sched.delayTicks 1 (-1)
          currProc := 1 }
        ctx := Function.update (Function.update s.ctx 0 ⟨0, .boot 1 env.cmdArgs, info⟩) 1
          ⟨1, .boot 1 env.cmdArgs, info⟩
        cpu := 1
        mode := .resuming ⟨1, .boot 1 env.cmdArgs, info⟩ } := by
  unfold bootInit at h
  rw [createProc_eq hcount] at h
  obtain ⟨m₂, hm₂, h⟩ := bind_ok.1 h
  obtain ⟨p, u, hu, rfl⟩ := contextSwitch_ok h
  obtain ⟨m₃, hm₃, rfl, rfl⟩ := switchNewProc_ok hu
  refine ⟨m₂, m₃, hm₂, hm₃, ?_⟩
  have hcurr' : s.sched.currProc = 0 := hcurr
  simp [saveContext, State.curr, hcurr', hcpu]

/-- The state in which `KernelStart` returns: two pcbs, init runs, idle is
suspended in its context switch, and no queue holds anyone. -/
theorem kernelStart_ok (h : kernelStart env = .ok s) :
    ∃ m m₁ m₂ m₃ m₄ idleInfo initInfo, Stages env m m₁ m₂ m₃ m₄ idleInfo initInfo ∧
      s = { powerOn env with
        mem := m₄
        fam := (createPcb (createPcb (powerOn env).fam).2).2
        sched := { (powerOn env).sched with
          delayTicks := Function.update (Function.update env.raw.sched.delayTicks 0 (-1)) 1 (-1)
          currProc := 1
          idlePcb := 0 }
        ctx := Function.update (Function.update env.raw.ctx 0 ⟨0, .boot 1 env.cmdArgs, idleInfo⟩) 1
          ⟨1, .boot 1 env.cmdArgs, idleInfo⟩
        cpu := 1 } := by
  obtain ⟨s₁, h₁, h⟩ := bind_ok.1 h
  obtain ⟨⟨idleInfo, s₂⟩, h₂, h⟩ := bind_ok.1 h
  obtain ⟨s₃, h₃, h⟩ := bind_ok.1 h
  obtain ⟨⟨out, s₄⟩, h₄, h⟩ := bind_ok.1 h
  obtain rfl := Except.ok.inj h
  obtain ⟨m, hm, rfl⟩ := bootTables_ok h₁
  obtain ⟨r₁, m₁, hm₁, rfl⟩ := bootIdle_ok h₂ rfl
  obtain ⟨m₂, m₃, hm₂, hm₃, rfl⟩ := bootInit_ok h₃ rfl rfl rfl
  obtain ⟨⟨r₄, initInfo, m₄⟩, hm₄, h⟩ := bind_ok.1 h₄
  obtain ⟨-, rfl⟩ := Prod.mk.inj (Except.ok.inj h)
  exact ⟨m, m₁, m₂, m₃, m₄, idleInfo, initInfo, ⟨hm, ⟨r₁, hm₁⟩, hm₂, hm₃, ⟨r₄, hm₄⟩⟩, rfl⟩

end Yalnix.Boot
