import Yalnix.FrameLeak
import Yalnix.Indices

namespace Yalnix.KernelPages

open Loops Machine AddressSpace LoadProgram Processes Kernel Accesses FreeList Calls Boot Runs Clock FrameLeak Indices

variable {env : BootEnv} {s t : State} {info : ExceptionInfo} {m m' : Memory} {file : Option File} {e : Pte} {r : Int} {b i j : Nat}

/-- User mode has no permission for a page of Region 1. -/
def Hidden (m : Memory) : Prop := ∀ i, (m.region1Pt i).valid = true → (m.region1Pt i).uprot = protNone

theorem Hidden.same (h : Hidden m) (hsame : SameRegion1 m m') : Hidden m' := by
  intro i hi
  rw [hsame] at hi ⊢
  exact h i hi

theorem Hidden.setSpace (h : Hidden m) (p : Nat) (sp : Space) : Hidden (setSpace m p sp) := h

theorem Hidden.write (h : Hidden m) (he : e.valid = true → e.uprot = protNone) : Hidden (writeRegion1 m i e) := by
  intro j hj
  by_cases hji : j = i
  · rw [hji, region1_write_self] at hj ⊢
    exact he hj
  · rw [region1_write_of_ne hji] at hj ⊢
    exact h j hj

theorem buildRegion0_hidden {proc : Nat} (h : Hidden m) (hbuild : buildRegion0 proc m = .ok m') : Hidden m' := by
  obtain ⟨i, -, -, -, -, hloop⟩ := buildRegion0_ok hbuild
  have hmark : Hidden (setMark m (pageTableLen + i) .pageUsed) := h
  refine Hidden.same ?_ (SameRegion1.upTo (fun _ _ _ => mapPage_region1) hloop)
  change Hidden (writeRegion1 (setMark m (pageTableLen + i) .pageUsed) i _)
  exact hmark.write fun _ => rfl

theorem setKernelBrk_hidden {addr : Nat} (h : Hidden m) (hbrk : setKernelBrk addr m = .ok (r, m')) : Hidden m' := by
  rcases setKernelBrk_ok hbrk with ⟨-, -, -, rfl⟩ | ⟨-, -, rfl⟩ | ⟨-, -, -, u, hu, rfl⟩
  · exact h
  · exact h
  · have hloop : Hidden u := upTo_invariant (fun _ => Hidden) (fun k v v' _ _ hv hk => by
      obtain ⟨j, -, -, ⟨f, l, -, rfl⟩ | ⟨-, rfl⟩⟩ := mapKernelPage_cases hk
      · have htake : Hidden (take v f) := hv
        exact htake.write fun _ => rfl
      · exact hv.write fun _ => rfl) h hu
    exact hloop

theorem releaseTable_hidden {proc : Nat} (h : Hidden m) (hrel : releaseTable proc m = .ok m') : Hidden m' := by
  obtain ⟨i, -, hrel⟩ := bind_ok.1 hrel
  exact (h.write fun he => absurd he Bool.false_ne_true).same (SameRegion1.freePage hrel)

theorem copyStackPage_region1 {proc : Nat} (hi : i ≠ b) (h : copyStackPage proc b j m = .ok m') :
    m'.region1Pt i = m.region1Pt i := by
  obtain ⟨e, -, h⟩ := bind_ok.1 h
  obtain ⟨source, dest, -, -, rfl⟩ := copyPage_ok.1 h
  exact region1_write_of_ne hi ..

theorem switchNewProc_region1 {proc : Nat} (h : AddressSpace.switchNewProc proc m = .ok m') : SameRegion1 m m' := by
  obtain ⟨b, -, h⟩ := bind_ok.1 h
  obtain ⟨u, hu, h⟩ := bind_ok.1 h
  obtain ⟨v, hv, h⟩ := bind_ok.1 h
  obtain rfl := Except.ok.inj h
  obtain ⟨-, rfl⟩ := returnPage_ok hv
  funext i
  change put u.region1Pt b (m.region1Pt b) i = m.region1Pt i
  by_cases hi : i = b
  · rw [hi, put_self]
  · rw [put_of_ne hi]
    exact upTo_relation (fun u v : Memory => v.region1Pt i = u.region1Pt i) (fun _ => rfl)
      (fun _ _ _ h h' => h'.trans h) (fun _ _ _ _ _ => copyStackPage_region1 hi) hu

theorem tables_hidden (h : Tables env m) : Hidden m := by
  obtain ⟨m₀, hm₀, hm⟩ := h.tables
  obtain ⟨m₁, m₂, h₁, h₂, rfl, -⟩ := initPT_ok hm₀
  have hstart : Hidden (buildFreePages env.pmemSize (powerOn env).mem) := nofun
  have hstack : SameRegion1 (buildFreePages env.pmemSize (powerOn env).mem) m₁ := SameRegion1.upTo (fun k v v' hk => by
    obtain ⟨f, -, hk⟩ := bind_ok.1 hk
    obtain rfl := Except.ok.inj hk
    rfl) h₁
  have hend : Hidden m₂ := upTo_invariant (fun _ => Hidden) (fun k v v' _ _ hv hk => by
    obtain ⟨j, -, hk⟩ := bind_ok.1 hk
    obtain ⟨f, -, hk⟩ := bind_ok.1 hk
    obtain rfl := Except.ok.inj hk
    exact hv.write fun _ => rfl) (hstart.same hstack) h₂
  rw [hm]
  exact hend

theorem boot_hidden (h : kernelStart env = .ok s) : Hidden s.mem := by
  obtain ⟨m, m₁, m₂, m₃, m₄, i, i', hst, rfl⟩ := kernelStart_ok h
  obtain ⟨r, hidle⟩ := hst.idle
  obtain ⟨r', hinit⟩ := hst.init
  have h₁ : Hidden m₁ := by
    have hload := SameRegion1.loadProgram hidle
    unfold SameRegion1 setSpace at hload
    exact (tables_hidden hst.tables).same hload
  have h₂ : Hidden m₂ := buildRegion0_hidden (h₁.setSpace _ _) hst.build
  exact (h₂.same (switchNewProc_region1 hst.enter)).same (SameRegion1.loadProgram hinit)

theorem exit_region1 {status : Int} (h : exitFunc status info s = .ok t) : SameRegion1 s.mem t.mem := by
  obtain ⟨woken, fam, sched, next, sched', mem, -, -, -, hmem, rfl⟩ := exitFunc_ok h
  exact SameRegion1.switchExit hmem

theorem call_hidden {c : Call} {out : Option ExceptionInfo} (hs : Hidden s.mem) (h : trapKernelHandler c info s = .ok (out, t)) :
    Hidden t.mem := by
  cases c with
  | fork =>
      obtain ⟨u, hu, h⟩ := bind_ok.1 h
      obtain ⟨-, rfl⟩ := Prod.mk.inj (Except.ok.inj h)
      obtain ⟨m, m', fam, sched, hbuild, hfork, -, -, rfl⟩ := forkFunc_ok hu
      have hstart : Hidden (createProc s).2.mem := hs.setSpace _ _
      have hbuilt : Hidden m := buildRegion0_hidden hstart hbuild
      have hback := switchFork_region1 hfork
      unfold SameRegion1 setSpace at hback
      exact hbuilt.same hback
  | exec file args =>
      obtain ⟨⟨r, info', u⟩, hu, h⟩ := bind_ok.1 h
      obtain ⟨-, rfl⟩ := Prod.mk.inj (Except.ok.inj h)
      obtain ⟨r', mem, hload, -, rfl⟩ := execFunc_ok hu
      exact hs.same (SameRegion1.loadProgram hload)
  | exit status =>
      obtain ⟨u, hu, h⟩ := bind_ok.1 h
      obtain ⟨-, rfl⟩ := Prod.mk.inj (Except.ok.inj h)
      exact hs.same (exit_region1 hu)
  | wait ptr =>
      obtain ⟨⟨res, u⟩, hu, h⟩ := bind_ok.1 h
      obtain ⟨-, rfl⟩ := Prod.mk.inj (Except.ok.inj h)
      rcases waitFunc_ok hu with ⟨-, -, -, rfl⟩ | ⟨-, -, -, next, sched, -, rfl⟩ | ⟨-, pid, fam, -, -, rfl⟩
      all_goals exact hs
  | getPid =>
      obtain ⟨-, rfl⟩ := Prod.mk.inj (Except.ok.inj h)
      exact hs
  | brk addr =>
      obtain ⟨⟨r, mem⟩, hmem, h⟩ := bind_ok.1 h
      obtain ⟨-, rfl⟩ := Prod.mk.inj (Except.ok.inj h)
      exact hs.same (SameRegion1.brkFunc hmem)
  | delay clockTicks =>
      obtain ⟨⟨res, u⟩, hu, h⟩ := bind_ok.1 h
      obtain ⟨-, rfl⟩ := Prod.mk.inj (Except.ok.inj h)
      rcases delayFunc_ok hu with ⟨-, rfl⟩ | ⟨-, -, queued, next, sched, -, -, -, -, rfl⟩
      all_goals exact hs

theorem resume_hidden {out : Option ExceptionInfo} (hs : Hidden s.mem) (h : Kernel.resume file s = .ok (out, t)) : Hidden t.mem := by
  unfold Kernel.resume at h
  cases hm : s.mode with
  | user | hung =>
      simp only [hm] at h
      obtain ⟨-, rfl⟩ := Prod.mk.inj (Except.ok.inj h)
      exact hs
  | resuming c =>
      simp only [hm] at h
      cases hk : c.kont with
      | boot p cmdArgs =>
          simp only [hk] at h
          obtain ⟨⟨r, info, mem⟩, hload, h⟩ := bind_ok.1 h
          obtain ⟨-, rfl⟩ := Prod.mk.inj (Except.ok.inj h)
          exact hs.same (SameRegion1.loadProgram hload)
      | fork child | delay =>
          simp only [hk] at h
          obtain ⟨-, rfl⟩ := Prod.mk.inj (Except.ok.inj h)
          exact hs
      | wait =>
          simp only [hk] at h
          obtain ⟨⟨pid, fam⟩, -, h⟩ := bind_ok.1 h
          obtain ⟨-, rfl⟩ := Prod.mk.inj (Except.ok.inj h)
          exact hs
      | clock item =>
          simp only [hk] at h
          obtain ⟨i, -, h⟩ := bind_ok.1 h
          exact hs.same (clockWalk_region1 h)
      | exit =>
          simp only [hk] at h
          obtain ⟨mem, hmem, h⟩ := bind_ok.1 h
          obtain ⟨-, rfl⟩ := Prod.mk.inj (Except.ok.inj h)
          exact releaseTable_hidden hs hmem

theorem step_hidden {e : Event} (hs : Hidden s.mem) (h : Step s e t) : Hidden t.mem := by
  obtain ⟨-, hnext⟩ := h
  cases e with
  | call c info =>
      obtain ⟨⟨out, u⟩, hcall, rfl⟩ := map_ok.1 hnext
      exact call_hidden hs hcall
  | memoryTrap info =>
      obtain ⟨⟨out, u⟩, htrap, rfl⟩ := map_ok.1 hnext
      rcases memoryTrap_ok htrap with ⟨-, -, mem, hmem, rfl⟩ | ⟨-, -, hexit⟩
      · exact hs.same (SameRegion1.growStack hmem)
      · exact hs.same (exit_region1 hexit)
  | fatalTrap info =>
      obtain ⟨⟨out, u⟩, htrap, rfl⟩ := map_ok.1 hnext
      obtain ⟨v, hv, h⟩ := bind_ok.1 htrap
      obtain ⟨-, rfl⟩ := Prod.mk.inj (Except.ok.inj h)
      exact hs.same (exit_region1 hv)
  | clock info =>
      obtain ⟨⟨out, u⟩, hclock, rfl⟩ := map_ok.1 hnext
      exact hs.same (clockWalk_region1 hclock)
  | resume file =>
      obtain ⟨⟨out, u⟩, hres, rfl⟩ := map_ok.1 hnext
      exact resume_hidden hs hres
  | kernelBrk addr =>
      obtain ⟨⟨r, mem⟩, hmem, h⟩ := bind_ok.1 hnext
      obtain rfl := Except.ok.inj h
      exact setKernelBrk_hidden hs hmem
  | userStore vaddr x =>
      obtain ⟨mem, hmem, h⟩ := bind_ok.1 hnext
      obtain rfl := Except.ok.inj h
      obtain ⟨f, e, -, -, -, -, rfl⟩ := userStore_ok hmem
      exact hs

/-- In every run in which the kernel keeps to its tables, user mode has no permission for any page of Region 1. -/
theorem reachable_hidden (h : Reachable Defined env t) : Hidden t.mem := by
  obtain ⟨s, hs, hrun⟩ := h
  induction hrun with
  | refl => exact boot_hidden hs
  | tail _ hstep ih =>
      obtain ⟨e, -, hstep⟩ := hstep
      exact step_hidden ih hstep

theorem reachable_hidden_small : ∃ t i, Reachable Defined smallBoot t ∧ i < pageTableLen ∧
    (t.mem.region1Pt i).valid = true ∧ Hidden t.mem := by
  obtain ⟨s₀, s₁, s₂, s₃, s₄, h, -⟩ := small_family
  obtain ⟨⟨out, u⟩, hcall, hu⟩ := map_ok.1 h.fork.2
  obtain rfl : u = s₁ := hu
  obtain ⟨v, hv, hcall⟩ := bind_ok.1 hcall
  obtain ⟨-, rfl⟩ := Prod.mk.inj (Except.ok.inj hcall)
  have hfork : Defined s₀ (.call .fork smallInfo) := ⟨forkFunc_inBounds hv, nofun, trivial⟩
  have hreach : Reachable Defined smallBoot v := ⟨s₀, h.boot, .single ⟨_, hfork, h.fork⟩⟩
  obtain ⟨-, i, hi, -, hvalid⟩ := fork_page hv
  exact ⟨v, i, hreach, hi, hvalid, reachable_hidden hreach⟩

end Yalnix.KernelPages
