import Yalnix.KernelHeap
import Yalnix.Clock

namespace Yalnix.FrameLeak

open Loops Machine LoadProgram Processes Kernel Accesses FreeList Calls Runs Clock

variable {env : BootEnv} {s t u : State} {info : ExceptionInfo} {m m' m₁ m₂ : Memory} {p : TablePtr}

def PagesStay (m m' : Memory) : Prop := ∀ i, (m.region1Pt i).valid = true → (m'.region1Pt i).valid = true

theorem PagesStay.of_eq (h : m'.region1Pt = m.region1Pt) : PagesStay m m' := fun i hi => by rwa [h]

theorem PagesStay.trans (h : PagesStay m₁ m₂) (h' : PagesStay m₂ m') : PagesStay m₁ m' := fun i hi => h' i (h i hi)

def SameRegion1 (m m' : Memory) : Prop := m'.region1Pt = m.region1Pt

namespace SameRegion1

theorem refl (m : Memory) : SameRegion1 m m := rfl

theorem trans (h : SameRegion1 m₁ m₂) (h' : SameRegion1 m₂ m') : SameRegion1 m₁ m' := Eq.trans h' h

theorem upTo {body : Nat → Memory → Except Fault Memory} {start n : Nat}
    (hstep : ∀ i m m', body i m = .ok m' → SameRegion1 m m') (h : upTo body start n m = .ok m') : SameRegion1 m m' :=
  upTo_relation SameRegion1 refl (fun _ _ _ => trans) (fun i s t _ _ => hstep i s t) h

theorem writePte {i : Int} {e : Pte} (h : writePte p i e m = .ok m') : SameRegion1 m m' := by
  obtain ⟨j, w, -, -, -, rfl⟩ := writePte_ok.1 h
  exact word_write_region1 ..

theorem freePage {i : Int} (h : freePage i m = .ok m') : SameRegion1 m m' := by
  obtain ⟨f, -, -, rfl⟩ := freePage_ok.1 h
  exact rfl

theorem storeByte {vaddr : Nat} {x : BitVec 8} (h : storeByte vaddr x m = .ok m') : SameRegion1 m m' := by
  obtain ⟨f, -, h⟩ := bind_ok.1 h
  obtain ⟨e, -, h⟩ := bind_ok.1 h
  obtain ⟨-, h⟩ := ite_error_ok.1 h
  obtain rfl := Except.ok.inj h
  exact rfl

theorem freeEntry {k : Nat} (h : freeEntry p k m = .ok m') : SameRegion1 m m' := by
  unfold LoadProgram.freeEntry at h
  split at h
  case isTrue =>
    obtain ⟨e, -, h⟩ := bind_ok.1 h
    split at h
    case isTrue =>
      obtain ⟨v, hv, h⟩ := bind_ok.1 h
      exact (freePage hv).trans (writePte h)
    case isFalse =>
      obtain rfl := Except.ok.inj h
      exact refl m
  case isFalse =>
    obtain rfl := Except.ok.inj h
    exact refl m

theorem invalidate {k : Nat} (h : invalidate p k m = .ok m') : SameRegion1 m m' := by
  obtain ⟨e, -, h⟩ := bind_ok.1 h
  exact writePte h

theorem protectText {k : Nat} (h : protectText p k m = .ok m') : SameRegion1 m m' := by
  obtain ⟨e, -, h⟩ := bind_ok.1 h
  exact writePte h

theorem loadProgram {curr : Nat} {file : Option File} {args : List (List (BitVec 8))} {info' : ExceptionInfo} {r : Int}
    (h : loadProgram curr p file args info m = .ok (r, info', m')) : SameRegion1 m m' := by
  rcases loadProgram_ok h with ⟨-, -, rfl⟩ | ⟨f, li, -, -, -, ⟨-, -, -, rfl⟩ | ⟨-, m₁, h₁, h₂⟩⟩
  · exact refl _
  · exact rfl
  · have hlay := layOut_relation refl (fun _ _ _ => trans) (fun _ _ _ => freeEntry) (fun _ _ _ => invalidate)
      (fun _ _ _ _ _ => mapPage_region1) h₁
    have hfill := fill_relation refl (fun _ _ _ => trans) (fun _ _ _ _ => storeByte) (fun _ _ _ => protectText) h₂
    exact trans hlay hfill

theorem brkDown {page : Nat} (h : AddressSpace.brkDown page m = .ok m') : SameRegion1 m m' := by
  obtain ⟨v, hv, h⟩ := bind_ok.1 h
  obtain ⟨e, -, h⟩ := bind_ok.1 h
  exact (freePage hv).trans (writePte h)

theorem brkFunc {curr addr : Nat} {r : Int} (h : AddressSpace.brkFunc curr addr m = .ok (r, m')) : SameRegion1 m m' := by
  unfold AddressSpace.brkFunc at h
  dsimp only at h
  split at h
  case isTrue =>
    obtain ⟨v, hv, h⟩ := bind_ok.1 h
    obtain ⟨-, rfl⟩ := Prod.mk.inj (Except.ok.inj h)
    have hloop : SameRegion1 m v := upTo (fun _ _ _ => brkDown) hv
    exact hloop
  case isFalse =>
    split at h
    case isTrue =>
      obtain ⟨v, hv, h⟩ := bind_ok.1 h
      obtain ⟨-, rfl⟩ := Prod.mk.inj (Except.ok.inj h)
      have hloop : SameRegion1 m v := upTo (fun _ _ _ => mapPage_region1) hv
      exact hloop
    case isFalse =>
      obtain ⟨-, rfl⟩ := Prod.mk.inj (Except.ok.inj h)
      exact refl _

theorem growStack {curr vpn : Nat} (h : AddressSpace.growStack curr vpn m = .ok m') : SameRegion1 m m' := by
  unfold AddressSpace.growStack at h
  dsimp only at h
  obtain ⟨v, hv, h⟩ := bind_ok.1 h
  obtain rfl := Except.ok.inj h
  have hloop : SameRegion1 m v := upTo (fun _ _ _ => mapPage_region1) hv
  exact hloop

theorem exitPage {proc page : Nat} (h : AddressSpace.exitPage proc page m = .ok m') : SameRegion1 m m' := by
  obtain ⟨e, -, h⟩ := bind_ok.1 h
  split at h
  case isTrue => exact freePage h
  case isFalse =>
    obtain rfl := Except.ok.inj h
    exact refl m

theorem switchExit {proc1 proc2 : Nat} (h : AddressSpace.switchExit proc1 proc2 m = .ok m') : SameRegion1 m m' := by
  obtain ⟨m₁, h₁, h⟩ := bind_ok.1 h
  obtain rfl := Except.ok.inj h
  have hloop : SameRegion1 m m₁ := upTo (fun _ _ _ => exitPage) h₁
  exact hloop

end SameRegion1

theorem forkPage_region1 {parent child b page i : Nat} (hi : i ≠ b) (h : AddressSpace.forkPage parent child b page m = .ok m') :
    m'.region1Pt i = m.region1Pt i := by
  obtain ⟨e, -, h⟩ := bind_ok.1 h
  split at h
  case isTrue =>
    obtain ⟨v, hv, h⟩ := bind_ok.1 h
    obtain ⟨c, -, h⟩ := bind_ok.1 h
    obtain ⟨source, dest, -, -, rfl⟩ := copyPage_ok.1 h
    exact (region1_write_of_ne hi ..).trans (congrFun (mapPage_region1 hv) i)
  case isFalse =>
    obtain ⟨c, -, h⟩ := bind_ok.1 h
    exact congrFun (SameRegion1.writePte h) i

theorem switchFork_region1 {parent child : Nat} (h : AddressSpace.switchFork parent child m = .ok m') : SameRegion1 m m' := by
  obtain ⟨b, -, h⟩ := bind_ok.1 h
  obtain ⟨m₁, h₁, h⟩ := bind_ok.1 h
  obtain ⟨m₂, h₂, h⟩ := bind_ok.1 h
  obtain rfl := Except.ok.inj h
  obtain ⟨-, rfl⟩ := returnPage_ok h₂
  funext i
  change put m₁.region1Pt b (m.region1Pt b) i = m.region1Pt i
  by_cases hi : i = b
  · rw [hi, put_self]
  · rw [put_of_ne hi]
    have hloop := upTo_relation (fun u v : Memory => v.region1Pt i = u.region1Pt i) (fun _ => rfl)
      (fun _ _ _ h h' => h'.trans h) (fun _ _ _ _ _ => forkPage_region1 hi) h₁
    exact hloop.trans (region1_write_of_ne hi ..)

theorem fork_page (h : forkFunc info s = .ok t) :
    PagesStay s.mem t.mem ∧ ∃ i, i < pageTableLen ∧ (s.mem.region1Pt i).valid = false ∧ (t.mem.region1Pt i).valid = true := by
  obtain ⟨m, m', fam, sched, hbuild, hfork, -, -, rfl⟩ := forkFunc_ok h
  have hback := switchFork_region1 hfork
  have hsame : m'.region1Pt = m.region1Pt := hback
  refine ⟨fun i hi => ?_, ?_⟩
  · change (m'.region1Pt i).valid = true
    rw [hsame, (KernelHeap.buildRegion0_region1 hbuild).1 i hi]
    exact hi
  · obtain ⟨i, -, hlt, hinv, -, hmap⟩ := buildRegion0_ok hbuild
    have htable := SameRegion1.upTo (fun _ _ _ => mapPage_region1) hmap
    refine ⟨i, hlt, hinv, ?_⟩
    change (m'.region1Pt i).valid = true
    rw [hsame, htable]
    change Pte.valid (put _ i _ i) = true
    rw [put_self]

theorem setKernelBrk_pages {addr : Nat} {r : Int} (h : AddressSpace.setKernelBrk addr m = .ok (r, m')) : PagesStay m m' := by
  rcases setKernelBrk_ok h with ⟨-, -, -, rfl⟩ | ⟨-, -, rfl⟩ | ⟨-, -, -, v, hv, rfl⟩
  · exact .of_eq rfl
  · exact .of_eq rfl
  · have hloop := upTo_relation PagesStay (fun _ => .of_eq rfl) (fun _ _ _ => PagesStay.trans)
      (fun k m₁ m₂ _ _ hk => ?_) hv
    · exact hloop
    · obtain ⟨j, -, -, ⟨f, l, -, rfl⟩ | ⟨-, rfl⟩⟩ := mapKernelPage_cases hk
      all_goals
        intro i hi
        by_cases hij : i = j
        · rw [hij, region1_write_self]
        · rw [region1_write_of_ne hij]
          exact hi

theorem exit_pages {status : Int} (h : exitFunc status info s = .ok t) : PagesStay s.mem t.mem := by
  obtain ⟨woken, fam, sched, next, sched', mem, -, -, -, hmem, rfl⟩ := exitFunc_ok h
  have hsame := SameRegion1.switchExit hmem
  exact .of_eq hsame

theorem clockWalk_region1 {n : Nat} {x : Ptr} {out : Option ExceptionInfo} (h : clockWalk info n x s = .ok (out, t)) :
    t.mem.region1Pt = s.mem.region1Pt := by
  rcases clockWalk_ok h with ⟨-, -, ticks, sched, -, rfl⟩ | ⟨-, -, ticks, item, sched, sched', -, -, -, -, rfl⟩
  · rfl
  · rfl

theorem call_pages {c : Call} {out : Option ExceptionInfo} (h : trapKernelHandler c info s = .ok (out, t)) :
    PagesStay s.mem t.mem := by
  cases c with
  | fork =>
      obtain ⟨v, hv, h⟩ := bind_ok.1 h
      obtain ⟨-, rfl⟩ := Prod.mk.inj (Except.ok.inj h)
      exact (fork_page hv).1
  | exec file args =>
      obtain ⟨⟨r, info', v⟩, hv, h⟩ := bind_ok.1 h
      obtain ⟨-, rfl⟩ := Prod.mk.inj (Except.ok.inj h)
      obtain ⟨r', mem, hload, -, rfl⟩ := execFunc_ok hv
      have hsame := SameRegion1.loadProgram hload
      exact .of_eq hsame
  | exit status =>
      obtain ⟨v, hv, h⟩ := bind_ok.1 h
      obtain ⟨-, rfl⟩ := Prod.mk.inj (Except.ok.inj h)
      exact exit_pages hv
  | wait ptr =>
      obtain ⟨⟨res, v⟩, hv, h⟩ := bind_ok.1 h
      obtain ⟨-, rfl⟩ := Prod.mk.inj (Except.ok.inj h)
      rcases waitFunc_ok hv with ⟨-, -, -, rfl⟩ | ⟨-, -, -, next, sched, -, rfl⟩ | ⟨-, pid, fam, -, -, rfl⟩
      · exact .of_eq rfl
      · exact .of_eq rfl
      · exact .of_eq rfl
  | getPid =>
      obtain ⟨-, rfl⟩ := Prod.mk.inj (Except.ok.inj h)
      exact .of_eq rfl
  | brk addr =>
      obtain ⟨⟨r, mem⟩, hmem, h⟩ := bind_ok.1 h
      obtain ⟨-, rfl⟩ := Prod.mk.inj (Except.ok.inj h)
      have hsame := SameRegion1.brkFunc hmem
      exact .of_eq hsame
  | delay clockTicks =>
      obtain ⟨⟨res, v⟩, hv, h⟩ := bind_ok.1 h
      obtain ⟨-, rfl⟩ := Prod.mk.inj (Except.ok.inj h)
      rcases delayFunc_ok hv with ⟨-, rfl⟩ | ⟨-, -, queued, next, sched, -, -, -, -, rfl⟩
      · exact .of_eq rfl
      · exact .of_eq rfl

/-- The code of `ExitFunc` behind its switch, which would take the page away, does not return. -/
theorem resume_pages {file : Option File} {out : Option ExceptionInfo} (ht : t.mode ≠ .hung)
    (h : resume file s = .ok (out, t)) : PagesStay s.mem t.mem := by
  unfold resume at h
  cases hm : s.mode with
  | user | hung =>
      simp only [hm] at h
      obtain ⟨-, rfl⟩ := Prod.mk.inj (Except.ok.inj h)
      exact .of_eq rfl
  | resuming c =>
      simp only [hm] at h
      cases hk : c.kont with
      | boot pcb2 cmdArgs =>
          simp only [hk] at h
          obtain ⟨⟨r, info, mem⟩, hload, h⟩ := bind_ok.1 h
          obtain ⟨-, rfl⟩ := Prod.mk.inj (Except.ok.inj h)
          have hsame := SameRegion1.loadProgram hload
          exact .of_eq hsame
      | fork child | delay =>
          simp only [hk] at h
          obtain ⟨-, rfl⟩ := Prod.mk.inj (Except.ok.inj h)
          exact .of_eq rfl
      | wait =>
          simp only [hk] at h
          obtain ⟨⟨pid, fam⟩, -, h⟩ := bind_ok.1 h
          obtain ⟨-, rfl⟩ := Prod.mk.inj (Except.ok.inj h)
          exact .of_eq rfl
      | clock item =>
          simp only [hk] at h
          obtain ⟨i, -, h⟩ := bind_ok.1 h
          exact .of_eq (clockWalk_region1 h)
      | exit =>
          simp only [hk] at h
          obtain ⟨mem, -, h⟩ := bind_ok.1 h
          obtain ⟨-, rfl⟩ := Prod.mk.inj (Except.ok.inj h)
          exact absurd rfl ht

theorem step_pages {e : Event} (ht : t.mode ≠ .hung) (h : Step s e t) : PagesStay s.mem t.mem := by
  obtain ⟨-, hnext⟩ := h
  cases e with
  | call c info =>
      obtain ⟨⟨out, u⟩, hcall, rfl⟩ := map_ok.1 hnext
      exact call_pages hcall
  | memoryTrap info =>
      obtain ⟨⟨out, u⟩, htrap, rfl⟩ := map_ok.1 hnext
      rcases memoryTrap_ok htrap with ⟨-, -, mem, hmem, rfl⟩ | ⟨-, -, hexit⟩
      · have hsame := SameRegion1.growStack hmem
        exact .of_eq hsame
      · exact exit_pages hexit
  | fatalTrap info =>
      obtain ⟨⟨out, u⟩, htrap, rfl⟩ := map_ok.1 hnext
      obtain ⟨v, hv, h⟩ := bind_ok.1 htrap
      obtain ⟨-, rfl⟩ := Prod.mk.inj (Except.ok.inj h)
      exact exit_pages hv
  | clock info =>
      obtain ⟨⟨out, u⟩, hclock, rfl⟩ := map_ok.1 hnext
      exact .of_eq (clockWalk_region1 hclock)
  | resume file =>
      obtain ⟨⟨out, u⟩, hres, rfl⟩ := map_ok.1 hnext
      exact resume_pages ht hres
  | kernelBrk addr =>
      obtain ⟨⟨r, mem⟩, hmem, h⟩ := bind_ok.1 hnext
      obtain rfl := Except.ok.inj h
      exact setKernelBrk_pages hmem
  | userStore vaddr x =>
      obtain ⟨mem, hmem, h⟩ := bind_ok.1 hnext
      obtain rfl := Except.ok.inj h
      obtain ⟨f, e, -, -, -, -, rfl⟩ := userStore_ok hmem
      exact .of_eq rfl

theorem hung_stays {e : Event} (hs : s.mode = .hung) (h : Step s e t) : t.mode = .hung := by
  obtain ⟨hen, hnext⟩ := h
  have hno : ¬ State.userMode s := by
    rw [userMode_iff, hs]
    nofun
  cases e with
  | call c info => exact absurd hen hno
  | memoryTrap info => exact absurd hen.1 hno
  | fatalTrap info => exact absurd hen hno
  | clock info => exact absurd hen hno
  | userStore vaddr x => exact absurd hen hno
  | resume file =>
      obtain ⟨⟨out, u⟩, hres, rfl⟩ := map_ok.1 hnext
      simp only [resume, hs] at hres
      obtain ⟨-, rfl⟩ := Prod.mk.inj (Except.ok.inj hres)
      exact hs
  | kernelBrk addr =>
      obtain ⟨⟨r, mem⟩, hmem, h⟩ := bind_ok.1 hnext
      obtain rfl := Except.ok.inj h
      exact hs

theorem reaches_pages {allowed : State → Event → Prop} (h : Reaches allowed s t) (ht : t.mode ≠ .hung) :
    PagesStay s.mem t.mem := by
  induction h with
  | refl => exact .of_eq rfl
  | @tail u t _ hstep ih =>
      obtain ⟨e, -, hstep⟩ := hstep
      exact (ih fun hu => ht (hung_stays hu hstep)).trans (step_pages ht hstep)

def NoGrowth (_ : State) : Event → Prop
  | .kernelBrk _ => False
  | _ => True

/-- The process that runs in `s` forks. In `u` the child and all processes made
since have exited, and the parent has gone on. -/
structure ChildLife (env : BootEnv) (s u : State) : Prop where
  start : Reachable (fun _ _ => True) env s
  life : ∃ info t, Step s (.call .fork info) t ∧ Reaches NoGrowth t u
  exited : ∀ q, s.fam.count ≤ q → q < u.fam.count → u.exited q = true
  parent : State.userMode u ∧ u.curr = s.curr

def Returned (m m' : Memory) : Prop :=
  (∀ f, f < m.numPages → (m'.freePages f = .pageFree ↔ m.freePages f = .pageFree)) ∧
  ∀ i, i < pageTableLen → (m'.region1Pt i).valid = (m.region1Pt i).valid

/-- No life of a child gives back all that it took: the page of its table stays valid. -/
theorem childLife_leaks (h : ChildLife env s u) : ¬ Returned s.mem u.mem := by
  obtain ⟨info, t, ⟨-, hfork⟩, hrun⟩ := h.life
  obtain ⟨⟨out, v⟩, hcall, rfl⟩ := map_ok.1 hfork
  obtain ⟨v', hv, hret⟩ := bind_ok.1 hcall
  obtain ⟨-, rfl⟩ := Prod.mk.inj (Except.ok.inj hret)
  obtain ⟨-, i, hlt, hinv, hval⟩ := fork_page hv
  have hmode : u.mode ≠ .hung := by
    rw [userMode_iff.1 h.parent.1]
    nofun
  have hlast := reaches_pages hrun hmode i hval
  intro hret
  rw [hret.2 i hlt, hinv] at hlast
  cases hlast

theorem small_life {s₀ s₁ s₂ s₃ s₄ : State} (h : SmallFamily s₀ s₁ s₂ s₃ s₄) : ChildLife smallBoot s₀ s₄ := by
  obtain ⟨⟨out, v⟩, hcall, rfl⟩ := map_ok.1 h.fork.2
  obtain ⟨v', hv, hret⟩ := bind_ok.1 hcall
  obtain ⟨-, rfl⟩ := Prod.mk.inj (Except.ok.inj hret)
  obtain ⟨⟨out', w⟩, hcall', rfl⟩ := map_ok.1 h.exit.2
  obtain ⟨w', hw, hret'⟩ := bind_ok.1 hcall'
  obtain ⟨-, rfl⟩ := Prod.mk.inj (Except.ok.inj hret')
  refine ⟨⟨s₀, h.boot, .refl⟩, ⟨_, _, h.fork, ?_⟩, fun q hq hlt => ?_, ?_⟩
  · exact .tail (.tail (.single ⟨.resume none, trivial, h.child⟩) ⟨.call (.exit 7) smallInfo, trivial, h.exit⟩)
      ⟨.resume none, trivial, h.parent⟩
  · obtain rfl := h.parent_eq
    obtain rfl := h.child_eq
    obtain ⟨woken, fam, sched, next, sched', mem, hlinks, -, -, -, rfl⟩ := exitFunc_ok hw
    obtain ⟨m, m', fam', sched'', -, -, hlink, -, rfl⟩ := forkFunc_ok hv
    change q < fam.count at hlt
    rw [(exitLinks_count hlinks).1] at hlt
    change q < fam'.count at hlt
    rw [linkChild_count hlink] at hlt
    have hcount : s₀.fam.count = 2 := h.start.2.2.1
    change q < s₀.fam.count + 1 at hlt
    have hq : q = sched''.currProc := by
      have hcurr : sched''.currProc = 2 := h.forked.2.1
      omega
    rw [hq]
    exact Function.update_self ..
  · obtain rfl := h.parent_eq
    exact ⟨trivial, h.exited.2.1.trans h.start.1.symm⟩

theorem childLife_leaks_small : ∃ s u, ChildLife smallBoot s u ∧ ¬ Returned s.mem u.mem := by
  obtain ⟨s₀, s₁, s₂, s₃, s₄, h, -⟩ := small_family
  exact ⟨s₀, s₄, small_life h, childLife_leaks (small_life h)⟩

/-- Init's child exits at once, and page 508 of Region 1 is valid from then on. -/
theorem child_leaves_table : ∃ s u, ChildLife smallBoot s u ∧ (s.mem.region1Pt 508).valid = false ∧
    (u.mem.region1Pt 508).valid = true ∧ ¬ Returned s.mem u.mem := by
  obtain ⟨s₀, s₁, s₂, s₃, s₄, h, -⟩ := small_family
  obtain ⟨hinv, hval⟩ := h.table_left
  refine ⟨s₀, s₄, small_life h, hinv, hval, fun hret => ?_⟩
  rw [hret.2 508 (by decide), hinv] at hval
  cases hval

end Yalnix.FrameLeak
