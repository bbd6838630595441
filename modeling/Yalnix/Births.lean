import Yalnix.LayoutRuns

namespace Yalnix.Births

open Loops Machine AddressSpace LoadProgram Processes Kernel Accesses FreeList Calls Boot Runs Clock FrameLeak Indices LayoutRuns

variable {env : BootEnv} {s t u : State} {info : ExceptionInfo} {m m' : Memory} {file : Option File} {e : Event} {n p q : Nat}

structure Makes (n : Nat) (s t : State) : Prop where
  ids : ids t.fam = ids ((fun f => (createPcb f).2)^[n] s.fam)
  dead : ∀ p, s.exited p = true → t.exited p = true

theorem Makes.refl (s : State) : Makes 0 s s := ⟨rfl, fun _ h => h⟩

theorem createPcb_count (f : Family) : ((fun f => (createPcb f).2)^[n] f).count = f.count + n := by
  induction n generalizing f with
  | zero => rfl
  | succ n ih =>
      rw [Function.iterate_succ_apply, ih]
      exact Nat.add_right_comm _ 1 n

theorem Makes.count (h : Makes n s t) : t.fam.count = s.fam.count + n := (ids_count h.ids).trans (createPcb_count s.fam)

structure Numbered (f : Family) : Prop where
  next : f.nextProcId = f.count
  processId : ∀ p, p < f.count → f.processId p = p

theorem Numbered.congr {f f' : Family} (hf : Numbered f) (h : Calls.ids f' = Calls.ids f) : Numbered f' := by
  obtain ⟨hcount, hrest⟩ := Prod.mk.inj h
  obtain ⟨hnext, hid⟩ := Prod.mk.inj hrest
  exact ⟨by rw [hnext, hcount, hf.next], by rw [hid, hcount]; exact hf.processId⟩

def births : Event → Nat
  | .call .fork _ => 1
  | _ => 0

theorem exit_makes {status : Int} (h : exitFunc status info s = .ok t) : Makes 0 s t ∧ t.exited s.curr = true := by
  obtain ⟨woken, fam, sched, next, sched', mem, hlinks, -, -, hmem, rfl⟩ := exitFunc_ok h
  refine ⟨⟨(exitLinks_ids hlinks).1, fun p hp => ?_⟩, Function.update_self ..⟩
  change Function.update s.exited s.curr true p = true
  by_cases hpc : p = s.curr
  · rw [hpc, Function.update_self]
  · rw [Function.update_of_ne hpc]
    exact hp

theorem call_makes {c : Call} {out : Option ExceptionInfo} (h : trapKernelHandler c info s = .ok (out, t)) :
    Makes (births (.call c info)) s t := by
  cases c with
  | fork =>
      obtain ⟨u, hu, h⟩ := bind_ok.1 h
      obtain ⟨-, rfl⟩ := Prod.mk.inj (Except.ok.inj h)
      obtain ⟨m, m', fam, sched, -, -, hlink, -, rfl⟩ := forkFunc_ok hu
      exact ⟨linkChild_ids hlink, fun _ hp => hp⟩
  | exec file args =>
      obtain ⟨⟨r, info', u⟩, hu, h⟩ := bind_ok.1 h
      obtain ⟨-, rfl⟩ := Prod.mk.inj (Except.ok.inj h)
      obtain ⟨r', mem, hload, -, rfl⟩ := execFunc_ok hu
      exact ⟨rfl, fun _ hp => hp⟩
  | exit status =>
      obtain ⟨u, hu, h⟩ := bind_ok.1 h
      obtain ⟨-, rfl⟩ := Prod.mk.inj (Except.ok.inj h)
      exact (exit_makes hu).1
  | wait ptr =>
      obtain ⟨⟨res, u⟩, hu, h⟩ := bind_ok.1 h
      obtain ⟨-, rfl⟩ := Prod.mk.inj (Except.ok.inj h)
      rcases waitFunc_ok hu with ⟨-, -, -, rfl⟩ | ⟨-, -, -, next, sched, -, rfl⟩ | ⟨-, pid, fam, hcol, -, rfl⟩
      · exact .refl _
      · exact ⟨rfl, fun _ hp => hp⟩
      · exact ⟨collect_ids hcol, fun _ hp => hp⟩
  | getPid =>
      obtain ⟨-, rfl⟩ := Prod.mk.inj (Except.ok.inj h)
      exact .refl s
  | brk addr =>
      obtain ⟨⟨r, mem⟩, hmem, h⟩ := bind_ok.1 h
      obtain ⟨-, rfl⟩ := Prod.mk.inj (Except.ok.inj h)
      exact ⟨rfl, fun _ hp => hp⟩
  | delay clockTicks =>
      obtain ⟨⟨res, u⟩, hu, h⟩ := bind_ok.1 h
      obtain ⟨-, rfl⟩ := Prod.mk.inj (Except.ok.inj h)
      rcases delayFunc_ok hu with ⟨-, rfl⟩ | ⟨-, -, queued, next, sched, -, -, -, -, rfl⟩
      all_goals exact ⟨rfl, fun _ hp => hp⟩

theorem clock_makes {x : Ptr} {out : Option ExceptionInfo} (h : clockWalk info n x s = .ok (out, t)) : Makes 0 s t := by
  rcases clockWalk_ok h with ⟨-, -, ticks, sched, -, rfl⟩ | ⟨-, -, ticks, item, sched, sched', -, -, -, -, rfl⟩
  all_goals exact ⟨rfl, fun _ hp => hp⟩

theorem resume_makes {out : Option ExceptionInfo} (h : resume file s = .ok (out, t)) : Makes 0 s t := by
  unfold resume at h
  cases hm : s.mode with
  | user | hung =>
      simp only [hm] at h
      obtain ⟨-, rfl⟩ := Prod.mk.inj (Except.ok.inj h)
      exact .refl s
  | resuming c =>
      simp only [hm] at h
      cases hk : c.kont with
      | boot q cmdArgs =>
          simp only [hk] at h
          obtain ⟨⟨r, info, mem⟩, hload, h⟩ := bind_ok.1 h
          obtain ⟨-, rfl⟩ := Prod.mk.inj (Except.ok.inj h)
          exact ⟨rfl, fun _ hp => hp⟩
      | fork child | delay =>
          simp only [hk] at h
          obtain ⟨-, rfl⟩ := Prod.mk.inj (Except.ok.inj h)
          exact ⟨rfl, fun _ hp => hp⟩
      | wait =>
          simp only [hk] at h
          obtain ⟨⟨pid, fam⟩, hcol, h⟩ := bind_ok.1 h
          obtain ⟨-, rfl⟩ := Prod.mk.inj (Except.ok.inj h)
          exact ⟨collect_ids hcol, fun _ hp => hp⟩
      | clock item =>
          simp only [hk] at h
          obtain ⟨i, hi, h⟩ := bind_ok.1 h
          have hwalk := clock_makes h
          exact ⟨hwalk.ids, hwalk.dead⟩
      | exit =>
          simp only [hk] at h
          obtain ⟨mem, hmem, h⟩ := bind_ok.1 h
          obtain ⟨-, rfl⟩ := Prod.mk.inj (Except.ok.inj h)
          exact ⟨rfl, fun _ hp => hp⟩

theorem step_makes (h : Step s e t) : Makes (births e) s t := by
  obtain ⟨-, hnext⟩ := h
  cases e with
  | call c info =>
      obtain ⟨⟨out, u⟩, hcall, rfl⟩ := map_ok.1 hnext
      exact call_makes hcall
  | memoryTrap info =>
      obtain ⟨⟨out, u⟩, htrap, rfl⟩ := map_ok.1 hnext
      rcases memoryTrap_ok htrap with ⟨-, -, mem, hmem, rfl⟩ | ⟨-, -, hexit⟩
      · exact ⟨rfl, fun _ hp => hp⟩
      · exact (exit_makes hexit).1
  | fatalTrap info =>
      obtain ⟨⟨out, u⟩, htrap, rfl⟩ := map_ok.1 hnext
      obtain ⟨v, hv, h⟩ := bind_ok.1 htrap
      obtain ⟨-, rfl⟩ := Prod.mk.inj (Except.ok.inj h)
      exact (exit_makes hv).1
  | clock info =>
      obtain ⟨⟨out, u⟩, hclock, rfl⟩ := map_ok.1 hnext
      exact clock_makes hclock
  | resume file =>
      obtain ⟨⟨out, u⟩, hres, rfl⟩ := map_ok.1 hnext
      exact resume_makes hres
  | kernelBrk addr =>
      obtain ⟨⟨r, mem⟩, hmem, h⟩ := bind_ok.1 hnext
      obtain rfl := Except.ok.inj h
      exact ⟨rfl, fun _ hp => hp⟩
  | userStore vaddr x =>
      obtain ⟨mem, hmem, h⟩ := bind_ok.1 hnext
      obtain rfl := Except.ok.inj h
      exact ⟨rfl, fun _ hp => hp⟩

theorem exit_live {status : Int} (h : exitFunc status info s = .ok t) (hp : live t p) : p ≠ s.curr := by
  rintro rfl
  have hdead := (exit_makes h).2
  rw [hp.2] at hdead
  cases hdead

theorem step_live (h : Step s e t) (hp : live t p) : live s p ∨ p = s.fam.count ∧ ∃ info, e = .call .fork info := by
  have hmakes := step_makes h
  have halive : s.exited p = false := Bool.eq_false_iff.2 fun he => by
    have hd := hmakes.dead p he
    rw [hp.2] at hd
    cases hd
  have hlt := hp.1
  rw [hmakes.count] at hlt
  by_cases hold : p < s.fam.count
  · exact .inl ⟨hold, halive⟩
  · refine .inr ⟨?_, ?_⟩
    · have : births e ≤ 1 := by
        unfold births
        split
        · exact Nat.le_refl 1
        · exact Nat.zero_le 1
      omega
    · have hbirth : births e ≠ 0 := by omega
      unfold births at hbirth
      split at hbirth
      case h_1 info => exact ⟨info, rfl⟩
      case h_2 => exact absurd rfl hbirth

def validPages (m : Memory) : Nat := ((List.range pageTableLen).filter fun i => (m.region1Pt i).valid).length

theorem validPages_le (m : Memory) : validPages m ≤ pageTableLen :=
  (List.length_filter_le ..).trans (List.length_range ..).le

theorem PagesStay.count (h : PagesStay m m') : validPages m ≤ validPages m' :=
  List.Sublist.length_le (List.monotone_filter_right _ fun i hi => h i hi)

theorem PagesStay.count_lt {i : Nat} (h : PagesStay m m') (hi : i < pageTableLen) (hold : (m.region1Pt i).valid = false)
    (hnew : (m'.region1Pt i).valid = true) : validPages m < validPages m' := by
  refine Nat.lt_of_le_of_ne (PagesStay.count h) fun heq => ?_
  have hsub : ((List.range pageTableLen).filter fun i => (m.region1Pt i).valid).Sublist
      ((List.range pageTableLen).filter fun i => (m'.region1Pt i).valid) := List.monotone_filter_right _ fun i hi => h i hi
  have hmem : i ∈ (List.range pageTableLen).filter fun i => (m'.region1Pt i).valid :=
    List.mem_filter.2 ⟨List.mem_range.2 hi, hnew⟩
  rw [← hsub.eq_of_length heq] at hmem
  have hvalid := (List.mem_filter.1 hmem).2
  rw [hold] at hvalid
  cases hvalid

theorem step_validPages (ht : t.mode ≠ .hung) (h : Step s e t) : validPages s.mem + births e ≤ validPages t.mem := by
  have hstay := step_pages ht h
  unfold births
  split
  case h_1 info =>
    obtain ⟨⟨out, u⟩, hcall, rfl⟩ := map_ok.1 h.2
    obtain ⟨v, hv, hcall⟩ := bind_ok.1 hcall
    obtain ⟨-, rfl⟩ := Prod.mk.inj (Except.ok.inj hcall)
    obtain ⟨-, i, hi, hold, hnew⟩ := fork_page hv
    exact Nat.succ_le_of_lt (PagesStay.count_lt hstay hi hold hnew)
  case h_2 =>
    rw [Nat.add_zero]
    exact PagesStay.count hstay

theorem reaches_count {allowed : State → Event → Prop} (h : Reaches allowed s t) : s.fam.count ≤ t.fam.count := by
  induction h with
  | refl => exact Nat.le_refl _
  | tail _ hstep ih =>
      obtain ⟨e, -, hstep⟩ := hstep
      rw [(step_makes hstep).count]
      exact Nat.le_add_right_of_le ih

theorem reaches_births {allowed : State → Event → Prop} (h : Reaches allowed s t) (ht : t.mode ≠ .hung) :
    t.fam.count + validPages s.mem ≤ s.fam.count + validPages t.mem := by
  induction h with
  | refl => exact Nat.le_refl _
  | @tail u t _ hstep ih =>
      obtain ⟨e, -, hstep⟩ := hstep
      have hold := ih fun hu => ht (hung_stays hu hstep)
      have hcount := (step_makes hstep).count
      have hpages := step_validPages ht hstep
      omega

/-- The page of Region 1 that BuildRegion0 took for the table of `p`. -/
def homePage (s : State) (p : Nat) : Nat := (s.mem.space p).freeVpn

def KeepHomes (s t : State) : Prop := ∀ p, p < s.fam.count → homePage t p = homePage s p

theorem KeepHomes.of_space (h : t.mem.space = s.mem.space) : KeepHomes s t := fun p _ => by
  unfold homePage
  rw [h]

theorem KeepHomes.of_moves (h : Moves s.curr s.mem t.mem) : KeepHomes s t := fun p _ => (FrameOwnership.Moves.sameTable h p).2

theorem exit_homes {status : Int} (h : exitFunc status info s = .ok t) : KeepHomes s t := by
  obtain ⟨woken, fam, sched, next, sched', mem, -, -, -, hmem, rfl⟩ := exitFunc_ok h
  obtain ⟨u, hu, rfl⟩ := switchExit_table hmem
  exact .of_space hu.space

theorem fork_home (h : forkFunc info s = .ok t) : KeepHomes s t ∧ homePage t s.fam.count < pageTableLen ∧
    (s.mem.region1Pt (homePage t s.fam.count)).valid = false ∧ (t.mem.region1Pt (homePage t s.fam.count)).valid = true := by
  obtain ⟨m, m', fam, sched, hbuild, hfork, -, -, rfl⟩ := forkFunc_ok h
  have hback := switchFork_region1 hfork
  have hsame : m'.region1Pt = m.region1Pt := hback
  obtain ⟨i, -, hlt, hinv, -, hmap⟩ := buildRegion0_ok hbuild
  have htable := SameRegion1.upTo (fun _ _ _ => mapPage_region1) hmap
  have hfix := Fixed.upTo (fun _ _ _ => Fixed.mapPage) hmap
  have hcopy : m'.space = (setSpace m s.fam.count (childSpace s.curr s.fam.count m)).space := by
    obtain ⟨b, -, hfork⟩ := bind_ok.1 hfork
    obtain ⟨u, hu, hfork⟩ := bind_ok.1 hfork
    obtain ⟨v, hv, hfork⟩ := bind_ok.1 hfork
    obtain ⟨f, -, hv⟩ := bind_ok.1 hv
    obtain rfl := Except.ok.inj hv
    obtain rfl := Except.ok.inj hfork
    exact (Fixed.upTo (fun _ _ _ => Fixed.forkPage) hu).space
  have hchild : (m'.space s.fam.count).freeVpn = i := by
    rw [hcopy, setSpace_space_self, childSpace, hfix.space, setSpace_space_self]
  refine ⟨fun p hp => ?_, ?_⟩
  · have hne : p ≠ s.fam.count := Nat.ne_of_lt hp
    have hspace : m'.space p = s.mem.space p := by
      rw [hcopy]
      refine (put_of_ne hne ..).trans ?_
      rw [hfix.space]
      exact (put_of_ne hne ..).trans (put_of_ne hne ..)
    exact congrArg Space.freeVpn hspace
  · change (m'.space s.fam.count).freeVpn < _ ∧ (s.mem.region1Pt (m'.space s.fam.count).freeVpn).valid = false ∧
      (m'.region1Pt (m'.space s.fam.count).freeVpn).valid = true
    rw [hchild]
    refine ⟨hlt, hinv, ?_⟩
    rw [hsame, htable]
    change Pte.valid (put _ i _ i) = true
    rw [put_self]

theorem call_homes {c : Call} {out : Option ExceptionInfo} (h : trapKernelHandler c info s = .ok (out, t)) : KeepHomes s t := by
  cases c with
  | fork =>
      obtain ⟨u, hu, h⟩ := bind_ok.1 h
      obtain ⟨-, rfl⟩ := Prod.mk.inj (Except.ok.inj h)
      exact (fork_home hu).1
  | exec file args =>
      obtain ⟨⟨r, info', u⟩, hu, h⟩ := bind_ok.1 h
      obtain ⟨-, rfl⟩ := Prod.mk.inj (Except.ok.inj h)
      obtain ⟨r', mem, hload, -, rfl⟩ := execFunc_ok hu
      exact .of_moves (loadProgram_moves hload)
  | exit status =>
      obtain ⟨u, hu, h⟩ := bind_ok.1 h
      obtain ⟨-, rfl⟩ := Prod.mk.inj (Except.ok.inj h)
      exact exit_homes hu
  | wait ptr =>
      obtain ⟨⟨res, u⟩, hu, h⟩ := bind_ok.1 h
      obtain ⟨-, rfl⟩ := Prod.mk.inj (Except.ok.inj h)
      rcases waitFunc_ok hu with ⟨-, -, -, rfl⟩ | ⟨-, -, -, next, sched, -, rfl⟩ | ⟨-, pid, fam, -, -, rfl⟩
      all_goals exact .of_space rfl
  | getPid =>
      obtain ⟨-, rfl⟩ := Prod.mk.inj (Except.ok.inj h)
      exact .of_space rfl
  | brk addr =>
      obtain ⟨⟨r, mem⟩, hmem, h⟩ := bind_ok.1 h
      obtain ⟨-, rfl⟩ := Prod.mk.inj (Except.ok.inj h)
      exact .of_moves (brkFunc_moves hmem)
  | delay clockTicks =>
      obtain ⟨⟨res, u⟩, hu, h⟩ := bind_ok.1 h
      obtain ⟨-, rfl⟩ := Prod.mk.inj (Except.ok.inj h)
      rcases delayFunc_ok hu with ⟨-, rfl⟩ | ⟨-, -, queued, next, sched, -, -, -, -, rfl⟩
      all_goals exact .of_space rfl

theorem clock_homes {x : Ptr} {out : Option ExceptionInfo} (h : clockWalk info n x s = .ok (out, t)) : KeepHomes s t := by
  rcases clockWalk_ok h with ⟨-, -, ticks, sched, -, rfl⟩ | ⟨-, -, ticks, item, sched, sched', -, -, -, -, rfl⟩
  all_goals exact .of_space rfl

theorem resume_homes {out : Option ExceptionInfo} (h : resume file s = .ok (out, t)) : KeepHomes s t := by
  unfold resume at h
  cases hm : s.mode with
  | user | hung =>
      simp only [hm] at h
      obtain ⟨-, rfl⟩ := Prod.mk.inj (Except.ok.inj h)
      exact .of_space rfl
  | resuming c =>
      simp only [hm] at h
      cases hk : c.kont with
      | boot q cmdArgs =>
          simp only [hk] at h
          obtain ⟨⟨r, info, mem⟩, hload, h⟩ := bind_ok.1 h
          obtain ⟨-, rfl⟩ := Prod.mk.inj (Except.ok.inj h)
          exact .of_moves (loadProgram_moves hload)
      | fork child | delay =>
          simp only [hk] at h
          obtain ⟨-, rfl⟩ := Prod.mk.inj (Except.ok.inj h)
          exact .of_space rfl
      | wait =>
          simp only [hk] at h
          obtain ⟨⟨pid, fam⟩, -, h⟩ := bind_ok.1 h
          obtain ⟨-, rfl⟩ := Prod.mk.inj (Except.ok.inj h)
          exact .of_space rfl
      | clock item =>
          simp only [hk] at h
          obtain ⟨i, -, h⟩ := bind_ok.1 h
          exact clock_homes h
      | exit =>
          simp only [hk] at h
          obtain ⟨mem, hmem, h⟩ := bind_ok.1 h
          obtain ⟨-, rfl⟩ := Prod.mk.inj (Except.ok.inj h)
          obtain ⟨i, -, hmem⟩ := bind_ok.1 hmem
          obtain ⟨f, -, -, rfl⟩ := freePage_ok.1 hmem
          exact .of_space rfl

theorem step_homes (h : Step s e t) : KeepHomes s t := by
  obtain ⟨-, hnext⟩ := h
  cases e with
  | call c info =>
      obtain ⟨⟨out, u⟩, hcall, rfl⟩ := map_ok.1 hnext
      exact call_homes hcall
  | memoryTrap info =>
      obtain ⟨⟨out, u⟩, htrap, rfl⟩ := map_ok.1 hnext
      rcases memoryTrap_ok htrap with ⟨-, -, mem, hmem, rfl⟩ | ⟨-, -, hexit⟩
      · exact .of_moves (growStack_moves hmem)
      · exact exit_homes hexit
  | fatalTrap info =>
      obtain ⟨⟨out, u⟩, htrap, rfl⟩ := map_ok.1 hnext
      obtain ⟨v, hv, h⟩ := bind_ok.1 htrap
      obtain ⟨-, rfl⟩ := Prod.mk.inj (Except.ok.inj h)
      exact exit_homes hv
  | clock info =>
      obtain ⟨⟨out, u⟩, hclock, rfl⟩ := map_ok.1 hnext
      exact clock_homes hclock
  | resume file =>
      obtain ⟨⟨out, u⟩, hres, rfl⟩ := map_ok.1 hnext
      exact resume_homes hres
  | kernelBrk addr =>
      obtain ⟨⟨r, mem⟩, hmem, h⟩ := bind_ok.1 hnext
      obtain rfl := Except.ok.inj h
      exact .of_space (setKernelBrk_space hmem).2
  | userStore vaddr x =>
      obtain ⟨mem, hmem, h⟩ := bind_ok.1 hnext
      obtain rfl := Except.ok.inj h
      obtain ⟨f, e, -, -, -, -, rfl⟩ := userStore_ok hmem
      exact .of_space rfl

theorem step_newHome (h : Step s e t) (hp : s.fam.count ≤ p) (hlt : p < t.fam.count) : p = s.fam.count ∧
    homePage t p < pageTableLen ∧ (s.mem.region1Pt (homePage t p)).valid = false ∧ (t.mem.region1Pt (homePage t p)).valid = true := by
  have hcount := (step_makes h).count
  unfold births at hcount
  split at hcount
  case h_1 info =>
    obtain ⟨⟨out, u⟩, hcall, rfl⟩ := map_ok.1 h.2
    obtain ⟨v, hv, hcall⟩ := bind_ok.1 hcall
    obtain ⟨-, rfl⟩ := Prod.mk.inj (Except.ok.inj hcall)
    obtain rfl : p = s.fam.count := by omega
    exact ⟨rfl, (fork_home hv).2⟩
  case h_2 => omega

/-- Each process made since `s` has a valid page of its own that was not valid in `s`. -/
structure Homes (s t : State) : Prop where
  lt : ∀ p, s.fam.count ≤ p → p < t.fam.count → homePage t p < pageTableLen
  fresh : ∀ p, s.fam.count ≤ p → p < t.fam.count → (s.mem.region1Pt (homePage t p)).valid = false
  valid : ∀ p, s.fam.count ≤ p → p < t.fam.count → (t.mem.region1Pt (homePage t p)).valid = true
  apart : ∀ p q, s.fam.count ≤ p → p < q → q < t.fam.count → homePage t p ≠ homePage t q

theorem Homes.refl (s : State) : Homes s s :=
  ⟨fun _ h h' => by omega, fun _ h h' => by omega, fun _ h h' => by omega, fun _ _ h h' h'' => by omega⟩

/-- The pages that are held stay valid, and the page of a child was not valid. -/
theorem Homes.step (h : Homes s u) (hstay : PagesStay s.mem u.mem) (ht : t.mode ≠ .hung) (hstep : Step u e t) : Homes s t := by
  have hkeep := step_homes hstep
  have hpages := step_pages ht hstep
  refine ⟨fun p hp hlt => ?_, fun p hp hlt => ?_, fun p hp hlt => ?_, fun p q hp hpq hlt he => ?_⟩
  · by_cases hold : p < u.fam.count
    · rw [hkeep p hold]
      exact h.lt p hp hold
    · exact (step_newHome hstep (Nat.not_lt.1 hold) hlt).2.1
  · by_cases hold : p < u.fam.count
    · rw [hkeep p hold]
      exact h.fresh p hp hold
    · obtain ⟨-, -, hinv, -⟩ := step_newHome hstep (Nat.not_lt.1 hold) hlt
      refine Bool.eq_false_iff.2 fun hv => ?_
      rw [hstay _ hv] at hinv
      cases hinv
  · by_cases hold : p < u.fam.count
    · rw [hkeep p hold]
      exact hpages _ (h.valid p hp hold)
    · exact (step_newHome hstep (Nat.not_lt.1 hold) hlt).2.2.2
  · by_cases hold : q < u.fam.count
    · rw [hkeep p (Nat.lt_trans hpq hold), hkeep q hold] at he
      exact h.apart p q hp hpq hold he
    · obtain ⟨rfl, -, hinv, -⟩ := step_newHome hstep (Nat.not_lt.1 hold) hlt
      have hvalid := h.valid p hp hpq
      rw [← hkeep p hpq, he, hinv] at hvalid
      cases hvalid

theorem reaches_pages {allowed : State → Event → Prop} (h : Reaches allowed s t) (ht : t.mode ≠ .hung) : PagesStay s.mem t.mem := by
  induction h with
  | refl => exact .of_eq rfl
  | tail _ hstep ih =>
      obtain ⟨e, -, hstep⟩ := hstep
      exact (ih fun hu => ht (hung_stays hu hstep)).trans (step_pages ht hstep)

theorem reaches_homes {allowed : State → Event → Prop} (h : Reaches allowed s t) (ht : t.mode ≠ .hung) : Homes s t := by
  induction h with
  | refl => exact .refl s
  | tail hrun hstep ih =>
      obtain ⟨e, -, hstep⟩ := hstep
      have hu := fun hu => ht (hung_stays hu hstep)
      exact (ih hu).step (reaches_pages hrun hu) ht hstep

theorem reaches_keepHomes {allowed : State → Event → Prop} (h : Reaches allowed s t) : KeepHomes s t := by
  induction h with
  | refl => exact fun _ _ => rfl
  | tail hrun hstep ih =>
      obtain ⟨e, -, hstep⟩ := hstep
      exact fun p hp => (step_homes hstep p (Nat.lt_of_lt_of_le hp (reaches_count hrun))).trans (ih p hp)

/-- In every run in which the kernel keeps to its tables, each process that Fork makes takes
a page of Region 1 that boot left invalid, no two take the same, and the page stays that
process's and valid for good. So the processes that are ever made are at most two and
the pages that boot leaves invalid. -/
theorem reachable_births (hs : kernelStart env = .ok s) (hu : Reaches Defined s u) (h : Reaches Defined u t) (ht : t.mode ≠ .hung) :
    Homes s t ∧ (∀ p, 2 ≤ p → p < u.fam.count → homePage t p = homePage u p ∧ (t.mem.region1Pt (homePage u p)).valid = true) ∧
      t.fam.count ≤ 2 + (pageTableLen - validPages s.mem) := by
  have hrun : Reaches Defined s t := hu.trans h
  have hboot := boot_count hs
  have hhomes := reaches_homes hrun ht
  refine ⟨hhomes, fun p hp hlt => ?_, ?_⟩
  · have hkeep := reaches_keepHomes h p hlt
    exact ⟨hkeep, hkeep ▸ hhomes.valid p (hboot.symm ▸ hp) (Nat.lt_of_lt_of_le hlt (reaches_count h))⟩
  · have hbirths := reaches_births hrun ht
    have := validPages_le t.mem
    omega

theorem reachable_births_small : ∃ s u t, kernelStart smallBoot = .ok s ∧ Reaches Defined s u ∧ Reaches Defined u t ∧
    u.fam.count = 3 ∧ Homes s t ∧ homePage t 2 = homePage u 2 ∧ (t.mem.region1Pt (homePage u 2)).valid = true := by
  obtain ⟨s₀, s₁, s₂, s₃, s₄, h, -⟩ := small_family
  obtain ⟨hfork, hchild, -⟩ := FrameOwnership.small_safe h
  have hmode : s₂.mode ≠ .hung := by
    rw [h.child_eq]
    nofun
  have hcount : s₁.fam.count = 3 := (step_makes h.fork).count.trans (congrArg (· + 1) h.start.2.2.1)
  have hu : Reaches Defined s₀ s₁ := .single ⟨_, hfork.defined, h.fork⟩
  have ht : Reaches Defined s₁ s₂ := .single ⟨_, hchild.defined, h.child⟩
  obtain ⟨hhomes, hkeep, -⟩ := reachable_births h.boot hu ht hmode
  exact ⟨s₀, s₁, s₂, h.boot, hu, ht, hcount, hhomes, hkeep 2 (Nat.le_refl 2) (by omega)⟩

end Yalnix.Births
