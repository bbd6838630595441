import Yalnix.SpaceLayout

namespace Yalnix.Privacy

open Loops Machine AddressSpace LoadProgram Processes Queues Kernel Accesses FreeList Calls Boot Runs Clock CurrProc Layout Allocation
  Frames FrameLeak SwitchFrames BootFrames FrameOwnership Isolation SpaceLayout

variable {env : BootEnv} {s t u : State} {info info' : ExceptionInfo} {m m' mem : Memory} {P : Slot → Prop} {w v : Word}
  {ptr own : TablePtr} {file : Option File} {args : List (List (BitVec 8))} {r : Int} {curr p q : Nat}

/-- The step is the doing of `q`: it traps or stores, or it runs the code of
`KernelStart` behind the switch, or its program is the one loaded there. -/
def Acts (s : State) : Event → Nat → Prop
  | .call _ _, q | .memoryTrap _, q | .fatalTrap _, q | .userStore _ _, q => q = s.curr
  | .resume _, q => ∃ c p args, s.mode = .resuming c ∧ c.kont = .boot p args ∧ (q = p ∨ q = s.curr)
  | .clock _, _ | .kernelBrk _, _ => False

/-- The frames stay apart, and Brk moves no break in the table of another process. -/
def Considerate (s : State) (e : Event) : Prop := Safe s e ∧ ∀ addr info, e = .call (.brk addr) info → BrkSpares s addr

theorem Considerate.spares {c : Call} (h : Considerate s (.call c info)) : Spares s (.call c info) := by
  cases c with
  | brk addr => exact ⟨h.1, h.2 addr info rfl⟩
  | _ => exact h.1

theorem Orderly.considerate {e : Event} (hs : Sound s) (h : Orderly s e) (hen : enabled s e) : Considerate s e := by
  refine ⟨h.1, ?_⟩
  rintro addr info rfl
  have hlive := hs.live_curr (userMode_iff.1 hen)
  have hfits : BrkFits s addr := h.2
  rcases hfits with heq | ⟨hlt, hinv⟩ | ⟨hstatic, -, -⟩
  · refine .inr ?_
    have hno : brkPages s.mem s.curr addr = 0 := by
      unfold brkPages
      rw [if_neg (by omega), heq, Int.sub_self]
      rfl
    rw [if_neg (by omega)]
    exact fun _ => hno
  · refine .inr ?_
    rw [if_neg (by omega)]
    exact fun hle => absurd hle (by omega)
  · exact .inl fun q hq hne ht => hne (hs.tables q s.curr hq.1 hlive.1 (ht.trans hstatic.symm))

theorem fill_spares {li : LoadInfo} {read : Option (List (BitVec 8))} {z : Sizes} (h : Loading P own v m) (hptr : Leads m ptr w)
    (hin : ∀ j, j < pageTableLen → P (.entry w j)) (hown : ∀ j, j < pageTableLen → P (.entry v j)) {x : Word}
    (hx : ∀ j, j < pageTableLen → P (.entry x j)) (hne : x ≠ w) (hne' : x ≠ v)
    (hfill : fill ptr li read args z info m = .ok (r, info', m')) : Untouched x m m' := by
  have hrel := fill_relation (R := fun u u' => Loading P own v u ∧ Leads u ptr w →
      (Loading P own v u' ∧ Leads u' ptr w) ∧ Untouched x u u')
    (fun u hu => ⟨hu, .refl x u⟩) (fun u₁ u₂ u₃ h₁ h₂ hu => ?_) (fun vaddr b u u' hs hu => ?_) (fun k u u' hp hu => ?_) hfill
  · exact (hrel ⟨h, hptr⟩).2
  · obtain ⟨hu₂, ht⟩ := h₁ hu
    exact ⟨(h₂ hu₂).1, ht.trans (h₂ hu₂).2⟩
  · obtain ⟨hload, hlead⟩ := hu
    have hfix := Fixed.storeByte hs
    have hsame := SameRegion1.storeByte hs
    have hrun : ∀ j, j < pageTableLen → P (.entry (wordOf u.regPtr0) j) := hload.running.symm ▸ hown
    exact ⟨⟨⟨storeByte_owned hload.owned hrun hs, Leads.of_fixed hload.leads hfix hsame, hfix.regPtr0.symm ▸ hload.running⟩,
      Leads.of_fixed hlead hfix hsame⟩, storeByte_untouched hload hown hx hne' hs⟩
  · obtain ⟨hload, hlead⟩ := hu
    have hfix := Fixed.protectText hp
    have hsame := SameRegion1.protectText hp
    exact ⟨⟨⟨protectText_owned hload.owned hp, Leads.of_fixed hload.leads hfix hsame, hfix.regPtr0.symm ▸ hload.running⟩,
      Leads.of_fixed hlead hfix hsame⟩, (Within.protectText hp w hlead).2.untouched hload.owned (hin 0 (by decide)) hx hne⟩

theorem loadProgram_spares (h : Loading P own v m) (hptr : Leads m ptr w) (hin : ∀ j, j < pageTableLen → P (.entry w j))
    (hown : ∀ j, j < pageTableLen → P (.entry v j)) {x : Word} (hx : ∀ j, j < pageTableLen → P (.entry x j)) (hne : x ≠ w)
    (hne' : x ≠ v) (henough : LoadOwned m w file args) (hload : loadProgram curr ptr file args info m = .ok (r, info', m')) :
    Untouched x m m' := by
  rcases loadProgram_ok hload with ⟨-, -, rfl⟩ | ⟨f, li, hf, hst, hvirt, ⟨-, -, -, rfl⟩ | ⟨hp, m₁, h₁, h₂⟩⟩
  · exact .refl x m'
  · exact setSpace_untouched ..
  · have hlead : Leads (setSpace m curr { m.space curr with brk := newBrk (sizes m.cfg li args) }) ptr w :=
      leads_congr hptr rfl fun _ _ => rfl
    have havail : available (setSpace m curr { m.space curr with brk := newBrk (sizes m.cfg li args) }) w = available m w := by
      cases w <;> rfl
    have hlay := layOut_owned (h.owned.setSpace ..) hlead hin (havail ▸ henough li ⟨⟨f, hf, hst⟩, hvirt, hp⟩) h₁
    obtain ⟨hlead₁, honly⟩ := Within.layOut h₁ w hlead
    have hregion : m₁.region1Pt = m.region1Pt := by
      have hsame := layOut_relation SameRegion1.refl (fun _ _ _ => SameRegion1.trans) (fun _ _ _ => SameRegion1.freeEntry)
        (fun _ _ _ => SameRegion1.invalidate) (fun _ _ _ _ _ => mapPage_region1) h₁
      exact hsame
    have hfix := Fixed.layOut h₁
    have hlaid := (setSpace_untouched x m curr _).trans (honly.untouched (h.owned.setSpace ..) (hin 0 (by decide)) hx hne)
    have hloading : Loading P own v (setSpace m₁ curr { m₁.space curr with sp := newSp m₁.cfg (sizes m.cfg li args) }) := by
      refine ⟨hlay.setSpace .., leads_congr h.leads hfix.numPages fun _ _ => congrFun hregion _, ?_⟩
      change wordOf m₁.regPtr0 = v
      rw [hfix.regPtr0]
      exact h.running
    have hlead₂ : Leads (setSpace m₁ curr { m₁.space curr with sp := newSp m₁.cfg (sizes m.cfg li args) }) ptr w :=
      leads_congr hlead₁ rfl fun _ _ => rfl
    exact hlaid.trans ((setSpace_untouched x m₁ curr _).trans (fill_spares hloading hlead₂ hin hown hx hne hne' h₂))

theorem userStore_untouched {vaddr : Nat} {x : BitVec 8} (hs : Sound s) (hm : s.mode = .user) (hq : live s q) (hne : q ≠ s.curr)
    (h : userStore vaddr x s.mem = .ok mem) : Untouched (wordOf (s.mem.space q).region0) s.mem mem := by
  have hlive := hs.live_curr hm
  have hreg := (hs.current.running (by simp [hm])).2
  obtain ⟨f, e, hframe, -, -, rfl⟩ := userStore_ok h
  have hno := userFrame_not_table hs.owned (hs.running (by simp [hm]) hlive) hframe
  obtain ⟨e, he, hframe⟩ := bind_ok.1 hframe
  obtain ⟨⟨hlt, hvalid, -⟩, hframe⟩ := ite_error_ok.1 hframe
  obtain rfl := Except.ok.inj hframe
  obtain rfl := walk_read he
  rw [hreg] at hvalid hno ⊢
  have hn : names s.mem (.entry (wordOf (s.mem.space s.curr).region0) (vaddr / pageSize)) =
      some ((wordOf (s.mem.space s.curr).region0).read s.mem (vaddr / pageSize)).pfn.toNat := names_some.2 ⟨hvalid, rfl⟩
  refine ⟨fun j hj => word_read_copy (fun he => hno j (he ▸ inPlay_table hq j hj)) .., fun j hj g hg => ?_⟩
  refine put_of_ne (fun he => hs.not_shared hq.1 hlive.1 hne ?_) ..
  rw [he] at hg
  exact (Slot.entry.inj (hs.owned.holds.apart _ _ _ (inPlay_table hq j hj) (inPlay_table hlive _ hlt) hg hn)).1

theorem resume_bystander {out : Option ExceptionInfo} (hs : Sound s) (hsafe : Safe s (.resume file)) (hq : live s q)
    (hno : ¬ Acts s (.resume file) q) (h : Kernel.resume file s = .ok (out, t)) :
    Untouched (wordOf (s.mem.space q).region0) s.mem t.mem ∧ Remains q s t := by
  unfold Kernel.resume at h
  cases hm : s.mode with
  | user | hung =>
      simp only [hm] at h
      obtain ⟨-, rfl⟩ := Prod.mk.inj (Except.ok.inj h)
      exact ⟨.refl .., hq, rfl⟩
  | resuming c =>
      simp only [hm] at h
      have hc := hs.current.resumes c hm
      cases hk : c.kont with
      | boot p cmdArgs =>
          simp only [hk] at h
          obtain ⟨⟨r, info, mem⟩, hload, h⟩ := bind_ok.1 h
          obtain ⟨-, rfl⟩ := Prod.mk.inj (Except.ok.inj h)
          obtain ⟨hp, howned⟩ := hsafe.frames c p cmdArgs hm hk
          have hqp : q ≠ p := fun he => hno ⟨c, p, cmdArgs, hm, hk, .inl he⟩
          have hqc : q ≠ s.curr := fun he => hno ⟨c, p, cmdArgs, hm, hk, .inr he⟩
          have hcurr : live s s.curr := by
            refine ⟨hs.current.curr_lt, Bool.eq_false_iff.2 fun he => ?_⟩
            have hexit := hs.current.dead _ hs.current.curr_lt he
            rw [← hc, hk] at hexit
            cases hexit
          have hrun : wordOf s.mem.regPtr0 = wordOf (s.mem.space s.curr).region0 := by
            rw [(hs.current.running (by simp [hm])).2]
          refine ⟨?_, .of_moves hq (loadProgram_moves hload)⟩
          exact loadProgram_spares ⟨hs.owned, hs.leads hcurr, hrun⟩ (hs.leads hp) (inPlay_table hp) (inPlay_table hcurr)
            (inPlay_table hq) (hs.not_shared hq.1 hp.1 hqp) (hs.not_shared hq.1 hcurr.1 hqc) howned hload
      | fork child | delay =>
          simp only [hk] at h
          obtain ⟨-, rfl⟩ := Prod.mk.inj (Except.ok.inj h)
          exact ⟨.refl .., hq, rfl⟩
      | wait =>
          simp only [hk] at h
          obtain ⟨⟨pid, fam⟩, hcol, h⟩ := bind_ok.1 h
          obtain ⟨-, rfl⟩ := Prod.mk.inj (Except.ok.inj h)
          refine ⟨.refl .., ⟨?_, hq.2⟩, rfl⟩
          change q < fam.count
          rw [collect_count hcol]
          exact hq.1
      | clock item =>
          simp only [hk] at h
          obtain ⟨i, hi, -⟩ := bind_ok.1 h
          obtain ⟨hi', -, hf⟩ := items_deref_ok hi
          obtain rfl := Option.some.inj hi'
          rw [(hs.current.clock _ item hs.current.curr_lt (hc ▸ hk)).2] at hf
          cases hf
      | exit =>
          simp only [hk] at h
          obtain ⟨mem, hmem, h⟩ := bind_ok.1 h
          obtain ⟨-, rfl⟩ := Prod.mk.inj (Except.ok.inj h)
          obtain ⟨-, hspace, hstatic, hframes⟩ := releaseTable_tables hmem
          exact ⟨same_untouched _ hstatic hframes, hq, congrArg Space.region0 (congrFun hspace q)⟩

theorem step_bystander {e : Event} (hs : Sound s) (hc : Considerate s e) (hq : live s q) (hno : ¬ Acts s e q) (h : Step s e t) :
    Untouched (wordOf (s.mem.space q).region0) s.mem t.mem ∧ Remains q s t := by
  have hstep := h
  obtain ⟨hen, hnext⟩ := h
  cases e with
  | call c info => exact ⟨step_untouched hs hc.spares hq hno hstep, step_remains hs hc.spares hq hno hstep⟩
  | memoryTrap info =>
      have hspares : Spares s (.memoryTrap info) := hc.1
      exact ⟨step_untouched hs hspares hq hno hstep, step_remains hs hspares hq hno hstep⟩
  | fatalTrap info =>
      obtain ⟨⟨out, u⟩, htrap, rfl⟩ := map_ok.1 hnext
      obtain ⟨v, hv, h⟩ := bind_ok.1 htrap
      obtain ⟨-, rfl⟩ := Prod.mk.inj (Except.ok.inj h)
      exact ⟨exit_untouched _ hv, exit_remains hq hno hv⟩
  | clock info =>
      obtain ⟨⟨out, u⟩, hclock, rfl⟩ := map_ok.1 hnext
      rcases clockWalk_ok hclock with ⟨-, -, ticks, sched, -, rfl⟩ | ⟨-, -, ticks, item, sched, sched', -, -, -, -, rfl⟩
      · exact ⟨.refl .., hq, rfl⟩
      · exact ⟨same_untouched _ rfl rfl, hq, rfl⟩
  | resume file =>
      obtain ⟨⟨out, u⟩, hres, rfl⟩ := map_ok.1 hnext
      exact resume_bystander hs hc.1 hq hno hres
  | kernelBrk addr =>
      obtain ⟨⟨r, mem⟩, hmem, h⟩ := bind_ok.1 hnext
      obtain rfl := Except.ok.inj h
      obtain ⟨-, hstatic, hframes⟩ := setKernelBrk_tables hmem
      exact ⟨same_untouched _ hstatic hframes, hq, congrArg Space.region0 (congrFun (setKernelBrk_space hmem).2 q)⟩
  | userStore vaddr x =>
      obtain ⟨mem, hmem, h⟩ := bind_ok.1 hnext
      obtain rfl := Except.ok.inj h
      refine ⟨userStore_untouched hs (userMode_iff.1 hen) hq hno hmem, hq, ?_⟩
      obtain ⟨f, e, -, -, -, -, rfl⟩ := userStore_ok hmem
      rfl

def Apart (q : Nat) (s : State) (e : Event) : Prop := Considerate s e ∧ ¬ Acts s e q

/-- However the others run, and however many interrupts there are, a process that
does nothing keeps its page table, the marks of its frames and what is in them. -/
theorem run_isolated (henv : BootOwned env) (hreach : Reachable Safe env s) (hrun : Reaches (Apart q) s t) (hq : live s q) :
    live t q ∧ Isolated q s t := by
  have hs := reachable_sound henv hreach
  have hend : Sound t ∧ live t q ∧ Isolated q s t := by
    induction hrun with
    | refl => exact ⟨hs, hq, .refl q s⟩
    | tail _ hstep ih =>
        obtain ⟨hu, hlive, hsame⟩ := ih
        obtain ⟨e, ⟨hc, hno⟩, hstep⟩ := hstep
        obtain ⟨huntouched, hremains⟩ := step_bystander hu hc hlive hno hstep
        have ht := step_sound hu hc.1 hstep
        exact ⟨ht, hremains.1, hsame.trans (huntouched.isolated hu ht hlive hremains)⟩
  exact hend.2

theorem run_isolated_small : ∃ s u t, Reachable Safe smallBoot s ∧ Step s (.call .fork smallInfo) u ∧ Reaches (Apart 0) s t ∧
    Reaches (Apart 0) u t ∧ live t 0 ∧ Isolated 0 s t := by
  obtain ⟨s₀, s₁, s₂, s₃, s₄, h, -⟩ := small_family
  obtain ⟨hidle, hne⟩ := idle_live h.boot
  have hreach : Reachable Safe smallBoot s₀ := ⟨s₀, h.boot, .refl⟩
  obtain ⟨hfork, hchild, hexit, hparent⟩ := small_safe h
  have hresume {s : State} (hf : atFork s = true) (hsafe : Safe s (.resume none)) : Apart 0 s (.resume none) := by
    refine ⟨⟨hsafe, nofun⟩, ?_⟩
    rintro ⟨c, p, args, hm, hk, -⟩
    obtain ⟨child, hfork⟩ := kont_atFork hf hm
    cases hk.symm.trans hfork
  have hfork : Apart 0 s₀ (.call .fork smallInfo) := ⟨⟨hfork, nofun⟩, hne⟩
  have hexit : Apart 0 s₂ (.call (.exit 7) smallInfo) := by
    refine ⟨⟨hexit, nofun⟩, ?_⟩
    rw [h.child_eq]
    have hcurr : s₁.curr = 2 := h.forked.2.1
    change 0 ≠ s₁.curr
    omega
  have hlater : Reaches (Apart 0) s₁ s₄ :=
    .tail (.tail (.single ⟨_, hresume h.forked.1 hchild, h.child⟩) ⟨_, hexit, h.exit⟩) ⟨_, hresume h.exited.1 hparent, h.parent⟩
  have hrun : Reaches (Apart 0) s₀ s₄ := .head ⟨_, hfork, h.fork⟩ hlater
  obtain ⟨hlive, hsame⟩ := run_isolated small_bootOwned hreach hrun hidle
  exact ⟨s₀, s₁, s₄, hreach, h.fork, hrun, hlater, hlive, hsame⟩

end Yalnix.Privacy
