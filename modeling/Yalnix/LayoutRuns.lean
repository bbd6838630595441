import Yalnix.SpaceLayout

namespace Yalnix.LayoutRuns

open Loops Machine AddressSpace LoadProgram Processes Queues Kernel Accesses FreeList Calls Boot Runs Clock CurrProc Layout Allocation
  StackGrowth Frames FrameLeak SwitchFrames BootFrames FrameOwnership Isolation ValidPages SpaceLayout

variable {env : BootEnv} {s t s₁ s₂ s₃ : State} {m m' mem : Memory} {l : Nat → Prop} {P : Slot → Prop} {w : Word} {ptr : TablePtr}
  {file : Option File} {args : List (List (BitVec 8))} {info info' idleInfo initInfo : ExceptionInfo} {r : Int} {i j p curr page : Nat}

theorem initRegion0_valid (h : initRegion0 page m = .ok m') :
    (m'.region0Pt page).valid = true ∧ ∀ j, j ≠ page → m'.region0Pt j = m.region0Pt j := by
  obtain ⟨f, -, h⟩ := bind_ok.1 h
  obtain rfl := Except.ok.inj h
  exact ⟨congrArg Pte.valid (put_self ..), fun j hj => put_of_ne hj ..⟩

theorem initRegion1_static (h : initRegion1 page m = .ok m') : m'.region0Pt = m.region0Pt := by
  obtain ⟨k, -, h⟩ := bind_ok.1 h
  obtain ⟨f, -, h⟩ := bind_ok.1 h
  obtain rfl := Except.ok.inj h
  rfl

theorem tables_cfg (h : Tables env m) : m.cfg = env.cfg := by
  obtain ⟨m₀, hm₀, hm⟩ := h.tables
  obtain ⟨m₁, m₂, -, -, rfl, hfix⟩ := initPT_ok hm₀
  rw [hm]
  exact hfix.cfg

theorem tables_stack (h : Tables env m) (hj : kernelStackBase ≤ j) (hlt : j < pageTableLen) : (m.region0Pt j).valid = true := by
  obtain ⟨m₀, hm₀, hm⟩ := h.tables
  obtain ⟨m₁, m₂, h₁, h₂, rfl, -⟩ := initPT_ok hm₀
  have hstack := upTo_invariant (fun k v => ∀ j, kernelStackBase ≤ j → j < k → (v.region0Pt j).valid = true)
    (fun k v v' _ _ hv hk j hj hlt => by
      obtain ⟨hself, hother⟩ := initRegion0_valid hk
      by_cases hjk : j = k
      · rw [hjk, hself]
      · rw [hother j hjk]
        exact hv j hj (by omega)) (fun j hj hlt => absurd hlt (by omega)) h₁
  have hstatic := upTo_relation (fun v v' : Memory => v'.region0Pt = v.region0Pt) (fun _ => rfl) (fun _ _ _ h h' => h'.trans h)
    (fun k v v' _ _ hk => initRegion1_static hk) h₂
  rw [hm]
  change (m₂.region0Pt j).valid = true
  rw [hstatic]
  exact hstack j hj hlt

structure LoadsInto (P : Slot → Prop) (curr : Nat) (w : Word) (r : Int) (m m' : Memory) : Prop where
  stack : ∀ j, kernelStackBase ≤ j → j < pageTableLen → (w.read m' j).valid = (w.read m j).valid
  others : ∀ v j, v ≠ w → j < pageTableLen → (∀ k, k < pageTableLen → P (.entry v k)) → (v.read m' j).valid = (v.read m j).valid
  heap : r = 0 → memInvalidPages ≤ (m'.space curr).brk
  pages : r = 0 → (∀ j, kernelStackBase ≤ j → j < pageTableLen → (w.read m j).valid = true) →
    HeapAndStack m' w m.cfg.userStackLimit (m'.space curr).brk (m'.space curr).sp

theorem boot_loads (h : Owned P m) (hw : Leads m ptr w) (hin : ∀ j, j < pageTableLen → P (.entry w j))
    (hrun : ∀ j, j < pageTableLen → P (.entry (wordOf m.regPtr0) j)) (henough : LoadOwned m w file args)
    (hlimit : StackLimit m.cfg) (hcounts : Countable m file args)
    (hload : loadProgram curr ptr file args info m = .ok (r, info', m')) : LoadsInto P curr w r m m' := by
  rcases loadProgram_relaid h hw hin hrun henough hlimit hcounts hload with
    ⟨hr, rfl⟩ | ⟨f, li, -, -, -, ⟨hr, -, rfl⟩ | ⟨-, hrel, hbrk, hsp⟩⟩
  · exact ⟨fun _ _ _ => rfl, fun _ _ _ _ _ => rfl, fun h => absurd h hr, fun h => absurd h hr⟩
  · refine ⟨fun j _ _ => ?_, fun v j _ _ _ => ?_, fun h => absurd h hr, fun h => absurd h hr⟩
    · rw [word_read_space]
    · rw [word_read_space]
  · refine ⟨hrel.above, hrel.others, fun _ => ?_, fun _ hstack => ?_⟩
    · rw [hbrk]
      exact hrel.order.1
    · rw [hbrk, hsp]
      exact hrel.heapAndStack hstack

/-- What boot asks of the machine and of the two programs: the user stack ends
where the kernel stack starts, or a page below, and the page counts fit in an `int`. -/
structure BootFits (env : BootEnv) : Prop where
  limit : StackLimit env.cfg
  idle : ∀ {s₁ s₂ s₃ s m i i'}, Boots env s₁ s₂ s₃ s m i i' → Countable s₁.mem env.idleFile env.cmdArgs
  init : ∀ {s₁ s₂ s₃ s m i i'}, Boots env s₁ s₂ s₃ s m i i' → Countable s₃.mem env.initFile env.cmdArgs

theorem idle_loads (henv : BootOwned env) (hfits : BootFits env) (hb : Boots env s₁ s₂ s₃ s m idleInfo initInfo)
    (hload : loadProgram 0 .region0Pt env.idleFile env.cmdArgs env.info (withIdle s₁.mem) = .ok (r, idleInfo, s₂.mem)) :
    Stacked s₂.mem 0 ∧ (r = 0 → Shaped env.cfg.userStackLimit s₂.mem 0) := by
  obtain ⟨u, hu, hs₁⟩ := bootTables_ok hb.tables
  have hmem : s₁.mem = u := by rw [hs₁]
  obtain ⟨hhome, hptr, hsmall⟩ := tables_home hu
  obtain ⟨-, ⟨hidle, -⟩, -⟩ := idle_owned (henv.idle _ hb.tables) hb.tables hb.idle
  have hin (j : Nat) (hj : j < pageTableLen) : bootSlots (.entry .static j) := ⟨rfl, hj⟩
  have hcounts := hfits.idle hb
  have howned := henv.idle _ hb.tables
  rw [hmem] at hload hcounts howned
  have hloads : LoadsInto bootSlots 0 .static r (withIdle u) s₂.mem := by
    refine boot_loads ((hhome.owned hsmall).setSpace ..) .static hin ?_ howned ?_ hcounts hload
    · change ∀ j, j < pageTableLen → bootSlots (.entry (wordOf u.regPtr0) j)
      rw [hptr]
      exact hin
    · exact (tables_cfg hu).symm ▸ hfits.limit
  have hstack (j : Nat) (hj : kernelStackBase ≤ j) (hlt : j < pageTableLen) : (u.region0Pt j).valid = true :=
    tables_stack hu hj hlt
  refine ⟨fun j hj hlt => ?_, fun hr => ?_⟩
  · rw [hidle]
    exact (hloads.stack j hj hlt).trans (hstack j hj hlt)
  · rw [← tables_cfg hu]
    exact .of_pages (congrArg wordOf hidle) rfl rfl (hloads.heap hr) (hloads.pages hr hstack)

theorem boots_cfg (hb : Boots env s₁ s₂ s₃ s m idleInfo initInfo) : s₃.mem.cfg = env.cfg := by
  obtain ⟨r, hidle⟩ := hb.stages.idle
  obtain ⟨i, -, hbuild⟩ := buildRegion0_table hb.stages.build
  obtain ⟨u, hu, henter⟩ := switchNewProc_table hb.stages.enter
  have hstart : s₂.mem.cfg = s₁.mem.cfg := (loadProgram_moves hidle).cfg
  rw [henter]
  exact hu.cfg.trans (hbuild.cfg.trans (hstart.trans (tables_cfg hb.stages.tables)))

theorem init_loads (henv : BootOwned env) (hfits : BootFits env) (hb : Boots env s₁ s₂ s₃ s m idleInfo initInfo)
    (he : Entered i m s₃.mem) (hload : loadProgram 1 (s₃.mem.space 1).region0 env.initFile env.cmdArgs idleInfo s₃.mem =
      .ok (r, initInfo, s.mem)) :
    LoadsInto (withEntries bootSlots (.frame (pageTableLen + i))) 1 (.frame (pageTableLen + i)) r s₃.mem s.mem := by
  have howned := henv.init _ _ _ _ hb.tables hb.idle hb.init
  rw [he.after.word] at howned
  refine boot_loads he.after.owned he.after.leads he.after.entry (he.running ▸ he.after.entry) howned ?_
    (hfits.init hb) hload
  rw [boots_cfg hb]
  exact hfits.limit

theorem buildRegion0_static {proc : Nat} (h : buildRegion0 proc m = .ok m') : m'.region0Pt = m.region0Pt := by
  obtain ⟨i, -, hi, -, hframe, hloop⟩ := buildRegion0_ok h
  exact (Within.mapLoop hloop _ (NewTable.withTable_leads proc hi hframe)).2.static nofun

theorem idle_same (hb : Boots env s₁ s₂ s₃ s m idleInfo initInfo) (he : Entered i m s₃.mem)
    (hidle : (s₂.mem.space 0).region0 = .region0Pt)
    (hinit : LoadsInto (withEntries bootSlots (.frame (pageTableLen + i))) 1 (.frame (pageTableLen + i)) r s₃.mem s.mem) :
    SameLayout 0 s₂.mem s.mem := by
  obtain ⟨r', hload⟩ := hb.stages.init
  have hmoves := loadProgram_moves hload
  obtain ⟨k, -, hbuild⟩ := buildRegion0_table hb.stages.build
  have hspace : s.mem.space 0 = s₂.mem.space 0 := by
    rw [hmoves.others 0 Nat.zero_ne_one, he.space, hbuild.space]
    rfl
  refine ⟨congrArg Space.region0 hspace, ⟨congrArg Space.brk hspace, congrArg Space.sp hspace⟩, fun j hj => ?_⟩
  rw [hidle]
  have hin (k : Nat) (hk : k < pageTableLen) : withEntries bootSlots (.frame (pageTableLen + i)) (.entry .static k) :=
    .inl ⟨rfl, hk⟩
  have hload : (s.mem.region0Pt j).valid = (s₃.mem.region0Pt j).valid := hinit.others .static j nofun hj hin
  have henter : s₃.mem.region0Pt j = m.region0Pt j := he.slots _ (hin j hj)
  have hbuilt : m.region0Pt = s₂.mem.region0Pt := (buildRegion0_static hb.stages.build :)
  change (s.mem.region0Pt j).valid = (s₂.mem.region0Pt j).valid
  rw [hload, henter, hbuilt]

theorem boots_unique {t₁ t₂ t₃ : State} {u : Memory} {idleInfo' initInfo' : ExceptionInfo}
    (hb : Boots env s₁ s₂ s₃ s m idleInfo initInfo) (hb' : Boots env t₁ t₂ t₃ t u idleInfo' initInfo') :
    t₁ = s₁ ∧ t₃ = s₃ ∧ idleInfo' = idleInfo := by
  obtain rfl := Except.ok.inj (hb.tables.symm.trans hb'.tables)
  obtain ⟨rfl, rfl⟩ := Prod.mk.inj (Except.ok.inj (hb.idle.symm.trans hb'.idle))
  obtain rfl := Except.ok.inj (hb.init.symm.trans hb'.init)
  exact ⟨rfl, rfl, rfl⟩

theorem boot_count (h : kernelStart env = .ok s) : s.fam.count = 2 := by
  obtain ⟨m, m₁, m₂, m₃, m₄, i, i', -, rfl⟩ := kernelStart_ok h
  rfl

theorem boot_fitted (henv : BootOwned env) (hfits : BootFits env) (h : kernelStart env = .ok s) : Fitted (bootCompleted env) s := by
  have hs := boot_sound henv h
  obtain ⟨s₁, s₂, s₃, m, idleInfo, initInfo, hb⟩ := kernelStart_boots h
  obtain ⟨i, he⟩ := boot_entered henv hb
  obtain ⟨r₀, hidle⟩ := hb.stages.idle
  obtain ⟨r₁, hinit⟩ := hb.stages.init
  have hmoves := loadProgram_moves hinit
  obtain ⟨hstacked, hshaped⟩ := idle_loads henv hfits hb hidle
  obtain ⟨-, ⟨hregion, -⟩, -⟩ := idle_owned (henv.idle _ hb.tables) hb.tables hb.idle
  have hloads := init_loads henv hfits hb he hinit
  have hsame := idle_same hb he hregion hloads
  have hword : wordOf (s.mem.space 1).region0 = .frame (pageTableLen + i) := by
    rw [hmoves.region0, he.after.word]
  have hstack (j : Nat) (hj : kernelStackBase ≤ j) (hlt : j < pageTableLen) :
      (Word.read s₃.mem j (.frame (pageTableLen + i))).valid = true := by
    have hslot := he.slots _ (.inr ⟨j, hlt, rfl⟩)
    exact (congrArg Pte.valid hslot).trans (he.stack j hj hlt)
  have htwo {p : Nat} (hp : live s p) : p = 0 ∨ p = 1 := by
    have hlt := hp.1
    rw [boot_count h] at hlt
    omega
  have hcfg : s.mem.cfg = env.cfg := hmoves.cfg.trans (boots_cfg hb)
  refine ⟨hs, hcfg.symm ▸ hfits.limit, fun p hp => ?_, fun p hp hl => ?_⟩
  · obtain rfl | rfl := htwo hp
    · exact hsame.stacked hstacked
    · intro j hj hlt
      rw [hword, hloads.stack j hj hlt, hstack j hj hlt]
  · obtain ⟨t₁, t₂, t₃, t, u, idleInfo', initInfo', hb', hl⟩ := hl
    obtain ⟨rfl, rfl, rfl⟩ := boots_unique hb hb'
    rw [hcfg]
    rcases hl with ⟨rfl, hl⟩ | ⟨rfl, hl⟩
    · exact hsame.shaped (hshaped (hl.result hidle))
    · have hr := hl.result hinit
      rw [← boots_cfg hb]
      exact .of_pages hword rfl rfl (hloads.heap hr) (hloads.pages hr hstack)

/-- Every live process has its kernel stack, and each that has completed a LoadProgram its layout. -/
theorem history_fitted (henv : BootOwned env) (hfits : BootFits env) (h : History Orderly env l t) : Fitted l t := by
  induction h with
  | boot hs => exact boot_fitted henv hfits hs
  | step _ he hstep ih => exact step_fitted ih he hstep

theorem history_arranged (henv : BootOwned env) (hfits : BootFits env) (h : History Orderly env l t) (hp : live t p) (hl : l p) :
    Arranged t p :=
  (history_fitted henv hfits h).arranged hp hl

theorem small_countable (hcfg : m.cfg = smallBoot.cfg) : Countable m (some smallFile) [] := by
  rintro li ⟨⟨f, hf, hst⟩, -⟩
  obtain rfl := Option.some.inj hf
  obtain rfl := LoadStatus.success.inj hst
  rw [hcfg]
  unfold CountsFit
  decide

theorem small_bootFits : BootFits smallBoot :=
  ⟨⟨by decide, by decide⟩, fun hb => small_countable (tables_cfg hb.stages.tables), fun hb => small_countable (boots_cfg hb)⟩

def initLoads (info : ExceptionInfo) (u : State) : Bool :=
  match loadProgram 1 (u.mem.space 1).region0 (some smallFile) [] info u.mem with
  | .ok (r, _) => r = 0
  | .error _ => false

theorem small_initLoads : passes (bootTables smallBoot) (fun s => passes (bootIdle smallBoot s) fun r =>
    passes (bootInit smallBoot r.1 r.2) (initLoads r.1)) = true := by
  decide +kernel

theorem small_completed (h : kernelStart smallBoot = .ok s) : bootCompleted smallBoot 1 := by
  obtain ⟨s₁, s₂, s₃, m, idleInfo, initInfo, hb⟩ := kernelStart_boots h
  have hidle := passes_ok small_initLoads hb.tables
  have hinit := passes_ok hidle hb.idle
  have hloads : initLoads idleInfo s₃ = true := passes_ok hinit hb.init
  refine ⟨s₁, s₂, s₃, s, m, idleInfo, initInfo, hb, .inr ⟨rfl, ?_⟩⟩
  unfold initLoads at hloads
  split at hloads
  case h_1 r rest hload =>
    obtain rfl := of_decide_eq_true hloads
    exact ⟨rest.1, rest.2, hload⟩
  case h_2 => cases hloads

theorem small_orderly {s₀ s₁ s₂ s₃ s₄ : State} (h : SmallFamily s₀ s₁ s₂ s₃ s₄) : Orderly s₀ (.call .fork smallInfo) ∧
    Orderly s₁ (.resume none) ∧ Orderly s₂ (.call (.exit 7) smallInfo) ∧ Orderly s₃ (.resume none) := by
  obtain ⟨hfork, hchild, hexit, hparent⟩ := small_safe h
  have hresume {s : State} (hs : atFork s = true) : Fits s (.resume none) := by
    intro c p args hm hk
    obtain ⟨child, hfork⟩ := kont_atFork hs hm
    cases hk.symm.trans hfork
  exact ⟨⟨hfork, trivial⟩, ⟨hchild, hresume h.forked.1⟩, ⟨hexit, trivial⟩, ⟨hparent, hresume h.exited.1⟩⟩

theorem orderly_store {vaddr : Nat} {x : BitVec 8} : Orderly s (.userStore vaddr x) := ⟨⟨trivial, trivial, nofun, trivial, nofun⟩, trivial⟩

theorem history_arranged_small : ∃ l t, History Orderly smallBoot l t ∧ live t 2 ∧ l 2 ∧ Arranged t 2 := by
  obtain ⟨s₀, s₁, s₂, s₃, s₄, h, -⟩ := small_family
  obtain ⟨hcurr, -, hcount, -⟩ := h.start
  obtain ⟨hfork, hchild, -, -⟩ := small_orderly h
  have hist := History.step (.step (.boot h.boot) hfork h.fork) hchild h.child
  have hlive : live s₂ 2 := by
    rw [h.child_eq]
    exact h.forked.2.2.2
  have hl : completed s₁ (completed s₀ (bootCompleted smallBoot) (.call .fork smallInfo)) (.resume none) 2 := by
    refine .inl ?_
    change if 2 = s₀.fam.count then bootCompleted smallBoot s₀.curr else bootCompleted smallBoot 2
    rw [if_pos hcount.symm, hcurr]
    exact small_completed h.boot
  exact ⟨_, _, hist, hlive, hl, history_arranged small_bootOwned small_bootFits hist hlive hl⟩

/-- Init moves its break up, and its own table does not get the page. -/
theorem brk_not_arranged_small : ∃ l t p, History (fun _ _ => True) smallBoot l t ∧ live t p ∧ l p ∧ ¬ Arranged t p := by
  obtain ⟨s₀, s₁, s₂, s₃, s₄, h, hf⟩ := small_family
  obtain ⟨u, hu, -, hbrk, hentry⟩ := hf.brkUp
  have hlive : live u 1 := by
    obtain ⟨⟨out, v⟩, hcall, rfl⟩ := map_ok.1 hu.2
    obtain ⟨⟨r, mem⟩, -, hcall⟩ := bind_ok.1 hcall
    obtain ⟨-, rfl⟩ := Prod.mk.inj (Except.ok.inj hcall)
    exact h.start.2.2.2
  refine ⟨_, u, 1, .step (.boot h.boot) trivial hu, hlive, small_completed h.boot, fun ha => ?_⟩
  obtain ⟨e, he, hiff⟩ := ha.entries 17 (by decide)
  rw [he] at hentry
  have hinvalid : e.valid = false := Option.some.inj hentry
  rw [hinvalid, hbrk] at hiff
  exact absurd (hiff.2 (.inl ⟨by decide, by decide⟩)) (by decide)

end Yalnix.LayoutRuns
