import Yalnix.Boot
import Yalnix.Indices
import Yalnix.Runs
import Yalnix.SwitchFrames

namespace Yalnix.BootFrames

open Loops Machine AddressSpace LoadProgram Kernel Accesses FreeList Boot Layout Allocation NewTable Frames FrameLeak SwitchFrames

variable {env : BootEnv} {s s₁ s₂ s₃ : State} {m m' u : Memory} {idleInfo initInfo : ExceptionInfo} {e : Pte} {f i j page : Nat} {x y : Slot}

def bootSlots : Slot → Prop
  | .kernel i => i < pageTableLen
  | .entry w j => w = .static ∧ j < pageTableLen

/-- The frame that `initPT` maps a page to. -/
def home : Slot → Nat
  | .kernel i => pageTableLen + i
  | .entry _ j => j

def AtHome (m : Memory) : Prop := ∀ x f, bootSlots x → names m x = some f → f = home x ∧ InUse m f

theorem home_inj (hx : bootSlots x) (hy : bootSlots y) (h : home x = home y) : x = y := by
  cases x with
  | kernel i =>
      cases y with
      | kernel k =>
          have : i = k := Nat.add_left_cancel h
          rw [this]
      | entry w k =>
          change pageTableLen + i = k at h
          have := hy.2
          omega
  | entry w j =>
      cases y with
      | kernel k =>
          change j = pageTableLen + k at h
          have := hx.2
          omega
      | entry w' k =>
          obtain rfl : j = k := h
          rw [hx.1, hy.1]

theorem AtHome.owned (h : AtHome m) (hsmall : m.numPages < 2 ^ 20) : Owned bootSlots m := by
  refine ⟨hsmall, ⟨fun x f hx hn => (h x f hx hn).2, fun x y f hx hy hnx hny => ?_⟩, fun f j hx => ?_⟩
  · exact home_inj hx hy ((h x f hx hnx).1.symm.trans (h y f hy hny).1)
  · cases hx.1

theorem AtHome.mark (h : AtHome m) (hpages : m'.numPages = m.numPages) (hf : f < m.numPages)
    (hmark : m'.freePages = put m.freePages f .pageUsed) (hself : names m' x = some f) (hhome : f = home x)
    (hother : ∀ y, bootSlots y → y ≠ x → names m' y = names m y) : AtHome m' := by
  intro y g hy hn
  by_cases hyx : y = x
  · subst hyx
    rw [hself] at hn
    obtain rfl := Option.some.inj hn
    refine ⟨hhome, hpages ▸ hf, ?_⟩
    rw [hmark, put_self]
  · rw [hother y hy hyx] at hn
    obtain ⟨hg, hlt, hused⟩ := h y g hy hn
    refine ⟨hg, hpages ▸ hlt, ?_⟩
    rw [hmark, put_apply, hused, ite_self]

theorem initRegion0_home (h : AtHome m) (hp : page < pageTableLen) (hinit : initRegion0 page m = .ok m') : AtHome m' := by
  obtain ⟨f, hf, hinit⟩ := bind_ok.1 hinit
  obtain rfl := Except.ok.inj hinit
  obtain ⟨hf, hlt⟩ := index_ok.1 hf
  obtain rfl := Int.ofNat.inj hf
  refine h.mark (x := .entry .static page) rfl hlt rfl ?_ rfl fun y hy hne => names_congr ?_
  · rw [names_some]
    have hself := put_self m.region0Pt page
      { m.region0Pt page with pfn := BitVec.ofNat 20 page, uprot := protNone, kprot := protRead ||| protWrite, valid := true }
    refine ⟨congrArg Pte.valid hself, (congrArg (fun e : Pte => e.pfn.toNat) hself).trans ?_⟩
    rw [BitVec.toNat_ofNat]
    apply Nat.mod_eq_of_lt
    simp only [pageTableLen] at hp
    omega
  · cases y with
    | kernel k => rfl
    | entry w k =>
        obtain ⟨rfl, -⟩ := hy
        exact put_of_ne (fun hk => hne (congrArg (Slot.entry .static) hk)) ..

theorem initRegion1_home (h : AtHome m) (hinit : initRegion1 page m = .ok m') : AtHome m' := by
  obtain ⟨k, hk, hinit⟩ := bind_ok.1 hinit
  obtain ⟨f, hf, hinit⟩ := bind_ok.1 hinit
  obtain rfl := Except.ok.inj hinit
  obtain ⟨hk, hlt⟩ := index_ok.1 hk
  obtain rfl := Int.ofNat.inj hk
  obtain ⟨hf, hframe⟩ := index_ok.1 hf
  obtain rfl : pageTableLen + page = f := by omega
  refine h.mark (x := .kernel page) rfl hframe rfl ?_ rfl fun y hy hne => names_congr ?_
  · rw [names_some]
    have hself (e : Pte) : (writeRegion1 m page e).region1Pt page = e := region1_write_self ..
    exact ⟨congrArg Pte.valid (hself _), (congrArg (fun e : Pte => e.pfn.toNat) (hself _)).trans (tablePfn hlt)⟩
  · exact pte_region1 hne ..

theorem tables_home (h : Tables env m) : AtHome m ∧ m.regPtr0 = .region0Pt ∧ m.numPages < 2 ^ 20 := by
  obtain ⟨m₀, hm₀, hm⟩ := h.tables
  obtain ⟨m₁, m₂, h₁, h₂, rfl, hfix⟩ := initPT_ok hm₀
  have hstart : AtHome (buildFreePages env.pmemSize (powerOn env).mem) := by
    intro x f hx hn
    have hv := (names_some.1 hn).1
    cases x with
    | kernel i => cases hv
    | entry w j =>
        obtain ⟨rfl, -⟩ := hx
        cases hv
  have hhome₁ : AtHome m₁ := upTo_invariant (fun _ v => AtHome v)
    (fun k v v' _ hk hv hv' => initRegion0_home hv hk hv') hstart h₁
  have hhome₂ : AtHome m₂ := upTo_invariant (fun _ v => AtHome v) (fun k v v' _ _ hv hv' => initRegion1_home hv hv') hhome₁ h₂
  refine ⟨fun x f hx hn => ?_, by rw [hm], ?_⟩
  · have hpte : x.pte m = x.pte m₂ := by
      rw [hm]
      cases x with
      | kernel i => rfl
      | entry w j => cases w <;> rfl
    rw [names_congr hpte] at hn
    obtain ⟨hf, hu⟩ := hhome₂ x f hx hn
    refine ⟨hf, ?_⟩
    rw [hm]
    exact hu
  · rw [hm]
    change m₂.numPages < 2 ^ 20
    rw [hfix.numPages]
    change env.pmemSize.toNat / pageSize < 2 ^ 20
    have := env.pmemSize.isLt
    simp only [pageSize]
    omega

/-- The table of a new process finds a page of its own, four frames for the
kernel stack, and no valid entry left in the page. -/
def TableOwned (P : Slot → Prop) (m : Memory) (proc : Nat) : Prop :=
  ∀ i, freeVirtualPage m = some i → Unnamed P m i ∧ (∀ j < kernelStackBase, (m.frames (pageTableLen + i) j).valid = false) ∧
    kernelStackPages ≤ (freeList (withTable proc i m)).length

def withBelow (P : Slot → Prop) (w : Word) (n : Nat) (x : Slot) : Prop := P x ∨ ∃ j < n, x = .entry w j

theorem table_starts {P : Slot → Prop} {proc : Nat} (h : Owned P (withTable proc i m)) (hpage : P (.kernel i))
    (hname : names (withTable proc i m) (.kernel i) = some (pageTableLen + i))
    (hclean : ∀ j < kernelStackBase, (m.frames (pageTableLen + i) j).valid = false) :
    Owned (withBelow P (.frame (pageTableLen + i)) kernelStackBase) (withTable proc i m) := by
  refine ⟨h.small, h.holds.drop (fun x hx => ?_) fun _ hf => hf, fun f j hx => ?_⟩
  · rcases hx with hx | ⟨j, hj, rfl⟩
    · exact .inr ⟨hx, rfl⟩
    · exact .inl (names_none (hclean j hj))
  · rcases hx with hx | ⟨j', -, he⟩
    · obtain ⟨k, hk, hn⟩ := h.backed f j hx
      exact ⟨k, .inl hk, hn⟩
    · obtain rfl := Word.frame.inj (Slot.entry.inj he).1
      exact ⟨i, .inl hpage, hname⟩

theorem mapPage_joins {P : Slot → Prop} {w : Word} {t : TablePtr} {uprot kprot : BitVec 3} {k : Nat}
    (h : Owned (withBelow P w k) m) (hw : Leads m t w) (hback : ∀ f, w = .frame f → ∃ i, P (.kernel i) ∧ names m (.kernel i) = some f)
    (hl : freeList m ≠ []) (hmap : mapPage t uprot kprot k m = .ok m') : Owned (withBelow P w (k + 1)) m' := by
  obtain ⟨j, w', hj, -, hw', ⟨f, l, hf, rfl⟩ | ⟨hno, -⟩⟩ := mapPage_cases hmap
  · obtain rfl := leads_unique hw hw'
    obtain rfl := Int.ofNat.inj hj
    refine h.write_take hf rfl (pfn_frame h.small (head_free hf).1) (fun x hx => ?_) fun g j hg => ?_
    · rcases hx with hx | ⟨j, hj, rfl⟩
      · exact .inl (.inl hx)
      · rcases Nat.lt_succ_iff_lt_or_eq.1 hj with hlt | rfl
        · exact .inl (.inr ⟨j, hlt, rfl⟩)
        · exact .inr rfl
    · rcases hg with hg | ⟨j, -, he⟩
      · obtain ⟨i, hi, hn⟩ := h.backed g j (.inl hg)
        rcases hi with hi | ⟨j, -, he⟩
        · exact ⟨i, .inl hi, hn⟩
        · cases he
      · obtain ⟨i, hi, hn⟩ := hback g (Slot.entry.inj he).1.symm
        exact ⟨i, .inl hi, hn⟩
  · exact absurd hno hl

theorem buildRegion0_joins {P : Slot → Prop} {proc : Nat} (h : Owned P m) (hkernel : ∀ i < pageTableLen, P (.kernel i))
    (htable : TableOwned P m proc) (hbuild : buildRegion0 proc m = .ok m') :
    ∃ i < pageTableLen, Owned (withEntries P (.frame (pageTableLen + i))) m' ∧
      names m' (.kernel i) = some (pageTableLen + i) ∧ Fixed (withTable proc i m) m' := by
  obtain ⟨i, hpage, hi, hinv, hframe, hloop⟩ := buildRegion0_ok hbuild
  obtain ⟨hunnamed, hclean, henough⟩ := htable i hpage
  have hstart : Owned P (withTable proc i m) := withTable_owned h hi hinv (hkernel i hi) hunnamed hframe
  have hname : names (withTable proc i m) (.kernel i) = some (pageTableLen + i) := by
    rw [names_some]
    change ((withTable proc i m).region1Pt i).valid = true ∧ ((withTable proc i m).region1Pt i).pfn.toNat = _
    rw [withTable_entry]
    exact ⟨rfl, tablePfn hi⟩
  have hw := withTable_leads (m := m) proc hi hframe
  have hend := upTo_invariant (fun k v => Owned (withBelow P (.frame (pageTableLen + i)) k) v ∧
      v.region1Pt = (withTable proc i m).region1Pt ∧ v.numPages = m.numPages ∧
      freeList v = (freeList (withTable proc i m)).drop (k - kernelStackBase)) (fun k v v' hk hlt hv hv' => ?_)
    ⟨table_starts hstart (hkernel i hi) hname hclean, rfl, rfl, by rw [Nat.sub_self]; rfl⟩ hloop
  · obtain ⟨howned, hregion, -⟩ := hend
    exact ⟨i, hi, howned, (names_congr (x := .kernel i) (congrFun hregion i)).trans hname, (mapLoop_maps hloop).fixed⟩
  · obtain ⟨hv, hregion, hpages, hlist⟩ := hv
    have hlead : Leads v (.page (pageTableLen + i)) (.frame (pageTableLen + i)) :=
      leads_congr hw hpages fun _ _ => congrFun hregion _
    have hmaps := mapPage_maps hv'
    refine ⟨mapPage_joins hv hlead (fun f hf => ?_) ?_ hv', (mapPage_region1 hv').trans hregion,
      hmaps.fixed.numPages.trans hpages, ?_⟩
    · obtain rfl := Word.frame.inj hf
      exact ⟨i, hkernel i hi, (names_congr (x := .kernel i) (congrFun hregion i)).trans hname⟩
    · rw [hlist, ne_eq, List.drop_eq_nil_iff]
      simp only [kernelStackPages] at henough hlt
      omega
    · have hstep : k - kernelStackBase + 1 = k + 1 - kernelStackBase := by omega
      rw [hmaps.list, hlist, List.drop_drop, hstep]

def initSlots (m : Memory) : Slot → Prop := withEntries bootSlots (wordOf (m.space 1).region0)

/-- What boot asks of the machine: both programs find their frames, the table of
init a clean page, and the frame with the number of the page borrowed is no one's. -/
structure BootOwned (env : BootEnv) : Prop where
  idle : ∀ s, bootTables env = .ok s → LoadOwned s.mem .static env.idleFile env.cmdArgs
  table : ∀ s info t, bootTables env = .ok s → bootIdle env s = .ok (info, t) → TableOwned bootSlots t.mem 1
  borrow : ∀ s info t m, bootTables env = .ok s → bootIdle env s = .ok (info, t) →
    buildRegion0 1 (createProc t).2.mem = .ok m → ∀ b, borrowPage m = some b → Unnamed (initSlots m) m b
  init : ∀ s info t u, bootTables env = .ok s → bootIdle env s = .ok (info, t) → bootInit env info t = .ok u →
    LoadOwned u.mem (wordOf (u.mem.space 1).region0) env.initFile env.cmdArgs

/-- The states of `KernelStart`: the tables are there, idle is loaded, init has
been switched to, and init is loaded. -/
structure Boots (env : BootEnv) (s₁ s₂ s₃ s : State) (m : Memory) (idleInfo initInfo : ExceptionInfo) : Prop where
  tables : bootTables env = .ok s₁
  idle : bootIdle env s₁ = .ok (idleInfo, s₂)
  build : buildRegion0 1 (createProc s₂).2.mem = .ok m
  init : bootInit env idleInfo s₂ = .ok s₃
  stages : Stages env s₁.mem s₂.mem m s₃.mem s.mem idleInfo initInfo

theorem kernelStart_boots (h : kernelStart env = .ok s) : ∃ s₁ s₂ s₃ m i i', Boots env s₁ s₂ s₃ s m i i' := by
  obtain ⟨s₁, h₁, h⟩ := bind_ok.1 h
  obtain ⟨⟨idleInfo, s₂⟩, h₂, h⟩ := bind_ok.1 h
  obtain ⟨s₃, h₃, h⟩ := bind_ok.1 h
  obtain ⟨⟨out, s₄⟩, h₄, h⟩ := bind_ok.1 h
  obtain rfl := Except.ok.inj h
  obtain ⟨m, hm, hs₁⟩ := bootTables_ok h₁
  obtain ⟨r₁, m₁, hm₁, hs₂⟩ := bootIdle_ok h₂ (by rw [hs₁]; rfl)
  have hcount : s₂.fam.count = 1 := by
    rw [hs₂, hs₁]
    rfl
  obtain ⟨m₂, m₃, hm₂, hm₃, hs₃⟩ := bootInit_ok h₃ hcount (by rw [hs₂]; rfl) (by rw [hs₂])
  have hresume := h₄
  rw [hs₃] at hresume
  obtain ⟨⟨r₄, initInfo, m₄⟩, hm₄, hresume⟩ := bind_ok.1 hresume
  obtain ⟨-, rfl⟩ := Prod.mk.inj (Except.ok.inj hresume)
  refine ⟨s₁, s₂, s₃, m₂, idleInfo, initInfo, h₁, h₂, ?_, h₃, ?_⟩
  · rw [createProc_eq hcount]
    exact hm₂
  · have he₁ : s₁.mem = m := by rw [hs₁]
    have he₂ : s₂.mem = m₁ := by rw [hs₂]
    have he₃ : s₃.mem = m₃ := by rw [hs₃]
    rw [he₁] at hm₁ ⊢
    rw [he₂] at hm₂ ⊢
    rw [he₃]
    exact ⟨hm, ⟨r₁, hm₁⟩, hm₂, hm₃, ⟨r₄, hm₄⟩⟩

structure Booted (i : Nat) (m : Memory) : Prop where
  lt : i < pageTableLen
  owned : Owned (withEntries bootSlots (.frame (pageTableLen + i))) m
  page : names m (.kernel i) = some (pageTableLen + i)
  idle : (m.space 0).region0 = .region0Pt ∧ (m.space 0).freeVpn = toUlong (-1)
  init : (m.space 1).region0 = .page (pageTableLen + i) ∧ (m.space 1).freeVpn = i

namespace Booted

theorem entry (_ : Booted i m) : ∀ j, j < pageTableLen →
    withEntries bootSlots (.frame (pageTableLen + i)) (.entry (.frame (pageTableLen + i)) j) := fun j hj => .inr ⟨j, hj, rfl⟩

theorem leads (h : Booted i m) : Leads m (m.space 1).region0 (.frame (pageTableLen + i)) := by
  obtain ⟨hv, hp⟩ := names_some.1 h.page
  have hi := h.lt
  rw [h.init.1]
  refine .frame (kernelFrame_ok.2 ⟨⟨Nat.le_add_right .., by omega⟩, ?_⟩)
  rw [Nat.add_sub_cancel_left]
  exact ⟨hv, hp, (h.owned.holds.taken (.kernel i) _ (.inl h.lt) h.page).1⟩

theorem word (h : Booted i m) : wordOf (m.space 1).region0 = .frame (pageTableLen + i) := by
  rw [h.init.1]
  rfl

theorem slots (h : Booted i m) : initSlots m = withEntries bootSlots (.frame (pageTableLen + i)) := by
  rw [initSlots, h.word]

end Booted

theorem idle_owned (hfits : LoadOwned s₁.mem .static env.idleFile env.cmdArgs) (h₁ : bootTables env = .ok s₁)
    (h₂ : bootIdle env s₁ = .ok (idleInfo, s₂)) :
    Owned bootSlots s₂.mem ∧ ((s₂.mem.space 0).region0 = .region0Pt ∧ (s₂.mem.space 0).freeVpn = toUlong (-1)) ∧
      s₂.fam.count = 1 := by
  obtain ⟨m, hm, rfl⟩ := bootTables_ok h₁
  obtain ⟨r, m', hload, rfl⟩ := bootIdle_ok h₂ rfl
  obtain ⟨hhome, hptr, hsmall⟩ := tables_home hm
  have hentries (j : Nat) (hj : j < pageTableLen) : bootSlots (.entry .static j) := ⟨rfl, hj⟩
  have hmoves := loadProgram_moves hload
  refine ⟨loadProgram_owned ((hhome.owned hsmall).setSpace ..) .static hentries ?_ hfits hload, ⟨?_, ?_⟩, rfl⟩
  · change ∀ j, j < pageTableLen → bootSlots (.entry (wordOf m.regPtr0) j)
    rw [hptr]
    exact hentries
  · change (m'.space 0).region0 = _
    rw [hmoves.table.1, setSpace_space_self]
  · change (m'.space 0).freeVpn = _
    rw [hmoves.table.2, setSpace_space_self]

theorem TableOwned.setSpace {P : Slot → Prop} {proc : Nat} (h : TableOwned P m proc) (sp : Space) :
    TableOwned P (setSpace m proc sp) proc := by
  intro i hi
  have hsame : freeVirtualPage (Machine.setSpace m proc sp) = freeVirtualPage m := Indices.freeVirtualPage_congr rfl rfl
  rw [hsame] at hi
  obtain ⟨hunnamed, hclean, henough⟩ := h i hi
  refine ⟨fun x hx hn => hunnamed x hx ?_, hclean, henough⟩
  rwa [names_congr (pte_setSpace ..)] at hn

theorem withTable_space {p proc : Nat} (hp : p ≠ proc) : (withTable proc i m).space p = m.space p := put_of_ne hp ..

theorem table_booted (howned : Owned bootSlots s.mem) (hidle : (s.mem.space 0).region0 = .region0Pt ∧
    (s.mem.space 0).freeVpn = toUlong (-1)) (hcount : s.fam.count = 1) (htable : TableOwned bootSlots s.mem 1)
    (hbuild : buildRegion0 1 (createProc s).2.mem = .ok m) :
    ∃ i, Booted i m ∧ ∀ j, kernelStackBase ≤ j → j < pageTableLen → (m.frames (pageTableLen + i) j).valid = true := by
  rw [createProc_eq hcount] at hbuild
  have hstart : Owned bootSlots (setSpace s.mem 1
      { s.mem.space 1 with brk := toUlong (-1), region0 := .null, freeVpn := toUlong (-1) }) := howned.setSpace ..
  obtain ⟨i, hi, howned', hname, hfix⟩ := buildRegion0_joins hstart (fun _ hi => hi) (htable.setSpace _) hbuild
  obtain ⟨vp, hprep⟩ := ForkCopies.buildRegion0_prepared hstart.small hbuild
  have hinit : (m.space 1).region0 = .page (pageTableLen + i) ∧ (m.space 1).freeVpn = i := by
    have hspace : m.space 1 = (withTable 1 i (setSpace s.mem 1
        { s.mem.space 1 with brk := toUlong (-1), region0 := .null, freeVpn := toUlong (-1) })).space 1 := by rw [hfix.space]
    rw [hspace]
    unfold withTable
    rw [setSpace_space_self]
    exact ⟨rfl, rfl⟩
  obtain rfl : vp = i := by
    have := TablePtr.page.inj (hprep.table.symm.trans hinit.1)
    omega
  refine ⟨vp, ⟨hi, howned', hname, ?_, hinit⟩, hprep.stack⟩
  have hspace : m.space 0 = s.mem.space 0 := by
    rw [hfix.space, withTable_space Nat.zero_ne_one]
    rfl
  rw [hspace]
  exact hidle

structure Entered (i : Nat) (m m' : Memory) : Prop where
  before : Booted i m
  after : Booted i m'
  running : wordOf m'.regPtr0 = .frame (pageTableLen + i)
  slots : ∀ x, withEntries bootSlots (.frame (pageTableLen + i)) x → x.pte m' = x.pte m
  stack : ∀ j, kernelStackBase ≤ j → j < pageTableLen → (m.frames (pageTableLen + i) j).valid = true
  space : m'.space = m.space

theorem boot_entered (h : BootOwned env) (hb : Boots env s₁ s₂ s₃ s m idleInfo initInfo) : ∃ i, Entered i m s₃.mem := by
  obtain ⟨howned, hidle, hcount⟩ := idle_owned (h.idle _ hb.tables) hb.tables hb.idle
  obtain ⟨i, hm, hstack⟩ := table_booted howned hidle hcount (h.table _ _ _ hb.tables hb.idle) hb.build
  obtain ⟨u, hu, hswitch⟩ := switchNewProc_table hb.stages.enter
  have hborrow (b : Nat) (hbp : borrowPage m = some b) : Unnamed (withEntries bootSlots (.frame (pageTableLen + i))) m b :=
    hm.slots ▸ h.borrow _ _ _ _ hb.tables hb.idle hb.build b hbp
  obtain ⟨howned₃, hslots⟩ := switchNewProc_owned hm.owned hm.leads hm.entry hstack hborrow hb.stages.enter
  have hspace : s₃.mem.space = m.space := by
    rw [hswitch]
    exact hu.space
  refine ⟨i, hm, ?_, ?_, hslots, hstack, hspace⟩
  · exact ⟨hm.lt, howned₃, (names_congr (hslots (.kernel i) (.inl hm.lt))).trans hm.page, hspace ▸ hm.idle, hspace ▸ hm.init⟩
  · rw [hswitch]
    change Word.frame (pageTableLen + (u.space 1).freeVpn) = _
    rw [hu.space, hm.init.2]

theorem boot_owned (h : BootOwned env) (hb : Boots env s₁ s₂ s₃ s m idleInfo initInfo) : ∃ i, Booted i s.mem := by
  obtain ⟨i, he⟩ := boot_entered h hb
  obtain ⟨r, hload⟩ := hb.stages.init
  have hmoves := loadProgram_moves hload
  have hfits : LoadOwned s₃.mem (.frame (pageTableLen + i)) env.initFile env.cmdArgs :=
    he.after.word ▸ h.init _ _ _ _ hb.tables hb.idle hb.init
  refine ⟨i, he.after.lt, ?_, ?_, ?_, ?_⟩
  · exact loadProgram_owned he.after.owned he.after.leads he.after.entry (he.running ▸ he.after.entry) hfits hload
  · exact (names_congr (x := .kernel i) (congrFun (SameRegion1.loadProgram hload) i)).trans he.after.page
  · rw [hmoves.others 0 (by decide)]
    exact he.after.idle
  · rw [hmoves.table.1, hmoves.table.2]
    exact he.after.init

theorem unnamed_of_free {P : Slot → Prop} (h : Owned P m) (hf : m.freePages (pageTableLen + i) = .pageFree) : Unnamed P m i := by
  intro x hx hn
  have hused := (h.holds.taken x _ hx hn).2
  rw [hf] at hused
  cases hused

def passes {α : Type} (r : Except Fault α) (test : α → Bool) : Bool :=
  match r with
  | .ok x => test x
  | .error _ => true

theorem passes_ok {α : Type} {r : Except Fault α} {test : α → Bool} {x : α} (h : passes r test = true) (hr : r = .ok x) :
    test x = true := by
  rw [hr] at h
  exact h

def smallFits (m : Memory) (w : Word) : Bool :=
  let z := sizes m.cfg ⟨0, 4, 0, 0⟩ []
  z.textNpg.toNat + z.dataBssNpg.toNat + z.stackNpg.toNat ≤ available m w

def pageFits (m : Memory) : Bool :=
  match freeVirtualPage m with
  | none => true
  | some i => m.freePages (pageTableLen + i) = .pageFree &&
      ((∀ j < kernelStackBase, (m.frames (pageTableLen + i) j).valid = false) &&
        kernelStackPages ≤ (freeList (withTable 1 i m)).length)

def borrowFits (m : Memory) : Bool :=
  match borrowPage m with
  | none => true
  | some b => m.freePages (pageTableLen + b) = .pageFree

def initFits (u : State) : Bool := smallFits u.mem (wordOf (u.mem.space 1).region0)

def idleFits (r : ExceptionInfo × State) : Bool :=
  pageFits r.2.mem && (passes (buildRegion0 1 (createProc r.2).2.mem) borrowFits && passes (bootInit Runs.smallBoot r.1 r.2) initFits)

def tablesFit (s : State) : Bool := smallFits s.mem .static && passes (bootIdle Runs.smallBoot s) idleFits

def bootFits : Bool := passes (bootTables Runs.smallBoot) tablesFit

theorem boot_fits : bootFits = true := by
  decide +kernel

theorem small_loadOwned {w : Word} (h : smallFits m w = true) : LoadOwned m w (some Runs.smallFile) [] := by
  rintro li ⟨⟨f, hf, hst⟩, -⟩
  obtain rfl := Option.some.inj hf
  cases hst
  exact of_decide_eq_true h

theorem pageFits_owned (howned : Owned bootSlots m) (h : pageFits m = true) : TableOwned bootSlots m 1 := by
  intro i hi
  unfold pageFits at h
  rw [hi] at h
  simp only [Bool.and_eq_true, decide_eq_true_eq] at h
  exact ⟨unnamed_of_free howned h.1, h.2.1, h.2.2⟩

theorem small_bootOwned : BootOwned Runs.smallBoot := by
  have hfits (s : State) (h₁ : bootTables Runs.smallBoot = .ok s) : tablesFit s = true := passes_ok boot_fits h₁
  have hidle (s : State) (h₁ : bootTables Runs.smallBoot = .ok s) : LoadOwned s.mem .static (some Runs.smallFile) [] :=
    small_loadOwned (Bool.and_eq_true_iff.1 (hfits s h₁)).1
  have hrest (s : State) (info : ExceptionInfo) (t : State) (h₁ : bootTables Runs.smallBoot = .ok s)
      (h₂ : bootIdle Runs.smallBoot s = .ok (info, t)) : pageFits t.mem = true ∧
        passes (buildRegion0 1 (createProc t).2.mem) borrowFits = true ∧ passes (bootInit Runs.smallBoot info t) initFits = true := by
    have h : idleFits (info, t) = true := passes_ok (Bool.and_eq_true_iff.1 (hfits s h₁)).2 h₂
    unfold idleFits at h
    rwa [Bool.and_eq_true_iff, Bool.and_eq_true_iff] at h
  have htable (s : State) (info : ExceptionInfo) (t : State) (h₁ : bootTables Runs.smallBoot = .ok s)
      (h₂ : bootIdle Runs.smallBoot s = .ok (info, t)) : TableOwned bootSlots t.mem 1 :=
    pageFits_owned (idle_owned (hidle s h₁) h₁ h₂).1 (hrest s info t h₁ h₂).1
  refine ⟨hidle, htable, fun s info t m h₁ h₂ h₃ b hb => ?_, fun s info t u h₁ h₂ h₃ => ?_⟩
  · have hfree := passes_ok (hrest s info t h₁ h₂).2.1 h₃
    unfold borrowFits at hfree
    rw [hb] at hfree
    obtain ⟨howned, hspace, hcount⟩ := idle_owned (hidle s h₁) h₁ h₂
    obtain ⟨i, hm, -⟩ := table_booted howned hspace hcount (htable s info t h₁ h₂) h₃
    exact hm.slots.symm ▸ unnamed_of_free hm.owned (of_decide_eq_true hfree)
  · have hinit : initFits u = true := passes_ok (hrest s info t h₁ h₂).2.2 h₃
    exact small_loadOwned hinit

end Yalnix.BootFrames
