import Yalnix.LayoutRuns
import Yalnix.Privacy
import Yalnix.Births
import Yalnix.ForkContents

namespace Yalnix.Protection

open Loops Machine AddressSpace LoadProgram Processes Queues Kernel Accesses FreeList Calls Boot Runs Clock CurrProc Layout Allocation
  StackGrowth Frames FrameLeak SwitchFrames BootFrames FrameOwnership Isolation ValidPages SpaceLayout LayoutRuns Privacy ForkContents Births

variable {env : BootEnv} {s t : State} {info info' : ExceptionInfo} {m m' mem : Memory} {P : Slot → Prop} {v w : Word} {ptr : TablePtr}
  {file : Option File} {args : List (List (BitVec 8))} {e : Pte} {r : Int} {i j k n p curr : Nat}

/-- A page that user mode reads, and either executes or writes. -/
def UserPage (e : Pte) : Prop := e.uprot = protRead ||| protExec ∨ e.uprot = protRead ||| protWrite

/-- The pages of the program are user pages, and those of the kernel stack are not. -/
structure Shielded (m : Memory) (w : Word) : Prop where
  user : ∀ j < kernelStackBase, (w.read m j).valid = true → UserPage (w.read m j)
  kernel : ∀ j, kernelStackBase ≤ j → j < pageTableLen → (w.read m j).uprot = protNone

namespace Shielded

theorem of_entries (h : Shielded m w) (hsame : ∀ j < pageTableLen, v.read m' j = w.read m j) : Shielded m' v := by
  refine ⟨fun j hj hv => ?_, fun j hj hlt => ?_⟩
  · rw [hsame j (Nat.lt_trans hj (by decide))] at hv ⊢
    exact h.user j hj hv
  · rw [hsame j hlt]
    exact h.kernel j hj hlt

theorem write (h : Shielded m w) (huser : j < kernelStackBase → e.valid = true → UserPage e)
    (hkernel : kernelStackBase ≤ j → e.uprot = protNone) : Shielded (w.write m j e) w := by
  refine ⟨fun k hk hv => ?_, fun k hk hlt => ?_⟩
  · by_cases hkj : k = j
    · subst hkj
      rw [word_read_write] at hv ⊢
      exact huser hk hv
    · rw [word_read_write_of_ne hkj] at hv ⊢
      exact h.user k hk hv
  · by_cases hkj : k = j
    · subst hkj
      rw [word_read_write]
      exact hkernel hk
    · rw [word_read_write_of_ne hkj]
      exact h.kernel k hk hlt

theorem mapPage {uprot kprot : BitVec 3} {i : Int} (h : Shielded m w) (hw : Leads m ptr w)
    (hprot : uprot = protRead ||| protExec ∨ uprot = protRead ||| protWrite) (hi : i < kernelStackBase)
    (hmap : mapPage ptr uprot kprot i m = .ok m') : Shielded m' w := by
  obtain ⟨j, w', rfl, hj, hw', hcase⟩ := mapPage_cases hmap
  obtain rfl := leads_unique hw hw'
  have hlt : j < kernelStackBase := Int.ofNat_lt.1 hi
  rcases hcase with ⟨f, l, -, rfl⟩ | ⟨-, rfl⟩
  · have htake : Shielded (take m f) w := h.of_entries fun k _ => word_read_mark ..
    exact htake.write (fun _ _ => hprot) fun hle => absurd hlt (Nat.not_lt.2 hle)
  · exact h.write (fun _ _ => hprot) fun hle => absurd hlt (Nat.not_lt.2 hle)

theorem mapLoop {uprot kprot : BitVec 3} {start : Nat} {g : Nat → Int} (h : Shielded m w) (hw : Leads m ptr w)
    (hprot : uprot = protRead ||| protExec ∨ uprot = protRead ||| protWrite)
    (hg : ∀ k, start ≤ k → k < start + n → g k < kernelStackBase)
    (hloop : upTo (fun k => Machine.mapPage ptr uprot kprot (g k)) start n m = .ok m') : Shielded m' w ∧ Leads m' ptr w :=
  upTo_invariant (fun _ u => Shielded u w ∧ Leads u ptr w)
    (fun k _ _ hk hlt hu hmap => ⟨hu.1.mapPage hu.2 hprot (hg k hk hlt) hmap, (Within.mapPage hmap w hu.2).1⟩) ⟨h, hw⟩ hloop

theorem protectText (h : Shielded m v) (hprot : protectText ptr k m = .ok m') : Shielded m' v := by
  refine ⟨fun j hj hv => ?_, fun j hj hlt => ?_⟩
  · obtain ⟨kprot, he⟩ := protectText_read hprot v j
    rw [he] at hv ⊢
    exact h.user j hj hv
  · obtain ⟨kprot, he⟩ := protectText_read hprot v j
    rw [he]
    exact h.kernel j hj hlt

end Shielded

theorem layOut_shielded {cfg : Config} {li : LoadInfo} (hw : Leads m ptr w)
    (hkernel : ∀ j, kernelStackBase ≤ j → j < pageTableLen → (w.read m j).uprot = protNone)
    (hlimit : StackLimit cfg) (hcounts : CountsFit cfg li args) (hvirt : fitsVirtual (sizes cfg li args) = true)
    (hlay : layOut cfg ptr (sizes cfg li args) m = .ok m') : Shielded m' w := by
  have hz := sizes_counted hcounts
  have hfits := pages_fit hlimit hcounts hvirt
  have hle := hlimit.le
  obtain ⟨m₁, h₁, hlay⟩ := bind_ok.1 hlay
  obtain ⟨m₂, h₂, hlay⟩ := bind_ok.1 hlay
  obtain ⟨m₃, h₃, hlay⟩ := bind_ok.1 hlay
  obtain ⟨m₄, h₄, hlay⟩ := bind_ok.1 hlay
  have hclear := cleared hw h₁ h₂
  have hstart : Shielded m₂ w := by
    refine ⟨fun j hj hv => ?_, fun j hj hlt => ?_⟩
    · rw [hclear.read j (Nat.lt_trans hj (by decide)), if_pos hj] at hv
      exact absurd hv Bool.false_ne_true
    · rw [hclear.read j hlt, if_neg (Nat.not_lt.2 hj)]
      exact hkernel j hj hlt
  rw [hz.textLen] at h₃
  rw [hz.textEnd, hz.dataLen] at h₄
  rw [hz.stackNpg] at hlay
  obtain ⟨htext, hlead⟩ := hstart.mapLoop (Leads.of_fixed hw hclear.fixed hclear.region1Pt) (.inl rfl) (fun k _ hk => by omega) h₃
  obtain ⟨hdata, hlead⟩ := htext.mapLoop hlead (.inr rfl) (fun k _ hk => by omega) h₄
  exact (hdata.mapLoop hlead (.inr rfl) (fun k _ _ => by omega) hlay).1

theorem fill_shielded {li : LoadInfo} {read : Option (List (BitVec 8))} {z : Sizes} (h : Owned P m)
    (hrun : ∀ j, j < pageTableLen → P (.entry (wordOf m.regPtr0) j)) (hv : ∀ j, j < pageTableLen → P (.entry v j))
    (hfill : fill ptr li read args z info m = .ok (r, info', m')) (hshield : Shielded m v) : Shielded m' v := by
  have hrel := fill_relation (R := fun u u' => Owned P u ∧ (∀ j, j < pageTableLen → P (.entry (wordOf u.regPtr0) j)) →
      (Owned P u' ∧ ∀ j, j < pageTableLen → P (.entry (wordOf u'.regPtr0) j)) ∧ (Shielded u v → Shielded u' v))
    (fun u hu => ⟨hu, fun hs => hs⟩) (fun u₁ u₂ u₃ h₁ h₂ hu => ?_) (fun vaddr x u u' hs hu => ?_) (fun k u u' hp hu => ?_) hfill
  · exact (hrel ⟨h, hrun⟩).2 hshield
  · obtain ⟨hu₂, ht⟩ := h₁ hu
    exact ⟨(h₂ hu₂).1, fun hs => (h₂ hu₂).2 (ht hs)⟩
  · refine ⟨⟨storeByte_owned hu.1 hu.2 hs, (Fixed.storeByte hs).regPtr0 ▸ hu.2⟩, fun hsh => ?_⟩
    exact hsh.of_entries fun j hj => storeByte_read hu.1 hu.2 hs (hv j hj)
  · exact ⟨⟨protectText_owned hu.1 hp, (Fixed.protectText hp).regPtr0 ▸ hu.2⟩, fun hsh => hsh.protectText hp⟩

theorem setSpace_shielded {q : Nat} {sp : Space} (h : Shielded m w) : Shielded (setSpace m q sp) w :=
  h.of_entries fun j _ => word_read_space w m q sp j

/-- LoadProgram leaves every table in play shielded, and shields that of a program it has loaded. -/
theorem loadProgram_shielded (h : Owned P m) (hw : Leads m ptr w) (hin : ∀ j, j < pageTableLen → P (.entry w j))
    (hrun : ∀ j, j < pageTableLen → P (.entry (wordOf m.regPtr0) j)) (henough : LoadOwned m w file args)
    (hlimit : StackLimit m.cfg) (hcounts : Countable m file args)
    (hload : loadProgram curr ptr file args info m = .ok (r, info', m')) (hv : ∀ j, j < pageTableLen → P (.entry v j))
    (hshield : Shielded m v ∨ r = 0 ∧ v = w ∧ ∀ j, kernelStackBase ≤ j → j < pageTableLen → (v.read m j).uprot = protNone) :
    Shielded m' v := by
  rcases loadProgram_ok hload with ⟨hr, -, rfl⟩ | ⟨f, li, hf, hst, hvirt, ⟨-, hr, -, rfl⟩ | ⟨hp, m₁, h₁, h₂⟩⟩
  · exact hshield.resolve_right fun h => absurd (hr.symm.trans h.1) (by decide)
  · exact setSpace_shielded (hshield.resolve_right fun h => absurd (hr.symm.trans h.1) (by decide))
  have hpasses : Passes file args m li := ⟨⟨f, hf, hst⟩, hvirt, hp⟩
  have hlead : Leads (setSpace m curr { m.space curr with brk := newBrk (sizes m.cfg li args) }) ptr w :=
    leads_congr hw rfl fun _ _ => rfl
  have havail : available (setSpace m curr { m.space curr with brk := newBrk (sizes m.cfg li args) }) w = available m w := by
    cases w <;> rfl
  have howned := layOut_owned (h.setSpace ..) hlead hin (havail ▸ henough li hpasses) h₁
  have hlaid : Shielded m₁ v := by
    by_cases hvw : v = w
    · subst hvw
      have hkernel : ∀ j, kernelStackBase ≤ j → j < pageTableLen → (v.read m j).uprot = protNone :=
        hshield.elim Shielded.kernel fun h => h.2.2
      refine layOut_shielded hlead (fun j hj hlt => ?_) hlimit (hcounts li hpasses) hvirt h₁
      rw [word_read_space]
      exact hkernel j hj hlt
    · have huntouched := (Within.layOut h₁ w hlead).2.untouched (h.setSpace ..) (hin 0 (by decide)) hv hvw
      have hold := hshield.resolve_right fun h => hvw h.2.1
      exact (setSpace_shielded hold).of_entries huntouched.entries
  refine fill_shielded (howned.setSpace ..) ?_ hv h₂ (setSpace_shielded hlaid)
  change ∀ j, j < pageTableLen → P (.entry (wordOf m₁.regPtr0) j)
  rw [(Fixed.layOut h₁).regPtr0]
  exact hrun

/-- The invariant: every live process has its layout, and its pages their permissions. -/
structure Protected (s : State) : Prop where
  settled : Fitted (fun _ => True) s
  tables : ∀ p, live s p → Shielded s.mem (wordOf (s.mem.space p).region0)

theorem Protected.sp_le (h : Protected s) (hp : live s p) : (s.mem.space p).sp ≤ kernelStackBase :=
  Nat.le_trans (h.settled.shaped p hp trivial).pages.stack h.settled.limit.le

theorem grow_pages (h : Protected s) (hlive : live s s.curr) (hg : growsStack s info = true) :
    (toInt (toInt (s.mem.space s.curr).sp - toUlong (downToPage info.addr))).toNat = (s.mem.space s.curr).sp - page info := by
  have hsp := h.sp_le hlive
  have haddr := (growsStack_iff.1 hg).2.1
  rw [toUlong_page haddr]
  have hvpn : page info ≤ kernelStackBase := Nat.div_le_of_le_mul (Nat.mul_comm .. ▸ haddr)
  have hbase : kernelStackBase < 2 ^ 31 := by decide
  rw [toInt_small (x := ((s.mem.space s.curr).sp : Int)) (by omega) (by omega), toInt_small (by omega) (by omega)]
  omega

theorem growStack_loop (h : Protected s) (hlive : live s s.curr) (hg : growsStack s info = true)
    (hgrow : growStack s.curr (toUlong (downToPage info.addr)) s.mem = .ok mem) :
    ∃ u, upTo (fun k => mapPage (s.mem.space s.curr).region0 (protRead ||| protWrite) (protRead ||| protWrite) k) (page info)
        ((s.mem.space s.curr).sp - page info) s.mem = .ok u ∧
      mem = setSpace u s.curr { u.space s.curr with sp := page info } := by
  have hn := grow_pages h hlive hg
  rw [toUlong_page (growsStack_iff.1 hg).2.1] at hgrow hn
  obtain ⟨u, hu, hmem⟩ := bind_ok.1 hgrow
  exact ⟨u, hn ▸ hu, (Except.ok.inj hmem).symm⟩

theorem growStack_shielded (h : Protected s) (hlive : live s s.curr) (hg : growsStack s info = true)
    (hgrow : growStack s.curr (toUlong (downToPage info.addr)) s.mem = .ok mem) :
    Shielded mem (wordOf (mem.space s.curr).region0) := by
  have hsp := h.sp_le hlive
  rw [congrArg wordOf ((growStack_moves hgrow).region0 s.curr)]
  obtain ⟨u, hu, rfl⟩ := growStack_loop h hlive hg hgrow
  refine setSpace_shielded ((h.tables s.curr hlive).mapLoop (h.settled.sound.leads hlive) (.inr rfl) (fun k hk hlt => ?_) hu).1
  omega

theorem brk_pages {addr : Nat} (h : Protected s) (hlive : live s s.curr) (hle : (s.mem.space s.curr).brk ≤ roundedBrk addr)
    (hsp : roundedBrk addr ≤ (s.mem.space s.curr).sp) :
    (toInt (roundedBrk addr - (s.mem.space s.curr).brk)).toNat = roundedBrk addr - (s.mem.space s.curr).brk := by
  have hlimit := h.sp_le hlive
  have hbase : kernelStackBase < 2 ^ 31 := by decide
  rw [toInt_small (by omega) (by omega)]
  omega

theorem brk_loop {addr : Nat} (h : Protected s) (hlive : live s s.curr) (hle : (s.mem.space s.curr).brk ≤ roundedBrk addr)
    (hsp : roundedBrk addr ≤ (s.mem.space s.curr).sp) (hbrk : brkFunc s.curr addr s.mem = .ok (r, mem)) :
    ∃ u, upTo (fun k => mapPage .region0Pt (protRead ||| protWrite) (protRead ||| protWrite) k) (s.mem.space s.curr).brk
        (roundedBrk addr - (s.mem.space s.curr).brk) s.mem = .ok u ∧
      mem = setSpace u s.curr { u.space s.curr with brk := roundedBrk addr } := by
  obtain ⟨u, hu, hmem⟩ := brk_up hle hbrk
  exact ⟨u, brk_pages h hlive hle hsp ▸ hu, hmem⟩

theorem brk_shielded {addr : Nat} (h : Protected s) (hlive : live s s.curr) (hfits : BrkFits s addr)
    (hbrk : brkFunc s.curr addr s.mem = .ok (r, mem)) : Shielded mem (wordOf (mem.space s.curr).region0) := by
  have hshield := h.tables s.curr hlive
  rw [congrArg wordOf ((brkFunc_moves hbrk).region0 s.curr)]
  rcases hfits with heq | ⟨hlt, hinv⟩ | ⟨hstatic, hle, hsp⟩
  · obtain ⟨u, hu, rfl⟩ := brk_up (Nat.le_of_eq heq.symm) hbrk
    rw [heq, Int.sub_self] at hu
    obtain rfl := Except.ok.inj hu
    exact setSpace_shielded hshield
  · obtain rfl := brk_refused hlt hinv hbrk
    exact hshield
  · obtain ⟨u, hu, rfl⟩ := brk_loop h hlive hle hsp hbrk
    have hlimit := h.sp_le hlive
    have hword : wordOf (s.mem.space s.curr).region0 = .static := by rw [hstatic]; rfl
    rw [hword] at hshield ⊢
    refine setSpace_shielded (hshield.mapLoop .static (.inr rfl) (fun k hk hlt => ?_) hu).1
    omega

theorem fork_shielded (h : Protected s) (hm : s.mode = .user) (hsafe : ForkOwned s) (hfork : forkFunc info s = .ok t) :
    Shielded t.mem (wordOf (t.mem.space s.fam.count).region0) := by
  have hs := h.settled.sound
  have hparent := hs.live_curr hm
  have hshield := h.tables s.curr hparent
  obtain ⟨m, m', fam, sched, hbuild, hswitch, -, -, rfl⟩ := forkFunc_ok hfork
  obtain ⟨i, hi, hchild, hpages⟩ := fork_pages hs hm hsafe hbuild hswitch
  have hword : wordOf (m'.space s.fam.count).region0 = .frame (pageTableLen + i) := by
    rw [hi.child.1]
    rfl
  change Shielded m' (wordOf (m'.space s.fam.count).region0)
  rw [hword]
  refine ⟨fun j hj hv => ?_, fun j hj hlt => ?_⟩
  · have hlt : j < pageTableLen := Nat.lt_trans hj (by decide)
    rw [hchild.copied j hlt] at hv
    have huprot := (hpages j hlt hv).uprot
    unfold UserPage
    rw [huprot]
    exact hshield.user j hj hv
  · rw [(hpages j hlt (h.settled.stacked s.curr hparent j hj hlt)).uprot]
    exact hshield.kernel j hj hlt

theorem exec_shielded (h : Protected s) (hp : live s p) (hm : s.mode ≠ .hung) (hcurr : live s s.curr)
    (howned : LoadOwned s.mem (wordOf (s.mem.space p).region0) file args) (hfits : LoadFits s p file args)
    (hload : loadProgram s.curr (s.mem.space p).region0 file args info s.mem = .ok (r, info', mem)) {q : Nat} (hq : live s q) :
    Shielded mem (wordOf (mem.space q).region0) := by
  have hs := h.settled.sound
  rw [congrArg wordOf ((loadProgram_moves hload).region0 q)]
  exact loadProgram_shielded hs.owned (hs.leads hp) (inPlay_table hp) (hs.running hm hcurr) howned h.settled.limit hfits.countable
    hload (inPlay_table hq) (.inl (h.tables q hq))

/-- The process that is resumed has not exited, unless it comes back into ExitFunc. -/
theorem resuming_live {c : Context} (hs : Sound s) (hm : s.mode = .resuming c) (hk : c.kont ≠ .exit) : live s s.curr := by
  refine ⟨hs.current.curr_lt, Bool.eq_false_iff.2 fun he => hk ?_⟩
  rw [hs.current.resumes c hm]
  exact hs.current.dead _ hs.current.curr_lt he

theorem acts_shielded {event : Event} {q : Nat} (h : Protected s) (he : Orderly s event) (hq : live s q) (hq' : live t q)
    (hacts : Acts s event q) (hstep : Step s event t) : Shielded t.mem (wordOf (t.mem.space q).region0) := by
  have hs := h.settled.sound
  have hshield := h.tables q hq
  obtain ⟨hsafe, hfits⟩ := he
  obtain ⟨hen, hnext⟩ := hstep
  cases event with
  | call c info =>
      obtain ⟨⟨out, u⟩, hcall, rfl⟩ := map_ok.1 hnext
      obtain rfl : q = s.curr := hacts
      have hm := userMode_iff.1 hen
      cases c with
      | fork =>
          obtain ⟨v, hv, hcall⟩ := bind_ok.1 hcall
          obtain ⟨-, rfl⟩ := Prod.mk.inj (Except.ok.inj hcall)
          change Shielded v.mem (wordOf (v.mem.space s.curr).region0)
          rw [congrArg wordOf (fork_remains hs hm hsafe.frames hq hv).2]
          exact hshield.of_entries (fork_untouched hs hm hsafe.frames hq hv).entries
      | exec file args =>
          obtain ⟨⟨r, info', v⟩, hv, hcall⟩ := bind_ok.1 hcall
          obtain ⟨-, rfl⟩ := Prod.mk.inj (Except.ok.inj hcall)
          obtain ⟨r', mem, hload, -, rfl⟩ := execFunc_ok hv
          exact exec_shielded h hq (by simp [hm]) hq hsafe.frames hfits hload hq
      | exit status =>
          obtain ⟨v, hv, hcall⟩ := bind_ok.1 hcall
          obtain ⟨-, rfl⟩ := Prod.mk.inj (Except.ok.inj hcall)
          exact absurd rfl (exit_live hv hq')
      | wait ptr =>
          obtain ⟨⟨res, v⟩, hv, hcall⟩ := bind_ok.1 hcall
          obtain ⟨-, rfl⟩ := Prod.mk.inj (Except.ok.inj hcall)
          rcases waitFunc_ok hv with ⟨-, -, -, rfl⟩ | ⟨-, -, -, next, sched, -, rfl⟩ | ⟨-, pid, fam, -, -, rfl⟩
          all_goals exact hshield.of_entries (same_untouched _ rfl rfl).entries
      | getPid =>
          obtain ⟨-, rfl⟩ := Prod.mk.inj (Except.ok.inj hcall)
          exact hshield
      | brk addr =>
          obtain ⟨⟨r, mem⟩, hmem, hcall⟩ := bind_ok.1 hcall
          obtain ⟨-, rfl⟩ := Prod.mk.inj (Except.ok.inj hcall)
          exact brk_shielded h hq hfits hmem
      | delay clockTicks =>
          obtain ⟨⟨res, v⟩, hv, hcall⟩ := bind_ok.1 hcall
          obtain ⟨-, rfl⟩ := Prod.mk.inj (Except.ok.inj hcall)
          rcases delayFunc_ok hv with ⟨-, rfl⟩ | ⟨-, -, queued, next, sched, -, -, -, -, rfl⟩
          all_goals exact hshield.of_entries (same_untouched _ rfl rfl).entries
  | memoryTrap info =>
      obtain ⟨⟨out, u⟩, htrap, rfl⟩ := map_ok.1 hnext
      obtain rfl : q = s.curr := hacts
      rcases memoryTrap_ok htrap with ⟨hg, -, mem, hmem, rfl⟩ | ⟨-, -, hexit⟩
      · exact growStack_shielded h hq hg hmem
      · exact absurd rfl (exit_live hexit hq')
  | fatalTrap info =>
      obtain ⟨⟨out, u⟩, htrap, rfl⟩ := map_ok.1 hnext
      obtain ⟨v, hv, htrap⟩ := bind_ok.1 htrap
      obtain ⟨-, rfl⟩ := Prod.mk.inj (Except.ok.inj htrap)
      exact absurd hacts (exit_live hv hq')
  | clock info => exact hacts.elim
  | resume file =>
      obtain ⟨⟨out, u⟩, hres, rfl⟩ := map_ok.1 hnext
      obtain ⟨c, p, cmdArgs, hm, hk, -⟩ := hacts
      simp only [Kernel.resume, hm, hk] at hres
      obtain ⟨⟨r, info, mem⟩, hload, hres⟩ := bind_ok.1 hres
      obtain ⟨-, rfl⟩ := Prod.mk.inj (Except.ok.inj hres)
      obtain ⟨hp, howned⟩ := hsafe.frames c p cmdArgs hm hk
      have hcurr := resuming_live hs hm (by simp [hk])
      exact exec_shielded h hp (by simp [hm]) hcurr howned (hfits c p cmdArgs hm hk) hload hq
  | kernelBrk addr => exact hacts.elim
  | userStore vaddr x =>
      obtain ⟨mem, hmem, hstore⟩ := bind_ok.1 hnext
      obtain rfl := Except.ok.inj hstore
      have hm := userMode_iff.1 hen
      obtain ⟨f, e, hframe, -, -, rfl⟩ := userStore_ok hmem
      have hno := userFrame_not_table hs.owned (hs.running (by simp [hm]) (hs.live_curr hm)) hframe
      exact hshield.of_entries fun j hj => word_read_copy (fun he => hno j (he ▸ inPlay_table hq j hj)) ..

theorem completed_all (s : State) (e : Event) (p : Nat) : completed s (fun _ => True) e p := by
  cases e with
  | call c info =>
      cases c with
      | fork =>
          change if p = s.fam.count then True else True
          exact (ite_self ..).symm ▸ trivial
      | exec file args => exact .inl trivial
      | _ => trivial
  | resume file => exact .inl trivial
  | _ => trivial

theorem step_protected {event : Event} (h : Protected s) (he : Orderly s event) (hstep : Step s event t) : Protected t := by
  have hs := h.settled.sound
  refine ⟨(step_fitted h.settled he hstep).mono fun p _ => completed_all s event p, fun q hq => ?_⟩
  rcases step_live hstep hq with hold | ⟨rfl, info, rfl⟩
  · by_cases hacts : Acts s event q
    · exact acts_shielded h he hold hq hacts hstep
    · obtain ⟨huntouched, -, htable⟩ := step_bystander hs (Orderly.considerate hs he hstep.1) hold hacts hstep
      rw [htable]
      exact (h.tables q hold).of_entries huntouched.entries
  · obtain ⟨hen, hnext⟩ := hstep
    obtain ⟨⟨out, u⟩, hcall, rfl⟩ := map_ok.1 hnext
    obtain ⟨v, hv, hcall⟩ := bind_ok.1 hcall
    obtain ⟨-, rfl⟩ := Prod.mk.inj (Except.ok.inj hcall)
    exact fork_shielded h (userMode_iff.1 hen) he.1.frames hv

def BootLoads (env : BootEnv) : Prop := bootCompleted env 0 ∧ bootCompleted env 1

theorem boot_settled (henv : BootOwned env) (hfits : BootFits env) (hloads : BootLoads env) (h : kernelStart env = .ok s) :
    Fitted (fun _ => True) s := by
  have hf := boot_fitted henv hfits h
  refine ⟨hf.sound, hf.limit, hf.stacked, fun p hp _ => hf.shaped p hp ?_⟩
  have hlt := hp.1
  rw [boot_count h] at hlt
  obtain rfl | rfl : p = 0 ∨ p = 1 := by omega
  · exact hloads.1
  · exact hloads.2

theorem initRegion0_uprot {page : Nat} (h : initRegion0 page m = .ok m') (j : Nat) :
    (m'.region0Pt j).uprot = if j = page then protNone else (m.region0Pt j).uprot := by
  obtain ⟨f, -, h⟩ := bind_ok.1 h
  obtain rfl := Except.ok.inj h
  change (put m.region0Pt page _ j).uprot = _
  rw [put_apply]
  split
  · rfl
  · rfl

theorem tables_uprot (h : Tables env m) (j : Nat) : (m.region0Pt j).uprot = protNone := by
  obtain ⟨m₀, hm₀, hm⟩ := h.tables
  obtain ⟨m₁, m₂, h₁, h₂, rfl, -⟩ := initPT_ok hm₀
  have hzero : ∀ j, (m₁.region0Pt j).uprot = protNone :=
    upTo_invariant (fun _ v => ∀ j, (v.region0Pt j).uprot = protNone) (fun k v v' _ _ hv hk j => by
      rw [initRegion0_uprot hk]
      split
      · rfl
      · exact hv j) (fun _ => rfl) h₁
  have hstatic := upTo_relation (fun v v' : Memory => v'.region0Pt = v.region0Pt) (fun _ => rfl) (fun _ _ _ h h' => h'.trans h)
    (fun k v v' _ _ hk => initRegion1_static hk) h₂
  rw [hm]
  change (m₂.region0Pt j).uprot = protNone
  rw [hstatic]
  exact hzero j

theorem mapPage_uprot {uprot kprot : BitVec 3} (hw : Leads m ptr w) (h : mapPage ptr uprot kprot k m = .ok m') (j : Nat) :
    (w.read m' j).uprot = if j = k then uprot else (w.read m j).uprot := by
  obtain ⟨k', w', hk, -, hw', hcase⟩ := mapPage_cases h
  obtain rfl := Int.ofNat.inj hk
  obtain rfl := leads_unique hw hw'
  by_cases hj : j = k
  · rw [if_pos hj, hj]
    rcases hcase with ⟨f, l, -, rfl⟩ | ⟨-, rfl⟩
    all_goals rw [word_read_write]
  · rw [if_neg hj]
    rcases hcase with ⟨f, l, -, rfl⟩ | ⟨-, rfl⟩
    · rw [word_read_write_of_ne hj]
      exact congrArg Pte.uprot (word_read_mark ..)
    · rw [word_read_write_of_ne hj]

theorem buildRegion0_uprot {proc : Nat} (h : buildRegion0 proc m = .ok m') (htable : (m'.space proc).region0 = .page (pageTableLen + i))
    (hj : kernelStackBase ≤ j) (hlt : j < pageTableLen) : (m'.frames (pageTableLen + i) j).uprot = protNone := by
  obtain ⟨k, -, hk, -, hframe, hloop⟩ := buildRegion0_ok h
  obtain rfl : k = i := by
    have hspace := (Fixed.upTo (fun _ _ _ => Fixed.mapPage) hloop).space
    rw [hspace, setSpace_space_self] at htable
    have := TablePtr.page.inj htable
    omega
  have hend := upTo_invariant (fun n u => Leads u (.page (pageTableLen + k)) (.frame (pageTableLen + k)) ∧
      ∀ j, kernelStackBase ≤ j → j < n → (u.frames (pageTableLen + k) j).uprot = protNone)
    (fun n u u' _ _ hu hmap => ⟨(Within.mapPage hmap _ hu.1).1, fun j hj hlt => by
      have huprot := mapPage_uprot hu.1 hmap j
      split at huprot
      · exact huprot
      · exact huprot.trans (hu.2 j hj (by omega))⟩) ⟨NewTable.withTable_leads proc hk hframe, fun j hj hlt => by omega⟩ hloop
  exact hend.2 j hj hlt

variable {s₁ s₂ s₃ : State} {idleInfo initInfo : ExceptionInfo}

theorem boot_results {r₀ r₁ : Int} {m₂ m₄ : Memory} (hloads : BootLoads env) (hb : Boots env s₁ s₂ s₃ s m idleInfo initInfo)
    (hidle : loadProgram 0 .region0Pt env.idleFile env.cmdArgs env.info (withIdle s₁.mem) = .ok (r₀, idleInfo, m₂))
    (hinit : loadProgram 1 (s₃.mem.space 1).region0 env.initFile env.cmdArgs idleInfo s₃.mem = .ok (r₁, initInfo, m₄)) :
    r₀ = 0 ∧ r₁ = 0 := by
  obtain ⟨⟨t₁, t₂, t₃, t, u, i, i', hb', hl⟩, ⟨t₁', t₂', t₃', t', u', j, j', hb'', hl'⟩⟩ := hloads
  obtain ⟨rfl, -, -⟩ := boots_unique hb hb'
  obtain ⟨-, rfl, rfl⟩ := boots_unique hb hb''
  refine ⟨?_, ?_⟩
  · rcases hl with ⟨-, hl⟩ | ⟨h, -⟩
    · exact hl.result hidle
    · cases h
  · rcases hl' with ⟨h, -⟩ | ⟨-, hl'⟩
    · cases h
    · exact hl'.result hinit

theorem idle_shielded (henv : BootOwned env) (hfits : BootFits env) (hb : Boots env s₁ s₂ s₃ s m idleInfo initInfo)
    (hload : loadProgram 0 .region0Pt env.idleFile env.cmdArgs env.info (withIdle s₁.mem) = .ok (0, idleInfo, s₂.mem)) :
    Shielded s₂.mem .static := by
  obtain ⟨u, hu, hs₁⟩ := bootTables_ok hb.tables
  have hmem : s₁.mem = u := by rw [hs₁]
  obtain ⟨hhome, hptr, hsmall⟩ := tables_home hu
  have hin (j : Nat) (hj : j < pageTableLen) : bootSlots (.entry .static j) := ⟨rfl, hj⟩
  have hcounts := hfits.idle hb
  have howned := henv.idle _ hb.tables
  rw [hmem] at hload hcounts howned
  have hrun : ∀ j, j < pageTableLen → bootSlots (.entry (wordOf (withIdle u).regPtr0) j) := by
    change ∀ j, j < pageTableLen → bootSlots (.entry (wordOf u.regPtr0) j)
    rw [hptr]
    exact hin
  refine loadProgram_shielded ((hhome.owned hsmall).setSpace ..) .static hin hrun howned ?_ hcounts hload hin
    (.inr ⟨rfl, rfl, fun j _ _ => tables_uprot hu j⟩)
  exact (tables_cfg hu).symm ▸ hfits.limit

theorem boot_protected (henv : BootOwned env) (hfits : BootFits env) (hloads : BootLoads env) (h : kernelStart env = .ok s) :
    Protected s := by
  obtain ⟨s₁, s₂, s₃, m, idleInfo, initInfo, hb⟩ := kernelStart_boots h
  obtain ⟨i, he⟩ := boot_entered henv hb
  obtain ⟨r₀, hidle⟩ := hb.stages.idle
  obtain ⟨r₁, hinit⟩ := hb.stages.init
  obtain ⟨rfl, rfl⟩ := boot_results hloads hb hidle hinit
  have hmoves := loadProgram_moves hinit
  have howned := henv.init _ _ _ _ hb.tables hb.idle hb.init
  rw [he.after.word] at howned
  have hlimit : StackLimit s₃.mem.cfg := by
    rw [boots_cfg hb]
    exact hfits.limit
  have hload {v : Word} := loadProgram_shielded (v := v) he.after.owned he.after.leads he.after.entry (he.running ▸ he.after.entry)
    howned hlimit (hfits.init hb) hinit
  refine ⟨boot_settled henv hfits hloads h, fun p hp => ?_⟩
  have hlt := hp.1
  rw [boot_count h] at hlt
  obtain rfl | rfl : p = 0 ∨ p = 1 := by omega
  · have hin (j : Nat) (hj : j < pageTableLen) : withEntries bootSlots (.frame (pageTableLen + i)) (.entry .static j) :=
      .inl ⟨rfl, hj⟩
    have hstatic : (s.mem.space 0).region0 = .region0Pt := by
      rw [hmoves.region0, he.after.idle.1]
    rw [hstatic]
    refine hload hin (.inl ((idle_shielded henv hfits hb hidle).of_entries fun j hj => ?_))
    have henter : s₃.mem.region0Pt j = m.region0Pt j := he.slots _ (hin j hj)
    have hbuilt : m.region0Pt = s₂.mem.region0Pt := (buildRegion0_static hb.stages.build :)
    exact henter.trans (congrFun hbuilt j)
  · have hword : wordOf (s.mem.space 1).region0 = .frame (pageTableLen + i) := by
      rw [hmoves.region0, he.after.word]
    rw [hword]
    refine hload he.after.entry (.inr ⟨rfl, rfl, fun j hj hlt => ?_⟩)
    have hslot : s₃.mem.frames (pageTableLen + i) j = m.frames (pageTableLen + i) j := he.slots _ (he.after.entry j hlt)
    exact (congrArg Pte.uprot hslot).trans (buildRegion0_uprot hb.stages.build he.before.init.1 hj hlt)

theorem run_protected (henv : BootOwned env) (hfits : BootFits env) (hloads : BootLoads env) (h : Reachable Orderly env t) :
    Protected t := by
  obtain ⟨s, hs, hrun⟩ := h
  induction hrun with
  | refl => exact boot_protected henv hfits hloads hs
  | tail _ hstep ih =>
      obtain ⟨e, he, hstep⟩ := hstep
      exact step_protected ih he hstep

/-- In every orderly run, user mode never both writes and executes a page of a process, and never uses its kernel stack. -/
theorem reachable_protected (henv : BootOwned env) (hfits : BootFits env) (hloads : BootLoads env) (h : Reachable Orderly env t)
    (hp : live t p) (hj : j < pageTableLen) : ∃ e, tableEntry t p j = .ok e ∧
      (j < kernelStackBase → e.valid = true → UserPage e) ∧ (kernelStackBase ≤ j → e.valid = true ∧ e.uprot = protNone) := by
  have ht := run_protected henv hfits hloads h
  have hshield := ht.tables p hp
  refine ⟨_, readPte_ok.2 ⟨j, _, rfl, hj, ht.settled.sound.leads hp, rfl⟩, hshield.user j, fun hle => ⟨?_, hshield.kernel j hle hj⟩⟩
  exact ht.settled.stacked p hp j hle hj

def idleLoads (u : State) : Bool :=
  match loadProgram 0 .region0Pt (some smallFile) [] smallInfo (withIdle u.mem) with
  | .ok (r, _) => r = 0
  | .error _ => false

theorem small_idleLoads : passes (bootTables smallBoot) idleLoads = true := by
  decide +kernel

theorem small_bootLoads (h : kernelStart smallBoot = .ok s) : BootLoads smallBoot := by
  refine ⟨?_, small_completed h⟩
  obtain ⟨s₁, s₂, s₃, m, idleInfo, initInfo, hb⟩ := kernelStart_boots h
  have hloads : idleLoads s₁ = true := passes_ok small_idleLoads hb.tables
  refine ⟨s₁, s₂, s₃, s, m, idleInfo, initInfo, hb, .inl ⟨rfl, ?_⟩⟩
  unfold idleLoads at hloads
  split at hloads
  case h_1 r rest hload =>
    obtain rfl := of_decide_eq_true hloads
    exact ⟨rest.1, rest.2, hload⟩
  case h_2 => cases hloads

theorem reachable_protected_small : ∃ t e k, Reachable Orderly smallBoot t ∧ live t 2 ∧ tableEntry t 2 16 = .ok e ∧
    (e.valid = true → UserPage e) ∧ tableEntry t 2 508 = .ok k ∧ k.valid = true ∧ k.uprot = protNone := by
  obtain ⟨s₀, s₁, s₂, s₃, s₄, h, -⟩ := small_family
  obtain ⟨hfork, hchild, -, -⟩ := small_orderly h
  have hreach : Reachable Orderly smallBoot s₂ := ⟨s₀, h.boot, .tail (.single ⟨_, hfork, h.fork⟩) ⟨_, hchild, h.child⟩⟩
  have hlive : live s₂ 2 := by
    rw [h.child_eq]
    exact h.forked.2.2.2
  have hloads := small_bootLoads h.boot
  obtain ⟨e, he, huser, -⟩ := reachable_protected small_bootOwned small_bootFits hloads hreach hlive (j := 16) (by decide)
  obtain ⟨k, hk, -, hkernel⟩ := reachable_protected small_bootOwned small_bootFits hloads hreach hlive (j := 508) (by decide)
  obtain ⟨hvalid, huprot⟩ := hkernel (by decide)
  exact ⟨s₂, e, k, hreach, hlive, he, huser (by decide), hk, hvalid, huprot⟩

end Yalnix.Protection
