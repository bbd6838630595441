import Yalnix.FrameOwnership

namespace Yalnix.Isolation

open Loops Machine AddressSpace LoadProgram Processes Queues Kernel Accesses FreeList Calls Boot Runs Clock CurrProc Layout Allocation
  Frames FrameLeak SwitchFrames BootFrames FrameOwnership

variable {env : BootEnv} {s t : State} {info : ExceptionInfo} {m m' u : Memory} {P : Slot → Prop} {w v : Word} {ptr : TablePtr}
  {f i j k p q : Nat}

structure Isolated (q : Nat) (s t : State) : Prop where
  entries : ∀ j < pageTableLen, tableEntry t q j = tableEntry s q j
  marks : ∀ j e, tableEntry s q j = .ok e → e.valid = true → t.mem.freePages e.pfn.toNat = s.mem.freePages e.pfn.toNat
  contents : ∀ j e, tableEntry s q j = .ok e → e.valid = true → t.mem.frames e.pfn.toNat = s.mem.frames e.pfn.toNat

theorem Isolated.refl (q : Nat) (s : State) : Isolated q s s := ⟨fun _ _ => rfl, fun _ _ _ _ => rfl, fun _ _ _ _ => rfl⟩

theorem Isolated.trans {u : State} (h : Isolated q s u) (h' : Isolated q u t) : Isolated q s t := by
  have hentry {j : Nat} {e : Pte} (he : tableEntry s q j = .ok e) : tableEntry u q j = .ok e := by
    obtain ⟨j', -, hj, hlt, -, -⟩ := readPte_ok.1 he
    obtain rfl := Int.ofNat.inj hj
    exact (h.entries j hlt).trans he
  refine ⟨fun j hj => (h'.entries j hj).trans (h.entries j hj), fun j e he hv => ?_, fun j e he hv => ?_⟩
  · exact (h'.marks j e (hentry he) hv).trans (h.marks j e he hv)
  · exact (h'.contents j e (hentry he) hv).trans (h.contents j e he hv)

structure Untouched (v : Word) (m m' : Memory) : Prop where
  entries : ∀ j < pageTableLen, v.read m' j = v.read m j
  contents : ∀ j < pageTableLen, ∀ f, names m (.entry v j) = some f → m'.frames f = m.frames f

theorem Untouched.refl (v : Word) (m : Memory) : Untouched v m m := ⟨fun _ _ => rfl, fun _ _ _ _ => rfl⟩

theorem Untouched.trans (h : Untouched v m u) (h' : Untouched v u m') : Untouched v m m' := by
  refine ⟨fun j hj => (h'.entries j hj).trans (h.entries j hj), fun j hj f hn => (h'.contents j hj f ?_).trans (h.contents j hj f hn)⟩
  exact (names_congr (x := .entry v j) (h.entries j hj)).trans hn

structure OnlyTable (w : Word) (m m' : Memory) : Prop where
  frames : ∀ f, w ≠ .frame f → m'.frames f = m.frames f
  static : w ≠ .static → m'.region0Pt = m.region0Pt

/-- A step on the table that `ptr` leads to keeps it there and changes no other. -/
def Within (ptr : TablePtr) (m m' : Memory) : Prop := ∀ w, Leads m ptr w → Leads m' ptr w ∧ OnlyTable w m m'

theorem OnlyTable.refl (w : Word) (m : Memory) : OnlyTable w m m := ⟨fun _ _ => rfl, fun _ => rfl⟩

theorem OnlyTable.trans (h : OnlyTable w m u) (h' : OnlyTable w u m') : OnlyTable w m m' :=
  ⟨fun f hf => (h'.frames f hf).trans (h.frames f hf), fun hw => (h'.static hw).trans (h.static hw)⟩

theorem onlyTable_write (hframes : u.frames = m.frames) (hstatic : u.region0Pt = m.region0Pt) (k : Nat) (e : Pte) :
    OnlyTable w m (w.write u k e) := by
  refine ⟨fun f hf => (word_write_frames hf ..).trans (congrFun hframes f), fun hw => ?_⟩
  cases w with
  | static => exact absurd rfl hw
  | frame f => exact hstatic

theorem OnlyTable.untouched (h : OnlyTable w m m') (howned : Owned P m) (hw : P (.entry w k))
    (hv : ∀ j, j < pageTableLen → P (.entry v j)) (hne : v ≠ w) : Untouched v m m' := by
  refine ⟨fun j _ => ?_, fun j hj f hn => h.frames f fun he => ?_⟩
  · cases v with
    | static => exact congrFun (h.static hne.symm) j
    | frame g => exact congrFun (h.frames g hne.symm) j
  · exact howned.not_table (hv j hj) hn (fun i => (kernel_ne i v j).symm) k (he ▸ hw)

namespace Within

theorem refl (ptr : TablePtr) (m : Memory) : Within ptr m m := fun w hw => ⟨hw, .refl w m⟩

theorem trans (h : Within ptr m u) (h' : Within ptr u m') : Within ptr m m' := fun w hw =>
  ⟨(h' w (h w hw).1).1, (h w hw).2.trans (h' w (h w hw).1).2⟩

theorem of_region1 (hpages : m'.numPages = m.numPages) (hregion : m'.region1Pt = m.region1Pt)
    (h : ∀ w, Leads m ptr w → OnlyTable w m m') : Within ptr m m' :=
  fun w hw => ⟨leads_congr hw hpages fun _ _ => congrFun hregion _, h w hw⟩

theorem mapPage {uprot kprot : BitVec 3} {n : Int} (h : mapPage ptr uprot kprot n m = .ok m') : Within ptr m m' := by
  refine of_region1 (Fixed.mapPage h).numPages (mapPage_region1 h) fun w hw => ?_
  obtain ⟨j, w', -, -, hw', ⟨f, l, -, rfl⟩ | ⟨-, rfl⟩⟩ := mapPage_cases h
  · obtain rfl := leads_unique hw hw'
    apply onlyTable_write <;> rfl
  · obtain rfl := leads_unique hw hw'
    apply onlyTable_write <;> rfl

theorem freeEntry (h : freeEntry ptr k m = .ok m') : Within ptr m m' := by
  refine of_region1 (Fixed.freeEntry h).numPages (SameRegion1.freeEntry h) fun w hw => ?_
  rcases freeEntry_cases hw h with ⟨-, -, rfl⟩ | ⟨-, rfl⟩
  · apply onlyTable_write <;> rfl
  · exact .refl w m'

theorem invalidate (h : invalidate ptr k m = .ok m') : Within ptr m m' := by
  refine of_region1 (Fixed.invalidate h).numPages (SameRegion1.invalidate h) fun w hw => ?_
  obtain rfl := invalidate_cases hw h
  apply onlyTable_write <;> rfl

theorem layOut {cfg : Config} {z : Sizes} (h : layOut cfg ptr z m = .ok m') : Within ptr m m' :=
  layOut_relation (refl ptr) (fun _ _ _ => trans) (fun _ _ _ => freeEntry) (fun _ _ _ => invalidate) (fun _ _ _ _ _ => mapPage) h

theorem protectText (h : protectText ptr k m = .ok m') : Within ptr m m' := by
  refine of_region1 (Fixed.protectText h).numPages (SameRegion1.protectText h) fun w hw => ?_
  obtain ⟨e, he, h⟩ := bind_ok.1 h
  obtain ⟨j, w', -, -, hw', rfl⟩ := writePte_ok.1 h
  obtain rfl := leads_unique hw hw'
  apply onlyTable_write <;> rfl

theorem mapLoop {uprot kprot : BitVec 3} {g : Nat → Int} {start n : Nat}
    (h : upTo (fun i => Machine.mapPage ptr uprot kprot (g i)) start n m = .ok m') : Within ptr m m' :=
  upTo_relation (Within ptr) (refl ptr) (fun _ _ _ => trans) (fun _ _ _ _ _ => mapPage) h

end Within

/-- The table at `w` is loaded by the process that runs in it. -/
structure Loading (P : Slot → Prop) (ptr : TablePtr) (w : Word) (m : Memory) : Prop where
  owned : Owned P m
  leads : Leads m ptr w
  running : wordOf m.regPtr0 = w

theorem storeByte_untouched {vaddr : Nat} {x : BitVec 8} (h : Loading P ptr w m) (hw : ∀ j, j < pageTableLen → P (.entry w j))
    (hv : ∀ j, j < pageTableLen → P (.entry v j)) (hne : v ≠ w) (hs : storeByte vaddr x m = .ok m') : Untouched v m m' := by
  obtain ⟨f, hf, hs⟩ := bind_ok.1 hs
  obtain ⟨e, -, hs⟩ := bind_ok.1 hs
  obtain ⟨-, hs⟩ := ite_error_ok.1 hs
  obtain rfl := Except.ok.inj hs
  obtain ⟨e, he, hf⟩ := bind_ok.1 hf
  obtain ⟨⟨hlt, hvalid, -⟩, hf⟩ := ite_error_ok.1 hf
  obtain rfl := Except.ok.inj hf
  obtain rfl := walk_read he
  rw [h.running] at hvalid ⊢
  have hn : names m (.entry w (vaddr / pageSize)) = some (w.read m (vaddr / pageSize)).pfn.toNat := names_some.2 ⟨hvalid, rfl⟩
  have hno := h.owned.not_table (hw _ hlt) hn fun i => (kernel_ne i w _).symm
  refine ⟨fun j hj => ?_, fun j hj g hg => ?_⟩
  · exact word_read_copy (fun he => hno j (he ▸ hv j hj)) ..
  · refine put_of_ne (fun he => hne ?_) ..
    rw [he] at hg
    exact (Slot.entry.inj (h.owned.holds.apart _ _ _ (hv j hj) (hw _ hlt) hg hn)).1

theorem fill_untouched {li : LoadInfo} {read : Option (List (BitVec 8))} {args : List (List (BitVec 8))} {z : Sizes}
    {info info' : ExceptionInfo} {r : Int} (h : Loading P ptr w m) (hw : ∀ j, j < pageTableLen → P (.entry w j))
    (hv : ∀ j, j < pageTableLen → P (.entry v j)) (hne : v ≠ w) (hfill : fill ptr li read args z info m = .ok (r, info', m')) :
    Untouched v m m' := by
  have hrel := fill_relation (R := fun u u' => Loading P ptr w u → Loading P ptr w u' ∧ Untouched v u u')
    (fun u hu => ⟨hu, .refl v u⟩) (fun u₁ u₂ u₃ h₁ h₂ hu => ?_) (fun vaddr x u u' hs hu => ?_) (fun k u u' hp hu => ?_) hfill
  · exact (hrel h).2
  · obtain ⟨hu₂, ht⟩ := h₁ hu
    exact ⟨(h₂ hu₂).1, ht.trans (h₂ hu₂).2⟩
  · have hrun : ∀ j, j < pageTableLen → P (.entry (wordOf u.regPtr0) j) := hu.running.symm ▸ hw
    have hfix := Fixed.storeByte hs
    refine ⟨⟨storeByte_owned hu.owned hrun hs, ?_, hfix.regPtr0.symm ▸ hu.running⟩, storeByte_untouched hu hw hv hne hs⟩
    exact leads_congr hu.leads hfix.numPages fun _ _ => congrFun (SameRegion1.storeByte hs) _
  · obtain ⟨hlead, honly⟩ := Within.protectText hp w hu.leads
    exact ⟨⟨protectText_owned hu.owned hp, hlead, (Fixed.protectText hp).regPtr0.symm ▸ hu.running⟩,
      honly.untouched hu.owned (hw 0 (by decide)) hv hne⟩

theorem setSpace_untouched (v : Word) (m : Memory) (p : Nat) (sp : Space) : Untouched v m (setSpace m p sp) := by
  refine ⟨fun j _ => ?_, fun _ _ _ _ => rfl⟩
  cases v <;> rfl

theorem loadProgram_untouched {curr : Nat} {file : Option File} {args : List (List (BitVec 8))} {info info' : ExceptionInfo}
    {r : Int} (h : Loading P ptr w m) (hw : ∀ j, j < pageTableLen → P (.entry w j)) (hv : ∀ j, j < pageTableLen → P (.entry v j))
    (hne : v ≠ w) (henough : LoadOwned m w file args) (hload : loadProgram curr ptr file args info m = .ok (r, info', m')) :
    Untouched v m m' := by
  rcases loadProgram_ok hload with ⟨-, -, rfl⟩ | ⟨f, li, hf, hst, hvirt, ⟨-, -, -, rfl⟩ | ⟨hp, m₁, h₁, h₂⟩⟩
  · exact .refl v m'
  · exact setSpace_untouched ..
  · have hlead : Leads (setSpace m curr { m.space curr with brk := newBrk (sizes m.cfg li args) }) ptr w :=
      leads_congr h.leads rfl fun _ _ => rfl
    have havail : available (setSpace m curr { m.space curr with brk := newBrk (sizes m.cfg li args) }) w = available m w := by
      cases w <;> rfl
    have hlay := layOut_owned (h.owned.setSpace ..) hlead hw (havail ▸ henough li ⟨⟨f, hf, hst⟩, hvirt, hp⟩) h₁
    obtain ⟨hlead₁, honly⟩ := Within.layOut h₁ w hlead
    have huntouched := (setSpace_untouched v m curr _).trans (honly.untouched (h.owned.setSpace ..) (hw 0 (by decide)) hv hne)
    refine huntouched.trans ((setSpace_untouched v m₁ curr _).trans (fill_untouched ⟨hlay.setSpace .., ?_, ?_⟩ hw hv hne h₂))
    · exact leads_congr hlead₁ rfl fun _ _ => rfl
    · change wordOf m₁.regPtr0 = w
      rw [(Fixed.layOut h₁).regPtr0]
      exact h.running

/-- Brk changes no entry of `region0Pt`, or no other live process has that table. -/
def BrkSpares (s : State) (addr : Nat) : Prop :=
  (∀ q, live s q → q ≠ s.curr → (s.mem.space q).region0 ≠ .region0Pt) ∨
    if roundedBrk addr < (s.mem.space s.curr).brk ∧ memInvalidPages ≤ roundedBrk addr then
      ∀ k, (s.mem.space s.curr).brk ≤ k → k < (s.mem.space s.curr).brk + brkPages s.mem s.curr addr → (s.mem.region0Pt k).valid = false
    else (s.mem.space s.curr).brk ≤ roundedBrk addr → brkPages s.mem s.curr addr = 0

def Spares (s : State) : Event → Prop
  | .call (.brk addr) info => Safe s (.call (.brk addr) info) ∧ BrkSpares s addr
  | .call c info => Safe s (.call c info)
  | .memoryTrap info => Safe s (.memoryTrap info)
  | _ => False

theorem Spares.safe {e : Event} (h : Spares s e) : Safe s e := by
  cases e with
  | call c info =>
      cases c with
      | brk addr => exact h.1
      | _ => exact h
  | memoryTrap info => exact h
  | _ => cases h

theorem brkDown_within (h : brkDown k m = .ok m') : Within .region0Pt m m' := by
  refine .of_region1 (Fixed.brkDown h).numPages (SameRegion1.brkDown h) fun w hw => ?_
  cases hw
  obtain ⟨u, hu, h⟩ := bind_ok.1 h
  obtain ⟨e, he, h⟩ := bind_ok.1 h
  obtain ⟨f, -, -, rfl⟩ := freePage_ok.1 hu
  obtain ⟨j, w, -, -, hw, rfl⟩ := writePte_ok.1 h
  cases hw
  apply onlyTable_write <;> rfl

theorem brkFunc_within {curr addr : Nat} {r : Int} (h : brkFunc curr addr m = .ok (r, m')) : OnlyTable .static m m' := by
  unfold brkFunc at h
  dsimp only at h
  split at h
  case isTrue =>
    obtain ⟨u, hu, h⟩ := bind_ok.1 h
    obtain ⟨-, rfl⟩ := Prod.mk.inj (Except.ok.inj h)
    have hwithin := upTo_relation (Within .region0Pt) (.refl _) (fun _ _ _ => .trans) (fun _ _ _ _ _ => brkDown_within) hu
    obtain ⟨-, honly⟩ := hwithin .static .static
    exact ⟨honly.frames, honly.static⟩
  case isFalse =>
    split at h
    case isTrue =>
      obtain ⟨u, hu, h⟩ := bind_ok.1 h
      obtain ⟨-, rfl⟩ := Prod.mk.inj (Except.ok.inj h)
      obtain ⟨-, honly⟩ := Within.mapLoop hu .static .static
      exact ⟨honly.frames, honly.static⟩
    case isFalse =>
      obtain ⟨-, rfl⟩ := Prod.mk.inj (Except.ok.inj h)
      exact .refl ..

theorem brkDown_same (hv : (m.region0Pt k).valid = false) (h : brkDown k m = .ok m') :
    m'.region0Pt = m.region0Pt ∧ m'.frames = m.frames := by
  obtain ⟨u, hu, h⟩ := bind_ok.1 h
  obtain ⟨e, he, h⟩ := bind_ok.1 h
  obtain ⟨f, -, -, rfl⟩ := freePage_ok.1 hu
  obtain ⟨j, w, hj, -, hw, rfl⟩ := writePte_ok.1 h
  cases hw
  obtain ⟨j', w, hj', -, hw, rfl⟩ := readPte_ok.1 he
  cases hw
  obtain rfl := Int.ofNat.inj hj
  obtain rfl := Int.ofNat.inj hj'
  refine ⟨funext fun i => ?_, rfl⟩
  change put m.region0Pt k { m.region0Pt k with valid := false } i = m.region0Pt i
  by_cases hi : i = k
  · rw [hi, put_self, ← hv]
  · exact put_of_ne hi ..

theorem brk_untouched {addr : Nat} {r : Int} {mem : Memory} (hs : Sound s) (hspares : BrkSpares s addr)
    (hq : live s q) (hne : q ≠ s.curr) (h : brkFunc s.curr addr s.mem = .ok (r, mem)) :
    Untouched (wordOf (s.mem.space q).region0) s.mem mem := by
  rcases hspares with hother | hsame
  · have honly := brkFunc_within h
    have hstatic : wordOf (s.mem.space q).region0 ≠ .static := by
      intro he
      refine hother q hq hne ?_
      rcases hs.placed q hq.1 with ⟨ht, -⟩ | ⟨i, -, ht, -⟩
      · exact ht
      · rw [ht] at he
        cases he
    refine ⟨fun j _ => ?_, fun _ _ f _ => honly.frames f nofun⟩
    cases hw : wordOf (s.mem.space q).region0 with
    | static => exact absurd hw hstatic
    | frame g => exact congrFun (honly.frames g nofun) j
  · have hkeep : mem.region0Pt = s.mem.region0Pt ∧ mem.frames = s.mem.frames := by
      unfold brkFunc at h
      dsimp only at h
      split at h
      case isTrue hlt =>
        rw [if_pos hlt] at hsame
        obtain ⟨u, hu, h⟩ := bind_ok.1 h
        obtain ⟨-, rfl⟩ := Prod.mk.inj (Except.ok.inj h)
        have hn : brkPages s.mem s.curr addr = (toInt ((s.mem.space s.curr).brk - roundedBrk addr)).toNat := if_pos hlt.1
        rw [← hn] at hu
        exact upTo_invariant (fun _ v => v.region0Pt = s.mem.region0Pt ∧ v.frames = s.mem.frames)
          (fun k v v' hk hkn hv hv' => by
            obtain ⟨hstatic, hframes⟩ := brkDown_same (hv.1.symm ▸ hsame k hk hkn) hv'
            exact ⟨hstatic.trans hv.1, hframes.trans hv.2⟩) ⟨rfl, rfl⟩ hu
      case isFalse hge =>
        rw [if_neg hge] at hsame
        split at h
        case isTrue hle =>
          obtain ⟨u, hu, h⟩ := bind_ok.1 h
          obtain ⟨-, rfl⟩ := Prod.mk.inj (Except.ok.inj h)
          have hn : brkPages s.mem s.curr addr = (toInt (roundedBrk addr - (s.mem.space s.curr).brk)).toNat := if_neg (by omega)
          rw [← hn, hsame hle] at hu
          obtain rfl := Except.ok.inj hu
          exact ⟨rfl, rfl⟩
        case isFalse =>
          obtain ⟨-, rfl⟩ := Prod.mk.inj (Except.ok.inj h)
          exact ⟨rfl, rfl⟩
    refine ⟨fun j _ => ?_, fun _ _ f _ => congrFun hkeep.2 f⟩
    cases wordOf (s.mem.space q).region0 with
    | static => exact congrFun hkeep.1 j
    | frame g => exact congrFun (congrFun hkeep.2 g) j

theorem fork_untouched (hs : Sound s) (hm : s.mode = .user) (hsafe : ForkOwned s) (hq : live s q)
    (h : forkFunc info s = .ok t) : Untouched (wordOf (s.mem.space q).region0) s.mem t.mem := by
  obtain ⟨m, m', fam, sched, hbuild, hfork, -, -, rfl⟩ := forkFunc_ok h
  obtain ⟨i, hi, -⟩ := fork_owned hs hm hsafe hbuild hfork
  refine ⟨fun j hj => hi.slots _ (inPlay_table hq j hj) nofun, fun j hj f hn => ?_⟩
  have hslot := inPlay_table hq j hj
  refine hi.contents f (hs.owned.holds.taken _ f hslot hn) fun he => ?_
  -- the frame of the child's table is named by its page of Region 1 only
  have hn' : names m' (.entry (wordOf (s.mem.space q).region0) j) = some (pageTableLen + i) :=
    (names_congr (hi.slots _ hslot nofun)).trans (he ▸ hn)
  cases hi.owned.holds.apart _ (.kernel i) _ (.inl hslot) (.inl hi.lt) hn' hi.page

theorem exit_untouched {status : Int} (v : Word) (h : exitFunc status info s = .ok t) : Untouched v s.mem t.mem := by
  obtain ⟨woken, fam, sched, next, sched', mem, -, -, -, hmem, rfl⟩ := exitFunc_ok h
  obtain ⟨u, hu, hmem⟩ := bind_ok.1 hmem
  obtain rfl := Except.ok.inj hmem
  have hkeep : u.region0Pt = s.mem.region0Pt ∧ u.frames = s.mem.frames :=
    upTo_relation (fun m m' : Memory => m'.region0Pt = m.region0Pt ∧ m'.frames = m.frames) (fun _ => ⟨rfl, rfl⟩)
      (fun _ _ _ h h' => ⟨h'.1.trans h.1, h'.2.trans h.2⟩) (fun k m m' _ _ h => by
        obtain ⟨e, -, h⟩ := bind_ok.1 h
        split at h
        case isTrue =>
          obtain ⟨f, -, -, rfl⟩ := freePage_ok.1 h
          exact ⟨rfl, rfl⟩
        case isFalse =>
          obtain rfl := Except.ok.inj h
          exact ⟨rfl, rfl⟩) hu
  refine ⟨fun j _ => ?_, fun _ _ f _ => congrFun hkeep.2 f⟩
  cases v with
  | static => exact congrFun hkeep.1 j
  | frame g => exact congrFun (congrFun hkeep.2 g) j

theorem same_untouched (v : Word) (hstatic : m'.region0Pt = m.region0Pt) (hframes : m'.frames = m.frames) : Untouched v m m' := by
  refine ⟨fun j _ => ?_, fun _ _ f _ => congrFun hframes f⟩
  cases v with
  | static => exact congrFun hstatic j
  | frame g => exact congrFun (congrFun hframes g) j

theorem call_untouched {c : Call} {out : Option ExceptionInfo} (hs : Sound s) (hm : s.mode = .user)
    (hspares : Spares s (.call c info)) (hq : live s q) (hne : q ≠ s.curr) (h : trapKernelHandler c info s = .ok (out, t)) :
    Untouched (wordOf (s.mem.space q).region0) s.mem t.mem := by
  have hlive := hs.live_curr hm
  cases c with
  | fork =>
      obtain ⟨u, hu, h⟩ := bind_ok.1 h
      obtain ⟨-, rfl⟩ := Prod.mk.inj (Except.ok.inj h)
      exact fork_untouched hs hm hspares.safe.frames hq hu
  | exec file args =>
      obtain ⟨⟨r, info', u⟩, hu, h⟩ := bind_ok.1 h
      obtain ⟨-, rfl⟩ := Prod.mk.inj (Except.ok.inj h)
      obtain ⟨r', mem, hload, -, rfl⟩ := execFunc_ok hu
      have hrun : wordOf s.mem.regPtr0 = wordOf (s.mem.space s.curr).region0 := by
        rw [(hs.current.running (by simp [hm])).2]
      exact loadProgram_untouched ⟨hs.owned, hs.leads hlive, hrun⟩ (inPlay_table hlive) (inPlay_table hq)
        (hs.not_shared hq.1 hlive.1 hne) hspares.safe.frames hload
  | exit status =>
      obtain ⟨u, hu, h⟩ := bind_ok.1 h
      obtain ⟨-, rfl⟩ := Prod.mk.inj (Except.ok.inj h)
      exact exit_untouched _ hu
  | wait userPtr =>
      obtain ⟨⟨res, u⟩, hu, h⟩ := bind_ok.1 h
      obtain ⟨-, rfl⟩ := Prod.mk.inj (Except.ok.inj h)
      rcases waitFunc_ok hu with ⟨-, -, -, rfl⟩ | ⟨-, -, -, next, sched, -, rfl⟩ | ⟨-, pid, fam, -, -, rfl⟩
      · exact .refl ..
      · exact same_untouched _ rfl rfl
      · exact .refl ..
  | getPid =>
      obtain ⟨-, rfl⟩ := Prod.mk.inj (Except.ok.inj h)
      exact .refl ..
  | brk addr =>
      obtain ⟨⟨r, mem⟩, hmem, h⟩ := bind_ok.1 h
      obtain ⟨-, rfl⟩ := Prod.mk.inj (Except.ok.inj h)
      exact brk_untouched hs hspares.2 hq hne hmem
  | delay clockTicks =>
      obtain ⟨⟨res, u⟩, hu, h⟩ := bind_ok.1 h
      obtain ⟨-, rfl⟩ := Prod.mk.inj (Except.ok.inj h)
      rcases delayFunc_ok hu with ⟨-, rfl⟩ | ⟨-, -, queued, next, sched, -, -, -, -, rfl⟩
      · exact .refl ..
      · exact same_untouched _ rfl rfl

theorem growStack_untouched {curr vpn : Nat} (howned : Owned P m) (hw : Leads m (m.space curr).region0 w) (hin : P (.entry w k))
    (hv : ∀ j, j < pageTableLen → P (.entry v j)) (hne : v ≠ w) (h : growStack curr vpn m = .ok m') : Untouched v m m' := by
  unfold growStack at h
  dsimp only at h
  obtain ⟨u, hu, h⟩ := bind_ok.1 h
  obtain rfl := Except.ok.inj h
  exact ((Within.mapLoop hu w hw).2.untouched howned hin hv hne).trans (setSpace_untouched ..)

theorem step_untouched {e : Event} (hs : Sound s) (hspares : Spares s e) (hq : live s q) (hne : q ≠ s.curr) (h : Step s e t) :
    Untouched (wordOf (s.mem.space q).region0) s.mem t.mem := by
  obtain ⟨hen, hnext⟩ := h
  cases e with
  | call c info =>
      obtain ⟨⟨out, u⟩, hcall, rfl⟩ := map_ok.1 hnext
      exact call_untouched hs (userMode_iff.1 hen) hspares hq hne hcall
  | memoryTrap info =>
      obtain ⟨⟨out, u⟩, htrap, rfl⟩ := map_ok.1 hnext
      have hlive := hs.live_curr (userMode_iff.1 hen.1)
      rcases memoryTrap_ok htrap with ⟨hg, -, mem, hmem, rfl⟩ | ⟨-, -, hexit⟩
      · exact growStack_untouched hs.owned (hs.leads hlive) (inPlay_table hlive 0 (by decide)) (inPlay_table hq)
          (hs.not_shared hq.1 hlive.1 hne) hmem
      · exact exit_untouched _ hexit
  | _ => cases hspares

def Remains (q : Nat) (s t : State) : Prop := live t q ∧ (t.mem.space q).region0 = (s.mem.space q).region0

theorem Remains.of_moves {curr : Nat} {mem : Memory} (hq : live s q) (h : Moves curr s.mem mem) : Remains q s { s with mem } :=
  ⟨hq, (Moves.sameTable h q).1⟩

theorem exit_remains {status : Int} (hq : live s q) (hne : q ≠ s.curr) (h : exitFunc status info s = .ok t) : Remains q s t := by
  obtain ⟨woken, fam, sched, next, sched', mem, hlinks, -, -, hmem, rfl⟩ := exitFunc_ok h
  obtain ⟨u, hu, rfl⟩ := switchExit_table hmem
  refine ⟨⟨?_, (Function.update_of_ne hne ..).trans hq.2⟩, ?_⟩
  · change q < fam.count
    rw [(exitLinks_count hlinks).1]
    exact hq.1
  · change (u.space q).region0 = _
    rw [hu.space]

theorem fork_remains (hs : Sound s) (hm : s.mode = .user) (hsafe : ForkOwned s) (hq : live s q)
    (h : forkFunc info s = .ok t) : Remains q s t := by
  obtain ⟨m, m', fam, sched, hbuild, hfork, hlink, -, rfl⟩ := forkFunc_ok h
  obtain ⟨i, hi, -⟩ := fork_owned hs hm hsafe hbuild hfork
  have hcount : fam.count = s.fam.count + 1 := linkChild_count hlink
  refine ⟨⟨?_, hq.2⟩, ?_⟩
  · change q < fam.count
    rw [hcount]
    exact Nat.lt_succ_of_lt hq.1
  · change (m'.space q).region0 = _
    rw [hi.space q (Nat.ne_of_lt hq.1)]

theorem call_remains {c : Call} {out : Option ExceptionInfo} (hs : Sound s) (hm : s.mode = .user)
    (hsafe : Safe s (.call c info)) (hq : live s q) (hne : q ≠ s.curr) (h : trapKernelHandler c info s = .ok (out, t)) :
    Remains q s t := by
  cases c with
  | fork =>
      obtain ⟨u, hu, h⟩ := bind_ok.1 h
      obtain ⟨-, rfl⟩ := Prod.mk.inj (Except.ok.inj h)
      exact fork_remains hs hm hsafe.frames hq hu
  | exec file args =>
      obtain ⟨⟨r, info', u⟩, hu, h⟩ := bind_ok.1 h
      obtain ⟨-, rfl⟩ := Prod.mk.inj (Except.ok.inj h)
      obtain ⟨r', mem, hload, -, rfl⟩ := execFunc_ok hu
      exact .of_moves hq (loadProgram_moves hload)
  | exit status =>
      obtain ⟨u, hu, h⟩ := bind_ok.1 h
      obtain ⟨-, rfl⟩ := Prod.mk.inj (Except.ok.inj h)
      exact exit_remains hq hne hu
  | wait userPtr =>
      obtain ⟨⟨res, u⟩, hu, h⟩ := bind_ok.1 h
      obtain ⟨-, rfl⟩ := Prod.mk.inj (Except.ok.inj h)
      rcases waitFunc_ok hu with ⟨-, -, -, rfl⟩ | ⟨-, -, -, next, sched, -, rfl⟩ | ⟨-, pid, fam, hcol, -, rfl⟩
      · exact ⟨hq, rfl⟩
      · exact ⟨hq, rfl⟩
      · refine ⟨⟨?_, hq.2⟩, rfl⟩
        change q < fam.count
        rw [collect_count hcol]
        exact hq.1
  | getPid =>
      obtain ⟨-, rfl⟩ := Prod.mk.inj (Except.ok.inj h)
      exact ⟨hq, rfl⟩
  | brk addr =>
      obtain ⟨⟨r, mem⟩, hmem, h⟩ := bind_ok.1 h
      obtain ⟨-, rfl⟩ := Prod.mk.inj (Except.ok.inj h)
      exact .of_moves hq (brkFunc_moves hmem)
  | delay clockTicks =>
      obtain ⟨⟨res, u⟩, hu, h⟩ := bind_ok.1 h
      obtain ⟨-, rfl⟩ := Prod.mk.inj (Except.ok.inj h)
      rcases delayFunc_ok hu with ⟨-, rfl⟩ | ⟨-, -, queued, next, sched, -, -, -, -, rfl⟩
      · exact ⟨hq, rfl⟩
      · exact ⟨hq, rfl⟩

theorem step_remains {e : Event} (hs : Sound s) (hspares : Spares s e) (hq : live s q) (hne : q ≠ s.curr) (h : Step s e t) :
    Remains q s t := by
  obtain ⟨hen, hnext⟩ := h
  cases e with
  | call c info =>
      obtain ⟨⟨out, u⟩, hcall, rfl⟩ := map_ok.1 hnext
      exact call_remains hs (userMode_iff.1 hen) hspares.safe hq hne hcall
  | memoryTrap info =>
      obtain ⟨⟨out, u⟩, htrap, rfl⟩ := map_ok.1 hnext
      rcases memoryTrap_ok htrap with ⟨-, -, mem, hmem, rfl⟩ | ⟨-, -, hexit⟩
      · exact .of_moves hq (growStack_moves hmem)
      · exact exit_remains hq hne hexit
  | _ => cases hspares

theorem Untouched.isolated (h : Untouched (wordOf (s.mem.space q).region0) s.mem t.mem) (hs : Sound s) (ht : Sound t)
    (hq : live s q) (hr : Remains q s t) : Isolated q s t := by
  obtain ⟨hlive, htable⟩ := hr
  have hlead := hs.leads hq
  have hlead' := ht.leads hlive
  rw [htable] at hlead'
  have hread {j : Nat} {e : Pte} (he : tableEntry s q j = .ok e) :
      j < pageTableLen ∧ e = (wordOf (s.mem.space q).region0).read s.mem j := by
    obtain ⟨j', w, hj, hlt, hw, rfl⟩ := readPte_ok.1 he
    obtain rfl := Int.ofNat.inj hj
    obtain rfl := leads_unique hw hlead
    exact ⟨hlt, rfl⟩
  refine ⟨fun j hj => ?_, fun j e he hv => ?_, fun j e he hv => ?_⟩
  · have hbefore : tableEntry s q j = .ok ((wordOf (s.mem.space q).region0).read s.mem j) :=
      readPte_ok.2 ⟨j, _, rfl, hj, hlead, rfl⟩
    have hafter : tableEntry t q j = .ok ((wordOf (s.mem.space q).region0).read t.mem j) := by
      refine readPte_ok.2 ⟨j, _, rfl, hj, ?_, rfl⟩
      rw [htable]
      exact hlead'
    rw [hbefore, hafter, h.entries j hj]
  · obtain ⟨hj, rfl⟩ := hread he
    have hn : names s.mem (.entry (wordOf (s.mem.space q).region0) j) = some _ := names_some.2 ⟨hv, rfl⟩
    have hn' : names t.mem (.entry (wordOf (s.mem.space q).region0) j) = some _ :=
      (names_congr (x := .entry _ j) (h.entries j hj)).trans hn
    have hin := htable ▸ inPlay_table hlive j hj
    exact (ht.owned.holds.taken _ _ hin hn').2.trans (hs.owned.holds.taken _ _ (inPlay_table hq j hj) hn).2.symm
  · obtain ⟨hj, rfl⟩ := hread he
    exact h.contents j hj _ (names_some.2 ⟨hv, rfl⟩)

theorem step_isolated {e : Event} (hs : Sound s) (hspares : Spares s e) (hq : live s q) (hne : q ≠ s.curr) (h : Step s e t) :
    Isolated q s t :=
  (step_untouched hs hspares hq hne h).isolated hs (step_sound hs hspares.safe h) hq (step_remains hs hspares hq hne h)

/-- From every state of a safe run, a call or a memory trap of the running
process leaves every other live process as it was. -/
theorem reachable_isolated {e : Event} (henv : BootOwned env) (hreach : Reachable Safe env s) (hspares : Spares s e)
    (h : Step s e t) (hq : live s q) (hne : q ≠ s.curr) : Isolated q s t :=
  step_isolated (reachable_sound henv hreach) hspares hq hne h

theorem idle_live (h : kernelStart smallBoot = .ok s) : live s 0 ∧ 0 ≠ s.curr := by
  obtain ⟨m, m₁, m₂, m₃, m₄, i, i', -, rfl⟩ := kernelStart_ok h
  exact ⟨⟨Nat.zero_lt_two, rfl⟩, Nat.zero_ne_one⟩

theorem reachable_isolated_small : ∃ s t, Reachable Safe smallBoot s ∧ Step s (.call .fork smallInfo) t ∧ live s 0 ∧
    0 ≠ s.curr ∧ Isolated 0 s t := by
  obtain ⟨s₀, s₁, s₂, s₃, s₄, h, -⟩ := small_family
  obtain ⟨hidle, hne⟩ := idle_live h.boot
  have hreach : Reachable Safe smallBoot s₀ := ⟨s₀, h.boot, .refl⟩
  have hfork : Spares s₀ (.call .fork smallInfo) := (small_safe h).1
  exact ⟨s₀, s₁, hreach, h.fork, hidle, hne, reachable_isolated small_bootOwned hreach hfork h.fork hidle hne⟩

/-- Init moves its break up, and idle gets the page. -/
theorem idle_gets_page : ∃ s t addr, Reachable (fun _ _ => True) smallBoot s ∧ Step s (.call (.brk addr) smallInfo) t ∧
    live s 0 ∧ 0 ≠ s.curr ∧ ¬ Isolated 0 s t := by
  obtain ⟨s₀, s₁, s₂, s₃, s₄, h, hf⟩ := small_family
  obtain ⟨u, hu, ⟨hbefore, hafter⟩, -⟩ := hf.brkUp
  obtain ⟨hidle, hne⟩ := idle_live h.boot
  obtain ⟨_, _, _, _, _, _, hboots⟩ := kernelStart_boots h.boot
  obtain ⟨i, hb⟩ := boot_owned small_bootOwned hboots
  have hremains : (u.mem.space 0).region0 = (s₀.mem.space 0).region0 := by
    obtain ⟨⟨out, v⟩, hcall, rfl⟩ := map_ok.1 hu.2
    obtain ⟨⟨r, mem⟩, hmem, hcall⟩ := bind_ok.1 hcall
    obtain ⟨-, rfl⟩ := Prod.mk.inj (Except.ok.inj hcall)
    exact (Moves.sameTable (brkFunc_moves hmem) 0).1
  refine ⟨s₀, u, _, ⟨s₀, h.boot, .refl⟩, hu, hidle, hne, fun hi => ?_⟩
  have hsame := hi.entries 17 (by decide)
  have hread (s : State) (hs : (s.mem.space 0).region0 = .region0Pt) : tableEntry s 0 17 = .ok (s.mem.region0Pt 17) := by
    unfold tableEntry
    rw [hs]
    rfl
  rw [hread u (hremains.trans hb.idle.1), hread s₀ hb.idle.1] at hsame
  rw [Except.ok.inj hsame, hbefore] at hafter
  cases hafter

end Yalnix.Isolation
