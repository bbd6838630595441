import Yalnix.Protection
import Yalnix.Arguments
import Yalnix.PhysicalCheck
import Yalnix.PrivateMemory

namespace Yalnix.UserMemory

open Loops Machine AddressSpace LoadProgram Processes Queues Kernel Accesses FreeList Calls Boot Runs Clock CurrProc Layout Allocation
  StackGrowth Frames FrameLeak SwitchFrames BootFrames FrameOwnership Isolation ValidPages SpaceLayout LayoutRuns Privacy ForkContents
  Protection Arguments PhysicalCheck Births
open PrivateMemory (Act Cell Memories lastStore)

variable {env : BootEnv} {s t u : State} {info info' : ExceptionInfo} {m m' mem : Memory} {P : Slot → Prop} {w : Word} {ptr : TablePtr}
  {file : Option File} {args : List (List (BitVec 8))} {e : Event} {x : BitVec 8} {k : Cell (BitVec 8)} {r : Int} {a i j n p q vaddr : Nat}
  {l : List (Act Nat Nat (BitVec 8))}

/-- A load in user mode needs the permission of the entry. -/
def userLoad (vaddr : Nat) (m : Memory) : Except Fault (BitVec 8) := do
  let f ← userFrame m (vaddr / pageSize)
  let e ← walk m (vaddr / pageSize)
  if e.uprot &&& protRead ≠ 0 then .ok (Pte.byte (m.frames f (vaddr % pageSize / 4)) (vaddr % 4)) else .error .unmapped

def table (s : State) (p : Nat) : Word := wordOf (s.mem.space p).region0

/-- What a live process finds at an address below its kernel stack. -/
def view (s : State) : Memories Nat Nat (BitVec 8) := fun p vaddr =>
  let e := (table s p).read s.mem (vaddr / pageSize)
  if live s p ∧ vaddr / pageSize < kernelStackBase ∧ e.valid = true then
    some ⟨e.uprot &&& protWrite ≠ 0, userByte s.mem (table s p) vaddr⟩
  else none

def refused (file : Option File) (args : List (List (BitVec 8))) (info : ExceptionInfo) (s : State) : Bool :=
  match execFunc file args info s with
  | .ok (r, _) => r = ERROR
  | .error _ => false

def act (s : State) : Event → Act Nat Nat (BitVec 8)
  | .call .fork _ => .copy s.curr s.fam.count
  | .call (.exec file args) info => if refused file args info s then .rest else .renew s.curr s.curr
  | .call (.exit _) _ | .fatalTrap _ => .leave s.curr
  | .call (.brk _) _ => .grow s.curr
  | .call (.wait _) _ | .call .getPid _ | .call (.delay _) _ | .clock _ | .kernelBrk _ => .rest
  | .memoryTrap info => if growsStack s info then .grow s.curr else .leave s.curr
  | .resume _ =>
      match s.mode with
      | .resuming c =>
          match c.kont with
          | .boot p _ => .renew p s.curr
          | _ => .rest
      | _ => .rest
  | .userStore vaddr x => .store s.curr vaddr x

theorem view_none (h : ¬ live s p) : view s p = fun _ => none := by
  funext a
  exact if_neg fun hc => h hc.1

theorem view_some (hp : live s p) (hlt : a / pageSize < kernelStackBase)
    (hv : ((table s p).read s.mem (a / pageSize)).valid = true) :
    view s p a = some ⟨((table s p).read s.mem (a / pageSize)).uprot &&& protWrite ≠ 0, userByte s.mem (table s p) a⟩ :=
  if_pos ⟨hp, hlt, hv⟩

theorem view_ok (h : view s p a = some k) : live s p ∧ a / pageSize < kernelStackBase ∧
    ((table s p).read s.mem (a / pageSize)).valid = true := by
  unfold view at h
  dsimp only at h
  split at h
  case isTrue hc => exact hc
  case isFalse => cases h

theorem userByte_same (hread : w.read m' (a / pageSize) = w.read m (a / pageSize))
    (hframe : m'.frames (w.read m (a / pageSize)).pfn.toNat = m.frames (w.read m (a / pageSize)).pfn.toNat) :
    userByte m' w a = userByte m w a := by
  unfold userByte
  rw [hread, hframe]

theorem view_congr (hlive : live t p ↔ live s p) (htable : table t p = table s p) (h : Untouched (table s p) s.mem t.mem) :
    view t p = view s p := by
  funext a
  by_cases hc : live s p ∧ a / pageSize < kernelStackBase ∧ ((table s p).read s.mem (a / pageSize)).valid = true
  · obtain ⟨hp, hlt, hv⟩ := hc
    have hread := h.entries _ (Nat.lt_trans hlt (by decide))
    have hframe := h.contents _ (Nat.lt_trans hlt (by decide)) _ (names_some.2 ⟨hv, rfl⟩)
    rw [view_some hp hlt hv, view_some (hlive.2 hp) hlt (by rw [htable, hread]; exact hv), htable, hread,
      userByte_same hread hframe]
  · refine Eq.trans (if_neg fun hc' => hc ⟨hlive.1 hc'.1, hc'.2.1, ?_⟩) (if_neg hc).symm
    have hv := hc'.2.2
    rwa [htable, h.entries _ (Nat.lt_trans hc'.2.1 (by decide))] at hv

theorem view_same (hlive : ∀ p, live t p ↔ live s p) (hspace : t.mem.space = s.mem.space) (hstatic : t.mem.region0Pt = s.mem.region0Pt)
    (hframes : t.mem.frames = s.mem.frames) : view t = view s := by
  funext p
  refine view_congr (hlive p) ?_ (same_untouched _ hstatic hframes)
  unfold table
  rw [hspace]

theorem view_bystander (h : Protected s) (he : Orderly s e) (hstep : Step s e t) (hno : ¬ Acts s e q)
    (hnew : q ≠ s.fam.count ∨ ∀ info, e ≠ .call .fork info) : view t q = view s q := by
  have hs := h.settled.sound
  by_cases hq : live s q
  · obtain ⟨huntouched, hlive, htable⟩ := step_bystander hs (Orderly.considerate hs he hstep.1) hq hno hstep
    exact view_congr (iff_of_true hlive hq) (congrArg wordOf htable) huntouched
  · have hq' : ¬ live t q := fun hlive => by
      rcases step_live hstep hlive with hold | ⟨heq, info, rfl⟩
      · exact hq hold
      · exact hnew.elim (fun hne => hne heq) fun hnf => hnf info rfl
    rw [view_none hq', view_none hq]

theorem view_grown (hlive : live t p) (htable : table t p = table s p)
    (hpages : ∀ j < kernelStackBase, ((table s p).read s.mem j).valid = true → (table s p).read t.mem j = (table s p).read s.mem j ∧
      t.mem.frames ((table s p).read s.mem j).pfn.toNat = s.mem.frames ((table s p).read s.mem j).pfn.toNat)
    (h : view s p a = some k) : view t p a = some k := by
  obtain ⟨hp, hlt, hv⟩ := view_ok h
  obtain ⟨hread, hframe⟩ := hpages _ hlt hv
  rw [view_some hp hlt hv] at h
  rw [view_some hlive hlt (by rw [htable, hread]; exact hv), htable, hread, userByte_same hread hframe]
  exact h

theorem mapLoop_kept {uprot kprot : BitVec 3} {start : Nat} (hsmall : m.numPages < 2 ^ 20) (hw : Leads m ptr w)
    (h : upTo (fun a => mapPage ptr uprot kprot a) start n m = .ok m') (hj : j < start ∨ start + n ≤ j) :
    w.read m' j = w.read m j := by
  obtain ⟨-, js, hjs, -, hmap, -⟩ := Layout.mapLoop (g := fun a => a) (fun a b he => Int.ofNat.inj he) hsmall hw h
  refine hmap.others j fun hmem => ?_
  obtain ⟨a, ha, hlt, he⟩ := (hjs j).1 hmem
  have := Int.ofNat.inj he
  omega

theorem own_frame (howned : Owned P m) (hin : ∀ j, j < pageTableLen → P (.entry w j)) (honly : OnlyTable w m m') (hj : j < pageTableLen)
    (hv : (w.read m j).valid = true) : m'.frames (w.read m j).pfn.toNat = m.frames (w.read m j).pfn.toNat := by
  refine honly.frames _ fun he => ?_
  have hn : names m (.entry w j) = some (w.read m j).pfn.toNat := names_some.2 ⟨hv, rfl⟩
  exact howned.not_table (hin j hj) hn (fun i => (kernel_ne i w j).symm) 0 (he ▸ hin 0 (by decide))

theorem grow_view (h : Protected s) (hlive : live s s.curr) (hg : growsStack s info = true)
    (hgrow : growStack s.curr (toUlong (downToPage info.addr)) s.mem = .ok mem) (hread : view s s.curr a = some k) :
    view { s with mem } s.curr a = some k := by
  have hs := h.settled.sound
  have hbrk := (growsStack_iff.1 hg).2.2
  have htable := congrArg wordOf ((growStack_moves hgrow).region0 s.curr)
  obtain ⟨u, hu, rfl⟩ := growStack_loop h hlive hg hgrow
  refine view_grown hlive htable (fun j hj hv => ?_) hread
  have hlt : j < pageTableLen := Nat.lt_trans hj (by decide)
  have hvalid := ((h.settled.shaped s.curr hlive trivial).pages.valid j hlt).1 hv
  have hframe := own_frame hs.owned (inPlay_table hlive) (Within.mapLoop hu _ (hs.leads hlive)).2 hlt hv
  refine ⟨(word_read_space ..).trans (mapLoop_kept hs.owned.small (hs.leads hlive) hu ?_), hframe⟩
  -- a valid page is of the heap, below the address, or of the stack
  omega

theorem brk_view {addr : Nat} (h : Protected s) (hlive : live s s.curr) (hfits : BrkFits s addr)
    (hbrk : brkFunc s.curr addr s.mem = .ok (r, mem)) (hread : view s s.curr a = some k) : view { s with mem } s.curr a = some k := by
  have hs := h.settled.sound
  have htable := congrArg wordOf ((brkFunc_moves hbrk).region0 s.curr)
  refine view_grown hlive htable (fun j hj hv => ?_) hread
  rcases hfits with heq | ⟨hlt, hinv⟩ | ⟨hstatic, hle, hsp⟩
  · obtain ⟨u, hu, rfl⟩ := brk_up (Nat.le_of_eq heq.symm) hbrk
    rw [heq, Int.sub_self] at hu
    obtain rfl := Except.ok.inj hu
    exact ⟨word_read_space .., rfl⟩
  · obtain rfl := brk_refused hlt hinv hbrk
    exact ⟨rfl, rfl⟩
  · obtain ⟨u, hu, rfl⟩ := brk_loop h hlive hle hsp hbrk
    have hlt : j < pageTableLen := Nat.lt_trans hj (by decide)
    have hvalid := ((h.settled.shaped s.curr hlive trivial).pages.valid j hlt).1 hv
    have hword : table s s.curr = .static := congrArg wordOf hstatic
    have hframe := own_frame hs.owned (inPlay_table hlive) (hword ▸ (Within.mapLoop hu .static .static).2) hlt hv
    refine ⟨?_, hframe⟩
    rw [hword]
    refine (word_read_space ..).trans (mapLoop_kept hs.owned.small .static hu ?_)
    omega

theorem fork_view (h : Protected s) (hm : s.mode = .user) (hsafe : ForkOwned s) (hfork : forkFunc info s = .ok t) :
    view t s.fam.count = view s s.curr := by
  have hs := h.settled.sound
  have hparent := hs.live_curr hm
  have hchild : live t s.fam.count := by
    obtain ⟨m, m', fam, sched, -, -, hlink, -, rfl⟩ := forkFunc_ok hfork
    have hcount : fam.count = s.fam.count + 1 := linkChild_count hlink
    exact ⟨hcount ▸ Nat.lt_succ_self _, hs.current.unborn _ (Nat.le_refl _)⟩
  obtain ⟨m, m', fam, sched, hbuild, hswitch, -, -, rfl⟩ := forkFunc_ok hfork
  obtain ⟨i, hi, hcopied, hpages⟩ := fork_pages hs hm hsafe hbuild hswitch
  have hword : wordOf (m'.space s.fam.count).region0 = .frame (pageTableLen + i) := by
    rw [hi.child.1]
    rfl
  funext a
  by_cases hc : a / pageSize < kernelStackBase ∧ ((table s s.curr).read s.mem (a / pageSize)).valid = true
  · obtain ⟨hlt, hv⟩ := hc
    have hlt' : a / pageSize < pageTableLen := Nat.lt_trans hlt (by decide)
    obtain ⟨huprot, -, hframe⟩ := hpages _ hlt' hv
    have hv' : (Word.read m' (a / pageSize) (.frame (pageTableLen + i))).valid = true := by
      rw [hcopied.copied _ hlt']
      exact hv
    have hbyte : userByte m' (.frame (pageTableLen + i)) a = userByte s.mem (table s s.curr) a := by
      unfold userByte
      rw [hframe]
      rfl
    refine (view_some hchild hlt (hword.symm ▸ hv' :)).trans (Eq.trans ?_ (view_some hparent hlt hv).symm)
    change some (Cell.mk (decide ((Word.read m' _ (wordOf (m'.space s.fam.count).region0)).uprot &&& protWrite ≠ 0))
      (userByte m' (wordOf (m'.space s.fam.count).region0) a)) = _
    rw [hword, huprot, hbyte]
    rfl
  · refine Eq.trans (if_neg fun hc' => hc ⟨hc'.2.1, ?_⟩) (if_neg fun hc' => hc hc'.2).symm
    have hv : (Word.read m' (a / pageSize) (wordOf (m'.space s.fam.count).region0)).valid = true := hc'.2.2
    rw [hword, hcopied.copied _ (Nat.lt_trans hc'.2.1 (by decide))] at hv
    exact hv

theorem store_page (h : Protected s) (hm : s.mode = .user) (hstore : userStore vaddr x s.mem = .ok mem) :
    vaddr / pageSize < kernelStackBase ∧ ((table s s.curr).read s.mem (vaddr / pageSize)).valid = true ∧
      ((table s s.curr).read s.mem (vaddr / pageSize)).uprot &&& protWrite ≠ 0 ∧
      mem = writeWord s.mem ((table s s.curr).read s.mem (vaddr / pageSize)).pfn.toNat (vaddr % pageSize / 4)
        ((s.mem.frames ((table s s.curr).read s.mem (vaddr / pageSize)).pfn.toNat (vaddr % pageSize / 4)).setByte (vaddr % 4) x) := by
  have hs := h.settled.sound
  have hreg : wordOf s.mem.regPtr0 = table s s.curr := by rw [(hs.current.running (by simp [hm])).2]; rfl
  obtain ⟨f, e, hframe, hwalk, hw, rfl⟩ := userStore_ok hstore
  obtain ⟨e', he', hframe⟩ := bind_ok.1 hframe
  obtain ⟨⟨hlt, hvalid, -⟩, hframe⟩ := ite_error_ok.1 hframe
  obtain rfl := Except.ok.inj hframe
  obtain rfl := Except.ok.inj (he'.symm.trans hwalk)
  obtain rfl := walk_read hwalk
  rw [hreg] at hw hvalid ⊢
  refine ⟨?_, hvalid, hw, rfl⟩
  by_contra hge
  have hkernel := (h.tables s.curr (hs.live_curr hm)).kernel _ (Nat.not_lt.1 hge) hlt
  unfold table at hw
  rw [hkernel] at hw
  exact hw (by decide)

/-- A store in user mode changes the byte at its address, and no other of the process. -/
theorem store_view (h : Protected s) (hm : s.mode = .user) (hstore : userStore vaddr x s.mem = .ok mem) :
    view { s with mem } s.curr = Function.update (view s s.curr) vaddr (some ⟨true, x⟩) := by
  have hs := h.settled.sound
  have hlive := hs.live_curr hm
  obtain ⟨hlt, hvalid, hwrite, hmem⟩ := store_page h hm hstore
  have hin := inPlay_table hlive
  have hno {j : Nat} (hj : j < pageTableLen) (hv : ((table s s.curr).read s.mem j).valid = true) (k : Nat) :=
    hs.owned.not_table (hin j hj) (names_some.2 ⟨hv, rfl⟩) (fun i => (kernel_ne i (table s s.curr) j).symm) k
  have hread {j : Nat} (hj : j < pageTableLen) : (table s s.curr).read mem j = (table s s.curr).read s.mem j := by
    rw [hmem]
    exact word_read_copy (fun he => hno (Nat.lt_trans hlt (by decide)) hvalid j (he ▸ hin j hj)) ..
  have hspace : mem.space = s.mem.space := by rw [hmem]; rfl
  have htable : table { s with mem } s.curr = table s s.curr := by
    unfold table
    rw [hspace]
  funext a
  by_cases hc : a / pageSize < kernelStackBase ∧ ((table s s.curr).read s.mem (a / pageSize)).valid = true
  · obtain ⟨hla, hva⟩ := hc
    have hla' : a / pageSize < pageTableLen := Nat.lt_trans hla (by decide)
    have hbyte : userByte mem (table s s.curr) a = if a = vaddr then x else userByte s.mem (table s s.curr) a := by
      refine userByte_store rfl hmem (hread hla') fun he => ?_
      have hn : names s.mem (.entry (table s s.curr) (a / pageSize)) =
          some ((table s s.curr).read s.mem (vaddr / pageSize)).pfn.toNat := names_some.2 ⟨hva, he⟩
      have hslot := hs.owned.holds.apart _ _ _ (hin _ hla') (hin _ (Nat.lt_trans hlt (by decide))) hn (names_some.2 ⟨hvalid, rfl⟩)
      exact (Slot.entry.inj hslot).2.symm
    have hcell : view { s with mem } s.curr a =
        some ⟨((table s s.curr).read s.mem (a / pageSize)).uprot &&& protWrite ≠ 0, userByte mem (table s s.curr) a⟩ := by
      refine (view_some (s := { s with mem }) hlive hla ?_).trans ?_
      · rw [htable]
        exact (congrArg Pte.valid (hread hla')).trans hva
      · rw [htable]
        change some (Cell.mk (decide (((table s s.curr).read mem _).uprot &&& protWrite ≠ 0)) _) = _
        rw [hread hla']
    rw [hcell, hbyte]
    by_cases hav : a = vaddr
    · rw [hav, if_pos rfl, Function.update_self, decide_eq_true hwrite]
    · rw [if_neg hav, Function.update_of_ne hav, view_some hlive hla hva]
  · have hav : a ≠ vaddr := fun he => hc (he ▸ ⟨hlt, hvalid⟩)
    rw [Function.update_of_ne hav]
    refine Eq.trans (if_neg fun hc' => hc ⟨hc'.2.1, ?_⟩) (if_neg fun hc' => hc hc'.2).symm
    have hv := hc'.2.2
    rw [htable] at hv
    exact (congrArg Pte.valid (hread (Nat.lt_trans hc'.2.1 (by decide)))).symm.trans hv

theorem refused_view (h : execFunc file args info s = .ok (ERROR, info', t)) : view t = view s := by
  obtain ⟨r, mem, hload, hr, rfl⟩ := execFunc_ok h
  have hmem : mem.region0Pt = s.mem.region0Pt ∧ mem.frames = s.mem.frames := by
    rcases loadProgram_ok hload with ⟨-, -, rfl⟩ | ⟨f, li, -, -, -, ⟨-, -, -, rfl⟩ | ⟨-, m₁, -, hfill⟩⟩
    · exact ⟨rfl, rfl⟩
    · exact ⟨rfl, rfl⟩
    · rcases fill_result hfill with rfl | rfl
      all_goals cases hr
  funext p
  exact view_congr Iff.rfl (congrArg wordOf ((loadProgram_moves hload).region0 p)) (same_untouched _ hmem.1 hmem.2)

theorem leave_view (hleft : ¬ live t s.curr) (hothers : ∀ q, q ≠ s.curr → view t q = view s q) :
    PrivateMemory.Step (view s) (.leave s.curr) (view t) := by
  funext q
  by_cases hq : q = s.curr
  · rw [hq, Function.update_self, view_none hleft]
  · rw [Function.update_of_ne hq, hothers q hq]

theorem call_refines {c : Call} (h : Protected s) (he : Orderly s (.call c info)) (hstep : Step s (.call c info) t) :
    PrivateMemory.Step (view s) (act s (.call c info)) (view t) := by
  have hs := h.settled.sound
  have hm := userMode_iff.1 hstep.1
  have hlive := hs.live_curr hm
  have hothers {q : Nat} (hq : q ≠ s.curr) (hnew : q ≠ s.fam.count ∨ ∀ info', Event.call c info ≠ .call .fork info') :
      view t q = view s q := view_bystander h he hstep hq hnew
  obtain ⟨⟨out, u⟩, hcall, rfl⟩ := map_ok.1 hstep.2
  cases c with
  | fork =>
      obtain ⟨v, hv, hcall⟩ := bind_ok.1 hcall
      obtain ⟨-, rfl⟩ := Prod.mk.inj (Except.ok.inj hcall)
      have hunborn : ¬ live s s.fam.count := fun hl => Nat.lt_irrefl _ hl.1
      refine ⟨fun a => by rw [view_none hunborn], funext fun q => ?_⟩
      by_cases hnew : q = s.fam.count
      · rw [hnew, Function.update_self]
        exact fork_view h hm he.1.frames hv
      · rw [Function.update_of_ne hnew]
        by_cases hq : q = s.curr
        · subst hq
          obtain ⟨hlive', htable⟩ := fork_remains hs hm he.1.frames hlive hv
          exact view_congr (iff_of_true hlive' hlive) (congrArg wordOf htable) (fork_untouched hs hm he.1.frames hlive hv)
        · exact hothers hq (.inl hnew)
  | exec file args =>
      obtain ⟨⟨r, info', v⟩, hv, hcall⟩ := bind_ok.1 hcall
      obtain ⟨-, rfl⟩ := Prod.mk.inj (Except.ok.inj hcall)
      have href : refused file args info s = decide (r = ERROR) := by
        unfold refused
        rw [hv]
      change PrivateMemory.Step (view s) (if refused file args info s then .rest else .renew s.curr s.curr) (view v)
      rw [href]
      by_cases hr : r = ERROR
      · rw [if_pos (decide_eq_true hr)]
        exact refused_view (hr ▸ hv)
      · rw [if_neg fun hd => hr (of_decide_eq_true hd)]
        exact fun q hq _ => hothers hq (.inr nofun)
  | exit status =>
      obtain ⟨v, hv, hcall⟩ := bind_ok.1 hcall
      obtain ⟨-, rfl⟩ := Prod.mk.inj (Except.ok.inj hcall)
      exact leave_view (fun hl => exit_live hv hl rfl) fun q hq => hothers hq (.inr nofun)
  | wait ptr =>
      obtain ⟨⟨res, v⟩, hv, hcall⟩ := bind_ok.1 hcall
      obtain ⟨-, rfl⟩ := Prod.mk.inj (Except.ok.inj hcall)
      rcases waitFunc_ok hv with ⟨-, -, -, rfl⟩ | ⟨-, -, -, next, sched, -, rfl⟩ | ⟨-, pid, fam, hcol, -, rfl⟩
      · exact view_same (fun _ => Iff.rfl) rfl rfl rfl
      · exact view_same (fun _ => Iff.rfl) rfl rfl rfl
      · refine view_same (fun p => and_congr_left' ?_) rfl rfl rfl
        change p < fam.count ↔ p < s.fam.count
        rw [collect_count hcol]
  | getPid =>
      obtain ⟨-, rfl⟩ := Prod.mk.inj (Except.ok.inj hcall)
      exact view_same (fun _ => Iff.rfl) rfl rfl rfl
  | brk addr =>
      obtain ⟨⟨r, mem⟩, hmem, hcall⟩ := bind_ok.1 hcall
      obtain ⟨-, rfl⟩ := Prod.mk.inj (Except.ok.inj hcall)
      exact ⟨fun q hq => hothers hq (.inr nofun), fun a k => brk_view h hlive he.2 hmem⟩
  | delay clockTicks =>
      obtain ⟨⟨res, v⟩, hv, hcall⟩ := bind_ok.1 hcall
      obtain ⟨-, rfl⟩ := Prod.mk.inj (Except.ok.inj hcall)
      rcases delayFunc_ok hv with ⟨-, rfl⟩ | ⟨-, -, queued, next, sched, -, -, -, -, rfl⟩
      all_goals exact view_same (fun _ => Iff.rfl) rfl rfl rfl

theorem resume_refines (h : Protected s) (he : Orderly s (.resume file)) (hstep : Step s (.resume file) t) :
    PrivateMemory.Step (view s) (act s (.resume file)) (view t) := by
  have hothers {q : Nat} (hno : ¬ Acts s (.resume file) q) : view t q = view s q := view_bystander h he hstep hno (.inr nofun)
  dsimp only [act]
  split
  case h_1 c hm =>
    split
    case h_1 p cmdArgs hk =>
      refine fun q hqp hqc => hothers ?_
      rintro ⟨c', p', args, hm', hk', hq⟩
      obtain rfl := Mode.resuming.inj (hm.symm.trans hm')
      obtain ⟨rfl, -⟩ := Kont.boot.inj (hk.symm.trans hk')
      exact hq.elim hqp hqc
    case h_2 hk =>
      refine funext fun q => hothers ?_
      rintro ⟨c', p', args, hm', hk', -⟩
      obtain rfl := Mode.resuming.inj (hm.symm.trans hm')
      exact hk p' args hk'
  case h_2 hm =>
    refine funext fun q => hothers ?_
    rintro ⟨c', p', args, hm', -⟩
    exact hm c' hm'

/-- The machine gives each process a memory of its own: a step is what its act makes of the memories. -/
theorem step_refines (h : Protected s) (he : Orderly s e) (hstep : Step s e t) :
    PrivateMemory.Step (view s) (act s e) (view t) := by
  cases e with
  | call c info => exact call_refines h he hstep
  | memoryTrap info =>
      have hothers {q : Nat} (hq : q ≠ s.curr) : view t q = view s q := view_bystander h he hstep hq (.inr nofun)
      have hlive := h.settled.sound.live_curr (userMode_iff.1 hstep.1.1)
      obtain ⟨⟨out, u⟩, htrap, rfl⟩ := map_ok.1 hstep.2
      dsimp only [act]
      rcases memoryTrap_ok htrap with ⟨hg, -, mem, hmem, rfl⟩ | ⟨hg, -, hexit⟩
      · rw [if_pos hg]
        exact ⟨fun q => hothers, fun a k => grow_view h hlive hg hmem⟩
      · rw [if_neg (by rw [hg]; exact Bool.false_ne_true)]
        exact leave_view (fun hl => exit_live hexit hl rfl) fun q => hothers
  | fatalTrap info =>
      have hothers {q : Nat} (hq : q ≠ s.curr) : view t q = view s q := view_bystander h he hstep hq (.inr nofun)
      obtain ⟨⟨out, u⟩, htrap, rfl⟩ := map_ok.1 hstep.2
      obtain ⟨v, hv, htrap⟩ := bind_ok.1 htrap
      obtain ⟨-, rfl⟩ := Prod.mk.inj (Except.ok.inj htrap)
      exact leave_view (fun hl => exit_live hv hl rfl) fun q => hothers
  | clock info | kernelBrk addr => exact funext fun q => view_bystander h he hstep (fun h => h) (.inr nofun)
  | resume file => exact resume_refines h he hstep
  | userStore vaddr x =>
      have hothers {q : Nat} (hq : q ≠ s.curr) : view t q = view s q := view_bystander h he hstep hq (.inr nofun)
      have hm := userMode_iff.1 hstep.1
      obtain ⟨mem, hmem, hstore⟩ := bind_ok.1 hstep.2
      obtain rfl := Except.ok.inj hstore
      obtain ⟨hlt, hvalid, hwrite, -⟩ := store_page h hm hmem
      refine ⟨⟨_, (view_some (h.settled.sound.live_curr hm) hlt hvalid).trans (by rw [decide_eq_true hwrite])⟩, funext fun q => ?_⟩
      by_cases hq : q = s.curr
      · rw [hq, Function.update_self, store_view h hm hmem]
      · rw [Function.update_of_ne hq, hothers hq]

theorem walk_table (h : Protected s) (hm : s.mode = .user) (page : Nat) :
    walk s.mem page = .ok ((table s s.curr).read s.mem page) := by
  have hs := h.settled.sound
  have hlive := hs.live_curr hm
  unfold walk table
  rw [(hs.current.running (by simp [hm])).2]
  rcases hs.placed s.curr hlive.1 with ⟨ht, -⟩ | ⟨i, hi, ht, -⟩
  · rw [ht]
    rfl
  · have hframe := (hs.owned.holds.taken (.kernel i) _ hi (hs.held _ i hlive ht)).1
    rw [ht]
    exact if_pos hframe

theorem userFrame_table (h : Protected s) (hm : s.mode = .user) {page : Nat} (hlt : page < pageTableLen)
    (hv : ((table s s.curr).read s.mem page).valid = true) :
    userFrame s.mem page = .ok ((table s s.curr).read s.mem page).pfn.toNat := by
  have hs := h.settled.sound
  have hused := hs.owned.holds.taken (.entry (table s s.curr) page) _ (inPlay_table (hs.live_curr hm) page hlt)
    (names_some.2 ⟨hv, rfl⟩)
  unfold userFrame
  rw [walk_table h hm]
  exact if_pos ⟨hlt, hv, hused.1⟩

theorem userLoad_view (h : Protected s) (hm : s.mode = .user) :
    userLoad vaddr s.mem = .ok x ↔ ∃ w, view s s.curr vaddr = some ⟨w, x⟩ := by
  have hlive := h.settled.sound.live_curr hm
  have hshield := h.tables s.curr hlive
  unfold userLoad
  constructor
  · intro hload
    obtain ⟨f, hf, hload⟩ := bind_ok.1 hload
    obtain ⟨e, he, hload⟩ := bind_ok.1 hload
    obtain ⟨hread, hbyte⟩ := ite_error_ok.1 hload
    obtain rfl := Except.ok.inj ((walk_table h hm _).symm.trans he)
    have hlt : vaddr / pageSize < pageTableLen := by
      obtain ⟨e', -, hf⟩ := bind_ok.1 hf
      exact (ite_error_ok.1 hf).1.1
    have hv : ((table s s.curr).read s.mem (vaddr / pageSize)).valid = true := by
      obtain ⟨e', he', hf⟩ := bind_ok.1 hf
      obtain rfl := Except.ok.inj ((walk_table h hm _).symm.trans he')
      exact (ite_error_ok.1 hf).1.2.1
    have hlow : vaddr / pageSize < kernelStackBase := by
      by_contra hge
      have hkernel : ((table s s.curr).read s.mem (vaddr / pageSize)).uprot = protNone := hshield.kernel _ (Nat.not_lt.1 hge) hlt
      rw [hkernel] at hread
      exact hread (by decide)
    obtain rfl := Except.ok.inj ((userFrame_table h hm hlt hv).symm.trans hf)
    exact ⟨_, (view_some hlive hlow hv).trans (congrArg (fun b => some (Cell.mk _ b)) (Except.ok.inj hbyte))⟩
  · rintro ⟨w, hw⟩
    obtain ⟨-, hlow, hv⟩ := view_ok hw
    rw [view_some hlive hlow hv] at hw
    have hread : ((table s s.curr).read s.mem (vaddr / pageSize)).uprot &&& protRead ≠ 0 := by
      have huser : UserPage ((table s s.curr).read s.mem (vaddr / pageSize)) := hshield.user _ hlow hv
      rcases huser with hu | hu
      all_goals
        rw [hu]
        decide
    refine bind_ok.2 ⟨_, userFrame_table h hm (Nat.lt_trans hlow (by decide)) hv, bind_ok.2 ⟨_, walk_table h hm _, ?_⟩⟩
    rw [if_pos hread]
    exact congrArg Except.ok (Cell.mk.inj (Option.some.inj hw)).2

theorem userStore_view (h : Protected s) (hm : s.mode = .user) :
    (∃ mem, userStore vaddr x s.mem = .ok mem) ↔ ∃ v, view s s.curr vaddr = some ⟨true, v⟩ := by
  have hlive := h.settled.sound.live_curr hm
  constructor
  · rintro ⟨mem, hstore⟩
    obtain ⟨hlt, hvalid, hwrite, -⟩ := store_page h hm hstore
    exact ⟨_, (view_some hlive hlt hvalid).trans (by rw [decide_eq_true hwrite])⟩
  · rintro ⟨v, hv⟩
    obtain ⟨-, hlow, hvalid⟩ := view_ok hv
    rw [view_some hlive hlow hvalid] at hv
    have hwrite := of_decide_eq_true (Cell.mk.inj (Option.some.inj hv)).1
    refine ⟨writeWord s.mem ((table s s.curr).read s.mem (vaddr / pageSize)).pfn.toNat _ _, bind_ok.2 ⟨_, ?_, bind_ok.2 ⟨_,
      walk_table h hm _, if_pos hwrite⟩⟩⟩
    exact userFrame_table h hm (Nat.lt_trans hlow (by decide)) hvalid

inductive Acted (s : State) : List (Act Nat Nat (BitVec 8)) → State → Prop
  | refl : Acted s [] s
  | step {l : List (Act Nat Nat (BitVec 8))} {t u : State} {e : Event} : Acted s l t → Orderly t e → Step t e u →
      Acted s (l ++ [act t e]) u

theorem Acted.protected (h : Acted s l t) (hs : Protected s) : Protected t := by
  induction h with
  | refl => exact hs
  | step _ he hstep ih => exact step_protected ih he hstep

theorem Acted.run (h : Acted s l t) (hs : Protected s) : PrivateMemory.Run (view s) l (view t) := by
  induction h with
  | refl => exact .nil
  | step hrun he hstep ih => exact .concat ih (step_refines (hrun.protected hs) he hstep)

/-- In every orderly run the machine runs the private memories of its processes, and the loads
and stores of user mode are those of the memory of the running process. -/
theorem run_refines (henv : BootOwned env) (hfits : BootFits env) (hloads : BootLoads env) (hreach : Reachable Orderly env s)
    (h : Acted s l t) : PrivateMemory.Run (view s) l (view t) ∧ (t.mode = .user → ∀ vaddr x,
      (userLoad vaddr t.mem = .ok x ↔ ∃ w, view t t.curr vaddr = some ⟨w, x⟩) ∧
      ((∃ mem, userStore vaddr x t.mem = .ok mem) ↔ ∃ v, view t t.curr vaddr = some ⟨true, v⟩)) := by
  have hs := run_protected henv hfits hloads hreach
  have ht := h.protected hs
  exact ⟨h.run hs, fun hm vaddr x => ⟨userLoad_view ht hm, userStore_view ht hm⟩⟩

/-- Whatever runs in between, a process that comes back reads at an address what it stored
there last, or what was there before. -/
theorem load_last_store (henv : BootOwned env) (hfits : BootFits env) (hloads : BootLoads env) (hreach : Reachable Orderly env s)
    (h : Acted s l t) (hs : s.mode = .user) (ht : t.mode = .user) (hcurr : t.curr = s.curr) (hl : ∀ x ∈ l, ¬ x.Remakes s.curr)
    (hload : userLoad vaddr s.mem = .ok x) : userLoad vaddr t.mem = .ok ((lastStore s.curr vaddr l).getD x) := by
  have hp := run_protected henv hfits hloads hreach
  obtain ⟨w, hw⟩ := (userLoad_view hp hs).1 hload
  have hread := (h.run hp).read hl hw
  exact (userLoad_view (h.protected hp) ht).2 ⟨w, hcurr.symm ▸ hread⟩

/-- A child reads at an address what it stored there last, or what its parent had there at the Fork. -/
theorem child_reads_fork (henv : BootOwned env) (hfits : BootFits env) (hloads : BootLoads env) (hreach : Reachable Orderly env s)
    (he : Orderly s (.call .fork info)) (hfork : Step s (.call .fork info) u) (h : Acted u l t) (ht : t.mode = .user)
    (hcurr : t.curr = s.fam.count) (hl : ∀ x ∈ l, ¬ x.Remakes s.fam.count) (hload : userLoad vaddr s.mem = .ok x) :
    userLoad vaddr t.mem = .ok ((lastStore s.fam.count vaddr l).getD x) := by
  have hp := run_protected henv hfits hloads hreach
  have hu := step_protected hp he hfork
  obtain ⟨w, hw⟩ := (userLoad_view hp (userMode_iff.1 hfork.1)).1 hload
  have hread := PrivateMemory.Run.copied (step_refines hp he hfork) (h.run hu) hl hw
  exact (userLoad_view (h.protected hu) ht).2 ⟨w, hcurr.symm ▸ hread⟩

/-- The code of a process stays what it is until its memory is made anew. -/
theorem code_constant (henv : BootOwned env) (hfits : BootFits env) (hloads : BootLoads env) (hreach : Reachable Orderly env s)
    (h : Acted s l t) (hp : live s p) (hlow : a / pageSize < kernelStackBase)
    (hv : ((table s p).read s.mem (a / pageSize)).valid = true)
    (hcode : ((table s p).read s.mem (a / pageSize)).uprot = protRead ||| protExec) (hl : ∀ x ∈ l, ¬ x.Remakes p) :
    ((table t p).read t.mem (a / pageSize)).uprot = protRead ||| protExec ∧ userByte t.mem (table t p) a = userByte s.mem (table s p) a := by
  have hprot := run_protected henv hfits hloads hreach
  have hcell := view_some hp hlow hv
  have hwrite : decide (((table s p).read s.mem (a / pageSize)).uprot &&& protWrite ≠ 0) = false := by
    rw [hcode]
    decide
  have hend := (h.run hprot).constant hl hcell hwrite
  obtain ⟨hp', -, hv'⟩ := view_ok hend
  rw [view_some hp' hlow hv'] at hend
  obtain ⟨hw, hbyte⟩ := Cell.mk.inj (Option.some.inj hend)
  refine ⟨?_, hbyte⟩
  have huser : UserPage ((table t p).read t.mem (a / pageSize)) := ((h.protected hprot).tables p hp').user _ hlow hv'
  refine huser.resolve_right fun hrw => ?_
  rw [hrw, hwrite] at hw
  exact absurd hw (by decide)

theorem act_atFork (h : atFork s = true) : act s (.resume file) = .rest := by
  obtain ⟨c, child, hm, hk⟩ := atFork_kont h
  simp only [act, hm, hk]

def readsZero (s : State) : Bool :=
  match userLoad smallPtr s.mem, view s s.curr smallPtr with
  | .ok x, some k => x = 0 && k.writable
  | _, _ => false

theorem small_readsZero : startsIn readsZero = true := by
  decide +kernel

variable {s₀ s₁ s₂ s₃ s₄ : State}

theorem small_zero (h : kernelStart smallBoot = .ok s₀) :
    userLoad smallPtr s₀.mem = .ok 0 ∧ ∃ v, view s₀ s₀.curr smallPtr = some ⟨true, v⟩ := by
  obtain ⟨s, hs, hzero⟩ := startsIn_iff.1 small_readsZero
  obtain rfl := Except.ok.inj (hs.symm.trans h)
  unfold readsZero at hzero
  split at hzero
  case h_1 x k hload hview =>
    obtain ⟨hx, hk⟩ := Bool.and_eq_true_iff.1 hzero
    refine ⟨by rw [hload, of_decide_eq_true hx], k.value, ?_⟩
    rw [hview, ← hk]
  case h_2 => cases hzero

theorem small_acted (h : SmallFamily s₀ s₁ s₂ s₃ s₄) : Acted s₀ [.copy 1 2, .rest, .leave 2, .rest] s₄ := by
  obtain ⟨hfork, hchild, hexit, hparent⟩ := small_orderly h
  have hrun := Acted.step (Acted.step (Acted.step (Acted.step (.refl (s := s₀)) hfork h.fork) hchild h.child) hexit h.exit)
    hparent h.parent
  have hcurr : s₂.curr = 2 := by
    rw [h.child_eq]
    exact h.forked.2.1
  rw [act_atFork h.forked.1, act_atFork h.exited.1] at hrun
  simp only [act, h.start.1, h.start.2.2.1, hcurr] at hrun
  exact hrun

theorem small_protected (h : SmallFamily s₀ s₁ s₂ s₃ s₄) : Protected s₀ :=
  boot_protected small_bootOwned small_bootFits (small_bootLoads h.boot) h.boot

theorem small_back (h : SmallFamily s₀ s₁ s₂ s₃ s₄) :
    s₄.mode = .user ∧ s₄.curr = 1 ∧ ∃ v, view s₄ s₄.curr smallPtr = some ⟨true, v⟩ := by
  have hcurr : s₄.curr = 1 := by
    rw [h.parent_eq]
    exact h.exited.2.1
  obtain ⟨-, v, hv⟩ := small_zero h.boot
  rw [h.start.1] at hv
  refine ⟨by rw [h.parent_eq], hcurr, v, ?_⟩
  rw [hcurr]
  exact ((small_acted h).run (small_protected h)).read (by simp [Act.Remakes]) hv

theorem run_refines_small : ∃ s t, Reachable Orderly smallBoot s ∧ Acted s [.copy 1 2, .rest, .leave 2, .rest] t ∧
    PrivateMemory.Run (view s) [.copy 1 2, .rest, .leave 2, .rest] (view t) ∧ ∃ mem, userStore smallPtr 7 t.mem = .ok mem := by
  obtain ⟨s₀, s₁, s₂, s₃, s₄, h, -⟩ := small_family
  have hreach : Reachable Orderly smallBoot s₀ := ⟨s₀, h.boot, .refl⟩
  obtain ⟨hrun, huser⟩ := run_refines small_bootOwned small_bootFits (small_bootLoads h.boot) hreach (small_acted h)
  obtain ⟨hm, -, hv⟩ := small_back h
  exact ⟨s₀, s₄, hreach, small_acted h, hrun, (huser hm smallPtr 7).2.2 hv⟩

theorem load_last_store_small : ∃ s t u, Reachable Orderly smallBoot s ∧ Acted s [.copy 1 2, .rest, .leave 2, .rest] t ∧
    userLoad smallPtr t.mem = .ok 0 ∧ Acted s ([.copy 1 2, .rest, .leave 2, .rest] ++ [.store 1 smallPtr 7]) u ∧
      userLoad smallPtr u.mem = .ok 7 := by
  obtain ⟨s₀, s₁, s₂, s₃, s₄, h, -⟩ := small_family
  have hreach : Reachable Orderly smallBoot s₀ := ⟨s₀, h.boot, .refl⟩
  have hloads := small_bootLoads h.boot
  obtain ⟨hm, hcurr, hv⟩ := small_back h
  have hback : s₄.curr = s₀.curr := hcurr.trans h.start.1.symm
  obtain ⟨mem, hmem⟩ := (userStore_view (x := 7) ((small_acted h).protected (small_protected h)) hm).2 hv
  have hstore : Step s₄ (.userStore smallPtr 7) { s₄ with mem } := ⟨userMode_iff.2 hm, bind_ok.2 ⟨mem, hmem, rfl⟩⟩
  have hacted : Acted s₀ ([.copy 1 2, .rest, .leave 2, .rest] ++ [.store 1 smallPtr 7]) { s₄ with mem } := by
    have hstep := (small_acted h).step orderly_store hstore
    rwa [show act s₄ (.userStore smallPtr 7) = .store 1 smallPtr 7 from congrArg (Act.store · smallPtr 7) hcurr] at hstep
  have huser := userMode_iff.1 h.fork.1
  have hzero := (small_zero h.boot).1
  have hbefore := load_last_store small_bootOwned small_bootFits hloads hreach (small_acted h) huser hm hback
    (by simp [Act.Remakes, h.start.1]) hzero
  have hafter := load_last_store small_bootOwned small_bootFits hloads hreach hacted huser hm hback
    (by simp [Act.Remakes, h.start.1]) hzero
  rw [h.start.1] at hbefore hafter
  exact ⟨s₀, s₄, _, hreach, small_acted h, hbefore, hacted, hafter⟩

theorem child_reads_fork_small : ∃ s u t, Reachable Orderly smallBoot s ∧ Step s (.call .fork smallInfo) u ∧ Acted u [.rest] t ∧
    t.curr = 2 ∧ userLoad smallPtr t.mem = .ok 0 := by
  obtain ⟨s₀, s₁, s₂, s₃, s₄, h, -⟩ := small_family
  have hreach : Reachable Orderly smallBoot s₀ := ⟨s₀, h.boot, .refl⟩
  obtain ⟨hfork, hchild, -, -⟩ := small_orderly h
  have hacted : Acted s₁ [.rest] s₂ := by
    have hstep := Acted.step (.refl (s := s₁)) hchild h.child
    rwa [act_atFork h.forked.1] at hstep
  have hcurr : s₂.curr = 2 := by
    rw [h.child_eq]
    exact h.forked.2.1
  have hload := child_reads_fork small_bootOwned small_bootFits (small_bootLoads h.boot) hreach hfork h.fork hacted
    (by rw [h.child_eq]) (hcurr.trans h.start.2.2.1.symm) (by simp [Act.Remakes]) (small_zero h.boot).1
  exact ⟨s₀, s₁, s₂, hreach, h.fork, hacted, hcurr, hload⟩

def fitsIn (li : LoadInfo) (args : List (List (BitVec 8))) (s : State) : Bool :=
  let z := sizes s.mem.cfg li args
  (z.textLen + z.dataLen + z.stackNpg.toNat ≤ available s.mem (wordOf (s.mem.space s.curr).region0)) &&
    (fitsPhysical z s.mem &&
      memInvalidPages + textPages li + dataPages li + 1 + stackPages s.mem.cfg li args + 1 + kernelStackPages < 2 ^ 31)

theorem fitsIn_orderly {f : File} {li : LoadInfo} (hs : Sound s) (hstep : Step s (.call (.exec (some f) args) info) t)
    (hst : f.status = .success li) (h : fitsIn li args s = true) : Orderly s (.call (.exec (some f) args) info) := by
  obtain ⟨hframes, hrest⟩ := Bool.and_eq_true_iff.1 h
  obtain ⟨hphys, hcounts⟩ := Bool.and_eq_true_iff.1 hrest
  refine ⟨.of_step hs hstep ?_ nofun, ?_⟩
  · rintro li' ⟨⟨f', hf', hst'⟩, -⟩
    obtain rfl := Option.some.inj hf'
    obtain rfl := LoadStatus.success.inj (hst.symm.trans hst')
    exact of_decide_eq_true hframes
  · rintro f' li' hf' hst' -
    obtain rfl := Option.some.inj hf'
    obtain rfl := LoadStatus.success.inj (hst.symm.trans hst')
    rw [if_pos hphys]
    refine ⟨?_, fun hne => absurd rfl hne⟩
    unfold CountsFit
    exact of_decide_eq_true hcounts

def codeFile : File := ⟨.success ⟨pageSize, 0, 0, 0⟩, some []⟩

def codeFits (s : State) : Bool := fitsIn ⟨pageSize, 0, 0, 0⟩ [] s

def hasCode (s : State) : Bool :=
  let e := (table s 1).read s.mem memInvalidPages
  live s 1 && (e.valid && e.uprot = protRead ||| protExec)

theorem small_code : startsIn (fun s₀ => codeFits s₀ && stepsTo s₀ (.call (.exec (some codeFile) []) smallInfo) fun s₁ =>
    hasCode s₁ && stepsTo s₁ (.userStore (506 * pageSize) 7) fun _ => true) = true := by
  decide +kernel

theorem code_constant_small : ∃ s t, Reachable Orderly smallBoot s ∧ Acted s [.store s.curr (506 * pageSize) 7] t ∧
    ((table t 1).read t.mem memInvalidPages).uprot = protRead ||| protExec ∧
      userByte t.mem (table t 1) smallPtr = userByte s.mem (table s 1) smallPtr := by
  have h := small_code
  simp only [startsIn_iff, stepsTo_iff, Bool.and_eq_true] at h
  obtain ⟨s₀, h₀, hfits, s₁, h₁, hcode, s₂, h₂, -⟩ := h
  have hreach : Reachable Orderly smallBoot s₁ :=
    ⟨s₀, h₀, .single ⟨_, fitsIn_orderly (boot_sound small_bootOwned h₀) h₁ rfl hfits, h₁⟩⟩
  have hacted : Acted s₁ [.store s₁.curr (506 * pageSize) 7] s₂ := .step .refl orderly_store h₂
  unfold hasCode at hcode
  simp only [Bool.and_eq_true, decide_eq_true_eq] at hcode
  obtain ⟨hlive, hv, huprot⟩ := hcode
  have hpage : smallPtr / pageSize = memInvalidPages := by decide
  obtain ⟨hend, hbyte⟩ := code_constant small_bootOwned small_bootFits (small_bootLoads h₀) hreach hacted hlive
    (a := smallPtr) (by decide) (hpage.symm ▸ hv) (hpage.symm ▸ huprot) (by simp [Act.Remakes])
  exact ⟨s₁, s₂, hreach, hacted, hpage ▸ hend, hbyte⟩

end Yalnix.UserMemory
