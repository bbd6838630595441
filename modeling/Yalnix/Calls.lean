import Yalnix.Kernel

namespace Yalnix.Calls

open Loops Machine LoadProgram Processes Queues Kernel

variable {s t : State} {info : ExceptionInfo} {kont : Kont}

structure Keeps (a b : Sched) : Prop where
  curr : b.currProc = a.currProc
  idle : b.idlePcb = a.idlePcb
  head : b.waitingQueueHead = a.waitingQueueHead
  size : b.waitingQueueSize = a.waitingQueueSize

theorem Keeps.refl (a : Sched) : Keeps a a := ⟨rfl, rfl, rfl, rfl⟩

theorem pushProc_ok {p : Nat} {a b : Sched} (h : pushProcToQueue p a = .ok b) : ∃ next,
    b = { a with
      items := { (a.items.alloc p).2 with next }
      queueHead := if a.queueSize = 0 then some a.items.count else a.queueHead
      queueTail := some a.items.count
      queueSize := a.queueSize + 1 } := by
  unfold pushProcToQueue at h
  dsimp only at h
  split at h
  case isTrue hz =>
    obtain rfl := Except.ok.inj h
    exact ⟨_, by rw [if_pos hz]; rfl⟩
  case isFalse hz =>
    obtain ⟨tail, -, h⟩ := bind_ok.1 h
    obtain rfl := Except.ok.inj h
    exact ⟨_, by rw [if_neg hz]; rfl⟩

theorem free_ok {item : Nat} {a b : Items} (h : a.free item = .ok b) :
    a.freed item = false ∧ b = { a with freed := Function.update a.freed item true } := by
  unfold Items.free at h
  split at h
  case isTrue => cases h
  case isFalse hf => exact ⟨Bool.not_eq_true _ ▸ hf, (Except.ok.inj h).symm⟩

theorem unlinkItem_ok {item : Nat} {head tail head' tail' : Ptr} {a b : Items}
    (h : unlinkItem item head tail a = .ok (head', tail', b)) : ∃ prev next, b = { a with prev, next } := by
  unfold unlinkItem at h
  split at h
  case isTrue =>
    obtain ⟨-, rfl⟩ : tail' = none ∧ b = a := by simpa [eq_comm] using (Prod.mk.inj (Except.ok.inj h)).2
    exact ⟨b.prev, b.next, rfl⟩
  case isFalse =>
    split at h
    case isTrue =>
      obtain ⟨new, -, h⟩ := bind_ok.1 h
      obtain ⟨-, -, rfl⟩ := (Except.ok.inj h)
      exact ⟨_, _, rfl⟩
    case isFalse =>
      split at h
      case isTrue =>
        obtain ⟨new, -, h⟩ := bind_ok.1 h
        obtain ⟨-, -, rfl⟩ := Except.ok.inj h
        exact ⟨_, _, rfl⟩
      case isFalse =>
        obtain ⟨prev, -, h⟩ := bind_ok.1 h
        obtain ⟨next, -, h⟩ := bind_ok.1 h
        obtain ⟨-, -, rfl⟩ := Except.ok.inj h
        exact ⟨_, _, rfl⟩

theorem removeReady_ok {item : Nat} {a b : Sched} (h : removeItemFromReadyQueue item a = .ok b) :
    a.items.freed item = false ∧ ∃ head tail prev next, b = { a with
      items := { a.items with prev, next, freed := Function.update a.items.freed item true }
      queueHead := head
      queueTail := tail
      queueSize := a.queueSize - 1 } := by
  obtain ⟨⟨head, tail, linked⟩, hu, h⟩ := bind_ok.1 h
  obtain ⟨items, hitems, h⟩ := bind_ok.1 h
  obtain rfl := Except.ok.inj h
  obtain ⟨prev, next, rfl⟩ := unlinkItem_ok hu
  obtain ⟨hf, rfl⟩ := free_ok hitems
  exact ⟨hf, head, tail, prev, next, rfl⟩

theorem removeWaiting_ok {item : Nat} {a b : Sched} (h : removeItemFromWaitingQueue item a = .ok b) :
    a.items.freed item = false ∧ ∃ head tail prev next, b = { a with
      items := { a.items with prev, next, freed := Function.update a.items.freed item true }
      waitingQueueHead := head
      waitingQueueTail := tail
      waitingQueueSize := a.waitingQueueSize - 1 } := by
  obtain ⟨⟨head, tail, linked⟩, hu, h⟩ := bind_ok.1 h
  obtain ⟨items, hitems, h⟩ := bind_ok.1 h
  obtain rfl := Except.ok.inj h
  obtain ⟨prev, next, rfl⟩ := unlinkItem_ok hu
  obtain ⟨hf, rfl⟩ := free_ok hitems
  exact ⟨hf, head, tail, prev, next, rfl⟩

theorem items_deref_ok {x : Ptr} {item : Nat} {a : Items} (h : a.deref x = .ok item) :
    x = some item ∧ item < a.count ∧ a.freed item = false := by
  unfold Items.deref Processes.deref at h
  split at h
  case h_1 => cases h
  case h_2 =>
    split at h
    case isTrue hlt =>
      split at h
      case isTrue => cases h
      case isFalse hf =>
        obtain rfl := Except.ok.inj h
        exact ⟨rfl, hlt, Bool.not_eq_true _ ▸ hf⟩
    case isFalse => cases h

/-- The item that leaves the queue is freed, and the walk reads its `next`. -/
theorem removed_deref {item : Nat} {a b : Sched} (h : removeItemFromReadyQueue item a = .ok b) :
    b.items.deref (some item) ≠ .ok item := by
  obtain ⟨-, head, tail, prev, next, rfl⟩ := removeReady_ok h
  intro hd
  have hfreed := (items_deref_ok hd).2.2
  dsimp only at hfreed
  rw [Function.update_self] at hfreed
  cases hfreed

theorem findReady_ok {p : Nat} {a b : Sched} (h : findReadyPcb a = .ok (p, b)) :
    (p = a.idlePcb ∧ b = a) ∨
    ∃ item, item < a.items.count ∧ p = a.items.proc item ∧ removeItemFromReadyQueue item a = .ok b := by
  unfold findReadyPcb at h
  split at h
  case isTrue =>
    obtain ⟨rfl, rfl⟩ := Prod.mk.inj (Except.ok.inj h)
    exact .inl ⟨rfl, rfl⟩
  case isFalse =>
    obtain ⟨head, hhead, h⟩ := bind_ok.1 h
    obtain ⟨c, hc, h⟩ := bind_ok.1 h
    obtain ⟨rfl, rfl⟩ := Prod.mk.inj (Except.ok.inj h)
    exact .inr ⟨head, (items_deref_ok hhead).2.1, rfl, hc⟩

theorem push_keeps {p : Nat} {a b : Sched} (h : pushProcToQueue p a = .ok b) : Keeps a b := by
  obtain ⟨next, rfl⟩ := pushProc_ok h
  exact ⟨rfl, rfl, rfl, rfl⟩

theorem findReady_keeps {n : Nat} {a b : Sched} (h : findReadyPcb a = .ok (n, b)) : Keeps a b := by
  rcases findReady_ok h with ⟨-, rfl⟩ | ⟨item, -, -, h⟩
  · exact .refl _
  · obtain ⟨-, head, tail, prev, next, rfl⟩ := removeReady_ok h
    exact ⟨rfl, rfl, rfl, rfl⟩

/-- The scheduler after `PushProcToQueue` for a parent that waited, if any. -/
def wake (woken : Ptr) (sched : Sched) : Except Fault Sched :=
  match woken with
  | some parent => pushProcToQueue parent sched
  | none => .ok sched

theorem wake_keeps {woken : Ptr} {a b : Sched} (h : wake woken a = .ok b) : Keeps a b := by
  cases woken with
  | none =>
      obtain rfl := Except.ok.inj h
      exact .refl a
  | some p => exact push_keeps h

section Counts

variable {f f' : Family} {curr parent : Nat} {x : Ptr}

def ids (f : Family) : Nat × Nat × (Nat → Nat) := (f.count, f.nextProcId, f.processId)

theorem ids_count (h : ids f' = ids f) : f'.count = f.count := congrArg Prod.fst h

theorem ids_processId (h : ids f' = ids f) : f'.processId = f.processId := congrArg (fun i => i.2.2) h

theorem linkChild_ids {child : Nat} (h : linkChild parent child f = .ok f') : ids f' = ids f := by
  unfold linkChild at h
  dsimp only at h
  split at h
  case isTrue =>
    obtain rfl := Except.ok.inj h
    rfl
  case isFalse =>
    obtain ⟨tail, -, h⟩ := bind_ok.1 h
    obtain rfl := Except.ok.inj h
    rfl

theorem linkChild_count {child : Nat} (h : linkChild parent child f = .ok f') : f'.count = f.count :=
  ids_count (linkChild_ids h)

theorem removeChild_ids {item : Nat} (h : removeChildFromParent item parent f = .ok f') : ids f' = ids f := by
  unfold removeChildFromParent at h
  split at h
  case isTrue =>
    obtain rfl := Except.ok.inj h
    rfl
  case isFalse =>
    split at h
    case isTrue =>
      obtain ⟨head, -, h⟩ := bind_ok.1 h
      obtain rfl := Except.ok.inj h
      rfl
    case isFalse =>
      split at h
      case isTrue =>
        obtain ⟨tail, -, h⟩ := bind_ok.1 h
        obtain rfl := Except.ok.inj h
        rfl
      case isFalse =>
        obtain ⟨prev, -, h⟩ := bind_ok.1 h
        obtain ⟨next, -, h⟩ := bind_ok.1 h
        obtain rfl := Except.ok.inj h
        rfl

theorem orphanChildren_ids {n : Nat} (h : orphanChildren n x f = .ok f') : ids f' = ids f := by
  induction n generalizing x f with
  | zero =>
      cases x with
      | none => rw [Except.ok.inj h]
      | some child => cases h
  | succ n ih =>
      cases x with
      | none => rw [Except.ok.inj h]
      | some child =>
          obtain ⟨c, -, h⟩ := bind_ok.1 h
          rw [ih h]
          rfl

theorem removeFromParent_ids {n : Nat} (h : removeFromParent curr parent n x f = .ok f') : ids f' = ids f := by
  induction n generalizing x f with
  | zero =>
      cases x with
      | none => rw [Except.ok.inj h]
      | some child => cases h
  | succ n ih =>
      cases x with
      | none => rw [Except.ok.inj h]
      | some child =>
          obtain ⟨c, -, h⟩ := bind_ok.1 h
          split at h
          case isTrue =>
            obtain ⟨g, hg, h⟩ := bind_ok.1 h
            rw [ih h, removeChild_ids hg]
          case isFalse => exact ih h

theorem reportExit_ids {status : Int} (h : reportExit curr status parent f = .ok f') : ids f' = ids f := by
  unfold reportExit pushExitToExited at h
  dsimp only at h
  split at h
  case isTrue =>
    obtain rfl := Except.ok.inj h
    rfl
  case isFalse =>
    obtain ⟨tail, -, h⟩ := bind_ok.1 h
    obtain rfl := Except.ok.inj h
    rfl

theorem family_deref_ok {p : Nat} (h : f.deref x = .ok p) : x = some p ∧ p < f.count := by
  unfold Family.deref Processes.deref at h
  split at h
  case h_1 => cases h
  case h_2 =>
    split at h
    case isTrue hlt =>
      obtain rfl := Except.ok.inj h
      exact ⟨rfl, hlt⟩
    case isFalse => cases h

theorem exitLinks_ids {status : Int} {woken : Ptr} (h : exitLinks curr status f = .ok (woken, f')) :
    ids f' = ids f ∧ ∀ p, woken = some p → p < f.count := by
  obtain ⟨f₁, h₁, h⟩ := bind_ok.1 h
  have hids₁ := orphanChildren_ids h₁
  split at h
  case h_1 =>
    obtain ⟨rfl, rfl⟩ := Prod.mk.inj (Except.ok.inj h)
    exact ⟨hids₁, nofun⟩
  case h_2 =>
    obtain ⟨p, hp, h⟩ := bind_ok.1 h
    obtain ⟨f₂, h₂, h⟩ := bind_ok.1 h
    obtain ⟨f₃, h₃, h⟩ := bind_ok.1 h
    have hids := (reportExit_ids h₃).trans ((removeFromParent_ids h₂).trans hids₁)
    have hlt : p < f.count := ids_count hids₁ ▸ (family_deref_ok hp).2
    split at h
    case isTrue =>
      obtain ⟨rfl, rfl⟩ := Prod.mk.inj (Except.ok.inj h)
      exact ⟨hids, fun q hq => Option.some.inj hq ▸ hlt⟩
    case isFalse =>
      obtain ⟨rfl, rfl⟩ := Prod.mk.inj (Except.ok.inj h)
      exact ⟨hids, nofun⟩

theorem exitLinks_count {status : Int} {woken : Ptr} (h : exitLinks curr status f = .ok (woken, f')) :
    f'.count = f.count ∧ ∀ p, woken = some p → p < f.count :=
  (exitLinks_ids h).imp_left ids_count

theorem collect_ids {pid : Int} (h : collect curr f = .ok (pid, f')) : ids f' = ids f := by
  obtain ⟨f₁, h₁, h⟩ := bind_ok.1 h
  have hids : ids f₁ = ids f := by
    unfold removeHeadFromExitQueue at h₁
    split at h₁
    case h_1 => rw [Except.ok.inj h₁]
    case h_2 =>
      obtain ⟨next, -, h₁⟩ := bind_ok.1 h₁
      obtain ⟨head, -, h₁⟩ := bind_ok.1 h₁
      obtain rfl := Except.ok.inj h₁
      dsimp only
      split <;> rfl
  split at h
  case h_1 => cases h
  case h_2 =>
    obtain ⟨-, rfl⟩ := Prod.mk.inj (Except.ok.inj h)
    exact hids

theorem collect_count {pid : Int} (h : collect curr f = .ok (pid, f')) : f'.count = f.count := ids_count (collect_ids h)

end Counts

/-- The context of the process that runs is saved with the pcb of `curr_proc`. -/
def saveContext (kont : Kont) (info : ExceptionInfo) (s : State) : Nat → Context :=
  Function.update s.ctx s.curr ⟨s.cpu, kont, info⟩

theorem contextSwitch_ok {switch : State → Except Fault (Nat × State)}
    (h : contextSwitch kont info switch s = .ok t) :
    ∃ p u, switch { s with ctx := saveContext kont info s } = .ok (p, u) ∧
      t = { u with cpu := (u.ctx p).owner, mode := .resuming (u.ctx p) } := by
  obtain ⟨⟨p, u⟩, hu, ht⟩ := bind_ok.1 h
  exact ⟨p, u, hu, (Except.ok.inj ht).symm⟩

theorem switchNewProc_ok {p q r : Nat} (h : switchNewProc p q s = .ok (r, t)) :
    ∃ mem, AddressSpace.switchNewProc q s.mem = .ok mem ∧ r = q ∧
      t = { s with mem, ctx := Function.update s.ctx q { s.ctx p with owner := q }, sched.currProc := q } := by
  obtain ⟨mem, hmem, ht⟩ := bind_ok.1 h
  obtain ⟨rfl, rfl⟩ := Prod.mk.inj (Except.ok.inj ht)
  exact ⟨mem, hmem, rfl, rfl⟩

theorem switchFork_ok {p c r : Nat} (h : switchFork p c s = .ok (r, t)) :
    ∃ mem sched, AddressSpace.switchFork p c s.mem = .ok mem ∧
      pushProcToQueue p { s.sched with currProc := c } = .ok sched ∧ r = c ∧
      t = { s with mem, sched, ctx := Function.update s.ctx c { s.ctx p with owner := c } } := by
  obtain ⟨mem, hmem, h⟩ := bind_ok.1 h
  obtain ⟨sched, hsched, ht⟩ := bind_ok.1 h
  obtain ⟨rfl, rfl⟩ := Prod.mk.inj (Except.ok.inj ht)
  exact ⟨mem, sched, hmem, hsched, rfl, rfl⟩

theorem switchExit_ok {p q r : Nat} (h : switchExit p q s = .ok (r, t)) :
    ∃ mem, AddressSpace.switchExit p q s.mem = .ok mem ∧ r = q ∧
      t = { s with mem, sched.currProc := q } := by
  obtain ⟨mem, hmem, ht⟩ := bind_ok.1 h
  obtain ⟨rfl, rfl⟩ := Prod.mk.inj (Except.ok.inj ht)
  exact ⟨mem, hmem, rfl, rfl⟩

def switched (kont : Kont) (info : ExceptionInfo) (q : Nat) (s u : State) : State :=
  let ctx := saveContext kont info s
  { u with ctx, sched.currProc := q, cpu := (ctx q).owner, mode := .resuming (ctx q) }

theorem contextSwitch_exist {u : State} {q : Nat} (h : contextSwitch kont info (switchExist q) u = .ok t)
    (hctx : u.ctx = s.ctx) (hcpu : u.cpu = s.cpu) (hcurr : u.curr = s.curr) :
    t = switched kont info q s { u with mem := AddressSpace.switchExist q u.mem } := by
  obtain ⟨r, v, hv, rfl⟩ := contextSwitch_ok h
  obtain ⟨rfl, rfl⟩ := Prod.mk.inj (Except.ok.inj hv)
  simp [switched, saveContext, hctx, hcpu, hcurr]

theorem contextSwitch_exit {u : State} {p q : Nat} (h : contextSwitch kont info (switchExit p q) u = .ok t)
    (hctx : u.ctx = s.ctx) (hcpu : u.cpu = s.cpu) (hcurr : u.curr = s.curr) :
    ∃ mem, AddressSpace.switchExit p q u.mem = .ok mem ∧ t = switched kont info q s { u with mem } := by
  obtain ⟨r, v, hv, rfl⟩ := contextSwitch_ok h
  obtain ⟨mem, hmem, rfl, rfl⟩ := switchExit_ok hv
  exact ⟨mem, hmem, by simp [switched, saveContext, hctx, hcpu, hcurr]⟩

/-- The pcb of the child in `ForkFunc`, before its switch. -/
def childSpace (parent child : Nat) (m : Memory) : Space :=
  { m.space child with sp := (m.space parent).sp, brk := (m.space parent).brk }

theorem forkFunc_ok (h : forkFunc info s = .ok t) :
    ∃ m m' fam sched, AddressSpace.buildRegion0 s.fam.count (createProc s).2.mem = .ok m ∧
      AddressSpace.switchFork s.curr s.fam.count (setSpace m s.fam.count (childSpace s.curr s.fam.count m)) = .ok m' ∧
      linkChild s.curr (createPcb s.fam).1 (createPcb s.fam).2 = .ok fam ∧
      pushProcToQueue s.curr { (createProc s).2.sched with currProc := s.fam.count } = .ok sched ∧
      t = { s with
        mem := m', fam, sched
        ctx := Function.update (saveContext (.fork s.fam.count) info s) s.fam.count ⟨s.fam.count, .fork s.fam.count, info⟩
        cpu := s.fam.count
        mode := .resuming ⟨s.fam.count, .fork s.fam.count, info⟩ } := by
  obtain ⟨m, hm, h⟩ := bind_ok.1 h
  obtain ⟨fam, hfam, h⟩ := bind_ok.1 h
  obtain ⟨p, u, hu, rfl⟩ := contextSwitch_ok h
  obtain ⟨m', sched, hm', hsched, rfl, rfl⟩ := switchFork_ok hu
  refine ⟨m, m', fam, sched, hm, hm', hfam, hsched, ?_⟩
  simp [saveContext, State.curr]

theorem exitFunc_ok {status : Int} (h : exitFunc status info s = .ok t) :
    ∃ woken fam sched next sched' mem, exitLinks s.curr status s.fam = .ok (woken, fam) ∧
      wake woken s.sched = .ok sched ∧ findReadyPcb sched = .ok (next, sched') ∧
      AddressSpace.switchExit s.curr next s.mem = .ok mem ∧
      t = switched .exit info next s
        { s with mem, fam, sched := sched', exited := Function.update s.exited s.curr true } := by
  obtain ⟨⟨woken, fam⟩, hlinks, h⟩ := bind_ok.1 h
  obtain ⟨sched, hsched, h⟩ : ∃ sched, wake woken s.sched = .ok sched ∧ (do
      let r ← findReadyPcb sched
      contextSwitch .exit info (switchExit s.curr r.1)
        { s with fam, sched := r.2, exited := Function.update s.exited s.curr true }) = .ok t := by
    cases woken with
    | none => exact ⟨s.sched, rfl, h⟩
    | some parent => exact bind_ok.1 h
  obtain ⟨⟨next, sched'⟩, hnext, h⟩ := bind_ok.1 h
  have hcurr : sched'.currProc = s.curr := (findReady_keeps hnext).curr.trans (wake_keeps hsched).curr
  obtain ⟨mem, hmem, ht⟩ := contextSwitch_exit (s := s) h rfl rfl hcurr
  exact ⟨woken, fam, sched, next, sched', mem, hlinks, hsched, hnext, hmem, ht⟩

theorem waitFunc_ok {res : Option Int} (h : waitFunc info s = .ok (res, t)) :
    (s.fam.exitedChildrenHead s.curr = none ∧ s.fam.childrenHead s.curr = none ∧ res = some ERROR ∧ t = s) ∨
    (s.fam.exitedChildrenHead s.curr = none ∧ s.fam.childrenHead s.curr ≠ none ∧ res = none ∧
      ∃ next sched, findReadyPcb s.sched = .ok (next, sched) ∧
        t = switched .wait info next s
          { s with
            mem := AddressSpace.switchExist next s.mem
            fam := { s.fam with waiting := Function.update s.fam.waiting s.curr true }
            sched }) ∨
    (s.fam.exitedChildrenHead s.curr ≠ none ∧ ∃ pid fam, collect s.curr s.fam = .ok (pid, fam) ∧
      res = some pid ∧ t = { s with fam }) := by
  unfold waitFunc at h
  split at h
  case isTrue hrec =>
    have hrec := Option.isNone_iff_eq_none.1 hrec
    split at h
    case isTrue hkids =>
      obtain ⟨rfl, rfl⟩ := Prod.mk.inj (Except.ok.inj h)
      exact .inl ⟨hrec, Option.isNone_iff_eq_none.1 hkids, rfl, rfl⟩
    case isFalse hkids =>
      obtain ⟨⟨next, sched⟩, hnext, h⟩ := bind_ok.1 h
      obtain ⟨u, hu, h⟩ := bind_ok.1 h
      obtain rfl := contextSwitch_exist (s := s) hu rfl rfl (findReady_keeps hnext).curr
      obtain ⟨rfl, rfl⟩ := Prod.mk.inj (Except.ok.inj h)
      exact .inr (.inl ⟨hrec, fun hn => hkids (Option.isNone_iff_eq_none.2 hn), rfl, next, sched, hnext, rfl⟩)
  case isFalse hrec =>
    obtain ⟨⟨pid, fam⟩, hcol, h⟩ := bind_ok.1 h
    obtain ⟨rfl, rfl⟩ := Prod.mk.inj (Except.ok.inj h)
    exact .inr (.inr ⟨fun hn => hrec (Option.isNone_iff_eq_none.2 hn), pid, fam, hcol, rfl, rfl⟩)

theorem execFunc_ok {file : Option File} {args : List (List (BitVec 8))} {r : Int} {info' : ExceptionInfo}
    (h : execFunc file args info s = .ok (r, info', t)) :
    ∃ r' mem, loadProgram s.curr (s.mem.space s.curr).region0 file args info s.mem = .ok (r', info', mem) ∧
      r = (if r' = ERROR then ERROR else 0) ∧ t = { s with mem } := by
  obtain ⟨⟨r', info₁, mem⟩, hload, h⟩ := bind_ok.1 h
  dsimp only at h
  split at h
  case isTrue hr =>
    obtain ⟨rfl, rfl, rfl⟩ := Except.ok.inj h
    exact ⟨r', mem, hload, by rw [if_pos hr], rfl⟩
  case isFalse hr =>
    obtain ⟨rfl, rfl, rfl⟩ := Except.ok.inj h
    exact ⟨r', mem, hload, by rw [if_neg hr], rfl⟩

theorem memoryTrap_ok {out : Option ExceptionInfo} (h : trapMemoryHandler info s = .ok (out, t)) :
    (growsStack s info = true ∧ out = some info ∧ ∃ mem,
      AddressSpace.growStack s.curr (toUlong (downToPage info.addr)) s.mem = .ok mem ∧ t = { s with mem }) ∨
    (growsStack s info = false ∧ out = none ∧ exitFunc 1 info s = .ok t) := by
  unfold trapMemoryHandler at h
  split at h
  case isTrue hg =>
    obtain ⟨mem, hmem, h⟩ := bind_ok.1 h
    obtain ⟨rfl, rfl⟩ := Prod.mk.inj (Except.ok.inj h)
    exact .inl ⟨hg, rfl, mem, hmem, rfl⟩
  case isFalse hg =>
    obtain ⟨u, hu, h⟩ := bind_ok.1 h
    obtain ⟨rfl, rfl⟩ := Prod.mk.inj (Except.ok.inj h)
    exact .inr ⟨Bool.not_eq_true _ ▸ hg, rfl, hu⟩

end Yalnix.Calls
