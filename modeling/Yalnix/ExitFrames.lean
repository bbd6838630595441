import Yalnix.Allocation
import Yalnix.FamilyTree
import Yalnix.FreeCounter
import Yalnix.ReadyQueue

namespace Yalnix.ExitFrames

open Loops Machine AddressSpace LoadProgram Processes Queues Kernel Accesses FreeList FreeCounter Allocation Calls ReadyQueue
  FamilyTree Forests Runs

variable {m m' u : Memory} {t : TablePtr} {w : Word} {s : State} {n k : Nat}

def frames (m : Memory) (w : Word) (n : Nat) : List Nat :=
  ((List.range n).filter fun j => (w.read m j).valid).map fun j => (w.read m j).pfn.toNat

structure Owns (m : Memory) (w : Word) (n : Nat) : Prop where
  lt : ∀ j < n, (w.read m j).valid = true → (w.read m j).pfn.toNat < m.numPages
  used : ∀ j < n, (w.read m j).valid = true → m.freePages (w.read m j).pfn.toNat = .pageUsed
  distinct : ∀ j < n, ∀ k < n, (w.read m j).valid = true → (w.read m k).valid = true →
    (w.read m j).pfn = (w.read m k).pfn → j = k

theorem mem_frames {f : Nat} : f ∈ frames m w n ↔ ∃ j < n, (w.read m j).valid = true ∧ (w.read m j).pfn.toNat = f := by
  simp [frames, and_assoc]

theorem frames_length (m : Memory) (w : Word) (n : Nat) : (frames m w n).length = validEntries m w n := by
  rw [frames, List.length_map, validEntries, List.countP_eq_length_filter]

theorem frames_succ (m : Memory) (w : Word) (n : Nat) :
    frames m w (n + 1) = frames m w n ++ if (w.read m n).valid then [(w.read m n).pfn.toNat] else [] := by
  rw [frames, List.range_succ, List.filter_append, List.map_append]
  cases h : (w.read m n).valid <;> simp [frames, h]

theorem frames_nodup (ho : Owns m w n) : (frames m w n).Nodup := by
  refine (List.nodup_map_iff_inj_on (List.nodup_range.filter _)).2 fun j hj k hk he => ?_
  simp only [List.mem_filter, List.mem_range] at hj hk
  exact ho.distinct j hj.1 k hk.1 hj.2 hk.2 (BitVec.eq_of_toNat_eq he)

structure MarksOnly (m m' : Memory) : Prop where
  rest : m' = { m with freePages := m'.freePages, numFreePages := m'.numFreePages }

theorem MarksOnly.read (h : MarksOnly m m') (w : Word) (j : Nat) : w.read m' j = w.read m j := by
  rw [h.rest]
  cases w <;> rfl

theorem exitPage_returns {proc : Nat} (hw : Leads m (m.space proc).region0 w) (hn : n ≤ pageTableLen)
    (hlt : ∀ j < n, (w.read m j).valid = true → (w.read m j).pfn.toNat < m.numPages) (hk : k < n)
    (hret : Returns (frames m w k) m u) (honly : MarksOnly m u) :
    ∃ v, exitPage proc k u = .ok v ∧ Returns (frames m w (k + 1)) m v ∧ MarksOnly m v := by
  have hspace : u.space = m.space := by rw [honly.rest]
  have hpages : u.numPages = m.numPages := by rw [honly.rest]
  have hregion : u.region1Pt = m.region1Pt := by rw [honly.rest]
  have hread : readPte u (u.space proc).region0 k = .ok (w.read m k) := by
    refine readPte_ok.2 ⟨k, w, rfl, by omega, ?_, (honly.read w k).symm⟩
    rw [hspace]
    exact leads_congr hw hpages fun _ _ => by rw [hregion]
  rw [frames_succ]
  cases hv : (w.read m k).valid with
  | true =>
      have hfree := freePage_returns (m := u) (hpages ▸ hlt k hk hv)
      refine ⟨_, ?_, hret.append hfree.2, ?_⟩
      · refine bind_ok.2 ⟨_, hread, ?_⟩
        rw [if_pos hv]
        exact hfree.1
      · refine ⟨?_⟩
        conv_lhs => rw [honly.rest]
        rfl
  | false =>
      refine ⟨u, bind_ok.2 ⟨_, hread, ?_⟩, ?_, honly⟩
      · rw [if_neg (by simp [hv])]
        rfl
      · simpa using hret

theorem exitLoop {proc : Nat} (hw : Leads m (m.space proc).region0 w) (hn : n ≤ pageTableLen)
    (hlt : ∀ j < n, (w.read m j).valid = true → (w.read m j).pfn.toNat < m.numPages) :
    ∃ m', upTo (exitPage proc) 0 n m = .ok m' ∧ Returns (frames m w n) m m' ∧ MarksOnly m m' := by
  have hrun : ∃ m', upTo (exitPage proc) 0 n m = .ok m' ∧ Returns (frames m w (0 + n)) m m' ∧ MarksOnly m m' := by
    refine upTo_total (fun k u => Returns (frames m w k) m u ∧ MarksOnly m u) (fun k u _ hk hu => ?_)
      ⟨.same (.refl m), ⟨rfl⟩⟩
    exact exitPage_returns hw hn hlt (by omega) hu.1 hu.2
  rwa [Nat.zero_add] at hrun

theorem switchExit_frees {proc1 : Nat} (proc2 : Nat) (hw : Leads m (m.space proc1).region0 w)
    (hlt : ∀ j < pageTableLen, (w.read m j).valid = true → (w.read m j).pfn.toNat < m.numPages) :
    ∃ m', switchExit proc1 proc2 m = .ok m' ∧ Returns (frames m w pageTableLen) m m' ∧
      m' = { m with
        freePages := m'.freePages, numFreePages := m'.numFreePages, regPtr0 := (m.space proc2).region0 } := by
  obtain ⟨u, hu, hret, honly⟩ := exitLoop hw (Nat.le_refl _) hlt
  refine ⟨{ u with regPtr0 := (u.space proc2).region0 }, bind_ok.2 ⟨u, hu, rfl⟩, ⟨hret.numPages, hret.marks, hret.count⟩, ?_⟩
  rw [honly.rest]

theorem exitPage_marks {proc : Nat} (h : exitPage proc k m = .ok m') : MarksOnly m m' := by
  obtain ⟨e, -, h⟩ := bind_ok.1 h
  split at h
  case isTrue =>
    obtain ⟨f, -, -, rfl⟩ := freePage_ok.1 h
    exact ⟨rfl⟩
  case isFalse =>
    obtain rfl := Except.ok.inj h
    exact ⟨rfl⟩

/-- Whatever the table of the exiting process holds, no table changes. -/
theorem switchExit_read {proc1 proc2 : Nat} (h : switchExit proc1 proc2 m = .ok m') (w : Word) (j : Nat) :
    w.read m' j = w.read m j := by
  obtain ⟨u, hu, h⟩ := bind_ok.1 h
  obtain rfl := Except.ok.inj h
  have honly : MarksOnly m u := by
    refine upTo_relation MarksOnly (fun _ => ⟨rfl⟩) (fun a b c hab hbc => ⟨?_⟩) (fun _ _ _ _ _ => exitPage_marks) hu
    rw [hbc.rest, hab.rest]
  rw [← honly.read w j]
  cases w <;> rfl

theorem returns_freeList {fs : List Nat} (h : Returns fs m m') (hd : fs.Nodup)
    (hu : ∀ f ∈ fs, f < m.numPages ∧ m.freePages f = .pageUsed) : (freeList m').length = (freeList m).length + fs.length := by
  have hsplit : (freeList m').Perm (freeList m ++ fs) := by
    refine (List.perm_ext_iff_of_nodup (freeList_nodup m') ?_).2 fun f => ?_
    · refine List.nodup_append.2 ⟨freeList_nodup m, hd, ?_⟩
      rintro f hf g hg rfl
      have := (mem_freeList.1 hf).2
      rw [(hu f hg).2] at this
      cases this
    · rw [mem_freeList, List.mem_append, mem_freeList, h.numPages, h.marks]
      by_cases hf : f ∈ fs
      · simp [hf, (hu f hf).1]
      · simp [hf]
  rw [hsplit.length_eq, List.length_append]

def nextProc (idle : Nat) (ps : List Nat) : Nat := ps.head?.getD idle

theorem wake_ready {ps : List Nat} {a : Sched} (hq : Holds a ps) (woken : Ptr) :
    ∃ b, wake woken a = .ok b ∧ Holds b (ps ++ woken.toList) ∧ b.idlePcb = a.idlePcb := by
  cases woken with
  | none => exact ⟨a, rfl, by simpa using hq, rfl⟩
  | some p =>
      obtain ⟨b, l, hb, hh, ho⟩ := holds_push hq p
      refine ⟨b, hb, hh, ?_⟩
      rw [ho.rest]

theorem findReady_next {ps : List Nat} {a : Sched} (hq : Holds a ps) :
    ∃ b, findReadyPcb a = .ok (nextProc a.idlePcb ps, b) ∧ Holds b ps.tail := by
  cases ps with
  | nil => exact ⟨a, holds_pop_empty hq, hq⟩
  | cons p ps =>
      obtain ⟨b, l, hb, hh, -⟩ := holds_pop hq
      exact ⟨b, hb, hh⟩

/-- `ExitFunc` gives back the frames of the process that exits, and goes on with
the head of the ready queue, on which the woken parent is last, or with idle. -/
theorem exit_releases {ps : List Nat} {woken : Ptr} {fam : Family} (status : Int) (info : ExceptionInfo)
    (hq : Holds s.sched ps) (hw : Leads s.mem (s.mem.space s.curr).region0 w) (ho : Owns s.mem w pageTableLen)
    (hl : exitLinks s.curr status s.fam = .ok (woken, fam)) :
    ∃ t, exitFunc status info s = .ok t ∧
      t.curr = nextProc s.sched.idlePcb (ps ++ woken.toList) ∧ Holds t.sched (ps ++ woken.toList).tail ∧
      t.mem.regPtr0 = (s.mem.space t.curr).region0 ∧
      (∀ p, t.mem.freePages p = if p ∈ frames s.mem w pageTableLen then .pageFree else s.mem.freePages p) ∧
      t.mem.numFreePages = s.mem.numFreePages + (frames s.mem w pageTableLen).length ∧
      (frames s.mem w pageTableLen).Nodup ∧
      (freeList t.mem).length = (freeList s.mem).length + (frames s.mem w pageTableLen).length ∧
      t.mem.region1Pt = s.mem.region1Pt ∧ t.mem.space = s.mem.space ∧
      ∀ w' j, Word.read t.mem j w' = Word.read s.mem j w' := by
  obtain ⟨a, ha, hholds, hidle⟩ := wake_ready hq woken
  obtain ⟨b, hb, hheld⟩ := findReady_next hholds
  rw [hidle] at hb
  obtain ⟨m', hm', hret, hrest⟩ :=
    switchExit_frees (nextProc s.sched.idlePcb (ps ++ woken.toList)) hw ho.lt
  have hnodup := frames_nodup ho
  have hfree := returns_freeList hret hnodup fun f hf => by
    obtain ⟨j, hj, hv, rfl⟩ := mem_frames.1 hf
    exact ⟨ho.lt j hj hv, ho.used j hj hv⟩
  have hexit : exitFunc status info s = contextSwitch .exit info
      (switchExit s.curr (nextProc s.sched.idlePcb (ps ++ woken.toList)))
      { s with fam, sched := b, exited := Function.update s.exited s.curr true } := by
    simp only [exitFunc, hl, bind, Except.bind]
    cases woken with
    | none =>
        obtain rfl := Except.ok.inj ha
        simp only [pure, Except.pure, hb]
    | some parent =>
        have hpush : pushProcToQueue parent s.sched = .ok a := ha
        simp only [hpush, hb]
  refine ⟨_, hexit.trans (bind_ok.2 ⟨_, bind_ok.2 ⟨m', hm', rfl⟩, rfl⟩), rfl,
    holds_congr hheld rfl rfl rfl rfl, ?_, hret.marks, hret.count, hnodup, hfree, ?_, ?_, fun w' j => ?_⟩
  · change m'.regPtr0 = _
    rw [hrest]
    rfl
  · change m'.region1Pt = _
    rw [hrest]
  · change m'.space = _
    rw [hrest]
  · change Word.read m' j w' = _
    rw [hrest]
    cases w' <;> rfl

/-- The process that is put on the ready queue is the parent, if it waits. -/
theorem exitLinks_woken {F : Forest} {f fam : Family} {q : Nat} {status : Int} {woken : Ptr} (hr : Represents f F)
    (hq : F.live q) (hl : exitLinks q status f = .ok (woken, fam)) (p : Nat) :
    woken = some p ↔ f.parent q = some p ∧ f.waiting p = true := by
  obtain ⟨woken', fam', hl', -, hwoken, -⟩ := exitLinks_represents hr hq status
  obtain ⟨rfl, -⟩ := Prod.mk.inj (Except.ok.inj (hl.symm.trans hl'))
  rw [hwoken p, hr.parent p q hq]

/-- Process 2 has two pages and exits while 3 is ready. Its parent 1 waits for it. -/
def twoPages : State :=
  { zeroState with
    mem := { zeroState.mem with
      numPages := 600
      freePages := fun p => if p < 20 then .pageUsed else .pageFree
      numFreePages := 580
      region0Pt := fun j => ⟨BitVec.ofNat 20 (j % 20), 0, 3, 3, j = 30 ∨ j = 511⟩
      space := fun _ => ⟨31, 508, .region0Pt, 0⟩ }
    fam := { zeroState.fam with
      count := 4
      nextProcId := 4
      processId := fun p => p
      parent := fun p => if p = 2 then some 1 else none
      childrenHead := fun p => if p = 1 then some 2 else none
      childrenTail := fun p => if p = 1 then some 2 else none
      waiting := fun p => p = 1 }
    sched := { noItems with
      items := { noItems.items with count := 1, proc := fun _ => 3, next := fun _ => none }
      queueHead := some 0
      queueTail := some 0
      queueSize := 1
      currProc := 2 } }

theorem exit_releases_two : ∃ t, exitFunc 0 smallInfo twoPages = .ok t ∧ t.curr = 3 ∧ Holds t.sched [1] ∧
    t.mem.numFreePages = 582 ∧ frames twoPages.mem .static pageTableLen = [10, 11] := by
  have hvalid (j : Nat) (h : (Word.read twoPages.mem j .static).valid = true) : j = 30 ∨ j = 511 := of_decide_eq_true h
  have hframes : frames twoPages.mem .static pageTableLen = [10, 11] := by decide +kernel
  have hitem (a : Nat) (ha : a ∈ [0]) : a < 1 ∧ twoPages.sched.items.freed a = false := by
    obtain rfl := List.mem_singleton.1 ha
    exact ⟨Nat.one_pos, rfl⟩
  have hq : Holds twoPages.sched [3] :=
    ⟨[0], ⟨⟨none, rfl, rfl⟩, fun _ => rfl, rfl, List.nodup_singleton 0, hitem⟩, rfl⟩
  have ho : Owns twoPages.mem .static pageTableLen := by
    refine ⟨fun j _ hv => ?_, fun j _ hv => ?_, fun j _ k _ hv hv' he => ?_⟩
    · rcases hvalid j hv with rfl | rfl <;> decide
    · rcases hvalid j hv with rfl | rfl <;> rfl
    · rcases hvalid j hv with rfl | rfl <;> rcases hvalid k hv' with rfl | rfl <;> first | rfl | exact absurd he (by decide)
  obtain ⟨fam, hl⟩ : ∃ fam, exitLinks 2 0 twoPages.fam = .ok (some 1, fam) := ⟨_, rfl⟩
  obtain ⟨t, ht, hcurr, hheld, -, -, hcount, -⟩ := exit_releases (s := twoPages) 0 smallInfo hq .static ho hl
  rw [hframes] at hcount
  exact ⟨t, ht, hcurr, hheld, hcount, hframes⟩

end Yalnix.ExitFrames
