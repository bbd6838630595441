import Yalnix.FamilyTree
import Yalnix.Runs

namespace Yalnix.ExitQueue

open Loops Machine Processes Chains FamilyTree

variable {p : Nat} {f f' : Family}

/-- What the kernel does to the exit records of a process: a fresh record at the
end, or the first one away. -/
inductive Op
  | push (processId : Nat) (status : Int)
  | remove

def fresh (processId : Nat) (status : Int) (f : Family) : Family :=
  { f with
    records.count := f.records.count + 1
    records.freed := Function.update f.records.freed f.records.count false
    records.processId := Function.update f.records.processId f.records.count processId
    records.status := Function.update f.records.status f.records.count status }

def apply (p : Nat) (f : Family) : Op → Except Fault Family
  | .push processId status => pushExitToExited f.records.count p (fresh processId status f)
  | .remove => removeHeadFromExitQueue p f

def run (p : Nat) (ops : List Op) (f : Family) : Except Fault Family := ops.foldlM (apply p) f

structure Report where
  record : Nat
  processId : Nat
  status : Int

structure Fifo where
  queue : List Report
  taken : List Report
  count : Nat

def Fifo.step (a : Fifo) : Op → Fifo
  | .push processId status => { a with queue := a.queue ++ [⟨a.count, processId, status⟩], count := a.count + 1 }
  | .remove => { a with queue := a.queue.tail, taken := a.taken ++ a.queue.take 1 }

def Fifo.start (count : Nat) : Fifo := ⟨[], [], count⟩

def Fifo.after (a : Fifo) (ops : List Op) : Fifo := ops.foldl Fifo.step a

/-- Following the links from the head of `p` visits the records of the queue in order, and ends at the tail. -/
structure Queued (p : Nat) (a : Fifo) (f : Family) : Prop where
  linked : Linked f.records.next f.records.prev (f.exitedChildrenHead p) (f.exitedChildrenTail p) (a.queue.map Report.record)
  held : ∀ r ∈ a.queue, r.record < f.records.count ∧ f.records.freed r.record = false ∧
    f.records.processId r.record = r.processId ∧ f.records.status r.record = r.status
  taken : ∀ r ∈ a.taken, r.record < f.records.count ∧ f.records.freed r.record = true
  count : f.records.count = a.count

def Spared : Fifo → List Op → Prop
  | _, [] => True
  | a, .push processId status :: ops => Spared (a.step (.push processId status)) ops
  | a, .remove :: ops => a.queue.length ≠ 1 ∧ Spared (a.step .remove) ops

variable {a : Fifo} {r s : Report} {rs : List Report} {ops : List Op}

namespace Queued

theorem head_none (h : Queued p a f) (hq : a.queue = []) : f.exitedChildrenHead p = none ∧ f.exitedChildrenTail p = none := by
  have hl := h.linked
  rw [hq] at hl
  exact ⟨hl.head_eq, hl.tail_eq⟩

theorem head_some (h : Queued p a f) (hq : a.queue = r :: rs) : f.exitedChildrenHead p = some r.record := by
  have hl := h.linked
  rw [hq] at hl
  exact hl.head_eq

theorem deref (h : Queued p a f) (hr : r ∈ a.queue) : f.records.deref (some r.record) = .ok r.record :=
  have hheld := h.held r hr
  records_deref_some hheld.1 hheld.2.1

theorem fresh_notMem (h : Queued p a f) : f.records.count ∉ a.queue.map Report.record := fun hmem => by
  obtain ⟨r, hr, he⟩ := List.mem_map.1 hmem
  exact Nat.ne_of_lt (h.held r hr).1 he

theorem held_fresh (h : Queued p a f) (processId : Nat) (status : Int) :
    ∀ r ∈ a.queue ++ [⟨f.records.count, processId, status⟩], r.record < (fresh processId status f).records.count ∧
      (fresh processId status f).records.freed r.record = false ∧
      (fresh processId status f).records.processId r.record = r.processId ∧
      (fresh processId status f).records.status r.record = r.status := by
  intro r hr
  rcases List.mem_append.1 hr with hr | hr
  · obtain ⟨hlt, hheld⟩ := h.held r hr
    have hne : r.record ≠ f.records.count := Nat.ne_of_lt hlt
    refine ⟨Nat.lt_succ_of_lt hlt, ?_⟩
    simp only [fresh, Function.update_of_ne hne]
    exact hheld
  · obtain rfl := List.mem_singleton.1 hr
    refine ⟨Nat.lt_succ_self _, ?_⟩
    simp only [fresh, Function.update_self, and_self]

theorem taken_fresh (h : Queued p a f) (processId : Nat) (status : Int) :
    ∀ r ∈ a.taken, r.record < (fresh processId status f).records.count ∧
      (fresh processId status f).records.freed r.record = true := by
  intro r hr
  obtain ⟨hlt, hfreed⟩ := h.taken r hr
  exact ⟨Nat.lt_succ_of_lt hlt, (Function.update_of_ne (Nat.ne_of_lt hlt) ..).trans hfreed⟩

theorem push (h : Queued p a f) (processId : Nat) (status : Int) :
    ∃ f', apply p f (.push processId status) = .ok f' ∧ Queued p (a.step (.push processId status)) f' := by
  have hheld := h.held_fresh processId status
  have htaken := h.taken_fresh processId status
  have hcount : f.records.count + 1 = a.count + 1 := congrArg (· + 1) h.count
  rcases List.eq_nil_or_concat' a.queue with hq | ⟨qs, last, hq⟩
  · refine ⟨{ fresh processId status f with
      exitedChildrenHead := Function.update f.exitedChildrenHead p (some f.records.count)
      exitedChildrenTail := Function.update f.exitedChildrenTail p (some f.records.count)
      records.next := Function.update f.records.next f.records.count none }, ?_, ?_, ?_, htaken, hcount⟩
    · have hhead : (fresh processId status f).exitedChildrenHead p = none := (h.head_none hq).1
      simp only [apply, pushExitToExited, hhead, Option.isNone_none, if_true]
      rfl
    · have hself : Function.update f.records.next f.records.count none f.records.count = none := Function.update_self ..
      simp only [Fifo.step, hq, ← h.count, Function.update_self]
      exact Linked.single hself
    · rw [Fifo.step, ← h.count]
      exact hheld
  · have hlast : last ∈ a.queue := by simp [hq]
    have hhead : (fresh processId status f).exitedChildrenHead p ≠ none := by
      intro hnone
      have := h.linked.head_eq.symm.trans hnone
      simp [hq] at this
    have htail : f.exitedChildrenTail p = some last.record := by
      rw [h.linked.tail_eq, hq, List.map_append, List.map_singleton, List.getLast?_concat]
    have hlinked : Linked (Function.update f.records.next f.records.count none) f.records.prev (f.exitedChildrenHead p)
        (some last.record) (a.queue.map Report.record) := by
      rw [← htail]
      refine h.linked.congr (fun b hb => Function.update_of_ne ?_ ..) fun _ _ => rfl
      rintro rfl
      exact h.fresh_notMem hb
    refine ⟨{ fresh processId status f with
      exitedChildrenTail := Function.update f.exitedChildrenTail p (some f.records.count)
      records.next := Function.update (Function.update f.records.next f.records.count none) last.record (some f.records.count)
      records.prev := Function.update f.records.prev f.records.count (some last.record) }, ?_, ?_, ?_, htaken, hcount⟩
    · have hold := hheld last (List.mem_append_left _ hlast)
      have hderef : (fresh processId status f).records.deref (some last.record) = .ok last.record :=
        records_deref_some hold.1 hold.2.1
      have htail' : (fresh processId status f).exitedChildrenTail p = some last.record := htail
      simp only [apply, pushExitToExited, Option.isNone_iff_eq_none, hhead, if_false, htail']
      exact congrArg (· >>= _) hderef
    · have hpush := hlinked.push h.fresh_notMem (Function.update_self ..)
      simp only [Fifo.step, ← h.count, Function.update_self, List.map_append, List.map_singleton]
      exact hpush
    · rw [Fifo.step, ← h.count]
      exact hheld

theorem remove_nil (h : Queued p a f) (hq : a.queue = []) : apply p f .remove = .ok f ∧ a.step .remove = a := by
  constructor
  · rw [apply, removeHeadFromExitQueue, (h.head_none hq).1]
    rfl
  · cases a
    cases hq
    simp [Fifo.step]

/-- Of the last record the link is taken for the new head, and it is NULL. -/
theorem remove_last (h : Queued p a f) (hq : a.queue = [r]) : apply p f .remove = .error .nullDeref := by
  have hl := h.linked
  rw [hq] at hl
  have htail : f.exitedChildrenTail p = some r.record := hl.tail_eq
  have hnext : f.records.next r.record = none := hl.forward.2
  have hderef := h.deref (hq ▸ List.mem_singleton_self r)
  have hnull : f.records.deref none = .error .nullDeref := rfl
  simp only [apply, removeHeadFromExitQueue, h.head_some hq, htail, hderef, ok_bind, if_true, hnext, Function.update_self, hnull]
  rfl

theorem remove_cons (h : Queued p a f) (hq : a.queue = r :: s :: rs) :
    ∃ f', apply p f .remove = .ok f' ∧ Queued p (a.step .remove) f' := by
  have hl := h.linked
  rw [hq] at hl
  have hnodup := hl.nodup
  have hne : f.exitedChildrenTail p ≠ some r.record := by
    rw [List.map_cons, ← List.nil_append (r.record :: _)] at hl
    exact hl.tail_ne
  have hnext : f.records.next r.record = some s.record := hl.forward.2.1
  have hr : r ∈ a.queue := by simp [hq]
  have hs : s ∈ a.queue := by simp [hq]
  have hderef := h.deref hr
  have hderef' := h.deref hs
  refine ⟨{ f with
    exitedChildrenHead := Function.update f.exitedChildrenHead p (some s.record)
    records.prev := Function.update f.records.prev s.record none
    records.freed := Function.update f.records.freed r.record true }, ?_, ?_, fun t ht => ?_, fun t ht => ?_, h.count⟩
  · simp only [apply, removeHeadFromExitQueue, h.head_some hq, hderef, ok_bind, hne.symm, if_false, hnext, Function.update_self, hderef']
    rfl
  · simp only [Fifo.step, hq, List.tail_cons, List.map_cons, Function.update_self]
    exact hl.popHead
  · simp only [Fifo.step, hq, List.tail_cons] at ht
    obtain ⟨hlt, hfreed, hheld⟩ := h.held t (hq ▸ List.mem_cons_of_mem _ ht)
    have htr : t.record ≠ r.record := by
      rintro he
      exact (List.nodup_cons.1 hnodup).1 (List.mem_map.2 ⟨t, ht, he⟩)
    exact ⟨hlt, (Function.update_of_ne htr ..).trans hfreed, hheld⟩
  · simp only [Fifo.step, hq, List.take_succ_cons, List.take_zero, List.mem_append, List.mem_singleton] at ht
    rcases ht with ht | rfl
    · obtain ⟨hlt, hfreed⟩ := h.taken t ht
      refine ⟨hlt, ?_⟩
      dsimp only
      rw [Function.update_apply, hfreed, ite_self]
    · exact ⟨(h.held t hr).1, Function.update_self ..⟩

end Queued

theorem run_iff (h : Queued p a f) : (∃ f', run p ops f = .ok f' ∧ Queued p (a.after ops) f') ↔ Spared a ops := by
  induction ops generalizing a f with
  | nil => exact iff_of_true ⟨f, rfl, h⟩ True.intro
  | cons o ops ih =>
      have hrun : run p (o :: ops) f = apply p f o >>= run p ops := List.foldlM_cons
      have hafter : a.after (o :: ops) = (a.step o).after ops := rfl
      rw [hrun, hafter]
      have hgo : ∀ f', apply p f o = .ok f' → Queued p (a.step o) f' →
          ((∃ t, apply p f o >>= run p ops = .ok t ∧ Queued p ((a.step o).after ops) t) ↔ Spared (a.step o) ops) := by
        intro f' hf' hq
        rw [hf']
        exact ih hq
      cases o with
      | push processId status =>
          obtain ⟨f', hf', hq⟩ := h.push processId status
          exact hgo f' hf' hq
      | remove =>
          rcases hq : a.queue with _ | ⟨r, _ | ⟨s, rs⟩⟩
          · obtain ⟨hf', hstep⟩ := h.remove_nil hq
            rw [hgo f hf' (hstep.symm ▸ h)]
            exact (and_iff_right (by simp [hq])).symm
          · rw [h.remove_last hq]
            refine iff_of_false ?_ fun hspared => hspared.1 (by simp [hq])
            rintro ⟨t, ht, -⟩
            cases ht
          · obtain ⟨f', hf', hq'⟩ := h.remove_cons hq
            rw [hgo f' hf' hq']
            exact (and_iff_right (by simp [hq])).symm

theorem start_queued (hhead : f.exitedChildrenHead p = none) (htail : f.exitedChildrenTail p = none) :
    Queued p (.start f.records.count) f := by
  refine ⟨?_, fun r hr => ?_, fun r hr => ?_, rfl⟩
  · rw [hhead, htail]
    exact .nil
  · cases hr
  · cases hr

/-- The exit records of a new parent. -/
theorem exit_queue_iff (hhead : f.exitedChildrenHead p = none) (htail : f.exitedChildrenTail p = none) :
    (∃ f', run p ops f = .ok f' ∧ Queued p ((Fifo.start f.records.count).after ops) f') ↔
      Spared (.start f.records.count) ops :=
  run_iff (start_queued hhead htail)

theorem only_record_faults : run 0 [.push 1 0, .remove] (createPcb Runs.zeroState.fam).2 = .error .nullDeref ∧
    ¬ ∃ f', run 0 [.push 1 0, .remove] (createPcb Runs.zeroState.fam).2 = .ok f' ∧
      Queued 0 ((Fifo.start 0).after [.push 1 0, .remove]) f' := by
  have h : run 0 [.push 1 0, .remove] (createPcb Runs.zeroState.fam).2 = .error .nullDeref := rfl
  refine ⟨h, fun ⟨f', hf', _⟩ => ?_⟩
  rw [h] at hf'
  cases hf'

theorem exit_queue_iff_small : ∃ f', run 0 [.remove, .push 1 0, .push 2 7, .remove, .push 3 0] (createPcb Runs.zeroState.fam).2 = .ok f' ∧
    Queued 0 ⟨[⟨1, 2, 7⟩, ⟨2, 3, 0⟩], [⟨0, 1, 0⟩], 3⟩ f' :=
  (exit_queue_iff rfl rfl).2 ⟨by decide, by decide, True.intro⟩

end Yalnix.ExitQueue
