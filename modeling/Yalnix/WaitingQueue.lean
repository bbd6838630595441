import Yalnix.ReadyQueue

namespace Yalnix.WaitingQueue

open Loops Machine Processes Queues Chains ReadyQueue

variable {s t : Sched} {h : Items} {head tail : Ptr} {l l₁ l₂ : List Nat} {a : Nat}

structure Waits (s : Sched) (l : List Nat) : Prop where
  linked : Linked s.items.next s.items.prev s.waitingQueueHead s.waitingQueueTail l
  size : s.waitingQueueSize = l.length
  valid : ∀ a ∈ l, a < s.items.count ∧ s.items.freed a = false

/-- Wherever the item stands, the links that its removal reads are those of its neighbours. -/
theorem unlinkItem_ok (hl : Linked h.next h.prev head tail (l₁ ++ a :: l₂))
    (hv : ∀ b ∈ l₁ ++ a :: l₂, h.deref (some b) = .ok b) :
    ∃ head' tail' next prev, unlinkItem a head tail h = .ok (head', tail', { h with next, prev }) ∧
      Linked next prev head' tail' (l₁ ++ l₂) := by
  have hnodup := hl.nodup
  have hnext : h.next a = l₂.head? := hl.next_eq
  rcases List.eq_nil_or_concat' l₁ with rfl | ⟨l₁, b, rfl⟩
  · have hhead : head = some a := hl.head_eq
    cases l₂ with
    | nil =>
        have htail : tail = some a := hl.tail_eq
        refine ⟨none, none, h.next, h.prev, ?_, .nil⟩
        rw [unlinkItem, if_pos ⟨hhead, htail⟩]
    | cons c l₂ =>
        have htail : tail ≠ some a := hl.tail_ne
        refine ⟨some c, tail, h.next, Function.update h.prev c none, ?_, hl.popHead⟩
        rw [unlinkItem, if_neg fun hc => htail hc.2, if_pos hhead, hnext, List.head?_cons, hv c (by simp)]
        rfl
  · have hassoc : l₁ ++ [b] ++ a :: l₂ = l₁ ++ b :: a :: l₂ := by simp
    rw [hassoc] at hl hv hnodup
    have hprev : h.prev a = some b := hl.prev_eq
    have hhead : head ≠ some a := hl.head_ne
    cases l₂ with
    | nil =>
        have htail : tail = some a := hl.tail_eq.trans (by simp)
        rw [List.append_nil]
        refine ⟨head, some b, Function.update h.next b none, h.prev, ?_, hl.popTail⟩
        rw [unlinkItem, if_neg fun hc => hhead hc.1, if_neg hhead, if_pos htail, hprev, hv b (by simp)]
        rfl
    | cons c l₂ =>
        have htail : tail ≠ some a := by
          rw [← hassoc] at hl
          exact hl.tail_ne
        have hab : a ≠ b := fun he =>
          (List.nodup_cons.1 (List.nodup_append.1 hnodup).2.1).1 (he ▸ List.mem_cons_self)
        rw [List.append_assoc]
        refine ⟨head, tail, Function.update h.next b (some c), Function.update h.prev c (some b), ?_, hl.unlink⟩
        rw [unlinkItem, if_neg fun hc => hhead hc.1, if_neg hhead, if_neg htail, hprev, hv b (by simp), hnext]
        have hc : ({ h with next := Function.update h.next b (some c) } : Items).deref (some c) = .ok c := hv c (by simp)
        simp only [bind, Except.bind, Function.update_of_ne hab, hnext, List.head?_cons, hc, hprev]
        rfl

theorem remove_ok (hw : Waits s (l₁ ++ a :: l₂)) :
    ∃ t, removeItemFromWaitingQueue a s = .ok t ∧ Waits t (l₁ ++ l₂) := by
  obtain ⟨head', tail', next', prev', hu, hl⟩ :=
    unlinkItem_ok hw.linked fun b hb => items_deref_some (hw.valid b hb).1 (hw.valid b hb).2
  have hd := hw.linked.nodup
  have ha : a ∉ l₁ ++ l₂ := (List.nodup_middle.1 hd |> List.nodup_cons.1).1
  have hfree := (hw.valid a (by simp)).2
  refine ⟨{ s with
    items := { s.items with next := next', prev := prev', freed := Function.update s.items.freed a true }
    waitingQueueHead := head'
    waitingQueueTail := tail'
    waitingQueueSize := s.waitingQueueSize - 1 }, ?_, hl, ?_, fun b hb => ?_⟩
  · rw [removeItemFromWaitingQueue, hu]
    simp only [Items.free, hfree, bind, Except.bind, pure, Except.pure]
    rfl
  · dsimp only
    rw [hw.size]
    simp only [List.length_append, List.length_cons]
    omega
  · have hb' := hw.valid b (by simp at hb ⊢; tauto)
    refine ⟨hb'.1, ?_⟩
    exact (Function.update_of_ne (by rintro rfl; exact ha hb) ..).trans hb'.2

/-- malloc of an item, whose `prev` is whatever was there, before it is put on the delay queue. -/
def fresh (proc : Nat) (left : Ptr) (s : Sched) : Nat × Sched :=
  let (new, items) := s.items.alloc proc
  (new, { s with items := { items with prev := Function.update items.prev new left } })

def pushFresh (proc : Nat) (left : Ptr) (s : Sched) : Except Fault Sched :=
  pushItemToWaitingQueue (fresh proc left s).1 (fresh proc left s).2

theorem push_ok (hw : Waits s l) (proc : Nat) (left : Ptr) :
    ∃ t, pushFresh proc left s = .ok t ∧ Waits t (l ++ [s.items.count]) := by
  have hnew : s.items.count ∉ l := fun h => Nat.lt_irrefl _ (hw.valid _ h).1
  have hne {b : Nat} (hb : b ∈ l) : b ≠ s.items.count := fun he => hnew (he ▸ hb)
  have hvalid : ∀ b ∈ l ++ [s.items.count], b < s.items.count + 1 ∧
      Function.update s.items.freed s.items.count false b = false := by
    intro b hb
    rcases List.mem_append.1 hb with hb | hb
    · rw [Function.update_of_ne (hne hb)]
      exact ⟨Nat.lt_succ_of_lt (hw.valid b hb).1, (hw.valid b hb).2⟩
    · rw [List.mem_singleton.1 hb]
      exact ⟨Nat.lt_succ_self _, Function.update_self ..⟩
  have hsize : s.waitingQueueSize + 1 = (l ++ [s.items.count]).length := by
    rw [hw.size]
    simp
  have hlinked : Linked (Function.update s.items.next s.items.count none)
      (Function.update s.items.prev s.items.count left) s.waitingQueueHead s.waitingQueueTail l :=
    hw.linked.congr (fun b hb => Function.update_of_ne (hne hb) ..) fun b hb => Function.update_of_ne (hne hb) ..
  rcases List.eq_nil_or_concat' l with rfl | ⟨l, b, rfl⟩
  · have hz : s.waitingQueueSize = 0 := hw.size
    refine ⟨{ s with
      items := { s.items with
        count := s.items.count + 1
        freed := Function.update s.items.freed s.items.count false
        proc := Function.update s.items.proc s.items.count proc
        prev := Function.update s.items.prev s.items.count left
        next := Function.update s.items.next s.items.count none }
      waitingQueueHead := some s.items.count
      waitingQueueTail := some s.items.count
      waitingQueueSize := s.waitingQueueSize + 1 }, ?_, .single (Function.update_self ..), hsize, hvalid⟩
    simp only [pushFresh, fresh, Items.alloc, pushItemToWaitingQueue, hz, if_true, bind, Except.bind, pure, Except.pure]
  · have hz : s.waitingQueueSize ≠ 0 := by
      rw [hw.size]
      simp
      omega
    have htail : s.waitingQueueTail = some b := hw.linked.tail_eq.trans (by simp)
    obtain ⟨hblt, hbfree⟩ := hvalid b (by simp)
    have hb : ({ s.items with
        count := s.items.count + 1
        freed := Function.update s.items.freed s.items.count false
        proc := Function.update s.items.proc s.items.count proc
        prev := Function.update s.items.prev s.items.count left
        next := Function.update s.items.next s.items.count none } : Items).deref (some b) = .ok b :=
      items_deref_some hblt hbfree
    rw [htail] at hlinked
    refine ⟨{ s with
      items := { s.items with
        count := s.items.count + 1
        freed := Function.update s.items.freed s.items.count false
        proc := Function.update s.items.proc s.items.count proc
        prev := Function.update (Function.update s.items.prev s.items.count left) s.items.count (some b)
        next := Function.update (Function.update s.items.next s.items.count none) b (some s.items.count) }
      waitingQueueTail := some s.items.count
      waitingQueueSize := s.waitingQueueSize + 1 }, ?_, hlinked.push hnew (Function.update_self ..), hsize, hvalid⟩
    simp only [pushFresh, fresh, Items.alloc, pushItemToWaitingQueue, hz, if_false, htail, hb, bind, Except.bind, pure,
      Except.pure]

/-- What any pushes and removals from an empty queue lead to, with the items
that were pushed and not yet removed, in the order in which they were pushed. -/
inductive Run : Sched → List Nat → Prop
  | empty {s : Sched} : s.waitingQueueHead = none → s.waitingQueueTail = none → s.waitingQueueSize = 0 → Run s []
  | push {s t : Sched} {l : List Nat} {proc : Nat} {left : Ptr} :
      Run s l → pushFresh proc left s = .ok t → Run t (l ++ [(fresh proc left s).1])
  | remove {s t : Sched} {l : List Nat} {a : Nat} :
      Run s l → a ∈ l → removeItemFromWaitingQueue a s = .ok t → Run t (l.erase a)

theorem remove_erase (hw : Waits s l) (ha : a ∈ l) : ∃ t, removeItemFromWaitingQueue a s = .ok t ∧ Waits t (l.erase a) := by
  obtain ⟨l₁, l₂, rfl⟩ := List.append_of_mem ha
  have hd := (List.nodup_cons.1 (List.nodup_middle.1 hw.linked.nodup)).1
  have ha₁ : a ∉ l₁ := fun h => hd (List.mem_append_left _ h)
  rw [List.erase_append_right _ ha₁, List.erase_cons_head]
  exact remove_ok hw

theorem run_waits (h : Run s l) : Waits s l := by
  induction h with
  | @empty s hhead htail hsize =>
      refine ⟨?_, hsize, nofun⟩
      rw [hhead, htail]
      exact .nil
  | push _ ht ih =>
      obtain ⟨t, ht', hw⟩ := push_ok ih _ _
      obtain rfl := Except.ok.inj (ht.symm.trans ht')
      exact hw
  | remove _ ha ht ih =>
      obtain ⟨t, ht', hw⟩ := remove_erase ih ha
      obtain rfl := Except.ok.inj (ht.symm.trans ht')
      exact hw

/-- After any pushes and removals the delay queue links what is left of the
pushed items in order, and the next push or removal does not fault. -/
theorem delay_queue_represents (h : Run s l) :
    Path s.items.next s.waitingQueueHead l none ∧ s.waitingQueueTail = l.getLast? ∧ l.Nodup ∧
      (∀ a ∈ l, ∀ b, s.items.next a = some b → b ∈ l ∧ s.items.prev b = some a) ∧
      (∀ b ∈ l, s.waitingQueueHead ≠ some b → ∃ a ∈ l, s.items.prev b = some a ∧ s.items.next a = some b) ∧
      s.waitingQueueSize = l.length ∧
      (s.waitingQueueHead = none ↔ s.waitingQueueSize = 0) ∧ (s.waitingQueueTail = none ↔ s.waitingQueueSize = 0) ∧
      (∀ proc left, ∃ t, pushFresh proc left s = .ok t) ∧
      ∀ a ∈ l, ∃ t, removeItemFromWaitingQueue a s = .ok t := by
  have hw := run_waits h
  have hempty : s.waitingQueueSize = 0 ↔ l = [] := by
    rw [hw.size, Int.natCast_eq_zero, List.length_eq_zero_iff]
  refine ⟨hw.linked.forward, hw.linked.tail_eq, hw.linked.nodup, fun a ha b hb => hw.linked.prev_of_next ha hb,
    fun b hb hne => hw.linked.next_of_prev hb hne, hw.size, ?_, ?_, fun proc left => ?_, fun a ha => ?_⟩
  · rw [hempty, hw.linked.head_eq, List.head?_eq_none_iff]
  · rw [hempty, hw.linked.tail_eq, List.getLast?_eq_none_iff]
  · obtain ⟨t, ht, -⟩ := push_ok hw proc left
    exact ⟨t, ht⟩
  · obtain ⟨t, ht, -⟩ := remove_erase hw ha
    exact ⟨t, ht⟩

theorem delay_queue_represents_second :
    ∃ s, Run s [1] ∧ Path s.items.next s.waitingQueueHead [1] none ∧ s.waitingQueueSize = 1 := by
  have hrun : Run _ [0, 1] :=
    .push (.push (.empty rfl rfl rfl) (rfl : pushFresh 4 (some 9) noItems = .ok _)) (rfl : pushFresh 5 none _ = .ok _)
  have hrun' : Run _ [1] := .remove hrun (by decide) (rfl : removeItemFromWaitingQueue 0 _ = .ok _)
  obtain ⟨hpath, -, -, -, -, hsize, -⟩ := delay_queue_represents hrun'
  exact ⟨_, hrun', hpath, hsize⟩

end Yalnix.WaitingQueue
