import Yalnix.Calls
import Yalnix.ReadyFifo

namespace Yalnix.ReadyRemoval

open Loops Machine Processes Queues Chains Calls ReadyQueue ReadyFifo

variable {s t u : Sched} {a k n p pid : Nat} {l : List Nat} {e x : Ptr} {op : Op} {ops : List Op} {r : Result}
  {rs : List Result} {processId : Nat → Nat} {q : Fifo}

def withFresh (prev next : Nat → Ptr) (s : Sched) : Sched :=
  { s with
    items.prev := fun a => if s.items.count ≤ a then prev a else s.items.prev a
    items.next := fun a => if s.items.count ≤ a then next a else s.items.next a }

def without (processId : Nat → Nat) (p : Nat) (q : Fifo) : Fifo :=
  { q with queue := q.queue.filter fun r => processId r ≠ processId p }

/-- The queue is built by `ops`; after that `RemoveProcFromReadyQueue` takes out the items of `p` and leaves the others. -/
def Removes (processId : Nat → Nat) (p : Nat) (ops : List Op) (s : Sched) : Prop :=
  ∃ rs t l u, run ops s = .ok (rs, t) ∧ removeProcFromReadyQueue p processId t = .ok u ∧
    Represents t l (Fifo.run ops ⟨[], s.currProc, s.idlePcb⟩).2 ∧
    Represents u (l.filter fun a => processId (t.items.proc a) ≠ processId p)
      (without processId p (Fifo.run ops ⟨[], s.currProc, s.idlePcb⟩).2)

/-- The last item, and those that malloc is still to hand out, lead to an address that is no item. -/
structure Wild (n : Nat) (s : Sched) (l : List Nat) : Prop where
  fresh : ∀ a, s.items.count ≤ a → s.items.next a = some n
  last : ∀ a, l.getLast? = some a → s.items.next a = some n

theorem push_wild (hr : Ready s l) (hw : Wild n s l) (h : pushProcToQueue p s = .ok t) :
    Ready t (l ++ [s.items.count]) ∧ Wild n t (l ++ [s.items.count]) ∧ t.items.count = s.items.count + 1 := by
  obtain ⟨t', ht, hrt, ho, -, hcount⟩ := push_ok hr p
  obtain rfl : t' = t := Except.ok.inj (ht.symm.trans h)
  have hfresh (a : Nat) (ha : s.items.count ≤ a) : t'.items.next a = some n :=
    (ho.next a fun hmem => Nat.not_lt_of_le ha (hr.valid a hmem).1).trans (hw.fresh a ha)
  refine ⟨hrt, ⟨fun a ha => hfresh a ?_, fun a ha => hfresh a ?_⟩, hcount⟩
  · omega
  · rw [List.getLast?_concat] at ha
    exact Nat.le_of_eq (Option.some.inj ha)

theorem unlink_head_next {head tail : Ptr} {b c : Items} (h : unlinkItem a (some a) tail b = .ok (head, x, c)) :
    c.next = b.next := by
  unfold unlinkItem at h
  split at h
  case isTrue =>
    obtain ⟨-, -, rfl⟩ := Except.ok.inj h
    rfl
  case isFalse =>
    rw [if_pos rfl] at h
    obtain ⟨new, -, h⟩ := bind_ok.1 h
    obtain ⟨-, -, rfl⟩ := Except.ok.inj h
    rfl

theorem pop_next (hr : Ready s (a :: l)) (h : findReadyPcb s = .ok (p, t)) : t.items.next = s.items.next := by
  have hsize : s.queueSize ≠ 0 := by
    rw [hr.size]
    simp only [List.length_cons]
    omega
  rw [findReadyPcb, if_neg hsize] at h
  obtain ⟨head, hhead, h⟩ := bind_ok.1 h
  obtain ⟨u, hu, h⟩ := bind_ok.1 h
  obtain ⟨-, rfl⟩ := Prod.mk.inj (Except.ok.inj h)
  obtain ⟨⟨new, tail, items⟩, hunlink, hu⟩ := bind_ok.1 hu
  obtain ⟨items', hfree, hu⟩ := bind_ok.1 hu
  obtain rfl := Except.ok.inj hu
  obtain ⟨-, rfl⟩ := free_ok hfree
  rw [(items_deref_ok hhead).1] at hunlink
  have hnext : items.next = s.items.next := unlink_head_next hunlink
  exact hnext

theorem pop_wild (hr : Ready s (a :: l)) (hw : Wild n s (a :: l)) (h : findReadyPcb s = .ok (p, t)) :
    Ready t l ∧ Wild n t l ∧ t.items.count = s.items.count := by
  obtain ⟨t', ht, hrt, -, hcount⟩ := pop_ok hr
  obtain ⟨-, rfl⟩ := Prod.mk.inj (Except.ok.inj (ht.symm.trans h))
  have hnext := pop_next hr h
  refine ⟨hrt, ⟨fun b hb => ?_, fun b hb => ?_⟩, hcount⟩
  · rw [hnext]
    exact hw.fresh b (hcount ▸ hb)
  · rw [hnext]
    refine hw.last b ?_
    rw [List.getLast?_cons, hb]
    rfl

theorem step_wild (hr : Ready s l) (hw : Wild n s l) (h : step op s = .ok (r, t)) :
    ∃ l', Ready t l' ∧ Wild n t l' ∧ t.items.count ≤ s.items.count + 1 := by
  cases op with
  | push p =>
      obtain ⟨t', ht, h⟩ := bind_ok.1 h
      obtain ⟨-, rfl⟩ := Prod.mk.inj (Except.ok.inj h)
      obtain ⟨hrt, hwt, hcount⟩ := push_wild hr hw ht
      exact ⟨_, hrt, hwt, Nat.le_of_eq hcount⟩
  | find =>
      obtain ⟨⟨p, t'⟩, ht, h⟩ := bind_ok.1 h
      obtain ⟨-, rfl⟩ := Prod.mk.inj (Except.ok.inj h)
      cases l with
      | nil =>
          obtain ⟨-, rfl⟩ := Prod.mk.inj (Except.ok.inj ((pop_empty hr).symm.trans ht))
          exact ⟨[], hr, hw, Nat.le_succ _⟩
      | cons a l =>
          obtain ⟨hrt, hwt, hcount⟩ := pop_wild hr hw ht
          exact ⟨l, hrt, hwt, hcount ▸ Nat.le_succ _⟩
  | setNext =>
      obtain ⟨⟨code, t'⟩, ht, h⟩ := bind_ok.1 h
      obtain ⟨-, rfl⟩ := Prod.mk.inj (Except.ok.inj h)
      cases l with
      | nil =>
          obtain ⟨-, rfl⟩ := Prod.mk.inj (Except.ok.inj ((setNext_empty hr).symm.trans ht))
          exact ⟨[], hr, hw, Nat.le_succ _⟩
      | cons a l =>
          obtain ⟨c, hc, -, -, hset, hrt⟩ := setNext_ok hr
          obtain ⟨-, rfl⟩ := Prod.mk.inj (Except.ok.inj (hset.symm.trans ht))
          obtain ⟨-, hwc, hcount⟩ := push_wild hr hw hc
          refine ⟨_, hrt, ⟨hwc.fresh, fun b hb => hwc.last b ?_⟩, Nat.le_of_eq hcount⟩
          rwa [List.cons_append, List.getLast?_cons, List.getLast?_concat] at *

theorem run_wild (hr : Ready s l) (hw : Wild n s l) (h : run ops s = .ok (rs, t)) :
    ∃ l', Ready t l' ∧ Wild n t l' ∧ t.items.count ≤ s.items.count + ops.length := by
  induction ops generalizing s l rs with
  | nil =>
      obtain ⟨-, rfl⟩ := Prod.mk.inj (Except.ok.inj h)
      exact ⟨l, hr, hw, Nat.le_refl _⟩
  | cons op ops ih =>
      obtain ⟨⟨r, u⟩, hu, h⟩ := bind_ok.1 h
      obtain ⟨⟨rs', t'⟩, ht, h⟩ := bind_ok.1 h
      obtain ⟨-, rfl⟩ := Prod.mk.inj (Except.ok.inj h)
      obtain ⟨lu, hru, hwu, hcu⟩ := step_wild hr hw hu
      obtain ⟨lt, hrt, hwt, hct⟩ := ih hru hwu ht
      refine ⟨lt, hrt, hwt, ?_⟩
      rw [List.length_cons]
      omega

theorem walk_faults (hpath : Path s.items.next x l e) (hbad : (∃ a ∈ l, processId (s.items.proc a) = pid) ∨
    ∃ n, e = some n ∧ s.items.count ≤ n) : removeProcLoop pid processId k x s ≠ .ok t := by
  intro h
  induction l generalizing x k with
  | nil =>
      obtain rfl : x = e := hpath
      rcases hbad with ⟨a, ha, -⟩ | ⟨n, rfl, hn⟩
      · cases ha
      · cases k with
        | zero => cases h
        | succ k =>
            obtain ⟨item, hitem, -⟩ := bind_ok.1 h
            obtain ⟨he, hlt, -⟩ := items_deref_ok hitem
            obtain rfl := Option.some.inj he
            omega
  | cons a l ih =>
      obtain ⟨rfl, hpath⟩ := hpath
      cases k with
      | zero => cases h
      | succ k =>
          obtain ⟨item, hitem, h⟩ := bind_ok.1 h
          obtain rfl := Option.some.inj (items_deref_ok hitem).1
          dsimp only at h
          split at h
          case isTrue =>
            obtain ⟨u, hu, h⟩ := bind_ok.1 h
            obtain ⟨item, hitem', -⟩ := bind_ok.1 h
            obtain rfl := Option.some.inj (items_deref_ok hitem').1
            exact removed_deref hu hitem'
          case isFalse hne =>
            obtain ⟨u, hu, h⟩ := bind_ok.1 h
            obtain rfl := Except.ok.inj hu
            obtain ⟨item, hitem', h⟩ := bind_ok.1 h
            obtain rfl := Option.some.inj (items_deref_ok hitem').1
            refine ih hpath (hbad.imp_left fun ⟨b, hb, hpid⟩ => ?_) h
            rcases List.mem_cons.1 hb with rfl | hb
            · exact absurd hpid hne
            · exact ⟨b, hb, hpid⟩

theorem path_last (hpath : Path s.items.next x l e) (hlast : l.getLast? = some a) : s.items.next a = e := by
  obtain ⟨l, rfl⟩ := List.getLast?_eq_some_iff.1 hlast
  obtain ⟨-, -, -, he⟩ := path_append.1 hpath
  exact he

/-- A queue whose last link was never set is not walked to its end. -/
theorem removal_faults (hr : Ready t l) (hw : Wild n t l) (hn : t.items.count ≤ n) (hne : l ≠ []) :
    removeProcFromReadyQueue p processId t ≠ .ok u := by
  obtain ⟨e, hpath⟩ := hr.path
  have hlast := List.getLast?_eq_some_getLast hne
  have he : e = some n := (path_last hpath hlast).symm.trans (hw.last _ hlast)
  exact walk_faults hpath (.inr ⟨n, he, hn⟩)

theorem removal_found (hs : Represents t l q) (hp : ∃ r ∈ q.queue, processId r = processId p) :
    removeProcFromReadyQueue p processId t ≠ .ok u := by
  obtain ⟨e, hpath⟩ := hs.ready.path
  obtain ⟨r, hr, hpid⟩ := hp
  rw [← hs.queue] at hr
  obtain ⟨a, ha, rfl⟩ := List.mem_map.1 hr
  exact walk_faults hpath (.inl ⟨a, ha, hpid⟩)

theorem removal_empty (hs : Represents t [] q) : removeProcFromReadyQueue p processId t = .ok t ∧
    Represents t [] (without processId p q) := by
  have hq : q.queue = [] := hs.queue.symm
  refine ⟨?_, hs.ready, ?_, hs.curr, hs.idle, hs.empty⟩
  · rw [removeProcFromReadyQueue, (hs.empty rfl).1]
    rfl
  · rw [without, hq]
    rfl

/-- From an empty queue, whatever the items still to come hold: the removal does what it is for exactly when the queue
is empty again. When the process is on the queue, it never does. -/
theorem removes_iff (hh : s.queueHead = none) (ht : s.queueTail = none) (hz : s.queueSize = 0) (ops : List Op)
    (processId : Nat → Nat) (p : Nat) :
    ((∀ prev next, Removes processId p ops (withFresh prev next s)) ↔
      (Fifo.run ops ⟨[], s.currProc, s.idlePcb⟩).2.queue = []) ∧
    ((∃ r ∈ (Fifo.run ops ⟨[], s.currProc, s.idlePcb⟩).2.queue, processId r = processId p) →
      ∀ prev next, ¬ Removes processId p ops (withFresh prev next s)) := by
  have hstart (prev next : Nat → Ptr) : Represents (withFresh prev next s) [] ⟨[], s.currProc, s.idlePcb⟩ :=
    represents_empty (s := withFresh prev next s) hh ht hz
  refine ⟨⟨fun hall => ?_, fun hq prev next => ?_⟩, fun hp prev next ⟨rs, t, l, u, _, hrem, hl, _⟩ => removal_found hl hp hrem⟩
  · -- an address that is no item, after as many calls
    obtain ⟨rs, t, l, u, hrun, hrem, hl, -⟩ := hall (fun _ => none) fun _ => some (s.items.count + ops.length)
    have hwild : Wild (s.items.count + ops.length) (withFresh (fun _ => none) (fun _ => some (s.items.count + ops.length)) s) [] :=
      ⟨fun a ha => if_pos ha, nofun⟩
    obtain ⟨l', hr, hw, hcount⟩ := run_wild (hstart _ _).ready hwild hrun
    have hnil : l' = [] := Decidable.byContradiction fun hne => removal_faults hr hw hcount hne hrem
    have hlen : (l.length : Int) = l'.length := hl.ready.size.symm.trans hr.size
    rw [hnil] at hlen
    obtain rfl : l = [] := List.length_eq_zero_iff.1 (Int.ofNat_inj.1 hlen)
    exact hl.queue.symm
  · obtain ⟨t, l, hrun, hl⟩ := run_represents (hstart prev next) ops
    obtain rfl : l = [] := List.map_eq_nil_iff.1 (hl.queue.trans hq)
    have hkept : Represents t [] (without processId p _) := (removal_empty hl).2
    exact ⟨_, t, [], t, hrun, (removal_empty hl).1, hl, hkept⟩

/-- Process 4 is on the queue; process 1, which runs, is not. The walk for 1 follows a link that no one set, the
walk for 4 reads the item it has freed. -/
theorem removal_of_absent_faults : ¬ Removes id 1 [.push 4] noItems ∧ ¬ Removes id 4 [.push 4] noItems ∧
    (run [.push 4] noItems >>= fun rt => removeProcFromReadyQueue 1 id rt.2) = .error .wildDeref ∧
    (run [.push 4] noItems >>= fun rt => removeProcFromReadyQueue 4 id rt.2) = .error .freedDeref := by
  have hwild : (run [.push 4] noItems >>= fun rt => removeProcFromReadyQueue 1 id rt.2) = .error .wildDeref := rfl
  have hfreed : (run [.push 4] noItems >>= fun rt => removeProcFromReadyQueue 4 id rt.2) = .error .freedDeref := rfl
  refine ⟨fun ⟨rs, t, l, u, hrun, hrem, _⟩ => ?_, fun ⟨rs, t, l, u, hrun, hrem, _⟩ => ?_, hwild, hfreed⟩
  · cases hwild.symm.trans (bind_ok.2 ⟨_, hrun, hrem⟩)
  · cases hfreed.symm.trans (bind_ok.2 ⟨_, hrun, hrem⟩)

theorem removes_iff_noItems : Removes id 1 [.push 4, .find] (withFresh (fun _ => some 5) (fun _ => some 9) noItems) ∧
    ¬ Removes id 4 [.push 4] (withFresh (fun _ => none) (fun _ => none) noItems) :=
  ⟨(removes_iff rfl rfl rfl [.push 4, .find] id 1).1.2 rfl _ _,
    (removes_iff rfl rfl rfl [.push 4] id 4).2 ⟨4, List.mem_singleton_self 4, rfl⟩ _ _⟩

end Yalnix.ReadyRemoval
