import Yalnix.Queues
import Yalnix.Chains

namespace Yalnix.ReadyQueue

open Loops Machine Processes Queues Chains

variable {s s' : Sched} {p a b : Nat} {l : List Nat} {ps : List Nat}

/-- The ready queue holds the items `l`. The last one leads anywhere, since
`PushProcToQueue` does not set the `next` of a new item. -/
structure Ready (s : Sched) (l : List Nat) : Prop where
  path : ∃ e, Path s.items.next s.queueHead l e
  tail : l ≠ [] → s.queueTail = l.getLast?
  size : s.queueSize = l.length
  nodup : l.Nodup
  valid : ∀ a ∈ l, a < s.items.count ∧ s.items.freed a = false

structure OnlyReady (l : List Nat) (s s' : Sched) : Prop where
  rest : s' = { s with
    items := s'.items
    queueHead := s'.queueHead
    queueTail := s'.queueTail
    queueSize := s'.queueSize }
  count : s.items.count ≤ s'.items.count
  next : ∀ a, a ∉ l → s'.items.next a = s.items.next a
  prev : ∀ a, a ∉ l → s'.items.prev a = s.items.prev a
  freed : ∀ a, a ∉ l → a < s.items.count → s'.items.freed a = s.items.freed a
  proc : ∀ a, a < s.items.count → s'.items.proc a = s.items.proc a

theorem push_ok (hr : Ready s l) (p : Nat) :
    ∃ s', pushProcToQueue p s = .ok s' ∧ Ready s' (l ++ [s.items.count]) ∧ OnlyReady l s s' ∧
      s'.items.proc s.items.count = p ∧ s'.items.count = s.items.count + 1 := by
  have hfresh : s.items.count ∉ l := fun h => Nat.lt_irrefl _ (hr.valid _ h).1
  have hnodup : (l ++ [s.items.count]).Nodup :=
    List.nodup_append.2 ⟨hr.nodup, List.nodup_singleton _, fun a ha b hb => by
      rintro rfl
      exact hfresh (List.mem_singleton.1 hb ▸ ha)⟩
  have hvalid : ∀ a ∈ l ++ [s.items.count], a < s.items.count + 1 ∧
      Function.update s.items.freed s.items.count false a = false := by
    intro a ha
    by_cases h : a = s.items.count
    · simp [h]
    · rw [Function.update_of_ne h]
      have hal : a ∈ l := by simpa [h] using ha
      exact ⟨Nat.lt_succ_of_lt (hr.valid a hal).1, (hr.valid a hal).2⟩
  have hproc (a : Nat) (ha : a < s.items.count) : Function.update s.items.proc s.items.count p a = s.items.proc a :=
    Function.update_of_ne (Nat.ne_of_lt ha) ..
  have hfreed (a : Nat) (ha : a < s.items.count) :
      Function.update s.items.freed s.items.count false a = s.items.freed a :=
    Function.update_of_ne (Nat.ne_of_lt ha) ..
  by_cases hl : l = []
  · subst hl
    have hsize : s.queueSize = 0 := hr.size
    refine ⟨{ s with
      items := { s.items with
        count := s.items.count + 1
        freed := Function.update s.items.freed s.items.count false
        proc := Function.update s.items.proc s.items.count p }
      queueHead := some s.items.count
      queueTail := some s.items.count
      queueSize := s.queueSize + 1 }, ?_, ⟨⟨_, rfl, rfl⟩, fun _ => rfl, ?_, hnodup, hvalid⟩,
      ⟨rfl, Nat.le_succ _, fun _ _ => rfl, fun _ _ => rfl, fun a _ => hfreed a, hproc⟩, Function.update_self .., rfl⟩
    · simp [pushProcToQueue, Items.alloc, hsize, pure, Except.pure, bind, Except.bind]
    · simp [hsize]
  · obtain ⟨l, t, rfl⟩ := (List.eq_nil_or_concat' l).resolve_left hl
    have htail : s.queueTail = some t := (hr.tail hl).trans (by simp)
    have hsize : s.queueSize ≠ 0 := by rw [hr.size]; simp; omega
    obtain ⟨htlt, htfree⟩ := hr.valid t (by simp)
    obtain ⟨e, hpath⟩ := hr.path
    have hd : ({ s.items with
        count := s.items.count + 1
        freed := Function.update s.items.freed s.items.count false
        proc := Function.update s.items.proc s.items.count p } : Items).deref (some t) = .ok t :=
      items_deref_some (Nat.lt_succ_of_lt htlt) ((hfreed t htlt).trans htfree)
    refine ⟨{ s with
      items := { s.items with
        count := s.items.count + 1
        freed := Function.update s.items.freed s.items.count false
        proc := Function.update s.items.proc s.items.count p
        next := Function.update s.items.next t (some s.items.count) }
      queueTail := some s.items.count
      queueSize := s.queueSize + 1 }, ?_,
      ⟨⟨_, path_push hpath hr.nodup hfresh⟩, fun _ => by simp, ?_, hnodup, hvalid⟩,
      ⟨rfl, Nat.le_succ _, fun a ha => ?_, fun _ _ => rfl, fun a _ => hfreed a, hproc⟩, Function.update_self .., rfl⟩
    · simp only [pushProcToQueue, Items.alloc, hsize, if_false, htail, hd, pure, Except.pure, bind, Except.bind]
    · rw [hr.size]
      simp only [List.length_append, List.length_singleton]
      omega
    · exact Function.update_of_ne (by rintro rfl; simp at ha) ..

theorem pop_ok (hr : Ready s (a :: l)) :
    ∃ s', findReadyPcb s = .ok (s.items.proc a, s') ∧ Ready s' l ∧ OnlyReady (a :: l) s s' ∧
      s'.items.count = s.items.count := by
  obtain ⟨e, hhead, hpath⟩ := hr.path
  obtain ⟨halt, hafree⟩ := hr.valid a List.mem_cons_self
  obtain ⟨hal, hnodup⟩ := List.nodup_cons.1 hr.nodup
  have hsize : s.queueSize ≠ 0 := by rw [hr.size]; simp; omega
  have hd : s.items.deref (some a) = .ok a := items_deref_some halt hafree
  have hvalid (c : Nat) (hc : c ∈ l) : c < s.items.count ∧ Function.update s.items.freed a true c = false := by
    rw [Function.update_of_ne (by rintro rfl; exact hal hc)]
    exact hr.valid c (List.mem_cons_of_mem _ hc)
  have hfreed (c : Nat) (hc : c ∉ a :: l) : Function.update s.items.freed a true c = s.items.freed c :=
    Function.update_of_ne (List.ne_of_not_mem_cons hc) ..
  cases l with
  | nil =>
      have htail : s.queueTail = some a := hr.tail (by simp)
      refine ⟨{ s with
        items := { s.items with freed := Function.update s.items.freed a true }
        queueHead := none
        queueTail := none
        queueSize := s.queueSize - 1 }, ?_, ⟨⟨none, rfl⟩, by simp, ?_, List.nodup_nil, by simp⟩,
        ⟨rfl, Nat.le_refl _, fun _ _ => rfl, fun _ _ => rfl, fun c hc _ => hfreed c hc, fun _ _ => rfl⟩, rfl⟩
      · simp [findReadyPcb, hsize, hhead, htail, hd, removeItemFromReadyQueue, unlinkItem, Items.free, hafree, pure,
          Except.pure, bind, Except.bind]
      · simp [hr.size]
  | cons b l =>
      obtain ⟨hnext, hpath⟩ := hpath
      obtain ⟨hblt, hbfree⟩ := hr.valid b (by simp)
      have hdb : s.items.deref (some b) = .ok b := items_deref_some hblt hbfree
      have htail : s.queueTail = (b :: l).getLast? := (hr.tail (by simp)).trans (List.getLast?_cons_cons ..)
      have hta : s.queueTail ≠ some a := by
        rw [htail]
        exact fun h => hal (List.mem_of_getLast? h)
      refine ⟨{ s with
        items := { s.items with
          freed := Function.update s.items.freed a true
          prev := Function.update s.items.prev b none }
        queueHead := some b
        queueSize := s.queueSize - 1 }, ?_, ⟨⟨e, rfl, hpath⟩, fun _ => htail, ?_, hnodup, hvalid⟩,
        ⟨rfl, Nat.le_refl _, fun _ _ => rfl, fun c hc => ?_, fun c hc _ => hfreed c hc, fun _ _ => rfl⟩, rfl⟩
      · simp [findReadyPcb, hsize, hhead, hta, hd, hnext, hdb, removeItemFromReadyQueue, unlinkItem, Items.free, hafree, pure,
          Except.pure, bind, Except.bind]
      · simp [hr.size]
      · exact Function.update_of_ne (by rintro rfl; simp at hc) ..

theorem pop_empty (hr : Ready s []) : findReadyPcb s = .ok (s.idlePcb, s) := by
  have hsize : s.queueSize = 0 := hr.size
  simp [findReadyPcb, hsize, pure, Except.pure]

theorem setNext_ok (hr : Ready s (a :: l)) :
    ∃ c, pushProcToQueue s.currProc s = .ok c ∧ OnlyReady (a :: l) s c ∧ c.items.proc s.items.count = s.currProc ∧
      setNextProc s = .ok (1, { c with
        currProc := c.items.proc a, queueHead := c.items.next a, queueSize := c.queueSize - 1 }) ∧
      Ready { c with currProc := c.items.proc a, queueHead := c.items.next a, queueSize := c.queueSize - 1 }
        (l ++ [s.items.count]) := by
  obtain ⟨c, hc, hrc, ho, hproc, -⟩ := push_ok hr s.currProc
  obtain ⟨e, hhead, -⟩ := hr.path
  obtain ⟨ec, hheadc, hpathc⟩ := hrc.path
  obtain ⟨hlt, hfree⟩ := hr.valid a List.mem_cons_self
  obtain ⟨hltc, hfreec⟩ := hrc.valid a List.mem_cons_self
  have hsize : s.queueSize ≠ 0 := by
    rw [hr.size]
    simp only [List.length_cons]
    omega
  have hd : s.items.deref s.queueHead = .ok a := by
    rw [hhead]
    exact items_deref_some hlt hfree
  have hdc : c.items.deref c.queueHead = .ok a := by
    rw [hheadc]
    exact items_deref_some hltc hfreec
  refine ⟨c, hc, ho, hproc, ?_, ⟨ec, hpathc⟩, fun hne => ?_, ?_, (List.nodup_cons.1 hrc.nodup).2,
    fun b hb => hrc.valid b (List.mem_cons_of_mem _ hb)⟩
  · simp only [setNextProc, if_neg hsize, hd, hc, hdc, bind, Except.bind, pure, Except.pure]
  · have htail := hrc.tail (by simp)
    obtain ⟨x, l', hxl⟩ := List.exists_cons_of_ne_nil hne
    rw [List.cons_append, hxl, List.getLast?_cons_cons] at htail
    rw [hxl]
    exact htail
  · dsimp only
    rw [hrc.size]
    simp

theorem setNext_empty (hr : Ready s []) : setNextProc s = .ok (-1, s) := by
  have hsize : s.queueSize = 0 := hr.size
  simp [setNextProc, hsize, pure, Except.pure]

/-- No queue items yet, and memory full of links that no one set. -/
def noItems : Sched where
  items := ⟨0, fun _ => false, fun a => some (a + 7), fun _ => 0, fun _ => 0, fun _ => some 3⟩
  queueHead := none
  queueTail := none
  queueSize := 0
  waitingQueueHead := none
  waitingQueueTail := none
  waitingQueueSize := 0
  delayTicks := fun _ => 0
  currProc := 1
  idlePcb := 0
  ticksPassed := 0

def Holds (s : Sched) (ps : List Nat) : Prop := ∃ l, Ready s l ∧ l.map s.items.proc = ps

theorem holds_unique {qs : List Nat} (h : Holds s ps) (h' : Holds s qs) : ps = qs := by
  obtain ⟨l, hl, rfl⟩ := h
  obtain ⟨l', hl', rfl⟩ := h'
  obtain ⟨e, hp⟩ := hl.path
  obtain ⟨e', hp'⟩ := hl'.path
  have hlen : (l.length : Int) = l'.length := hl.size.symm.trans hl'.size
  rw [path_unique_length hp hp' (by omega)]

theorem holds_size (h : Holds s ps) : s.queueSize = ps.length := by
  obtain ⟨l, hl, rfl⟩ := h
  rw [hl.size, List.length_map]

theorem holds_push (h : Holds s ps) (p : Nat) :
    ∃ s' l, pushProcToQueue p s = .ok s' ∧ Holds s' (ps ++ [p]) ∧ OnlyReady l s s' := by
  obtain ⟨l, hr, rfl⟩ := h
  obtain ⟨s', hs', hr', ho, hp, -⟩ := push_ok hr p
  refine ⟨s', l, hs', ⟨_, hr', ?_⟩, ho⟩
  rw [List.map_append, List.map_singleton, hp]
  congr 1
  exact List.map_congr_left fun a ha => ho.proc a (hr.valid a ha).1

theorem holds_pop (h : Holds s (p :: ps)) :
    ∃ s' l, findReadyPcb s = .ok (p, s') ∧ Holds s' ps ∧ OnlyReady l s s' := by
  obtain ⟨l, hr, hl⟩ := h
  obtain ⟨a, l, rfl, rfl, rfl⟩ := List.map_eq_cons_iff.1 hl
  obtain ⟨s', hs', hr', ho, -⟩ := pop_ok hr
  refine ⟨s', _, hs', ⟨l, hr', List.map_congr_left fun c hc => ?_⟩, ho⟩
  exact ho.proc c (hr.valid c (List.mem_cons_of_mem _ hc)).1

theorem holds_pop_empty (h : Holds s []) : findReadyPcb s = .ok (s.idlePcb, s) := by
  obtain ⟨l, hr, hl⟩ := h
  obtain rfl := List.map_eq_nil_iff.1 hl
  exact pop_empty hr

theorem holds_congr (h : Holds s ps) (hi : s'.items = s.items) (hh : s'.queueHead = s.queueHead)
    (ht : s'.queueTail = s.queueTail) (hs : s'.queueSize = s.queueSize) : Holds s' ps := by
  obtain ⟨l, hr, hl⟩ := h
  exact ⟨l, ⟨by rw [hi, hh]; exact hr.path, by rw [ht]; exact hr.tail, by rw [hs]; exact hr.size, hr.nodup,
    by rw [hi]; exact hr.valid⟩, by rw [hi]; exact hl⟩

end Yalnix.ReadyQueue
