import Yalnix.Processes
import Yalnix.Chains
import Yalnix.Forests

namespace Yalnix.FamilyTree

open Loops Machine Processes Chains Forests

variable {f f' : Family} {F : Forest} {p q c : Nat} {l : List Nat}

theorem deref_some (hp : p < f.count) : f.deref (some p) = .ok p := by
  simp [Family.deref, Processes.deref, hp]

theorem records_deref_some {r : Records} {a : Nat} (ha : a < r.count) (hf : r.freed a = false) :
    r.deref (some a) = .ok a := by
  simp [Records.deref, Processes.deref, ha, hf]

structure Relinked (p : Nat) (l : List Nat) (f f' : Family) : Prop where
  rest : f' = { f with
    childrenHead := f'.childrenHead
    childrenTail := f'.childrenTail
    nextSibling := f'.nextSibling
    prevSibling := f'.prevSibling }
  ends : ∀ r, r ≠ p → f'.childrenHead r = f.childrenHead r ∧ f'.childrenTail r = f.childrenTail r
  links : ∀ a, a ∉ l → f'.nextSibling a = f.nextSibling a ∧ f'.prevSibling a = f.prevSibling a

def Children (f : Family) (p : Nat) (l : List Nat) : Prop :=
  DoublyLinked f.nextSibling f.prevSibling (f.childrenHead p) (f.childrenTail p) l

theorem removeChild_only (hl : Children f p [q]) :
    ∃ f', removeChildFromParent q p f = .ok f' ∧ Relinked p [q] f f' ∧ Children f' p [] ∧
      f'.nextSibling q = none := by
  have hh : f.childrenHead p = some q := hl.head_eq
  have ht : f.childrenTail p = some q := hl.tail_eq
  refine ⟨{ f with
    childrenHead := Function.update f.childrenHead p none
    childrenTail := Function.update f.childrenTail p none
    nextSibling := Function.update f.nextSibling q none
    prevSibling := Function.update f.prevSibling q none }, ?_, ⟨rfl, ?_, ?_⟩, ?_, ?_⟩
  · simp only [removeChildFromParent, hh, ht, and_self, if_true]
    rfl
  · intro r hr
    simp [Function.update_of_ne hr]
  · intro a ha
    simp [Function.update_of_ne (List.ne_of_not_mem_cons ha)]
  · simpa [Children] using DoublyLinked.nil
  · simp

theorem removeChild_head {l₂ : List Nat} (hl : Children f p (q :: c :: l₂)) (hc : c < f.count) :
    ∃ f', removeChildFromParent q p f = .ok f' ∧ Relinked p (q :: c :: l₂) f f' ∧ Children f' p (c :: l₂) ∧
      f'.nextSibling = f.nextSibling := by
  have hd := hl.nodup
  have hh : f.childrenHead p = some q := hl.head_eq
  have hn : f.nextSibling q = some c := hl.next_head
  have ht : f.childrenTail p ≠ some q := by
    rw [hl.tail_eq, List.getLast?_cons_cons]
    intro h
    exact (List.nodup_cons.1 hd).1 (List.mem_of_getLast? h)
  refine ⟨{ f with
    childrenHead := Function.update f.childrenHead p (some c)
    prevSibling := Function.update f.prevSibling c none }, ?_, ⟨rfl, ?_, ?_⟩, ?_, rfl⟩
  · simp only [removeChildFromParent, hh, ht, and_false, if_false, if_true, hn, deref_some hc]
    rfl
  · intro r hr
    simp [Function.update_of_ne hr]
  · intro a ha
    have hac : a ≠ c := by rintro rfl; simp at ha
    simp [Function.update_of_ne hac]
  · simpa [Children] using hl.popHead

theorem removeChild_tail {l₁ : List Nat} (hl : Children f p (l₁ ++ [c, q])) (hc : c < f.count) :
    ∃ f', removeChildFromParent q p f = .ok f' ∧ Relinked p (l₁ ++ [c, q]) f f' ∧ Children f' p (l₁ ++ [c]) ∧
      f'.nextSibling q = none := by
  have hd := hl.nodup
  have hqc : q ≠ c := by rintro rfl; simp [List.nodup_append] at hd
  have hn : f.nextSibling q = none := by
    have h := hl
    rw [show l₁ ++ [c, q] = (l₁ ++ [c]) ++ [q] by simp] at h
    exact h.next_eq
  have hp : f.prevSibling q = some c := by
    have h := hl
    rw [show l₁ ++ [c, q] = (l₁ ++ [c]) ++ [q] by simp] at h
    exact h.prev_eq.trans (by simp)
  have hh : f.childrenHead p ≠ some q := by
    rw [hl.head_eq]
    cases l₁ with
    | nil => simpa using hqc.symm
    | cons a l₁ =>
        have : a ≠ q := by rintro rfl; simp at hd
        simpa using this
  have ht : f.childrenTail p = some q := hl.tail_eq.trans (by simp)
  refine ⟨{ f with
    childrenTail := Function.update f.childrenTail p (some c)
    nextSibling := Function.update f.nextSibling c none }, ?_, ⟨rfl, ?_, ?_⟩, ?_, ?_⟩
  · simp only [removeChildFromParent, hh, ht, false_and, if_false, if_true, hp, deref_some hc]
    rfl
  · intro r hr
    simp [Function.update_of_ne hr]
  · intro a ha
    have hac : a ≠ c := by rintro rfl; simp at ha
    simp [Function.update_of_ne hac]
  · simpa [Children] using hl.popTail
  · simpa [Function.update_of_ne hqc] using hn

theorem removeChild_middle {l₁ l₂ : List Nat} {b : Nat} (hl : Children f p (l₁ ++ b :: q :: c :: l₂))
    (hb : b < f.count) (hc : c < f.count) :
    ∃ f', removeChildFromParent q p f = .ok f' ∧ Relinked p (l₁ ++ b :: q :: c :: l₂) f f' ∧
      Children f' p (l₁ ++ b :: c :: l₂) ∧ f'.nextSibling q = some c := by
  have hd := hl.nodup
  have hqb : q ≠ b := by rintro rfl; simp [List.nodup_append] at hd
  have hqc : q ≠ c := by rintro rfl; simp [List.nodup_append] at hd
  have hn : f.nextSibling q = some c := by
    have h := hl
    rw [show l₁ ++ b :: q :: c :: l₂ = (l₁ ++ [b]) ++ q :: c :: l₂ by simp] at h
    exact h.next_eq
  have hp : f.prevSibling q = some b := by
    have h := hl
    rw [show l₁ ++ b :: q :: c :: l₂ = (l₁ ++ [b]) ++ q :: c :: l₂ by simp] at h
    exact h.prev_eq.trans (by simp)
  have hh : f.childrenHead p ≠ some q := by
    rw [hl.head_eq]
    cases l₁ with
    | nil => simpa using hqb.symm
    | cons a l₁ =>
        have : a ≠ q := by rintro rfl; simp at hd
        simpa using this
  have ht : f.childrenTail p ≠ some q := by
    rw [hl.tail_eq, show l₁ ++ b :: q :: c :: l₂ = (l₁ ++ [b, q]) ++ c :: l₂ by simp, List.getLast?_append]
    intro h
    have hq : q ∈ c :: l₂ := by
      cases hg : (c :: l₂).getLast? with
      | none => simp at hg
      | some x =>
          rw [hg] at h
          exact Option.some.inj h ▸ List.mem_of_getLast? hg
    rw [List.nodup_append] at hd
    simp only [List.nodup_cons] at hd
    exact hd.2.1.2.1 hq
  refine ⟨{ f with
    nextSibling := Function.update f.nextSibling b (some c)
    prevSibling := Function.update f.prevSibling c (some b) }, ?_, ⟨rfl, ?_, ?_⟩, ?_, ?_⟩
  · have hnb : Function.update f.nextSibling b (some c) q = some c := by rw [Function.update_of_ne hqb, hn]
    have hdc : ({ f with nextSibling := Function.update f.nextSibling b (some c) } : Family).deref (some c) = .ok c :=
      deref_some hc
    simp only [removeChildFromParent, hh, ht, false_and, if_false, hp, hn, deref_some hb, bind, Except.bind, hnb, hdc]
    rfl
  · intro r hr
    exact ⟨rfl, rfl⟩
  · intro a ha
    have hab : a ≠ b := by rintro rfl; simp at ha
    have hac : a ≠ c := by rintro rfl; simp at ha
    simp [Function.update_of_ne hab, Function.update_of_ne hac]
  · have hu : DoublyLinked _ _ _ _ _ := hl.unlink
    simpa [Children, hp] using hu
  · simpa [Function.update_of_ne hqb] using hn

/-- The four cases of `RemoveChildFromParent`. The loop of `ExitFunc` goes on
from `q`, and still meets the children after it. -/
theorem removeChild_ok (hl : Children f p l) (hq : q ∈ l) (hcount : ∀ a ∈ l, a < f.count) :
    ∃ f' l₁ l₂, l = l₁ ++ q :: l₂ ∧ removeChildFromParent q p f = .ok f' ∧ Relinked p l f f' ∧
      Children f' p (l₁ ++ l₂) ∧ Path f'.nextSibling (f'.nextSibling q) l₂ none := by
  obtain ⟨l₁, l₂, rfl⟩ := List.append_of_mem hq
  cases l₂ with
  | nil =>
      rcases List.eq_nil_or_concat l₁ with rfl | ⟨l₁, b, rfl⟩
      · obtain ⟨f', hf, hr, hc, hn⟩ := removeChild_only hl
        exact ⟨f', [], [], rfl, hf, hr, hc, hn⟩
      · rw [List.concat_eq_append, List.append_assoc, List.singleton_append] at hl hcount ⊢
        obtain ⟨f', hf, hr, hc, hn⟩ := removeChild_tail hl (hcount b (by simp))
        exact ⟨f', l₁ ++ [b], [], by simp, hf, hr, by simpa using hc, hn⟩
  | cons c l₂ =>
      have hc : c < f.count := hcount c (by simp)
      rcases List.eq_nil_or_concat l₁ with rfl | ⟨l₁, b, rfl⟩
      · obtain ⟨f', hf, hr, hch, hn⟩ := removeChild_head hl hc
        have hf' := hl.forward
        exact ⟨f', [], c :: l₂, rfl, hf, hr, hch, hn ▸ hf'.2⟩
      · rw [List.concat_eq_append, List.append_assoc, List.singleton_append] at hl hcount ⊢
        obtain ⟨f', hf, hr, hch, hn⟩ := removeChild_middle hl (hcount b (by simp)) hc
        obtain ⟨m, -, hm⟩ := path_append.1 hch.forward
        exact ⟨f', l₁ ++ [b], c :: l₂, by simp, hf, hr, by simpa using hch, hn ▸ hm.2.1 ▸ hm.2⟩

theorem orphanChildren_ok {n : Nat} {h : Ptr} (hl : Path f.nextSibling h l none) (hn : l.length ≤ n)
    (hcount : ∀ a ∈ l, a < f.count) :
    orphanChildren n h f = .ok { f with parent := fun r => if r ∈ l then none else f.parent r } := by
  induction l generalizing h f n with
  | nil =>
      obtain rfl := hl
      cases n <;> simp [orphanChildren]
  | cons a l ih =>
      obtain ⟨rfl, hl⟩ := hl
      obtain ⟨n, rfl⟩ : ∃ k, n = k + 1 := ⟨n - 1, by simp at hn; omega⟩
      simp only [orphanChildren, deref_some (hcount a (by simp)), bind, Except.bind]
      rw [ih (f := { f with parent := Function.update f.parent a none }) hl
        (by simpa using hn) fun b hb => hcount b (by simp [hb])]
      congr 2
      funext r
      by_cases hr : r = a
      · simp [hr]
      · simp [hr]

theorem removeFromParent_walk {n : Nat} {h m : Ptr} (hl : Path f.nextSibling h l m) (hn : l.length ≤ n)
    (hcount : ∀ a ∈ l, a < f.count) (hpid : ∀ a ∈ l, f.processId a ≠ f.processId q) :
    removeFromParent q p n h f = removeFromParent q p (n - l.length) m f := by
  induction l generalizing h n with
  | nil => rw [path_nil.1 hl]; rfl
  | cons a l ih =>
      obtain ⟨rfl, hl⟩ := hl
      obtain ⟨n, rfl⟩ : ∃ k, n = k + 1 := ⟨n - 1, by simp at hn; omega⟩
      simp only [removeFromParent, deref_some (hcount a (by simp)), bind, Except.bind,
        hpid a (by simp), if_false]
      rw [List.length_cons, Nat.add_sub_add_right]
      exact ih hl (by simpa using hn) (fun b hb => hcount b (by simp [hb])) fun b hb => hpid b (by simp [hb])

theorem removeFromParent_ok {n : Nat} (hl : Children f p l) (hq : q ∈ l) (hn : l.length ≤ n)
    (hcount : ∀ a ∈ l, a < f.count) (hpid : ∀ a ∈ l, a ≠ q → f.processId a ≠ f.processId q) :
    ∃ f', removeFromParent q p n (f.childrenHead p) f = .ok f' ∧ Relinked p l f f' ∧
      Children f' p (l.erase q) := by
  obtain ⟨f', l₁, l₂, rfl, hf, hr, hc, hp⟩ := removeChild_ok hl hq hcount
  have hd := hl.nodup
  have hq₁ : q ∉ l₁ := fun h => (List.nodup_append.1 hd).2.2 q h q (by simp) rfl
  have hq₂ : q ∉ l₂ := (List.nodup_cons.1 (List.nodup_append.1 hd).2.1).1
  obtain ⟨m, hm, rfl, -⟩ := path_append.1 hl.forward
  refine ⟨f', ?_, hr, ?_⟩
  · rw [List.length_append, List.length_cons] at hn
    rw [removeFromParent_walk hm (by omega) (fun a ha => hcount a (by simp [ha]))
      (fun a ha => hpid a (by simp [ha]) fun h => hq₁ (h ▸ ha))]
    obtain ⟨k, hk⟩ : ∃ k, n - l₁.length = k + 1 := ⟨n - l₁.length - 1, by omega⟩
    rw [hk]
    simp only [removeFromParent, deref_some (hcount q (by simp)), bind, Except.bind, if_true, hf]
    have hcount' : f'.count = f.count := by rw [hr.rest]
    have hpid' : f'.processId = f.processId := by rw [hr.rest]
    rw [removeFromParent_walk hp (by omega) (fun a ha => hcount' ▸ hcount a (by simp [ha]))
      (fun a ha => hpid' ▸ hpid a (by simp [ha]) fun h => hq₂ (h ▸ ha))]
    cases k - l₂.length <;> rfl
  · rwa [List.erase_append_right _ hq₁, List.erase_cons_head]

/-- The exit records of each live process are the cells `recs`. -/
structure Reports (f : Family) (live : Nat → Prop) (reports : Nat → List (Nat × Int))
    (recs : Nat → List Nat) : Prop where
  path : ∀ p, live p → Path f.records.next (f.exitedChildrenHead p) (recs p) none
  tail : ∀ p, live p → f.exitedChildrenTail p = (recs p).getLast?
  content : ∀ p, live p → (recs p).map (fun r => (f.records.processId r, f.records.status r)) = reports p
  valid : ∀ p, live p → ∀ r ∈ recs p, r < f.records.count ∧ f.records.freed r = false
  nodup : ∀ p, live p → (recs p).Nodup
  disjoint : ∀ p p', live p → live p' → ∀ r, r ∈ recs p → r ∈ recs p' → p = p'

structure Represents (f : Family) (F : Forest) : Prop where
  count : f.count = F.born
  nextProcId : f.nextProcId = f.count
  processId : ∀ p, p < f.count → f.processId p = p
  children : ∀ p, F.live p → Children f p (F.kids p)
  parent : ∀ p q, F.live q → (f.parent q = some p ↔ F.live p ∧ q ∈ F.kids p)
  reports : ∃ recs, Reports f F.live F.reports recs

theorem kids_lt (hr : Represents f F) (hp : F.live p) : ∀ a ∈ F.kids p, a < f.count := fun _ ha =>
  hr.count ▸ kid_born hp ha

theorem kids_length (hr : Represents f F) (hp : F.live p) : (F.kids p).length ≤ f.count :=
  length_le_of_lt (kids_nodup hp) (kids_lt hr hp)

theorem createPcb_represents (hr : Represents f F) :
    Represents { (createPcb f).2 with parent := Function.update f.parent f.count none } F.spawn := by
  obtain ⟨recs, hrecs⟩ := hr.reports
  have hold {p : Nat} (hp : F.live p) : p ≠ f.count := Nat.ne_of_lt (hr.count ▸ F.born_of_live hp)
  have hborn := hr.count
  refine ⟨by simp [createPcb, Forest.spawn, hr.count], by simp [createPcb, hr.nextProcId], ?_, ?_, ?_, ?_⟩
  · intro p hp
    by_cases h : p = f.count
    · simp [createPcb, h, hr.nextProcId]
    · have hlt : p < f.count := Nat.lt_of_le_of_ne (Nat.le_of_lt_succ hp) h
      simp [createPcb, h, hr.processId p hlt]
  · rintro p (hp | rfl)
    · have hk (a) (ha : a ∈ F.kids p) : a ≠ f.count := hold (F.live_of_kid hp ha)
      have hc := hr.children p hp
      rw [spawn_kids hp]
      simp only [Children, createPcb, Function.update_of_ne (hold hp)]
      exact hc.congr (fun a ha => Function.update_of_ne (hk a ha) ..) fun a ha => Function.update_of_ne (hk a ha) ..
    · simpa [Children, createPcb, Forest.spawn, ← hborn] using DoublyLinked.nil
  · rintro p q (hq | rfl)
    · simp only [Function.update_of_ne (hold hq), hr.parent p q hq]
      constructor
      · rintro ⟨hp, hk⟩
        exact ⟨.inl hp, (spawn_kids hp).symm ▸ hk⟩
      · rintro ⟨hp | rfl, hk⟩
        · exact ⟨hp, spawn_kids hp ▸ hk⟩
        · simp [Forest.spawn] at hk
    · simp only [← hborn, Function.update_self, reduceCtorEq, false_iff]
      rintro ⟨hp | rfl, hk⟩
      · have := kid_born hp (spawn_kids hp ▸ hk)
        omega
      · simp [Forest.spawn] at hk
  · refine ⟨Function.update recs f.count [], ?_, ?_, ?_, ?_, ?_, ?_⟩
    · rintro p (hp | rfl)
      · simpa [createPcb, hold hp] using hrecs.path p hp
      · simp [createPcb, ← hborn]
    · rintro p (hp | rfl)
      · simpa [createPcb, hold hp] using hrecs.tail p hp
      · simp [createPcb, ← hborn]
    · rintro p (hp | rfl)
      · rw [spawn_reports hp]
        simpa [createPcb, hold hp] using hrecs.content p hp
      · simp [Forest.spawn, ← hborn]
    · rintro p (hp | rfl)
      · simpa [createPcb, hold hp] using hrecs.valid p hp
      · simp [← hborn]
    · rintro p (hp | rfl)
      · simpa [hold hp] using hrecs.nodup p hp
      · simp [← hborn]
    · rintro p p' (hp | rfl) (hp' | rfl) r
      · simpa [hold hp, hold hp'] using hrecs.disjoint p p' hp hp' r
      · simp [← hborn]
      · simp [← hborn]
      · simp

theorem createPcb_root (hr : Represents f F) (hn : f.parent f.count = none) :
    Represents (createPcb f).2 F.spawn := by
  have h := createPcb_represents hr
  rwa [Function.update_eq_self_iff.2 hn.symm] at h

theorem linkChild_represents (hr : Represents f F) (hp : F.live p) (hc : F.live c)
    (hroot : ∀ r, F.live r → c ∉ F.kids r) (hlast : ∀ r q, F.live r → q ∈ F.kids r → q < c) (hpc : p < c)
    (hn : f.nextSibling c = none) :
    ∃ f', linkChild p c f = .ok f' ∧ Represents f' (F.adopt p c hp hc hroot hlast hpc) ∧
      f'.waiting = f.waiting ∧ f'.records = f.records := by
  obtain ⟨recs, hrecs⟩ := hr.reports
  have hpl := hr.children p hp
  have hparent (g : Family) (hg : g.parent = Function.update f.parent c (some p)) (r q : Nat) (hq : F.live q) :
      g.parent q = some r ↔ F.live r ∧ q ∈ Function.update F.kids p (F.kids p ++ [c]) r := by
    rw [hg]
    have hmem : q ∈ Function.update F.kids p (F.kids p ++ [c]) r ↔ q ∈ F.kids r ∨ r = p ∧ q = c := by
      by_cases h : r = p
      · subst h; simp
      · simp [h]
    rw [hmem]
    by_cases h : q = c
    · subst h
      have := hroot r
      simp only [Function.update_self, Option.some.injEq, and_true]
      constructor
      · rintro rfl
        exact ⟨hp, .inr rfl⟩
      · rintro ⟨hrl, hk | rfl⟩
        · exact absurd hk (this hrl)
        · rfl
    · simpa [h] using hr.parent r q hq
  have hother (g : Family) (hh : ∀ r, r ≠ p → g.childrenHead r = f.childrenHead r)
      (ht : ∀ r, r ≠ p → g.childrenTail r = f.childrenTail r)
      (hn : ∀ a, a ≠ c → a ∉ F.kids p → g.nextSibling a = f.nextSibling a)
      (hv : ∀ a, a ≠ c → g.prevSibling a = f.prevSibling a)
      (r : Nat) (hrl : F.live r) (hne : r ≠ p) : Children g r (Function.update F.kids p (F.kids p ++ [c]) r) := by
    rw [Function.update_of_ne hne]
    have hc' (a) (ha : a ∈ F.kids r) : a ≠ c := by rintro rfl; exact hroot r hrl ha
    unfold Children
    rw [hh r hne, ht r hne]
    exact (hr.children r hrl).congr (fun a ha => hn a (hc' a ha) fun h => hne (F.unique hrl hp ha h))
      fun a ha => hv a (hc' a ha)
  rcases hkids : F.kids p with _ | ⟨k, ks⟩
  · have hhead : f.childrenHead p = none := hpl.head_eq.trans (by rw [hkids]; rfl)
    have htail : f.childrenTail p = none := hpl.tail_eq.trans (by rw [hkids]; rfl)
    refine ⟨{ f with
      parent := Function.update f.parent c (some p)
      prevSibling := Function.update f.prevSibling c none
      childrenHead := Function.update f.childrenHead p (some c)
      childrenTail := Function.update f.childrenTail p (some c) }, ?_,
      ⟨hr.count, hr.nextProcId, hr.processId, ?_, hparent _ rfl, recs, ⟨hrecs.path, hrecs.tail,
        hrecs.content, hrecs.valid, hrecs.nodup, hrecs.disjoint⟩⟩, rfl, rfl⟩
    · simp only [linkChild, hhead, htail, Option.isNone_none, if_true]
      rfl
    · intro r hrl
      by_cases h : r = p
      · subst h
        simp only [Children, Forest.adopt, hkids, Function.update_self, List.nil_append]
        exact .single hn (Function.update_self ..)
      · refine hother _ ?_ ?_ ?_ ?_ r hrl h
        · exact fun r hr => Function.update_of_ne hr ..
        · exact fun r hr => Function.update_of_ne hr ..
        · exact fun _ _ _ => rfl
        · exact fun a ha => Function.update_of_ne ha ..
  · obtain ⟨t, ht⟩ : ∃ t, f.childrenTail p = some t := by
      rw [hpl.tail_eq, hkids]
      exact ⟨_, List.getLast?_cons⟩
    have htk : t ∈ F.kids p := List.mem_of_getLast? (hpl.tail_eq ▸ ht)
    have hhead : (f.childrenHead p).isNone = false := by rw [hpl.head_eq, hkids]; rfl
    refine ⟨{ f with
      parent := Function.update f.parent c (some p)
      prevSibling := Function.update f.prevSibling c (some t)
      nextSibling := Function.update f.nextSibling t (some c)
      childrenTail := Function.update f.childrenTail p (some c) }, ?_,
      ⟨hr.count, hr.nextProcId, hr.processId, ?_, hparent _ rfl, recs, ⟨hrecs.path, hrecs.tail,
        hrecs.content, hrecs.valid, hrecs.nodup, hrecs.disjoint⟩⟩, rfl, rfl⟩
    · have hd : ({ f with
          parent := Function.update f.parent c (some p)
          prevSibling := Function.update f.prevSibling c (some t) } : Family).deref (some t) = .ok t :=
        deref_some (kids_lt hr hp t htk)
      simp only [linkChild, hhead, ht, Bool.false_eq_true, if_false, hd]
      rfl
    · intro r hrl
      by_cases h : r = p
      · subst h
        simp only [Children, Forest.adopt, Function.update_self]
        exact (ht ▸ hpl : DoublyLinked _ _ _ (some t) _).push (hroot r hp) hn
      · refine hother _ ?_ ?_ ?_ ?_ r hrl h
        · exact fun _ _ => rfl
        · exact fun r hr => Function.update_of_ne hr ..
        · exact fun a _ ha => Function.update_of_ne (fun e : a = t => ha (e ▸ htk)) ..
        · exact fun a ha => Function.update_of_ne ha ..

theorem forkLinks_represents (hr : Represents f F) (hp : F.live p) :
    ∃ f', linkChild p (createPcb f).1 (createPcb f).2 = .ok f' ∧ Represents f' (F.fork p hp) ∧
      f'.waiting = Function.update f.waiting f.count false ∧ f'.records = f.records := by
  have hnew : linkChild p (createPcb f).1 (createPcb f).2 = linkChild p F.born
      { (createPcb f).2 with parent := Function.update f.parent f.count none } := by
    simp [linkChild, createPcb, hr.count]
  obtain ⟨f', hf, hr', hw, hrec⟩ := linkChild_represents (createPcb_represents hr) (.inl hp) (.inr rfl)
    (fun r hr hq => Nat.lt_irrefl _ <| by
      rcases hr with hr | rfl
      · exact kid_born hr (spawn_kids hr ▸ hq)
      · simp [Forest.spawn] at hq)
    (fun r q hr hq => by
      rcases hr with hr | rfl
      · exact kid_born hr (spawn_kids hr ▸ hq)
      · simp [Forest.spawn] at hq)
    (F.born_of_live hp) (by simp [createPcb, hr.count])
  exact ⟨f', hnew.trans hf, hr', hw, hrec⟩

theorem reportExit_ok {live : Nat → Prop} {reports : Nat → List (Nat × Int)} {recs : Nat → List Nat}
    (hr : Reports f live reports recs) (hp : live p) (q : Nat) (status : Int) :
    ∃ f', reportExit q status p f = .ok f' ∧
      Reports f' live (Function.update reports p (reports p ++ [(f.processId q, status)]))
        (Function.update recs p (recs p ++ [f.records.count])) ∧
      f' = { f with
        exitedChildrenHead := f'.exitedChildrenHead
        exitedChildrenTail := f'.exitedChildrenTail
        records := f'.records } ∧
      f'.records.staleReads = f.records.staleReads := by
  have hfresh {r : Nat} (hrl : live r) : f.records.count ∉ recs r := fun h =>
    Nat.lt_irrefl _ (hr.valid r hrl _ h).1
  have hkeep {r a : Nat} (hrl : live r) (ha : a ∈ recs r) : a ≠ f.records.count := fun h => hfresh hrl (h ▸ ha)
  have hrest (f' : Family) (hh : ∀ r, r ≠ p → f'.exitedChildrenHead r = f.exitedChildrenHead r)
      (ht : ∀ r, r ≠ p → f'.exitedChildrenTail r = f.exitedChildrenTail r)
      (hn : ∀ r a, live r → r ≠ p → a ∈ recs r → f'.records.next a = f.records.next a)
      (hpath : Path f'.records.next (f'.exitedChildrenHead p) (recs p ++ [f.records.count]) none)
      (htail : f'.exitedChildrenTail p = some f.records.count)
      (hcount : f'.records.count = f.records.count + 1)
      (hfreed : f'.records.freed = Function.update f.records.freed f.records.count false)
      (hpid : f'.records.processId = Function.update f.records.processId f.records.count (f.processId q))
      (hst : f'.records.status = Function.update f.records.status f.records.count status) :
      Reports f' live (Function.update reports p (reports p ++ [(f.processId q, status)]))
        (Function.update recs p (recs p ++ [f.records.count])) := by
    have hmap {r : Nat} (hrl : live r) :
        (recs r).map (fun a => (f'.records.processId a, f'.records.status a)) = reports r := by
      rw [← hr.content r hrl, hpid, hst]
      refine List.map_congr_left fun a ha => ?_
      rw [Function.update_of_ne (hkeep hrl ha), Function.update_of_ne (hkeep hrl ha)]
    have hmem {r a : Nat} (ha : a ∈ Function.update recs p (recs p ++ [f.records.count]) r) :
        a ∈ recs r ∨ r = p ∧ a = f.records.count := by
      by_cases h : r = p
      · subst h
        simpa using ha
      · simpa [h] using ha
    constructor
    · intro r hrl
      by_cases h : r = p
      · subst h
        rwa [Function.update_self]
      · rw [Function.update_of_ne h, hh r h]
        exact (path_congr fun a ha => hn r a hrl h ha).2 (hr.path r hrl)
    · intro r hrl
      by_cases h : r = p
      · subst h
        rw [Function.update_self, htail, List.getLast?_concat]
      · rw [Function.update_of_ne h, ht r h, hr.tail r hrl]
    · intro r hrl
      by_cases h : r = p
      · subst h
        rw [Function.update_self, Function.update_self, List.map_append, hmap hrl, hpid, hst]
        simp
      · rw [Function.update_of_ne h, Function.update_of_ne h, hmap hrl]
    · intro r hrl a ha
      rw [hcount, hfreed]
      rcases hmem ha with h | ⟨-, rfl⟩
      · rw [Function.update_of_ne (hkeep hrl h)]
        exact ⟨Nat.lt_succ_of_lt (hr.valid r hrl a h).1, (hr.valid r hrl a h).2⟩
      · simp
    · intro r hrl
      by_cases h : r = p
      · subst h
        rw [Function.update_self]
        exact List.nodup_append.2 ⟨hr.nodup r hrl, List.nodup_singleton _, fun a ha b hb =>
          List.mem_singleton.1 hb ▸ hkeep hrl ha⟩
      · rw [Function.update_of_ne h]
        exact hr.nodup r hrl
    · intro r r' hrl hrl' a ha ha'
      rcases hmem ha with h | ⟨rfl, rfl⟩
      · rcases hmem ha' with h' | ⟨-, rfl⟩
        · exact hr.disjoint r r' hrl hrl' a h h'
        · exact absurd h (hfresh hrl)
      · rcases hmem ha' with h' | ⟨rfl, -⟩
        · exact absurd h' (hfresh hrl')
        · rfl
  by_cases hempty : recs p = []
  · have hhead : f.exitedChildrenHead p = none := by
      have h := hr.path p hp
      rwa [hempty] at h
    refine ⟨{ f with
      exitedChildrenHead := Function.update f.exitedChildrenHead p (some f.records.count)
      exitedChildrenTail := Function.update f.exitedChildrenTail p (some f.records.count)
      records := { f.records with
        count := f.records.count + 1
        freed := Function.update f.records.freed f.records.count false
        processId := Function.update f.records.processId f.records.count (f.processId q)
        status := Function.update f.records.status f.records.count status
        next := Function.update f.records.next f.records.count none } }, ?_, ?_, rfl, rfl⟩
    · simp only [reportExit, pushExitToExited, hhead, Option.isNone_none, if_true]
      rfl
    · refine hrest _ ?_ ?_ ?_ ?_ ?_ ?_ ?_ ?_ ?_
      · exact fun r h => Function.update_of_ne h ..
      · exact fun r h => Function.update_of_ne h ..
      · exact fun r b hrl _ hb => Function.update_of_ne (hkeep hrl hb) ..
      · simp [hempty]
      · exact Function.update_self ..
      all_goals rfl
  · obtain ⟨t, ht⟩ : ∃ t, f.exitedChildrenTail p = some t :=
      ⟨_, (hr.tail p hp).trans (List.getLast?_eq_some_getLast hempty)⟩
    have htr : t ∈ recs p := List.mem_of_getLast? (hr.tail p hp ▸ ht)
    have hhead : (f.exitedChildrenHead p).isNone = false := by
      rw [Bool.eq_false_iff]
      exact fun h => hempty ((path_isNone (hr.path p hp)).1 h)
    refine ⟨{ f with
      exitedChildrenTail := Function.update f.exitedChildrenTail p (some f.records.count)
      records := { f.records with
        count := f.records.count + 1
        freed := Function.update f.records.freed f.records.count false
        processId := Function.update f.records.processId f.records.count (f.processId q)
        status := Function.update f.records.status f.records.count status
        prev := Function.update f.records.prev f.records.count (some t)
        next := Function.update (Function.update f.records.next f.records.count none) t
          (some f.records.count) } }, ?_, ?_, rfl, rfl⟩
    · have hd : ({ f.records with
          count := f.records.count + 1
          freed := Function.update f.records.freed f.records.count false
          processId := Function.update f.records.processId f.records.count (f.processId q)
          status := Function.update f.records.status f.records.count status
          next := Function.update f.records.next f.records.count none } : Records).deref (some t) = .ok t :=
        records_deref_some (Nat.lt_succ_of_lt (hr.valid p hp t htr).1)
          ((Function.update_of_ne (hkeep hp htr) ..).trans (hr.valid p hp t htr).2)
      simp only [reportExit, pushExitToExited, hhead, Bool.false_eq_true, if_false, ht, hd]
      rfl
    · refine hrest _ ?_ ?_ ?_ ?_ ?_ ?_ ?_ ?_ ?_
      · exact fun _ _ => rfl
      · exact fun r h => Function.update_of_ne h ..
      · intro r b hrl hne hb
        have hbt : b ≠ t := by rintro rfl; exact hne (hr.disjoint r p hrl hp b hb htr)
        simp [hbt, hkeep hrl hb]
      · obtain ⟨l', hl'⟩ := List.getLast?_eq_some_iff.1 (hr.tail p hp ▸ ht)
        have hpath := (path_update_of_notMem (hfresh hp) none).2 (hr.path p hp)
        rw [hl'] at hpath ⊢
        have hpush := path_push hpath (hl' ▸ hr.nodup p hp) (hl' ▸ hfresh hp)
        rwa [Function.update_self] at hpush
      · exact Function.update_self ..
      all_goals rfl

theorem Reports.mono {live live' : Nat → Prop} {reports reports' : Nat → List (Nat × Int)}
    {recs : Nat → List Nat} (hr : Reports f live reports recs) (hl : ∀ p, live' p → live p)
    (he : ∀ p, live' p → reports' p = reports p) : Reports f live' reports' recs where
  path p hp := hr.path p (hl p hp)
  tail p hp := hr.tail p (hl p hp)
  content p hp := (hr.content p (hl p hp)).trans (he p hp).symm
  valid p hp := hr.valid p (hl p hp)
  nodup p hp := hr.nodup p (hl p hp)
  disjoint p p' hp hp' := hr.disjoint p p' (hl p hp) (hl p' hp')

theorem Reports.congr {live : Nat → Prop} {reports : Nat → List (Nat × Int)} {recs : Nat → List Nat}
    (hr : Reports f live reports recs) (hh : f'.exitedChildrenHead = f.exitedChildrenHead)
    (ht : f'.exitedChildrenTail = f.exitedChildrenTail) (hrec : f'.records = f.records) :
    Reports f' live reports recs := by
  constructor
  · rw [hh, hrec]; exact hr.path
  · rw [ht]; exact hr.tail
  · rw [hrec]; exact hr.content
  · rw [hrec]; exact hr.valid
  · exact hr.nodup
  · exact hr.disjoint

theorem exit_represents {status : Int} (hr : Represents f F) (hq : F.live q)
    (hcount : f'.count = f.count) (hnext : f'.nextProcId = f.nextProcId) (hpid : f'.processId = f.processId)
    (hchildren : ∀ r, F.live r → r ≠ q → Children f' r ((F.kids r).erase q))
    (hparent : f'.parent = fun r => if r ∈ F.kids q then none else f.parent r)
    (hreports : ∃ recs, Reports f' F.live (F.exit q status).reports recs) :
    Represents f' (F.exit q status) where
  count := hcount.trans hr.count
  nextProcId := hnext.trans (hr.nextProcId.trans hcount.symm)
  processId p hp := by rw [hpid]; exact hr.processId p (hcount ▸ hp)
  children r hrl := hchildren r hrl.1 hrl.2
  parent r x hx := by
    have hmem : x ∈ (F.kids r).erase q ↔ x ∈ F.kids r := List.mem_erase_of_ne hx.2
    change f'.parent x = some r ↔ (F.live r ∧ r ≠ q) ∧ x ∈ (F.kids r).erase q
    rw [hparent, hmem]
    by_cases h : x ∈ F.kids q
    · simp only [h, if_true, reduceCtorEq, false_iff]
      rintro ⟨⟨hrl, hne⟩, hk⟩
      exact hne (F.unique hrl hq hk h)
    · simp only [h, if_false, hr.parent r x hx.1]
      constructor
      · rintro ⟨hrl, hk⟩
        exact ⟨⟨hrl, fun e => h (e ▸ hk)⟩, hk⟩
      · rintro ⟨⟨hrl, -⟩, hk⟩
        exact ⟨hrl, hk⟩
  reports := by
    obtain ⟨recs, h⟩ := hreports
    exact ⟨recs, h.mono (fun p hp => hp.1) fun p _ => rfl⟩

/-- `ExitFunc` on the links: the parent, if it is live, loses the child and gets
its report, and is woken if it waits. -/
theorem exitLinks_represents (hr : Represents f F) (hq : F.live q) (status : Int) :
    ∃ woken f', exitLinks q status f = .ok (woken, f') ∧ Represents f' (F.exit q status) ∧
      (∀ p, woken = some p ↔ (F.live p ∧ q ∈ F.kids p) ∧ f.waiting p = true) ∧
      (∀ p, f'.waiting p = if woken = some p then false else f.waiting p) ∧
      f'.records.staleReads = f.records.staleReads := by
  have horphan := orphanChildren_ok (n := f.count) (hr.children q hq).forward (kids_length hr hq) (kids_lt hr hq)
  have hqq : q ∉ F.kids q := not_kid_of_self hq
  obtain ⟨recs, hrecs⟩ := hr.reports
  rcases hpar : f.parent q with _ | p
  · have hroot (r : Nat) (hrl : F.live r) : q ∉ F.kids r := fun hk => by
      have := (hr.parent r q hq).2 ⟨hrl, hk⟩
      simp [hpar] at this
    refine ⟨none, { f with parent := fun r => if r ∈ F.kids q then none else f.parent r }, ?_, ?_, ?_, ?_, rfl⟩
    · simp only [exitLinks, horphan, bind, Except.bind, hqq, if_false, hpar]
      rfl
    · refine exit_represents hr hq rfl rfl rfl (fun r hrl _ => ?_) rfl
        ⟨recs, Reports.congr (f := f) (hrecs.mono (fun _ h => h) fun r hrl => ?_) rfl rfl rfl⟩
      · rw [List.erase_of_not_mem (hroot r hrl)]
        exact hr.children r hrl
      · simp [Forest.exit, hroot r hrl]
    · intro r
      simp only [reduceCtorEq, false_iff]
      rintro ⟨⟨hrl, hk⟩, -⟩
      exact hroot r hrl hk
    · simp
  · obtain ⟨hp, hqp⟩ := (hr.parent p q hq).1 hpar
    have hpq : p ≠ q := by rintro rfl; exact hqq hqp
    have huniq (r : Nat) (hrl : F.live r) (hk : q ∈ F.kids r) : r = p := F.unique hrl hp hk hqp
    obtain ⟨f₂, hf₂, hrel, hkids⟩ := removeFromParent_ok
      (f := { f with parent := fun r => if r ∈ F.kids q then none else f.parent r }) (n := f.count)
      (hr.children p hp) hqp (kids_length hr hp) (fun a ha => kids_lt hr hp a ha)
      fun a ha hne => by
        simpa [hr.processId a (kids_lt hr hp a ha), hr.processId q (kids_lt hr hp q hqp)] using hne
    have hrest := hrel.rest
    have hrecs₂ : Reports f₂ F.live F.reports recs :=
      hrecs.congr (by rw [hrest]) (by rw [hrest]) (by rw [hrest])
    obtain ⟨f₃, hf₃, hrecs₃, hrest₃, hstale₃⟩ := reportExit_ok hrecs₂ hp q status
    have hpid : f₂.processId q = q := by
      rw [hrest]
      exact hr.processId q (kids_lt hr hp q hqp)
    have hwaiting : f₃.waiting = f.waiting := by rw [hrest₃, hrest]
    have hstale : f₃.records.staleReads = f.records.staleReads := by rw [hstale₃, hrest]
    have hrep {g : Family} (hg : g = { f₃ with waiting := g.waiting }) : Represents g (F.exit q status) := by
      refine exit_represents hr hq ?_ ?_ ?_ (fun r hrl hne => ?_) ?_ ?_
      · rw [hg, hrest₃, hrest]
      · rw [hg, hrest₃, hrest]
      · rw [hg, hrest₃, hrest]
      · have hlinks : Children f₂ r ((F.kids r).erase q) := by
          by_cases h : r = p
          · subst h
            exact hkids
          · rw [List.erase_of_not_mem fun hk => h (huniq r hrl hk)]
            unfold Children
            rw [(hrel.ends r h).1, (hrel.ends r h).2]
            refine (hr.children r hrl).congr (fun a ha => ?_) fun a ha => ?_
            · exact (hrel.links a fun hk => h (F.unique hrl hp ha hk)).1
            · exact (hrel.links a fun hk => h (F.unique hrl hp ha hk)).2
        rw [hg, hrest₃]
        exact hlinks
      · rw [hg, hrest₃, hrest]
      · refine ⟨_, (hrecs₃.congr ?_ ?_ ?_).mono (fun _ h => h) fun r hrl => ?_⟩
        · rw [hg]
        · rw [hg]
        · rw [hg]
        · by_cases h : r = p
          · subst h
            simp [Forest.exit, hqp, hpid]
          · have hk : q ∉ F.kids r := fun hk => h (huniq r hrl hk)
            simp [Forest.exit, hk, h]
    have hrun : exitLinks q status f = if f₃.waiting p then
        .ok (some p, { f₃ with waiting := Function.update f₃.waiting p false }) else .ok (none, f₃) := by
      have hd : ({ f with parent := fun r => if r ∈ F.kids q then none else f.parent r } : Family).deref (some p)
          = .ok p := deref_some (hr.count ▸ F.born_of_live hp)
      simp only [exitLinks, horphan, bind, Except.bind, hqq, if_false, hpar, hd, hf₂, hf₃]
      rfl
    by_cases hw : f.waiting p = true
    · refine ⟨some p, { f₃ with waiting := Function.update f₃.waiting p false }, ?_, hrep rfl, ?_, ?_, hstale⟩
      · rw [hrun, hwaiting, hw, if_pos rfl]
      · intro r
        rw [Option.some.injEq]
        constructor
        · rintro rfl
          exact ⟨⟨hp, hqp⟩, hw⟩
        · rintro ⟨⟨hrl, hk⟩, -⟩
          exact (huniq r hrl hk).symm
      · intro r
        simp only [hwaiting, Function.update_apply, Option.some.injEq, eq_comm]
    · refine ⟨none, f₃, ?_, hrep rfl, ?_, ?_, hstale⟩
      · rw [hrun, hwaiting, if_neg hw]
      · intro r
        simp only [reduceCtorEq, false_iff]
        rintro ⟨⟨hrl, hk⟩, hwr⟩
        exact hw (huniq r hrl hk ▸ hwr)
      · simp [hwaiting]

theorem represents_waiting (hr : Represents f F) (w : Nat → Bool) : Represents { f with waiting := w } F := by
  obtain ⟨recs, hrecs⟩ := hr.reports
  exact ⟨hr.count, hr.nextProcId, hr.processId, hr.children, hr.parent, recs, hrecs.congr rfl rfl rfl⟩

theorem head_none_iff (hr : Represents f F) (hp : F.live p) : f.exitedChildrenHead p = none ↔ F.reports p = [] := by
  obtain ⟨recs, hrecs⟩ := hr.reports
  rw [path_head (hrecs.path p hp), List.head?_eq_none_iff, ← hrecs.content p hp, List.map_eq_nil_iff]

theorem kids_none_iff (hr : Represents f F) (hp : F.live p) : f.childrenHead p = none ↔ F.kids p = [] := by
  rw [(hr.children p hp).head_eq, List.head?_eq_none_iff]

/-- `WaitFunc` gets through the queue of exit records only when it holds two
records or more, and then it reads one that it has freed. -/
theorem collect_ok {pid : Int} (hr : Represents f F) (hp : F.live p) (h : collect p f = .ok (pid, f')) :
    ∃ a b l, F.reports p = a :: b :: l ∧ pid = a.1 ∧ Represents f' (F.collect p) ∧
      f'.waiting = f.waiting ∧ f'.records.staleReads = f.records.staleReads + 1 := by
  obtain ⟨recs, hrecs⟩ := hr.reports
  have hpath := hrecs.path p hp
  have hcontent := hrecs.content p hp
  rcases hrp : recs p with _ | ⟨a, l⟩
  · rw [hrp] at hpath
    have hhead : f.exitedChildrenHead p = none := hpath
    simp [collect, removeHeadFromExitQueue, hhead, bind, Except.bind, pure, Except.pure] at h
  · rw [hrp] at hpath hcontent
    obtain ⟨hhead, hnext⟩ := hpath
    obtain ⟨halt, hafree⟩ := hrecs.valid p hp a (by simp [hrp])
    have hda : f.records.deref (some a) = .ok a := records_deref_some halt hafree
    rcases l with _ | ⟨b, l⟩
    · have htail : f.exitedChildrenTail p = some a := (hrecs.tail p hp).trans (by simp [hrp])
      have hna : f.records.next a = none := hnext
      have hdn : f.records.deref none = .error .nullDeref := rfl
      simp [collect, removeHeadFromExitQueue, hhead, htail, hda, hna, hdn, bind, Except.bind] at h
    · have htail : f.exitedChildrenTail p ≠ some a := fun ht => by
        have hd := hrecs.nodup p hp
        rw [hrp] at hd
        refine (List.nodup_cons.1 hd).1 (List.mem_of_getLast? (l := b :: l) ?_)
        rw [← ht, hrecs.tail p hp, hrp, List.getLast?_cons_cons]
      obtain ⟨hblt, hbfree⟩ := hrecs.valid p hp b (by simp [hrp])
      have hdb : f.records.deref (some b) = .ok b := records_deref_some hblt hbfree
      have hna : f.records.next a = some b := hnext.1
      simp only [collect, removeHeadFromExitQueue, hhead, hda, bind, Except.bind, eq_comm (a := some a), htail,
        if_false, hna, Function.update_self, hdb, pure, Except.pure, Except.ok.injEq, Prod.mk.injEq] at h
      obtain ⟨rfl, rfl⟩ := h
      simp only [List.map_cons] at hcontent
      refine ⟨_, _, _, hcontent.symm, rfl, ?_, rfl, by simp⟩
      have hmem {r c : Nat} (hc : c ∈ Function.update recs p (b :: l) r) : c ∈ recs r := by
        by_cases hrp' : r = p
        · subst hrp'
          rw [Function.update_self] at hc
          rw [hrp]
          exact List.mem_cons_of_mem _ hc
        · rwa [Function.update_of_ne hrp'] at hc
      have hane {r c : Nat} (hrl : F.live r) (hc : c ∈ Function.update recs p (b :: l) r) : c ≠ a := by
        rintro rfl
        obtain rfl := hrecs.disjoint r p hrl hp c (hmem hc) (by simp [hrp])
        have hd := hrecs.nodup r hp
        rw [hrp] at hd
        rw [Function.update_self] at hc
        exact (List.nodup_cons.1 hd).1 hc
      refine ⟨hr.count, hr.nextProcId, hr.processId, hr.children, hr.parent, Function.update recs p (b :: l),
        ?_, ?_, ?_, ?_, ?_, ?_⟩
      · intro r hrl
        change Path f.records.next (Function.update f.exitedChildrenHead p (some b) r) _ none
        by_cases hrp' : r = p
        · subst hrp'
          rw [Function.update_self, Function.update_self]
          exact ⟨rfl, hnext.2⟩
        · rw [Function.update_of_ne hrp', Function.update_of_ne hrp']
          exact hrecs.path r hrl
      · intro r hrl
        by_cases hrp' : r = p
        · subst hrp'
          rw [Function.update_self]
          exact (hrecs.tail r hrl).trans (by rw [hrp, List.getLast?_cons_cons])
        · rw [Function.update_of_ne hrp']
          exact hrecs.tail r hrl
      · intro r hrl
        by_cases hrp' : r = p
        · subst hrp'
          simp only [Function.update_self, Forest.collect, ← hcontent, List.tail_cons, List.map_cons]
        · rw [Function.update_of_ne hrp']
          exact (hrecs.content r hrl).trans (Function.update_of_ne hrp' ..).symm
      · intro r hrl c hc
        refine ⟨(hrecs.valid r hrl c (hmem hc)).1, ?_⟩
        exact (Function.update_of_ne (hane hrl hc) ..).trans (hrecs.valid r hrl c (hmem hc)).2
      · intro r hrl
        by_cases hrp' : r = p
        · subst hrp'
          have hd := hrecs.nodup r hp
          rw [hrp] at hd
          rw [Function.update_self]
          exact (List.nodup_cons.1 hd).2
        · rw [Function.update_of_ne hrp']
          exact hrecs.nodup r hrl
      · exact fun r r' hrl hrl' c hc hc' => hrecs.disjoint r r' hrl hrl' c (hmem hc) (hmem hc')

end Yalnix.FamilyTree
