import Mathlib.Data.List.Nodup
import Mathlib.Data.List.Perm.Subperm
import Mathlib.Logic.Function.Basic

namespace Yalnix.Chains

variable {α : Type}

/-- Following `next` from the pointer `h` visits `l` in order and leaves the pointer `e`. -/
def Path (next : α → Option α) : Option α → List α → Option α → Prop
  | h, [], e => h = e
  | h, a :: l, e => h = some a ∧ Path next (next a) l e

variable {next prev : α → Option α} {h e : Option α} {l l₁ l₂ : List α} {a b c : α}

@[simp] theorem path_nil : Path next h [] e ↔ h = e := Iff.rfl

@[simp] theorem path_cons : Path next h (a :: l) e ↔ h = some a ∧ Path next (next a) l e := Iff.rfl

theorem path_append : Path next h (l₁ ++ l₂) e ↔ ∃ m, Path next h l₁ m ∧ Path next m l₂ e := by
  induction l₁ generalizing h with
  | nil => simp
  | cons a l ih => simp [ih, and_assoc]

theorem path_congr {next' : α → Option α} (hn : ∀ a ∈ l, next' a = next a) :
    Path next' h l e ↔ Path next h l e := by
  induction l generalizing h with
  | nil => rfl
  | cons a l ih =>
      rw [path_cons, path_cons, hn a List.mem_cons_self, ih fun b hb => hn b (List.mem_cons_of_mem _ hb)]

theorem path_head (hp : Path next h l none) : h = l.head? := by
  cases l with
  | nil => exact hp
  | cons a l => exact hp.1

theorem length_le_of_lt {l : List Nat} {n : Nat} (hd : l.Nodup) (hl : ∀ a ∈ l, a < n) : l.length ≤ n := by
  have hsub : l ⊆ List.range n := fun a ha => List.mem_range.2 (hl a ha)
  simpa using (List.subperm_of_subset hd hsub).length_le

theorem path_some (hp : Path next (some a) l none) : ∃ l', l = a :: l' ∧ Path next (next a) l' none := by
  cases l with
  | nil => cases hp
  | cons b l =>
      obtain ⟨hb, hp⟩ := hp
      obtain rfl := Option.some.inj hb
      exact ⟨l, rfl, hp⟩

theorem path_next (hp : Path next h (l₁ ++ a :: l₂) none) : next a = l₂.head? := by
  obtain ⟨m, -, -, hp⟩ := path_append.1 hp
  exact path_head hp

theorem path_isNone (hp : Path next h l none) : h.isNone ↔ l = [] := by
  rw [path_head hp]
  cases l <;> simp

theorem path_unique {l' : List α} (hp : Path next h l none) (hp' : Path next h l' none) : l = l' := by
  induction l generalizing h l' with
  | nil =>
      cases l' with
      | nil => rfl
      | cons b l' => exact absurd (hp.symm.trans hp'.1) (by simp)
  | cons a l ih =>
      cases l' with
      | nil => exact absurd (hp.1.symm.trans hp') (by simp)
      | cons b l' =>
          obtain rfl : a = b := Option.some.inj (hp.1.symm.trans hp'.1)
          rw [ih hp.2 hp'.2]

theorem path_unique_length {l' : List α} {e' : Option α} (hp : Path next h l e) (hp' : Path next h l' e')
    (hlen : l.length = l'.length) : l = l' := by
  induction l generalizing h l' with
  | nil => exact (List.length_eq_zero_iff.1 hlen.symm).symm
  | cons a l ih =>
      cases l' with
      | nil => cases hlen
      | cons b l' =>
          obtain rfl : a = b := Option.some.inj (hp.1.symm.trans hp'.1)
          rw [ih hp.2 hp'.2 (Nat.succ.inj hlen)]

/-- A list linked in both directions between two end pointers. -/
structure DoublyLinked (next prev : α → Option α) (head tail : Option α) (l : List α) : Prop where
  forward : Path next head l none
  backward : Path prev tail l.reverse none
  nodup : l.Nodup

namespace DoublyLinked

variable {head tail : Option α}

theorem head_eq (hl : DoublyLinked next prev head tail l) : head = l.head? := path_head hl.forward

theorem tail_eq (hl : DoublyLinked next prev head tail l) : tail = l.getLast? := by
  rw [path_head hl.backward, List.head?_reverse]

theorem next_eq (hl : DoublyLinked next prev head tail (l₁ ++ a :: l₂)) : next a = l₂.head? :=
  path_next hl.forward

theorem prev_eq (hl : DoublyLinked next prev head tail (l₁ ++ a :: l₂)) : prev a = l₁.getLast? := by
  have hb := hl.backward
  rw [List.reverse_append, List.reverse_cons, List.append_assoc] at hb
  have h : prev a = l₁.reverse.head? := path_next hb
  rw [h, List.head?_reverse]

theorem prev_head (hl : DoublyLinked next prev head tail (a :: l)) : prev a = none := by
  rw [← List.nil_append (a :: l)] at hl
  exact hl.prev_eq

theorem next_head (hl : DoublyLinked next prev head tail (a :: l)) : next a = l.head? := by
  rw [← List.nil_append (a :: l)] at hl
  exact hl.next_eq

theorem congr {next' prev' : α → Option α} (hl : DoublyLinked next prev head tail l)
    (hn : ∀ a ∈ l, next' a = next a) (hp : ∀ a ∈ l, prev' a = prev a) :
    DoublyLinked next' prev' head tail l where
  forward := (path_congr hn).2 hl.forward
  backward := (path_congr fun a ha => hp a (List.mem_reverse.1 ha)).2 hl.backward
  nodup := hl.nodup

theorem nil : DoublyLinked next prev none none [] := ⟨rfl, rfl, List.nodup_nil⟩

theorem next_iff_prev (hl : DoublyLinked next prev head tail l) (ha : a ∈ l) (hb : b ∈ l) :
    next a = some b ↔ prev b = some a := by
  constructor
  · intro h
    obtain ⟨l₁, l₂, rfl⟩ := List.append_of_mem ha
    rw [hl.next_eq] at h
    obtain ⟨l₃, rfl⟩ : ∃ l₃, l₂ = b :: l₃ := by cases l₂ <;> simp_all
    rw [show l₁ ++ a :: b :: l₃ = (l₁ ++ [a]) ++ b :: l₃ by simp] at hl
    rw [hl.prev_eq, List.getLast?_concat]
  · intro h
    obtain ⟨l₁, l₂, rfl⟩ := List.append_of_mem hb
    rw [hl.prev_eq] at h
    obtain ⟨l₃, rfl⟩ := List.getLast?_eq_some_iff.1 h
    rw [show l₃ ++ [a] ++ b :: l₂ = l₃ ++ a :: b :: l₂ by simp] at hl
    rw [hl.next_eq, List.head?_cons]

theorem single (hn : next a = none) (hp : prev a = none) : DoublyLinked next prev (some a) (some a) [a] :=
  ⟨by simp [hn], by simp [hp], List.nodup_singleton a⟩

end DoublyLinked

/-- Linked in both directions, but for the `prev` of the first node. -/
def Linked (next prev : α → Option α) (head tail : Option α) (l : List α) : Prop :=
  ∃ prev', DoublyLinked next prev' head tail l ∧ ∀ a ∈ l, head ≠ some a → prev' a = prev a

namespace Linked

variable {head tail : Option α}

theorem nil : Linked next prev none none [] := ⟨prev, .nil, fun _ _ _ => rfl⟩

theorem congr {next' prev' : α → Option α} (hl : Linked next prev head tail l) (hn : ∀ a ∈ l, next' a = next a)
    (hp : ∀ a ∈ l, prev' a = prev a) : Linked next' prev' head tail l := by
  obtain ⟨p, hd, hp'⟩ := hl
  exact ⟨p, hd.congr hn fun _ _ => rfl, fun a ha hne => (hp' a ha hne).trans (hp a ha).symm⟩

theorem forward (hl : Linked next prev head tail l) : Path next head l none := hl.choose_spec.1.forward

theorem nodup (hl : Linked next prev head tail l) : l.Nodup := hl.choose_spec.1.nodup

theorem head_eq (hl : Linked next prev head tail l) : head = l.head? := hl.choose_spec.1.head_eq

theorem tail_eq (hl : Linked next prev head tail l) : tail = l.getLast? := hl.choose_spec.1.tail_eq

theorem head_ne (hl : Linked next prev head tail (l₁ ++ b :: a :: l₂)) : head ≠ some a := by
  intro hh
  have hd := hl.nodup
  have hhead := hl.head_eq.symm.trans hh
  cases l₁ with
  | nil =>
      obtain rfl : b = a := Option.some.inj hhead
      exact (List.nodup_cons.1 hd).1 List.mem_cons_self
  | cons c l₁ =>
      obtain rfl : c = a := Option.some.inj hhead
      exact (List.nodup_cons.1 hd).1 (by simp)

theorem tail_ne (hl : Linked next prev head tail (l₁ ++ a :: c :: l₂)) : tail ≠ some a := by
  rw [hl.tail_eq, List.getLast?_append_cons, List.getLast?_cons_cons]
  intro he
  obtain ⟨-, hd, -⟩ := List.nodup_append.1 hl.nodup
  exact (List.nodup_cons.1 hd).1 (List.mem_of_getLast? he)

theorem prev_eq (hl : Linked next prev head tail (l₁ ++ b :: a :: l₂)) : prev a = some b := by
  have hne := hl.head_ne
  obtain ⟨prev', hd, hp⟩ := hl
  rw [← hp a (by simp) hne]
  rw [show l₁ ++ b :: a :: l₂ = (l₁ ++ [b]) ++ a :: l₂ by simp] at hd
  rw [hd.prev_eq, List.getLast?_concat]

theorem next_eq (hl : Linked next prev head tail (l₁ ++ a :: l₂)) : next a = l₂.head? :=
  path_next hl.forward

theorem prev_of_next (hl : Linked next prev head tail l) (ha : a ∈ l) (hb : next a = some b) :
    b ∈ l ∧ prev b = some a := by
  obtain ⟨l₁, l₂, rfl⟩ := List.append_of_mem ha
  rw [hl.next_eq] at hb
  obtain ⟨l₃, rfl⟩ := List.head?_eq_some_iff.1 hb
  exact ⟨by simp, hl.prev_eq⟩

theorem next_of_prev (hl : Linked next prev head tail l) (hb : b ∈ l) (hne : head ≠ some b) :
    ∃ a ∈ l, prev b = some a ∧ next a = some b := by
  obtain ⟨l₁, l₂, rfl⟩ := List.append_of_mem hb
  rcases List.eq_nil_or_concat' l₁ with rfl | ⟨l₁, a, rfl⟩
  · exact absurd hl.head_eq hne
  · rw [List.append_assoc, List.singleton_append] at hl ⊢
    exact ⟨a, by simp, hl.prev_eq, hl.next_eq⟩

end Linked

variable [DecidableEq α]

theorem path_update_of_notMem (ha : a ∉ l) (x : Option α) :
    Path (Function.update next a x) h l e ↔ Path next h l e :=
  path_congr fun b hb => Function.update_of_ne (by rintro rfl; exact ha hb) _ _

/-- A node after the last one. The pointer the new node held becomes the end of the path. -/
theorem path_push (hp : Path next h (l ++ [b]) e) (hd : (l ++ [b]).Nodup) (ha : a ∉ l ++ [b]) :
    Path (Function.update next b (some a)) h (l ++ [b] ++ [a]) (next a) := by
  obtain ⟨hl, -, hlb⟩ := List.nodup_append.1 hd
  have hb : b ∉ l := fun hb => hlb b hb b (by simp) rfl
  obtain ⟨m, hm, rfl, rfl⟩ := path_append.1 hp
  have hab : a ≠ b := by rintro rfl; exact ha (by simp)
  refine path_append.2 ⟨some a, path_append.2 ⟨some b, (path_update_of_notMem hb _).2 hm, ?_⟩, ?_⟩
  · simp
  · simp [Function.update_of_ne hab]

theorem path_unlink (hp : Path next h (l₁ ++ b :: a :: l₂) e) (hd : (l₁ ++ b :: a :: l₂).Nodup) :
    Path (Function.update next b (next a)) h (l₁ ++ b :: l₂) e := by
  rw [List.nodup_append] at hd
  obtain ⟨-, hd, hdisj⟩ := hd
  simp only [List.nodup_cons, List.mem_cons, not_or] at hd
  have hb : b ∉ l₁ := fun hb => hdisj b hb b (by simp) rfl
  obtain ⟨m, hm, rfl, hn, hp⟩ := path_append.1 hp
  refine path_append.2 ⟨some b, (path_update_of_notMem hb _).2 hm, rfl, ?_⟩
  rw [Function.update_self]
  exact (path_update_of_notMem hd.1.2 _).2 hp

namespace DoublyLinked

variable {head tail : Option α}

theorem push (hl : DoublyLinked next prev head (some b) l) (ha : a ∉ l) (hn : next a = none) :
    DoublyLinked (Function.update next b (some a)) (Function.update prev a (some b)) head (some a)
      (l ++ [a]) := by
  obtain ⟨l, rfl⟩ := List.getLast?_eq_some_iff.1 hl.tail_eq.symm
  refine ⟨hn ▸ path_push hl.forward hl.nodup ha, ?_, List.nodup_append.2 ⟨hl.nodup, by simp, ?_⟩⟩
  · rw [List.reverse_append, List.reverse_singleton, List.singleton_append, path_cons, Function.update_self]
    exact ⟨rfl, (path_update_of_notMem (fun h => ha (List.mem_reverse.1 h)) _).2 hl.backward⟩
  · rintro x hx y hy rfl
    exact ha (List.mem_singleton.1 hy ▸ hx)

theorem popHead (hl : DoublyLinked next prev head tail (a :: b :: l)) :
    DoublyLinked next (Function.update prev b none) (some b) tail (b :: l) := by
  have hd := hl.nodup
  refine ⟨?_, ?_, (List.nodup_cons.1 hd).2⟩
  · obtain ⟨-, hf⟩ := hl.forward
    exact ⟨rfl, hf.2⟩
  · have hb := hl.backward
    simp only [List.reverse_cons, List.append_assoc, List.singleton_append] at hb
    have h := path_unlink hb (by simpa using List.nodup_reverse.2 hd)
    rw [hl.prev_head] at h
    simpa using h

theorem popTail (hl : DoublyLinked next prev head tail (l ++ [b, a])) :
    DoublyLinked (Function.update next b none) prev head (some b) (l ++ [b]) := by
  have hd := hl.nodup
  have hn : next a = none := by
    have h := hl
    rw [show l ++ [b, a] = (l ++ [b]) ++ [a] by simp] at h
    exact h.next_eq
  have hf := path_unlink hl.forward hd
  rw [hn] at hf
  refine ⟨hf, ?_, ?_⟩
  · have hb := hl.backward
    rw [List.reverse_append] at hb ⊢
    exact ⟨rfl, hb.2.2⟩
  · exact hd.sublist (by simp)

theorem unlink (hl : DoublyLinked next prev head tail (l₁ ++ b :: a :: c :: l₂)) :
    DoublyLinked (Function.update next b (some c)) (Function.update prev c (some b)) head tail
      (l₁ ++ b :: c :: l₂) := by
  have hd := hl.nodup
  have hn : next a = some c := by
    have h := hl
    rw [show l₁ ++ b :: a :: c :: l₂ = (l₁ ++ [b]) ++ a :: c :: l₂ by simp] at h
    exact h.next_eq
  have hp : prev a = some b := by
    have h := hl
    rw [show l₁ ++ b :: a :: c :: l₂ = (l₁ ++ [b]) ++ a :: c :: l₂ by simp] at h
    rw [h.prev_eq, List.getLast?_concat]
  refine ⟨hn ▸ path_unlink hl.forward hd, ?_, hd.sublist (by simp)⟩
  have hb := hl.backward
  have hr : (l₁ ++ b :: a :: c :: l₂).reverse = l₂.reverse ++ c :: a :: b :: l₁.reverse := by simp
  have hr' : (l₁ ++ b :: c :: l₂).reverse = l₂.reverse ++ c :: b :: l₁.reverse := by simp
  rw [hr] at hb
  rw [hr']
  exact hp ▸ path_unlink hb (hr ▸ List.nodup_reverse.2 hd)

end DoublyLinked

namespace Linked

variable {head tail : Option α}

theorem single (hn : next a = none) : Linked next prev (some a) (some a) [a] :=
  ⟨Function.update prev a none, .single hn (Function.update_self ..),
    fun _ hb hne => absurd (congrArg some (List.mem_singleton.1 hb).symm) hne⟩

theorem push (hl : Linked next prev head (some b) l) (ha : a ∉ l) (hn : next a = none) :
    Linked (Function.update next b (some a)) (Function.update prev a (some b)) head (some a) (l ++ [a]) := by
  obtain ⟨prev', hd, hp⟩ := hl
  refine ⟨_, hd.push ha hn, fun c hc hne => ?_⟩
  by_cases hca : c = a
  · rw [hca, Function.update_self, Function.update_self]
  · rw [Function.update_of_ne hca, Function.update_of_ne hca]
    exact hp c (by simpa [hca] using hc) hne

theorem popHead (hl : Linked next prev head tail (a :: b :: l)) :
    Linked next (Function.update prev b none) (some b) tail (b :: l) := by
  have hhead : head = some a := hl.head_eq
  have hnodup := hl.nodup
  obtain ⟨prev', hd, hp⟩ := hl
  refine ⟨_, hd.popHead, fun c hc hne => ?_⟩
  have hcb : c ≠ b := fun h => hne (congrArg some h.symm)
  rw [Function.update_of_ne hcb, Function.update_of_ne hcb]
  refine hp c (List.mem_cons_of_mem _ hc) fun h => ?_
  obtain rfl : a = c := Option.some.inj (hhead.symm.trans h)
  exact (List.nodup_cons.1 hnodup).1 hc

theorem popTail (hl : Linked next prev head tail (l ++ [b, a])) :
    Linked (Function.update next b none) prev head (some b) (l ++ [b]) := by
  obtain ⟨prev', hd, hp⟩ := hl
  exact ⟨prev', hd.popTail, fun c hc => hp c (by simp at hc ⊢; tauto)⟩

theorem unlink (hl : Linked next prev head tail (l₁ ++ b :: a :: c :: l₂)) :
    Linked (Function.update next b (some c)) (Function.update prev c (some b)) head tail (l₁ ++ b :: c :: l₂) := by
  obtain ⟨prev', hd, hp⟩ := hl
  refine ⟨_, hd.unlink, fun d hd' hne => ?_⟩
  by_cases hdc : d = c
  · rw [hdc, Function.update_self, Function.update_self]
  · rw [Function.update_of_ne hdc, Function.update_of_ne hdc]
    exact hp d (by simp at hd' ⊢; tauto) hne

end Linked

end Yalnix.Chains
