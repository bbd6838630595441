import Mathlib.Logic.Function.Basic

namespace Yalnix.PrivateMemory

variable {P A V : Type}

/-- A place of memory, and whether its owner may write it. -/
structure Cell (V : Type) where
  writable : Bool
  value : V

/-- What each process finds at each of its addresses. -/
abbrev Memories (P A V : Type) := P → A → Option (Cell V)

inductive Act (P A V : Type)
  | store (p : P) (a : A) (v : V)
  | copy (p c : P)
  | grow (p : P)
  | renew (p q : P)
  | leave (p : P)
  | rest

namespace Act

/-- The act makes the memory of `q` what it is, or takes it away. -/
def Remakes (q : P) : Act P A V → Prop
  | copy _ c => c = q
  | renew p p' => p = q ∨ p' = q
  | leave p => p = q
  | store _ _ _ | grow _ | rest => False

def Touches (q : P) (x : Act P A V) : Prop := x.Remakes q ∨ x = grow q ∨ ∃ a v, x = store q a v

variable [DecidableEq P] [DecidableEq A]

def stored (q : P) (a : A) : Act P A V → Option V
  | store p b v => if p = q ∧ b = a then some v else none
  | _ => none

end Act

variable [DecidableEq P] [DecidableEq A]

/-- What an act makes of the memories. A store needs a place that may be written, and a copy a
process that has no memory. Memory that grows keeps its places. -/
def Step (M : Memories P A V) : Act P A V → Memories P A V → Prop
  | .store p a v, M' => (∃ v₀, M p a = some ⟨true, v₀⟩) ∧
      M' = Function.update M p (Function.update (M p) a (some ⟨true, v⟩))
  | .copy p c, M' => (∀ a, M c a = none) ∧ M' = Function.update M c (M p)
  | .grow p, M' => (∀ q, q ≠ p → M' q = M q) ∧ ∀ a k, M p a = some k → M' p a = some k
  | .renew p p', M' => ∀ q, q ≠ p → q ≠ p' → M' q = M q
  | .leave p, M' => M' = Function.update M p fun _ => none
  | .rest, M' => M' = M

inductive Run (M : Memories P A V) : List (Act P A V) → Memories P A V → Prop
  | nil : Run M [] M
  | concat {l : List (Act P A V)} {x : Act P A V} {M' M'' : Memories P A V} : Run M l M' → Step M' x M'' → Run M (l ++ [x]) M''

variable {M M' M'' : Memories P A V} {l : List (Act P A V)} {x : Act P A V} {p q c : P} {a : A} {k : Cell V}

theorem Step.bystander (h : Step M x M') (hx : ¬ x.Touches q) : M' q = M q := by
  cases x with
  | store p b v =>
      obtain ⟨-, rfl⟩ := h
      exact Function.update_of_ne (fun he => hx (.inr (.inr ⟨b, v, congrArg (Act.store · b v) he.symm⟩))) ..
  | copy p c =>
      obtain ⟨-, rfl⟩ := h
      exact Function.update_of_ne (fun he => hx (.inl he.symm)) ..
  | grow p => exact h.1 q fun he => hx (.inr (.inl (congrArg Act.grow he.symm)))
  | renew p p' => exact h q (fun he => hx (.inl (.inl he.symm))) fun he => hx (.inl (.inr he.symm))
  | leave p =>
      obtain rfl := h
      exact Function.update_of_ne (fun he => hx (.inl he.symm)) ..
  | rest => exact congrFun h q

theorem Step.read (h : Step M x M') (hx : ¬ x.Remakes q) (hread : M q a = some k) :
    M' q a = some ⟨k.writable, (x.stored q a).getD k.value⟩ := by
  cases x with
  | store p b v =>
      obtain ⟨⟨v₀, hv₀⟩, rfl⟩ := h
      by_cases hp : p = q
      · subst hp
        rw [Function.update_self]
        by_cases hb : b = a
        · subst hb
          obtain rfl := Option.some.inj (hread.symm.trans hv₀)
          rw [Function.update_self, Act.stored, if_pos ⟨rfl, rfl⟩]
          rfl
        · rw [Function.update_of_ne (Ne.symm hb), Act.stored, if_neg fun h => hb h.2]
          exact hread
      · rw [Function.update_of_ne (Ne.symm hp), Act.stored, if_neg fun h => hp h.1]
        exact hread
  | grow p =>
      by_cases hp : q = p
      · subst hp
        exact h.2 a k hread
      · exact (congrFun (h.1 q hp) a).trans hread
  | copy p c | renew p p' | leave p | rest =>
      refine (congrFun (h.bystander ?_) a).trans hread
      rintro (hr | hr | ⟨b, v, hr⟩)
      · exact hx hr
      · cases hr
      · cases hr

def lastStore (q : P) (a : A) (l : List (Act P A V)) : Option V := l.foldl (fun v x => (x.stored q a).or v) none

theorem lastStore_concat : lastStore q a (l ++ [x]) = (x.stored q a).or (lastStore q a l) := by
  rw [lastStore, List.foldl_append]
  rfl

/-- While its memory is not remade, a process finds at an address what it stored there
last, or what was there before. -/
theorem Run.read (h : Run M l M') (hl : ∀ x ∈ l, ¬ x.Remakes q) (hread : M q a = some k) :
    M' q a = some ⟨k.writable, (lastStore q a l).getD k.value⟩ := by
  induction h with
  | nil => exact hread
  | concat _ hstep ih =>
      have hold := ih (fun x hx => hl x (List.mem_append_left _ hx))
      rw [hstep.read (hl _ (List.mem_append_right _ (List.mem_singleton_self _))) hold, lastStore_concat, Option.getD_or]

theorem Run.constant (h : Run M l M') (hl : ∀ x ∈ l, ¬ x.Remakes q) (hread : M q a = some k) (hk : k.writable = false) :
    M' q a = some k := by
  induction h with
  | nil => exact hread
  | @concat l x M' M'' _ hstep ih =>
      have hold := ih (fun x hx => hl x (List.mem_append_left _ hx))
      have hnone : x.stored q a = none := by
        cases x with
        | store p b v =>
            refine if_neg ?_
            rintro ⟨rfl, rfl⟩
            obtain ⟨⟨v₀, hv₀⟩, -⟩ := hstep
            rw [hold] at hv₀
            obtain rfl := Option.some.inj hv₀
            cases hk
        | _ => rfl
      rw [hstep.read (hl _ (List.mem_append_right _ (List.mem_singleton_self _))) hold, hnone]
      rfl

/-- The copy starts from what was there at the time, and from then on the two are apart. -/
theorem Run.copied (hcopy : Step M (.copy p c) M') (h : Run M' l M'') (hl : ∀ x ∈ l, ¬ x.Remakes c) (hread : M p a = some k) :
    M'' c a = some ⟨k.writable, (lastStore c a l).getD k.value⟩ := by
  refine h.read hl ?_
  obtain ⟨-, rfl⟩ := hcopy
  rw [Function.update_self]
  exact hread

end Yalnix.PrivateMemory
