import Mathlib.Logic.Basic

namespace Yalnix.Lookaside

variable {α ε : Type} [DecidableEq α]

abbrev Buffer (α ε : Type) := α → Option ε

/-- The buffer answers for the pages it holds, the table for the others. -/
def serve (table : α → Option ε) (b : Buffer α ε) (p : α) : Option ε :=
  match b p with
  | some e => some e
  | none => table p

def served (keep : α → Bool) (table : α → Option ε) (b : Buffer α ε) (p : α) : Buffer α ε := fun q =>
  if keep q then if q = p then serve table b p else b q else none

def flush (s : α → Bool) (b : Buffer α ε) : Buffer α ε := fun q => if s q then none else b q

/-- What the buffer holds is what the table says, and is outside `s`. -/
def Coherent (table : α → Option ε) (s : α → Prop) (b : Buffer α ε) : Prop :=
  ∀ p e, b p = some e → table p = some e ∧ ¬ s p

variable {table table' : α → Option ε} {s : α → Prop} {b : Buffer α ε} {keep f : α → Bool} {p : α}

omit [DecidableEq α] in
theorem Coherent.serve_eq (h : Coherent table s b) (p : α) : serve table b p = table p := by
  unfold serve
  cases hb : b p with
  | none => rfl
  | some e => exact (h p e hb).1.symm

theorem Coherent.served (h : Coherent table s b) (hp : ¬ s p) : Coherent table s (served keep table b p) := by
  intro q e he
  unfold Lookaside.served at he
  split at he
  case isTrue =>
    split at he
    case isTrue hq =>
      subst hq
      rw [h.serve_eq] at he
      exact ⟨he, hp⟩
    case isFalse => exact h q e he
  case isFalse => cases he

omit [DecidableEq α] in
theorem Coherent.update (h : Coherent table s b) (ht : ∀ p, ¬ s p → table' p = table p) : Coherent table' s b := by
  intro p e he
  obtain ⟨hp, hs⟩ := h p e he
  exact ⟨(ht p hs).trans hp, hs⟩

/-- A page of `s` may be served if it is flushed before the table changes there again. -/
theorem Coherent.served_flush (h : Coherent table s b) (hs : ∀ q, s q → f q = true) :
    Coherent table s (flush f (Lookaside.served keep table b p)) := by
  intro q e he
  unfold flush at he
  split at he
  case isTrue => cases he
  case isFalse hf =>
    have hq : ¬ s q := fun hsq => hf (hs q hsq)
    unfold Lookaside.served at he
    split at he
    case isTrue =>
      split at he
      case isTrue hp =>
        subst hp
        rw [h.serve_eq] at he
        exact ⟨he, hq⟩
      case isFalse => exact h q e he
    case isFalse => cases he

end Yalnix.Lookaside
