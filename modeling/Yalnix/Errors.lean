import Yalnix.Loops

namespace Yalnix.Errors

open Loops

variable {ε σ α β : Type} {e e' : ε} {x : Except ε α}

structure Avoids (e : ε) (x : Except ε α) : Prop where
  ne : x ≠ .error e

theorem avoids_ok (a : α) : Avoids e (.ok a : Except ε α) := ⟨nofun⟩

theorem avoids_pure (a : α) : Avoids e (pure a : Except ε α) := ⟨nofun⟩

theorem avoids_error (h : e' ≠ e) : Avoids e (.error e' : Except ε α) := ⟨fun he => h (Except.error.inj he)⟩

theorem avoids_bind {f : α → Except ε β} (hx : Avoids e x) (hf : ∀ a, x = .ok a → Avoids e (f a)) : Avoids e (x >>= f) := by
  cases x with
  | error e' => exact ⟨fun he => hx.ne (congrArg Except.error (Except.error.inj he))⟩
  | ok a => exact hf a rfl

theorem avoids_map {f : α → β} (hx : Avoids e x) : Avoids e (f <$> x) := by
  cases x with
  | error e' => exact ⟨fun he => hx.ne (congrArg Except.error (Except.error.inj he))⟩
  | ok a => exact ⟨nofun⟩

theorem avoids_ite {p : Prop} [Decidable p] {y : Except ε α} (hx : p → Avoids e x) (hy : ¬ p → Avoids e y) :
    Avoids e (if p then x else y) := by
  by_cases hp : p
  · rw [if_pos hp]
    exact hx hp
  · rw [if_neg hp]
    exact hy hp

/-- A counted loop avoids the error when each of its rounds does, from the states
that the rounds before it lead to. -/
theorem avoids_upTo (I : Nat → σ → Prop) {body : Nat → σ → Except ε σ} {start n : Nat} {s : σ}
    (hstep : ∀ i s, start ≤ i → i < start + n → I i s → Avoids e (body i s) ∧ ∀ t, body i s = .ok t → I (i + 1) t)
    (hs : I start s) : Avoids e (upTo body start n s) := by
  induction n generalizing start s with
  | zero => exact avoids_ok s
  | succ n ih =>
      obtain ⟨havoids, hnext⟩ := hstep start s (Nat.le_refl _) (by omega) hs
      exact avoids_bind havoids fun t ht => ih (fun i u hi hn => hstep i u (by omega) (by omega)) (hnext t ht)

theorem avoids_upTo_each {body : Nat → σ → Except ε σ} {start n : Nat} {s : σ}
    (hstep : ∀ i s, start ≤ i → i < start + n → Avoids e (body i s)) : Avoids e (upTo body start n s) :=
  avoids_upTo (fun _ _ => True) (fun i s hi hn _ => ⟨hstep i s hi hn, fun _ _ => trivial⟩) trivial

end Yalnix.Errors
