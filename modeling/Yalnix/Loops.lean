import Mathlib.Logic.Relation

namespace Yalnix.Loops

variable {ε σ α β : Type}

theorem bind_ok {x : Except ε α} {f : α → Except ε β} {b : β} :
    x >>= f = .ok b ↔ ∃ a, x = .ok a ∧ f a = .ok b := by
  cases x with
  | error e => simp [bind, Except.bind]
  | ok a => simp [bind, Except.bind]

theorem ok_bind (a : α) (f : α → Except ε β) : (Except.ok a : Except ε α) >>= f = f a := rfl

theorem bind_congr_ok {x : Except ε α} {f g : α → Except ε β} (h : ∀ a, x = .ok a → f a = g a) : x >>= f = x >>= g := by
  cases x with
  | error e => rfl
  | ok a => exact h a rfl

theorem map_ok {f : α → β} {x : Except ε α} {b : β} : f <$> x = .ok b ↔ ∃ a, x = .ok a ∧ f a = b := by
  cases x with
  | error e => simp [Functor.map, Except.map]
  | ok a => simp [Functor.map, Except.map]

theorem ite_error_ok {p : Prop} [Decidable p] {x : Except ε α} {e : ε} {a : α} :
    (if p then x else .error e) = .ok a ↔ p ∧ x = .ok a := by
  by_cases hp : p <;> simp [hp]

theorem error_ite_ok {p : Prop} [Decidable p] {x : Except ε α} {e : ε} {a : α} :
    (if p then .error e else x) = .ok a ↔ ¬ p ∧ x = .ok a := by
  by_cases hp : p <;> simp [hp]

/-- The loop `for (i = start; i < start + n; i++) body`, where the body may fault. -/
def upTo (body : Nat → σ → Except ε σ) (start : Nat) : Nat → σ → Except ε σ
  | 0, s => .ok s
  | n + 1, s => do
      let s ← body start s
      upTo body (start + 1) n s

/-- The invariant rule of a counted loop: what holds on entry and survives
each round holds on exit, with the index where the loop leaves it. -/
theorem upTo_invariant (I : Nat → σ → Prop) {body : Nat → σ → Except ε σ} {start n : Nat} {s t : σ}
    (hstep : ∀ i s t, start ≤ i → i < start + n → I i s → body i s = .ok t → I (i + 1) t)
    (hs : I start s) (h : upTo body start n s = .ok t) : I (start + n) t := by
  induction n generalizing start s with
  | zero =>
      simp only [upTo, Except.ok.injEq] at h
      exact h ▸ hs
  | succ n ih =>
      obtain ⟨u, hu, ht⟩ := bind_ok.1 h
      have hI := hstep start s u (Nat.le_refl _) (by omega) hs hu
      have := ih (fun i s t hi hn => hstep i s t (by omega) (by omega)) hI ht
      rwa [Nat.add_right_comm] at this

theorem upTo_relation (R : σ → σ → Prop) (hrefl : ∀ s, R s s)
    (htrans : ∀ s t u, R s t → R t u → R s u) {body : Nat → σ → Except ε σ} {start n : Nat} {s t : σ}
    (hstep : ∀ i s t, start ≤ i → i < start + n → body i s = .ok t → R s t)
    (h : upTo body start n s = .ok t) : R s t :=
  upTo_invariant (fun _ u => R s u)
    (fun i u v hi hn hu hv => htrans _ _ _ hu (hstep i u v hi hn hv)) (hrefl s) h

theorem upTo_each (R : σ → σ → Prop) (hrefl : ∀ s, R s s) (htrans : ∀ s t u, R s t → R t u → R s u)
    {body : Nat → σ → Except ε σ} {start n : Nat} {s t : σ} (hstep : ∀ i s t, body i s = .ok t → R s t)
    (h : upTo body start n s = .ok t) : ∀ i, start ≤ i → i < start + n → ∃ u v, R s u ∧ body i u = .ok v := by
  induction n generalizing start s with
  | zero =>
      intro i hi hlt
      omega
  | succ n ih =>
      intro i hi hlt
      obtain ⟨u, hu, h⟩ := bind_ok.1 h
      by_cases he : i = start
      · exact ⟨s, u, hrefl s, he ▸ hu⟩
      · obtain ⟨v, v', hv, hbody⟩ := ih h i (by omega) (by omega)
        exact ⟨v, v', htrans _ _ _ (hstep _ _ _ hu) hv, hbody⟩

theorem upTo_simulation {τ : Type} (R : Nat → σ → τ → Prop) {body : Nat → σ → Except ε σ} {body' : Nat → τ → Except ε τ}
    {start n : Nat} {s s' : σ} {t : τ}
    (hstep : ∀ i s s' t, start ≤ i → i < start + n → R i s t → body i s = .ok s' →
      ∃ t', body' i t = .ok t' ∧ R (i + 1) s' t')
    (hst : R start s t) (h : upTo body start n s = .ok s') : ∃ t', upTo body' start n t = .ok t' ∧ R (start + n) s' t' := by
  induction n generalizing start s t with
  | zero =>
      simp only [upTo, Except.ok.injEq] at h
      exact ⟨t, rfl, h ▸ hst⟩
  | succ n ih =>
      obtain ⟨u, hu, hs'⟩ := bind_ok.1 h
      obtain ⟨v, hv, hR⟩ := hstep start s u t (Nat.le_refl _) (by omega) hst hu
      obtain ⟨t', ht', hR'⟩ := ih (fun i s s' t hi hn => hstep i s s' t (by omega) (by omega)) hR hs'
      exact ⟨t', bind_ok.2 ⟨v, hv, ht'⟩, by rwa [Nat.add_right_comm] at hR'⟩

theorem upTo_total (I : Nat → σ → Prop) {body : Nat → σ → Except ε σ} {start n : Nat} {s : σ}
    (hstep : ∀ i s, start ≤ i → i < start + n → I i s → ∃ t, body i s = .ok t ∧ I (i + 1) t)
    (hs : I start s) : ∃ t, upTo body start n s = .ok t ∧ I (start + n) t := by
  induction n generalizing start s with
  | zero => exact ⟨s, rfl, hs⟩
  | succ n ih =>
      obtain ⟨u, hu, hI⟩ := hstep start s (Nat.le_refl _) (by omega) hs
      obtain ⟨t, ht, hJ⟩ := ih (fun i s hi hn => hstep i s (by omega) (by omega)) hI
      exact ⟨t, bind_ok.2 ⟨u, hu, ht⟩, by rwa [Nat.add_right_comm] at hJ⟩

def yields (x : Except ε α) (test : α → Bool) : Bool :=
  match x with
  | .ok a => test a
  | .error _ => false

theorem yields_iff {x : Except ε α} {test : α → Bool} : yields x test = true ↔ ∃ a, x = .ok a ∧ test a = true := by
  cases x <;> simp [yields]

end Yalnix.Loops
