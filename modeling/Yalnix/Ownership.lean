import Mathlib.Logic.Function.Basic

namespace Yalnix.Ownership

variable {H R : Type} {P P' : H → Prop} {name name' : H → Option R} {T T' : R → Prop} {x : H} {r : R}

/-- No two of the holders in play name the same resource, and what one of them names is taken. -/
structure Exclusive (P : H → Prop) (name : H → Option R) (T : R → Prop) : Prop where
  taken : ∀ x r, P x → name x = some r → T r
  apart : ∀ x y r, P x → P y → name x = some r → name y = some r → x = y

namespace Exclusive

theorem drop (h : Exclusive P name T) (hname : ∀ x, P' x → name' x = none ∨ P x ∧ name' x = name x)
    (hT : ∀ r, T r → T' r) : Exclusive P' name' T' := by
  have hold {x : H} {r : R} (hx : P' x) (hn : name' x = some r) : P x ∧ name x = some r := by
    rcases hname x hx with hnone | ⟨hP, hsame⟩
    · rw [hnone] at hn
      cases hn
    · exact ⟨hP, hsame ▸ hn⟩
  refine ⟨fun x r hx hn => ?_, fun x y r hx hy hnx hny => ?_⟩
  · obtain ⟨hP, hn⟩ := hold hx hn
    exact hT r (h.taken x r hP hn)
  · obtain ⟨hPx, hnx⟩ := hold hx hnx
    obtain ⟨hPy, hny⟩ := hold hy hny
    exact h.apart x y r hPx hPy hnx hny

theorem mono (h : Exclusive P name T) (hP : ∀ x, P' x → P x) : Exclusive P' name T :=
  h.drop (fun x hx => .inr ⟨hP x hx, rfl⟩) fun _ hr => hr

theorem congr (h : Exclusive P name T) (hname : ∀ x, P x → name' x = name x) (hT : ∀ r, T r → T' r) :
    Exclusive P name' T' :=
  h.drop (fun x hx => .inr ⟨hx, hname x hx⟩) hT

/-- A holder takes a resource that no other names. -/
theorem acquire (h : Exclusive P name T) (hr : ∀ y, P y → y ≠ x → name y ≠ some r) (hx : name' x = some r)
    (hother : ∀ y, P' y → y ≠ x → P y ∧ name' y = name y) (hT : ∀ q, T q → T' q) (hTr : T' r) :
    Exclusive P' name' T' := by
  have hsole {y : H} (hy : P' y) (hn : name' y = some r) : y = x := by
    by_contra hne
    obtain ⟨hP, hsame⟩ := hother y hy hne
    exact hr y hP hne (hsame ▸ hn)
  refine ⟨fun y q hy hn => ?_, fun y z q hy hz hny hnz => ?_⟩
  · by_cases hyx : y = x
    · rw [hyx, hx] at hn
      exact Option.some.inj hn ▸ hTr
    · obtain ⟨hP, hsame⟩ := hother y hy hyx
      exact hT q (h.taken y q hP (hsame ▸ hn))
  · by_cases hyx : y = x
    · rw [hyx, hx] at hny
      obtain rfl := Option.some.inj hny
      rw [hyx, hsole hz hnz]
    · by_cases hzx : z = x
      · rw [hzx, hx] at hnz
        obtain rfl := Option.some.inj hnz
        rw [hzx, hsole hy hny]
      · obtain ⟨hPy, hsamey⟩ := hother y hy hyx
        obtain ⟨hPz, hsamez⟩ := hother z hz hzx
        exact h.apart y z q hPy hPz (hsamey ▸ hny) (hsamez ▸ hnz)

theorem release (h : Exclusive P name T) (hr : ∀ y, P y → name y ≠ some r) (hT : ∀ q, q ≠ r → T q → T' q) :
    Exclusive P name T' := by
  refine ⟨fun y q hy hn => hT q ?_ (h.taken y q hy hn), h.apart⟩
  rintro rfl
  exact hr y hy hn

end Exclusive

end Yalnix.Ownership
