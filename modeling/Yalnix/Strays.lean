import Yalnix.Ownership
import Mathlib.Data.Set.Card

namespace Yalnix.Strays

open Ownership

variable {H R : Type} {P P' : H → Prop} {name name' : H → Option R} {T T' : R → Prop} {A B : Set R} {x : H} {r : R}

def named (P : H → Prop) (name : H → Option R) : Set R := {r | ∃ x, P x ∧ name x = some r}

/-- What is taken and named by no holder in play. -/
def strays (P : H → Prop) (name : H → Option R) (T : R → Prop) : Set R := {r | T r ∧ ∀ x, P x → name x ≠ some r}

theorem mem_strays : r ∈ strays P name T ↔ T r ∧ r ∉ named P name :=
  and_congr_right fun _ => ⟨fun h ⟨x, hx, hn⟩ => h x hx hn, fun h x hx hn => h ⟨x, hx, hn⟩⟩

theorem named_taken (h : Exclusive P name T) (hr : r ∈ named P name) : T r := by
  obtain ⟨x, hx, hn⟩ := hr
  exact h.taken x r hx hn

theorem strays_congr (hname : ∀ x, P x → name' x = name x) (hT : ∀ r, T' r ↔ T r) : strays P name' T' = strays P name T := by
  ext r
  refine and_congr (hT r) (forall_congr' fun x => imp_congr_right fun hx => ?_)
  rw [hname x hx]

theorem strays_take (h : Exclusive P name T) (hfree : ∀ r ∈ A, ¬ T r) (hT : ∀ r, T' r ↔ T r ∨ r ∈ A)
    (hnamed : ∀ r, r ∈ named P' name' ↔ r ∈ named P name ∨ r ∈ B) (hB : B ⊆ A) :
    strays P' name' T' = strays P name T ∪ A \ B := by
  ext r
  have htaken : r ∈ named P name → T r := named_taken h
  have hA := hfree r
  have hBA : r ∈ B → r ∈ A := fun hr => hB hr
  rw [Set.mem_union, Set.mem_sdiff, mem_strays, mem_strays, hT, hnamed]
  tauto

theorem strays_gain (h : Exclusive P name T) (hfree : ¬ T r) (hT : ∀ q, T' q ↔ T q ∨ q = r) (hx : P x) (hold : name x = none)
    (hnew : name' x = some r) (hother : ∀ y, y ≠ x → name' y = name y) : strays P name' T' = strays P name T := by
  have hnamed (q : R) : q ∈ named P name' ↔ q ∈ named P name ∨ q ∈ ({r} : Set R) := by
    constructor
    · rintro ⟨y, hy, hn⟩
      by_cases hyx : y = x
      · rw [hyx, hnew] at hn
        exact .inr (Option.some.inj hn).symm
      · exact .inl ⟨y, hy, hother y hyx ▸ hn⟩
    · rintro (⟨y, hy, hn⟩ | rfl)
      · have hyx : y ≠ x := by
          rintro rfl
          rw [hold] at hn
          cases hn
        exact ⟨y, hy, (hother y hyx).trans hn⟩
      · exact ⟨x, hx, hnew⟩
  rw [strays_take h (A := {r}) (by rintro q rfl; exact hfree) hT hnamed subset_rfl, Set.sdiff_self, Set.union_empty]

/-- Holders leave or let go, and what they named is given back. -/
theorem strays_give (hname : ∀ x, P' x → name' x = none ∨ P x ∧ name' x = name x)
    (hT : ∀ r, T' r ↔ T r ∧ ∀ x, P x → name x = some r → P' x ∧ name' x = some r) : strays P' name' T' = strays P name T := by
  ext r
  constructor
  · rintro ⟨hr, hno⟩
    obtain ⟨hold, hstay⟩ := (hT r).1 hr
    refine ⟨hold, fun x hx hn => ?_⟩
    obtain ⟨hx', hn'⟩ := hstay x hx hn
    exact hno x hx' hn'
  · rintro ⟨hr, hno⟩
    refine ⟨(hT r).2 ⟨hr, fun x hx hn => absurd hn (hno x hx)⟩, fun x hx hn => ?_⟩
    rcases hname x hx with hnone | ⟨hP, hsame⟩
    · rw [hnone] at hn
      cases hn
    · exact hno x hP (hsame ▸ hn)

/-- What is taken is named or stray. -/
theorem balance (h : Exclusive P name T) (hfin : Set.Finite {r | T r}) :
    (named P name).ncard + (strays P name T).ncard = Set.ncard {r | T r} := by
  have hunion : named P name ∪ strays P name T = {r | T r} := by
    ext r
    have htaken : r ∈ named P name → T r := named_taken h
    have hiff : r ∈ {r | T r} ↔ T r := Iff.rfl
    rw [Set.mem_union, mem_strays, hiff]
    tauto
  have hdisj : Disjoint (named P name) (strays P name T) :=
    Set.disjoint_left.2 fun r hr hs => (mem_strays.1 hs).2 hr
  rw [← hunion] at hfin ⊢
  exact (Set.ncard_union_eq hdisj (hfin.subset Set.subset_union_left) (hfin.subset Set.subset_union_right)).symm

end Yalnix.Strays
