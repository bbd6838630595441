import Mathlib.Data.List.Nodup
import Mathlib.Data.List.Pairwise
import Mathlib.Logic.Function.Basic

namespace Yalnix.Forests

/-- The processes of a system as a forest: which are live, the live children of
each in the order they were made, and the exits of children that no one has
collected, oldest first. What is said of a process that is not live is void. -/
structure Forest where
  born : Nat
  live : Nat → Prop
  kids : Nat → List Nat
  reports : Nat → List (Nat × Int)
  born_of_live : ∀ {p}, live p → p < born
  live_of_kid : ∀ {p q}, live p → q ∈ kids p → live q
  older_of_kid : ∀ {p q}, live p → q ∈ kids p → p < q
  sorted : ∀ {p}, live p → (kids p).Pairwise (· < ·)
  unique : ∀ {p p' q}, live p → live p' → q ∈ kids p → q ∈ kids p' → p = p'

variable {F : Forest} {p q c : Nat}

theorem kids_nodup (hp : F.live p) : (F.kids p).Nodup :=
  (F.sorted hp).imp Nat.ne_of_lt

theorem kid_born (hp : F.live p) (hq : q ∈ F.kids p) : q < F.born :=
  F.born_of_live (F.live_of_kid hp hq)

theorem not_kid_of_self (hp : F.live p) : p ∉ F.kids p := fun h => Nat.lt_irrefl p (F.older_of_kid hp h)

def Forest.spawn (F : Forest) : Forest where
  born := F.born + 1
  live p := F.live p ∨ p = F.born
  kids := Function.update F.kids F.born []
  reports := Function.update F.reports F.born []
  born_of_live h := by
    rcases h with h | rfl
    · exact Nat.lt_succ_of_lt (F.born_of_live h)
    · exact Nat.lt_succ_self _
  live_of_kid {p q} hp hq := by
    rcases hp with hp | rfl
    · rw [Function.update_of_ne (Nat.ne_of_lt (F.born_of_live hp))] at hq
      exact .inl (F.live_of_kid hp hq)
    · simp at hq
  older_of_kid {p q} hp hq := by
    rcases hp with hp | rfl
    · rw [Function.update_of_ne (Nat.ne_of_lt (F.born_of_live hp))] at hq
      exact F.older_of_kid hp hq
    · simp at hq
  sorted {p} hp := by
    rcases hp with hp | rfl
    · rw [Function.update_of_ne (Nat.ne_of_lt (F.born_of_live hp))]
      exact F.sorted hp
    · simp
  unique {p p' q} hp hp' hq hq' := by
    rcases hp with hp | rfl
    · rcases hp' with hp' | rfl
      · rw [Function.update_of_ne (Nat.ne_of_lt (F.born_of_live hp))] at hq
        rw [Function.update_of_ne (Nat.ne_of_lt (F.born_of_live hp'))] at hq'
        exact F.unique hp hp' hq hq'
      · simp at hq'
    · simp at hq

theorem spawn_kids (hp : F.live p) : F.spawn.kids p = F.kids p :=
  Function.update_of_ne (Nat.ne_of_lt (F.born_of_live hp)) _ _

theorem spawn_reports (hp : F.live p) : F.spawn.reports p = F.reports p :=
  Function.update_of_ne (Nat.ne_of_lt (F.born_of_live hp)) _ _

def Forest.adopt (F : Forest) (p c : Nat) (hp : F.live p) (hc : F.live c) (hroot : ∀ r, F.live r → c ∉ F.kids r)
    (hlast : ∀ r q, F.live r → q ∈ F.kids r → q < c) (hpc : p < c) : Forest where
  born := F.born
  live := F.live
  kids := Function.update F.kids p (F.kids p ++ [c])
  reports := F.reports
  born_of_live := F.born_of_live
  live_of_kid {r q} hr hq := by
    by_cases h : r = p
    · subst h
      rw [Function.update_self, List.mem_append, List.mem_singleton] at hq
      rcases hq with hq | rfl
      · exact F.live_of_kid hr hq
      · exact hc
    · rw [Function.update_of_ne h] at hq
      exact F.live_of_kid hr hq
  older_of_kid {r q} hr hq := by
    by_cases h : r = p
    · subst h
      rw [Function.update_self, List.mem_append, List.mem_singleton] at hq
      rcases hq with hq | rfl
      · exact F.older_of_kid hr hq
      · exact hpc
    · rw [Function.update_of_ne h] at hq
      exact F.older_of_kid hr hq
  sorted {r} hr := by
    by_cases h : r = p
    · subst h
      rw [Function.update_self]
      exact List.pairwise_append.2 ⟨F.sorted hr, by simp, fun q hq c' hc' =>
        List.mem_singleton.1 hc' ▸ hlast r q hr hq⟩
    · rw [Function.update_of_ne h]
      exact F.sorted hr
  unique {r r' q} hr hr' hq hq' := by
    have kid {r} (hr : F.live r) (hq : q ∈ Function.update F.kids p (F.kids p ++ [c]) r) :
        q ∈ F.kids r ∨ r = p ∧ q = c := by
      by_cases h : r = p
      · subst h
        rw [Function.update_self, List.mem_append, List.mem_singleton] at hq
        exact hq.imp_right fun h => ⟨rfl, h⟩
      · rw [Function.update_of_ne h] at hq
        exact .inl hq
    rcases kid hr hq with hk | ⟨rfl, rfl⟩
    · rcases kid hr' hq' with hk' | ⟨rfl, rfl⟩
      · exact F.unique hr hr' hk hk'
      · exact absurd hk (hroot r hr)
    · rcases kid hr' hq' with hk' | ⟨rfl, -⟩
      · exact absurd hk' (hroot r' hr')
      · rfl

def Forest.fork (F : Forest) (p : Nat) (hp : F.live p) : Forest :=
  F.spawn.adopt p F.born (.inl hp) (.inr rfl)
    (fun r hr hq => Nat.lt_irrefl _ <| by
      rcases hr with hr | rfl
      · exact kid_born hr (spawn_kids hr ▸ hq)
      · simp [Forest.spawn] at hq)
    (fun r q hr hq => by
      rcases hr with hr | rfl
      · exact kid_born hr (spawn_kids hr ▸ hq)
      · simp [Forest.spawn] at hq)
    (F.born_of_live hp)

/-- The end of `q`: its live parent, if it has one, loses it and gets a report;
its own children become roots. -/
def Forest.exit (F : Forest) (q : Nat) (status : Int) : Forest where
  born := F.born
  live p := F.live p ∧ p ≠ q
  kids p := (F.kids p).erase q
  reports p := if q ∈ F.kids p then F.reports p ++ [(q, status)] else F.reports p
  born_of_live h := F.born_of_live h.1
  live_of_kid hp hr := by
    obtain ⟨hne, hr⟩ := (kids_nodup hp.1).mem_erase_iff.1 hr
    exact ⟨F.live_of_kid hp.1 hr, hne⟩
  older_of_kid hp hr := F.older_of_kid hp.1 (List.mem_of_mem_erase hr)
  sorted hp := (F.sorted hp.1).sublist List.erase_sublist
  unique hp hp' hq hq' := F.unique hp.1 hp'.1 (List.mem_of_mem_erase hq) (List.mem_of_mem_erase hq')

def Forest.collect (F : Forest) (p : Nat) : Forest :=
  { F with reports := Function.update F.reports p (F.reports p).tail }

theorem fork_kids_parent (hp : F.live p) : (F.fork p hp).kids p = F.kids p ++ [F.born] := by
  rw [← spawn_kids hp]
  exact Function.update_self ..

theorem fork_kids (hp : F.live p) (hq : F.live q) (hne : q ≠ p) : (F.fork p hp).kids q = F.kids q := by
  rw [← spawn_kids hq]
  exact Function.update_of_ne hne ..

theorem fork_kids_child (hp : F.live p) : (F.fork p hp).kids F.born = [] := by
  have hne : F.born ≠ p := (Nat.ne_of_lt (F.born_of_live hp)).symm
  exact (Function.update_of_ne hne ..).trans (Function.update_self ..)

theorem fork_reports (hp : F.live p) (hq : F.live q) : (F.fork p hp).reports q = F.reports q :=
  spawn_reports hq

theorem fork_reports_child (hp : F.live p) : (F.fork p hp).reports F.born = [] :=
  Function.update_self ..

theorem exists_childless {p : Nat} (hp : F.live p) : ∃ q, F.live q ∧ p ≤ q ∧ F.kids q = [] := by
  cases h : F.kids p with
  | nil => exact ⟨p, hp, Nat.le_refl p, h⟩
  | cons c l =>
      have hc : c ∈ F.kids p := h ▸ List.mem_cons_self
      have hpc := F.older_of_kid hp hc
      have := kid_born hp hc
      obtain ⟨q, hq, hcq, hnil⟩ := exists_childless (F.live_of_kid hp hc)
      exact ⟨q, hq, by omega, hnil⟩
termination_by F.born - p

end Yalnix.Forests
