import Yalnix.Forests

namespace Yalnix.ProcessSystem

open Forests

/-- Processes without tables, contexts and linked lists: one runs, the ready
ones stand in line, and the others sleep in Wait until a child of theirs exits.
Process 0 runs when no other can. -/
structure System where
  forest : Forest
  ready : List Nat
  curr : Nat
  inWait : Nat → Bool

inductive Act
  | fork
  | exit (status : Int)
  | wait
  | resume

variable {o o' o'' : System} {a : Act} {as : List Act} {i j k n p : Nat}

def System.dispatch (o : System) : System :=
  { o with curr := o.ready.headD 0, ready := o.ready.tail }

def System.Wakes (o : System) (q : Nat) : Prop :=
  o.forest.live q ∧ o.curr ∈ o.forest.kids q ∧ o.inWait q = true ∧ q ∉ o.ready

/-- A step, and how many it takes from the line. -/
inductive Step : System → Act → Nat → System → Prop
  | fork {o : System} (hp : o.forest.live o.curr) : Step o .fork 0
      ⟨o.forest.fork o.curr hp, o.ready ++ [o.curr], o.forest.born, Function.update o.inWait o.forest.born false⟩
  | exit {o : System} {status : Int} {woken : Option Nat} (hwoken : ∀ q, woken = some q ↔ o.Wakes q) :
      Step o (.exit status) 1
        (System.dispatch { o with forest := o.forest.exit o.curr status, ready := o.ready ++ woken.toList })
  | noChild {o : System} (hr : o.forest.reports o.curr = []) (hk : o.forest.kids o.curr = []) : Step o .wait 0 o
  | sleep {o : System} (hr : o.forest.reports o.curr = []) (hk : o.forest.kids o.curr ≠ []) :
      Step o .wait 1 (System.dispatch { o with inWait := Function.update o.inWait o.curr true })
  | collect {o : System} (hr : o.forest.reports o.curr ≠ []) :
      Step o .wait 0 { o with forest := o.forest.collect o.curr }
  | back {o : System} (hw : o.inWait o.curr = false) : Step o .resume 0 o
  | backFromWait {o : System} (hw : o.inWait o.curr = true) (hr : o.forest.reports o.curr ≠ []) :
      Step o .resume 0
        { o with forest := o.forest.collect o.curr, inWait := Function.update o.inWait o.curr false }

inductive Run (o : System) : List Act → Nat → System → Prop
  | nil : Run o [] 0 o
  | step {as : List Act} {a : Act} {n k : Nat} {o' o'' : System} :
      Run o as n o' → Step o' a k o'' → Run o (as ++ [a]) (n + k) o''

theorem dispatch_head (hp : o.ready[0]? = some p) : o.dispatch.curr = p := by
  rw [System.dispatch, List.headD_eq_head?_getD, List.head?_eq_getElem?, hp]
  rfl

theorem dispatch_tail (hp : o.ready[j + 1]? = some p) : o.dispatch.ready[j]? = some p := by
  rw [System.dispatch, List.getElem?_tail, hp]

/-- Nobody is put before those who stand in line, and only the first leaves. -/
theorem step_line (h : Step o a k o') (hp : o.ready[i]? = some p) :
    (k = 0 ∧ o'.ready[i]? = some p) ∨ (k = 1 ∧ i = 0 ∧ o'.curr = p) ∨
      (k = 1 ∧ ∃ j, i = j + 1 ∧ o'.ready[j]? = some p) := by
  have hlonger (l : List Nat) : (o.ready ++ l)[i]? = some p := by
    obtain ⟨hi, -⟩ := List.getElem?_eq_some_iff.1 hp
    rw [List.getElem?_append_left hi, hp]
  have hdispatch (u : System) (hu : u.ready[i]? = some p) :
      (i = 0 ∧ u.dispatch.curr = p) ∨ ∃ j, i = j + 1 ∧ u.dispatch.ready[j]? = some p := by
    cases i with
    | zero => exact .inl ⟨rfl, dispatch_head hu⟩
    | succ j => exact .inr ⟨j, rfl, dispatch_tail hu⟩
  cases h with
  | fork hl => exact .inl ⟨rfl, hlonger _⟩
  | exit hwoken => exact .inr ((hdispatch _ (hlonger _)).imp (⟨rfl, ·⟩) (⟨rfl, ·⟩))
  | sleep hr hk => exact .inr ((hdispatch _ hp).imp (⟨rfl, ·⟩) (⟨rfl, ·⟩))
  | noChild | collect | back | backFromWait => exact .inl ⟨rfl, hp⟩

theorem run_line (h : Run o as n o') (hp : o.ready[i]? = some p) (hn : n ≤ i) : o'.ready[i - n]? = some p := by
  induction h with
  | nil => exact hp
  | @step as a n k o' o'' _ hstep ih =>
      rcases step_line hstep (ih (by omega)) with ⟨rfl, hline⟩ | ⟨rfl, hz, -⟩ | ⟨rfl, j, hj, hline⟩
      · exact hline
      · omega
      · rwa [show i - (n + 1) = j by omega]

/-- Whoever stands behind `i` others runs as soon as the line has moved `i + 1` times. -/
theorem run_turn (h : Run o as i o') (hp : o.ready[i]? = some p) (hstep : Step o' a 1 o'') : o''.curr = p := by
  have hline := run_line h hp (Nat.le_refl i)
  rw [Nat.sub_self] at hline
  rcases step_line hstep hline with ⟨hk, -⟩ | ⟨-, -, hcurr⟩ | ⟨-, j, hj, -⟩
  · cases hk
  · exact hcurr
  · cases hj

end Yalnix.ProcessSystem
