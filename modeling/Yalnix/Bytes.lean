import Mathlib.Data.Nat.Digits.Defs
import Mathlib.Logic.Function.Basic

namespace Yalnix.Bytes

abbrev Image := Nat → BitVec 8

variable {b : Image} {a k n start : Nat} {xs : List (BitVec 8)} {l : List (Nat × BitVec 8)}

def write (b : Image) (l : List (Nat × BitVec 8)) : Image := l.foldl (fun b x => Function.update b x.1 x.2) b

def bytesAt (a : Nat) : List (BitVec 8) → List (Nat × BitVec 8)
  | [] => []
  | x :: xs => (a, x) :: bytesAt (a + 1) xs

def Holds (b : Image) (a : Nat) (xs : List (BitVec 8)) : Prop := ∀ k (h : k < xs.length), b (a + k) = xs[k]

def Within (l : List (Nat × BitVec 8)) (start n : Nat) : Prop := ∀ x ∈ l, start ≤ x.1 ∧ x.1 < n

@[simp] theorem write_nil (b : Image) : write b [] = b := rfl

theorem write_append (b : Image) (l l' : List (Nat × BitVec 8)) : write b (l ++ l') = write (write b l) l' :=
  List.foldl_append

theorem write_other (h : ∀ x ∈ l, x.1 ≠ a) : write b l a = b a := by
  induction l generalizing b with
  | nil => rfl
  | cons x l ih =>
      have hx := h x List.mem_cons_self
      exact (ih fun y hy => h y (List.mem_cons_of_mem _ hy)).trans (Function.update_of_ne (Ne.symm hx) ..)

theorem write_congr {b' : Image} (h : b a = b' a) : write b l a = write b' l a := by
  induction l generalizing b b' with
  | nil => exact h
  | cons x l ih =>
      refine ih (?_ : Function.update b x.1 x.2 a = Function.update b' x.1 x.2 a)
      rw [Function.update_apply, Function.update_apply, h]

theorem mem_bytesAt (hn : n < xs.length) : (a + n, xs[n]) ∈ bytesAt a xs := by
  induction xs generalizing a n with
  | nil => exact absurd hn (Nat.not_lt_zero n)
  | cons x xs ih =>
      cases n with
      | zero => exact List.mem_cons_self
      | succ n =>
          have := ih (a := a + 1) (Nat.lt_of_succ_lt_succ hn)
          rw [show a + 1 + n = a + (n + 1) by omega] at this
          exact List.mem_cons_of_mem _ this

theorem within_bytesAt (a : Nat) (xs : List (BitVec 8)) : Within (bytesAt a xs) a (a + xs.length) := by
  induction xs generalizing a with
  | nil => exact fun x hx => absurd hx List.not_mem_nil
  | cons y xs ih =>
      intro x hx
      rw [List.length_cons]
      rcases List.mem_cons.1 hx with rfl | hx
      · exact ⟨Nat.le_refl a, by omega⟩
      · have := ih (a + 1) x hx
        omega

theorem holds_bytesAt (b : Image) (a : Nat) (xs : List (BitVec 8)) : Holds (write b (bytesAt a xs)) a xs := by
  induction xs generalizing a b with
  | nil => exact fun k hk => absurd hk (Nat.not_lt_zero k)
  | cons x xs ih =>
      intro k hk
      cases k with
      | zero =>
          refine (write_other (l := bytesAt (a + 1) xs) fun y hy => ?_).trans (Function.update_self ..)
          have := within_bytesAt (a + 1) xs y hy
          omega
      | succ k =>
          have := ih (Function.update b a x) (a + 1) k (Nat.lt_of_succ_lt_succ hk)
          rwa [show a + 1 + k = a + (k + 1) by omega] at this

theorem Holds.write (h : Holds b a xs) (ho : ∀ x ∈ l, x.1 < a ∨ a + xs.length ≤ x.1) : Holds (write b l) a xs := by
  intro k hk
  rw [write_other fun x hx => ?_]
  · exact h k hk
  · have := ho x hx
    omega

theorem Holds.congr {b' : Image} (h : Holds b a xs) (he : ∀ c, a ≤ c → c < a + xs.length → b' c = b c) : Holds b' a xs :=
  fun k hk => (he (a + k) (by omega) (by omega)).trans (h k hk)

def blockWrites (l : List (Nat × List (BitVec 8))) : List (Nat × BitVec 8) := l.flatMap fun p => bytesAt p.1 p.2

def NoOverlap (p q : Nat × List (BitVec 8)) : Prop := p.1 + p.2.length ≤ q.1 ∨ q.1 + q.2.length ≤ p.1

theorem blockWrites_mem {ps : List (Nat × List (BitVec 8))} {x : Nat × BitVec 8} (h : x ∈ blockWrites ps) :
    ∃ p ∈ ps, p.1 ≤ x.1 ∧ x.1 < p.1 + p.2.length := by
  obtain ⟨p, hp, hx⟩ := List.mem_flatMap.1 h
  exact ⟨p, hp, within_bytesAt p.1 p.2 x hx⟩

/-- Blocks that do not overlap are all there at the end. -/
theorem holds_blocks {ps : List (Nat × List (BitVec 8))} (h : ps.Pairwise NoOverlap) (b : Image) :
    ∀ p ∈ ps, Holds (write b (blockWrites ps)) p.1 p.2 := by
  induction ps generalizing b with
  | nil => exact fun p hp => absurd hp List.not_mem_nil
  | cons q ps ih =>
      obtain ⟨hq, hps⟩ := List.pairwise_cons.1 h
      intro p hp
      rw [blockWrites, List.flatMap_cons, write_append]
      rcases List.mem_cons.1 hp with rfl | hp
      · refine (holds_bytesAt b p.1 p.2).write fun x hx => ?_
        obtain ⟨r, hr, h₁, h₂⟩ := blockWrites_mem hx
        rcases hq r hr with h | h
        · exact .inr (Nat.le_trans h h₁)
        · exact .inl (Nat.lt_of_lt_of_le h₂ h)
      · exact ih hps _ p hp

/-- The number in `n` bytes, the low byte first. -/
def number (b : Image) (n a : Nat) : Nat := Nat.ofDigits 256 ((List.range n).map fun k => (b (a + k)).toNat)

def digits (n x : Nat) : List (BitVec 8) := (List.range n).map fun k => BitVec.ofNat 8 (x / 256 ^ k)

theorem digits_length (n x : Nat) : (digits n x).length = n := by
  simp [digits]

theorem ofDigits_range (n x : Nat) : Nat.ofDigits 256 ((List.range n).map fun k => x / 256 ^ k % 256) = x % 256 ^ n := by
  induction n generalizing x with
  | zero => simp [Nat.mod_one]
  | succ n ih =>
      rw [List.range_succ_eq_map, List.map_cons, List.map_map, Nat.ofDigits_cons, Nat.pow_succ', Nat.mod_mul, ← ih (x / 256)]
      simp [Function.comp_def, Nat.pow_succ', Nat.div_div_eq_div_mul]

theorem number_holds {x : Nat} (h : Holds b a (digits n x)) (hx : x < 256 ^ n) : number b n a = x := by
  have hmap : ((List.range n).map fun k => (b (a + k)).toNat) = (List.range n).map fun k => x / 256 ^ k % 256 := by
    refine List.map_congr_left fun k hk => ?_
    rw [h k ((digits_length n x).symm ▸ List.mem_range.1 hk)]
    simp [digits]
  rw [number, hmap, ofDigits_range, Nat.mod_eq_of_lt hx]

/-- The string at `a`, when its end is among the next `n` bytes. -/
def string (b : Image) : Nat → Nat → Option (List (BitVec 8))
  | 0, _ => none
  | n + 1, a => if b a = 0 then some [] else (string b n (a + 1)).map (b a :: ·)

theorem string_holds (h : Holds b a (xs ++ [0])) (hz : 0 ∉ xs) (hn : xs.length < n) : string b n a = some xs := by
  induction xs generalizing a n with
  | nil =>
      cases n with
      | zero => cases hn
      | succ n => exact if_pos (h 0 (by simp))
  | cons x xs ih =>
      cases n with
      | zero => cases hn
      | succ n =>
          have hx : b a = x := h 0 (by simp)
          have htail : Holds b (a + 1) (xs ++ [0]) := by
            intro k hk
            have := h (k + 1) (by simpa using hk)
            rwa [show a + 1 + k = a + (k + 1) by omega]
          rw [string, if_neg (hx ▸ fun h0 => hz (h0 ▸ List.mem_cons_self)), ih htail (fun h => hz (List.mem_cons_of_mem _ h))
            (Nat.lt_of_succ_lt_succ hn), hx]
          rfl

end Yalnix.Bytes
