import Yalnix.Terminals
import Yalnix.Accesses
import Yalnix.Chains

namespace Yalnix.TtyInput

open Loops Machine Processes Accesses Terminals Chains

variable {s s' : Devices} {rs : List (Nat × List (BitVec 8))} {line : List (BitVec 8)} {code : Int} {t : Nat}

def receives : List (Nat × List (BitVec 8)) → Devices → Except Fault Devices
  | [], s => .ok s
  | (tty, line) :: rs, s => do
      let s ← trapTTYReceiveHandler tty line s
      receives rs s

def linesOn (t : Nat) (rs : List (Nat × List (BitVec 8))) : List (List (BitVec 8)) :=
  (rs.filter fun r => r.1 = t).map Prod.snd

def HoldsLine (s : Devices) (a : Nat) (line : List (BitVec 8)) : Prop :=
  s.lines.len a = line.length ∧ ∀ i, ∀ hi : i < line.length, s.bytes (s.lines.content a + i) = (line)[i]

def Buffered (s : Devices) (t : Nat) (lines : List (List (BitVec 8))) : Prop :=
  ∃ l, Path s.lines.next (s.terms t).readIn l none ∧ List.Forall₂ (HoldsLine s) l lines

/-- The `struct term` that is written is a local copy. -/
theorem receive_same (h : trapTTYReceiveHandler code line s = .ok s') :
    s'.terms = s.terms ∧ s'.started = s.started := by
  obtain ⟨⟨n, u⟩, hu, hs'⟩ := bind_ok.1 h
  obtain rfl := Except.ok.inj hs'
  unfold ttyReceiveFunc at hu
  split at hu
  · cases hu
  · obtain ⟨t, -, ht⟩ := bind_ok.1 hu
    dsimp only at ht
    split at ht
    · obtain ⟨-, rfl⟩ := Prod.mk.inj (Except.ok.inj ht)
      exact ⟨rfl, rfl⟩
    · obtain ⟨curr, -, hcurr⟩ := bind_ok.1 ht
      obtain ⟨next, -, hnext⟩ := bind_ok.1 hcurr
      obtain ⟨-, rfl⟩ := Prod.mk.inj (Except.ok.inj hnext)
      exact ⟨rfl, rfl⟩

theorem receives_terms (h : receives rs s = .ok s') : s'.terms = s.terms := by
  induction rs generalizing s with
  | nil =>
      obtain rfl := Except.ok.inj h
      rfl
  | cons r rs ih =>
      obtain ⟨u, hu, h⟩ := bind_ok.1 h
      exact (ih h).trans (receive_same hu).1

theorem buffered_none (hn : (s.terms t).readIn = none) {lines : List (List (BitVec 8))} (hb : Buffered s t lines) :
    lines = [] := by
  obtain ⟨l, hl, hf⟩ := hb
  rw [hn] at hl
  obtain rfl := path_unique hl (path_nil.2 rfl)
  cases hf
  rfl

theorem not_buffered {r : Nat × List (BitVec 8)} (h : receives (r :: rs) (initTerminals s) = .ok s') :
    ∃ t, t < numTerminals ∧ ¬ Buffered s' t (linesOn t (r :: rs)) := by
  obtain ⟨u, hu, -⟩ := bind_ok.1 h
  have hr : r.1 < numTerminals := by
    obtain ⟨v, hv, -⟩ := bind_ok.1 hu
    unfold ttyReceiveFunc at hv
    split at hv
    · cases hv
    · obtain ⟨t, ht, -⟩ := bind_ok.1 hv
      obtain ⟨ht, hlt⟩ := index_ok.1 ht
      omega
  refine ⟨r.1, hr, fun hb => ?_⟩
  have hnone : (s'.terms r.1).readIn = none := by
    rw [receives_terms h]
    simp [initTerminals, hr]
  have := buffered_none hnone hb
  simp [linesOn] at this

/-- From boot on, every receive interrupt so far is followed by full buffers
only if there was none. -/
theorem receive_buffers_iff (s : Devices) (rs : List (Nat × List (BitVec 8))) :
    (∀ l, l ≠ [] → l <+: rs → ∃ s', receives l (initTerminals s) = .ok s' ∧
      ∀ t, t < numTerminals → Buffered s' t (linesOn t l)) ↔ rs = [] := by
  constructor
  · intro h
    cases rs with
    | nil => rfl
    | cons r rs =>
        obtain ⟨s', hs', hb⟩ := h (r :: rs) (by simp) List.prefix_rfl
        obtain ⟨t, ht, hn⟩ := not_buffered hs'
        exact absurd (hb t ht) hn
  · rintro rfl l hl hp
    exact absurd (List.prefix_nil.1 hp) hl

def freshDevices : Devices where
  lines := ⟨0, fun _ => 0, fun _ => 0, fun _ => none⟩
  terms := fun _ => ⟨none, none, none, none, 0⟩
  procs := 2
  readQNext := fun _ => none
  writeQNext := fun _ => none
  heapTop := 0
  bytes := fun _ => 0
  started := []

/-- The first line that terminal 0 receives is on no list. -/
theorem first_line_lost :
    ∃ s', receives [(0, [65])] (initTerminals freshDevices) = .ok s' ∧ ¬ Buffered s' 0 (linesOn 0 [(0, [65])]) := by
  have h : ∃ s', receives [(0, [65])] (initTerminals freshDevices) = .ok s' := ⟨_, rfl⟩
  obtain ⟨s', hs'⟩ := h
  refine ⟨s', hs', fun hb => ?_⟩
  have hnone : (s'.terms 0).readIn = none := by
    rw [receives_terms hs']
    rfl
  cases buffered_none hnone hb

end Yalnix.TtyInput
