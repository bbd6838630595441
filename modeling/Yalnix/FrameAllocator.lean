import Yalnix.Chains
import Yalnix.FreeCounter

namespace Yalnix.FrameAllocator

open Loops Machine AddressSpace Accesses FreeList FreeCounter

/-- What happened to the allocator: `findFreePage` handed out a frame, or found
none, or `freePage` took one back. -/
inductive Event
  | got (f : Nat)
  | full
  | freed (f : Nat)

/-- The frames handed out and not taken back. The latest event comes first. -/
def out : List Event → List Nat
  | [] => []
  | .got f :: h => f :: out h
  | .full :: h => out h
  | .freed f :: h => (out h).erase f

inductive Run (pmemSize : BitVec 32) (m₀ : Memory) : List Event → Memory → Prop
  | boot : Run pmemSize m₀ [] (buildFreePages pmemSize m₀)
  | got {h : List Event} {m m' : Memory} {f : Nat} :
      Run pmemSize m₀ h m → findFreePage m = ((f : Int), m') → Run pmemSize m₀ (.got f :: h) m'
  | full {h : List Event} {m m' : Memory} :
      Run pmemSize m₀ h m → findFreePage m = (-1, m') → Run pmemSize m₀ (.full :: h) m'
  | freed {h : List Event} {m m' : Memory} {f : Nat} :
      Run pmemSize m₀ h m → f ∈ out h → freePage f m = .ok m' → Run pmemSize m₀ (.freed f :: h) m'

variable {pmemSize : BitVec 32} {m₀ m m' : Memory} {h : List Event} {l : List Nat} {f : Nat}

structure Tracks (l : List Nat) (m : Memory) : Prop where
  used : ∀ f < m.numPages, m.freePages f = .pageUsed ↔ f ∈ l
  lt : ∀ f ∈ l, f < m.numPages
  nodup : l.Nodup
  count : m.numFreePages = (m.numPages : Int) - l.length

namespace Tracks

theorem free_iff (ht : Tracks l m) (hf : f < m.numPages) : m.freePages f = .pageFree ↔ f ∉ l := by
  rw [← ht.used f hf]
  cases m.freePages f <;> decide

theorem length_le (ht : Tracks l m) : l.length ≤ m.numPages := Chains.length_le_of_lt ht.nodup ht.lt

theorem length_eq (ht : Tracks l m) : l.length = m.numPages ↔ ∀ f < m.numPages, f ∈ l := by
  have hsub : l ⊆ List.range m.numPages := fun f hf => List.mem_range.2 (ht.lt f hf)
  constructor
  · intro hlen f hf
    have hperm := (List.subperm_of_subset ht.nodup hsub).perm_of_length_le (Nat.le_of_eq (List.length_range.trans hlen.symm))
    exact hperm.mem_iff.2 (List.mem_range.2 hf)
  · intro hall
    have hle : (List.range m.numPages).length ≤ l.length :=
      (List.subperm_of_subset List.nodup_range fun f hf => hall f (List.mem_range.1 hf)).length_le
    rw [List.length_range] at hle
    exact Nat.le_antisymm ht.length_le hle

theorem lowest (ht : Tracks l m) (hl : lowestFree m = some f) : f < m.numPages ∧ f ∉ l ∧ ∀ g < f, g ∈ l := by
  obtain ⟨hlt, hfree⟩ := lowestFree_some hl
  refine ⟨hlt, (ht.free_iff hlt).1 hfree, fun g hg => ?_⟩
  obtain ⟨-, as, bs, has, hno⟩ := List.find?_eq_some_iff_append.1 hl
  have hmem : g ∈ as := by
    have hgf : g ∈ List.range m.numPages := List.mem_range.2 (Nat.lt_trans hg hlt)
    have hsorted : (List.range m.numPages).Pairwise (· < ·) := List.pairwise_lt_range
    rw [has] at hgf hsorted
    rcases List.mem_append.1 hgf with hgf | hgf
    · exact hgf
    · have hafter : ∀ b ∈ f :: bs, f ≤ b := fun b hb => by
        rcases List.mem_cons.1 hb with rfl | hb
        · exact Nat.le_refl _
        · exact Nat.le_of_lt (List.rel_of_pairwise_cons (List.pairwise_append.1 hsorted).2.1 hb)
      exact absurd (hafter g hgf) (Nat.not_le.2 hg)
  have hused := hno g hmem
  by_contra hnot
  rw [(ht.free_iff (Nat.lt_trans hg hlt)).2 hnot] at hused
  simp at hused

theorem none_iff (ht : Tracks l m) : lowestFree m = none ↔ ∀ f < m.numPages, f ∈ l := by
  rw [lowestFree, List.find?_eq_none]
  refine ⟨fun hno f hf => ?_, fun hall f hf => ?_⟩
  · by_contra hnot
    exact hno f (List.mem_range.2 hf) (decide_eq_true ((ht.free_iff hf).2 hnot))
  · have hlt := List.mem_range.1 hf
    rw [decide_eq_true_eq, ht.free_iff hlt]
    exact fun hnot => hnot (hall f hlt)

theorem boot (pmemSize : BitVec 32) (m₀ : Memory) : Tracks [] (buildFreePages pmemSize m₀) :=
  ⟨fun _ _ => iff_of_false nofun List.not_mem_nil, nofun, List.nodup_nil, (Int.sub_zero _).symm⟩

theorem got (ht : Tracks l m) (hl : lowestFree m = some f) : Tracks (f :: l) (take m f) := by
  obtain ⟨hlt, hnot, -⟩ := ht.lowest hl
  refine ⟨fun g hg => ?_, fun g hg => ?_, List.nodup_cons.2 ⟨hnot, ht.nodup⟩, ?_⟩
  · change put m.freePages f .pageUsed g = .pageUsed ↔ _
    rw [List.mem_cons]
    by_cases hgf : g = f
    · rw [hgf, put_self]
      exact iff_of_true rfl (.inl rfl)
    · rw [put_of_ne hgf, ht.used g hg, or_iff_right hgf]
  · rcases List.mem_cons.1 hg with rfl | hg
    · exact hlt
    · exact ht.lt g hg
  · change m.numFreePages - 1 = (m.numPages : Int) - (l.length + 1 : Nat)
    rw [ht.count]
    omega

theorem freed (ht : Tracks l m) (hf : f ∈ l) :
    Tracks (l.erase f) { setMark m f .pageFree with numFreePages := m.numFreePages + 1 } := by
  have hlen := List.length_pos_of_mem hf
  refine ⟨fun g hg => ?_, fun g hg => ht.lt g (List.mem_of_mem_erase hg), ht.nodup.erase f, ?_⟩
  · change put m.freePages f .pageFree g = .pageUsed ↔ _
    rw [ht.nodup.mem_erase_iff]
    by_cases hgf : g = f
    · rw [hgf, put_self]
      exact iff_of_false nofun fun h => h.1 rfl
    · rw [put_of_ne hgf, ht.used g hg, and_iff_right hgf]
  · change m.numFreePages + 1 = (m.numPages : Int) - (l.erase f).length
    rw [ht.count, List.length_erase_of_mem hf]
    omega

end Tracks

theorem find_got (hf : findFreePage m = ((f : Int), m')) : lowestFree m = some f ∧ m' = take m f := by
  rcases findFreePage_cases m with ⟨page, hp, he⟩ | ⟨-, he⟩
  · obtain ⟨hpage, rfl⟩ := Prod.mk.inj (he.symm.trans hf)
    obtain rfl := Int.ofNat.inj hpage
    exact ⟨hp, rfl⟩
  · obtain ⟨hpage, -⟩ := Prod.mk.inj (he.symm.trans hf)
    omega

theorem find_full (hf : findFreePage m = (-1, m')) : lowestFree m = none ∧ m' = m := by
  rcases findFreePage_cases m with ⟨page, -, he⟩ | ⟨hn, he⟩
  · obtain ⟨hpage, -⟩ := Prod.mk.inj (he.symm.trans hf)
    omega
  · exact ⟨hn, (Prod.mk.inj (he.symm.trans hf)).2.symm⟩

theorem run_tracks (hrun : Run pmemSize m₀ h m) : Tracks (out h) m ∧ m.numPages = pmemSize.toNat / pageSize := by
  induction hrun with
  | boot => exact ⟨.boot pmemSize m₀, rfl⟩
  | got _ hf ih =>
      obtain ⟨hl, rfl⟩ := find_got hf
      exact ⟨ih.1.got hl, ih.2⟩
  | full _ hf ih =>
      obtain ⟨-, rfl⟩ := find_full hf
      exact ih
  | freed _ hmem hf ih =>
      obtain ⟨f', hf', -, rfl⟩ := freePage_ok.1 hf
      obtain rfl := Int.ofNat.inj hf'
      exact ⟨ih.1.freed hmem, ih.2⟩

theorem run_suffix {a b : List Event} (hrun : Run pmemSize m₀ (a ++ b) m) : ∃ u, Run pmemSize m₀ b u := by
  induction a generalizing m with
  | nil => exact ⟨m, hrun⟩
  | cons e a ih =>
      cases hrun with
      | got hu _ => exact ih hu
      | full hu _ => exact ih hu
      | freed hu _ _ => exact ih hu

theorem got_new (hrun : Run pmemSize m₀ (.got f :: h) m) : f ∉ out h := by
  cases hrun with
  | got hu hf => exact ((run_tracks hu).1.lowest (find_got hf).1).2.1

theorem out_of_got {a b : List Event} (hno : .freed f ∉ a) : f ∈ out (a ++ .got f :: b) := by
  induction a with
  | nil => exact List.mem_cons_self
  | cons e a ih =>
      have hmem := ih fun ha => hno (List.mem_cons_of_mem _ ha)
      cases e with
      | got g => exact List.mem_cons_of_mem _ hmem
      | full => exact hmem
      | freed g =>
          have hne : f ≠ g := by
            rintro rfl
            exact hno List.mem_cons_self
          exact (List.mem_erase_of_ne hne).2 hmem

/-- In every run the allocator hands out the lowest frame that is not handed
out, or -1 and changes nothing if there is none, takes back what it is given,
has handed out no frame twice in a row, and counts the rest. -/
theorem allocator_exact (hrun : Run pmemSize m₀ h m) :
    m.numPages = pmemSize.toNat / pageSize ∧
    ((out h).length ≠ m.numPages → ∃ (f : Nat) (m' : Memory), findFreePage m = ((f : Int), m') ∧ f < m.numPages ∧ f ∉ out h ∧ ∀ g < f, g ∈ out h) ∧
    ((out h).length = m.numPages → findFreePage m = (-1, m)) ∧
    ((out h).length = m.numPages ↔ ∀ f < m.numPages, f ∈ out h) ∧
    (∀ f ∈ out h, ∃ m', freePage f m = .ok m') ∧
    (out h).Nodup ∧ (∀ a b c f, h = c ++ .got f :: (a ++ .got f :: b) → .freed f ∈ a) ∧
    m.numFreePages = (m.numPages : Int) - (out h).length ∧ 0 ≤ m.numFreePages := by
  obtain ⟨ht, hn⟩ := run_tracks hrun
  refine ⟨hn, fun hne => ?_, fun heq => ?_, ht.length_eq, fun f hf => ?_, ht.nodup, fun a b c f he => ?_, ht.count, ?_⟩
  · rcases findFreePage_cases m with ⟨f, hl, he⟩ | ⟨hno, -⟩
    · exact ⟨f, _, he, ht.lowest hl⟩
    · exact absurd (ht.length_eq.2 (ht.none_iff.1 hno)) hne
  · rcases findFreePage_cases m with ⟨f, hl, -⟩ | ⟨-, he⟩
    · rw [ht.none_iff.2 (ht.length_eq.1 heq)] at hl
      cases hl
    · exact he
  · exact ⟨_, freePage_ok.2 ⟨f, rfl, ht.lt f hf, rfl⟩⟩
  · obtain ⟨u, hu⟩ := run_suffix (he ▸ hrun)
    by_contra hno
    exact got_new hu (out_of_got hno)
  · rw [ht.count]
    have := ht.length_le
    omega

def twoFrames : BitVec 32 := BitVec.ofNat 32 (2 * pageSize)

theorem allocator_exact_small : ∃ m, Run twoFrames (rawMemory vmem1Base) [.got 1, .got 0] m ∧ findFreePage m = (-1, m) := by
  have hboot : Run twoFrames (rawMemory vmem1Base) [] (buildFreePages twoFrames (rawMemory vmem1Base)) := .boot
  have hfirst : Run twoFrames (rawMemory vmem1Base) [.got 0] (take (buildFreePages twoFrames (rawMemory vmem1Base)) 0) :=
    hboot.got rfl
  have hboth := hfirst.got (f := 1) rfl
  exact ⟨_, hboth, (allocator_exact hboth).2.2.1 rfl⟩

end Yalnix.FrameAllocator
