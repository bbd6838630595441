import Yalnix.ExitFrames

namespace Yalnix.HeapBreak

open Loops Machine AddressSpace Accesses FreeList Allocation Layout

variable {m m' u : Memory} {w : Word} {brk r curr addr : Nat}

structure Grows (w : Word) (brk r : Nat) (m m' : Memory) : Prop where
  before : ∀ j, brk ≤ j → j < r → (w.read m j).valid = false
  after : ∀ j, brk ≤ j → j < r → (w.read m' j).valid = true
  taken : ∀ j, brk ≤ j → j < r → (w.read m' j).pfn.toNat < m.numPages ∧
    m.freePages (w.read m' j).pfn.toNat = .pageFree ∧ m'.freePages (w.read m' j).pfn.toNat = .pageUsed
  distinct : ∀ j k, brk ≤ j → j < r → brk ≤ k → k < r → (w.read m' j).pfn = (w.read m' k).pfn → j = k
  others : ∀ j, j < brk ∨ r ≤ j → w.read m' j = w.read m j
  words : ∀ w' ≠ w, ∀ j, w'.read m' j = w'.read m j
  region1Pt : m'.region1Pt = m.region1Pt
  marks : ∀ p, (∀ j, brk ≤ j → j < r → (w.read m' j).pfn.toNat ≠ p) → m'.freePages p = m.freePages p
  count : m'.numFreePages = m.numFreePages - (r - brk : Nat)

structure Shrinks (w : Word) (r brk : Nat) (m m' : Memory) : Prop where
  before : ∀ j, r ≤ j → j < brk → (w.read m j).valid = true
  after : ∀ j, r ≤ j → j < brk → (w.read m' j).valid = false
  freed : ∀ j, r ≤ j → j < brk → m'.freePages (w.read m j).pfn.toNat = .pageFree
  others : ∀ j, j < r ∨ brk ≤ j → w.read m' j = w.read m j
  words : ∀ w' ≠ w, ∀ j, w'.read m' j = w'.read m j
  region1Pt : m'.region1Pt = m.region1Pt
  marks : ∀ p, (∀ j, r ≤ j → j < brk → (w.read m j).pfn.toNat ≠ p) → m'.freePages p = m.freePages p
  count : m'.numFreePages = m.numFreePages + (brk - r : Nat)

/-- A break that goes up and back again leaves each mark as it was. -/
theorem grows_shrinks (hg : Grows w brk r m u) (hs : Shrinks w brk r u m') : m'.freePages = m.freePages := by
  funext p
  by_cases hp : ∃ j, brk ≤ j ∧ j < r ∧ (w.read u j).pfn.toNat = p
  · obtain ⟨j, h₁, h₂, rfl⟩ := hp
    rw [hs.freed j h₁ h₂, (hg.taken j h₁ h₂).2.1]
  · have hno : ∀ j, brk ≤ j → j < r → (w.read u j).pfn.toNat ≠ p := fun j h₁ h₂ he => hp ⟨j, h₁, h₂, he⟩
    rw [hs.marks p hno, hg.marks p hno]

def Forbidden (curr r : Nat) (m : Memory) : Prop :=
  r < memInvalidPages ∨ (m.space curr).sp ≤ r ∨ (freeList m).length < r - (m.space curr).brk

def BrkExact (curr addr : Nat) (w : Word) (m : Memory) : Prop :=
  ∃ res m', brkFunc curr addr m = .ok (res, m') ∧
    (res = 0 → (m'.space curr).brk = roundedBrk addr ∧
      ((m.space curr).brk ≤ roundedBrk addr → Grows w (m.space curr).brk (roundedBrk addr) m m') ∧
      (roundedBrk addr < (m.space curr).brk → Shrinks w (roundedBrk addr) (m.space curr).brk m m')) ∧
    (Forbidden curr (roundedBrk addr) m → res = ERROR ∧ m' = m)

theorem brkDown_read {page : Nat} (h : brkDown page m = .ok m') {j : Nat} (hj : j < page) : w.read m' j = w.read m j := by
  obtain ⟨u, hu, h⟩ := bind_ok.1 h
  obtain ⟨e, -, h⟩ := bind_ok.1 h
  obtain ⟨k, w', hk, -, -, rfl⟩ := writePte_ok.1 h
  obtain rfl := Int.ofNat.inj hk
  obtain ⟨f, -, -, rfl⟩ := freePage_ok.1 hu
  rw [word_read_write_index (by omega)]
  exact word_read_mark ..

theorem brkDown_below {n : Nat} (h : upTo brkDown brk n m = .ok m') {j : Nat} (hj : j < brk) : w.read m' j = w.read m j :=
  upTo_relation (fun m m' => w.read m' j = w.read m j) (fun _ => rfl) (fun _ _ _ h h' => h'.trans h)
    (fun _ _ _ hlo _ hstep => brkDown_read hstep (Nat.lt_of_lt_of_le hj hlo)) h

theorem mapLoop_other {n : Nat} {uprot kprot : BitVec 3} (hw : w ≠ .static)
    (h : upTo (fun page => mapPage .region0Pt uprot kprot page) brk n m = .ok m') (j : Nat) : w.read m' j = w.read m j := by
  refine upTo_relation (fun m m' => w.read m' j = w.read m j) (fun _ => rfl) (fun _ _ _ h h' => h'.trans h)
    (fun k a b _ _ hstep => ?_) h
  obtain ⟨k', w', -, -, hlead, ⟨f, l, -, rfl⟩ | ⟨-, rfl⟩⟩ := mapPage_cases hstep <;> cases hlead
  · rw [word_read_write_other hw]
    exact word_read_mark ..
  · exact word_read_write_other hw ..

theorem fills_pfn {uprot kprot : BitVec 3} {fs : List Nat} {j : Nat} (h : Fills w uprot kprot brk fs m m')
    (hsmall : m.numPages < 2 ^ 20) (hlo : brk ≤ j) (hhi : j < brk + fs.length) :
    ∃ (k : Nat) (hk : k < fs.length), j = brk + k ∧ (w.read m' j).pfn.toNat = fs[k] := by
  obtain ⟨k, rfl⟩ := Nat.exists_eq_add_of_le hlo
  have hk : k < fs.length := by omega
  exact ⟨k, hk, rfl, h.mapped_pfn hsmall (List.getElem?_eq_getElem hk)⟩

theorem fills_grows {uprot kprot : BitVec 3} {fs : List Nat} {space : Space} (h : Fills w uprot kprot brk fs m u)
    (hsmall : m.numPages < 2 ^ 20) (hlen : brk + fs.length = r)
    (hbefore : ∀ j, brk ≤ j → j < r → (w.read m j).valid = false) : Grows w brk r m (setSpace u curr space) := by
  subst hlen
  have hread : ∀ w' j, Word.read (setSpace u curr space) j w' = Word.read u j w' := fun w' j => word_read_space ..
  refine ⟨hbefore, fun j h₁ h₂ => ?_, fun j h₁ h₂ => ?_, fun j k h₁ h₂ h₃ h₄ he => ?_, fun j hj => ?_, fun w' hne j => ?_,
    h.region1Pt, fun p hp => ?_, ?_⟩
  · rw [hread]
    exact h.valid h₁ h₂
  · rw [hread]
    obtain ⟨k, hk, -, hpfn⟩ := fills_pfn h hsmall h₁ h₂
    rw [hpfn]
    have hmem : fs[k] ∈ fs := List.getElem_mem hk
    exact ⟨(h.takes.mem hmem).1, (h.takes.mem hmem).2, h.takes.used hmem⟩
  · rw [hread, hread] at he
    obtain ⟨a, ha, rfl, hpa⟩ := fills_pfn h hsmall h₁ h₂
    obtain ⟨b, hb, rfl, hpb⟩ := fills_pfn h hsmall h₃ h₄
    rw [he, hpb] at hpa
    rw [(h.takes.nodup.getElem_inj_iff).1 hpa]
  · rw [hread]
    exact h.others j (by omega)
  · rw [hread]
    exact h.words w' hne j
  · refine h.takes.others fun hmem => ?_
    obtain ⟨k, hk, rfl⟩ := List.getElem_of_mem hmem
    refine hp (brk + k) (Nat.le_add_right ..) (by omega) ?_
    rw [hread]
    exact h.mapped_pfn hsmall (List.getElem?_eq_getElem hk)
  · refine h.takes.count.trans ?_
    rw [Nat.add_sub_cancel_left]

def Meets (curr r : Nat) (w : Word) (m : Memory) : Prop :=
  let brk := (m.space curr).brk
  (r < brk ∧ r < memInvalidPages) ∨
  ((memInvalidPages ≤ r ∧ brk ≤ r ∧ r < (m.space curr).sp) ∧
    (r = brk ∨ (m.space curr).region0 = .region0Pt ∧ r ≤ pageTableLen ∧ r - brk ≤ (freeList m).length ∧
      ∀ j, brk ≤ j → j < r → (w.read m j).valid = false))

theorem meets_of_exact (hw : Leads m (m.space curr).region0 w) (hsmall : m.numPages < 2 ^ 20) (h : BrkExact curr addr w m) :
    Meets curr (roundedBrk addr) w m := by
  obtain ⟨res, m', hbrk, hzero, hforbid⟩ := h
  unfold brkFunc at hbrk
  dsimp only at hbrk
  split at hbrk
  case isTrue hdown =>
    -- the pages that should go are below those that the loop touches
    exfalso
    obtain ⟨u, hu, hbrk⟩ := bind_ok.1 hbrk
    obtain ⟨rfl, rfl⟩ := Prod.mk.inj (Except.ok.inj hbrk)
    obtain ⟨-, -, hshrink⟩ := hzero rfl
    have hs := hshrink hdown.1
    have hafter := hs.after _ (Nat.le_refl _) hdown.1
    rw [word_read_space, brkDown_below hu hdown.1, hs.before _ (Nat.le_refl _) hdown.1] at hafter
    cases hafter
  case isFalse hdown =>
    split at hbrk
    case isTrue hup =>
      obtain ⟨u, hu, hbrk⟩ := bind_ok.1 hbrk
      obtain ⟨rfl, rfl⟩ := Prod.mk.inj (Except.ok.inj hbrk)
      have hallowed : ¬ Forbidden curr (roundedBrk addr) m := fun hf => absurd (hforbid hf).1 (by decide)
      simp only [Forbidden, not_or, Nat.not_lt, Nat.not_le] at hallowed
      obtain ⟨hinvalid, hsp, hfree⟩ := hallowed
      have hg := (hzero rfl).2.1 hup
      refine .inr ⟨⟨hinvalid, hup, hsp⟩, ?_⟩
      by_cases heq : roundedBrk addr = (m.space curr).brk
      · exact .inl heq
      have hread (j : Nat) : w.read (setSpace u curr { u.space curr with brk := roundedBrk addr }) j = w.read u j :=
        word_read_space ..
      obtain ⟨-, js, hjs, -, hmap, -⟩ := mapLoop (g := fun a => (a : Int)) (fun a b he => Int.ofNat.inj he) hsmall .static hu
      have hstatic : w = .static := by
        by_contra hne
        have hafter := hg.after _ (Nat.le_refl _) (by omega)
        rw [hread, mapLoop_other hne hu, hg.before _ (Nat.le_refl _) (by omega)] at hafter
        cases hafter
      subst hstatic
      have hlast : roundedBrk addr - 1 ∈ js := by
        by_contra hno
        have hafter := hg.after (roundedBrk addr - 1) (by omega) (by omega)
        rw [hread, hmap.others _ hno, hg.before _ (by omega) (by omega)] at hafter
        cases hafter
      refine .inr ⟨?_, ?_, hfree, hg.before⟩
      · generalize (m.space curr).region0 = t at hw
        cases hw
        rfl
      · have := hmap.lt _ hlast
        omega
    case isFalse hup => exact .inl (by omega)

theorem exact_of_meets (hw : Leads m (m.space curr).region0 w) (hsmall : m.numPages < 2 ^ 20)
    (h : Meets curr (roundedBrk addr) w m) : BrkExact curr addr w m := by
  rcases h with ⟨hlt, hinvalid⟩ | ⟨⟨hinvalid, hup, hsp⟩, hcase⟩
  · refine ⟨ERROR, m, ?_, fun h => absurd h (by decide), fun _ => ⟨rfl, rfl⟩⟩
    unfold brkFunc
    dsimp only
    rw [if_neg (by omega), if_neg (by omega)]
    rfl
  · have hrun {u : Memory} (hu : upTo (fun page => mapPage .region0Pt (protRead ||| protWrite) (protRead ||| protWrite) page)
        (m.space curr).brk (roundedBrk addr - (m.space curr).brk) m = .ok u) (hlt : roundedBrk addr - (m.space curr).brk < 2 ^ 31) :
        brkFunc curr addr m = .ok (0, setSpace u curr { u.space curr with brk := roundedBrk addr }) := by
      unfold brkFunc
      dsimp only
      have hrounds : (toInt ((roundedBrk addr : Int) - (m.space curr).brk)).toNat = roundedBrk addr - (m.space curr).brk := by
        rw [toInt_small (by omega) (by omega)]
        omega
      rw [if_neg (by omega), if_pos hup, hrounds]
      exact bind_ok.2 ⟨u, hu, rfl⟩
    have hends {u : Memory} (hu : brkFunc curr addr m = .ok (0, setSpace u curr { u.space curr with brk := roundedBrk addr }))
        (hfree : roundedBrk addr - (m.space curr).brk ≤ (freeList m).length)
        (hg : Grows w (m.space curr).brk (roundedBrk addr) m (setSpace u curr { u.space curr with brk := roundedBrk addr })) :
        BrkExact curr addr w m := by
      refine ⟨0, _, hu, fun _ => ⟨?_, fun _ => hg, fun hlt => by omega⟩, fun hf => ?_⟩
      · rw [setSpace_space_self]
      · rcases hf with hf | hf | hf <;> omega
    rcases hcase with heq | ⟨htable, hle, hfree, hbefore⟩
    · have hnone : roundedBrk addr - (m.space curr).brk = 0 := by omega
      refine hends (hrun (u := m) (by rw [hnone]; rfl) (by omega)) (by omega) ?_
      refine ⟨fun j _ _ => by omega, fun j _ _ => by omega, fun j _ _ => by omega, fun j k _ _ _ _ => by omega,
        fun j _ => word_read_space .., fun w' _ j => word_read_space .., rfl, fun p _ => rfl, ?_⟩
      rw [hnone]
      exact (Int.sub_zero _).symm
    · rw [htable] at hw
      cases hw
      obtain ⟨u, fs, hu, hlen, hf⟩ := mapLoop_fills (protRead ||| protWrite) (protRead ||| protWrite) (m.space curr).brk
        (roundedBrk addr - (m.space curr).brk) (.static : Leads m .region0Pt .static) (by omega) hfree
      have hlt : roundedBrk addr - (m.space curr).brk < 2 ^ 31 := by
        simp only [pageTableLen] at hle
        omega
      exact hends (hrun hu hlt) hfree (fills_grows hf hsmall (by omega) hbefore)

/-- `BrkFunc` moves the break as it should exactly where it refuses the invalid pages, where the break
stays, and where it goes up, in the table `region0Pt` and short of the stack, over pages for all of
which there is a frame. After an exact call up and an exact call back each mark is what it was. -/
theorem brk_exact_iff (hw : Leads m (m.space curr).region0 w) (hsmall : m.numPages < 2 ^ 20) :
    (BrkExact curr addr w m ↔ Meets curr (roundedBrk addr) w m) ∧
      ∀ brk r u m', Grows w brk r m u → Shrinks w brk r u m' → m'.freePages = m.freePages :=
  ⟨⟨meets_of_exact hw hsmall, exact_of_meets hw hsmall⟩, fun _ _ _ _ => grows_shrinks⟩

def smallHeap : Memory where
  cfg := ⟨kernelStackBase, 0, 0⟩
  numPages := 600
  freePages := fun p => if p < 20 then .pageUsed else .pageFree
  numFreePages := 580
  region0Pt := fun j => ⟨BitVec.ofNat 20 (j % 20), 0, 3, 3, 16 ≤ j ∧ j < 20 ∨ 506 ≤ j⟩
  region1Pt := fun _ => ⟨0, 0, 0, 0, false⟩
  frames := fun _ _ => ⟨0, 0, 0, 0, false⟩
  currKernelBrk := 0
  vmEnabled := true
  regPtr0 := .region0Pt
  space := fun _ => ⟨20, 506, .region0Pt, 0⟩

theorem roundedBrk_smallHeap : roundedBrk (18 * pageSize) = 18 ∧ roundedBrk (22 * pageSize) = 22 := by
  decide +kernel

/-- Two pages down, the two pages stay mapped. -/
theorem brk_down_inexact : Leads smallHeap (smallHeap.space 0).region0 .static ∧
    ¬ BrkExact 0 (18 * pageSize) .static smallHeap := by
  refine ⟨.static, fun h => ?_⟩
  have hm := meets_of_exact .static (by decide) h
  rw [roundedBrk_smallHeap.1] at hm
  rcases hm with ⟨-, hm⟩ | ⟨⟨-, hm, -⟩, -⟩
  · exact absurd hm (by decide)
  · exact absurd hm (by decide)

theorem brk_exact_iff_smallHeap : BrkExact 0 (22 * pageSize) .static smallHeap := by
  refine (brk_exact_iff .static (by decide)).1.2 ?_
  rw [roundedBrk_smallHeap.2]
  refine .inr ⟨⟨by decide, by decide, by decide⟩, .inr ⟨rfl, by decide, by decide +kernel, fun j hlo hhi => ?_⟩⟩
  change 20 ≤ j at hlo
  change decide (16 ≤ j ∧ j < 20 ∨ 506 ≤ j) = false
  exact decide_eq_false (by omega)

end Yalnix.HeapBreak
