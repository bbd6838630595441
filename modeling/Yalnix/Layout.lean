import Yalnix.FreeList
import Mathlib.Data.List.Perm.Basic

namespace Yalnix.Layout

open Loops Machine AddressSpace LoadProgram Accesses FreeList

variable {m m' m'' u : Memory} {t : TablePtr} {w : Word} {i : Int} {f j k n p : Nat} {js ks : List Nat}

def textPages (li : LoadInfo) : Nat := li.textSize / pageSize

def dataPages (li : LoadInfo) : Nat := (li.dataSize + li.bssSize + (pageSize - 1)) / pageSize

def stackPages (cfg : Config) (li : LoadInfo) (args : List (List (BitVec 8))) : Nat :=
  (cfg.userStackLimit - (sizes cfg li args).cpp / pageSize).toNat

/-- The page counts, and their sum in the check of virtual memory, fit in an `int`. -/
def CountsFit (cfg : Config) (li : LoadInfo) (args : List (List (BitVec 8))) : Prop :=
  memInvalidPages + textPages li + dataPages li + 1 + stackPages cfg li args + 1 + kernelStackPages < 2 ^ 31

/-- The user stack ends where the kernel stack starts, or a page below. -/
structure StackLimit (cfg : Config) : Prop where
  le : cfg.userStackLimit ≤ kernelStackBase
  ge : kernelStackBase ≤ cfg.userStackLimit + 1

structure Counted (z : Sizes) (text data stack : Nat) : Prop where
  textLen : z.textLen = text
  textEnd : z.textEnd = (memInvalidPages + text : Nat)
  dataLen : z.dataLen = data
  stackNpg : z.stackNpg = stack
  total : z.total = (text + data + stack : Nat)
  brk : newBrk z = memInvalidPages + text + data

theorem cpp_lt (cfg : Config) (li : LoadInfo) (args : List (List (BitVec 8))) :
    (sizes cfg li args).cpp / pageSize < cfg.userStackLimit := by
  have hsize : (0 : Int) ≤ argsSize args := Int.natCast_nonneg _
  simp only [sizes, pageSize]
  omega

theorem length_le_size (args : List (List (BitVec 8))) : args.length ≤ argsSize args := by
  induction args with
  | nil => exact Nat.le_refl 0
  | cons s args ih =>
      have hsize : argsSize (s :: args) = s.length + 1 + argsSize args := by simp [argsSize]
      rw [hsize, List.length_cons]
      omega

theorem sizes_pages {cfg : Config} {li : LoadInfo} {args : List (List (BitVec 8))} (h : CountsFit cfg li args) :
    (sizes cfg li args).textNpg = textPages li ∧ (sizes cfg li args).dataBssNpg = dataPages li ∧
      (sizes cfg li args).stackNpg = stackPages cfg li args ∧ 0 < stackPages cfg li args := by
  have hlt := cpp_lt cfg li args
  unfold CountsFit at h
  refine ⟨?_, ?_, ?_, ?_⟩
  · have hz : (sizes cfg li args).textNpg = toInt (textPages li : Nat) := rfl
    rw [hz, toInt_small (by omega) (by omega)]
  · have hn : li.dataSize + li.bssSize + (pageSize - 1) < 2 ^ 63 := by
      simp only [dataPages, pageSize] at h ⊢
      omega
    have hz : (sizes cfg li args).dataBssNpg = toInt (dataPages li : Nat) := by
      simp only [sizes, upToPage, dataPages]
      rw [toLong_nat hn]
      rfl
    rw [hz, toInt_small (by omega) (by omega)]
  · have hz : (sizes cfg li args).stackNpg = toInt (cfg.userStackLimit - (sizes cfg li args).cpp / pageSize) := rfl
    rw [hz]
    unfold stackPages at h ⊢
    rw [toInt_small (by omega) (by omega)]
    omega
  · unfold stackPages
    omega

theorem sizes_counted {cfg : Config} {li : LoadInfo} {args : List (List (BitVec 8))} (h : CountsFit cfg li args) :
    Counted (sizes cfg li args) (textPages li) (dataPages li) (stackPages cfg li args) := by
  obtain ⟨ht, hd, hs, -⟩ := sizes_pages h
  unfold CountsFit at h
  have htext : (sizes cfg li args).textEnd = (memInvalidPages + textPages li : Nat) := by
    rw [Sizes.textEnd, ht, toInt_small (by omega) (by omega), Int.natCast_add]
  have hdata : (sizes cfg li args).dataEnd = (memInvalidPages + textPages li + dataPages li : Nat) := by
    rw [Sizes.dataEnd, ht, hd, toInt_small (by omega) (by omega), Int.natCast_add, Int.natCast_add]
  refine ⟨?_, htext, ?_, hs, ?_, ?_⟩
  · rw [Sizes.textLen, htext]
    omega
  · rw [Sizes.dataLen, htext, hdata]
    omega
  · rw [Sizes.total, ht, hd, hs, toInt_small (by omega) (by omega)]
    omega
  · rw [newBrk, ht, hd, toInt_small (by omega) (by omega),
      show (dataPages li : Int) + textPages li + memInvalidPages = (memInvalidPages + textPages li + dataPages li : Nat) by omega]
    exact toUlong_nat (by omega)

theorem pages_fit {cfg : Config} {li : LoadInfo} {args : List (List (BitVec 8))} (hlimit : StackLimit cfg)
    (hcounts : CountsFit cfg li args) (hvirt : fitsVirtual (sizes cfg li args) = true) :
    memInvalidPages + textPages li + dataPages li + 1 + stackPages cfg li args ≤ cfg.userStackLimit := by
  obtain ⟨ht, hd, hs, -⟩ := sizes_pages hcounts
  have hle := of_decide_eq_true hvirt
  have hge := hlimit.ge
  unfold CountsFit at hcounts
  rw [ht, hd, hs, toInt_small (by omega) (by omega)] at hle
  simp only [memInvalidPages, kernelStackPages, pageTableLen, kernelStackBase] at hle hge ⊢
  omega

theorem newSp_counted {cfg : Config} {z : Sizes} {stack : Nat} (hlimit : StackLimit cfg) (hs : z.stackNpg = stack)
    (hle : stack ≤ cfg.userStackLimit) : newSp cfg z = cfg.userStackLimit - stack := by
  have := hlimit.le
  rw [newSp, hs, show (cfg.userStackLimit : Int) - stack = (cfg.userStackLimit - stack : Nat) by omega]
  exact toUlong_nat (by simp only [kernelStackBase] at this; omega)

def Released (m : Memory) (w : Word) (p : Nat) : Prop :=
  ∃ j < kernelStackBase, (w.read m j).valid = true ∧ (w.read m j).pfn.toNat = p

structure Freed (w : Word) (n : Nat) (m m' : Memory) : Prop where
  read : ∀ j, w.read m' j =
    if j < n ∧ j < kernelStackBase then { w.read m j with valid := false } else w.read m j
  free : ∀ p, m'.freePages p = .pageFree ↔ m.freePages p = .pageFree ∨
    ∃ j < n, j < kernelStackBase ∧ (w.read m j).valid = true ∧ (w.read m j).pfn.toNat = p
  region1Pt : m'.region1Pt = m.region1Pt
  fixed : Fixed m m'

theorem word_read_mark (w : Word) (m : Memory) (f : Nat) (mark : PageMark) (c : Int) (j : Nat) :
    w.read { setMark m f mark with numFreePages := c } j = w.read m j := by
  cases w <;> rfl

theorem Freed.start (w : Word) (m : Memory) : Freed w 0 m m := by
  refine ⟨fun j => ?_, fun p => ?_, rfl, .refl m⟩
  · rw [if_neg (by omega)]
  · simp

theorem Leads.of_fixed (hw : Leads m t w) (hfix : Fixed m u) (hr : u.region1Pt = m.region1Pt) : Leads u t w :=
  leads_congr hw hfix.numPages fun _ _ => by rw [hr]

theorem freeEntry_cases (hw : Leads m t w) (h : freeEntry t k m = .ok m') :
    ((k < kernelStackBase ∧ (w.read m k).valid = true) ∧ (w.read m k).pfn.toNat < m.numPages ∧
      m' = w.write { setMark m (w.read m k).pfn.toNat .pageFree with numFreePages := m.numFreePages + 1 } k
        { w.read m k with valid := false }) ∨
    (¬ (k < kernelStackBase ∧ (w.read m k).valid = true) ∧ m' = m) := by
  unfold freeEntry at h
  split at h
  case isTrue hk =>
    obtain ⟨e, he, h⟩ := bind_ok.1 h
    obtain ⟨j, w', hj, hlt, hw', rfl⟩ := readPte_ok.1 he
    obtain rfl := Int.ofNat.inj hj
    obtain rfl := leads_unique hw hw'
    have hk : k < kernelStackBase := by
      simp only [kernelStackBase, vmem1Base, pageTableLen, pageSize] at hk hlt ⊢
      omega
    split at h
    case isTrue hv =>
      obtain ⟨u, hu, h⟩ := bind_ok.1 h
      obtain ⟨pfn, hpfn, hlt', rfl⟩ := freePage_ok.1 hu
      obtain rfl := Int.ofNat.inj hpfn
      obtain ⟨j, w'', hj, -, hw'', rfl⟩ := writePte_ok.1 h
      obtain rfl := Int.ofNat.inj hj
      have hlead : Leads { setMark m (w.read m k).pfn.toNat .pageFree with numFreePages := m.numFreePages + 1 } t w :=
        leads_congr hw rfl fun _ _ => rfl
      obtain rfl := leads_unique hlead hw''
      exact .inl ⟨⟨hk, hv⟩, hlt', rfl⟩
    case isFalse hv => exact .inr ⟨fun h => hv h.2, (Except.ok.inj h).symm⟩
  case isFalse hk => exact .inr ⟨fun h => hk (.inl h.1), (Except.ok.inj h).symm⟩

theorem invalid_same (e : Pte) (h : e.valid = false) : { e with valid := false } = e := by
  cases e
  cases h
  rfl

theorem Freed.step (hw : Leads m t w) (hf : Freed w k m u) (h : freeEntry t k u = .ok m') : Freed w (k + 1) m m' := by
  have hkread : w.read u k = w.read m k := by
    rw [hf.read, if_neg (by omega)]
  rcases freeEntry_cases (Leads.of_fixed hw hf.fixed hf.region1Pt) h with ⟨hk, -, rfl⟩ | ⟨hk, rfl⟩
  · rw [hkread] at hk
    refine ⟨fun j => ?_, fun p => ?_, ?_, hf.fixed.trans (Fixed.freeEntry h)⟩
    · by_cases hj : j = k
      · subst hj
        rw [word_read_write, hkread, if_pos ⟨Nat.lt_succ_self j, hk.1⟩]
      · rw [word_read_write_of_ne hj, word_read_mark, hf.read]
        have hiff : (j < k ∧ j < kernelStackBase) ↔ (j < k + 1 ∧ j < kernelStackBase) := by omega
        simp only [hiff]
    · rw [hkread, (SameMarks.word ..).freePages]
      change put u.freePages _ .pageFree p = .pageFree ↔ _
      by_cases hp : p = (w.read m k).pfn.toNat
      · rw [hp, put_self]
        exact iff_of_true rfl (.inr ⟨k, Nat.lt_succ_self k, hk.1, hk.2, rfl⟩)
      · rw [put_of_ne hp, hf.free]
        refine or_congr_right ⟨fun ⟨j, hj, hd⟩ => ⟨j, Nat.lt_succ_of_lt hj, hd⟩, fun ⟨j, hj, hd⟩ => ⟨j, ?_, hd⟩⟩
        rcases Nat.lt_succ_iff_lt_or_eq.1 hj with hj | rfl
        · exact hj
        · exact absurd hd.2.2.symm hp
    · rw [word_write_region1]
      exact hf.region1Pt
  · rw [hkread] at hk
    refine ⟨fun j => ?_, fun p => ?_, hf.region1Pt, hf.fixed⟩
    · rw [hf.read]
      by_cases hj : j = k
      · subst hj
        rw [if_neg (by omega)]
        split
        case isTrue hlt => exact (invalid_same _ (Bool.eq_false_iff.2 fun hv => hk ⟨hlt.2, hv⟩)).symm
        case isFalse => rfl
      · have hiff : (j < k ∧ j < kernelStackBase) ↔ (j < k + 1 ∧ j < kernelStackBase) := by omega
        simp only [hiff]
    · rw [hf.free]
      refine or_congr_right ⟨fun ⟨j, hj, hd⟩ => ⟨j, Nat.lt_succ_of_lt hj, hd⟩, fun ⟨j, hj, hd⟩ => ⟨j, ?_, hd⟩⟩
      rcases Nat.lt_succ_iff_lt_or_eq.1 hj with hj | rfl
      · exact hj
      · exact absurd ⟨hd.1, hd.2.1⟩ hk

structure Cleared (w : Word) (m m' : Memory) : Prop where
  read : ∀ j < pageTableLen, w.read m' j = if j < kernelStackBase then { w.read m j with valid := false } else w.read m j
  free : ∀ p, m'.freePages p = .pageFree ↔ m.freePages p = .pageFree ∨ Released m w p
  region1Pt : m'.region1Pt = m.region1Pt
  fixed : Fixed m m'

theorem invalidate_cases (hw : Leads m t w) (h : invalidate t k m = .ok m') :
    m' = w.write m k { w.read m k with valid := false } := by
  obtain ⟨e, he, h⟩ := bind_ok.1 h
  obtain ⟨j, w', hj, -, hw', rfl⟩ := readPte_ok.1 he
  obtain rfl := Int.ofNat.inj hj
  obtain ⟨j, w'', hj, -, hw'', rfl⟩ := writePte_ok.1 h
  obtain rfl := Int.ofNat.inj hj
  rw [leads_unique hw' hw, leads_unique hw'' hw]

theorem cleared {u : Memory} (hw : Leads m t w) (h : upTo (freeEntry t) 0 pageTableLen m = .ok u)
    (h' : upTo (invalidate t) 0 memInvalidPages u = .ok m') : Cleared w m m' := by
  have hf : Freed w pageTableLen m u := by
    have := upTo_invariant (fun i u => Freed w i m u) (fun i u v _ _ hu hv => hu.step hw hv) (Freed.start w m) h
    rwa [Nat.zero_add] at this
  have hfu : Leads u t w := Leads.of_fixed hw hf.fixed hf.region1Pt
  have hlow {j : Nat} (hj : j < memInvalidPages) : w.read u j = { w.read m j with valid := false } := by
    rw [hf.read, if_pos]
    simp only [memInvalidPages, pageTableLen, kernelStackBase] at hj ⊢
    omega
  have hsame : (∀ j, w.read m' j = w.read u j) ∧ SameMarks u m' ∧ m'.region1Pt = u.region1Pt ∧ Fixed u m' := by
    refine upTo_invariant (fun i v => (∀ j, w.read v j = w.read u j) ∧ SameMarks u v ∧ v.region1Pt = u.region1Pt ∧ Fixed u v)
      (fun i v v' _ hi hv hstep => ?_) ⟨fun _ => rfl, .refl u, rfl, .refl u⟩ h'
    obtain ⟨hread, hmarks, hregion, hfix⟩ := hv
    have hfixed := Fixed.invalidate hstep
    obtain rfl := invalidate_cases (Leads.of_fixed hfu hfix hregion) hstep
    refine ⟨fun j => ?_, hmarks.trans (.word ..), (word_write_region1 ..).trans hregion, hfix.trans hfixed⟩
    by_cases hj : j = i
    · subst hj
      rw [word_read_write, hread, hlow (by omega)]
    · rw [word_read_write_of_ne hj, hread]
  obtain ⟨hread, hmarks, hregion, hfix⟩ := hsame
  refine ⟨fun j hj => ?_, fun p => ?_, hregion.trans hf.region1Pt, hf.fixed.trans hfix⟩
  · rw [hread, hf.read]
    simp only [hj, true_and]
  · rw [hmarks.freePages, hf.free]
    refine or_congr_right (exists_congr fun j => and_iff_right_of_imp fun hd => ?_)
    have hk := hd.1
    simp only [kernelStackBase, pageTableLen] at hk ⊢
    omega

/-- The pages `js`, and no others, get new entries. A frame that there is was
free before, and is given to one page only. -/
structure Mapped (w : Word) (js : List Nat) (m m' : Memory) : Prop where
  lt : ∀ j ∈ js, j < pageTableLen
  others : ∀ j, j ∉ js → w.read m' j = w.read m j
  valid : ∀ j ∈ js, (w.read m' j).valid = true
  free : ∀ j ∈ js, (w.read m' j).pfn.toNat < m.numPages → m.freePages (w.read m' j).pfn.toNat = .pageFree
  once : ∀ j ∈ js, ∀ k ∈ js, (w.read m' j).pfn.toNat < m.numPages → (w.read m' j).pfn = (w.read m' k).pfn → j = k
  marks : ∀ p < m.numPages, m'.freePages p = .pageFree ↔
    m.freePages p = .pageFree ∧ ∀ j ∈ js, (w.read m' j).pfn.toNat ≠ p
  enough : js.length ≤ (freeList m).length → ∀ j ∈ js, (w.read m' j).pfn.toNat < m.numPages
  left : (freeList m).length ≤ (freeList m').length + js.length
  region1Pt : m'.region1Pt = m.region1Pt
  fixed : Fixed m m'

namespace Mapped

theorem nil (w : Word) (m : Memory) : Mapped w [] m m :=
  ⟨nofun, fun _ _ => rfl, nofun, nofun, nofun, fun p _ => by simp, nofun, Nat.le_refl _, rfl, .refl m⟩

theorem append (h : Mapped w js m u) (h' : Mapped w ks u m') (hd : ∀ j ∈ js, j ∉ ks) : Mapped w (js ++ ks) m m' := by
  have hn := h.fixed.numPages
  have hread {j : Nat} (hj : j ∈ js) : w.read m' j = w.read u j := h'.others j (hd j hj)
  -- a frame of the first pages is used when the others get theirs
  have hapart : ∀ j ∈ js, ∀ k ∈ ks, (w.read u j).pfn.toNat < m.numPages → (w.read u j).pfn ≠ (w.read m' k).pfn := by
    intro j hj k hk hlt he
    have hfree := h'.free k hk (by rw [hn, ← he]; exact hlt)
    rw [← he, h.marks _ hlt] at hfree
    exact hfree.2 j hj rfl
  refine ⟨fun j hj => ?_, fun j hj => ?_, fun j hj => ?_, fun j hj hlt => ?_, fun j hj k hk hlt he => ?_, fun p hp => ?_,
    fun hlen j hj => ?_, ?_, h'.region1Pt.trans h.region1Pt, h.fixed.trans h'.fixed⟩
  · rcases List.mem_append.1 hj with hj | hj
    · exact h.lt j hj
    · exact h'.lt j hj
  · rw [List.mem_append, not_or] at hj
    rw [h'.others j hj.2, h.others j hj.1]
  · rcases List.mem_append.1 hj with hj | hj
    · rw [hread hj]
      exact h.valid j hj
    · exact h'.valid j hj
  · rcases List.mem_append.1 hj with hj | hj
    · rw [hread hj] at hlt ⊢
      exact h.free j hj hlt
    · have := h'.free j hj (hn ▸ hlt)
      exact ((h.marks _ hlt).1 this).1
  · rcases List.mem_append.1 hj with hj | hj <;> rcases List.mem_append.1 hk with hk | hk
    · rw [hread hj] at hlt he
      rw [hread hk] at he
      exact h.once j hj k hk hlt he
    · rw [hread hj] at hlt he
      exact absurd he (hapart j hj k hk hlt)
    · rw [hread hk] at he
      rw [he] at hlt
      exact absurd he.symm (hapart k hk j hj hlt)
    · exact h'.once j hj k hk (hn ▸ hlt) he
  · rw [h'.marks p (hn ▸ hp), h.marks p hp, and_assoc]
    refine and_congr_right fun _ => ⟨fun ⟨h₁, h₂⟩ j hj => ?_, fun hall => ⟨fun j hj => ?_, fun j hj => ?_⟩⟩
    · rcases List.mem_append.1 hj with hj | hj
      · rw [hread hj]
        exact h₁ j hj
      · exact h₂ j hj
    · rw [← hread hj]
      exact hall j (List.mem_append_left _ hj)
    · exact hall j (List.mem_append_right _ hj)
  · rw [List.length_append] at hlen
    have hleft := h.left
    rcases List.mem_append.1 hj with hj | hj
    · rw [hread hj]
      exact h.enough (by omega) j hj
    · exact hn ▸ h'.enough (by omega) j hj
  · have h₁ := h.left
    have h₂ := h'.left
    rw [List.length_append]
    omega

end Mapped

theorem mapPage_mapped {uprot kprot : BitVec 3} (hsmall : m.numPages < 2 ^ 20) (hw : Leads m t w)
    (h : mapPage t uprot kprot i m = .ok m') : 0 ≤ i ∧ Mapped w [i.toNat] m m' ∧
      (w.read m' i.toNat).uprot = uprot ∧ (w.read m' i.toNat).kprot = kprot := by
  have hfix := Fixed.mapPage h
  have hregion := mapPage_region1 h
  obtain ⟨j, w', rfl, hj, hw', hm⟩ := mapPage_cases h
  obtain rfl := leads_unique hw hw'
  rw [Int.toNat_natCast]
  refine ⟨Int.natCast_nonneg j, ?_⟩
  rcases hm with ⟨f, l, hl, rfl⟩ | ⟨hl, rfl⟩
  · obtain ⟨hf, hfree⟩ := head_free hl
    have hpfn := pfn_frame hsmall hf
    have hlist : freeList (w.write (take m f) j
        { w.read m j with valid := true, uprot, kprot, pfn := BitVec.ofInt 20 f }) = l :=
      ((SameMarks.word ..).list).trans (freeList_take hl)
    refine ⟨⟨fun k hk => ?_, fun k hk => ?_, fun k hk => ?_, fun k hk _ => ?_, fun k hk k' hk' _ _ => ?_, fun p hp => ?_,
      fun _ k hk => ?_, ?_, hregion, hfix⟩, ?_, ?_⟩
    · rwa [List.mem_singleton.1 hk]
    · rw [word_read_write_of_ne fun he => hk (List.mem_singleton.2 he)]
      exact word_read_mark ..
    · rw [List.mem_singleton.1 hk, word_read_write]
    · rwa [List.mem_singleton.1 hk, word_read_write, hpfn]
    · rw [List.mem_singleton.1 hk, List.mem_singleton.1 hk']
    · rw [(SameMarks.word ..).freePages]
      change put m.freePages f .pageUsed p = .pageFree ↔ _
      by_cases he : p = f
      · rw [he, put_self]
        refine iff_of_false nofun fun hall => hall.2 j List.mem_cons_self ?_
        rw [word_read_write, hpfn]
      · rw [put_of_ne he]
        refine ⟨fun hp => ⟨hp, fun k hk => ?_⟩, And.left⟩
        rw [List.mem_singleton.1 hk, word_read_write, hpfn]
        exact Ne.symm he
    · rwa [List.mem_singleton.1 hk, word_read_write, hpfn]
    · rw [hlist, hl]
      exact Nat.le_refl _
    · rw [word_read_write]
    · rw [word_read_write]
  · have hno : ¬ (BitVec.ofInt 20 (-1)).toNat < m.numPages := by
      rw [pfn_none]
      omega
    refine ⟨⟨fun k hk => ?_, fun k hk => ?_, fun k hk => ?_, fun k hk hlt => ?_, fun k hk k' hk' _ _ => ?_, fun p hp => ?_,
      fun hlen => ?_, ?_, hregion, hfix⟩, ?_, ?_⟩
    · rwa [List.mem_singleton.1 hk]
    · exact word_read_write_of_ne (fun he => hk (List.mem_singleton.2 he)) ..
    · rw [List.mem_singleton.1 hk, word_read_write]
    · rw [List.mem_singleton.1 hk, word_read_write] at hlt
      exact absurd hlt hno
    · rw [List.mem_singleton.1 hk, List.mem_singleton.1 hk']
    · rw [(SameMarks.word ..).freePages]
      refine ⟨fun hfree => ⟨hfree, fun k hk he => ?_⟩, And.left⟩
      rw [List.mem_singleton.1 hk, word_read_write] at he
      exact hno (he ▸ hp)
    · rw [hl] at hlen
      cases hlen
    · rw [hl]
      exact Nat.zero_le _
    · rw [word_read_write]
    · rw [word_read_write]

theorem mapLoop {uprot kprot : BitVec 3} {g : Nat → Int} {start : Nat} (hg : ∀ a b, g a = g b → a = b)
    (hsmall : m.numPages < 2 ^ 20) (hw : Leads m t w)
    (h : upTo (fun a => mapPage t uprot kprot (g a)) start n m = .ok m') :
    (∀ a, start ≤ a → a < start + n → 0 ≤ g a) ∧
      ∃ js, (∀ j, j ∈ js ↔ ∃ a, start ≤ a ∧ a < start + n ∧ g a = (j : Nat)) ∧ js.length = n ∧ Mapped w js m m' ∧
        ∀ j ∈ js, (w.read m' j).uprot = uprot ∧ (w.read m' j).kprot = kprot := by
  induction n generalizing start m with
  | zero =>
      obtain rfl := Except.ok.inj h
      refine ⟨fun a _ _ => by omega, [], fun j => iff_of_false List.not_mem_nil ?_, rfl, .nil w m, nofun⟩
      rintro ⟨a, h₁, h₂, -⟩
      omega
  | succ n ih =>
      obtain ⟨u, hu, h⟩ := bind_ok.1 h
      obtain ⟨hpos, hone, hprot⟩ := mapPage_mapped hsmall hw hu
      obtain ⟨hnonneg, js, hjs, hlen, hmap, hprots⟩ := ih (hone.fixed.numPages ▸ hsmall)
        (Leads.of_fixed hw hone.fixed hone.region1Pt) h
      have hnot : (g start).toNat ∉ js := by
        intro hmem
        obtain ⟨a, ha, -, he⟩ := (hjs _).1 hmem
        rw [Int.toNat_of_nonneg hpos] at he
        have := hg _ _ he
        omega
      refine ⟨fun a h₁ h₂ => ?_, (g start).toNat :: js, fun j => ?_, ?_, hone.append hmap ?_, fun j hj => ?_⟩
      · by_cases ha : a = start
        · rwa [ha]
        · exact hnonneg a (by omega) (by omega)
      · rw [List.mem_cons, hjs]
        constructor
        · rintro (rfl | ⟨a, h₁, h₂, h₃⟩)
          · exact ⟨start, Nat.le_refl _, by omega, (Int.toNat_of_nonneg hpos).symm⟩
          · exact ⟨a, by omega, by omega, h₃⟩
        · rintro ⟨a, h₁, h₂, h₃⟩
          by_cases ha : a = start
          · left
            rw [← ha, h₃, Int.toNat_natCast]
          · exact .inr ⟨a, by omega, by omega, h₃⟩
      · rw [List.length_cons, hlen]
      · intro j hj
        rwa [List.mem_singleton.1 hj]
      · rcases List.mem_cons.1 hj with rfl | hj
        · rwa [hmap.others _ hnot]
        · exact hprots j hj

/-- The three kinds of pages, and the memories between the loops that map them. -/
structure LaidOut (w : Word) (cfg : Config) (z : Sizes) (m m₂ m₃ m₄ m₅ : Memory) (js ks ls : List Nat) : Prop where
  cleared : Cleared w m m₂
  text : Mapped w js m₂ m₃
  data : Mapped w ks m₃ m₄
  stack : Mapped w ls m₄ m₅
  text_prot : ∀ j ∈ js, (w.read m₃ j).uprot = protRead ||| protExec
  data_prot : ∀ j ∈ ks, (w.read m₄ j).uprot = protRead ||| protWrite ∧ (w.read m₄ j).kprot = protRead ||| protWrite
  stack_prot : ∀ j ∈ ls, (w.read m₅ j).uprot = protRead ||| protWrite ∧ (w.read m₅ j).kprot = protRead ||| protWrite
  mem_text : ∀ j, j ∈ js ↔ memInvalidPages ≤ j ∧ j < memInvalidPages + z.textLen
  mem_data : ∀ j, j ∈ ks ↔ ∃ a < z.dataLen, z.textEnd + (a : Nat) = (j : Nat)
  mem_stack : ∀ j, j ∈ ls ↔ ∃ a < z.stackNpg.toNat, (cfg.userStackLimit - 1 - (a : Nat) : Int) = (j : Nat)
  text_length : js.length = z.textLen
  data_length : ks.length = z.dataLen
  stack_length : ls.length = z.stackNpg.toNat
  stack_le : z.stackNpg.toNat ≤ cfg.userStackLimit

theorem layOut_ok {cfg : Config} {z : Sizes} (hsmall : m.numPages < 2 ^ 20) (hw : Leads m t w)
    (h : layOut cfg t z m = .ok m') : ∃ m₂ m₃ m₄ js ks ls, LaidOut w cfg z m m₂ m₃ m₄ m' js ks ls := by
  obtain ⟨m₁, h₁, h⟩ := bind_ok.1 h
  obtain ⟨m₂, h₂, h⟩ := bind_ok.1 h
  obtain ⟨m₃, h₃, h⟩ := bind_ok.1 h
  obtain ⟨m₄, h₄, h⟩ := bind_ok.1 h
  have hc := cleared hw h₁ h₂
  have hw₂ := Leads.of_fixed hw hc.fixed hc.region1Pt
  have hs₂ : m₂.numPages < 2 ^ 20 := hc.fixed.numPages ▸ hsmall
  obtain ⟨-, js, hjs, hjlen, htext, htprot⟩ := mapLoop (g := fun a => a) (fun a b he => Int.ofNat.inj he) hs₂ hw₂ h₃
  have hw₃ := Leads.of_fixed hw₂ htext.fixed htext.region1Pt
  have hs₃ : m₃.numPages < 2 ^ 20 := htext.fixed.numPages ▸ hs₂
  obtain ⟨-, ks, hks, hklen, hdata, hdprot⟩ := mapLoop (g := fun a => z.textEnd + a)
    (fun a b he => by omega) hs₃ hw₃ h₄
  have hw₄ := Leads.of_fixed hw₃ hdata.fixed hdata.region1Pt
  have hs₄ : m₄.numPages < 2 ^ 20 := hdata.fixed.numPages ▸ hs₃
  obtain ⟨hpos, ls, hls, hllen, hstack, hsprot⟩ := mapLoop (g := fun a => (cfg.userStackLimit - 1 - a : Int))
    (fun a b he => by omega) hs₄ hw₄ h
  refine ⟨m₂, m₃, m₄, js, ks, ls, hc, htext, hdata, hstack, fun j hj => (htprot j hj).1, hdprot, hsprot, fun j => ?_,
    fun j => ?_, fun j => ?_, hjlen, hklen, hllen, ?_⟩
  · rw [hjs]
    exact ⟨fun ⟨a, h₁, h₂, h₃⟩ => by omega, fun ⟨h₁, h₂⟩ => ⟨j, h₁, h₂, rfl⟩⟩
  · rw [hks]
    exact ⟨fun ⟨a, _, h₂, h₃⟩ => ⟨a, by omega, h₃⟩, fun ⟨a, h₂, h₃⟩ => ⟨a, Nat.zero_le _, by omega, h₃⟩⟩
  · rw [hls]
    exact ⟨fun ⟨a, _, h₂, h₃⟩ => ⟨a, by omega, h₃⟩, fun ⟨a, h₂, h₃⟩ => ⟨a, Nat.zero_le _, by omega, h₃⟩⟩
  · rcases Nat.eq_zero_or_pos z.stackNpg.toNat with hz | hz
    · omega
    · have := hpos (z.stackNpg.toNat - 1) (Nat.zero_le _) (by omega)
      omega

/-- REG_PTR0 selects the table that the kernel reaches at `w`. -/
inductive Selects (m : Memory) : Word → Prop
  | static (h : m.regPtr0 = .region0Pt) : Selects m .static
  | frame {f : Nat} (h : m.regPtr0 = .page f) (hf : f < m.numPages) : Selects m (.frame f)

theorem Selects.walk (h : Selects m w) (j : Nat) : walk m j = .ok (w.read m j) := by
  cases h with
  | static h => simp only [Machine.walk, h, Word.read]
  | frame h hf => simp only [Machine.walk, h, Word.read, if_pos hf]

def Apart (m : Memory) (w : Word) : Prop :=
  ∀ f, w = .frame f → ∀ j < pageTableLen, (w.read m j).valid = true → (w.read m j).pfn.toNat ≠ f

structure Guarded (w : Word) (m : Memory) : Prop where
  selects : Selects m w
  apart : Apart m w

structure Stored (w : Word) (m m' : Memory) : Prop where
  read : ∀ j, w.read m' j = w.read m j
  marks : SameMarks m m'
  region1Pt : m'.region1Pt = m.region1Pt
  fixed : Fixed m m'

theorem Stored.refl (w : Word) (m : Memory) : Stored w m m := ⟨fun _ => rfl, .refl m, rfl, .refl m⟩

theorem Stored.trans (h : Stored w m u) (h' : Stored w u m') : Stored w m m' :=
  ⟨fun j => (h'.read j).trans (h.read j), h.marks.trans h'.marks, h'.region1Pt.trans h.region1Pt, h.fixed.trans h'.fixed⟩

theorem selects_congr (h : Selects m w) (hr : m'.regPtr0 = m.regPtr0) (hn : m'.numPages = m.numPages) :
    Selects m' w := by
  cases h with
  | static h => exact .static (hr.trans h)
  | frame h hf => exact .frame (hr.trans h) (hn ▸ hf)

theorem Guarded.congr (hg : Guarded w m) (hfix : Fixed m m') (hv : ∀ j, (w.read m' j).valid = (w.read m j).valid)
    (hp : ∀ j, (w.read m' j).pfn = (w.read m j).pfn) : Guarded w m' := by
  refine ⟨selects_congr hg.selects hfix.regPtr0 hfix.numPages, fun f hf j hj hvalid => ?_⟩
  rw [hp]
  exact hg.apart f hf j hj (hv j ▸ hvalid)

theorem Stored.guarded (h : Stored w m m') (hg : Guarded w m) : Guarded w m' :=
  hg.congr h.fixed (fun j => by rw [h.read]) fun j => by rw [h.read]

/-- A byte goes to the frame of its page, and not into the table. -/
theorem storeByte_ok {vaddr : Nat} {x : BitVec 8} (hg : Guarded w m) (h : storeByte vaddr x m = .ok m') :
    let e := w.read m (vaddr / pageSize)
    vaddr / pageSize < pageTableLen ∧ e.valid = true ∧ e.pfn.toNat < m.numPages ∧ w ≠ .frame e.pfn.toNat ∧
      m' = writeWord m e.pfn.toNat (vaddr % pageSize / 4)
        ((m.frames e.pfn.toNat (vaddr % pageSize / 4)).setByte (vaddr % 4) x) := by
  obtain ⟨f, hf, h⟩ := bind_ok.1 h
  obtain ⟨e, he, h⟩ := bind_ok.1 h
  obtain ⟨e', he', hf⟩ := bind_ok.1 hf
  rw [hg.selects.walk] at he he'
  obtain rfl := Except.ok.inj he
  obtain rfl := Except.ok.inj he'
  obtain ⟨⟨hlt, hv, hpfn⟩, hf⟩ := ite_error_ok.1 hf
  obtain rfl := Except.ok.inj hf
  obtain ⟨-, h⟩ := ite_error_ok.1 h
  exact ⟨hlt, hv, hpfn, fun he => hg.apart _ he _ hlt hv rfl, (Except.ok.inj h).symm⟩

theorem storeByte_stored {vaddr : Nat} {x : BitVec 8} (hg : Guarded w m) (h : storeByte vaddr x m = .ok m') :
    Stored w m m' := by
  have hmarks := SameMarks.storeByte h
  have hfix := Fixed.storeByte h
  obtain ⟨-, -, -, hne, rfl⟩ := storeByte_ok hg h
  exact ⟨fun j => word_read_copy hne .., hmarks, rfl, hfix⟩

def Stores (w : Word) (m m' : Memory) : Prop := Guarded w m → Stored w m m'

theorem Stores.refl (w : Word) (m : Memory) : Stores w m m := fun _ => .refl w m

theorem Stores.trans (h : Stores w m u) (h' : Stores w u m') : Stores w m m' := fun hg =>
  (h hg).trans (h' ((h hg).guarded hg))

theorem storeByte_stores (vaddr : Nat) (x : BitVec 8) (m m' : Memory) (h : storeByte vaddr x m = .ok m') :
    Stores w m m' := fun hg => storeByte_stored hg h

theorem storeBytes_stores {vaddr : Nat} {xs : List (BitVec 8)} (h : storeBytes vaddr xs m = .ok m') : Stores w m m' :=
  storeBytes_relation (Stores.refl w) (fun _ _ _ => Stores.trans) storeByte_stores h

theorem buildStack_stores {args : List (List (BitVec 8))} {z : Sizes} (h : buildStack args z m = .ok m') : Stores w m m' :=
  buildStack_relation (Stores.refl w) (fun _ _ _ => Stores.trans) storeByte_stores h

structure Protected (w : Word) (n : Nat) (m m' : Memory) : Prop where
  read : ∀ j, w.read m' j =
    if memInvalidPages ≤ j ∧ j < n then { w.read m j with kprot := protRead ||| protExec } else w.read m j
  marks : SameMarks m m'
  region1Pt : m'.region1Pt = m.region1Pt
  fixed : Fixed m m'

theorem Protected.valid (h : Protected w n m m') (j : Nat) : (w.read m' j).valid = (w.read m j).valid := by
  rw [h.read]
  split <;> rfl

theorem Protected.pfn (h : Protected w n m m') (j : Nat) : (w.read m' j).pfn = (w.read m j).pfn := by
  rw [h.read]
  split <;> rfl

theorem Protected.uprot (h : Protected w n m m') (j : Nat) : (w.read m' j).uprot = (w.read m j).uprot := by
  rw [h.read]
  split <;> rfl

theorem protect_loop (hw : Leads m t w) (h : upTo (protectText t) memInvalidPages n m = .ok m') :
    Protected w (memInvalidPages + n) m m' := by
  refine upTo_invariant (fun i u => Protected w i m u) (fun i u v hi _ hu hstep => ?_) ⟨fun j => ?_, .refl m, rfl, .refl m⟩ h
  · have hfix := Fixed.protectText hstep
    have hwu := Leads.of_fixed hw hu.fixed hu.region1Pt
    obtain ⟨e, he, hstep⟩ := bind_ok.1 hstep
    obtain ⟨j, w', hj, -, hw', rfl⟩ := readPte_ok.1 he
    obtain rfl := Int.ofNat.inj hj
    obtain rfl := leads_unique hwu hw'
    obtain ⟨j, w'', hj, -, hw'', rfl⟩ := writePte_ok.1 hstep
    obtain rfl := Int.ofNat.inj hj
    obtain rfl := leads_unique hwu hw''
    refine ⟨fun j => ?_, hu.marks.trans (.word ..), (word_write_region1 ..).trans hu.region1Pt, hu.fixed.trans hfix⟩
    by_cases hj : j = i
    · subst hj
      rw [word_read_write, hu.read, if_neg (by omega), if_pos ⟨hi, Nat.lt_succ_self j⟩]
    · rw [word_read_write_of_ne hj, hu.read]
      have hiff : (memInvalidPages ≤ j ∧ j < i) ↔ (memInvalidPages ≤ j ∧ j < i + 1) := by omega
      simp only [hiff]
  · rw [if_neg (by omega)]

/-- The memory `u` in which `fill` builds the stack. Of the table, only the
protection of the text has changed until then. -/
theorem fill_stages {li : LoadInfo} {read : Option (List (BitVec 8))} {args : List (List (BitVec 8))} {z : Sizes}
    {info info' : ExceptionInfo} (hw : Leads m t w) (hg : Guarded w m)
    (h : fill t li read args z info m = .ok (0, info', m')) :
    ∃ u, Protected w (memInvalidPages + z.textLen) m u ∧ Guarded w u ∧ buildStack args z u = .ok m' ∧
      info'.sp = info.sp := by
  obtain ⟨m₁, h₁, ⟨hr, -, -⟩ | ⟨-, rfl, m₂, m₃, h₂, h₃, h₄⟩⟩ := fill_ok h
  · cases hr
  · have hs₁ := storeBytes_stores h₁ hg
    have hp := protect_loop (Leads.of_fixed hw hs₁.fixed hs₁.region1Pt) h₂
    have hg₂ : Guarded w m₂ := (hs₁.guarded hg).congr hp.fixed hp.valid hp.pfn
    have hs₃ := storeBytes_stores h₃ hg₂
    refine ⟨m₃, ⟨fun j => ?_, (hs₁.marks.trans hp.marks).trans hs₃.marks, (hs₃.region1Pt.trans hp.region1Pt).trans hs₁.region1Pt,
      (hs₁.fixed.trans hp.fixed).trans hs₃.fixed⟩, hs₃.guarded hg₂, h₄, rfl⟩
    rw [hs₃.read, hp.read, hs₁.read]

def IsText (text j : Nat) : Prop := memInvalidPages ≤ j ∧ j < memInvalidPages + text

def IsData (text data j : Nat) : Prop := memInvalidPages + text ≤ j ∧ j < memInvalidPages + text + data

def IsStack (limit stack j : Nat) : Prop := limit - stack ≤ j ∧ j < limit

structure Loaded (w : Word) (curr text data stack : Nat) (m m' : Memory) : Prop where
  valid : ∀ j < kernelStackBase, (w.read m' j).valid = true ↔ IsText text j ∨ IsData text data j ∨ IsStack m.cfg.userStackLimit stack j
  textProt : ∀ j, IsText text j → (w.read m' j).uprot = protRead ||| protExec ∧ (w.read m' j).kprot = protRead ||| protExec
  dataProt : ∀ j, IsData text data j ∨ IsStack m.cfg.userStackLimit stack j →
    (w.read m' j).uprot = protRead ||| protWrite ∧ (w.read m' j).kprot = protRead ||| protWrite
  gap : stack ≤ m.cfg.userStackLimit ∧ memInvalidPages + text + data + 1 ≤ m.cfg.userStackLimit - stack
  distinct : ∀ j < kernelStackBase, ∀ k < kernelStackBase, (w.read m' j).valid = true → (w.read m' k).valid = true →
    (w.read m' j).pfn = (w.read m' k).pfn → j = k
  fresh : ∀ j < kernelStackBase, (w.read m' j).valid = true → (w.read m' j).pfn.toNat < m.numPages ∧
    (m.freePages (w.read m' j).pfn.toNat = .pageFree ∨ Released m w (w.read m' j).pfn.toNat)
  free : ∀ p < m.numPages, Released m w p →
    (∀ j < kernelStackBase, (w.read m' j).valid = true → (w.read m' j).pfn.toNat ≠ p) → m'.freePages p = .pageFree
  kernelStack : ∀ j, kernelStackBase ≤ j → j < pageTableLen → w.read m' j = w.read m j
  brk : (m'.space curr).brk = memInvalidPages + text + data
  sp : (m'.space curr).sp = m.cfg.userStackLimit - stack

theorem LaidOut.fixed {cfg : Config} {z : Sizes} {m₂ m₃ m₄ m₅ : Memory} {js ks ls : List Nat}
    (h : LaidOut w cfg z m m₂ m₃ m₄ m₅ js ks ls) : Fixed m m₅ ∧ m₅.region1Pt = m.region1Pt :=
  ⟨((h.cleared.fixed.trans h.text.fixed).trans h.data.fixed).trans h.stack.fixed,
    ((h.stack.region1Pt.trans h.data.region1Pt).trans h.text.region1Pt).trans h.cleared.region1Pt⟩

theorem LaidOut.pages {cfg : Config} {z : Sizes} {text data stack : Nat} {m₂ m₃ m₄ m₅ : Memory} {js ks ls : List Nat}
    (h : LaidOut w cfg z m m₂ m₃ m₄ m₅ js ks ls) (hz : Counted z text data stack) :
    (∀ j, j ∈ js ↔ IsText text j) ∧ (∀ j, j ∈ ks ↔ IsData text data j) ∧ ∀ j, j ∈ ls ↔ IsStack cfg.userStackLimit stack j := by
  have hle := h.stack_le
  refine ⟨fun j => ?_, fun j => ?_, fun j => ?_⟩
  · rw [h.mem_text, hz.textLen, IsText]
  · rw [h.mem_data, hz.dataLen, hz.textEnd, IsData]
    exact ⟨fun ⟨a, h₁, h₂⟩ => by omega, fun ⟨h₁, h₂⟩ => ⟨j - (memInvalidPages + text), by omega, by omega⟩⟩
  · rw [hz.stackNpg, Int.toNat_natCast] at hle
    rw [h.mem_stack, hz.stackNpg, Int.toNat_natCast, IsStack]
    exact ⟨fun ⟨a, h₁, h₂⟩ => by omega, fun ⟨h₁, h₂⟩ => ⟨cfg.userStackLimit - 1 - j, by omega, by omega⟩⟩

theorem LaidOut.apart {cfg : Config} {z : Sizes} {m₂ m₃ m₄ m₅ : Memory} {js ks ls : List Nat}
    (h : LaidOut w cfg z m m₂ m₃ m₄ m₅ js ks ls) (ha : Apart m w)
    (hframe : ∀ f, w = .frame f → f < m.numPages ∧ m.freePages f = .pageUsed) : Apart m₅ w := by
  intro f hf j hj hv he
  obtain ⟨hlt, hused⟩ := hframe f hf
  have hused₂ : m₂.freePages f ≠ .pageFree := by
    rw [Ne, h.cleared.free, hused, not_or]
    refine ⟨nofun, fun ⟨k, hk, hkv, hkp⟩ => ha f hf k ?_ hkv hkp⟩
    simp only [kernelStackBase, pageTableLen] at hk ⊢
    omega
  have hn₃ := h.text.fixed.numPages
  have hn₄ := h.data.fixed.numPages.trans hn₃
  have hn₂ := h.cleared.fixed.numPages
  have hused₃ : m₃.freePages f ≠ .pageFree := fun hfree => hused₂ ((h.text.marks f (by omega)).1 hfree).1
  have hused₄ : m₄.freePages f ≠ .pageFree := fun hfree => hused₃ ((h.data.marks f (by omega)).1 hfree).1
  by_cases hl : j ∈ ls
  · exact hused₄ (he ▸ h.stack.free j hl (by omega))
  · rw [h.stack.others j hl] at hv he
    by_cases hk : j ∈ ks
    · exact hused₃ (he ▸ h.data.free j hk (by omega))
    · rw [h.data.others j hk] at hv he
      by_cases hjs : j ∈ js
      · exact hused₂ (he ▸ h.text.free j hjs (by omega))
      · rw [h.text.others j hjs, h.cleared.read j hj] at hv he
        split at hv
        · cases hv
        · rw [if_neg ‹_›] at he
          exact ha f hf j hj hv he

theorem freed_length (h : Cleared w m m') : (freeList m).length ≤ (freeList m').length := by
  refine (List.subperm_of_subset (freeList_nodup m) fun p hp => ?_).length_le
  obtain ⟨hlt, hfree⟩ := mem_freeList.1 hp
  exact mem_freeList.2 ⟨h.fixed.numPages ▸ hlt, (h.free p).2 (.inl hfree)⟩

theorem LaidOut.disjoint {cfg : Config} {z : Sizes} {text data stack : Nat} {m₂ m₃ m₄ m₅ : Memory} {js ks ls : List Nat}
    (h : LaidOut w cfg z m m₂ m₃ m₄ m₅ js ks ls) (hz : Counted z text data stack)
    (hfits : memInvalidPages + text + data + 1 + stack ≤ cfg.userStackLimit) :
    (∀ j ∈ js, j ∉ ks) ∧ ∀ j ∈ js ++ ks, j ∉ ls := by
  obtain ⟨hjs, hks, hls⟩ := h.pages hz
  refine ⟨fun j hj hk => ?_, fun j hj hl => ?_⟩
  · have := (hjs j).1 hj
    have := (hks j).1 hk
    simp only [IsText, IsData] at *
    omega
  · have := (hls j).1 hl
    rcases List.mem_append.1 hj with hj | hj
    · have := (hjs j).1 hj
      simp only [IsText, IsStack] at *
      omega
    · have := (hks j).1 hj
      simp only [IsData, IsStack] at *
      omega

theorem LaidOut.mapped {cfg : Config} {z : Sizes} {text data stack : Nat} {m₂ m₃ m₄ m₅ : Memory} {js ks ls : List Nat}
    (h : LaidOut w cfg z m m₂ m₃ m₄ m₅ js ks ls) (hz : Counted z text data stack)
    (hfits : memInvalidPages + text + data + 1 + stack ≤ cfg.userStackLimit) :
    Mapped w (js ++ ks ++ ls) m₂ m₅ ∧
      ∀ j, j ∈ js ++ ks ++ ls ↔ IsText text j ∨ IsData text data j ∨ IsStack cfg.userStackLimit stack j := by
  obtain ⟨hjs, hks, hls⟩ := h.pages hz
  obtain ⟨hjk, hjl⟩ := h.disjoint hz hfits
  refine ⟨(h.text.append h.data hjk).append h.stack hjl, fun j => ?_⟩
  rw [List.mem_append, List.mem_append, hjs, hks, hls, or_assoc]

theorem LaidOut.valid_iff {cfg : Config} {z : Sizes} {m₂ m₃ m₄ m₅ : Memory} {js ks ls : List Nat}
    (h : LaidOut w cfg z m m₂ m₃ m₄ m₅ js ks ls) (hall : Mapped w (js ++ ks ++ ls) m₂ m₅) (hj : j < kernelStackBase) :
    (w.read m₅ j).valid = true ↔ j ∈ js ++ ks ++ ls := by
  refine ⟨fun hv => ?_, hall.valid j⟩
  by_contra hno
  rw [hall.others j hno, h.cleared.read j (by simp only [kernelStackBase, pageTableLen] at hj ⊢; omega), if_pos hj] at hv
  cases hv

theorem LaidOut.loaded {cfg : Config} {z : Sizes} {curr text data stack : Nat} {m₂ m₃ m₄ m₅ : Memory} {js ks ls : List Nat}
    (h : LaidOut w cfg z m m₂ m₃ m₄ m₅ js ks ls) (hcfg : cfg = m.cfg) (hlimit : StackLimit cfg) (hz : Counted z text data stack)
    (hfits : memInvalidPages + text + data + 1 + stack ≤ cfg.userStackLimit) (henough : text + data + stack ≤ (freeList m).length)
    (hread : ∀ j, w.read m' j =
      if memInvalidPages ≤ j ∧ j < memInvalidPages + text then { w.read m₅ j with kprot := protRead ||| protExec }
      else w.read m₅ j)
    (hmarks : m'.freePages = m₅.freePages) (hbrk : (m'.space curr).brk = memInvalidPages + text + data)
    (hsp : (m'.space curr).sp = cfg.userStackLimit - stack) : Loaded w curr text data stack m m' := by
  have hle := hlimit.le
  subst hcfg
  obtain ⟨hjs, hks, hls⟩ := h.pages hz
  have hvalid (j : Nat) : (w.read m' j).valid = (w.read m₅ j).valid := by
    rw [hread]
    split <;> rfl
  have hpfn (j : Nat) : (w.read m' j).pfn = (w.read m₅ j).pfn := by
    rw [hread]
    split <;> rfl
  obtain ⟨hjk, hjl⟩ := h.disjoint hz hfits
  obtain ⟨hall, hmem⟩ := h.mapped hz hfits
  have hn := h.cleared.fixed.numPages
  have hlt : ∀ j ∈ js ++ ks ++ ls, (w.read m₅ j).pfn.toNat < m₂.numPages := by
    refine hall.enough ?_
    have hj := h.text_length
    have hk := h.data_length
    have hl := h.stack_length
    have := freed_length h.cleared
    rw [hz.textLen] at hj
    rw [hz.dataLen] at hk
    rw [hz.stackNpg, Int.toNat_natCast] at hl
    simp only [List.length_append]
    omega
  have hiff : ∀ j < kernelStackBase, (w.read m₅ j).valid = true ↔ j ∈ js ++ ks ++ ls := fun j hj => h.valid_iff hall hj
  refine ⟨fun j hj => ?_, fun j hj => ?_, fun j hj => ?_, ⟨by omega, by omega⟩, fun j hj k hk hv hv' he => ?_,
    fun j hj hv => ?_, fun p hp hrel hno => ?_, fun j hj hj' => ?_, hbrk, hsp⟩
  · rw [hvalid, hiff j hj, hmem]
  · have hin := (hjs j).2 hj
    have hnk := hjk j hin
    have hnl := hjl j (List.mem_append_left _ hin)
    rw [hread, if_pos (show memInvalidPages ≤ j ∧ j < memInvalidPages + text from hj)]
    refine ⟨?_, rfl⟩
    dsimp only
    rw [h.stack.others j hnl, h.data.others j hnk]
    exact h.text_prot j hin
  · have hnot : ¬ (memInvalidPages ≤ j ∧ j < memInvalidPages + text) := by
      simp only [IsData, IsStack] at hj
      omega
    rw [hread, if_neg hnot]
    rcases hj with hj | hj
    · have hin := (hks j).2 hj
      rw [h.stack.others j (hjl j (List.mem_append_right _ hin))]
      exact h.data_prot j hin
    · exact h.stack_prot j ((hls j).2 hj)
  · rw [hvalid, hiff j hj] at hv
    rw [hvalid, hiff k hk] at hv'
    rw [hpfn, hpfn] at he
    exact hall.once j hv k hv' (hlt j hv) he
  · rw [hvalid, hiff j hj] at hv
    rw [hpfn]
    exact ⟨hn ▸ hlt j hv, (h.cleared.free _).1 (hall.free j hv (hlt j hv))⟩
  · rw [hmarks, hall.marks p (hn ▸ hp)]
    refine ⟨(h.cleared.free p).2 (.inr hrel), fun j hj => ?_⟩
    have hj' : j < kernelStackBase := by
      have := (hmem j).1 hj
      simp only [IsText, IsData, IsStack] at this
      omega
    rw [← hpfn]
    exact hno j hj' (by rw [hvalid, hiff j hj']; exact hj)
  · have hno : j ∉ js ++ ks ++ ls := fun hm => by
      have := (hmem j).1 hm
      simp only [IsText, IsData, IsStack] at this
      omega
    have hnot : ¬ (memInvalidPages ≤ j ∧ j < memInvalidPages + text) := by omega
    rw [hread, if_neg hnot, hall.others j hno, h.cleared.read j hj', if_neg (by omega)]

theorem word_read_space (w : Word) (m : Memory) (curr : Nat) (sp : Space) (j : Nat) :
    w.read (setSpace m curr sp) j = w.read m j := by
  cases w <;> rfl

theorem released_space (w : Word) (m : Memory) (curr : Nat) (sp : Space) (p : Nat) :
    Released (setSpace m curr sp) w p ↔ Released m w p := by
  simp only [Released, word_read_space]

theorem Loaded.of_space {curr text data stack : Nat} {sp : Space} (h : Loaded w curr text data stack (setSpace m curr sp) m') :
    Loaded w curr text data stack m m' := by
  refine ⟨h.valid, h.textProt, h.dataProt, h.gap, h.distinct, fun j hj hv => ?_, fun p hp hrel => ?_, fun j hj hj' => ?_, h.brk,
    h.sp⟩
  · obtain ⟨hlt, hfresh⟩ := h.fresh j hj hv
    exact ⟨hlt, hfresh.imp_right (released_space w m curr sp _).1⟩
  · exact h.free p hp ((released_space w m curr sp p).2 hrel)
  · rw [h.kernelStack j hj hj', word_read_space]

structure Filled (w : Word) (curr : Nat) (z : Sizes) (m m₅ u : Memory) : Prop where
  read : ∀ j, w.read u j =
    if memInvalidPages ≤ j ∧ j < memInvalidPages + z.textLen then { w.read m₅ j with kprot := protRead ||| protExec }
    else w.read m₅ j
  marks : u.freePages = m₅.freePages
  guarded : Guarded w u
  numPages : u.numPages = m.numPages
  brk : (u.space curr).brk = newBrk z
  sp : (u.space curr).sp = newSp m.cfg z

/-- The stages of a call that returns 0: the pages are laid out, the program is
copied in, and the stack is built. -/
theorem loadProgram_stages {curr : Nat} {file : Option File} {args : List (List (BitVec 8))} {info info' : ExceptionInfo}
    (h : loadProgram curr t file args info m = .ok (0, info', m')) (hsmall : m.numPages < 2 ^ 20)
    (hw : Leads m t w) (hsel : Selects m w)
    (hframe : ∀ f, w = .frame f → f < m.numPages ∧ m.freePages f = .pageUsed) (hapart : Apart m w) :
    ∃ f li m₂ m₃ m₄ m₅ u js ks ls, file = some f ∧ f.status = .success li ∧
      let z := sizes m.cfg li args
      fitsVirtual z = true ∧ fitsPhysical z m = true ∧
        LaidOut w m.cfg z (setSpace m curr { m.space curr with brk := newBrk z }) m₂ m₃ m₄ m₅ js ks ls ∧
        Filled w curr z m m₅ u ∧ buildStack args z u = .ok m' ∧ info'.sp = toUlong z.cpp := by
  rcases loadProgram_ok h with ⟨hr, -⟩ | ⟨f, li, rfl, hli, hvirtual, ⟨-, hr, -⟩ | ⟨hphysical, m₁, hlay, hfill⟩⟩
  · cases hr
  · cases hr
  let m₀ := setSpace m curr { m.space curr with brk := newBrk (sizes m.cfg li args) }
  have hread₀ : ∀ j, w.read m₀ j = w.read m j := word_read_space w m curr _
  have hw₀ : Leads m₀ t w := leads_congr hw rfl fun _ _ => rfl
  obtain ⟨m₂, m₃, m₄, js, ks, ls, hl⟩ := layOut_ok (m := m₀) hsmall hw₀ hlay
  obtain ⟨hfix, hregion⟩ := hl.fixed
  -- the program is copied in with the stack pointer of the pcb set
  let m₅ := setSpace m₁ curr { m₁.space curr with sp := newSp m₁.cfg (sizes m.cfg li args) }
  have hread₅ : ∀ j, w.read m₅ j = w.read m₁ j := word_read_space w m₁ curr _
  have hw₅ : Leads m₅ t w := leads_congr hw₀ hfix.numPages fun _ _ => congrFun hregion _
  have hg₅ : Guarded w m₅ := by
    refine ⟨selects_congr hsel hfix.regPtr0 hfix.numPages, fun f hf j hj hv => ?_⟩
    rw [hread₅] at hv ⊢
    exact hl.apart (fun f hf j hj hv => by rw [hread₀] at hv ⊢; exact hapart f hf j hj hv) hframe f hf j hj hv
  obtain ⟨u, hp, hg, hbuild, hsp⟩ := fill_stages hw₅ hg₅ hfill
  refine ⟨f, li, m₂, m₃, m₄, m₁, u, js, ks, ls, rfl, hli, hvirtual, hphysical, hl,
    ⟨fun j => ?_, hp.marks.freePages, hg, hp.fixed.numPages.trans hfix.numPages, ?_, ?_⟩, hbuild, hsp⟩
  · rw [hp.read, hread₅]
  · rw [hp.fixed.space, setSpace_space_self]
    dsimp only
    rw [hfix.space, setSpace_space_self]
  · rw [hp.fixed.space, setSpace_space_self]
    dsimp only
    rw [show m₁.cfg = m.cfg from hfix.cfg]

/-- `LoadProgram` builds the address space of the program, for a table that does
not map its own frame and that REG_PTR0 selects. -/
theorem load_layout {curr : Nat} {file : File} {li : LoadInfo} {args : List (List (BitVec 8))} {info info' : ExceptionInfo}
    (h : loadProgram curr t (some file) args info m = .ok (0, info', m')) (hli : file.status = .success li)
    (hcounts : CountsFit m.cfg li args) (hlimit : StackLimit m.cfg) (hsmall : m.numPages < 2 ^ 20)
    (hfree : m.numFreePages ≤ (freeList m).length) (hw : Leads m t w) (hsel : Selects m w)
    (hframe : ∀ f, w = .frame f → f < m.numPages ∧ m.freePages f = .pageUsed) (hapart : Apart m w) :
    Loaded w curr (textPages li) (dataPages li) (stackPages m.cfg li args) m m' := by
  obtain ⟨f, li', m₂, m₃, m₄, m₅, u, js, ks, ls, hf, hli', hvirtual, hphysical, hl, hu, hbuild, -⟩ :=
    loadProgram_stages h hsmall hw hsel hframe hapart
  obtain rfl := Option.some.inj hf
  obtain rfl : li = li' := LoadStatus.success.inj (hli.symm.trans hli')
  have hz := sizes_counted hcounts
  have hfits := pages_fit hlimit hcounts hvirtual
  have henough : textPages li + dataPages li + stackPages m.cfg li args ≤ (freeList m).length := by
    have hle := of_decide_eq_true hphysical
    rw [hz.total] at hle
    omega
  have hstack := buildStack_stores hbuild hu.guarded
  refine (hl.loaded rfl hlimit hz hfits henough (fun j => ?_) (hstack.marks.freePages.trans hu.marks) ?_ ?_).of_space
  · rw [hstack.read, hu.read, hz.textLen]
  · rw [hstack.fixed.space, hu.brk, hz.brk]
  · rw [hstack.fixed.space, hu.sp, newSp_counted hlimit hz.stackNpg (by omega)]

/-- What a caller of `LoadProgram` is held to. -/
structure Called (m : Memory) (t : TablePtr) (w : Word) (file : File) (li : LoadInfo) (args : List (List (BitVec 8))) :
    Prop where
  file : file.status = .success li
  text : li.textSize % pageSize = 0
  counts : textPages li < 2 ^ 31 ∧ dataPages li < 2 ^ 31 ∧ stackPages m.cfg li args < 2 ^ 31
  limit : m.cfg.userStackLimit = kernelStackBase
  small : m.numPages < 2 ^ 20
  free : m.numFreePages ≤ (freeList m).length
  leads : Leads m t w
  used : ∀ j < kernelStackBase, (w.read m j).valid = true → m.freePages (w.read m j).pfn.toNat = .pageUsed
  distinct : ∀ j < kernelStackBase, ∀ k < kernelStackBase, (w.read m j).valid = true → (w.read m k).valid = true →
    (w.read m j).pfn = (w.read m k).pfn → j = k

/-- A table with no valid entry in the frame 512, and two free frames. The static
table maps two pages, the first of them to the frame of that table. -/
def tableMemory (regPtr0 : TablePtr) (free₁ free₂ : Nat) : Memory where
  cfg := ⟨kernelStackBase, 0, 0⟩
  numPages := 514
  freePages := fun p => if p = free₁ ∨ p = free₂ then .pageFree else .pageUsed
  numFreePages := 2
  region0Pt := fun j => ⟨if j = 16 then 512 else 510, 0, 0, protRead ||| protWrite, j = 16 ∨ j = 507⟩
  region1Pt := fun _ => ⟨512, 0, 0, protRead ||| protWrite, true⟩
  frames := fun _ _ => ⟨0, 0, 0, 0, false⟩
  currKernelBrk := 0
  vmEnabled := true
  regPtr0
  space := fun _ => ⟨0, 0, .page 512, 0⟩

def onesFile : File := ⟨.success ⟨0, 4, 0, 0⟩, some [255, 255, 255, 255]⟩

/-- A program of a page of text and 2^31 - 1 pages of data, which cannot be read. -/
def hugeFile : File := ⟨.success ⟨4096, 2 ^ 43 - 4097, 0, 0⟩, none⟩

def zeroInfo : ExceptionInfo := ⟨0, 0, 0, 0, 0, fun _ => 0⟩

theorem table_called {regPtr0 : TablePtr} {free₁ free₂ : Nat} (file : File) {li : LoadInfo} (hli : file.status = .success li)
    (htext : li.textSize % pageSize = 0) (hcounts : textPages li < 2 ^ 31 ∧ dataPages li < 2 ^ 31)
    (h : 2 ≤ (freeList (tableMemory regPtr0 free₁ free₂)).length) :
    Called (tableMemory regPtr0 free₁ free₂) (.page 512) (.frame 512) file li [] := by
  refine ⟨hli, htext, ⟨hcounts.1, hcounts.2, ?_⟩, rfl, (by decide : (514 : Nat) < 2 ^ 20), ?_, .frame ?_, ?_, ?_⟩
  · exact (by decide : stackPages ⟨kernelStackBase, 0, 0⟩ ⟨0, 4, 0, 0⟩ [] < 2 ^ 31)
  · exact Int.ofNat_le.2 h
  · exact kernelFrame_ok.2 ⟨⟨by decide, by decide⟩, rfl, rfl, (by decide : (512 : Nat) < 514)⟩
  · intro j _ hv
    cases hv
  · intro j _ k _ hv
    cases hv

/-- A call with the table in a used frame, with it in a free one, with REG_PTR0 at
another table, and one whose page counts fit in an `int` and their sum does not. -/
def smallLoads : Bool :=
  (yields (loadProgram 0 (.page 512) (some onesFile) [] zeroInfo (tableMemory (.page 512) 511 513)) fun (r, _, _) =>
    decide (r = 0)) &&
  (yields (loadProgram 0 (.page 512) (some onesFile) [] zeroInfo (tableMemory (.page 512) 512 513)) fun (r, _, m) =>
    decide (r = 0) && ((Word.frame 512).read m 0).valid) &&
  (yields (loadProgram 0 (.page 512) (some onesFile) [] zeroInfo (tableMemory .region0Pt 511 513)) fun (r, _, m) =>
    decide (r = 0) && ((Word.frame 512).read m 0).valid) &&
  (yields (loadProgram 0 (.page 512) (some hugeFile) [] zeroInfo (tableMemory (.page 512) 511 513)) fun (r, _, m) =>
    decide (r = 0) && !((Word.frame 512).read m 17).valid) &&
  decide (2 ≤ (freeList (tableMemory (.page 512) 511 513)).length) &&
  decide (2 ≤ (freeList (tableMemory (.page 512) 512 513)).length) &&
  decide (2 ≤ (freeList (tableMemory .region0Pt 511 513)).length)

theorem small_loads : smallLoads = true := by
  decide +kernel

theorem table_apart (regPtr0 : TablePtr) (free₁ free₂ : Nat) : Apart (tableMemory regPtr0 free₁ free₂) (.frame 512) := by
  intro f hf j _ hv
  cases hv

theorem load_layout_small : ∃ info' m',
    loadProgram 0 (.page 512) (some onesFile) [] zeroInfo (tableMemory (.page 512) 511 513) = .ok (0, info', m') ∧
      Loaded (.frame 512) 0 0 1 1 (tableMemory (.page 512) 511 513) m' := by
  have hsmall := small_loads
  simp only [smallLoads, Bool.and_eq_true, yields_iff, decide_eq_true_eq] at hsmall
  obtain ⟨⟨⟨⟨⟨⟨⟨⟨r, info', m'⟩, hload, rfl⟩, -⟩, -⟩, -⟩, hlen⟩, -⟩, -⟩ := hsmall
  have hc := table_called onesFile rfl rfl ⟨by decide, by decide⟩ hlen
  refine ⟨info', m', hload, ?_⟩
  exact load_layout hload hc.file (by unfold CountsFit; decide) ⟨Nat.le_refl _, Nat.le_succ _⟩ hc.small hc.free hc.leads
    (.frame rfl (by decide : (512 : Nat) < 514)) (fun f hf => by cases hf; exact ⟨(by decide : (512 : Nat) < 514), rfl⟩)
    (table_apart _ _ _)

/-- With the table in a free frame, or REG_PTR0 at another table, the data of the
program is stored into the table. A sum of page counts that wraps passes both checks,
and the failed `read` is taken for the 2^43 - 1 bytes that it was asked for. -/
theorem table_overwritten :
    (∃ m info' m', Called m (.page 512) (.frame 512) onesFile ⟨0, 4, 0, 0⟩ [] ∧ Selects m (.frame 512) ∧
      loadProgram 0 (.page 512) (some onesFile) [] zeroInfo m = .ok (0, info', m') ∧ ¬ Loaded (.frame 512) 0 0 1 1 m m') ∧
    (∃ m info' m', Called m (.page 512) (.frame 512) onesFile ⟨0, 4, 0, 0⟩ [] ∧ m.freePages 512 = .pageUsed ∧
      Apart m (.frame 512) ∧
      loadProgram 0 (.page 512) (some onesFile) [] zeroInfo m = .ok (0, info', m') ∧ ¬ Loaded (.frame 512) 0 0 1 1 m m') ∧
    ∃ m info' m', Called m (.page 512) (.frame 512) hugeFile ⟨4096, 2 ^ 43 - 4097, 0, 0⟩ [] ∧ m.freePages 512 = .pageUsed ∧
      Apart m (.frame 512) ∧ Selects m (.frame 512) ∧
      loadProgram 0 (.page 512) (some hugeFile) [] zeroInfo m = .ok (0, info', m') ∧
      ¬ Loaded (.frame 512) 0 1 (2 ^ 31 - 1) 1 m m' := by
  have hsmall := small_loads
  simp only [smallLoads, Bool.and_eq_true, yields_iff, decide_eq_true_eq] at hsmall
  obtain ⟨⟨⟨⟨⟨⟨-, ⟨r, info', m'⟩, hload, rfl, hv⟩, ⟨r₁, info₁, m₁⟩, hload₁, rfl, hv₁⟩, ⟨r₂, info₂, m₂⟩, hload₂, rfl, hv₂⟩,
    hlen₀⟩, hlen⟩, hlen₁⟩ := hsmall
  have hno {m m' : Memory} (hv : ((Word.frame 512).read m' 0).valid = true) : ¬ Loaded (.frame 512) 0 0 1 1 m m' := by
    intro hl
    have := (hl.valid 0 (by decide)).1 hv
    have hgap := hl.gap
    simp [IsText, IsData, IsStack, memInvalidPages] at this hgap
    omega
  have hcalled {regPtr0 : TablePtr} {free₁ free₂ : Nat} (h : 2 ≤ (freeList (tableMemory regPtr0 free₁ free₂)).length) :=
    table_called onesFile rfl rfl ⟨by decide, by decide⟩ h
  refine ⟨⟨_, info', m', hcalled hlen, .frame rfl (by decide : (512 : Nat) < 514), hload, hno hv⟩,
    ⟨_, info₁, m₁, hcalled hlen₁, rfl, table_apart _ _ _, hload₁, hno hv₁⟩,
    _, info₂, m₂, table_called hugeFile rfl rfl ⟨by decide, by decide⟩ hlen₀, rfl, table_apart _ _ _,
    .frame rfl (by decide : (512 : Nat) < 514), hload₂, fun hl => ?_⟩
  rw [(hl.valid 17 (by decide)).2 (.inr (.inl ⟨by decide, by decide⟩))] at hv₂
  cases hv₂

end Yalnix.Layout
