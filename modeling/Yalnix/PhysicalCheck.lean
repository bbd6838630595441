import Yalnix.ExitFrames

namespace Yalnix.PhysicalCheck

open Loops Machine AddressSpace LoadProgram Accesses FreeList FreeCounter Allocation ExitFrames

variable {m m' u : Memory} {t : TablePtr} {w : Word} {g : Nat → Int} {n k start : Nat} {uprot kprot : BitVec 3}

/-- No call of `findFreePage` in the loop finds no frame. A round whose index is
not in the table does not get as far as the call. -/
def Finds (t : TablePtr) (uprot kprot : BitVec 3) (g : Nat → Int) : Nat → Nat → Memory → Prop
  | _, 0, _ => True
  | start, n + 1, m => ∀ e, readPte m t (g start) = .ok e → (findFreePage m).1 ≠ -1 ∧
      ∀ m', mapPage t uprot kprot (g start) m = .ok m' → Finds t uprot kprot g (start + 1) n m'

/-- How many indices of the loop are in the table before the first that is not. -/
def inTable (g : Nat → Int) : Nat → Nat → Nat
  | _, 0 => 0
  | start, n + 1 => if 0 ≤ g start ∧ g start < pageTableLen then inTable g (start + 1) n + 1 else 0

theorem inTable_le (g : Nat → Int) (start n : Nat) : inTable g start n ≤ n := by
  induction n generalizing start with
  | zero => exact Nat.le_refl _
  | succ n ih =>
      unfold inTable
      split
      case isTrue => exact Nat.succ_le_succ (ih _)
      case isFalse => exact Nat.zero_le _

theorem readPte_index {i : Int} (hw : Leads m t w) : (∃ e, readPte m t i = .ok e) ↔ 0 ≤ i ∧ i < pageTableLen := by
  constructor
  · rintro ⟨e, he⟩
    obtain ⟨j, w', rfl, hj, -⟩ := readPte_ok.1 he
    omega
  · rintro ⟨h, hlt⟩
    obtain ⟨j, rfl⟩ := Int.eq_ofNat_of_zero_le h
    exact ⟨_, readPte_ok.2 ⟨j, w, rfl, by omega, hw, rfl⟩⟩

theorem findFreePage_none : (findFreePage m).1 = -1 ↔ freeList m = [] := by
  rcases findFreePage_list m with ⟨f, l, hl, h⟩ | ⟨hl, h⟩
  · rw [h, hl]
    refine iff_of_false (fun he => ?_) nofun
    change (f : Int) = -1 at he
    omega
  · exact iff_of_true (by rw [h]) hl

theorem mapPage_round {i : Int} (uprot kprot : BitVec 3) (hw : Leads m t w) (hi : 0 ≤ i ∧ i < pageTableLen) :
    ∃ m', mapPage t uprot kprot i m = .ok m' := by
  obtain ⟨j, rfl⟩ := Int.eq_ofNat_of_zero_le hi.1
  have hj : j < pageTableLen := by omega
  have hlead : Leads (findFreePage m).2 t w := by
    rcases findFreePage_list m with ⟨f, l, -, h⟩ | ⟨-, h⟩ <;> rw [h]
    · exact leads_congr hw rfl fun _ _ => rfl
    · exact hw
  exact ⟨_, mapPage_ok.2 ⟨_, readPte_ok.2 ⟨j, w, rfl, hj, hw, rfl⟩, writePte_ok.2 ⟨j, w, rfl, hj, hlead, rfl⟩⟩⟩

theorem mapPage_list {i : Int} (hw : Leads m t w) (h : mapPage t uprot kprot i m = .ok m') :
    (0 ≤ i ∧ i < pageTableLen) ∧ freeList m' = (freeList m).tail ∧ Leads m' t w := by
  have hmaps := mapPage_maps h
  obtain ⟨j, -, rfl, hj, -⟩ := mapPage_cases h
  refine ⟨by omega, ?_, Layout.Leads.of_fixed hw hmaps.fixed hmaps.region1Pt⟩
  rw [hmaps.list, List.drop_one]

theorem finds_iff {start : Nat} (hw : Leads m t w) : Finds t uprot kprot g start n m ↔ inTable g start n ≤ (freeList m).length := by
  induction n generalizing start m with
  | zero => exact iff_of_true trivial (Nat.zero_le _)
  | succ n ih =>
      unfold Finds inTable
      by_cases hi : 0 ≤ g start ∧ g start < pageTableLen
      · rw [if_pos hi]
        obtain ⟨e, he⟩ := (readPte_index hw).2 hi
        obtain ⟨m', hm'⟩ := mapPage_round uprot kprot hw hi
        obtain ⟨-, hlist, hlead⟩ := mapPage_list hw hm'
        have hrest : Finds t uprot kprot g (start + 1) n m' ↔ inTable g (start + 1) n ≤ (freeList m').length := ih hlead
        rw [hlist] at hrest
        have hne : (findFreePage m).1 ≠ -1 ↔ freeList m ≠ [] := not_congr findFreePage_none
        constructor
        · intro h
          obtain ⟨hfound, hnext⟩ := h e he
          have hpos := List.length_pos_iff.2 (hne.1 hfound)
          have hle := hrest.1 (hnext m' hm')
          rw [List.length_tail] at hle
          omega
        · intro hle e' _
          refine ⟨hne.2 fun hnil => ?_, fun v hv => ?_⟩
          · rw [hnil] at hle
            exact absurd hle (by simp)
          · obtain rfl := Except.ok.inj (hm'.symm.trans hv)
            refine hrest.2 ?_
            rw [List.length_tail]
            omega
      · rw [if_neg hi]
        exact iff_of_true (fun e he => absurd ((readPte_index hw).1 ⟨e, he⟩) hi) (Nat.zero_le _)

theorem mapLoop_ends (uprot kprot : BitVec 3) (g : Nat → Int) (start n : Nat) (hw : Leads m t w) :
    (∃ m', upTo (fun i => mapPage t uprot kprot (g i)) start n m = .ok m') ↔ inTable g start n = n := by
  induction n generalizing start m with
  | zero => exact iff_of_true ⟨m, rfl⟩ rfl
  | succ n ih =>
      unfold inTable
      by_cases hi : 0 ≤ g start ∧ g start < pageTableLen
      · rw [if_pos hi, Nat.succ_inj]
        obtain ⟨v, hv⟩ := mapPage_round uprot kprot hw hi
        rw [← ih (start + 1) (mapPage_list hw hv).2.2]
        constructor
        · rintro ⟨m', h⟩
          obtain ⟨v', hv', h⟩ := bind_ok.1 h
          obtain rfl := Except.ok.inj (hv.symm.trans hv')
          exact ⟨m', h⟩
        · rintro ⟨m', h⟩
          exact ⟨m', bind_ok.2 ⟨v, hv, h⟩⟩
      · rw [if_neg hi]
        refine iff_of_false ?_ (by omega)
        rintro ⟨m', h⟩
        obtain ⟨v, hv, -⟩ := bind_ok.1 h
        exact hi (mapPage_list hw hv).1

theorem mapLoop_list (hw : Leads m t w) (h : upTo (fun i => mapPage t uprot kprot (g i)) start n m = .ok m') :
    freeList m' = (freeList m).drop n ∧ Leads m' t w :=
  ⟨(mapLoop_maps h).list, Layout.Leads.of_fixed hw (mapLoop_maps h).fixed (mapLoop_maps h).region1Pt⟩

structure GivenBack (m : Memory) (t : TablePtr) (w : Word) (k : Nat) (u : Memory) : Prop where
  returns : Returns (frames m w (min k kernelStackBase)) m u
  read : ∀ j, k ≤ j → w.read u j = w.read m j
  leads : Leads u t w

theorem freeEntry_givenBack (ho : Owns m w pageTableLen) (hk : k < pageTableLen) (hu : GivenBack m t w k u) :
    ∃ v, freeEntry t k u = .ok v ∧ GivenBack m t w (k + 1) v := by
  obtain ⟨hret, hread, hlead⟩ := hu
  have hget : readPte u t k = .ok (w.read m k) := readPte_ok.2 ⟨k, w, rfl, hk, hlead, (hread k (Nat.le_refl _)).symm⟩
  unfold freeEntry
  by_cases hlow : k < kernelStackBase
  · have hframes : frames m w (min (k + 1) kernelStackBase) =
        frames m w k ++ if (w.read m k).valid then [(w.read m k).pfn.toNat] else [] := by
      rw [Nat.min_eq_left (show k + 1 ≤ kernelStackBase from hlow), frames_succ]
    rw [Nat.min_eq_left (Nat.le_of_lt hlow)] at hret
    rw [if_pos (.inl hlow)]
    cases hv : (w.read m k).valid with
    | true =>
        rw [hv, if_pos rfl] at hframes
        have hfree := freePage_returns (m := u) (hret.numPages ▸ ho.lt k hk hv)
        have hlead' : Leads { setMark u (w.read m k).pfn.toNat .pageFree with numFreePages := u.numFreePages + 1 } t w :=
          leads_congr hlead rfl fun _ _ => rfl
        refine ⟨_, bind_ok.2 ⟨_, hget, ?_⟩, hframes ▸ (hret.append hfree.2).marked
          (.word _ w k { w.read m k with valid := false }), fun j hj => ?_, ?_⟩
        · rw [if_pos hv]
          exact bind_ok.2 ⟨_, hfree.1, writePte_ok.2 ⟨k, w, rfl, hk, hlead', rfl⟩⟩
        · rw [word_read_write_of_ne (by omega), Layout.word_read_mark]
          exact hread j (by omega)
        · exact leads_congr hlead' (word_write_numPages ..) fun _ _ => by rw [word_write_region1]
    | false =>
        rw [hv, if_neg (by decide), List.append_nil] at hframes
        refine ⟨u, bind_ok.2 ⟨_, hget, ?_⟩, hframes ▸ hret, fun j hj => hread j (by omega), hlead⟩
        rw [if_neg (by simp [hv])]
        rfl
  · have hhigh : ¬ (k < kernelStackBase ∨ vmem1Base < k) := by
      simp only [kernelStackBase, vmem1Base, pageTableLen, pageSize] at hlow hk ⊢
      omega
    have hmin : min (k + 1) kernelStackBase = min k kernelStackBase := by omega
    rw [if_neg hhigh]
    exact ⟨u, rfl, hmin ▸ hret, fun j hj => hread j (by omega), hlead⟩

theorem freeLoop (hw : Leads m t w) (ho : Owns m w pageTableLen) :
    ∃ m', upTo (freeEntry t) 0 pageTableLen m = .ok m' ∧ Returns (frames m w kernelStackBase) m m' ∧ Leads m' t w := by
  have hrun : ∃ m', upTo (freeEntry t) 0 pageTableLen m = .ok m' ∧ GivenBack m t w (0 + pageTableLen) m' :=
    upTo_total (GivenBack m t w) (fun k u _ hk hu => freeEntry_givenBack ho (by omega) hu)
      ⟨.same (.refl m), fun _ _ => rfl, hw⟩
  obtain ⟨m', hm', hback⟩ := hrun
  exact ⟨m', hm', hback.returns, hback.leads⟩

theorem invalidateLoop (hw : Leads m t w) :
    ∃ m', upTo (invalidate t) 0 memInvalidPages m = .ok m' ∧ SameMarks m m' ∧ Leads m' t w := by
  refine upTo_total (fun _ u => SameMarks m u ∧ Leads u t w) (fun k u _ hk hu => ?_) ⟨.refl m, hw⟩
  obtain ⟨hsame, hlead⟩ := hu
  have hk' : k < pageTableLen := by
    simp only [memInvalidPages, pageTableLen] at hk ⊢
    omega
  refine ⟨w.write u k { w.read u k with valid := false }, ?_, hsame.trans (.word ..), ?_⟩
  · exact bind_ok.2 ⟨_, readPte_ok.2 ⟨k, w, rfl, hk', hlead, rfl⟩, writePte_ok.2 ⟨k, w, rfl, hk', hlead, rfl⟩⟩
  · exact leads_congr hlead (word_write_numPages ..) fun _ _ => by rw [word_write_region1]

def textLoop (t : TablePtr) (z : Sizes) (m : Memory) : Except Fault Memory :=
  upTo (fun i => mapPage t (protRead ||| protExec) (protRead ||| protWrite) i) memInvalidPages z.textLen m

def dataLoop (t : TablePtr) (z : Sizes) (m : Memory) : Except Fault Memory :=
  upTo (fun i => mapPage t (protRead ||| protWrite) (protRead ||| protWrite) (z.textEnd + i)) 0
    z.dataLen m

def LoadFinds (t : TablePtr) (z : Sizes) (m : Memory) : Prop :=
  ∀ m₁ m₂, upTo (freeEntry t) 0 pageTableLen m = .ok m₁ → upTo (invalidate t) 0 memInvalidPages m₁ = .ok m₂ →
    Finds t (protRead ||| protExec) (protRead ||| protWrite) (fun i => i) memInvalidPages z.textLen m₂ ∧
    ∀ m₃, textLoop t z m₂ = .ok m₃ →
      Finds t (protRead ||| protWrite) (protRead ||| protWrite) (fun i => z.textEnd + i) 0
        z.dataLen m₃ ∧
      ∀ m₄, dataLoop t z m₃ = .ok m₄ →
        Finds t (protRead ||| protWrite) (protRead ||| protWrite) (fun i => m.cfg.userStackLimit - 1 - i) 0
          z.stackNpg.toNat m₄

def needed (z : Sizes) : Int := z.textNpg + z.dataBssNpg + z.stackNpg

/-- How many calls of `findFreePage` the loops make. It is `needed`, unless an `int` page
count is negative or an index leaves the table. -/
def calls (cfg : Config) (z : Sizes) : Nat :=
  let text := inTable (fun i => i) memInvalidPages z.textLen
  if text < z.textLen then text
  else
    let data := inTable (fun i => z.textEnd + i) 0 z.dataLen
    if data < z.dataLen then text + data
    else text + data + inTable (fun i => cfg.userStackLimit - 1 - i) 0 z.stackNpg.toNat

theorem textLen_le {z : Sizes} (ht : 0 ≤ z.textNpg ∧ z.textNpg < 2 ^ 31) : (z.textLen : Int) ≤ z.textNpg := by
  have hend : z.textEnd ≤ memInvalidPages + z.textNpg := by
    simp only [Sizes.textEnd, toInt_eq, memInvalidPages]
    split <;> omega
  rw [Sizes.textLen]
  omega

theorem dataLen_le {z : Sizes} (hd : 0 ≤ z.dataBssNpg ∧ z.dataBssNpg < 2 ^ 31) :
    (z.dataLen : Int) ≤ z.dataBssNpg := by
  have hend : z.dataEnd ≤ z.textEnd + z.dataBssNpg := by
    simp only [Sizes.dataEnd, Sizes.textEnd, toInt_eq, memInvalidPages]
    split <;> split <;> omega
  rw [Sizes.dataLen]
  omega

theorem calls_le {cfg : Config} {z : Sizes} (ht : 0 ≤ z.textNpg ∧ z.textNpg < 2 ^ 31)
    (hd : 0 ≤ z.dataBssNpg ∧ z.dataBssNpg < 2 ^ 31) (hs : 0 ≤ z.stackNpg) : (calls cfg z : Int) ≤ needed z := by
  have htext := textLen_le ht
  have hdata := dataLen_le hd
  have h₁ := inTable_le (fun i => i) memInvalidPages z.textLen
  have h₂ := inTable_le (fun i => z.textEnd + i) 0 z.dataLen
  have h₃ := inTable_le (fun i => cfg.userStackLimit - 1 - i) 0 z.stackNpg.toNat
  simp only [calls, needed]
  split
  case isTrue => omega
  case isFalse =>
    split
    case isTrue => omega
    case isFalse => omega

theorem loadFinds_iff {z : Sizes} (hw : Leads m t w) (ho : Owns m w pageTableLen) :
    LoadFinds t z m ↔ calls m.cfg z ≤ (freeList m).length + validEntries m w kernelStackBase := by
  obtain ⟨m₁, h₁, hret, hw₁⟩ := freeLoop hw ho
  obtain ⟨m₂, h₂, hsame, hw₂⟩ := invalidateLoop hw₁
  have hlow {j : Nat} (hj : j < kernelStackBase) : j < pageTableLen := Nat.lt_trans hj (by decide)
  have hlen : (freeList m₂).length = (freeList m).length + validEntries m w kernelStackBase := by
    have ho' : Owns m w kernelStackBase := ⟨fun j hj => ho.lt j (hlow hj), fun j hj => ho.used j (hlow hj),
      fun j hj k hk => ho.distinct j (hlow hj) k (hlow hk)⟩
    rw [hsame.list, returns_freeList hret (frames_nodup ho') fun f hf => ?_, frames_length]
    obtain ⟨j, hj, hv, rfl⟩ := mem_frames.1 hf
    exact ⟨ho'.lt j hj hv, ho'.used j hj hv⟩
  have hsplit : LoadFinds t z m ↔
      Finds t (protRead ||| protExec) (protRead ||| protWrite) (fun i => i) memInvalidPages z.textLen m₂ ∧
      ∀ m₃, textLoop t z m₂ = .ok m₃ →
        Finds t (protRead ||| protWrite) (protRead ||| protWrite) (fun i => z.textEnd + i) 0
          z.dataLen m₃ ∧
        ∀ m₄, dataLoop t z m₃ = .ok m₄ →
          Finds t (protRead ||| protWrite) (protRead ||| protWrite) (fun i => m.cfg.userStackLimit - 1 - i) 0
            z.stackNpg.toNat m₄ := by
    refine ⟨fun h => h m₁ m₂ h₁ h₂, fun h v₁ v₂ hv₁ hv₂ => ?_⟩
    obtain rfl := Except.ok.inj (h₁.symm.trans hv₁)
    obtain rfl := Except.ok.inj (h₂.symm.trans hv₂)
    exact h
  have htext := mapLoop_ends (protRead ||| protExec) (protRead ||| protWrite) (fun i => (i : Int)) memInvalidPages
    z.textLen hw₂
  have hle := inTable_le (fun i => (i : Int)) memInvalidPages z.textLen
  rw [hsplit, finds_iff hw₂, ← hlen]
  simp only [calls]
  split
  case isTrue hlt =>
    -- the loop over the text leaves the table
    refine and_iff_left_of_imp fun _ m₃ hm₃ => ?_
    exact absurd (htext.1 ⟨m₃, hm₃⟩) (by omega)
  case isFalse hge =>
    obtain ⟨m₃, hm₃⟩ := htext.2 (by omega)
    obtain ⟨hlist₃, hw₃⟩ := mapLoop_list hw₂ hm₃
    have hdata := mapLoop_ends (protRead ||| protWrite) (protRead ||| protWrite)
      (fun i => (z.textEnd + i : Int)) 0 z.dataLen hw₃
    have hle' := inTable_le (fun i => (z.textEnd + i : Int)) 0 z.dataLen
    have hone {P : Memory → Prop} : (∀ v, textLoop t z m₂ = .ok v → P v) ↔ P m₃ := by
      refine ⟨fun h => h m₃ hm₃, fun h v hv => ?_⟩
      obtain rfl := Except.ok.inj (hm₃.symm.trans hv)
      exact h
    have hlen₃ : (freeList m₃).length = (freeList m₂).length - z.textLen := by
      rw [hlist₃, List.length_drop]
    rw [hone, finds_iff hw₃, hlen₃]
    split
    case isTrue hlt =>
      -- the loop over the data leaves the table
      refine ⟨fun ⟨_, _, _⟩ => by omega, fun _ => ⟨by omega, by omega, fun m₄ hm₄ => ?_⟩⟩
      exact absurd (hdata.1 ⟨m₄, hm₄⟩) (by omega)
    case isFalse hge' =>
      obtain ⟨m₄, hm₄⟩ := hdata.2 (by omega)
      obtain ⟨hlist₄, hw₄⟩ := mapLoop_list hw₃ hm₄
      have hone' {P : Memory → Prop} : (∀ v, dataLoop t z m₃ = .ok v → P v) ↔ P m₄ := by
        refine ⟨fun h => h m₄ hm₄, fun h v hv => ?_⟩
        obtain rfl := Except.ok.inj (hm₄.symm.trans hv)
        exact h
      have hlen₄ : (freeList m₄).length = (freeList m₃).length - z.dataLen := by
        rw [hlist₄, List.length_drop]
      rw [hone', finds_iff hw₄, hlen₄, hlen₃]
      omega

def Refused (curr : Nat) (t : TablePtr) (file : File) (args : List (List (BitVec 8))) (info : ExceptionInfo) (m : Memory) : Prop :=
  ∃ m', loadProgram curr t (some file) args info m = .ok (-1, info, m')

/-- The check of physical memory says what it is for: a program is refused if it asks for more
than the free frames and those that the call is about to free, and if it is not refused, each
call of `findFreePage` finds a frame. -/
def CheckExact (curr : Nat) (t : TablePtr) (w : Word) (file : File) (li : LoadInfo) (args : List (List (BitVec 8)))
    (info : ExceptionInfo) (m : Memory) : Prop :=
  (Refused curr t file args info m ↔
    m.numFreePages + validEntries m w kernelStackBase < needed (sizes m.cfg li args)) ∧
  (¬ Refused curr t file args info m → LoadFinds t (sizes m.cfg li args) m)

theorem fill_result {li : LoadInfo} {read : Option (List (BitVec 8))} {args : List (List (BitVec 8))} {z : Sizes}
    {info info' : ExceptionInfo} {r : Int} (h : fill t li read args z info m = .ok (r, info', m')) : r = -2 ∨ r = 0 := by
  obtain ⟨m₁, -, ⟨rfl, -⟩ | ⟨rfl, -⟩⟩ := fill_ok h
  · exact .inl rfl
  · exact .inr rfl

theorem refused_iff {curr : Nat} {file : File} {li : LoadInfo} {args : List (List (BitVec 8))} {info : ExceptionInfo}
    (hli : file.status = .success li) (hargs : argsSize args < 2 ^ 31) (hv : fitsVirtual (sizes m.cfg li args) = true) :
    Refused curr t file args info m ↔ m.numFreePages < (sizes m.cfg li args).total := by
  have hsmall : ¬ 2 ^ 31 ≤ argsSize args := Nat.not_le.2 hargs
  have hfits : fitsPhysical (sizes m.cfg li args) m = false ↔ m.numFreePages < (sizes m.cfg li args).total := by
    simp only [fitsPhysical, decide_eq_false_iff_not]
    omega
  have hsame (space : Space) : fitsPhysical (sizes m.cfg li args) (setSpace m curr space) = fitsPhysical (sizes m.cfg li args) m :=
    rfl
  rw [← hfits]
  constructor
  · rintro ⟨m', h⟩
    by_contra hp
    rw [Bool.not_eq_false] at hp
    unfold loadProgram at h
    simp only [hli, if_neg hsmall, hv, hsame, hp, Bool.not_true, Bool.false_eq_true, if_false] at h
    obtain ⟨m₁, -, h⟩ := bind_ok.1 h
    rcases fill_result h with hr | hr <;> cases hr
  · intro hp
    refine ⟨setSpace m curr { m.space curr with brk := newBrk (sizes m.cfg li args) }, ?_⟩
    unfold loadProgram
    simp only [hli, if_neg hsmall, hv, hsame, hp, Bool.not_true, Bool.not_false, Bool.false_eq_true, if_false, if_true]

/-- The check leaves out the frames that the call is about to free, and its sum is of `int`s: it is
exact but for the programs that need some of these frames, and for those of 2^31 pages or more that it lets through. -/
theorem check_exact_iff (curr : Nat) {file : File} {li : LoadInfo} (args : List (List (BitVec 8))) (info : ExceptionInfo)
    (hw : Leads m t w) (ho : Owns m w pageTableLen) (hx : Exact m) (hli : file.status = .success li)
    (hargs : argsSize args < 2 ^ 31) (hv : fitsVirtual (sizes m.cfg li args) = true) :
    CheckExact curr t w file li args info m ↔
      ¬ (m.numFreePages < (sizes m.cfg li args).total ∧
        needed (sizes m.cfg li args) ≤ m.numFreePages + validEntries m w kernelStackBase) ∧
      ((sizes m.cfg li args).total ≤ m.numFreePages →
        needed (sizes m.cfg li args) ≤ m.numFreePages + validEntries m w kernelStackBase ∧
          calls m.cfg (sizes m.cfg li args) ≤ m.numFreePages + validEntries m w kernelStackBase) := by
  have hfree : m.numFreePages = (freeList m).length := by
    have := exact_iff.1 hx
    rw [excess_list] at this
    omega
  rw [CheckExact, refused_iff hli hargs hv, loadFinds_iff hw ho]
  constructor
  · rintro ⟨hiff, hfinds⟩
    refine ⟨fun ⟨h₁, h₂⟩ => ?_, fun h => ⟨?_, ?_⟩⟩
    · have := hiff.1 h₁
      omega
    · by_contra hlt
      have := hiff.2 (by omega)
      omega
    · have := hfinds (by omega)
      omega
  · rintro ⟨hno, hcalls⟩
    refine ⟨⟨fun h => ?_, fun h => ?_⟩, fun h => ?_⟩
    · by_contra hle
      exact hno ⟨h, by omega⟩
    · by_contra hle
      have := (hcalls (by omega)).1
      omega
    · have := (hcalls (by omega)).2
      omega

def onePage : Memory where
  cfg := ⟨kernelStackBase, 0, 0⟩
  numPages := 514
  freePages := fun p => if p = 513 then .pageFree else .pageUsed
  numFreePages := 1
  region0Pt := fun j => ⟨5, 0, 3, 3, j = 20⟩
  region1Pt := fun _ => ⟨512, 0, 0, protRead ||| protWrite, true⟩
  frames := fun _ _ => ⟨0, 0, 0, 0, false⟩
  currKernelBrk := 0
  vmEnabled := true
  regPtr0 := .region0Pt
  space := fun _ => ⟨21, 507, .region0Pt, 0⟩

theorem onePage_owns : Owns onePage .static pageTableLen := by
  have hvalid (j : Nat) (h : (Word.read onePage j .static).valid = true) : j = 20 := of_decide_eq_true h
  refine ⟨fun j _ hv => ?_, fun j _ hv => ?_, fun j _ k _ hv hv' _ => ?_⟩
  · rw [hvalid j hv]
    decide
  · rw [hvalid j hv]
    rfl
  · rw [hvalid j hv, hvalid k hv']

theorem onePage_exact : Exact onePage := by
  unfold Exact
  decide +kernel

/-- A page of data and a page of stack, for which the free frame and the one that is given
back would do. -/
theorem check_refuses_onePage : Leads onePage .region0Pt .static ∧ Owns onePage .static pageTableLen ∧ Exact onePage ∧
    fitsVirtual (sizes onePage.cfg ⟨0, 4, 0, 0⟩ []) = true ∧
    ¬ CheckExact 0 .region0Pt .static Layout.onesFile ⟨0, 4, 0, 0⟩ [] Layout.zeroInfo onePage := by
  refine ⟨.static, onePage_owns, onePage_exact, by decide +kernel, fun h => ?_⟩
  have hrefused : Refused 0 .region0Pt Layout.onesFile [] Layout.zeroInfo onePage :=
    (refused_iff rfl (by decide) (by decide +kernel)).2 (by decide +kernel)
  have hlt := h.1.1 hrefused
  revert hlt
  decide +kernel

def emptyFile : File := ⟨.success ⟨0, 0, 0, 0⟩, some []⟩

theorem check_exact_iff_onePage : CheckExact 0 .region0Pt .static emptyFile ⟨0, 0, 0, 0⟩ [] Layout.zeroInfo onePage := by
  have hli : emptyFile.status = .success ⟨0, 0, 0, 0⟩ := rfl
  refine (check_exact_iff 0 [] Layout.zeroInfo .static onePage_owns onePage_exact hli (by decide) (by decide +kernel)).2 ?_
  decide +kernel

end Yalnix.PhysicalCheck
