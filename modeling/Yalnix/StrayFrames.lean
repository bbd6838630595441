import Yalnix.Protection
import Yalnix.Strays

namespace Yalnix.StrayFrames

open Loops Machine AddressSpace LoadProgram Processes Queues Kernel Accesses FreeList FreeCounter Calls Boot Runs Clock Layout Allocation
  NewTable ForkLoop StackGrowth ExitFrames Ownership Frames FrameLeak SwitchFrames BootFrames FrameOwnership ValidPages SpaceLayout LayoutRuns Births Protection
  Strays

variable {env : BootEnv} {s t : State} {info info' : ExceptionInfo} {m m' mem : Memory} {P P' : Slot → Prop} {v w : Word} {ptr : TablePtr}
  {uprot kprot : BitVec 3} {file : Option File} {args : List (List (BitVec 8))} {e : Event} {r : Int} {f i j k n p q curr start : Nat}

/-- The frames in use that no slot in play names. -/
def stray (P : Slot → Prop) (m : Memory) : Set Nat := strays P (names m) (InUse m)

theorem inUse_take (hf : f < m.numPages) (q : Nat) : InUse (take m f) q ↔ InUse m q ∨ q = f := by
  refine ⟨fun h => ?_, fun h => ?_⟩
  · by_cases hq : q = f
    · exact .inr hq
    · exact .inl ⟨h.1, (put_of_ne hq ..).symm.trans h.2⟩
  · rcases h with h | rfl
    · exact used_take h
    · exact ⟨hf, put_self ..⟩

theorem inUse_free (c : Int) (q : Nat) : InUse { setMark m f .pageFree with numFreePages := c } q ↔ InUse m q ∧ q ≠ f := by
  have hmark : ({ setMark m f .pageFree with numFreePages := c } : Memory).freePages q = if q = f then .pageFree else m.freePages q :=
    put_apply ..
  unfold InUse
  rw [hmark]
  by_cases hq : q = f
  · simp [hq]
  · simp only [ne_eq, hq, not_false_eq_true, and_true]
    exact Iff.rfl

theorem inUse_marks (hn : m'.numPages = m.numPages) (hf : m'.freePages = m.freePages) (q : Nat) : InUse m' q ↔ InUse m q := by
  unfold InUse
  rw [hn, hf]

theorem mapPage_stray (h : Owned P m) (hw : Leads m ptr w) (hin : P (.entry w j)) (hinv : (w.read m j).valid = false)
    (hl : freeList m ≠ []) (hmap : mapPage ptr uprot kprot j m = .ok m') : stray P m' = stray P m := by
  obtain ⟨j', w', hj, -, hw', ⟨f, l, hf, rfl⟩ | ⟨hno, -⟩⟩ := mapPage_cases hmap
  · obtain rfl := leads_unique hw hw'
    obtain rfl := Int.ofNat.inj hj
    refine strays_gain h.holds (not_used_head hf) (fun q => ?_) hin (names_none hinv) ?_
      fun y hy => names_congr ((pte_write hy ..).trans (pte_mark ..))
    · rw [used_write]
      exact inUse_take (head_free hf).1 q
    · rw [names_some, pte_write_self]
      exact ⟨rfl, pfn_frame h.small (head_free hf).1⟩
  · exact absurd hno hl

theorem mapLoop_stray {g : Nat → Int} (h : Owned P m) (hw : Leads m ptr w) (hin : ∀ j, j < pageTableLen → P (.entry w j))
    (hg : ∀ a b, g a = g b → a = b) (hinv : ∀ k, start ≤ k → k < start + n → ∀ j : Nat, g k = j → (w.read m j).valid = false)
    (hn : n ≤ (freeList m).length) (hloop : upTo (fun k => mapPage ptr uprot kprot (g k)) start n m = .ok m') :
    stray P m' = stray P m := by
  have hend := upTo_invariant (fun k u => Owned P u ∧ Leads u ptr w ∧ freeList u = (freeList m).drop (k - start) ∧
      (∀ a, k ≤ a → ∀ j : Nat, g a = j → w.read u j = w.read m j) ∧ stray P u = stray P m)
    (fun k u v hk hlt hu hv => ?_) ⟨h, hw, by rw [Nat.sub_self]; rfl, fun _ _ _ _ => rfl, rfl⟩ hloop
  · exact hend.2.2.2.2
  · obtain ⟨hu, hlead, hlist, hread, hstray⟩ := hu
    have hne : freeList u ≠ [] := by
      rw [hlist, ne_eq, List.drop_eq_nil_iff]
      omega
    obtain ⟨hv', hlist'⟩ := mapPage_owned hu hne hv
    obtain ⟨hpos, hmapped, -, -⟩ := mapPage_mapped hu.small hlead hv
    have hgk : ((g k).toNat : Int) = g k := Int.toNat_of_nonneg hpos
    have hslot := hmapped.lt _ (List.mem_singleton_self _)
    refine ⟨hv', Leads.of_fixed hlead hmapped.fixed hmapped.region1Pt, ?_, fun a ha j hj => ?_, ?_⟩
    · rw [hlist', hlist, List.drop_drop]
      congr 1
      omega
    · rw [hmapped.others j fun hmem => ?_, hread a (by omega) j hj]
      have hjk := List.mem_singleton.1 hmem
      have := hg a k (by rw [hj, hjk, hgk])
      omega
    · rw [← hgk] at hv
      refine (mapPage_stray hu hlead (hin _ hslot) ?_ hne hv).trans hstray
      rw [hread k (Nat.le_refl k) _ hgk.symm]
      exact hinv k hk hlt _ hgk.symm

theorem freeEntry_stray (h : Owned P m) (hw : Leads m ptr w) (hin : k < kernelStackBase → P (.entry w k))
    (hfree : freeEntry ptr k m = .ok m') : stray P m' = stray P m := by
  rcases freeEntry_cases hw hfree with ⟨⟨hk, hv⟩, -, rfl⟩ | ⟨-, rfl⟩
  · have hself : names m (.entry w k) = some (w.read m k).pfn.toNat := names_some.2 ⟨hv, rfl⟩
    have hnone (u : Memory) : names (w.write u k { w.read m k with valid := false }) (.entry w k) = none :=
      names_none (by rw [pte_write_self])
    have hother {x : Slot} (hx : x ≠ .entry w k) : names (w.write { setMark m (w.read m k).pfn.toNat .pageFree with
        numFreePages := m.numFreePages + 1 } k { w.read m k with valid := false }) x = names m x :=
      names_congr ((pte_write hx ..).trans (pte_mark ..))
    refine strays_give (fun x hx => ?_) fun q => ?_
    · by_cases hxw : x = .entry w k
      · rw [hxw]
        exact .inl (hnone _)
      · exact .inr ⟨hx, hother hxw⟩
    · rw [used_write, inUse_free]
      refine and_congr_right fun _ => ⟨fun hq x hx hn => ⟨hx, ?_⟩, fun hstay hq => ?_⟩
      · by_cases hxw : x = .entry w k
        · rw [hxw, hself] at hn
          exact absurd (Option.some.inj hn).symm hq
        · rw [hother hxw, hn]
      · obtain ⟨-, hn⟩ := hstay _ (hin hk) (hq ▸ hself)
        rw [hnone] at hn
        cases hn
  · rfl

theorem invalid_stray (hv : (w.read m k).valid = false) : stray P (w.write m k { w.read m k with valid := false }) = stray P m := by
  refine strays_congr (fun x _ => ?_) fun q => by rw [used_write]
  by_cases hxw : x = .entry w k
  · rw [hxw, names_none (x := .entry w k) hv, names_none]
    rw [pte_write_self]
  · exact names_congr (pte_write hxw ..)

theorem clear_stray {u : Memory} (h : Owned P m) (hw : Leads m ptr w) (hin : ∀ j, j < pageTableLen → P (.entry w j))
    (hfree : upTo (freeEntry ptr) 0 pageTableLen m = .ok u) (hinv : upTo (invalidate ptr) 0 memInvalidPages u = .ok m') :
    Owned P m' ∧ stray P m' = stray P m := by
  have hfreed := upTo_invariant (fun k u => Owned P u ∧ Leads u ptr w ∧ Freed w k m u ∧ stray P u = stray P m)
    (fun k u v _ hk hu hv => ?_) ⟨h, hw, .start w m, rfl⟩ hfree
  · obtain ⟨hu, hlead, hread, hstray⟩ := hfreed
    have hend := upTo_invariant (fun k v => Owned P v ∧ Leads v ptr w ∧ (∀ j, k ≤ j → w.read v j = w.read u j) ∧ stray P v = stray P u)
      (fun k v v' _ hk hv hv' => ?_) ⟨hu, hlead, fun _ _ => rfl, rfl⟩ hinv
    · exact ⟨hend.1, hend.2.2.2.trans hstray⟩
    · obtain ⟨hv, hlead, hkeep, hsame⟩ := hv
      have hregion := SameRegion1.invalidate hv'
      have hlead' : Leads v' ptr w := leads_congr hlead (Fixed.invalidate hv').numPages fun _ _ => congrFun hregion _
      have hold : (w.read v k).valid = false := by
        rw [hkeep k (Nat.le_refl k), hread.read, if_pos]
        simp only [memInvalidPages, pageTableLen, kernelStackBase] at hk ⊢
        omega
      obtain rfl := invalidate_cases hlead hv'
      refine ⟨hv.write_none rfl, hlead', fun j hj => ?_, (invalid_stray hold).trans hsame⟩
      rw [word_read_write_of_ne (by omega), hkeep j (by omega)]
  · obtain ⟨hu, hlead, hread, hstray⟩ := hu
    have hslot (hk : k < kernelStackBase) : P (.entry w k) := hin k (Nat.lt_trans hk (by decide))
    have hregion := SameRegion1.freeEntry hv
    exact ⟨freeEntry_owned hu hlead hslot hv, leads_congr hlead (Fixed.freeEntry hv).numPages fun _ _ => congrFun hregion _,
      hread.step hw hv, (freeEntry_stray hu hlead hslot hv).trans hstray⟩

theorem layOut_stray {cfg : Config} {li : LoadInfo} (h : Owned P m) (hw : Leads m ptr w) (hin : ∀ j, j < pageTableLen → P (.entry w j))
    (henough : (sizes cfg li args).textLen + (sizes cfg li args).dataLen + (sizes cfg li args).stackNpg.toNat ≤ available m w)
    (hlimit : StackLimit cfg) (hcounts : CountsFit cfg li args) (hvirt : fitsVirtual (sizes cfg li args) = true)
    (hlay : layOut cfg ptr (sizes cfg li args) m = .ok m') : stray P m' = stray P m := by
  have hz := sizes_counted hcounts
  have hfits := pages_fit hlimit hcounts hvirt
  have hle := hlimit.le
  obtain ⟨m₁, h₁, hlay⟩ := bind_ok.1 hlay
  obtain ⟨m₂, h₂, hlay⟩ := bind_ok.1 hlay
  obtain ⟨m₃, h₃, hlay⟩ := bind_ok.1 hlay
  obtain ⟨m₄, h₄, hlay⟩ := bind_ok.1 hlay
  have hclear := cleared hw h₁ h₂
  have hlen := Nat.le_trans henough (available_le h hin hclear)
  obtain ⟨hm₂, hstray₂⟩ := clear_stray h hw hin h₁ h₂
  rw [hz.textLen, hz.dataLen, hz.stackNpg] at hlen
  rw [hz.textLen] at h₃
  rw [hz.textEnd, hz.dataLen] at h₄
  rw [hz.stackNpg] at hlay
  -- the loops map different pages, and none of them is valid before its loop
  have hlead₂ := Leads.of_fixed hw hclear.fixed hclear.region1Pt
  obtain ⟨-, js, hjs, -, htext, -⟩ := mapLoop (g := fun a => a) (fun a b he => Int.ofNat.inj he) hm₂.small hlead₂ h₃
  obtain ⟨hm₃, hlist₃⟩ := mapPages_owned hm₂ (by omega) h₃
  have hlead₃ := Leads.of_fixed hlead₂ htext.fixed htext.region1Pt
  obtain ⟨-, ks, hks, -, hdata, -⟩ := mapLoop (g := fun a => ((memInvalidPages + textPages li : Nat) : Int) + a) (fun a b he => by omega)
    hm₃.small hlead₃ h₄
  obtain ⟨hm₄, hlist₄⟩ := mapPages_owned hm₃ (by rw [hlist₃, List.length_drop]; omega) h₄
  have hinv₂ {j : Nat} (hj : j < kernelStackBase) : (w.read m₂ j).valid = false := by
    rw [hclear.read j (Nat.lt_trans hj (by decide)), if_pos hj]
  have hinv₃ {j : Nat} (hj : j < kernelStackBase) (hlow : memInvalidPages + textPages li ≤ j) : (w.read m₃ j).valid = false := by
    rw [htext.others j fun hmem => ?_]
    · exact hinv₂ hj
    · obtain ⟨a, -, ha, he⟩ := (hjs j).1 hmem
      omega
  have hinv₄ {j : Nat} (hj : j < kernelStackBase) (hlow : memInvalidPages + textPages li + dataPages li ≤ j) :
      (w.read m₄ j).valid = false := by
    rw [hdata.others j fun hmem => ?_]
    · exact hinv₃ hj (by omega)
    · obtain ⟨a, -, ha, he⟩ := (hks j).1 hmem
      omega
  have hstray₃ := mapLoop_stray (g := fun a => a) hm₂ hlead₂ hin (fun a b he => Int.ofNat.inj he)
    (fun k _ hk j he => hinv₂ (by omega)) (by omega) h₃
  have hstray₄ := mapLoop_stray hm₃ hlead₃ hin (fun a b he => by omega)
    (fun k _ hk j he => hinv₃ (by omega) (by omega)) (by rw [hlist₃, List.length_drop]; omega) h₄
  have hstray₅ := mapLoop_stray hm₄ (Leads.of_fixed hlead₃ hdata.fixed hdata.region1Pt) hin (fun a b he => by omega)
    (fun k _ hk j he => hinv₄ (by omega) (by omega)) (by rw [hlist₄, hlist₃, List.length_drop, List.length_drop]; omega) hlay
  exact hstray₅.trans (hstray₄.trans (hstray₃.trans hstray₂))

theorem same_stray (hmarks : SameMarks m m') (hregion : m'.region1Pt = m.region1Pt)
    (hread : ∀ v j, P (.entry v j) → (v.read m' j).valid = (v.read m j).valid ∧ (v.read m' j).pfn = (v.read m j).pfn) :
    stray P m' = stray P m := by
  refine strays_congr (fun x hx => ?_) (inUse_marks hmarks.numPages hmarks.freePages)
  cases x with
  | kernel i => exact names_congr (congrFun hregion i)
  | entry v j =>
      obtain ⟨hvalid, hpfn⟩ := hread v j hx
      change (if (v.read m' j).valid then some (v.read m' j).pfn.toNat else none) = _
      rw [hvalid, hpfn]
      rfl

theorem space_stray (m : Memory) (q : Nat) (sp : Space) : stray P (setSpace m q sp) = stray P m :=
  same_stray ⟨rfl, rfl, rfl⟩ rfl fun v j _ => by rw [word_read_space]; exact ⟨rfl, rfl⟩

theorem fill_stray {li : LoadInfo} {read : Option (List (BitVec 8))} {z : Sizes} (h : Owned P m)
    (hrun : ∀ j, j < pageTableLen → P (.entry (wordOf m.regPtr0) j)) (hfill : fill ptr li read args z info m = .ok (r, info', m')) :
    stray P m' = stray P m := by
  have hrel := fill_relation (R := fun u u' => Owned P u ∧ (∀ j, j < pageTableLen → P (.entry (wordOf u.regPtr0) j)) →
      (Owned P u' ∧ ∀ j, j < pageTableLen → P (.entry (wordOf u'.regPtr0) j)) ∧ stray P u' = stray P u)
    (fun u hu => ⟨hu, rfl⟩) (fun u₁ u₂ u₃ h₁ h₂ hu => ?_) (fun vaddr x u u' hs hu => ?_) (fun k u u' hp hu => ?_) hfill
  · exact (hrel ⟨h, hrun⟩).2
  · obtain ⟨hu₂, h₁₂⟩ := h₁ hu
    obtain ⟨hu₃, h₂₃⟩ := h₂ hu₂
    exact ⟨hu₃, h₂₃.trans h₁₂⟩
  · refine ⟨⟨storeByte_owned hu.1 hu.2 hs, (Fixed.storeByte hs).regPtr0 ▸ hu.2⟩, ?_⟩
    refine same_stray (.storeByte hs) (SameRegion1.storeByte hs) fun v j hv => ?_
    rw [storeByte_read hu.1 hu.2 hs hv]
    exact ⟨rfl, rfl⟩
  · refine ⟨⟨protectText_owned hu.1 hp, (Fixed.protectText hp).regPtr0 ▸ hu.2⟩, ?_⟩
    obtain ⟨e, -, hwrite⟩ := bind_ok.1 hp
    refine same_stray (.writePte hwrite) (SameRegion1.protectText hp) fun v j _ => ?_
    obtain ⟨kprot, he⟩ := protectText_read hp v j
    rw [he]
    exact ⟨rfl, rfl⟩

/-- LoadProgram gives back what it takes from the old program, and names what it takes for the new one. -/
theorem loadProgram_stray (h : Owned P m) (hw : Leads m ptr w) (hin : ∀ j, j < pageTableLen → P (.entry w j))
    (hrun : ∀ j, j < pageTableLen → P (.entry (wordOf m.regPtr0) j)) (henough : LoadOwned m w file args)
    (hlimit : StackLimit m.cfg) (hcounts : Countable m file args)
    (hload : loadProgram curr ptr file args info m = .ok (r, info', m')) : stray P m' = stray P m := by
  rcases loadProgram_ok hload with ⟨-, -, rfl⟩ | ⟨f, li, hf, hst, hvirt, ⟨-, -, -, rfl⟩ | ⟨hp, m₁, h₁, h₂⟩⟩
  · rfl
  · exact space_stray ..
  have hpasses : Passes file args m li := ⟨⟨f, hf, hst⟩, hvirt, hp⟩
  have hlead : Leads (setSpace m curr { m.space curr with brk := newBrk (sizes m.cfg li args) }) ptr w :=
    leads_congr hw rfl fun _ _ => rfl
  have havail : available (setSpace m curr { m.space curr with brk := newBrk (sizes m.cfg li args) }) w = available m w := by
    cases w <;> rfl
  have howned := layOut_owned (h.setSpace ..) hlead hin (havail ▸ henough li hpasses) h₁
  have hlaid := layOut_stray (h.setSpace ..) hlead hin (havail ▸ henough li hpasses) hlimit (hcounts li hpasses) hvirt h₁
  refine (fill_stray (howned.setSpace ..) ?_ h₂).trans ((space_stray ..).trans (hlaid.trans (space_stray ..)))
  change ∀ j, j < pageTableLen → P (.entry (wordOf m₁.regPtr0) j)
  rw [(Fixed.layOut h₁).regPtr0]
  exact hrun

def HeapFresh (m : Memory) (addr : Nat) : Prop :=
  m.vmEnabled = true → pagesNeeded m addr ≤ m.numFreePages →
    ∀ k < (pagesNeeded m addr).toNat, ∀ i : Nat, currBrkPg m + k = i → (m.region1Pt i).valid = false

theorem mapKernelPage_fresh (h : Owned P m) (hkernel : P (.kernel i)) (hinv : (m.region1Pt i).valid = false) (hl : freeList m ≠ [])
    (hmap : mapKernelPage i m = .ok m') : Owned P m' ∧ freeList m' = (freeList m).drop 1 ∧
      (∀ k, k ≠ i → m'.region1Pt k = m.region1Pt k) ∧ stray P m' = stray P m := by
  obtain ⟨i', hi, -, ⟨f, l, hf, rfl⟩ | ⟨hno, -⟩⟩ := mapKernelPage_cases hmap
  · obtain rfl := Int.ofNat.inj hi
    have hother {x : Slot} (hx : x ≠ .kernel i) (e : Pte) : names (writeRegion1 (take m f) i e) x = names m x :=
      names_congr ((pte_region1 hx ..).trans (pte_mark ..))
    have hself : names (writeRegion1 (take m f) i { m.region1Pt i with
        pfn := BitVec.ofInt 20 f, uprot := protNone, valid := true, kprot := protRead ||| protWrite }) (.kernel i) = some f := by
      refine names_some.2 ⟨congrArg Pte.valid (region1_write_self ..), ?_⟩
      exact (congrArg (fun e : Pte => e.pfn.toNat) (region1_write_self ..)).trans (pfn_frame h.small (head_free hf).1)
    have hnone : names m (.kernel i) = none := names_none hinv
    refine ⟨⟨h.small, ?_, fun g j hg => ?_⟩, ?_, fun k hk => region1_write_of_ne hk .., ?_⟩
    · exact h.holds.acquire (fun y hy _ hn => not_used_head hf (h.holds.taken y f hy hn)) hself
        (fun y hy hne => ⟨hy, hother hne _⟩) (fun q hq => used_take hq) ⟨(head_free hf).1, put_self ..⟩
    · obtain ⟨k, hk, hn⟩ := h.backed g j hg
      refine ⟨k, hk, (hother (fun he => ?_) _).trans hn⟩
      rw [he, hnone] at hn
      cases hn
    · change freeList (take m f) = _
      rw [freeList_take hf, hf]
      rfl
    · exact strays_gain h.holds (not_used_head hf) (inUse_take (head_free hf).1) hkernel hnone hself fun y hy => hother hy _
  · exact absurd hno hl

theorem setKernelBrk_stray {addr : Nat} (h : Owned P m) (hkernel : ∀ i < pageTableLen, P (.kernel i)) (howned : HeapOwned P m addr)
    (hfresh : HeapFresh m addr) (hbrk : setKernelBrk addr m = .ok (r, m')) : stray P m' = stray P m := by
  have hbreak (u : Memory) : stray P { u with currKernelBrk := addr } = stray P u :=
    same_stray ⟨rfl, rfl, rfl⟩ rfl fun v j _ => by cases v <;> exact ⟨rfl, rfl⟩
  rcases setKernelBrk_ok hbrk with ⟨-, -, -, rfl⟩ | ⟨-, -, rfl⟩ | ⟨hvm, hfree, -, u, hu, rfl⟩
  · rfl
  · exact hbreak m
  · obtain ⟨hlen, -⟩ := howned hvm (Int.not_lt.1 hfree)
    have hinv := hfresh hvm (Int.not_lt.1 hfree)
    have hend := upTo_invariant (fun k v => Owned P v ∧ freeList v = (freeList m).drop k ∧
        (∀ a, k ≤ a → ∀ i : Nat, currBrkPg m + a = i → v.region1Pt i = m.region1Pt i) ∧ stray P v = stray P m)
      (fun k v v' _ hk hv hv' => ?_) ⟨h, rfl, fun _ _ _ _ => rfl, rfl⟩ hu
    · exact (hbreak u).trans hend.2.2.2
    · obtain ⟨hv, hlist, hkeep, hstray⟩ := hv
      obtain ⟨i, hi, hlt, -⟩ := mapKernelPage_cases hv'
      rw [hi] at hv'
      have hne : freeList v ≠ [] := by
        rw [hlist, ne_eq, List.drop_eq_nil_iff]
        omega
      have hold : (v.region1Pt i).valid = false := by
        rw [hkeep k (Nat.le_refl k) i hi]
        exact hinv k (by omega) i hi
      obtain ⟨hv₂, hlist₂, hkeep₂, hstray₂⟩ := mapKernelPage_fresh hv (hkernel i hlt) hold hne hv'
      refine ⟨hv₂, ?_, fun a ha i' hi' => ?_, hstray₂.trans hstray⟩
      · rw [hlist₂, hlist, List.drop_drop]
      · rw [hkeep₂ i' (by omega), hkeep a (by omega) i' hi']

theorem exit_inPlay {status : Int} (hs : Sound s) (hm : s.mode = .user) (h : exitFunc status info s = .ok t) (x : Slot) :
    InPlay t x ↔ InPlay s x ∧ ∀ j, x ≠ .entry (wordOf (s.mem.space s.curr).region0) j := by
  obtain ⟨-, -, hstays⟩ := exit_owned hs hm h
  have hlive := hs.live_curr hm
  have hdead (p : Nat) (hp : p ≠ s.curr) : t.exited p = s.exited p := by
    obtain ⟨woken, fam, sched, next, sched', mem, -, -, -, -, rfl⟩ := exitFunc_ok h
    exact Function.update_of_ne hp ..
  refine ⟨fun hx => ⟨hstays.inPlay hx, fun j hj => ?_⟩, fun ⟨hx, hne⟩ => ?_⟩
  · subst hj
    obtain ⟨-, p, hp, hw⟩ := hx
    refine hs.not_shared (hstays.live hp).1 hlive.1 (exit_live h hp) ?_
    rw [← hw]
    exact congrArg wordOf (hstays.space p).1.symm
  · cases x with
    | kernel i => exact hx
    | entry v j =>
        obtain ⟨hj, p, hp, hw⟩ := hx
        have hpc : p ≠ s.curr := by
          rintro rfl
          exact hne j (hw ▸ rfl)
        exact ⟨hj, p, ⟨hstays.count ▸ hp.1, (hdead p hpc).trans hp.2⟩, (congrArg wordOf (hstays.space p).1).trans hw⟩

theorem exit_stray {status : Int} (hs : Sound s) (hm : s.mode = .user) (h : exitFunc status info s = .ok t) :
    stray (InPlay t) t.mem = stray (InPlay s) s.mem := by
  have hlive := hs.live_curr hm
  have hplay := exit_inPlay hs hm h
  obtain ⟨woken, fam, sched, next, sched', mem, -, -, -, hmem, ht⟩ := exitFunc_ok h
  have htmem : t.mem = mem := by rw [ht]; rfl
  rw [htmem]
  have hentry {j : Nat} (hj : j < pageTableLen) (hv : ((wordOf (s.mem.space s.curr).region0).read s.mem j).valid = true) :
      InPlay s (.entry (wordOf (s.mem.space s.curr).region0) j) ∧ names s.mem (.entry (wordOf (s.mem.space s.curr).region0) j) =
        some ((wordOf (s.mem.space s.curr).region0).read s.mem j).pfn.toNat :=
    ⟨inPlay_table hlive j hj, names_some.2 ⟨hv, rfl⟩⟩
  obtain ⟨mem', hmem', hret, -⟩ := switchExit_frees next (hs.leads hlive) fun j hj hv =>
    (hs.owned.holds.taken _ _ (hentry hj hv).1 (hentry hj hv).2).1
  obtain rfl := Except.ok.inj (hmem'.symm.trans hmem)
  have hnames (x : Slot) : names mem' x = names s.mem x := by
    refine names_congr ?_
    cases x with
    | kernel i => exact congrFun (SameRegion1.switchExit hmem) i
    | entry v j => exact switchExit_read hmem v j
  have huse (f : Nat) : InUse mem' f ↔ InUse s.mem f ∧ f ∉ frames s.mem (wordOf (s.mem.space s.curr).region0) pageTableLen := by
    unfold InUse
    rw [hret.numPages, hret.marks]
    split <;> simp [*]
  refine strays_give (fun x hx => .inr ⟨((hplay x).1 hx).1, hnames x⟩) fun f => ?_
  rw [huse]
  refine and_congr_right fun _ => ⟨fun hf x hx hn => ⟨(hplay x).2 ⟨hx, ?_⟩, (hnames x).trans hn⟩, fun hstay hf => ?_⟩
  · rintro j rfl
    obtain ⟨hv, hp⟩ := names_some.1 hn
    exact hf (mem_frames.2 ⟨j, hx.1, hv, hp⟩)
  · obtain ⟨j, hj, hv, hp⟩ := mem_frames.1 hf
    obtain ⟨hx, hn⟩ := hentry hj hv
    exact ((hplay _).1 (hstay _ hx (hp ▸ hn)).1).2 j rfl

theorem inUse_list : InUse m f ↔ f < m.numPages ∧ f ∉ freeList m := by
  refine and_congr_right fun hf => ?_
  rw [BorrowedPage.mark_cases, mem_freeList]
  exact ⟨fun hne h => hne h.2, fun hno he => hno ⟨hf, he⟩⟩

def stackFrames (s : State) (i : Nat) : List Nat := (freeList (withTable s.fam.count i s.mem)).take kernelStackPages

/-- The frames with the numbers of the page of the new table and of the page borrowed are free, and the second is
none of those that the kernel stack gets. -/
def ForkTidy (s : State) : Prop :=
  ∀ i, freeVirtualPage s.mem = some i → ¬ InUse s.mem (pageTableLen + i) ∧
    ∀ b, borrowPage (withTable s.fam.count i s.mem) = some b →
      ¬ InUse s.mem (pageTableLen + b) ∧ pageTableLen + b ∉ stackFrames s i

theorem withTable_free : f ∈ freeList (withTable q i m) ↔ f ≠ pageTableLen + i ∧ f ∈ freeList m := by
  have hlist : freeList (withTable q i m) = (freeList m).erase (pageTableLen + i) := freeList_use m _
  rw [hlist]
  exact (freeList_nodup m).mem_erase_iff

theorem start_used {u : Memory} (hi : ForkStart s i u) (f : Nat) :
    InUse u f ↔ InUse s.mem f ∨ f = pageTableLen + i ∨ f ∈ stackFrames s i := by
  have hapart := List.disjoint_take_drop (freeList_nodup (withTable s.fam.count i s.mem)) (Nat.le_refl kernelStackPages)
  have hsplit : f ∈ freeList (withTable s.fam.count i s.mem) ↔ f ∈ stackFrames s i ∨ f ∈ freeList u := by
    rw [hi.list, stackFrames, ← List.mem_append, List.take_append_drop]
  have htable := hi.owned.holds.taken _ _ (show InPlay s (.kernel i) from hi.lt) hi.page
  rw [inUse_list, inUse_list, hi.numPages]
  constructor
  · rintro ⟨hlt, hno⟩
    by_cases hstack : f ∈ stackFrames s i
    · exact .inr (.inr hstack)
    · by_cases hpage : f = pageTableLen + i
      · exact .inr (.inl hpage)
      · exact .inl ⟨hlt, fun hf => (hsplit.1 (withTable_free.2 ⟨hpage, hf⟩)).elim hstack hno⟩
  · rintro (⟨hlt, hno⟩ | rfl | hstack)
    · exact ⟨hlt, fun hf => hno (withTable_free.1 (hsplit.2 (.inr hf))).2⟩
    · rw [inUse_list, hi.numPages] at htable
      exact htable
    · refine ⟨(mem_freeList.1 (withTable_free.1 (hsplit.2 (.inl hstack))).2).1, fun hf => ?_⟩
      rw [hi.list] at hf
      exact hapart hstack hf

theorem copied_used {u : Memory} {wc : Word} {b : Nat} (hc : Copied m w wc b n u) (f : Nat) : InUse u f ↔ InUse m f ∨ f ∈ taken m w n := by
  have hmem : f ∈ taken m w n → f < m.numPages := fun hf => (hc.takes.mem hf).1
  unfold InUse
  rw [hc.takes.numPages, hc.takes.marks]
  split <;> simp_all

theorem copied_named {u u' : Memory} {b : Nat} (hi : ForkStart s i u) (hc : Copied u w (.frame (pageTableLen + i)) b pageTableLen u')
    (hread : ∀ j, Word.read m' j (.frame (pageTableLen + i)) = Word.read u' j (.frame (pageTableLen + i)))
    (hslots : ∀ x, InPlay s x → x.pte m' = x.pte u) (f : Nat) :
    f ∈ named (withEntries (InPlay s) (.frame (pageTableLen + i))) (names m') ↔
      f ∈ named (InPlay s) (names s.mem) ∨ f = pageTableLen + i ∨ f ∈ taken u w pageTableLen := by
  have hpage : InPlay s (.kernel i) := hi.lt
  have hname : names m' (.kernel i) = some (pageTableLen + i) := (names_congr (hslots _ hpage)).trans hi.page
  have hold {x : Slot} (hx : InPlay s x) (hne : x ≠ .kernel i) : names m' x = names s.mem x :=
    names_congr ((hslots x hx).trans (hi.slots x hx hne))
  have hentry (j : Nat) : (Slot.entry (.frame (pageTableLen + i)) j).pte m' = Word.read u' j (.frame (pageTableLen + i)) := hread j
  constructor
  · rintro ⟨x, hx | ⟨j, hj, rfl⟩, hn⟩
    · by_cases hxi : x = .kernel i
      · rw [hxi, hname] at hn
        exact .inr (.inl (Option.some.inj hn).symm)
      · exact .inl ⟨x, hx, hold hx hxi ▸ hn⟩
    · obtain ⟨hv, hp⟩ := names_some.1 hn
      rw [hentry] at hv hp
      rw [hc.valid_iff hj] at hv
      rw [hc.pfn hi.owned.small hj hv] at hp
      exact .inr (.inr (hp ▸ hc.newFrame_mem hj hv))
  · rintro (⟨x, hx, hn⟩ | rfl | hf)
    · have hne : x ≠ .kernel i := by
        rintro rfl
        rw [names_none (x := .kernel i) hi.fresh] at hn
        cases hn
      exact ⟨x, .inl hx, (hold hx hne).trans hn⟩
    · exact ⟨_, .inl hpage, hname⟩
    · obtain ⟨j, hj, hv, rfl⟩ := (mem_taken_iff hc.enough).1 hf
      refine ⟨.entry (.frame (pageTableLen + i)) j, .inr ⟨j, hj, rfl⟩, names_some.2 ?_⟩
      rw [hentry, hc.valid_iff hj, hc.pfn hi.owned.small hj hv]
      exact ⟨hv, rfl⟩

theorem fork_inPlay {u : Memory} (hs : Sound s) (hi : ForkStart s i u) (hspace : t.mem.space = u.space)
    (hcount : t.fam.count = s.fam.count + 1) (hexited : t.exited = s.exited) :
    InPlay t = withEntries (InPlay s) (.frame (pageTableLen + i)) := by
  have hold {p : Nat} (hp : p ≠ s.fam.count) : wordOf (t.mem.space p).region0 = wordOf (s.mem.space p).region0 := by
    rw [hspace, hi.space p hp]
  have hchild : wordOf (t.mem.space s.fam.count).region0 = .frame (pageTableLen + i) := by
    rw [hspace, hi.table.1]
    rfl
  funext x
  refine propext ?_
  cases x with
  | kernel k => exact ⟨.inl, fun hx => hx.resolve_right fun ⟨j, _, he⟩ => kernel_ne _ _ _ he⟩
  | entry v j =>
      constructor
      · rintro ⟨hj, p, ⟨hp, hdead⟩, hw⟩
        by_cases hpc : p = s.fam.count
        · refine .inr ⟨j, hj, ?_⟩
          rw [← hchild, ← hpc, ← hw]
        · exact .inl ⟨hj, p, ⟨by omega, hexited ▸ hdead⟩, (hold hpc).symm.trans hw⟩
      · rintro (⟨hj, p, ⟨hp, hdead⟩, hw⟩ | ⟨j', hj, he⟩)
        · exact ⟨hj, p, ⟨by omega, hexited ▸ hdead⟩, (hold (Nat.ne_of_lt hp)).trans hw⟩
        · obtain ⟨rfl, rfl⟩ := Slot.entry.inj he
          exact ⟨hj, s.fam.count, ⟨by omega, hexited ▸ hs.current.unborn _ (Nat.le_refl _)⟩, hchild⟩

/-- Fork loses the four frames of the kernel stack of the new table, and no others. -/
theorem switchFork_stray {u : Memory} (hs : Sound s) (hlive : live s s.curr) (htidy : ForkTidy s) (hi : ForkStart s i u)
    (hj : j < pageTableLen) (hv : ((wordOf (s.mem.space s.curr).region0).read s.mem j).valid = true)
    (hfork : AddressSpace.switchFork s.curr s.fam.count u = .ok m') :
    (stackFrames s i).length = kernelStackPages ∧ (∀ f ∈ stackFrames s i, ¬ InUse s.mem f) ∧ m'.space = u.space ∧
      stray (withEntries (InPlay s) (.frame (pageTableLen + i))) m' = stray (InPlay s) s.mem ∪ {f | f ∈ stackFrames s i} := by
  let w := wordOf (s.mem.space s.curr).region0
  have hentry := inPlay_table hlive
  have hpage : InPlay s (.kernel i) := hi.lt
  have hkept : Kept u (.frame (pageTableLen + i)) := by
    rintro g hg
    obtain rfl := Word.frame.inj hg
    exact (hi.owned.holds.taken _ _ hpage hi.page).2
  obtain ⟨b, u', hb, -, hc, hm'⟩ := switchFork_copied hi.owned.small hi.parent hi.child (Owned.kept hi.owned (hentry 0 (by decide)))
    hkept hfork
  obtain ⟨⟨-, hslots, -⟩, -⟩ := switchFork_owned hi.owned hi.parent hi.child (hentry 0 (by decide)) hpage hi.page hi.no_table
    hi.borrow hfork
  -- neither the frames that are taken nor the one with the number of the borrowed page were in use
  have htaken {f : Nat} (hf : f ∈ taken u w pageTableLen) : ¬ InUse s.mem f ∧ f ≠ pageTableLen + i ∧ f ∉ stackFrames s i := by
    have hno : ¬ InUse u f := fun hu => by
      rw [inUse_list] at hu
      exact hu.2 (List.mem_of_mem_take hf)
    rw [start_used hi, not_or, not_or] at hno
    exact hno
  have hstack {f : Nat} (hf : f ∈ stackFrames s i) : f ≠ pageTableLen + i ∧ ¬ InUse s.mem f := by
    obtain ⟨hne, hfree⟩ := withTable_free.1 (List.mem_of_mem_take hf)
    exact ⟨hne, fun hu => (inUse_list.1 hu).2 hfree⟩
  have hborrowed : ¬ InUse u' (pageTableLen + b) := by
    have hb' := hb
    rw [Indices.borrowPage_congr (m := withTable s.fam.count i s.mem) fun k => by rw [hi.region1Pt]] at hb'
    obtain ⟨hfree, hno⟩ := (htidy i hi.scan).2 b hb'
    rw [copied_used hc, start_used hi, not_or, not_or, not_or]
    refine ⟨⟨hfree, fun he => ?_, hno⟩, (hi.borrow b hb).2⟩
    have hinv := (borrowPage_some hb').2
    obtain rfl : b = i := by omega
    rw [withTable_entry] at hinv
    cases hinv
  have huse (f : Nat) : InUse m' f ↔ InUse s.mem f ∨ f ∈ {f | f = pageTableLen + i ∨ f ∈ stackFrames s i ∨ f ∈ taken u w pageTableLen} := by
    have hmark : InUse m' f ↔ InUse u' f ∧ f ≠ pageTableLen + b := by
      rw [hm']
      exact inUse_free (m := writeRegion1 u' b (u.region1Pt b)) u'.numFreePages f
    have hne : InUse u' f → f ≠ pageTableLen + b := fun hu he => hborrowed (he ▸ hu)
    rw [hmark, and_iff_left_of_imp hne, copied_used hc, start_used hi, or_assoc, or_assoc]
    exact Iff.rfl
  have hnamed := copied_named hi hc (fun j => by rw [hm']; rfl) hslots
  refine ⟨?_, fun f hf => (hstack hf).2, ?_, ?_⟩
  · have hread : w.read u j = w.read s.mem j := hi.slots _ (hentry j hj) (kernel_ne i w j).symm
    have hsome := ForkCopies.validEntries_lt hj ((congrArg Pte.valid hread).trans hv)
    have henough : validEntries u w pageTableLen ≤ (freeList u).length := hc.enough
    rw [hi.list, List.length_drop] at henough
    rw [stackFrames, List.length_take]
    omega
  · rw [hm']
    exact hc.fixed.space
  · refine (strays_take hs.owned.holds (fun f hf => ?_) huse hnamed fun f hf => ?_).trans (congrArg _ ?_)
    · rcases hf with rfl | hf | hf
      · exact (htidy i hi.scan).1
      · exact (hstack hf).2
      · exact (htaken hf).1
    · exact hf.imp_right .inr
    · ext f
      constructor
      · rintro ⟨rfl | hf | hf, hno⟩
        · exact absurd (.inl rfl) hno
        · exact hf
        · exact absurd (.inr hf) hno
      · intro hf
        refine ⟨.inr (.inl hf), ?_⟩
        rintro (rfl | hf')
        · exact (hstack hf).1 rfl
        · exact (htaken hf').2.2 hf

theorem fork_stray (hs : Sound s) (hm : s.mode = .user) (hsafe : ForkOwned s) (htidy : ForkTidy s)
    (hj : j < pageTableLen) (hv : ((wordOf (s.mem.space s.curr).region0).read s.mem j).valid = true)
    (h : forkFunc info s = .ok t) : ∃ i, (stackFrames s i).length = kernelStackPages ∧ (∀ f ∈ stackFrames s i, ¬ InUse s.mem f) ∧
      stray (InPlay t) t.mem = stray (InPlay s) s.mem ∪ {f | f ∈ stackFrames s i} := by
  obtain ⟨m, m', fam, sched, hbuild, hfork, hlink, -, rfl⟩ := forkFunc_ok h
  obtain ⟨i, hi⟩ := fork_start hs hm hsafe hbuild
  obtain ⟨hlen, hfree, hspace, hstray⟩ := switchFork_stray hs (hs.live_curr hm) htidy hi hj hv hfork
  refine ⟨i, hlen, hfree, Eq.trans (congrArg (stray · m') ?_) hstray⟩
  exact fork_inPlay hs hi hspace (linkChild_count hlink) rfl

/-- The step leaves the frames apart and the layouts in order, and does not hand out a frame in use by the number of a page. -/
def Tidy (s : State) (e : Event) : Prop :=
  Orderly s e ∧
    match e with
    | .call .fork _ => ForkTidy s
    | .kernelBrk addr => HeapFresh s.mem addr
    | _ => True

def strayFrames (s : State) : Set Nat := stray (InPlay s) s.mem

/-- Of the frames that were not in use `n` go astray, and those that had stay so. -/
def Loses (n : Nat) (s t : State) : Prop :=
  ∃ l : List Nat, l.Nodup ∧ l.length = n ∧ (∀ f ∈ l, ¬ InUse s.mem f) ∧ strayFrames t = strayFrames s ∪ {f | f ∈ l}

theorem Loses.none (h : strayFrames t = strayFrames s) : Loses 0 s t := by
  refine ⟨[], List.nodup_nil, rfl, nofun, ?_⟩
  rw [h]
  simp

theorem play_same (hcount : t.fam.count = s.fam.count) (hexited : t.exited = s.exited)
    (hspace : ∀ p, SameTable (t.mem.space p) (s.mem.space p)) : InPlay t = InPlay s := by
  funext x
  cases x with
  | kernel i => rfl
  | entry w j =>
      refine propext (and_congr_right fun _ => exists_congr fun p => ?_)
      unfold live
      rw [hcount, hexited, (hspace p).1]

theorem Loses.same (hcount : t.fam.count = s.fam.count) (hexited : t.exited = s.exited)
    (hspace : ∀ p, SameTable (t.mem.space p) (s.mem.space p)) (hstray : stray (InPlay s) t.mem = stray (InPlay s) s.mem) :
    Loses 0 s t := by
  refine .none ?_
  unfold strayFrames
  rw [play_same hcount hexited hspace]
  exact hstray

theorem table_stray (m : Memory) (ptr : TablePtr) : stray P { m with regPtr0 := ptr } = stray P m :=
  same_stray ⟨rfl, rfl, rfl⟩ rfl fun v j _ => by cases v <;> exact ⟨rfl, rfl⟩

theorem load_loses (mode : Mode) (h : Protected s) (hp : live s p) (hm : s.mode ≠ .hung) (hcurr : live s s.curr)
    (howned : LoadOwned s.mem (wordOf (s.mem.space p).region0) file args) (hfits : LoadFits s p file args)
    (hload : loadProgram s.curr (s.mem.space p).region0 file args info s.mem = .ok (r, info', mem)) :
    Loses 0 s { s with mem, mode } := by
  have hs := h.settled.sound
  refine .same rfl rfl (Moves.sameTable (loadProgram_moves hload)) ?_
  exact loadProgram_stray hs.owned (hs.leads hp) (inPlay_table hp) (hs.running hm hcurr) howned h.settled.limit hfits.countable hload

theorem between_invalid (h : Protected s) (hlive : live s s.curr) (hk : (s.mem.space s.curr).brk ≤ k) (hlt : k < (s.mem.space s.curr).sp) :
    ((wordOf (s.mem.space s.curr).region0).read s.mem k).valid = false := by
  have hlimit := h.sp_le hlive
  have hiff := (h.settled.shaped s.curr hlive trivial).pages.valid k (Nat.lt_trans (Nat.lt_of_lt_of_le hlt hlimit) (by decide))
  refine Bool.eq_false_iff.2 fun hv => ?_
  have := hiff.1 hv
  omega

theorem brk_loses {addr : Nat} (h : Protected s) (hlive : live s s.curr) (howned : BrkOwned (InPlay s) s.mem s.curr addr)
    (hfits : BrkFits s addr) (hbrk : brkFunc s.curr addr s.mem = .ok (r, mem)) : Loses 0 s { s with mem } := by
  have hs := h.settled.sound
  refine .same rfl rfl (Moves.sameTable (brkFunc_moves hbrk)) ?_
  change stray (InPlay s) mem = _
  rcases hfits with heq | ⟨hlt, hinv⟩ | ⟨hstatic, hle, hsp⟩
  · obtain ⟨u, hu, rfl⟩ := brk_up (Nat.le_of_eq heq.symm) hbrk
    rw [heq, Int.sub_self] at hu
    obtain rfl := Except.ok.inj hu
    exact space_stray ..
  · rw [brk_refused hlt hinv hbrk]
  · obtain ⟨u, hu, rfl⟩ := brk_loop h hlive hle hsp hbrk
    have hword : wordOf (s.mem.space s.curr).region0 = .static := by rw [hstatic]; rfl
    have hlen := howned.1 hle
    rw [brkPages, if_neg (by omega), brk_pages h hlive hle hsp] at hlen
    refine (space_stray ..).trans (mapLoop_stray hs.owned .static (hword ▸ inPlay_table hlive) (fun a b he => Int.ofNat.inj he)
      (fun k hk hlt j he => ?_) hlen hu)
    obtain rfl : k = j := Int.ofNat.inj he
    exact hword ▸ between_invalid h hlive hk (by omega)

theorem grow_loses (h : Protected s) (hlive : live s s.curr) (hg : growsStack s info = true)
    (hsafe : (toInt (toInt (s.mem.space s.curr).sp - toUlong (downToPage info.addr))).toNat ≤ (freeList s.mem).length)
    (hgrow : growStack s.curr (toUlong (downToPage info.addr)) s.mem = .ok mem) : Loses 0 s { s with mem } := by
  have hs := h.settled.sound
  refine .same rfl rfl (Moves.sameTable (growStack_moves hgrow)) ?_
  change stray (InPlay s) mem = _
  obtain ⟨u, hu, rfl⟩ := growStack_loop h hlive hg hgrow
  have hbrk := (growsStack_iff.1 hg).2.2
  rw [grow_pages h hlive hg] at hsafe
  refine (space_stray ..).trans (mapLoop_stray hs.owned (hs.leads hlive) (inPlay_table hlive) (fun a b he => Int.ofNat.inj he)
    (fun k hk hlt j he => ?_) hsafe hu)
  obtain rfl : k = j := Int.ofNat.inj he
  exact between_invalid h hlive (Nat.le_trans hbrk hk) (by omega)

theorem exit_loses {status : Int} (hs : Sound s) (hm : s.mode = .user) (h : exitFunc status info s = .ok t) : Loses 0 s t :=
  .none (exit_stray hs hm h)

theorem fork_loses (h : Protected s) (hm : s.mode = .user) (hsafe : ForkOwned s) (htidy : ForkTidy s)
    (hfork : forkFunc info s = .ok t) : Loses kernelStackPages s t := by
  have hs := h.settled.sound
  have hstack := h.settled.stacked s.curr (hs.live_curr hm) kernelStackBase (Nat.le_refl _) (by decide)
  obtain ⟨i, hlen, hfree, hstray⟩ := fork_stray hs hm hsafe htidy (by decide) hstack hfork
  exact ⟨stackFrames s i, (freeList_nodup _).sublist (List.take_sublist ..), hlen, hfree, hstray⟩

theorem clock_loses {x : Ptr} {out : Option ExceptionInfo} (h : clockWalk info n x s = .ok (out, t)) : Loses 0 s t := by
  rcases clockWalk_ok h with ⟨-, -, ticks, sched, -, rfl⟩ | ⟨-, -, ticks, item, sched, sched', -, -, -, -, rfl⟩
  · exact .same rfl rfl (fun _ => ⟨rfl, rfl⟩) rfl
  · exact .same rfl rfl (fun _ => ⟨rfl, rfl⟩) (table_stray ..)

theorem call_loses {c : Call} {out : Option ExceptionInfo} (h : Protected s) (hm : s.mode = .user) (he : Tidy s (.call c info))
    (hcall : trapKernelHandler c info s = .ok (out, t)) : Loses (kernelStackPages * births (.call c info)) s t := by
  have hs := h.settled.sound
  have hlive := hs.live_curr hm
  obtain ⟨⟨hsafe, hfits⟩, htidy⟩ := he
  cases c with
  | fork =>
      obtain ⟨v, hv, hcall⟩ := bind_ok.1 hcall
      obtain ⟨-, rfl⟩ := Prod.mk.inj (Except.ok.inj hcall)
      exact fork_loses h hm hsafe.frames htidy hv
  | exec file args =>
      obtain ⟨⟨r, info', v⟩, hv, hcall⟩ := bind_ok.1 hcall
      obtain ⟨-, rfl⟩ := Prod.mk.inj (Except.ok.inj hcall)
      obtain ⟨r', mem, hload, -, rfl⟩ := execFunc_ok hv
      exact load_loses s.mode h hlive (by simp [hm]) hlive hsafe.frames hfits hload
  | exit status =>
      obtain ⟨v, hv, hcall⟩ := bind_ok.1 hcall
      obtain ⟨-, rfl⟩ := Prod.mk.inj (Except.ok.inj hcall)
      exact exit_loses hs hm hv
  | wait ptr =>
      obtain ⟨⟨res, v⟩, hv, hcall⟩ := bind_ok.1 hcall
      obtain ⟨-, rfl⟩ := Prod.mk.inj (Except.ok.inj hcall)
      rcases waitFunc_ok hv with ⟨-, -, -, rfl⟩ | ⟨-, -, -, next, sched, -, rfl⟩ | ⟨-, pid, fam, hcol, -, rfl⟩
      · exact .none rfl
      · exact .same rfl rfl (fun _ => ⟨rfl, rfl⟩) (table_stray ..)
      · exact .same (collect_count hcol) rfl (fun _ => ⟨rfl, rfl⟩) rfl
  | getPid =>
      obtain ⟨-, rfl⟩ := Prod.mk.inj (Except.ok.inj hcall)
      exact .none rfl
  | brk addr =>
      obtain ⟨⟨r, mem⟩, hmem, hcall⟩ := bind_ok.1 hcall
      obtain ⟨-, rfl⟩ := Prod.mk.inj (Except.ok.inj hcall)
      exact brk_loses h hlive hsafe.frames hfits hmem
  | delay clockTicks =>
      obtain ⟨⟨res, v⟩, hv, hcall⟩ := bind_ok.1 hcall
      obtain ⟨-, rfl⟩ := Prod.mk.inj (Except.ok.inj hcall)
      rcases delayFunc_ok hv with ⟨-, rfl⟩ | ⟨-, -, queued, next, sched, -, -, -, -, rfl⟩
      · exact .none rfl
      · exact .same rfl rfl (fun _ => ⟨rfl, rfl⟩) (table_stray ..)

theorem resume_loses {out : Option ExceptionInfo} (h : Protected s) (he : Orderly s (.resume file)) (ht : t.mode ≠ .hung)
    (hres : Kernel.resume file s = .ok (out, t)) : Loses 0 s t := by
  have hs := h.settled.sound
  unfold Kernel.resume at hres
  cases hm : s.mode with
  | user | hung =>
      simp only [hm] at hres
      obtain ⟨-, rfl⟩ := Prod.mk.inj (Except.ok.inj hres)
      exact .none rfl
  | resuming c =>
      simp only [hm] at hres
      cases hk : c.kont with
      | boot p cmdArgs =>
          simp only [hk] at hres
          obtain ⟨⟨r, info, mem⟩, hload, hres⟩ := bind_ok.1 hres
          obtain ⟨-, rfl⟩ := Prod.mk.inj (Except.ok.inj hres)
          obtain ⟨hp, howned⟩ := he.1.frames c p cmdArgs hm hk
          exact load_loses .user h hp (by simp [hm]) (resuming_live hs hm (by simp [hk])) howned (he.2 c p cmdArgs hm hk) hload
      | fork child | delay =>
          simp only [hk] at hres
          obtain ⟨-, rfl⟩ := Prod.mk.inj (Except.ok.inj hres)
          exact .none rfl
      | wait =>
          simp only [hk] at hres
          obtain ⟨⟨pid, fam⟩, hcol, hres⟩ := bind_ok.1 hres
          obtain ⟨-, rfl⟩ := Prod.mk.inj (Except.ok.inj hres)
          exact .same (collect_count hcol) rfl (fun _ => ⟨rfl, rfl⟩) rfl
      | clock item =>
          simp only [hk] at hres
          obtain ⟨i, hi, hres⟩ := bind_ok.1 hres
          exact clock_loses hres
      | exit =>
          simp only [hk] at hres
          obtain ⟨mem, hmem, hres⟩ := bind_ok.1 hres
          obtain ⟨-, rfl⟩ := Prod.mk.inj (Except.ok.inj hres)
          exact absurd rfl ht

/-- A Fork loses four frames, and no other step loses any. -/
theorem step_loses (h : Protected s) (he : Tidy s e) (ht : t.mode ≠ .hung) (hstep : Step s e t) :
    Loses (kernelStackPages * births e) s t := by
  have hs := h.settled.sound
  cases e with
  | call c info =>
      obtain ⟨⟨out, u⟩, hcall, rfl⟩ := map_ok.1 hstep.2
      exact call_loses h (userMode_iff.1 hstep.1) he hcall
  | memoryTrap info =>
      have hm := userMode_iff.1 hstep.1.1
      obtain ⟨⟨out, u⟩, htrap, rfl⟩ := map_ok.1 hstep.2
      rcases memoryTrap_ok htrap with ⟨hg, -, mem, hmem, rfl⟩ | ⟨-, -, hexit⟩
      · exact grow_loses h (hs.live_curr hm) hg (he.1.1.frames hg) hmem
      · exact exit_loses hs hm hexit
  | fatalTrap info =>
      obtain ⟨⟨out, u⟩, htrap, rfl⟩ := map_ok.1 hstep.2
      obtain ⟨v, hv, htrap⟩ := bind_ok.1 htrap
      obtain ⟨-, rfl⟩ := Prod.mk.inj (Except.ok.inj htrap)
      exact exit_loses hs (userMode_iff.1 hstep.1) hv
  | clock info =>
      obtain ⟨⟨out, u⟩, hclock, rfl⟩ := map_ok.1 hstep.2
      exact clock_loses hclock
  | resume file =>
      obtain ⟨⟨out, u⟩, hres, rfl⟩ := map_ok.1 hstep.2
      exact resume_loses h he.1 ht hres
  | kernelBrk addr =>
      obtain ⟨⟨r, mem⟩, hmem, hbrk⟩ := bind_ok.1 hstep.2
      obtain rfl := Except.ok.inj hbrk
      refine .same rfl rfl (fun p => ?_) (setKernelBrk_stray hs.owned (fun _ hi => hi) he.1.1.frames he.2 hmem)
      change SameTable (mem.space p) _
      rw [(setKernelBrk_space hmem).2]
      exact ⟨rfl, rfl⟩
  | userStore vaddr x =>
      have hm := userMode_iff.1 hstep.1
      obtain ⟨mem, hmem, hstore⟩ := bind_ok.1 hstep.2
      obtain rfl := Except.ok.inj hstore
      obtain ⟨f, e, hframe, -, -, -, rfl⟩ := userStore_ok hmem
      have hno := userFrame_not_table hs.owned (hs.running (by simp [hm]) (hs.live_curr hm)) hframe
      refine .same rfl rfl (fun _ => ⟨rfl, rfl⟩) (same_stray ⟨rfl, rfl, rfl⟩ rfl fun v j hv => ?_)
      have hread := word_read_copy (fun hf => hno j (hf ▸ hv)) s.mem
        (put (s.mem.frames f) (vaddr % pageSize / 4) ((s.mem.frames f (vaddr % pageSize / 4)).setByte (vaddr % 4) x)) j
      exact ⟨congrArg Pte.valid hread, congrArg Pte.pfn hread⟩

theorem stray_finite (s : State) : (strayFrames s).Finite := (Set.finite_lt_nat s.mem.numPages).subset fun _ hf => hf.1.1

theorem Loses.ncard (h : Loses n s t) : (strayFrames t).ncard = (strayFrames s).ncard + n := by
  obtain ⟨l, hnodup, rfl, hfree, hstray⟩ := h
  have hl : {f | f ∈ l} = (↑l.toFinset : Set Nat) := (List.coe_toFinset l).symm
  have hdisj : Disjoint (strayFrames s) {f | f ∈ l} := Set.disjoint_left.2 fun f hf hmem => hfree f hmem hf.1
  rw [hstray, Set.ncard_union_eq hdisj (stray_finite s) (hl ▸ l.toFinset.finite_toSet), hl, Set.ncard_coe_finset,
    List.toFinset_card_of_nodup hnodup]

theorem reaches_stray (hs : Protected s) (h : Reaches Tidy s t) (ht : t.mode ≠ .hung) :
    Protected t ∧ strayFrames s ⊆ strayFrames t ∧
      (strayFrames t).ncard + kernelStackPages * s.fam.count = (strayFrames s).ncard + kernelStackPages * t.fam.count := by
  induction h with
  | refl => exact ⟨hs, subset_rfl, rfl⟩
  | @tail u t _ hstep ih =>
      obtain ⟨e, he, hstep⟩ := hstep
      obtain ⟨hu, hsub, hcard⟩ := ih fun hu => ht (hung_stays hu hstep)
      have hloses := step_loses hu he ht hstep
      obtain ⟨l, -, -, -, hstray⟩ := id hloses
      refine ⟨step_protected hu he.1 hstep, hsub.trans (hstray ▸ Set.subset_union_left), ?_⟩
      have hcount := (step_makes hstep).count
      rw [hloses.ncard, hcount, Nat.mul_add]
      omega

theorem used_count (m : Memory) : Set.ncard {f | InUse m f} + (freeList m).length = m.numPages := by
  have hunion : {f | InUse m f} ∪ ((freeList m).toFinset : Set Nat) = (Finset.range m.numPages : Set Nat) := by
    ext f
    simp only [Set.mem_union, Finset.mem_coe, List.mem_toFinset, Finset.mem_range, mem_freeList]
    change InUse m f ∨ _ ↔ _
    rw [inUse_list, mem_freeList]
    tauto
  have hdisj : Disjoint {f | InUse m f} ((freeList m).toFinset : Set Nat) :=
    Set.disjoint_left.2 fun f hf hmem => (inUse_list.1 hf).2 (List.mem_toFinset.1 hmem)
  have hfin : Set.Finite {f | InUse m f} := (Set.finite_lt_nat m.numPages).subset fun _ hf => hf.1
  have hcard := Set.ncard_union_eq hdisj hfin (freeList m).toFinset.finite_toSet
  rw [hunion, Set.ncard_coe_finset, Set.ncard_coe_finset, Finset.card_range, List.toFinset_card_of_nodup (freeList_nodup m)] at hcard
  exact hcard.symm

theorem validPages_named (hs : Sound s) : validPages s.mem ≤ (named (InPlay s) (names s.mem)).ncard := by
  have hfin : (named (InPlay s) (names s.mem)).Finite :=
    (Set.finite_lt_nat s.mem.numPages).subset fun f hf => (named_taken hs.owned.holds hf).1
  have hname {i : Nat} (hi : i ∈ ((List.range pageTableLen).filter fun i => (s.mem.region1Pt i).valid).toFinset) :
      InPlay s (.kernel i) ∧ names s.mem (.kernel i) = some (s.mem.region1Pt i).pfn.toNat := by
    obtain ⟨hlt, hv⟩ := List.mem_filter.1 (List.mem_toFinset.1 hi)
    exact ⟨List.mem_range.1 hlt, names_some.2 ⟨hv, rfl⟩⟩
  have hinj : Set.InjOn (fun i => (s.mem.region1Pt i).pfn.toNat)
      (((List.range pageTableLen).filter fun i => (s.mem.region1Pt i).valid).toFinset : Set Nat) := fun i hi j hj he => by
    obtain ⟨hPi, hni⟩ := hname hi
    obtain ⟨hPj, hnj⟩ := hname hj
    exact Slot.kernel.inj (hs.owned.holds.apart _ _ _ hPi hPj hni (hnj.trans (congrArg some he.symm)))
  have hcard := hinj.ncard_image
  rw [Set.ncard_coe_finset, List.toFinset_card_of_nodup (List.nodup_range.filter _)] at hcard
  change validPages s.mem ≤ _
  unfold validPages
  rw [← hcard]
  refine Set.ncard_le_ncard ?_ hfin
  rintro f ⟨i, hi, rfl⟩
  obtain ⟨hP, hn⟩ := hname hi
  exact ⟨_, hP, hn⟩

/-- Each Fork costs the machine five frames for good: four that go astray, and that of the page of the table. -/
theorem reachable_frames_lost (henv : BootOwned env) (hfits : BootFits env) (hloads : BootLoads env) (hs : kernelStart env = .ok s)
    (h : Reaches Tidy s t) (ht : t.mode ≠ .hung) :
    strayFrames s ⊆ strayFrames t ∧ (strayFrames t).ncard = (strayFrames s).ncard + kernelStackPages * (t.fam.count - 2) ∧
      (freeList t.mem).length + (kernelStackPages + 1) * (t.fam.count - 2) + validPages s.mem + (strayFrames s).ncard ≤ t.mem.numPages := by
  have hcount := boot_count hs
  have hle := reaches_count h
  obtain ⟨hprot, hsub, hcard⟩ := reaches_stray (boot_protected henv hfits hloads hs) h ht
  have hbirths := reaches_births h ht
  have hfin : Set.Finite {f | InUse t.mem f} := (Set.finite_lt_nat t.mem.numPages).subset fun _ hf => hf.1
  have hbalance := balance hprot.settled.sound.owned.holds hfin
  have hused := used_count t.mem
  have hnamed := validPages_named hprot.settled.sound
  rw [hcount] at hle hcard hbirths
  have hstray : (strayFrames t).ncard = (strays (InPlay t) (names t.mem) (InUse t.mem)).ncard := rfl
  refine ⟨hsub, ?_, ?_⟩
  · unfold kernelStackPages at hcard ⊢
    omega
  · rw [← hstray] at hbalance
    unfold kernelStackPages at hcard ⊢
    omega

def tidyFits (s : State) : Bool :=
  match freeVirtualPage s.mem with
  | none => true
  | some i => s.mem.freePages (pageTableLen + i) = .pageFree &&
      match borrowPage (withTable s.fam.count i s.mem) with
      | none => true
      | some b => s.mem.freePages (pageTableLen + b) = .pageFree && !(stackFrames s i).contains (pageTableLen + b)

theorem free_not_used (h : m.freePages f = .pageFree) : ¬ InUse m f := by
  rintro ⟨-, hu⟩
  rw [h] at hu
  cases hu

theorem tidyFits_tidy (h : tidyFits s = true) : ForkTidy s := by
  intro i hi
  unfold tidyFits at h
  rw [hi] at h
  obtain ⟨hfree, h⟩ := Bool.and_eq_true_iff.1 h
  refine ⟨free_not_used (of_decide_eq_true hfree), fun b hb => ?_⟩
  rw [hb] at h
  obtain ⟨hfree, hnot⟩ := Bool.and_eq_true_iff.1 h
  refine ⟨free_not_used (of_decide_eq_true hfree), fun hmem => ?_⟩
  rw [List.contains_iff_mem.2 hmem] at hnot
  cases hnot

theorem small_tidyFits : startsIn tidyFits = true := by
  decide +kernel

theorem small_forkTidy (h : kernelStart smallBoot = .ok s) : ForkTidy s := by
  obtain ⟨s', hs, hfits⟩ := startsIn_iff.1 small_tidyFits
  obtain rfl := Except.ok.inj (h.symm.trans hs)
  exact tidyFits_tidy hfits

theorem reachable_frames_lost_small : ∃ s t, kernelStart smallBoot = .ok s ∧ Reaches Tidy s t ∧ t.fam.count = 3 ∧
    (strayFrames t).ncard = (strayFrames s).ncard + 4 ∧ (freeList t.mem).length + 5 + validPages s.mem ≤ t.mem.numPages := by
  obtain ⟨s₀, s₁, s₂, s₃, s₄, h, -⟩ := small_family
  obtain ⟨hfork, hchild, -, -⟩ := small_orderly h
  have hrun : Reaches Tidy s₀ s₂ :=
    .tail (.single ⟨_, ⟨hfork, small_forkTidy h.boot⟩, h.fork⟩) ⟨_, ⟨hchild, trivial⟩, h.child⟩
  have hmode : s₂.mode ≠ .hung := by
    rw [h.child_eq]
    nofun
  have hcount : s₂.fam.count = 3 := by
    rw [h.child_eq]
    exact (step_makes h.fork).count.trans (congrArg (· + 1) h.start.2.2.1)
  obtain ⟨-, hcard, hfree⟩ := reachable_frames_lost small_bootOwned small_bootFits (small_bootLoads h.boot) h.boot hrun hmode
  rw [hcount] at hcard hfree
  refine ⟨s₀, s₂, h.boot, hrun, hcount, hcard, ?_⟩
  unfold kernelStackPages at hfree
  omega

end Yalnix.StrayFrames
