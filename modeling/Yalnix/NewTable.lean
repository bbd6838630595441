import Mathlib.Tactic.IntervalCases
import Yalnix.Allocation

namespace Yalnix.NewTable

open Loops Machine AddressSpace Accesses FreeList Allocation

variable {m m' u : Memory} {w : Word} {i j p proc : Nat}

/-- The process has a table in Region 1, in a frame of its own, in which the four
pages of the kernel stack, and no others, are valid; all five frames were free. -/
structure CleanTable (proc i f : Nat) (m m' : Memory) : Prop where
  table : (m'.space proc).region0 = .page (pageTableLen + i) ∧ (m'.space proc).freeVpn = i
  entry : (m'.region1Pt i).valid = true ∧ (m'.region1Pt i).pfn.toNat = f
  frame : f < m.numPages ∧ m.freePages f = .pageFree ∧ m'.freePages f = .pageUsed
  valid : ∀ j < pageTableLen, (m'.frames f j).valid = true ↔ kernelStackBase ≤ j
  stack : ∀ j, kernelStackBase ≤ j → j < pageTableLen → (m'.frames f j).pfn.toNat < m.numPages ∧
    m.freePages (m'.frames f j).pfn.toNat = .pageFree ∧ m'.freePages (m'.frames f j).pfn.toNat = .pageUsed ∧
    (m'.frames f j).pfn.toNat ≠ f
  distinct : ∀ j k, kernelStackBase ≤ j → j < pageTableLen → kernelStackBase ≤ k → k < pageTableLen →
    (m'.frames f j).pfn = (m'.frames f k).pfn → j = k
  region1Pt : ∀ k, k ≠ i → m'.region1Pt k = m.region1Pt k

def BuildsClean (proc : Nat) (m : Memory) : Prop :=
  ∃ m' i f, buildRegion0 proc m = .ok m' ∧ CleanTable proc i f m m'

def withTable (proc i : Nat) (m : Memory) : Memory :=
  setSpace (writeRegion1 (setMark m (pageTableLen + i) .pageUsed) i { m.region1Pt i with
      valid := true, kprot := protRead ||| protWrite, uprot := protNone
      pfn := BitVec.ofNat 20 (pageTableLen + i) })
    proc { m.space proc with region0 := .page (pageTableLen + i), freeVpn := i }

theorem tablePfn (hi : i < pageTableLen) : (BitVec.ofNat 20 (pageTableLen + i)).toNat = pageTableLen + i := by
  rw [BitVec.toNat_ofNat]
  apply Nat.mod_eq_of_lt
  simp only [pageTableLen] at hi ⊢
  omega

theorem withTable_entry (proc i : Nat) (m : Memory) : (withTable proc i m).region1Pt i = { m.region1Pt i with
    valid := true, kprot := protRead ||| protWrite, uprot := protNone
    pfn := BitVec.ofNat 20 (pageTableLen + i) } := put_self ..

theorem withTable_region1 {k : Nat} (h : k ≠ i) : (withTable proc i m).region1Pt k = m.region1Pt k := put_of_ne h ..

theorem withTable_leads (proc : Nat) (hi : i < pageTableLen) (hf : pageTableLen + i < m.numPages) :
    Leads (withTable proc i m) (.page (pageTableLen + i)) (.frame (pageTableLen + i)) := by
  refine .frame (kernelFrame_ok.2 ⟨⟨Nat.le_add_right .., by omega⟩, ?_, ?_, hf⟩)
  · rw [Nat.add_sub_cancel_left, withTable_entry]
  · rw [Nat.add_sub_cancel_left, withTable_entry]
    exact tablePfn hi

theorem freeVirtualPage_lt (h : freeVirtualPage m = some i) : i < pageTableLen - 2 := (scanDown_some h).1

theorem buildRegion0_eq (h : freeVirtualPage m = some i) (hf : pageTableLen + i < m.numPages) :
    buildRegion0 proc m = upTo (fun vpn => mapPage (.page (pageTableLen + i)) protNone (protRead ||| protWrite) vpn)
      kernelStackBase kernelStackPages (withTable proc i m) := by
  have hlt := freeVirtualPage_lt h
  have hframe : index ((i : Int) + pageTableLen) m.numPages = .ok (pageTableLen + i) := index_ok.2 ⟨by omega, hf⟩
  have hindex : index (toUlong i) pageTableLen = .ok i := by
    rw [toUlong_nat (by simp only [pageTableLen] at hlt; omega)]
    exact index_nat.2 (by omega)
  unfold buildRegion0 findFreeVirtualPage
  simp only [h, hframe, bind, Except.bind, pure, Except.pure, hindex, setSpace_space_self]
  rfl

theorem withTable_list (proc : Nat) (hi : pageTableLen + i < m.numPages) (hfree : m.freePages (pageTableLen + i) = .pageFree) :
    (freeList (withTable proc i m)).length + 1 = (freeList m).length := by
  have hlist : freeList (withTable proc i m) = (freeList m).erase (pageTableLen + i) := freeList_use m _
  have hmem : pageTableLen + i ∈ freeList m := mem_freeList.2 ⟨hi, hfree⟩
  rw [hlist, List.length_erase_of_mem hmem]
  have := List.length_pos_of_mem hmem
  omega

theorem clean_of_builds (hsmall : m.numPages < 2 ^ 20) (h : BuildsClean proc m) :
    ∃ i, freeVirtualPage m = some i ∧ pageTableLen + i < m.numPages ∧ m.freePages (pageTableLen + i) = .pageFree ∧
      ∀ j < kernelStackBase, (m.frames (pageTableLen + i) j).valid = false := by
  obtain ⟨m', i', f, hbuild, hc⟩ := h
  obtain ⟨i, hpage, hi, -, hframe, hloop⟩ := buildRegion0_ok hbuild
  have hw := withTable_leads proc hi hframe
  obtain ⟨-, js, hjs, -, hmap, -⟩ := Layout.mapLoop (g := fun a => (a : Int)) (fun a b he => Int.ofNat.inj he)
    (show (withTable proc i m).numPages < 2 ^ 20 from hsmall) hw hloop
  have hspace : (m'.space proc).freeVpn = i := by
    rw [hmap.fixed.space]
    exact congrArg Space.freeVpn (setSpace_space_self ..)
  obtain rfl : i = i' := hspace.symm.trans hc.table.2
  have hf : f = pageTableLen + i := by
    rw [← hc.entry.2, hmap.region1Pt, withTable_entry]
    exact tablePfn hi
  subst hf
  refine ⟨i, hpage, hframe, hc.frame.2.1, fun j hj => ?_⟩
  have hno : j ∉ js := fun hmem => by
    obtain ⟨a, ha, -, he⟩ := (hjs j).1 hmem
    omega
  have hold : m'.frames (pageTableLen + i) j = m.frames (pageTableLen + i) j := hmap.others j hno
  rw [← hold]
  refine Bool.eq_false_iff.2 fun hv => ?_
  have := (hc.valid j (Nat.lt_trans hj (by decide))).1 hv
  omega

theorem builds_clean (hsmall : m.numPages < 2 ^ 20) (hfree : kernelStackPages + 1 ≤ (freeList m).length)
    (hpage : freeVirtualPage m = some i) (hframe : pageTableLen + i < m.numPages)
    (hmark : m.freePages (pageTableLen + i) = .pageFree)
    (hold : ∀ j < kernelStackBase, (m.frames (pageTableLen + i) j).valid = false) : BuildsClean proc m := by
  have hi : i < pageTableLen := Nat.lt_of_lt_of_le (freeVirtualPage_lt hpage) (Nat.sub_le ..)
  have hlen := withTable_list proc hframe hmark
  obtain ⟨m', fs, hm', hfs, hf⟩ := mapLoop_fills protNone (protRead ||| protWrite) kernelStackBase kernelStackPages
    (withTable_leads proc hi hframe) (by decide) (by omega)
  have hfs : fs.length = 4 := hfs
  -- the frame of the table is used by the time the stack gets its frames
  have hfree (g : Nat) (hg : g ∈ fs) : g < m.numPages ∧ m.freePages g = .pageFree ∧ m'.freePages g = .pageUsed ∧
      g ≠ pageTableLen + i := by
    obtain ⟨hlt, hmark'⟩ := hf.takes.mem hg
    have hne : g ≠ pageTableLen + i := by
      rintro rfl
      have : (withTable proc i m).freePages (pageTableLen + i) = .pageUsed := put_self ..
      rw [this] at hmark'
      cases hmark'
    have hsame : (withTable proc i m).freePages g = m.freePages g := put_of_ne hne ..
    exact ⟨hlt, hsame ▸ hmark', hf.takes.used hg, hne⟩
  have hentry (j : Nat) (hlo : kernelStackBase ≤ j) (hhi : j < pageTableLen) :
      ∃ (k : Nat) (hk : k < fs.length), j = kernelStackBase + k ∧ (m'.frames (pageTableLen + i) j).pfn.toNat = fs[k] := by
    obtain ⟨k, rfl⟩ := Nat.exists_eq_add_of_le hlo
    have hk : k < fs.length := by
      simp only [kernelStackBase, pageTableLen] at hhi
      omega
    exact ⟨k, hk, rfl, hf.mapped_pfn hsmall (List.getElem?_eq_getElem hk)⟩
  refine ⟨m', i, pageTableLen + i, (buildRegion0_eq hpage hframe).trans hm', ?_, ?_, ⟨hframe, hmark, ?_⟩, fun j hj => ?_,
    fun j hlo hhi => ?_, fun j k h₁ h₂ h₃ h₄ he => ?_, fun k hk => ?_⟩
  · rw [hf.fixed.space]
    have hspace : (withTable proc i m).space proc =
        { m.space proc with region0 := .page (pageTableLen + i), freeVpn := i } := setSpace_space_self ..
    rw [hspace]
    exact ⟨rfl, rfl⟩
  · rw [hf.region1Pt, withTable_entry]
    exact ⟨rfl, tablePfn hi⟩
  · rw [hf.takes.others fun hmem => (hfree _ hmem).2.2.2 rfl]
    exact put_self ..
  · by_cases hlow : j < kernelStackBase
    · have hsame : m'.frames (pageTableLen + i) j = m.frames (pageTableLen + i) j := hf.others j (.inl hlow)
      rw [hsame, hold j hlow]
      exact iff_of_false (by decide) (by omega)
    · refine iff_of_true ?_ (by omega)
      exact hf.valid (by omega) (by simp only [kernelStackBase, pageTableLen] at hj ⊢; omega)
  · obtain ⟨k, hk, -, hpfn⟩ := hentry j hlo hhi
    rw [hpfn]
    exact hfree _ (List.getElem_mem hk)
  · obtain ⟨a, ha, rfl, hpa⟩ := hentry j h₁ h₂
    obtain ⟨b, hb, rfl, hpb⟩ := hentry k h₃ h₄
    rw [he, hpb] at hpa
    rw [(hf.takes.nodup.getElem_inj_iff).1 hpa]
  · rw [hf.region1Pt]
    exact put_of_ne hk ..

/-- `BuildRegion0` gives a process free memory and a clean table exactly when the scan finds a page
of Region 1, there is a frame with its number, that frame is free, and it happens to hold no valid
entry below the kernel stack. -/
theorem buildsClean_iff (hsmall : m.numPages < 2 ^ 20) (hfree : kernelStackPages + 1 ≤ (freeList m).length) :
    BuildsClean proc m ↔ ∃ i, freeVirtualPage m = some i ∧ pageTableLen + i < m.numPages ∧
      m.freePages (pageTableLen + i) = .pageFree ∧ ∀ j < kernelStackBase, (m.frames (pageTableLen + i) j).valid = false :=
  ⟨clean_of_builds hsmall, fun ⟨_, hpage, hframe, hmark, hold⟩ => builds_clean hsmall hfree hpage hframe hmark hold⟩

def freshKernel (word : Pte) : Memory where
  cfg := ⟨kernelStackBase, vmem1Base, vmem1Base + 100⟩
  numPages := 1024
  freePages := fun p => if p = 512 ∨ p = 513 then .pageUsed else .pageFree
  numFreePages := 1022
  region0Pt := fun _ => ⟨0, 0, 0, 0, false⟩
  region1Pt := fun i => ⟨BitVec.ofNat 20 (pageTableLen + i), 0, 0, 3, i < 2⟩
  frames := fun _ _ => word
  currKernelBrk := vmem1Base + 2 * pageSize
  vmEnabled := true
  regPtr0 := .region0Pt
  space := fun _ => ⟨0, 0, .region0Pt, 0⟩

def freshFacts (word : Pte) : Bool :=
  decide (freeVirtualPage (freshKernel word) = some 509) && decide (kernelStackPages + 1 ≤ (freeList (freshKernel word)).length)

theorem fresh_facts : freshFacts ⟨0, 0, 3, 3, true⟩ = true ∧ freshFacts ⟨0, 0, 0, 0, false⟩ = true := by
  decide +kernel

theorem fresh_namedUsed (word : Pte) : NamedUsed (freshKernel word) := by
  refine ⟨fun i hi hv => ?_, fun p w hw j hj hv => ?_⟩
  · have hlt : i < 2 := of_decide_eq_true hv
    have hlast : pageTableLen + i < 1024 := by
      simp only [pageTableLen]
      omega
    refine ⟨?_, ?_⟩
    · change (BitVec.ofNat 20 (pageTableLen + i)).toNat < 1024
      rwa [tablePfn hi]
    · interval_cases i <;> rfl
  · cases hw
    cases hv

/-- The frame of the new table holds what was there before. -/
theorem leftover_entries : NamedUsed (freshKernel ⟨0, 0, 3, 3, true⟩) ∧
    kernelStackPages + 1 ≤ (freeList (freshKernel ⟨0, 0, 3, 3, true⟩)).length ∧
    (∃ i < pageTableLen, vmem1Base + 2 * pageSize ≤ (pageTableLen + i) * pageSize ∧
      ((freshKernel ⟨0, 0, 3, 3, true⟩).region1Pt i).valid = false) ∧
    ¬ BuildsClean 1 (freshKernel ⟨0, 0, 3, 3, true⟩) := by
  have hfacts := fresh_facts.1
  simp only [freshFacts, Bool.and_eq_true, decide_eq_true_eq] at hfacts
  refine ⟨fresh_namedUsed _, hfacts.2, ⟨509, by decide, by decide, rfl⟩, fun h => ?_⟩
  obtain ⟨i, -, -, -, hold⟩ := clean_of_builds (by decide) h
  cases hold 0 (by decide)

theorem buildsClean_iff_fresh : BuildsClean 1 (freshKernel ⟨0, 0, 0, 0, false⟩) := by
  have hfacts := fresh_facts.2
  simp only [freshFacts, Bool.and_eq_true, decide_eq_true_eq] at hfacts
  exact (buildsClean_iff (by decide) hfacts.2).2 ⟨509, hfacts.1, by decide, rfl, fun _ _ => rfl⟩

end Yalnix.NewTable
