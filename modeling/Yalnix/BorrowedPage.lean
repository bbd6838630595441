import Mathlib.Tactic.IntervalCases
import Yalnix.ForkLoop

namespace Yalnix.BorrowedPage

open Loops Machine AddressSpace Accesses FreeList FreeCounter Allocation ForkLoop

variable {m m' : Memory} {w wc : Word} {b p parent child proc : Nat}

def NewProcKeeps (m m' : Memory) : Prop := ∀ p < m.numPages, m'.freePages p = .pageUsed ↔ m.freePages p = .pageUsed

def ForkAdds (wc : Word) (m m' : Memory) : Prop :=
  ∀ p < m.numPages, m'.freePages p = .pageUsed ↔ m.freePages p = .pageUsed ∨
    ∃ j < pageTableLen, (wc.read m' j).valid = true ∧ (wc.read m' j).pfn.toNat = p

theorem mark_cases (a : PageMark) : a = .pageUsed ↔ a ≠ .pageFree := by
  cases a <;> simp

theorem switchNewProc_marks (h : switchNewProc proc m = .ok m') :
    ∃ b, borrowPage m = some b ∧ pageTableLen + b < m.numPages ∧
      m'.freePages = put m.freePages (pageTableLen + b) .pageFree := by
  obtain ⟨b, hb, h⟩ := bind_ok.1 h
  obtain ⟨u, hu, h⟩ := bind_ok.1 h
  obtain ⟨v, hv, h⟩ := bind_ok.1 h
  obtain rfl := Except.ok.inj h
  obtain ⟨hlt, rfl⟩ := returnPage_ok hv
  have hmarks : SameMarks m u := .upTo (fun i a c hi => by
    obtain ⟨e, -, hi⟩ := bind_ok.1 hi
    have := copyPage_marks hi
    exact ⟨this.numPages, this.freePages, this.numFreePages⟩) hu
  refine ⟨b, borrowR1Page_ok hb, hmarks.numPages ▸ hlt, ?_⟩
  change put u.freePages _ _ = _
  rw [hmarks.freePages]

theorem newProcKeeps_iff (h : switchNewProc proc m = .ok m') :
    NewProcKeeps m m' ↔ ∀ b, borrowPage m = some b → m.freePages (pageTableLen + b) = .pageFree := by
  obtain ⟨b, hb, hlt, hmarks⟩ := switchNewProc_marks h
  unfold NewProcKeeps
  rw [hmarks]
  constructor
  · intro hall c hc
    obtain rfl := Option.some.inj (hb.symm.trans hc)
    have := hall _ hlt
    rw [put_self, mark_cases (m.freePages _)] at this
    by_contra hne
    cases this.2 hne
  · intro hfree p _
    by_cases hp : p = pageTableLen + b
    · rw [hp, put_self, hfree b hb]
    · rw [put_of_ne hp]

theorem mem_rest {n : Nat} : p ∈ (freeList m).drop (validEntries m w n) ↔ p ∈ freeList m ∧ p ∉ taken m w n := by
  have hsplit : taken m w n ++ (freeList m).drop (validEntries m w n) = freeList m := List.take_append_drop ..
  have hnodup := freeList_nodup m
  rw [← hsplit] at hnodup
  obtain ⟨-, -, hdisjoint⟩ := List.nodup_append.1 hnodup
  have hmem : p ∈ freeList m ↔ p ∈ taken m w n ∨ p ∈ (freeList m).drop (validEntries m w n) := by
    rw [← List.mem_append, hsplit]
  rw [hmem]
  refine ⟨fun hp => ⟨.inr hp, fun ht => hdisjoint p ht p hp rfl⟩, fun ⟨hp, hno⟩ => hp.resolve_left hno⟩

theorem forkAdds_iff (hn : NamedUsed m) (hsmall : m.numPages < 2 ^ 20) (hw : Leads m (m.space parent).region0 w)
    (hwc : Leads m (m.space child).region0 wc) (h : switchFork parent child m = .ok m') :
    ForkAdds wc m m' ↔
      ∀ b, borrowPage m = some b → pageTableLen + b ∈ (freeList m).drop (validEntries m w pageTableLen) := by
  obtain ⟨b, u, hb, hlt, hcopied, rfl⟩ := switchFork_copied hsmall hw hwc (kept_of_named hn hw) (kept_of_named hn hwc) h
  have hread (j : Nat) : wc.read { setMark (writeRegion1 u b (m.region1Pt b)) (pageTableLen + b) .pageFree with
      regPtr0 := .page (pageTableLen + (m.space child).freeVpn) } j = wc.read u j := by
    cases wc <;> rfl
  have hinstalled (p : Nat) := hcopied.installed (f := p) hsmall
  have hmarks (p : Nat) : u.freePages p = .pageUsed ↔ m.freePages p = .pageUsed ∨ p ∈ taken m w pageTableLen := by
    rw [hcopied.takes.marks]
    split
    case isTrue hp => exact iff_of_true rfl (.inr hp)
    case isFalse hp => simp [hp]
  unfold ForkAdds
  simp only [hread, hinstalled]
  change (∀ p < m.numPages, put u.freePages (pageTableLen + b) .pageFree p = .pageUsed ↔ _) ↔ _
  constructor
  · intro hall c hc
    obtain rfl := Option.some.inj (hb.symm.trans hc)
    have := hall _ hlt
    rw [put_self] at this
    obtain ⟨hfree, hno⟩ := not_or.1 fun hp => nomatch this.2 hp
    rw [mark_cases, not_not] at hfree
    exact mem_rest.2 ⟨mem_freeList.2 ⟨hlt, hfree⟩, hno⟩
  · intro hrest p _
    obtain ⟨hmem, hno⟩ := mem_rest.1 (hrest b hb)
    by_cases hp : p = pageTableLen + b
    · rw [hp, put_self]
      refine iff_of_false nofun (not_or.2 ⟨?_, hno⟩)
      rw [(mem_freeList.1 hmem).2]
      nofun
    · rw [put_of_ne hp]
      exact hmarks p

/-- Borrowing a page of Region 1 leaves the marks alone exactly when the frame with the page's own number
is free, and is not one of those that the fork takes. -/
theorem borrowed_marks_iff (hn : NamedUsed m) (hsmall : m.numPages < 2 ^ 20) :
    (∀ proc m', switchNewProc proc m = .ok m' →
      (NewProcKeeps m m' ↔ ∀ b, borrowPage m = some b → m.freePages (pageTableLen + b) = .pageFree)) ∧
    ∀ parent child w wc m', Leads m (m.space parent).region0 w → Leads m (m.space child).region0 wc →
      switchFork parent child m = .ok m' →
        (ForkAdds wc m m' ↔
          ∀ b, borrowPage m = some b → pageTableLen + b ∈ (freeList m).drop (validEntries m w pageTableLen)) :=
  ⟨fun _ _ => newProcKeeps_iff, fun _ _ _ _ _ hw hwc => forkAdds_iff hn hsmall hw hwc⟩

/-- Two pages of kernel, process 0 with `region0Pt` and a kernel stack from the frame `stack` on, and
process 1 with a table from `BuildRegion0`. -/
def twoProcs (stack : Nat) : Memory where
  cfg := ⟨kernelStackBase, vmem1Base, vmem1Base + 100⟩
  numPages := 1024
  freePages := fun p =>
    if p = 512 ∨ p = 513 ∨ p = 1021 ∨ stack ≤ p ∧ p < stack + 4 ∨ 600 ≤ p ∧ p < 604 then .pageUsed else .pageFree
  numFreePages := 1013
  region0Pt := fun j => ⟨BitVec.ofNat 20 (stack + (j - kernelStackBase)), 0, 0, 3, kernelStackBase ≤ j⟩
  region1Pt := fun i => ⟨BitVec.ofNat 20 (pageTableLen + i), 0, 0, 3, i < 2 ∨ i = 509⟩
  frames := fun f j =>
    if f = 1021 then ⟨BitVec.ofNat 20 (600 + (j - kernelStackBase)), 0, 0, 3, kernelStackBase ≤ j⟩ else ⟨0, 0, 0, 0, false⟩
  currKernelBrk := vmem1Base + 2 * pageSize
  vmEnabled := true
  regPtr0 := .region0Pt
  space := fun p => if p = 1 then ⟨0, 0, .page 1021, 509⟩ else ⟨0, 0, .region0Pt, 0⟩

theorem twoProcs_leads (stack : Nat) : Leads (twoProcs stack) ((twoProcs stack).space 0).region0 .static ∧
    Leads (twoProcs stack) ((twoProcs stack).space 1).region0 (.frame 1021) :=
  ⟨.static, .frame (kernelFrame_ok.2 ⟨by decide, rfl, rfl, (by decide : (1021 : Nat) < 1024)⟩)⟩

theorem twoProcs_used {stack : Nat}
    (h : p = 512 ∨ p = 513 ∨ p = 1021 ∨ stack ≤ p ∧ p < stack + 4 ∨ 600 ≤ p ∧ p < 604) :
    (twoProcs stack).freePages p = .pageUsed := if_pos h

theorem twoProcs_namedUsed {stack : Nat} (hstack : stack + 4 ≤ 1024) : NamedUsed (twoProcs stack) := by
  have hused {f : Nat} (hlt : f < 1024) (hmark : (twoProcs stack).freePages f = .pageUsed) :
      InUse (twoProcs stack) (BitVec.ofNat 20 f).toNat := by
    rw [BitVec.toNat_ofNat, Nat.mod_eq_of_lt (by omega)]
    exact ⟨hlt, hmark⟩
  refine ⟨fun i hi hv => ?_, fun p w hw j hj hv => ?_⟩
  · have hcase : i < 2 ∨ i = 509 := of_decide_eq_true hv
    refine hused ?_ (twoProcs_used ?_) <;>
    · simp only [pageTableLen]
      omega
  · have hlo (h : decide (kernelStackBase ≤ j) = true) : j - kernelStackBase < 4 := by
      have := of_decide_eq_true h
      simp only [kernelStackBase, pageTableLen] at this hj ⊢
      omega
    by_cases hp : p = 1
    · subst hp
      obtain rfl := leads_unique (twoProcs_leads stack).2 hw
      have := hlo hv
      exact hused (by omega) (twoProcs_used (by omega))
    · have hspace : ((twoProcs stack).space p).region0 = .region0Pt := by
        change (if p = 1 then _ else _ : Space).region0 = _
        rw [if_neg hp]
      rw [hspace] at hw
      obtain rfl := leads_unique .static hw
      have := hlo hv
      exact hused (by omega) (twoProcs_used (by omega))

def twoProcsFacts : Bool :=
  (yields (switchNewProc 1 (twoProcs 514)) fun m => decide (m.freePages 514 = .pageFree)) &&
  (yields (switchFork 0 1 (twoProcs 514)) fun m => decide (m.freePages 514 = .pageFree)) &&
  (yields (switchNewProc 1 (twoProcs 700)) fun _ => true) && (yields (switchFork 0 1 (twoProcs 700)) fun _ => true) &&
  decide (borrowPage (twoProcs 700) = some 2) &&
  decide (514 ∈ (freeList (twoProcs 700)).drop (validEntries (twoProcs 700) .static pageTableLen))

theorem twoProcs_facts : twoProcsFacts = true := by
  decide +kernel

/-- The kernel stack of process 0 starts in the frame 514, and page 2 of Region 1 is borrowed. -/
theorem borrowed_frame_freed : NamedUsed (twoProcs 514) ∧
    (∃ m', switchNewProc 1 (twoProcs 514) = .ok m' ∧ ¬ NewProcKeeps (twoProcs 514) m') ∧
    ∃ m', switchFork 0 1 (twoProcs 514) = .ok m' ∧ ¬ ForkAdds (.frame 1021) (twoProcs 514) m' := by
  have hfacts := twoProcs_facts
  simp only [twoProcsFacts, Bool.and_eq_true, yields_iff, decide_eq_true_eq] at hfacts
  obtain ⟨⟨⟨⟨⟨⟨m, hm, hfree⟩, u, hu, hfree'⟩, -⟩, -⟩, -⟩, -⟩ := hfacts
  have hused : (twoProcs 514).freePages 514 = .pageUsed := rfl
  refine ⟨twoProcs_namedUsed (by decide), ⟨m, hm, fun hall => ?_⟩, u, hu, fun hall => ?_⟩
  · have := (hall 514 (by decide)).2 hused
    rw [hfree] at this
    cases this
  · have := (hall 514 (by decide)).2 (.inl hused)
    rw [hfree'] at this
    cases this

theorem borrowed_marks_twoProcs : (∃ m', switchNewProc 1 (twoProcs 700) = .ok m' ∧ NewProcKeeps (twoProcs 700) m') ∧
    ∃ m', switchFork 0 1 (twoProcs 700) = .ok m' ∧ ForkAdds (.frame 1021) (twoProcs 700) m' := by
  have hfacts := twoProcs_facts
  simp only [twoProcsFacts, Bool.and_eq_true, yields_iff, decide_eq_true_eq] at hfacts
  obtain ⟨⟨⟨⟨-, m, hm, -⟩, u, hu, -⟩, hb⟩, hmem⟩ := hfacts
  obtain ⟨hnew, hfork⟩ := borrowed_marks_iff (twoProcs_namedUsed (by decide : 700 + 4 ≤ 1024)) (by decide)
  refine ⟨⟨m, hm, (hnew 1 m hm).2 fun b hb' => ?_⟩, u, hu,
    (hfork 0 1 _ _ u (twoProcs_leads 700).1 (twoProcs_leads 700).2 hu).2 fun b hb' => ?_⟩
  · obtain rfl := Option.some.inj (hb.symm.trans hb')
    rfl
  · obtain rfl := Option.some.inj (hb.symm.trans hb')
    exact hmem

end Yalnix.BorrowedPage
