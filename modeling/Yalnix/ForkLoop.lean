import Yalnix.Allocation
import Yalnix.FreeCounter

namespace Yalnix.ForkLoop

open Loops Machine AddressSpace Accesses FreeList FreeCounter Allocation

variable {m m₀ m' u : Memory} {t : TablePtr} {w wc : Word} {i j f p parent child b : Nat}

def taken (m : Memory) (w : Word) (i : Nat) : List Nat := (freeList m).take (validEntries m w i)

/-- The frame that the valid page `j` of the parent gets in the child. -/
def newFrame (m : Memory) (w : Word) (j : Nat) : Nat := (freeList m).getD (validEntries m w j) 0

def copiedEntry (m : Memory) (w wc : Word) (j : Nat) : Pte :=
  if (w.read m j).valid then
    { wc.read m j with
      valid := true, uprot := (w.read m j).uprot, kprot := (w.read m j).kprot, pfn := BitVec.ofInt 20 (newFrame m w j) }
  else { wc.read m j with valid := false }

structure Copied (m₀ : Memory) (w wc : Word) (b i : Nat) (m : Memory) : Prop where
  fixed : Fixed m₀ m
  region1 : ∀ k, k ≠ b → m.region1Pt k = m₀.region1Pt k
  parent : ∀ j, i ≤ j → w.read m j = w.read m₀ j
  child : ∀ j, wc.read m j = if j < i then copiedEntry m₀ w wc j else wc.read m₀ j
  takes : Takes (taken m₀ w i) m₀ m
  enough : validEntries m₀ w i ≤ (freeList m₀).length
  contents : ∀ f, wc ≠ .frame f → f ∉ taken m₀ w i → m.frames f = m₀.frames f
  static : wc ≠ .static → m.region0Pt = m₀.region0Pt

theorem taken_succ_valid {l : List Nat} (hv : (w.read m₀ i).valid = true) (hlist : freeList m₀ = taken m₀ w i ++ f :: l)
    (henough : validEntries m₀ w i ≤ (freeList m₀).length) :
    taken m₀ w (i + 1) = taken m₀ w i ++ [f] ∧ newFrame m₀ w i = f ∧ validEntries m₀ w (i + 1) ≤ (freeList m₀).length := by
  have hlen : (taken m₀ w i).length = validEntries m₀ w i := by
    rw [taken, List.length_take]
    omega
  have hget : (freeList m₀)[validEntries m₀ w i]? = some f := by
    rw [hlist, List.getElem?_append_right (by omega), hlen, Nat.sub_self]
    rfl
  have hsucc : validEntries m₀ w (i + 1) = validEntries m₀ w i + 1 := by
    rw [validEntries_succ, hv]
    rfl
  refine ⟨?_, ?_, ?_⟩
  · rw [taken, hsucc, List.take_add_one, hget]
    rfl
  · rw [newFrame, List.getD_eq_getElem?_getD, hget]
    rfl
  · obtain ⟨hlt, -⟩ := List.getElem?_eq_some_iff.1 hget
    omega

theorem taken_succ_invalid (hv : (w.read m₀ i).valid = false) :
    taken m₀ w (i + 1) = taken m₀ w i ∧ validEntries m₀ w (i + 1) = validEntries m₀ w i := by
  have hsucc : validEntries m₀ w (i + 1) = validEntries m₀ w i := by
    rw [validEntries_succ, hv]
    rfl
  exact ⟨by rw [taken, hsucc]; rfl, hsucc⟩

theorem mem_taken (h : Copied m₀ w wc b i m) (hf : f ∈ taken m₀ w i) : f < m₀.numPages ∧ m₀.freePages f = .pageFree :=
  h.takes.mem hf

theorem Copied.leads {w' : Word} (h : Copied m₀ w wc b i m) (hw : Leads m₀ t w')
    (hb : ∀ pg, t = .page pg → pg - pageTableLen ≠ b) : Leads m t w' :=
  leads_congr hw h.fixed.numPages fun pg hpg => h.region1 _ (hb pg hpg)

theorem copied_invalid (h : Copied m₀ w wc b i m) (hv : (w.read m₀ i).valid = false) :
    Copied m₀ w wc b (i + 1) (wc.write m i { wc.read m i with valid := false }) := by
  obtain ⟨htaken, hcount⟩ := taken_succ_invalid hv
  have hi : wc.read m i = wc.read m₀ i := by
    rw [h.child, if_neg (Nat.lt_irrefl i)]
  refine ⟨?_, fun k hk => ?_, fun j hj => ?_, fun j => ?_, ?_, ?_, fun f hf hnot => ?_, fun hwc => ?_⟩
  · refine h.fixed.trans ?_
    cases wc <;> exact ⟨rfl, rfl, rfl, rfl, rfl, rfl⟩
  · rw [word_write_region1]
    exact h.region1 k hk
  · rw [word_read_write_index (by omega)]
    exact h.parent j (by omega)
  · by_cases hj : j = i
    · subst hj
      rw [word_read_write, if_pos (Nat.lt_succ_self j), hi, copiedEntry, hv]
      rfl
    · rw [word_read_write_of_ne hj, h.child]
      have hiff : j < i + 1 ↔ j < i := by omega
      simp only [hiff]
  · rw [htaken]
    exact h.takes.marked (.word ..)
  · rw [hcount]
    exact h.enough
  · rw [htaken] at hnot
    rw [← h.contents f hf hnot]
    cases wc with
    | static => rfl
    | frame g => exact put_of_ne (by rintro rfl; exact hf rfl) ..
  · rw [← h.static hwc]
    cases wc with
    | static => exact absurd rfl hwc
    | frame g => rfl

theorem copied_valid {l : List Nat} (source : Nat) (h : Copied m₀ w wc b i m) (hv : (w.read m₀ i).valid = true)
    (hl : freeList m = f :: l) (hw : w ≠ .frame f) (hwc : wc ≠ .frame f) :
    Copied m₀ w wc b (i + 1) { withFrame m wc (w.read m i) b i f with
      frames := put (withFrame m wc (w.read m i) b i f).frames f ((withFrame m wc (w.read m i) b i f).frames source) } := by
  have hlist : freeList m₀ = taken m₀ w i ++ f :: l := by rw [h.takes.list, hl]
  obtain ⟨htaken, hnew, hcount⟩ := taken_succ_valid hv hlist h.enough
  have hi : wc.read m i = wc.read m₀ i := by
    rw [h.child, if_neg (Nat.lt_irrefl i)]
  have hp : w.read m i = w.read m₀ i := h.parent i (Nat.le_refl i)
  refine ⟨?_, fun k hk => ?_, fun j hj => ?_, fun j => ?_, ?_, hcount, fun g hg hnot => ?_, fun hne => ?_⟩
  · refine h.fixed.trans ?_
    cases wc <;> exact ⟨rfl, rfl, rfl, rfl, rfl, rfl⟩
  · refine (put_of_ne hk ..).trans ?_
    rw [word_write_region1]
    exact h.region1 k hk
  · rw [word_read_copy hw, withFrame_read (by omega)]
    exact h.parent j (by omega)
  · rw [word_read_copy hwc]
    by_cases hj : j = i
    · subst hj
      have hentry : wc.read (withFrame m wc (w.read m j) b j f) j =
          { wc.read m j with
            valid := true, uprot := (w.read m j).uprot, kprot := (w.read m j).kprot, pfn := BitVec.ofInt 20 f } := by
        refine Eq.trans ?_ (word_read_write (take m f) wc j _)
        cases wc <;> rfl
      rw [hentry, if_pos (Nat.lt_succ_self j), hi, hp, copiedEntry, if_pos hv, hnew]
    · rw [withFrame_read hj, h.child]
      have hiff : j < i + 1 ↔ j < i := by omega
      simp only [hiff]
  · rw [htaken]
    refine h.takes.append ((Takes.one hl).marked ?_)
    exact .trans (.word ..) ⟨rfl, rfl, rfl⟩
  · rw [htaken, List.mem_append, List.mem_singleton, not_or] at hnot
    rw [← h.contents g hg hnot.1]
    change put _ f _ g = _
    rw [put_of_ne hnot.2]
    cases wc with
    | static => rfl
    | frame c => exact put_of_ne (by rintro rfl; exact hg rfl) ..
  · rw [← h.static hne]
    cases wc with
    | static => exact absurd rfl hne
    | frame c => rfl

theorem forkPage_copied (hsmall : m₀.numPages < 2 ^ 20) (hw : Leads m₀ (m₀.space parent).region0 w)
    (hwc : Leads m₀ (m₀.space child).region0 wc) (hkw : Kept m₀ w) (hkc : Kept m₀ wc)
    (hb : ∀ t w', Leads m₀ t w' → ∀ pg, t = .page pg → pg - pageTableLen ≠ b) (h : Copied m₀ w wc b i m)
    (hm' : forkPage parent child b i m = .ok m') : Copied m₀ w wc b (i + 1) m' := by
  obtain ⟨w', wc', hw', hwc', -, hcase⟩ := forkPage_ok (h.fixed.numPages ▸ hsmall) hm'
  rw [h.fixed.space] at hw' hwc'
  obtain rfl := leads_unique (h.leads hw (hb _ _ hw)) hw'
  obtain rfl := leads_unique (h.leads hwc (hb _ _ hwc)) hwc'
  rw [h.parent i (Nat.le_refl i)] at hcase
  rcases hcase with ⟨hv, f, l, source, hl, -, -, rfl⟩ | ⟨hv, rfl⟩
  · have hfree : m₀.freePages f = .pageFree := by
      refine (mem_freeList.1 (?_ : f ∈ freeList m₀)).2
      rw [h.takes.list, hl]
      simp
    have hne {v : Word} (hk : Kept m₀ v) : v ≠ .frame f := fun he => by
      rw [hk f he] at hfree
      cases hfree
    have := copied_valid source h hv hl (hne hkw) (hne hkc)
    rwa [h.parent i (Nat.le_refl i)] at this
  · exact copied_invalid h hv

theorem kept_of_named (hn : NamedUsed m) (hw : Leads m t w) : Kept m w := by
  rintro f rfl
  cases hw with
  | frame hf =>
      obtain ⟨⟨hlo, hhi⟩, hv, rfl, -⟩ := kernelFrame_ok.1 hf
      refine (hn.region1 _ ?_ hv).2
      omega

theorem borrowed_ne (hb : borrowPage m = some b) (hw : Leads m t w) (pg : Nat) (ht : t = .page pg) : pg - pageTableLen ≠ b := by
  rintro rfl
  have hv := leads_page_valid (ht ▸ hw)
  rw [(borrowPage_some hb).2] at hv
  cases hv

theorem copied_start (m : Memory) (w wc : Word) (b : Nat) (e : Pte) : Copied m w wc b 0 (writeRegion1 m b e) := by
  have hread (v : Word) (j : Nat) : v.read (writeRegion1 m b e) j = v.read m j := by cases v <;> rfl
  refine ⟨⟨rfl, rfl, rfl, rfl, rfl, rfl⟩, fun k hk => put_of_ne hk .., fun j _ => hread w j, fun j => ?_, ?_, Nat.zero_le _,
    fun f _ _ => rfl, fun _ => rfl⟩
  · rw [if_neg (Nat.not_lt_zero j)]
    exact hread wc j
  · exact .same ⟨rfl, rfl, rfl⟩

theorem switchFork_copied (hsmall : m.numPages < 2 ^ 20) (hw : Leads m (m.space parent).region0 w)
    (hwc : Leads m (m.space child).region0 wc) (hkw : Kept m w) (hkc : Kept m wc) (h : switchFork parent child m = .ok m') :
    ∃ b u, borrowPage m = some b ∧ pageTableLen + b < m.numPages ∧ Copied m w wc b pageTableLen u ∧
      m' = { setMark (writeRegion1 u b (m.region1Pt b)) (pageTableLen + b) .pageFree with
        regPtr0 := .page (pageTableLen + (m.space child).freeVpn) } := by
  obtain ⟨b, hb, h⟩ := bind_ok.1 h
  obtain ⟨u, hu, h⟩ := bind_ok.1 h
  obtain ⟨v, hv, h⟩ := bind_ok.1 h
  obtain rfl := Except.ok.inj h
  obtain ⟨hlt, rfl⟩ := returnPage_ok hv
  have hb := borrowR1Page_ok hb
  have hcopied : Copied m w wc b (0 + pageTableLen) u :=
    upTo_invariant (Copied m w wc b) (fun i _ _ _ _ hi hstep => forkPage_copied hsmall hw hwc hkw hkc
      (fun t v hv => borrowed_ne hb hv) hi hstep) (copied_start m w wc b _) hu
  rw [Nat.zero_add] at hcopied
  rw [hcopied.fixed.numPages] at hlt
  refine ⟨b, u, hb, hlt, hcopied, ?_⟩
  have hspace : (setMark (writeRegion1 u b (m.region1Pt b)) (pageTableLen + b) .pageFree).space = m.space := hcopied.fixed.space
  rw [← hspace]

theorem mem_taken_iff {n : Nat} (henough : validEntries m w n ≤ (freeList m).length) :
    f ∈ taken m w n ↔ ∃ j < n, (w.read m j).valid = true ∧ newFrame m w j = f := by
  induction n with
  | zero =>
      refine iff_of_false ?_ ?_
      · simp [taken, validEntries]
      · rintro ⟨j, hj, -⟩
        omega
  | succ n ih =>
      cases hv : (w.read m n).valid with
      | true =>
          have hcount : validEntries m w (n + 1) = validEntries m w n + 1 := by
            rw [validEntries_succ, hv]
            rfl
          have hlt : validEntries m w n < (freeList m).length := by omega
          have hnew : newFrame m w n = (freeList m)[validEntries m w n] := by
            rw [newFrame, List.getD_eq_getElem?_getD, List.getElem?_eq_getElem hlt]
            rfl
          have htaken : taken m w (n + 1) = taken m w n ++ [newFrame m w n] := by
            rw [taken, hcount, List.take_add_one, List.getElem?_eq_getElem hlt, hnew]
            rfl
          rw [htaken, List.mem_append, List.mem_singleton, ih (by omega)]
          constructor
          · rintro (⟨j, hj, h⟩ | rfl)
            · exact ⟨j, Nat.lt_succ_of_lt hj, h⟩
            · exact ⟨n, Nat.lt_succ_self n, hv, rfl⟩
          · rintro ⟨j, hj, hvj, rfl⟩
            rcases Nat.lt_succ_iff_lt_or_eq.1 hj with hj | rfl
            · exact .inl ⟨j, hj, hvj, rfl⟩
            · exact .inr rfl
      | false =>
          obtain ⟨htaken, hcount⟩ := taken_succ_invalid hv
          rw [htaken, ih (by omega)]
          constructor
          · rintro ⟨j, hj, h⟩
            exact ⟨j, Nat.lt_succ_of_lt hj, h⟩
          · rintro ⟨j, hj, hvj, h⟩
            rcases Nat.lt_succ_iff_lt_or_eq.1 hj with hj | rfl
            · exact ⟨j, hj, hvj, h⟩
            · rw [hv] at hvj
              cases hvj

theorem Copied.newFrame_mem (h : Copied m₀ w wc b pageTableLen m) (hj : j < pageTableLen) (hv : (w.read m₀ j).valid = true) :
    newFrame m₀ w j ∈ taken m₀ w pageTableLen := (mem_taken_iff h.enough).2 ⟨j, hj, hv, rfl⟩

theorem Copied.valid_iff (h : Copied m₀ w wc b pageTableLen m) (hj : j < pageTableLen) :
    (wc.read m j).valid = (w.read m₀ j).valid := by
  rw [h.child, if_pos hj, copiedEntry]
  cases hv : (w.read m₀ j).valid <;> rfl

theorem Copied.pfn (h : Copied m₀ w wc b pageTableLen m) (hsmall : m₀.numPages < 2 ^ 20) (hj : j < pageTableLen)
    (hv : (w.read m₀ j).valid = true) : (wc.read m j).pfn.toNat = newFrame m₀ w j := by
  rw [h.child, if_pos hj, copiedEntry, if_pos hv]
  exact pfn_frame hsmall (mem_taken h (h.newFrame_mem hj hv)).1

theorem Copied.installed (h : Copied m₀ w wc b pageTableLen m) (hsmall : m₀.numPages < 2 ^ 20) :
    (∃ j < pageTableLen, (wc.read m j).valid = true ∧ (wc.read m j).pfn.toNat = f) ↔ f ∈ taken m₀ w pageTableLen := by
  rw [mem_taken_iff h.enough]
  refine exists_congr fun j => and_congr_right fun hj => ?_
  rw [h.valid_iff hj]
  exact and_congr_right fun hv => by rw [h.pfn hsmall hj hv]

end Yalnix.ForkLoop
