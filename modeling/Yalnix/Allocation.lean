import Yalnix.Layout

namespace Yalnix.Allocation

open Loops Machine AddressSpace Accesses FreeList

variable {m m' u : Memory} {t : TablePtr} {w : Word} {fs gs l : List Nat} {f j k n p start : Nat} {uprot kprot : BitVec 3}

/-- The allocator has handed out the frames `fs`, in this order. -/
structure Takes (fs : List Nat) (m m' : Memory) : Prop where
  numPages : m'.numPages = m.numPages
  list : freeList m = fs ++ freeList m'
  marks : ∀ p, m'.freePages p = if p ∈ fs then .pageUsed else m.freePages p
  count : m'.numFreePages = m.numFreePages - fs.length

namespace Takes

theorem same (h : SameMarks m m') : Takes [] m m' :=
  ⟨h.numPages, h.list.symm, fun p => by rw [h.freePages]; simp, by rw [h.numFreePages]; simp⟩

theorem one (hl : freeList m = f :: l) : Takes [f] m (take m f) := by
  refine ⟨rfl, by rw [hl, freeList_take hl]; rfl, fun p => ?_, rfl⟩
  change put m.freePages f .pageUsed p = _
  rw [put_apply]
  simp only [List.mem_singleton]

theorem append (h : Takes fs m u) (h' : Takes gs u m') : Takes (fs ++ gs) m m' := by
  refine ⟨h'.numPages.trans h.numPages, ?_, fun p => ?_, ?_⟩
  · rw [h.list, h'.list, List.append_assoc]
  · rw [h'.marks, h.marks]
    by_cases hf : p ∈ fs <;> by_cases hg : p ∈ gs <;> simp [hf, hg]
  · rw [h'.count, h.count, List.length_append]
    omega

theorem marked (h : Takes fs m u) (h' : SameMarks u m') : Takes fs m m' := by
  have := h.append (.same h')
  rwa [List.append_nil] at this

theorem nodup (h : Takes fs m m') : fs.Nodup := by
  have := freeList_nodup m
  rw [h.list] at this
  exact this.of_append_left

theorem mem (h : Takes fs m m') (hf : f ∈ fs) : f < m.numPages ∧ m.freePages f = .pageFree :=
  mem_freeList.1 (h.list ▸ List.mem_append_left _ hf)

theorem used (h : Takes fs m m') (hf : f ∈ fs) : m'.freePages f = .pageUsed := by
  rw [h.marks, if_pos hf]

theorem others (h : Takes fs m m') (hf : f ∉ fs) : m'.freePages f = m.freePages f := by
  rw [h.marks, if_neg hf]

end Takes

structure Maps (n : Nat) (m m' : Memory) : Prop where
  list : freeList m' = (freeList m).drop n
  used : ∀ f, m.freePages f = .pageUsed → m'.freePages f = .pageUsed
  valid : ∀ (w : Word) j, (w.read m j).valid = true → (w.read m' j).valid = true
  region1Pt : m'.region1Pt = m.region1Pt
  fixed : Fixed m m'

theorem Maps.refl (m : Memory) : Maps 0 m m :=
  ⟨List.drop_zero.symm, fun _ h => h, fun _ _ h => h, rfl, .refl m⟩

theorem Maps.trans (h : Maps n m u) (h' : Maps k u m') : Maps (n + k) m m' := by
  refine ⟨?_, fun f hf => h'.used f (h.used f hf), fun w j hj => h'.valid w j (h.valid w j hj),
    h'.region1Pt.trans h.region1Pt, h.fixed.trans h'.fixed⟩
  rw [h'.list, h.list, List.drop_drop]

theorem valid_write {w' : Word} {e : Pte} (he : e.valid = true) (hv : (w.read m k).valid = true) :
    (w.read (w'.write m j e) k).valid = true := by
  by_cases hk : k = j
  · by_cases hw : w = w'
    · rw [hk, hw, word_read_write]
      exact he
    · rw [word_read_write_other hw]
      exact hv
  · rw [word_read_write_index hk]
    exact hv

theorem mapPage_maps {i : Int} (h : mapPage t uprot kprot i m = .ok m') : Maps 1 m m' := by
  have hregion1 := mapPage_region1 h
  have hfixed := Fixed.mapPage h
  obtain ⟨j, w', -, -, -, ⟨f, l, hl, rfl⟩ | ⟨hl, rfl⟩⟩ := mapPage_cases h
  · have hmarks := SameMarks.word (take m f) w' j
      { w'.read m j with valid := true, uprot, kprot, pfn := BitVec.ofInt 20 f }
    refine ⟨?_, fun g hg => ?_, fun w k hv => valid_write rfl ?_, hregion1, hfixed⟩
    · rw [hmarks.list, freeList_take hl, hl]
      rfl
    · rw [hmarks.freePages, (Takes.one hl).marks, hg, ite_self]
    · cases w <;> exact hv
  · have hmarks := SameMarks.word m w' j
      { w'.read m j with valid := true, uprot, kprot, pfn := BitVec.ofInt 20 (-1) }
    refine ⟨?_, fun g hg => ?_, fun w k hv => valid_write rfl hv, hregion1, hfixed⟩
    · rw [hmarks.list, hl]
      rfl
    · rw [hmarks.freePages, hg]

theorem mapLoop_maps {g : Nat → Int} (h : upTo (fun i => mapPage t uprot kprot (g i)) start n m = .ok m') : Maps n m m' := by
  induction n generalizing start m with
  | zero =>
      obtain rfl := Except.ok.inj h
      exact .refl m
  | succ n ih =>
      obtain ⟨u, hu, h⟩ := bind_ok.1 h
      have hboth := (mapPage_maps hu).trans (ih h)
      rwa [Nat.add_comm] at hboth

theorem mapPage_take (uprot kprot : BitVec 3) (hw : Leads m t w) (hj : j < pageTableLen) (hl : freeList m = f :: l) :
    mapPage t uprot kprot j m = .ok (w.write (take m f) j
      { w.read m j with valid := true, uprot, kprot, pfn := BitVec.ofInt 20 f }) := by
  rcases findFreePage_list m with ⟨f', l', hl', hfind⟩ | ⟨hl', -⟩
  · obtain ⟨rfl, -⟩ := List.cons.inj (hl.symm.trans hl')
    refine mapPage_ok.2 ⟨w.read m j, readPte_ok.2 ⟨j, w, rfl, hj, hw, rfl⟩, ?_⟩
    rw [hfind]
    exact writePte_ok.2 ⟨j, w, rfl, hj, leads_congr hw rfl fun _ _ => rfl, rfl⟩
  · rw [hl] at hl'
    cases hl'

structure Fills (w : Word) (uprot kprot : BitVec 3) (start : Nat) (fs : List Nat) (m m' : Memory) : Prop where
  takes : Takes fs m m'
  mapped : ∀ k f : Nat, fs[k]? = some f →
    w.read m' (start + k) = { w.read m (start + k) with valid := true, uprot, kprot, pfn := BitVec.ofInt 20 f }
  others : ∀ j, j < start ∨ start + fs.length ≤ j → w.read m' j = w.read m j
  words : ∀ w' ≠ w, ∀ j, w'.read m' j = w'.read m j
  region1Pt : m'.region1Pt = m.region1Pt
  fixed : Fixed m m'

namespace Fills

theorem nil (w : Word) (uprot kprot : BitVec 3) (start : Nat) (m : Memory) : Fills w uprot kprot start [] m m :=
  ⟨.same (.refl m), nofun, fun _ _ => rfl, fun _ _ _ => rfl, rfl, .refl m⟩

theorem cons (hl : freeList m = f :: l) (h : Fills w uprot kprot (start + 1) fs
      (w.write (take m f) start { w.read m start with valid := true, uprot, kprot, pfn := BitVec.ofInt 20 f }) m') :
    Fills w uprot kprot start (f :: fs) m m' := by
  have hsame : SameMarks (take m f) (w.write (take m f) start
      { w.read m start with valid := true, uprot, kprot, pfn := BitVec.ofInt 20 f }) := .word ..
  have hread {j : Nat} (hj : j ≠ start) : w.read (w.write (take m f) start
      { w.read m start with valid := true, uprot, kprot, pfn := BitVec.ofInt 20 f }) j = w.read m j := by
    rw [word_read_write_of_ne hj]
    exact Layout.word_read_mark ..
  refine ⟨((Takes.one hl).marked hsame).append h.takes, fun k g hk => ?_, fun j hj => ?_, fun w' hne j => ?_, ?_, ?_⟩
  · cases k with
    | zero =>
        obtain rfl := Option.some.inj hk
        rw [Nat.add_zero, h.others start (.inl (Nat.lt_succ_self _)), word_read_write]
    | succ k =>
        have := h.mapped k g hk
        rw [show start + 1 + k = start + (k + 1) by omega, hread (by omega)] at this
        exact this
  · rw [List.length_cons] at hj
    rw [h.others j (by omega), hread (by omega)]
  · rw [h.words w' hne, word_read_write_other hne]
    exact Layout.word_read_mark ..
  · rw [h.region1Pt, word_write_region1]
    rfl
  · refine Fixed.trans ?_ h.fixed
    cases w <;> exact ⟨rfl, rfl, rfl, rfl, rfl, rfl⟩

theorem mapped_pfn (h : Fills w uprot kprot start fs m m') (hsmall : m.numPages < 2 ^ 20) (hk : fs[k]? = some f) :
    (w.read m' (start + k)).pfn.toNat = f := by
  rw [h.mapped k f hk]
  exact pfn_frame hsmall (h.takes.mem (List.mem_of_getElem? hk)).1

theorem valid (h : Fills w uprot kprot start fs m m') (hj : start ≤ j) (hj' : j < start + fs.length) :
    (w.read m' j).valid = true := by
  obtain ⟨k, rfl⟩ := Nat.exists_eq_add_of_le hj
  rw [h.mapped k fs[k] (List.getElem?_eq_getElem (by omega))]

theorem leads (h : Fills w uprot kprot start fs m m') {t : TablePtr} {w' : Word} (hw : Leads m t w') : Leads m' t w' :=
  leads_congr hw h.fixed.numPages fun _ _ => by rw [h.region1Pt]

end Fills

theorem mapLoop_fills (uprot kprot : BitVec 3) (start n : Nat) (hw : Leads m t w) (hn : start + n ≤ pageTableLen) (hfree : n ≤ (freeList m).length) :
    ∃ m' fs, upTo (fun i => mapPage t uprot kprot i) start n m = .ok m' ∧ fs.length = n ∧
      Fills w uprot kprot start fs m m' := by
  induction n generalizing start m with
  | zero => exact ⟨m, [], rfl, rfl, .nil w uprot kprot start m⟩
  | succ n ih =>
      obtain ⟨f, l, hl⟩ := List.exists_cons_of_length_pos (l := freeList m) (by omega)
      have hmap := mapPage_take uprot kprot hw (show start < pageTableLen by omega) hl
      have hlist : freeList (w.write (take m f) start
          { w.read m start with valid := true, uprot, kprot, pfn := BitVec.ofInt 20 f }) = l :=
        ((SameMarks.word ..).list).trans (freeList_take hl)
      obtain ⟨m', fs, hm', hlen, hfills⟩ := ih (start + 1)
        (m := w.write (take m f) start { w.read m start with valid := true, uprot, kprot, pfn := BitVec.ofInt 20 f })
        (leads_congr hw (word_write_numPages ..) fun _ _ => by rw [word_write_region1]; rfl) (by omega) (by
          rw [hlist]
          rw [hl, List.length_cons] at hfree
          omega)
      exact ⟨m', f :: fs, bind_ok.2 ⟨_, hmap, hm'⟩, by rw [List.length_cons, hlen], .cons hl hfills⟩

structure Returns (fs : List Nat) (m m' : Memory) : Prop where
  numPages : m'.numPages = m.numPages
  marks : ∀ p, m'.freePages p = if p ∈ fs then .pageFree else m.freePages p
  count : m'.numFreePages = m.numFreePages + fs.length

namespace Returns

theorem same (h : SameMarks m m') : Returns [] m m' :=
  ⟨h.numPages, fun p => by rw [h.freePages]; simp, by rw [h.numFreePages]; simp⟩

theorem append (h : Returns fs m u) (h' : Returns gs u m') : Returns (fs ++ gs) m m' := by
  refine ⟨h'.numPages.trans h.numPages, fun p => ?_, ?_⟩
  · rw [h'.marks, h.marks]
    by_cases hf : p ∈ fs <;> by_cases hg : p ∈ gs <;> simp [hf, hg]
  · rw [h'.count, h.count, List.length_append]
    omega

theorem marked (h : Returns fs m u) (h' : SameMarks u m') : Returns fs m m' := by
  have := h.append (.same h')
  rwa [List.append_nil] at this

end Returns

theorem freePage_returns (hf : f < m.numPages) :
    freePage (f : Nat) m = .ok { setMark m f .pageFree with numFreePages := m.numFreePages + 1 } ∧
      Returns [f] m { setMark m f .pageFree with numFreePages := m.numFreePages + 1 } := by
  refine ⟨freePage_ok.2 ⟨f, rfl, hf, rfl⟩, rfl, fun p => ?_, rfl⟩
  change put m.freePages f .pageFree p = _
  rw [put_apply]
  simp only [List.mem_singleton]

def InUse (m : Memory) (f : Nat) : Prop := f < m.numPages ∧ m.freePages f = .pageUsed

structure NamedUsed (m : Memory) : Prop where
  region1 : ∀ i < pageTableLen, (m.region1Pt i).valid = true → InUse m (m.region1Pt i).pfn.toNat
  region0 : ∀ p w, Leads m (m.space p).region0 w → ∀ j < pageTableLen, (w.read m j).valid = true →
    InUse m (w.read m j).pfn.toNat

end Yalnix.Allocation
