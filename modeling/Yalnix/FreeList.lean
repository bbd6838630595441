import Yalnix.Accesses
import Mathlib.Data.List.Nodup

namespace Yalnix.FreeList

open Loops Machine AddressSpace LoadProgram Accesses

variable {m m' : Memory} {t : TablePtr} {i : Int} {f j n : Nat} {e : Pte}

/-- The frames marked free, in the order in which `findFreePage` hands them out. -/
def freeList (m : Memory) : List Nat := (List.range m.numPages).filter fun page => m.freePages page = .pageFree

theorem mem_freeList : f ∈ freeList m ↔ f < m.numPages ∧ m.freePages f = .pageFree := by
  simp [freeList]

theorem freeList_nodup (m : Memory) : (freeList m).Nodup := List.nodup_range.filter _

theorem freeList_congr (hn : m'.numPages = m.numPages) (hf : m'.freePages = m.freePages) : freeList m' = freeList m := by
  rw [freeList, freeList, hn, hf]

theorem lowestFree_eq (m : Memory) : lowestFree m = (freeList m).head? := by
  rw [lowestFree, freeList, List.head?_filter]

theorem freeList_use (m : Memory) (f : Nat) : freeList (setMark m f .pageUsed) = (freeList m).erase f := by
  rw [(freeList_nodup m).erase_eq_filter, freeList, freeList, List.filter_filter]
  refine List.filter_congr fun page _ => ?_
  by_cases h : page = f <;> simp [setMark, h]

theorem freeList_free (hf : f < m.numPages) (hu : m.freePages f = .pageUsed) :
    (freeList (setMark m f .pageFree)).erase f = freeList m ∧ f ∈ freeList (setMark m f .pageFree) := by
  refine ⟨?_, mem_freeList.2 ⟨hf, put_self ..⟩⟩
  rw [← freeList_use]
  apply freeList_congr
  · rfl
  · funext page
    by_cases h : page = f <;> simp [setMark, h, hu]

theorem length_free (hf : f < m.numPages) (hu : m.freePages f = .pageUsed) :
    (freeList (setMark m f .pageFree)).length = (freeList m).length + 1 := by
  obtain ⟨herase, hmem⟩ := freeList_free hf hu
  rw [← herase, List.length_erase_of_mem hmem]
  have := List.length_pos_of_mem hmem
  omega

def take (m : Memory) (f : Nat) : Memory := { setMark m f .pageUsed with numFreePages := m.numFreePages - 1 }

theorem freeList_take {l : List Nat} (h : freeList m = f :: l) : freeList (take m f) = l := by
  have hlist : freeList (setMark m f .pageUsed) = l := by
    rw [freeList_use, h, List.erase_cons_head]
  exact (freeList_congr rfl rfl).trans hlist

theorem findFreePage_list (m : Memory) :
    (∃ f l, freeList m = f :: l ∧ findFreePage m = ((f : Int), take m f)) ∨ (freeList m = [] ∧ findFreePage m = (-1, m)) := by
  rcases findFreePage_cases m with ⟨page, hp, h⟩ | ⟨hn, h⟩
  · rw [lowestFree_eq, List.head?_eq_some_iff] at hp
    obtain ⟨l, hl⟩ := hp
    exact .inl ⟨page, l, hl, h⟩
  · rw [lowestFree_eq, List.head?_eq_none_iff] at hn
    exact .inr ⟨hn, h⟩

theorem head_free {l : List Nat} (h : freeList m = f :: l) : f < m.numPages ∧ m.freePages f = .pageFree :=
  mem_freeList.1 (h ▸ List.mem_cons_self)

/-- `mapPage` gives the entry the first free frame, or the number -1 as a frame. -/
theorem mapPage_cases {uprot kprot : BitVec 3} (h : mapPage t uprot kprot i m = .ok m') :
    ∃ j w, i = (j : Nat) ∧ j < pageTableLen ∧ Leads m t w ∧
      ((∃ f l, freeList m = f :: l ∧ m' = w.write (take m f) j
          { w.read m j with valid := true, uprot, kprot, pfn := BitVec.ofInt 20 f }) ∨
        (freeList m = [] ∧ m' = w.write m j
          { w.read m j with valid := true, uprot, kprot, pfn := BitVec.ofInt 20 (-1) })) := by
  obtain ⟨e, he, h⟩ := mapPage_ok.1 h
  obtain ⟨j, w, rfl, hj, hw, rfl⟩ := readPte_ok.1 he
  refine ⟨j, w, rfl, hj, hw, ?_⟩
  rcases findFreePage_list m with ⟨f, l, hl, hfind⟩ | ⟨hl, hfind⟩
  · refine .inl ⟨f, l, hl, ?_⟩
    rw [hfind] at h
    obtain ⟨j', w', hj', -, hw', rfl⟩ := writePte_ok.1 h
    obtain rfl := Int.ofNat.inj hj'
    have hlead : Leads (take m f) t w := leads_congr hw rfl fun _ _ => rfl
    obtain rfl := leads_unique hlead hw'
    rfl
  · refine .inr ⟨hl, ?_⟩
    rw [hfind] at h
    obtain ⟨j', w', hj', -, hw', rfl⟩ := writePte_ok.1 h
    obtain rfl := Int.ofNat.inj hj'
    obtain rfl := leads_unique hw hw'
    rfl

theorem mapPage_region1 {uprot kprot : BitVec 3} (h : mapPage t uprot kprot i m = .ok m') :
    m'.region1Pt = m.region1Pt := by
  obtain ⟨j, w, -, -, -, ⟨f, l, -, rfl⟩ | ⟨-, rfl⟩⟩ := mapPage_cases h
  · exact word_write_region1 ..
  · exact word_write_region1 ..

theorem mapKernelPage_cases (h : mapKernelPage i m = .ok m') :
    ∃ k, i = (k : Nat) ∧ k < pageTableLen ∧
      ((∃ f l, freeList m = f :: l ∧ m' = writeRegion1 (take m f) k { m.region1Pt k with
          pfn := BitVec.ofInt 20 f, uprot := protNone, valid := true, kprot := protRead ||| protWrite }) ∨
        (freeList m = [] ∧ m' = writeRegion1 m k { m.region1Pt k with
          pfn := BitVec.ofInt 20 (-1), uprot := protNone, valid := true, kprot := protRead ||| protWrite })) := by
  unfold mapKernelPage at h
  rcases findFreePage_list m with ⟨f, l, hl, hfind⟩ | ⟨hl, hfind⟩
  · rw [hfind] at h
    obtain ⟨k, hk, hm⟩ := bind_ok.1 h
    obtain ⟨rfl, hlt⟩ := index_ok.1 hk
    obtain rfl := Except.ok.inj hm
    exact ⟨k, rfl, hlt, .inl ⟨f, l, hl, rfl⟩⟩
  · rw [hfind] at h
    obtain ⟨k, hk, hm⟩ := bind_ok.1 h
    obtain ⟨rfl, hlt⟩ := index_ok.1 hk
    obtain rfl := Except.ok.inj hm
    exact ⟨k, rfl, hlt, .inr ⟨hl, rfl⟩⟩

theorem pfn_frame (hsmall : m.numPages < 2 ^ 20) (hf : f < m.numPages) : (BitVec.ofInt 20 (f : Int)).toNat = f := by
  rw [BitVec.ofInt_natCast, BitVec.toNat_ofNat]
  exact Nat.mod_eq_of_lt (Nat.lt_trans hf hsmall)

theorem pfn_none : (BitVec.ofInt 20 (-1)).toNat = 2 ^ 20 - 1 := by decide

/-- The memory in which `forkPage` copies the page: the entry of the child and
the borrowed page have the frame `f`. -/
def withFrame (m : Memory) (wc : Word) (p : Pte) (borrowed page f : Nat) : Memory :=
  let u := wc.write (take m f) page
    { wc.read m page with valid := true, uprot := p.uprot, kprot := p.kprot, pfn := BitVec.ofInt 20 f }
  writeRegion1 u borrowed { u.region1Pt borrowed with pfn := BitVec.ofInt 20 f }

theorem withFrame_read {k : Nat} (h : k ≠ j) (m : Memory) (w wc : Word) (p : Pte) (b f : Nat) :
    w.read (withFrame m wc p b j f) k = w.read m k := by
  refine Eq.trans ?_ (word_read_write_index h m wc w
    { wc.read m j with valid := true, uprot := p.uprot, kprot := p.kprot, pfn := BitVec.ofInt 20 f })
  cases w <;> cases wc <;> rfl

/-- Without a frame for the page the copy faults, as there is no frame -1. -/
theorem forkPage_ok {parent child borrowed page : Nat} (hsmall : m.numPages < 2 ^ 20)
    (h : forkPage parent child borrowed page m = .ok m') :
    ∃ w wc, Leads m (m.space parent).region0 w ∧ Leads m (m.space child).region0 wc ∧ page < pageTableLen ∧
      (((w.read m page).valid = true ∧ ∃ f l source, freeList m = f :: l ∧
          let u := withFrame m wc (w.read m page) borrowed page f
          userFrame u page = .ok source ∧ kernelFrame u (pageTableLen + borrowed) = .ok f ∧
          m' = { u with frames := put u.frames f (u.frames source) }) ∨
        ((w.read m page).valid = false ∧ m' = wc.write m page { wc.read m page with valid := false })) := by
  obtain ⟨p, hp, h⟩ := bind_ok.1 h
  obtain ⟨j, w, hj, hlt, hw, rfl⟩ := readPte_ok.1 hp
  obtain rfl := Int.ofNat.inj hj
  split at h
  case isTrue hv =>
    obtain ⟨u, hu, h⟩ := bind_ok.1 h
    obtain ⟨c, hc, h⟩ := bind_ok.1 h
    obtain ⟨j, wc, hj, -, hwc, hmap⟩ := mapPage_cases hu
    obtain rfl := Int.ofNat.inj hj
    have hspace : u.space = m.space := (Fixed.mapPage hu).space
    have hread (m₁ : Memory) (hn : m₁.numPages = m.numPages) (hr : m₁.region1Pt = m.region1Pt) (e : Pte)
        (hu : u = wc.write m₁ page e) : c = e := by
      obtain ⟨j, wc', hj, -, hwc', rfl⟩ := readPte_ok.1 hc
      obtain rfl := Int.ofNat.inj hj
      have hlead : Leads u (m.space child).region0 wc := by
        rw [hu]
        apply leads_congr hwc
        · rw [word_write_numPages, hn]
        · intro pg _
          rw [word_write_region1, hr]
      rw [hspace] at hwc'
      rw [leads_unique hwc' hlead, hu, word_read_write]
    obtain ⟨source, dest, hs, hd, hm'⟩ := copyPage_ok.1 h
    refine ⟨w, wc, hw, hwc, hlt, .inl ⟨hv, ?_⟩⟩
    rcases hmap with ⟨f, l, hl, hu'⟩ | ⟨-, hu'⟩
    · obtain rfl := hread (take m f) rfl rfl _ hu'
      subst hu'
      have hdest : dest = f := by
        obtain ⟨-, -, hd, -⟩ := kernelFrame_ok.1 hd
        rw [Nat.add_sub_cancel_left] at hd
        rw [← hd]
        simp only [writeRegion1, put_self]
        exact pfn_frame hsmall (head_free hl).1
      subst hdest
      exact ⟨dest, l, source, hl, hs, hd, hm'⟩
    · exfalso
      obtain rfl := hread m rfl rfl _ hu'
      obtain ⟨-, -, hd, hlt⟩ := kernelFrame_ok.1 hd
      rw [Nat.add_sub_cancel_left] at hd
      simp only [writeRegion1, put_self, pfn_none] at hd
      have hn : u.numPages = m.numPages := (Fixed.mapPage hu).numPages
      change dest < u.numPages at hlt
      omega
  case isFalse hv =>
    obtain ⟨c, hc, h⟩ := bind_ok.1 h
    obtain ⟨j, wc, hj, -, hwc, rfl⟩ := readPte_ok.1 hc
    obtain rfl := Int.ofNat.inj hj
    obtain ⟨j, wc', hj, -, hwc', rfl⟩ := writePte_ok.1 h
    obtain rfl := Int.ofNat.inj hj
    obtain rfl := leads_unique hwc hwc'
    exact ⟨w, wc, hw, hwc, hlt, .inr ⟨Bool.eq_false_iff.2 hv, rfl⟩⟩

structure SameMarks (m m' : Memory) : Prop where
  numPages : m'.numPages = m.numPages
  freePages : m'.freePages = m.freePages
  numFreePages : m'.numFreePages = m.numFreePages

namespace SameMarks

theorem refl (m : Memory) : SameMarks m m := ⟨rfl, rfl, rfl⟩

theorem trans {m₁ m₂ m₃ : Memory} (h : SameMarks m₁ m₂) (h' : SameMarks m₂ m₃) : SameMarks m₁ m₃ :=
  ⟨h'.numPages.trans h.numPages, h'.freePages.trans h.freePages, h'.numFreePages.trans h.numFreePages⟩

theorem list (h : SameMarks m m') : freeList m' = freeList m := freeList_congr h.numPages h.freePages

theorem upTo {body : Nat → Memory → Except Fault Memory} {start : Nat}
    (hstep : ∀ i m m', body i m = .ok m' → SameMarks m m') (h : upTo body start n m = .ok m') : SameMarks m m' :=
  upTo_relation SameMarks refl (fun _ _ _ => trans) (fun i s t _ _ => hstep i s t) h

theorem word (m : Memory) (w : Word) (j : Nat) (e : Pte) : SameMarks m (w.write m j e) := by
  cases w <;> exact ⟨rfl, rfl, rfl⟩

theorem writePte (h : writePte t i e m = .ok m') : SameMarks m m' := by
  obtain ⟨k, w, -, -, -, rfl⟩ := writePte_ok.1 h
  exact word ..

theorem storeByte {vaddr : Nat} {x : BitVec 8} (h : storeByte vaddr x m = .ok m') : SameMarks m m' := by
  obtain ⟨f, -, h⟩ := bind_ok.1 h
  obtain ⟨e, -, h⟩ := bind_ok.1 h
  obtain ⟨-, h⟩ := ite_error_ok.1 h
  obtain rfl := Except.ok.inj h
  exact ⟨rfl, rfl, rfl⟩

end SameMarks

end Yalnix.FreeList
