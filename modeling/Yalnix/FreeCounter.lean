import Yalnix.FreeList
import Yalnix.Runs

namespace Yalnix.FreeCounter

open Loops Machine AddressSpace LoadProgram Accesses FreeList

def countFree (m : Memory) : Nat := (List.range m.numPages).countP fun page => m.freePages page = .pageFree

def Exact (m : Memory) : Prop := m.numFreePages = countFree m

def excess (m : Memory) : Int := m.numFreePages - countFree m

variable {m m' : Memory} {t : TablePtr} {i : Int} {f j n : Nat} {e : Pte}

theorem exact_iff : Exact m ↔ excess m = 0 := by
  rw [Exact, excess]
  omega

theorem excess_list (m : Memory) : excess m = m.numFreePages - (freeList m).length := by
  rw [excess, countFree, List.countP_eq_length_filter]
  rfl

theorem excess_congr (h : SameMarks m m') : excess m' = excess m := by
  rw [excess_list, excess_list, h.numFreePages, h.list]

theorem excess_take {l : List Nat} (h : freeList m = f :: l) : excess (take m f) = excess m := by
  rw [excess_list, excess_list, freeList_take h, h, List.length_cons]
  change m.numFreePages - 1 - _ = _
  omega

theorem freePage_excess (hu : ∀ f : Nat, i = f → m.freePages f = .pageUsed) (h : freePage i m = .ok m') :
    excess m' = excess m := by
  obtain ⟨f, hf, hlt, rfl⟩ := freePage_ok.1 h
  have hlen : (freeList { setMark m f .pageFree with numFreePages := m.numFreePages + 1 }).length =
      (freeList m).length + 1 := length_free hlt (hu f hf)
  rw [excess_list, excess_list, hlen]
  change m.numFreePages + 1 - _ = _
  omega

theorem mapPage_excess {uprot kprot : BitVec 3} (h : mapPage t uprot kprot i m = .ok m') : excess m' = excess m := by
  obtain ⟨j, w, -, -, -, ⟨f, l, hl, rfl⟩ | ⟨-, rfl⟩⟩ := mapPage_cases h
  · rw [excess_congr (.word ..), excess_take hl]
  · exact excess_congr (.word ..)

theorem setMark_excess {mark : PageMark} (h : m.freePages f = mark) : excess (setMark m f mark) = excess m := by
  apply excess_congr
  refine ⟨rfl, ?_, rfl⟩
  funext page
  by_cases hp : page = f <;> simp [setMark, hp, h]

theorem upTo_excess {body : Nat → Memory → Except Fault Memory} {start : Nat}
    (hstep : ∀ i m m', body i m = .ok m' → excess m' = excess m) (h : upTo body start n m = .ok m') :
    excess m' = excess m :=
  upTo_relation (fun m m' => excess m' = excess m) (fun _ => rfl) (fun _ _ _ h h' => h'.trans h)
    (fun i m m' _ _ => hstep i m m') h

def Names (m : Memory) (t : TablePtr) (j f : Nat) : Prop :=
  ∃ e, readPte m t j = .ok e ∧ e.valid = true ∧ e.pfn.toNat = f

structure Separate (m : Memory) (t : TablePtr) (n : Nat) : Prop where
  distinct : ∀ j k f, j < n → k < n → Names m t j f → Names m t k f → j = k
  used : ∀ j f, j < n → Names m t j f → m.freePages f = .pageUsed

structure Freeing (m₀ : Memory) (t : TablePtr) (w : Word) (i : Nat) (m : Memory) : Prop where
  leads : Leads m t w
  words : ∀ j, i ≤ j → w.read m j = w.read m₀ j
  marks : ∀ f, (∀ j, j < i → ¬ Names m₀ t j f) → m.freePages f = m₀.freePages f
  excess : excess m = excess m₀

theorem names_of_leads {w : Word} (hw : Leads m t w) (hj : j < pageTableLen) :
    Names m t j f ↔ (w.read m j).valid = true ∧ (w.read m j).pfn.toNat = f := by
  have hread : readPte m t j = .ok (w.read m j) := readPte_ok.2 ⟨j, w, rfl, hj, hw, rfl⟩
  unfold Names
  rw [hread]
  simp

theorem freeing_free {m₀ : Memory} {w : Word} {k : Nat} (hw : Leads m₀ t w) (hs : Separate m₀ t n) (hn : n ≤ pageTableLen)
    (hk : k < n) (hm : Freeing m₀ t w k m) (hv : (w.read m k).valid = true)
    (h : freePage ((w.read m k).pfn.toNat : Nat) m = .ok m') : Freeing m₀ t w (k + 1) m' := by
  have hnames : Names m₀ t k (w.read m k).pfn.toNat := by
    rw [hm.words k (Nat.le_refl _)] at hv ⊢
    exact (names_of_leads hw (by omega)).2 ⟨hv, rfl⟩
  have hused : m.freePages (w.read m k).pfn.toNat = .pageUsed := by
    rw [hm.marks _ fun j hj hj' => ?_]
    · exact hs.used k _ hk hnames
    · have := hs.distinct j k _ (by omega) hk hj' hnames
      omega
  have hexcess := freePage_excess (fun f hf => by rw [← Int.ofNat.inj hf]; exact hused) h
  obtain ⟨f, hf, hlt, rfl⟩ := freePage_ok.1 h
  obtain rfl := Int.ofNat.inj hf
  refine ⟨leads_congr hm.leads rfl fun _ _ => rfl, fun j hj => ?_, fun f hf => ?_, hexcess.trans hm.excess⟩
  · rw [← hm.words j (by omega)]
    cases w <;> rfl
  · have hne : f ≠ (w.read m k).pfn.toNat := by
      intro he
      exact hf k (Nat.lt_succ_self k) (he ▸ hnames)
    exact (put_of_ne hne ..).trans (hm.marks f fun j hj => hf j (by omega))

theorem freeing_skip {m₀ : Memory} {w : Word} {k : Nat} (hm : Freeing m₀ t w k m) : Freeing m₀ t w (k + 1) m :=
  ⟨hm.leads, fun j hj => hm.words j (by omega), fun f hf => hm.marks f fun j hj => hf j (by omega), hm.excess⟩

theorem freeing_write {m₀ : Memory} {w : Word} {k : Nat} (hm : Freeing m₀ t w (k + 1) m) (e : Pte) :
    Freeing m₀ t w (k + 1) (w.write m k e) := by
  have hmarks : SameMarks m (w.write m k e) := .word ..
  refine ⟨?_, fun j hj => ?_, fun f hf => ?_, (excess_congr hmarks).trans hm.excess⟩
  · exact leads_congr hm.leads (word_write_numPages ..) fun _ _ => by rw [word_write_region1]
  · rw [word_read_write_of_ne (by omega), hm.words j hj]
  · rw [hmarks.freePages, hm.marks f hf]

theorem freeEntry_freeing {m₀ : Memory} {w : Word} {k : Nat} (hw : Leads m₀ t w) (hs : Separate m₀ t kernelStackBase)
    (hk : k < pageTableLen) (hm : Freeing m₀ t w k m) (h : freeEntry t k m = .ok m') : Freeing m₀ t w (k + 1) m' := by
  unfold freeEntry at h
  split at h
  case isTrue hlow =>
    have hlow : k < kernelStackBase := by
      simp only [vmem1Base, pageTableLen, pageSize] at hlow hk
      omega
    obtain ⟨e, he, h⟩ := bind_ok.1 h
    obtain ⟨k', w', hk', -, hw', rfl⟩ := readPte_ok.1 he
    obtain rfl := Int.ofNat.inj hk'
    obtain rfl := leads_unique hm.leads hw'
    split at h
    case isTrue hv =>
      obtain ⟨u, hu, h⟩ := bind_ok.1 h
      have hfree := freeing_free hw hs (by decide) hlow hm hv hu
      obtain ⟨k'', w'', hk'', -, hw'', rfl⟩ := writePte_ok.1 h
      obtain rfl := Int.ofNat.inj hk''
      obtain rfl := leads_unique hfree.leads hw''
      exact freeing_write hfree _
    case isFalse =>
      obtain rfl := Except.ok.inj h
      exact freeing_skip hm
  case isFalse =>
    obtain rfl := Except.ok.inj h
    exact freeing_skip hm

theorem exitPage_freeing {m₀ : Memory} {w : Word} {k proc : Nat} (ht : t = (m.space proc).region0) (hw : Leads m₀ t w)
    (hs : Separate m₀ t pageTableLen) (hk : k < pageTableLen) (hm : Freeing m₀ t w k m)
    (h : exitPage proc k m = .ok m') : Freeing m₀ t w (k + 1) m' := by
  obtain ⟨e, he, h⟩ := bind_ok.1 h
  rw [← ht] at he
  obtain ⟨k', w', hk', -, hw', rfl⟩ := readPte_ok.1 he
  obtain rfl := Int.ofNat.inj hk'
  obtain rfl := leads_unique hm.leads hw'
  split at h
  case isTrue hv => exact freeing_free hw hs (Nat.le_refl _) hk hm hv h
  case isFalse =>
    obtain rfl := Except.ok.inj h
    exact freeing_skip hm

theorem freeing_start {w : Word} (hw : Leads m t w) : Freeing m t w 0 m := ⟨hw, fun _ _ => rfl, fun _ _ => rfl, rfl⟩

theorem freeAll_excess (hs : Separate m t kernelStackBase) (h : upTo (freeEntry t) 0 pageTableLen m = .ok m') :
    excess m' = excess m := by
  have h' : upTo (freeEntry t) 0 (511 + 1) m = .ok m' := h
  obtain ⟨w, hw⟩ : ∃ w, Leads m t w := by
    obtain ⟨u, hu, -⟩ := bind_ok.1 h'
    obtain ⟨e, he, -⟩ := bind_ok.1 hu
    obtain ⟨j, w, -, -, hw, -⟩ := readPte_ok.1 he
    exact ⟨w, hw⟩
  refine Freeing.excess (upTo_invariant (Freeing m t w) (fun k m₁ m₂ _ hk hm hstep => ?_) (freeing_start hw) h)
  exact freeEntry_freeing hw hs (by omega) hm hstep

theorem layOut_excess {cfg : Config} {z : Sizes} (hs : Separate m t kernelStackBase) (h : layOut cfg t z m = .ok m') :
    excess m' = excess m := by
  obtain ⟨m₁, h₁, h⟩ := bind_ok.1 h
  obtain ⟨m₂, h₂, h⟩ := bind_ok.1 h
  obtain ⟨m₃, h₃, h⟩ := bind_ok.1 h
  obtain ⟨m₄, h₄, h⟩ := bind_ok.1 h
  have hinvalid : excess m₂ = excess m₁ := upTo_excess (fun i m m' hi => by
    obtain ⟨e, -, hi⟩ := bind_ok.1 hi
    exact excess_congr (.writePte hi)) h₂
  calc excess m' = excess m₄ := upTo_excess (fun _ _ _ => mapPage_excess) h
    _ = excess m₃ := upTo_excess (fun _ _ _ => mapPage_excess) h₄
    _ = excess m₂ := upTo_excess (fun _ _ _ => mapPage_excess) h₃
    _ = excess m₁ := hinvalid
    _ = excess m := freeAll_excess hs h₁

theorem loadProgram_excess {curr : Nat} {file : Option File} {args : List (List (BitVec 8))}
    {info info' : ExceptionInfo} {r : Int} (hs : ∀ li, Passes file args m li → Separate m t kernelStackBase)
    (h : loadProgram curr t file args info m = .ok (r, info', m')) : excess m' = excess m := by
  rcases loadProgram_ok h with ⟨-, -, rfl⟩ | ⟨f, li, hf, hst, hv, ⟨-, -, -, rfl⟩ | ⟨hp, m₁, h₁, h₂⟩⟩
  · rfl
  · rfl
  · have hsep := hs li ⟨⟨f, hf, hst⟩, hv, hp⟩
    have hmarks : SameMarks (setSpace m₁ curr { m₁.space curr with sp := newSp m₁.cfg (sizes m.cfg li args) }) m' := by
      refine fill_relation .refl (fun _ _ _ => .trans) (fun _ _ _ _ => .storeByte) (fun i m m' hi => ?_) h₂
      obtain ⟨e, -, hi⟩ := bind_ok.1 hi
      exact .writePte hi
    calc excess m' = excess m₁ := (excess_congr hmarks).trans rfl
      _ = excess (setSpace m curr { m.space curr with brk := newBrk (sizes m.cfg li args) }) :=
        layOut_excess ⟨hsep.distinct, hsep.used⟩ h₁
      _ = excess m := rfl

theorem buildRegion0_excess {proc : Nat}
    (hs : ∀ page, freeVirtualPage m = some page → m.freePages (pageTableLen + page) = .pageUsed)
    (h : buildRegion0 proc m = .ok m') : excess m' = excess m := by
  obtain ⟨i, hi, -, -, -, h⟩ := buildRegion0_ok h
  refine (upTo_excess (fun _ _ _ => mapPage_excess) h).trans ?_
  exact setMark_excess (hs i hi)

theorem copyPage_marks {borrowed page : Nat} (h : copyPage borrowed page m = .ok m') : SameMarks m m' := by
  obtain ⟨source, dest, -, -, rfl⟩ := copyPage_ok.1 h
  exact ⟨rfl, rfl, rfl⟩

theorem switchNewProc_excess {proc2 : Nat}
    (hs : ∀ page, borrowPage m = some page → m.freePages (pageTableLen + page) = .pageFree)
    (h : switchNewProc proc2 m = .ok m') : excess m' = excess m := by
  obtain ⟨b, hb, h⟩ := bind_ok.1 h
  obtain ⟨m₁, h₁, h⟩ := bind_ok.1 h
  obtain ⟨m₂, h₂, h⟩ := bind_ok.1 h
  obtain rfl := Except.ok.inj h
  obtain ⟨-, rfl⟩ := returnPage_ok h₂
  have hmarks : SameMarks m m₁ := .upTo (fun i u v hi => by
    obtain ⟨e, -, hi⟩ := bind_ok.1 hi
    have := copyPage_marks hi
    exact ⟨this.numPages, this.freePages, this.numFreePages⟩) h₁
  have hfree : m₁.freePages (pageTableLen + b) = .pageFree := by
    rw [hmarks.freePages]
    exact hs b (borrowR1Page_ok hb)
  refine Eq.trans ?_ (excess_congr hmarks)
  exact setMark_excess (m := writeRegion1 m₁ b (m.region1Pt b)) hfree

/-- The valid ones of the first `n` entries, for each of which `SwitchFork` takes a frame. -/
def validEntries (m : Memory) (w : Word) (n : Nat) : Nat := (List.range n).countP fun j => (w.read m j).valid

theorem validEntries_succ (m : Memory) (w : Word) (n : Nat) :
    validEntries m w (n + 1) = validEntries m w n + (w.read m n).valid.toNat := by
  rw [validEntries, List.range_succ, List.countP_append]
  cases h : (w.read m n).valid <;> simp [validEntries, h]

def Kept (m : Memory) (w : Word) : Prop := ∀ f, w = .frame f → m.freePages f = .pageUsed

structure Forking (m₀ : Memory) (parent borrowed : Nat) (w : Word) (i : Nat) (m : Memory) : Prop where
  space : m.space = m₀.space
  numPages : m.numPages = m₀.numPages
  leads : Leads m (m₀.space parent).region0 w
  words : ∀ j, i ≤ j → w.read m j = w.read m₀ j
  list : freeList m = (freeList m₀).drop (validEntries m₀ w i)
  excess : excess m = excess m₀

theorem mem_drop {l : List Nat} {m₀ : Memory} (h : freeList m = (freeList m₀).drop n) (hl : freeList m = f :: l) :
    f ∈ freeList m₀ :=
  List.mem_of_mem_drop (h ▸ hl ▸ List.mem_cons_self)

theorem forkPage_forking {m₀ : Memory} {parent child b page : Nat} {w : Word} (hsmall : m₀.numPages < 2 ^ 20)
    (hkept : Kept m₀ w) (hb : ∀ pg, (m₀.space parent).region0 = .page pg → pg - pageTableLen ≠ b)
    (hm : Forking m₀ parent b w page m) (h : forkPage parent child b page m = .ok m') :
    Forking m₀ parent b w (page + 1) m' := by
  obtain ⟨w', wc, hw', -, -, hcase⟩ := forkPage_ok (hm.numPages.symm ▸ hsmall) h
  have hfix := Fixed.forkPage h
  rw [hm.space] at hw'
  obtain rfl := leads_unique hm.leads hw'
  rcases hcase with ⟨hv, f, l, source, hl, -, -, rfl⟩ | ⟨hv, rfl⟩
  · have hfree : m₀.freePages f = .pageFree := (mem_freeList.1 (mem_drop hm.list hl)).2
    have hne : w ≠ .frame f := by
      intro he
      rw [hkept f he] at hfree
      cases hfree
    have hmarks : SameMarks (take m f) (withFrame m wc (w.read m page) b page f) := .trans (.word ..) ⟨rfl, rfl, rfl⟩
    refine ⟨hfix.space.trans hm.space, hfix.numPages.trans hm.numPages, ?_, fun j hj => ?_, ?_, ?_⟩
    · apply leads_congr hm.leads hfix.numPages
      intro pg hpg
      simp only [withFrame, writeRegion1, put_of_ne (hb pg hpg), word_write_region1]
      rfl
    · rw [← hm.words j (by omega)]
      exact (word_read_copy hne ..).trans (withFrame_read (by omega) ..)
    · change freeList (withFrame m wc (w.read m page) b page f) = _
      rw [hmarks.list, freeList_take hl, validEntries_succ, ← List.drop_drop, ← hm.list, hl, ← hm.words page (Nat.le_refl _), hv]
      rfl
    · change FreeCounter.excess (withFrame m wc (w.read m page) b page f) = _
      rw [excess_congr hmarks, excess_take hl, hm.excess]
  · refine ⟨hfix.space.trans hm.space, hfix.numPages.trans hm.numPages, ?_, fun j hj => ?_, ?_, ?_⟩
    · exact leads_congr hm.leads (word_write_numPages ..) fun _ _ => by rw [word_write_region1]
    · rw [← hm.words j (by omega)]
      exact word_read_write_index (by omega) ..
    · rw [(SameMarks.word ..).list, hm.list, validEntries_succ, ← hm.words page (Nat.le_refl _), hv]
      rfl
    · rw [excess_congr (.word ..), hm.excess]

/-- The parent's table is in a kept frame, and the frame that `SwitchFork` puts
back is free and not among those it takes. -/
def ForksExact (m : Memory) (parent : Nat) : Prop :=
  ∃ w, Leads m (m.space parent).region0 w ∧ Kept m w ∧ ∀ b, borrowPage m = some b →
    pageTableLen + b ∈ (freeList m).drop (validEntries m w pageTableLen)

theorem switchFork_excess {parent child : Nat} (hsmall : m.numPages < 2 ^ 20) (hs : ForksExact m parent)
    (h : switchFork parent child m = .ok m') : excess m' = excess m := by
  obtain ⟨w, hw, hkept, hfree⟩ := hs
  obtain ⟨b, hb, h⟩ := bind_ok.1 h
  obtain ⟨m₁, h₁, h⟩ := bind_ok.1 h
  obtain ⟨m₂, h₂, h⟩ := bind_ok.1 h
  obtain rfl := Except.ok.inj h
  obtain ⟨-, rfl⟩ := returnPage_ok h₂
  have hb := borrowR1Page_ok hb
  have hne (pg : Nat) (hpg : (m.space parent).region0 = .page pg) : pg - pageTableLen ≠ b := by
    intro he
    have hv := leads_page_valid (hpg ▸ hw)
    rw [he, (borrowPage_some hb).2] at hv
    cases hv
  have hmarks : SameMarks m (writeRegion1 m b (tempEntry (m.region1Pt b))) := ⟨rfl, rfl, rfl⟩
  have hstart : Forking m parent b w 0 (writeRegion1 m b (tempEntry (m.region1Pt b))) := by
    refine ⟨rfl, rfl, ?_, fun j _ => ?_, ?_, excess_congr hmarks⟩
    · exact leads_congr hw rfl fun pg hpg => region1_write_of_ne (hne pg hpg) ..
    · cases w <;> rfl
    · rw [hmarks.list, validEntries]
      rfl
  have hend := upTo_invariant (Forking m parent b w)
    (fun page m₁ m₂ _ _ hm hstep => forkPage_forking hsmall hkept hne hm hstep) hstart h₁
  have hlast : m₁.freePages (pageTableLen + b) = .pageFree := by
    refine (mem_freeList.1 ?_).2
    rw [hend.list, Nat.zero_add]
    exact hfree b hb
  refine Eq.trans ?_ hend.excess
  exact setMark_excess (m := writeRegion1 m₁ b (m.region1Pt b)) hlast

theorem switchExit_excess {proc1 proc2 : Nat} (hs : Separate m (m.space proc1).region0 pageTableLen)
    (h : switchExit proc1 proc2 m = .ok m') : excess m' = excess m := by
  obtain ⟨m₁, h₁, h⟩ := bind_ok.1 h
  obtain rfl := Except.ok.inj h
  have h' : upTo (exitPage proc1) 0 (511 + 1) m = .ok m₁ := h₁
  obtain ⟨w, hw⟩ : ∃ w, Leads m (m.space proc1).region0 w := by
    obtain ⟨u, hu, -⟩ := bind_ok.1 h'
    obtain ⟨e, he, -⟩ := bind_ok.1 hu
    obtain ⟨j, w, -, -, hw, -⟩ := readPte_ok.1 he
    exact ⟨w, hw⟩
  have hend := upTo_invariant (fun k u => Fixed m u ∧ Freeing m (m.space proc1).region0 w k u)
    (fun k m₁ m₂ _ hk hm hstep => ⟨hm.1.trans (.exitPage hstep), exitPage_freeing (by rw [hm.1.space]) hw hs
      (by omega) hm.2 hstep⟩) ⟨.refl m, freeing_start hw⟩ h₁
  exact hend.2.excess

def freedByBrk (m : Memory) (curr addr page : Nat) : Prop :=
  let brk := (m.space curr).brk
  (roundedBrk addr < brk ∧ memInvalidPages ≤ roundedBrk addr) ∧
    brk ≤ page ∧ page < brk + (toInt (brk - roundedBrk addr)).toNat

theorem toInt_page {page : Nat} (h : page < pageTableLen) : toInt page = page := by
  simp only [toInt, pageTableLen] at *
  rw [BitVec.toInt_ofInt]
  exact Int.bmod_eq_of_le (by omega) (by omega)

theorem brkDown_excess {page : Nat} (hu : page < pageTableLen → m.freePages page = .pageUsed)
    (h : brkDown page m = .ok m') : excess m' = excess m ∧ ∀ f, f ≠ page → m'.freePages f = m.freePages f := by
  obtain ⟨u, hu', h⟩ := bind_ok.1 h
  obtain ⟨e, -, h⟩ := bind_ok.1 h
  obtain ⟨j, w, hj, hlt, -, rfl⟩ := writePte_ok.1 h
  obtain rfl := Int.ofNat.inj hj
  have hmarks : SameMarks u (w.write u page { e with valid := false }) := .word ..
  rw [toInt_page hlt] at hu'
  refine ⟨(excess_congr hmarks).trans (freePage_excess (fun f hf => ?_) hu'), fun f hf => ?_⟩
  · rw [← Int.ofNat.inj hf]
    exact hu hlt
  · obtain ⟨g, hg, -, rfl⟩ := freePage_ok.1 hu'
    obtain rfl := Int.ofNat.inj hg
    rw [hmarks.freePages]
    exact put_of_ne hf ..

theorem brkFunc_excess {curr addr : Nat} {r : Int}
    (hs : ∀ page, page < pageTableLen → freedByBrk m curr addr page → m.freePages page = .pageUsed)
    (h : brkFunc curr addr m = .ok (r, m')) : excess m' = excess m := by
  unfold brkFunc at h
  dsimp only at h
  split at h
  case isTrue hdown =>
    obtain ⟨u, hu, h⟩ := bind_ok.1 h
    obtain ⟨-, rfl⟩ := Prod.mk.inj (Except.ok.inj h)
    refine (upTo_invariant (fun k u => excess u = excess m ∧ ∀ f, k ≤ f → u.freePages f = m.freePages f)
      (fun k m₁ m₂ hlo hhi hm hstep => ?_) ⟨rfl, fun _ _ => rfl⟩ hu).1
    obtain ⟨hex, hmarks⟩ := brkDown_excess (fun hk => by
      rw [hm.2 k (Nat.le_refl k)]
      exact hs k hk ⟨hdown, hlo, hhi⟩) hstep
    refine ⟨hex.trans hm.1, fun f hf => ?_⟩
    rw [hmarks f (by omega), hm.2 f (by omega)]
  case isFalse =>
    split at h
    case isTrue =>
      obtain ⟨u, hu, h⟩ := bind_ok.1 h
      obtain ⟨-, rfl⟩ := Prod.mk.inj (Except.ok.inj h)
      rw [← upTo_excess (fun _ _ _ => mapPage_excess) hu]
      exact excess_congr ⟨rfl, rfl, rfl⟩
    case isFalse =>
      obtain ⟨-, rfl⟩ := Prod.mk.inj (Except.ok.inj h)
      rfl

theorem mapKernelPage_excess (h : mapKernelPage i m = .ok m') : excess m' = excess m := by
  obtain ⟨k, -, -, ⟨f, l, hl, rfl⟩ | ⟨-, rfl⟩⟩ := mapKernelPage_cases h
  · exact (excess_congr ⟨rfl, rfl, rfl⟩).trans (excess_take hl)
  · exact excess_congr ⟨rfl, rfl, rfl⟩

theorem setKernelBrk_excess {addr : Nat} {r : Int} (h : setKernelBrk addr m = .ok (r, m')) : excess m' = excess m := by
  rcases setKernelBrk_ok h with ⟨-, -, -, rfl⟩ | ⟨-, -, rfl⟩ | ⟨-, -, -, u, hu, rfl⟩
  · rfl
  · rfl
  · rw [← upTo_excess (fun _ _ _ => mapKernelPage_excess) hu]
    exact excess_congr ⟨rfl, rfl, rfl⟩

theorem growStack_excess {curr vpn : Nat} (h : growStack curr vpn m = .ok m') : excess m' = excess m := by
  obtain ⟨u, hu, h⟩ := bind_ok.1 h
  obtain rfl := Except.ok.inj h
  rw [← upTo_excess (fun _ _ _ => mapPage_excess) hu]
  exact excess_congr ⟨rfl, rfl, rfl⟩

theorem buildFreePages_excess (pmemSize : BitVec 32) (m : Memory) : excess (buildFreePages pmemSize m) = 0 := by
  simp [excess, countFree, buildFreePages]

theorem initRegion0_excess {page : Nat} (hf : ∀ f, page ≤ f → m.freePages f = .pageFree) (h : initRegion0 page m = .ok m') :
    excess m' = excess m ∧ ∀ f, page + 1 ≤ f → m'.freePages f = .pageFree := by
  obtain ⟨g, hg, h⟩ := bind_ok.1 h
  obtain rfl := Except.ok.inj h
  obtain ⟨hg, hlt⟩ := index_ok.1 hg
  obtain rfl := Int.ofNat.inj hg
  refine ⟨?_, fun f hf' => ?_⟩
  · have hmem : page ∈ freeList m := mem_freeList.2 ⟨hlt, hf page (Nat.le_refl page)⟩
    have hpos := List.length_pos_of_mem hmem
    have hlen := List.length_erase_of_mem hmem
    rw [← freeList_use] at hlen
    rw [excess_list, excess_list]
    change m.numFreePages - 1 - (freeList (setMark m page .pageUsed)).length = _
    omega
  · exact (put_of_ne (by omega) ..).trans (hf f (by omega))

/-- The pages of Region 1 are marked used without the counter. -/
theorem initRegion1_excess {page : Nat} (hf : ∀ f, pageTableLen + page ≤ f → m.freePages f = .pageFree)
    (h : initRegion1 page m = .ok m') :
    excess m' = excess m + 1 ∧ ∀ f, pageTableLen + (page + 1) ≤ f → m'.freePages f = .pageFree := by
  obtain ⟨k, hk, h⟩ := bind_ok.1 h
  obtain ⟨g, hg, h⟩ := bind_ok.1 h
  obtain rfl := Except.ok.inj h
  obtain ⟨hk, -⟩ := index_ok.1 hk
  obtain rfl := Int.ofNat.inj hk
  obtain ⟨hg, hlt⟩ := index_ok.1 hg
  obtain rfl : pageTableLen + page = g := by omega
  refine ⟨?_, fun f hf' => ?_⟩
  · have hmem : pageTableLen + page ∈ freeList m := mem_freeList.2 ⟨hlt, hf _ (Nat.le_refl _)⟩
    have hpos := List.length_pos_of_mem hmem
    have hlen := List.length_erase_of_mem hmem
    rw [← freeList_use] at hlen
    rw [excess_list, excess_list]
    change m.numFreePages - (freeList (setMark m (pageTableLen + page) .pageUsed)).length = _
    omega
  · exact (put_of_ne (by omega) ..).trans (hf f (by omega))

theorem initPT_excess {pmemSize : BitVec 32} (h : initPT (buildFreePages pmemSize m) = .ok m') :
    excess m' = kernelPages m.currKernelBrk := by
  obtain ⟨m₁, m₂, h₁, h₂, rfl, -⟩ := initPT_ok h
  have hbrk : m₁.currKernelBrk = m.currKernelBrk := (Fixed.upTo (fun _ _ _ => Fixed.initRegion0) h₁).currKernelBrk
  obtain ⟨he, hfree⟩ := upTo_invariant
    (fun page u => excess u = 0 ∧ ∀ f, page ≤ f → u.freePages f = .pageFree)
    (fun page u v _ _ hu hstep => by
      obtain ⟨he, hf⟩ := initRegion0_excess hu.2 hstep
      exact ⟨he.trans hu.1, hf⟩)
    ⟨buildFreePages_excess pmemSize m, fun _ _ => rfl⟩ h₁
  obtain ⟨he', -⟩ := upTo_invariant
    (fun page u => excess u = page ∧ ∀ f, pageTableLen + page ≤ f → u.freePages f = .pageFree)
    (fun page u v _ _ hu hstep => by
      obtain ⟨he, hf⟩ := initRegion1_excess hu.2 hstep
      refine ⟨?_, hf⟩
      rw [he, hu.1]
      omega)
    ⟨he, hfree⟩ h₂
  rw [Nat.zero_add, hbrk] at he'
  exact he'

inductive Op
  | loadProgram (curr : Nat) (ptr0 : TablePtr) (file : Option File) (args : List (List (BitVec 8))) (info : ExceptionInfo)
  | buildRegion0 (proc : Nat)
  | switchNewProc (proc2 : Nat)
  | switchFork (parent child : Nat)
  | switchExit (proc1 proc2 : Nat)
  | brkFunc (curr addr : Nat)
  | setKernelBrk (addr : Nat)
  | growStack (curr vpn : Nat)

def Op.apply (m : Memory) : Op → Except Fault Memory
  | .loadProgram curr ptr0 file args info => (fun res => res.2.2) <$> LoadProgram.loadProgram curr ptr0 file args info m
  | .buildRegion0 proc => AddressSpace.buildRegion0 proc m
  | .switchNewProc proc2 => AddressSpace.switchNewProc proc2 m
  | .switchFork parent child => AddressSpace.switchFork parent child m
  | .switchExit proc1 proc2 => AddressSpace.switchExit proc1 proc2 m
  | .brkFunc curr addr => Prod.snd <$> AddressSpace.brkFunc curr addr m
  | .setKernelBrk addr => Prod.snd <$> AddressSpace.setKernelBrk addr m
  | .growStack curr vpn => AddressSpace.growStack curr vpn m

/-- Every mark that the operation sets without the counter is set already, and
every frame that it frees is a used one that it frees once. Brk stays in the table. -/
def Op.Counted (m : Memory) : Op → Prop
  | .loadProgram _ ptr0 file args _ => ∀ li, Passes file args m li → Separate m ptr0 kernelStackBase
  | .buildRegion0 _ => ∀ page, freeVirtualPage m = some page → m.freePages (pageTableLen + page) = .pageUsed
  | .switchNewProc _ => ∀ page, borrowPage m = some page → m.freePages (pageTableLen + page) = .pageFree
  | .switchFork parent _ => ForksExact m parent
  | .switchExit proc1 _ => Separate m (m.space proc1).region0 pageTableLen
  | .brkFunc curr addr =>
      BrkInBounds curr addr m ∧ ∀ page, page < pageTableLen → freedByBrk m curr addr page → m.freePages page = .pageUsed
  | .setKernelBrk _ | .growStack _ _ => True

theorem op_excess {op : Op} (hsmall : m.numPages < 2 ^ 20) (hc : op.Counted m) (h : op.apply m = .ok m') :
    excess m' = excess m := by
  cases op with
  | loadProgram curr ptr0 file args info =>
      obtain ⟨⟨r, info', u⟩, hu, rfl⟩ := map_ok.1 h
      exact loadProgram_excess hc hu
  | buildRegion0 proc => exact buildRegion0_excess hc h
  | switchNewProc proc2 => exact switchNewProc_excess hc h
  | switchFork parent child => exact switchFork_excess hsmall hc h
  | switchExit proc1 proc2 => exact switchExit_excess hc h
  | brkFunc curr addr =>
      obtain ⟨⟨r, u⟩, hu, rfl⟩ := map_ok.1 h
      exact brkFunc_excess hc.2 hu
  | setKernelBrk addr =>
      obtain ⟨⟨r, u⟩, hu, rfl⟩ := map_ok.1 h
      exact setKernelBrk_excess hu
  | growStack curr vpn => exact growStack_excess h

theorem op_numPages {op : Op} (h : op.apply m = .ok m') : m'.numPages = m.numPages := by
  cases op with
  | loadProgram curr ptr0 file args info =>
      obtain ⟨⟨r, info', u⟩, hu, rfl⟩ := map_ok.1 h
      exact (loadProgram_moves hu).numPages
  | buildRegion0 proc =>
      obtain ⟨i, -, hfix⟩ := buildRegion0_table h
      exact hfix.numPages
  | switchNewProc proc2 =>
      obtain ⟨u, hfix, rfl⟩ := switchNewProc_table h
      exact hfix.numPages
  | switchFork parent child =>
      obtain ⟨u, hfix, rfl⟩ := switchFork_table h
      exact hfix.numPages
  | switchExit proc1 proc2 =>
      obtain ⟨u, hfix, rfl⟩ := switchExit_table h
      exact hfix.numPages
  | brkFunc curr addr =>
      obtain ⟨⟨r, u⟩, hu, rfl⟩ := map_ok.1 h
      exact (brkFunc_moves hu).numPages
  | setKernelBrk addr =>
      obtain ⟨⟨r, u⟩, hu, rfl⟩ := map_ok.1 h
      rcases setKernelBrk_ok hu with ⟨-, -, -, rfl⟩ | ⟨-, -, rfl⟩ | ⟨-, -, -, v, hv, rfl⟩
      · rfl
      · rfl
      · exact (Fixed.upTo (fun _ _ _ => Fixed.mapKernelPage) hv).numPages
  | growStack curr vpn => exact (growStack_moves h).numPages

/-- The memories reached from the end of `initPT` by operations that are all
counted. Between two of them anything may change but the allocator. -/
inductive Run (pmemSize : BitVec 32) (m₀ : Memory) : Memory → Prop
  | boot {m : Memory} (h : initPT (buildFreePages pmemSize m₀) = .ok m) : Run pmemSize m₀ m
  | op {m m' : Memory} (op : Op) (hrun : Run pmemSize m₀ m) (hc : op.Counted m) (h : op.apply m = .ok m') : Run pmemSize m₀ m'
  | other {m m' : Memory} (hrun : Run pmemSize m₀ m) (h : SameMarks m m') : Run pmemSize m₀ m'

theorem run_excess {pmemSize : BitVec 32} {m₀ : Memory} (h : Run pmemSize m₀ m) :
    excess m = kernelPages m₀.currKernelBrk ∧ m.numPages < 2 ^ 20 := by
  induction h with
  | boot h =>
      refine ⟨initPT_excess h, ?_⟩
      obtain ⟨m₁, m₂, -, -, rfl, hfix⟩ := initPT_ok h
      have hn : m₂.numPages = pmemSize.toNat / pageSize := hfix.numPages
      have := pmemSize.isLt
      simp only [hn, pageSize]
      omega
  | op op _ hc h ih => exact ⟨(op_excess ih.2 hc h).trans ih.1, (op_numPages h) ▸ ih.2⟩
  | other _ h ih => exact ⟨(excess_congr h).trans ih.1, h.numPages ▸ ih.2⟩

/-- The counter is exact after `buildFreePages`, and in the runs of counted
operations it is exact at some point, and then at every one, just when the
kernel has no page in Region 1. -/
theorem run_exact_iff {pmemSize : BitVec 32} {m₀ m : Memory} (h : Run pmemSize m₀ m) :
    Exact (buildFreePages pmemSize m₀) ∧ (Exact m ↔ kernelPages m₀.currKernelBrk = 0) := by
  rw [exact_iff, exact_iff, (run_excess h).1]
  exact ⟨buildFreePages_excess pmemSize m₀, Int.natCast_eq_zero⟩

def rawMemory (brk : Nat) : Memory := { Runs.zeroState.mem with currKernelBrk := brk }

def smallPmem : BitVec 32 := BitVec.ofNat 32 (1024 * pageSize)

theorem separate_of_nodup {w : Word} (hw : Leads m t w) (hn : n ≤ pageTableLen)
    (hd : (((List.range n).filter fun j => (w.read m j).valid).map fun j => (w.read m j).pfn.toNat).Nodup)
    (hu : ∀ j ∈ (List.range n).filter fun j => (w.read m j).valid, m.freePages (w.read m j).pfn.toNat = .pageUsed) :
    Separate m t n := by
  have hmem {j f : Nat} (hj : j < n) (h : Names m t j f) :
      j ∈ (List.range n).filter (fun j => (w.read m j).valid) ∧ (w.read m j).pfn.toNat = f := by
    obtain ⟨hv, hf⟩ := (names_of_leads hw (Nat.lt_of_lt_of_le hj hn)).1 h
    exact ⟨List.mem_filter.2 ⟨List.mem_range.2 hj, hv⟩, hf⟩
  refine ⟨fun j k f hj hk hnj hnk => ?_, fun j f hj hnj => ?_⟩
  · obtain ⟨hjm, hjf⟩ := hmem hj hnj
    obtain ⟨hkm, hkf⟩ := hmem hk hnk
    exact List.inj_on_of_nodup_map hd hjm hkm (hjf.trans hkf.symm)
  · obtain ⟨hjm, rfl⟩ := hmem hj hnj
    exact hu j hjm

def oneSpace (m : Memory) : Memory :=
  { m with vmEnabled := true, space := fun _ => ⟨memInvalidPages, kernelStackBase, .region0Pt, 0⟩ }

/-- A kernel without a page in Region 1 grows its heap by a page, and process 0
grows by one and exits with its five frames. -/
theorem run_exact_small : ∃ m, Run smallPmem (rawMemory vmem1Base) m ∧
    m.currKernelBrk = vmem1Base + 1 ∧ m.numFreePages = 1023 ∧ Exact m := by
  have h : yields (initPT (buildFreePages smallPmem (rawMemory vmem1Base))) (fun m =>
      yields (Op.apply (oneSpace m) (.setKernelBrk (vmem1Base + 1))) fun m =>
        yields (Op.apply m (.brkFunc 0 (17 * pageSize))) fun u =>
          ((m.space 0).brk = memInvalidPages ∧ (u.space 0).region0 = .region0Pt ∧
            (List.range pageTableLen).filter (fun j => (u.region0Pt j).valid) = [16, 508, 509, 510, 511] ∧
            [16, 508, 509, 510, 511].map (fun j => (u.region0Pt j).pfn.toNat) = [1, 508, 509, 510, 511] ∧
            [1, 508, 509, 510, 511].all (fun f => u.freePages f = .pageUsed) = true) &&
          yields (Op.apply u (.switchExit 0 1)) fun v =>
            v.currKernelBrk = vmem1Base + 1 ∧ v.numFreePages = 1023) = true := by
    decide +kernel
  simp only [yields_iff, Bool.and_eq_true, decide_eq_true_eq] at h
  obtain ⟨m₀, h₀, m₁, h₁, m₂, h₂, ⟨hbrk, htable, hvalid, hpfns, hused⟩, m₃, h₃, hbreak, hfree⟩ := h
  have hother : Run smallPmem (rawMemory vmem1Base) (oneSpace m₀) := .other (.boot h₀) ⟨rfl, rfl, rfl⟩
  have hup : Op.Counted m₁ (.brkFunc 0 (17 * pageSize)) := by
    have hrounded : roundedBrk (17 * pageSize) = 17 := by decide
    refine ⟨?_, fun page _ hfreed => ?_⟩
    · unfold BrkInBounds
      rw [hbrk, hrounded]
      exact ⟨fun h => absurd h.1 (by decide), fun _ => by decide⟩
    · have hlt := hfreed.1.1
      rw [hbrk, hrounded] at hlt
      exact absurd hlt (by decide)
  have hseparate : Op.Counted m₂ (.switchExit 0 1) := by
    change Separate m₂ (m₂.space 0).region0 pageTableLen
    rw [htable]
    refine separate_of_nodup .static (Nat.le_refl _) ?_ fun j hj => ?_
    · change (List.map (fun j => (m₂.region0Pt j).pfn.toNat) 
        (List.filter (fun j => (m₂.region0Pt j).valid) (List.range pageTableLen))).Nodup
      rw [hvalid, hpfns]
      decide
    · change j ∈ List.filter (fun j => (m₂.region0Pt j).valid) _ at hj
      rw [hvalid] at hj
      have hmem := List.mem_map_of_mem (f := fun j => (m₂.region0Pt j).pfn.toNat) hj
      rw [hpfns] at hmem
      exact of_decide_eq_true (List.all_eq_true.1 hused _ hmem)
  have hrun := Run.op _ (.op _ (.op (.setKernelBrk _) hother True.intro h₁) hup h₂) hseparate h₃
  exact ⟨m₃, hrun, hbreak, hfree, (run_exact_iff hrun).2.2 (by decide)⟩

/-- With one page of kernel the counter says 1020 and there are 1019 free frames. -/
theorem initPT_counts_high : ∃ m, initPT (buildFreePages smallPmem (rawMemory (vmem1Base + pageSize))) = .ok m ∧
    m.numFreePages = 1020 ∧ countFree m = 1019 ∧ ¬ Exact m := by
  have h : yields (initPT (buildFreePages smallPmem (rawMemory (vmem1Base + pageSize))))
      (fun m => m.numFreePages = 1020 ∧ countFree m = 1019) = true := by
    decide +kernel
  simp only [yields_iff, decide_eq_true_eq] at h
  obtain ⟨m, hm, hfree, hcount⟩ := h
  refine ⟨m, hm, hfree, hcount, ?_⟩
  rw [Exact, hfree, hcount]
  decide

end Yalnix.FreeCounter
