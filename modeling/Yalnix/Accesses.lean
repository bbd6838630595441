import Yalnix.LoadProgram

namespace Yalnix.Accesses

open Loops Machine AddressSpace LoadProgram

variable {m m' : Memory} {t : TablePtr} {e : Pte} {i : Int} {j f pfn len : Nat}

theorem index_ok : index i len = .ok j ↔ i = j ∧ j < len := by
  unfold index
  split
  case isTrue h =>
    rw [Except.ok.injEq]
    omega
  case isFalse h =>
    simp only [reduceCtorEq, false_iff]
    omega

theorem index_nat : index (j : Int) len = .ok j ↔ j < len := by
  simp [index_ok]

/-- A table pointer under which the kernel reaches the word `j` at `w`. -/
inductive Word
  | static
  | frame (f : Nat)
  deriving DecidableEq

inductive Leads (m : Memory) : TablePtr → Word → Prop
  | static : Leads m .region0Pt .static
  | frame {pg f : Nat} (h : kernelFrame m pg = .ok f) : Leads m (.page pg) (.frame f)

def Word.read (m : Memory) (j : Nat) : Word → Pte
  | .static => m.region0Pt j
  | .frame f => m.frames f j

def Word.write (m : Memory) (j : Nat) (e : Pte) : Word → Memory
  | .static => { m with region0Pt := put m.region0Pt j e }
  | .frame f => writeWord m f j e

theorem readPte_ok : readPte m t i = .ok e ↔
    ∃ j w, i = (j : Nat) ∧ j < pageTableLen ∧ Leads m t w ∧ e = w.read m j := by
  unfold readPte
  rw [bind_ok]
  constructor
  · rintro ⟨j, hj, h⟩
    obtain ⟨rfl, hlt⟩ := index_ok.1 hj
    cases t with
    | null => simp at h
    | region0Pt => exact ⟨j, .static, rfl, hlt, .static, (Except.ok.inj h).symm⟩
    | page pg =>
        obtain ⟨f, hf, h⟩ := bind_ok.1 h
        exact ⟨j, .frame f, rfl, hlt, .frame hf, (Except.ok.inj h).symm⟩
  · rintro ⟨j, w, rfl, hj, hw, rfl⟩
    refine ⟨j, index_nat.2 hj, ?_⟩
    cases hw with
    | static => rfl
    | frame hf => exact bind_ok.2 ⟨_, hf, rfl⟩

theorem writePte_ok : writePte t i e m = .ok m' ↔
    ∃ j w, i = (j : Nat) ∧ j < pageTableLen ∧ Leads m t w ∧ m' = w.write m j e := by
  unfold writePte
  rw [bind_ok]
  constructor
  · rintro ⟨j, hj, h⟩
    obtain ⟨rfl, hlt⟩ := index_ok.1 hj
    cases t with
    | null => simp at h
    | region0Pt => exact ⟨j, .static, rfl, hlt, .static, (Except.ok.inj h).symm⟩
    | page pg =>
        obtain ⟨f, hf, h⟩ := bind_ok.1 h
        exact ⟨j, .frame f, rfl, hlt, .frame hf, (Except.ok.inj h).symm⟩
  · rintro ⟨j, w, rfl, hj, hw, rfl⟩
    refine ⟨j, index_nat.2 hj, ?_⟩
    cases hw with
    | static => rfl
    | frame hf => exact bind_ok.2 ⟨_, hf, rfl⟩

theorem leads_unique {w w' : Word} (h : Leads m t w) (h' : Leads m t w') : w = w' := by
  cases h with
  | static => cases h'; rfl
  | frame hf =>
      cases h' with
      | frame hf' => rw [Except.ok.inj (hf.symm.trans hf')]

theorem word_write_region1 (m : Memory) (w : Word) (j : Nat) (e : Pte) : (w.write m j e).region1Pt = m.region1Pt := by
  cases w <;> rfl

theorem word_write_numPages (m : Memory) (w : Word) (j : Nat) (e : Pte) : (w.write m j e).numPages = m.numPages := by
  cases w <;> rfl

theorem word_read_write (m : Memory) (w : Word) (j : Nat) (e : Pte) : w.read (w.write m j e) j = e := by
  cases w <;> simp [Word.read, Word.write, writeWord]

theorem word_read_write_of_ne {k : Nat} (h : k ≠ j) (m : Memory) (w : Word) (e : Pte) :
    w.read (w.write m j e) k = w.read m k := by
  cases w <;> simp [Word.read, Word.write, writeWord, h]

theorem word_read_write_other {w w' : Word} (h : w' ≠ w) (m : Memory) (j k : Nat) (e : Pte) :
    w'.read (w.write m j e) k = w'.read m k := by
  cases w with
  | static =>
      cases w' with
      | static => exact absurd rfl h
      | frame f => rfl
  | frame f =>
      cases w' with
      | static => rfl
      | frame f' =>
          have hf : f' ≠ f := fun he => h (he ▸ rfl)
          simp [Word.read, Word.write, writeWord, hf]

theorem word_read_write_index {k : Nat} (h : k ≠ j) (m : Memory) (w w' : Word) (e : Pte) :
    w'.read (w.write m j e) k = w'.read m k := by
  by_cases hw : w' = w
  · rw [hw, word_read_write_of_ne h]
  · rw [word_read_write_other hw]

theorem word_read_copy {w : Word} (h : w ≠ .frame f) (m : Memory) (x : Nat → Pte) (k : Nat) :
    w.read { m with frames := put m.frames f x } k = w.read m k := by
  cases w with
  | static => rfl
  | frame g => simp [Word.read, put_of_ne fun he : g = f => h (he ▸ rfl)]

theorem leads_congr {w : Word} (h : Leads m t w) (hn : m'.numPages = m.numPages)
    (hr : ∀ pg, t = .page pg → m'.region1Pt (pg - pageTableLen) = m.region1Pt (pg - pageTableLen)) : Leads m' t w := by
  cases h with
  | static => exact .static
  | frame hf =>
      refine .frame ?_
      unfold kernelFrame at hf ⊢
      rwa [hr _ rfl, hn]

theorem freePage_ok : freePage i m = .ok m' ↔ ∃ pfn, i = (pfn : Nat) ∧ pfn < m.numPages ∧
    m' = { setMark m pfn .pageFree with numFreePages := m.numFreePages + 1 } := by
  unfold freePage
  rw [bind_ok]
  constructor
  · rintro ⟨j, hj, h⟩
    obtain ⟨rfl, hlt⟩ := index_ok.1 hj
    exact ⟨j, rfl, hlt, (Except.ok.inj h).symm⟩
  · rintro ⟨j, rfl, hj, rfl⟩
    exact ⟨j, index_nat.2 hj, rfl⟩

theorem kernelFrame_ok {pg : Nat} : kernelFrame m pg = .ok f ↔
    (pageTableLen ≤ pg ∧ pg < 2 * pageTableLen) ∧ (m.region1Pt (pg - pageTableLen)).valid ∧
      (m.region1Pt (pg - pageTableLen)).pfn.toNat = f ∧ f < m.numPages := by
  unfold kernelFrame
  simp only [ite_error_ok]
  constructor
  · rintro ⟨⟨hr, hv, hlt⟩, h⟩
    obtain rfl := Except.ok.inj h
    exact ⟨hr, hv, rfl, hlt⟩
  · rintro ⟨hr, hv, rfl, hlt⟩
    exact ⟨⟨hr, hv, hlt⟩, rfl⟩

theorem region1_write_self (m : Memory) (i : Nat) (e : Pte) : (writeRegion1 m i e).region1Pt i = e := put_self ..

theorem region1_write_of_ne {k : Nat} (h : k ≠ j) (m : Memory) (e : Pte) :
    (writeRegion1 m j e).region1Pt k = m.region1Pt k := put_of_ne h ..

theorem leads_page_valid {pg : Nat} {w : Word} (h : Leads m (.page pg) w) :
    (m.region1Pt (pg - pageTableLen)).valid = true := by
  cases h with
  | frame hf => exact (kernelFrame_ok.1 hf).2.1

theorem lowestFree_some {page : Nat} (h : lowestFree m = some page) :
    page < m.numPages ∧ m.freePages page = .pageFree := by
  refine ⟨List.mem_range.1 (List.mem_of_find?_eq_some h), ?_⟩
  simpa using List.find?_some h

theorem findFreePage_cases (m : Memory) :
    (∃ page, lowestFree m = some page ∧ findFreePage m =
      ((page : Int), { setMark m page .pageUsed with numFreePages := m.numFreePages - 1 })) ∨
    (lowestFree m = none ∧ findFreePage m = (-1, m)) := by
  unfold findFreePage
  cases h : lowestFree m with
  | none => exact .inr ⟨rfl, rfl⟩
  | some page => exact .inl ⟨page, rfl, rfl⟩

theorem mapPage_ok {uprot kprot : BitVec 3} : mapPage t uprot kprot i m = .ok m' ↔
    ∃ e, readPte m t i = .ok e ∧ writePte t i
      { e with valid := true, uprot, kprot, pfn := BitVec.ofInt 20 (findFreePage m).1 } (findFreePage m).2 = .ok m' :=
  bind_ok

theorem copyPage_ok {borrowed page : Nat} : copyPage borrowed page m = .ok m' ↔
    ∃ source dest, userFrame m page = .ok source ∧ kernelFrame m (pageTableLen + borrowed) = .ok dest ∧
      m' = { m with frames := put m.frames dest (m.frames source) } := by
  constructor
  · intro h
    obtain ⟨source, hs, h⟩ := bind_ok.1 h
    obtain ⟨dest, hd, h⟩ := bind_ok.1 h
    exact ⟨source, dest, hs, hd, (Except.ok.inj h).symm⟩
  · rintro ⟨source, dest, hs, hd, rfl⟩
    exact bind_ok.2 ⟨source, hs, bind_ok.2 ⟨dest, hd, rfl⟩⟩

theorem returnPage_ok {borrowed : Nat} {saved : Pte} (h : returnPage borrowed saved m = .ok m') :
    pageTableLen + borrowed < m.numPages ∧
      m' = setMark (writeRegion1 m borrowed saved) (pageTableLen + borrowed) .pageFree := by
  obtain ⟨frame, hf, h⟩ := bind_ok.1 h
  obtain ⟨hi, hlt⟩ := index_ok.1 hf
  obtain rfl : frame = pageTableLen + borrowed := by omega
  exact ⟨hlt, (Except.ok.inj h).symm⟩

theorem borrowPage_some {page : Nat} (h : borrowPage m = some page) :
    page < pageTableLen ∧ (m.region1Pt page).valid = false := by
  unfold borrowPage at h
  refine ⟨List.mem_range.1 (List.mem_of_find?_eq_some h), ?_⟩
  simpa using List.find?_some h

theorem borrowR1Page_ok {page : Nat} (h : index (borrowR1Page m) pageTableLen = .ok page) : borrowPage m = some page := by
  obtain ⟨hi, -⟩ := index_ok.1 h
  unfold borrowR1Page at hi
  cases hb : borrowPage m with
  | none =>
      simp only [hb] at hi
      omega
  | some b =>
      simp only [hb] at hi
      rw [Int.ofNat.inj hi]

theorem scanDown_some {n page : Nat} (h : scanDown m n = some page) : page < n ∧ (m.region1Pt page).valid = false := by
  induction n with
  | zero => cases h
  | succ n ih =>
      unfold scanDown at h
      split at h
      case isTrue =>
        split at h
        case isTrue =>
          obtain ⟨hlt, hv⟩ := ih h
          exact ⟨Nat.lt_succ_of_lt hlt, hv⟩
        case isFalse hv =>
          obtain rfl := Option.some.inj h
          exact ⟨Nat.lt_succ_self n, Bool.eq_false_iff.2 hv⟩
      case isFalse => cases h

theorem buildRegion0_ok {proc : Nat} (h : buildRegion0 proc m = .ok m') :
    ∃ i, freeVirtualPage m = some i ∧ i < pageTableLen ∧ (m.region1Pt i).valid = false ∧ pageTableLen + i < m.numPages ∧
      upTo (fun vpn => mapPage (.page (pageTableLen + i)) protNone (protRead ||| protWrite) vpn) kernelStackBase
        kernelStackPages
        (setSpace (writeRegion1 (setMark m (pageTableLen + i) .pageUsed) i { m.region1Pt i with
            valid := true, kprot := protRead ||| protWrite, uprot := protNone
            pfn := BitVec.ofNat 20 (pageTableLen + i) })
          proc { m.space proc with region0 := .page (pageTableLen + i), freeVpn := i }) = .ok m' := by
  obtain ⟨⟨virtualPage, m₁⟩, hv, h⟩ := bind_ok.1 h
  obtain ⟨i, hi, h⟩ := bind_ok.1 h
  obtain ⟨hi, hlt⟩ := index_ok.1 hi
  unfold findFreeVirtualPage at hv
  split at hv
  case h_1 page hp =>
    obtain ⟨frame, hf, hv⟩ := bind_ok.1 hv
    obtain ⟨rfl, rfl⟩ := Prod.mk.inj (Except.ok.inj hv)
    obtain ⟨hf, hframe⟩ := index_ok.1 hf
    obtain ⟨hpage, hinv⟩ := scanDown_some hp
    have hpage : page < 512 := by
      change page < pageTableLen - 2 at hpage
      simp only [pageTableLen] at hpage
      omega
    obtain rfl : page = i := by
      simp only [toUlong, BitVec.toNat_ofInt] at hi
      omega
    obtain rfl : frame = pageTableLen + page := by omega
    refine ⟨page, hp, hlt, hinv, hframe, ?_⟩
    dsimp only at h
    rwa [setSpace_space_self] at h
  case h_2 hp =>
    obtain ⟨rfl, rfl⟩ := Prod.mk.inj (Except.ok.inj hv)
    exfalso
    simp only [toUlong, pageTableLen] at hi hlt
    have : (BitVec.ofInt 64 (-1)).toNat = 2 ^ 64 - 1 := by decide
    omega

theorem fill_ok {li : LoadInfo} {read : Option (List (BitVec 8))} {args : List (List (BitVec 8))} {z : Sizes}
    {info info' : ExceptionInfo} {r : Int} (h : fill t li read args z info m = .ok (r, info', m')) :
    ∃ m₁, storeBytes memInvalidSize ((read.getD []).take li.readSize) m = .ok m₁ ∧
      (r = -2 ∧ info' = info ∧ m' = m₁ ∨
        r = 0 ∧ info' = { info with pc := li.entry, regs := fun i => if i < numRegs then 0 else info.regs i, psr := 0 } ∧
        ∃ m₂ m₃, upTo (protectText t) memInvalidPages z.textLen m₁ = .ok m₂ ∧
          storeBytes li.bssAddr (List.replicate li.bssSize 0) m₂ = .ok m₃ ∧
          buildStack args z m₃ = .ok m') := by
  obtain ⟨m₁, h₁, h⟩ := bind_ok.1 h
  refine ⟨m₁, h₁, ?_⟩
  by_cases hc : (if read.isSome then (((read.getD []).take li.readSize).length : Int) else -1) ≠
      toInt (li.textSize + li.dataSize : Nat)
  · dsimp only at h
    rw [if_pos hc] at h
    obtain ⟨rfl, rfl, rfl⟩ : r = -2 ∧ info' = info ∧ m' = m₁ := by simpa [pure, Except.pure, eq_comm] using h
    exact .inl ⟨rfl, rfl, rfl⟩
  · dsimp only at h
    rw [if_neg hc] at h
    obtain ⟨m₂, h₂, h⟩ := bind_ok.1 h
    obtain ⟨m₃, h₃, h⟩ := bind_ok.1 h
    obtain ⟨m₄, h₄, h⟩ := bind_ok.1 h
    obtain ⟨rfl, hres⟩ := Prod.mk.inj (Except.ok.inj h)
    obtain ⟨rfl, rfl⟩ := Prod.mk.inj hres
    exact .inr ⟨rfl, rfl, m₂, m₃, h₂, h₃, h₄⟩

def Passes (file : Option File) (args : List (List (BitVec 8))) (m : Memory) (li : LoadInfo) : Prop :=
  (∃ f, file = some f ∧ f.status = .success li) ∧ fitsVirtual (sizes m.cfg li args) = true ∧
    fitsPhysical (sizes m.cfg li args) m = true

/-- The ways in which `LoadProgram` ends: refused at the early checks, refused
at the check of physical memory, or past it. -/
theorem loadProgram_ok {curr : Nat} {file : Option File} {args : List (List (BitVec 8))}
    {info info' : ExceptionInfo} {r : Int} (h : loadProgram curr t file args info m = .ok (r, info', m')) :
    (r = -1 ∧ info' = info ∧ m' = m) ∨
    ∃ f li, file = some f ∧ f.status = .success li ∧ fitsVirtual (sizes m.cfg li args) = true ∧
      let z := sizes m.cfg li args
      let m₀ := setSpace m curr { m.space curr with brk := newBrk z }
      (fitsPhysical z m₀ = false ∧ r = -1 ∧ info' = info ∧ m' = m₀) ∨
      (fitsPhysical z m₀ = true ∧ ∃ m₁, layOut m.cfg t z m₀ = .ok m₁ ∧
        fill t li f.read args z { info with sp := toUlong z.cpp }
          (setSpace m₁ curr { m₁.space curr with sp := newSp m₁.cfg z }) = .ok (r, info', m')) := by
  unfold loadProgram at h
  cases file with
  | none =>
      obtain ⟨rfl, rfl, rfl⟩ : r = -1 ∧ info' = info ∧ m' = m := by simpa [eq_comm] using h
      exact .inl ⟨rfl, rfl, rfl⟩
  | some f =>
      cases hst : f.status with
      | formatError | otherError | unknown =>
          simp only [hst] at h
          obtain ⟨rfl, rfl, rfl⟩ : r = -1 ∧ info' = info ∧ m' = m := by simpa [eq_comm] using h
          exact .inl ⟨rfl, rfl, rfl⟩
      | success li =>
          simp only [hst] at h
          obtain ⟨-, h⟩ := error_ite_ok.1 h
          cases hv : fitsVirtual (sizes m.cfg li args) with
          | false =>
              simp only [hv, Bool.not_false, if_true] at h
              obtain ⟨rfl, rfl, rfl⟩ : r = -1 ∧ info' = info ∧ m' = m := by simpa [eq_comm] using h
              exact .inl ⟨rfl, rfl, rfl⟩
          | true =>
              refine .inr ⟨f, li, rfl, hst, hv, ?_⟩
              simp only [hv, Bool.not_true, Bool.false_eq_true, if_false] at h
              split at h
              case isTrue hp =>
                obtain ⟨rfl, rfl, rfl⟩ : r = -1 ∧ info' = info ∧ m' = _ := by simpa [eq_comm] using h
                exact .inl ⟨by simpa using hp, rfl, rfl, rfl⟩
              case isFalse hp =>
                obtain ⟨m₁, h₁, h⟩ := bind_ok.1 h
                exact .inr ⟨by simpa using hp, m₁, h₁, h⟩

section Relations

variable {R : Memory → Memory → Prop} (hrefl : ∀ m, R m m) (htrans : ∀ m₁ m₂ m₃, R m₁ m₂ → R m₂ m₃ → R m₁ m₃)
include hrefl htrans

section Stores

variable (hstore : ∀ vaddr x m m', storeByte vaddr x m = .ok m' → R m m')
include hstore

theorem storeBytes_relation {vaddr : Nat} {xs : List (BitVec 8)} (h : storeBytes vaddr xs m = .ok m') : R m m' := by
  induction xs generalizing vaddr m with
  | nil =>
      obtain rfl := Except.ok.inj h
      exact hrefl m
  | cons x xs ih =>
      obtain ⟨u, hu, h⟩ := bind_ok.1 h
      exact htrans _ _ _ (hstore _ _ _ _ hu) (ih h)

theorem copyArgs_relation {args : List (List (BitVec 8))} {cpp cp cpp' : Nat}
    (h : copyArgs args cpp cp m = .ok (cpp', m')) : R m m' := by
  induction args generalizing cpp cp m with
  | nil =>
      obtain ⟨-, rfl⟩ := Prod.mk.inj (Except.ok.inj h)
      exact hrefl m
  | cons a args ih =>
      obtain ⟨u, hu, h⟩ := bind_ok.1 h
      obtain ⟨v, hv, h⟩ := bind_ok.1 h
      apply htrans _ u
      · exact storeBytes_relation hrefl htrans hstore hu
      · exact htrans _ _ _ (storeBytes_relation hrefl htrans hstore hv) (ih h)

theorem buildStack_relation {args : List (List (BitVec 8))} {z : Sizes} (h : buildStack args z m = .ok m') : R m m' := by
  have hlong {vaddr n : Nat} {m m' : Memory} (h : storeLong vaddr n m = .ok m') : R m m' :=
    storeBytes_relation hrefl htrans hstore h
  obtain ⟨u, hu, h⟩ := bind_ok.1 h
  obtain ⟨⟨cpp, v⟩, hv, h⟩ := bind_ok.1 h
  obtain ⟨w, hw, h⟩ := bind_ok.1 h
  obtain ⟨x, hx, h⟩ := bind_ok.1 h
  apply htrans _ u _ (hlong hu)
  apply htrans _ v _ (copyArgs_relation hrefl htrans hstore hv)
  apply htrans _ w _ (hlong hw)
  exact htrans _ x _ (hlong hx) (hlong h)

theorem fill_relation {li : LoadInfo} {read : Option (List (BitVec 8))} {args : List (List (BitVec 8))} {z : Sizes}
    {info info' : ExceptionInfo} {r : Int} (hprotect : ∀ i m m', protectText t i m = .ok m' → R m m')
    (h : fill t li read args z info m = .ok (r, info', m')) : R m m' := by
  obtain ⟨m₁, h₁, ⟨-, -, rfl⟩ | ⟨-, -, m₂, m₃, h₂, h₃, h₄⟩⟩ := fill_ok h
  · exact storeBytes_relation hrefl htrans hstore h₁
  · apply htrans _ m₁ _ (storeBytes_relation hrefl htrans hstore h₁)
    apply htrans _ m₂ _ (upTo_relation R hrefl htrans (fun i m m' _ _ => hprotect i m m') h₂)
    apply htrans _ m₃ _ (storeBytes_relation hrefl htrans hstore h₃)
    exact buildStack_relation hrefl htrans hstore h₄

end Stores

theorem layOut_relation {cfg : Config} {z : Sizes} (hfree : ∀ i m m', freeEntry t i m = .ok m' → R m m')
    (hinvalid : ∀ i m m', invalidate t i m = .ok m' → R m m')
    (hmap : ∀ uprot kprot i m m', mapPage t uprot kprot i m = .ok m' → R m m')
    (h : layOut cfg t z m = .ok m') : R m m' := by
  obtain ⟨m₁, h₁, h⟩ := bind_ok.1 h
  obtain ⟨m₂, h₂, h⟩ := bind_ok.1 h
  obtain ⟨m₃, h₃, h⟩ := bind_ok.1 h
  obtain ⟨m₄, h₄, h⟩ := bind_ok.1 h
  apply htrans _ m₁ _ (upTo_relation R hrefl htrans (fun i m m' _ _ => hfree i m m') h₁)
  apply htrans _ m₂ _ (upTo_relation R hrefl htrans (fun i m m' _ _ => hinvalid i m m') h₂)
  apply htrans _ m₃ _ (upTo_relation R hrefl htrans (fun i m m' _ _ => hmap _ _ _ m m') h₃)
  apply htrans _ m₄ _ (upTo_relation R hrefl htrans (fun i m m' _ _ => hmap _ _ _ m m') h₄)
  exact upTo_relation R hrefl htrans (fun i m m' _ _ => hmap _ _ _ m m') h

end Relations

structure Fixed (m m' : Memory) : Prop where
  cfg : m'.cfg = m.cfg
  numPages : m'.numPages = m.numPages
  currKernelBrk : m'.currKernelBrk = m.currKernelBrk
  vmEnabled : m'.vmEnabled = m.vmEnabled
  regPtr0 : m'.regPtr0 = m.regPtr0
  space : m'.space = m.space

namespace Fixed

theorem refl (m : Memory) : Fixed m m := ⟨rfl, rfl, rfl, rfl, rfl, rfl⟩

theorem trans {m₁ m₂ m₃ : Memory} (h : Fixed m₁ m₂) (h' : Fixed m₂ m₃) : Fixed m₁ m₃ :=
  ⟨h'.cfg.trans h.cfg, h'.numPages.trans h.numPages, h'.currKernelBrk.trans h.currKernelBrk,
    h'.vmEnabled.trans h.vmEnabled, h'.regPtr0.trans h.regPtr0, h'.space.trans h.space⟩

theorem upTo {body : Nat → Memory → Except Fault Memory} {start n : Nat}
    (hstep : ∀ i m m', body i m = .ok m' → Fixed m m') (h : upTo body start n m = .ok m') : Fixed m m' :=
  upTo_relation Fixed refl (fun _ _ _ => trans) (fun i s t _ _ => hstep i s t) h

theorem findFreePage (m : Memory) : Fixed m (findFreePage m).2 := by
  rcases findFreePage_cases m with ⟨page, -, h⟩ | ⟨-, h⟩
  · rw [h]
    exact ⟨rfl, rfl, rfl, rfl, rfl, rfl⟩
  · rw [h]
    exact refl m

theorem freePage (h : freePage i m = .ok m') : Fixed m m' := by
  obtain ⟨pfn, -, -, rfl⟩ := freePage_ok.1 h
  exact ⟨rfl, rfl, rfl, rfl, rfl, rfl⟩

theorem writePte (h : writePte t i e m = .ok m') : Fixed m m' := by
  obtain ⟨j, w, -, -, -, rfl⟩ := writePte_ok.1 h
  cases w <;> exact ⟨rfl, rfl, rfl, rfl, rfl, rfl⟩

theorem mapPage {uprot kprot : BitVec 3} (h : mapPage t uprot kprot i m = .ok m') : Fixed m m' := by
  obtain ⟨e, -, h⟩ := mapPage_ok.1 h
  exact (findFreePage m).trans (writePte h)

theorem storeByte {vaddr : Nat} {x : BitVec 8} (h : storeByte vaddr x m = .ok m') : Fixed m m' := by
  obtain ⟨f, -, h⟩ := bind_ok.1 h
  obtain ⟨e, -, h⟩ := bind_ok.1 h
  obtain ⟨-, h⟩ := ite_error_ok.1 h
  obtain rfl := Except.ok.inj h
  exact ⟨rfl, rfl, rfl, rfl, rfl, rfl⟩

theorem freeEntry {currTable : Nat} (h : freeEntry t currTable m = .ok m') : Fixed m m' := by
  unfold LoadProgram.freeEntry at h
  split at h
  case isTrue =>
    obtain ⟨e, -, h⟩ := bind_ok.1 h
    split at h
    case isTrue =>
      obtain ⟨u, hu, h⟩ := bind_ok.1 h
      exact (freePage hu).trans (writePte h)
    case isFalse =>
      obtain rfl := Except.ok.inj h
      exact refl m
  case isFalse =>
    obtain rfl := Except.ok.inj h
    exact refl m

theorem invalidate {k : Nat} (h : invalidate t k m = .ok m') : Fixed m m' := by
  obtain ⟨e, -, h⟩ := bind_ok.1 h
  exact writePte h

theorem protectText {k : Nat} (h : protectText t k m = .ok m') : Fixed m m' := by
  obtain ⟨e, -, h⟩ := bind_ok.1 h
  exact writePte h

theorem layOut {cfg : Config} {z : Sizes} (h : layOut cfg t z m = .ok m') : Fixed m m' :=
  layOut_relation refl (fun _ _ _ => trans) (fun _ _ _ => freeEntry) (fun _ _ _ => invalidate)
    (fun _ _ _ _ _ => mapPage) h

theorem fill {li : LoadInfo} {read : Option (List (BitVec 8))} {args : List (List (BitVec 8))} {z : Sizes}
    {info info' : ExceptionInfo} {r : Int} (h : fill t li read args z info m = .ok (r, info', m')) : Fixed m m' :=
  fill_relation refl (fun _ _ _ => trans) (fun _ _ _ _ => storeByte) (fun _ _ _ => protectText) h

theorem copyPage {borrowed page : Nat} (h : copyPage borrowed page m = .ok m') : Fixed m m' := by
  obtain ⟨source, -, h⟩ := bind_ok.1 h
  obtain ⟨dest, -, h⟩ := bind_ok.1 h
  obtain rfl := Except.ok.inj h
  exact ⟨rfl, rfl, rfl, rfl, rfl, rfl⟩

theorem returnPage {borrowed : Nat} {saved : Pte} (h : returnPage borrowed saved m = .ok m') : Fixed m m' := by
  obtain ⟨frame, -, h⟩ := bind_ok.1 h
  obtain rfl := Except.ok.inj h
  exact ⟨rfl, rfl, rfl, rfl, rfl, rfl⟩

theorem copyStackPage {proc borrowed page : Nat} (h : copyStackPage proc borrowed page m = .ok m') :
    Fixed m m' := by
  obtain ⟨e, -, h⟩ := bind_ok.1 h
  have := copyPage h
  exact ⟨this.cfg, this.numPages, this.currKernelBrk, this.vmEnabled, this.regPtr0, this.space⟩

theorem forkPage {parent child borrowed page : Nat} (h : forkPage parent child borrowed page m = .ok m') :
    Fixed m m' := by
  obtain ⟨p, -, h⟩ := bind_ok.1 h
  split at h
  case isTrue =>
    obtain ⟨u, hu, h⟩ := bind_ok.1 h
    obtain ⟨c, -, h⟩ := bind_ok.1 h
    have := copyPage h
    exact (mapPage hu).trans
      ⟨this.cfg, this.numPages, this.currKernelBrk, this.vmEnabled, this.regPtr0, this.space⟩
  case isFalse =>
    obtain ⟨c, -, h⟩ := bind_ok.1 h
    exact writePte h

theorem exitPage {proc page : Nat} (h : exitPage proc page m = .ok m') : Fixed m m' := by
  obtain ⟨e, -, h⟩ := bind_ok.1 h
  split at h
  case isTrue => exact freePage h
  case isFalse =>
    obtain rfl := Except.ok.inj h
    exact refl m

theorem brkDown {page : Nat} (h : brkDown page m = .ok m') : Fixed m m' := by
  obtain ⟨u, hu, h⟩ := bind_ok.1 h
  obtain ⟨e, -, h⟩ := bind_ok.1 h
  exact (freePage hu).trans (writePte h)

theorem mapKernelPage (h : mapKernelPage i m = .ok m') : Fixed m m' := by
  obtain ⟨k, -, h⟩ := bind_ok.1 h
  obtain rfl := Except.ok.inj h
  have := findFreePage m
  exact ⟨this.cfg, this.numPages, this.currKernelBrk, this.vmEnabled, this.regPtr0, this.space⟩

theorem initRegion0 {page : Nat} (h : initRegion0 page m = .ok m') : Fixed m m' := by
  obtain ⟨frame, -, h⟩ := bind_ok.1 h
  obtain rfl := Except.ok.inj h
  exact ⟨rfl, rfl, rfl, rfl, rfl, rfl⟩

theorem initRegion1 {page : Nat} (h : initRegion1 page m = .ok m') : Fixed m m' := by
  obtain ⟨k, -, h⟩ := bind_ok.1 h
  obtain ⟨frame, -, h⟩ := bind_ok.1 h
  obtain rfl := Except.ok.inj h
  exact ⟨rfl, rfl, rfl, rfl, rfl, rfl⟩

end Fixed

theorem initPT_ok (h : initPT m = .ok m') : ∃ m₁ m₂,
    upTo initRegion0 kernelStackBase kernelStackPages m = .ok m₁ ∧
    upTo initRegion1 0 (kernelPages m₁.currKernelBrk) m₁ = .ok m₂ ∧
    m' = { m₂ with regPtr0 := .region0Pt } ∧ Fixed m m₂ := by
  obtain ⟨m₁, h₁, h⟩ := bind_ok.1 h
  obtain ⟨m₂, h₂, h⟩ := bind_ok.1 h
  exact ⟨m₁, m₂, h₁, h₂, (Except.ok.inj h).symm,
    (Fixed.upTo (fun _ _ _ => Fixed.initRegion0) h₁).trans (Fixed.upTo (fun _ _ _ => Fixed.initRegion1) h₂)⟩

def SameTable (a b : Space) : Prop := a.region0 = b.region0 ∧ a.freeVpn = b.freeVpn

structure Moves (curr : Nat) (m m' : Memory) : Prop where
  cfg : m'.cfg = m.cfg
  numPages : m'.numPages = m.numPages
  vmEnabled : m'.vmEnabled = m.vmEnabled
  regPtr0 : m'.regPtr0 = m.regPtr0
  table : SameTable (m'.space curr) (m.space curr)
  others : ∀ p, p ≠ curr → m'.space p = m.space p

theorem Fixed.moves {curr : Nat} (h : Fixed m m') : Moves curr m m' :=
  ⟨h.cfg, h.numPages, h.vmEnabled, h.regPtr0, by rw [h.space]; exact ⟨rfl, rfl⟩, fun _ _ => by rw [h.space]⟩

theorem Moves.trans {curr : Nat} {m₁ m₂ m₃ : Memory} (h : Moves curr m₁ m₂) (h' : Moves curr m₂ m₃) :
    Moves curr m₁ m₃ :=
  ⟨h'.cfg.trans h.cfg, h'.numPages.trans h.numPages, h'.vmEnabled.trans h.vmEnabled,
    h'.regPtr0.trans h.regPtr0, ⟨h'.table.1.trans h.table.1, h'.table.2.trans h.table.2⟩,
    fun p hp => (h'.others p hp).trans (h.others p hp)⟩

theorem Moves.region0 {curr : Nat} (h : Moves curr m m') (p : Nat) : (m'.space p).region0 = (m.space p).region0 := by
  by_cases hp : p = curr
  · subst hp
    exact h.table.1
  · rw [h.others p hp]

theorem setSpace_moves {curr : Nat} {sp : Space} (h : SameTable sp (m.space curr)) :
    Moves curr m (setSpace m curr sp) :=
  ⟨rfl, rfl, rfl, rfl, by simpa [setSpace] using h, fun p hp => put_of_ne hp ..⟩

theorem setBrk_moves (m : Memory) (curr brk : Nat) : Moves curr m (setSpace m curr { m.space curr with brk }) :=
  setSpace_moves ⟨rfl, rfl⟩

theorem setSp_moves (m : Memory) (curr sp : Nat) : Moves curr m (setSpace m curr { m.space curr with sp }) :=
  setSpace_moves ⟨rfl, rfl⟩

theorem loadProgram_moves {curr : Nat} {file : Option File} {args : List (List (BitVec 8))}
    {info info' : ExceptionInfo} {r : Int} (h : loadProgram curr t file args info m = .ok (r, info', m')) :
    Moves curr m m' := by
  rcases loadProgram_ok h with ⟨-, -, rfl⟩ | ⟨f, li, -, -, -, ⟨-, -, -, rfl⟩ | ⟨-, m₁, h₁, h₂⟩⟩
  · exact (Fixed.refl _).moves
  · exact setBrk_moves m curr _
  · exact (((setBrk_moves m curr _).trans (Fixed.layOut h₁).moves).trans (setSp_moves m₁ curr _)).trans
      (Fixed.fill h₂).moves

theorem brkFunc_moves {curr addr : Nat} {r : Int} (h : brkFunc curr addr m = .ok (r, m')) : Moves curr m m' := by
  unfold brkFunc at h
  dsimp only at h
  split at h
  case isTrue =>
    obtain ⟨u, hu, h⟩ := bind_ok.1 h
    obtain ⟨-, rfl⟩ := Prod.mk.inj (Except.ok.inj h)
    exact (Fixed.upTo (fun _ _ _ => Fixed.brkDown) hu).moves.trans (setBrk_moves u curr _)
  case isFalse =>
    split at h
    case isTrue =>
      obtain ⟨u, hu, h⟩ := bind_ok.1 h
      obtain ⟨-, rfl⟩ := Prod.mk.inj (Except.ok.inj h)
      exact (Fixed.upTo (fun _ _ _ => Fixed.mapPage) hu).moves.trans (setBrk_moves u curr _)
    case isFalse =>
      obtain ⟨-, rfl⟩ := Prod.mk.inj (Except.ok.inj h)
      exact (Fixed.refl _).moves

theorem growStack_moves {curr vpn : Nat} (h : growStack curr vpn m = .ok m') : Moves curr m m' := by
  unfold growStack at h
  dsimp only at h
  obtain ⟨u, hu, h⟩ := bind_ok.1 h
  obtain rfl := Except.ok.inj h
  exact (Fixed.upTo (fun _ _ _ => Fixed.mapPage) hu).moves.trans (setSp_moves u curr _)

theorem buildRegion0_table {proc : Nat} (h : buildRegion0 proc m = .ok m') : ∃ i, i < pageTableLen ∧
    Fixed (setSpace m proc { m.space proc with region0 := .page (pageTableLen + i), freeVpn := i }) m' := by
  obtain ⟨i, -, hi, -, -, h⟩ := buildRegion0_ok h
  refine ⟨i, hi, Fixed.trans ?_ (Fixed.upTo (fun _ _ _ => Fixed.mapPage) h)⟩
  exact ⟨rfl, rfl, rfl, rfl, rfl, rfl⟩

theorem switchNewProc_table {proc2 : Nat} (h : switchNewProc proc2 m = .ok m') :
    ∃ u, Fixed m u ∧ m' = { u with regPtr0 := .page (pageTableLen + (u.space proc2).freeVpn) } := by
  obtain ⟨borrowed, -, h⟩ := bind_ok.1 h
  obtain ⟨m₁, h₁, h⟩ := bind_ok.1 h
  obtain ⟨m₂, h₂, h⟩ := bind_ok.1 h
  exact ⟨m₂, (Fixed.upTo (fun _ _ _ => Fixed.copyStackPage) h₁).trans (.returnPage h₂), (Except.ok.inj h).symm⟩

theorem switchFork_table {parent child : Nat} (h : switchFork parent child m = .ok m') :
    ∃ u, Fixed m u ∧ m' = { u with regPtr0 := .page (pageTableLen + (u.space child).freeVpn) } := by
  obtain ⟨borrowed, -, h⟩ := bind_ok.1 h
  obtain ⟨m₁, h₁, h⟩ := bind_ok.1 h
  obtain ⟨m₂, h₂, h⟩ := bind_ok.1 h
  refine ⟨m₂, .trans ?_ ((Fixed.upTo (fun _ _ _ => Fixed.forkPage) h₁).trans (.returnPage h₂)), (Except.ok.inj h).symm⟩
  exact ⟨rfl, rfl, rfl, rfl, rfl, rfl⟩

theorem switchExit_table {proc1 proc2 : Nat} (h : switchExit proc1 proc2 m = .ok m') :
    ∃ u, Fixed m u ∧ m' = { u with regPtr0 := (u.space proc2).region0 } := by
  obtain ⟨m₁, h₁, h⟩ := bind_ok.1 h
  exact ⟨m₁, Fixed.upTo (fun _ _ _ => Fixed.exitPage) h₁, (Except.ok.inj h).symm⟩

theorem setKernelBrk_ok {addr : Nat} {r : Int} (h : setKernelBrk addr m = .ok (r, m')) :
    (m.vmEnabled = true ∧ m.numFreePages < pagesNeeded m addr ∧ r = ERROR ∧ m' = m) ∨
    (m.vmEnabled = false ∧ r = 0 ∧ m' = { m with currKernelBrk := addr }) ∨
    (m.vmEnabled = true ∧ ¬ m.numFreePages < pagesNeeded m addr ∧ r = 0 ∧
      ∃ u, upTo (fun page => mapKernelPage (currBrkPg m + page)) 0 (pagesNeeded m addr).toNat m = .ok u ∧
        m' = { u with currKernelBrk := addr }) := by
  unfold setKernelBrk at h
  cases hvm : m.vmEnabled with
  | false =>
      simp only [hvm, Bool.not_false, if_true] at h
      obtain ⟨rfl, rfl⟩ := Prod.mk.inj (Except.ok.inj h)
      exact .inr (.inl ⟨rfl, rfl, rfl⟩)
  | true =>
      simp only [hvm, Bool.not_true, Bool.false_eq_true, if_false] at h
      split at h
      case isTrue hlt =>
        obtain ⟨rfl, rfl⟩ := Prod.mk.inj (Except.ok.inj h)
        exact .inl ⟨rfl, hlt, rfl, rfl⟩
      case isFalse hge =>
        obtain ⟨u, hu, h⟩ := bind_ok.1 h
        obtain ⟨rfl, rfl⟩ := Prod.mk.inj (Except.ok.inj h)
        exact .inr (.inr ⟨rfl, hge, rfl, u, hu, rfl⟩)

theorem setKernelBrk_space {addr : Nat} {r : Int} (h : setKernelBrk addr m = .ok (r, m')) :
    m'.regPtr0 = m.regPtr0 ∧ m'.space = m.space := by
  rcases setKernelBrk_ok h with ⟨-, -, -, rfl⟩ | ⟨-, -, rfl⟩ | ⟨-, -, -, u, hu, rfl⟩
  · exact ⟨rfl, rfl⟩
  · exact ⟨rfl, rfl⟩
  · have hfix := Fixed.upTo (fun _ _ _ => Fixed.mapKernelPage) hu
    exact ⟨hfix.regPtr0, hfix.space⟩

/-- The pages that `Brk` goes over have entries and, when they are freed by
their numbers, frames. It goes up from the old break in both directions. -/
def BrkInBounds (curr addr : Nat) (m : Memory) : Prop :=
  let rounded := roundedBrk addr
  let brk := (m.space curr).brk
  (rounded < brk ∧ memInvalidPages ≤ rounded → 0 < toInt (brk - rounded) →
    brk + toInt (brk - rounded) ≤ pageTableLen ∧ brk + toInt (brk - rounded) ≤ m.numPages) ∧
  (brk ≤ rounded → 0 < toInt (rounded - brk) → brk + toInt (rounded - brk) ≤ pageTableLen)

end Yalnix.Accesses
