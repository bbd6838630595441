import Yalnix.Loops
import Mathlib.Algebra.Group.Int.Defs
import Mathlib.Algebra.GroupWithZero.Nat
import Mathlib.Logic.Function.Basic

namespace Yalnix.Machine

open Loops

/-- PAGE_TABLE_LEN: each of the two regions has this many pages. -/
def pageTableLen : Nat := 512

def pageSize : Nat := 4096

def memInvalidPages : Nat := 16

/-- KERNEL_STACK_BASE >> PAGESHIFT. The kernel stack is the top of Region 0. -/
def kernelStackBase : Nat := 508

def kernelStackPages : Nat := 4

def vmem1Base : Nat := pageTableLen * pageSize

def protNone : BitVec 3 := 0
def protRead : BitVec 3 := 1
def protWrite : BitVec 3 := 2
def protExec : BitVec 3 := 4

def ERROR : Int := -1

/-- Conversion of a C integer to `int`, which keeps the low 32 bits. -/
def toInt (n : Int) : Int := (BitVec.ofInt 32 n).toInt

def toUlong (n : Int) : Nat := (BitVec.ofInt 64 n).toNat

/-- An address as a `long`, the type UP_TO_PAGE and DOWN_TO_PAGE compute in. -/
def toLong (n : Nat) : Int := (BitVec.ofNat 64 n).toInt

def upToPage (n : Nat) : Int := toLong (n + (pageSize - 1)) / pageSize

def downToPage (n : Nat) : Int := toLong n / pageSize

theorem toInt_eq (x : Int) : toInt x = if x % 2 ^ 32 < 2 ^ 31 then x % 2 ^ 32 else x % 2 ^ 32 - 2 ^ 32 := by
  rw [toInt, BitVec.toInt_ofInt, Int.bmod_def]
  rfl

theorem toInt_small {x : Int} (hl : -2 ^ 31 ≤ x) (hh : x < 2 ^ 31) : toInt x = x := by
  rw [toInt, BitVec.toInt_ofInt]
  exact Int.bmod_eq_of_le (by omega) (by omega)

theorem toLong_nat {n : Nat} (h : n < 2 ^ 63) : toLong n = n := by
  rw [toLong, ← BitVec.ofInt_natCast, BitVec.toInt_ofInt]
  exact Int.bmod_eq_of_le (by omega) (by omega)

theorem toUlong_nat {n : Nat} (h : n < 2 ^ 64) : toUlong n = n := by
  rw [toUlong, BitVec.ofInt_natCast, BitVec.toNat_ofNat]
  exact Nat.mod_eq_of_lt h

/-- The ways in which kernel code can leave the defined behaviour of C and of the machine. -/
inductive Fault
  | nullDeref
  | wildDeref
  | freedDeref
  | doubleFree
  | badIndex
  | unmapped
  | divergence
  deriving DecidableEq, Repr

/-- `struct pte`. Its bit fields are the 32 bits of a word of memory. -/
structure Pte where
  pfn : BitVec 20
  unused : BitVec 5
  uprot : BitVec 3
  kprot : BitVec 3
  valid : Bool
  deriving DecidableEq, Repr

def Pte.toBits (w : Pte) : BitVec 32 :=
  BitVec.ofBool w.valid ++ w.kprot ++ w.uprot ++ w.unused ++ w.pfn

def Pte.ofBits (b : BitVec 32) : Pte :=
  ⟨b.extractLsb' 0 20, b.extractLsb' 20 5, b.extractLsb' 25 3, b.extractLsb' 28 3, b.getLsbD 31⟩

def Pte.setByte (w : Pte) (k : Nat) (x : BitVec 8) : Pte :=
  .ofBits ((w.toBits &&& ~~~(0xff#32 <<< (8 * k))) ||| (x.zeroExtend 32 <<< (8 * k)))

/-- A `struct pte *`: NULL, the kernel's array `region0Pt`, or the start of a
page, given by its number over both regions. -/
inductive TablePtr
  | null
  | region0Pt
  | page (pg : Nat)
  deriving DecidableEq, Repr

inductive PageMark
  | pageFree
  | pageUsed
  deriving DecidableEq, Repr

/-- What the kernel is built and linked with: USER_STACK_LIMIT >> PAGESHIFT,
the address `&_etext`, and the address of the variable `currKernelBrk`. -/
structure Config where
  userStackLimit : Nat
  etext : Nat
  currKernelBrkAddr : Nat

/-- The address space fields of a `struct pcb`. -/
structure Space where
  brk : Nat
  sp : Nat
  region0 : TablePtr
  freeVpn : Nat

/-- The frame allocator, the page tables, physical memory as words of frames,
and the address space fields of every pcb. -/
structure Memory where
  cfg : Config
  numPages : Nat
  freePages : Nat → PageMark
  numFreePages : Int
  region0Pt : Nat → Pte
  region1Pt : Nat → Pte
  frames : Nat → Nat → Pte
  currKernelBrk : Nat
  vmEnabled : Bool
  regPtr0 : TablePtr
  space : Nat → Space

def put {α : Type} (f : Nat → α) (i : Nat) (x : α) : Nat → α := fun j => bif Nat.beq j i then x else f j

theorem put_apply {α : Type} (f : Nat → α) (i : Nat) (x : α) (j : Nat) : put f i x j = if j = i then x else f j := by
  simp [put, Bool.cond_eq_ite]

@[simp] theorem put_self {α : Type} (f : Nat → α) (i : Nat) (x : α) : put f i x i = x := by simp [put_apply]

@[simp] theorem put_of_ne {α : Type} {i j : Nat} (h : j ≠ i) (f : Nat → α) (x : α) : put f i x j = f j := by
  simp [put_apply, h]

@[simp] theorem put_idem {α : Type} (f : Nat → α) (i : Nat) (x y : α) : put (put f i x) i y = put f i y := by
  funext j
  by_cases h : j = i
  · rw [h, put_self, put_self]
  · rw [put_of_ne h, put_of_ne h, put_of_ne h]

def index (i : Int) (len : Nat) : Except Fault Nat :=
  if 0 ≤ i ∧ i < len then .ok i.toNat else .error .badIndex

def setMark (m : Memory) (pfn : Nat) (mark : PageMark) : Memory :=
  { m with freePages := put m.freePages pfn mark }

def lowestFree (m : Memory) : Option Nat :=
  (List.range m.numPages).find? (fun page => m.freePages page = .pageFree)

def findFreePage (m : Memory) : Int × Memory :=
  match lowestFree m with
  | some page => (page, { setMark m page .pageUsed with numFreePages := m.numFreePages - 1 })
  | none => (-1, m)

def freePage (pfn : Int) (m : Memory) : Except Fault Memory := do
  let pfn ← index pfn m.numPages
  return { setMark m pfn .pageFree with numFreePages := m.numFreePages + 1 }

/-- The downward scan of `findFreeVirtualPage` over the pages below `n`. It
ends at the address of `currKernelBrk`, as the source has it, not at its value. -/
def scanDown (m : Memory) : Nat → Option Nat
  | 0 => none
  | page + 1 =>
      if m.cfg.currKernelBrkAddr < (pageTableLen + page) * pageSize then
        if (m.region1Pt page).valid then scanDown m page else some page
      else none

/-- The page of Region 1 the scan takes. It starts at VMEM_1_LIMIT - 3 * PAGESIZE. -/
def freeVirtualPage (m : Memory) : Option Nat := scanDown m (pageTableLen - 2)

/-- The frame with the page's own number is marked used, whatever its mark was. -/
def findFreeVirtualPage (m : Memory) : Except Fault (Int × Memory) :=
  match freeVirtualPage m with
  | some page => do
      let frame ← index (page + pageTableLen) m.numPages
      return (page, setMark m frame .pageUsed)
  | none => .ok (-1, m)

def borrowPage (m : Memory) : Option Nat :=
  (List.range pageTableLen).find? (fun page => !(m.region1Pt page).valid)

/-- The lowest invalid page of Region 1, or -1. -/
def borrowR1Page (m : Memory) : Int :=
  match borrowPage m with
  | some page => page
  | none => -1

def writeRegion1 (m : Memory) (i : Nat) (e : Pte) : Memory :=
  { m with region1Pt := put m.region1Pt i e }

def writeWord (m : Memory) (f i : Nat) (e : Pte) : Memory :=
  { m with frames := put m.frames f (put (m.frames f) i e) }

def setSpace (m : Memory) (p : Nat) (sp : Space) : Memory :=
  { m with space := put m.space p sp }

@[simp] theorem setSpace_space_self (m : Memory) (p : Nat) (sp : Space) : (setSpace m p sp).space p = sp :=
  put_self ..

@[simp] theorem setSpace_idem (m : Memory) (p : Nat) (sp sp' : Space) :
    setSpace (setSpace m p sp) p sp' = setSpace m p sp' := by
  simp [setSpace]

/-- The frame behind a page of Region 1 when the kernel uses its virtual address. -/
def kernelFrame (m : Memory) (pg : Nat) : Except Fault Nat :=
  let e := m.region1Pt (pg - pageTableLen)
  if (pageTableLen ≤ pg ∧ pg < 2 * pageTableLen) ∧ e.valid ∧ e.pfn.toNat < m.numPages then .ok e.pfn.toNat
  else .error .unmapped

def readPte (m : Memory) (t : TablePtr) (i : Int) : Except Fault Pte := do
  let i ← index i pageTableLen
  match t with
  | .null => .error .nullDeref
  | .region0Pt => return m.region0Pt i
  | .page pg => do
      let f ← kernelFrame m pg
      return m.frames f i

def writePte (t : TablePtr) (i : Int) (e : Pte) (m : Memory) : Except Fault Memory := do
  let i ← index i pageTableLen
  match t with
  | .null => .error .nullDeref
  | .region0Pt => return { m with region0Pt := put m.region0Pt i e }
  | .page pg => do
      let f ← kernelFrame m pg
      return writeWord m f i e

/-- The entry the machine finds for a page of Region 0. REG_PTR0 holds a
physical address, so this walk does not go through `region1Pt`. -/
def walk (m : Memory) (page : Nat) : Except Fault Pte :=
  match m.regPtr0 with
  | .null => .error .unmapped
  | .region0Pt => .ok (m.region0Pt page)
  | .page pg => if pg < m.numPages then .ok (m.frames pg page) else .error .unmapped

def userFrame (m : Memory) (page : Nat) : Except Fault Nat := do
  let e ← walk m page
  if page < pageTableLen ∧ e.valid ∧ e.pfn.toNat < m.numPages then .ok e.pfn.toNat else .error .unmapped

def storeByte (vaddr : Nat) (x : BitVec 8) (m : Memory) : Except Fault Memory := do
  let f ← userFrame m (vaddr / pageSize)
  let e ← walk m (vaddr / pageSize)
  let i := vaddr % pageSize / 4
  if e.kprot &&& protWrite ≠ 0 then .ok (writeWord m f i ((m.frames f i).setByte (vaddr % 4) x))
  else .error .unmapped

def storeBytes : Nat → List (BitVec 8) → Memory → Except Fault Memory
  | _, [], m => .ok m
  | vaddr, x :: xs, m => do
      let m ← storeByte vaddr x m
      storeBytes (vaddr + 1) xs m

def storeLong (vaddr n : Nat) (m : Memory) : Except Fault Memory :=
  storeBytes vaddr ((List.range 8).map fun k => BitVec.ofNat 8 (n / 256 ^ k)) m

/-- Gives an entry a new frame: `valid`, `uprot`, `kprot` and `pfn` are set, the
last to what `findFreePage` returns, without a test for -1. -/
def mapPage (t : TablePtr) (uprot kprot : BitVec 3) (i : Int) (m : Memory) : Except Fault Memory := do
  let e ← readPte m t i
  let (page, m) := findFreePage m
  writePte t i { e with valid := true, uprot, kprot, pfn := BitVec.ofInt 20 page } m

end Yalnix.Machine
