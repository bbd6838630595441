import Yalnix.AddressSpace

namespace Yalnix.LoadProgram

open Loops Machine AddressSpace

/-- `struct loadinfo`. All four fields are `unsigned long`. -/
structure LoadInfo where
  textSize : Nat
  dataSize : Nat
  bssSize : Nat
  entry : Nat

/-- What the library's `LoadInfo` reports of an open file. -/
inductive LoadStatus
  | success (li : LoadInfo)
  | formatError
  | otherError
  | unknown

/-- A file as `LoadProgram` meets it: the answer of `LoadInfo`, and the bytes its
`read` delivers, or `none` when `read` returns -1, as it does where the pages are
not mapped. -/
structure File where
  status : LoadStatus
  read : Option (List (BitVec 8))

structure ExceptionInfo where
  code : Int
  addr : Nat
  psr : Nat
  pc : Nat
  sp : Nat
  regs : Nat → Nat

def numRegs : Nat := 8

structure Sizes where
  textNpg : Int
  dataBssNpg : Int
  stackNpg : Int
  cp : Int
  cpp : Int

def argsSize (args : List (List (BitVec 8))) : Nat := (args.map fun a => a.length + 1).sum

def sizes (cfg : Config) (li : LoadInfo) (args : List (List (BitVec 8))) : Sizes :=
  let cp : Int := cfg.userStackLimit * pageSize - argsSize args
  let cpp := cp - cp % 16 - (args.length + 4) * 8
  { textNpg := toInt (li.textSize / pageSize : Nat)
    dataBssNpg := toInt (upToPage (li.dataSize + li.bssSize))
    stackNpg := toInt (cfg.userStackLimit - cpp / pageSize)
    cp, cpp }

/-- MEM_INVALID_PAGES + text_npg. This sum and those below are of `int`s. -/
def Sizes.textEnd (z : Sizes) : Int := toInt (memInvalidPages + z.textNpg)

def Sizes.dataEnd (z : Sizes) : Int := toInt (memInvalidPages + z.textNpg + z.dataBssNpg)

def Sizes.textLen (z : Sizes) : Nat := (z.textEnd - memInvalidPages).toNat

def Sizes.dataLen (z : Sizes) : Nat := (z.dataEnd - z.textEnd).toNat

/-- The program and at least one unmapped page below the stack fit in a page table. -/
def fitsVirtual (z : Sizes) : Bool :=
  toInt (memInvalidPages + z.textNpg + z.dataBssNpg + 1 + z.stackNpg + 1 + kernelStackPages) ≤ pageTableLen

def Sizes.total (z : Sizes) : Int := toInt (z.dataBssNpg + z.textNpg + z.stackNpg)

def fitsPhysical (z : Sizes) (m : Memory) : Bool := z.total ≤ m.numFreePages

/-- One round of the loop that frees the old Region 0. The second disjunct of
its test compares a page number with the address KERNEL_STACK_LIMIT. -/
def freeEntry (ptr0 : TablePtr) (currTable : Nat) (m : Memory) : Except Fault Memory :=
  if currTable < kernelStackBase ∨ vmem1Base < currTable then do
    let e ← readPte m ptr0 currTable
    if e.valid then
      let m ← freePage e.pfn.toNat m
      writePte ptr0 currTable { e with valid := false } m
    else return m
  else return m

def invalidate (ptr0 : TablePtr) (i : Nat) (m : Memory) : Except Fault Memory := do
  let e ← readPte m ptr0 i
  writePte ptr0 i { e with valid := false } m

def protectText (ptr0 : TablePtr) (i : Nat) (m : Memory) : Except Fault Memory := do
  let e ← readPte m ptr0 i
  writePte ptr0 i { e with kprot := protRead ||| protExec } m

def layOut (cfg : Config) (ptr0 : TablePtr) (z : Sizes) (m : Memory) : Except Fault Memory := do
  let rw := protRead ||| protWrite
  let m ← upTo (freeEntry ptr0) 0 pageTableLen m
  let m ← upTo (invalidate ptr0) 0 memInvalidPages m
  let m ← upTo (fun i => mapPage ptr0 (protRead ||| protExec) rw i) memInvalidPages z.textLen m
  let m ← upTo (fun i => mapPage ptr0 rw rw (z.textEnd + i)) 0 z.dataLen m
  -- arguments of less than 2^31 bytes take less than 2^24 pages, so this bound does not wrap
  upTo (fun i => mapPage ptr0 rw rw (cfg.userStackLimit - 1 - i)) 0 z.stackNpg.toNat m

/-- The argument pointers from `cpp` up and the strings from `cp` up. -/
def copyArgs : List (List (BitVec 8)) → Nat → Nat → Memory → Except Fault (Nat × Memory)
  | [], cpp, _, m => .ok (cpp, m)
  | a :: args, cpp, cp, m => do
      let m ← storeLong cpp cp m
      let m ← storeBytes cp (a ++ [0]) m
      copyArgs args (cpp + 8) (cp + a.length + 1) m

/-- The new stack: argc, argv with its NULL, the empty envp, and the auxiliary vector. -/
def buildStack (args : List (List (BitVec 8))) (z : Sizes) (m : Memory) : Except Fault Memory := do
  let m ← storeLong (toUlong z.cpp) args.length m
  let (cpp, m) ← copyArgs args (toUlong z.cpp + 8) (toUlong z.cp) m
  let m ← storeLong cpp 0 m
  let m ← storeLong (cpp + 8) 0 m
  storeLong (cpp + 16) 0 m

def memInvalidSize : Nat := memInvalidPages * pageSize

def LoadInfo.readSize (li : LoadInfo) : Nat := toUlong (li.textSize + li.dataSize : Nat)

def LoadInfo.bssAddr (li : LoadInfo) : Nat := toUlong (memInvalidSize + li.textSize + li.dataSize : Nat)

def fill (ptr0 : TablePtr) (li : LoadInfo) (read : Option (List (BitVec 8)))
    (args : List (List (BitVec 8))) (z : Sizes) (info : ExceptionInfo) (m : Memory) :
    Except Fault (Int × ExceptionInfo × Memory) := do
  let bytes := (read.getD []).take li.readSize
  let m ← storeBytes memInvalidSize bytes m
  let count : Int := if read.isSome then bytes.length else -1
  if count ≠ toInt (li.textSize + li.dataSize : Nat) then
    return (-2, info, m)
  else
    let m ← upTo (protectText ptr0) memInvalidPages z.textLen m
    let m ← storeBytes li.bssAddr (List.replicate li.bssSize 0) m
    let m ← buildStack args z m
    let regs := fun i => if i < numRegs then 0 else info.regs i
    return (0, { info with pc := li.entry, regs, psr := 0 }, m)

/-- The `brk` that `LoadProgram` sets before its last check. -/
def newBrk (z : Sizes) : Nat := toUlong (toInt (z.dataBssNpg + z.textNpg + memInvalidPages))

def newSp (cfg : Config) (z : Sizes) : Nat := toUlong (cfg.userStackLimit - z.stackNpg)

/-- `LoadProgram`, called while `curr` is `curr_proc`, where its `malloc` finds room
in the kernel heap. The file is `none` when it cannot be opened. -/
def loadProgram (curr : Nat) (ptr0 : TablePtr) (file : Option File) (args : List (List (BitVec 8)))
    (info : ExceptionInfo) (m : Memory) : Except Fault (Int × ExceptionInfo × Memory) :=
  match file with
  | none => .ok (-1, info, m)
  | some file =>
      match file.status with
      | .formatError | .otherError | .unknown => .ok (-1, info, m)
      | .success li =>
          let z := sizes m.cfg li args
          -- `size` is an `int`: from 2^31 bytes on, strcpy runs out of the buffer, or gets NULL
          if 2 ^ 31 ≤ argsSize args then .error .wildDeref
          else if !fitsVirtual z then .ok (-1, info, m)
          else
            let m := setSpace m curr { m.space curr with brk := newBrk z }
            if !fitsPhysical z m then .ok (-1, info, m)
            else do
              let info := { info with sp := toUlong z.cpp }
              let m ← layOut m.cfg ptr0 z m
              let m := setSpace m curr { m.space curr with sp := newSp m.cfg z }
              fill ptr0 li file.read args z info m

/-- The `malloc` of the buffer for the arguments. The allocator is the library's: `grow` is
the break that it asks `SetKernelBrk` for, `none` when the kernel heap has room. Refused,
it returns NULL, and only a program without arguments gets by with that. -/
def mallocArgs (grow : Option Nat) (args : List (List (BitVec 8))) (m : Memory) : Except Fault Memory :=
  match grow with
  | none => .ok m
  | some addr => do
      let (r, m) ← setKernelBrk addr m
      if r = ERROR ∧ args ≠ [] then .error .nullDeref else return m

/-- `LoadProgram` with the growth of the kernel heap that its `malloc` may ask for. It
comes before all that `LoadProgram` does to the memory, so in a run it is a step of its own. -/
def loadProgramGrowing (grow : Option Nat) (curr : Nat) (ptr0 : TablePtr) (file : Option File) (args : List (List (BitVec 8)))
    (info : ExceptionInfo) (m : Memory) : Except Fault (Int × ExceptionInfo × Memory) :=
  match file with
  | some ⟨.success _, _⟩ => do
      let m ← mallocArgs grow args m
      loadProgram curr ptr0 file args info m
  | _ => loadProgram curr ptr0 file args info m

end Yalnix.LoadProgram
