import Yalnix.Machine

namespace Yalnix.AddressSpace

open Loops Machine

def buildFreePages (pmemSize : BitVec 32) (m : Memory) : Memory :=
  { m with
    numPages := pmemSize.toNat / pageSize
    numFreePages := pmemSize.toNat / pageSize
    freePages := fun _ => .pageFree }

def initRegion0 (page : Nat) (m : Memory) : Except Fault Memory := do
  let e := m.region0Pt page
  let e := { e with pfn := BitVec.ofNat 20 page, uprot := protNone, kprot := protRead ||| protWrite, valid := true }
  let frame ← index page m.numPages
  let m := setMark m frame .pageUsed
  return { m with region0Pt := put m.region0Pt page e, numFreePages := m.numFreePages - 1 }

/-- Up to the end of the text, rounded up, the page is executable and not writable. -/
def initRegion1 (page : Nat) (m : Memory) : Except Fault Memory := do
  let page ← index page pageTableLen
  let e := m.region1Pt page
  let kprot := if (pageTableLen + page : Int) < upToPage m.cfg.etext then protRead ||| protExec else protRead ||| protWrite
  let e := { e with pfn := BitVec.ofNat 20 (pageTableLen + page), uprot := protNone, kprot, valid := true }
  let frame ← index (pageTableLen + page) m.numPages
  return setMark (writeRegion1 m page e) frame .pageUsed

/-- The pages of Region 1 that start below the break, which is cut to an `unsigned int`. -/
def kernelPages (brk : Nat) : Nat := (brk % 2 ^ 32 - vmem1Base + (pageSize - 1)) / pageSize

def initPT (m : Memory) : Except Fault Memory := do
  let m ← upTo initRegion0 kernelStackBase kernelStackPages m
  let m ← upTo initRegion1 0 (kernelPages m.currKernelBrk) m
  return { m with regPtr0 := .region0Pt }

def mapKernelPage (i : Int) (m : Memory) : Except Fault Memory := do
  let (newPage, m) := findFreePage m
  let i ← index i pageTableLen
  let e := m.region1Pt i
  let e := { e with pfn := BitVec.ofInt 20 newPage, uprot := protNone, valid := true, kprot := protRead ||| protWrite }
  return writeRegion1 m i e

def pagesNeeded (m : Memory) (addr : Nat) : Int := toInt (upToPage addr - downToPage m.currKernelBrk)

def currBrkPg (m : Memory) : Int := toInt (downToPage m.currKernelBrk - pageTableLen)

def setKernelBrk (addr : Nat) (m : Memory) : Except Fault (Int × Memory) := do
  if !m.vmEnabled then
    return (0, { m with currKernelBrk := addr })
  else if m.numFreePages < pagesNeeded m addr then
    return (ERROR, m)
  else
    let brkPg := currBrkPg m
    let m ← upTo (fun page => mapKernelPage (brkPg + page)) 0 (pagesNeeded m addr).toNat m
    return (0, { m with currKernelBrk := addr })

/-- The table of `proc` is a page of Region 1 mapped to the frame of the same
number, found by `findFreeVirtualPage`. Only its kernel stack entries are set. -/
def buildRegion0 (proc : Nat) (m : Memory) : Except Fault Memory := do
  let (virtualPage, m) ← findFreeVirtualPage m
  let i ← index (toUlong virtualPage) pageTableLen
  let e := m.region1Pt i
  let e := { e with
    valid := true, kprot := protRead ||| protWrite, uprot := protNone
    pfn := BitVec.ofNat 20 (pageTableLen + i) }
  let m := writeRegion1 m i e
  let m := setSpace m proc { m.space proc with region0 := .page (pageTableLen + i), freeVpn := i }
  upTo (fun vpn => mapPage (m.space proc).region0 protNone (protRead ||| protWrite) vpn)
    kernelStackBase kernelStackPages m

def copyPage (borrowed page : Nat) (m : Memory) : Except Fault Memory := do
  let source ← userFrame m page
  let dest ← kernelFrame m (pageTableLen + borrowed)
  return { m with frames := put m.frames dest (m.frames source) }

/-- Puts the saved entry back. The frame with the page's own number is marked
free, whoever owns it. -/
def returnPage (borrowed : Nat) (saved : Pte) (m : Memory) : Except Fault Memory := do
  let m := writeRegion1 m borrowed saved
  let frame ← index (borrowed + pageTableLen) m.numPages
  return setMark m frame .pageFree

def tempEntry (e : Pte) : Pte :=
  { e with uprot := protNone, kprot := protRead ||| protWrite, valid := true }

def copyStackPage (proc2 borrowed page : Nat) (m : Memory) : Except Fault Memory := do
  let e ← readPte m (m.space proc2).region0 page
  let temp := tempEntry (m.region1Pt borrowed)
  copyPage borrowed page (writeRegion1 m borrowed { temp with pfn := e.pfn })

def switchNewProc (proc2 : Nat) (m : Memory) : Except Fault Memory := do
  let borrowed ← index (borrowR1Page m) pageTableLen
  let saved := m.region1Pt borrowed
  let m ← upTo (copyStackPage proc2 borrowed) kernelStackBase kernelStackPages m
  let m ← returnPage borrowed saved m
  return { m with regPtr0 := .page (pageTableLen + (m.space proc2).freeVpn) }

/-- One round of the loop of `SwitchFork`: a valid page of the parent gets a new
frame in the child, which is filled through the borrowed page. -/
def forkPage (parent child borrowed page : Nat) (m : Memory) : Except Fault Memory := do
  let p ← readPte m (m.space parent).region0 page
  if p.valid then
    let m ← mapPage (m.space child).region0 p.uprot p.kprot page m
    let c ← readPte m (m.space child).region0 page
    copyPage borrowed page (writeRegion1 m borrowed { m.region1Pt borrowed with pfn := c.pfn })
  else
    let c ← readPte m (m.space child).region0 page
    writePte (m.space child).region0 page { c with valid := false } m

def switchFork (parent child : Nat) (m : Memory) : Except Fault Memory := do
  let borrowed ← index (borrowR1Page m) pageTableLen
  let saved := m.region1Pt borrowed
  let m := writeRegion1 m borrowed (tempEntry saved)
  let m ← upTo (forkPage parent child borrowed) 0 pageTableLen m
  let m ← returnPage borrowed saved m
  return { m with regPtr0 := .page (pageTableLen + (m.space child).freeVpn) }

def switchExist (proc2 : Nat) (m : Memory) : Memory :=
  { m with regPtr0 := (m.space proc2).region0 }

/-- The table keeps its entry: `valid` is cleared in a local copy only. -/
def exitPage (proc1 page : Nat) (m : Memory) : Except Fault Memory := do
  let e ← readPte m (m.space proc1).region0 page
  if e.valid then freePage e.pfn.toNat m else return m

def switchExit (proc1 proc2 : Nat) (m : Memory) : Except Fault Memory := do
  let m ← upTo (exitPage proc1) 0 pageTableLen m
  return { m with regPtr0 := (m.space proc2).region0 }

/-- What `ExitFunc` does after its context switch. -/
def releaseTable (proc : Nat) (m : Memory) : Except Fault Memory := do
  let i ← index (m.space proc).freeVpn pageTableLen
  let e := m.region1Pt i
  freePage e.pfn.toNat (writeRegion1 m i { e with valid := false })

def roundedBrk (addr : Nat) : Nat := toUlong (upToPage addr)

/-- The frame number freed here is the page number, and the table is `region0Pt`
for every caller. -/
def brkDown (page : Nat) (m : Memory) : Except Fault Memory := do
  let m ← freePage (toInt page) m
  let e ← readPte m .region0Pt page
  writePte .region0Pt page { e with valid := false } m

def brkFunc (curr addr : Nat) (m : Memory) : Except Fault (Int × Memory) := do
  let rounded := roundedBrk addr
  let brk := (m.space curr).brk
  if rounded < brk ∧ memInvalidPages ≤ rounded then
    let m ← upTo brkDown brk (toInt (brk - rounded)).toNat m
    return (0, setSpace m curr { m.space curr with brk := rounded })
  else if brk ≤ rounded then
    let rw := protRead ||| protWrite
    let m ← upTo (fun page => mapPage .region0Pt rw rw page) brk (toInt (rounded - brk)).toNat m
    return (0, setSpace m curr { m.space curr with brk := rounded })
  else
    return (ERROR, m)

/-- The part of `TrapMemoryHandler` that lowers the bottom of the stack to the page `vpn`. -/
def growStack (curr vpn : Nat) (m : Memory) : Except Fault Memory := do
  let pgsUp := toInt (toInt (m.space curr).sp - vpn)
  let rw := protRead ||| protWrite
  let m ← upTo (fun page => mapPage (m.space curr).region0 rw rw page) vpn pgsUp.toNat m
  return setSpace m curr { m.space curr with sp := vpn }

end Yalnix.AddressSpace
