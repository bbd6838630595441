import Yalnix.Calls
import Yalnix.FreeList
import Yalnix.Runs

namespace Yalnix.Exec

open Loops Machine AddressSpace LoadProgram Kernel Accesses FreeList Calls

variable {curr : Nat} {t : TablePtr} {file : Option File} {f : File} {li : LoadInfo} {args : List (List (BitVec 8))}
  {info info' : ExceptionInfo} {m m' : Memory} {r : Int}

def Opens (file : Option File) (li : LoadInfo) : Prop := ∃ f, file = some f ∧ f.status = .success li

theorem opens_unique {li' : LoadInfo} (h : Opens file li) (h' : Opens file li') : li = li' := by
  obtain ⟨f, rfl, hst⟩ := h
  obtain ⟨f', hf, hst'⟩ := h'
  obtain rfl := Option.some.inj hf
  exact LoadStatus.success.inj (hst.symm.trans hst')

theorem args_small (ho : Opens file li) {res : Int × ExceptionInfo × Memory} (h : loadProgram curr t file args info m = .ok res) :
    argsSize args < 2 ^ 31 := by
  obtain ⟨f, rfl, hst⟩ := ho
  simp only [loadProgram, hst] at h
  exact Nat.not_le.1 (error_ite_ok.1 h).1

theorem loadProgram_refused (hargs : ∀ li, Opens file li → argsSize args < 2 ^ 31)
    (h : ∀ li, Opens file li → fitsVirtual (sizes m.cfg li args) = false) :
    loadProgram curr t file args info m = .ok (-1, info, m) := by
  unfold loadProgram
  cases file with
  | none => rfl
  | some f =>
      cases hst : f.status with
      | formatError | otherError | unknown => simp [hst]
      | success li =>
          have hsmall : ¬ 2 ^ 31 ≤ argsSize args := Nat.not_le.2 (hargs li ⟨f, rfl, hst⟩)
          simp only [hst, if_neg hsmall, h li ⟨f, rfl, hst⟩, Bool.not_false, if_true]

theorem loadProgram_short (ho : Opens file li) (hargs : argsSize args < 2 ^ 31) (hv : fitsVirtual (sizes m.cfg li args) = true)
    (hp : fitsPhysical (sizes m.cfg li args) m = false) :
    loadProgram curr t file args info m =
      .ok (-1, info, setSpace m curr { m.space curr with brk := newBrk (sizes m.cfg li args) }) := by
  obtain ⟨f, rfl, hst⟩ := ho
  have hsmall : ¬ 2 ^ 31 ≤ argsSize args := Nat.not_le.2 hargs
  have hp' (sp : Space) : fitsPhysical (sizes m.cfg li args) (setSpace m curr sp) = false := hp
  simp only [loadProgram, hst, if_neg hsmall, hv, hp', Bool.not_true, Bool.not_false, Bool.false_eq_true, if_false, if_true]

theorem loadProgram_passes (hf : file = some f) (hst : f.status = .success li) (hargs : argsSize args < 2 ^ 31)
    (hv : fitsVirtual (sizes m.cfg li args) = true) (hp : fitsPhysical (sizes m.cfg li args) m = true) :
    loadProgram curr t file args info m = (do
      let z := sizes m.cfg li args
      let m₁ ← layOut m.cfg t z (setSpace m curr { m.space curr with brk := newBrk z })
      fill t li f.read args z { info with sp := toUlong z.cpp }
        (setSpace m₁ curr { m₁.space curr with sp := newSp m₁.cfg z })) := by
  subst hf
  have hsmall : ¬ 2 ^ 31 ≤ argsSize args := Nat.not_le.2 hargs
  have hp' (sp : Space) : fitsPhysical (sizes m.cfg li args) (setSpace m curr sp) = true := hp
  simp only [loadProgram, hst, if_neg hsmall, hv, hp', Bool.not_true, Bool.false_eq_true, if_false]
  rfl

theorem refused_cases (ho : Opens file li) (h : loadProgram curr t file args info m = .ok (-1, info', m')) :
    (info' = info ∧ m' = m) ∨ (fitsVirtual (sizes m.cfg li args) = true ∧ info' = info ∧
      m' = setSpace m curr { m.space curr with brk := newBrk (sizes m.cfg li args) }) := by
  rcases loadProgram_ok h with ⟨-, hinfo, hm⟩ | ⟨f, li', hf, hst, hv, ⟨-, -, hinfo, hm⟩ | ⟨-, m₁, -, hfill⟩⟩
  · exact .inl ⟨hinfo, hm⟩
  · obtain rfl := opens_unique ho ⟨f, hf, hst⟩
    exact .inr ⟨hv, hinfo, hm⟩
  · obtain ⟨m₂, -, ⟨h2, -⟩ | ⟨h0, -⟩⟩ := fill_ok hfill
    · cases h2
    · cases h0

theorem setSpace_self (m : Memory) (curr : Nat) : setSpace m curr (m.space curr) = m := by
  have hspace : put m.space curr (m.space curr) = m.space := by
    funext p
    by_cases hp : p = curr
    · rw [hp, put_self]
    · rw [put_of_ne hp]
  rw [setSpace, hspace]

structure Kept (m m' : Memory) : Prop where
  space : m'.space = m.space
  region0Pt : m'.region0Pt = m.region0Pt
  frames : m'.frames = m.frames
  freePages : m'.freePages = m.freePages
  numFreePages : m'.numFreePages = m.numFreePages

theorem Kept.refl (m : Memory) : Kept m m := ⟨rfl, rfl, rfl, rfl, rfl⟩

theorem Kept.trans {u : Memory} (h : Kept m u) (h' : Kept u m') : Kept m m' :=
  ⟨h'.space.trans h.space, h'.region0Pt.trans h.region0Pt, h'.frames.trans h.frames, h'.freePages.trans h.freePages,
    h'.numFreePages.trans h.numFreePages⟩

/-- `malloc` asks for pages, `SetKernelBrk` grants them, and there is a frame to take. -/
def Grows (grow : Option Nat) (m : Memory) : Prop :=
  ∃ addr, grow = some addr ∧ m.vmEnabled = true ∧ pagesNeeded m addr ≤ m.numFreePages ∧ 0 < pagesNeeded m addr ∧ freeList m ≠ []

theorem mapKernelPage_takes {i : Int} (h : AddressSpace.mapKernelPage i m = .ok m') :
    (freeList m ≠ [] → m'.numFreePages < m.numFreePages) ∧ (freeList m = [] → Kept m m' ∧ freeList m' = []) := by
  obtain ⟨k, -, -, ⟨f, l, hl, rfl⟩ | ⟨hl, rfl⟩⟩ := mapKernelPage_cases h
  · refine ⟨fun _ => ?_, fun hnil => absurd (hl.symm.trans hnil) nofun⟩
    change m.numFreePages - 1 < m.numFreePages
    omega
  · exact ⟨fun hne => absurd hl hne, fun _ => ⟨⟨rfl, rfl, rfl, rfl, rfl⟩, hl⟩⟩

/-- A growth that takes a frame shows in the counter; any other shows nowhere. -/
theorem kernelPages_kept {brkPg : Int} {start n : Nat}
    (h : upTo (fun page => AddressSpace.mapKernelPage (brkPg + page)) start n m = .ok m') :
    (freeList m = [] ∨ n = 0 → Kept m m') ∧ (freeList m ≠ [] → 0 < n → m'.numFreePages < m.numFreePages) := by
  have hdown {u v : Memory} {a k : Nat} (h : upTo (fun page => AddressSpace.mapKernelPage (brkPg + page)) a k u = .ok v) :
      v.numFreePages ≤ u.numFreePages := by
    refine upTo_relation (fun u v : Memory => v.numFreePages ≤ u.numFreePages) (fun _ => Int.le_refl _)
      (fun _ _ _ h h' => Int.le_trans h' h) (fun i u v _ _ hv => ?_) h
    by_cases hnil : freeList u = []
    · exact Int.le_of_eq ((mapKernelPage_takes hv).2 hnil).1.numFreePages
    · exact Int.le_of_lt ((mapKernelPage_takes hv).1 hnil)
  refine ⟨fun hnil => ?_, fun hne hn => ?_⟩
  · rcases hnil with hnil | rfl
    · refine (upTo_invariant (fun _ u => Kept m u ∧ freeList u = []) (fun i u v _ _ hu hv => ?_) ⟨.refl m, hnil⟩ h).1
      obtain ⟨hkept, hnil'⟩ := (mapKernelPage_takes hv).2 hu.2
      exact ⟨hu.1.trans hkept, hnil'⟩
    · obtain rfl := Except.ok.inj h
      exact .refl m
  · obtain ⟨n, rfl⟩ := Nat.exists_eq_succ_of_ne_zero (Nat.ne_of_gt hn)
    obtain ⟨u, hu, h⟩ := bind_ok.1 h
    exact Int.lt_of_le_of_lt (hdown h) ((mapKernelPage_takes hu).1 hne)

theorem mallocArgs_kept {grow : Option Nat} (h : mallocArgs grow args m = .ok m') : Kept m m' ↔ ¬ Grows grow m := by
  cases grow with
  | none =>
      obtain rfl := Except.ok.inj h
      refine iff_of_true (.refl m) ?_
      rintro ⟨addr, hgrow, -⟩
      cases hgrow
  | some addr =>
      obtain ⟨⟨r, u⟩, hu, h⟩ := bind_ok.1 h
      obtain ⟨-, h⟩ := error_ite_ok.1 h
      obtain rfl := Except.ok.inj h
      have hgrows : Grows (some addr) m ↔
          m.vmEnabled = true ∧ pagesNeeded m addr ≤ m.numFreePages ∧ 0 < pagesNeeded m addr ∧ freeList m ≠ [] := by
        refine ⟨?_, fun h => ⟨addr, rfl, h⟩⟩
        rintro ⟨a, ha, h⟩
        obtain rfl := Option.some.inj ha
        exact h
      rw [hgrows]
      rcases setKernelBrk_ok hu with ⟨-, hlt, -, rfl⟩ | ⟨hvm, -, rfl⟩ | ⟨hvm, hge, -, v, hv, rfl⟩
      · exact iff_of_true (.refl _) fun ⟨_, hle, _⟩ => by omega
      · exact iff_of_true ⟨rfl, rfl, rfl, rfl, rfl⟩ fun ⟨hon, _⟩ => by rw [hvm] at hon; cases hon
      · obtain ⟨hkept, htakes⟩ := kernelPages_kept hv
        constructor
        · rintro hsame ⟨-, -, hpos, hne⟩
          exact absurd hsame.numFreePages (Int.ne_of_lt (htakes hne (by omega)))
        · intro hno
          have hv' : Kept m v := by
            refine hkept ?_
            by_cases hnil : freeList m = []
            · exact .inl hnil
            · refine .inr (Int.toNat_eq_zero.2 (Int.not_lt.1 fun hpos => hno ⟨hvm, by omega, hpos, hnil⟩))
          exact ⟨hv'.space, hv'.region0Pt, hv'.frames, hv'.freePages, hv'.numFreePages⟩

theorem mallocArgs_cfg {grow : Option Nat} (h : mallocArgs grow args m = .ok m') : m'.cfg = m.cfg ∧ m'.space = m.space := by
  cases grow with
  | none =>
      obtain rfl := Except.ok.inj h
      exact ⟨rfl, rfl⟩
  | some addr =>
      obtain ⟨⟨r, u⟩, hu, h⟩ := bind_ok.1 h
      obtain ⟨-, h⟩ := error_ite_ok.1 h
      obtain rfl := Except.ok.inj h
      rcases setKernelBrk_ok hu with ⟨-, -, -, rfl⟩ | ⟨-, -, rfl⟩ | ⟨-, -, -, v, hv, rfl⟩
      · exact ⟨rfl, rfl⟩
      · exact ⟨rfl, rfl⟩
      · have hfix := Fixed.upTo (fun _ _ _ => Fixed.mapKernelPage) hv
        exact ⟨hfix.cfg, hfix.space⟩

/-- A program that the checks refuse finds room for its arguments in the kernel heap, and one
that the check of physical memory refuses, in the memory that `malloc` leaves, has the new `brk` already. -/
def Refusable (grow : Option Nat) (curr : Nat) (file : Option File) (args : List (List (BitVec 8))) (m : Memory) : Prop :=
  ∀ li m₁, Opens file li → argsSize args < 2 ^ 31 → mallocArgs grow args m = .ok m₁ →
    fitsVirtual (sizes m.cfg li args) = true ∧ fitsPhysical (sizes m.cfg li args) m₁ = true ∨
      ¬ Grows grow m ∧ (fitsVirtual (sizes m.cfg li args) = true → (m.space curr).brk = newBrk (sizes m.cfg li args))

theorem growing_opens {grow : Option Nat} (ho : Opens file li) : loadProgramGrowing grow curr t file args info m =
    (mallocArgs grow args m >>= fun m₁ => loadProgram curr t file args info m₁) := by
  obtain ⟨⟨status, read⟩, rfl, rfl⟩ := ho
  rfl

theorem growing_closed {grow : Option Nat} (h : ∀ li, ¬ Opens file li) :
    loadProgramGrowing grow curr t file args info m = .ok (-1, info, m) := by
  have hload : loadProgramGrowing grow curr t file args info m = loadProgram curr t file args info m := by
    unfold loadProgramGrowing
    split
    case h_1 li read => exact absurd ⟨_, rfl, rfl⟩ (h li)
    case h_2 => rfl
  rw [hload]
  exact loadProgram_refused (fun li ho => absurd ho (h li)) fun li ho => absurd ho (h li)

/-- Where `LoadProgram` returns -1 it has changed neither the pcb, the tables and the allocator
nor the registers, exactly when it did not take frames for its buffer, and did not assign a new
`brk`, before the check that failed. -/
theorem refused_unchanged_iff (grow : Option Nat) (curr : Nat) (t : TablePtr) (file : Option File) (args : List (List (BitVec 8)))
    (info : ExceptionInfo) (m : Memory) :
    (∀ info' m', loadProgramGrowing grow curr t file args info m = .ok (-1, info', m') → info' = info ∧ Kept m m') ↔
      Refusable grow curr file args m := by
  constructor
  · intro h li m₁ ho hargs hm₁
    obtain ⟨hcfg, hspace⟩ := mallocArgs_cfg hm₁
    have hkept := mallocArgs_kept hm₁
    have hrun {res : Int × ExceptionInfo × Memory} (hload : loadProgram curr t file args info m₁ = .ok res) :
        loadProgramGrowing grow curr t file args info m = .ok res := by
      rw [growing_opens ho]
      exact bind_ok.2 ⟨m₁, hm₁, hload⟩
    rw [← hcfg]
    cases hv : fitsVirtual (sizes m₁.cfg li args) with
    | false =>
        have hrefused := hrun (loadProgram_refused (fun _ _ => hargs) fun li' ho' => opens_unique ho ho' ▸ hv)
        exact .inr ⟨hkept.1 (h _ _ hrefused).2, nofun⟩
    | true =>
        cases hp : fitsPhysical (sizes m₁.cfg li args) m₁ with
        | true => exact .inl ⟨rfl, rfl⟩
        | false =>
            have hsame := (h _ _ (hrun (loadProgram_short ho hargs hv hp))).2
            refine .inr ⟨hkept.1 ?_, fun _ => ?_⟩
            · exact ⟨hspace, hsame.region0Pt, hsame.frames, hsame.freePages, hsame.numFreePages⟩
            · rw [← congrFun hsame.space curr, setSpace_space_self]
  · intro h info' m' hload
    by_cases hopen : ∃ li, Opens file li
    · obtain ⟨li, ho⟩ := hopen
      rw [growing_opens ho] at hload
      obtain ⟨m₁, hm₁, hload⟩ := bind_ok.1 hload
      have hargs := args_small ho hload
      obtain ⟨hcfg, hspace⟩ := mallocArgs_cfg hm₁
      have href := h li m₁ ho hargs hm₁
      rw [← hcfg] at href
      rcases href with ⟨hv, hp⟩ | ⟨hgrows, hbrk⟩
      · obtain ⟨f, hf, hst⟩ := ho
        rw [loadProgram_passes hf hst hargs hv hp] at hload
        obtain ⟨m₂, -, hfill⟩ := bind_ok.1 hload
        obtain ⟨m₃, -, ⟨h2, -⟩ | ⟨h0, -⟩⟩ := fill_ok hfill
        · cases h2
        · cases h0
      · have hkept := (mallocArgs_kept hm₁).2 hgrows
        rcases refused_cases ho hload with ⟨rfl, rfl⟩ | ⟨hv, rfl, rfl⟩
        · exact ⟨rfl, hkept⟩
        · rw [← hbrk hv, ← hspace]
          exact ⟨rfl, (setSpace_self m₁ curr).symm ▸ hkept⟩
    · rw [growing_closed fun li ho => hopen ⟨li, ho⟩] at hload
      obtain ⟨-, rfl, rfl⟩ : (-1 : Int) = -1 ∧ info = info' ∧ m = m' := by simpa using hload
      exact ⟨rfl, .refl m⟩

def emptyMemory (free : Nat) : Memory :=
  { AddressSpace.buildFreePages (BitVec.ofNat 32 (1024 * pageSize)) Runs.zeroState.mem with
    numFreePages := free
    regPtr0 := .region0Pt
    space := fun _ => ⟨memInvalidPages, kernelStackBase, .region0Pt, 0⟩ }

theorem refused_unchanged_small : ∀ info' m',
    loadProgramGrowing none 0 .region0Pt (some Runs.smallFile) [] Runs.smallInfo (emptyMemory 1024) = .ok (-1, info', m') →
      info' = Runs.smallInfo ∧ Kept (emptyMemory 1024) m' := by
  refine (refused_unchanged_iff ..).2 fun li m₁ ho _ hm₁ => ?_
  obtain rfl := Except.ok.inj hm₁
  obtain rfl := opens_unique ⟨_, rfl, rfl⟩ ho
  exact .inl ⟨by decide, by decide⟩

def longFile : File := ⟨.success ⟨600 * pageSize, 0, 0, 0⟩, none⟩

/-- A program of two pages is refused with one frame left, and `brk` has moved; another one
is refused after `malloc` has taken a frame. -/
theorem refused_moves_brk :
    (∃ m', loadProgramGrowing none 0 .region0Pt (some Runs.smallFile) [] Runs.smallInfo (emptyMemory 1) =
      .ok (-1, Runs.smallInfo, m') ∧ ((emptyMemory 1).space 0).brk = 16 ∧ (m'.space 0).brk = 17) ∧
    ∃ info' m', loadProgramGrowing (some (vmem1Base + pageSize)) 0 .region0Pt (some longFile) [[97]] Runs.smallInfo
        { emptyMemory 1024 with vmEnabled := true, currKernelBrk := vmem1Base } = .ok (-1, info', m') ∧
      m'.numFreePages = 1023 := by
  have ho : Opens (some Runs.smallFile) ⟨0, 4, 0, 0⟩ := ⟨_, rfl, rfl⟩
  constructor
  · have hload : loadProgram 0 .region0Pt (some Runs.smallFile) [] Runs.smallInfo (emptyMemory 1) = .ok (-1, Runs.smallInfo, _) :=
      loadProgram_short ho (by decide) (by decide) (by decide)
    refine ⟨_, hload, rfl, ?_⟩
    rw [setSpace_space_self]
    decide
  · have h : yields (loadProgramGrowing (some (vmem1Base + pageSize)) 0 .region0Pt (some longFile) [[97]] Runs.smallInfo
        { emptyMemory 1024 with vmEnabled := true, currKernelBrk := vmem1Base })
        (fun res => decide (res.1 = -1) && decide (res.2.2.numFreePages = 1023)) = true := by
      decide +kernel
    obtain ⟨⟨r, info', m'⟩, hload, hres⟩ := yields_iff.1 h
    simp only [Bool.and_eq_true, decide_eq_true_eq] at hres
    obtain ⟨rfl, hfree⟩ := hres
    exact ⟨info', m', hload, hfree⟩

/-- `read` delivers all that the header announces, and its size is an `int`. -/
def ReadsAll (f : File) (li : LoadInfo) : Prop :=
  ∃ bytes, f.read = some bytes ∧ li.textSize + li.dataSize ≤ bytes.length ∧ li.textSize + li.dataSize < 2 ^ 31

/-- The new program is in place: laid out, read, its text protected, its bss
zeroed and its stack built, and the registers start it. -/
structure InPlace (curr : Nat) (t : TablePtr) (file : Option File) (args : List (List (BitVec 8))) (m : Memory)
    (info' : ExceptionInfo) (m' : Memory) : Prop where
  file : ∃ f li, file = some f ∧ f.status = .success li ∧ ReadsAll f li ∧
    let z := sizes m.cfg li args
    let bytes := (f.read.getD []).take li.readSize
    bytes.length = li.textSize + li.dataSize ∧
    (∃ m₁ m₂ m₃ m₄, layOut m.cfg t z (setSpace m curr { m.space curr with brk := newBrk z }) = .ok m₁ ∧
      storeBytes memInvalidSize bytes (setSpace m₁ curr { m₁.space curr with sp := newSp m₁.cfg z }) = .ok m₂ ∧
      upTo (protectText t) memInvalidPages z.textLen m₂ = .ok m₃ ∧
      storeBytes li.bssAddr (List.replicate li.bssSize 0) m₃ = .ok m₄ ∧
      buildStack args z m₄ = .ok m') ∧
    info'.pc = li.entry ∧ info'.sp = toUlong z.cpp ∧ info'.psr = 0 ∧ ∀ i, i < numRegs → info'.regs i = 0

theorem toInt_nat {n : Nat} : toInt n = n ↔ n < 2 ^ 31 := by
  rw [toInt, BitVec.toInt_ofInt]
  constructor
  · intro h
    have := Int.bmod_lt (x := (n : Int)) (show 0 < 2 ^ 32 by decide)
    omega
  · intro h
    exact Int.bmod_eq_of_le (by omega) (by omega)

theorem fill_code {read : Option (List (BitVec 8))} {z : Sizes} (h : fill t li read args z info m = .ok (r, info', m')) :
    r = 0 ↔ (if read.isSome then (((read.getD []).take li.readSize).length : Int) else -1) =
      toInt (li.textSize + li.dataSize : Nat) := by
  obtain ⟨m₁, h₁, h⟩ := bind_ok.1 h
  dsimp only at h
  generalize (if read.isSome = true then (((read.getD []).take li.readSize).length : Int) else -1) =
    count at h ⊢
  split at h
  case isTrue hc =>
    obtain ⟨rfl, -⟩ := Prod.mk.inj (Except.ok.inj h)
    exact ⟨fun h0 => absurd h0 (by decide), fun he => absurd he hc⟩
  case isFalse hc =>
    obtain ⟨m₂, h₂, h⟩ := bind_ok.1 h
    obtain ⟨m₃, h₃, h⟩ := bind_ok.1 h
    obtain ⟨m₄, h₄, h⟩ := bind_ok.1 h
    obtain ⟨rfl, -⟩ := Prod.mk.inj (Except.ok.inj h)
    exact ⟨fun _ => Decidable.not_not.1 hc, fun _ => rfl⟩

theorem inPlace_iff (hf : file = some f) (hst : f.status = .success li)
    (hv : fitsVirtual (sizes m.cfg li args) = true) (hp : fitsPhysical (sizes m.cfg li args) m = true)
    (h : loadProgram curr t file args info m = .ok (r, info', m')) :
    (r = 0 ∧ InPlace curr t file args m info' m') ↔ ReadsAll f li := by
  constructor
  · rintro ⟨-, hin⟩
    obtain ⟨f', li', hf', hst', hall, -⟩ := hin.file
    obtain rfl := Option.some.inj (hf.symm.trans hf')
    obtain rfl := LoadStatus.success.inj (hst.symm.trans hst')
    exact hall
  · intro hall
    obtain ⟨bytes, hread, hlen, hint⟩ := id hall
    rw [loadProgram_passes hf hst (args_small ⟨f, hf, hst⟩ h) hv hp] at h
    obtain ⟨m₁, h₁, hfill⟩ := bind_ok.1 h
    have hbytes : ((f.read.getD []).take li.readSize).length = li.textSize + li.dataSize := by
      rw [hread, Option.getD_some, List.length_take, LoadInfo.readSize, toUlong_nat (by omega), Nat.min_eq_left hlen]
    have hr : r = 0 := by
      rw [fill_code hfill, hbytes, hread]
      exact (toInt_nat.2 hint).symm
    obtain ⟨m₂, h₂, ⟨h2, -⟩ | ⟨-, rfl, m₃, m₄, h₃, h₄, h₅⟩⟩ := fill_ok hfill
    · omega
    · refine ⟨hr, ⟨f, li, hf, hst, hall, hbytes, ⟨m₁, m₂, m₃, m₄, h₁, h₂, h₃, h₄, h₅⟩, rfl, rfl, rfl, fun i hi => ?_⟩⟩
      exact if_pos hi

end Yalnix.Exec
