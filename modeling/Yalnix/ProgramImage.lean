import Yalnix.Exec
import Yalnix.UserMemory

namespace Yalnix.ProgramImage

open Loops Machine AddressSpace LoadProgram Processes Kernel Accesses FreeList Calls Boot Runs Layout Frames FrameOwnership Isolation
  ValidPages SpaceLayout LayoutRuns Protection Arguments Bytes Exec UserMemory FrameLeak BootFrames
open PrivateMemory (Act Cell lastStore)

variable {env : BootEnv} {s t u : State} {info info' : ExceptionInfo} {m m' mem : Memory} {P : Slot → Prop} {w : Word} {ptr : TablePtr}
  {f : File} {li : LoadInfo} {args : List (List (BitVec 8))} {bytes : List (BitVec 8)} {x : BitVec 8} {l l' : List (Nat × BitVec 8)}
  {a i j n sp cp curr vaddr : Nat}

def programByte (li : LoadInfo) (bytes : List (BitVec 8)) (i : Nat) : BitVec 8 :=
  if i < li.textSize + li.dataSize then bytes.getD i 0 else 0

/-- The pages of a program, which of them it may write, its bytes, and its arguments at `sp`. -/
structure Starts (cfg : Config) (li : LoadInfo) (bytes : List (BitVec 8)) (args : List (List (BitVec 8))) (sp : Nat)
    (b : Nat → Option (Cell (BitVec 8))) : Prop where
  pages : ∀ a, b a ≠ none ↔ IsText (textPages li) (a / pageSize) ∨ IsData (textPages li) (dataPages li) (a / pageSize) ∨
    IsStack cfg.userStackLimit (stackPages cfg li args) (a / pageSize)
  writable : ∀ a k, b a = some k → (k.writable = true ↔ ¬ IsText (textPages li) (a / pageSize))
  program : ∀ i < li.textSize + li.dataSize + li.bssSize, (b (memInvalidSize + i)).map Cell.value = some (programByte li bytes i)
  arguments : decode (fun a => ((b a).map Cell.value).getD 0) sp = some args
  aligned : sp % 8 = 0

def Backed (m : Memory) (w : Word) (a : Nat) : Prop := a / pageSize < pageTableLen ∧ (w.read m (a / pageSize)).valid = true

structure Written (P : Slot → Prop) (ptr : TablePtr) (w : Word) (l : List (Nat × BitVec 8)) (m m' : Memory) : Prop where
  loading : Loading P ptr w m'
  read : ∀ j, j < pageTableLen → w.read m' j = w.read m j
  stored : ∀ x ∈ l, Backed m w x.1
  bytes : ∀ a, Backed m w a → userByte m' w a = write (userByte m w) l a

theorem Written.backed (h : Written P ptr w l m m') : Backed m' w a ↔ Backed m w a :=
  and_congr_right fun hlt => by rw [h.read _ hlt]

theorem Written.append (h : Written P ptr w l m mem) (h' : Written P ptr w l' mem m') : Written P ptr w (l ++ l') m m' := by
  refine ⟨h'.loading, fun j hj => (h'.read j hj).trans (h.read j hj), fun x hx => ?_, fun a ha => ?_⟩
  · rcases List.mem_append.1 hx with hx | hx
    · exact h.stored x hx
    · exact h.backed.1 (h'.stored x hx)
  · rw [h'.bytes a (h.backed.2 ha), write_append]
    exact write_congr (h.bytes a ha)

theorem storeByte_written (h : Loading P ptr w m) (hin : ∀ j, j < pageTableLen → P (.entry w j)) (hs : storeByte vaddr x m = .ok m') :
    Written P ptr w [(vaddr, x)] m m' := by
  have hrun : ∀ j, j < pageTableLen → P (.entry (wordOf m.regPtr0) j) := h.running.symm ▸ hin
  have hfix := Fixed.storeByte hs
  have hread (j : Nat) (hj : j < pageTableLen) : w.read m' j = w.read m j := storeByte_read h.owned hrun hs (hin j hj)
  have hload : Loading P ptr w m' := ⟨storeByte_owned h.owned hrun hs, Leads.of_fixed h.leads hfix (SameRegion1.storeByte hs),
    hfix.regPtr0.symm ▸ h.running⟩
  obtain ⟨p, hp, hs⟩ := bind_ok.1 hs
  obtain ⟨e, -, hs⟩ := bind_ok.1 hs
  obtain ⟨-, hs⟩ := ite_error_ok.1 hs
  obtain ⟨e', he', hp⟩ := bind_ok.1 hp
  obtain ⟨⟨hlt, hvalid, -⟩, hp⟩ := ite_error_ok.1 hp
  obtain rfl := Except.ok.inj hp
  obtain rfl := walk_read he'
  rw [h.running] at hvalid hs
  refine ⟨hload, hread, fun y hy => ?_, fun a ha => ?_⟩
  · rw [List.mem_singleton.1 hy]
    exact ⟨hlt, hvalid⟩
  · refine (userByte_store rfl (Except.ok.inj hs).symm (hread _ ha.1) fun he => ?_).trans (Function.update_apply ..).symm
    have hslot := h.owned.holds.apart _ _ _ (hin _ ha.1) (hin _ hlt) (names_some.2 ⟨ha.2, he⟩) (names_some.2 ⟨hvalid, rfl⟩)
    exact (Slot.entry.inj hslot).2.symm

theorem storeAll_written (h : Loading P ptr w m) (hin : ∀ j, j < pageTableLen → P (.entry w j)) (hs : storeAll l m = .ok m') :
    Written P ptr w l m m' := by
  induction l generalizing m with
  | nil =>
      obtain rfl := Except.ok.inj hs
      exact ⟨h, fun _ _ => rfl, nofun, fun _ _ => rfl⟩
  | cons y l ih =>
      obtain ⟨u, hu, hs⟩ := bind_ok.1 hs
      have hone := storeByte_written h hin hu
      exact hone.append (ih hone.loading hs)

theorem storeBytes_written (h : Loading P ptr w m) (hin : ∀ j, j < pageTableLen → P (.entry w j))
    (hs : storeBytes vaddr bytes m = .ok m') : Written P ptr w (bytesAt vaddr bytes) m m' :=
  storeAll_written h hin ((storeBytes_eq ..).symm.trans hs)

theorem fill_places {cfg : Config} (h : CountsFit cfg li args) :
    li.readSize = li.textSize + li.dataSize ∧ li.bssAddr = memInvalidSize + li.textSize + li.dataSize := by
  simp only [CountsFit, textPages, dataPages, pageSize] at h
  refine ⟨toUlong_nat (by omega), toUlong_nat ?_⟩
  simp only [memInvalidSize, memInvalidPages, pageSize]
  omega

def programBlocks (li : LoadInfo) (bytes : List (BitVec 8)) (args : List (List (BitVec 8))) (sp cp : Nat) :
    List (Nat × List (BitVec 8)) :=
  (memInvalidSize, bytes.take (li.textSize + li.dataSize)) ::
    (memInvalidSize + li.textSize + li.dataSize, List.replicate li.bssSize 0) :: stackBlocks args sp cp

theorem programBlocks_writes : blockWrites (programBlocks li bytes args sp cp) =
    bytesAt memInvalidSize (bytes.take (li.textSize + li.dataSize)) ++
      (bytesAt (memInvalidSize + li.textSize + li.dataSize) (List.replicate li.bssSize 0) ++ blockWrites (stackBlocks args sp cp)) := by
  simp only [blockWrites, programBlocks, List.flatMap_cons]

theorem protect_written (h : Loading P ptr w m) (hin : ∀ j, j < pageTableLen → P (.entry w j))
    (hp : upTo (protectText ptr) memInvalidPages n m = .ok m') :
    Loading P ptr w m' ∧ Layout.Protected w (memInvalidPages + n) m m' ∧ ∀ a, Backed m w a → userByte m' w a = userByte m w a := by
  have hprot := protect_loop h.leads hp
  have hwithin := upTo_relation (Within ptr) (Within.refl ptr) (fun _ _ _ => Within.trans)
    (fun _ _ _ _ _ => Within.protectText) hp w h.leads
  have howned := upTo_invariant (fun _ v => Owned P v) (fun _ _ _ _ _ => protectText_owned) h.owned hp
  refine ⟨⟨howned, hwithin.1, hprot.fixed.regPtr0.symm ▸ h.running⟩, hprot, fun a ha => ?_⟩
  unfold userByte
  rw [hprot.pfn, own_frame h.owned hin hwithin.2 ha.1 ha.2]

/-- What the frames of the pages in `m'` hold in `m`. -/
def frameByte (m m' : Memory) (w : Word) (a : Nat) : BitVec 8 :=
  Pte.byte (m.frames (w.read m' (a / pageSize)).pfn.toNat (a % pageSize / 4)) (a % 4)

/-- A program in place: its pages, and what is stored on them over what their frames held. -/
structure Contents (cfg : Config) (li : LoadInfo) (bytes : List (BitVec 8)) (args : List (List (BitVec 8))) (sp cp : Nat) (w : Word)
    (m m' : Memory) : Prop where
  valid : ∀ j < kernelStackBase, (w.read m' j).valid = true ↔
    IsText (textPages li) j ∨ IsData (textPages li) (dataPages li) j ∨ IsStack cfg.userStackLimit (stackPages cfg li args) j
  text : ∀ j, IsText (textPages li) j → (w.read m' j).uprot = protRead ||| protExec
  others : ∀ j < kernelStackBase, (w.read m' j).valid = true → ¬ IsText (textPages li) j → (w.read m' j).uprot = protRead ||| protWrite
  stored : ∀ x ∈ blockWrites (programBlocks li bytes args sp cp), Backed m' w x.1
  bytes : ∀ a, Backed m' w a → userByte m' w a = write (frameByte m m' w) (blockWrites (programBlocks li bytes args sp cp)) a

theorem layOut_contents {cfg : Config} (h : Owned P m) (hw : Leads m ptr w) (hlimit : StackLimit cfg)
    (hcounts : CountsFit cfg li args) (hvirt : fitsVirtual (sizes cfg li args) = true)
    (hlay : layOut cfg ptr (sizes cfg li args) m = .ok m') :
    (∀ j < kernelStackBase, (w.read m' j).valid = true ↔
      IsText (textPages li) j ∨ IsData (textPages li) (dataPages li) j ∨ IsStack cfg.userStackLimit (stackPages cfg li args) j) ∧
    (∀ j, IsText (textPages li) j → (w.read m' j).uprot = protRead ||| protExec) ∧
    ∀ j < kernelStackBase, (w.read m' j).valid = true → ¬ IsText (textPages li) j →
      (w.read m' j).uprot = protRead ||| protWrite := by
  have hz := sizes_counted hcounts
  have hfits := pages_fit hlimit hcounts hvirt
  obtain ⟨m₂, m₃, m₄, js, ks, ls, hl⟩ := layOut_ok h.small hw hlay
  obtain ⟨hjs, hks, hls⟩ := hl.pages hz
  obtain ⟨hjk, hjl⟩ := hl.disjoint hz hfits
  obtain ⟨hall, hmem⟩ := hl.mapped hz hfits
  have hiff (j : Nat) (hj : j < kernelStackBase) := (hl.valid_iff hall hj).trans (hmem j)
  refine ⟨hiff, fun j hj => ?_, fun j hj hv hno => ?_⟩
  · have hin := (hjs j).2 hj
    rw [hl.stack.others j (hjl j (List.mem_append_left _ hin)), hl.data.others j (hjk j hin)]
    exact hl.text_prot j hin
  · rcases ((hiff j hj).1 hv).resolve_left hno with hdata | hstack
    · have hin := (hks j).2 hdata
      rw [hl.stack.others j (hjl j (List.mem_append_right _ hin))]
      exact (hl.data_prot j hin).1
    · exact (hl.stack_prot j ((hls j).2 hstack)).1

/-- The program, its zeroes and its stack are written, and of the entries only the kernel's permissions change. -/
theorem fill_written {z : Sizes} {m₁ m₂ m₃ : Memory} (h : Loading P ptr w m) (hin : ∀ j, j < pageTableLen → P (.entry w j))
    (h₁ : storeBytes memInvalidSize (bytes.take (li.textSize + li.dataSize)) m = .ok m₁)
    (h₂ : upTo (protectText ptr) memInvalidPages n m₁ = .ok m₂)
    (h₃ : storeBytes (memInvalidSize + li.textSize + li.dataSize) (List.replicate li.bssSize 0) m₂ = .ok m₃)
    (h₄ : buildStack args z m₃ = .ok m') (hsp : toUlong z.cpp = sp) (hcp : toUlong z.cp = cp) :
    (∀ j, j < pageTableLen → ∃ kprot, w.read m' j = { w.read m j with kprot }) ∧
      (∀ x ∈ blockWrites (programBlocks li bytes args sp cp), Backed m w x.1) ∧
      ∀ a, Backed m w a → userByte m' w a = write (userByte m w) (blockWrites (programBlocks li bytes args sp cp)) a := by
  have hfile := storeBytes_written h hin h₁
  obtain ⟨hload, hprot, hsame⟩ := protect_written hfile.loading hin h₂
  have hzeros := storeBytes_written hload hin h₃
  have hstack : Written P ptr w (blockWrites (stackBlocks args sp cp)) m₃ m' := by
    rw [buildStack_eq, hsp, hcp] at h₄
    exact storeAll_written hzeros.loading hin h₄
  have hrest := hzeros.append hstack
  have hback {a : Nat} : Backed m₂ w a ↔ Backed m w a :=
    (and_congr_right fun _ => by rw [hprot.valid]).trans hfile.backed
  refine ⟨fun j hj => ?_, fun x hx => ?_, fun a ha => ?_⟩
  · rw [hrest.read j hj, hprot.read, hfile.read j hj]
    split
    · exact ⟨_, rfl⟩
    · exact ⟨_, rfl⟩
  · rcases List.mem_append.1 hx with hx | hx
    · exact hfile.stored x hx
    · exact hback.1 (hrest.stored x hx)
  · rw [hrest.bytes a (hback.2 ha), programBlocks_writes]
    refine (write_congr ((hsame a (hfile.backed.2 ha)).trans (hfile.bytes a ha))).trans ?_
    rw [← write_append]

theorem inPlace_contents (h : Loading P ptr w m) (hin : ∀ j, j < pageTableLen → P (.entry w j)) (howned : LoadOwned m w (some f) args)
    (hlimit : StackLimit m.cfg) (hcounts : CountsFit m.cfg li args) (hpasses : Passes (some f) args m li)
    (hst : f.status = .success li) (hread : f.read = some bytes) (hplace : InPlace curr ptr (some f) args m info' m')
    (hsp : toUlong (sizes m.cfg li args).cpp = sp) (hcp : toUlong (sizes m.cfg li args).cp = cp) :
    Contents m.cfg li bytes args sp cp w m m' := by
  obtain ⟨f', li', hf', hst', -, -, ⟨m₁, m₂, m₃, m₄, h₁, h₂, h₃, h₄, h₅⟩, -⟩ := hplace.file
  obtain rfl := Option.some.inj hf'
  obtain rfl : li = li' := LoadStatus.success.inj (hst.symm.trans hst')
  obtain ⟨hsize, hbss⟩ := fill_places hcounts
  rw [hread, Option.getD_some, hsize] at h₂
  rw [(sizes_counted hcounts).textLen] at h₃
  rw [hbss] at h₄
  have hlead : Leads (setSpace m curr { m.space curr with brk := newBrk (sizes m.cfg li args) }) ptr w :=
    leads_congr h.leads rfl fun _ _ => rfl
  have havail : available (setSpace m curr { m.space curr with brk := newBrk (sizes m.cfg li args) }) w = available m w := by
    cases w <;> rfl
  have hlaid := layOut_owned (h.owned.setSpace ..) hlead hin (havail ▸ howned li hpasses) h₁
  obtain ⟨hlead₁, honly⟩ := Within.layOut h₁ w hlead
  obtain ⟨hvalid, htext, hothers⟩ := layOut_contents (h.owned.setSpace ..) hlead hlimit hcounts hpasses.2.1 h₁
  have hload : Loading P ptr w (setSpace m₁ curr { m₁.space curr with sp := newSp m₁.cfg (sizes m.cfg li args) }) := by
    refine ⟨hlaid.setSpace .., leads_congr hlead₁ rfl fun _ _ => rfl, ?_⟩
    change wordOf m₁.regPtr0 = w
    rw [(Fixed.layOut h₁).regPtr0]
    exact h.running
  obtain ⟨hentry, hstored, hbytes⟩ := fill_written hload hin h₂ h₃ h₄ h₅ hsp hcp
  have hkept (j : Nat) (hj : j < pageTableLen) : ∃ kprot, w.read m' j = { w.read m₁ j with kprot } := by
    obtain ⟨kprot, he⟩ := hentry j hj
    exact ⟨kprot, by rw [he, word_read_space]⟩
  have hlow {j : Nat} (hj : j < kernelStackBase) : j < pageTableLen := Nat.lt_trans hj (by decide)
  have hback {a : Nat} : Backed m' w a ↔ Backed m₁ w a := by
    refine and_congr_right fun hlt => ?_
    obtain ⟨kprot, he⟩ := hkept _ hlt
    rw [he]
  refine ⟨fun j hj => ?_, fun j hj => ?_, fun j hj hv hno => ?_, fun x hx => ?_, fun a ha => ?_⟩
  · obtain ⟨kprot, he⟩ := hkept j (hlow hj)
    rw [he]
    exact hvalid j hj
  · have hfits := pages_fit hlimit hcounts hpasses.2.1
    have hle := hlimit.le
    have hlt : j < pageTableLen := hlow (by simp only [IsText] at hj; omega)
    obtain ⟨kprot, he⟩ := hkept j hlt
    rw [he]
    exact htext j hj
  · obtain ⟨kprot, he⟩ := hkept j (hlow hj)
    rw [he] at hv ⊢
    exact hothers j hj hv hno
  · exact hback.2 ⟨(hstored x hx).1, by rw [← word_read_space w m₁ curr]; exact (hstored x hx).2⟩
  · have ha₁ := hback.1 ha
    refine (hbytes a ⟨ha₁.1, by rw [word_read_space]; exact ha₁.2⟩).trans (write_congr ?_)
    obtain ⟨kprot, he⟩ := hkept _ ha.1
    -- layOut writes to the frame of the table only, and the page is in another
    have hframe : m₁.frames (w.read m₁ (a / pageSize)).pfn.toNat = m.frames (w.read m₁ (a / pageSize)).pfn.toNat :=
      honly.frames _ fun hw =>
        hlaid.not_table (hin _ ha.1) (names_some.2 ⟨ha₁.2, rfl⟩) (fun i => (kernel_ne i w _).symm) 0 (hw ▸ hin 0 (by decide))
    unfold userByte frameByte
    rw [he, word_read_space]
    change Pte.byte (m₁.frames _ _) _ = _
    rw [hframe]

theorem programBlocks_disjoint (hlen : li.textSize + li.dataSize ≤ bytes.length) (hsp : sp + 8 * (args.length + 4) ≤ cp)
    (hend : memInvalidSize + li.textSize + li.dataSize + li.bssSize ≤ sp) :
    (programBlocks li bytes args sp cp).Pairwise NoOverlap := by
  have hbytes : (bytes.take (li.textSize + li.dataSize)).length = li.textSize + li.dataSize := by
    rw [List.length_take, Nat.min_eq_left hlen]
  refine .cons (fun p hp => ?_) (.cons (fun p hp => ?_) (stackBlocks_disjoint hsp))
  · simp only [NoOverlap, hbytes]
    rcases List.mem_cons.1 hp with rfl | hp
    · dsimp only
      omega
    · have := stackBlocks_place hsp hp
      omega
  · have := stackBlocks_place hsp hp
    simp only [NoOverlap, List.length_replicate]
    omega

/-- Where a program and its stack are, as numbers of bytes. -/
structure Place (cfg : Config) (li : LoadInfo) (args : List (List (BitVec 8))) (sp cp : Nat) : Prop where
  low : cfg.userStackLimit ≤ kernelStackBase
  fits : memInvalidPages + textPages li + dataPages li + 1 + stackPages cfg li args ≤ cfg.userStackLimit
  program : memInvalidSize + li.textSize + li.dataSize + li.bssSize ≤ sp
  pointers : sp + 8 * (args.length + 4) ≤ cp
  strings : cp + argsSize args = cfg.userStackLimit * pageSize
  stack : sp / pageSize + stackPages cfg li args = cfg.userStackLimit
  aligned : sp % 8 = 0

theorem program_place {cfg : Config} (hlimit : StackLimit cfg) (hcounts : CountsFit cfg li args)
    (hvirt : fitsVirtual (sizes cfg li args) = true) :
    ∃ sp cp, toUlong (sizes cfg li args).cpp = sp ∧ toUlong (sizes cfg li args).cp = cp ∧ Place cfg li args sp cp := by
  obtain ⟨-, -, hs, -⟩ := sizes_pages hcounts
  have hfits := pages_fit hlimit hcounts hvirt
  have hlow := hlimit.le
  have hcpp : (sizes cfg li args).cpp = (sizes cfg li args).cp - (sizes cfg li args).cp % 16 - (args.length + 4) * 8 := rfl
  have hcp : (sizes cfg li args).cp = cfg.userStackLimit * pageSize - argsSize args := rfl
  have hsize : argsSize args < 2 ^ 31 := by
    unfold stackPages at hfits
    simp only [kernelStackBase, pageSize] at hcpp hcp hfits hlow
    omega
  have hle : (sizes cfg li args).stackNpg.toNat ≤ cfg.userStackLimit := by
    rw [hs]
    omega
  obtain ⟨sp, cp, hsp, hcp, hend, hblocks, halign, hnpg, hpage⟩ := stack_place li hsize hle
  have hstack : sp / pageSize + stackPages cfg li args = cfg.userStackLimit := by omega
  have hbelow : cfg.userStackLimit * pageSize < 2 ^ 64 :=
    Nat.lt_of_le_of_lt (Nat.mul_le_mul_right _ hlow) (by decide)
  refine ⟨sp, cp, ?_, ?_, hlow, hfits, ?_, hblocks, hend, hstack, halign⟩
  · rw [hsp]
    exact toUlong_nat (by omega)
  · rw [hcp]
    exact toUlong_nat (by omega)
  · simp only [memInvalidSize, textPages, dataPages, memInvalidPages, pageSize] at hfits hstack ⊢
    omega

theorem Contents.holds {cfg : Config} (h : Contents cfg li bytes args sp cp w m m')
    (hd : (programBlocks li bytes args sp cp).Pairwise NoOverlap) {p : Nat × List (BitVec 8)}
    (hp : p ∈ programBlocks li bytes args sp cp) : Holds (userByte m' w) p.1 p.2 ∧ ∀ k < p.2.length, Backed m' w (p.1 + k) := by
  have hback (k : Nat) (hk : k < p.2.length) : Backed m' w (p.1 + k) :=
    h.stored _ (List.mem_flatMap.2 ⟨p, hp, mem_bytesAt hk⟩)
  refine ⟨(holds_blocks hd _ p hp).congr fun c hc hlt => h.bytes c ?_, hback⟩
  have := hback (c - p.1) (by omega)
  rwa [Nat.add_sub_cancel' hc] at this

theorem view_backed (hp : live s n) (ha : Backed s.mem (table s n) a) (hlt : a / pageSize < kernelStackBase) :
    (view s n a).map Cell.value = some (userByte s.mem (table s n) a) := by
  rw [view_some hp hlt ha.2]
  rfl

theorem Place.below {cfg : Config} (hplace : Place cfg li args sp cp) : cp + argsSize args ≤ kernelStackBase * pageSize :=
  hplace.strings.trans_le (Nat.mul_le_mul_right _ hplace.low)

theorem Place.lt_base {cfg : Config} (hplace : Place cfg li args sp cp)
    (hj : IsText (textPages li) j ∨ IsData (textPages li) (dataPages li) j ∨ IsStack cfg.userStackLimit (stackPages cfg li args) j) :
    j < kernelStackBase := by
  have := hplace.fits
  have := hplace.low
  simp only [IsText, IsData, IsStack] at hj
  omega

theorem Contents.writable {cfg : Config} {k : Cell (BitVec 8)} (h : Contents cfg li bytes args sp cp (table s n) m s.mem)
    (hk : view s n a = some k) : k.writable = true ↔ ¬ IsText (textPages li) (a / pageSize) := by
  obtain ⟨hlive, hlt, hv⟩ := view_ok hk
  rw [view_some hlive hlt hv] at hk
  obtain rfl := Option.some.inj hk
  by_cases htext : IsText (textPages li) (a / pageSize)
  · refine iff_of_false ?_ fun hno => hno htext
    dsimp only
    rw [h.text _ htext]
    decide
  · refine iff_of_true ?_ htext
    dsimp only
    rw [h.others _ hlt hv htext]
    decide

theorem Contents.program {cfg : Config} (h : Contents cfg li bytes args sp cp (table s n) m s.mem) (hlive : live s n)
    (hplace : Place cfg li args sp cp) (hlen : li.textSize + li.dataSize ≤ bytes.length)
    (hi : i < li.textSize + li.dataSize + li.bssSize) :
    (view s n (memInvalidSize + i)).map Cell.value = some (programByte li bytes i) := by
  have hd := programBlocks_disjoint hlen hplace.pointers hplace.program
  have hbytes : (bytes.take (li.textSize + li.dataSize)).length = li.textSize + li.dataSize := by
    rw [List.length_take, Nat.min_eq_left hlen]
  have hpage : (memInvalidSize + i) / pageSize < kernelStackBase := by
    have := hplace.program
    have := hplace.below
    have := hplace.pointers
    exact (Nat.div_lt_iff_lt_mul (by decide)).2 (by omega)
  by_cases hfile : i < li.textSize + li.dataSize
  · obtain ⟨hholds, hback⟩ := h.holds hd List.mem_cons_self
    have hi' : i < (bytes.take (li.textSize + li.dataSize)).length := hbytes.symm ▸ hfile
    rw [view_backed hlive (hback i hi') hpage, hholds i hi', programByte, if_pos hfile, List.getElem_take,
      List.getD_eq_getElem?_getD, List.getElem?_eq_getElem (Nat.lt_of_lt_of_le hfile hlen), Option.getD_some]
  · obtain ⟨hholds, hback⟩ := h.holds hd (List.mem_cons_of_mem _ List.mem_cons_self)
    have hi' : i - (li.textSize + li.dataSize) < (List.replicate li.bssSize (0 : BitVec 8)).length := by
      rw [List.length_replicate]
      omega
    have haddr : memInvalidSize + li.textSize + li.dataSize + (i - (li.textSize + li.dataSize)) = memInvalidSize + i := by omega
    have hb := hback _ hi'
    have hh := hholds _ hi'
    dsimp only at hb hh
    rw [haddr] at hb hh
    rw [view_backed hlive hb hpage, hh, programByte, if_neg hfile, List.getElem_replicate]

theorem Contents.starts {cfg : Config} (h : Contents cfg li bytes args sp cp (table s n) m s.mem) (hlive : live s n)
    (hplace : Place cfg li args sp cp) (hlen : li.textSize + li.dataSize ≤ bytes.length) (hz : ∀ x ∈ args, 0 ∉ x) :
    Starts cfg li bytes args sp (view s n) := by
  have hd := programBlocks_disjoint hlen hplace.pointers hplace.program
  refine ⟨fun a => ⟨fun hne => ?_, fun hj => ?_⟩, fun a k => h.writable, fun i => h.program hlive hplace hlen, ?_, hplace.aligned⟩
  · obtain ⟨k, hk⟩ := Option.ne_none_iff_exists'.1 hne
    obtain ⟨-, hlt, hv⟩ := view_ok hk
    exact (h.valid _ hlt).1 hv
  · have hlt := hplace.lt_base hj
    rw [view_some hlive hlt ((h.valid _ hlt).2 hj)]
    exact Option.some_ne_none _
  · refine decode_stackBlocks (fun p hp => ?_) hz (hplace.below.trans (Nat.mul_le_mul_right _ (by decide)))
    obtain ⟨hholds, hback⟩ := h.holds hd (List.mem_cons_of_mem _ (List.mem_cons_of_mem _ hp))
    have hin := stackBlocks_place hplace.pointers hp
    refine hholds.congr fun c hc hlt => ?_
    have hb := hback (c - p.1) (by omega)
    rw [Nat.add_sub_cancel' hc] at hb
    have hstrings := hplace.below
    rw [view_backed hlive hb ((Nat.div_lt_iff_lt_mul (by decide)).2 (by omega))]
    rfl

theorem Contents.between {cfg : Config} (h : Contents cfg li bytes args sp cp w m m') (hplace : Place cfg li args sp cp)
    (ha : Backed m' w a) (hlow : memInvalidSize + li.textSize + li.dataSize + li.bssSize ≤ a) (hsp : a < sp) :
    userByte m' w a = frameByte m m' w a := by
  rw [h.bytes a ha]
  refine write_other fun x hx he => ?_
  obtain ⟨p, hp, h₁, h₂⟩ := blockWrites_mem hx
  rcases List.mem_cons.1 hp with rfl | hp
  · have := List.length_take_le (li.textSize + li.dataSize) bytes
    dsimp only at h₁ h₂
    omega
  · rcases List.mem_cons.1 hp with rfl | hp
    · rw [List.length_replicate] at h₂
      omega
    · have := stackBlocks_place hplace.pointers hp
      omega

/-- Exec that returns no ERROR has the program in place, and starts it with clear registers. -/
theorem exec_contents {out : Option ExceptionInfo} (h : Protected s) (hm : s.mode = .user)
    (he : Orderly s (.call (.exec (some f) args) info)) (hst : f.status = .success li) (hread : f.read = some bytes)
    (hlen : li.textSize + li.dataSize ≤ bytes.length) (hcall : trapKernelHandler (.exec (some f) args) info s = .ok (out, t))
    (href : refused (some f) args info s = false) :
    ∃ info' cp, out = some info' ∧ info'.pc = li.entry ∧ (∀ i < numRegs, info'.regs i = 0) ∧ t.curr = s.curr ∧ live t t.curr ∧
      Place s.mem.cfg li args info'.sp cp ∧ Contents s.mem.cfg li bytes args info'.sp cp (table t t.curr) s.mem t.mem := by
  have hs := h.settled.sound
  have hlive := hs.live_curr hm
  obtain ⟨⟨r, info', v⟩, hv, hcall⟩ := bind_ok.1 hcall
  obtain ⟨rfl, rfl⟩ := Prod.mk.inj (Except.ok.inj hcall)
  have hr : r ≠ ERROR := by
    unfold refused at href
    rw [hv] at href
    exact of_decide_eq_false href
  obtain ⟨r', mem, hload, rfl, rfl⟩ := execFunc_ok hv
  have hr' : r' ≠ -1 := fun he => hr (if_pos he)
  have hpasses : Passes (some f) args s.mem li := by
    rcases loadProgram_ok hload with ⟨h1, -⟩ | ⟨f', li', hf', hst', hvirt, ⟨-, h1, -⟩ | ⟨hphys, -⟩⟩
    · exact absurd h1 hr'
    · exact absurd h1 hr'
    · obtain rfl := Option.some.inj hf'
      obtain rfl := LoadStatus.success.inj (hst.symm.trans hst')
      exact ⟨⟨f, rfl, hst⟩, hvirt, hphys⟩
  have hcounts := he.2.countable li hpasses
  obtain ⟨sp, cp, hsp, hcp, hplace⟩ := program_place h.settled.limit hcounts hpasses.2.1
  have hall : ReadsAll f li := by
    have hend : kernelStackBase * pageSize < 2 ^ 31 := by decide
    have hprogram := hplace.program
    have hpointers := hplace.pointers
    have hstrings := hplace.below
    exact ⟨bytes, hread, hlen, by omega⟩
  obtain ⟨rfl, hin⟩ := (inPlace_iff rfl hst hpasses.2.1 hpasses.2.2 hload).2 hall
  have hword : table { s with mem } s.curr = table s s.curr := congrArg wordOf ((loadProgram_moves hload).region0 s.curr)
  have hloading : Loading (InPlay s) (s.mem.space s.curr).region0 (table s s.curr) s.mem := by
    refine ⟨hs.owned, hs.leads hlive, ?_⟩
    rw [(hs.current.running (by simp [hm])).2]
    rfl
  have hcontents := inPlace_contents hloading (inPlay_table hlive) he.1.frames h.settled.limit hcounts hpasses hst hread hin hsp hcp
  rw [← hword] at hcontents
  obtain ⟨f', li', hf', hst', -, -, -, hpc, hsp', -, hregs⟩ := hin.file
  obtain rfl := Option.some.inj hf'
  obtain rfl := LoadStatus.success.inj (hst.symm.trans hst')
  obtain rfl : info'.sp = sp := hsp'.trans hsp
  refine ⟨_, cp, rfl, hpc, fun i hi => ?_, rfl, hlive, hplace, hcontents⟩
  change Function.update info'.regs 0 (toUlong 0) i = 0
  rw [Function.update_apply]
  split
  · rfl
  · exact hregs i hi

/-- Exec starts the program: its memory is the file's text and data, zeroes for the bss and the arguments on the stack,
and its registers are clear. The rest of its pages shows what their frames held before. -/
theorem exec_starts {out : Option ExceptionInfo} (henv : BootOwned env) (hfits : BootFits env) (hloads : BootLoads env)
    (h : Reachable Orderly env s) (hm : s.mode = .user) (he : Orderly s (.call (.exec (some f) args) info))
    (hst : f.status = .success li) (hread : f.read = some bytes) (hlen : li.textSize + li.dataSize ≤ bytes.length)
    (hz : ∀ x ∈ args, 0 ∉ x) (hcall : trapKernelHandler (.exec (some f) args) info s = .ok (out, t))
    (href : refused (some f) args info s = false) :
    ∃ info', out = some info' ∧ info'.pc = li.entry ∧ (∀ i < numRegs, info'.regs i = 0) ∧ t.curr = s.curr ∧
      Starts s.mem.cfg li bytes args info'.sp (view t t.curr) ∧
      ∀ a k, view t t.curr a = some k → memInvalidSize + li.textSize + li.dataSize + li.bssSize ≤ a → a < info'.sp →
        k.value = frameByte s.mem t.mem (table t t.curr) a := by
  have hprot := run_protected henv hfits hloads h
  obtain ⟨info', cp, hout, hpc, hregs, hcurr, hlive, hplace, hcontents⟩ := exec_contents hprot hm he hst hread hlen hcall href
  refine ⟨info', hout, hpc, hregs, hcurr, hcontents.starts hlive hplace hlen hz, fun a k hk hlow hlt => ?_⟩
  obtain ⟨-, hpage, hv⟩ := view_ok hk
  have hback : Backed t.mem (table t t.curr) a := ⟨Nat.lt_trans hpage (by decide), hv⟩
  have hvalue := view_backed hlive hback hpage
  rw [hk] at hvalue
  exact (Option.some.inj hvalue).trans (hcontents.between hplace hback hlow hlt)

/-- Whatever runs in between, a program that comes back reads the bytes of its file where it has not stored, and its
text as it is in the file. -/
theorem program_reads {out : Option ExceptionInfo} {acts : List (Act Nat Nat (BitVec 8))} (henv : BootOwned env) (hfits : BootFits env)
    (hloads : BootLoads env) (h : Reachable Orderly env s) (hm : s.mode = .user)
    (he : Orderly s (.call (.exec (some f) args) info)) (hst : f.status = .success li) (hread : f.read = some bytes)
    (hlen : li.textSize + li.dataSize ≤ bytes.length) (hcall : trapKernelHandler (.exec (some f) args) info s = .ok (out, t))
    (href : refused (some f) args info s = false) (hrun : Acted t acts u) (hu : u.mode = .user) (hcurr : u.curr = t.curr)
    (hacts : ∀ x ∈ acts, ¬ x.Remakes t.curr) (hi : i < li.textSize + li.dataSize + li.bssSize) :
    userLoad (memInvalidSize + i) u.mem = .ok ((lastStore t.curr (memInvalidSize + i) acts).getD (programByte li bytes i)) ∧
      (i < textPages li * pageSize → userLoad (memInvalidSize + i) u.mem = .ok (programByte li bytes i)) := by
  have hprot := run_protected henv hfits hloads h
  have hstep : Step s (.call (.exec (some f) args) info) t := ⟨userMode_iff.2 hm, by rw [next, hcall]; rfl⟩
  have ht := step_protected hprot he hstep
  obtain ⟨info', cp, -, -, -, -, hlive, hplace, hcontents⟩ := exec_contents hprot hm he hst hread hlen hcall href
  obtain ⟨k, hk, hvalue⟩ := Option.map_eq_some_iff.1 (hcontents.program hlive hplace hlen hi)
  have hcell : view t t.curr (memInvalidSize + i) = some ⟨k.writable, programByte li bytes i⟩ := by rw [hk, ← hvalue]
  have hload {x : BitVec 8} (hx : ∃ w, view u t.curr (memInvalidSize + i) = some ⟨w, x⟩) :
      userLoad (memInvalidSize + i) u.mem = .ok x := (userLoad_view (hrun.protected ht) hu).2 (hcurr.symm ▸ hx)
  refine ⟨hload ⟨_, (hrun.run ht).read hacts hcell⟩, fun htext => hload ⟨false, ?_⟩⟩
  have hpage : IsText (textPages li) ((memInvalidSize + i) / pageSize) := by
    simp only [IsText, memInvalidSize, memInvalidPages, pageSize] at htext ⊢
    omega
  have hno : k.writable = false := Bool.eq_false_iff.2 fun hw => (hcontents.writable hk).1 hw hpage
  rw [hno] at hcell
  exact (hrun.run ht).constant hacts hcell rfl

def smallProgram : LoadInfo := ⟨0, 2, 2, 64⟩

def dataFile : File := ⟨.success smallProgram, some [7, 9]⟩

structure SmallProgram (s t u : State) (out : Option ExceptionInfo) : Prop where
  boot : kernelStart smallBoot = .ok s
  mode : s.mode = .user
  orderly : Orderly s (.call (.exec (some dataFile) [[97]]) smallInfo)
  call : trapKernelHandler (.exec (some dataFile) [[97]]) smallInfo s = .ok (out, t)
  loaded : refused (some dataFile) [[97]] smallInfo s = false
  store : Step t (.userStore (memInvalidSize + 1) 5) u

theorem small_computes : startsIn (fun s => fitsIn smallProgram [[97]] s && (!refused (some dataFile) [[97]] smallInfo s &&
    stepsTo s (.call (.exec (some dataFile) [[97]]) smallInfo) fun t => stepsTo t (.userStore (memInvalidSize + 1) 5) fun _ => true)) =
      true := by
  decide +kernel

theorem small_program : ∃ s t u out, SmallProgram s t u out := by
  have h := small_computes
  simp only [startsIn_iff, stepsTo_iff, Bool.and_eq_true, Bool.not_eq_true'] at h
  obtain ⟨s, hs, hfits, href, t, hstep, u, hstore, -⟩ := h
  obtain ⟨⟨out, t⟩, hcall, rfl⟩ := map_ok.1 hstep.2
  exact ⟨s, t, u, out, hs, userMode_iff.1 hstep.1, fitsIn_orderly (boot_sound small_bootOwned hs) hstep rfl hfits, hcall, href, hstore⟩

theorem exec_starts_small : ∃ s t out, Reachable Orderly smallBoot s ∧
    trapKernelHandler (.exec (some dataFile) [[97]]) smallInfo s = .ok (out, t) ∧
      ∃ info', out = some info' ∧ info'.pc = 64 ∧ Starts s.mem.cfg smallProgram [7, 9] [[97]] info'.sp (view t t.curr) := by
  obtain ⟨s, t, u, out, h⟩ := small_program
  have hreach : Reachable Orderly smallBoot s := ⟨s, h.boot, .refl⟩
  obtain ⟨info', hout, hpc, -, -, hstarts, -⟩ := exec_starts small_bootOwned small_bootFits (small_bootLoads h.boot) hreach h.mode
    h.orderly rfl rfl (by decide) (by decide) h.call h.loaded
  exact ⟨s, t, out, hreach, h.call, info', hout, hpc, hstarts⟩

/-- The program reads its first byte from the file, and the second as it has stored it. -/
theorem program_reads_small : ∃ s t u out, Reachable Orderly smallBoot s ∧
    trapKernelHandler (.exec (some dataFile) [[97]]) smallInfo s = .ok (out, t) ∧
      Acted t [.store t.curr (memInvalidSize + 1) 5] u ∧ userLoad memInvalidSize u.mem = .ok 7 ∧
        userLoad (memInvalidSize + 1) u.mem = .ok 5 := by
  obtain ⟨s, t, u, out, h⟩ := small_program
  have hreach : Reachable Orderly smallBoot s := ⟨s, h.boot, .refl⟩
  have hacted : Acted t [.store t.curr (memInvalidSize + 1) 5] u := .step .refl orderly_store h.store
  obtain ⟨mem, hmem, hu⟩ := bind_ok.1 h.store.2
  obtain rfl := Except.ok.inj hu
  have hread {i : Nat} (hi : i < 4) := (program_reads small_bootOwned small_bootFits (small_bootLoads h.boot) hreach h.mode h.orderly
    rfl rfl (by decide) h.call h.loaded hacted (userMode_iff.1 h.store.1) rfl (by simp [Act.Remakes]) (i := i) hi).1
  have hfirst := hread (i := 0) (by decide)
  have hsecond := hread (i := 1) (by decide)
  have hnone : lastStore t.curr (memInvalidSize + 0) [Act.store t.curr (memInvalidSize + 1) (5 : BitVec 8)] = none := by
    simp [lastStore, Act.stored]
  have hsome : lastStore t.curr (memInvalidSize + 1) [Act.store t.curr (memInvalidSize + 1) (5 : BitVec 8)] = some 5 := by
    simp [lastStore, Act.stored]
  rw [hnone] at hfirst
  rw [hsome] at hsecond
  exact ⟨s, t, _, out, hreach, h.call, hacted, hfirst, hsecond⟩

end Yalnix.ProgramImage
