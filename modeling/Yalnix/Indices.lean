import Yalnix.Errors
import Yalnix.CurrProc
import Yalnix.Layout
import Yalnix.Terminals

namespace Yalnix.Indices

open Loops Errors Machine AddressSpace LoadProgram Processes Queues Kernel Chains Accesses FreeList Layout Calls Boot Runs Clock

variable {env : BootEnv} {s t : State} {info : ExceptionInfo} {m m' u : Memory} {p : TablePtr} {w : Word} {j k n : Nat}
  {i : Int}

abbrev InRange {α : Type} (x : Except Fault α) : Prop := Avoids Fault.badIndex x

theorem deref_inRange (n : Nat) (freed : Nat → Bool) (x : Ptr) : InRange (Processes.deref n freed x) := by
  cases x with
  | none => exact avoids_error (by decide)
  | some a =>
      refine avoids_ite (fun _ => avoids_ite (fun _ => ?_) fun _ => avoids_ok a) fun _ => ?_
      · exact avoids_error (by decide)
      · exact avoids_error (by decide)

theorem linkChild_inRange (parent child : Nat) (f : Family) : InRange (linkChild parent child f) := by
  unfold linkChild
  dsimp only
  split
  · exact avoids_pure _
  · exact avoids_bind (deref_inRange ..) fun _ _ => avoids_pure _

theorem removeChild_inRange (item parent : Nat) (f : Family) : InRange (removeChildFromParent item parent f) := by
  unfold removeChildFromParent
  split
  · exact avoids_pure _
  split
  · exact avoids_bind (deref_inRange ..) fun _ _ => avoids_pure _
  split
  · exact avoids_bind (deref_inRange ..) fun _ _ => avoids_pure _
  · exact avoids_bind (deref_inRange ..) fun _ _ => avoids_bind (deref_inRange ..) fun _ _ => avoids_pure _

theorem orphanChildren_inRange (n : Nat) (x : Ptr) (f : Family) : InRange (orphanChildren n x f) := by
  induction n generalizing x f with
  | zero =>
      cases x with
      | none => exact avoids_ok f
      | some a => exact avoids_error (by decide)
  | succ n ih =>
      cases x with
      | none => exact avoids_ok f
      | some a => exact avoids_bind (deref_inRange ..) fun child _ => ih _ _

theorem removeFromParent_inRange (curr parent n : Nat) (x : Ptr) (f : Family) :
    InRange (removeFromParent curr parent n x f) := by
  induction n generalizing x f with
  | zero =>
      cases x with
      | none => exact avoids_ok f
      | some a => exact avoids_error (by decide)
  | succ n ih =>
      cases x with
      | none => exact avoids_ok f
      | some a =>
          unfold removeFromParent
          refine avoids_bind (deref_inRange ..) fun child _ => ?_
          dsimp only
          split
          · exact avoids_bind (removeChild_inRange ..) fun f _ => ih _ _
          · exact ih _ _

theorem reportExit_inRange (curr : Nat) (status : Int) (parent : Nat) (f : Family) :
    InRange (reportExit curr status parent f) := by
  unfold reportExit pushExitToExited
  dsimp only
  split
  · exact avoids_pure _
  · exact avoids_bind (deref_inRange ..) fun _ _ => avoids_pure _

theorem exitLinks_inRange (curr : Nat) (status : Int) (f : Family) : InRange (exitLinks curr status f) := by
  refine avoids_bind (orphanChildren_inRange ..) fun f _ => ?_
  split
  · exact avoids_pure _
  · refine avoids_bind (deref_inRange ..) fun parent _ => avoids_bind (removeFromParent_inRange ..) fun f _ => ?_
    refine avoids_bind (reportExit_inRange ..) fun f _ => ?_
    split
    · exact avoids_pure _
    · exact avoids_pure _

theorem collect_inRange (curr : Nat) (f : Family) : InRange (collect curr f) := by
  refine avoids_bind ?_ fun f _ => ?_
  · unfold removeHeadFromExitQueue
    split
    · exact avoids_pure _
    · exact avoids_bind (deref_inRange ..) fun _ _ => avoids_bind (deref_inRange ..) fun _ _ => avoids_pure _
  · split
    · exact avoids_error (by decide)
    · exact avoids_pure _

theorem push_inRange (proc : Nat) (a : Sched) : InRange (pushProcToQueue proc a) := by
  unfold pushProcToQueue
  dsimp only
  split
  · exact avoids_pure _
  · exact avoids_bind (deref_inRange ..) fun _ _ => avoids_pure _

theorem unlinkItem_inRange (item : Nat) (head tail : Ptr) (h : Items) : InRange (unlinkItem item head tail h) := by
  unfold unlinkItem
  split
  · exact avoids_ok _
  split
  · exact avoids_bind (deref_inRange ..) fun _ _ => avoids_pure _
  split
  · exact avoids_bind (deref_inRange ..) fun _ _ => avoids_pure _
  · exact avoids_bind (deref_inRange ..) fun _ _ => avoids_bind (deref_inRange ..) fun _ _ => avoids_pure _

theorem free_inRange (item : Nat) (h : Items) : InRange (h.free item) := by
  unfold Items.free
  split
  · exact avoids_error (by decide)
  · exact avoids_ok _

theorem removeReady_inRange (item : Nat) (a : Sched) : InRange (removeItemFromReadyQueue item a) :=
  avoids_bind (unlinkItem_inRange ..) fun _ _ => avoids_bind (free_inRange ..) fun _ _ => avoids_pure _

theorem removeWaiting_inRange (item : Nat) (a : Sched) : InRange (removeItemFromWaitingQueue item a) :=
  avoids_bind (unlinkItem_inRange ..) fun _ _ => avoids_bind (free_inRange ..) fun _ _ => avoids_pure _

theorem findReady_inRange (a : Sched) : InRange (findReadyPcb a) := by
  unfold findReadyPcb
  split
  · exact avoids_pure _
  · exact avoids_bind (deref_inRange ..) fun _ _ => avoids_bind (removeReady_inRange ..) fun _ _ => avoids_pure _

theorem removeProcLoop_inRange (pid : Nat) (processId : Nat → Nat) (n : Nat) (x : Ptr) (a : Sched) :
    InRange (removeProcLoop pid processId n x a) := by
  induction n generalizing x a with
  | zero =>
      cases x with
      | none => exact avoids_ok a
      | some i => exact avoids_error (by decide)
  | succ n ih =>
      cases x with
      | none => exact avoids_ok a
      | some i =>
          unfold removeProcLoop
          refine avoids_bind (deref_inRange ..) fun item _ => ?_
          dsimp only
          split
          · exact avoids_bind (removeReady_inRange ..) fun _ _ => avoids_bind (deref_inRange ..) fun _ _ => ih _ _
          · exact avoids_bind (avoids_pure _) fun _ _ => avoids_bind (deref_inRange ..) fun _ _ => ih _ _

theorem pushWaiting_inRange (new : Nat) (a : Sched) : InRange (pushItemToWaitingQueue new a) := by
  unfold pushItemToWaitingQueue
  dsimp only
  split
  · exact avoids_pure _
  · exact avoids_bind (deref_inRange ..) fun _ _ => avoids_pure _

theorem setNextProc_inRange (a : Sched) : InRange (setNextProc a) := by
  unfold setNextProc
  split
  · exact avoids_pure _
  · exact avoids_bind (deref_inRange ..) fun _ _ => avoids_bind (push_inRange ..) fun _ _ =>
      avoids_bind (deref_inRange ..) fun _ _ => avoids_pure _

theorem tick_inRange (a : Sched) : InRange (tick a) := by
  unfold tick
  dsimp only
  split
  · refine avoids_bind (setNextProc_inRange _) fun _ _ => ?_
    split
    · exact avoids_pure _
    · exact avoids_pure _
  · exact avoids_pure _

theorem index_inRange {len : Nat} (h : 0 ≤ i ∧ i < len) : InRange (index i len) := by
  rw [index, if_pos h]
  exact avoids_ok _

theorem kernelFrame_inRange (m : Memory) (pg : Nat) : InRange (kernelFrame m pg) := by
  unfold kernelFrame
  dsimp only
  split
  · exact avoids_ok _
  · exact avoids_error (by decide)

theorem readPte_inRange (m : Memory) (p : TablePtr) (h : 0 ≤ i ∧ i < pageTableLen) : InRange (readPte m p i) := by
  refine avoids_bind (index_inRange h) fun j _ => ?_
  cases p with
  | null => exact avoids_error (by decide)
  | region0Pt => exact avoids_pure _
  | page pg => exact avoids_bind (kernelFrame_inRange ..) fun _ _ => avoids_pure _

theorem writePte_inRange (m : Memory) (p : TablePtr) (e : Pte) (h : 0 ≤ i ∧ i < pageTableLen) : InRange (writePte p i e m) := by
  refine avoids_bind (index_inRange h) fun j _ => ?_
  cases p with
  | null => exact avoids_error (by decide)
  | region0Pt => exact avoids_pure _
  | page pg => exact avoids_bind (kernelFrame_inRange ..) fun _ _ => avoids_pure _

theorem mapPage_inRange {uprot kprot : BitVec 3} (m : Memory) (p : TablePtr) (h : 0 ≤ i ∧ i < pageTableLen) :
    InRange (mapPage p uprot kprot i m) :=
  avoids_bind (readPte_inRange m p h) fun _ _ => writePte_inRange _ p _ h

theorem freePage_inRange (m : Memory) (h : 0 ≤ i ∧ i < m.numPages) : InRange (freePage i m) :=
  avoids_bind (index_inRange h) fun _ _ => avoids_pure _

theorem walk_inRange (m : Memory) (page : Nat) : InRange (walk m page) := by
  unfold walk
  split
  · exact avoids_error (by decide)
  · exact avoids_ok _
  · split
    · exact avoids_ok _
    · exact avoids_error (by decide)

theorem userFrame_inRange (m : Memory) (page : Nat) : InRange (userFrame m page) := by
  refine avoids_bind (walk_inRange ..) fun e _ => ?_
  split
  · exact avoids_ok _
  · exact avoids_error (by decide)

theorem storeByte_inRange (vaddr : Nat) (x : BitVec 8) (m : Memory) : InRange (storeByte vaddr x m) := by
  refine avoids_bind (userFrame_inRange ..) fun f _ => avoids_bind (walk_inRange ..) fun e _ => ?_
  dsimp only
  split
  · exact avoids_ok _
  · exact avoids_error (by decide)

theorem storeBytes_inRange (vaddr : Nat) (xs : List (BitVec 8)) (m : Memory) : InRange (storeBytes vaddr xs m) := by
  induction xs generalizing vaddr m with
  | nil => exact avoids_ok m
  | cons x xs ih => exact avoids_bind (storeByte_inRange ..) fun _ _ => ih _ _

theorem copyArgs_inRange (args : List (List (BitVec 8))) (cpp cp : Nat) (m : Memory) : InRange (copyArgs args cpp cp m) := by
  induction args generalizing cpp cp m with
  | nil => exact avoids_ok _
  | cons a args ih =>
      exact avoids_bind (storeBytes_inRange ..) fun _ _ => avoids_bind (storeBytes_inRange ..) fun _ _ => ih _ _ _

theorem buildStack_inRange (args : List (List (BitVec 8))) (z : Sizes) (m : Memory) : InRange (buildStack args z m) :=
  avoids_bind (storeBytes_inRange ..) fun _ _ => avoids_bind (copyArgs_inRange ..) fun _ _ =>
    avoids_bind (storeBytes_inRange ..) fun _ _ => avoids_bind (storeBytes_inRange ..) fun _ _ => storeBytes_inRange ..

theorem copyPage_inRange (borrowed page : Nat) (m : Memory) : InRange (copyPage borrowed page m) :=
  avoids_bind (userFrame_inRange ..) fun _ _ => avoids_bind (kernelFrame_inRange ..) fun _ _ => avoids_pure _

def FramesExist (m : Memory) (p : TablePtr) (n : Nat) : Prop :=
  ∀ w, Leads m p w → ∀ j < n, (w.read m j).valid = true → (w.read m j).pfn.toNat < m.numPages

theorem nat_inRange {len : Nat} (h : k < len) : (0 : Int) ≤ (k : Int) ∧ (k : Int) < len := by omega

theorem read_leads {e : Pte} (h : readPte m p k = .ok e) : ∃ w, Leads m p w ∧ e = w.read m k := by
  obtain ⟨j, w, hj, -, hw, rfl⟩ := readPte_ok.1 h
  obtain rfl := Int.ofNat.inj hj
  exact ⟨w, hw, rfl⟩

/-- The tables are read through the same words while the loop that frees them runs. -/
structure Freeing (p : TablePtr) (m : Memory) (k : Nat) (u : Memory) : Prop where
  fixed : Fixed m u
  region1Pt : u.region1Pt = m.region1Pt
  freed : ∀ w, Leads m p w → Freed w k m u

theorem Freeing.start (p : TablePtr) (m : Memory) : Freeing p m 0 m := ⟨.refl m, rfl, fun w _ => .start w m⟩

theorem Freeing.leads (h : Freeing p m k u) (hw : Leads u p w) : Leads m p w :=
  Leads.of_fixed hw ⟨h.fixed.cfg.symm, h.fixed.numPages.symm, h.fixed.currKernelBrk.symm, h.fixed.vmEnabled.symm,
    h.fixed.regPtr0.symm, h.fixed.space.symm⟩ h.region1Pt.symm

theorem freeEntry_inRange (hm : FramesExist m p kernelStackBase) (hk : k < pageTableLen) (hu : Freeing p m k u) :
    InRange (freeEntry p k u) := by
  unfold freeEntry
  split
  case isTrue hlow =>
    refine avoids_bind (readPte_inRange _ _ (nat_inRange hk)) fun e he => ?_
    split
    case isTrue hv =>
      refine avoids_bind (freePage_inRange _ ?_) fun _ _ => writePte_inRange _ _ _ (nat_inRange hk)
      obtain ⟨w, hw, rfl⟩ := read_leads he
      have hread : w.read u k = w.read m k := by
        rw [(hu.freed w (hu.leads hw)).read, if_neg (by omega)]
      have hlow : k < kernelStackBase := by
        simp only [kernelStackBase, vmem1Base, pageTableLen, pageSize] at hlow hk ⊢
        omega
      rw [hread] at hv ⊢
      rw [hu.fixed.numPages]
      exact nat_inRange (hm w (hu.leads hw) k hlow hv)
    case isFalse => exact avoids_pure _
  case isFalse => exact avoids_pure _

theorem freeEntries_inRange (hm : FramesExist m p kernelStackBase) : InRange (upTo (freeEntry p) 0 pageTableLen m) := by
  refine avoids_upTo (Freeing p m) (fun k u _ hk hu => ⟨?_, fun v hv => ?_⟩) (.start p m)
  · exact freeEntry_inRange hm (by omega) hu
  · refine ⟨hu.fixed.trans (.freeEntry hv), ?_, fun w hw => (hu.freed w hw).step hw hv⟩
    unfold freeEntry at hv
    split at hv
    case isTrue =>
      obtain ⟨e, he, hv⟩ := bind_ok.1 hv
      split at hv
      case isTrue =>
        obtain ⟨x, hx, hv⟩ := bind_ok.1 hv
        obtain ⟨f, -, -, rfl⟩ := freePage_ok.1 hx
        obtain ⟨j, w, -, -, -, rfl⟩ := writePte_ok.1 hv
        rw [word_write_region1]
        exact hu.region1Pt
      case isFalse =>
        obtain rfl := Except.ok.inj hv
        exact hu.region1Pt
    case isFalse =>
      obtain rfl := Except.ok.inj hv
      exact hu.region1Pt

theorem invalidate_inRange (m : Memory) (p : TablePtr) (hk : k < pageTableLen) : InRange (invalidate p k m) :=
  avoids_bind (readPte_inRange _ _ (nat_inRange hk)) fun _ _ => writePte_inRange _ _ _ (nat_inRange hk)

theorem protectText_inRange (m : Memory) (p : TablePtr) (hk : k < pageTableLen) : InRange (protectText p k m) :=
  avoids_bind (readPte_inRange _ _ (nat_inRange hk)) fun _ _ => writePte_inRange _ _ _ (nat_inRange hk)

structure PagesFit (cfg : Config) (z : Sizes) : Prop where
  text : z.textEnd ≤ pageTableLen
  data : z.textEnd < z.dataEnd → 0 ≤ z.textEnd ∧ z.dataEnd ≤ pageTableLen
  stack : 0 ≤ z.stackNpg ∧ z.stackNpg ≤ cfg.userStackLimit ∧ cfg.userStackLimit ≤ pageTableLen

theorem layOut_inRange {cfg : Config} {z : Sizes} (hz : PagesFit cfg z) (hm : FramesExist m p kernelStackBase) :
    InRange (layOut cfg p z m) := by
  have htext := hz.text
  have hdata := hz.data
  have hstack := hz.stack
  simp only [pageTableLen] at htext hdata hstack
  refine avoids_bind (freeEntries_inRange hm) fun _ _ => avoids_bind ?_ fun _ _ => avoids_bind ?_ fun _ _ =>
    avoids_bind ?_ fun _ _ => ?_
  · refine avoids_upTo_each fun i s _ hi => invalidate_inRange _ _ ?_
    simp only [memInvalidPages, pageTableLen] at hi ⊢
    omega
  · refine avoids_upTo_each fun i s _ hi => mapPage_inRange _ _ ?_
    simp only [Sizes.textLen, pageTableLen] at hi ⊢
    omega
  · refine avoids_upTo_each fun i s _ hi => mapPage_inRange _ _ ?_
    simp only [Sizes.dataLen, pageTableLen] at hi ⊢
    omega
  · refine avoids_upTo_each fun i s _ hi => mapPage_inRange _ _ ?_
    simp only [pageTableLen] at hi ⊢
    omega

theorem fill_inRange {li : LoadInfo} {read : Option (List (BitVec 8))} {args : List (List (BitVec 8))} {z : Sizes}
    {cfg : Config} (hz : PagesFit cfg z) : InRange (fill p li read args z info m) := by
  refine avoids_bind (storeBytes_inRange ..) fun _ _ => ?_
  refine avoids_ite (fun _ => avoids_pure _) fun _ => ?_
  refine avoids_bind (avoids_upTo_each fun i s _ hi => protectText_inRange _ _ ?_) fun _ _ =>
    avoids_bind (storeBytes_inRange ..) fun _ _ => avoids_bind (buildStack_inRange ..) fun _ _ => avoids_pure _
  have htext := hz.text
  simp only [Sizes.textLen, pageTableLen] at htext hi ⊢
  omega

def LoadInBounds (p : TablePtr) (file : Option File) (args : List (List (BitVec 8))) (m : Memory) : Prop :=
  ∀ li, Passes file args m li → PagesFit m.cfg (sizes m.cfg li args) ∧ FramesExist m p kernelStackBase

theorem loadProgram_inRange {curr : Nat} {file : Option File} {args : List (List (BitVec 8))}
    (h : LoadInBounds p file args m) : InRange (loadProgram curr p file args info m) := by
  unfold loadProgram
  cases file with
  | none => exact avoids_ok _
  | some f =>
      cases hst : f.status with
      | formatError | otherError | unknown =>
          simp only [hst]
          exact avoids_ok _
      | success li =>
          simp only [hst]
          refine avoids_ite (fun _ => avoids_error (by decide)) fun _ => avoids_ite (fun _ => avoids_ok _) fun hv =>
            avoids_ite (fun _ => avoids_ok _) fun hp => ?_
          simp only [Bool.not_eq_true', Bool.not_eq_false] at hv hp
          obtain ⟨hz, hframes⟩ := h li ⟨⟨_, rfl, hst⟩, hv, hp⟩
          refine avoids_bind (layOut_inRange hz fun w hw j hj hval => ?_) fun u hu => fill_inRange hz
          have hw' : Leads m p w := leads_congr hw rfl fun _ _ => rfl
          have hread : w.read (setSpace m curr { m.space curr with brk := newBrk (sizes m.cfg li args) }) j = w.read m j := by
            cases w <;> rfl
          exact hread ▸ hframes w hw' j hj (hread ▸ hval)

theorem exitPage_inRange {curr : Nat} {c : Int} {marks : Nat → PageMark} (hm : FramesExist m (m.space curr).region0 pageTableLen)
    (hk : k < pageTableLen) : InRange (exitPage curr k { m with freePages := marks, numFreePages := c }) := by
  refine avoids_bind (readPte_inRange _ _ (nat_inRange hk)) fun e he => ?_
  split
  case isTrue hv =>
    refine freePage_inRange _ ?_
    obtain ⟨w, hw, rfl⟩ := read_leads he
    have hw' : Leads m (m.space curr).region0 w := leads_congr hw rfl fun _ _ => rfl
    cases w with
    | static => exact nat_inRange (hm _ hw' k hk hv)
    | frame f => exact nat_inRange (hm _ hw' k hk hv)
  case isFalse => exact avoids_pure _

theorem switchExit_inRange {curr n : Nat} (hm : FramesExist m (m.space curr).region0 pageTableLen) :
    InRange (AddressSpace.switchExit curr n m) := by
  refine avoids_bind (avoids_upTo (fun _ u => ∃ marks c, u = { m with freePages := marks, numFreePages := c })
    (fun k u _ hk hu => ?_) ⟨m.freePages, m.numFreePages, rfl⟩) fun _ _ => avoids_pure _
  obtain ⟨marks, c, rfl⟩ := hu
  refine ⟨exitPage_inRange hm (by omega), fun v hv => ?_⟩
  obtain ⟨e, -, hv⟩ := bind_ok.1 hv
  split at hv
  case isTrue =>
    obtain ⟨f, -, -, rfl⟩ := freePage_ok.1 hv
    exact ⟨_, _, rfl⟩
  case isFalse =>
    obtain rfl := Except.ok.inj hv
    exact ⟨_, _, rfl⟩

theorem releaseTable_inRange {curr : Nat} (hm : (m.space curr).freeVpn < pageTableLen ∧
    (m.region1Pt (m.space curr).freeVpn).pfn.toNat < m.numPages) : InRange (releaseTable curr m) := by
  refine avoids_bind (index_inRange (nat_inRange hm.1)) fun i hi => freePage_inRange _ ?_
  obtain ⟨hi, -⟩ := index_ok.1 hi
  obtain rfl := Int.ofNat.inj hi
  exact nat_inRange hm.2

theorem brkDown_inRange (hk : k < pageTableLen) (hn : k < m.numPages) : InRange (brkDown k m) := by
  refine avoids_bind (freePage_inRange _ ?_) fun _ _ =>
    avoids_bind (readPte_inRange _ _ (nat_inRange hk)) fun _ _ => writePte_inRange _ _ _ (nat_inRange hk)
  rw [toInt_small (by omega) (by simp only [pageTableLen] at hk; omega)]
  exact nat_inRange hn

theorem brkFunc_inRange {curr addr : Nat} (h : BrkInBounds curr addr m) : InRange (brkFunc curr addr m) := by
  obtain ⟨hdown, hup⟩ := h
  unfold brkFunc
  dsimp only at hdown hup ⊢
  split
  case isTrue hlt =>
    refine avoids_bind (avoids_upTo (fun _ u => u.numPages = m.numPages) (fun k u hk hn hu => ⟨?_, fun v hv => ?_⟩) rfl)
      fun _ _ => avoids_pure _
    · obtain ⟨htable, hframes⟩ := hdown hlt (by omega)
      exact brkDown_inRange (by omega) (by omega)
    · exact (Fixed.brkDown hv).numPages.trans hu
  case isFalse =>
    split
    case isTrue hge =>
      refine avoids_bind (avoids_upTo_each fun k u _ hn => mapPage_inRange _ _ (nat_inRange ?_)) fun _ _ => avoids_pure _
      have htable := hup hge (by omega)
      omega
    case isFalse => exact avoids_pure _

theorem growStack_inRange {curr vpn : Nat} (hv : vpn ≤ pageTableLen) (h : (m.space curr).sp ≤ pageTableLen) :
    InRange (growStack curr vpn m) := by
  unfold growStack
  dsimp only
  refine avoids_bind (avoids_upTo_each fun k u _ hn => mapPage_inRange _ _ (nat_inRange ?_)) fun _ _ => avoids_pure _
  simp only [pageTableLen] at h hv ⊢
  rw [toInt_small (x := (m.space curr).sp) (by omega) (by omega), toInt_small (by omega) (by omega)] at hn
  omega

theorem growsStack_page (h : growsStack s info = true) : toUlong (downToPage info.addr) ≤ kernelStackBase := by
  simp only [growsStack, decide_eq_true_eq, Nat.not_lt, kernelStackBase, pageSize] at h ⊢
  obtain ⟨-, haddr, -⟩ := h
  have hpage : downToPage info.addr = (info.addr / 4096 : Nat) := by
    rw [downToPage, toLong_nat (by omega), pageSize]
    rfl
  rw [hpage, toUlong_nat (by omega)]
  omega

/-- The page of Region 1 for the child's table and the page that the copy goes
through are there, and so are the frames with their numbers. -/
def ForkInBounds (m : Memory) : Prop :=
  ∃ i b, freeVirtualPage m = some i ∧ pageTableLen + i < m.numPages ∧
    borrowPage (writeRegion1 m i { m.region1Pt i with valid := true }) = some b ∧ pageTableLen + b < m.numPages

theorem borrowPage_congr (h : ∀ i, (m'.region1Pt i).valid = (m.region1Pt i).valid) : borrowPage m' = borrowPage m := by
  simp only [borrowPage, h]

theorem scanDown_congr (hcfg : m'.cfg = m.cfg) (h : m'.region1Pt = m.region1Pt) (n : Nat) : scanDown m' n = scanDown m n := by
  induction n with
  | zero => rfl
  | succ n ih => simp only [scanDown, hcfg, h, ih]

theorem freeVirtualPage_congr (hcfg : m'.cfg = m.cfg) (h : m'.region1Pt = m.region1Pt) : freeVirtualPage m' = freeVirtualPage m := by
  unfold freeVirtualPage
  rw [scanDown_congr hcfg h]

theorem forkPage_inRange (m : Memory) {parent child b : Nat} (hk : k < pageTableLen) : InRange (forkPage parent child b k m) := by
  refine avoids_bind (readPte_inRange _ _ (nat_inRange hk)) fun e _ => ?_
  split
  · refine avoids_bind (mapPage_inRange _ _ (nat_inRange hk)) fun _ _ => ?_
    exact avoids_bind (readPte_inRange _ _ (nat_inRange hk)) fun _ _ => copyPage_inRange ..
  · exact avoids_bind (readPte_inRange _ _ (nat_inRange hk)) fun _ _ => writePte_inRange _ _ _ (nat_inRange hk)

theorem switchFork_inRange {parent child b : Nat} (hb : borrowPage m = some b) (hn : pageTableLen + b < m.numPages) :
    InRange (AddressSpace.switchFork parent child m) := by
  have hborrow : borrowR1Page m = b := by
    unfold borrowR1Page
    rw [hb]
  unfold AddressSpace.switchFork
  rw [hborrow]
  refine avoids_bind (index_inRange (nat_inRange (borrowPage_some hb).1)) fun borrowed hi => ?_
  obtain ⟨hi, -⟩ := index_ok.1 hi
  obtain rfl := Int.ofNat.inj hi
  refine avoids_bind (avoids_upTo_each fun k u _ hk => forkPage_inRange _ (by omega)) fun u hu =>
    avoids_bind (avoids_bind (index_inRange ?_) fun _ _ => avoids_pure _) fun _ _ => avoids_pure _
  have hfix := Fixed.upTo (fun _ _ _ => Fixed.forkPage) hu
  change 0 ≤ (b + pageTableLen : Int) ∧ (b + pageTableLen : Int) < u.numPages
  rw [hfix.numPages]
  change 0 ≤ (b + pageTableLen : Int) ∧ (b + pageTableLen : Int) < m.numPages
  omega

theorem buildRegion0_inRange {proc : Nat} (hi : freeVirtualPage m = some k) (hn : pageTableLen + k < m.numPages) :
    InRange (buildRegion0 proc m) := by
  have hk := (scanDown_some hi).1
  simp only [pageTableLen] at hk
  unfold buildRegion0 findFreeVirtualPage
  rw [hi]
  refine avoids_bind (avoids_bind (index_inRange ?_) fun _ _ => avoids_pure _) fun r hr => ?_
  · omega
  obtain ⟨frame, -, hr⟩ := bind_ok.1 hr
  obtain rfl := Except.ok.inj hr
  refine avoids_bind (index_inRange (nat_inRange ?_)) fun j _ => avoids_upTo_each fun v u _ hv => mapPage_inRange _ _ (nat_inRange ?_)
  · rw [toUlong_nat (by omega), pageTableLen]
    omega
  · simp only [kernelStackBase, kernelStackPages, pageTableLen] at hv ⊢
    omega

theorem contextSwitch_inRange {kont : Kont} {switch : State → Except Fault (Nat × State)}
    (h : InRange (switch { s with ctx := saveContext kont info s })) : InRange (contextSwitch kont info switch s) :=
  avoids_bind h fun _ _ => avoids_pure _

theorem switchExist_inRange (n : Nat) (s : State) : InRange (switchExist n s) := avoids_ok _

theorem built_pages (hm : buildRegion0 s.fam.count (createProc s).2.mem = .ok m) : ∃ i, freeVirtualPage s.mem = some i ∧
    pageTableLen + i < s.mem.numPages ∧ m.numPages = s.mem.numPages ∧
      ∀ k, (m.region1Pt k).valid = ((writeRegion1 s.mem i { s.mem.region1Pt i with valid := true }).region1Pt k).valid := by
  have hcongr : freeVirtualPage (createProc s).2.mem = freeVirtualPage s.mem := freeVirtualPage_congr rfl rfl
  obtain ⟨i, hi, -, -, hn, hmap⟩ := buildRegion0_ok hm
  have hfix := Fixed.upTo (fun _ _ _ => Fixed.mapPage) hmap
  have hregion := upTo_relation (fun u v : Memory => v.region1Pt = u.region1Pt) (fun _ => rfl) (fun _ _ _ h h' => h'.trans h)
    (fun _ _ _ _ _ => mapPage_region1) hmap
  refine ⟨i, hcongr.symm.trans hi, hn, hfix.numPages, fun k => ?_⟩
  rw [hregion]
  change (put s.mem.region1Pt i _ k).valid = (put s.mem.region1Pt i _ k).valid
  by_cases hk : k = i
  · rw [hk, put_self, put_self]
  · rw [put_of_ne hk, put_of_ne hk]

theorem forkFunc_inRange (h : ForkInBounds s.mem) : InRange (forkFunc info s) := by
  obtain ⟨i, b, hi, hn, hb, hnb⟩ := h
  have hcongr : freeVirtualPage (createProc s).2.mem = freeVirtualPage s.mem := freeVirtualPage_congr rfl rfl
  have hi' := hcongr.trans hi
  refine avoids_bind (buildRegion0_inRange hi' hn) fun m hm => avoids_bind (linkChild_inRange ..) fun fam _ =>
    contextSwitch_inRange (avoids_bind ?_ fun _ _ => avoids_bind (push_inRange ..) fun _ _ => avoids_pure _)
  obtain ⟨i', hi'', -, hnum, hvalid⟩ := built_pages hm
  obtain rfl := Option.some.inj (hi.symm.trans hi'')
  refine switchFork_inRange (b := b) ((borrowPage_congr hvalid).trans hb) ?_
  change pageTableLen + b < m.numPages
  rw [hnum]
  exact hnb

def ExitInBounds (s : State) : Prop := FramesExist s.mem (s.mem.space s.curr).region0 pageTableLen

theorem exitFunc_inRange {status : Int} (h : ExitInBounds s) : InRange (exitFunc status info s) := by
  refine avoids_bind (exitLinks_inRange ..) fun r _ => ?_
  obtain ⟨woken, fam⟩ := r
  have hlast (a : Sched) : InRange (do
      let r ← findReadyPcb a
      contextSwitch .exit info (switchExit s.curr r.1)
        { s with fam, sched := r.2, exited := Function.update s.exited s.curr true }) :=
    avoids_bind (findReady_inRange ..) fun _ _ =>
      contextSwitch_inRange (avoids_bind (switchExit_inRange h) fun _ _ => avoids_pure _)
  cases woken with
  | none => exact hlast _
  | some parent => exact avoids_bind (push_inRange ..) fun sched _ => hlast sched

theorem waitFunc_inRange (info : ExceptionInfo) (s : State) : InRange (waitFunc info s) := by
  unfold waitFunc
  refine avoids_ite (fun _ => avoids_ite (fun _ => avoids_pure _) fun _ => ?_) fun _ => ?_
  · exact avoids_bind (findReady_inRange ..) fun _ _ =>
      avoids_bind (contextSwitch_inRange (switchExist_inRange ..)) fun _ _ => avoids_pure _
  · exact avoids_bind (collect_inRange ..) fun _ _ => avoids_pure _

theorem delayFunc_inRange (clockTicks : Int) (info : ExceptionInfo) (s : State) : InRange (delayFunc clockTicks info s) := by
  unfold delayFunc
  refine avoids_ite (fun _ => avoids_pure _) fun _ => avoids_ite (fun _ => avoids_pure _) fun _ => ?_
  exact avoids_bind (removeProcLoop_inRange ..) fun _ _ => avoids_bind (pushWaiting_inRange ..) fun _ _ =>
    avoids_bind (findReady_inRange ..) fun _ _ =>
      avoids_bind (contextSwitch_inRange (switchExist_inRange ..)) fun _ _ => avoids_pure _

theorem execFunc_inRange {file : Option File} {args : List (List (BitVec 8))}
    (h : LoadInBounds (s.mem.space s.curr).region0 file args s.mem) : InRange (execFunc file args info s) := by
  refine avoids_bind (loadProgram_inRange h) fun _ _ => ?_
  exact avoids_ite (fun _ => avoids_pure _) fun _ => avoids_pure _

theorem clockWalk_inRange (info : ExceptionInfo) (n : Nat) (x : Ptr) (s : State) : InRange (clockWalk info n x s) := by
  induction n generalizing x s with
  | zero =>
      cases x with
      | none => exact avoids_bind (tick_inRange ..) fun _ _ => avoids_pure _
      | some a => exact avoids_error (by decide)
  | succ n ih =>
      cases x with
      | none => exact avoids_bind (tick_inRange ..) fun _ _ => avoids_pure _
      | some a =>
          unfold clockWalk
          refine avoids_bind (deref_inRange ..) fun item _ => avoids_ite (fun _ => ?_) fun _ => ih _ _
          exact avoids_bind (removeWaiting_inRange ..) fun _ _ => avoids_bind (push_inRange ..) fun _ _ =>
            avoids_bind (contextSwitch_inRange (switchExist_inRange ..)) fun _ _ => avoids_pure _

theorem setKernelBrk_inRange {addr : Nat} (h : m.vmEnabled = true → pagesNeeded m addr ≤ m.numFreePages →
      0 < pagesNeeded m addr → 0 ≤ currBrkPg m ∧ currBrkPg m + pagesNeeded m addr ≤ pageTableLen) :
    InRange (setKernelBrk addr m) := by
  unfold setKernelBrk
  refine avoids_ite (fun _ => avoids_pure _) fun hvm => avoids_ite (fun _ => avoids_pure _) fun hfree => ?_
  refine avoids_bind (avoids_upTo_each fun k u _ hk => ?_) fun _ _ => avoids_pure _
  obtain ⟨hlow, hhigh⟩ := h (by simpa using hvm) (by omega) (by omega)
  exact avoids_bind (index_inRange (by omega)) fun _ _ => avoids_pure _

/-- The index each kernel entry takes from its arguments and from the state is in its table. -/
def InBounds (s : State) : Event → Prop
  | .call .fork _ => ForkInBounds s.mem
  | .call (.exec file args) _ => LoadInBounds (s.mem.space s.curr).region0 file args s.mem
  | .call (.exit _) _ | .fatalTrap _ => ExitInBounds s
  | .call (.brk addr) _ => BrkInBounds s.curr addr s.mem
  | .memoryTrap info => growsStack s info = false → ExitInBounds s
  | .resume file => ∀ c, s.mode = .resuming c →
      (∀ pcb2 args, c.kont = .boot pcb2 args → LoadInBounds (s.mem.space pcb2).region0 file args s.mem) ∧
      (c.kont = .exit → (s.mem.space s.curr).freeVpn < pageTableLen ∧
        (s.mem.region1Pt (s.mem.space s.curr).freeVpn).pfn.toNat < s.mem.numPages)
  | .kernelBrk addr => s.mem.vmEnabled = true → pagesNeeded s.mem addr ≤ s.mem.numFreePages →
      0 < pagesNeeded s.mem addr → 0 ≤ currBrkPg s.mem ∧ currBrkPg s.mem + pagesNeeded s.mem addr ≤ pageTableLen
  | .call _ _ | .clock _ | .userStore _ _ => True

/-- The pages by which a memory trap lowers the stack have entries. The `sp` that
is read may be what malloc left, where no program has been loaded. -/
def GrowInBounds (s : State) (e : Event) : Prop :=
  ∀ info, e = .memoryTrap info → growsStack s info = true →
    let vpn := toUlong (downToPage info.addr)
    let pgsUp := toInt (toInt (s.mem.space s.curr).sp - vpn)
    0 < pgsUp → vpn + pgsUp ≤ pageTableLen

/-- The kernel stays in its tables, and reads no queue item that is freed or not set. -/
def Defined (s : State) (e : Event) : Prop := InBounds s e ∧ GrowInBounds s e ∧ CurrProc.Fresh s e

theorem next_inRange {e : Event} (hsp : (s.mem.space s.curr).sp ≤ pageTableLen) (he : InBounds s e) : InRange (next s e) := by
  cases e with
  | call c info =>
      refine avoids_map ?_
      cases c with
      | fork => exact avoids_bind (forkFunc_inRange he) fun _ _ => avoids_pure _
      | exec file args => exact avoids_bind (execFunc_inRange he) fun _ _ => avoids_pure _
      | exit status => exact avoids_bind (exitFunc_inRange he) fun _ _ => avoids_pure _
      | wait ptr => exact avoids_bind (waitFunc_inRange ..) fun _ _ => avoids_pure _
      | getPid => exact avoids_ok _
      | brk addr => exact avoids_bind (brkFunc_inRange he) fun _ _ => avoids_pure _
      | delay clockTicks => exact avoids_bind (delayFunc_inRange ..) fun _ _ => avoids_pure _
  | memoryTrap info =>
      refine avoids_map (avoids_ite (fun hg => ?_) fun hg => ?_)
      · have hpage := growsStack_page hg
        refine avoids_bind (growStack_inRange ?_ hsp) fun _ _ => avoids_pure _
        simp only [kernelStackBase, pageTableLen] at hpage ⊢
        omega
      · exact avoids_bind (exitFunc_inRange (he (Bool.eq_false_iff.2 hg))) fun _ _ => avoids_pure _
  | fatalTrap info => exact avoids_map (avoids_bind (exitFunc_inRange he) fun _ _ => avoids_pure _)
  | clock info => exact avoids_map (clockWalk_inRange ..)
  | resume file =>
      refine avoids_map ?_
      unfold resume
      cases hm : s.mode with
      | user | hung => exact avoids_ok _
      | resuming c =>
          obtain ⟨hboot, hexit⟩ := he c hm
          dsimp only
          cases hk : c.kont with
          | boot pcb2 cmdArgs =>
              dsimp only
              exact avoids_bind (loadProgram_inRange (hboot _ _ hk)) fun _ _ => avoids_pure _
          | fork child | delay => exact avoids_ok _
          | wait => exact avoids_bind (collect_inRange ..) fun _ _ => avoids_pure _
          | clock item => exact avoids_bind (deref_inRange ..) fun _ _ => clockWalk_inRange ..
          | exit => exact avoids_bind (releaseTable_inRange (hexit hk)) fun _ _ => avoids_pure _
  | kernelBrk addr => exact avoids_bind (setKernelBrk_inRange he) fun _ _ => avoids_pure _
  | userStore vaddr x =>
      refine avoids_bind (avoids_bind (userFrame_inRange ..) fun _ _ => avoids_bind (walk_inRange ..) fun _ _ => ?_)
        fun _ _ => avoids_pure _
      exact avoids_ite (fun _ => avoids_ok _) fun _ => avoids_error (by decide)

theorem mapPage_lt {uprot kprot : BitVec 3} (h : mapPage p uprot kprot i m = .ok m') : 0 ≤ i ∧ i < pageTableLen := by
  obtain ⟨e, he, -⟩ := mapPage_ok.1 h
  obtain ⟨j, w, rfl, hlt, -⟩ := readPte_ok.1 he
  exact nat_inRange hlt

theorem mapPages_lt {uprot kprot : BitVec 3} {g : Nat → Int} (h : upTo (fun a => mapPage p uprot kprot (g a)) k n m = .ok m') :
    ∀ a, k ≤ a → a < k + n → 0 ≤ g a ∧ g a < pageTableLen := by
  intro a hk hlt
  obtain ⟨u, v, -, hv⟩ := upTo_each (fun _ _ => True) (fun _ => trivial) (fun _ _ _ _ _ => trivial) (fun _ _ _ _ => trivial) h
    a hk hlt
  exact mapPage_lt hv

theorem brkDown_lt (h : brkDown k m = .ok m') : k < pageTableLen ∧ k < m.numPages := by
  obtain ⟨u, hu, h⟩ := bind_ok.1 h
  obtain ⟨e, he, -⟩ := bind_ok.1 h
  obtain ⟨f, hf, hlt, -⟩ := freePage_ok.1 hu
  obtain ⟨j, w, hj, hk, -⟩ := readPte_ok.1 he
  obtain rfl := Int.ofNat.inj hj
  rw [toInt_small (by omega) (by simp only [pageTableLen] at hk; omega)] at hf
  obtain rfl := Int.ofNat.inj hf
  exact ⟨hk, hlt⟩

theorem brkFunc_inBounds {curr addr : Nat} {r : Int} (h : brkFunc curr addr m = .ok (r, m')) : BrkInBounds curr addr m := by
  unfold brkFunc at h
  dsimp only at h
  refine ⟨fun hdown hpos => ?_, fun hup hpos => ?_⟩
  · rw [if_pos hdown] at h
    obtain ⟨u, hu, -⟩ := bind_ok.1 h
    obtain ⟨v, v', hv, hlast⟩ := upTo_each Fixed .refl (fun _ _ _ => Fixed.trans) (fun _ _ _ => Fixed.brkDown) hu
      ((m.space curr).brk + (toInt ((m.space curr).brk - roundedBrk addr)).toNat - 1) (by omega) (by omega)
    obtain ⟨htable, hframe⟩ := brkDown_lt hlast
    rw [hv.numPages] at hframe
    omega
  · rw [if_neg (by omega), if_pos hup] at h
    obtain ⟨u, hu, -⟩ := bind_ok.1 h
    obtain ⟨-, hlast⟩ := mapPages_lt (g := fun a => a) hu
      ((m.space curr).brk + (toInt (roundedBrk addr - (m.space curr).brk)).toNat - 1) (by omega) (by omega)
    omega

/-- A step that grows the stack has its pages in the table. -/
theorem step_growInBounds {e : Event} (h : Step s e t) : GrowInBounds s e := by
  rintro info rfl hgrows vpn pgsUp hpos
  obtain ⟨⟨out, u⟩, htrap, -⟩ := map_ok.1 h.2
  simp only [trapMemoryHandler, hgrows, if_true] at htrap
  obtain ⟨mem, hmem, -⟩ := bind_ok.1 htrap
  obtain ⟨u, hu, -⟩ := bind_ok.1 hmem
  have hlast : vpn ≤ vpn + pgsUp.toNat - 1 → vpn + pgsUp.toNat - 1 < vpn + pgsUp.toNat →
      0 ≤ ((vpn + pgsUp.toNat - 1 : Nat) : Int) ∧ ((vpn + pgsUp.toNat - 1 : Nat) : Int) < pageTableLen :=
    mapPages_lt (g := fun a => a) hu (vpn + pgsUp.toNat - 1)
  clear_value vpn pgsUp
  omega

theorem setKernelBrk_inBounds {addr : Nat} {r : Int} (h : setKernelBrk addr m = .ok (r, m')) (hvm : m.vmEnabled = true)
    (hfree : pagesNeeded m addr ≤ m.numFreePages) (hpos : 0 < pagesNeeded m addr) :
    0 ≤ currBrkPg m ∧ currBrkPg m + pagesNeeded m addr ≤ pageTableLen := by
  rcases setKernelBrk_ok h with ⟨-, hlt, -⟩ | ⟨hoff, -⟩ | ⟨-, -, -, u, hu, -⟩
  · omega
  · rw [hoff] at hvm
    cases hvm
  · have hround (a : Nat) (ha : a < (pagesNeeded m addr).toNat) : 0 ≤ currBrkPg m + a ∧ currBrkPg m + a < pageTableLen := by
      obtain ⟨v, v', -, hv⟩ := upTo_each (fun _ _ => True) (fun _ => trivial) (fun _ _ _ _ _ => trivial) (fun _ _ _ _ => trivial) hu
        a (Nat.zero_le _) (by omega)
      obtain ⟨j, hj, hlt, -⟩ := mapKernelPage_cases hv
      omega
    have hfirst := hround 0 (by omega)
    have hlast := hround ((pagesNeeded m addr).toNat - 1) (by omega)
    omega

theorem forkFunc_inBounds (h : forkFunc info s = .ok t) : ForkInBounds s.mem := by
  obtain ⟨m, m', fam, sched, hm, hfork, -⟩ := forkFunc_ok h
  obtain ⟨i, hi, hn, hnum, hvalid⟩ := built_pages hm
  obtain ⟨b, hb, hfork⟩ := bind_ok.1 hfork
  obtain ⟨u, hu, hfork⟩ := bind_ok.1 hfork
  obtain ⟨v, hv, -⟩ := bind_ok.1 hfork
  obtain ⟨f, hf, -⟩ := bind_ok.1 hv
  obtain ⟨he, hlt⟩ := index_ok.1 hf
  have hfix := Fixed.upTo (fun _ _ _ => Fixed.forkPage) hu
  change f < u.numPages at hlt
  rw [hfix.numPages] at hlt
  have hframe : pageTableLen + b < s.mem.numPages := by
    rw [← hnum]
    change f < m.numPages at hlt
    omega
  have hpages : borrowPage (setSpace m s.fam.count (childSpace s.curr s.fam.count m)) = borrowPage m := borrowPage_congr fun _ => rfl
  have hborrow : borrowPage m = some b := hpages.symm.trans (borrowR1Page_ok hb)
  exact ⟨i, b, hi, hn, (borrowPage_congr hvalid).symm.trans hborrow, hframe⟩

theorem layOut_pagesFit {cfg : Config} {li : LoadInfo} {args : List (List (BitVec 8))} (hargs : argsSize args < 2 ^ 31)
    (h : layOut cfg p (sizes cfg li args) m = .ok m') : PagesFit cfg (sizes cfg li args) := by
  obtain ⟨m₁, -, h⟩ := bind_ok.1 h
  obtain ⟨m₂, -, h⟩ := bind_ok.1 h
  obtain ⟨m₃, htext, h⟩ := bind_ok.1 h
  obtain ⟨m₄, hdata, hstack⟩ := bind_ok.1 h
  have htext := mapPages_lt (g := fun a => a) htext
  have hdata := mapPages_lt (g := fun a => (sizes cfg li args).textEnd + a) hdata
  have hstack := mapPages_lt (g := fun a => (cfg.userStackLimit - 1 - a : Int)) hstack
  have hnpg : 0 < (sizes cfg li args).stackNpg := by
    have hlen := length_le_size args
    have hz : (sizes cfg li args).stackNpg = toInt (cfg.userStackLimit - (sizes cfg li args).cpp / pageSize) := rfl
    have hcpp : (sizes cfg li args).cpp = (sizes cfg li args).cp - (sizes cfg li args).cp % 16 - (args.length + 4) * 8 := rfl
    have hcp : (sizes cfg li args).cp = cfg.userStackLimit * pageSize - argsSize args := rfl
    simp only [pageSize] at hz hcpp hcp
    rw [hz, toInt_small (by omega) (by omega)]
    omega
  simp only [Sizes.textLen, Sizes.dataLen] at htext hdata
  refine ⟨?_, fun hlt => ?_, ?_⟩
  · by_cases hlow : (sizes cfg li args).textEnd ≤ memInvalidPages
    · simp only [memInvalidPages, pageTableLen] at hlow ⊢
      omega
    · have := htext ((sizes cfg li args).textEnd - 1).toNat (by omega) (by omega)
      omega
  · have hfirst := hdata 0 (Nat.le_refl _) (by omega)
    have hlast := hdata ((sizes cfg li args).dataEnd - (sizes cfg li args).textEnd - 1).toNat (Nat.zero_le _) (by omega)
    omega
  · have hfirst := hstack 0 (Nat.le_refl _) (by omega)
    have hlast := hstack ((sizes cfg li args).stackNpg - 1).toNat (Nat.zero_le _) (by omega)
    omega

/-- Where the stack of a process begins, which is cached in its pcb, is a page of Region 0. -/
structure StacksFit (s : State) : Prop where
  curr_lt : s.curr < s.fam.count
  idle_lt : s.sched.idlePcb < s.fam.count
  items_lt : ∀ i, i < s.sched.items.count → s.sched.items.proc i < s.fam.count
  sp_le : ∀ p, p < s.fam.count → (s.mem.space p).sp ≤ pageTableLen

def SpKept (m m' : Memory) : Prop := ∀ q, (m'.space q).sp = (m.space q).sp ∨ (m'.space q).sp ≤ pageTableLen

theorem spKept_fixed (h : m'.space = m.space) : SpKept m m' := fun q => .inl (by rw [h])

theorem spKept_trans (h : SpKept m u) (h' : SpKept u m') : SpKept m m' := by
  intro q
  rcases h' q with he | hle
  · rw [he]
    exact h q
  · exact .inr hle

theorem spKept_setSpace {q : Nat} {sp : Space} (h : sp.sp = (m.space q).sp ∨ sp.sp ≤ pageTableLen) :
    SpKept m (setSpace m q sp) := by
  intro r
  by_cases hr : r = q
  · rw [hr, setSpace_space_self]
    exact h
  · exact .inl (congrArg Space.sp (put_of_ne hr ..))

theorem stacksFit_of (hs : StacksFit s) (hcount : t.fam.count = s.fam.count) (hgrows : Grows s.fam.count s.sched t.sched)
    (hsp : SpKept s.mem t.mem) : StacksFit t := by
  refine ⟨?_, ?_, ?_, fun q hq => ?_⟩
  · rw [State.curr, hgrows.curr, hcount]
    exact hs.curr_lt
  · rw [hgrows.idle, hcount]
    exact hs.idle_lt
  · rw [hcount]
    exact CurrProc.grows_items hgrows hs.items_lt
  · rcases hsp q with he | hle
    · rw [he]
      exact hs.sp_le q (hcount ▸ hq)
    · exact hle

theorem stacksFit_switched {kont : Kont} {q : Nat} {u : State} (hs : StacksFit s) (hcount : u.fam.count = s.fam.count)
    (hgrows : Grows s.fam.count s.sched u.sched) (hsp : SpKept s.mem u.mem) (hq : q < s.fam.count) :
    StacksFit (switched kont info q s u) := by
  have hu := stacksFit_of hs hcount hgrows hsp
  exact ⟨hcount.symm ▸ hq, hu.idle_lt, hu.items_lt, hu.sp_le⟩

theorem loadProgram_sp {curr : Nat} {file : Option File} {args : List (List (BitVec 8))} {info' : ExceptionInfo} {r : Int}
    (hb : LoadInBounds p file args m) (h : loadProgram curr p file args info m = .ok (r, info', m')) : SpKept m m' := by
  rcases loadProgram_ok h with ⟨-, -, rfl⟩ | ⟨f, li, hf, hst, hv, ⟨-, -, -, rfl⟩ | ⟨hp, m₁, h₁, h₂⟩⟩
  · exact spKept_fixed rfl
  · exact spKept_setSpace (.inl rfl)
  · have hcfg : m₁.cfg = m.cfg := (Fixed.layOut h₁).cfg
    have hbrk : SpKept m (setSpace m curr { m.space curr with brk := newBrk (sizes m.cfg li args) }) :=
      spKept_setSpace (.inl rfl)
    have hlay := spKept_trans hbrk (spKept_fixed (Fixed.layOut h₁).space)
    refine spKept_trans hlay (spKept_trans (spKept_setSpace (.inr ?_)) (spKept_fixed (Fixed.fill h₂).space))
    obtain ⟨hlow, hle, hfit⟩ := (hb li ⟨⟨f, hf, hst⟩, hv, hp⟩).1.stack
    obtain ⟨sp, hsp⟩ := Int.eq_ofNat_of_zero_le (Int.sub_nonneg.2 hle)
    simp only [pageTableLen] at hfit ⊢
    rw [newSp, hcfg, hsp, toUlong_nat (by omega)]
    omega

theorem brkFunc_sp {curr addr : Nat} {r : Int} (h : brkFunc curr addr m = .ok (r, m')) : SpKept m m' := by
  unfold brkFunc at h
  dsimp only at h
  split at h
  case isTrue =>
    obtain ⟨u, hu, h⟩ := bind_ok.1 h
    obtain ⟨-, rfl⟩ := Prod.mk.inj (Except.ok.inj h)
    exact spKept_trans (spKept_fixed (Fixed.upTo (fun _ _ _ => Fixed.brkDown) hu).space) (spKept_setSpace (.inl rfl))
  case isFalse =>
    split at h
    case isTrue =>
      obtain ⟨u, hu, h⟩ := bind_ok.1 h
      obtain ⟨-, rfl⟩ := Prod.mk.inj (Except.ok.inj h)
      exact spKept_trans (spKept_fixed (Fixed.upTo (fun _ _ _ => Fixed.mapPage) hu).space) (spKept_setSpace (.inl rfl))
    case isFalse =>
      obtain ⟨-, rfl⟩ := Prod.mk.inj (Except.ok.inj h)
      exact spKept_fixed rfl

theorem growStack_sp {curr vpn : Nat} (hv : vpn ≤ pageTableLen) (h : growStack curr vpn m = .ok m') : SpKept m m' := by
  unfold growStack at h
  dsimp only at h
  obtain ⟨u, hu, h⟩ := bind_ok.1 h
  obtain rfl := Except.ok.inj h
  exact spKept_trans (spKept_fixed (Fixed.upTo (fun _ _ _ => Fixed.mapPage) hu).space) (spKept_setSpace (.inr hv))

theorem fork_stacksFit (hs : StacksFit s) (h : forkFunc info s = .ok t) : StacksFit t := by
  obtain ⟨m, m', fam, sched, hbuild, hfork, hlink, hpush, rfl⟩ := forkFunc_ok h
  have hcount : fam.count = s.fam.count + 1 := linkChild_count hlink
  have hgrows : Grows (s.fam.count + 1) { (createProc s).2.sched with currProc := s.fam.count } sched :=
    .push (Nat.lt_succ_of_lt hs.curr_lt) hpush
  obtain ⟨k, -, hb⟩ := buildRegion0_table hbuild
  obtain ⟨u, hu, rfl⟩ := switchFork_table hfork
  have hold {q : Nat} (hq : q < s.fam.count) : (m.space q).sp = (s.mem.space q).sp := by
    rw [hb.space]
    exact congrArg Space.sp ((put_of_ne (Nat.ne_of_lt hq) ..).trans (put_of_ne (Nat.ne_of_lt hq) ..))
  refine ⟨?_, ?_, ?_, fun q hq => ?_⟩
  · change sched.currProc < fam.count
    rw [hgrows.curr, hcount]
    exact Nat.lt_succ_self _
  · change sched.idlePcb < fam.count
    rw [hgrows.idle, hcount]
    exact Nat.lt_succ_of_lt hs.idle_lt
  · change ∀ i, i < sched.items.count → sched.items.proc i < fam.count
    rw [hcount]
    exact CurrProc.grows_items hgrows fun i hi => Nat.lt_succ_of_lt (hs.items_lt i hi)
  · change (u.space q).sp ≤ pageTableLen
    change q < fam.count at hq
    rw [hu.space]
    by_cases hq' : q = s.fam.count
    · rw [hq', setSpace_space_self]
      change (m.space s.curr).sp ≤ pageTableLen
      rw [hold hs.curr_lt]
      exact hs.sp_le _ hs.curr_lt
    · have hlt : q < s.fam.count := by omega
      have hother : (setSpace m s.fam.count (childSpace s.curr s.fam.count m)).space q = m.space q := put_of_ne hq' ..
      rw [hother, hold hlt]
      exact hs.sp_le q hlt

theorem exit_stacksFit {status : Int} (hs : StacksFit s) (h : exitFunc status info s = .ok t) : StacksFit t := by
  obtain ⟨woken, fam, sched, next, sched', mem, hlinks, hwake, hnext, hmem, rfl⟩ := exitFunc_ok h
  obtain ⟨hcount, hwoken⟩ := exitLinks_count hlinks
  have hgrows := CurrProc.wake_grows hwoken hwake
  obtain ⟨u, hu, rfl⟩ := switchExit_table hmem
  refine stacksFit_switched hs hcount (hgrows.trans (.findReady hnext)) (spKept_fixed hu.space) ?_
  exact CurrProc.findReady_lt (CurrProc.grows_items hgrows hs.items_lt) (hgrows.idle.symm ▸ hs.idle_lt) hnext

theorem clockWalk_stacksFit {out : Option ExceptionInfo} {x : Ptr} (hs : StacksFit s)
    (h : clockWalk info n x s = .ok (out, t)) : StacksFit t := by
  rcases clockWalk_ok h with ⟨-, -, ticks, sched, htick, rfl⟩ | ⟨-, -, ticks, item, sched, sched', hlt, -, hremove, hpush, rfl⟩
  · rcases tick_ok htick with ⟨-, rfl⟩ | ⟨-, c, hc, rfl⟩
    · exact ⟨hs.curr_lt, hs.idle_lt, hs.items_lt, hs.sp_le⟩
    · rcases setNextProc_ok hc with ⟨-, -, rfl⟩ | ⟨-, -, d, head, hpush, ⟨-, hhead⟩, rfl⟩
      · exact ⟨hs.curr_lt, hs.idle_lt, hs.items_lt, hs.sp_le⟩
      · have hgrows := Grows.push hs.curr_lt hpush
        have hitems : ∀ i, i < d.items.count → d.items.proc i < s.fam.count := CurrProc.grows_items hgrows hs.items_lt
        exact ⟨hitems head hhead, hgrows.idle.symm ▸ hs.idle_lt, hitems, hs.sp_le⟩
  · have hremoved : Grows s.fam.count { s.sched with delayTicks := ticks } sched := .removeWaiting hremove
    have hpushed : Grows s.fam.count sched sched' := .push (hs.items_lt item hlt) hpush
    refine stacksFit_switched hs rfl ?_ (spKept_fixed rfl) (hs.items_lt item hlt)
    have hg := hremoved.trans hpushed
    exact ⟨hg.curr, hg.idle, hg.count, hg.proc, hg.new, hg.freed⟩

theorem resume_stacksFit {file : Option File} {out : Option ExceptionInfo} (hs : StacksFit s) (he : InBounds s (.resume file))
    (h : resume file s = .ok (out, t)) : StacksFit t := by
  unfold resume at h
  cases hm : s.mode with
  | user | hung =>
      simp only [hm] at h
      obtain ⟨-, rfl⟩ := Prod.mk.inj (Except.ok.inj h)
      exact hs
  | resuming c =>
      simp only [hm] at h
      cases hk : c.kont with
      | boot pcb2 cmdArgs =>
          simp only [hk] at h
          obtain ⟨⟨r, info, mem⟩, hload, h⟩ := bind_ok.1 h
          obtain ⟨-, rfl⟩ := Prod.mk.inj (Except.ok.inj h)
          exact stacksFit_of hs rfl (.refl ..) (loadProgram_sp ((he c hm).1 _ _ hk) hload)
      | fork child | delay =>
          simp only [hk] at h
          obtain ⟨-, rfl⟩ := Prod.mk.inj (Except.ok.inj h)
          exact stacksFit_of hs rfl (.refl ..) (spKept_fixed rfl)
      | wait =>
          simp only [hk] at h
          obtain ⟨⟨pid, fam⟩, hcol, h⟩ := bind_ok.1 h
          obtain ⟨-, rfl⟩ := Prod.mk.inj (Except.ok.inj h)
          exact stacksFit_of hs (collect_count hcol) (.refl ..) (spKept_fixed rfl)
      | clock item =>
          simp only [hk] at h
          obtain ⟨i, -, h⟩ := bind_ok.1 h
          exact clockWalk_stacksFit hs h
      | exit =>
          simp only [hk] at h
          obtain ⟨mem, hmem, h⟩ := bind_ok.1 h
          obtain ⟨-, rfl⟩ := Prod.mk.inj (Except.ok.inj h)
          obtain ⟨i, -, hmem⟩ := bind_ok.1 hmem
          exact stacksFit_of hs rfl (.refl ..) (spKept_fixed (Fixed.freePage hmem).space)

theorem call_stacksFit {c : Call} {out : Option ExceptionInfo} (hs : StacksFit s) (he : InBounds s (.call c info))
    (h : trapKernelHandler c info s = .ok (out, t)) : StacksFit t := by
  cases c with
  | fork =>
      obtain ⟨v, hv, h⟩ := bind_ok.1 h
      obtain ⟨-, rfl⟩ := Prod.mk.inj (Except.ok.inj h)
      exact fork_stacksFit hs hv
  | exec file args =>
      obtain ⟨⟨r, info', v⟩, hv, h⟩ := bind_ok.1 h
      obtain ⟨-, rfl⟩ := Prod.mk.inj (Except.ok.inj h)
      obtain ⟨r', mem, hload, -, rfl⟩ := execFunc_ok hv
      exact stacksFit_of hs rfl (.refl ..) (loadProgram_sp he hload)
  | exit status =>
      obtain ⟨v, hv, h⟩ := bind_ok.1 h
      obtain ⟨-, rfl⟩ := Prod.mk.inj (Except.ok.inj h)
      exact exit_stacksFit hs hv
  | wait ptr =>
      obtain ⟨⟨res, v⟩, hv, h⟩ := bind_ok.1 h
      obtain ⟨-, rfl⟩ := Prod.mk.inj (Except.ok.inj h)
      rcases waitFunc_ok hv with ⟨-, -, -, rfl⟩ | ⟨-, -, -, next, sched, hnext, rfl⟩ | ⟨-, pid, fam, hcol, -, rfl⟩
      · exact hs
      · exact stacksFit_switched hs rfl (.findReady hnext) (spKept_fixed rfl)
          (CurrProc.findReady_lt hs.items_lt hs.idle_lt hnext)
      · exact stacksFit_of hs (collect_count hcol) (.refl ..) (spKept_fixed rfl)
  | getPid =>
      obtain ⟨-, rfl⟩ := Prod.mk.inj (Except.ok.inj h)
      exact hs
  | brk addr =>
      obtain ⟨⟨r, mem⟩, hmem, h⟩ := bind_ok.1 h
      obtain ⟨-, rfl⟩ := Prod.mk.inj (Except.ok.inj h)
      exact stacksFit_of hs rfl (.refl ..) (brkFunc_sp hmem)
  | delay clockTicks =>
      obtain ⟨⟨res, v⟩, hv, h⟩ := bind_ok.1 h
      obtain ⟨-, rfl⟩ := Prod.mk.inj (Except.ok.inj h)
      rcases delayFunc_ok hv with ⟨-, rfl⟩ | ⟨-, -, queued, next, sched, -, hgrows, -, hnext, rfl⟩
      · exact hs
      · have hq := hgrows _ hs.curr_lt
        refine stacksFit_switched hs rfl (hq.trans (.findReady hnext)) (spKept_fixed rfl) ?_
        exact CurrProc.findReady_lt (CurrProc.grows_items hq hs.items_lt) (hq.idle.symm ▸ hs.idle_lt) hnext

theorem step_stacksFit {e : Event} (hs : StacksFit s) (he : InBounds s e) (h : Step s e t) : StacksFit t := by
  obtain ⟨-, hnext⟩ := h
  cases e with
  | call c info =>
      obtain ⟨⟨out, u⟩, hcall, rfl⟩ := map_ok.1 hnext
      exact call_stacksFit hs he hcall
  | memoryTrap info =>
      obtain ⟨⟨out, u⟩, htrap, rfl⟩ := map_ok.1 hnext
      rcases memoryTrap_ok htrap with ⟨hg, -, mem, hmem, rfl⟩ | ⟨-, -, hexit⟩
      · have hpage := growsStack_page hg
        refine stacksFit_of hs rfl (.refl ..) (growStack_sp ?_ hmem)
        simp only [kernelStackBase, pageTableLen] at hpage ⊢
        omega
      · exact exit_stacksFit hs hexit
  | fatalTrap info =>
      obtain ⟨⟨out, u⟩, htrap, rfl⟩ := map_ok.1 hnext
      obtain ⟨v, hv, h⟩ := bind_ok.1 htrap
      obtain ⟨-, rfl⟩ := Prod.mk.inj (Except.ok.inj h)
      exact exit_stacksFit hs hv
  | clock info =>
      obtain ⟨⟨out, u⟩, hclock, rfl⟩ := map_ok.1 hnext
      exact clockWalk_stacksFit hs hclock
  | resume file =>
      obtain ⟨⟨out, u⟩, hres, rfl⟩ := map_ok.1 hnext
      exact resume_stacksFit hs he hres
  | kernelBrk addr =>
      obtain ⟨⟨r, mem⟩, hmem, h⟩ := bind_ok.1 hnext
      obtain rfl := Except.ok.inj h
      exact stacksFit_of hs rfl (.refl ..) (spKept_fixed (setKernelBrk_space hmem).2)
  | userStore vaddr x =>
      obtain ⟨mem, hmem, h⟩ := bind_ok.1 hnext
      obtain rfl := Except.ok.inj h
      obtain ⟨f, e, -, -, -, -, rfl⟩ := userStore_ok hmem
      exact stacksFit_of hs rfl (.refl ..) (spKept_fixed rfl)

theorem reaches_stacksFit (hs : StacksFit s) (h : Reaches InBounds s t) : StacksFit t := by
  induction h with
  | refl => exact hs
  | tail _ hstep ih =>
      obtain ⟨e, he, hstep⟩ := hstep
      exact step_stacksFit ih he hstep

theorem index_iff {len : Nat} : InRange (index i len) ↔ 0 ≤ i ∧ i < len := by
  refine ⟨fun h => ?_, index_inRange⟩
  by_contra hno
  rw [index, if_neg hno] at h
  exact h.ne rfl

theorem bind_inRange {α β : Type} {x : Except Fault α} {f : α → Except Fault β} (h : InRange (x >>= f)) : InRange x := by
  cases x with
  | error e => exact ⟨fun he => h.ne (congrArg Except.error (Except.error.inj he))⟩
  | ok a => exact avoids_ok a

theorem linkLast_inRange (count new n curr : Nat) (chain : Nat → Ptr) :
    InRange (Terminals.linkLast count new n curr chain) := by
  induction n generalizing curr with
  | zero => exact avoids_error (by decide)
  | succ n ih =>
      unfold Terminals.linkLast
      split
      · exact avoids_ok _
      · exact avoids_bind (deref_inRange ..) fun _ _ => ih _

theorem addToTail_inRange (count new : Nat) (head : Ptr) (chain : Nat → Ptr) :
    InRange (Terminals.addToTail count head new chain) := by
  cases head with
  | none => exact avoids_ok _
  | some a => exact avoids_bind (deref_inRange ..) fun _ _ => linkLast_inRange ..

/-- TtyWrite uses no other index than the terminal it is given. -/
theorem ttyWrite_inRange_iff (tty : Int) (buf : Nat) (len : Int) (c : Terminals.Console) :
    InRange (Terminals.ttyWriteFunc tty buf len c) ↔ 0 ≤ tty ∧ tty < Terminals.numTerminals := by
  refine ⟨fun h => index_iff.1 (bind_inRange h), fun h => ?_⟩
  refine avoids_bind (index_inRange h) fun t _ => avoids_bind (avoids_bind (addToTail_inRange ..) fun _ _ => avoids_pure _) fun _ _ => ?_
  refine avoids_bind (avoids_bind (addToTail_inRange ..) fun _ _ => avoids_pure _) fun _ _ => ?_
  exact avoids_bind (findReady_inRange ..) fun _ _ => avoids_pure _

theorem ttyRead_inRange_iff (tty : Int) (curr : Nat) (d : Terminals.Devices) :
    InRange (Terminals.ttyReadFunc tty curr d) ↔ 0 ≤ tty ∧ tty < Terminals.numTerminals := by
  refine ⟨fun h => index_iff.1 (bind_inRange h), fun h => avoids_bind (index_inRange h) fun t _ => ?_⟩
  split
  · exact avoids_pure _
  · exact avoids_bind (deref_inRange ..) fun _ _ => avoids_bind (linkLast_inRange ..) fun _ _ => avoids_pure _

/-- In a run of which each step keeps to the tables, every further event that
does so uses no index out of range, and the terminal of TtyWrite and TtyRead has to be one. -/
theorem reachable_inRange {s₀ : State} (hboot : kernelStart env = .ok s₀)
    (hsp : ∀ q, q < s₀.fam.count → (s₀.mem.space q).sp ≤ pageTableLen) (hrun : Reaches InBounds s₀ s) :
    (∀ e, InBounds s e → InRange (next s e)) ∧
    ∀ (tty buf len curr : Nat) (c : Terminals.Console),
      (InRange (Terminals.ttyWriteFunc (toInt tty) buf (toInt len) c) ↔ 0 ≤ toInt tty ∧ toInt tty < Terminals.numTerminals) ∧
      (InRange (Terminals.ttyReadFunc (toInt tty) curr c.terminals) ↔ 0 ≤ toInt tty ∧ toInt tty < Terminals.numTerminals) := by
  have hstart := CurrProc.boot_current hboot
  have hs := reaches_stacksFit ⟨hstart.curr_lt, hstart.idle_lt, hstart.items_lt, hsp⟩ hrun
  exact ⟨fun e he => next_inRange (hs.sp_le _ hs.curr_lt) he,
    fun tty buf len curr c => ⟨ttyWrite_inRange_iff .., ttyRead_inRange_iff ..⟩⟩

def brkRuns : Bool :=
  startsIn fun s =>
    (s.curr = 1 ∧ s.fam.count = 2 ∧ (s.mem.space 1).brk = 17 ∧ State.userMode s ∧
      (s.mem.space 0).sp ≤ pageTableLen ∧ (s.mem.space 1).sp ≤ pageTableLen) &&
    stepsTo s (.call (.brk (18 * pageSize)) smallInfo) fun t => t.curr = 1 ∧ (t.mem.space 1).brk = 18

theorem brk_runs : brkRuns = true := by decide +kernel

theorem brk_inBounds {addr n : Nat} (hc : s.curr = 1) (hb : (s.mem.space 1).brk = n) (hr : roundedBrk addr = n + 1)
    (hn : n < pageTableLen) : InBounds s (.call (.brk addr) info) := by
  change BrkInBounds s.curr addr s.mem
  rw [BrkInBounds, hc, hb, hr]
  simp only [pageTableLen] at hn ⊢
  refine ⟨fun hlt => absurd hlt.1 (by omega), fun _ _ => ?_⟩
  rw [toInt_small (by omega) (by omega)]
  omega

theorem reachable_inRange_small : ∃ s₀ s, kernelStart smallBoot = .ok s₀ ∧ Reaches InBounds s₀ s ∧
    InRange (next s (.call (.brk (19 * pageSize)) smallInfo)) := by
  have h := brk_runs
  simp only [brkRuns, startsIn_iff, stepsTo_iff, Bool.and_eq_true, decide_eq_true_eq] at h
  obtain ⟨s₀, hboot, ⟨hc, hcount, hb, -, hsp₀, hsp₁⟩, s, hstep, hc', hb'⟩ := h
  have hrun : Reaches InBounds s₀ s := .single ⟨_, brk_inBounds hc hb (by decide) (by decide), hstep⟩
  refine ⟨s₀, s, hboot, hrun, (reachable_inRange hboot (fun q hq => ?_) hrun).1 _ (brk_inBounds hc' hb' (by decide) (by decide))⟩
  obtain rfl | rfl : q = 0 ∨ q = 1 := by omega
  · exact hsp₀
  · exact hsp₁

/-- Growing the static table past its end indexes it there. -/
theorem mapPages_badIndex {uprot kprot : BitVec 3} (hk : k ≤ pageTableLen) (hn : pageTableLen < k + n) :
    upTo (fun page => mapPage .region0Pt uprot kprot page) k n m = .error .badIndex := by
  induction n generalizing k m with
  | zero => omega
  | succ n ih =>
      by_cases hlt : k < pageTableLen
      · obtain ⟨u, hu⟩ : ∃ u, mapPage .region0Pt uprot kprot k m = .ok u := by
          have hread : readPte m .region0Pt k = .ok (m.region0Pt k) := readPte_ok.2 ⟨k, .static, rfl, hlt, .static, rfl⟩
          exact ⟨Word.static.write (findFreePage m).2 k _, mapPage_ok.2 ⟨_, hread, writePte_ok.2 ⟨k, .static, rfl, hlt, .static, rfl⟩⟩⟩
        simp only [upTo, hu]
        exact ih (by omega) (by omega)
      · obtain rfl : k = pageTableLen := by omega
        rfl

/-- Init calls Brk with the first address above Region 1, or TtyWrite for terminal 4. -/
theorem brk_badIndex_small : ∃ s, Reachable (fun _ _ => True) smallBoot s ∧ State.userMode s ∧
    next s (.call (.brk (1024 * pageSize)) smallInfo) = .error .badIndex ∧
    ∀ c, Terminals.ttyWriteFunc (toInt (4 : Nat)) 0 0 c = .error .badIndex := by
  have h := brk_runs
  simp only [brkRuns, startsIn_iff, stepsTo_iff, Bool.and_eq_true, decide_eq_true_eq] at h
  obtain ⟨s, hboot, ⟨hc, -, hb, hu, -, -⟩, -⟩ := h
  refine ⟨s, ⟨s, hboot, .refl⟩, hu, ?_, fun c => rfl⟩
  have hbrk : brkFunc s.curr (1024 * pageSize) s.mem = .error .badIndex := by
    have hr : roundedBrk (1024 * pageSize) = 1024 := by decide
    unfold brkFunc
    simp only [hc, hb, hr]
    rw [if_neg (by omega), if_pos (by omega), mapPages_badIndex (by decide) (by decide)]
    rfl
  simp only [next, trapKernelHandler, hbrk]
  rfl

end Yalnix.Indices
