import Yalnix.ValidPages

namespace Yalnix.SpaceLayout

open Loops Machine AddressSpace LoadProgram Processes Queues Kernel Accesses FreeList Calls Boot Runs Clock CurrProc Layout Allocation
  StackGrowth Frames FrameLeak SwitchFrames BootFrames FrameOwnership Isolation ValidPages

variable {env : BootEnv} {s t : State} {info : ExceptionInfo} {m m' : Memory} {l l' : Nat → Prop} {i j p q : Nat}

/-- The heap is below `brk`, the stack starts at `sp`, and the valid entries of
the process's own table are those of the heap, of the stack and of the kernel stack. -/
structure Arranged (s : State) (p : Nat) : Prop where
  heap : memInvalidPages ≤ (s.mem.space p).brk
  apart : (s.mem.space p).brk ≤ (s.mem.space p).sp
  stack : (s.mem.space p).sp ≤ s.mem.cfg.userStackLimit
  entries : ∀ j < pageTableLen, ∃ e, tableEntry s p j = .ok e ∧ (e.valid = true ↔
    (memInvalidPages ≤ j ∧ j < (s.mem.space p).brk) ∨ ((s.mem.space p).sp ≤ j ∧ j < s.mem.cfg.userStackLimit) ∨ kernelStackBase ≤ j)

def Loads (curr : Nat) (ptr : TablePtr) (file : Option File) (args : List (List (BitVec 8))) (info : ExceptionInfo) (m : Memory) :
    Prop := ∃ info' m', loadProgram curr ptr file args info m = .ok (0, info', m')

/-- The processes that have completed a LoadProgram after the step, when those of `l` had before: the caller of
Exec, the process into whose table `KernelStart` loads, and the child of a process that had. -/
def completed (s : State) (l : Nat → Prop) : Event → Nat → Prop
  | .call .fork _, p => if p = s.fam.count then l s.curr else l p
  | .call (.exec file args) info, p => l p ∨ p = s.curr ∧ Loads s.curr (s.mem.space s.curr).region0 file args info s.mem
  | .resume file, p => l p ∨ ∃ c args, s.mode = .resuming c ∧ c.kont = .boot p args ∧
      Loads s.curr (s.mem.space p).region0 file args c.info s.mem
  | _, p => l p

def withIdle (m : Memory) : Memory :=
  setSpace m 0 { m.space 0 with brk := toUlong (-1), region0 := .region0Pt, freeVpn := toUlong (-1) }

def bootCompleted (env : BootEnv) (p : Nat) : Prop :=
  ∃ s₁ s₂ s₃ s m idleInfo initInfo, Boots env s₁ s₂ s₃ s m idleInfo initInfo ∧
    (p = 0 ∧ Loads 0 .region0Pt env.idleFile env.cmdArgs env.info (withIdle s₁.mem) ∨
      p = 1 ∧ Loads 1 (s₃.mem.space 1).region0 env.initFile env.cmdArgs idleInfo s₃.mem)

/-- Runs from the end of `KernelStart`, with the processes that have completed a LoadProgram. -/
inductive History (allowed : State → Event → Prop) (env : BootEnv) : (Nat → Prop) → State → Prop
  | boot {s : State} : kernelStart env = .ok s → History allowed env (bootCompleted env) s
  | step {l : Nat → Prop} {s t : State} {e : Event} : History allowed env l s → allowed s e → Step s e t →
      History allowed env (completed s l e) t

structure SameLayout (p : Nat) (m m' : Memory) : Prop where
  table : (m'.space p).region0 = (m.space p).region0
  breaks : (m'.space p).brk = (m.space p).brk ∧ (m'.space p).sp = (m.space p).sp
  valid : ∀ j < pageTableLen,
    ((wordOf (m.space p).region0).read m' j).valid = ((wordOf (m.space p).region0).read m j).valid

def Stacked (m : Memory) (p : Nat) : Prop :=
  ∀ j, kernelStackBase ≤ j → j < pageTableLen → ((wordOf (m.space p).region0).read m j).valid = true

structure Shaped (limit : Nat) (m : Memory) (p : Nat) : Prop where
  heap : memInvalidPages ≤ (m.space p).brk
  pages : HeapAndStack m (wordOf (m.space p).region0) limit (m.space p).brk (m.space p).sp

theorem Shaped.of_pages {w : Word} {limit brk sp : Nat} (htable : wordOf (m.space p).region0 = w) (hbrk : (m.space p).brk = brk)
    (hsp : (m.space p).sp = sp) (hheap : memInvalidPages ≤ brk) (hpages : HeapAndStack m w limit brk sp) : Shaped limit m p := by
  subst htable hbrk hsp
  exact ⟨hheap, hpages⟩

/-- The invariant: every live process has its kernel stack, and those that have completed a LoadProgram their layout. -/
structure Fitted (l : Nat → Prop) (s : State) : Prop where
  sound : Sound s
  limit : StackLimit s.mem.cfg
  stacked : ∀ p, live s p → Stacked s.mem p
  shaped : ∀ p, live s p → l p → Shaped s.mem.cfg.userStackLimit s.mem p

namespace SameLayout

theorem refl (p : Nat) (m : Memory) : SameLayout p m m := ⟨rfl, ⟨rfl, rfl⟩, fun _ _ => rfl⟩

theorem stacked (h : SameLayout p m m') (hs : Stacked m p) : Stacked m' p := by
  intro j hj hlt
  rw [h.table, h.valid j hlt]
  exact hs j hj hlt

theorem shaped {limit : Nat} (h : SameLayout p m m') (hs : Shaped limit m p) : Shaped limit m' p := by
  refine ⟨h.breaks.1 ▸ hs.heap, ?_⟩
  rw [h.table, h.breaks.1, h.breaks.2]
  exact ⟨hs.pages.apart, hs.pages.stack, hs.pages.below, fun j hj => by rw [h.valid j hj, hs.pages.valid j hj]⟩

theorem of_tables (hspace : m'.space p = m.space p) (hstatic : m'.region0Pt = m.region0Pt) (hframes : m'.frames = m.frames) :
    SameLayout p m m' := by
  refine ⟨by rw [hspace], by rw [hspace]; exact ⟨rfl, rfl⟩, fun j _ => ?_⟩
  cases wordOf (m.space p).region0 with
  | static => exact congrArg Pte.valid (congrFun hstatic j)
  | frame f => exact congrArg Pte.valid (congrFun (congrFun hframes f) j)

theorem of_untouched (hspace : m'.space p = m.space p) (h : Untouched (wordOf (m.space p).region0) m m') : SameLayout p m m' :=
  ⟨by rw [hspace], by rw [hspace]; exact ⟨rfl, rfl⟩, fun j hj => congrArg Pte.valid (h.entries j hj)⟩

end SameLayout

theorem Stacked.grow (hs : Stacked m p) (htable : (m'.space p).region0 = (m.space p).region0)
    (h : ∀ j, ((wordOf (m.space p).region0).read m j).valid = true → ((wordOf (m.space p).region0).read m' j).valid = true) :
    Stacked m' p := by
  intro j hj hlt
  rw [htable]
  exact h j (hs j hj hlt)

/-- What a step leaves: each live process is as it was, or has got its pages and breaks anew. -/
theorem Fitted.advance (hf : Fitted l s) (hsound : Sound t) (hcfg : t.mem.cfg = s.mem.cfg)
    (h : ∀ p, live t p → (live s p ∧ SameLayout p s.mem t.mem ∧ (l' p → l p)) ∨
      (Stacked t.mem p ∧ (l' p → Shaped s.mem.cfg.userStackLimit t.mem p))) : Fitted l' t := by
  refine ⟨hsound, hcfg ▸ hf.limit, fun p hp => ?_, fun p hp hl => ?_⟩
  · rcases h p hp with ⟨hlive, hsame, -⟩ | ⟨hstacked, -⟩
    · exact hsame.stacked (hf.stacked p hlive)
    · exact hstacked
  · rw [hcfg]
    rcases h p hp with ⟨hlive, hsame, hl'⟩ | ⟨-, hshaped⟩
    · exact hsame.shaped (hf.shaped p hlive (hl' hl))
    · exact hshaped hl

theorem Fitted.arranged (hf : Fitted l s) (hp : live s p) (hl : l p) : Arranged s p := by
  obtain ⟨hheap, hpages⟩ := hf.shaped p hp hl
  exact ⟨hheap, hpages.apart, hpages.stack, fun j hj =>
    ⟨_, readPte_ok.2 ⟨j, _, rfl, hj, hf.sound.leads hp, rfl⟩, hpages.valid j hj⟩⟩

def SetTo (s : State) (p : Nat) (z : Sizes) : Prop :=
  (s.mem.space p).brk = newBrk z ∧ (s.mem.space p).sp = newSp s.mem.cfg z

/-- If only the check of physical memory fails, the caller has the break of the program already. If the program is
loaded, its pages can be counted, and it is the caller's table, or the owner and the caller have its breaks already. -/
def LoadFits (s : State) (p : Nat) (file : Option File) (args : List (List (BitVec 8))) : Prop :=
  ∀ f li, file = some f → f.status = .success li → fitsVirtual (sizes s.mem.cfg li args) = true →
    if fitsPhysical (sizes s.mem.cfg li args) s.mem then
      CountsFit s.mem.cfg li args ∧ (p ≠ s.curr → SetTo s p (sizes s.mem.cfg li args) ∧ SetTo s s.curr (sizes s.mem.cfg li args))
    else (s.mem.space s.curr).brk = newBrk (sizes s.mem.cfg li args)

variable {file : Option File} {args : List (List (BitVec 8))} {info' : ExceptionInfo} {r : Int} {mem : Memory}

theorem LoadFits.countable (h : LoadFits s p file args) : Countable s.mem file args := by
  rintro li ⟨⟨f, hf, hst⟩, hvirt, hphys⟩
  have hfits := h f li hf hst hvirt
  rw [if_pos hphys] at hfits
  exact hfits.1

theorem sameLayout_brk {b : Nat} (h : (m.space q).brk = b) (p : Nat) :
    SameLayout p m (setSpace m q { m.space q with brk := b }) := by
  have hspace : (setSpace m q { m.space q with brk := b }).space p = m.space p := by
    by_cases hp : p = q
    · rw [hp, setSpace_space_self, ← h]
    · exact put_of_ne hp ..
  exact .of_tables hspace rfl rfl

theorem load_fitted (mode : Mode) (hf : Fitted l s) (hp : live s p) (hm : s.mode ≠ .hung) (hcurr : live s s.curr)
    (howned : LoadOwned s.mem (wordOf (s.mem.space p).region0) file args) (hfits : LoadFits s p file args)
    (h : loadProgram s.curr (s.mem.space p).region0 file args info s.mem = .ok (r, info', mem))
    (hsound : Sound { s with mem, mode }) (hl : ∀ q, l' q → l q ∨ q = p ∧ r = 0) : Fitted l' { s with mem, mode } := by
  have hs := hf.sound
  have hmoves := loadProgram_moves h
  rcases loadProgram_relaid hs.owned (hs.leads hp) (inPlay_table hp) (hs.running hm hcurr) howned hf.limit hfits.countable h with
    ⟨hr, rfl⟩ | ⟨f, li, hfile, hst, hvirt, ⟨hr, hphys, rfl⟩ | ⟨hphys, hrel, hbrk, hsp⟩⟩
  · exact hf.advance hsound rfl fun q hq => .inl ⟨hq, .refl .., fun hl' => (hl q hl').resolve_right fun h => hr h.2⟩
  · have hfit := hfits f li hfile hst hvirt
    rw [if_neg (by rw [hphys]; exact Bool.false_ne_true)] at hfit
    refine hf.advance hsound rfl fun q hq => .inl ⟨hq, ?_, fun hl' => (hl q hl').resolve_right fun h => hr h.2⟩
    exact sameLayout_brk hfit q
  · have hfit := hfits f li hfile hst hvirt
    rw [if_pos hphys] at hfit
    obtain ⟨-, hset⟩ := hfit
    -- the breaks of the owner of the table are the new ones
    have hbreaks : (mem.space p).brk = newBrk (sizes s.mem.cfg li args) ∧
        (mem.space p).sp = newSp s.mem.cfg (sizes s.mem.cfg li args) := by
      by_cases hpc : p = s.curr
      · rw [hpc]
        exact ⟨hbrk, hsp⟩
      · rw [hmoves.others p hpc]
        exact (hset hpc).1
    refine hf.advance hsound hmoves.cfg fun q hq => ?_
    by_cases hqp : q = p
    · subst hqp
      have hword := congrArg wordOf (hmoves.region0 q)
      refine .inr ⟨fun j hj hlt => ?_, fun _ => ?_⟩
      · change ((wordOf (mem.space q).region0).read mem j).valid = true
        rw [hword, hrel.above j hj hlt]
        exact hf.stacked q hp j hj hlt
      · exact .of_pages hword hbreaks.1 hbreaks.2 hrel.order.1 (hrel.heapAndStack (hf.stacked q hp))
    · refine .inl ⟨hq, ⟨hmoves.region0 q, ?_, fun j hj => ?_⟩, fun hl' => (hl q hl').resolve_right fun h => hqp h.1⟩
      · change (mem.space q).brk = _ ∧ (mem.space q).sp = _
        by_cases hqc : q = s.curr
        · obtain ⟨-, hold⟩ := hset (fun he => hqp (hqc.trans he.symm))
          rw [hqc, hbrk, hsp]
          exact ⟨hold.1.symm, hold.2.symm⟩
        · rw [hmoves.others q hqc]
          exact ⟨rfl, rfl⟩
      · exact hrel.others _ j (hs.not_shared hq.1 hp.1 hqp) hj (inPlay_table hq)

/-- Brk is refused, or does not move the break, or moves it up to the stack at most for the process whose table is `region0Pt`. -/
def BrkFits (s : State) (addr : Nat) : Prop :=
  roundedBrk addr = (s.mem.space s.curr).brk ∨
    (roundedBrk addr < (s.mem.space s.curr).brk ∧ roundedBrk addr < memInvalidPages) ∨
    ((s.mem.space s.curr).region0 = .region0Pt ∧ (s.mem.space s.curr).brk ≤ roundedBrk addr ∧
      roundedBrk addr ≤ (s.mem.space s.curr).sp)

theorem brk_up {addr : Nat} (hle : (s.mem.space s.curr).brk ≤ roundedBrk addr)
    (h : brkFunc s.curr addr s.mem = .ok (r, mem)) :
    ∃ u, upTo (fun page => mapPage .region0Pt (protRead ||| protWrite) (protRead ||| protWrite) page) (s.mem.space s.curr).brk
        (toInt (roundedBrk addr - (s.mem.space s.curr).brk)).toNat s.mem = .ok u ∧
      mem = setSpace u s.curr { u.space s.curr with brk := roundedBrk addr } := by
  unfold brkFunc at h
  dsimp only at h
  rw [if_neg (by omega), if_pos hle] at h
  obtain ⟨u, hu, h⟩ := bind_ok.1 h
  obtain ⟨-, rfl⟩ := Prod.mk.inj (Except.ok.inj h)
  exact ⟨u, hu, rfl⟩

theorem brk_refused {addr : Nat} (hlt : roundedBrk addr < (s.mem.space s.curr).brk) (hinv : roundedBrk addr < memInvalidPages)
    (h : brkFunc s.curr addr s.mem = .ok (r, mem)) : mem = s.mem := by
  unfold brkFunc at h
  dsimp only at h
  rw [if_neg (by omega), if_neg (by omega)] at h
  exact (Prod.mk.inj (Except.ok.inj h)).2.symm

theorem brk_grown {addr : Nat} (hf : Fitted l s) (hcurr : live s s.curr) (hword : wordOf (s.mem.space s.curr).region0 = .static)
    (hle : (s.mem.space s.curr).brk ≤ roundedBrk addr) (hsp : roundedBrk addr ≤ (s.mem.space s.curr).sp)
    (h : brkFunc s.curr addr s.mem = .ok (r, mem)) :
    Stacked mem s.curr ∧ (l s.curr → Shaped s.mem.cfg.userStackLimit mem s.curr) := by
  have hmoves := brkFunc_moves h
  obtain ⟨u, hu, hmem⟩ := brk_up hle h
  have hvalid := mapLoop_valid hf.sound.owned.small .static hu
  have hread (j : Nat) : Word.read mem j .static = Word.read u j .static := by rw [hmem, word_read_space]
  refine ⟨(hf.stacked s.curr hcurr).grow (hmoves.region0 s.curr) fun j hj => ?_, fun hl => ?_⟩
  · rw [hword] at hj ⊢
    rw [hread, hvalid]
    exact .inr hj
  · obtain ⟨hheap, hpages⟩ := hf.shaped s.curr hcurr hl
    rw [hword] at hpages
    have hstack := Nat.le_trans (Nat.le_trans hpages.stack hpages.below) (by decide : kernelStackBase ≤ 508)
    have hn : (toInt (roundedBrk addr - (s.mem.space s.curr).brk)).toNat = roundedBrk addr - (s.mem.space s.curr).brk := by
      rw [toInt_small (by omega) (by omega)]
      omega
    have hend : (s.mem.space s.curr).brk + (roundedBrk addr - (s.mem.space s.curr).brk) = roundedBrk addr :=
      Nat.add_sub_cancel' hle
    rw [hn, hend] at hvalid
    have hspace : u.space = s.mem.space := (Fixed.upTo (fun _ _ _ => Fixed.mapPage) hu).space
    have hbrk : (mem.space s.curr).brk = roundedBrk addr := by
      rw [hmem, setSpace_space_self]
    have hsame : (mem.space s.curr).sp = (s.mem.space s.curr).sp := by
      rw [hmem, setSpace_space_self, hspace]
    refine .of_pages ((congrArg wordOf (hmoves.region0 s.curr)).trans hword) hbrk hsame (Nat.le_trans hheap hle) ?_
    exact heap_grown hpages hheap hle hsp fun j => by rw [hread, hvalid]

theorem brk_fitted {addr : Nat} (hf : Fitted l s) (hcurr : live s s.curr) (hfits : BrkFits s addr)
    (h : brkFunc s.curr addr s.mem = .ok (r, mem)) (hsound : Sound { s with mem }) : Fitted l { s with mem } := by
  have hs := hf.sound
  rcases hfits with heq | ⟨hlt, hinv⟩ | ⟨hstatic, hle, hsp⟩
  · obtain ⟨u, hu, rfl⟩ := brk_up (Nat.le_of_eq heq.symm) h
    rw [heq, Int.sub_self] at hu
    obtain rfl := Except.ok.inj hu
    refine hf.advance hsound rfl fun q hq => .inl ⟨hq, ?_, fun hl => hl⟩
    exact sameLayout_brk heq.symm q
  · obtain rfl := brk_refused hlt hinv h
    exact hf.advance hsound rfl fun q hq => .inl ⟨hq, .refl .., fun hl => hl⟩
  · have hmoves := brkFunc_moves h
    have hword : wordOf (s.mem.space s.curr).region0 = .static := by rw [hstatic]; rfl
    have hslot : InPlay s (.entry .static 0) := hword ▸ inPlay_table hcurr 0 (by decide)
    refine hf.advance hsound hmoves.cfg fun q hq => ?_
    by_cases hqc : q = s.curr
    · subst hqc
      exact .inr (brk_grown hf hcurr hword hle hsp h)
    · refine .inl ⟨hq, .of_untouched (hmoves.others q hqc) ?_, fun hl => hl⟩
      have hne := hs.not_shared hq.1 hcurr.1 hqc
      rw [hword] at hne
      exact (brkFunc_within h).untouched hs.owned hslot (inPlay_table hq) hne

theorem trapped_page (hs : Sound s) (hm : s.mode = .user) (hlt : page info < pageTableLen)
    (h : mapped s.mem (page info) = false) : ((wordOf (s.mem.space s.curr).region0).read s.mem (page info)).valid = false := by
  have hlive := hs.live_curr hm
  have hreg := (hs.current.running (by simp [hm])).2
  unfold mapped walk at h
  rcases hs.placed s.curr hlive.1 with ⟨ht, -⟩ | ⟨i, hi, ht, -⟩
  · rw [hreg, ht] at h
    have hv : (s.mem.region0Pt (page info)).valid = false := by simpa [hlt] using h
    rw [ht]
    exact hv
  · have hframe := (hs.owned.holds.taken (.kernel i) _ hi (hs.held _ i hlive ht)).1
    rw [hreg, ht] at h
    have hv : (s.mem.frames (pageTableLen + i) (page info)).valid = false := by simpa [hlt, hframe] using h
    rw [ht]
    exact hv

theorem grow_grown (hf : Fitted l s) (hm : s.mode = .user) (hg : growsStack s info = true)
    (hpage : info.code = trapMemoryMaperr → mapped s.mem (page info) = false) (hlow : page info < s.mem.cfg.userStackLimit)
    (h : growStack s.curr (page info) s.mem = .ok mem) :
    Stacked mem s.curr ∧ (l s.curr → Shaped s.mem.cfg.userStackLimit mem s.curr) := by
  have hs := hf.sound
  have hlive := hs.live_curr hm
  have hmoves := growStack_moves h
  obtain ⟨hcode, haddr, hbrk⟩ := growsStack_iff.1 hg
  obtain ⟨u, hu, hmem⟩ := bind_ok.1 h
  have hmem := Except.ok.inj hmem
  have hvalid := mapLoop_valid hs.owned.small (hs.leads hlive) hu
  have hread (j : Nat) : (wordOf (s.mem.space s.curr).region0).read mem j = (wordOf (s.mem.space s.curr).region0).read u j := by
    rw [← hmem, word_read_space]
  refine ⟨(hf.stacked s.curr hlive).grow (hmoves.region0 s.curr) fun j hj => ?_, fun hl => ?_⟩
  · rw [hread, hvalid]
    exact .inr hj
  · obtain ⟨hheap, hpages⟩ := hf.shaped s.curr hlive hl
    have hstack := Nat.le_trans (Nat.le_trans hpages.stack hpages.below) (by decide : kernelStackBase ≤ 508)
    have hlt : page info < pageTableLen := Nat.lt_of_le_of_lt (Nat.div_le_of_le_mul (Nat.mul_comm .. ▸ haddr)) (by decide)
    have hbelow := below_stack hpages hlow (trapped_page hs hm hlt (hpage hcode))
    have hn : (toInt (toInt (s.mem.space s.curr).sp - page info)).toNat = (s.mem.space s.curr).sp - page info := by
      rw [toInt_small (x := ((s.mem.space s.curr).sp : Int)) (by omega) (by omega), toInt_small (by omega) (by omega)]
      omega
    have hend : page info + ((s.mem.space s.curr).sp - page info) = (s.mem.space s.curr).sp :=
      Nat.add_sub_cancel' (Nat.le_of_lt hbelow)
    rw [hn, hend] at hvalid
    have hsp : (mem.space s.curr).sp = page info := by
      rw [← hmem, setSpace_space_self]
    have hspace : u.space = s.mem.space := (Fixed.upTo (fun _ _ _ => Fixed.mapPage) hu).space
    have hsame : (mem.space s.curr).brk = (s.mem.space s.curr).brk := by
      rw [← hmem, setSpace_space_self, hspace]
    refine .of_pages (congrArg wordOf (hmoves.region0 s.curr)) hsame hsp hheap ?_
    exact stack_grown hpages hbrk (Nat.le_of_lt hbelow) fun j => by rw [hread, hvalid]

theorem grow_fitted (hf : Fitted l s) (hm : s.mode = .user) (hg : growsStack s info = true)
    (hpage : info.code = trapMemoryMaperr → mapped s.mem (page info) = false) (hlow : page info < s.mem.cfg.userStackLimit)
    (h : growStack s.curr (toUlong (downToPage info.addr)) s.mem = .ok mem) (hsound : Sound { s with mem }) :
    Fitted l { s with mem } := by
  have hs := hf.sound
  have hlive := hs.live_curr hm
  have hmoves := growStack_moves h
  rw [toUlong_page (growsStack_iff.1 hg).2.1] at h
  refine hf.advance hsound hmoves.cfg fun q hq => ?_
  by_cases hqc : q = s.curr
  · subst hqc
    exact .inr (grow_grown hf hm hg hpage hlow h)
  · refine .inl ⟨hq, .of_untouched (hmoves.others q hqc) ?_, fun hl => hl⟩
    exact growStack_untouched hs.owned (hs.leads hlive) (inPlay_table hlive 0 (by decide)) (inPlay_table hq)
      (hs.not_shared hq.1 hlive.1 hqc) h

theorem Fitted.same (hf : Fitted l s) (hsound : Sound t) (hcfg : t.mem.cfg = s.mem.cfg) (hlive : ∀ p, live t p → live s p)
    (hspace : t.mem.space = s.mem.space) (hstatic : t.mem.region0Pt = s.mem.region0Pt) (hframes : t.mem.frames = s.mem.frames) :
    Fitted l t :=
  hf.advance hsound hcfg fun p hp => .inl ⟨hlive p hp, .of_tables (congrFun hspace p) hstatic hframes, fun h => h⟩

theorem fork_fitted (hf : Fitted l s) (hm : s.mode = .user) (hsafe : ForkOwned s) (h : forkFunc info s = .ok t) (hsound : Sound t) :
    Fitted (completed s l (.call .fork info)) t := by
  have hs := hf.sound
  obtain ⟨m, m', fam, sched, hbuild, hfork, hlink, -, rfl⟩ := forkFunc_ok h
  obtain ⟨i, hi, hchild⟩ := fork_owned hs hm hsafe hbuild hfork
  have hcount : fam.count = s.fam.count + 1 := linkChild_count hlink
  have hparent := hs.live_curr hm
  have hcfg : m'.cfg = s.mem.cfg := by
    obtain ⟨u, hu, rfl⟩ := switchFork_table hfork
    obtain ⟨i, -, hbuilt⟩ := buildRegion0_table hbuild
    exact hu.cfg.trans hbuilt.cfg
  have hword : wordOf (m'.space s.fam.count).region0 = .frame (pageTableLen + i) := by
    rw [hi.child.1]
    rfl
  refine hf.advance hsound hcfg fun p hp => ?_
  by_cases hpc : p = s.fam.count
  · subst hpc
    refine .inr ⟨fun j hj hlt => ?_, fun hl => ?_⟩
    · change ((wordOf (m'.space s.fam.count).region0).read m' j).valid = true
      rw [hword, hchild.copied j hlt]
      exact hf.stacked s.curr hparent j hj hlt
    · have hl : l s.curr := by simpa [completed] using hl
      obtain ⟨hheap, hpages⟩ := hf.shaped s.curr hparent hl
      refine .of_pages hword hchild.breaks.1 hchild.breaks.2 hheap ?_
      exact ⟨hpages.apart, hpages.stack, hpages.below, fun j hj => by rw [hchild.copied j hj, hpages.valid j hj]⟩
  · have hold : live s p := by
      refine ⟨?_, hp.2⟩
      have hlt : p < fam.count := hp.1
      omega
    refine .inl ⟨hold, ⟨?_, ?_, fun j hj => ?_⟩, fun hl => ?_⟩
    · exact congrArg Space.region0 (hi.space p hpc)
    · exact ⟨congrArg Space.brk (hi.space p hpc), congrArg Space.sp (hi.space p hpc)⟩
    · exact congrArg Pte.valid (hi.slots _ (inPlay_table hold j hj) nofun)
    · simpa [completed, hpc] using hl

theorem exit_fitted {status : Int} (hf : Fitted l s) (h : exitFunc status info s = .ok t) (hsound : Sound t) : Fitted l t := by
  have huntouched := fun v => exit_untouched v h
  obtain ⟨woken, fam, sched, next, sched', mem, hlinks, -, -, hmem, rfl⟩ := exitFunc_ok h
  obtain ⟨u, hu, rfl⟩ := switchExit_table hmem
  refine hf.advance hsound hu.cfg fun p hp => .inl ⟨⟨?_, ?_⟩, ?_, fun hl => hl⟩
  · have hlt : p < fam.count := hp.1
    rwa [(exitLinks_count hlinks).1] at hlt
  · have hlive : Function.update s.exited s.curr true p = false := hp.2
    by_cases hpc : p = s.curr
    · rw [hpc, Function.update_self] at hlive
      cases hlive
    · rwa [Function.update_of_ne hpc] at hlive
  · exact .of_untouched (congrFun hu.space p) (huntouched _)

theorem setKernelBrk_tables {addr : Nat} (h : setKernelBrk addr m = .ok (r, m')) :
    m'.cfg = m.cfg ∧ m'.region0Pt = m.region0Pt ∧ m'.frames = m.frames := by
  rcases setKernelBrk_ok h with ⟨-, -, -, rfl⟩ | ⟨-, -, rfl⟩ | ⟨-, -, -, u, hu, rfl⟩
  · exact ⟨rfl, rfl, rfl⟩
  · exact ⟨rfl, rfl, rfl⟩
  · have hkeep := upTo_relation (fun v v' : Memory => v'.cfg = v.cfg ∧ v'.region0Pt = v.region0Pt ∧ v'.frames = v.frames)
      (fun _ => ⟨rfl, rfl, rfl⟩)
      (fun _ _ _ h h' => ⟨h'.1.trans h.1, h'.2.1.trans h.2.1, h'.2.2.trans h.2.2⟩)
      (fun k v v' _ _ hk => by
        obtain ⟨j, -, -, ⟨f, l, -, rfl⟩ | ⟨-, rfl⟩⟩ := mapKernelPage_cases hk
        · exact ⟨rfl, rfl, rfl⟩
        · exact ⟨rfl, rfl, rfl⟩) hu
    exact hkeep

theorem releaseTable_tables {proc : Nat} (h : releaseTable proc m = .ok m') :
    m'.cfg = m.cfg ∧ m'.space = m.space ∧ m'.region0Pt = m.region0Pt ∧ m'.frames = m.frames := by
  obtain ⟨i, -, h⟩ := bind_ok.1 h
  obtain ⟨f, -, -, rfl⟩ := freePage_ok.1 h
  exact ⟨rfl, rfl, rfl, rfl⟩

theorem store_fitted {vaddr : Nat} {x : BitVec 8} (hf : Fitted l s) (hm : s.mode = .user) (h : userStore vaddr x s.mem = .ok mem)
    (hsound : Sound { s with mem }) : Fitted l { s with mem } := by
  have hs := hf.sound
  obtain ⟨f, e, hframe, -, -, rfl⟩ := userStore_ok h
  have hno := userFrame_not_table hs.owned (hs.running (by simp [hm]) (hs.live_curr hm)) hframe
  refine hf.advance hsound rfl fun p hp => .inl ⟨hp, ⟨rfl, ⟨rfl, rfl⟩, fun j hj => ?_⟩, fun hl => hl⟩
  refine congrArg Pte.valid (word_read_copy (fun he => hno j (he ▸ ?_)) ..)
  exact inPlay_table hp j hj

theorem Fitted.mono (hf : Fitted l t) (hl : ∀ p, l' p → l p) : Fitted l' t :=
  ⟨hf.sound, hf.limit, hf.stacked, fun p hp hlp => hf.shaped p hp (hl p hlp)⟩

theorem Loads.result {curr : Nat} {ptr : TablePtr} (h : Loads curr ptr file args info m)
    (hload : loadProgram curr ptr file args info m = .ok (r, info', mem)) : r = 0 := by
  obtain ⟨info'', mem', h⟩ := h
  exact (Prod.mk.inj (Except.ok.inj (hload.symm.trans h))).1

/-- What keeps the breaks and the tables in agreement: Exec and the program that `KernelStart` loads, Brk, and the
growth of the stack, which a trap between the user stack and the kernel stack turns round. -/
def Fits (s : State) : Event → Prop
  | .call (.exec file args) _ => LoadFits s s.curr file args
  | .call (.brk addr) _ => BrkFits s addr
  | .memoryTrap info => growsStack s info = true → page info < s.mem.cfg.userStackLimit
  | .resume file => ∀ c p args, s.mode = .resuming c → c.kont = .boot p args → LoadFits s p file args
  | _ => True

def Orderly (s : State) (e : Event) : Prop := Safe s e ∧ Fits s e

theorem wait_fitted {res : Option Int} (hf : Fitted l s) (h : waitFunc info s = .ok (res, t)) (hsound : Sound t) : Fitted l t := by
  rcases waitFunc_ok h with ⟨-, -, -, rfl⟩ | ⟨-, -, -, next, sched, -, rfl⟩ | ⟨-, pid, fam, hcol, -, rfl⟩
  · exact hf
  · exact hf.same hsound rfl (fun _ hp => hp) rfl rfl rfl
  · refine hf.same hsound rfl (fun p hp => ⟨?_, hp.2⟩) rfl rfl rfl
    have hlt : p < fam.count := hp.1
    rwa [collect_count hcol] at hlt

theorem delay_fitted {clockTicks : Int} {res : Option Int} (hf : Fitted l s) (h : delayFunc clockTicks info s = .ok (res, t))
    (hsound : Sound t) : Fitted l t := by
  rcases delayFunc_ok h with ⟨-, rfl⟩ | ⟨-, -, queued, next, sched, -, -, -, -, rfl⟩
  · exact hf
  · exact hf.same hsound rfl (fun _ hp => hp) rfl rfl rfl

theorem clock_fitted {out : Option ExceptionInfo} (hf : Fitted l s) (h : trapClockHandler info s = .ok (out, t))
    (hsound : Sound t) : Fitted l t := by
  rcases clockWalk_ok h with ⟨-, -, ticks, sched, -, rfl⟩ | ⟨-, -, ticks, item, sched, sched', -, -, -, -, rfl⟩
  · exact hf.same hsound rfl (fun _ hp => hp) rfl rfl rfl
  · exact hf.same hsound rfl (fun _ hp => hp) rfl rfl rfl

theorem call_fitted {c : Call} {out : Option ExceptionInfo} (hf : Fitted l s) (hm : s.mode = .user)
    (he : Orderly s (.call c info)) (h : trapKernelHandler c info s = .ok (out, t)) (hsound : Sound t) :
    Fitted (completed s l (.call c info)) t := by
  obtain ⟨hsafe, hfits⟩ := he
  have hlive := hf.sound.live_curr hm
  cases c with
  | fork =>
      obtain ⟨u, hu, h⟩ := bind_ok.1 h
      obtain ⟨-, rfl⟩ := Prod.mk.inj (Except.ok.inj h)
      exact fork_fitted hf hm hsafe.frames hu hsound
  | exec file args =>
      obtain ⟨⟨r, info', u⟩, hu, h⟩ := bind_ok.1 h
      obtain ⟨-, rfl⟩ := Prod.mk.inj (Except.ok.inj h)
      obtain ⟨r', mem, hload, -, rfl⟩ := execFunc_ok hu
      refine load_fitted s.mode hf hlive (by simp [hm]) hlive hsafe.frames hfits hload hsound fun q hq => ?_
      rcases hq with hq | ⟨rfl, hq⟩
      · exact .inl hq
      · exact .inr ⟨rfl, hq.result hload⟩
  | exit status =>
      obtain ⟨u, hu, h⟩ := bind_ok.1 h
      obtain ⟨-, rfl⟩ := Prod.mk.inj (Except.ok.inj h)
      exact exit_fitted hf hu hsound
  | wait ptr =>
      obtain ⟨⟨res, u⟩, hu, h⟩ := bind_ok.1 h
      obtain ⟨-, rfl⟩ := Prod.mk.inj (Except.ok.inj h)
      exact wait_fitted hf hu hsound
  | getPid =>
      obtain ⟨-, rfl⟩ := Prod.mk.inj (Except.ok.inj h)
      exact hf
  | brk addr =>
      obtain ⟨⟨r, mem⟩, hmem, h⟩ := bind_ok.1 h
      obtain ⟨-, rfl⟩ := Prod.mk.inj (Except.ok.inj h)
      exact brk_fitted hf hlive hfits hmem hsound
  | delay clockTicks =>
      obtain ⟨⟨res, u⟩, hu, h⟩ := bind_ok.1 h
      obtain ⟨-, rfl⟩ := Prod.mk.inj (Except.ok.inj h)
      exact delay_fitted hf hu hsound

theorem resume_fitted {file : Option File} {out : Option ExceptionInfo} (hf : Fitted l s) (he : Orderly s (.resume file))
    (h : Kernel.resume file s = .ok (out, t)) (hsound : Sound t) : Fitted (completed s l (.resume file)) t := by
  obtain ⟨hsafe, hfits⟩ := he
  have hs := hf.sound
  unfold Kernel.resume at h
  cases hm : s.mode with
  | user | hung =>
      simp only [hm] at h
      obtain ⟨-, rfl⟩ := Prod.mk.inj (Except.ok.inj h)
      refine hf.mono fun p hp => hp.resolve_right ?_
      rintro ⟨c, args, hc, -⟩
      rw [hm] at hc
      cases hc
  | resuming c =>
      simp only [hm] at h
      have hhung : s.mode ≠ .hung := by simp [hm]
      -- no program is loaded unless the context is that of `KernelStart`
      have hother (hk : ∀ p args, c.kont ≠ .boot p args) (hft : Fitted l t) : Fitted (completed s l (.resume file)) t := by
        refine hft.mono fun p hp => hp.resolve_right ?_
        rintro ⟨c', args, hc, hk', -⟩
        obtain rfl := Mode.resuming.inj (hm.symm.trans hc)
        exact hk p args hk'
      cases hk : c.kont with
      | boot pcb2 cmdArgs =>
          simp only [hk] at h
          obtain ⟨⟨r, info, mem⟩, hload, h⟩ := bind_ok.1 h
          obtain ⟨-, rfl⟩ := Prod.mk.inj (Except.ok.inj h)
          obtain ⟨hlive, howned⟩ := hsafe.frames c pcb2 cmdArgs hm hk
          have hcurr : live s s.curr := by
            refine ⟨hs.current.curr_lt, Bool.eq_false_iff.2 fun he => ?_⟩
            have hexit := hs.current.dead _ hs.current.curr_lt he
            rw [← hs.current.resumes c hm, hk] at hexit
            cases hexit
          refine load_fitted .user hf hlive hhung hcurr howned (hfits c pcb2 cmdArgs hm hk) hload hsound fun q hq => ?_
          rcases hq with hq | ⟨c', args, hc, hk', hq⟩
          · exact .inl hq
          · obtain rfl := Mode.resuming.inj (hm.symm.trans hc)
            obtain ⟨rfl, rfl⟩ := Kont.boot.inj (hk.symm.trans hk')
            exact .inr ⟨rfl, hq.result hload⟩
      | fork child | delay =>
          refine hother (by simp [hk]) ?_
          simp only [hk] at h
          obtain ⟨-, rfl⟩ := Prod.mk.inj (Except.ok.inj h)
          exact hf.same hsound rfl (fun _ hp => hp) rfl rfl rfl
      | wait =>
          refine hother (by simp [hk]) ?_
          simp only [hk] at h
          obtain ⟨⟨pid, fam⟩, hcol, h⟩ := bind_ok.1 h
          obtain ⟨-, rfl⟩ := Prod.mk.inj (Except.ok.inj h)
          refine hf.same hsound rfl (fun p hp => ⟨?_, hp.2⟩) rfl rfl rfl
          have hlt : p < fam.count := hp.1
          rwa [collect_count hcol] at hlt
      | clock item =>
          simp only [hk] at h
          obtain ⟨i, hi, -⟩ := bind_ok.1 h
          obtain ⟨hi', -, hfree⟩ := items_deref_ok hi
          obtain rfl := Option.some.inj hi'
          rw [(hs.current.clock _ item hs.current.curr_lt (hs.current.resumes c hm ▸ hk)).2] at hfree
          cases hfree
      | exit =>
          refine hother (by simp [hk]) ?_
          simp only [hk] at h
          obtain ⟨mem, hmem, h⟩ := bind_ok.1 h
          obtain ⟨-, rfl⟩ := Prod.mk.inj (Except.ok.inj h)
          obtain ⟨hcfg, hspace, hstatic, hframes⟩ := releaseTable_tables hmem
          exact hf.same hsound hcfg (fun _ hp => hp) hspace hstatic hframes

theorem step_fitted {e : Event} (hf : Fitted l s) (he : Orderly s e) (h : Step s e t) : Fitted (completed s l e) t := by
  have hsound := step_sound hf.sound he.1 h
  obtain ⟨hen, hnext⟩ := h
  cases e with
  | call c info =>
      obtain ⟨⟨out, u⟩, hcall, rfl⟩ := map_ok.1 hnext
      exact call_fitted hf (userMode_iff.1 hen) he hcall hsound
  | memoryTrap info =>
      obtain ⟨⟨out, u⟩, htrap, rfl⟩ := map_ok.1 hnext
      rcases memoryTrap_ok htrap with ⟨hg, -, mem, hmem, rfl⟩ | ⟨-, -, hexit⟩
      · exact grow_fitted hf (userMode_iff.1 hen.1) hg hen.2 (he.2 hg) hmem hsound
      · exact exit_fitted hf hexit hsound
  | fatalTrap info =>
      obtain ⟨⟨out, u⟩, htrap, rfl⟩ := map_ok.1 hnext
      obtain ⟨v, hv, h⟩ := bind_ok.1 htrap
      obtain ⟨-, rfl⟩ := Prod.mk.inj (Except.ok.inj h)
      exact exit_fitted hf hv hsound
  | clock info =>
      obtain ⟨⟨out, u⟩, hclock, rfl⟩ := map_ok.1 hnext
      exact clock_fitted hf hclock hsound
  | resume file =>
      obtain ⟨⟨out, u⟩, hres, rfl⟩ := map_ok.1 hnext
      exact resume_fitted hf he hres hsound
  | kernelBrk addr =>
      obtain ⟨⟨r, mem⟩, hmem, h⟩ := bind_ok.1 hnext
      obtain rfl := Except.ok.inj h
      obtain ⟨hcfg, hstatic, hframes⟩ := setKernelBrk_tables hmem
      exact hf.same hsound hcfg (fun _ hp => hp) (setKernelBrk_space hmem).2 hstatic hframes
  | userStore vaddr x =>
      obtain ⟨mem, hmem, h⟩ := bind_ok.1 hnext
      obtain rfl := Except.ok.inj h
      exact store_fitted hf (userMode_iff.1 hen) hmem hsound

end Yalnix.SpaceLayout
