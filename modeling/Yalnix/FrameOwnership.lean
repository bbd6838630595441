import Yalnix.CurrProc
import Yalnix.ForkErrors
import Yalnix.Indices
import Yalnix.BootFrames

namespace Yalnix.FrameOwnership

open Loops Machine AddressSpace LoadProgram Processes Queues Kernel Accesses FreeList FreeCounter Calls Boot Runs Clock CurrProc Layout Indices
  Allocation NewTable ForkLoop Frames FrameLeak SwitchFrames BootFrames

variable {env : BootEnv} {s t : State} {info : ExceptionInfo} {f i j p q : Nat} {x : Slot}

/-- An entry of `region1Pt`, or of the Region 0 table of a process. -/
inductive Entry
  | region1 (i : Nat)
  | region0 (p j : Nat)

def Entry.Reads (s : State) (e : Pte) : Entry → Prop
  | .region1 i => i < pageTableLen ∧ e = s.mem.region1Pt i
  | .region0 p j => live s p ∧ tableEntry s p j = .ok e

/-- The valid entries name different frames that are there and marked used. -/
structure FramesApart (s : State) : Prop where
  readable : ∀ p, live s p → ∀ j < pageTableLen, ∃ e, tableEntry s p j = .ok e
  used : ∀ (x : Entry) e, x.Reads s e → e.valid = true → InUse s.mem e.pfn.toNat
  apart : ∀ (x y : Entry) e e', x.Reads s e → y.Reads s e' → e.valid = true → e'.valid = true → e.pfn = e'.pfn → x = y

def InPlay (s : State) : Slot → Prop
  | .kernel i => i < pageTableLen
  | .entry w j => j < pageTableLen ∧ ∃ p, live s p ∧ wordOf (s.mem.space p).region0 = w

def Placed (sp : Space) : Prop :=
  sp.region0 = .region0Pt ∧ pageTableLen ≤ sp.freeVpn ∨
    ∃ i < pageTableLen, sp.region0 = .page (pageTableLen + i) ∧ sp.freeVpn = i

/-- The invariant: the slots in play own their frames, and the page of a live
table is mapped to the frame of the same number. -/
structure Sound (s : State) : Prop where
  current : Current s
  owned : Owned (InPlay s) s.mem
  placed : ∀ p, p < s.fam.count → Placed (s.mem.space p)
  tables : ∀ p q, p < s.fam.count → q < s.fam.count → (s.mem.space p).region0 = (s.mem.space q).region0 → p = q
  held : ∀ p i, live s p → (s.mem.space p).region0 = .page (pageTableLen + i) →
    names s.mem (.kernel i) = some (pageTableLen + i)
  pages : s.mode ≠ .hung → ∀ p i, p < s.fam.count → (s.mem.space p).region0 = .page (pageTableLen + i) →
    (s.mem.region1Pt i).valid = true
  exits : ∀ p, p < s.fam.count → (s.ctx p).kont = .exit → s.exited p = true

theorem inPlay_table (hp : live s p) : ∀ j, j < pageTableLen → InPlay s (.entry (wordOf (s.mem.space p).region0) j) :=
  fun _ hj => ⟨hj, p, hp, rfl⟩

theorem wordOf_inj {a b : Space} (ha : Placed a) (hb : Placed b) (h : wordOf a.region0 = wordOf b.region0) :
    a.region0 = b.region0 := by
  rcases ha with ⟨ha, -⟩ | ⟨i, -, ha, -⟩ <;> rcases hb with ⟨hb, -⟩ | ⟨j, -, hb, -⟩ <;> rw [ha, hb] at h ⊢
  · cases h
  · cases h
  · rw [Word.frame.inj h]

namespace Sound

theorem leads (hs : Sound s) (hp : live s p) :
    Leads s.mem (s.mem.space p).region0 (wordOf (s.mem.space p).region0) := by
  rcases hs.placed p hp.1 with ⟨ht, -⟩ | ⟨i, hi, ht, -⟩
  · rw [ht]
    exact .static
  · have hheld := hs.held p i hp ht
    obtain ⟨hv, hpfn⟩ := names_some.1 hheld
    rw [ht]
    refine .frame (kernelFrame_ok.2 ⟨⟨Nat.le_add_right .., by omega⟩, ?_⟩)
    rw [Nat.add_sub_cancel_left]
    exact ⟨hv, hpfn, (hs.owned.holds.taken (.kernel i) _ hi hheld).1⟩

theorem live_curr (hs : Sound s) (hm : s.mode = .user) : live s s.curr :=
  ⟨hs.current.curr_lt, hs.current.alive hm⟩

theorem running (hs : Sound s) (hm : s.mode ≠ .hung) (hcurr : live s s.curr) :
    ∀ j, j < pageTableLen → InPlay s (.entry (wordOf s.mem.regPtr0) j) := by
  rw [(hs.current.running hm).2]
  exact inPlay_table hcurr

theorem not_shared (hs : Sound s) (hp : p < s.fam.count) (hq : q < s.fam.count) (hne : p ≠ q) :
    wordOf (s.mem.space p).region0 ≠ wordOf (s.mem.space q).region0 :=
  fun he => hne (hs.tables p q hp hq (wordOf_inj (hs.placed p hp) (hs.placed q hq) he))

def slot (s : State) : Entry → Slot
  | .region1 i => .kernel i
  | .region0 p j => .entry (wordOf (s.mem.space p).region0) j

theorem reads_slot {x : Entry} {e : Pte} (hs : Sound s) (hx : x.Reads s e) :
    InPlay s (slot s x) ∧ (slot s x).pte s.mem = e := by
  cases x with
  | region1 i => exact ⟨hx.1, hx.2.symm⟩
  | region0 p j =>
      obtain ⟨hp, he⟩ := hx
      obtain ⟨j', w, hj, hlt, hw, rfl⟩ := readPte_ok.1 he
      obtain rfl := Int.ofNat.inj hj
      obtain rfl := leads_unique hw (hs.leads hp)
      exact ⟨inPlay_table hp j hlt, rfl⟩

theorem slot_inj {x y : Entry} {e e' : Pte} (hs : Sound s) (hx : x.Reads s e) (hy : y.Reads s e') (h : slot s x = slot s y) :
    x = y := by
  cases x with
  | region1 i =>
      cases y with
      | region1 k => exact congrArg Entry.region1 (Slot.kernel.inj h)
      | region0 q k => cases h
  | region0 p j =>
      cases y with
      | region1 k => cases h
      | region0 q k =>
          obtain ⟨hw, rfl⟩ := Slot.entry.inj h
          by_cases hpq : p = q
          · rw [hpq]
          · exact absurd hw (hs.not_shared hx.1.1 hy.1.1 hpq)

theorem framesApart (hs : Sound s) : FramesApart s := by
  have hname {x : Entry} {e : Pte} (hx : x.Reads s e) (hv : e.valid = true) :
      InPlay s (slot s x) ∧ names s.mem (slot s x) = some e.pfn.toNat := by
    obtain ⟨hin, rfl⟩ := reads_slot hs hx
    exact ⟨hin, names_some.2 ⟨hv, rfl⟩⟩
  refine ⟨fun p hp j hj => ?_, fun x e hx hv => ?_, fun x y e e' hx hy hv hv' he => ?_⟩
  · exact ⟨_, readPte_ok.2 ⟨j, _, rfl, hj, hs.leads hp, rfl⟩⟩
  · obtain ⟨hin, hn⟩ := hname hx hv
    exact hs.owned.holds.taken _ _ hin hn
  · obtain ⟨hin, hn⟩ := hname hx hv
    obtain ⟨hin', hn'⟩ := hname hy hv'
    exact slot_inj hs hx hy (hs.owned.holds.apart _ _ _ hin hin' hn (he ▸ hn'))

end Sound

/-- The pages of Region 1 that hold tables in play stay where they are. -/
def TablesHeld (P : Slot → Prop) (m m' : Memory) : Prop :=
  ∀ f j, P (.entry (.frame f) j) → ∀ i, names m (.kernel i) = some f → names m' (.kernel i) = some f

theorem TablesHeld.of_region1 {P : Slot → Prop} {m m' : Memory} (h : m'.region1Pt = m.region1Pt) : TablesHeld P m m' :=
  fun _ _ _ i hn => (names_congr (x := .kernel i) (congrFun h i)).trans hn

structure Stays (s t : State) : Prop where
  count : t.fam.count = s.fam.count
  dead : ∀ p, s.exited p = true → t.exited p = true
  space : ∀ p, SameTable (t.mem.space p) (s.mem.space p)
  pages : t.mode ≠ .hung → PagesStay s.mem t.mem
  mode : t.mode ≠ .hung → s.mode ≠ .hung
  exits : ∀ p, (t.ctx p).kont = .exit → (s.ctx p).kont = .exit ∨ t.exited p = true

namespace Stays

theorem live (h : Stays s t) (hp : Runs.live t p) : Runs.live s p := by
  refine ⟨h.count ▸ hp.1, Bool.eq_false_iff.2 fun he => ?_⟩
  have hdead := h.dead p he
  rw [hp.2] at hdead
  cases hdead

theorem inPlay (h : Stays s t) (hx : InPlay t x) : InPlay s x := by
  cases x with
  | kernel i => exact hx
  | entry w j =>
      obtain ⟨hj, p, hp, hw⟩ := hx
      exact ⟨hj, p, h.live hp, (h.space p).1 ▸ hw⟩

theorem sound (h : Stays s t) (hs : Sound s) (hcurrent : Current t) (howned : Owned (InPlay t) t.mem)
    (hheld : TablesHeld (InPlay t) s.mem t.mem) : Sound t := by
  refine ⟨hcurrent, howned, fun p hp => ?_, fun p q hp hq he => ?_, fun p i hp ht => ?_, fun hm p i hp ht => ?_,
    fun p hp hk => ?_⟩
  · unfold Placed
    rw [(h.space p).1, (h.space p).2]
    exact hs.placed p (h.count ▸ hp)
  · rw [(h.space p).1, (h.space q).1] at he
    exact hs.tables p q (h.count ▸ hp) (h.count ▸ hq) he
  · refine hheld _ 0 ⟨by decide, p, hp, by rw [ht]; rfl⟩ i (hs.held p i (h.live hp) ?_)
    rw [← (h.space p).1, ht]
  · rw [(h.space p).1] at ht
    exact h.pages hm i (hs.pages (h.mode hm) p i (h.count ▸ hp) ht)
  · rcases h.exits p hk with hk | hdead
    · exact h.dead p (hs.exits p (h.count ▸ hp) hk)
    · exact hdead

end Stays

theorem inPlay_eq (h : Stays s t) (hexited : t.exited = s.exited) : InPlay t = InPlay s := by
  funext x
  refine propext ⟨h.inPlay, fun hx => ?_⟩
  cases x with
  | kernel i => exact hx
  | entry w j =>
      obtain ⟨hj, p, hp, hw⟩ := hx
      refine ⟨hj, p, ⟨h.count ▸ hp.1, hexited ▸ hp.2⟩, ?_⟩
      rw [(h.space p).1, hw]

theorem Moves.sameTable {curr : Nat} {m m' : Memory} (h : Moves curr m m') (p : Nat) : SameTable (m'.space p) (m.space p) := by
  by_cases hp : p = curr
  · rw [hp]
    exact h.table
  · rw [h.others p hp]
    exact ⟨rfl, rfl⟩

theorem Owned.regPtr0 {P : Slot → Prop} {m : Memory} (h : Owned P m) (ptr : TablePtr) : Owned P { m with regPtr0 := ptr } :=
  h.congr rfl (fun _ hf => hf) fun x _ => by cases x with
    | kernel i => rfl
    | entry w j => cases w <;> rfl

theorem exit_owned {status : Int} (hs : Sound s) (hm : s.mode = .user) (h : exitFunc status info s = .ok t) :
    Owned (InPlay t) t.mem ∧ t.mem.region1Pt = s.mem.region1Pt ∧ Stays s t := by
  obtain ⟨woken, fam, sched, next, sched', mem, hlinks, -, -, hmem, rfl⟩ := exitFunc_ok h
  have hlive := hs.live_curr hm
  have hstays : Stays s (switched .exit info next s
      { s with mem, fam, sched := sched', exited := Function.update s.exited s.curr true }) := by
    obtain ⟨u, hu, rfl⟩ := switchExit_table hmem
    refine ⟨(exitLinks_count hlinks).1, fun p hp => ?_, fun p => ?_, fun _ => ?_, fun _ => by simp [hm], fun p hk => ?_⟩
    · change Function.update s.exited s.curr true p = true
      by_cases hpc : p = s.curr
      · rw [hpc, Function.update_self]
      · rw [Function.update_of_ne hpc, hp]
    · change SameTable (u.space p) (s.mem.space p)
      rw [hu.space]
      exact ⟨rfl, rfl⟩
    · exact .of_eq (SameRegion1.switchExit hmem)
    · by_cases hpc : p = s.curr
      · rw [hpc]
        exact .inr (Function.update_self ..)
      · refine .inl ?_
        change (saveContext .exit info s p).kont = .exit at hk
        rwa [saveContext, Function.update_of_ne hpc] at hk
  refine ⟨?_, SameRegion1.switchExit hmem, hstays⟩
  obtain ⟨u, hu, hmem⟩ := bind_ok.1 hmem
  obtain rfl := Except.ok.inj hmem
  have howned := exitPages_owned hs.owned (hs.leads hlive) (inPlay_table hlive) hu
  have hothers (x : Slot) (hx : InPlay (switched .exit info next s
      { s with
        mem := { u with regPtr0 := (u.space next).region0 }
        fam, sched := sched', exited := Function.update s.exited s.curr true }) x) :
      without (InPlay s) (wordOf (s.mem.space s.curr).region0) pageTableLen x := by
    refine ⟨hstays.inPlay hx, fun j _ he => ?_⟩
    subst he
    obtain ⟨-, p, ⟨hp, hdead⟩, hw⟩ := hx
    have hne : p ≠ s.curr := by
      rintro rfl
      change Function.update s.exited s.curr true s.curr = false at hdead
      rw [Function.update_self] at hdead
      cases hdead
    have hp : p < s.fam.count := hstays.count ▸ hp
    refine hs.not_shared hp hlive.1 hne ?_
    rw [← hw]
    exact congrArg wordOf (hstays.space p).1.symm
  refine Owned.regPtr0 (howned.mono hothers fun f j hx => ?_) _
  obtain ⟨i, hi, hn⟩ := howned.backed f j (hothers _ hx)
  exact ⟨i, hi.1, hn⟩

def childFrames (s : State) (i : Nat) : List Nat :=
  ((freeList (withTable s.fam.count i s.mem)).drop kernelStackPages).take
    (validEntries s.mem (wordOf (s.mem.space s.curr).region0) pageTableLen)

/-- The frames with the numbers of the page of the new table and of the page
borrowed are no one's, and the second is not one that the child gets. -/
def ForkOwned (s : State) : Prop :=
  ∀ i, freeVirtualPage s.mem = some i → Unnamed (InPlay s) s.mem i ∧
    ∀ b, borrowPage (withTable s.fam.count i s.mem) = some b →
      Unnamed (InPlay s) s.mem b ∧ pageTableLen + b ∉ childFrames s i

theorem validEntries_congr {m m' : Memory} {w : Word} (h : ∀ j, j < pageTableLen → w.read m' j = w.read m j) :
    validEntries m' w pageTableLen = validEntries m w pageTableLen :=
  List.countP_congr fun j hj => by rw [h j (List.mem_range.1 hj)]

structure Forked (s : State) (i : Nat) (m' : Memory) : Prop where
  lt : i < pageTableLen
  fresh : (s.mem.region1Pt i).valid = false
  owned : Owned (withEntries (InPlay s) (.frame (pageTableLen + i))) m'
  slots : ∀ x, InPlay s x → x ≠ .kernel i → x.pte m' = x.pte s.mem
  contents : ∀ f, InUse s.mem f → f ≠ pageTableLen + i → m'.frames f = s.mem.frames f
  page : names m' (.kernel i) = some (pageTableLen + i)
  child : (m'.space s.fam.count).region0 = .page (pageTableLen + i) ∧ (m'.space s.fam.count).freeVpn = i
  space : ∀ p, p ≠ s.fam.count → m'.space p = s.mem.space p

structure Inherits (s : State) (i : Nat) (m' : Memory) : Prop where
  copied : ∀ j < pageTableLen, (Word.read m' j (.frame (pageTableLen + i))).valid =
    ((wordOf (s.mem.space s.curr).region0).read s.mem j).valid
  breaks : (m'.space s.fam.count).brk = (s.mem.space s.curr).brk ∧ (m'.space s.fam.count).sp = (s.mem.space s.curr).sp

structure ForkStart (s : State) (i : Nat) (u : Memory) : Prop where
  lt : i < pageTableLen
  scan : freeVirtualPage s.mem = some i
  list : freeList u = (freeList (withTable s.fam.count i s.mem)).drop kernelStackPages
  numPages : u.numPages = s.mem.numPages
  region1Pt : u.region1Pt = (withTable s.fam.count i s.mem).region1Pt
  fresh : (s.mem.region1Pt i).valid = false
  owned : Owned (InPlay s) u
  parent : Leads u (u.space s.curr).region0 (wordOf (s.mem.space s.curr).region0)
  child : Leads u (u.space s.fam.count).region0 (.frame (pageTableLen + i))
  page : names u (.kernel i) = some (pageTableLen + i)
  no_table : ∀ j, ¬ InPlay s (.entry (.frame (pageTableLen + i)) j)
  slots : ∀ x, InPlay s x → x ≠ .kernel i → x.pte u = x.pte s.mem
  used : ∀ f, InUse s.mem f → InUse u f
  contents : ∀ f, f ≠ pageTableLen + i → u.frames f = s.mem.frames f
  borrow : BorrowOwned (InPlay s) u (wordOf (s.mem.space s.curr).region0)
  table : (u.space s.fam.count).region0 = .page (pageTableLen + i) ∧ (u.space s.fam.count).freeVpn = i
  breaks : (u.space s.fam.count).brk = (s.mem.space s.curr).brk ∧ (u.space s.fam.count).sp = (s.mem.space s.curr).sp
  space : ∀ p, p ≠ s.fam.count → u.space p = s.mem.space p
  regPtr0 : u.regPtr0 = s.mem.regPtr0

theorem fork_start {m : Memory} (hs : Sound s) (hm : s.mode = .user) (hsafe : ForkOwned s)
    (hbuild : buildRegion0 s.fam.count (createProc s).2.mem = .ok m) :
    ∃ i, ForkStart s i (setSpace m s.fam.count (childSpace s.curr s.fam.count m)) := by
  have hlive := hs.live_curr hm
  have hne : s.curr ≠ s.fam.count := Nat.ne_of_lt hlive.1
  have hspace : (createProc s).2.mem.space s.curr = s.mem.space s.curr := put_of_ne hne ..
  have hslot (x : Slot) : x.pte (createProc s).2.mem = x.pte s.mem := pte_setSpace ..
  have howned : Owned (InPlay s) (createProc s).2.mem := hs.owned.setSpace ..
  have hpage : freeVirtualPage (createProc s).2.mem = freeVirtualPage s.mem := Indices.freeVirtualPage_congr rfl rfl
  have hsafe' (i : Nat) (hi : freeVirtualPage (createProc s).2.mem = some i) : Unnamed (InPlay s) (createProc s).2.mem i := by
    intro x hx hn
    rw [names_congr (hslot x)] at hn
    exact (hsafe i (hpage ▸ hi)).1 x hx hn
  obtain ⟨i, hi, hfree, hinv, hbuilt⟩ := buildRegion0_owned howned (fun _ hi => hi) hsafe' hbuild
  have hunnamed := hsafe' i hfree
  have hleads : Leads (createProc s).2.mem ((createProc s).2.mem.space s.curr).region0 (wordOf (s.mem.space s.curr).region0) := by
    rw [hspace]
    exact leads_congr (hs.leads hlive) rfl fun _ _ => rfl
  have hentry (j : Nat) (hj : j < pageTableLen) : InPlay s (.entry (wordOf (s.mem.space s.curr).region0) j) :=
    inPlay_table hlive j hj
  obtain ⟨hw, -, -⟩ := ForkErrors.built_parent hne hleads (Owned.kept howned (hentry 0 (by decide))) hbuild
  obtain ⟨i', hi', -, hwc, -⟩ := ForkErrors.built_child hbuild
  obtain rfl : i' = i := Option.some.inj (hi'.symm.trans hfree)
  have htable : (m.space s.fam.count).region0 = .page (pageTableLen + i') ∧ (m.space s.fam.count).freeVpn = i' := by
    rw [hbuilt.maps.fixed.space]
    have hsp : (withTable s.fam.count i' (createProc s).2.mem).space s.fam.count =
        { (createProc s).2.mem.space s.fam.count with region0 := .page (pageTableLen + i'), freeVpn := i' } :=
      setSpace_space_self ..
    rw [hsp]
    exact ⟨rfl, rfl⟩
  -- the child has its table, and the parent is to be copied
  have hlist : freeList (setSpace m s.fam.count (childSpace s.curr s.fam.count m)) =
      (freeList (withTable s.fam.count i' s.mem)).drop kernelStackPages := hbuilt.maps.list
  have hpte (x : Slot) (hx : InPlay s x) (hxi : x ≠ .kernel i') :
      x.pte (setSpace m s.fam.count (childSpace s.curr s.fam.count m)) = x.pte s.mem :=
    (pte_setSpace ..).trans ((hbuilt.slots x hx hxi).trans (hslot x))
  have hvalid := validEntries_congr fun j hj => hpte _ (hentry j hj) (kernel_ne i' _ j).symm
  have hregion : (setSpace m s.fam.count (childSpace s.curr s.fam.count m)).region1Pt =
      (withTable s.fam.count i' s.mem).region1Pt := hbuilt.maps.region1Pt
  have hold {p : Nat} (hp : p ≠ s.fam.count) : m.space p = s.mem.space p := by
    rw [hbuilt.maps.fixed.space]
    exact (put_of_ne hp ..).trans (put_of_ne hp ..)
  refine ⟨i', hi, hpage ▸ hfree, hlist, hbuilt.maps.fixed.numPages, hregion, hinv, hbuilt.owned.setSpace .., ?_, ?_, ?_,
    hunnamed.no_table howned, hpte, fun f hf => ?_, fun f hf => ?_,
    fun b hb => ⟨fun x hx hn => ?_, ?_⟩, ?_, ?_, fun p hp => ?_, ?_⟩
  · have hsp : (setSpace m s.fam.count (childSpace s.curr s.fam.count m)).space s.curr = m.space s.curr := put_of_ne hne ..
    rw [hsp]
    exact leads_congr hw rfl fun _ _ => rfl
  · rw [setSpace_space_self]
    exact leads_congr hwc rfl fun _ _ => rfl
  · rw [names_congr (pte_setSpace ..), hbuilt.page hi]
  · exact ⟨hbuilt.maps.fixed.numPages.symm ▸ hf.1, hbuilt.maps.used f (used_take hf).2⟩
  · exact hbuilt.contents f hf
  · rw [Indices.borrowPage_congr (m := withTable s.fam.count i' s.mem) fun k => by rw [hregion]] at hb
    obtain ⟨hunnamed', -⟩ := (hsafe i' (hpage ▸ hfree)).2 b hb
    by_cases hxi : x = .kernel i'
    · rw [hxi, names_congr (pte_setSpace ..), hbuilt.page hi] at hn
      have hbi : i' = b := by
        have := Option.some.inj hn
        omega
      have hno := (borrowPage_some hb).2
      rw [← hbi, withTable_entry] at hno
      cases hno
    · rw [names_congr (hpte x hx hxi)] at hn
      exact hunnamed' x hx hn
  · rw [Indices.borrowPage_congr (m := withTable s.fam.count i' s.mem) fun k => by rw [hregion]] at hb
    obtain ⟨-, hapart⟩ := (hsafe i' (hpage ▸ hfree)).2 b hb
    unfold taken
    rw [hlist, hvalid]
    exact hapart
  · rw [setSpace_space_self]
    exact htable
  · rw [setSpace_space_self, ← hold hne]
    exact ⟨rfl, rfl⟩
  · exact (put_of_ne hp ..).trans (hold hp)
  · exact hbuilt.maps.fixed.regPtr0

theorem fork_owned {m m' : Memory} (hs : Sound s) (hm : s.mode = .user) (hsafe : ForkOwned s)
    (hbuild : buildRegion0 s.fam.count (createProc s).2.mem = .ok m)
    (hfork : switchFork s.curr s.fam.count (setSpace m s.fam.count (childSpace s.curr s.fam.count m)) = .ok m') :
    ∃ i, Forked s i m' ∧ Inherits s i m' := by
  have hentry := inPlay_table (hs.live_curr hm)
  obtain ⟨i, hi⟩ := fork_start hs hm hsafe hbuild
  obtain ⟨⟨hend, hslots, hcontents⟩, hchild⟩ := switchFork_owned hi.owned hi.parent hi.child (hentry 0 (by decide))
    (show InPlay s (.kernel i) from hi.lt) hi.page hi.no_table hi.borrow hfork
  have hspace : m'.space = (setSpace m s.fam.count (childSpace s.curr s.fam.count m)).space := by
    obtain ⟨u, hu, hm'⟩ := switchFork_table hfork
    rw [hm']
    exact hu.space
  refine ⟨i, ⟨hi.lt, hi.fresh, hend, fun x hx hxi => (hslots x hx).trans (hi.slots x hx hxi), fun f hf hne => ?_, ?_, ?_,
    fun p hp => ?_⟩, fun j hj => ?_, ?_⟩
  · exact (hcontents f (hi.used f hf) hne).trans (hi.contents f hne)
  · rw [names_congr (hslots _ (show InPlay s (.kernel i) from hi.lt)), hi.page]
  · rw [hspace]
    exact hi.table
  · rw [hspace, hi.space p hp]
  · rw [hchild j hj]
    exact congrArg Pte.valid (hi.slots _ (hentry j hj) (kernel_ne i _ j).symm)
  · rw [hspace]
    exact hi.breaks

theorem fork_sound (hs : Sound s) (hm : s.mode = .user) (hsafe : ForkOwned s) (h : forkFunc info s = .ok t)
    (hstay : PagesStay s.mem t.mem) : Sound t := by
  have hcurrent := fork_current hs.current hm h
  obtain ⟨m, m', fam, sched, hbuild, hfork, hlink, -, rfl⟩ := forkFunc_ok h
  obtain ⟨i, hi, -⟩ := fork_owned hs hm hsafe hbuild hfork
  have hcount : fam.count = s.fam.count + 1 := linkChild_count hlink
  have hcases {p : Nat} (hp : p < fam.count) : p = s.fam.count ∨ p < s.fam.count ∧ p ≠ s.fam.count := by omega
  have hold {p : Nat} (hp : p ≠ s.fam.count) : (m'.space p).region0 = (s.mem.space p).region0 := by rw [hi.space p hp]
  have hnot {p : Nat} (hp : p < s.fam.count) : (s.mem.space p).region0 ≠ .page (pageTableLen + i) := by
    intro he
    have hv := hs.pages (by simp [hm]) p i hp he
    rw [hi.fresh] at hv
    cases hv
  refine ⟨hcurrent, hi.owned.mono (fun x hx => ?_) fun f j hx => ?_, fun p hp => ?_, fun p q hp hq he => ?_,
    fun p k hp ht => ?_, fun _ p k hp ht => ?_, fun p hp hk => ?_⟩
  · cases x with
    | kernel k => exact .inl hx
    | entry w j =>
        obtain ⟨hj, p, ⟨hp, hdead⟩, rfl⟩ := hx
        rcases hcases hp with rfl | ⟨hlt, hne⟩
        · refine .inr ⟨j, hj, ?_⟩
          change Slot.entry (wordOf (m'.space s.fam.count).region0) j = _
          rw [hi.child.1]
          rfl
        · refine .inl ⟨hj, p, ⟨hlt, hdead⟩, ?_⟩
          rw [hold hne]
  · have hin : withEntries (InPlay s) (.frame (pageTableLen + i)) (.entry (.frame f) j) := by
      obtain ⟨hj, p, ⟨hp, hdead⟩, hw⟩ := hx
      rcases hcases hp with rfl | ⟨hlt, hne⟩
      · refine .inr ⟨j, hj, ?_⟩
        change wordOf (m'.space s.fam.count).region0 = _ at hw
        rw [hi.child.1] at hw
        rw [← hw]
        rfl
      · refine .inl ⟨hj, p, ⟨hlt, hdead⟩, ?_⟩
        rw [← hold hne]
        exact hw
    obtain ⟨k, hk, hn⟩ := hi.owned.backed f j hin
    rcases hk with hk | ⟨j', -, he⟩
    · exact ⟨k, hk, hn⟩
    · cases he
  · rcases hcases hp with rfl | ⟨hlt, hne⟩
    · exact .inr ⟨i, hi.lt, hi.child⟩
    · change Placed (m'.space p)
      rw [hi.space p hne]
      exact hs.placed p hlt
  · change (m'.space p).region0 = (m'.space q).region0 at he
    rcases hcases hp with rfl | ⟨hlt, hne⟩ <;> rcases hcases hq with rfl | ⟨hlt', hne'⟩
    · rfl
    · rw [hi.child.1, hold hne'] at he
      exact absurd he.symm (hnot hlt')
    · rw [hi.child.1, hold hne] at he
      exact absurd he (hnot hlt)
    · rw [hold hne, hold hne'] at he
      exact hs.tables p q hlt hlt' he
  · change (m'.space p).region0 = .page (pageTableLen + k) at ht
    rcases hcases hp.1 with rfl | ⟨hlt, hne⟩
    · rw [hi.child.1] at ht
      obtain rfl : i = k := by
        have := TablePtr.page.inj ht
        omega
      exact hi.page
    · rw [hold hne] at ht
      have hheld := hs.held p k ⟨hlt, hp.2⟩ ht
      refine (names_congr (hi.slots _ ?_ fun he => ?_)).trans hheld
      · obtain ⟨k', hk', ht', -⟩ := (hs.placed p hlt).resolve_left fun h => by
          rw [h.1] at ht
          cases ht
        rw [ht] at ht'
        have := TablePtr.page.inj ht'
        change k < pageTableLen
        omega
      · rw [he, names_none (x := .kernel i) hi.fresh] at hheld
        cases hheld
  · change (m'.space p).region0 = .page (pageTableLen + k) at ht
    rcases hcases hp with rfl | ⟨hlt, hne⟩
    · rw [hi.child.1] at ht
      obtain rfl : i = k := by
        have := TablePtr.page.inj ht
        omega
      exact (names_some.1 hi.page).1
    · rw [hold hne] at ht
      exact hstay k (hs.pages (by simp [hm]) p k hlt ht)
  · dsimp only at hk ⊢
    rcases hcases hp with rfl | ⟨hlt, hne⟩
    · rw [Function.update_self] at hk
      cases hk
    · rw [Function.update_of_ne hne, saveContext] at hk
      by_cases hpc : p = s.curr
      · rw [hpc, Function.update_self] at hk
        cases hk
      · rw [Function.update_of_ne hpc] at hk
        exact hs.exits p hlt hk

theorem Sound.stays (hs : Sound s) (h : Stays s t) (hexited : t.exited = s.exited) (hcurrent : Current t)
    (howned : Owned (InPlay s) t.mem) (hheld : TablesHeld (InPlay s) s.mem t.mem) : Sound t := by
  have heq := inPlay_eq h hexited
  exact h.sound hs hcurrent (heq ▸ howned) (heq ▸ hheld)

theorem Stays.switched {kont : Kont} {u : State} (hm : s.mode = .user) (hcount : u.fam.count = s.fam.count)
    (hexited : u.exited = s.exited) (hkont : kont ≠ .exit) (hspace : u.mem.space = s.mem.space)
    (hregion : u.mem.region1Pt = s.mem.region1Pt) : Stays s (switched kont info q s u) := by
  refine ⟨hcount, fun p hp => ?_, fun p => ?_, fun _ => .of_eq hregion, fun _ => by simp [hm], fun p hk => .inl ?_⟩
  · change u.exited p = true
    rwa [hexited]
  · change SameTable (u.mem.space p) _
    rw [hspace]
    exact ⟨rfl, rfl⟩
  · change (saveContext kont info s p).kont = .exit at hk
    by_cases hpc : p = s.curr
    · rw [hpc, saveContext, Function.update_self] at hk
      exact absurd hk hkont
    · rwa [saveContext, Function.update_of_ne hpc] at hk

/-- A switch to a process that exists moves the register only. -/
theorem switched_sound {kont : Kont} {u : State} (hs : Sound s) (hm : s.mode = .user) (hcount : u.fam.count = s.fam.count)
    (hexited : u.exited = s.exited) (hkont : kont ≠ .exit) (hmem : u.mem = AddressSpace.switchExist q s.mem)
    (hcurrent : Current (switched kont info q s u)) : Sound (switched kont info q s u) := by
  have hstays : Stays s (switched kont info q s u) :=
    .switched hm hcount hexited hkont (by rw [hmem]; rfl) (by rw [hmem]; rfl)
  refine hs.stays hstays hexited hcurrent ?_ (.of_region1 ?_)
  · change Owned (InPlay s) u.mem
    rw [hmem]
    exact Owned.regPtr0 hs.owned _
  · change u.mem.region1Pt = _
    rw [hmem]
    rfl

theorem same_sound {fam : Family} {sched : Sched} {mode : Mode} (hs : Sound s) (hcount : fam.count = s.fam.count)
    (hmode : mode ≠ .hung → s.mode ≠ .hung) (hcurrent : Current { s with fam, sched, mode }) :
    Sound { s with fam, sched, mode } := by
  refine hs.stays ⟨hcount, fun _ hp => hp, fun _ => ⟨rfl, rfl⟩, fun _ _ hv => hv, hmode, fun _ hk => .inl hk⟩ rfl hcurrent ?_
    (.of_region1 rfl)
  exact hs.owned

theorem mem_sound {mem : Memory} (mode : Mode) (hs : Sound s) (hspace : ∀ p, SameTable (mem.space p) (s.mem.space p))
    (howned : Owned (InPlay s) mem) (hregion : mem.region1Pt = s.mem.region1Pt) (hmode : mode ≠ .hung → s.mode ≠ .hung)
    (hcurrent : Current { s with mem, mode }) : Sound { s with mem, mode } :=
  hs.stays ⟨rfl, fun _ hp => hp, hspace, fun _ => .of_eq hregion, hmode, fun _ hk => .inl hk⟩ rfl hcurrent howned
    (.of_region1 hregion)

theorem exit_sound {status : Int} (hs : Sound s) (hm : s.mode = .user) (h : exitFunc status info s = .ok t) : Sound t := by
  obtain ⟨howned, hregion, hstays⟩ := exit_owned hs hm h
  exact hstays.sound hs (exit_current hs.current hm h) howned (.of_region1 hregion)

theorem wait_sound {res : Option Int} (hs : Sound s) (hm : s.mode = .user) (h : waitFunc info s = .ok (res, t)) : Sound t := by
  have hcurrent := wait_current hs.current hm h
  rcases waitFunc_ok h with ⟨-, -, -, rfl⟩ | ⟨-, -, -, next, sched, hnext, rfl⟩ | ⟨-, pid, fam, hcol, -, rfl⟩
  · exact hs
  · exact switched_sound (u := { s with mem := AddressSpace.switchExist next s.mem, fam := _, sched }) hs hm rfl rfl nofun rfl
      hcurrent
  · exact same_sound hs (collect_count hcol) (fun h => h) hcurrent

theorem delay_sound {clockTicks : Int} {res : Option Int} (hs : Sound s) (hm : s.mode = .user)
    (h : delayFunc clockTicks info s = .ok (res, t)) : Sound t := by
  have hcurrent := delay_current hs.current hm h
  rcases delayFunc_ok h with ⟨-, rfl⟩ | ⟨-, -, queued, next, sched, -, -, -, hnext, rfl⟩
  · exact hs
  · exact switched_sound hs hm rfl rfl nofun rfl hcurrent

theorem clock_sound {out : Option ExceptionInfo} (hs : Sound s) (hm : s.mode = .user) (hquiet : replaces s.sched = false)
    (h : trapClockHandler info s = .ok (out, t)) : Sound t := by
  have hcurrent := clock_current hs.current hm hquiet h
  rcases clockWalk_ok h with ⟨-, -, ticks, sched, htick, rfl⟩ | ⟨-, -, ticks, item, sched, sched', -, -, -, -, rfl⟩
  · exact same_sound hs rfl (fun _ => by simp [hm]) hcurrent
  · exact switched_sound hs hm rfl rfl nofun rfl hcurrent

theorem load_sound {curr : Nat} {file : Option File} {args : List (List (BitVec 8))} {info' : ExceptionInfo} {r : Int}
    {mem : Memory} (mode : Mode) (hs : Sound s) (hp : live s p) (hm : s.mode ≠ .hung) (hcurr : live s s.curr)
    (hload : LoadOwned s.mem (wordOf (s.mem.space p).region0) file args)
    (h : loadProgram curr (s.mem.space p).region0 file args info s.mem = .ok (r, info', mem))
    (hcurrent : Current { s with mem, mode }) : Sound { s with mem, mode } :=
  mem_sound mode hs (Moves.sameTable (loadProgram_moves h))
    (loadProgram_owned hs.owned (hs.leads hp) (inPlay_table hp) (hs.running hm hcurr) hload h) (SameRegion1.loadProgram h)
    (fun _ => hm) hcurrent

/-- The page of a process that has exited holds no table in play. -/
theorem Sound.page_free (hs : Sound s) (hp : p < s.fam.count) (hdead : s.exited p = true)
    (hplace : (s.mem.space p).region0 = .page (pageTableLen + i)) (hi : i < pageTableLen) (f j : Nat)
    (hf : InPlay s (.entry (.frame f) j)) : names s.mem (.kernel i) ≠ some f := by
  intro hn
  obtain ⟨-, q, hq, hw⟩ := hf
  rcases hs.placed q hq.1 with ⟨ht, -⟩ | ⟨k, hk, ht, -⟩
  · rw [ht] at hw
    cases hw
  · rw [ht] at hw
    obtain rfl := Word.frame.inj hw
    have hsame : (.kernel i : Slot) = .kernel k := hs.owned.holds.apart _ _ _ hi hk hn (hs.held q k hq ht)
    obtain rfl := Slot.kernel.inj hsame
    obtain rfl := hs.tables p q hp hq.1 (hplace.trans ht.symm)
    rw [hq.2] at hdead
    cases hdead

theorem release_sound {mem : Memory} (hs : Sound s) (hm : s.mode ≠ .hung) (hdead : s.exited s.curr = true)
    (h : releaseTable s.curr s.mem = .ok mem) (hcurrent : Current { s with mem, mode := .hung }) :
    Sound { s with mem, mode := .hung } := by
  have hcurr := hs.current.curr_lt
  rcases hs.placed _ hcurr with ⟨-, hfree⟩ | ⟨i, hi, ht, hfree⟩
  · obtain ⟨i, hi, -⟩ := bind_ok.1 h
    obtain ⟨hi, hlt⟩ := index_ok.1 hi
    omega
  · have hno := hs.page_free hcurr hdead ht hi
    obtain ⟨howned, hslots⟩ := releaseTable_owned hs.owned (fun _ hi => hi) (by rw [hfree]; exact hno) h
      (by rw [hfree]; exact hs.pages hm _ i hcurr ht)
    rw [hfree] at hslots
    refine hs.stays ⟨rfl, fun _ hp => hp, fun p => ?_, fun h => absurd rfl h, fun h => absurd rfl h, fun _ hk => .inl hk⟩ rfl
      hcurrent howned fun f j hf k hn => ?_
    · obtain ⟨k, -, h⟩ := bind_ok.1 h
      rw [(Fixed.freePage h).space]
      exact ⟨rfl, rfl⟩
    · refine (names_congr (hslots _ fun he => hno f j hf ?_)).trans hn
      rwa [← Slot.kernel.inj he]

theorem Sound.framesExist (hs : Sound s) (hp : live s p) {n : Nat} (hn : n ≤ pageTableLen) :
    FramesExist s.mem (s.mem.space p).region0 n := by
  intro w hw j hj hv
  obtain rfl := leads_unique hw (hs.leads hp)
  exact (hs.owned.holds.taken _ _ (inPlay_table hp j (Nat.lt_of_lt_of_le hj hn)) (names_some.2 ⟨hv, rfl⟩)).1

theorem Sound.load_inBounds {file : Option File} {args : List (List (BitVec 8))} {info' : ExceptionInfo} {r : Int} {mem : Memory}
    (hs : Sound s) (hp : live s p) (h : loadProgram s.curr (s.mem.space p).region0 file args info s.mem = .ok (r, info', mem)) :
    LoadInBounds (s.mem.space p).region0 file args s.mem := by
  intro li hpasses
  refine ⟨?_, hs.framesExist hp (by decide)⟩
  obtain ⟨⟨f, rfl, hst⟩, hvirt, hphys⟩ := hpasses
  simp only [loadProgram, hst] at h
  obtain ⟨hargs, h⟩ := error_ite_ok.1 h
  have hphys (space : Space) : fitsPhysical (sizes s.mem.cfg li args) (setSpace s.mem s.curr space) = true := hphys
  rw [hvirt, Bool.not_true, if_neg Bool.false_ne_true, hphys, Bool.not_true, if_neg Bool.false_ne_true] at h
  obtain ⟨u, hu, -⟩ := bind_ok.1 h
  exact layOut_pagesFit (Nat.not_le.1 hargs) hu

/-- A step that the model makes uses no index out of range. -/
theorem step_inBounds {e : Event} (hs : Sound s) (h : Step s e t)
    (hboot : ∀ file, e = .resume file → ∀ c pcb2 args, s.mode = .resuming c → c.kont = .boot pcb2 args → live s pcb2) :
    InBounds s e := by
  obtain ⟨hen, hnext⟩ := h
  cases e with
  | call c info =>
      obtain ⟨⟨out, u⟩, hcall, -⟩ := map_ok.1 hnext
      have hlive := hs.live_curr (userMode_iff.1 hen)
      cases c with
      | fork =>
          obtain ⟨v, hv, -⟩ := bind_ok.1 hcall
          exact forkFunc_inBounds hv
      | exec file args =>
          obtain ⟨⟨r, info', v⟩, hv, -⟩ := bind_ok.1 hcall
          obtain ⟨r', mem, hload, -⟩ := execFunc_ok hv
          exact hs.load_inBounds hlive hload
      | exit status => exact hs.framesExist hlive (Nat.le_refl _)
      | brk addr =>
          obtain ⟨⟨r, mem⟩, hmem, -⟩ := bind_ok.1 hcall
          exact brkFunc_inBounds hmem
      | wait ptr | getPid | delay clockTicks => trivial
  | memoryTrap info => exact fun _ => hs.framesExist (hs.live_curr (userMode_iff.1 hen.1)) (Nat.le_refl _)
  | fatalTrap info => exact hs.framesExist (hs.live_curr (userMode_iff.1 hen)) (Nat.le_refl _)
  | resume file =>
      obtain ⟨⟨out, u⟩, hres, -⟩ := map_ok.1 hnext
      refine fun c hm => ⟨fun pcb2 args hk => ?_, fun hk => ?_⟩
      · simp only [Kernel.resume, hm, hk] at hres
        obtain ⟨⟨r, info, mem⟩, hload, -⟩ := bind_ok.1 hres
        exact hs.load_inBounds (hboot file rfl c pcb2 args hm hk) hload
      · simp only [Kernel.resume, hm, hk] at hres
        obtain ⟨mem, hmem, -⟩ := bind_ok.1 hres
        obtain ⟨i, hi, hmem⟩ := bind_ok.1 hmem
        obtain ⟨hi, hlt⟩ := index_ok.1 hi
        obtain rfl := Int.ofNat.inj hi
        obtain ⟨f, hf, hframe, -⟩ := freePage_ok.1 hmem
        obtain rfl := Int.ofNat.inj hf
        exact ⟨hlt, hframe⟩
  | kernelBrk addr =>
      obtain ⟨⟨r, mem⟩, hmem, -⟩ := bind_ok.1 hnext
      exact setKernelBrk_inBounds hmem
  | clock info | userStore vaddr x => trivial

/-- The frames that each step finds, and those that it marks or maps by number. -/
def FramesFit (s : State) : Event → Prop
  | .call .fork _ => ForkOwned s
  | .call (.exec file args) _ => LoadOwned s.mem (wordOf (s.mem.space s.curr).region0) file args
  | .call (.brk addr) _ => BrkOwned (InPlay s) s.mem s.curr addr
  | .memoryTrap info => growsStack s info = true →
      (toInt (toInt (s.mem.space s.curr).sp - toUlong (downToPage info.addr))).toNat ≤ (freeList s.mem).length
  | .resume file => ∀ c pcb2 args, s.mode = .resuming c → c.kont = .boot pcb2 args →
      live s pcb2 ∧ LoadOwned s.mem (wordOf (s.mem.space pcb2).region0) file args
  | .kernelBrk addr => HeapOwned (InPlay s) s.mem addr
  | _ => True

/-- What each step asks of the state it starts from. -/
structure Safe (s : State) (e : Event) : Prop where
  frames : FramesFit s e
  bounds : InBounds s e
  grows : GrowInBounds s e
  quiet : Quiet s e

theorem Safe.defined {e : Event} (h : Safe s e) : Defined s e := ⟨h.bounds, h.grows, h.quiet.1⟩

/-- For a step that the model makes, the frames and the clock are the whole condition. -/
theorem Safe.of_step {e : Event} (hs : Sound s) (h : Step s e t) (hframes : FramesFit s e)
    (hclock : ∀ info, e = .clock info → replaces s.sched = false) : Safe s e := by
  refine ⟨hframes, step_inBounds hs h fun file he c pcb2 args hm hk => ?_, step_growInBounds h, step_fresh hs.current h, hclock⟩
  subst he
  exact (hframes c pcb2 args hm hk).1

theorem call_sound {c : Call} {out : Option ExceptionInfo} (hs : Sound s) (hm : s.mode = .user) (hsafe : Safe s (.call c info))
    (h : trapKernelHandler c info s = .ok (out, t)) (hcurrent : Current t) (hstay : t.mode ≠ .hung → PagesStay s.mem t.mem) :
    Sound t := by
  have hlive := hs.live_curr hm
  have hhung : s.mode ≠ .hung := by simp [hm]
  cases c with
  | fork =>
      obtain ⟨u, hu, h⟩ := bind_ok.1 h
      obtain ⟨-, rfl⟩ := Prod.mk.inj (Except.ok.inj h)
      refine fork_sound hs hm hsafe.frames hu (hstay ?_)
      obtain ⟨m, m', fam, sched, -, -, -, -, rfl⟩ := forkFunc_ok hu
      exact nofun
  | exec file args =>
      obtain ⟨⟨r, info', u⟩, hu, h⟩ := bind_ok.1 h
      obtain ⟨-, rfl⟩ := Prod.mk.inj (Except.ok.inj h)
      obtain ⟨r', mem, hload, -, rfl⟩ := execFunc_ok hu
      exact load_sound s.mode hs hlive hhung hlive hsafe.frames hload hcurrent
  | exit status =>
      obtain ⟨u, hu, h⟩ := bind_ok.1 h
      obtain ⟨-, rfl⟩ := Prod.mk.inj (Except.ok.inj h)
      exact exit_sound hs hm hu
  | wait ptr =>
      obtain ⟨⟨res, u⟩, hu, h⟩ := bind_ok.1 h
      obtain ⟨-, rfl⟩ := Prod.mk.inj (Except.ok.inj h)
      exact wait_sound hs hm hu
  | getPid =>
      obtain ⟨-, rfl⟩ := Prod.mk.inj (Except.ok.inj h)
      exact hs
  | brk addr =>
      obtain ⟨⟨r, mem⟩, hmem, h⟩ := bind_ok.1 h
      obtain ⟨-, rfl⟩ := Prod.mk.inj (Except.ok.inj h)
      exact mem_sound s.mode hs (Moves.sameTable (brkFunc_moves hmem)) (brkFunc_owned hs.owned hsafe.frames hmem)
        (SameRegion1.brkFunc hmem) (fun h => h) hcurrent
  | delay clockTicks =>
      obtain ⟨⟨res, u⟩, hu, h⟩ := bind_ok.1 h
      obtain ⟨-, rfl⟩ := Prod.mk.inj (Except.ok.inj h)
      exact delay_sound hs hm hu

theorem resume_sound {file : Option File} {out : Option ExceptionInfo} (hs : Sound s) (hsafe : Safe s (.resume file))
    (h : Kernel.resume file s = .ok (out, t)) : Sound t := by
  have hcurrent := resume_current hs.current h
  unfold Kernel.resume at h
  cases hm : s.mode with
  | user | hung =>
      simp only [hm] at h
      obtain ⟨-, rfl⟩ := Prod.mk.inj (Except.ok.inj h)
      exact hs
  | resuming c =>
      simp only [hm] at h
      have hc := hs.current.resumes c hm
      have hhung : s.mode ≠ .hung := by simp [hm]
      cases hk : c.kont with
      | boot pcb2 cmdArgs =>
          simp only [hk] at h
          obtain ⟨⟨r, info, mem⟩, hload, h⟩ := bind_ok.1 h
          obtain ⟨-, rfl⟩ := Prod.mk.inj (Except.ok.inj h)
          obtain ⟨hlive, howned⟩ := hsafe.frames c pcb2 cmdArgs hm hk
          refine load_sound .user hs hlive hhung ⟨hs.current.curr_lt, Bool.eq_false_iff.2 fun he => ?_⟩ howned hload hcurrent
          have hexit := hs.current.dead _ hs.current.curr_lt he
          rw [← hc, hk] at hexit
          cases hexit
      | fork child | delay =>
          simp only [hk] at h
          obtain ⟨-, rfl⟩ := Prod.mk.inj (Except.ok.inj h)
          exact same_sound hs rfl (fun _ => hhung) hcurrent
      | wait =>
          simp only [hk] at h
          obtain ⟨⟨pid, fam⟩, hcol, h⟩ := bind_ok.1 h
          obtain ⟨-, rfl⟩ := Prod.mk.inj (Except.ok.inj h)
          exact same_sound hs (collect_count hcol) (fun _ => hhung) hcurrent
      | clock item =>
          simp only [hk] at h
          obtain ⟨i, hi, -⟩ := bind_ok.1 h
          obtain ⟨hi', -, hf⟩ := items_deref_ok hi
          obtain rfl := Option.some.inj hi'
          rw [(hs.current.clock _ item hs.current.curr_lt (hc ▸ hk)).2] at hf
          cases hf
      | exit =>
          simp only [hk] at h
          obtain ⟨mem, hmem, h⟩ := bind_ok.1 h
          obtain ⟨-, rfl⟩ := Prod.mk.inj (Except.ok.inj h)
          exact release_sound hs hhung (hs.exits _ hs.current.curr_lt (hc ▸ hk)) hmem hcurrent

theorem step_sound {e : Event} (hs : Sound s) (he : Safe s e) (h : Step s e t) : Sound t := by
  have hcurrent := step_current hs.current he.quiet h
  have hstay (ht : t.mode ≠ .hung) : PagesStay s.mem t.mem := step_pages ht h
  obtain ⟨hen, hnext⟩ := h
  cases e with
  | call c info =>
      obtain ⟨⟨out, u⟩, hcall, rfl⟩ := map_ok.1 hnext
      exact call_sound hs (userMode_iff.1 hen) he hcall hcurrent hstay
  | memoryTrap info =>
      obtain ⟨⟨out, u⟩, htrap, rfl⟩ := map_ok.1 hnext
      rcases memoryTrap_ok htrap with ⟨hg, -, mem, hmem, rfl⟩ | ⟨-, -, hexit⟩
      · exact mem_sound s.mode hs (Moves.sameTable (growStack_moves hmem)) (growStack_owned hs.owned (he.frames hg) hmem)
          (SameRegion1.growStack hmem) (fun h => h) hcurrent
      · exact exit_sound hs (userMode_iff.1 hen.1) hexit
  | fatalTrap info =>
      obtain ⟨⟨out, u⟩, htrap, rfl⟩ := map_ok.1 hnext
      obtain ⟨v, hv, h⟩ := bind_ok.1 htrap
      obtain ⟨-, rfl⟩ := Prod.mk.inj (Except.ok.inj h)
      exact exit_sound hs (userMode_iff.1 hen) hv
  | clock info =>
      obtain ⟨⟨out, u⟩, hclock, rfl⟩ := map_ok.1 hnext
      exact clock_sound hs (userMode_iff.1 hen) (he.quiet.2 info rfl) hclock
  | resume file =>
      obtain ⟨⟨out, u⟩, hres, rfl⟩ := map_ok.1 hnext
      exact resume_sound hs he hres
  | kernelBrk addr =>
      obtain ⟨⟨r, mem⟩, hmem, h⟩ := bind_ok.1 hnext
      obtain rfl := Except.ok.inj h
      obtain ⟨howned, hheld⟩ := setKernelBrk_owned hs.owned he.frames hmem
      refine hs.stays ⟨rfl, fun _ hp => hp, fun p => ?_, hstay, fun h => h, fun _ hk => .inl hk⟩ rfl hcurrent howned
        fun f j hf i hn => hheld f j hf i hn
      change SameTable (mem.space p) _
      rw [(setKernelBrk_space hmem).2]
      exact ⟨rfl, rfl⟩
  | userStore vaddr x =>
      obtain ⟨mem, hmem, h⟩ := bind_ok.1 hnext
      obtain rfl := Except.ok.inj h
      obtain ⟨f, e, hf, -, -, -, rfl⟩ := userStore_ok hmem
      have hm := userMode_iff.1 hen
      have hno := userFrame_not_table hs.owned (hs.running (by simp [hm]) (hs.live_curr hm)) hf
      exact mem_sound s.mode hs (fun _ => ⟨rfl, rfl⟩) (hs.owned.fill hno _) rfl (fun h => h) hcurrent

theorem boot_sound (henv : BootOwned env) (h : kernelStart env = .ok s) : Sound s := by
  have hcurrent := boot_current h
  obtain ⟨s₁, s₂, s₃, m, i, i', hboots⟩ := kernelStart_boots h
  obtain ⟨k, hb⟩ := boot_owned henv hboots
  obtain ⟨m, m₁, m₂, m₃, m₄, i, i', -, rfl⟩ := kernelStart_ok h
  have h2 {p : Nat} (hp : p < 2) : p = 0 ∨ p = 1 := by omega
  refine ⟨hcurrent, hb.owned.mono (fun x hx => ?_) fun f j hx => ?_, fun p hp => ?_, fun p q hp hq he => ?_,
    fun p j hp ht => ?_, fun _ p j hp ht => ?_, fun p hp hk => ?_⟩
  · cases x with
    | kernel j => exact .inl hx
    | entry w j =>
        obtain ⟨hj, p, ⟨hp, -⟩, hw⟩ := hx
        change wordOf (m₄.space p).region0 = w at hw
        obtain rfl | rfl := h2 hp
        · rw [hb.idle.1] at hw
          exact .inl ⟨hw.symm, hj⟩
        · rw [hb.init.1] at hw
          exact .inr ⟨j, hj, by rw [← hw]; rfl⟩
  · obtain ⟨hj, p, ⟨hp, -⟩, hw⟩ := hx
    change wordOf (m₄.space p).region0 = _ at hw
    obtain rfl | rfl := h2 hp
    · rw [hb.idle.1] at hw
      cases hw
    · rw [hb.init.1] at hw
      obtain rfl := Word.frame.inj hw
      exact ⟨k, hb.lt, hb.page⟩
  · change Placed (m₄.space p)
    obtain rfl | rfl := h2 hp
    · exact .inl ⟨hb.idle.1, by rw [hb.idle.2]; decide⟩
    · exact .inr ⟨k, hb.lt, hb.init⟩
  · change (m₄.space p).region0 = (m₄.space q).region0 at he
    obtain rfl | rfl := h2 hp <;> obtain rfl | rfl := h2 hq
    · rfl
    · rw [hb.idle.1, hb.init.1] at he
      cases he
    · rw [hb.idle.1, hb.init.1] at he
      cases he
    · rfl
  · change (m₄.space p).region0 = _ at ht
    obtain rfl | rfl := h2 hp.1
    · rw [hb.idle.1] at ht
      cases ht
    · rw [hb.init.1] at ht
      obtain rfl : k = j := by
        have := TablePtr.page.inj ht
        omega
      exact hb.page
  · change (m₄.space p).region0 = _ at ht
    obtain rfl | rfl := h2 hp
    · rw [hb.idle.1] at ht
      cases ht
    · rw [hb.init.1] at ht
      obtain rfl : k = j := by
        have := TablePtr.page.inj ht
        omega
      exact (names_some.1 hb.page).1
  · obtain rfl | rfl := h2 hp <;> cases hk

theorem reachable_sound (henv : BootOwned env) (h : Reachable Safe env t) : Sound t := by
  obtain ⟨s, hs, hreach⟩ := h
  induction hreach with
  | refl => exact boot_sound henv hs
  | tail _ hstep ih =>
      obtain ⟨e, he, hstep⟩ := hstep
      exact step_sound ih he hstep

/-- In every safe run from the end of `KernelStart` the valid entries of
`region1Pt` and of the tables of the live processes name different frames, which
exist and are marked used. -/
theorem reachable_frames_apart (henv : BootOwned env) (h : Reachable Safe env t) : FramesApart t :=
  (reachable_sound henv h).framesApart

def forkFits (s : State) : Bool :=
  match freeVirtualPage s.mem with
  | none => true
  | some i => s.mem.freePages (pageTableLen + i) = .pageFree &&
      match borrowPage (withTable s.fam.count i s.mem) with
      | none => true
      | some b => s.mem.freePages (pageTableLen + b) = .pageFree && !(childFrames s i).contains (pageTableLen + b)

theorem forkFits_owned (hs : Sound s) (h : forkFits s = true) : ForkOwned s := by
  intro i hi
  unfold forkFits at h
  rw [hi] at h
  obtain ⟨hfree, h⟩ := Bool.and_eq_true_iff.1 h
  refine ⟨unnamed_of_free hs.owned (of_decide_eq_true hfree), fun b hb => ?_⟩
  rw [hb] at h
  obtain ⟨hfree, hnot⟩ := Bool.and_eq_true_iff.1 h
  refine ⟨unnamed_of_free hs.owned (of_decide_eq_true hfree), fun hmem => ?_⟩
  rw [List.contains_iff_mem.2 hmem] at hnot
  cases hnot

theorem small_forkFits : startsIn forkFits = true := by
  decide +kernel

theorem small_forkOwned (h : kernelStart smallBoot = .ok s) : ForkOwned s := by
  obtain ⟨s', hs, hfits⟩ := startsIn_iff.1 small_forkFits
  obtain rfl := Except.ok.inj (h.symm.trans hs)
  exact forkFits_owned (boot_sound small_bootOwned h) hfits

theorem frames_atFork {file : Option File} (h : atFork s = true) : FramesFit s (.resume file) := by
  intro c pcb2 args hm hk
  obtain ⟨child, hfork⟩ := kont_atFork h hm
  cases hk.symm.trans hfork

theorem small_safe {s₀ s₁ s₂ s₃ s₄ : State} (h : SmallFamily s₀ s₁ s₂ s₃ s₄) : Safe s₀ (.call .fork smallInfo) ∧
    Safe s₁ (.resume none) ∧ Safe s₂ (.call (.exit 7) smallInfo) ∧ Safe s₃ (.resume none) := by
  have hs₀ := boot_sound small_bootOwned h.boot
  have hfork : Safe s₀ (.call .fork smallInfo) := .of_step hs₀ h.fork (small_forkOwned h.boot) nofun
  have hs₁ := step_sound hs₀ hfork h.fork
  have hchild : Safe s₁ (.resume none) := .of_step hs₁ h.child (frames_atFork h.forked.1) nofun
  have hs₂ := step_sound hs₁ hchild h.child
  have hexit : Safe s₂ (.call (.exit 7) smallInfo) := .of_step hs₂ h.exit trivial nofun
  have hs₃ := step_sound hs₂ hexit h.exit
  exact ⟨hfork, hchild, hexit, .of_step hs₃ h.parent (frames_atFork h.exited.1) nofun⟩

theorem reachable_frames_apart_small : ∃ t, Reachable Safe smallBoot t ∧ live t 1 ∧ FramesApart t := by
  obtain ⟨s₀, s₁, s₂, s₃, s₄, h, -⟩ := small_family
  obtain ⟨hfork, hchild, hexit, hparent⟩ := small_safe h
  have hreach : Reachable Safe smallBoot s₄ := by
    exact ⟨s₀, h.boot, .tail (.tail (.tail (.single ⟨_, hfork, h.fork⟩) ⟨_, hchild, h.child⟩) ⟨_, hexit, h.exit⟩)
      ⟨_, hparent, h.parent⟩⟩
  refine ⟨s₄, hreach, ?_, reachable_frames_apart small_bootOwned hreach⟩
  rw [h.parent_eq]
  exact h.exited.2.2

/-- The child moves its break down, and frame 17 of its kernel stack is marked free. -/
theorem frames_shared_small : ∃ t, Reachable (fun _ _ => True) smallBoot t ∧ ¬ FramesApart t := by
  obtain ⟨s₀, s₁, s₂, s₃, s₄, h, hf⟩ := small_family
  obtain ⟨u, hu, hlive, hentry, hfree⟩ := hf.brkDown
  refine ⟨u, ⟨s₀, h.boot, .tail (.tail (.single ⟨_, trivial, h.fork⟩) ⟨_, trivial, h.child⟩) ⟨_, trivial, hu⟩⟩, fun ha => ?_⟩
  obtain ⟨e, he⟩ := ha.readable 2 hlive 511 (by decide)
  rw [he] at hentry
  obtain ⟨hv, hp⟩ := Prod.mk.inj (Option.some.inj hentry)
  have hused := (ha.used (.region0 2 511) e ⟨hlive, he⟩ hv).2
  rw [hp] at hused
  change u.mem.freePages 17 = .pageUsed at hused
  rw [hfree] at hused
  cases hused

end Yalnix.FrameOwnership
