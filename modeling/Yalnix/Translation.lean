import Yalnix.ForkLoop
import Yalnix.Lookaside

namespace Yalnix.Translation

open Loops Machine Accesses FreeList Layout ForkLoop Lookaside

def pageEntry (m : Memory) (pg : Nat) : Option Pte :=
  if pg < pageTableLen then
    match walk m pg with
    | .ok e => if e.valid then some e else none
    | .error _ => none
  else if pg < 2 * pageTableLen ∧ (m.region1Pt (pg - pageTableLen)).valid then some (m.region1Pt (pg - pageTableLen))
  else none

/-- The processor with its TLB, and the number of translations so far. -/
structure Cpu where
  mem : Memory
  tlb : Buffer Nat Pte
  accesses : Nat

/-- The frame behind a page. What the TLB goes on holding is up to `keep`, at each access anew. -/
def frameOf (keep : Nat → Nat → Bool) (pg : Nat) (c : Cpu) : Except Fault (Nat × Cpu) :=
  match serve (pageEntry c.mem) c.tlb pg with
  | some e =>
      if e.pfn.toNat < c.mem.numPages then
        .ok (e.pfn.toNat, { c with
          tlb := served (keep c.accesses) (pageEntry c.mem) c.tlb pg, accesses := c.accesses + 1 })
      else .error .unmapped
  | none => .error .unmapped

def flushPages (s : Nat → Bool) (c : Cpu) : Cpu := { c with tlb := flush s c.tlb }

variable (keep : Nat → Nat → Bool)

def readPte (t : TablePtr) (i : Int) (c : Cpu) : Except Fault (Pte × Cpu) := do
  let i ← index i pageTableLen
  match t with
  | .null => .error .nullDeref
  | .region0Pt => return (c.mem.region0Pt i, c)
  | .page pg => do
      let (f, c) ← frameOf keep pg c
      return (c.mem.frames f i, c)

def writePte (t : TablePtr) (i : Int) (e : Pte) (c : Cpu) : Except Fault Cpu := do
  let i ← index i pageTableLen
  match t with
  | .null => .error .nullDeref
  | .region0Pt => return { c with mem := { c.mem with region0Pt := put c.mem.region0Pt i e } }
  | .page pg => do
      let (f, c) ← frameOf keep pg c
      return { c with mem := writeWord c.mem f i e }

def mapPage (t : TablePtr) (uprot kprot : BitVec 3) (i : Int) (c : Cpu) : Except Fault Cpu := do
  let (e, c) ← readPte keep t i c
  let (page, m) := findFreePage c.mem
  writePte keep t i { e with valid := true, uprot, kprot, pfn := BitVec.ofInt 20 page } { c with mem := m }

def copyPage (borrowed page : Nat) (c : Cpu) : Except Fault Cpu := do
  let (source, c) ← frameOf keep page c
  let (dest, c) ← frameOf keep (pageTableLen + borrowed) c
  return { c with mem := { c.mem with frames := put c.mem.frames dest (c.mem.frames source) } }

def forkPage (parent child borrowed page : Nat) (c : Cpu) : Except Fault Cpu := do
  let (p, c) ← readPte keep (c.mem.space parent).region0 page c
  if p.valid then
    let c ← mapPage keep (c.mem.space child).region0 p.uprot p.kprot page c
    let (e, c) ← readPte keep (c.mem.space child).region0 page c
    let c ← copyPage keep borrowed page
      { c with mem := writeRegion1 c.mem borrowed { c.mem.region1Pt borrowed with pfn := e.pfn } }
    return flushPages (fun pg => pg = pageTableLen + borrowed) c
  else
    let (e, c) ← readPte keep (c.mem.space child).region0 page c
    writePte keep (c.mem.space child).region0 page { e with valid := false } c

/-- All of Region 1 is flushed when its entry is back, and all of Region 0 when REG_PTR0 is set. -/
def switchFork (parent child : Nat) (c : Cpu) : Except Fault Cpu := do
  let borrowed ← index (borrowR1Page c.mem) pageTableLen
  let saved := c.mem.region1Pt borrowed
  let c ← upTo (forkPage keep parent child borrowed) 0 pageTableLen
    { c with mem := writeRegion1 c.mem borrowed (AddressSpace.tempEntry saved) }
  let m ← AddressSpace.returnPage borrowed saved c.mem
  let c := flushPages (fun pg => pageTableLen ≤ pg) { c with mem := m }
  return flushPages (fun pg => pg < pageTableLen)
    { c with mem.regPtr0 := .page (pageTableLen + (c.mem.space child).freeVpn) }

variable {m m' : Memory} {c : Cpu} {t : TablePtr} {w wc : Word} {i : Int} {b f pg page : Nat} {e : Pte}

/-- The TLB holds what the tables say, and nothing for the borrowed page. -/
def Tracks (b : Nat) (c : Cpu) : Prop := Coherent (pageEntry c.mem) (fun pg => pg = pageTableLen + b) c.tlb

def MapsAlike (b : Nat) (m m' : Memory) : Prop := ∀ pg, pg ≠ pageTableLen + b → pageEntry m' pg = pageEntry m pg

theorem Tracks.update (h : Tracks b c) (hm : MapsAlike b c.mem m') : Tracks b { c with mem := m' } := Coherent.update h hm

theorem frameOf_ok (h : Tracks b c) (he : pageEntry c.mem pg = some e) (hf : e.pfn.toNat < c.mem.numPages) :
    frameOf keep pg c = .ok (e.pfn.toNat, { c with
      tlb := served (keep c.accesses) (pageEntry c.mem) c.tlb pg, accesses := c.accesses + 1 }) := by
  unfold frameOf
  rw [Coherent.serve_eq h, he]
  exact if_pos hf

theorem kernelFrame_entry (h : kernelFrame m pg = .ok f) :
    ∃ e, pageEntry m pg = some e ∧ e.pfn.toNat = f ∧ f < m.numPages := by
  obtain ⟨⟨hlo, hhi⟩, hv, hf, hlt⟩ := kernelFrame_ok.1 h
  refine ⟨m.region1Pt (pg - pageTableLen), ?_, hf, hlt⟩
  unfold pageEntry
  rw [if_neg (by omega), if_pos ⟨hhi, hv⟩]

theorem userFrame_entry (h : userFrame m page = .ok f) :
    ∃ e, pageEntry m page = some e ∧ e.pfn.toNat = f ∧ f < m.numPages := by
  obtain ⟨e, he, h⟩ := bind_ok.1 h
  obtain ⟨⟨hpage, hv, hlt⟩, hf⟩ := ite_error_ok.1 h
  obtain rfl := Except.ok.inj hf
  refine ⟨e, ?_, rfl, hlt⟩
  unfold pageEntry
  rw [if_pos hpage, he]
  exact if_pos hv

theorem frameOf_tracks (h : Tracks b c) (hpg : pg ≠ pageTableLen + b)
    (he : ∃ e, pageEntry c.mem pg = some e ∧ e.pfn.toNat = f ∧ f < c.mem.numPages) :
    ∃ c', frameOf keep pg c = .ok (f, c') ∧ c'.mem = c.mem ∧ Tracks b c' := by
  obtain ⟨e, he, rfl, hlt⟩ := he
  exact ⟨_, frameOf_ok keep h he hlt, rfl, Coherent.served h hpg⟩

theorem MapsAlike.symm (h : MapsAlike b m m') : MapsAlike b m' m := fun pg hpg => (h pg hpg).symm

theorem MapsAlike.trans {m₁ m₂ m₃ : Memory} (h : MapsAlike b m₁ m₂) (h' : MapsAlike b m₂ m₃) : MapsAlike b m₁ m₃ :=
  fun pg hpg => (h' pg hpg).trans (h pg hpg)

theorem readPte_tracks (h : Tracks b c) (ht : ∀ pg, t = .page pg → pg ≠ pageTableLen + b)
    (hr : Machine.readPte c.mem t i = .ok e) :
    ∃ c', readPte keep t i c = .ok (e, c') ∧ c'.mem = c.mem ∧ Tracks b c' := by
  obtain ⟨j, hj, hr⟩ := bind_ok.1 hr
  unfold readPte
  rw [hj]
  cases t with
  | null => cases hr
  | region0Pt =>
      obtain rfl := Except.ok.inj hr
      exact ⟨c, rfl, rfl, h⟩
  | page pg =>
      obtain ⟨f, hf, hr⟩ := bind_ok.1 hr
      obtain rfl := Except.ok.inj hr
      obtain ⟨c', hc', hmem, htracks⟩ := frameOf_tracks keep h (ht pg rfl) (kernelFrame_entry hf)
      refine ⟨c', bind_ok.2 ⟨_, rfl, bind_ok.2 ⟨_, hc', ?_⟩⟩, hmem, htracks⟩
      rw [← hmem]
      rfl

theorem writePte_tracks (h : Tracks b c) (ht : ∀ pg, t = .page pg → pg ≠ pageTableLen + b)
    (hr : Machine.writePte t i e c.mem = .ok m') (hm : MapsAlike b c.mem m') :
    ∃ c', writePte keep t i e c = .ok c' ∧ c'.mem = m' ∧ Tracks b c' := by
  obtain ⟨j, hj, hr⟩ := bind_ok.1 hr
  unfold writePte
  rw [hj]
  cases t with
  | null => cases hr
  | region0Pt =>
      obtain rfl := Except.ok.inj hr
      exact ⟨_, rfl, rfl, h.update hm⟩
  | page pg =>
      obtain ⟨f, hf, hr⟩ := bind_ok.1 hr
      obtain rfl := Except.ok.inj hr
      obtain ⟨c', hc', hmem, htracks⟩ := frameOf_tracks keep h (ht pg rfl) (kernelFrame_entry hf)
      refine ⟨{ c' with mem := writeWord c'.mem f j e }, bind_ok.2 ⟨_, rfl, bind_ok.2 ⟨_, hc', rfl⟩⟩, ?_, ?_⟩
      · rw [hmem]
      · rw [← hmem] at hm
        exact htracks.update hm

theorem mapPage_tracks {uprot kprot : BitVec 3} (h : Tracks b c) (ht : ∀ pg, t = .page pg → pg ≠ pageTableLen + b)
    (hr : Machine.mapPage t uprot kprot i c.mem = .ok m') (hm : MapsAlike b c.mem m') :
    ∃ c', mapPage keep t uprot kprot i c = .ok c' ∧ c'.mem = m' ∧ Tracks b c' := by
  obtain ⟨e, he, hw⟩ := Accesses.mapPage_ok.1 hr
  obtain ⟨c₁, hc₁, hmem, h₁⟩ := readPte_tracks keep h ht he
  -- a mark is not a translation
  have hfind : MapsAlike b c₁.mem (findFreePage c.mem).2 := by
    rw [hmem]
    rcases findFreePage_list c.mem with ⟨f, l, -, hf⟩ | ⟨-, hf⟩
    · rw [hf]
      exact fun _ _ => rfl
    · rw [hf]
      exact fun _ _ => rfl
  have hm' : MapsAlike b (findFreePage c.mem).2 m' := by
    rw [hmem] at hfind
    exact hfind.symm.trans hm
  obtain ⟨c', hc', hmem', h'⟩ := writePte_tracks keep (h₁.update hfind) ht hw hm'
  refine ⟨c', bind_ok.2 ⟨_, hc₁, ?_⟩, hmem', h'⟩
  dsimp only
  rw [hmem]
  exact hc'

/-- The entry of the borrowed page is in the TLB after the copy, and goes with the flush. -/
theorem copyPage_tracks (h : Tracks b c) (hr : AddressSpace.copyPage b page c.mem = .ok m') (hm : MapsAlike b c.mem m') :
    ∃ c', copyPage keep b page c = .ok c' ∧ c'.mem = m' ∧
      Tracks b (flushPages (fun pg => pg = pageTableLen + b) c') := by
  obtain ⟨source, dest, hs, hd, rfl⟩ := copyPage_ok.1 hr
  have hpage : page < pageTableLen := by
    obtain ⟨e, -, hs⟩ := bind_ok.1 hs
    exact (ite_error_ok.1 hs).1.1
  obtain ⟨c₁, hc₁, hmem, h₁⟩ := frameOf_tracks keep h (by omega) (userFrame_entry hs)
  rw [← hmem] at hd
  obtain ⟨e, he, hf, hlt⟩ := kernelFrame_entry hd
  have hframe := frameOf_ok keep h₁ he (hf ▸ hlt)
  rw [hf] at hframe
  refine ⟨_, bind_ok.2 ⟨_, hc₁, bind_ok.2 ⟨_, hframe, rfl⟩⟩, ?_, ?_⟩
  · dsimp only
    rw [hmem]
  · have hcopy : MapsAlike b c₁.mem { c₁.mem with frames := put c₁.mem.frames dest (c₁.mem.frames source) } := by
      rw [hmem]
      exact hm
    exact (Coherent.served_flush h₁ fun q hq => decide_eq_true hq).update hcopy

theorem mapsAlike_of (hsel : Selects m w) (hsel' : Selects m' w) (hread : ∀ j, w.read m' j = w.read m j)
    (hregion1 : ∀ k, k ≠ b → m'.region1Pt k = m.region1Pt k) : MapsAlike b m m' := by
  intro pg hpg
  unfold pageEntry
  by_cases hlow : pg < pageTableLen
  · rw [if_pos hlow, if_pos hlow, hsel.walk, hsel'.walk, hread]
  · rw [if_neg hlow, if_neg hlow, hregion1 (pg - pageTableLen) (by omega)]

theorem mapPage_alike {uprot kprot : BitVec 3} (hsel : Selects m w) (hwc : Leads m t wc) (hne : w ≠ wc)
    (h : Machine.mapPage t uprot kprot i m = .ok m') : MapsAlike b m m' := by
  have hfixed := Fixed.mapPage h
  refine mapsAlike_of hsel (selects_congr hsel hfixed.regPtr0 hfixed.numPages) (fun k => ?_) fun k _ => ?_
  · obtain ⟨j, w', -, -, hw', ⟨f, l, -, rfl⟩ | ⟨-, rfl⟩⟩ := mapPage_cases h
    · obtain rfl := leads_unique hwc hw'
      rw [word_read_write_other hne]
      cases w <;> rfl
    · obtain rfl := leads_unique hwc hw'
      rw [word_read_write_other hne]
  · rw [mapPage_region1 h]

theorem region1_alike (hsel : Selects m w) : MapsAlike b m (writeRegion1 m b e) :=
  mapsAlike_of hsel (selects_congr hsel rfl rfl) (fun _ => by cases w <;> rfl) fun _ hk => put_of_ne hk ..

theorem forkPage_alike {parent child : Nat} (hsmall : m.numPages < 2 ^ 20) (hsel : Selects m w) (hkept : FreeCounter.Kept m w)
    (hwc : Leads m (m.space child).region0 wc) (hne : w ≠ wc)
    (h : AddressSpace.forkPage parent child b page m = .ok m') : MapsAlike b m m' := by
  have hfixed := Fixed.forkPage h
  have hsel' := selects_congr hsel hfixed.regPtr0 hfixed.numPages
  obtain ⟨w', wc', -, hwc', -, hcase⟩ := forkPage_ok hsmall h
  obtain rfl := leads_unique hwc hwc'
  rcases hcase with ⟨hv, f, l, source, hl, -, -, rfl⟩ | ⟨hv, rfl⟩
  · have hf : w ≠ .frame f := by
      rintro rfl
      have hfree := (head_free hl).2
      rw [hkept f rfl] at hfree
      cases hfree
    refine mapsAlike_of hsel hsel' (fun k => ?_) fun k hk => ?_
    · rw [word_read_copy hf]
      refine Eq.trans ?_ (word_read_write_other hne (take m f) page k
        { wc.read m page with valid := true, uprot := (w'.read m page).uprot, kprot := (w'.read m page).kprot, pfn := BitVec.ofInt 20 f })
      cases w <;> cases wc <;> rfl
    · refine (put_of_ne hk ..).trans ?_
      rw [word_write_region1]
      rfl
  · refine mapsAlike_of hsel hsel' (fun k => word_read_write_other hne ..) fun k _ => ?_
    rw [word_write_region1]

theorem forkPage_tracks {parent child : Nat} (h : Tracks b c) (hsmall : c.mem.numPages < 2 ^ 20) (hsel : Selects c.mem w)
    (hkept : FreeCounter.Kept c.mem w) (hwc : Leads c.mem (c.mem.space child).region0 wc) (hne : w ≠ wc)
    (hbw : ∀ pg, (c.mem.space parent).region0 = .page pg → pg ≠ pageTableLen + b)
    (hbc : ∀ pg, (c.mem.space child).region0 = .page pg → pg ≠ pageTableLen + b)
    (hr : AddressSpace.forkPage parent child b page c.mem = .ok m') :
    ∃ c', forkPage keep parent child b page c = .ok c' ∧ c'.mem = m' ∧ Tracks b c' := by
  have hall := forkPage_alike (b := b) hsmall hsel hkept hwc hne hr
  obtain ⟨p, hp, hr⟩ := bind_ok.1 hr
  obtain ⟨c₁, hc₁, hmem₁, h₁⟩ := readPte_tracks keep h hbw hp
  unfold forkPage
  rw [← hmem₁] at hr hall hwc hsel hbc
  simp only [hc₁, bind, Except.bind]
  split at hr
  case isTrue hv =>
    rw [if_pos hv]
    obtain ⟨m₂, hm₂, hr⟩ := bind_ok.1 hr
    obtain ⟨e, he, hr⟩ := bind_ok.1 hr
    have hmap := mapPage_alike (b := b) hsel hwc hne hm₂
    have hspace : m₂.space = c₁.mem.space := (Fixed.mapPage hm₂).space
    obtain ⟨c₂, hc₂, rfl, h₂⟩ := mapPage_tracks keep h₁ hbc hm₂ hmap
    rw [← hspace] at hbc
    obtain ⟨c₃, hc₃, hmem₃, h₃⟩ := readPte_tracks keep h₂ hbc he
    -- the frame of the child is put behind the borrowed page
    have hsel₂ := selects_congr hsel (Fixed.mapPage hm₂).regPtr0 (Fixed.mapPage hm₂).numPages
    have hborrow : MapsAlike b c₃.mem (writeRegion1 c₃.mem b { c₃.mem.region1Pt b with pfn := e.pfn }) := by
      rw [hmem₃]
      exact region1_alike hsel₂
    have hcopy : MapsAlike b (writeRegion1 c₃.mem b { c₃.mem.region1Pt b with pfn := e.pfn }) m' := by
      rw [hmem₃] at hborrow ⊢
      exact hborrow.symm.trans (hmap.symm.trans hall)
    rw [← hmem₃] at hr
    obtain ⟨c₄, hc₄, hmem₄, h₄⟩ := copyPage_tracks keep (h₃.update hborrow) hr hcopy
    refine ⟨flushPages (fun pg => pg = pageTableLen + b) c₄, ?_, hmem₄, h₄⟩
    simp only [hc₂, hc₃, hc₄]
    rfl
  case isFalse hv =>
    rw [if_neg hv]
    obtain ⟨e, he, hr⟩ := bind_ok.1 hr
    obtain ⟨c₂, hc₂, hmem₂, h₂⟩ := readPte_tracks keep h₁ hbc he
    rw [← hmem₂] at hr hall hbc
    obtain ⟨c₃, hc₃, hmem₃, h₃⟩ := writePte_tracks keep h₂ hbc hr hall
    refine ⟨c₃, ?_, hmem₃, h₃⟩
    simp only [hc₂]
    exact hc₃

def Current (c : Cpu) : Prop := ∀ pg e, c.tlb pg = some e → pageEntry c.mem pg = some e

theorem Current.tracks (h : Current c) (hb : borrowPage c.mem = some b) : Tracks b c := by
  intro pg e he
  refine ⟨h pg e he, ?_⟩
  rintro rfl
  have hentry := h _ e he
  unfold pageEntry at hentry
  rw [if_neg (by omega), if_neg] at hentry
  · cases hentry
  · rw [Nat.add_sub_cancel_left, (borrowPage_some hb).2]
    exact fun hv => nomatch hv.2

/-- Whatever the TLB keeps of the translations it has used, `SwitchFork` does what it does without
one, and leaves the TLB empty. -/
theorem switchFork_tracks {parent child : Nat} (hc : Current c) (hsmall : c.mem.numPages < 2 ^ 20) (hsel : Selects c.mem w)
    (hw : Leads c.mem (c.mem.space parent).region0 w) (hwc : Leads c.mem (c.mem.space child).region0 wc)
    (hkw : FreeCounter.Kept c.mem w) (hkc : FreeCounter.Kept c.mem wc) (hne : w ≠ wc)
    (hr : AddressSpace.switchFork parent child c.mem = .ok m') :
    ∃ c', switchFork keep parent child c = .ok c' ∧ c'.mem = m' ∧ ∀ pg, c'.tlb pg = none := by
  obtain ⟨b, hindex, hr⟩ := bind_ok.1 hr
  obtain ⟨u, hu, hr⟩ := bind_ok.1 hr
  obtain ⟨v, hv, hr⟩ := bind_ok.1 hr
  obtain rfl := Except.ok.inj hr
  have hb := borrowR1Page_ok hindex
  have hborrow (t : TablePtr) (w' : Word) (hl : Leads c.mem t w') (pg : Nat) (ht : t = .page pg) : pg ≠ pageTableLen + b := by
    rintro rfl
    exact borrowed_ne hb hl _ ht (Nat.add_sub_cancel_left ..)
  have hstart : Tracks b { c with mem := writeRegion1 c.mem b (AddressSpace.tempEntry (c.mem.region1Pt b)) } :=
    (hc.tracks hb).update (region1_alike hsel)
  have hround (i : Nat) (m m' : Memory) (x : Cpu) (hR : Copied c.mem w wc b i m ∧ x.mem = m ∧ Tracks b x)
      (hstep : AddressSpace.forkPage parent child b i m = .ok m') :
      ∃ x', forkPage keep parent child b i x = .ok x' ∧ Copied c.mem w wc b (i + 1) m' ∧ x'.mem = m' ∧ Tracks b x' := by
    obtain ⟨hcopied, rfl, htracks⟩ := hR
    have hfixed := hcopied.fixed
    have hkept : FreeCounter.Kept x.mem w := fun f hf => by rw [hcopied.takes.marks, hkw f hf, ite_self]
    have hwc' : Leads x.mem (x.mem.space child).region0 wc := by
      rw [hfixed.space]
      exact hcopied.leads hwc (borrowed_ne hb hwc)
    obtain ⟨x', hx', hmem, htracks'⟩ := forkPage_tracks keep htracks (hfixed.numPages ▸ hsmall)
      (selects_congr hsel hfixed.regPtr0 hfixed.numPages) hkept hwc' hne (hfixed.space ▸ hborrow _ _ hw)
      (hfixed.space ▸ hborrow _ _ hwc) hstep
    exact ⟨x', hx', forkPage_copied hsmall hw hwc hkw hkc (fun t v hl => borrowed_ne hb hl) hcopied hstep, hmem, htracks'⟩
  obtain ⟨c', hloop, -, rfl, -⟩ := upTo_simulation
    (fun i m x => Copied c.mem w wc b i m ∧ x.mem = m ∧ Tracks b x) (fun i m m' x _ _ => hround i m m' x)
    ⟨copied_start c.mem w wc b _, rfl, hstart⟩ hu
  refine ⟨_, bind_ok.2 ⟨b, hindex, bind_ok.2 ⟨c', hloop, bind_ok.2 ⟨v, hv, rfl⟩⟩⟩, rfl, fun pg => ?_⟩
  simp only [flushPages, flush]
  by_cases hpg : pg < pageTableLen <;> simp [hpg]

end Yalnix.Translation
