import Yalnix.KernelHeap
import Yalnix.Translation

namespace Yalnix.BootMap

open Loops Machine AddressSpace Accesses Kernel KernelHeap Translation

variable {m m₀ m' : Memory} {pmemSize : BitVec 32} {k n page pg vaddr : Nat}

/-- The loop `for (vaddr = start; vaddr < limit; vaddr += PAGESIZE) body`, for `n` rounds at most. -/
def overAddresses (body : Nat → Memory → Except Fault Memory) (limit : Nat) : Nat → Nat → Memory → Except Fault Memory
  | 0, _, _ => .error .divergence
  | n + 1, vaddr, m =>
      if vaddr < limit then do
        let m ← body vaddr m
        overAddresses body limit n (toUlong (vaddr + pageSize : Nat)) m
      else return m

def initStackAt (vaddr : Nat) (m : Memory) : Except Fault Memory := do
  let page ← index (toInt (vaddr / pageSize : Nat)) pageTableLen
  initRegion0 page m

def initKernelAt (vaddr : Nat) (m : Memory) : Except Fault Memory := do
  let page ← index (toInt ((vaddr / pageSize : Nat) - (pageTableLen : Int))) pageTableLen
  initRegion1 page m

/-- `initPT` as it is written. The local `brk` has 32 bits. -/
def initPTByAddress (n : Nat) (m : Memory) : Except Fault Memory := do
  let m ← overAddresses initStackAt vmem1Base n (kernelStackBase * pageSize) m
  let brk := m.currKernelBrk % 2 ^ 32
  let m ← overAddresses initKernelAt brk n vmem1Base m
  return { m with regPtr0 := .region0Pt }

def upToPageStart (n : Nat) : Nat := (n + (pageSize - 1)) / pageSize * pageSize

/-- What `KernelStart` is called with, and where the kernel was linked and loaded. -/
structure Booted (pmemSize : BitVec 32) (m₀ : Memory) : Prop where
  region0 : m₀.region0Pt = fun _ => zeroPte
  region1 : m₀.region1Pt = fun _ => zeroPte
  etext_ge : vmem1Base ≤ m₀.cfg.etext
  etext_le : m₀.cfg.etext ≤ m₀.currKernelBrk
  brk_lt : m₀.currKernelBrk < vmem1Limit
  memory : m₀.currKernelBrk ≤ pmemSize.toNat / pageSize * pageSize

def physical (m : Memory) (vaddr : Nat) : Option Nat :=
  match pageEntry m (vaddr / pageSize) with
  | some e => if e.pfn.toNat < m.numPages then some (e.pfn.toNat * pageSize + vaddr % pageSize) else none
  | none => none

/-- The kernel in the page tables: its stack in Region 0, its text, data and heap in Region 1. -/
structure KernelMap (m₀ m : Memory) : Prop where
  stack : ∀ page < pageTableLen, (m.region0Pt page).valid = true ↔ kernelStackBase ≤ page
  kernel : ∀ page < pageTableLen, (m.region1Pt page).valid = true ↔ (pageTableLen + page) * pageSize < m₀.currKernelBrk
  entry : ∀ pg e, pageEntry m pg = some e → e.pfn.toNat = pg ∧ e.uprot = protNone ∧
    e.kprot = if vmem1Base ≤ pg * pageSize ∧ pg * pageSize < upToPageStart m₀.cfg.etext then protRead ||| protExec
      else protRead ||| protWrite
  used : ∀ f < m.numPages, m.freePages f = .pageUsed ↔ ∃ e, pageEntry m f = some e
  same : ∀ vaddr, kernelStackBase * pageSize ≤ vaddr → vaddr < m₀.currKernelBrk → physical m vaddr = some vaddr

theorem overAddresses_eq {body body' : Nat → Memory → Except Fault Memory} {base limit start fuel : Nat}
    (hbody : ∀ k m, start ≤ k → k < start + n → body ((base + k) * pageSize) m = body' k m)
    (hlt : ∀ k, k < start + n → (base + k) * pageSize < limit) (hlimit : limit ≤ (base + (start + n)) * pageSize)
    (hsmall : (base + (start + n)) * pageSize < 2 ^ 64) (hfuel : n < fuel) (m : Memory) :
    overAddresses body limit fuel ((base + start) * pageSize) m = upTo body' start n m := by
  induction n generalizing start fuel m with
  | zero =>
      obtain ⟨fuel, rfl⟩ := Nat.exists_eq_succ_of_ne_zero (Nat.ne_of_gt hfuel)
      exact if_neg (Nat.not_lt_of_le hlimit)
  | succ n ih =>
      obtain ⟨fuel, rfl⟩ := Nat.exists_eq_succ_of_ne_zero (Nat.ne_zero_of_lt hfuel)
      have hassoc : start + (n + 1) = start + 1 + n := by omega
      rw [hassoc] at hbody hlt hlimit hsmall
      have hnext : (base + start) * pageSize + pageSize = (base + (start + 1)) * pageSize := (Nat.succ_mul ..).symm
      have hlong : toUlong ((base + start) * pageSize + pageSize : Nat) = (base + (start + 1)) * pageSize := by
        rw [hnext]
        refine toUlong_nat (Nat.lt_of_le_of_lt (Nat.mul_le_mul_right _ ?_) hsmall)
        omega
      rw [overAddresses, if_pos (hlt start (by omega)), hbody start m (Nat.le_refl _) (by omega), upTo, hlong]
      refine congrArg (body' start m >>= ·) (funext fun u => ?_)
      exact ih (fun k v hk hkn => hbody k v (by omega) hkn) hlt hlimit hsmall (Nat.lt_of_succ_lt_succ hfuel) u

theorem initStackAt_page (hpage : page < pageTableLen) (m : Memory) :
    initStackAt (page * pageSize) m = initRegion0 page m := by
  have hdiv : page * pageSize / pageSize = page := Nat.mul_div_cancel _ (by decide)
  have hlt : (page : Int) < 2 ^ 31 := by
    simp only [pageTableLen] at hpage
    omega
  rw [initStackAt, hdiv, toInt_small (by omega) hlt, index_nat.2 hpage]
  exact ok_bind page fun page => initRegion0 page m

theorem initKernelAt_page (hpage : page < pageTableLen) (m : Memory) :
    initKernelAt ((pageTableLen + page) * pageSize) m = initRegion1 page m := by
  rw [initKernelAt, region1_index hpage]
  exact ok_bind page fun page => initRegion1 page m

/-- The cut to 32 bits loses nothing of a break in Region 1. -/
theorem brk_small (h : k < vmem1Limit) : k % 2 ^ 32 = k := by
  simp only [vmem1Limit, pageTableLen, pageSize] at h
  exact Nat.mod_eq_of_lt (by omega)

theorem kernelPages_le (h : k < vmem1Limit) : kernelPages k ≤ pageTableLen := by
  rw [kernelPages, brk_small h]
  simp only [vmem1Limit, vmem1Base, pageTableLen, pageSize] at *
  omega

theorem below_brk_iff (hl : vmem1Base ≤ k) (h : k < vmem1Limit) (page : Nat) :
    (pageTableLen + page) * pageSize < k ↔ page < kernelPages k := by
  rw [← under_kernelPages (Nat.le_of_lt h) hl, Under, vmem1Base, Nat.add_mul]

theorem stackLoop_eq (hn : pageTableLen < n) (m : Memory) :
    overAddresses initStackAt vmem1Base n (kernelStackBase * pageSize) m =
      upTo initRegion0 kernelStackBase kernelStackPages m := by
  have hend : kernelStackBase + kernelStackPages = pageTableLen := by decide
  have hbody : ∀ (k : Nat) (v : Memory), kernelStackBase ≤ k → k < kernelStackBase + kernelStackPages →
      initStackAt ((0 + k) * pageSize) v = initRegion0 k v := by
    intro k v _ hk
    rw [hend] at hk
    rw [Nat.zero_add, initStackAt_page hk]
  have hlt : ∀ k, k < kernelStackBase + kernelStackPages → (0 + k) * pageSize < vmem1Base := by
    intro k hk
    rw [hend] at hk
    rw [Nat.zero_add, vmem1Base]
    exact Nat.mul_lt_mul_of_pos_right hk (by decide)
  have hloop := overAddresses_eq hbody hlt (by decide) (by decide) (Nat.lt_trans (by decide) hn) m
  rwa [Nat.zero_add] at hloop

theorem kernelLoop_eq (hl : vmem1Base ≤ k) (h : k < vmem1Limit) (hn : pageTableLen < n) (m : Memory) :
    overAddresses initKernelAt (k % 2 ^ 32) n vmem1Base m = upTo initRegion1 0 (kernelPages k) m := by
  have hpages := kernelPages_le h
  have hbody : ∀ (page : Nat) (v : Memory), 0 ≤ page → page < 0 + kernelPages k →
      initKernelAt ((pageTableLen + page) * pageSize) v = initRegion1 page v :=
    fun page v _ hpage => initKernelAt_page (by omega) v
  have hlt : ∀ page, page < 0 + kernelPages k → (pageTableLen + page) * pageSize < k :=
    fun page hpage => (below_brk_iff hl h page).2 (by omega)
  have hlimit : k ≤ (pageTableLen + (0 + kernelPages k)) * pageSize := by
    refine Nat.le_of_not_lt fun hover => ?_
    have := (below_brk_iff hl h _).1 hover
    omega
  have hsmall : (pageTableLen + (0 + kernelPages k)) * pageSize < 2 ^ 64 := by
    simp only [pageTableLen, pageSize] at hpages ⊢
    omega
  have hloop := overAddresses_eq hbody hlt hlimit hsmall (Nat.lt_of_le_of_lt hpages hn) m
  rw [Nat.add_zero, ← vmem1Base] at hloop
  rw [brk_small h, hloop]

theorem initPTByAddress_eq (hl : vmem1Base ≤ m.currKernelBrk) (h : m.currKernelBrk < vmem1Limit) (hn : pageTableLen < n) :
    initPTByAddress n m = initPT m := by
  rw [initPTByAddress, stackLoop_eq hn, initPT]
  refine bind_congr_ok fun v hv => ?_
  have hbrk : v.currKernelBrk = m.currKernelBrk := (Fixed.upTo (fun _ _ _ => Fixed.initRegion0) hv).currKernelBrk
  dsimp only
  rw [kernelLoop_eq (hbrk ▸ hl) (hbrk ▸ h) hn]

def entryAt (m : Memory) (pg : Nat) : Pte :=
  if pg < pageTableLen then m.region0Pt pg else m.region1Pt (pg - pageTableLen)

def kernelProt (etext pg : Nat) : BitVec 3 :=
  if pageTableLen ≤ pg ∧ (pg : Int) < upToPage etext then protRead ||| protExec else protRead ||| protWrite

def bootEntry (etext pg : Nat) : Pte := ⟨BitVec.ofNat 20 pg, 0, protNone, kernelProt etext pg, true⟩

/-- The pages from the kernel stack up to `k` are mapped, and no others. -/
structure Filled (m₀ : Memory) (k : Nat) (m : Memory) : Prop where
  fixed : Fixed m₀ m
  entry : ∀ pg < 2 * pageTableLen, entryAt m pg =
    if kernelStackBase ≤ pg ∧ pg < k then bootEntry m₀.cfg.etext pg else zeroPte
  mark : ∀ f, m.freePages f = if kernelStackBase ≤ f ∧ f < k then .pageUsed else .pageFree

namespace Filled

theorem unfilled (h : Filled m₀ k m) (hk : k < 2 * pageTableLen) : entryAt m k = zeroPte := by
  rw [h.entry k hk, if_neg fun hlt => Nat.lt_irrefl k hlt.2]

theorem fill (h : Filled m₀ k m) (hk : kernelStackBase ≤ k) (hfix : Fixed m m')
    (hself : entryAt m' k = bootEntry m₀.cfg.etext k)
    (hother : ∀ pg < 2 * pageTableLen, pg ≠ k → entryAt m' pg = entryAt m pg)
    (hmark : m'.freePages = put m.freePages k .pageUsed) : Filled m₀ (k + 1) m' := by
  refine ⟨h.fixed.trans hfix, fun pg hpg => ?_, fun f => ?_⟩
  · by_cases he : pg = k
    · subst he
      rw [hself, if_pos ⟨hk, Nat.lt_succ_self pg⟩]
    · rw [hother pg hpg he, h.entry pg hpg]
      refine if_congr (and_congr_right fun _ => ?_) rfl rfl
      omega
  · rw [hmark, put_apply, h.mark f]
    split
    case isTrue he => rw [if_pos ⟨he ▸ hk, he ▸ Nat.lt_succ_self k⟩]
    case isFalse he =>
      refine if_congr (and_congr_right fun _ => ?_) rfl rfl
      omega

theorem initRegion0 (h : Filled m₀ page m) (hl : kernelStackBase ≤ page) (hp : page < pageTableLen)
    (hframe : page < m₀.numPages) : ∃ m', initRegion0 page m = .ok m' ∧ Filled m₀ (page + 1) m' := by
  have hzero : m.region0Pt page = zeroPte := by
    have := h.unfilled (Nat.lt_of_lt_of_le hp (Nat.le_mul_of_pos_left _ (by decide)))
    rwa [entryAt, if_pos hp] at this
  have hindex : index page m.numPages = .ok page := index_nat.2 (h.fixed.numPages ▸ hframe)
  have hok : AddressSpace.initRegion0 page m = .ok { setMark m page .pageUsed with
      region0Pt := put m.region0Pt page { m.region0Pt page with
        pfn := BitVec.ofNat 20 page, uprot := protNone, kprot := protRead ||| protWrite, valid := true }
      numFreePages := m.numFreePages - 1 } := by
    rw [AddressSpace.initRegion0, hindex]
    rfl
  have hnot : ¬ (pageTableLen ≤ page ∧ (page : Int) < upToPage m₀.cfg.etext) := fun hle => Nat.not_le_of_lt hp hle.1
  refine ⟨_, hok, h.fill hl (Fixed.initRegion0 hok) ?_ (fun pg _ hne => ?_) rfl⟩
  · rw [entryAt, if_pos hp, bootEntry, kernelProt, if_neg hnot]
    dsimp only
    rw [put_self, hzero]
    rfl
  · rw [entryAt, entryAt]
    dsimp only
    rw [put_of_ne hne]
    rfl

theorem initRegion1 (h : Filled m₀ (pageTableLen + page) m) (hp : page < pageTableLen)
    (hframe : pageTableLen + page < m₀.numPages) :
    ∃ m', initRegion1 page m = .ok m' ∧ Filled m₀ (pageTableLen + page + 1) m' := by
  have hnot : ¬ pageTableLen + page < pageTableLen := Nat.not_lt_of_le (Nat.le_add_right ..)
  have hzero : m.region1Pt page = zeroPte := by
    have := h.unfilled (by omega)
    rwa [entryAt, if_neg hnot, Nat.add_sub_cancel_left] at this
  have hindex : index ((pageTableLen : Int) + page) m.numPages = .ok (pageTableLen + page) := by
    have := index_nat.2 (h.fixed.numPages ▸ hframe : pageTableLen + page < m.numPages)
    rwa [Int.natCast_add] at this
  have hok : AddressSpace.initRegion1 page m = .ok (setMark (writeRegion1 m page { m.region1Pt page with
      pfn := BitVec.ofNat 20 (pageTableLen + page), uprot := protNone
      kprot := if (pageTableLen + page : Int) < upToPage m.cfg.etext then protRead ||| protExec else protRead ||| protWrite
      valid := true }) (pageTableLen + page) .pageUsed) := by
    rw [AddressSpace.initRegion1, index_nat.2 hp, ok_bind, hindex]
    rfl
  refine ⟨_, hok, h.fill (Nat.le_trans (by decide) (Nat.le_add_right ..)) (Fixed.initRegion1 hok) ?_ (fun pg _ hne => ?_) rfl⟩
  · have hself (e : Pte) : (writeRegion1 m page e).region1Pt page = e := region1_write_self ..
    have hprot : kernelProt m₀.cfg.etext (pageTableLen + page) =
        if (pageTableLen + page : Int) < upToPage m.cfg.etext then protRead ||| protExec else protRead ||| protWrite := by
      rw [kernelProt, h.fixed.cfg]
      refine if_congr ⟨fun hlt => hlt.2, fun hlt => ⟨Nat.le_add_right .., hlt⟩⟩ rfl rfl
    rw [entryAt, if_neg hnot, Nat.add_sub_cancel_left, bootEntry, hprot]
    refine (hself _).trans ?_
    rw [hzero]
    rfl
  · rw [entryAt, entryAt]
    by_cases hreg : pg < pageTableLen
    · rw [if_pos hreg, if_pos hreg]
      rfl
    · rw [if_neg hreg, if_neg hreg]
      have hk : pg - pageTableLen ≠ page := by omega
      dsimp only [setMark, writeRegion1]
      rw [put_of_ne hk]

end Filled

theorem build_filled (h : Booted pmemSize m₀) : Filled (buildFreePages pmemSize m₀) kernelStackBase (buildFreePages pmemSize m₀) := by
  refine ⟨.refl _, fun pg _ => ?_, fun f => ?_⟩
  · have hzero : entryAt (buildFreePages pmemSize m₀) pg = zeroPte := by
      have h0 : (buildFreePages pmemSize m₀).region0Pt pg = zeroPte := congrFun h.region0 pg
      have h1 : (buildFreePages pmemSize m₀).region1Pt (pg - pageTableLen) = zeroPte := congrFun h.region1 (pg - pageTableLen)
      rw [entryAt, h0, h1, ite_self]
    rw [hzero, if_neg fun hlt => Nat.not_lt_of_le hlt.1 hlt.2]
  · rw [if_neg fun hlt => Nat.not_lt_of_le hlt.1 hlt.2]
    rfl

theorem initPT_filled (h : Booted pmemSize m₀) : ∃ m, initPT (buildFreePages pmemSize m₀) = .ok { m with regPtr0 := .region0Pt } ∧
    Filled (buildFreePages pmemSize m₀) (pageTableLen + kernelPages m₀.currKernelBrk) m := by
  have hl : vmem1Base ≤ m₀.currKernelBrk := Nat.le_trans h.etext_ge h.etext_le
  have hframes : ∀ pg, pg * pageSize < m₀.currKernelBrk → pg < (buildFreePages pmemSize m₀).numPages :=
    fun pg hpg => Nat.lt_of_mul_lt_mul_right (Nat.lt_of_lt_of_le hpg h.memory)
  have hpages := kernelPages_le h.brk_lt
  have hend : kernelStackBase + kernelStackPages = pageTableLen := by decide
  obtain ⟨m₁, h₁, hfill₁⟩ := upTo_total (Filled (buildFreePages pmemSize m₀)) (fun page v hge hp hv => by
    rw [hend] at hp
    have hbelow : page * pageSize < vmem1Base := Nat.mul_lt_mul_of_pos_right hp (by decide)
    exact hv.initRegion0 hge hp (hframes page (Nat.lt_of_lt_of_le hbelow hl))) (build_filled h)
  rw [hend] at hfill₁
  have hbrk : m₁.currKernelBrk = m₀.currKernelBrk := hfill₁.fixed.currKernelBrk
  have hstep : ∀ (page : Nat) (v : Memory), 0 ≤ page → page < 0 + kernelPages m₀.currKernelBrk →
      Filled (buildFreePages pmemSize m₀) (pageTableLen + page) v →
        ∃ u, initRegion1 page v = .ok u ∧ Filled (buildFreePages pmemSize m₀) (pageTableLen + (page + 1)) u := by
    intro page v _ hp hv
    rw [Nat.zero_add] at hp
    exact hv.initRegion1 (Nat.lt_of_lt_of_le hp hpages) (hframes _ ((below_brk_iff hl h.brk_lt page).2 hp))
  obtain ⟨m₂, h₂, hfill₂⟩ := upTo_total (fun k v => Filled (buildFreePages pmemSize m₀) (pageTableLen + k) v) hstep hfill₁
  rw [Nat.zero_add] at hfill₂
  refine ⟨m₂, bind_ok.2 ⟨m₁, h₁, bind_ok.2 ⟨m₂, ?_, rfl⟩⟩, hfill₂⟩
  rw [hbrk, h₂]

theorem filled_iff (hl : vmem1Base ≤ k) (h : k < vmem1Limit) (pg : Nat) :
    kernelStackBase ≤ pg ∧ pg < pageTableLen + kernelPages k ↔ kernelStackBase ≤ pg ∧ pg * pageSize < k := by
  refine and_congr_right fun _ => ?_
  by_cases hpg : pg < pageTableLen
  · have hbelow : pg * pageSize < vmem1Base := Nat.mul_lt_mul_of_pos_right hpg (by decide)
    exact iff_of_true (Nat.lt_of_lt_of_le hpg (Nat.le_add_right ..)) (Nat.lt_of_lt_of_le hbelow hl)
  · obtain ⟨page, rfl⟩ := Nat.exists_eq_add_of_le (Nat.le_of_not_lt hpg)
    rw [below_brk_iff hl h, Nat.add_lt_add_iff_left]

theorem bootEntry_pfn (etext : Nat) (h : pg < 2 * pageTableLen) : (bootEntry etext pg).pfn.toNat = pg := by
  rw [bootEntry, BitVec.toNat_ofNat]
  apply Nat.mod_eq_of_lt
  simp only [pageTableLen] at h
  omega

theorem kernelProt_eq {etext : Nat} (h : etext ≤ vmem1Limit) (pg : Nat) :
    kernelProt etext pg = if vmem1Base ≤ pg * pageSize ∧ pg * pageSize < upToPageStart etext then protRead ||| protExec
      else protRead ||| protWrite := by
  have hpos : 0 < pageSize := by decide
  rw [kernelProt, upToPage_nat h, upToPageStart, vmem1Base]
  refine if_congr (and_congr ?_ ?_) rfl rfl
  · exact (Nat.mul_le_mul_right_iff hpos).symm
  · rw [Int.ofNat_lt, Nat.mul_lt_mul_right hpos]

theorem pageEntry_eq (hr : m.regPtr0 = .region0Pt) (h : pg < 2 * pageTableLen) :
    pageEntry m pg = if (entryAt m pg).valid then some (entryAt m pg) else none := by
  rw [pageEntry, entryAt, walk, hr]
  by_cases hpg : pg < pageTableLen
  · simp only [if_pos hpg]
  · simp only [if_neg hpg, h, true_and]

theorem pageEntry_lt {e : Pte} (h : pageEntry m pg = some e) : pg < 2 * pageTableLen := by
  refine Nat.lt_of_not_le fun hle => ?_
  have hlow : ¬ pg < pageTableLen := by omega
  rw [pageEntry, if_neg hlow, if_neg fun hlt => Nat.not_lt_of_le hle hlt.1] at h
  cases h

structure Entries (m₀ m : Memory) : Prop where
  entry : ∀ pg < 2 * pageTableLen, pageEntry m pg =
    if kernelStackBase ≤ pg ∧ pg * pageSize < m₀.currKernelBrk then some (bootEntry m₀.cfg.etext pg) else none
  region0 : ∀ page < pageTableLen, (m.region0Pt page).valid = true ↔ ∃ e, pageEntry m page = some e
  region1 : ∀ page < pageTableLen, (m.region1Pt page).valid = true ↔ ∃ e, pageEntry m (pageTableLen + page) = some e
  mark : ∀ f, m.freePages f = .pageUsed ↔ kernelStackBase ≤ f ∧ f * pageSize < m₀.currKernelBrk
  frames : ∀ pg, pg * pageSize < m₀.currKernelBrk → pg < m.numPages

theorem Filled.entries (h : Booted pmemSize m₀)
    (hf : Filled (buildFreePages pmemSize m₀) (pageTableLen + kernelPages m₀.currKernelBrk) m) :
    Entries m₀ { m with regPtr0 := .region0Pt } := by
  have hl : vmem1Base ≤ m₀.currKernelBrk := Nat.le_trans h.etext_ge h.etext_le
  have hvalid : ∀ pg < 2 * pageTableLen, (entryAt m pg).valid = true ↔
      ∃ e, pageEntry { m with regPtr0 := .region0Pt } pg = some e := by
    intro pg hpg
    rw [pageEntry_eq rfl hpg]
    change _ ↔ ∃ e, (if (entryAt m pg).valid then some (entryAt m pg) else none) = some e
    by_cases hv : (entryAt m pg).valid = true
    · rw [if_pos hv]
      exact iff_of_true hv ⟨_, rfl⟩
    · rw [if_neg hv]
      exact iff_of_false hv fun ⟨_, he⟩ => nomatch he
  refine ⟨fun pg hpg => ?_, fun page hpage => ?_, fun page hpage => ?_, fun f => ?_, fun pg hpg => ?_⟩
  · rw [pageEntry_eq rfl hpg]
    change (if (entryAt m pg).valid then some (entryAt m pg) else none) = _
    rw [hf.entry pg hpg]
    by_cases hin : kernelStackBase ≤ pg ∧ pg * pageSize < m₀.currKernelBrk
    · rw [if_pos hin, if_pos ((filled_iff hl h.brk_lt pg).2 hin)]
      rfl
    · rw [if_neg hin, if_neg fun hlt => hin ((filled_iff hl h.brk_lt pg).1 hlt)]
      rfl
  · have := hvalid page (by omega)
    rwa [entryAt, if_pos hpage] at this
  · have := hvalid (pageTableLen + page) (by omega)
    rwa [entryAt, if_neg (by omega), Nat.add_sub_cancel_left] at this
  · rw [← filled_iff hl h.brk_lt]
    change m.freePages f = .pageUsed ↔ _
    rw [hf.mark f]
    split
    case isTrue hin => exact iff_of_true rfl hin
    case isFalse hout => exact iff_of_false (fun he => nomatch he) hout
  · have hpages : m.numPages = pmemSize.toNat / pageSize := hf.fixed.numPages
    change pg < m.numPages
    rw [hpages]
    exact Nat.lt_of_mul_lt_mul_right (Nat.lt_of_lt_of_le hpg h.memory)

theorem Entries.some_iff (h : Entries m₀ m) (hb : m₀.currKernelBrk < vmem1Limit) (pg : Nat) :
    (∃ e, pageEntry m pg = some e) ↔ kernelStackBase ≤ pg ∧ pg * pageSize < m₀.currKernelBrk := by
  constructor
  · rintro ⟨e, he⟩
    refine Decidable.byContradiction fun hout => ?_
    rw [h.entry pg (pageEntry_lt he), if_neg hout] at he
    cases he
  · intro hin
    have hpg : pg < 2 * pageTableLen := Nat.lt_of_mul_lt_mul_right (Nat.lt_trans hin.2 hb)
    exact ⟨_, (h.entry pg hpg).trans (if_pos hin)⟩

theorem Entries.entry_eq (h : Entries m₀ m) {e : Pte} (he : pageEntry m pg = some e) :
    e = bootEntry m₀.cfg.etext pg := by
  rw [h.entry pg (pageEntry_lt he)] at he
  split at he
  case isTrue => exact (Option.some.inj he).symm
  case isFalse => cases he

theorem Entries.physical (h : Entries m₀ m) (hb : m₀.currKernelBrk < vmem1Limit) (hlo : kernelStackBase * pageSize ≤ vaddr)
    (hhi : vaddr < m₀.currKernelBrk) : physical m vaddr = some vaddr := by
  have hstart : vaddr / pageSize * pageSize ≤ vaddr := Nat.div_mul_le_self ..
  have hpage : kernelStackBase ≤ vaddr / pageSize := (Nat.le_div_iff_mul_le (by decide)).2 hlo
  have hin : vaddr / pageSize * pageSize < m₀.currKernelBrk := Nat.lt_of_le_of_lt hstart hhi
  obtain ⟨e, he⟩ := (h.some_iff hb (vaddr / pageSize)).2 ⟨hpage, hin⟩
  have hpfn : e.pfn.toNat = vaddr / pageSize := by
    rw [h.entry_eq he]
    exact bootEntry_pfn _ (pageEntry_lt he)
  rw [BootMap.physical, he]
  dsimp only
  rw [hpfn, if_pos (h.frames _ hin), Nat.div_add_mod']

theorem Entries.kernelMap (h : Entries m₀ m) (hb : Booted pmemSize m₀) : KernelMap m₀ m := by
  have hl : vmem1Base ≤ m₀.currKernelBrk := Nat.le_trans hb.etext_ge hb.etext_le
  refine ⟨fun page hpage => ?_, fun page hpage => ?_, fun pg e he => ?_, fun f _ => ?_, fun vaddr hlo hhi => ?_⟩
  · rw [h.region0 page hpage, h.some_iff hb.brk_lt]
    have hbelow : page * pageSize < vmem1Base := Nat.mul_lt_mul_of_pos_right hpage (by decide)
    exact and_iff_left (Nat.lt_of_lt_of_le hbelow hl)
  · rw [h.region1 page hpage, h.some_iff hb.brk_lt]
    exact and_iff_right (Nat.le_trans (by decide) (Nat.le_add_right ..))
  · rw [h.entry_eq he, ← kernelProt_eq (Nat.le_trans hb.etext_le (Nat.le_of_lt hb.brk_lt))]
    exact ⟨bootEntry_pfn _ (pageEntry_lt he), rfl, rfl⟩
  · rw [h.mark f, h.some_iff hb.brk_lt]
  · exact h.physical hb.brk_lt hlo hhi

/-- `initPT` runs to its end on any memory and any kernel that fits in it, and
what it leaves maps the kernel to where it already is. -/
theorem boot_maps_kernel (h : Booted pmemSize m₀) (hn : pageTableLen < n) :
    ∃ m, initPTByAddress n (buildFreePages pmemSize m₀) = .ok m ∧ initPT (buildFreePages pmemSize m₀) = .ok m ∧
      KernelMap m₀ m := by
  obtain ⟨m, hinit, hfill⟩ := initPT_filled h
  have hl : vmem1Base ≤ (buildFreePages pmemSize m₀).currKernelBrk := Nat.le_trans h.etext_ge h.etext_le
  exact ⟨_, (initPTByAddress_eq hl h.brk_lt hn).trans hinit, hinit, (hfill.entries h).kernelMap h⟩

/-- A kernel of one page, of which the first fifty bytes are text. -/
def smallKernel : Memory :=
  { FreeCounter.rawMemory (vmem1Base + 100) with cfg := ⟨kernelStackBase, vmem1Base + 50, vmem1Base + 60⟩ }

theorem boot_maps_small : ∃ m, initPT (buildFreePages FreeCounter.smallPmem smallKernel) = .ok m ∧ KernelMap smallKernel m := by
  have hboot : Booted FreeCounter.smallPmem smallKernel := ⟨rfl, rfl, by decide, by decide, by decide, by decide⟩
  obtain ⟨m, -, hinit, hmap⟩ := boot_maps_kernel hboot (Nat.lt_succ_self pageTableLen)
  exact ⟨m, hinit, hmap⟩

end Yalnix.BootMap
