import Yalnix.Bytes
import Yalnix.Layout
import Mathlib.Tactic.IntervalCases

namespace Yalnix.Arguments

open Loops Machine AddressSpace LoadProgram Accesses FreeList Layout Bytes

variable {m m' u : Memory} {t : TablePtr} {w : Word} {b : Image} {a j k n start stop : Nat} {x : BitVec 8}
  {l : List (Nat × BitVec 8)} {args : List (List (BitVec 8))}

def Pte.byte (w : Pte) (k : Nat) : BitVec 8 := w.toBits.extractLsb' (8 * k) 8

theorem toBits_ofBits (v : BitVec 32) : (Pte.ofBits v).toBits = v := by
  apply BitVec.eq_of_getLsbD_eq
  intro i hi
  simp only [Pte.ofBits, Pte.toBits, BitVec.getLsbD_append, BitVec.getLsbD_extractLsb', BitVec.getLsbD_ofBool]
  interval_cases i <;> simp

theorem byte_setByte (e : Pte) (hk : k < 4) (hn : n < 4) (x : BitVec 8) :
    Pte.byte (e.setByte k x) n = if n = k then x else Pte.byte e n := by
  rw [Pte.byte, Pte.byte, Pte.setByte, toBits_ofBits]
  apply BitVec.eq_of_getLsbD_eq
  intro i hi
  interval_cases k <;> interval_cases n <;> interval_cases i <;> simp

def userByte (m : Memory) (w : Word) (a : Nat) : BitVec 8 :=
  Pte.byte (m.frames (w.read m (a / pageSize)).pfn.toNat (a % pageSize / 4)) (a % 4)

def Separate (m : Memory) (w : Word) (start stop : Nat) : Prop :=
  ∀ j, start ≤ j → j < stop → ∀ k, start ≤ k → k < stop →
    (w.read m j).pfn.toNat < m.numPages → (w.read m j).pfn = (w.read m k).pfn → j = k

/-- On these pages the table maps the image. -/
def Views (m : Memory) (w : Word) (start stop : Nat) (b : Image) : Prop :=
  ∀ a, start ≤ a / pageSize → a / pageSize < stop → userByte m w a = b a

theorem address_eq {a a' : Nat} (hp : a / pageSize = a' / pageSize) (hw : a % pageSize / 4 = a' % pageSize / 4)
    (hb : a % 4 = a' % 4) : a = a' := by
  simp only [pageSize] at hp hw
  omega

theorem userByte_store {f c : Nat} (hf : (w.read m (a / pageSize)).pfn.toNat = f)
    (hm : m' = writeWord m f (a % pageSize / 4) ((m.frames f (a % pageSize / 4)).setByte (a % 4) x))
    (hread : w.read m' (c / pageSize) = w.read m (c / pageSize))
    (hsep : (w.read m (c / pageSize)).pfn.toNat = f → a / pageSize = c / pageSize) :
    userByte m' w c = if c = a then x else userByte m w c := by
  rw [userByte, hread, hm]
  by_cases hca : c = a
  · rw [if_pos hca, hca, hf]
    simp only [writeWord, put_self]
    rw [byte_setByte _ (Nat.mod_lt _ (by decide)) (Nat.mod_lt _ (by decide)), if_pos rfl]
  · rw [if_neg hca, userByte]
    by_cases hp : (w.read m (c / pageSize)).pfn.toNat = f
    · have hpage := hsep hp
      rw [hp]
      simp only [writeWord, put_self]
      by_cases hw : c % pageSize / 4 = a % pageSize / 4
      · rw [hw, put_self, byte_setByte _ (Nat.mod_lt _ (by decide)) (Nat.mod_lt _ (by decide)),
          if_neg fun hb => hca (address_eq hpage.symm hw hb)]
      · rw [put_of_ne hw]
    · simp only [writeWord]
      rw [put_of_ne hp]

theorem storeByte_views (hg : Guarded w m) (hs : Separate m w start stop) (hv : Views m w start stop b)
    (ha : start ≤ a / pageSize ∧ a / pageSize < stop) (h : storeByte a x m = .ok m') :
    Views m' w start stop (Function.update b a x) := by
  intro c hc hc'
  have hread := (storeByte_stored hg h).read
  obtain ⟨-, -, hpfn, -, hm⟩ := storeByte_ok hg h
  have hsep (hp : (w.read m (c / pageSize)).pfn.toNat = (w.read m (a / pageSize)).pfn.toNat) : a / pageSize = c / pageSize :=
    hs _ ha.1 ha.2 _ hc hc' hpfn (BitVec.eq_of_toNat_eq hp.symm)
  rw [userByte_store rfl hm (hread ..) hsep, Function.update_apply, hv c hc hc']

def storeAll : List (Nat × BitVec 8) → Memory → Except Fault Memory
  | [], m => .ok m
  | x :: l, m => do
      let m ← storeByte x.1 x.2 m
      storeAll l m

theorem storeAll_append (l l' : List (Nat × BitVec 8)) : storeAll (l ++ l') = fun m => storeAll l m >>= storeAll l' := by
  funext m
  induction l generalizing m with
  | nil => rfl
  | cons x l ih =>
      simp only [List.cons_append, storeAll]
      cases h : storeByte x.1 x.2 m with
      | error e => rfl
      | ok u => exact ih u

theorem storeBytes_eq (a : Nat) (xs : List (BitVec 8)) (m : Memory) : storeBytes a xs m = storeAll (bytesAt a xs) m := by
  induction xs generalizing a m with
  | nil => rfl
  | cons x xs ih =>
      simp only [storeBytes, bytesAt, storeAll]
      cases h : storeByte a x m with
      | error e => rfl
      | ok u => exact ih (a + 1) u

/-- On pages with frames of their own, stores are writes to the image. -/
theorem storeAll_views (hg : Guarded w m) (hs : Separate m w start stop) (hv : Views m w start stop b)
    (hl : Within l (start * pageSize) (stop * pageSize)) (h : storeAll l m = .ok m') :
    Stored w m m' ∧ Views m' w start stop (write b l) ∧
      ∀ y ∈ l, (w.read m (y.1 / pageSize)).valid = true ∧ (w.read m (y.1 / pageSize)).pfn.toNat < m.numPages := by
  induction l generalizing m b with
  | nil =>
      obtain rfl := Except.ok.inj h
      exact ⟨.refl w m, hv, fun y hy => absurd hy List.not_mem_nil⟩
  | cons y l ih =>
      obtain ⟨u, hu, h⟩ := bind_ok.1 h
      have hy : start ≤ y.1 / pageSize ∧ y.1 / pageSize < stop := by
        have := hl y List.mem_cons_self
        simp only [pageSize] at this ⊢
        omega
      have hst := storeByte_stored hg hu
      have hvu := storeByte_views hg hs hv hy hu
      have hsu : Separate u w start stop := by
        intro j hj hj' k hk hk' hlt he
        rw [hst.read] at hlt he
        rw [hst.read] at he
        exact hs j hj hj' k hk hk' (hst.fixed.numPages ▸ hlt) he
      obtain ⟨hst', hv', hmap⟩ := ih (hst.guarded hg) hsu hvu (fun z hz => hl z (List.mem_cons_of_mem _ hz)) h
      refine ⟨hst.trans hst', hv', fun z hz => ?_⟩
      rcases List.mem_cons.1 hz with rfl | hz
      · obtain ⟨-, hvalid, hlt, -⟩ := storeByte_ok hg hu
        exact ⟨hvalid, hlt⟩
      · have := hmap z hz
        rwa [hst.read, hst.fixed.numPages] at this

/-- The pointers from `cpp` on and the strings from `cp` on, as `copyArgs` stores them. -/
def argBlocks : List (List (BitVec 8)) → Nat → Nat → List (Nat × List (BitVec 8))
  | [], _, _ => []
  | s :: args, cpp, cp => (cpp, digits 8 cp) :: (cp, s ++ [0]) :: argBlocks args (cpp + 8) (cp + s.length + 1)

def stackBlocks (args : List (List (BitVec 8))) (cpp cp : Nat) : List (Nat × List (BitVec 8)) :=
  let q := cpp + 8 + 8 * args.length
  (cpp, digits 8 args.length) :: (argBlocks args (cpp + 8) cp ++ [(q, digits 8 0), (q + 8, digits 8 0), (q + 16, digits 8 0)])

def storeBlocks (ps : List (Nat × List (BitVec 8))) (m : Memory) : Except Fault Memory := storeAll (blockWrites ps) m

theorem storeBlocks_nil : storeBlocks [] = pure := rfl

theorem storeBlocks_cons (p : Nat × List (BitVec 8)) (ps : List (Nat × List (BitVec 8))) :
    storeBlocks (p :: ps) = fun m => storeBytes p.1 p.2 m >>= storeBlocks ps := by
  funext m
  simp only [storeBlocks, blockWrites, List.flatMap_cons, storeAll_append, storeBytes_eq]
  rfl

theorem storeBlocks_append (ps qs : List (Nat × List (BitVec 8))) :
    storeBlocks (ps ++ qs) = fun m => storeBlocks ps m >>= storeBlocks qs := by
  funext m
  simp only [storeBlocks, blockWrites, List.flatMap_append, storeAll_append]
  rfl

theorem copyArgs_eq (args : List (List (BitVec 8))) (cpp cp : Nat) (m : Memory) :
    copyArgs args cpp cp m = storeBlocks (argBlocks args cpp cp) m >>= fun u => .ok (cpp + 8 * args.length, u) := by
  induction args generalizing cpp cp m with
  | nil => rfl
  | cons s args ih =>
      simp only [copyArgs, argBlocks, storeBlocks_cons, bind_assoc, ih, List.length_cons]
      rw [show cpp + 8 + 8 * args.length = cpp + 8 * (args.length + 1) by omega]
      rfl

theorem buildStack_eq (args : List (List (BitVec 8))) (z : Sizes) (m : Memory) :
    buildStack args z m = storeBlocks (stackBlocks args (toUlong z.cpp) (toUlong z.cp)) m := by
  simp only [buildStack, stackBlocks, storeBlocks_cons, storeBlocks_append, storeBlocks_nil, copyArgs_eq, bind_assoc,
    bind_pure]
  rfl

theorem argBlocks_place {p : Nat × List (BitVec 8)} {cpp cp : Nat} (h : p ∈ argBlocks args cpp cp) :
    cpp ≤ p.1 ∧ p.1 + p.2.length ≤ cpp + 8 * args.length ∨ cp ≤ p.1 ∧ p.1 + p.2.length ≤ cp + argsSize args := by
  induction args generalizing cpp cp with
  | nil => exact absurd h List.not_mem_nil
  | cons s args ih =>
      have hsize : argsSize (s :: args) = s.length + 1 + argsSize args := by simp [argsSize]
      rw [hsize, List.length_cons]
      rcases List.mem_cons.1 h with rfl | h
      · simp only [digits_length]
        omega
      · rcases List.mem_cons.1 h with rfl | h
        · simp only [List.length_append, List.length_singleton]
          omega
        · have := ih h
          omega

theorem argBlocks_disjoint {cpp cp : Nat} (hl : cpp + 8 * args.length ≤ cp) : (argBlocks args cpp cp).Pairwise NoOverlap := by
  induction args generalizing cpp cp with
  | nil => exact .nil
  | cons s args ih =>
      rw [List.length_cons] at hl
      refine .cons (fun p hp => ?_) (.cons (fun p hp => ?_) (ih (by omega)))
      · simp only [NoOverlap, digits_length]
        rcases List.mem_cons.1 hp with rfl | hp
        · dsimp only
          omega
        · have := argBlocks_place hp
          omega
      · simp only [NoOverlap, List.length_append, List.length_singleton]
        have := argBlocks_place hp
        omega

theorem stackBlocks_place {p : Nat × List (BitVec 8)} {cpp cp : Nat} (hl : cpp + 8 * (args.length + 4) ≤ cp)
    (h : p ∈ stackBlocks args cpp cp) : cpp ≤ p.1 ∧ p.1 + p.2.length ≤ cp + argsSize args := by
  simp only [stackBlocks, List.mem_cons, List.mem_append, List.not_mem_nil, or_false] at h
  rcases h with rfl | h | rfl | rfl | rfl
  · simp only [digits_length]
    omega
  · have := argBlocks_place h
    omega
  all_goals
    simp only [digits_length]
    omega

theorem stackBlocks_disjoint {cpp cp : Nat} (hl : cpp + 8 * (args.length + 4) ≤ cp) :
    (stackBlocks args cpp cp).Pairwise NoOverlap := by
  refine .cons (fun p hp => ?_) (List.pairwise_append.2 ⟨argBlocks_disjoint (by omega), ?_, fun p hp q hq => ?_⟩)
  · simp only [NoOverlap, digits_length]
    simp only [List.mem_append, List.mem_cons, List.not_mem_nil, or_false] at hp
    rcases hp with hp | rfl | rfl | rfl
    · have := argBlocks_place hp
      omega
    all_goals
      dsimp only
      omega
  · simp [NoOverlap, digits_length, List.pairwise_cons]
  · have := argBlocks_place hp
    simp only [List.mem_cons, List.not_mem_nil, or_false] at hq
    rcases hq with rfl | rfl | rfl
    all_goals
      simp only [NoOverlap, digits_length]
      omega

def strings (b : Image) (n : Nat) : Nat → Nat → Option (List (List (BitVec 8)))
  | 0, _ => some []
  | k + 1, p => do
      let s ← string b n (number b 8 p)
      let rest ← strings b n k (p + 8)
      return s :: rest

/-- argc, as many pointers to strings, a NULL, a NULL and a 0. -/
def decode (b : Image) (sp : Nat) : Option (List (List (BitVec 8))) :=
  let argc := number b 8 sp
  let q := sp + 8 + 8 * argc
  if number b 8 q = 0 ∧ number b 8 (q + 8) = 0 ∧ number b 8 (q + 16) = 0 then
    strings b (pageTableLen * pageSize) argc (sp + 8)
  else none

theorem strings_argBlocks {cpp cp : Nat} (h : ∀ p ∈ argBlocks args cpp cp, Holds b p.1 p.2) (hz : ∀ s ∈ args, 0 ∉ s)
    (hn : cp + argsSize args ≤ n) (hn' : n < 256 ^ 8) : strings b n args.length cpp = some args := by
  induction args generalizing cpp cp with
  | nil => rfl
  | cons s args ih =>
      have hp : Holds b cpp (digits 8 cp) := h _ List.mem_cons_self
      have hs : Holds b cp (s ++ [0]) := h _ (List.mem_cons_of_mem _ List.mem_cons_self)
      have hsize : argsSize (s :: args) = s.length + 1 + argsSize args := by simp [argsSize]
      rw [hsize] at hn
      rw [List.length_cons, strings, number_holds hp (by omega), string_holds hs (hz s List.mem_cons_self) (by omega),
        ih (fun p hp => h p (List.mem_cons_of_mem _ (List.mem_cons_of_mem _ hp))) (fun s hs => hz s (List.mem_cons_of_mem _ hs))
          (by omega)]
      rfl

theorem decode_stackBlocks {cpp cp : Nat} (h : ∀ p ∈ stackBlocks args cpp cp, Holds b p.1 p.2) (hz : ∀ s ∈ args, 0 ∉ s)
    (hn : cp + argsSize args ≤ pageTableLen * pageSize) : decode b cpp = some args := by
  have hlimit : pageTableLen * pageSize < 256 ^ 8 := by decide
  have hlen := length_le_size args
  have hargc : number b 8 cpp = args.length := number_holds (h _ List.mem_cons_self) (by omega)
  have hlast {q : Nat} (hq : (q, digits 8 0) ∈ stackBlocks args cpp cp) : number b 8 q = 0 := number_holds (h _ hq) (by decide)
  rw [decode, hargc, if_pos ⟨hlast (by simp [stackBlocks]), hlast (by simp [stackBlocks]), hlast (by simp [stackBlocks])⟩]
  exact strings_argBlocks (fun p hp => h p (List.mem_cons_of_mem _ (List.mem_append_left _ hp))) hz hn hlimit

theorem stack_place {cfg : Config} (li : LoadInfo) (hsize : argsSize args < 2 ^ 31)
    (hle : (sizes cfg li args).stackNpg.toNat ≤ cfg.userStackLimit) :
    ∃ sp cp : Nat, (sizes cfg li args).cpp = sp ∧ (sizes cfg li args).cp = cp ∧
      cp + argsSize args = cfg.userStackLimit * pageSize ∧ sp + 8 * (args.length + 4) ≤ cp ∧ sp % 8 = 0 ∧
      (sizes cfg li args).stackNpg = cfg.userStackLimit - (sp / pageSize : Nat) ∧ sp / pageSize < cfg.userStackLimit := by
  have hlen := length_le_size args
  have hnpg : (sizes cfg li args).stackNpg = toInt (cfg.userStackLimit - (sizes cfg li args).cpp / pageSize) := rfl
  have hcpp : (sizes cfg li args).cpp =
      (sizes cfg li args).cp - (sizes cfg li args).cp % 16 - (args.length + 4) * 8 := rfl
  have hcp : (sizes cfg li args).cp = cfg.userStackLimit * pageSize - argsSize args := rfl
  rw [toInt_small (by simp only [pageSize] at *; omega) (by simp only [pageSize] at *; omega)] at hnpg
  have hpos : 0 ≤ (sizes cfg li args).cpp := by
    simp only [pageSize] at *
    omega
  refine ⟨(sizes cfg li args).cpp.toNat, (sizes cfg li args).cp.toNat, ?_⟩
  simp only [pageSize] at *
  omega

theorem LaidOut.stack_pages {cfg : Config} {z : Sizes} {m₂ m₃ m₄ m₅ : Memory} {js ks ls : List Nat}
    (h : LaidOut w cfg z m m₂ m₃ m₄ m₅ js ks ls) (hz : z.stackNpg = cfg.userStackLimit - (n : Int))
    (hn : n < cfg.userStackLimit) :
    (∀ j, j ∈ ls ↔ n ≤ j ∧ j < cfg.userStackLimit) ∧ cfg.userStackLimit ≤ pageTableLen := by
  have hmem : ∀ j, j ∈ ls ↔ n ≤ j ∧ j < cfg.userStackLimit := by
    intro j
    rw [h.mem_stack]
    refine ⟨fun ⟨a, h₁, h₂⟩ => by omega, fun ⟨h₁, h₂⟩ => ⟨cfg.userStackLimit - 1 - j, by omega, by omega⟩⟩
  refine ⟨hmem, ?_⟩
  have := h.stack.lt (cfg.userStackLimit - 1) ((hmem _).2 (by omega))
  omega

theorem LaidOut.stack_fresh {cfg : Config} {z : Sizes} {m₂ m₃ m₄ m₅ : Memory} {js ks ls : List Nat}
    (h : LaidOut w cfg z m m₂ m₃ m₄ m₅ js ks ls) (hj : j ∈ ls) (hlt : (w.read m₅ j).pfn.toNat < m.numPages) :
    m.freePages (w.read m₅ j).pfn.toNat = .pageFree ∨ Released m w (w.read m₅ j).pfn.toNat := by
  have hn₂ := h.cleared.fixed.numPages
  have hn₃ := h.text.fixed.numPages.trans hn₂
  have hn₄ := h.data.fixed.numPages.trans hn₃
  have hfree := h.stack.free j hj (hn₄ ▸ hlt)
  rw [h.data.marks _ (hn₃ ▸ hlt), h.text.marks _ (hn₂ ▸ hlt), h.cleared.free] at hfree
  exact hfree.1.1

/-- The stack that a program starts with decodes to its arguments. -/
theorem args_round_trip {curr : Nat} {file : Option File} {info info' : ExceptionInfo}
    (h : loadProgram curr t file args info m = .ok (0, info', m')) (hz : ∀ s ∈ args, 0 ∉ s) (hsize : argsSize args < 2 ^ 31)
    (hsmall : m.numPages < 2 ^ 20) (hw : Leads m t w) (hsel : Selects m w)
    (hframe : ∀ f, w = .frame f → f < m.numPages ∧ m.freePages f = .pageUsed) (hapart : Apart m w) :
    decode (userByte m' w) info'.sp = some args ∧ info'.sp % 8 = 0 ∧ (m'.space curr).sp = info'.sp / pageSize ∧
      ∃ f li u cp, file = some f ∧ f.status = .success li ∧ buildStack args (sizes m.cfg li args) u = .ok m' ∧
        storeBlocks (stackBlocks args info'.sp cp) u = .ok m' ∧ info'.sp + 8 * (args.length + 4) ≤ cp ∧
        cp + argsSize args = m.cfg.userStackLimit * pageSize ∧
        ∀ x ∈ blockWrites (stackBlocks args info'.sp cp),
          (info'.sp ≤ x.1 ∧ x.1 < m.cfg.userStackLimit * pageSize) ∧
          let e := w.read m' (x.1 / pageSize)
          e.valid = true ∧ e.pfn.toNat < m.numPages ∧ (m.freePages e.pfn.toNat = .pageFree ∨ Released m w e.pfn.toNat) := by
  obtain ⟨f, li, m₂, m₃, m₄, m₅, u, js, ks, ls, rfl, hli, -, -, hl, hu, hbuild, hinfo⟩ :=
    loadProgram_stages h hsmall hw hsel hframe hapart
  obtain ⟨sp, cp, hcpp, hcp, hend, hblocks, halign, hnpg, hpage⟩ := stack_place li hsize hl.stack_le
  obtain ⟨hpages, hlimit⟩ := LaidOut.stack_pages hl hnpg hpage
  have hbound : m.cfg.userStackLimit * pageSize ≤ pageTableLen * pageSize := Nat.mul_le_mul_right _ hlimit
  have hsp : info'.sp = sp := by
    rw [hinfo, hcpp]
    exact toUlong_nat (by simp only [pageTableLen, pageSize] at hbound hend; omega)
  have hstore : storeBlocks (stackBlocks args sp cp) u = .ok m' := by
    rw [← hbuild, buildStack_eq, hcpp, hcp, toUlong_nat (by simp only [pageTableLen, pageSize] at hbound hend; omega),
      toUlong_nat (by simp only [pageTableLen, pageSize] at hbound hend; omega)]
  have hread (j : Nat) : (w.read u j).pfn = (w.read m₅ j).pfn := by
    rw [hu.read]
    split <;> rfl
  have hn : m₄.numPages = m.numPages :=
    (hl.data.fixed.numPages.trans hl.text.fixed.numPages).trans hl.cleared.fixed.numPages
  have hsep : Separate u w (sp / pageSize) m.cfg.userStackLimit := by
    intro j hj hj' k hk hk' hlt he
    rw [hread] at hlt he
    rw [hread] at he
    exact hl.stack.once j ((hpages j).2 ⟨hj, hj'⟩) k ((hpages k).2 ⟨hk, hk'⟩) (hn ▸ hu.numPages ▸ hlt) he
  have hwithin : ∀ x ∈ blockWrites (stackBlocks args sp cp), sp ≤ x.1 ∧ x.1 < m.cfg.userStackLimit * pageSize := by
    intro x hx
    obtain ⟨p, hp, h₁, h₂⟩ := blockWrites_mem hx
    have := stackBlocks_place hblocks hp
    omega
  obtain ⟨hstored, hviews, hmapped⟩ := storeAll_views hu.guarded hsep (fun _ _ _ => rfl)
    (fun x hx => ⟨Nat.le_trans (Nat.div_mul_le_self sp pageSize) (hwithin x hx).1, (hwithin x hx).2⟩) hstore
  rw [hsp]
  refine ⟨?_, halign, ?_, f, li, u, cp, rfl, hli, hbuild, hstore, hblocks, hend, fun x hx => ⟨hwithin x hx, ?_⟩⟩
  · refine decode_stackBlocks (fun p hp => ?_) hz (Nat.le_trans (Nat.le_of_eq hend) hbound)
    have := stackBlocks_place hblocks hp
    refine (holds_blocks (stackBlocks_disjoint hblocks) _ p hp).congr fun c hc hc' => hviews c ?_ ?_
    · exact Nat.div_le_div_right (by omega)
    · exact (Nat.div_lt_iff_lt_mul (by decide)).2 (by omega)
  · rw [hstored.fixed.space, hu.sp, newSp, hnpg,
      show (m.cfg.userStackLimit : Int) - (m.cfg.userStackLimit - (sp / pageSize : Nat)) = (sp / pageSize : Nat) by omega]
    exact toUlong_nat (by simp only [pageTableLen] at hlimit; omega)
  · obtain ⟨hvalid, hlt⟩ := hmapped x hx
    have hx' : x.1 / pageSize ∈ ls := by
      have := hwithin x hx
      rw [hpages]
      exact ⟨Nat.div_le_div_right this.1, (Nat.div_lt_iff_lt_mul (by decide)).2 this.2⟩
    rw [hstored.read]
    refine ⟨hvalid, hu.numPages ▸ hlt, ?_⟩
    rw [hread] at hlt ⊢
    exact (LaidOut.stack_fresh hl hx' (hu.numPages ▸ hlt)).imp_right (released_space ..).1

def emptyFile : File := ⟨.success ⟨0, 0, 0, 0⟩, some []⟩

def tableFile : File :=
  ⟨.success ⟨0, 80, 0, 0⟩, some (List.replicate 64 0 ++ [0, 2, 0, 182] ++ List.replicate 8 0 ++ [254, 1, 0, 176])⟩

/-- A call with two arguments; one with REG_PTR0 at another table; and one whose
table is in a free frame, with the user stack under page 20. -/
def smallCalls : Bool :=
  (yields (loadProgram 0 (.page 512) (some emptyFile) [[97, 98], []] zeroInfo (tableMemory (.page 512) 511 513))
    fun (r, _, _) => decide (r = 0)) &&
  (yields (loadProgram 0 (.page 512) (some emptyFile) [[97]] zeroInfo (tableMemory .region0Pt 511 513)) fun (r, info, m) =>
    decide (r = 0) && decide (decode (userByte m (.frame 512)) info.sp ≠ some [[97]])) &&
  (yields (loadProgram 0 (.page 512) (some tableFile) [] zeroInfo { tableMemory (.page 512) 512 513 with cfg := ⟨20, 0, 0⟩ })
    fun (r, info, m) => decide (r = 0) && decide (((Word.frame 512).read m (info.sp / pageSize)).pfn.toNat = 510))

theorem small_calls : smallCalls = true := by
  decide +kernel

theorem table_leads (regPtr0 : TablePtr) (free₁ free₂ : Nat) :
    Leads (tableMemory regPtr0 free₁ free₂) (.page 512) (.frame 512) :=
  .frame (kernelFrame_ok.2 ⟨⟨by decide, by decide⟩, rfl, rfl, (by decide : (512 : Nat) < 514)⟩)

theorem args_round_trip_small : ∃ info' m',
    loadProgram 0 (.page 512) (some emptyFile) [[97, 98], []] zeroInfo (tableMemory (.page 512) 511 513) = .ok (0, info', m') ∧
      decode (userByte m' (.frame 512)) info'.sp = some [[97, 98], []] := by
  have hsmall := small_calls
  simp only [smallCalls, Bool.and_eq_true, yields_iff, decide_eq_true_eq] at hsmall
  obtain ⟨⟨⟨⟨r, info', m'⟩, hload, rfl⟩, -⟩, -⟩ := hsmall
  refine ⟨info', m', hload, ?_⟩
  exact (args_round_trip hload (by decide) (by decide) (by decide : (514 : Nat) < 2 ^ 20) (table_leads _ _ _)
    (.frame rfl (by decide : (512 : Nat) < 514)) (fun f hf => by cases hf; exact ⟨(by decide : (512 : Nat) < 514), rfl⟩)
    (table_apart _ _ _)).1

/-- With REG_PTR0 at another table, the table that was given leads to a stack
without the argument. With the table in a free frame, the data of the program
can put the stack into a frame that the call did not map. -/
theorem args_elsewhere :
    (∃ m info' m', Leads m (.page 512) (.frame 512) ∧ m.freePages 512 = .pageUsed ∧ Apart m (.frame 512) ∧
      loadProgram 0 (.page 512) (some emptyFile) [[97]] zeroInfo m = .ok (0, info', m') ∧
      decode (userByte m' (.frame 512)) info'.sp ≠ some [[97]]) ∧
    ∃ m info' m', Leads m (.page 512) (.frame 512) ∧ Selects m (.frame 512) ∧ Apart m (.frame 512) ∧
      loadProgram 0 (.page 512) (some tableFile) [] zeroInfo m = .ok (0, info', m') ∧
      let p := ((Word.frame 512).read m' (info'.sp / pageSize)).pfn.toNat
      m.freePages p ≠ .pageFree ∧ ¬ Released m (.frame 512) p := by
  have hsmall := small_calls
  simp only [smallCalls, Bool.and_eq_true, yields_iff, decide_eq_true_eq] at hsmall
  obtain ⟨⟨-, ⟨r, info', m'⟩, hload, rfl, hdecode⟩, ⟨r₁, info₁, m₁⟩, hload₁, rfl, hpfn⟩ := hsmall
  refine ⟨⟨_, info', m', table_leads _ _ _, rfl, table_apart _ _ _, hload, hdecode⟩, _, info₁, m₁, ?_, ?_, ?_, hload₁, ?_⟩
  · exact leads_congr (table_leads (.page 512) 512 513) rfl fun _ _ => rfl
  · exact .frame rfl (by decide : (512 : Nat) < 514)
  · exact table_apart (.page 512) 512 513
  · dsimp only at hpfn ⊢
    rw [hpfn]
    refine ⟨nofun, ?_⟩
    rintro ⟨j, -, hv, -⟩
    cases hv

end Yalnix.Arguments
