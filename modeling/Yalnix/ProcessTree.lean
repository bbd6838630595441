import Yalnix.Runs
import Yalnix.FamilyTree

namespace Yalnix.ProcessTree

open Loops Machine Processes Kernel Chains Forests FamilyTree Calls Boot Runs

inductive TreeEvent
  | fork (parent child : Nat)
  | exit (proc : Nat) (status : Int)
  | collect (proc : Nat)

def forkedBy (tr : List TreeEvent) (p : Nat) : List Nat :=
  tr.filterMap fun
    | .fork q c => if q = p then some c else none
    | _ => none

def exits (tr : List TreeEvent) : List (Nat × Int) :=
  tr.filterMap fun
    | .exit q status => some (q, status)
    | _ => none

def collects (tr : List TreeEvent) (p : Nat) : Nat :=
  tr.countP fun
    | .collect q => q == p
    | _ => false

def childExits (tr : List TreeEvent) (p : Nat) : List (Nat × Int) :=
  (exits tr).filter fun e => e.1 ∈ forkedBy tr p

def pending (tr : List TreeEvent) (p : Nat) : List (Nat × Int) := (childExits tr p).drop (collects tr p)

def liveKids (tr : List TreeEvent) (s : State) (p : Nat) : List Nat :=
  (forkedBy tr p).filter fun q => !s.exited q

/-- Runs of Fork and Exit calls. Between two calls the processor may go to any
process, with any memory and any queues. -/
inductive TreeRun (env : BootEnv) : List TreeEvent → State → Prop
  | boot {s : State} : kernelStart env = .ok s → TreeRun env [] s
  | dispatch {tr : List TreeEvent} {s t : State} :
      TreeRun env tr s → t.fam = s.fam → t.exited = s.exited → TreeRun env tr t
  | fork {tr : List TreeEvent} {s t : State} {info : LoadProgram.ExceptionInfo} :
      TreeRun env tr s → live s s.curr → forkFunc info s = .ok t →
      TreeRun env (tr ++ [.fork s.curr s.fam.count]) t
  | exit {tr : List TreeEvent} {s t : State} {info : LoadProgram.ExceptionInfo} {status : Int} :
      TreeRun env tr s → live s s.curr → exitFunc status info s = .ok t →
      TreeRun env (tr ++ [.exit s.curr status]) t

theorem forkedBy_fork (tr : List TreeEvent) (p q c : Nat) :
    forkedBy (tr ++ [.fork q c]) p = if q = p then forkedBy tr p ++ [c] else forkedBy tr p := by
  by_cases h : q = p <;> simp [forkedBy, h]

theorem forkedBy_exit (tr : List TreeEvent) (p q : Nat) (status : Int) :
    forkedBy (tr ++ [.exit q status]) p = forkedBy tr p := by
  simp [forkedBy]

theorem exits_fork (tr : List TreeEvent) (q c : Nat) : exits (tr ++ [.fork q c]) = exits tr := by
  simp [exits]

theorem exits_exit (tr : List TreeEvent) (q : Nat) (status : Int) :
    exits (tr ++ [.exit q status]) = exits tr ++ [(q, status)] := by
  simp [exits]

theorem forkedBy_collect (tr : List TreeEvent) (p q : Nat) : forkedBy (tr ++ [.collect q]) p = forkedBy tr p := by
  simp [forkedBy]

theorem exits_collect (tr : List TreeEvent) (q : Nat) : exits (tr ++ [.collect q]) = exits tr := by
  simp [exits]

theorem collects_fork (tr : List TreeEvent) (p q c : Nat) : collects (tr ++ [.fork q c]) p = collects tr p := by
  simp [collects]

theorem collects_exit (tr : List TreeEvent) (p q : Nat) (status : Int) :
    collects (tr ++ [.exit q status]) p = collects tr p := by
  simp [collects]

theorem collects_collect (tr : List TreeEvent) (p q : Nat) :
    collects (tr ++ [.collect q]) p = if q = p then collects tr p + 1 else collects tr p := by
  by_cases h : q = p <;> simp [collects, h]

/-- The forest that the links represent is the one the run has made. -/
structure Traced (tr : List TreeEvent) (s : State) (F : Forest) : Prop where
  represents : Represents s.fam F
  live_iff : ∀ p, F.live p ↔ live s p
  forked : ∀ p c, c ∈ forkedBy tr p → p < c ∧ c < F.born
  forker : ∀ p p' c, c ∈ forkedBy tr p → c ∈ forkedBy tr p' → p = p'
  exited : ∀ e ∈ exits tr, s.exited e.1 = true
  unborn : ∀ p, F.born ≤ p → s.exited p = false
  kids : ∀ p, F.live p → F.kids p = liveKids tr s p
  reports : ∀ p, F.live p → F.reports p = pending tr p
  collected : ∀ p, collects tr p ≤ (childExits tr p).length

variable {tr : List TreeEvent} {s t : State} {F : Forest} {env : BootEnv} {p q : Nat}

def bootForest : Forest :=
  Forest.spawn <| Forest.spawn <|
    ⟨0, fun _ => False, fun _ => [], fun _ => [], nofun, nofun, nofun, nofun, nofun⟩

theorem kernelStart_represents (h : kernelStart env = .ok s) (h₀ : env.raw.fam.parent 0 = none)
    (h₁ : env.raw.fam.parent 1 = none) : Represents s.fam bootForest := by
  obtain ⟨m, m₁, m₂, m₃, m₄, i, i', -, rfl⟩ := kernelStart_ok h
  have hempty : Represents (powerOn env).fam
      ⟨0, fun _ => False, fun _ => [], fun _ => [], nofun, nofun, nofun, nofun, nofun⟩ :=
    ⟨rfl, rfl, fun p hp => absurd hp (Nat.not_lt_zero p), nofun, nofun, fun _ => [], nofun, nofun, nofun, nofun,
      nofun, nofun⟩
  exact createPcb_root (createPcb_root hempty h₀) h₁

theorem bootForest_live (p : Nat) : bootForest.live p ↔ p < 2 := by
  simp only [bootForest, Forest.spawn, false_or]
  omega

theorem boot_traced (h : kernelStart env = .ok s) (h₀ : env.raw.fam.parent 0 = none)
    (h₁ : env.raw.fam.parent 1 = none) : Traced [] s bootForest := by
  have hrep := kernelStart_represents h h₀ h₁
  obtain ⟨m, m₁, m₂, m₃, m₄, i, i', -, rfl⟩ := kernelStart_ok h
  refine ⟨hrep, fun p => ?_, nofun, nofun, nofun, fun _ _ => rfl, fun p _ => ?_, fun p _ => ?_, fun p => ?_⟩
  · rw [bootForest_live]
    simp [live, powerOn, createPcb]
  · simp [bootForest, Forest.spawn, liveKids, forkedBy]
  · simp [bootForest, Forest.spawn, pending, childExits, exits]
  · simp [collects]

theorem traced_fork {info : LoadProgram.ExceptionInfo} (hs : Traced tr s F) (hcurr : live s s.curr)
    (h : forkFunc info s = .ok t) :
    ∃ hp, Traced (tr ++ [.fork s.curr s.fam.count]) t (F.fork s.curr hp) := by
  have hp := (hs.live_iff _).2 hcurr
  obtain ⟨m, m', fam, sched, -, -, hlink, -, rfl⟩ := forkFunc_ok h
  obtain ⟨fam', hfam, hrep, -, -⟩ := forkLinks_represents hs.represents hp
  obtain rfl := Except.ok.inj (hlink.symm.trans hfam)
  have hcount := hs.represents.count
  have hborn : fam.count = s.fam.count + 1 := by
    rw [hrep.count, hcount]
    rfl
  have hnot (p : Nat) : F.born ∉ forkedBy tr p := fun hc => Nat.lt_irrefl _ (hs.forked p _ hc).2
  have hchildless : forkedBy tr F.born = [] := List.eq_nil_iff_forall_not_mem.2 fun c hc => by
    have := hs.forked _ _ hc
    omega
  have hmem {p c : Nat} (hc : c ∈ forkedBy (tr ++ [.fork s.curr s.fam.count]) p) :
      c ∈ forkedBy tr p ∨ p = s.curr ∧ c = F.born := by
    rw [forkedBy_fork, hcount] at hc
    split at hc
    case isTrue he => simpa [he] using hc
    case isFalse => exact .inl hc
  have hkeep (p : Nat) : childExits (tr ++ [.fork s.curr s.fam.count]) p = childExits tr p := by
    rw [childExits, childExits, exits_fork]
    refine List.filter_congr fun e he => ?_
    have hne : e.1 ≠ F.born := fun h => by
      have := hs.exited e he
      rw [h, hs.unborn F.born (Nat.le_refl _)] at this
      cases this
    rw [forkedBy_fork, hcount]
    split <;> simp [hne]
  refine ⟨hp, hrep, ?_, ?_, ?_, ?_, ?_, ?_, ?_, ?_⟩
  · intro p
    have hnew := hs.unborn F.born (Nat.le_refl _)
    change F.live p ∨ p = F.born ↔ p < fam.count ∧ s.exited p = false
    rw [hs.live_iff, live, hborn]
    constructor
    · rintro (⟨hlt, he⟩ | rfl)
      · exact ⟨Nat.lt_succ_of_lt hlt, he⟩
      · exact ⟨by omega, hnew⟩
    · rintro ⟨hlt, he⟩
      rcases Nat.lt_succ_iff_lt_or_eq.1 hlt with hlt | rfl
      · exact .inl ⟨hlt, he⟩
      · exact .inr hcount
  · intro p c hc
    change p < c ∧ c < F.born + 1
    rcases hmem hc with hc | ⟨rfl, rfl⟩
    · have := hs.forked p c hc
      omega
    · have := F.born_of_live hp
      omega
  · intro p p' c hc hc'
    rcases hmem hc with hc | ⟨rfl, rfl⟩
    · rcases hmem hc' with hc' | ⟨-, rfl⟩
      · exact hs.forker p p' c hc hc'
      · exact absurd hc (hnot p)
    · rcases hmem hc' with hc' | ⟨rfl, -⟩
      · exact absurd hc' (hnot p')
      · rfl
  · rw [exits_fork]
    exact hs.exited
  · exact fun p hpb => hs.unborn p (Nat.le_of_succ_le hpb)
  · rintro p (hpl | rfl)
    · by_cases he : p = s.curr
      · subst he
        have hnew := hs.unborn F.born (Nat.le_refl _)
        rw [fork_kids_parent, hs.kids _ hp, liveKids, liveKids, forkedBy_fork, if_pos rfl, List.filter_append, hcount]
        simp [hnew]
      · rw [fork_kids hp hpl he, hs.kids p hpl, liveKids, liveKids, forkedBy_fork, if_neg (Ne.symm he)]
    · have hne : s.curr ≠ F.born := Nat.ne_of_lt (F.born_of_live hp)
      rw [fork_kids_child, liveKids, forkedBy_fork, if_neg hne, hchildless]
      rfl
  · rintro p (hpl | rfl)
    · rw [pending, hkeep, collects_fork, fork_reports hp hpl, hs.reports p hpl, pending]
    · rw [pending, hkeep, fork_reports_child, childExits, hchildless]
      simp
  · intro p
    rw [hkeep, collects_fork]
    exact hs.collected p

theorem traced_exit {info : LoadProgram.ExceptionInfo} {status : Int} (hs : Traced tr s F)
    (hcurr : live s s.curr) (h : exitFunc status info s = .ok t) :
    Traced (tr ++ [.exit s.curr status]) t (F.exit s.curr status) := by
  have hp := (hs.live_iff _).2 hcurr
  obtain ⟨woken, fam, sched, next, sched', mem, hlinks, -, -, -, rfl⟩ := exitFunc_ok h
  obtain ⟨woken', fam', hfam, hrep, -, -, -⟩ := exitLinks_represents hs.represents hp status
  obtain ⟨-, rfl⟩ := Prod.mk.inj (Except.ok.inj (hlinks.symm.trans hfam))
  have hcount : fam.count = s.fam.count := hrep.count.trans hs.represents.count.symm
  have hcurr_lt := F.born_of_live hp
  have hgrow (p : Nat) : childExits (tr ++ [.exit s.curr status]) p =
      childExits tr p ++ if s.curr ∈ forkedBy tr p then [(s.curr, status)] else [] := by
    rw [childExits, exits_exit, List.filter_append]
    simp only [forkedBy_exit, childExits]
    by_cases h : s.curr ∈ forkedBy tr p <;> simp [h]
  refine ⟨hrep, ?_, ?_, ?_, ?_, ?_, ?_, ?_, ?_⟩
  · intro p
    change F.live p ∧ p ≠ s.curr ↔ p < fam.count ∧ Function.update s.exited s.curr true p = false
    rw [hs.live_iff, live, hcount]
    by_cases he : p = s.curr <;> simp [he]
  · intro p c
    rw [forkedBy_exit]
    exact hs.forked p c
  · intro p p' c
    rw [forkedBy_exit, forkedBy_exit]
    exact hs.forker p p' c
  · intro e he
    change Function.update s.exited s.curr true e.1 = true
    rw [exits_exit, List.mem_append, List.mem_singleton] at he
    rcases he with he | rfl
    · by_cases h : e.1 = s.curr
      · rw [h, Function.update_self]
      · rw [Function.update_of_ne h]
        exact hs.exited e he
    · exact Function.update_self ..
  · intro p hpb
    change F.born ≤ p at hpb
    have hne : p ≠ s.curr := by omega
    exact (Function.update_of_ne hne ..).trans (hs.unborn p hpb)
  · rintro p ⟨hpl, -⟩
    change (F.kids p).erase s.curr = (forkedBy (tr ++ [.exit s.curr status]) p).filter
      fun q => !Function.update s.exited s.curr true q
    rw [(kids_nodup hpl).erase_eq_filter, hs.kids p hpl, liveKids, List.filter_filter, forkedBy_exit]
    refine List.filter_congr fun q _ => ?_
    by_cases h : q = s.curr <;> simp [h]
  · rintro p ⟨hpl, -⟩
    have hkid : s.curr ∈ F.kids p ↔ s.curr ∈ forkedBy tr p := by
      rw [hs.kids p hpl, liveKids, List.mem_filter, hcurr.2]
      simp
    change (if s.curr ∈ F.kids p then F.reports p ++ [(s.curr, status)] else F.reports p) = _
    rw [hs.reports p hpl, pending, pending, collects_exit, hgrow, List.drop_append_of_le_length (hs.collected p)]
    by_cases h : s.curr ∈ forkedBy tr p <;> simp [hkid, h]
  · intro p
    rw [collects_exit, hgrow, List.length_append]
    exact Nat.le_add_right_of_le (hs.collected p)

theorem traced_collect (hs : Traced tr s F) (hp : F.live p) (hne : F.reports p ≠ [])
    (hrep : Represents t.fam (F.collect p)) (he : t.exited = s.exited) :
    Traced (tr ++ [.collect p]) t (F.collect p) := by
  have hexits (q : Nat) : childExits (tr ++ [.collect p]) q = childExits tr q := by
    rw [childExits, exits_collect]
    simp only [forkedBy_collect]
    rfl
  have hcount : t.fam.count = s.fam.count := hrep.count.trans hs.represents.count.symm
  refine ⟨hrep, fun q => ?_, ?_, ?_, ?_, ?_, ?_, fun q hq => ?_, fun q => ?_⟩
  · change F.live q ↔ _
    rw [hs.live_iff, live, live, hcount, he]
  · simp only [forkedBy_collect]
    exact hs.forked
  · simp only [forkedBy_collect]
    exact hs.forker
  · rw [exits_collect, he]
    exact hs.exited
  · rw [he]
    exact hs.unborn
  · simp only [liveKids, forkedBy_collect, he]
    exact hs.kids
  · rw [pending, hexits, collects_collect]
    by_cases h : p = q
    · subst h
      rw [if_pos rfl]
      change Function.update F.reports p (F.reports p).tail p = _
      rw [Function.update_self, hs.reports p hp, pending, List.tail_drop]
    · rw [if_neg h]
      exact (Function.update_of_ne (Ne.symm h) ..).trans (hs.reports q hq)
  · rw [hexits, collects_collect]
    by_cases h : p = q
    · subst h
      rw [if_pos rfl]
      have := hs.collected p
      have hlt : 0 < (pending tr p).length := List.length_pos_iff.2 (hs.reports p hp ▸ hne)
      rw [pending, List.length_drop] at hlt
      omega
    · rw [if_neg h]
      exact hs.collected q

theorem traced_congr (hs : Traced tr s F) (hr : Represents t.fam F) (he : t.exited = s.exited) : Traced tr t F := by
  have hcount : t.fam.count = s.fam.count := hr.count.trans hs.represents.count.symm
  refine ⟨hr, fun p => ?_, hs.forked, hs.forker, he ▸ hs.exited, he ▸ hs.unborn, ?_, hs.reports, hs.collected⟩
  · rw [hs.live_iff, live, live, hcount, he]
  · simpa only [liveKids, he] using hs.kids

/-- Every run of Fork and Exit calls leaves links that represent its forest. -/
theorem run_traced (h₀ : env.raw.fam.parent 0 = none) (h₁ : env.raw.fam.parent 1 = none)
    (h : TreeRun env tr s) : ∃ F, Traced tr s F := by
  induction h with
  | boot h => exact ⟨_, boot_traced h h₀ h₁⟩
  | dispatch _ hf he ih =>
      obtain ⟨F, hs⟩ := ih
      exact ⟨F, traced_congr hs (hf ▸ hs.represents) he⟩
  | fork _ hcurr h ih =>
      obtain ⟨F, hs⟩ := ih
      obtain ⟨_, ht⟩ := traced_fork hs hcurr h
      exact ⟨_, ht⟩
  | exit _ hcurr h ih =>
      obtain ⟨F, hs⟩ := ih
      exact ⟨_, traced_exit hs hcurr h⟩

theorem run_collects (h : TreeRun env tr s) (p : Nat) : collects tr p = 0 := by
  induction h with
  | boot => rfl
  | dispatch _ _ _ ih => exact ih
  | fork _ _ _ ih => rw [collects_fork, ih]
  | exit _ _ _ ih => rw [collects_exit, ih]

/-- What the pcb of a live process `p` says of its family after the run `tr`. -/
structure FamilyOf (tr : List TreeEvent) (s : State) (p : Nat) : Prop where
  members : ∀ q, q ∈ liveKids tr s p ↔ live s q ∧ s.fam.parent q = some p
  visited : Path s.fam.nextSibling (s.fam.childrenHead p) (liveKids tr s p) none
  once : (liveKids tr s p).Nodup
  tail : s.fam.childrenTail p = (liveKids tr s p).getLast?
  backward : Path s.fam.prevSibling (s.fam.childrenTail p) (liveKids tr s p).reverse none
  inverse : ∀ a ∈ liveKids tr s p, ∀ b ∈ liveKids tr s p, s.fam.nextSibling a = some b ↔ s.fam.prevSibling b = some a
  head_null : s.fam.childrenHead p = none ↔ liveKids tr s p = []
  tail_null : s.fam.childrenTail p = none ↔ liveKids tr s p = []
  reports : ∃ recs : List Nat, Path s.fam.records.next (s.fam.exitedChildrenHead p) recs none ∧ recs.Nodup ∧
    (∀ r ∈ recs, s.fam.records.freed r = false) ∧
    recs.map (fun r => (s.fam.records.processId r, s.fam.records.status r)) =
      (childExits tr p).map fun e => (s.fam.processId e.1, e.2)

/-- In every state of every run the links of each live process are those of its
live children and of its exited ones, and an orphan has no parent. -/
theorem run_family (h₀ : env.raw.fam.parent 0 = none) (h₁ : env.raw.fam.parent 1 = none)
    (h : TreeRun env tr s) :
    (∀ p, live s p → FamilyOf tr s p) ∧
      ∀ p q, q ∈ forkedBy tr p → live s q → ¬ live s p →
        s.fam.parent q = none ∧ ∀ r, live s r → q ∉ liveKids tr s r := by
  obtain ⟨F, hs⟩ := run_traced h₀ h₁ h
  have hr := hs.represents
  refine ⟨fun p hp => ?_, fun p q hq hlive hdead => ?_⟩
  · have hF := (hs.live_iff p).2 hp
    have hc := hr.children p hF
    rw [hs.kids p hF] at hc
    obtain ⟨recs, hrecs⟩ := hr.reports
    refine ⟨fun q => ?_, hc.forward, hc.nodup, hc.tail_eq, hc.backward, fun a ha b hb => hc.next_iff_prev ha hb, ?_, ?_,
      recs p, hrecs.path p hF, hrecs.nodup p hF, fun r hr => (hrecs.valid p hF r hr).2, ?_⟩
    · rw [← hs.kids p hF]
      constructor
      · intro hq
        have hqF := F.live_of_kid hF hq
        exact ⟨(hs.live_iff q).1 hqF, (hr.parent p q hqF).2 ⟨hF, hq⟩⟩
      · rintro ⟨hq, hpar⟩
        exact ((hr.parent p q ((hs.live_iff q).2 hq)).1 hpar).2
    · rw [hc.head_eq, List.head?_eq_none_iff]
    · rw [hc.tail_eq, List.getLast?_eq_none_iff]
    · rw [hrecs.content p hF, hs.reports p hF, pending, run_collects h, List.drop_zero]
      refine (List.map_id _).symm.trans (List.map_congr_left fun e he => ?_)
      have hlt := (hs.forked p e.1 (by simpa using (List.mem_filter.1 he).2)).2
      rw [hr.processId e.1 (hr.count ▸ hlt)]
      rfl
  · have hqF := (hs.live_iff q).2 hlive
    have hnot (r : Nat) (hrl : live s r) : q ∉ liveKids tr s r := fun hk => by
      obtain rfl := hs.forker r p q (List.mem_filter.1 hk).1 hq
      exact hdead hrl
    refine ⟨?_, hnot⟩
    cases hpar : s.fam.parent q with
    | none => rfl
    | some r =>
        obtain ⟨hrF, hk⟩ := (hr.parent r q hqF).1 hpar
        exact absurd (hs.kids r hrF ▸ hk) (hnot r ((hs.live_iff r).1 hrF))

theorem run_family_small : ∃ tr s, TreeRun smallBoot tr s ∧ live s 1 ∧ childExits tr 1 = [(2, 0)] ∧ FamilyOf tr s 1 := by
  obtain ⟨s₀, s₁, s₂, s₃, s₄, h, -⟩ := small_family
  obtain ⟨⟨out₁, u₁⟩, hfork, rfl⟩ := map_ok.1 h.fork.2
  obtain ⟨v₁, hv₁, hu₁⟩ := bind_ok.1 hfork
  obtain ⟨-, rfl⟩ := Prod.mk.inj (Except.ok.inj hu₁)
  obtain ⟨⟨out₃, u₃⟩, hexit, rfl⟩ := map_ok.1 h.exit.2
  obtain ⟨v₃, hv₃, hu₃⟩ := bind_ok.1 hexit
  obtain ⟨-, rfl⟩ := Prod.mk.inj (Except.ok.inj hu₃)
  obtain rfl := h.child_eq
  obtain ⟨hcurr₀, -, hcount, hlive₀⟩ := h.start
  obtain ⟨-, hcurr₁, -, hlive₁⟩ := h.forked
  have hrun : TreeRun smallBoot [.fork 1 2, .exit 2 0] v₃ := by
    have h₁ := TreeRun.fork (.boot h.boot) (hcurr₀ ▸ hlive₀) hv₁
    rw [hcurr₀, hcount] at h₁
    have h₂ := TreeRun.dispatch (t := { v₁ with mode := .user }) h₁ rfl rfl
    have h₃ := TreeRun.exit h₂ (hcurr₁ ▸ hlive₁) hv₃
    rwa [show State.curr { v₁ with mode := .user } = 2 from hcurr₁] at h₃
  exact ⟨_, v₃, hrun, h.exited.2.2, rfl, (run_family rfl rfl hrun).1 1 h.exited.2.2⟩

end Yalnix.ProcessTree
