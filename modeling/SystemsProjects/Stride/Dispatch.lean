import Mathlib.Data.List.Induction
import Mathlib.Data.List.Sort
import Mathlib.Order.Basic
import SystemsProjects.Stride.Proc

/-!
# What an iteration of the scheduler dispatches

The selection loop keeps `lowestPV = -1` as its "nothing found yet" mark and leaves `chosenProc`
alone when it finds nothing.  `scan_eq_select` separates the two: with a runnable process the choice
is `select`, a left fold over the runnable slots, and otherwise it is the previous `chosenProc`.
`leastFirst_select_iff` says when the fold finds the smallest pass value, and
`dispatchSafe_scheduler_iff` when one outer iteration does what a dispatch should.
-/

namespace SystemsProjects.Stride

/-! ## A minimum search with `-1` as its empty mark -/

section Select

variable {α : Type*} (pv : α → ℤ)

/-- The selection loop once a first candidate `a` has been taken. -/
def select (a : α) (l : List α) : α :=
  l.foldl (fun a p => if pv a = -1 ∨ pv p < pv a then p else a) a

theorem select_append_singleton (a : α) (l : List α) (p : α) :
    select pv a (l ++ [p]) =
      if pv (select pv a l) = -1 ∨ pv p < pv (select pv a l) then p else select pv a l := by
  unfold select
  rw [List.foldl_append]
  rfl

theorem select_mem (a : α) (l : List α) : select pv a l ∈ a :: l := by
  induction l using List.reverseRecOn with
  | nil => simp [select]
  | append_singleton l p ih =>
    rw [select_append_singleton]
    split_ifs
    · simp
    · rcases List.mem_cons.1 ih with h | h
      · exact List.mem_cons.2 (Or.inl h)
      · exact List.mem_cons_of_mem _ (List.mem_append_left _ h)

/-- A selected element with the mark `-1` as its value can only be the last one. -/
theorem select_eq_getLast_of_mark (a : α) (l : List α) (h : pv (select pv a l) = -1) :
    select pv a l = (a :: l).getLast (List.cons_ne_nil a l) := by
  induction l using List.reverseRecOn with
  | nil => rfl
  | append_singleton l p ih =>
    rw [select_append_singleton] at h ⊢
    split_ifs at h ⊢ with hp
    · simp
    · exact absurd (Or.inl h) hp

variable [LinearOrder α]

/-- `r` has the least value in `l`, and is the first of those that do. -/
def LeastFirst (r : α) (l : List α) : Prop :=
  r ∈ l ∧ ∀ y ∈ l, pv r < pv y ∨ pv r = pv y ∧ r ≤ y

/-- The mark `-1` is the least value of `l` and something stands behind an element that has it. -/
def MarkHit (l : List α) : Prop :=
  ∃ p ∈ l, ∃ q ∈ l, p < q ∧ pv p = -1 ∧ ∀ r ∈ l, -1 ≤ pv r

variable {pv}

theorem leastFirst_append_singleton_of_lt {r p : α} {l : List α} (h : LeastFirst pv r l)
    (hp : pv p < pv r) : LeastFirst pv p (l ++ [p]) := by
  refine ⟨by simp, fun y hy => ?_⟩
  rcases List.mem_append.1 hy with hy | hy
  · rcases h.2 y hy with hr | hr
    · exact Or.inl (hp.trans hr)
    · exact Or.inl (hr.1 ▸ hp)
  · obtain rfl := List.mem_singleton.1 hy
    exact Or.inr ⟨rfl, le_rfl⟩

theorem leastFirst_append_singleton_of_le {r p : α} {l : List α} (h : LeastFirst pv r l)
    (hp : pv r ≤ pv p) (hrp : r ≤ p) : LeastFirst pv r (l ++ [p]) := by
  refine ⟨List.mem_append_left _ h.1, fun y hy => ?_⟩
  rcases List.mem_append.1 hy with hy | hy
  · exact h.2 y hy
  · obtain rfl := List.mem_singleton.1 hy
    rcases hp.lt_or_eq with hlt | heq
    · exact Or.inl hlt
    · exact Or.inr ⟨heq, hrp⟩

/-- The search is right as long as the mark is not among the values, or some value is below it. -/
theorem leastFirst_select (a : α) (l : List α) (sorted : (a :: l).Pairwise (· < ·))
    (h : (∃ x ∈ a :: l, pv x < -1) ∨ ∀ x ∈ a :: l, pv x ≠ -1) :
    LeastFirst pv (select pv a l) (a :: l) := by
  induction l using List.reverseRecOn with
  | nil =>
    refine ⟨by simp [select], fun y hy => ?_⟩
    obtain rfl := List.mem_singleton.1 hy
    exact Or.inr ⟨rfl, le_rfl⟩
  | append_singleton l p ih =>
    have split : a :: (l ++ [p]) = (a :: l) ++ [p] := rfl
    rw [split] at sorted h ⊢
    obtain ⟨sorted', -, below⟩ := List.pairwise_append.1 sorted
    rw [select_append_singleton]
    have hlt : select pv a l < p := below _ (select_mem pv a l) p (by simp)
    by_cases hprefix : (∃ x ∈ a :: l, pv x < -1) ∨ ∀ x ∈ a :: l, pv x ≠ -1
    · have hl := ih sorted' hprefix
      -- The mark is not the value selected so far, so only a smaller value replaces it.
      have hmark : pv (select pv a l) ≠ -1 := by
        rcases hprefix with ⟨x, hx, hx1⟩ | hne
        · rcases hl.2 x hx with hr | hr <;> omega
        · exact hne _ hl.1
      split_ifs with hp
      · exact leastFirst_append_singleton_of_lt hl (hp.resolve_left hmark)
      · exact leastFirst_append_singleton_of_le hl (by omega) hlt.le
    · -- Every value so far is at least the mark, so `p` is the value below it.
      simp only [not_or, not_exists, not_and, not_forall, not_lt] at hprefix
      obtain ⟨hge, x, hx, hx1⟩ := hprefix
      have hp : pv p < -1 := by
        rcases h with ⟨y, hy, hy1⟩ | hne
        · rcases List.mem_append.1 hy with hy | hy
          · exact absurd hy1 (not_lt.2 (hge y hy))
          · rwa [List.mem_singleton.1 hy] at hy1
        · exact absurd (not_not.1 hx1) (hne x (List.mem_append_left _ hx))
      rw [if_pos (Or.inr (hp.trans_le (hge _ (select_mem pv a l))))]
      refine ⟨by simp, fun y hy => ?_⟩
      rcases List.mem_append.1 hy with hy | hy
      · exact Or.inl (hp.trans_le (hge y hy))
      · obtain rfl := List.mem_singleton.1 hy
        exact Or.inr ⟨rfl, le_rfl⟩

theorem le_getLast_of_mem {l : List α} (sorted : l.Pairwise (· < ·)) (hne : l ≠ []) {x : α}
    (hx : x ∈ l) : x ≤ l.getLast hne := by
  rw [← List.dropLast_append_getLast hne, List.mem_append, List.mem_singleton] at hx
  rw [← List.dropLast_append_getLast hne, List.pairwise_append] at sorted
  rcases hx with hx | hx
  · exact (sorted.2.2 x hx _ (by simp)).le
  · exact hx.le

/-- The search finds the least value exactly when the mark does not hide it. -/
theorem leastFirst_select_iff (a : α) (l : List α) (sorted : (a :: l).Pairwise (· < ·)) :
    LeastFirst pv (select pv a l) (a :: l) ↔ ¬ MarkHit pv (a :: l) := by
  constructor
  · rintro h ⟨p, hp, q, hq, hpq, hp1, hge⟩
    have hmark : pv (select pv a l) = -1 := by
      have := hge _ h.1
      rcases h.2 p hp with hr | hr <;> omega
    have hlast := select_eq_getLast_of_mark pv a l hmark
    have hqle := le_getLast_of_mem sorted (List.cons_ne_nil a l) hq
    rw [← hlast] at hqle
    rcases h.2 p hp with hr | hr
    · omega
    · exact absurd (hpq.trans_le hqle) (not_lt.2 hr.2)
  · intro hno
    by_cases h : (∃ x ∈ a :: l, pv x < -1) ∨ ∀ x ∈ a :: l, pv x ≠ -1
    · exact leastFirst_select a l sorted h
    · simp only [not_or, not_exists, not_and, not_forall, not_lt, not_not] at h
      obtain ⟨hge, x, hx, hx1⟩ := h
      -- The mark is the least value and nothing stands behind it, so it comes last.
      have hlast : ∀ y ∈ a :: l, y ≤ x := fun y hy =>
        not_lt.1 fun hxy => hno ⟨x, hx, y, hy, hxy, hx1, hge⟩
      obtain rfl | ⟨l, p, rfl⟩ := l.eq_nil_or_concat
      · obtain rfl : x = a := by simpa using hx
        refine ⟨by simp [select], fun y hy => ?_⟩
        obtain rfl := List.mem_singleton.1 hy
        exact Or.inr ⟨rfl, le_rfl⟩
      · rw [List.concat_eq_append] at *
        have split : a :: (l ++ [p]) = (a :: l) ++ [p] := rfl
        rw [split] at sorted hno hge hx hlast ⊢
        obtain ⟨sorted', -, below⟩ := List.pairwise_append.1 sorted
        obtain rfl : x = p := by
          rcases List.mem_append.1 hx with hx | hx
          · exact absurd (below x hx p (by simp)) (not_lt.2 (hlast p (by simp)))
          · exact List.mem_singleton.1 hx
        have hne : ∀ y ∈ a :: l, pv y ≠ -1 := fun y hy hy1 =>
          hno ⟨y, List.mem_append_left _ hy, x, hx, below y hy x (by simp), hy1, hge⟩
        have hl := leastFirst_select a l sorted' (Or.inr hne)
        have hge' := hge _ (List.mem_append_left _ hl.1)
        have hne' := hne _ hl.1
        rw [select_append_singleton, if_pos (Or.inr (by omega))]
        exact leastFirst_append_singleton_of_lt hl (by omega)

end Select

/-! ## The selection loop -/

/-- The slots the selection loop looks at. -/
def runnableSlots (table : Slot → Proc) : List Slot :=
  (List.finRange NPROC).filter fun p => (table p).state = .runnable

theorem mem_runnableSlots {table : Slot → Proc} {p : Slot} :
    p ∈ runnableSlots table ↔ (table p).state = .runnable := by
  simp [runnableSlots]

theorem runnableSlots_sorted (table : Slot → Proc) : (runnableSlots table).Pairwise (· < ·) :=
  (List.pairwise_lt_finRange NPROC).filter _

theorem runnableSlots_eq_nil_iff {table : Slot → Proc} :
    runnableSlots table = [] ↔ ∀ p, (table p).state ≠ .runnable := by
  simp [List.eq_nil_iff_forall_not_mem, mem_runnableSlots]

theorem foldl_scanStep_filter (table : Slot → Proc) (l : List Slot) (acc : ℤ × Option Slot) :
    l.foldl (scanStep table) acc =
      (l.filter fun p => (table p).state = .runnable).foldl (scanStep table) acc := by
  induction l generalizing acc with
  | nil => rfl
  | cons p l ih =>
    by_cases hp : (table p).state = .runnable
    · rw [List.filter_cons_of_pos (by simpa using hp), List.foldl_cons, List.foldl_cons, ih]
    · rw [List.filter_cons_of_neg (by simpa using hp), List.foldl_cons, ← ih]
      simp [scanStep, hp]

theorem foldl_scanStep_some (table : Slot → Proc) (a : Slot) (l : List Slot)
    (hl : ∀ p ∈ l, (table p).state = .runnable) :
    (l.foldl (scanStep table) ((table a).passvalue, some a)).2 =
      some (select (fun p => (table p).passvalue) a l) := by
  induction l generalizing a with
  | nil => rfl
  | cons p l ih =>
    have hp := hl p List.mem_cons_self
    have hl' := fun q hq => hl q (List.mem_cons_of_mem p hq)
    simp only [List.foldl_cons, scanStep, hp, if_true, select]
    split_ifs
    · exact ih p hl'
    · exact ih a hl'

/-- The choice of the selection loop: `select` over the runnable slots, or the old choice. -/
theorem scan_eq_select (table : Slot → Proc) (chosenProc : Option Slot) :
    (scan table chosenProc).2 =
      match runnableSlots table with
      | [] => chosenProc
      | a :: l => some (select (fun p => (table p).passvalue) a l) := by
  unfold scan
  rw [foldl_scanStep_filter]
  change ((runnableSlots table).foldl (scanStep table) (-1, chosenProc)).2 = _
  rcases h : runnableSlots table with _ | ⟨a, l⟩
  · rfl
  · have hrun : ∀ p ∈ a :: l, (table p).state = .runnable := fun p hp =>
      mem_runnableSlots.1 (h ▸ hp)
    rw [List.foldl_cons]
    have hfirst : scanStep table (-1, chosenProc) a = ((table a).passvalue, some a) := by
      simp [scanStep, hrun a List.mem_cons_self]
    rw [hfirst]
    exact foldl_scanStep_some table a l fun p hp => hrun p (List.mem_cons_of_mem a hp)

/-! ## Dispatch safety -/

/-- What an outer iteration of `scheduler` should do in `k`: switch only to a runnable process with
the smallest pass value, the first of those in the table, and leave every process alone when none is
runnable. -/
def DispatchSafe (k : Kernel) (r : Iteration) : Prop :=
  r.wild = false ∧
  (∀ p, r.switchedTo = some p → (k.table p).state = .runnable ∧
    ∀ q, (k.table q).state = .runnable →
      (k.table p).passvalue < (k.table q).passvalue ∨
        (k.table p).passvalue = (k.table q).passvalue ∧ p ≤ q) ∧
  ((∀ q, (k.table q).state ≠ .runnable) → r.switchedTo = none ∧
    ∀ q, (r.after.table q).state = (k.table q).state ∧
      (r.after.table q).passvalue = (k.table q).passvalue ∧
      (r.after.table q).ticks = (k.table q).ticks)

/-- Some process is runnable. -/
def HasRunnable (k : Kernel) : Prop := ∃ p, (k.table p).state = .runnable

/-- The smallest pass value of the runnable processes is `-1`, the value `scheduler` uses for
"none found yet", and another runnable process comes after one that has it. -/
def SentinelHit (k : Kernel) : Prop :=
  ∃ p q, p < q ∧ (k.table p).state = .runnable ∧ (k.table q).state = .runnable ∧
    (k.table p).passvalue = -1 ∧ ∀ r, (k.table r).state = .runnable → -1 ≤ (k.table r).passvalue

theorem sentinelHit_iff_markHit (k : Kernel) :
    SentinelHit k ↔ MarkHit (fun p => (k.table p).passvalue) (runnableSlots k.table) := by
  simp only [SentinelHit, MarkHit, mem_runnableSlots]
  constructor
  · rintro ⟨p, q, hpq, hp, hq, h⟩
    exact ⟨p, hp, q, hq, hpq, h⟩
  · rintro ⟨p, hp, q, hq, hpq, h⟩
    exact ⟨p, q, hpq, hp, hq, h⟩

theorem scheduler_switchedTo_of_runnable (k : Kernel) (c : Fin NCPU) {a : Slot} {l : List Slot}
    (h : runnableSlots k.table = a :: l) :
    (scheduler k c).wild = false ∧
      (scheduler k c).switchedTo = some (select (fun p => (k.table p).passvalue) a l) := by
  have hscan := scan_eq_select k.table (k.cpus c).chosenProc
  rw [h] at hscan
  simp only [scheduler, hscan, and_self]

/-- With nothing runnable the iteration still switches, or dereferences an unset pointer. -/
theorem not_dispatchSafe_of_idle (k : Kernel) (c : Fin NCPU)
    (h : ∀ p, (k.table p).state ≠ .runnable) : ¬ DispatchSafe k (scheduler k c) := by
  rintro ⟨hwild, -, hidle⟩
  have hscan := scan_eq_select k.table (k.cpus c).chosenProc
  rw [runnableSlots_eq_nil_iff.2 h] at hscan
  have hnone := (hidle h).1
  rcases hc : (k.cpus c).chosenProc with _ | p <;> rw [hc] at hscan <;>
    simp [scheduler, hc, hscan] at hwild hnone

/-- One outer iteration dispatches correctly exactly when some process is runnable and the `-1`
mark does not hide the smallest pass value. -/
theorem dispatchSafe_scheduler_iff (k : Kernel) (c : Fin NCPU) :
    DispatchSafe k (scheduler k c) ↔ HasRunnable k ∧ ¬ SentinelHit k := by
  by_cases hrun : HasRunnable k
  · obtain ⟨p₀, hp₀⟩ := hrun
    rw [sentinelHit_iff_markHit]
    rcases h : runnableSlots k.table with _ | ⟨a, l⟩
    · exact absurd hp₀ (runnableSlots_eq_nil_iff.1 h p₀)
    · have hmem : ∀ q, q ∈ a :: l ↔ (k.table q).state = .runnable := fun q => by
        rw [← h, mem_runnableSlots]
      obtain ⟨hwild, hto⟩ := scheduler_switchedTo_of_runnable k c h
      rw [← leastFirst_select_iff a l (h ▸ runnableSlots_sorted k.table)]
      constructor
      · rintro ⟨-, hmin, -⟩
        obtain ⟨hs, hle⟩ := hmin _ hto
        exact ⟨⟨p₀, hp₀⟩, (hmem _).2 hs, fun q hq => hle q ((hmem q).1 hq)⟩
      · rintro ⟨-, hs, hle⟩
        refine ⟨hwild, fun p hp => ?_, fun hno => absurd hp₀ (hno p₀)⟩
        rw [hto, Option.some.injEq] at hp
        subst hp
        exact ⟨(hmem _).1 hs, fun q hq => hle q ((hmem q).2 hq)⟩
  · have hidle : ∀ p, (k.table p).state ≠ .runnable := fun p hp => hrun ⟨p, hp⟩
    exact iff_of_false (not_dispatchSafe_of_idle k c hidle) fun h => hrun h.1

/-- Every scheduler iteration of a run dispatches correctly. -/
def DispatchesSafely (es : List Event) : Prop :=
  Trace.Along step (fun k e => ∀ c, e = .schedule c → (step k e).isSome →
    DispatchSafe k (scheduler k c)) boot es

/-- In every run of the kernel from boot, all outer iterations of `scheduler` dispatch correctly
exactly when each of them starts with a runnable process and no sentinel hit. -/
theorem dispatchesSafely_iff (es : List Event) :
    DispatchesSafely es ↔
      Trace.Along step (fun k e => ∀ c, e = .schedule c → (step k e).isSome →
        HasRunnable k ∧ ¬ SentinelHit k) boot es :=
  Trace.along_congr step
    (fun k _ => forall_congr' fun c => imp_congr_right fun _ => imp_congr_right fun _ =>
      dispatchSafe_scheduler_iff k c) boot es

/-- The first process runs and goes to sleep while it is the only one. -/
def loneSleeper : List Event := [.userinit, .schedule 0, .sleep 0 (.addr 1)]

theorem loneSleeper_idle : ∃ k, Trace.run step boot loneSleeper = some k ∧
    (step k (.schedule 0)).isSome ∧ ∀ p, (k.table p).state ≠ .runnable :=
  ⟨_, rfl, by decide, by decide⟩

/-- The iteration after `loneSleeper` resumes the sleeping process. -/
theorem not_dispatchesSafely_loneSleeper : ¬ DispatchesSafely (loneSleeper ++ [.schedule 0]) := by
  intro h
  obtain ⟨k, hrun, henabled, hidle⟩ := loneSleeper_idle
  exact not_dispatchSafe_of_idle k 0 hidle (h.at_event hrun 0 rfl henabled)

end SystemsProjects.Stride
