import Mathlib.Algebra.Order.Group.Abs
import Mathlib.Algebra.Order.Ring.Int
import Mathlib.Tactic.Ring
import Mathlib.Tactic.Linarith
import SystemsProjects.Stride.Dispatch

/-!
# Proportional share

A fixed set of runnable processes on one CPU: the run consists of dispatches and of the `yield` that
ends each time slice, nothing else.  The invariant is `ShareInv`: every pass value is the stride
times one plus the number of dispatches, and no pass value is ahead of another by more than its own
stride.  On two CPUs this fails: a process that runs is not looked at by the other CPU.
-/

namespace SystemsProjects.Stride

open MachineInt

/-- How often process `i` is dispatched in the run `es` from `k`. -/
def dispatchCount (i : Slot) : Kernel → List Event → ℕ
  | _, [] => 0
  | k, e :: es =>
    (match e with
      | .schedule c => if (scheduler k c).switchedTo = some i then 1 else 0
      | _ => 0) +
    match step k e with
      | some k' => dispatchCount i k' es
      | none => 0

/-- The run only dispatches and yields on CPU `c`. -/
def OnlyDispatches (c : Fin NCPU) (es : List Event) : Prop :=
  ∀ e ∈ es, e = .schedule c ∨ e = .yield c

/-- At every dispatch the new pass value fits an `int`. -/
def NoPassOverflow (k : Kernel) (es : List Event) : Prop :=
  Trace.Along step (fun k e => ∀ c p, e = .schedule c → (scheduler k c).switchedTo = some p →
    (k.table p).passvalue + (k.table p).initStride ≤ INT_MAX) k es

/-- The state in which the shares are compared: CPU `c` is in `scheduler` and every runnable process
starts with its pass value at its stride. -/
structure FreshShares (k : Kernel) (c : Fin NCPU) : Prop where
  idle : (k.cpus c).proc = none
  tickets_pos : ∀ i, (k.table i).state = .runnable → 1 ≤ (k.table i).tickets
  stride : ∀ i, (k.table i).state = .runnable →
    (k.table i).initStride = MAXSTRIDE / (k.table i).tickets
  pass : ∀ i, (k.table i).state = .runnable → (k.table i).passvalue = (k.table i).initStride

/-- The invariant of a run on the set `R` of processes, with strides `s` and `n i` dispatches of `i`
so far. -/
structure ShareInv (R : Slot → Prop) (s : Slot → ℤ) (c : Fin NCPU) (k : Kernel) (n : Slot → ℕ) :
    Prop where
  stride : ∀ i, R i → (k.table i).initStride = s i
  pass : ∀ i, R i → (k.table i).passvalue = s i * (1 + n i)
  gap : ∀ i j, R i → R j → (k.table i).passvalue ≤ (k.table j).passvalue + s i
  runnable : ∀ i, (k.table i).state = .runnable → R i
  waiting : ∀ i, R i → (k.cpus c).proc ≠ some i → (k.table i).state = .runnable
  current : ∀ i, (k.cpus c).proc = some i → R i

variable {R : Slot → Prop} {s : Slot → ℤ} {c : Fin NCPU} {k k' : Kernel} {n : Slot → ℕ}

theorem FreshShares.stride_nonneg (h : FreshShares k c) {i : Slot}
    (hi : (k.table i).state = .runnable) : 0 ≤ (k.table i).initStride := by
  rw [h.stride i hi]
  exact Int.ediv_nonneg (by decide) (by have := h.tickets_pos i hi; omega)

theorem FreshShares.shareInv (h : FreshShares k c) :
    ShareInv (fun i => (k.table i).state = .runnable) (fun i => (k.table i).initStride) c k
      fun _ => 0 where
  stride _ _ := rfl
  pass i hi := by rw [h.pass i hi]; simp
  gap i j hi hj := by
    rw [h.pass i hi, h.pass j hj]
    have := h.stride_nonneg hj
    omega
  runnable _ hi := hi
  waiting _ hi _ := hi
  current i hi := by rw [h.idle] at hi; cases hi

theorem ShareInv.pass_nonneg (h : ShareInv R s c k n) (hs : ∀ i, R i → 0 ≤ s i) {i : Slot}
    (hi : R i) : 0 ≤ (k.table i).passvalue := by
  rw [h.pass i hi]
  exact mul_nonneg (hs i hi) (by positivity)

/-- With the CPU idle and some process in the set, an iteration switches to a process of the set
whose pass value is the smallest. -/
theorem ShareInv.exists_switchedTo (h : ShareInv R s c k n) (hs : ∀ i, R i → 0 ≤ s i)
    (idle : (k.cpus c).proc = none) {i : Slot} (hi : R i) :
    ∃ p, (scheduler k c).switchedTo = some p ∧ R p ∧ (k.table p).state = .runnable ∧
      ∀ j, R j → (k.table p).passvalue ≤ (k.table j).passvalue := by
  have hrun : ∀ j, R j → (k.table j).state = .runnable := fun j hj =>
    h.waiting j hj (by rw [idle]; exact fun h => nomatch h)
  have hsafe : DispatchSafe k (scheduler k c) := by
    rw [dispatchSafe_scheduler_iff]
    refine ⟨⟨i, hrun i hi⟩, ?_⟩
    rintro ⟨p, -, -, hp, -, hp1, -⟩
    have := h.pass_nonneg hs (h.runnable p hp)
    omega
  rcases hl : runnableSlots k.table with _ | ⟨a, l⟩
  · exact absurd (hrun i hi) (runnableSlots_eq_nil_iff.1 hl i)
  · obtain ⟨-, hto⟩ := scheduler_switchedTo_of_runnable k c hl
    obtain ⟨hp, hmin⟩ := hsafe.2.1 _ hto
    refine ⟨_, hto, h.runnable _ hp, hp, fun j hj => ?_⟩
    rcases hmin j (hrun j hj) with hlt | heq
    · exact hlt.le
    · exact heq.1.le

theorem scheduler_after_eq {p : Slot} (h : (scheduler k c).switchedTo = some p) :
    (scheduler k c).after =
      { (k.setProc p { k.table p with
            passvalue := toInt32 ((k.table p).passvalue + (k.table p).initStride),
            ticks := toInt32 ((k.table p).ticks + 1), state := .running }).setCpu c
          { proc := some p, chosenProc := some p } with
        halted := !resumable (k.table p).state } := by
  unfold scheduler at h ⊢
  rcases hscan : (scan k.table (k.cpus c).chosenProc).2 with _ | q <;> rw [hscan] at h
  · cases h
  · obtain rfl : q = p := by simpa using h
    rfl

/-- A dispatch keeps the invariant and counts one more time slice for the chosen process. -/
theorem ShareInv.dispatch (h : ShareInv R s c k n) (hs : ∀ i, R i → 0 ≤ s i) {p : Slot}
    (hto : (scheduler k c).switchedTo = some p) (hp : R p)
    (hmin : ∀ j, R j → (k.table p).passvalue ≤ (k.table j).passvalue)
    (fits : (k.table p).passvalue + (k.table p).initStride ≤ INT_MAX)
    (idle : (k.cpus c).proc = none) :
    ShareInv R s c (scheduler k c).after (Function.update n p (n p + 1)) := by
  have hpass : toInt32 ((k.table p).passvalue + (k.table p).initStride) =
      (k.table p).passvalue + s p := by
    rw [toInt32_eq_self _ fits, h.stride p hp]
    have := h.pass_nonneg hs hp
    have := hs p hp
    have := h.stride p hp
    omega
  rw [scheduler_after_eq hto, hpass]
  have htable : ∀ i, i ≠ p → Function.update k.table p { k.table p with
      passvalue := (k.table p).passvalue + s p, ticks := toInt32 ((k.table p).ticks + 1),
      state := .running } i = k.table i := fun i hi => Function.update_of_ne hi _ _
  constructor
  · intro i hi
    by_cases hip : i = p
    · subst hip
      simpa [Kernel.setProc, Kernel.setCpu] using h.stride i hi
    · simpa [Kernel.setProc, Kernel.setCpu, hip] using h.stride i hi
  · intro i hi
    by_cases hip : i = p
    · subst hip
      simp only [Kernel.setProc, Kernel.setCpu, Function.update_self]
      rw [h.pass i hi]
      push_cast
      ring
    · simpa [Kernel.setProc, Kernel.setCpu, hip] using h.pass i hi
  · intro i j hi hj
    simp only [Kernel.setProc, Kernel.setCpu]
    have hij := h.gap i j hi hj
    have hip' := h.gap i p hi hp
    have hj' := hmin j hj
    have := hs p hp
    have := hs i hi
    by_cases hip : i = p <;> by_cases hjp : j = p
    · subst hip hjp
      omega
    · subst hip
      rw [Function.update_self, htable j hjp]
      exact Int.add_le_add_right hj' _
    · subst hjp
      rw [Function.update_self, htable i hip]
      simp only
      omega
    · rw [htable i hip, htable j hjp]
      exact hij
  · intro i hi
    by_cases hip : i = p
    · exact hip ▸ hp
    · exact h.runnable i (by simpa [Kernel.setProc, Kernel.setCpu, hip] using hi)
  · intro i hi hne
    have hip : i ≠ p := fun e => hne (by simp [Kernel.setCpu, e])
    simpa [Kernel.setProc, Kernel.setCpu, hip] using
      h.waiting i hi (by rw [idle]; exact fun h => nomatch h)
  · intro i hi
    have hip : p = i := by simpa [Kernel.setCpu] using hi
    exact hip ▸ hp

/-- The end of a time slice keeps the invariant. -/
theorem ShareInv.yield (h : ShareInv R s c k n) {p : Slot} (hp : (k.cpus c).proc = some p) :
    ShareInv R s c (yield k c p) n := by
  have htable : ∀ i, ((Stride.yield k c p).table i).passvalue = (k.table i).passvalue ∧
      ((Stride.yield k c p).table i).initStride = (k.table i).initStride := fun i => by
    by_cases hip : i = p
    · subst hip
      simp [Stride.yield, Kernel.setProc, Kernel.release, Kernel.setCpu]
    · simp [Stride.yield, Kernel.setProc, Kernel.release, Kernel.setCpu, hip]
  constructor
  · intro i hi
    rw [(htable i).2, h.stride i hi]
  · intro i hi
    rw [(htable i).1, h.pass i hi]
  · intro i j hi hj
    rw [(htable i).1, (htable j).1]
    exact h.gap i j hi hj
  · intro i hi
    by_cases hip : i = p
    · exact hip ▸ h.current p hp
    · exact h.runnable i (by
        simpa [Stride.yield, Kernel.setProc, Kernel.release, Kernel.setCpu, hip] using hi)
  · intro i hi _
    by_cases hip : i = p
    · simp [Stride.yield, Kernel.setProc, Kernel.release, Kernel.setCpu, hip]
    · have := h.waiting i hi (by rw [hp]; exact fun e => hip (Option.some.inj e).symm)
      simpa [Stride.yield, Kernel.setProc, Kernel.release, Kernel.setCpu, hip] using this
  · intro i hi
    simp [Stride.yield, Kernel.release, Kernel.setCpu] at hi

theorem step_schedule_eq_some (h : step k (.schedule c) = some k') :
    (k.cpus c).proc = none ∧ k' = (scheduler k c).after := by
  simp only [step] at h
  split_ifs at h with hhalt hidle
  exact ⟨hidle, (Option.some.inj h).symm⟩

theorem step_yield_eq_some (h : step k (.yield c) = some k') :
    ∃ p, (k.cpus c).proc = some p ∧ k' = yield k c p := by
  unfold step at h
  split_ifs at h with hhalt
  obtain ⟨p, hp, hk⟩ := Option.bind_eq_some_iff.1 h
  exact ⟨p, hp, (Option.some.inj hk).symm⟩

/-- The invariant holds after every run of dispatches and yields, with the dispatches counted. -/
theorem ShareInv.run (h : ShareInv R s c k n) (hs : ∀ i, R i → 0 ≤ s i) (inhabited : ∃ i, R i)
    {es : List Event} (only : OnlyDispatches c es) (fits : NoPassOverflow k es)
    (reached : Trace.run step k es = some k') :
    ShareInv R s c k' fun i => n i + dispatchCount i k es := by
  induction es generalizing k n with
  | nil =>
    obtain rfl : k = k' := by simpa using reached
    simpa [dispatchCount] using h
  | cons e es ih =>
    obtain ⟨t, ht, hrun⟩ := (Trace.run_cons_eq_some step).1 reached
    have only' : OnlyDispatches c es := fun e he => only e (List.mem_cons_of_mem _ he)
    rcases only e List.mem_cons_self with rfl | rfl
    · obtain ⟨idle, rfl⟩ := step_schedule_eq_some ht
      obtain ⟨i, hi⟩ := inhabited
      obtain ⟨p, hto, hp, -, hmin⟩ := h.exists_switchedTo hs idle hi
      have hnext := ih (h.dispatch hs hto hp hmin (fits.1 c p rfl hto) idle) only'
        (fits.2 _ ht) hrun
      convert hnext using 2 with i
      simp only [dispatchCount, ht, hto, Option.some.injEq]
      by_cases hip : p = i
      · subst hip
        rw [if_pos rfl, Function.update_self]
        omega
      · rw [if_neg hip, Function.update_of_ne (Ne.symm hip)]
        omega
    · obtain ⟨p, hp, rfl⟩ := step_yield_eq_some ht
      have hnext := ih (h.yield hp) only' (fits.2 _ ht) hrun
      simpa only [dispatchCount, ht, Nat.zero_add] using hnext

/-- For a fixed set of runnable processes that start with their pass at their stride, no pass value
is ever ahead of another by more than its own stride, so the weighted numbers of time slices stay
within one stride of each other. -/
theorem proportional_share (k k' : Kernel) (c : Fin NCPU) (es : List Event)
    (fresh : FreshShares k c) (only : OnlyDispatches c es) (fits : NoPassOverflow k es)
    (reached : Trace.run step k es = some k') (i j : Slot)
    (hi : (k.table i).state = .runnable) (hj : (k.table j).state = .runnable) :
    (k'.table i).passvalue - (k'.table j).passvalue ≤ (k.table i).initStride ∧
    |(k.table i).initStride * (1 + dispatchCount i k es) -
        (k.table j).initStride * (1 + dispatchCount j k es)| ≤
      max (k.table i).initStride (k.table j).initStride := by
  have hinv := fresh.shareInv.run (fun _ h => fresh.stride_nonneg h) ⟨i, hi⟩ only fits reached
  simp only [Nat.zero_add] at hinv
  have hij := hinv.gap i j hi hj
  have hji := hinv.gap j i hj hi
  refine ⟨by omega, ?_⟩
  rw [← hinv.pass i hi, ← hinv.pass j hj, abs_le]
  constructor
  · have := le_max_right (k.table i).initStride (k.table j).initStride
    omega
  · have := le_max_left (k.table i).initStride (k.table j).initStride
    omega

/-- Two runnable processes with one and two tickets. -/
def twoShares : Kernel :=
  { boot with table := fun p =>
      if p = 0 then
        { state := .runnable, tickets := 1, initStride := 10000, passvalue := 10000 }
      else if p = 1 then
        { state := .runnable, tickets := 2, initStride := 5000, passvalue := 5000 }
      else {} }

theorem twoShares_fresh : FreshShares twoShares 0 :=
  ⟨rfl, by decide, by decide, by decide⟩

theorem twoShares_noPassOverflow : NoPassOverflow twoShares [.schedule 0, .yield 0] := by
  refine ⟨fun c p hc hto => ?_, fun k₁ _ => ⟨fun c p hc _ => (nomatch hc), fun k₂ _ => trivial⟩⟩
  obtain rfl : (0 : Fin NCPU) = c := Event.schedule.inj hc
  have hfirst : (scheduler twoShares 0).switchedTo = some 1 := by decide
  obtain rfl : 1 = p := Option.some.inj (hfirst.symm.trans hto)
  decide

theorem proportional_share_twoShares :
    ∃ k', Trace.run step twoShares [.schedule 0, .yield 0] = some k' ∧
      (k'.table 1).passvalue - (k'.table 0).passvalue ≤ (twoShares.table 1).initStride := by
  refine ⟨_, rfl, (proportional_share twoShares _ 0 [.schedule 0, .yield 0] twoShares_fresh
    (by simp [OnlyDispatches]) twoShares_noPassOverflow rfl 1 0 (by decide) (by decide)).1⟩

/-- One time slice on each of two CPUs, and the beginning of another one. -/
def twoCpus : List Event := [.schedule 0, .schedule 1, .yield 0, .yield 1, .schedule 0, .schedule 1]

theorem twoCpus_noPassOverflow : NoPassOverflow twoShares twoCpus := by
  apply Trace.along_cons_of_eq (by decide +kernel) rfl
  apply Trace.along_cons_of_eq (by decide +kernel) rfl
  apply Trace.along_cons_of_eq (by decide +kernel) rfl
  apply Trace.along_cons_of_eq (by decide +kernel) rfl
  apply Trace.along_cons_of_eq (by decide +kernel) rfl
  exact Trace.along_cons_of_eq (by decide +kernel) rfl trivial

/-- On two CPUs the process with the larger pass value is dispatched too, since the other one is running: the
gap grows with every pair of time slices. -/
theorem not_proportional_share_twoCpus :
    ¬ ∀ (k k' : Kernel) (es : List Event), (∀ c, FreshShares k c) →
      (∀ e ∈ es, ∃ c, e = .schedule c ∨ e = .yield c) → NoPassOverflow k es →
      Trace.run step k es = some k' → ∀ i j, (k.table i).state = .runnable → (k.table j).state = .runnable →
        (k'.table i).passvalue - (k'.table j).passvalue ≤ (k.table i).initStride ∧
        |(k.table i).initStride * (1 + dispatchCount i k es) -
            (k.table j).initStride * (1 + dispatchCount j k es)| ≤
          max (k.table i).initStride (k.table j).initStride := by
  intro h
  have honly : ∀ e ∈ twoCpus, ∃ c, e = .schedule c ∨ e = .yield c := by decide +kernel
  have hfresh : ∀ c, FreshShares twoShares c := fun c =>
    ⟨rfl, twoShares_fresh.tickets_pos, twoShares_fresh.stride, twoShares_fresh.pass⟩
  obtain ⟨hgap, -⟩ := h twoShares _ twoCpus hfresh honly twoCpus_noPassOverflow rfl 0 1 (by decide) (by decide)
  exact absurd hgap (by decide +kernel)

end SystemsProjects.Stride
