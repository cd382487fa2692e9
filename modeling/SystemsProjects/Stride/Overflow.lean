import SystemsProjects.Stride.Accounting

/-!
# Pass values that overflow

A pass value only grows until it is set back to the stride, and nothing bounds it: `passvalue` is an
`int`, and after enough time slices the addition of the scheduler wraps around.  The exact pass value of
a process is its stride times one plus the number of its dispatches since; `passSafe_iff` says that the
pass values are exact along a run exactly when no dispatch takes this product beyond `INT_MAX`.
-/

namespace SystemsProjects.Stride

open MachineInt

/-- The pass value without the bounds of an `int`. -/
def exactPass (t : Counted) (r : Slot) : ℤ := (t.kernel.table r).initStride * (1 + t.sinceReset r)

/-- The addition of a dispatch is inside the range of an `int`, and the pass values are in the order of
the exact ones, none of them negative. -/
structure PassSafe (t : Counted) (e : Event) : Prop where
  fits : ∀ p, dispatched t.kernel e = some p →
    INT_MIN ≤ (t.kernel.table p).passvalue + (t.kernel.table p).initStride ∧
      (t.kernel.table p).passvalue + (t.kernel.table p).initStride ≤ INT_MAX
  nonneg : ∀ r, (t.kernel.table r).state ≠ .unused → 0 ≤ (t.kernel.table r).passvalue
  order : ∀ p q, (t.kernel.table p).state ≠ .unused → (t.kernel.table q).state ≠ .unused →
    ((t.kernel.table p).passvalue < (t.kernel.table q).passvalue ↔ exactPass t p < exactPass t q)

/-- A process that has been dispatched `d` times since its pass value was last set to its stride is
dispatched once more only if `d + 2` times the stride is an `int`. -/
def PassBounded (t : Counted) (e : Event) : Prop :=
  ∀ p, dispatched t.kernel e = some p →
    (t.kernel.table p).initStride * (t.sinceReset p + 2) ≤ INT_MAX

/-! ## The pass values are exact -/

structure ExactInv (t : Counted) : Prop where
  account : AccountInv t
  bound : ∀ r, (t.kernel.table r).tickets ≠ 0 → exactPass t r ≤ INT_MAX

theorem exactInv_boot : ExactInv Counted.boot := ⟨accountInv_boot, fun _ h => absurd rfl h⟩

variable {t t' : Counted} {e : Event} {r : Slot}

theorem Accounted.stride_le {a : Account} {n d : ℕ} (h : Accounted a n d) : a.initStride ≤ MAXSTRIDE := by
  rw [h.stride]
  exact Int.ediv_le_self a.tickets (by decide)

theorem AccountInv.exactPass_nonneg (h : AccountInv t) (hr : (t.kernel.table r).tickets ≠ 0) :
    0 ≤ exactPass t r :=
  mul_nonneg (h.taken r hr).stride_nonneg (by positivity)

theorem ExactInv.pass (h : ExactInv t) (hr : (t.kernel.table r).tickets ≠ 0) :
    (t.kernel.table r).passvalue = exactPass t r := by
  have hpass : (t.kernel.table r).passvalue = toInt32 (exactPass t r) := (h.account.taken r hr).pass
  rw [hpass, toInt32_eq_self (h.account.exactPass_nonneg hr) (h.bound r hr)]

/-- What a dispatch writes is the next exact pass value. -/
theorem ExactInv.sum_eq (h : ExactInv t) (hr : dispatched t.kernel e = some r) :
    (t.kernel.table r).passvalue + (t.kernel.table r).initStride =
      (t.kernel.table r).initStride * (t.sinceReset r + 2) := by
  rw [h.pass (h.account.dispatched_taken hr), exactPass]
  ring

/-- The event sets the pass value of `r` to its stride, or dispatches `r`, or neither. -/
theorem AccountInv.stride_cases (h : AccountInv t) (hstep : count t e = some t') (r : Slot) :
    t'.sinceReset r = 0 ∨
    (dispatched t.kernel e = some r ∧ t'.sinceReset r = t.sinceReset r + 1 ∧
      (t'.kernel.table r).initStride = (t.kernel.table r).initStride) ∨
    exactPass t' r = exactPass t r ∧ (t'.kernel.table r).tickets = (t.kernel.table r).tickets := by
  obtain ⟨k', hk', rfl⟩ := Option.map_eq_some_iff.1 hstep
  have same : Still t.kernel e r → (k'.table r).account = (t.kernel.table r).account →
      exactPass ⟨k', t.nextDispatches e, t.nextSinceReset e⟩ r = exactPass t r ∧
        (k'.table r).tickets = (t.kernel.table r).tickets := by
    intro still haccount
    have hstride : (k'.table r).initStride = (t.kernel.table r).initStride :=
      congrArg Account.initStride haccount
    refine ⟨?_, congrArg Account.tickets haccount⟩
    simp only [exactPass, still.next.2, hstride]
  cases (stepChange_of_step hk').slot r with
  | create now free account state => exact Or.inl (if_pos (Or.inl now))
  | @inherit c p event parent pending done account state =>
    subst event
    have hembryo := (h.states (step_halted hk')).pending p r pending
    exact Or.inl (h.fresh (step_halted hk') r hembryo).2
  | undo event parent pending done account state =>
    subst event
    exact Or.inr (Or.inr (same ⟨nofun, nofun, nofun, nofun⟩ account))
  | @settickets c n event pos caller account state =>
    subst event
    have hnow : reticketed t.kernel (.settickets c n) = some r := by
      rw [reticketed, if_neg (not_le.2 pos), caller]
    exact Or.inl (if_pos (Or.inr hnow))
  | dispatch now account state halted =>
    refine Or.inr (Or.inl ⟨now, ?_, congrArg Account.initStride account⟩)
    cases e with
    | schedule c => exact if_pos now
    | _ => cases now
  | leave still caller released account state => exact Or.inr (Or.inr (same still account))
  | reap still zombie account state => exact Or.inr (Or.inr (same still account))
  | keep still quiet => exact Or.inr (Or.inr (same still quiet.account))

theorem ExactInv.step (h : ExactInv t) (bounded : PassBounded t e) (hstep : count t e = some t') :
    ExactInv t' := by
  have haccount := h.account.step hstep
  refine ⟨haccount, fun r hr => ?_⟩
  rcases h.account.stride_cases hstep r with hzero | ⟨hnow, hnext, hstride⟩ | ⟨hsame, htickets⟩
  · have hle : (t'.kernel.table r).initStride ≤ MAXSTRIDE := (haccount.taken r hr).stride_le
    rw [exactPass, hzero]
    simp only [Nat.cast_zero, add_zero, mul_one]
    exact hle.trans (by decide)
  · have hbound := bounded r hnow
    rw [exactPass, hnext, hstride]
    push_cast
    rwa [show (1 + (t.sinceReset r + 1) : ℤ) = t.sinceReset r + 2 by ring]
  · rw [hsame]
    exact h.bound r (htickets ▸ hr)

/-! ## Runs -/

theorem ExactInv.passSafe_iff_passBounded (h : ExactInv t) (e : Event) : PassSafe t e ↔ PassBounded t e := by
  constructor
  · intro safe p hp
    rw [← h.sum_eq hp]
    exact (safe.fits p hp).2
  · intro bounded
    have hpass : ∀ r, (t.kernel.table r).state ≠ .unused → (t.kernel.table r).passvalue = exactPass t r :=
      fun r hr => h.pass (h.account.used r hr)
    refine ⟨fun p hp => ?_, fun r hr => ?_, fun p q hp hq => ?_⟩
    · have htaken := h.account.dispatched_taken hp
      have hstride := (h.account.taken p htaken).stride_nonneg
      have hnonneg := h.account.exactPass_nonneg htaken
      refine ⟨?_, (h.sum_eq hp).trans_le (bounded p hp)⟩
      rw [h.pass htaken]
      exact le_trans (by decide) (add_nonneg hnonneg hstride)
    · rw [hpass r hr]
      exact h.account.exactPass_nonneg (h.account.used r hr)
    · rw [hpass p hp, hpass q hq]

/-- No pass value overflows in a run exactly when each process, dispatched `d` times since its pass value
was last set to its stride, is dispatched again only while `d + 2` times its stride is at most `INT_MAX`. -/
theorem passSafe_iff (es : List Event) :
    Trace.Along count PassSafe Counted.boot es ↔ Trace.Along count PassBounded Counted.boot es := by
  refine Trace.along_congr_of_invariant count (fun t e t' h safe hstep => ?_)
    (fun t e h => h.passSafe_iff_passBounded e) exactInv_boot es
  exact h.step ((h.passSafe_iff_passBounded e).1 safe) hstep

/-- The pass value of the first process after `n` time slices of it alone. -/
theorem pass_of_lone (n : ℕ) :
    ∃ t, Trace.run count Counted.boot (.userinit :: slices n) = some t ∧ Lone t n ∧
      (t.kernel.table 0).passvalue = toInt32 (MAXSTRIDE * (1 + n)) := by
  obtain ⟨t, hrun, hlone⟩ := lone_of_boot n
  have hused : (t.kernel.table 0).state ≠ .unused := by
    rw [(hlone.runnable 0).2 rfl]
    decide
  refine ⟨t, hrun, hlone, ?_⟩
  rw [← hlone.stride, ← hlone.sinceReset]
  exact ((accountInv_of_run hrun).accounted hused).pass

/-- The first process alone: its dispatch number 214748 takes the pass value beyond `INT_MAX`, and the pass
value is negative afterwards. -/
theorem not_passSafe_lone :
    ¬ Trace.Along count PassSafe Counted.boot ((.userinit :: slices 214747) ++ [.schedule 0]) ∧
      ∃ t, Trace.run count Counted.boot (.userinit :: slices 214748) = some t ∧
        (t.kernel.table 0).state = .runnable ∧ (t.kernel.table 0).passvalue < 0 := by
  constructor
  · intro safe
    obtain ⟨t, hrun, hlone, hpass⟩ := pass_of_lone 214747
    have hfits := ((safe.at_event hrun).fits 0 hlone.switchedTo).2
    rw [hpass, hlone.stride] at hfits
    exact absurd hfits (by decide)
  · obtain ⟨t, hrun, hlone, hpass⟩ := pass_of_lone 214748
    refine ⟨t, hrun, (hlone.runnable 0).2 rfl, ?_⟩
    rw [hpass]
    decide

end SystemsProjects.Stride
