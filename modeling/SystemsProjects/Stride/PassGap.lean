import SystemsProjects.Stride.Slots

/-!
# Processes that join late

By design a forked process starts with its pass value at its stride and a woken one keeps the value it
went to sleep with, so a latecomer can be far behind the processes that kept running.  What the
scheduler does guarantee is pairwise: at a dispatch of `p` the pass value of `p` is at most that of
every process then runnable, so afterwards `p` is ahead of each of them by at most its stride, and it
stays so until `p` is dispatched again, whatever happens in between, as long as the other pass value
is not set back.  `Watched` records since when this holds.
-/

namespace SystemsProjects.Stride

open MachineInt

/-! ## What an event does to the pass values -/

/-- The process whose pass value an event sets to its stride. -/
def restarts (k : Kernel) (e : Event) : Option Slot := created k e <|> reticketed k e <|> inherits k e

/-- The pass value and the stride are the same. -/
def SamePass (v w : Proc) : Prop := w.passvalue = v.passvalue ∧ w.initStride = v.initStride

/-- What an event that leads from `k` to `k'` does to the pass value of `r`. -/
inductive PassChange (k k' : Kernel) (e : Event) (r : Slot) : Prop
  | restart (now : restarts k e = some r) (pass : (k'.table r).passvalue = (k'.table r).initStride)
      (stride : 0 ≤ (k'.table r).initStride)
  | dispatch (now : dispatched k e = some r) (other : restarts k e ≠ some r)
      (pass : (k'.table r).passvalue = toInt32 ((k.table r).passvalue + (k.table r).initStride))
      (stride : (k'.table r).initStride = (k.table r).initStride)
  | keep (other : restarts k e ≠ some r) (idle : dispatched k e ≠ some r)
      (same : SamePass (k.table r) (k'.table r))

variable {k k' : Kernel} {r : Slot}

theorem restarts_eq_some_iff {e : Event} :
    restarts k e = some r ↔ created k e = some r ∨ reticketed k e = some r ∨ inherits k e = some r := by
  -- an event is of one of the three kinds at most
  cases e <;> simp [restarts, created, reticketed, inherits]

/-- An event that writes no scheduling field of `r` does not set its pass value to its stride. -/
theorem Still.restarts_ne {e : Event} (h : Still k e r) : restarts k e ≠ some r := by
  intro hrestarts
  rcases restarts_eq_some_iff.1 hrestarts with hcreated | hreticketed | hinherits
  · exact h.created hcreated
  · exact h.reticketed hreticketed
  · exact h.inherits hinherits

theorem restarts_of_dispatched {e : Event} (h : dispatched k e = some r) : restarts k e = none := by
  cases e with
  | schedule c => rfl
  | _ => cases h

theorem samePass_of_account {v w : Proc} (h : w.account = v.account) : SamePass v w :=
  ⟨congrArg Account.passvalue h, congrArg Account.initStride h⟩

/-- Every event restarts one process, dispatches one, or leaves all pass values alone. -/
theorem passChange_of_step {e : Event} (hstride : ∀ r, 0 ≤ (k.table r).initStride)
    (h : step k e = some k') (r : Slot) : PassChange k k' e r := by
  have keep : Still k e r → (k'.table r).account = (k.table r).account → PassChange k k' e r :=
    fun still haccount => .keep still.restarts_ne still.dispatched (samePass_of_account haccount)
  -- The three ways to restart write the stride and, as the pass value, the same number.
  have restart : ∀ {t x n : ℤ}, restarts k e = some r → 0 ≤ x → (k'.table r).account = ⟨t, x, x, n⟩ →
      PassChange k k' e r := fun {t x n} now hx haccount => by
    have hx' : (k'.table r).initStride = x := congrArg Account.initStride haccount
    have hpass : (k'.table r).passvalue = x := congrArg Account.passvalue haccount
    exact .restart now (hpass.trans hx'.symm) (hx' ▸ hx)
  cases (stepChange_of_step h).slot r with
  | create now free account state => exact restart (restarts_eq_some_iff.2 (.inl now)) (by decide) account
  | @inherit c p event parent pending done account state =>
    refine restart (restarts_eq_some_iff.2 (.inr (.inr ?_))) (hstride p) account
    rw [event, inherits, parent]
    exact pending
  | undo event parent pending done account state =>
    subst event
    exact keep ⟨none_ne_some r, none_ne_some r, none_ne_some r, none_ne_some r⟩ account
  | settickets event pos caller account state =>
    refine restart (restarts_eq_some_iff.2 (.inr (.inl ?_))) (Int.ediv_nonneg (by decide) pos.le) account
    rw [event, reticketed, if_neg (not_le.2 pos), caller]
  | dispatch now account state halted =>
    refine .dispatch now ?_ (congrArg Account.passvalue account) (congrArg Account.initStride account)
    rw [restarts_of_dispatched now]
    exact none_ne_some r
  | leave still caller released account state => exact keep still account
  | reap still zombie account state => exact keep still account
  | keep still quiet => exact keep still quiet.account

/-! ## The history of dispatches -/

/-- The kernel with what matters of its history. -/
structure Watched where
  kernel : Kernel
  /-- `p` has not been dispatched since its pass value was last set to its stride. -/
  undispatched : Slot → Bool
  /-- `q` was runnable at the latest dispatch of `p`, and its pass value has not been set to its
  stride since. -/
  contended : Slot → Slot → Bool

def Watched.boot : Watched where
  kernel := Stride.boot
  undispatched _ := true
  contended _ _ := false

/-- Whether `p` is undispatched after the event. -/
def Watched.nextUndispatched (t : Watched) (e : Event) (p : Slot) : Bool :=
  if restarts t.kernel e = some p then true
  else if dispatched t.kernel e = some p then false
  else t.undispatched p

/-- Whether `p` has contended with `q` after the event. -/
def Watched.nextContended (t : Watched) (e : Event) (p q : Slot) : Bool :=
  if restarts t.kernel e = some q then false
  else if dispatched t.kernel e = some p then (t.kernel.table q).state = .runnable
  else t.contended p q

def watch (t : Watched) (e : Event) : Option Watched :=
  (step t.kernel e).map fun k => ⟨k, t.nextUndispatched e, t.nextContended e⟩

/-- The invariant of the pass values. -/
structure PassInv (t : Watched) : Prop where
  stride : ∀ r, 0 ≤ (t.kernel.table r).initStride
  pass : ∀ r, 0 ≤ (t.kernel.table r).passvalue
  undispatched : ∀ r, t.undispatched r = true →
    (t.kernel.table r).passvalue = (t.kernel.table r).initStride
  contended : ∀ p q, t.undispatched p = false → t.contended p q = true →
    (t.kernel.table p).passvalue ≤ (t.kernel.table q).passvalue + (t.kernel.table p).initStride

theorem passInv_boot : PassInv Watched.boot :=
  ⟨fun _ => le_rfl, fun _ => le_rfl, fun _ _ => rfl, fun _ _ h => nomatch h⟩

/-- The dispatched process has the smallest pass value of the runnable ones. -/
theorem PassInv.dispatched_le {t : Watched} (h : PassInv t) {e : Event} {p q : Slot}
    (hp : dispatched t.kernel e = some p) (hq : (t.kernel.table q).state = .runnable) :
    (t.kernel.table p).passvalue ≤ (t.kernel.table q).passvalue := by
  refine Stride.dispatched_le (fun r _ hmark => ?_) hp hq
  have := h.pass r
  omega

/-- The pass value and the stride of each process after an event. -/
theorem PassInv.change {t : Watched} (h : PassInv t) {e : Event} (fits : PassFits t.kernel e)
    (hstep : step t.kernel e = some k') (r : Slot) :
    0 ≤ (k'.table r).initStride ∧ 0 ≤ (k'.table r).passvalue ∧
    (t.nextUndispatched e r = true → (k'.table r).passvalue = (k'.table r).initStride) ∧
    (restarts t.kernel e ≠ some r → (t.kernel.table r).passvalue ≤ (k'.table r).passvalue) := by
  have hstride := h.stride r
  have hpass := h.pass r
  unfold Watched.nextUndispatched
  cases passChange_of_step h.stride hstep r with
  | restart now pass stride =>
    exact ⟨stride, pass ▸ stride, fun _ => pass, fun hno => absurd now hno⟩
  | dispatch now other pass stride =>
    rw [toInt32_eq_self (by omega) (fits r now)] at pass
    rw [if_neg other, if_pos now]
    exact ⟨stride ▸ hstride, by omega, (fun h => nomatch h), fun _ => by omega⟩
  | keep other idle same =>
    rw [if_neg other, if_neg idle, same.1, same.2]
    exact ⟨hstride, hpass, h.undispatched r, fun _ => le_rfl⟩

theorem PassInv.step {t t' : Watched} (h : PassInv t) {e : Event} (fits : PassFits t.kernel e)
    (hstep : watch t e = some t') : PassInv t' := by
  obtain ⟨k', hk', rfl⟩ := Option.map_eq_some_iff.1 hstep
  have hchange := h.change fits hk'
  refine ⟨fun r => (hchange r).1, fun r => (hchange r).2.1, fun r => (hchange r).2.2.1,
    fun p q hdispatched hcontended => ?_⟩
  obtain ⟨-, hpass, -, hkept⟩ := hchange q
  simp only [Watched.nextUndispatched, Watched.nextContended] at hdispatched hcontended
  split_ifs at hdispatched hcontended with hq hp hrestart
  · have hle := h.dispatched_le hp (by simpa using hcontended)
    have hqle := hkept hrestart
    cases passChange_of_step h.stride hk' p with
    | restart now _ _ => exact absurd now hq
    | keep _ idle _ => exact absurd hp idle
    | dispatch now other pass stride =>
      have hp0 := h.pass p
      have hs0 := h.stride p
      rw [toInt32_eq_self (by omega) (fits p now)] at pass
      show (k'.table p).passvalue ≤ (k'.table q).passvalue + (k'.table p).initStride
      omega
  · have hgap := h.contended p q hdispatched hcontended
    have hqle := hkept ‹_›
    cases passChange_of_step h.stride hk' p with
    | restart now _ _ => exact absurd now hq
    | dispatch now _ _ _ => exact absurd now hp
    | keep _ _ same =>
      show (k'.table p).passvalue ≤ (k'.table q).passvalue + (k'.table p).initStride
      rw [same.1, same.2]
      omega

/-! ## Runs -/

theorem watch_step {t t' : Watched} {e : Event} (h : watch t e = some t') :
    step t.kernel e = some t'.kernel := by
  obtain ⟨k', hk', rfl⟩ := Option.map_eq_some_iff.1 h
  exact hk'

/-- In every state reachable from boot without a pass value overflowing, of two processes `p` and `q`,
runnable or not, the first is ahead of the second by at most its own stride, if `p` has not been
dispatched since its pass value was last set to its stride, or `q` was runnable at the latest dispatch of
`p` and its pass value has not been set to its stride since. -/
theorem passGap_of_contended (es : List Event) (t : Watched) (fits : NoPassOverflow boot es)
    (reached : Trace.run watch Watched.boot es = some t) (p q : Slot)
    (hpq : t.undispatched p = true ∨ t.contended p q = true) :
    (t.kernel.table p).passvalue - (t.kernel.table q).passvalue ≤ (t.kernel.table p).initStride := by
  have hinv : PassInv t := Trace.run_invariant (fun _ _ _ h fits hstep => h.step fits hstep)
    passInv_boot (Trace.along_history (fun _ _ _ => watch_step) (along_passFits fits)) reached
  have hpass := hinv.pass q
  cases hu : t.undispatched p with
  | true =>
    have := hinv.undispatched p hu
    omega
  | false =>
    rw [hu] at hpq
    have := hinv.contended p q hu (hpq.resolve_left fun h => nomatch h)
    omega

/-- The first process forks; its child is dispatched while the parent is runnable. -/
def earlyFork : List Event :=
  [.userinit, .schedule 0, .forkBegin 0, .forkEnd 0, .yield 0, .schedule 0, .yield 0]

/-- The first process uses three time slices before it forks. -/
def lateFork : List Event :=
  [.userinit, .schedule 0, .yield 0, .schedule 0, .yield 0, .schedule 0, .forkBegin 0, .forkEnd 0,
    .yield 0]

theorem earlyFork_noPassOverflow : NoPassOverflow boot earlyFork := by
  refine noPassOverflow_cons rfl rfl ?_
  refine noPassOverflow_schedule (p := 0) (by decide) (by decide) rfl ?_
  refine noPassOverflow_cons rfl rfl ?_
  refine noPassOverflow_cons rfl rfl ?_
  refine noPassOverflow_cons rfl rfl ?_
  refine noPassOverflow_schedule (p := 1) (by decide) (by decide) rfl ?_
  exact noPassOverflow_cons rfl rfl trivial

theorem passGap_of_contended_earlyFork :
    ∃ t, Trace.run watch Watched.boot earlyFork = some t ∧
      (t.kernel.table 1).state = .runnable ∧ (t.kernel.table 0).state = .runnable ∧
      (t.kernel.table 1).passvalue - (t.kernel.table 0).passvalue ≤
        (t.kernel.table 1).initStride := by
  refine ⟨_, rfl, by decide, by decide, ?_⟩
  exact passGap_of_contended earlyFork _ earlyFork_noPassOverflow rfl 1 0 (Or.inr (by decide))

theorem lateFork_noPassOverflow : NoPassOverflow boot lateFork := by
  refine noPassOverflow_cons rfl rfl ?_
  refine noPassOverflow_schedule (p := 0) (by decide) (by decide) rfl ?_
  refine noPassOverflow_cons rfl rfl ?_
  refine noPassOverflow_schedule (p := 0) (by decide) (by decide) rfl ?_
  refine noPassOverflow_cons rfl rfl ?_
  refine noPassOverflow_schedule (p := 0) (by decide) (by decide) rfl ?_
  refine noPassOverflow_cons rfl rfl ?_
  refine noPassOverflow_cons rfl rfl ?_
  exact noPassOverflow_cons rfl rfl trivial

/-- After `lateFork` the parent is three of its strides ahead of its child, and both are runnable. -/
theorem not_passGap_lateFork :
    NoPassOverflow boot lateFork ∧ ∃ k, Trace.run step boot lateFork = some k ∧
      (k.table 0).state = .runnable ∧ (k.table 1).state = .runnable ∧
      ¬ (k.table 0).passvalue - (k.table 1).passvalue ≤ (k.table 0).initStride :=
  ⟨lateFork_noPassOverflow, _, rfl, by decide, by decide, by decide⟩

end SystemsProjects.Stride
