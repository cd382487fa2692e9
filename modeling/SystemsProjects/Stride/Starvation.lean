import SystemsProjects.Stride.Overflow

/-!
# Processes that wait

A waiting process is overtaken only by processes whose pass value is at most its own, and every dispatch
moves the other one closer by its stride.  The argument needs a positive stride, and `settickets` accepts
more than `MAXSTRIDE` tickets, for which the stride is 0; `overtaken_of_ticketsOk` is the bound for runs in
which no process asks for so many.
-/

namespace SystemsProjects.Stride

open MachineInt

/-! ## Strides are positive -/

/-- The event asks for at most `MAXSTRIDE` tickets, if it asks for any. -/
def TicketsOk (e : Event) : Prop := ∀ c n, e = .settickets c n → n ≤ MAXSTRIDE

variable {k k' : Kernel} {t t' : Counted} {e : Event} {p q r : Slot}

/-- Where the tickets of a slot come from. -/
theorem tickets_cases (hstep : step k e = some k') (r : Slot) :
    (k'.table r).tickets = 1 ∨ (∃ c n, e = .settickets c n ∧ (k'.table r).tickets = n) ∨
      ∃ p, (k'.table r).tickets = (k.table p).tickets := by
  cases (stepChange_of_step hstep).slot r with
  | create now free account state => exact Or.inl (congrArg Account.tickets account)
  | settickets event pos caller account state =>
    exact Or.inr (Or.inl ⟨_, _, event, congrArg Account.tickets account⟩)
  | inherit event parent pending done account state =>
    exact Or.inr (Or.inr ⟨_, congrArg Account.tickets account⟩)
  | undo event parent pending done account state => exact Or.inr (Or.inr ⟨r, congrArg Account.tickets account⟩)
  | dispatch now account state halted => exact Or.inr (Or.inr ⟨r, congrArg Account.tickets account⟩)
  | leave still caller released account state => exact Or.inr (Or.inr ⟨r, congrArg Account.tickets account⟩)
  | reap still zombie account state => exact Or.inr (Or.inr ⟨r, congrArg Account.tickets account⟩)
  | keep still quiet => exact Or.inr (Or.inr ⟨r, congrArg Account.tickets quiet.account⟩)

theorem tickets_le_of_step (h : ∀ r, (k.table r).tickets ≤ MAXSTRIDE) (hok : TicketsOk e)
    (hstep : step k e = some k') (r : Slot) : (k'.table r).tickets ≤ MAXSTRIDE := by
  rcases tickets_cases hstep r with hone | ⟨c, n, hevent, hn⟩ | ⟨p, hp⟩
  · rw [hone]
    decide
  · rw [hn]
    exact hok c n hevent
  · rw [hp]
    exact h p

theorem Accounted.stride_pos {a : Account} {n d : ℕ} (h : Accounted a n d) (hle : a.tickets ≤ MAXSTRIDE) :
    1 ≤ a.initStride := by
  have hpos := h.tickets
  rw [h.stride]
  exact Int.le_ediv_of_mul_le (by omega) (by omega)

/-! ## Overtaking -/

/-- The process is ready or running before the event, and the event does not change its tickets. -/
def Steady (k : Kernel) (e : Event) (r : Slot) : Prop :=
  ((k.table r).state = .runnable ∨ (k.table r).state = .running) ∧ reticketed k e ≠ some r

/-- Neither `p` nor `q` blocks, exits or changes its tickets, and `q` is not dispatched. -/
structure Waits (p q : Slot) (k : Kernel) (e : Event) : Prop where
  overtaker : Steady k e p
  waiting : Steady k e q
  undispatched : dispatched k e ≠ some q
  /-- When a CPU dispatches `p`, the process `q` is not already running on another one. -/
  contending : ∀ d, e = .schedule d → dispatched k e = some p → ∀ c, c ≠ d → (k.cpus c).proc ≠ some q

/-- A steady process keeps its stride, and its pass value unless it is dispatched. -/
theorem StateInv.steady_change (h : StateInv k) (hsteady : Steady k e r) (hstep : Stride.step k e = some k') :
    (k'.table r).initStride = (k.table r).initStride ∧
    (dispatched k e = some r →
      (k'.table r).passvalue = toInt32 ((k.table r).passvalue + (k.table r).initStride)) ∧
    (dispatched k e ≠ some r → (k'.table r).passvalue = (k.table r).passvalue) := by
  have hstate := hsteady.1
  have same : dispatched k e ≠ some r → (k'.table r).account = (k.table r).account →
      (k'.table r).initStride = (k.table r).initStride ∧
      (dispatched k e = some r →
        (k'.table r).passvalue = toInt32 ((k.table r).passvalue + (k.table r).initStride)) ∧
      (dispatched k e ≠ some r → (k'.table r).passvalue = (k.table r).passvalue) := fun hidle haccount =>
    ⟨congrArg Account.initStride haccount, fun hnow => absurd hnow hidle,
      fun _ => congrArg Account.passvalue haccount⟩
  cases (stepChange_of_step hstep).slot r with
  | create now free account state =>
    rw [free] at hstate
    exact absurd hstate (by decide)
  | inherit event parent pending done account state =>
    rw [h.pending _ r pending] at hstate
    exact absurd hstate (by decide)
  | undo event parent pending done account state =>
    rw [h.pending _ r pending] at hstate
    exact absurd hstate (by decide)
  | settickets event pos caller account state =>
    refine absurd ?_ hsteady.2
    rw [event, reticketed, if_neg (not_le.2 pos), caller]
  | dispatch now account state halted =>
    exact ⟨congrArg Account.initStride account, fun _ => congrArg Account.passvalue account,
      fun hidle => absurd now hidle⟩
  | leave still caller released account state => exact same still.dispatched account
  | reap still zombie account state => exact same still.dispatched account
  | keep still quiet => exact same still.dispatched quiet.account

/-- At a dispatch of `p` the waiting process is runnable. -/
theorem StateInv.runnable_of_waits (h : StateInv k) (hwaits : Waits p q k e) (hstep : Stride.step k e = some k')
    (hp : dispatched k e = some p) : (k.table q).state = .runnable := by
  rcases hwaits.waiting.1 with hrunnable | hrunning
  · exact hrunnable
  · obtain ⟨c, hc⟩ := h.running q hrunning
    cases e with
    | schedule d =>
      have hne : c ≠ d := by
        rintro rfl
        rw [(step_schedule hstep).1] at hc
        cases hc
      exact absurd hc (hwaits.contending d rfl hp c hne)
    | _ => cases hp

theorem dispatchCount_cons (hstep : step k e = some k') (es : List Event) :
    dispatchCount p k (e :: es) = (if dispatched k e = some p then 1 else 0) + dispatchCount p k' es := by
  cases e with
  | schedule c =>
    simp only [dispatchCount, dispatched, hstep]
    rfl
  | _ => simp [dispatchCount, dispatched, hstep]

theorem ExactInv.dispatched_le (h : ExactInv t) (hp : dispatched t.kernel e = some p)
    (hq : (t.kernel.table q).state = .runnable) :
    (t.kernel.table p).passvalue ≤ (t.kernel.table q).passvalue := by
  refine Stride.dispatched_le (fun r hr hmark => ?_) hp hq
  have htaken := h.account.used r (by rw [hr]; decide)
  have hnonneg := h.account.exactPass_nonneg htaken
  rw [h.pass htaken] at hmark
  omega

theorem ExactInv.passBounded_of_passFits (h : ExactInv t) (fits : PassFits t.kernel e) : PassBounded t e :=
  fun p hp => (h.sum_eq hp).symm.trans_le (fits p hp)

/-- All dispatches of `p` but the last take its pass value at most to that of the waiting process. -/
theorem ExactInv.dispatchCount_le {es : List Event} (h : ExactInv t)
    (fits : Trace.Along count (fun t e => PassFits t.kernel e) t es)
    (waits : Trace.Along count (fun t e => Waits p q t.kernel e) t es)
    (reached : Trace.run count t es = some t') :
    dispatchCount p t.kernel es = 0 ∨
      (dispatchCount p t.kernel es - 1) * (t.kernel.table p).initStride ≤
        (t.kernel.table q).passvalue - (t.kernel.table p).passvalue := by
  induction es generalizing t with
  | nil => exact Or.inl rfl
  | cons e es ih =>
    obtain ⟨t₁, ht₁, hrun⟩ := (Trace.run_cons_eq_some count).1 reached
    have hstep := count_step ht₁
    have hstates := h.account.states (step_halted hstep)
    obtain ⟨hstride, hnow, hidle⟩ := hstates.steady_change waits.1.overtaker hstep
    obtain ⟨-, -, hq⟩ := hstates.steady_change waits.1.waiting hstep
    have hpass := hq waits.1.undispatched
    have hrest := ih (h.step (h.passBounded_of_passFits fits.1) ht₁) (fits.2 t₁ ht₁) (waits.2 t₁ ht₁) hrun
    rw [hstride, hpass] at hrest
    rw [dispatchCount_cons hstep]
    by_cases hp : dispatched t.kernel e = some p
    · right
      have hle := h.dispatched_le hp (hstates.runnable_of_waits waits.1 hstep hp)
      have htaken := h.account.dispatched_taken hp
      have hnonneg : 0 ≤ (t.kernel.table p).passvalue + (t.kernel.table p).initStride := by
        rw [h.pass htaken]
        exact add_nonneg (h.account.exactPass_nonneg htaken) (h.account.taken p htaken).stride_nonneg
      rw [hnow hp, toInt32_eq_self hnonneg (fits.1 p hp)] at hrest
      rw [if_pos hp]
      push_cast
      rw [add_sub_cancel_left]
      rcases hrest with hzero | hcount
      · rw [hzero, Nat.cast_zero, zero_mul]
        exact sub_nonneg.2 hle
      · rw [sub_mul, one_mul] at hcount
        linarith
    · rw [if_neg hp, zero_add]
      rwa [hidle hp] at hrest

/-! ## Runs -/

/-- A run without overflow in which every process asks for at most `MAXSTRIDE` tickets leads to positive
strides. -/
theorem stride_pos_of_ticketsOk {es : List Event} (tickets : ∀ e ∈ es, TicketsOk e)
    (reached : Trace.run count Counted.boot es = some t) (hr : (t.kernel.table r).state ≠ .unused) :
    1 ≤ (t.kernel.table r).initStride := by
  have hle : ∀ r, (t.kernel.table r).tickets ≤ MAXSTRIDE := by
    refine Trace.run_invariant (P := fun _ e => TicketsOk e) (I := fun t => ∀ r, (t.kernel.table r).tickets ≤ MAXSTRIDE)
      (fun t e t' h hok hstep => tickets_le_of_step h hok (count_step hstep)) (fun _ => show (0 : ℤ) ≤ MAXSTRIDE by decide)
      ((Trace.along_event_iff reached).2 tickets) reached
  exact ((accountInv_of_run reached).accounted hr).stride_pos (hle r)

theorem exactInv_of_run {es : List Event} (fits : NoPassOverflow boot es)
    (reached : Trace.run count Counted.boot es = some t) : ExactInv t :=
  Trace.run_invariant (fun _ _ _ h fits hstep => h.step (h.passBounded_of_passFits fits) hstep) exactInv_boot
    (Trace.along_history (fun _ _ _ => count_step) (along_passFits fits)) reached

theorem count_history (t : Counted) (e : Event) (k' : Kernel) (h : step t.kernel e = some k') :
    ∃ t', count t e = some t' ∧ t'.kernel = k' := ⟨_, by rw [count, h]; rfl, rfl⟩

/-- After a run without overflow in which no process asks for more than `MAXSTRIDE` tickets, every stride is
positive, and a process `p` whose pass value is at most that of `q` is dispatched at most
`(pass q - pass p) / stride p + 1` times before `q` is, while neither blocks, exits or changes its tickets. -/
theorem overtaken_of_ticketsOk (es : List Event) (k : Kernel) (fits : NoPassOverflow boot es)
    (tickets : ∀ e ∈ es, TicketsOk e) (reached : Trace.run step boot es = some k) :
    (∀ p, (k.table p).state ≠ .unused → 1 ≤ (k.table p).initStride) ∧
    ∀ p q, (k.table p).state ≠ .unused → (k.table p).passvalue ≤ (k.table q).passvalue →
      ∀ es' k', NoPassOverflow k es' → Trace.run step k es' = some k' →
        Trace.Along step (Waits p q) k es' →
        (dispatchCount p k es' : ℤ) ≤
          ((k.table q).passvalue - (k.table p).passvalue) / (k.table p).initStride + 1 := by
  obtain ⟨t, ht, rfl⟩ := Trace.run_history (t := Counted.boot) count_history reached
  have hpos : ∀ p, (t.kernel.table p).state ≠ .unused → 1 ≤ (t.kernel.table p).initStride :=
    fun p hp => stride_pos_of_ticketsOk tickets ht hp
  refine ⟨hpos, fun p q hp hle es' k' fits' reached' waits => ?_⟩
  obtain ⟨t', ht', -⟩ := Trace.run_history count_history reached'
  have hcount := (exactInv_of_run fits ht).dispatchCount_le
    (Trace.along_history (fun _ _ _ => count_step) (along_passFits fits'))
    (Trace.along_history (fun _ _ _ => count_step) waits) ht'
  have hstride : 0 < (t.kernel.table p).initStride := hpos p hp
  rcases hcount with hzero | hcount
  · have hdiv := Int.ediv_nonneg (sub_nonneg.2 hle) hstride.le
    rw [hzero]
    omega
  · have hdiv := Int.le_ediv_of_mul_le hstride hcount
    omega

/-- The first process forks and then asks for `n` tickets. -/
def forkAndAsk (n : ℤ) : List Event :=
  [.userinit, .schedule 0, .forkBegin 0, .forkEnd 0, .settickets 0 n]

/-- The first process gives up the CPU and is dispatched again, twice. -/
def twoSlices : List Event := [.yield 0, .schedule 0, .yield 0, .schedule 0]

theorem forkAndAsk_noPassOverflow (n : ℤ) : NoPassOverflow boot (forkAndAsk n) := by
  refine noPassOverflow_cons rfl rfl ?_
  refine noPassOverflow_schedule (p := 0) (by decide) (by decide) rfl ?_
  refine noPassOverflow_cons rfl rfl ?_
  refine noPassOverflow_cons rfl rfl ?_
  exact noPassOverflow_cons rfl rfl trivial

/-- `q` is on no CPU. -/
theorem waits_of_offCpu (hp : Steady k e p) (hq : Steady k e q) (hidle : dispatched k e ≠ some q)
    (hcpus : ∀ c, (k.cpus c).proc ≠ some q) : Waits p q k e := ⟨hp, hq, hidle, fun _ _ _ c _ => hcpus c⟩

theorem overtaken_of_ticketsOk_four :
    ∃ k, Trace.run step boot (forkAndAsk 4) = some k ∧
      1 ≤ (k.table 0).initStride ∧
      (dispatchCount 0 k twoSlices : ℤ) ≤
        ((k.table 1).passvalue - (k.table 0).passvalue) / (k.table 0).initStride + 1 := by
  have hok : ∀ e ∈ forkAndAsk 4, TicketsOk e := by
    rintro e he c n rfl
    obtain ⟨-, rfl⟩ : c = 0 ∧ n = 4 := by simpa [forkAndAsk] using he
    decide
  have h := overtaken_of_ticketsOk (forkAndAsk 4) _ (forkAndAsk_noPassOverflow 4) hok rfl
  refine ⟨_, rfl, h.1 0 (by decide), ?_⟩
  refine h.2 0 1 (by decide) (by decide) twoSlices _ ?_ rfl ?_
  · refine noPassOverflow_cons rfl rfl ?_
    refine noPassOverflow_schedule (p := 0) (by decide) (by decide) rfl ?_
    refine noPassOverflow_cons rfl rfl ?_
    exact noPassOverflow_schedule (p := 0) (by decide) (by decide) rfl trivial
  · refine Trace.along_cons_of_eq ?_ rfl (Trace.along_cons_of_eq ?_ rfl (Trace.along_cons_of_eq ?_ rfl
      (Trace.along_cons_of_eq ?_ rfl trivial))) <;>
      exact waits_of_offCpu ⟨by decide, by decide⟩ ⟨by decide, by decide⟩ (by decide) (by decide)

/-- A process with 10001 tickets has stride 0, and is dispatched twice while its child, whose pass value is
larger, waits. -/
theorem not_overtaken_manyTickets :
    NoPassOverflow boot (forkAndAsk 10001) ∧ ∃ k, Trace.run step boot (forkAndAsk 10001) = some k ∧
      ((k.table 0).state ≠ .unused ∧ ¬ 1 ≤ (k.table 0).initStride) ∧
      (k.table 0).passvalue ≤ (k.table 1).passvalue ∧ NoPassOverflow k twoSlices ∧
      (Trace.run step k twoSlices).isSome ∧ Trace.Along step (Waits 0 1) k twoSlices ∧
      ¬ (dispatchCount 0 k twoSlices : ℤ) ≤
        ((k.table 1).passvalue - (k.table 0).passvalue) / (k.table 0).initStride + 1 := by
  refine ⟨forkAndAsk_noPassOverflow 10001, _, rfl, ⟨by decide, by decide⟩, by decide, ?_, rfl, ?_, by decide⟩
  · refine noPassOverflow_cons rfl rfl ?_
    refine noPassOverflow_schedule (p := 0) (by decide) (by decide) rfl ?_
    refine noPassOverflow_cons rfl rfl ?_
    exact noPassOverflow_schedule (p := 0) (by decide) (by decide) rfl trivial
  · refine Trace.along_cons_of_eq ?_ rfl (Trace.along_cons_of_eq ?_ rfl (Trace.along_cons_of_eq ?_ rfl
      (Trace.along_cons_of_eq ?_ rfl trivial))) <;>
      exact waits_of_offCpu ⟨by decide, by decide⟩ ⟨by decide, by decide⟩ (by decide) (by decide)

end SystemsProjects.Stride
