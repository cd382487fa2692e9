import SystemsProjects.Stride.Slots

/-!
# The accounts of the processes

`Counted` is the kernel with the number of dispatches of each slot, since `allocproc` took it and since
the process was created or last set its tickets.  In every reachable state the account of a slot that is
in use is a function of its tickets and of these two numbers (`accounted_of_run`), through `fork`, recycled
slots and dispatches of a process that is not runnable; `ticks` is an `int`, so it holds the first number
modulo 2^32.
-/

namespace SystemsProjects.Stride

open MachineInt

/-- The kernel with the history of its dispatches. -/
structure Counted where
  kernel : Kernel
  /-- Dispatches of the slot since `allocproc` took it last. -/
  dispatches : Slot → ℕ
  /-- Dispatches since the process was created or last set its tickets, whichever came later. -/
  sinceReset : Slot → ℕ

def Counted.boot : Counted where
  kernel := Stride.boot
  dispatches _ := 0
  sinceReset _ := 0

def Counted.nextDispatches (t : Counted) (e : Event) (r : Slot) : ℕ :=
  if created t.kernel e = some r then 0
  else if dispatched t.kernel e = some r then t.dispatches r + 1
  else t.dispatches r

def Counted.nextSinceReset (t : Counted) (e : Event) (r : Slot) : ℕ :=
  if created t.kernel e = some r ∨ reticketed t.kernel e = some r then 0
  else if dispatched t.kernel e = some r then t.sinceReset r + 1
  else t.sinceReset r

def count (t : Counted) (e : Event) : Option Counted :=
  (step t.kernel e).map fun k => ⟨k, t.nextDispatches e, t.nextSinceReset e⟩

/-- The account of a process that has been dispatched `n` times in all, and `d` times since its pass value
was last set to its stride. -/
structure Accounted (a : Account) (n d : ℕ) : Prop where
  tickets : 1 ≤ a.tickets
  stride : a.initStride = MAXSTRIDE / a.tickets
  ticks : a.ticks = toInt32 n
  pass : a.passvalue = toInt32 (a.initStride * (1 + d))

/-! ## The states of the slots -/

/-- The running processes are those on a CPU, each on one only, and the slot of a pending fork is an embryo
of that fork only. -/
structure StateInv (k : Kernel) : Prop where
  current : ∀ c p, (k.cpus c).proc = some p → (k.table p).state = .running
  running : ∀ p, (k.table p).state = .running → ∃ c, (k.cpus c).proc = some p
  alone : ∀ c d p, (k.cpus c).proc = some p → (k.cpus d).proc = some p → c = d
  pending : ∀ p r, k.np p = some r → (k.table r).state = .embryo
  parent : ∀ p q r, k.np p = some r → k.np q = some r → p = q

variable {k k' : Kernel} {e : Event} {t t' : Counted} {c : Fin NCPU} {p r : Slot}

theorem not_dispatched_of_created (h : created k e = some r) (p : Slot) : dispatched k e ≠ some p := by
  cases e with
  | schedule c => cases h
  | _ => exact none_ne_some p

/-- A process that stays on its CPU keeps running. -/
theorem StateInv.keeps_running (h : StateInv k) (hstep : step k e = some k') (hc : (k.cpus c).proc = some r)
    (hc' : (k'.cpus c).proc = some r) : (k'.table r).state = .running := by
  have hrunning := h.current c r hc
  cases (stepChange_of_step hstep).slot r with
  | create now free account state => exact absurd (hrunning.symm.trans free) (by decide)
  | inherit event parent pending done account state =>
    exact absurd (hrunning.symm.trans (h.pending _ r pending)) (by decide)
  | undo event parent pending done account state =>
    exact absurd (hrunning.symm.trans (h.pending _ r pending)) (by decide)
  | settickets event pos caller account state => exact state.trans hrunning
  | dispatch now account state halted => exact state
  | leave still caller released account state =>
    rw [h.alone _ c r caller hc, hc'] at released
    cases released
  | reap still zombie account state => exact absurd (hrunning.symm.trans zombie) (by decide)
  | keep still quiet =>
    rcases quiet.state with hsame | ⟨hsleep, -⟩
    · exact hsame.trans hrunning
    · exact absurd (hrunning.symm.trans hsleep) (by decide)

/-- A slot that stays the child of a pending fork stays an embryo. -/
theorem StateInv.embryo (h : StateInv k) (hstep : step k e = some k') (hlive : k'.halted = false)
    (hp : k.np p = some r) (hp' : k'.np p = some r) : (k'.table r).state = .embryo := by
  have hembryo := h.pending p r hp
  have hdone : ∀ q, k.np q = some r → k'.np q = none → False := fun q hq hdone => by
    rw [h.parent q p r hq hp, hp'] at hdone
    cases hdone
  cases (stepChange_of_step hstep).slot r with
  | create now free account state => exact absurd (hembryo.symm.trans free) (by decide)
  | inherit event parent pending done account state => exact (hdone _ pending done).elim
  | undo event parent pending done account state => exact (hdone _ pending done).elim
  | settickets event pos caller account state => exact state.trans hembryo
  | dispatch now account state halted =>
    rw [hembryo, hlive] at halted
    cases halted
  | leave still caller released account state =>
    exact absurd (hembryo.symm.trans (h.current _ r caller)) (by decide)
  | reap still zombie account state => exact absurd (hembryo.symm.trans zombie) (by decide)
  | keep still quiet =>
    rcases quiet.state with hsame | ⟨hsleep, -⟩
    · exact hsame.trans hembryo
    · exact absurd (hembryo.symm.trans hsleep) (by decide)

/-- A slot that a fork has just taken is an embryo, and nobody else's. -/
theorem StateInv.created_embryo (h : StateInv k) (hstep : step k e = some k') (hnow : created k e = some r)
    (hp : k'.np p = some r) : (k'.table r).state = .embryo ∧ ∀ q, k.np q ≠ some r := by
  cases (stepChange_of_step hstep).slot r with
  | create now free account state =>
    have hnone : ∀ q, k.np q ≠ some r := fun q hq =>
      absurd (free.symm.trans (h.pending q r hq)) (by decide)
    refine ⟨?_, hnone⟩
    rcases state with hembryo | ⟨-, hsame⟩
    · exact hembryo
    · exact absurd (hsame ▸ hp) (hnone p)
  | inherit event parent pending done account state => rw [event] at hnow; cases hnow
  | undo event parent pending done account state => rw [event] at hnow; cases hnow
  | settickets event pos caller account state => rw [event] at hnow; cases hnow
  | dispatch now account state halted => exact absurd now (not_dispatched_of_created hnow r)
  | leave still caller released account state => exact absurd hnow still.created
  | reap still zombie account state => exact absurd hnow still.created
  | keep still quiet => exact absurd hnow still.created

/-- The process on a CPU after an event was there before, or the event has dispatched it. -/
theorem proc_cases (hstep : step k e = some k') (hc : (k'.cpus c).proc = some p) :
    (k.cpus c).proc = some p ∨ e = .schedule c ∧ dispatched k e = some p := by
  cases (stepChange_of_step hstep).cpu c with
  | keep same => exact Or.inl (same ▸ hc)
  | release left state proc chosen =>
    rw [proc] at hc
    cases hc
  | dispatch event now idle cpu =>
    rw [cpu] at hc
    exact Or.inr ⟨event, now.trans hc⟩

/-- The child of a pending fork was there before, or the event has taken its slot. -/
theorem np_cases (hstep : step k e = some k') (hp : k'.np p = some r) :
    k.np p = some r ∨ created k e = some r ∧ ∃ c, e = .forkBegin c ∧ (k.cpus c).proc = some p := by
  cases (stepChange_of_step hstep).np p with
  | keep same => exact Or.inl (same ▸ hp)
  | done none =>
    rw [none] at hp
    cases hp
  | start event parent now pending => exact Or.inr ⟨now.trans (pending.symm.trans hp), _, event, parent⟩

theorem dispatched_state (hstep : step k e = some k') (h : dispatched k e = some r) :
    (k'.table r).state = .running ∧ k'.halted = !resumable (k.table r).state := by
  cases (stepChange_of_step hstep).slot r with
  | create now free account state => exact absurd h (not_dispatched_of_created now r)
  | inherit event parent pending done account state => rw [event] at h; cases h
  | undo event parent pending done account state => rw [event] at h; cases h
  | settickets event pos caller account state => rw [event] at h; cases h
  | dispatch now account state halted => exact ⟨state, halted⟩
  | leave still caller released account state => exact absurd h still.dispatched
  | reap still zombie account state => exact absurd h still.dispatched
  | keep still quiet => exact absurd h still.dispatched

/-- A process that is running after an event is on a CPU: it stays on its own, or has been dispatched. -/
theorem StateInv.on_cpu (h : StateInv k) (hstep : step k e = some k') (hr : (k'.table r).state = .running) :
    ∃ c, (k'.cpus c).proc = some r := by
  have stays : ∀ c, (k.cpus c).proc = some r → (k'.cpus c).proc = some r := fun c hc => by
    cases (stepChange_of_step hstep).cpu c with
    | keep same => rw [same, hc]
    | release left state proc chosen =>
      obtain rfl := Option.some.inj (left.symm.trans hc)
      exact absurd hr state
    | dispatch event now idle cpu => exact nomatch idle.symm.trans hc
  have before : (k.table r).state = .running → ∃ c, (k'.cpus c).proc = some r := fun hrunning => by
    obtain ⟨c, hc⟩ := h.running r hrunning
    exact ⟨c, stays c hc⟩
  cases (stepChange_of_step hstep).slot r with
  | create now free account state =>
    rw [hr] at state
    exact absurd state (by simp)
  | inherit event parent pending done account state => exact absurd (hr.symm.trans state) (by decide)
  | undo event parent pending done account state => exact absurd (hr.symm.trans state) (by decide)
  | settickets event pos caller account state => exact before (state.symm.trans hr)
  | dispatch now account state halted =>
    cases e with
    | schedule c =>
      refine ⟨c, ?_⟩
      rw [(step_schedule hstep).2, scheduler_after_eq now]
      simp [Kernel.setCpu]
    | _ => cases now
  | leave still caller released account state =>
    rw [hr] at state
    exact absurd state (by decide)
  | reap still zombie account state => exact absurd (hr.symm.trans state) (by decide)
  | keep still quiet =>
    rcases quiet.state with hsame | ⟨-, hrunnable⟩
    · exact before (hsame.symm.trans hr)
    · exact absurd (hr.symm.trans hrunnable) (by decide)

theorem StateInv.step (h : StateInv k) (hstep : step k e = some k') (hlive : k'.halted = false) :
    StateInv k' := by
  -- A dispatched process was runnable or asleep, so it was on no CPU.
  have hfree : ∀ {p c}, dispatched k e = some p → (k.cpus c).proc = some p → False := fun {p c} hp hc => by
    have hhalted := (dispatched_state hstep hp).2
    rw [hlive, h.current c p hc] at hhalted
    cases hhalted
  refine ⟨fun c p hc => ?_, fun p hp => h.on_cpu hstep hp, fun c d p hc hd => ?_, fun p r hp => ?_,
    fun p q r hp hq => ?_⟩
  · rcases proc_cases hstep hc with hold | ⟨-, hnew⟩
    · exact h.keeps_running hstep hold hc
    · exact (dispatched_state hstep hnew).1
  · rcases proc_cases hstep hc with hold | ⟨hevent, hnew⟩ <;> rcases proc_cases hstep hd with hold' | ⟨hevent', hnew'⟩
    · exact h.alone c d p hold hold'
    · exact (hfree hnew' hold).elim
    · exact (hfree hnew hold').elim
    · exact Event.schedule.inj (hevent.symm.trans hevent')
  · rcases np_cases hstep hp with hold | ⟨hnew, -⟩
    · exact h.embryo hstep hlive hold hp
    · exact (h.created_embryo hstep hnew hp).1
  · rcases np_cases hstep hp with hold | ⟨hnew, c, hevent, hcaller⟩ <;>
      rcases np_cases hstep hq with hold' | ⟨hnew', d, hevent', hcaller'⟩
    · exact h.parent p q r hold hold'
    · exact absurd hold ((h.created_embryo hstep hnew' hq).2 p)
    · exact absurd hold' ((h.created_embryo hstep hnew hp).2 q)
    · obtain rfl := Event.forkBegin.inj (hevent.symm.trans hevent')
      exact Option.some.inj (hcaller.symm.trans hcaller')

/-! ## The accounts -/

theorem Accounted.stride_nonneg {a : Account} {n d : ℕ} (h : Accounted a n d) : 0 ≤ a.initStride := by
  rw [h.stride]
  exact Int.ediv_nonneg (by decide) (by have := h.tickets; omega)

/-- The account of a process whose pass value has just been set to its stride. -/
theorem accounted_reset {tickets ticks : ℤ} {n : ℕ} (htickets : 1 ≤ tickets) (hticks : ticks = toInt32 n) :
    Accounted ⟨tickets, MAXSTRIDE / tickets, MAXSTRIDE / tickets, ticks⟩ n 0 := by
  refine ⟨htickets, rfl, hticks, ?_⟩
  have h0 : 0 ≤ MAXSTRIDE / tickets := Int.ediv_nonneg (by decide) (by omega)
  have h1 : MAXSTRIDE / tickets ≤ MAXSTRIDE := Int.ediv_le_self tickets (by decide)
  simp only [Nat.cast_zero, add_zero, mul_one]
  rw [toInt32_eq_self h0 (h1.trans (by decide))]

theorem Accounted.dispatch {a : Account} {n d : ℕ} (h : Accounted a n d) :
    Accounted ⟨a.tickets, a.initStride, toInt32 (a.passvalue + a.initStride), toInt32 (a.ticks + 1)⟩
      (n + 1) (d + 1) := by
  refine ⟨h.tickets, h.stride, ?_, ?_⟩
  · simp only [h.ticks, toInt32_toInt32_add]
    push_cast
    rfl
  · simp only [h.pass, toInt32_toInt32_add]
    congr 1
    push_cast
    ring

/-- The invariant of the accounts.  A slot has tickets once `allocproc` has taken it; from then on its
account is kept, also while it is unused. -/
structure AccountInv (t : Counted) : Prop where
  states : t.kernel.halted = false → StateInv t.kernel
  taken : ∀ r, (t.kernel.table r).tickets ≠ 0 →
    Accounted (t.kernel.table r).account (t.dispatches r) (t.sinceReset r)
  used : ∀ r, (t.kernel.table r).state ≠ .unused → (t.kernel.table r).tickets ≠ 0
  chosen : ∀ c r, (t.kernel.cpus c).chosenProc = some r → (t.kernel.table r).tickets ≠ 0
  fresh : t.kernel.halted = false → ∀ r, (t.kernel.table r).state = .embryo →
    t.dispatches r = 0 ∧ t.sinceReset r = 0

theorem accountInv_boot : AccountInv Counted.boot where
  states _ := ⟨nofun, nofun, nofun, nofun, nofun⟩
  taken _ h := absurd rfl h
  used _ h := absurd rfl h
  chosen _ _ h := nomatch h
  fresh _ _ h := nomatch h

theorem AccountInv.accounted (h : AccountInv t) (hr : (t.kernel.table r).state ≠ .unused) :
    Accounted (t.kernel.table r).account (t.dispatches r) (t.sinceReset r) := h.taken r (h.used r hr)

theorem step_halted (h : step k e = some k') : k.halted = false := by
  unfold step at h
  split_ifs at h with hhalted
  simpa using hhalted

theorem switchedTo_eq (k : Kernel) (c : Fin NCPU) :
    (scheduler k c).switchedTo = (scan k.table (k.cpus c).chosenProc).2 := by
  unfold scheduler
  split
  · rename_i hscan
    exact hscan.symm
  · rename_i p hscan
    exact hscan.symm

/-- A dispatched process is runnable or was chosen before. -/
theorem dispatched_cases (h : dispatched k e = some r) :
    (k.table r).state = .runnable ∨ ∃ c, (k.cpus c).chosenProc = some r := by
  cases e with
  | schedule c =>
    have hscan := scan_eq_select k.table (k.cpus c).chosenProc
    rcases hl : runnableSlots k.table with _ | ⟨a, l⟩ <;> rw [hl] at hscan
    · refine Or.inr ⟨c, ?_⟩
      have hto : (scheduler k c).switchedTo = some r := h
      rw [switchedTo_eq, hscan] at hto
      exact hto
    · have hto := (scheduler_switchedTo_of_runnable k c hl).2
      obtain rfl := Option.some.inj (hto.symm.trans h)
      refine Or.inl (mem_runnableSlots.1 ?_)
      rw [hl]
      exact select_mem _ a l
  | _ => cases h

theorem AccountInv.dispatched_taken (h : AccountInv t) (hr : dispatched t.kernel e = some r) :
    (t.kernel.table r).tickets ≠ 0 := by
  rcases dispatched_cases hr with hrun | ⟨c, hc⟩
  · exact h.used r (by rw [hrun]; decide)
  · exact h.chosen c r hc

theorem Still.next (h : Still t.kernel e r) :
    t.nextDispatches e r = t.dispatches r ∧ t.nextSinceReset e r = t.sinceReset r := by
  unfold Counted.nextDispatches Counted.nextSinceReset
  rw [if_neg h.created, if_neg h.dispatched, if_neg (not_or.2 ⟨h.created, h.reticketed⟩), if_neg h.dispatched]
  exact ⟨rfl, rfl⟩

/-- After an event the account of a slot is right again, or the slot has never been taken. -/
theorem AccountInv.slot (h : AccountInv t) (hstep : step t.kernel e = some k') (r : Slot) :
    Accounted (k'.table r).account (t.nextDispatches e r) (t.nextSinceReset e r) ∨
      (k'.table r).tickets = 0 ∧ (t.kernel.table r).tickets = 0 ∧ (k'.table r).state = .unused := by
  have hstates := h.states (step_halted hstep)
  have same : Still t.kernel e r → (t.kernel.table r).state ≠ .unused →
      (k'.table r).account = (t.kernel.table r).account →
      Accounted (k'.table r).account (t.nextDispatches e r) (t.nextSinceReset e r) := by
    intro still hused haccount
    rw [haccount, still.next.1, still.next.2]
    exact h.accounted hused
  cases (stepChange_of_step hstep).slot r with
  | create now free account state =>
    left
    rw [account, Counted.nextDispatches, if_pos now, Counted.nextSinceReset, if_pos (Or.inl now)]
    exact accounted_reset le_rfl rfl
  | @inherit c p event parent pending done account state =>
    left
    have hparent := h.accounted (r := p) (by rw [hstates.current c p parent]; decide)
    obtain ⟨hn, hd⟩ := h.fresh (step_halted hstep) r (hstates.pending p r pending)
    subst event
    rw [account, show t.nextDispatches (.forkEnd c) r = 0 from hn, show t.nextSinceReset (.forkEnd c) r = 0 from hd]
    have hstride : (t.kernel.table p).initStride = MAXSTRIDE / (t.kernel.table p).tickets := hparent.stride
    rw [hstride]
    exact accounted_reset hparent.tickets rfl
  | @undo c p event parent pending done account state =>
    left
    subst event
    refine same ⟨none_ne_some r, none_ne_some r, none_ne_some r, none_ne_some r⟩ ?_ account
    rw [hstates.pending p r pending]
    decide
  | @settickets c n event pos caller account state =>
    left
    have hcaller := h.accounted (r := r) (by rw [hstates.current c r caller]; decide)
    subst event
    have hnow : reticketed t.kernel (.settickets c n) = some r := by
      rw [reticketed, if_neg (not_le.2 pos), caller]
    rw [account, Counted.nextSinceReset, if_pos (Or.inr hnow)]
    exact accounted_reset pos hcaller.ticks
  | dispatch now account state halted =>
    left
    have hcreated : created t.kernel e ≠ some r := fun hc => not_dispatched_of_created hc r now
    have hreticketed : reticketed t.kernel e ≠ some r := by
      cases e with
      | schedule c => exact none_ne_some r
      | _ => cases now
    rw [account, Counted.nextDispatches, if_neg hcreated, if_pos now, Counted.nextSinceReset,
      if_neg (not_or.2 ⟨hcreated, hreticketed⟩), if_pos now]
    exact (h.taken r (h.dispatched_taken now)).dispatch
  | leave still caller released account state =>
    left
    refine same still ?_ account
    rw [hstates.current _ r caller]
    decide
  | reap still zombie account state =>
    left
    refine same still ?_ account
    rw [zombie]
    decide
  | keep still quiet =>
    by_cases hunused : (t.kernel.table r).state = .unused
    · by_cases htickets : (t.kernel.table r).tickets = 0
      · right
        refine ⟨(congrArg Account.tickets quiet.account).trans htickets, htickets, ?_⟩
        rcases quiet.state with hsame | ⟨hsleep, -⟩
        · exact hsame.trans hunused
        · exact absurd (hunused.symm.trans hsleep) (by decide)
      · left
        rw [quiet.account, still.next.1, still.next.2]
        exact h.taken r htickets
    · exact Or.inl (same still hunused quiet.account)

theorem Accounted.tickets_ne_zero {v : Proc} {n d : ℕ} (h : Accounted v.account n d) : v.tickets ≠ 0 := by
  have := h.tickets
  simp only [Proc.account] at this
  omega

theorem AccountInv.step (h : AccountInv t) (hstep : count t e = some t') : AccountInv t' := by
  obtain ⟨k', hk', rfl⟩ := Option.map_eq_some_iff.1 hstep
  have hstates := h.states (step_halted hk')
  -- A slot that has been taken stays taken.
  have htaken : ∀ r, (t.kernel.table r).tickets ≠ 0 → (k'.table r).tickets ≠ 0 := fun r hr => by
    rcases h.slot hk' r with haccounted | ⟨-, hzero, -⟩
    · exact haccounted.tickets_ne_zero
    · exact absurd hzero hr
  refine ⟨hstates.step hk', fun r hr => ?_, fun r hr => ?_, fun c r hc => ?_, fun hlive r hr => ?_⟩
  · rcases h.slot hk' r with haccounted | ⟨hzero, -, -⟩
    · exact haccounted
    · exact absurd hzero hr
  · rcases h.slot hk' r with haccounted | ⟨-, -, hunused⟩
    · exact haccounted.tickets_ne_zero
    · exact absurd hunused hr
  · refine htaken r ?_
    cases (stepChange_of_step hk').cpu c with
    | keep same => exact h.chosen c r (by rw [← same]; exact hc)
    | release left state proc chosen => exact h.chosen c r (chosen ▸ hc)
    | dispatch event now idle cpu =>
      have hp : (k'.cpus c).chosenProc = some r := hc
      rw [cpu] at hp
      exact h.dispatched_taken (now.trans hp)
  · have hr' : (k'.table r).state = .embryo := hr
    cases (stepChange_of_step hk').slot r with
    | create now free account state =>
      exact ⟨if_pos now, if_pos (Or.inl now)⟩
    | keep still quiet =>
      rcases quiet.state with hsame | ⟨-, hrunnable⟩
      · simp only [still.next.1, still.next.2]
        exact h.fresh (step_halted hk') r (hsame.symm.trans hr')
      · exact absurd (hrunnable.symm.trans hr') (by decide)
    | settickets event pos caller account state =>
      exact absurd ((hstates.current _ r caller).symm.trans (state.symm.trans hr')) (by decide)
    | inherit event parent pending done account state => exact absurd (state.symm.trans hr') (by decide)
    | undo event parent pending done account state => exact absurd (state.symm.trans hr') (by decide)
    | dispatch now account state halted => exact absurd (state.symm.trans hr') (by decide)
    | leave still caller released account state =>
      rw [hr'] at state
      exact absurd state (by decide)
    | reap still zombie account state => exact absurd (state.symm.trans hr') (by decide)

/-! ## Runs -/

theorem count_step (h : count t e = some t') : step t.kernel e = some t'.kernel := by
  obtain ⟨k', hk', rfl⟩ := Option.map_eq_some_iff.1 h
  exact hk'

theorem accountInv_of_run {es : List Event} (reached : Trace.run count Counted.boot es = some t) : AccountInv t :=
  Trace.run_invariant (P := fun _ _ => True) (fun _ _ _ h _ hstep => h.step hstep) accountInv_boot
    (Trace.along_of_forall count (fun _ _ => trivial) _ es) reached

/-- In every reachable state every slot that is in use has at least one ticket, the stride of its tickets,
as many ticks as it has been dispatched since `allocproc`, and a pass value of its stride times one plus the
number of dispatches since it was created or last set its tickets, both as an `int`. -/
theorem accounted_of_run (es : List Event) (t : Counted) (reached : Trace.run count Counted.boot es = some t)
    (r : Slot) (used : (t.kernel.table r).state ≠ .unused) :
    1 ≤ (t.kernel.table r).tickets ∧ (t.kernel.table r).initStride = MAXSTRIDE / (t.kernel.table r).tickets ∧
      (t.kernel.table r).ticks = toInt32 (t.dispatches r) ∧
      (t.kernel.table r).passvalue = toInt32 ((t.kernel.table r).initStride * (1 + t.sinceReset r)) := by
  have haccounted := (accountInv_of_run reached).accounted used
  exact ⟨haccounted.tickets, haccounted.stride, haccounted.ticks, haccounted.pass⟩

/-- The first process forks and then sets its tickets. -/
def forkAndSet : List Event :=
  [.userinit, .schedule 0, .forkBegin 0, .forkEnd 0, .settickets 0 4, .yield 0, .schedule 0]

theorem accounted_of_run_forkAndSet :
    ∃ t, Trace.run count Counted.boot forkAndSet = some t ∧ (t.kernel.table 0).state ≠ .unused ∧
      1 ≤ (t.kernel.table 0).tickets ∧ (t.kernel.table 0).initStride = MAXSTRIDE / (t.kernel.table 0).tickets ∧
      (t.kernel.table 0).ticks = toInt32 (t.dispatches 0) ∧
      (t.kernel.table 0).passvalue = toInt32 ((t.kernel.table 0).initStride * (1 + t.sinceReset 0)) := by
  refine ⟨_, rfl, by decide, ?_⟩
  exact accounted_of_run forkAndSet _ rfl 0 (by decide)

/-! ## A lone process -/

/-- Time slices of the process that CPU 0 dispatches. -/
def slices : ℕ → List Event
  | 0 => []
  | n + 1 => .schedule 0 :: .yield 0 :: slices n

/-- The first process is the only runnable one, CPU 0 is in `scheduler`, and there have been `n`
dispatches. -/
structure Lone (t : Counted) (n : ℕ) : Prop where
  live : t.kernel.halted = false
  runnable : ∀ r, (t.kernel.table r).state = .runnable ↔ r = 0
  idle : (t.kernel.cpus 0).proc = none
  stride : (t.kernel.table 0).initStride = MAXSTRIDE
  dispatches : t.dispatches 0 = n
  sinceReset : t.sinceReset 0 = n

theorem Lone.switchedTo {n : ℕ} (h : Lone t n) : (scheduler t.kernel 0).switchedTo = some 0 := by
  have hslots : runnableSlots t.kernel.table = [0] := by
    unfold runnableSlots
    simp only [h.runnable]
    decide
  exact (scheduler_switchedTo_of_runnable t.kernel 0 hslots).2

/-- One time slice. -/
theorem Lone.slice {n : ℕ} (h : Lone t n) :
    ∃ t₁ t₂, count t (.schedule 0) = some t₁ ∧ count t₁ (.yield 0) = some t₂ ∧ Lone t₂ (n + 1) := by
  have hto : dispatched t.kernel (.schedule 0) = some 0 := h.switchedTo
  have hresumable : resumable (t.kernel.table 0).state = true := by
    rw [(h.runnable 0).2 rfl]
    rfl
  have hstep : step t.kernel (.schedule 0) = some (scheduler t.kernel 0).after := by
    simp [step, h.live, h.idle]
  have hafter := scheduler_after_eq h.switchedTo
  have hcpu : ((scheduler t.kernel 0).after.cpus 0).proc = some 0 := by
    rw [hafter]
    simp [Kernel.setCpu]
  have hyield : step (scheduler t.kernel 0).after (.yield 0) = some (yield (scheduler t.kernel 0).after 0 0) := by
    simp only [step, onCpu, hcpu, Option.bind_some]
    rw [if_neg]
    rw [hafter]
    simp [hresumable]
  refine ⟨_, _, by rw [count, hstep]; rfl, by rw [count, hyield]; rfl, ?_, fun r => ?_, ?_, ?_, ?_, ?_⟩
  · rw [hafter]
    simp [yield, Kernel.release, Kernel.setCpu, Kernel.setProc, hresumable]
  · rw [hafter, ← h.runnable r]
    by_cases hr : r = 0
    · simp [hr, yield, Kernel.release, Kernel.setCpu, Kernel.setProc, (h.runnable 0).2 rfl]
    · simp [hr, yield, Kernel.release, Kernel.setCpu, Kernel.setProc]
  · exact release_proc _ 0
  · rw [hafter, ← h.stride]
    simp [yield, Kernel.release, Kernel.setCpu, Kernel.setProc]
  · show (if dispatched t.kernel (.schedule 0) = some 0 then t.dispatches 0 + 1 else t.dispatches 0) = n + 1
    rw [if_pos hto, h.dispatches]
  · show (if dispatched t.kernel (.schedule 0) = some 0 then t.sinceReset 0 + 1 else t.sinceReset 0) = n + 1
    rw [if_pos hto, h.sinceReset]

theorem Lone.slices {m : ℕ} (h : Lone t m) (n : ℕ) :
    ∃ t', Trace.run count t (slices n) = some t' ∧ Lone t' (m + n) := by
  induction n generalizing t m with
  | zero => exact ⟨t, rfl, h⟩
  | succ n ih =>
    obtain ⟨t₁, t₂, h₁, h₂, hlone⟩ := h.slice
    obtain ⟨t', hrun, hlone'⟩ := ih hlone
    refine ⟨t', ?_, ?_⟩
    · rw [Stride.slices, Trace.run_cons, h₁, Option.bind_some, Trace.run_cons, h₂, Option.bind_some, hrun]
    · rwa [show m + (n + 1) = m + 1 + n by omega]

/-- The first process can be dispatched any number of times. -/
theorem lone_of_boot (n : ℕ) :
    ∃ t, Trace.run count Counted.boot (.userinit :: slices n) = some t ∧ Lone t n := by
  have hboot : ∃ t, count Counted.boot .userinit = some t ∧ Lone t 0 :=
    ⟨_, rfl, rfl, by decide, rfl, by decide, rfl, rfl⟩
  obtain ⟨t, ht, hlone⟩ := hboot
  obtain ⟨t', hrun, hlone'⟩ := hlone.slices n
  refine ⟨t', ?_, by simpa using hlone'⟩
  rw [Trace.run_cons, ht, Option.bind_some, hrun]

/-- After 2^31 time slices of the first process its `ticks` is negative. -/
theorem not_ticks_eq_dispatches :
    ∃ t, Trace.run count Counted.boot (.userinit :: slices (2 ^ 31)) = some t ∧
      (t.kernel.table 0).state ≠ .unused ∧ (t.kernel.table 0).ticks ≠ t.dispatches 0 := by
  obtain ⟨t, hrun, hlone⟩ := lone_of_boot (2 ^ 31)
  have hused : (t.kernel.table 0).state ≠ .unused := by
    rw [(hlone.runnable 0).2 rfl]
    decide
  have hticks : (t.kernel.table 0).ticks = toInt32 (t.dispatches 0) := ((accountInv_of_run hrun).accounted hused).ticks
  refine ⟨t, hrun, hused, ?_⟩
  rw [hticks, hlone.dispatches]
  decide

end SystemsProjects.Stride
