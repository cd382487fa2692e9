import SystemsProjects.Stride.Share

/-!
# What an event does to a slot of the process table

Four functions write the tickets, the stride, the pass value and the ticks of a process, in different
combinations: `allocproc`, `fork`, `sys_settickets` and `scheduler`.  `SlotChange` lists everything that
an event can do to one slot, its state included, and `slotChange_of_step` says that the list is complete;
the invariants of later modules are proved from it without unfolding `step` again.
-/

namespace SystemsProjects.Stride

open MachineInt

/-! ## The account of a process -/

/-- The scheduling fields of a process, as `sys_getpinfo` reports them. -/
structure Account where
  tickets : ℤ
  initStride : ℤ
  passvalue : ℤ
  ticks : ℤ

def Proc.account (v : Proc) : Account := ⟨v.tickets, v.initStride, v.passvalue, v.ticks⟩

/-- The process an event dispatches. -/
def dispatched (k : Kernel) : Event → Option Slot
  | .schedule c => (scheduler k c).switchedTo
  | _ => none

/-- The slot that `allocproc` takes in an event. -/
def created (k : Kernel) : Event → Option Slot
  | .userinit => if k.initproc.isSome then none else (allocproc k).map (·.1)
  | .forkBegin c => (k.cpus c).proc.bind fun p =>
      if (k.np p).isSome then none else (allocproc k).map (·.1)
  | _ => none

/-- The process whose tickets an event sets. -/
def reticketed (k : Kernel) : Event → Option Slot
  | .settickets c n => if n ≤ 0 then none else (k.cpus c).proc
  | _ => none

/-- The process that a `fork` makes runnable. -/
def inherits (k : Kernel) : Event → Option Slot
  | .forkEnd c => (k.cpus c).proc.bind k.np
  | _ => none

/-- The event writes none of the scheduling fields of `r`. -/
structure Still (k : Kernel) (e : Event) (r : Slot) : Prop where
  created : created k e ≠ some r
  reticketed : reticketed k e ≠ some r
  inherits : inherits k e ≠ some r
  dispatched : dispatched k e ≠ some r

/-- The scheduling fields are the same, and the state is too unless the process has been woken up. -/
structure Quiet (v w : Proc) : Prop where
  account : w.account = v.account
  state : w.state = v.state ∨ v.state = .sleeping ∧ w.state = .runnable

/-- What an event that leads from `k` to `k'` does to slot `r`. -/
inductive SlotChange (k k' : Kernel) (e : Event) (r : Slot) : Prop
  | create (now : created k e = some r) (free : (k.table r).state = .unused)
      (account : (k'.table r).account = ⟨1, MAXSTRIDE, MAXSTRIDE, 0⟩)
      (state : (k'.table r).state = .embryo ∨ (k'.table r).state = .runnable ∧ k'.np = k.np)
  | inherit {c : Fin NCPU} {p : Slot} (event : e = .forkEnd c) (parent : (k.cpus c).proc = some p)
      (pending : k.np p = some r) (done : k'.np p = none)
      (account : (k'.table r).account = ⟨(k.table p).tickets, (k.table p).initStride, (k.table p).initStride, 0⟩)
      (state : (k'.table r).state = .runnable)
  | undo {c : Fin NCPU} {p : Slot} (event : e = .forkFail c) (parent : (k.cpus c).proc = some p)
      (pending : k.np p = some r) (done : k'.np p = none)
      (account : (k'.table r).account = (k.table r).account) (state : (k'.table r).state = .unused)
  | settickets {c : Fin NCPU} {n : ℤ} (event : e = .settickets c n) (pos : 0 < n)
      (caller : (k.cpus c).proc = some r)
      (account : (k'.table r).account = ⟨n, MAXSTRIDE / n, MAXSTRIDE / n, (k.table r).ticks⟩)
      (state : (k'.table r).state = (k.table r).state)
  | dispatch (now : dispatched k e = some r)
      (account : (k'.table r).account = ⟨(k.table r).tickets, (k.table r).initStride,
        toInt32 ((k.table r).passvalue + (k.table r).initStride), toInt32 ((k.table r).ticks + 1)⟩)
      (state : (k'.table r).state = .running) (halted : k'.halted = !resumable (k.table r).state)
  /-- The process gives up its CPU. -/
  | leave {c : Fin NCPU} (still : Still k e r) (caller : (k.cpus c).proc = some r)
      (released : (k'.cpus c).proc = none) (account : (k'.table r).account = (k.table r).account)
      (state : (k'.table r).state = .runnable ∨ (k'.table r).state = .sleeping ∨ (k'.table r).state = .zombie)
  | reap (still : Still k e r) (zombie : (k.table r).state = .zombie)
      (account : (k'.table r).account = (k.table r).account) (state : (k'.table r).state = .unused)
  | keep (still : Still k e r) (quiet : Quiet (k.table r) (k'.table r))

/-- What an event does to CPU `c`. -/
inductive CpuChange (k k' : Kernel) (e : Event) (c : Fin NCPU) : Prop
  | keep (same : k'.cpus c = k.cpus c)
  | release {p : Slot} (left : (k.cpus c).proc = some p) (state : (k'.table p).state ≠ .running)
      (proc : (k'.cpus c).proc = none) (chosen : (k'.cpus c).chosenProc = (k.cpus c).chosenProc)
  | dispatch {p : Slot} (event : e = .schedule c) (now : dispatched k e = some p)
      (idle : (k.cpus c).proc = none) (cpu : k'.cpus c = ⟨some p, some p⟩)

/-- What an event does to the pending fork of `p`. -/
inductive NpChange (k k' : Kernel) (e : Event) (p : Slot) : Prop
  | keep (same : k'.np p = k.np p)
  | done (none : k'.np p = none)
  | start {c : Fin NCPU} {r : Slot} (event : e = .forkBegin c) (parent : (k.cpus c).proc = some p)
      (now : created k e = some r) (pending : k'.np p = some r)

/-- Everything that an event can do to the process table, the CPUs and the pending forks. -/
structure StepChange (k k' : Kernel) (e : Event) : Prop where
  slot : ∀ r, SlotChange k k' e r
  cpu : ∀ c, CpuChange k k' e c
  np : ∀ p, NpChange k k' e p

/-! ## Operations that touch no account -/

variable {k k' : Kernel} {c : Fin NCPU} {p r : Slot}

@[simp] theorem setProc_table_self (k : Kernel) (p : Slot) (v : Proc) : (k.setProc p v).table p = v := by
  simp [Kernel.setProc]

theorem setProc_table_of_ne (k : Kernel) (v : Proc) (h : r ≠ p) : (k.setProc p v).table r = k.table r := by
  simp [Kernel.setProc, h]

@[simp] theorem release_table (k : Kernel) (c : Fin NCPU) : (k.release c).table = k.table := rfl

@[simp] theorem release_proc (k : Kernel) (c : Fin NCPU) : ((k.release c).cpus c).proc = none := by
  simp [Kernel.release, Kernel.setCpu]

theorem Quiet.refl (v : Proc) : Quiet v v := ⟨rfl, Or.inl rfl⟩

theorem Quiet.trans {u v w : Proc} (h : Quiet u v) (h' : Quiet v w) : Quiet u w := by
  refine ⟨h'.account.trans h.account, ?_⟩
  rcases h.state with hv | ⟨hu, hv⟩
  · rw [← hv]
    exact h'.state
  · rcases h'.state with hw | ⟨hsleep, -⟩
    · exact Or.inr ⟨hu, hw.trans hv⟩
    · exact absurd (hv.symm.trans hsleep) (by decide)

/-- The operation changes neither the accounts nor the CPUs nor the pending forks, and wakes up processes
at most. -/
structure OnlyWakes (k k' : Kernel) : Prop where
  table : ∀ r, Quiet (k.table r) (k'.table r)
  cpus : k'.cpus = k.cpus
  np : k'.np = k.np
  halted : k'.halted = k.halted

theorem OnlyWakes.refl (k : Kernel) : OnlyWakes k k := ⟨fun _ => Quiet.refl _, rfl, rfl, rfl⟩

theorem OnlyWakes.trans {k₁ k₂ k₃ : Kernel} (h : OnlyWakes k₁ k₂) (h' : OnlyWakes k₂ k₃) : OnlyWakes k₁ k₃ where
  table r := (h.table r).trans (h'.table r)
  cpus := h'.cpus.trans h.cpus
  np := h'.np.trans h.np
  halted := h'.halted.trans h.halted

theorem onlyWakes_setProc {v : Proc} (h : Quiet (k.table p) v) : OnlyWakes k (k.setProc p v) := by
  refine ⟨fun r => ?_, rfl, rfl, rfl⟩
  by_cases hr : r = p
  · rw [hr, setProc_table_self]
    exact h
  · rw [setProc_table_of_ne k v hr]
    exact Quiet.refl _

theorem onlyWakes_wakeup1 (k : Kernel) (chan : Chan) : OnlyWakes k (wakeup1 k chan) := by
  refine ⟨fun r => ?_, rfl, rfl, rfl⟩
  unfold wakeup1
  simp only
  split_ifs with hsleep
  · exact ⟨rfl, Or.inr ⟨hsleep.1, rfl⟩⟩
  · exact Quiet.refl _

theorem onlyWakes_kill (k : Kernel) (pid : ℤ) : OnlyWakes k (kill k pid) := by
  unfold kill
  split
  · exact OnlyWakes.refl k
  · apply onlyWakes_setProc
    refine ⟨rfl, ?_⟩
    simp only
    split_ifs with hsleep
    · exact Or.inr ⟨hsleep, rfl⟩
    · exact Or.inl rfl

/-- One child is passed to `initproc`. -/
def passToInit (k : Kernel) (q : Slot) : Kernel :=
  let k := k.setProc q { k.table q with parent := k.initproc }
  match k.initproc with
  | some i => if (k.table q).state = .zombie then wakeup1 k (.proc i) else k
  | none => k

theorem onlyWakes_passToInit (k : Kernel) (q : Slot) : OnlyWakes k (passToInit k q) := by
  have hparent : OnlyWakes k (k.setProc q { k.table q with parent := k.initproc }) := by
    apply onlyWakes_setProc
    exact ⟨rfl, Or.inl rfl⟩
  unfold passToInit
  simp only
  split
  · split_ifs
    · exact hparent.trans (onlyWakes_wakeup1 _ _)
    · exact hparent
  · exact hparent

theorem onlyWakes_foldl_passToInit (l : List Slot) (k : Kernel) : OnlyWakes k (l.foldl passToInit k) := by
  induction l generalizing k with
  | nil => exact OnlyWakes.refl k
  | cons q l ih => exact (onlyWakes_passToInit k q).trans (ih (passToInit k q))

/-- `exit` wakes up processes and passes on the children before the process becomes a zombie. -/
theorem exit_eq (k : Kernel) (c : Fin NCPU) (p : Slot) (h : k.initproc ≠ some p) :
    ∃ k₂, OnlyWakes k k₂ ∧ exit k c p = (k₂.setProc p { k₂.table p with state := .zombie }).release c := by
  unfold exit
  rw [if_neg h]
  extract_lets k₁ orphans k₂
  have hparent : OnlyWakes k k₁ := by
    unfold k₁
    split
    · exact onlyWakes_wakeup1 k _
    · exact OnlyWakes.refl k
  have horphans : OnlyWakes k₁ k₂ := onlyWakes_foldl_passToInit orphans k₁
  exact ⟨k₂, hparent.trans horphans, rfl⟩

/-! ## One event -/

variable {e : Event}

/-- The event is none of those that write scheduling fields. -/
def Plain (k : Kernel) (e : Event) : Prop :=
  created k e = none ∧ reticketed k e = none ∧ inherits k e = none ∧ dispatched k e = none

theorem none_ne_some (r : Slot) : none ≠ some r := (Option.some_ne_none r).symm

theorem Plain.still (h : Plain k e) (r : Slot) : Still k e r := by
  obtain ⟨h₁, h₂, h₃, h₄⟩ := h
  exact ⟨h₁ ▸ nofun, h₂ ▸ nofun, h₃ ▸ nofun, h₄ ▸ nofun⟩

theorem stepChange_onlyWakes (plain : Plain k e) (h : OnlyWakes k k') : StepChange k k' e where
  slot r := .keep (plain.still r) (h.table r)
  cpu c := .keep (by rw [h.cpus])
  np p := .keep (by rw [h.np])

/-- The process on CPU `c` gives it up. -/
theorem stepChange_release {k₂ : Kernel} {v : Proc} (plain : Plain k e) (h : OnlyWakes k k₂)
    (hp : (k.cpus c).proc = some p) (haccount : v.account = (k₂.table p).account)
    (hstate : v.state = .runnable ∨ v.state = .sleeping ∨ v.state = .zombie) :
    StepChange k ((k₂.setProc p v).release c) e where
  slot r := by
    by_cases hr : r = p
    · subst hr
      refine .leave (plain.still r) hp (release_proc _ c) ?_ ?_
      · rw [release_table, setProc_table_self, haccount, (h.table r).account]
      · rwa [release_table, setProc_table_self]
    · refine .keep (plain.still r) ?_
      rw [release_table, setProc_table_of_ne k₂ v hr]
      exact h.table r
  cpu d := by
    by_cases hd : d = c
    · subst hd
      refine .release hp ?_ (release_proc _ d) ?_
      · rw [release_table, setProc_table_self]
        intro hrunning
        rw [hrunning] at hstate
        exact absurd hstate (by decide)
      · simp [Kernel.release, Kernel.setCpu, Kernel.setProc, h.cpus]
    · refine .keep ?_
      simp [Kernel.release, Kernel.setCpu, Kernel.setProc, h.cpus, hd]
  np q := .keep (by rw [← h.np]; rfl)

theorem stepChange_exit (hp : (k.cpus c).proc = some p) : StepChange k (exit k c p) (.exit c) := by
  have plain : Plain k (.exit c) := ⟨rfl, rfl, rfl, rfl⟩
  by_cases hinit : k.initproc = some p
  · unfold exit
    rw [if_pos hinit]
    exact ⟨fun r => .keep (plain.still r) (Quiet.refl _), fun _ => .keep rfl, fun _ => .keep rfl⟩
  · obtain ⟨k₂, honly, heq⟩ := exit_eq k c p hinit
    rw [heq]
    exact stepChange_release plain honly hp rfl (Or.inr (Or.inr rfl))

theorem stepChange_wait (hp : (k.cpus c).proc = some p) : StepChange k (wait k c p) (.wait c) := by
  have plain : Plain k (.wait c) := ⟨rfl, rfl, rfl, rfl⟩
  unfold wait
  split
  · rename_i q hq
    have hzombie : (k.table q).parent = some p ∧ (k.table q).state = .zombie := by
      simpa using List.find?_some hq
    refine ⟨fun r => ?_, fun _ => .keep rfl, fun _ => .keep rfl⟩
    by_cases hr : r = q
    · subst hr
      exact .reap (plain.still r) hzombie.2 (by rw [setProc_table_self]; rfl) (by rw [setProc_table_self])
    · refine .keep (plain.still r) ?_
      rw [setProc_table_of_ne k _ hr]
      exact Quiet.refl _
  · split_ifs
    · exact stepChange_onlyWakes plain (OnlyWakes.refl k)
    · exact stepChange_release plain (OnlyWakes.refl k) hp rfl (Or.inr (Or.inl rfl))

theorem stepChange_settickets (hp : (k.cpus c).proc = some p) (n : ℤ) :
    StepChange k (sysSettickets k p n) (.settickets c n) := by
  unfold sysSettickets
  split_ifs with hn
  · have plain : Plain k (.settickets c n) := ⟨rfl, if_pos hn, rfl, rfl⟩
    exact stepChange_onlyWakes plain (OnlyWakes.refl k)
  · refine ⟨fun r => ?_, fun _ => .keep rfl, fun _ => .keep rfl⟩
    by_cases hr : r = p
    · subst hr
      exact .settickets rfl (by omega) hp (by rw [setProc_table_self]; rfl) (by rw [setProc_table_self])
    · have hset : reticketed k (.settickets c n) ≠ some r := by
        simpa [reticketed, hn, hp] using Ne.symm hr
      refine .keep ⟨none_ne_some r, hset, none_ne_some r, none_ne_some r⟩ ?_
      rw [setProc_table_of_ne k _ hr]
      exact Quiet.refl _

theorem stepChange_schedule (hidle : (k.cpus c).proc = none) :
    StepChange k (scheduler k c).after (.schedule c) := by
  cases hto : (scheduler k c).switchedTo with
  | none =>
    have plain : Plain k (.schedule c) := ⟨rfl, rfl, rfl, hto⟩
    have hafter : (scheduler k c).after = { k with halted := true } := by
      unfold scheduler at hto ⊢
      split at hto
      · rfl
      · cases hto
    rw [hafter]
    exact ⟨fun r => .keep (plain.still r) (Quiet.refl _), fun _ => .keep rfl, fun _ => .keep rfl⟩
  | some p =>
    rw [scheduler_after_eq hto]
    refine ⟨fun r => ?_, fun d => ?_, fun _ => .keep rfl⟩
    · by_cases hr : r = p
      · subst hr
        refine .dispatch hto ?_ ?_ rfl <;> simp [Kernel.setProc, Kernel.setCpu, Proc.account]
      · have hother : dispatched k (.schedule c) ≠ some r := fun h => hr (Option.some.inj (h.symm.trans hto))
        refine .keep ⟨none_ne_some r, none_ne_some r, none_ne_some r, hother⟩ ?_
        simpa [Kernel.setProc, Kernel.setCpu, hr] using Quiet.refl (k.table r)
    · by_cases hd : d = c
      · subst hd
        refine .dispatch rfl hto hidle ?_
        simp [Kernel.setCpu]
      · refine .keep ?_
        simp [Kernel.setCpu, Kernel.setProc, hd]

theorem stepChange_forkFail (hp : (k.cpus c).proc = some p) (h : forkFail k p = some k') :
    StepChange k k' (.forkFail c) := by
  obtain ⟨np, hnp, rfl⟩ := Option.map_eq_some_iff.1 h
  have plain : Plain k (.forkFail c) := ⟨rfl, rfl, rfl, rfl⟩
  refine ⟨fun r => ?_, fun _ => .keep rfl, fun q => ?_⟩
  · by_cases hr : r = np
    · subst hr
      refine .undo rfl hp hnp ?_ ?_ ?_ <;> simp [Kernel.setProc, Proc.account]
    · refine .keep (plain.still r) ?_
      simpa [Kernel.setProc, hr] using Quiet.refl (k.table r)
  · by_cases hq : q = p
    · exact .done (by simp [hq])
    · exact .keep (by simp [hq])

theorem stepChange_forkEnd (hp : (k.cpus c).proc = some p) (h : forkEnd k p = some k') :
    StepChange k k' (.forkEnd c) := by
  obtain ⟨np, hnp, rfl⟩ := Option.map_eq_some_iff.1 h
  refine ⟨fun r => ?_, fun _ => .keep rfl, fun q => ?_⟩
  · by_cases hr : r = np
    · subst hr
      refine .inherit rfl hp hnp ?_ ?_ ?_ <;> simp [Kernel.setProc, Proc.account]
    · have hother : inherits k (.forkEnd c) ≠ some r := by
        simpa [inherits, hp, hnp] using Ne.symm hr
      refine .keep ⟨none_ne_some r, none_ne_some r, hother, none_ne_some r⟩ ?_
      simpa [Kernel.setProc, hr] using Quiet.refl (k.table r)
  · by_cases hq : q = p
    · exact .done (by simp [hq])
    · exact .keep (by simp [hq])

/-- What `allocproc` does to the slot it takes, and that it touches no other. -/
theorem allocproc_eq_some {k₁ : Kernel} (h : allocproc k = some (p, k₁)) :
    (k.table p).state = .unused ∧ (k₁.table p).account = ⟨1, MAXSTRIDE, MAXSTRIDE, 0⟩ ∧
      (k₁.table p).state = .embryo ∧ (∀ r, r ≠ p → k₁.table r = k.table r) ∧
      k₁.cpus = k.cpus ∧ k₁.np = k.np := by
  obtain ⟨q, hq, heq⟩ := Option.map_eq_some_iff.1 h
  obtain ⟨rfl, rfl⟩ := Prod.mk.inj heq
  have hfree : (k.table q).state = .unused := by simpa using List.find?_some hq
  refine ⟨hfree, ?_, ?_, fun r hr => ?_, rfl, rfl⟩
  · simp [Kernel.setProc, Proc.account, MAXSTRIDE]
  · simp [Kernel.setProc]
  · simp [Kernel.setProc, hr]

theorem stepChange_userinit (h : userinit k = some k') : StepChange k k' .userinit := by
  unfold userinit at h
  split_ifs at h with hinit
  obtain ⟨⟨p, k₁⟩, halloc, rfl⟩ := Option.map_eq_some_iff.1 h
  have hnow : created k .userinit = some p := by simp [created, hinit, halloc]
  obtain ⟨hfree, haccount, -, hother, hcpus, hnp⟩ := allocproc_eq_some halloc
  refine ⟨fun r => ?_, fun c => .keep (by rw [← hcpus]; rfl), fun q => .keep (by rw [← hnp]; rfl)⟩
  by_cases hr : r = p
  · subst hr
    refine .create hnow hfree ?_ (Or.inr ⟨?_, hnp⟩)
    · rw [← haccount]
      simp [Kernel.setProc, Proc.account]
    · simp [Kernel.setProc]
  · have hcreated : created k .userinit ≠ some r := fun h => hr (Option.some.inj (h.symm.trans hnow))
    refine .keep ⟨hcreated, none_ne_some r, none_ne_some r, none_ne_some r⟩ ?_
    simpa [Kernel.setProc, hr, hother r hr] using Quiet.refl (k.table r)

theorem stepChange_forkBegin (hp : (k.cpus c).proc = some p) (h : forkBegin k p = some k') :
    StepChange k k' (.forkBegin c) := by
  unfold forkBegin at h
  split_ifs at h with hnp
  cases halloc : allocproc k with
  | none =>
    rw [halloc] at h
    obtain rfl := Option.some.inj h
    have plain : Plain k (.forkBegin c) := ⟨by simp [created, hp, halloc], rfl, rfl, rfl⟩
    exact stepChange_onlyWakes plain (OnlyWakes.refl k)
  | some taken =>
    obtain ⟨np, k₁⟩ := taken
    rw [halloc] at h
    obtain rfl := Option.some.inj h
    have hnow : created k (.forkBegin c) = some np := by simp [created, hp, hnp, halloc]
    obtain ⟨hfree, haccount, hstate, hother, hcpus, hnp₁⟩ := allocproc_eq_some halloc
    refine ⟨fun r => ?_, fun d => .keep (by rw [← hcpus]), fun q => ?_⟩
    · by_cases hr : r = np
      · subst hr
        exact .create hnow hfree haccount (Or.inl hstate)
      · have hcreated : created k (.forkBegin c) ≠ some r := fun h => hr (Option.some.inj (h.symm.trans hnow))
        refine .keep ⟨hcreated, none_ne_some r, none_ne_some r, none_ne_some r⟩ ?_
        rw [hother r hr]
        exact Quiet.refl _
    · by_cases hq : q = p
      · exact .start rfl (hq ▸ hp) hnow (by simp [hq])
      · exact .keep (by simp [hq, hnp₁])

/-- The list of changes is complete. -/
theorem stepChange_of_step (h : step k e = some k') : StepChange k k' e := by
  unfold step at h
  split_ifs at h
  cases e with
  | userinit => exact stepChange_userinit h
  | schedule c =>
    simp only at h
    split_ifs at h with hidle
    rw [← Option.some.inj h]
    exact stepChange_schedule hidle
  | wakeup chan =>
    obtain rfl := Option.some.inj h
    exact stepChange_onlyWakes ⟨rfl, rfl, rfl, rfl⟩ (onlyWakes_wakeup1 k chan)
  | yield c =>
    obtain ⟨p, hp, h⟩ := Option.bind_eq_some_iff.1 h
    obtain rfl := Option.some.inj h
    exact stepChange_release ⟨rfl, rfl, rfl, rfl⟩ (OnlyWakes.refl k) hp rfl (Or.inl rfl)
  | sleep c chan =>
    obtain ⟨p, hp, h⟩ := Option.bind_eq_some_iff.1 h
    obtain rfl := Option.some.inj h
    exact stepChange_release ⟨rfl, rfl, rfl, rfl⟩ (OnlyWakes.refl k) hp rfl (Or.inr (Or.inl rfl))
  | exit c =>
    obtain ⟨p, hp, h⟩ := Option.bind_eq_some_iff.1 h
    obtain rfl := Option.some.inj h
    exact stepChange_exit hp
  | wait c =>
    obtain ⟨p, hp, h⟩ := Option.bind_eq_some_iff.1 h
    obtain rfl := Option.some.inj h
    exact stepChange_wait hp
  | forkBegin c =>
    obtain ⟨p, hp, h⟩ := Option.bind_eq_some_iff.1 h
    exact stepChange_forkBegin hp h
  | forkFail c =>
    obtain ⟨p, hp, h⟩ := Option.bind_eq_some_iff.1 h
    exact stepChange_forkFail hp h
  | forkEnd c =>
    obtain ⟨p, hp, h⟩ := Option.bind_eq_some_iff.1 h
    exact stepChange_forkEnd hp h
  | settickets c n =>
    obtain ⟨p, hp, h⟩ := Option.bind_eq_some_iff.1 h
    obtain rfl := Option.some.inj h
    exact stepChange_settickets hp n
  | kill c pid =>
    obtain ⟨p, hp, h⟩ := Option.bind_eq_some_iff.1 h
    obtain rfl := Option.some.inj h
    exact stepChange_onlyWakes ⟨rfl, rfl, rfl, rfl⟩ (onlyWakes_kill k pid)

/-! ## Dispatches -/

/-- The CPU is in `scheduler` when it dispatches. -/
theorem step_schedule (h : step k (.schedule c) = some k') :
    (k.cpus c).proc = none ∧ k' = (scheduler k c).after := by
  unfold step at h
  split_ifs at h
  simp only at h
  split_ifs at h with hidle
  exact ⟨hidle, (Option.some.inj h).symm⟩

/-- The dispatched process has the smallest pass value of the runnable ones, if none of these is the mark
`-1` of the selection loop. -/
theorem dispatched_le {q : Slot} (hmark : ∀ r, (k.table r).state = .runnable → (k.table r).passvalue ≠ -1)
    (hp : dispatched k e = some p) (hq : (k.table q).state = .runnable) :
    (k.table p).passvalue ≤ (k.table q).passvalue := by
  cases e with
  | schedule c =>
    have hsafe : DispatchSafe k (scheduler k c) := by
      rw [dispatchSafe_scheduler_iff]
      refine ⟨⟨q, hq⟩, ?_⟩
      rintro ⟨r, -, -, hr, -, hpass, -⟩
      exact hmark r hr hpass
    rcases (hsafe.2.1 p hp).2 q hq with hlt | heq
    · exact hlt.le
    · exact heq.1.le
  | _ => cases hp

/-- The event does not make a pass value overflow. -/
def PassFits (k : Kernel) (e : Event) : Prop :=
  ∀ p, dispatched k e = some p → (k.table p).passvalue + (k.table p).initStride ≤ INT_MAX

theorem along_passFits {es : List Event} (fits : NoPassOverflow k es) : Trace.Along step PassFits k es := by
  refine (Trace.along_congr step (fun k e => ?_) k es).1 fits
  constructor
  · intro h p hp
    cases e with
    | schedule c => exact h c p rfl hp
    | _ => cases hp
  · rintro h c p rfl hp
    exact h p hp

/-- Only the dispatches have to be looked at. -/
theorem noPassOverflow_cons {e : Event} {es : List Event} (h : dispatched k e = none)
    (hstep : step k e = some k') (rest : NoPassOverflow k' es) : NoPassOverflow k (e :: es) := by
  refine Trace.along_cons_of_eq ?_ hstep rest
  rintro c p rfl hto
  cases h.symm.trans hto

theorem noPassOverflow_schedule {c : Fin NCPU} {p : Slot} {es : List Event}
    (hto : (scheduler k c).switchedTo = some p)
    (fits : (k.table p).passvalue + (k.table p).initStride ≤ INT_MAX)
    (hstep : step k (.schedule c) = some k') (rest : NoPassOverflow k' es) :
    NoPassOverflow k (.schedule c :: es) := by
  refine Trace.along_cons_of_eq ?_ hstep rest
  intro d q hd hq
  obtain rfl := Event.schedule.inj hd
  obtain rfl := Option.some.inj (hto.symm.trans hq)
  exact fits

end SystemsProjects.Stride
