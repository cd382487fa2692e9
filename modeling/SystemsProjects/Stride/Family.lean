import SystemsProjects.Stride.Accounting

/-!
# Parents, children and zombies

`fork`, `exit` and `wait` keep a tree of processes: a process that exits stays a zombie until its parent, or
`initproc` if the parent has exited before it, finds it in `wait`.  `family_of_run` says that over every run
no zombie is left without somebody to reap it, and that nobody sleeps in `wait` for a child that has exited
already or does not exist.
-/

namespace SystemsProjects.Stride

/-- The process has been created and has not exited. -/
def ProcState.Live (s : ProcState) : Prop := s = .runnable ∨ s = .running ∨ s = .sleeping

instance (s : ProcState) : Decidable s.Live := inferInstanceAs (Decidable (_ ∨ _ ∨ _))

/-- The process sleeps in `wait`. -/
def Waiting (k : Kernel) (r : Slot) : Prop :=
  (k.table r).state = .sleeping ∧ (k.table r).chan = some (.proc r)

/-- Only `wait` sleeps on the address of a process. -/
def Event.OwnChan (e : Event) : Prop := ∀ c p, e ≠ .sleep c (.proc p)

structure Family (k : Kernel) : Prop where
  fresh : ∀ q, (k.table q).state = .unused ∨ (k.table q).state = .embryo → (k.table q).parent = none
  parent : ∀ q r, (k.table q).parent = some r → (k.table r).state.Live
  orphan : ∀ q, (k.table q).state.Live ∨ (k.table q).state = .zombie → (k.table q).parent = none →
    k.initproc = some q
  init : ∀ i, k.initproc = some i → (k.table i).state.Live ∧ (k.table i).parent = none
  self : ∀ q, (k.table q).parent ≠ some q
  booted : ∀ q, (k.table q).state ≠ .unused → ∃ i, k.initproc = some i
  awake : ∀ q r, (k.table q).parent = some r → (k.table q).state = .zombie → ¬ Waiting k r
  kids : ∀ r, Waiting k r → ∃ q, (k.table q).parent = some r

theorem ProcState.cases_live (s : ProcState) : s = .unused ∨ s = .embryo ∨ s.Live ∨ s = .zombie := by
  cases s <;> decide

theorem ProcState.Live.ne_zombie {s : ProcState} (h : s.Live) : s ≠ .zombie := by
  rintro rfl
  revert h
  decide

theorem ProcState.Live.ne_unused {s : ProcState} (h : s.Live) : s ≠ .unused := by
  rintro rfl
  revert h
  decide

theorem family_boot : Family boot where
  fresh _ _ := rfl
  parent q r h := absurd h (none_ne_some r)
  orphan q h := absurd h (by simp only [boot]; decide)
  init i h := absurd h (none_ne_some i)
  self q := none_ne_some q
  booted q h := absurd rfl h
  awake q r h := absurd h (none_ne_some r)
  kids r h := absurd h.1 (by simp [boot])

variable {k k' : Kernel} {c : Fin NCPU} {p r : Slot} {e : Event}

/-- A slot keeps what the family depends on, or the process goes from one live state to another and does
not come to sleep in `wait`. -/
structure Stirs (k k' : Kernel) (r : Slot) : Prop where
  parent : (k'.table r).parent = (k.table r).parent
  state : (k'.table r).state = (k.table r).state ∨ (k.table r).state.Live ∧ (k'.table r).state.Live
  waiting : Waiting k' r → Waiting k r

theorem Stirs.live (h : Stirs k k' r) (hlive : (k.table r).state.Live) : (k'.table r).state.Live := by
  rcases h.state with heq | hboth
  · rw [heq]
    exact hlive
  · exact hboth.2

theorem Stirs.of_live (h : Stirs k k' r) (hlive : (k'.table r).state.Live) : (k.table r).state.Live := by
  rcases h.state with heq | hboth
  · rw [← heq]
    exact hlive
  · exact hboth.1

theorem Stirs.eq_of_not_live (h : Stirs k k' r) (hlive : ¬ (k'.table r).state.Live) :
    (k'.table r).state = (k.table r).state :=
  h.state.resolve_right fun hboth => hlive hboth.2

/-- Steps of live processes do not concern the family. -/
theorem Family.of_stirs (h : Family k) (hinit : k'.initproc = k.initproc) (hstirs : ∀ r, Stirs k k' r) :
    Family k' where
  fresh q hq := by
    have hnot : ¬ (k'.table q).state.Live := by
      rcases hq with heq | heq <;> · rw [heq]; decide
    rw [(hstirs q).parent]
    rw [(hstirs q).eq_of_not_live hnot] at hq
    exact h.fresh q hq
  parent q r hr := by
    rw [(hstirs q).parent] at hr
    exact (hstirs r).live (h.parent q r hr)
  orphan q hq hparent := by
    rw [(hstirs q).parent] at hparent
    rw [hinit]
    refine h.orphan q (hq.imp (hstirs q).of_live fun hzombie => ?_) hparent
    rw [← (hstirs q).eq_of_not_live (by rw [hzombie]; decide), hzombie]
  init i hi := by
    obtain ⟨hlive, hparent⟩ := h.init i (hinit ▸ hi)
    exact ⟨(hstirs i).live hlive, (hstirs i).parent.trans hparent⟩
  self q := by
    rw [(hstirs q).parent]
    exact h.self q
  booted q hq := by
    rw [hinit]
    apply h.booted q
    rcases (hstirs q).state with heq | hboth
    · rwa [← heq]
    · exact hboth.1.ne_unused
  awake q r hr hzombie hwaiting := by
    rw [(hstirs q).parent] at hr
    rw [(hstirs q).eq_of_not_live (by rw [hzombie]; decide)] at hzombie
    exact h.awake q r hr hzombie ((hstirs r).waiting hwaiting)
  kids r hr := by
    obtain ⟨q, hq⟩ := h.kids r ((hstirs r).waiting hr)
    exact ⟨q, (hstirs q).parent.trans hq⟩

theorem Stirs.refl (k : Kernel) (r : Slot) : Stirs k k r := ⟨rfl, .inl rfl, id⟩

theorem Stirs.of_eq (h : k'.table r = k.table r) : Stirs k k' r := by
  refine ⟨by rw [h], .inl (by rw [h]), fun hw => ?_⟩
  unfold Waiting at hw ⊢
  rwa [h] at hw

theorem Family.congr (h : Family k) (htable : k'.table = k.table) (hinit : k'.initproc = k.initproc) : Family k' :=
  h.of_stirs hinit fun r => .of_eq (congrFun htable r)

/-- A live process goes to a state in which it does not sleep in `wait`. -/
theorem Family.setProc (h : Family k) {v : Proc} (hlive : (k.table p).state.Live) (hv : v.state.Live)
    (hparent : v.parent = (k.table p).parent) (hwait : v.state = .sleeping → v.chan ≠ some (.proc p)) :
    Family (k.setProc p v) := by
  refine h.of_stirs rfl fun r => ?_
  by_cases hr : r = p
  · subst hr
    have hself := setProc_table_self k r v
    refine ⟨by rw [hself, hparent], .inr ⟨hlive, by rw [hself]; exact hv⟩, fun hw => ?_⟩
    unfold Waiting at hw
    rw [hself] at hw
    exact absurd hw.2 (hwait hw.1)
  · exact .of_eq (setProc_table_of_ne k v hr)

theorem stirs_wakeup1 (k : Kernel) (chan : Chan) (r : Slot) : Stirs k (wakeup1 k chan) r := by
  by_cases hr : (k.table r).state = .sleeping ∧ (k.table r).chan = some chan
  · have heq : (wakeup1 k chan).table r = { k.table r with state := .runnable } := if_pos hr
    refine ⟨by rw [heq], .inr ⟨by rw [hr.1]; decide, by rw [heq]; exact .inl rfl⟩, fun hw => ?_⟩
    unfold Waiting at hw
    rw [heq] at hw
    exact absurd hw.1 (by simp)
  · exact .of_eq (if_neg hr)

theorem Family.wakeup1 (h : Family k) (chan : Chan) : Family (wakeup1 k chan) :=
  h.of_stirs rfl (stirs_wakeup1 k chan)

/-- After `wakeup1` on its address a process does not sleep in `wait`. -/
theorem not_waiting_wakeup1 (k : Kernel) (r : Slot) : ¬ Waiting (Stride.wakeup1 k (.proc r)) r := by
  intro hw
  have hold := (stirs_wakeup1 k (.proc r) r).waiting hw
  have heq : (Stride.wakeup1 k (.proc r)).table r = { k.table r with state := .runnable } := if_pos hold
  unfold Waiting at hw
  rw [heq] at hw
  exact absurd hw.1 (by simp)

theorem Family.kill (h : Family k) (pid : ℤ) : Family (kill k pid) := by
  unfold Stride.kill
  split
  · exact h
  · rename_i p hp
    refine h.of_stirs rfl fun r => ?_
    by_cases hr : r = p
    · subst hr
      refine ⟨by rw [setProc_table_self], ?_, fun hw => ?_⟩
      · rw [setProc_table_self]
        by_cases hsleep : (k.table r).state = .sleeping
        · exact .inr ⟨by rw [hsleep]; decide, by simp only [hsleep]; decide⟩
        · exact .inl (by simp [hsleep])
      · unfold Waiting at hw
        rw [setProc_table_self] at hw
        by_cases hsleep : (k.table r).state = .sleeping
        · simp [hsleep] at hw
        · exact ⟨by simpa [hsleep] using hw.1, hw.2⟩
    · exact .of_eq (setProc_table_of_ne k _ hr)

/-! ## The slots that are created and given back -/

/-- A slot that was unused or an embryo becomes unused or an embryo. -/
theorem Family.embryo (h : Family k) {v : Proc} (hi : k'.initproc = k.initproc) (hbooted : ∃ i, k.initproc = some i)
    (htable : k'.table = Function.update k.table p v)
    (hold : (k.table p).state = .unused ∨ (k.table p).state = .embryo)
    (hnew : v.state = .unused ∨ v.state = .embryo) (hparent : v.parent = (k.table p).parent) : Family k' := by
  have hself : k'.table p = v := by rw [htable, Function.update_self]
  have hother : ∀ r, r ≠ p → k'.table r = k.table r := fun r hr => by rw [htable, Function.update_of_ne hr]
  have hnone : v.parent = none := hparent.trans (h.fresh p hold)
  have hlive : ∀ r, (k.table r).state.Live → r ≠ p := by
    rintro r hr rfl
    rcases hold with heq | heq <;> · rw [heq] at hr; exact absurd hr (by decide)
  have hwaiting : ∀ r, Waiting k' r → Waiting k r := by
    intro r hr
    by_cases hrp : r = p
    · subst hrp
      unfold Waiting at hr
      rw [hself] at hr
      rcases hnew with heq | heq <;> simp [heq] at hr
    · unfold Waiting at hr ⊢
      rwa [hother r hrp] at hr
  refine ⟨fun q hq => ?_, fun q r hr => ?_, fun q hq hparent' => ?_, fun i hi' => ?_, fun q => ?_,
    fun q _ => hi ▸ hbooted, fun q r hr hzombie hw => ?_, fun r hr => ?_⟩
  · by_cases hqp : q = p
    · rw [hqp, hself, hnone]
    · rw [hother q hqp] at hq ⊢
      exact h.fresh q hq
  · by_cases hqp : q = p
    · rw [hqp, hself, hnone] at hr
      exact absurd hr (none_ne_some r)
    · rw [hother q hqp] at hr
      have hlive' := h.parent q r hr
      rwa [hother r (hlive r hlive')]
  · by_cases hqp : q = p
    · rw [hqp, hself] at hq
      rcases hnew with heq | heq <;> · rw [heq] at hq; exact absurd hq (by decide)
    · rw [hother q hqp] at hq hparent'
      rw [hi]
      exact h.orphan q hq hparent'
  · have hlive' := h.init i (hi ▸ hi')
    rwa [hother i (hlive i hlive'.1)]
  · by_cases hqp : q = p
    · rw [hqp, hself, hnone]
      exact none_ne_some p
    · rw [hother q hqp]
      exact h.self q
  · by_cases hqp : q = p
    · rw [hqp, hself, hnone] at hr
      exact absurd hr (none_ne_some r)
    · rw [hother q hqp] at hr hzombie
      exact h.awake q r hr hzombie (hwaiting r hw)
  · obtain ⟨q, hq⟩ := h.kids r (hwaiting r hr)
    have hqp : q ≠ p := by
      rintro rfl
      rw [h.fresh q hold] at hq
      exact absurd hq (none_ne_some r)
    exact ⟨q, by rw [hother q hqp, hq]⟩

/-- A slot that was unused or an embryo becomes the process of a live parent, or the first process. -/
theorem Family.born (h : Family k) {v : Proc} (htable : k'.table = Function.update k.table p v)
    (hold : (k.table p).state = .unused ∨ (k.table p).state = .embryo) (hnew : v.state = .runnable)
    (hparent : (∃ q, v.parent = some q ∧ (k.table q).state.Live) ∧ k'.initproc = k.initproc ∨
      v.parent = none ∧ k'.initproc = some p ∧ k.initproc = none) : Family k' := by
  have hself : k'.table p = v := by rw [htable, Function.update_self]
  have hother : ∀ r, r ≠ p → k'.table r = k.table r := fun r hr => by rw [htable, Function.update_of_ne hr]
  have hlive : ∀ r, (k.table r).state.Live → r ≠ p := by
    rintro r hr rfl
    rcases hold with heq | heq <;> · rw [heq] at hr; exact absurd hr (by decide)
  have hlive' : ∀ r, (k.table r).state.Live → (k'.table r).state.Live := fun r hr => by
    rwa [hother r (hlive r hr)]
  have hwaiting : ∀ r, Waiting k' r → r ≠ p ∧ Waiting k r := by
    intro r hr
    have hrp : r ≠ p := by
      rintro rfl
      unfold Waiting at hr
      rw [hself] at hr
      simp [hnew] at hr
    unfold Waiting at hr ⊢
    rw [hother r hrp] at hr
    exact ⟨hrp, hr⟩
  have hbefore : ∀ i, k.initproc = some i → k'.initproc = some i := by
    intro i hi
    rcases hparent with ⟨-, heq⟩ | ⟨-, -, heq⟩
    · rw [heq, hi]
    · rw [heq] at hi
      exact absurd hi (none_ne_some i)
  refine ⟨fun q hq => ?_, fun q r hr => ?_, fun q hq hparent' => ?_, fun i hi' => ?_, fun q => ?_, fun q hq => ?_,
    fun q r hr hzombie hw => ?_, fun r hr => ?_⟩
  · have hqp : q ≠ p := by
      rintro rfl
      rw [hself, hnew] at hq
      exact absurd hq (by decide)
    rw [hother q hqp] at hq ⊢
    exact h.fresh q hq
  · by_cases hqp : q = p
    · rw [hqp, hself] at hr
      rcases hparent with ⟨⟨s, hs, hslive⟩, -⟩ | ⟨hnone, -⟩
      · obtain rfl := Option.some.inj (hs.symm.trans hr)
        exact hlive' s hslive
      · exact absurd (hnone.symm.trans hr) (none_ne_some r)
    · rw [hother q hqp] at hr
      exact hlive' r (h.parent q r hr)
  · by_cases hqp : q = p
    · rw [hqp, hself] at hparent'
      rcases hparent with ⟨⟨s, hs, -⟩, -⟩ | ⟨-, hi, -⟩
      · exact absurd (hparent'.symm.trans hs) (none_ne_some s)
      · rw [hi, hqp]
    · rw [hother q hqp] at hq hparent'
      exact hbefore q (h.orphan q hq hparent')
  · rcases hparent with ⟨-, heq⟩ | ⟨hnone, heq, -⟩
    · obtain ⟨hl, hp⟩ := h.init i (heq ▸ hi')
      rw [hother i (hlive i hl)]
      exact ⟨hl, hp⟩
    · obtain rfl := Option.some.inj (heq.symm.trans hi')
      rw [hself]
      exact ⟨.inl hnew, hnone⟩
  · by_cases hqp : q = p
    · rw [hqp, hself]
      rcases hparent with ⟨⟨s, hs, hslive⟩, -⟩ | ⟨hnone, -⟩
      · rw [hs]
        exact fun heq => hlive s hslive (Option.some.inj heq)
      · rw [hnone]
        exact none_ne_some p
    · rw [hother q hqp]
      exact h.self q
  · rcases hparent with ⟨⟨s, -, hslive⟩, heq⟩ | ⟨-, heq, -⟩
    · rw [heq]
      exact h.booted s hslive.ne_unused
    · exact ⟨p, heq⟩
  · have hqp : q ≠ p := by
      rintro rfl
      rw [hself, hnew] at hzombie
      exact absurd hzombie (by decide)
    rw [hother q hqp] at hr hzombie
    exact h.awake q r hr hzombie (hwaiting r hw).2
  · obtain ⟨q, hq⟩ := h.kids r (hwaiting r hr).2
    have hqp : q ≠ p := by
      rintro rfl
      rw [h.fresh q hold] at hq
      exact absurd hq (none_ne_some r)
    exact ⟨q, by rw [hother q hqp, hq]⟩

/-! ## `exit` -/

/-- The children in `l` have been passed to `initproc`. -/
structure Passed (l : List Slot) (k k' : Kernel) : Prop where
  parent : ∀ r, (k'.table r).parent = if r ∈ l then k.initproc else (k.table r).parent
  state : ∀ r, (k'.table r).state = (k.table r).state ∨ (k.table r).state.Live ∧ (k'.table r).state.Live
  waiting : ∀ r, Waiting k' r → Waiting k r
  awake : ∀ q i, q ∈ l → (k.table q).state = .zombie → k.initproc = some i → ¬ Waiting k' i
  initproc : k'.initproc = k.initproc

theorem passed_nil (k : Kernel) : Passed [] k k :=
  ⟨fun _ => rfl, fun _ => .inl rfl, fun _ => id, fun _ _ hq => absurd hq List.not_mem_nil, rfl⟩

theorem passed_passToInit (k : Kernel) (q : Slot) : Passed [q] k (passToInit k q) := by
  have hset : ∀ r, ((k.setProc q { k.table q with parent := k.initproc }).table r).parent =
      if r ∈ [q] then k.initproc else (k.table r).parent := by
    intro r
    by_cases hr : r = q
    · rw [hr, setProc_table_self]
      simp
    · rw [setProc_table_of_ne k _ hr]
      simp [hr]
  have hstate : ∀ r, ((k.setProc q { k.table q with parent := k.initproc }).table r).state = (k.table r).state ∧
      ((k.setProc q { k.table q with parent := k.initproc }).table r).chan = (k.table r).chan := by
    intro r
    by_cases hr : r = q
    · rw [hr, setProc_table_self]
      exact ⟨rfl, rfl⟩
    · rw [setProc_table_of_ne k _ hr]
      exact ⟨rfl, rfl⟩
  have hwaiting : ∀ r, Waiting (k.setProc q { k.table q with parent := k.initproc }) r → Waiting k r := by
    intro r hw
    unfold Waiting at hw ⊢
    rwa [(hstate r).1, (hstate r).2] at hw
  -- if no zombie is passed on, or there is nobody to pass it to
  have hquiet : (∀ i, k.initproc = some i → (k.table q).state ≠ .zombie) →
      Passed [q] k (k.setProc q { k.table q with parent := k.initproc }) := by
    intro hno
    refine ⟨hset, fun r => .inl (hstate r).1, hwaiting, fun q' i hq' hzombie hi => ?_, rfl⟩
    rw [List.mem_singleton.1 hq'] at hzombie
    exact absurd hzombie (hno i hi)
  unfold passToInit
  cases hinit : k.initproc with
  | none =>
    rw [hinit] at hquiet
    have hset' : (k.setProc q { k.table q with parent := none }).initproc = none := hinit
    simp only [hset']
    exact hquiet fun i hi => absurd hi (none_ne_some i)
  | some i =>
    rw [hinit] at hquiet hset hstate hwaiting
    have hset' : (k.setProc q { k.table q with parent := some i }).initproc = some i := hinit
    simp only [hset', setProc_table_self]
    by_cases hzombie : (k.table q).state = .zombie
    · rw [if_pos hzombie]
      have hstirs := stirs_wakeup1 (k.setProc q { k.table q with parent := some i }) (.proc i)
      refine ⟨fun r => ?_, fun r => ?_, fun r hw => hwaiting r ((hstirs r).waiting hw), fun q' j _ _ hj => ?_, rfl⟩
      · rw [(hstirs r).parent, hset r, hinit]
      · rw [← (hstate r).1]
        exact (hstirs r).state
      · obtain rfl := Option.some.inj (hinit.symm.trans hj)
        exact not_waiting_wakeup1 _ i
    · rw [if_neg hzombie]
      exact hquiet fun _ _ => hzombie

theorem Passed.trans {l l' : List Slot} {k₁ k₂ k₃ : Kernel} (h : Passed l k₁ k₂) (h' : Passed l' k₂ k₃) :
    Passed (l ++ l') k₁ k₃ := by
  refine ⟨fun r => ?_, fun r => ?_, fun r hw => h.waiting r (h'.waiting r hw), fun q i hq hzombie hi hw => ?_,
    h'.initproc.trans h.initproc⟩
  · rw [h'.parent r, h.parent r, h.initproc]
    by_cases hr : r ∈ l <;> by_cases hr' : r ∈ l' <;> simp [hr, hr']
  · rcases h.state r with heq | hboth
    · rw [← heq]
      exact h'.state r
    · rcases h'.state r with heq' | hboth'
      · rw [heq']
        exact .inr hboth
      · exact .inr ⟨hboth.1, hboth'.2⟩
  · rcases List.mem_append.1 hq with hl | hl'
    · exact h.awake q i hl hzombie hi (h'.waiting i hw)
    · have hzombie' : (k₂.table q).state = .zombie := by
        rcases h.state q with heq | hboth
        · rw [heq, hzombie]
        · exact absurd hzombie hboth.1.ne_zombie
      exact h'.awake q i hl' hzombie' (h.initproc.trans hi) hw

theorem passed_foldl (l : List Slot) (k : Kernel) : Passed l k (l.foldl passToInit k) := by
  induction l generalizing k with
  | nil => exact passed_nil k
  | cons q l ih => exact (passed_passToInit k q).trans (ih (passToInit k q))

/-- What `exit` does to the family. -/
structure Exited (k k' : Kernel) (p : Slot) : Prop where
  parent : ∀ r, (k'.table r).parent = if (k.table r).parent = some p then k.initproc else (k.table r).parent
  zombie : (k'.table p).state = .zombie
  state : ∀ r, r ≠ p → (k'.table r).state = (k.table r).state ∨ (k.table r).state.Live ∧ (k'.table r).state.Live
  waiting : ∀ r, Waiting k' r → Waiting k r
  awake : ∀ q i, (k.table q).parent = some p → (k.table q).state = .zombie → k.initproc = some i → ¬ Waiting k' i
  woken : ∀ r, (k.table p).parent = some r → ¬ Waiting k' r
  initproc : k'.initproc = k.initproc

theorem exited_exit (hinit : k.initproc ≠ some p) : Exited k (exit k c p) p := by
  have hwoken : ∃ k₁, (∀ r, Stirs k k₁ r) ∧ k₁.initproc = k.initproc ∧
      (∀ r, (k.table p).parent = some r → ¬ Waiting k₁ r) ∧
      exit k c p = ((((List.finRange NPROC).filter fun q => (k₁.table q).parent = some p).foldl passToInit k₁).setProc p
        { (((List.finRange NPROC).filter fun q => (k₁.table q).parent = some p).foldl passToInit k₁).table p with
          state := .zombie }).release c := by
    unfold exit
    rw [if_neg hinit]
    cases hparent : (k.table p).parent with
    | none => exact ⟨k, Stirs.refl k, rfl, fun r hr => absurd hr (none_ne_some r), rfl⟩
    | some q =>
      refine ⟨wakeup1 k (.proc q), stirs_wakeup1 k _, rfl, fun r hr => ?_, rfl⟩
      obtain rfl := Option.some.inj hr
      exact not_waiting_wakeup1 k q
  obtain ⟨k₁, hstirs, hi, hwake, heq⟩ := hwoken
  rw [heq]
  have hpassed := passed_foldl ((List.finRange NPROC).filter fun q => (k₁.table q).parent = some p) k₁
  generalize ((List.finRange NPROC).filter fun q => (k₁.table q).parent = some p).foldl passToInit k₁ = k₂ at hpassed
  have hmem : ∀ r, r ∈ ((List.finRange NPROC).filter fun q => (k₁.table q).parent = some p) ↔
      (k.table r).parent = some p := by
    intro r
    simp [(hstirs r).parent]
  have hself : ((k₂.setProc p { k₂.table p with state := .zombie }).release c).table p =
      { k₂.table p with state := .zombie } := by
    rw [release_table, setProc_table_self]
  have hother : ∀ r, r ≠ p → ((k₂.setProc p { k₂.table p with state := .zombie }).release c).table r = k₂.table r :=
    fun r hr => by rw [release_table, setProc_table_of_ne k₂ _ hr]
  have hwaiting : ∀ r, Waiting ((k₂.setProc p { k₂.table p with state := .zombie }).release c) r → Waiting k₂ r := by
    intro r hw
    by_cases hr : r = p
    · subst hr
      unfold Waiting at hw
      rw [hself] at hw
      simp at hw
    · unfold Waiting at hw ⊢
      rwa [hother r hr] at hw
  refine ⟨fun r => ?_, by rw [hself], fun r hr => ?_, fun r hw => ?_, fun q i hq hzombie hii hw => ?_,
    fun r hr hw => ?_, hpassed.initproc.trans hi⟩
  · have hparent : (k₂.table r).parent = if (k.table r).parent = some p then k.initproc else (k.table r).parent := by
      rw [hpassed.parent r, (hstirs r).parent, hi]
      exact if_congr (hmem r) rfl rfl
    by_cases hr : r = p
    · rw [← hparent, hr, hself]
    · rw [← hparent, hother r hr]
  · rw [hother r hr]
    rcases hpassed.state r with heq' | hboth
    · rw [heq']
      exact (hstirs r).state
    · exact .inr ⟨(hstirs r).of_live hboth.1, hboth.2⟩
  · exact (hstirs r).waiting (hpassed.waiting r (hwaiting r hw))
  · have hzombie' : (k₁.table q).state = .zombie := by
      rcases (hstirs q).state with heq' | hboth
      · rw [heq', hzombie]
      · exact absurd hzombie hboth.1.ne_zombie
    exact hpassed.awake q i ((hmem q).2 hq) hzombie' (hi.trans hii) (hwaiting i hw)
  · exact hwake r hr (hpassed.waiting r (hwaiting r hw))

theorem Family.exited (h : Family k) (hp : (k.table p).state.Live) (hrunning : (k.table p).state ≠ .sleeping)
    (hinit : k.initproc ≠ some p) (hexit : Exited k k' p) : Family k' := by
  have hlive : ∀ r, r ≠ p → (k.table r).state.Live → (k'.table r).state.Live := by
    intro r hr hl
    rcases hexit.state r hr with heq | hboth
    · rwa [heq]
    · exact hboth.2
  have hsame : ∀ r, r ≠ p → ¬ (k'.table r).state.Live → (k'.table r).state = (k.table r).state :=
    fun r hr hl => (hexit.state r hr).resolve_right fun hboth => hl hboth.2
  obtain ⟨i, hi⟩ := h.booted p hp.ne_unused
  have hip : i ≠ p := fun heq => hinit (heq ▸ hi)
  obtain ⟨hilive, hiroot⟩ := h.init i hi
  refine ⟨fun q hq => ?_, fun q r hr => ?_, fun q hq hparent => ?_, fun j hj => ?_, fun q => ?_,
    fun q _ => ⟨i, hexit.initproc.trans hi⟩, fun q r hr hzombie hw => ?_, fun r hw => ?_⟩
  · have hqp : q ≠ p := by
      rintro rfl
      rw [hexit.zombie] at hq
      exact absurd hq (by decide)
    have hnot : ¬ (k'.table q).state.Live := by
      rcases hq with heq | heq <;> · rw [heq]; decide
    rw [hsame q hqp hnot] at hq
    rw [hexit.parent q, h.fresh q hq, if_neg (none_ne_some p)]
  · rw [hexit.parent q] at hr
    split_ifs at hr with hqp
    · obtain rfl := Option.some.inj (hi.symm.trans hr)
      exact hlive i hip hilive
    · exact hlive r (fun heq => hqp (heq ▸ hr)) (h.parent q r hr)
  · rw [hexit.parent q] at hparent
    split_ifs at hparent with hqp
    · exact absurd (hparent.symm.trans hi) (none_ne_some i)
    · rw [hexit.initproc]
      by_cases heq : q = p
      · rw [heq] at hparent
        exact absurd (h.orphan p (.inl hp) hparent) hinit
      · refine h.orphan q ?_ hparent
        rcases hexit.state q heq with hold | hboth
        · rwa [hold] at hq
        · exact .inl hboth.1
  · rw [hexit.initproc] at hj
    obtain rfl := Option.some.inj (hi.symm.trans hj)
    refine ⟨hlive i hip hilive, ?_⟩
    rw [hexit.parent i, hiroot, if_neg (none_ne_some p)]
  · rw [hexit.parent q]
    split_ifs with hqp
    · rw [hi]
      intro heq
      rw [← Option.some.inj heq, hiroot] at hqp
      exact none_ne_some p hqp
    · exact h.self q
  · rw [hexit.parent q] at hr
    by_cases hqp : q = p
    · rw [hqp, if_neg (h.self p)] at hr
      exact hexit.woken r hr hw
    · rw [hsame q hqp (by rw [hzombie]; decide)] at hzombie
      split_ifs at hr with hq
      · exact hexit.awake q r hq hzombie hr hw
      · exact h.awake q r hr hzombie (hexit.waiting r hw)
  · obtain ⟨q, hq⟩ := h.kids r (hexit.waiting r hw)
    refine ⟨q, ?_⟩
    have hrp : r ≠ p := fun heq => hrunning (heq ▸ (hexit.waiting r hw).1)
    rw [hexit.parent q, hq, if_neg fun heq => hrp (Option.some.inj heq)]

/-! ## `wait` -/

theorem findSlot_eq_none {f : Slot → Bool} (h : findSlot f = none) (q : Slot) : f q = false := by
  simpa using List.find?_eq_none.1 h q (List.mem_finRange q)

/-- A zombie is reaped by its parent. -/
theorem Family.reaped (h : Family k) {q : Slot} {v : Proc} (hparent : (k.table q).parent = some p)
    (hzombie : (k.table q).state = .zombie) (hp : (k.table p).state = .running) (hstate : v.state = .unused)
    (hnone : v.parent = none) : Family (k.setProc q v) := by
  have hlive : ∀ r, (k.table r).state.Live → r ≠ q := fun r hr heq => hr.ne_zombie (heq ▸ hzombie)
  have hself := setProc_table_self k q v
  have hother : ∀ r, r ≠ q → (k.setProc q v).table r = k.table r := fun r hr => setProc_table_of_ne k v hr
  have hwaiting : ∀ r, Waiting (k.setProc q v) r → Waiting k r := by
    intro r hw
    by_cases hr : r = q
    · subst hr
      unfold Waiting at hw
      rw [hself, hstate] at hw
      exact absurd hw.1 (by decide)
    · unfold Waiting at hw ⊢
      rwa [hother r hr] at hw
  obtain ⟨i, hi⟩ := h.booted q (by rw [hzombie]; decide)
  refine ⟨fun s hs => ?_, fun s r hr => ?_, fun s hs hs' => ?_, fun j hj => ?_, fun s => ?_, fun s _ => ⟨i, hi⟩,
    fun s r hr hs hw => ?_, fun r hw => ?_⟩
  · by_cases hsq : s = q
    · rw [hsq, hself, hnone]
    · rw [hother s hsq] at hs ⊢
      exact h.fresh s hs
  · by_cases hsq : s = q
    · rw [hsq, hself, hnone] at hr
      exact absurd hr (none_ne_some r)
    · rw [hother s hsq] at hr
      have hl := h.parent s r hr
      rwa [hother r (hlive r hl)]
  · by_cases hsq : s = q
    · rw [hsq, hself, hstate] at hs
      exact absurd hs (by decide)
    · rw [hother s hsq] at hs hs'
      exact h.orphan s hs hs'
  · obtain ⟨hl, hroot⟩ := h.init j hj
    rw [hother j (hlive j hl)]
    exact ⟨hl, hroot⟩
  · by_cases hsq : s = q
    · rw [hsq, hself, hnone]
      exact none_ne_some q
    · rw [hother s hsq]
      exact h.self s
  · by_cases hsq : s = q
    · rw [hsq, hself, hstate] at hs
      exact absurd hs (by decide)
    · rw [hother s hsq] at hr hs
      exact h.awake s r hr hs (hwaiting r hw)
  · obtain ⟨s, hs⟩ := h.kids r (hwaiting r hw)
    have hsq : s ≠ q := by
      -- the only parent of `q` is running
      intro heq
      rw [heq, hparent] at hs
      have hsleep := (hwaiting r hw).1
      rw [← Option.some.inj hs, hp] at hsleep
      exact absurd hsleep (by decide)
    exact ⟨s, by rw [hother s hsq, hs]⟩

/-- A process sleeps in `wait` for children none of which is a zombie. -/
theorem Family.sleeps (h : Family k) {v : Proc} (hp : (k.table p).state.Live) (hstate : v.state = .sleeping)
    (hparent : v.parent = (k.table p).parent) (hkid : ∃ q, (k.table q).parent = some p)
    (hnone : ∀ q, (k.table q).parent = some p → (k.table q).state ≠ .zombie) : Family (k.setProc p v) := by
  have hself := setProc_table_self k p v
  have hother : ∀ r, r ≠ p → (k.setProc p v).table r = k.table r := fun r hr => setProc_table_of_ne k v hr
  have hparents : ∀ r, ((k.setProc p v).table r).parent = (k.table r).parent := by
    intro r
    by_cases hr : r = p
    · rw [hr, hself, hparent]
    · rw [hother r hr]
  have hlive : ∀ r, ((k.setProc p v).table r).state.Live ↔ (k.table r).state.Live := by
    intro r
    by_cases hr : r = p
    · rw [hr, hself, hstate]
      exact iff_of_true (by decide) hp
    · rw [hother r hr]
  have hsame : ∀ r, ¬ ((k.setProc p v).table r).state.Live →
      ((k.setProc p v).table r).state = (k.table r).state := by
    intro r hr
    rw [hother r fun heq => hr (by rw [heq, hself, hstate]; decide)]
  have hwaiting : ∀ r, r ≠ p → Waiting (k.setProc p v) r → Waiting k r := by
    intro r hr hw
    unfold Waiting at hw ⊢
    rwa [hother r hr] at hw
  refine ⟨fun q hq => ?_, fun q r hr => ?_, fun q hq hq' => ?_, fun i hi => ?_, fun q => ?_, fun q hq => ?_,
    fun q r hr hzombie hw => ?_, fun r hw => ?_⟩
  · have hnot : ¬ ((k.setProc p v).table q).state.Live := by
      rcases hq with heq | heq <;> · rw [heq]; decide
    rw [hsame q hnot] at hq
    rw [hparents q]
    exact h.fresh q hq
  · rw [hparents q] at hr
    exact (hlive r).2 (h.parent q r hr)
  · rw [hparents q] at hq'
    refine h.orphan q (hq.imp (hlive q).1 fun hzombie => ?_) hq'
    rw [← hsame q (by rw [hzombie]; decide), hzombie]
  · obtain ⟨hl, hroot⟩ := h.init i hi
    exact ⟨(hlive i).2 hl, (hparents i).trans hroot⟩
  · rw [hparents q]
    exact h.self q
  · exact h.booted p hp.ne_unused
  · rw [hparents q] at hr
    rw [hsame q (by rw [hzombie]; decide)] at hzombie
    by_cases hrp : r = p
    · rw [hrp] at hr
      exact hnone q hr hzombie
    · exact h.awake q r hr hzombie (hwaiting r hrp hw)
  · by_cases hrp : r = p
    · obtain ⟨q, hq⟩ := hkid
      exact ⟨q, by rw [hparents q, hq, hrp]⟩
    · obtain ⟨q, hq⟩ := h.kids r (hwaiting r hrp hw)
      exact ⟨q, (hparents q).trans hq⟩

theorem Family.release (h : Family k) (c : Fin NCPU) : Family (k.release c) := h.congr rfl rfl

theorem Family.wait (h : Family k) (hp : (k.table p).state = .running) : Family (wait k c p) := by
  unfold Stride.wait
  split
  · rename_i q hq
    have hzombie : (k.table q).parent = some p ∧ (k.table q).state = .zombie := by
      simpa using List.find?_some hq
    exact h.reaped hzombie.1 hzombie.2 hp rfl rfl
  · rename_i hzombie
    split_ifs with hgo
    · exact h
    · have hkid : ∃ q, (k.table q).parent = some p := by
        rw [not_or, Option.isNone_iff_eq_none] at hgo
        obtain ⟨q, hq⟩ := Option.ne_none_iff_exists'.1 hgo.1
        exact ⟨q, by simpa using List.find?_some hq⟩
      unfold sleep
      apply Family.release
      apply h.sleeps
      · exact .inr (.inl hp)
      · rfl
      · rfl
      · exact hkid
      intro q hq hq'
      have hnone := findSlot_eq_none hzombie q
      rw [decide_eq_false_iff_not] at hnone
      exact hnone ⟨hq, hq'⟩

/-! ## The other events -/

theorem Family.userinit (h : Family k) (hstep : userinit k = some k') : Family k' := by
  unfold Stride.userinit at hstep
  split_ifs at hstep with hinit
  obtain ⟨⟨p, k₁⟩, halloc, rfl⟩ := Option.map_eq_some_iff.1 hstep
  have hfree := (allocproc_eq_some halloc).1
  obtain ⟨q, -, heq⟩ := Option.map_eq_some_iff.1 halloc
  obtain ⟨rfl, rfl⟩ := Prod.mk.inj heq
  apply h.born
  · simp only [Kernel.setProc, Function.update_self, Function.update_idem]
    rfl
  · exact .inl hfree
  · rfl
  · exact .inr ⟨h.fresh q (.inl hfree), rfl, by simpa using hinit⟩

/-- The process that the scheduler runs was runnable or asleep, unless the kernel has stopped. -/
theorem Family.schedule (h : Family k) (hlive : (scheduler k c).after.halted = false) :
    Family (scheduler k c).after := by
  cases hto : (scheduler k c).switchedTo with
  | none =>
    unfold scheduler at hto hlive
    split at hto
    · simp_all
    · exact absurd hto (Option.some_ne_none _)
  | some p =>
    rw [scheduler_after_eq hto] at hlive ⊢
    have hresumable : resumable (k.table p).state = true := by simpa using hlive
    have hp : (k.table p).state.Live := by
      unfold resumable at hresumable
      rcases of_decide_eq_true hresumable with heq | heq
      · exact .inl heq
      · exact .inr (.inr heq)
    refine Family.congr (h.setProc hp ?_ ?_ ?_) rfl rfl
    · exact .inr (.inl rfl)
    · rfl
    · exact fun heq => ProcState.noConfusion heq

section

variable (h : Family k) (hp : (k.table p).state = .running)

include h hp

theorem Family.yield (c : Fin NCPU) : Family (yield k c p) := by
  unfold Stride.yield
  apply Family.release
  apply h.setProc (.inr (.inl hp))
  · exact .inl rfl
  · rfl
  · exact fun heq => ProcState.noConfusion heq

theorem Family.sleep (c : Fin NCPU) {chan : Chan} (hchan : chan ≠ .proc p) : Family (sleep k c p chan) := by
  unfold Stride.sleep
  apply Family.release
  apply h.setProc (.inr (.inl hp))
  · exact .inr (.inr rfl)
  · rfl
  · exact fun _ heq => hchan (Option.some.inj heq)

theorem Family.exit (c : Fin NCPU) (hlive : (exit k c p).halted = false) : Family (exit k c p) := by
  have hinit : k.initproc ≠ some p := by
    intro hinit
    unfold Stride.exit at hlive
    rw [if_pos hinit] at hlive
    exact absurd hlive (by simp)
  exact h.exited (.inr (.inl hp)) (by rw [hp]; decide) hinit (exited_exit hinit)

theorem Family.forkBegin (hstep : forkBegin k p = some k') : Family k' := by
  unfold Stride.forkBegin at hstep
  split_ifs at hstep with hnp
  cases halloc : allocproc k with
  | none =>
    rw [halloc] at hstep
    obtain rfl := Option.some.inj hstep
    exact h
  | some taken =>
    obtain ⟨q, k₁⟩ := taken
    rw [halloc] at hstep
    obtain rfl := Option.some.inj hstep
    have hfree := (allocproc_eq_some halloc).1
    obtain ⟨q', -, heq⟩ := Option.map_eq_some_iff.1 halloc
    obtain ⟨rfl, rfl⟩ := Prod.mk.inj heq
    exact h.embryo rfl (h.booted p (by rw [hp]; decide)) rfl (.inl hfree) (.inr rfl) rfl

theorem Family.settickets (n : ℤ) : Family (sysSettickets k p n) := by
  unfold sysSettickets
  split_ifs
  · exact h
  · apply h.setProc (.inr (.inl hp))
    · exact .inr (.inl hp)
    · rfl
    · intro hsleep
      rw [hp] at hsleep
      exact absurd hsleep (by decide)

end

/-! ## Runs -/

theorem Family.step (h : Family k) (hs : StateInv k) (hchan : e.OwnChan) (hstep : step k e = some k')
    (hlive : k'.halted = false) : Family k' := by
  unfold Stride.step at hstep
  split_ifs at hstep
  cases e with
  | userinit => exact h.userinit hstep
  | schedule c =>
    simp only at hstep
    split_ifs at hstep
    obtain rfl := Option.some.inj hstep
    exact h.schedule hlive
  | yield c =>
    obtain ⟨p, hp, hstep⟩ := Option.bind_eq_some_iff.1 hstep
    obtain rfl := Option.some.inj hstep
    exact h.yield (hs.current c p hp) c
  | sleep c chan =>
    obtain ⟨p, hp, hstep⟩ := Option.bind_eq_some_iff.1 hstep
    obtain rfl := Option.some.inj hstep
    exact h.sleep (hs.current c p hp) c fun heq => hchan c p (congrArg _ heq)
  | exit c =>
    obtain ⟨p, hp, hstep⟩ := Option.bind_eq_some_iff.1 hstep
    obtain rfl := Option.some.inj hstep
    exact h.exit (hs.current c p hp) c hlive
  | wait c =>
    obtain ⟨p, hp, hstep⟩ := Option.bind_eq_some_iff.1 hstep
    obtain rfl := Option.some.inj hstep
    exact h.wait (hs.current c p hp)
  | forkBegin c =>
    obtain ⟨p, hp, hstep⟩ := Option.bind_eq_some_iff.1 hstep
    exact h.forkBegin (hs.current c p hp) hstep
  | forkFail c =>
    obtain ⟨p, hp, hstep⟩ := Option.bind_eq_some_iff.1 hstep
    obtain ⟨q, hq, rfl⟩ := Option.map_eq_some_iff.1 hstep
    have hbooted := h.booted p (by rw [hs.current c p hp]; decide)
    exact h.embryo rfl hbooted rfl (.inr (hs.pending p q hq)) (.inl rfl) rfl
  | forkEnd c =>
    obtain ⟨p, hp, hstep⟩ := Option.bind_eq_some_iff.1 hstep
    obtain ⟨q, hq, rfl⟩ := Option.map_eq_some_iff.1 hstep
    exact h.born rfl (.inr (hs.pending p q hq)) rfl (.inl ⟨⟨p, rfl, .inr (.inl (hs.current c p hp))⟩, rfl⟩)
  | settickets c n =>
    obtain ⟨p, hp, hstep⟩ := Option.bind_eq_some_iff.1 hstep
    obtain rfl := Option.some.inj hstep
    exact h.settickets (hs.current c p hp) n
  | wakeup chan =>
    obtain rfl := Option.some.inj hstep
    exact h.wakeup1 chan
  | kill c pid =>
    obtain ⟨p, hp, hstep⟩ := Option.bind_eq_some_iff.1 hstep
    obtain rfl := Option.some.inj hstep
    exact h.kill pid

/-- No zombie is lost and nobody waits in vain.  In every state that the system can reach, a zombie has a parent
that has not exited and does not sleep in `wait`; every other process is the first one or has such a parent; and
who sleeps in `wait` has a child that has not exited. -/
theorem family_of_run (es : List Event) (hchan : ∀ e ∈ es, e.OwnChan) (k : Kernel)
    (reached : Trace.run step boot es = some k) (hlive : k.halted = false) :
    (∀ q, (k.table q).state = .zombie →
      ∃ r, (k.table q).parent = some r ∧ (k.table r).state.Live ∧ ¬ Waiting k r) ∧
    (∀ q, (k.table q).state.Live →
      k.initproc = some q ∨ ∃ r, (k.table q).parent = some r ∧ (k.table r).state.Live) ∧
    ∀ r, Waiting k r → ∃ q, (k.table q).parent = some r ∧ (k.table q).state.Live := by
  have hinv : k.halted = false → StateInv k ∧ Family k := by
    refine Trace.run_invariant (P := fun _ e => e.OwnChan) (I := fun k => k.halted = false → StateInv k ∧ Family k)
      ?_ (fun _ => ⟨accountInv_boot.states rfl, family_boot⟩) ((Trace.along_event_iff reached).2 hchan) reached
    intro k e k' hk he hstep hlive'
    obtain ⟨hs, hf⟩ := hk (step_halted hstep)
    exact ⟨hs.step hstep hlive', hf.step hs he hstep hlive'⟩
  have hfamily := (hinv hlive).2
  refine ⟨fun q hq => ?_, fun q hq => ?_, fun r hr => ?_⟩
  · cases hparent : (k.table q).parent with
    | none => exact absurd hq (hfamily.init q (hfamily.orphan q (.inr hq) hparent)).1.ne_zombie
    | some r => exact ⟨r, rfl, hfamily.parent q r hparent, hfamily.awake q r hparent hq⟩
  · cases hparent : (k.table q).parent with
    | none => exact .inl (hfamily.orphan q (.inl hq) hparent)
    | some r => exact .inr ⟨r, rfl, hfamily.parent q r hparent⟩
  · obtain ⟨q, hq⟩ := hfamily.kids r hr
    refine ⟨q, hq, ?_⟩
    rcases (k.table q).state.cases_live with heq | heq | hl | heq
    · exact absurd ((hfamily.fresh q (.inl heq)).symm.trans hq) (none_ne_some r)
    · exact absurd ((hfamily.fresh q (.inr heq)).symm.trans hq) (none_ne_some r)
    · exact hl
    · exact absurd hr (hfamily.awake q r hq heq)

/-- The first process waits for its child, which exits. -/
def waitAndExit : List Event :=
  [.userinit, .schedule 0, .forkBegin 0, .forkEnd 0, .wait 0, .schedule 0, .exit 0]

theorem family_of_run_waitAndExit :
    ∃ k, Trace.run step boot waitAndExit = some k ∧ (k.table 1).state = .zombie ∧
      ∃ r, (k.table 1).parent = some r ∧ (k.table r).state.Live ∧ ¬ Waiting k r :=
  ⟨_, rfl, rfl, (family_of_run waitAndExit (by simp [waitAndExit, Event.OwnChan]) _ rfl rfl).1 1 rfl⟩

end SystemsProjects.Stride
