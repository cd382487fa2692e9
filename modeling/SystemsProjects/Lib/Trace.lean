import Mathlib.Data.List.Basic

/-!
# Runs of a deterministic step function

A system is a partial step function `step : σ → ε → Option σ`: the event `e` is enabled in `s` when
`step s e` is defined.  `run` follows a list of events, `Along P` says that `P` holds at every event
of a run, in the state just before it, and `run_invariant` is the induction rule for invariants.
-/

namespace SystemsProjects.Trace

variable {σ ε : Type*} (step : σ → ε → Option σ)

/-- The state reached by a list of events, if each of them is enabled in turn. -/
def run : σ → List ε → Option σ
  | s, [] => some s
  | s, e :: es => (step s e).bind fun s' => run s' es

/-- `P` holds at every event of the run from `s`, in the state before the event. -/
def Along (P : σ → ε → Prop) : σ → List ε → Prop
  | _, [] => True
  | s, e :: es => P s e ∧ ∀ s', step s e = some s' → Along P s' es

@[simp] theorem run_nil (s : σ) : run step s [] = some s := rfl

theorem run_cons (s : σ) (e : ε) (es : List ε) :
    run step s (e :: es) = (step s e).bind fun s' => run step s' es := rfl

theorem run_cons_eq_some {s s' : σ} {e : ε} {es : List ε} :
    run step s (e :: es) = some s' ↔ ∃ t, step s e = some t ∧ run step t es = some s' := by
  rw [run_cons, Option.bind_eq_some_iff]

theorem along_cons {P : σ → ε → Prop} {s : σ} {e : ε} {es : List ε} :
    Along step P s (e :: es) ↔ P s e ∧ ∀ s', step s e = some s' → Along step P s' es := Iff.rfl

/-- Two predicates that agree wherever an invariant holds agree along every run, if the steps that meet
them preserve the invariant. -/
theorem along_congr_of_invariant {P Q : σ → ε → Prop} {I : σ → Prop}
    (preserved : ∀ s e s', I s → P s e → step s e = some s' → I s') (h : ∀ s e, I s → (P s e ↔ Q s e)) {s : σ}
    (initial : I s) (es : List ε) : Along step P s es ↔ Along step Q s es := by
  induction es generalizing s with
  | nil => exact Iff.rfl
  | cons e es ih =>
    rw [along_cons, along_cons, ← h s e initial]
    exact and_congr_right fun hP => forall_congr' fun s' => imp_congr_right fun hs' =>
      ih (preserved s e s' initial hP hs')

/-- Two predicates that agree at every state and event agree along every run. -/
theorem along_congr {P Q : σ → ε → Prop} (h : ∀ s e, P s e ↔ Q s e) (s : σ) (es : List ε) :
    Along step P s es ↔ Along step Q s es :=
  along_congr_of_invariant step (I := fun _ => True) (fun _ _ _ _ _ _ => trivial) (fun s e _ => h s e) trivial es

/-- A predicate that holds everywhere holds along every run. -/
theorem along_of_forall {P : σ → ε → Prop} (h : ∀ s e, P s e) (s : σ) (es : List ε) :
    Along step P s es := by
  induction es generalizing s with
  | nil => trivial
  | cons e es ih => exact ⟨h s e, fun s' _ => ih s'⟩

variable {step}

theorem along_cons_of_eq {P : σ → ε → Prop} {s t : σ} {e : ε} {es : List ε} (he : P s e)
    (hstep : step s e = some t) (h : Along step P t es) : Along step P s (e :: es) := by
  refine ⟨he, fun s' hs' => ?_⟩
  obtain rfl := Option.some.inj (hstep.symm.trans hs')
  exact h

theorem run_singleton {s t : σ} {e : ε} (h : step s e = some t) : run step s [e] = some t := by
  rw [run_cons, h, Option.bind_some, run_nil]

theorem run_append {s t : σ} {es es' : List ε} (reached : run step s es = some t) :
    run step s (es ++ es') = run step t es' := by
  induction es generalizing s with
  | nil =>
    obtain rfl : s = t := by simpa using reached
    rfl
  | cons e es ih =>
    obtain ⟨u, hu, hrun⟩ := (run_cons_eq_some step).1 reached
    rw [List.cons_append, run_cons, hu, Option.bind_some, ih hrun]

/-- A predicate holds along a run if and only if it holds along its two parts. -/
theorem along_append {P : σ → ε → Prop} {s t : σ} {es es' : List ε} (reached : run step s es = some t) :
    Along step P s (es ++ es') ↔ Along step P s es ∧ Along step P t es' := by
  induction es generalizing s with
  | nil =>
    obtain rfl : s = t := by simpa using reached
    exact ⟨fun h => ⟨trivial, h⟩, fun h => h.2⟩
  | cons e es ih =>
    obtain ⟨u, hu, hrun⟩ := (run_cons_eq_some step).1 reached
    rw [List.cons_append, along_cons, along_cons, and_assoc]
    refine and_congr_right fun _ => ⟨fun h => ?_, fun h s' hs' => ?_⟩
    · obtain ⟨hleft, hright⟩ := (ih hrun).1 (h u hu)
      refine ⟨fun s' hs' => ?_, hright⟩
      obtain rfl := Option.some.inj (hu.symm.trans hs')
      exact hleft
    · obtain rfl := Option.some.inj (hu.symm.trans hs')
      exact (ih hrun).2 ⟨h.1 u hu, h.2⟩

/-- A predicate that holds along a run holds at an event after any prefix of it. -/
theorem Along.at_event {P : σ → ε → Prop} {s t : σ} {es es' : List ε} {e : ε}
    (h : Along step P s (es ++ e :: es')) (reached : run step s es = some t) : P t e :=
  ((along_append reached).1 h).2.1

/-- An invariant that every step meeting `P` preserves holds after every run that meets `P`. -/
theorem run_invariant {P : σ → ε → Prop} {I : σ → Prop}
    (preserved : ∀ s e s', I s → P s e → step s e = some s' → I s') {s s' : σ} {es : List ε}
    (initial : I s) (along : Along step P s es) (reached : run step s es = some s') : I s' := by
  induction es generalizing s with
  | nil =>
    obtain rfl : s = s' := by simpa using reached
    exact initial
  | cons e es ih =>
    obtain ⟨t, ht, hrun⟩ := (run_cons_eq_some step).1 reached
    exact ih (preserved s e t initial along.1 ht) (along.2 t ht) hrun

/-- A property that each step keeps exactly when the step meets `P` holds after a run exactly when it
holds before and the whole run meets `P`. -/
theorem run_iff_along {P : σ → ε → Prop} {I Q : σ → Prop}
    (preserved : ∀ s e s', I s → step s e = some s' → I s')
    (kept : ∀ s e s', I s → step s e = some s' → (Q s' ↔ Q s ∧ P s e)) {s s' : σ} {es : List ε}
    (initial : I s) (reached : run step s es = some s') : Q s' ↔ Q s ∧ Along step P s es := by
  induction es generalizing s with
  | nil =>
    obtain rfl : s = s' := by simpa using reached
    exact (and_iff_left trivial).symm
  | cons e es ih =>
    obtain ⟨t, ht, hrun⟩ := (run_cons_eq_some step).1 reached
    rw [ih (preserved s e t initial ht) hrun, kept s e t initial ht, and_assoc, along_cons]
    refine and_congr_right fun _ => and_congr_right fun _ => ⟨fun h t' ht' => ?_, fun h => h t ht⟩
    obtain rfl := Option.some.inj (ht.symm.trans ht')
    exact h

/-- Along a run that is completed, a condition on the events alone is one on the list of events. -/
theorem along_event_iff {P : ε → Prop} {s s' : σ} {es : List ε} (reached : run step s es = some s') :
    Along step (fun _ e => P e) s es ↔ ∀ e ∈ es, P e := by
  induction es generalizing s with
  | nil => simp [Along]
  | cons e es ih =>
    obtain ⟨t, ht, hrun⟩ := (run_cons_eq_some step).1 reached
    rw [along_cons, List.forall_mem_cons, ← ih hrun]
    refine and_congr_right fun _ => ⟨fun h => h t ht, fun h t' ht' => ?_⟩
    obtain rfl := Option.some.inj (ht.symm.trans ht')
    exact h

/-! ## A system with a history

`step'` is `step` with more in its state: `proj` forgets it. -/

section History

variable {τ : Type*} {step' : τ → ε → Option τ} {proj : τ → σ}

/-- A condition on the runs of the system holds along the runs with a history. -/
theorem along_history (h : ∀ t e t', step' t e = some t' → step (proj t) e = some (proj t')) {P : σ → ε → Prop}
    {t : τ} {es : List ε} (along : Along step P (proj t) es) : Along step' (fun t e => P (proj t) e) t es := by
  induction es generalizing t with
  | nil => trivial
  | cons e es ih => exact ⟨along.1, fun t' ht' => ih (along.2 (proj t') (h t e t' ht'))⟩

/-- Every run of the system is one with a history. -/
theorem run_history (h : ∀ t e s', step (proj t) e = some s' → ∃ t', step' t e = some t' ∧ proj t' = s') {t : τ}
    {s' : σ} {es : List ε} (reached : run step (proj t) es = some s') :
    ∃ t', run step' t es = some t' ∧ proj t' = s' := by
  induction es generalizing t with
  | nil =>
    obtain rfl : proj t = s' := by simpa using reached
    exact ⟨t, rfl, rfl⟩
  | cons e es ih =>
    obtain ⟨u, hu, hrun⟩ := (run_cons_eq_some step).1 reached
    obtain ⟨t₁, ht₁, rfl⟩ := h t e u hu
    obtain ⟨t', ht', hproj⟩ := ih hrun
    refine ⟨t', ?_, hproj⟩
    rw [run_cons, ht₁, Option.bind_some, ht']

end History

end SystemsProjects.Trace
