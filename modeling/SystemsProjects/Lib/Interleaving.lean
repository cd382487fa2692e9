import Mathlib.Algebra.Order.BigOperators.Group.Finset
import Mathlib.Data.Fintype.BigOperators
import Mathlib.Logic.Function.Iterate

/-!
# Threads that own disjoint cells of a shared heap

A thread is a deterministic machine `next : τ → σ → Option (τ × σ)` on its control state and one cell
of a shared heap.  When different threads own different cells, every interleaving gives each thread
exactly the steps of its run alone (`Reaches.solo`), so a complete interleaving ends with the results
of the threads run one at a time (`Reaches.final`), and no interleaving is longer than the runs alone
together (`Reaches.length_le`).
-/

namespace SystemsProjects.Interleaving

variable {ι κ τ σ : Type*}

/-- A heap of cells and the control state of every thread. -/
structure Pool (ι κ τ σ : Type*) where
  control : ι → τ
  heap : κ → σ

variable (next : τ → σ → Option (τ × σ)) (cell : ι → κ)

/-- The configuration of a thread alone after `n` steps; it stays where it stops. -/
def solo (c : τ × σ) : ℕ → τ × σ
  | 0 => c
  | n + 1 => (next (solo c n).1 (solo c n).2).getD (solo c n)

theorem solo_succ_of_eq_some {c c' : τ × σ} (h : next c.1 c.2 = some c') (n : ℕ) :
    solo next c (n + 1) = solo next c' n := by
  induction n with
  | zero => simp [solo, h]
  | succ n ih => rw [solo, ih, solo]

variable [DecidableEq ι] [DecidableEq κ]

/-- Thread `i` takes its next step on its own cell. -/
def step (p : Pool ι κ τ σ) (i : ι) : Option (Pool ι κ τ σ) :=
  (next (p.control i) (p.heap (cell i))).map fun c =>
    { control := Function.update p.control i c.1, heap := Function.update p.heap (cell i) c.2 }

/-- `p'` is reached from `p` by `n` steps of any threads in any order. -/
inductive Reaches (p : Pool ι κ τ σ) : Pool ι κ τ σ → ℕ → Prop
  | refl : Reaches p p 0
  | tail {q q' : Pool ι κ τ σ} {n : ℕ} (i : ι) (h : Reaches p q n)
      (hstep : step next cell q i = some q') : Reaches p q' (n + 1)

/-- No thread can take a step. -/
def Finished (p : Pool ι κ τ σ) : Prop := ∀ i, next (p.control i) (p.heap (cell i)) = none

variable {next cell}

theorem step_eq_some {p p' : Pool ι κ τ σ} {i : ι} (h : step next cell p i = some p') :
    ∃ c, next (p.control i) (p.heap (cell i)) = some c ∧
      p' = { control := Function.update p.control i c.1,
             heap := Function.update p.heap (cell i) c.2 } := by
  obtain ⟨c, hc, rfl⟩ := Option.map_eq_some_iff.1 h
  exact ⟨c, hc, rfl⟩

/-- In every interleaving each thread has taken some number of the steps of its run alone, all of
them enabled there, and cells without an owner are unchanged. -/
theorem Reaches.solo (hcell : Function.Injective cell) {p q : Pool ι κ τ σ} {n : ℕ} [Fintype ι]
    (h : Reaches next cell p q n) :
    ∃ k : ι → ℕ, ∑ i, k i = n ∧
      (∀ i, (q.control i, q.heap (cell i)) =
        Interleaving.solo next (p.control i, p.heap (cell i)) (k i)) ∧
      (∀ i m, m < k i → (next (Interleaving.solo next (p.control i, p.heap (cell i)) m).1
        (Interleaving.solo next (p.control i, p.heap (cell i)) m).2).isSome) ∧
      ∀ x, (∀ i, cell i ≠ x) → q.heap x = p.heap x := by
  induction h with
  | refl => exact ⟨fun _ => 0, by simp, fun _ => rfl, fun _ _ h => absurd h (Nat.not_lt_zero _),
      fun _ _ => rfl⟩
  | tail i _ hstep ih =>
    obtain ⟨k, hsum, hsolo, henabled, hframe⟩ := ih
    obtain ⟨c, hc, rfl⟩ := step_eq_some hstep
    have hi := hsolo i
    refine ⟨Function.update k i (k i + 1), ?_, fun j => ?_, fun j m hm => ?_, fun x hx => ?_⟩
    · rw [Finset.sum_update_of_mem (Finset.mem_univ i), ← hsum,
        ← Finset.add_sum_erase _ _ (Finset.mem_univ i), Finset.sdiff_singleton_eq_erase]
      omega
    · by_cases hji : j = i
      · subst hji
        simp only [Function.update_self, Interleaving.solo]
        rw [← hi, hc]
        rfl
      · simp only [Function.update_of_ne hji, Function.update_of_ne (hcell.ne hji)]
        exact hsolo j
    · by_cases hji : j = i
      · subst hji
        rw [Function.update_self] at hm
        rcases Nat.lt_succ_iff_lt_or_eq.1 hm with hm | rfl
        · exact henabled j m hm
        · rw [← hi]
          simp [hc]
      · rw [Function.update_of_ne hji] at hm
        exact henabled j m hm
    · simp only [Function.update_of_ne (hx i).symm]
      exact hframe x hx

/-- A thread that has stopped stays where it is. -/
theorem solo_eq_of_none {c : τ × σ} {m n : ℕ}
    (h : next (Interleaving.solo next c m).1 (Interleaving.solo next c m).2 = none) (hmn : m ≤ n) :
    Interleaving.solo next c n = Interleaving.solo next c m := by
  induction n, hmn using Nat.le_induction with
  | base => rfl
  | succ n _ ih => rw [Interleaving.solo, ih, h, Option.getD_none]

/-- A thread takes no step beyond one at which it stops alone. -/
theorem le_of_enabled {c : τ × σ} {k N : ℕ}
    (enabled : ∀ m, m < k → (next (Interleaving.solo next c m).1
      (Interleaving.solo next c m).2).isSome)
    (halt : next (Interleaving.solo next c N).1 (Interleaving.solo next c N).2 = none) : k ≤ N := by
  by_contra hlt
  have := enabled N (by omega)
  rw [halt] at this
  cases this

section Halting

variable [Fintype ι] {p q : Pool ι κ τ σ} {n : ℕ} {N : ι → ℕ} (hcell : Function.Injective cell)
  (halts : ∀ i, next (Interleaving.solo next (p.control i, p.heap (cell i)) (N i)).1
    (Interleaving.solo next (p.control i, p.heap (cell i)) (N i)).2 = none)

include hcell halts

/-- An interleaving is not longer than the threads alone together. -/
theorem Reaches.length_le (h : Reaches next cell p q n) : n ≤ ∑ i, N i := by
  obtain ⟨k, rfl, -, henabled, -⟩ := h.solo hcell
  exact Finset.sum_le_sum fun i _ => le_of_enabled (henabled i) (halts i)

/-- A complete interleaving ends with every thread and its cell as after its run alone. -/
theorem Reaches.final (h : Reaches next cell p q n) (fin : Finished next cell q) (i : ι) :
    (q.control i, q.heap (cell i)) =
      Interleaving.solo next (p.control i, p.heap (cell i)) (N i) := by
  obtain ⟨k, -, hsolo, henabled, -⟩ := h.solo hcell
  rw [hsolo i]
  refine (solo_eq_of_none ?_ (le_of_enabled (henabled i) (halts i))).symm
  rw [← hsolo i]
  exact fin i

end Halting

end SystemsProjects.Interleaving
