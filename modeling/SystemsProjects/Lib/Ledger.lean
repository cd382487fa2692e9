import Mathlib.Algebra.BigOperators.Group.Finset.Basic
import Mathlib.Algebra.BigOperators.Group.Finset.Piecewise
import Mathlib.Algebra.Order.BigOperators.Group.Finset
import Mathlib.Data.Multiset.Count

/-!
# Reference counts

Holders have tokens, each of which stands for one reference to something, and a count says how many
references there are.  `Balanced hold count` says that it is right for each token.  An operation changes the
tokens of a few holders, one after the other; `Balanced.update` says what it has to do to the counts.
-/

namespace SystemsProjects.Ledger

variable {κ τ : Type*} [Fintype κ] [DecidableEq κ] [DecidableEq τ]

/-- Each token is held as often as the count says. -/
def Balanced (hold : κ → Multiset τ) (count : τ → ℕ) : Prop := ∀ t, ∑ k, (hold k).count t = count t

variable {hold : κ → Multiset τ} {count count' : τ → ℕ} {k l : κ} {t : τ}

/-- How often a token is held after a change of one holder. -/
theorem sum_count_update (hold : κ → Multiset τ) (k : κ) (m : Multiset τ) (t : τ) :
    ∑ x, (Function.update hold k m x).count t + (hold k).count t = ∑ x, (hold x).count t + m.count t := by
  have hrest : ∑ x ∈ Finset.univ.erase k, (Function.update hold k m x).count t =
      ∑ x ∈ Finset.univ.erase k, (hold x).count t :=
    Finset.sum_congr rfl fun x hx => by rw [Function.update_of_ne (Finset.ne_of_mem_erase hx)]
  rw [← Finset.add_sum_erase _ _ (Finset.mem_univ k),
    ← Finset.add_sum_erase _ (fun x => (hold x).count t) (Finset.mem_univ k), hrest, Function.update_self]
  omega

namespace Balanced

omit [DecidableEq κ] in
theorem count_le (h : Balanced hold count) (k : κ) (t : τ) : (hold k).count t ≤ count t := by
  rw [← h t]
  exact Finset.single_le_sum (f := fun k => (hold k).count t) (fun _ _ => Nat.zero_le _) (Finset.mem_univ k)

omit [DecidableEq κ] in
theorem pos (h : Balanced hold count) (hk : t ∈ hold k) : 0 < count t :=
  lt_of_lt_of_le (Multiset.count_pos.2 hk) (h.count_le k t)

/-- What two holders have is counted twice. -/
theorem count_add_le (h : Balanced hold count) (hkl : k ≠ l) (t : τ) :
    (hold k).count t + (hold l).count t ≤ count t := by
  rw [← h t, ← Finset.sum_pair (f := fun k => (hold k).count t) hkl]
  exact Finset.sum_le_sum_of_subset (Finset.subset_univ _)

theorem one_lt (h : Balanced hold count) (hkl : k ≠ l) (hk : t ∈ hold k) (hl : t ∈ hold l) : 1 < count t := by
  have hle := h.count_add_le hkl t
  have hposk := Multiset.count_pos.2 hk
  have hposl := Multiset.count_pos.2 hl
  omega

/-- The tokens of one holder change, and the counts with them. -/
theorem update {m : Multiset τ} (h : Balanced hold count)
    (hm : ∀ t, m.count t + count t = (hold k).count t + count' t) :
    Balanced (Function.update hold k m) count' := by
  intro t
  have hsum := sum_count_update hold k m t
  have hbefore := h t
  have := hm t
  omega

/-- The tokens of two holders change. -/
theorem update₂ {m n : Multiset τ} (h : Balanced hold count) (hkl : k ≠ l)
    (hm : ∀ t, m.count t + n.count t + count t = (hold k).count t + (hold l).count t + count' t) :
    Balanced (Function.update (Function.update hold k m) l n) count' := by
  have hmid : Balanced (Function.update hold k m) fun t => ∑ x, (Function.update hold k m x).count t := fun _ => rfl
  refine hmid.update fun t => ?_
  have hsum := sum_count_update hold k m t
  have hbefore := h t
  have := hm t
  rw [Function.update_of_ne hkl.symm]
  omega

end Balanced

omit [DecidableEq κ] in
/-- Nothing is held and nothing is counted. -/
theorem balanced_zero (hold : κ → Multiset τ) (count : τ → ℕ) (hhold : ∀ k, hold k = 0) (hcount : ∀ t, count t = 0) :
    Balanced hold count := by
  intro t
  rw [hcount]
  exact Finset.sum_eq_zero fun k _ => by rw [hhold, Multiset.count_zero]

end SystemsProjects.Ledger
