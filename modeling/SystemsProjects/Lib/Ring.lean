import Mathlib.Data.List.Basic
import Mathlib.Logic.Function.Basic

/-!
# Ring buffers

A buffer of `m` cells that a producer and a consumer go round, with two counters that are never reset and
wrap around at 2^32.  Against it stands the list of everything that was ever put in, of which the
consumer has taken a first part.
-/

namespace SystemsProjects.Ring

variable {α : Type*} {m lo : ℕ} {data : ℕ → α} {log : List α}

/-- The cells hold what was put in and not yet taken, the entries of `log` from `lo` on. -/
structure Holds (m : ℕ) (data : ℕ → α) (lo : ℕ) (log : List α) : Prop where
  taken : lo ≤ log.length
  room : log.length ≤ lo + m
  cell : ∀ n, lo ≤ n → ∀ h : n < log.length, data (n % m) = log.get ⟨n, h⟩

theorem Holds.nil : Holds m data 0 [] :=
  ⟨Nat.le_refl _, Nat.zero_le _, fun n _ h => absurd h (Nat.not_lt_zero n)⟩

/-- Two positions less than a round apart are in different cells. -/
theorem mod_ne_of_lt {a b : ℕ} (h : a < b) (hm : b < a + m) : a % m ≠ b % m := by
  intro heq
  have hdvd : m ∣ b - a := Nat.dvd_of_mod_eq_zero (Nat.sub_mod_eq_zero_of_mod_eq heq.symm)
  have hle := Nat.le_of_dvd (by omega) hdvd
  omega

theorem Holds.push (h : Holds m data lo log) (hroom : log.length < lo + m) (x : α) :
    Holds m (Function.update data (log.length % m) x) lo (log ++ [x]) := by
  have htaken := h.taken
  refine ⟨?_, ?_, fun n hn hlt => ?_⟩
  · rw [List.length_append]
    exact Nat.le_add_right_of_le h.taken
  · rw [List.length_append, List.length_singleton]
    exact hroom
  · rw [List.length_append, List.length_singleton] at hlt
    by_cases heq : n = log.length
    · subst heq
      simp
    · have hlt' : n < log.length := by omega
      rw [Function.update_of_ne (mod_ne_of_lt hlt' (by omega))]
      simpa [List.getElem_append_left hlt'] using h.cell n hn hlt'

theorem Holds.pop (h : Holds m data lo log) (hlt : lo < log.length) : Holds m data (lo + 1) log :=
  ⟨hlt, by have := h.room; omega, fun n hn => h.cell n (by omega)⟩

theorem Holds.front (h : Holds m data lo log) (hlt : lo < log.length) :
    data (lo % m) = log.get ⟨lo, hlt⟩ :=
  h.cell lo (Nat.le_refl _) hlt

/-! ## The counters -/

/-- The cell of a counter is the cell of the number it counts. -/
theorem counter_mod (hm : m ∣ 4294967296) (n : ℕ) : (BitVec.ofNat 32 n).toNat % m = n % m := by
  rw [BitVec.toNat_ofNat, Nat.mod_mod_of_dvd n hm]

/-- Counters less than a whole turn apart are equal only if the numbers are. -/
theorem counter_eq_iff {a b : ℕ} (h : a ≤ b) (hlt : b < a + 4294967296) :
    BitVec.ofNat 32 a = BitVec.ofNat 32 b ↔ a = b := by
  refine ⟨fun heq => ?_, fun heq => heq ▸ rfl⟩
  have hmod := congrArg BitVec.toNat heq
  rw [BitVec.toNat_ofNat, BitVec.toNat_ofNat] at hmod
  by_contra hne
  exact mod_ne_of_lt (by omega) hlt hmod

end SystemsProjects.Ring
