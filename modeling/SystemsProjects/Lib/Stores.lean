import Mathlib.Data.Nat.Init
import Mathlib.Logic.Function.Basic

/-!
# Bytes stored one after the other

A pointer of 32 bits that moves through a memory and stores a byte at each address, until one cannot be
written.  `changed_of_stores` says which addresses the stores can change, `stores_get` what they leave
there.
-/

namespace SystemsProjects.Stores

/-- The memory so far, the pointer, and whether a store has been refused. -/
structure Cursor where
  mem : ℕ → UInt8
  pos : ℕ
  stopped : Bool

/-- The address of a pointer that wraps around. -/
def address (pos : ℕ) : ℕ := pos % 4294967296

variable (writable : ℕ → Bool)

/-- `*s++ = b`. -/
def Cursor.put (c : Cursor) (b : UInt8) : Cursor :=
  if c.stopped then c
  else if writable (address c.pos) then ⟨Function.update c.mem (address c.pos) b, c.pos + 1, false⟩
  else { c with stopped := true }

def Cursor.puts (c : Cursor) (bs : List UInt8) : Cursor := bs.foldl (Cursor.put writable) c

/-- The `j`-th store from `s` on is made. -/
def Reaches (s j : ℕ) : Prop := ∀ i ≤ j, writable (address (s + i)) = true

variable {writable} {mem : ℕ → UInt8} {s j : ℕ} {b : UInt8}

theorem Cursor.puts_stopped (m : ℕ → UInt8) (s : ℕ) (bs : List UInt8) :
    (Cursor.mk m s true).puts writable bs = ⟨m, s, true⟩ := by
  induction bs with
  | nil => rfl
  | cons b bs ih => exact ih

theorem Cursor.puts_cons (h : writable (address s) = true) (bs : List UInt8) :
    (Cursor.mk mem s false).puts writable (b :: bs) =
      (Cursor.mk (Function.update mem (address s) b) (s + 1) false).puts writable bs := by
  have hput : (Cursor.mk mem s false).put writable b =
      ⟨Function.update mem (address s) b, s + 1, false⟩ := by
    unfold Cursor.put
    rw [if_neg Bool.false_ne_true, if_pos h]
  rw [Cursor.puts, List.foldl_cons, hput]
  rfl

theorem Cursor.puts_cons_stopped (h : writable (address s) = false) (bs : List UInt8) :
    (Cursor.mk mem s false).puts writable (b :: bs) = ⟨mem, s, true⟩ := by
  have hput : (Cursor.mk mem s false).put writable b = ⟨mem, s, true⟩ := by
    unfold Cursor.put
    rw [if_neg Bool.false_ne_true, h, if_neg Bool.false_ne_true]
  rw [Cursor.puts, List.foldl_cons, hput]
  exact puts_stopped mem s bs

theorem reaches_zero_iff : Reaches writable s 0 ↔ writable (address s) = true := by
  unfold Reaches
  constructor
  · exact fun h => h 0 (Nat.le_refl 0)
  · intro h i hi
    rwa [Nat.le_zero.1 hi]

theorem reaches_succ_iff :
    Reaches writable s (j + 1) ↔ writable (address s) = true ∧ Reaches writable (s + 1) j := by
  constructor
  · refine fun h => ⟨h 0 (Nat.zero_le _), fun i hi => ?_⟩
    have hi' := h (i + 1) (Nat.succ_le_succ hi)
    rwa [← Nat.add_assoc, Nat.add_right_comm] at hi'
  · rintro ⟨h0, h⟩ i hi
    cases i with
    | zero => exact h0
    | succ i =>
      have hi' := h i (Nat.le_of_succ_le_succ hi)
      rwa [Nat.add_right_comm] at hi'

/-- Only addresses that a store comes to are changed. -/
theorem changed_of_stores {bs : List UInt8} {x : ℕ}
    (h : ((Cursor.mk mem s false).puts writable bs).mem x ≠ mem x) :
    ∃ j, j < bs.length ∧ Reaches writable s j ∧ x = address (s + j) := by
  induction bs generalizing mem s with
  | nil => exact absurd rfl h
  | cons b bs ih =>
    cases hw : writable (address s) with
    | false =>
      rw [Cursor.puts_cons_stopped hw] at h
      exact absurd rfl h
    | true =>
      by_cases hx : x = address s
      · exact ⟨0, Nat.succ_pos _, reaches_zero_iff.2 hw, hx⟩
      · rw [Cursor.puts_cons hw] at h
        have hne : ((Cursor.mk (Function.update mem (address s) b) (s + 1) false).puts writable bs).mem x ≠
            Function.update mem (address s) b x := by rwa [Function.update_of_ne hx]
        obtain ⟨j, hj, hreach, rfl⟩ := ih hne
        exact ⟨j + 1, Nat.succ_lt_succ hj, reaches_succ_iff.2 ⟨hw, hreach⟩, by
          rw [Nat.add_assoc, Nat.add_comm 1 j]⟩

/-- What a store that is made leaves at its address, as long as the pointer does not come back to it. -/
theorem stores_get {bs : List UInt8} (hlen : bs.length ≤ 4294967296) (hj : j < bs.length)
    (hreach : Reaches writable s j) :
    ((Cursor.mk mem s false).puts writable bs).mem (address (s + j)) = bs[j] := by
  induction bs generalizing mem s j with
  | nil => cases hj
  | cons b bs ih =>
    rw [List.length_cons] at hlen hj
    have hw : writable (address s) = true := hreach 0 (Nat.zero_le j)
    rw [Cursor.puts_cons hw]
    cases j with
    | zero =>
      by_contra hne
      have hchanged : ((Cursor.mk (Function.update mem (address s) b) (s + 1) false).puts writable bs).mem
          (address s) ≠ Function.update mem (address s) b (address s) := by
        rwa [Function.update_self]
      obtain ⟨k, hk, -, heq⟩ := changed_of_stores hchanged
      unfold address at heq
      omega
    | succ j =>
      have haddr : s + (j + 1) = s + 1 + j := by omega
      rw [haddr]
      exact ih (Nat.le_of_succ_le hlen) (Nat.lt_of_succ_lt_succ hj) (reaches_succ_iff.1 hreach).2

end SystemsProjects.Stores
