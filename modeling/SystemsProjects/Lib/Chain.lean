import Mathlib.Data.List.Chain
import Mathlib.Data.List.Nodup
import Mathlib.Logic.Function.Basic

/-!
# Circular doubly linked lists

A list of nodes that hang in a circle on a head, through two pointers of each node.  `Linked` says which nodes
they are and in which order; `unlink` and `push` are the two changes of the pointers, and `findFrom` goes from
node to node up to the head.
-/

namespace SystemsProjects.Chain

variable {α : Type*}

/-- The nodes of `l`, in this order, are what `next` leads through from `head` until it comes back, and `prev`
leads through them the other way round. -/
structure Linked (next prev : α → α) (head : α) (l : List α) : Prop where
  chain : (head :: l ++ [head]).IsChain fun a b => next a = b ∧ prev b = a
  nodup : (head :: l).Nodup

variable {next prev : α → α} {head : α} {l xs ys : List α}

theorem linked_nil (hnext : next head = head) (hprev : prev head = head) : Linked next prev head [] :=
  ⟨by simp [hnext, hprev], List.nodup_singleton head⟩

theorem Linked.head_notMem (h : Linked next prev head l) : head ∉ l := (List.nodup_cons.1 h.nodup).1

theorem Linked.reverse (h : Linked next prev head l) : Linked prev next head l.reverse := by
  refine ⟨?_, ?_⟩
  · have hchain := h.chain
    rw [← List.isChain_reverse] at hchain
    simpa [and_comm] using hchain
  · simpa using h.nodup

section Pointers

variable [DecidableEq α]

/-- `b->next->prev = b->prev; b->prev->next = b->next` -/
def unlink (b : α) (p : (α → α) × (α → α)) : (α → α) × (α → α) :=
  let prev := Function.update p.2 (p.1 b) (p.2 b)
  (Function.update p.1 (prev b) (p.1 b), prev)

/-- `b->next = head.next; b->prev = &head; head.next->prev = b; head.next = b` -/
def push (head b : α) (p : (α → α) × (α → α)) : (α → α) × (α → α) :=
  let next := Function.update p.1 b (p.1 head)
  let prev := Function.update (Function.update p.2 b head) (next head) b
  (Function.update next head b, prev)

/-- A node is taken out of the list. -/
theorem Linked.unlink {b : α} (h : Linked next prev head (xs ++ b :: ys)) :
    Linked (unlink b (next, prev)).1 (unlink b (next, prev)).2 head (xs ++ ys) := by
  have hchain : ((head :: xs) ++ b :: (ys ++ [head])).IsChain fun a b => next a = b ∧ prev b = a := by
    simpa using h.chain
  have hnodup : ((head :: xs) ++ b :: ys).Nodup := h.nodup
  obtain ⟨hleft, hright, hjoin⟩ := List.isChain_append.1 hchain
  obtain ⟨hnext, htail⟩ := List.isChain_cons.1 hright
  -- `p` and `n` are the neighbours of `b`
  obtain ⟨p, hp⟩ : ∃ p, (head :: xs).getLast? = some p := ⟨_, List.getLast?_eq_getLast_of_ne_nil (by simp)⟩
  obtain ⟨n, hn⟩ : ∃ n, (ys ++ [head]).head? = some n := ⟨_, List.head?_eq_some_head (by simp)⟩
  obtain ⟨hpb, hbp⟩ := hjoin p hp b rfl
  obtain ⟨hbn, hnb⟩ := hnext n hn
  have hfirst : b ∉ head :: xs := fun hb => (List.nodup_append.1 hnodup).2.2 b hb b List.mem_cons_self rfl
  have hlast : b ∉ ys ++ [head] := by
    rw [List.mem_append, List.mem_singleton, not_or]
    refine ⟨?_, fun heq => hfirst (heq ▸ List.mem_cons_self)⟩
    exact (List.nodup_cons.1 (List.nodup_append.1 hnodup).2.1).1
  have hnb' : n ≠ b := fun heq => hlast (heq ▸ List.mem_of_mem_head? hn)
  have hpointers : Chain.unlink b (next, prev) = (Function.update next p n, Function.update prev n p) := by
    simp only [Chain.unlink, hbn, hbp, Function.update_of_ne hnb'.symm]
  rw [hpointers]
  -- away from `b` the neighbours are the same as before
  have hkeep : ∀ l : List α, b ∉ l → l.IsChain (fun a b => next a = b ∧ prev b = a) →
      l.IsChain fun x y => Function.update next p n x = y ∧ Function.update prev n p y = x := by
    intro l hl
    apply List.IsChain.imp_of_mem_imp
    intro x y hx hy hxy
    have hxp : x ≠ p := fun heq => hl (by rw [← hpb, ← heq, hxy.1]; exact hy)
    have hyn : y ≠ n := fun heq => hl (by rw [← hnb, ← heq, hxy.2]; exact hx)
    rw [Function.update_of_ne hxp, Function.update_of_ne hyn]
    exact hxy
  refine ⟨?_, ?_⟩
  · have happend : head :: (xs ++ ys) ++ [head] = (head :: xs) ++ (ys ++ [head]) := by simp
    rw [happend]
    refine List.isChain_append.2 ⟨hkeep _ hfirst hleft, hkeep _ hlast htail, fun x hx y hy => ?_⟩
    obtain rfl : p = x := Option.some.inj (hp.symm.trans hx)
    obtain rfl : n = y := Option.some.inj (hn.symm.trans hy)
    exact ⟨Function.update_self .., Function.update_self ..⟩
  · exact hnodup.sublist (List.Sublist.append_left (List.sublist_cons_self b ys) (head :: xs))

/-- A node is put at the front of the list. -/
theorem Linked.push {b : α} (h : Linked next prev head l) (hb : b ∉ head :: l) :
    Linked (push head b (next, prev)).1 (push head b (next, prev)).2 head (b :: l) := by
  have hchain : (head :: (l ++ [head])).IsChain fun a b => next a = b ∧ prev b = a := h.chain
  obtain ⟨hnext, htail⟩ := List.isChain_cons.1 hchain
  obtain ⟨n, hn⟩ : ∃ n, (l ++ [head]).head? = some n := ⟨_, List.head?_eq_some_head (by simp)⟩
  obtain ⟨hfirst, hback⟩ := hnext n hn
  have hbhead : b ≠ head := fun heq => hb (heq ▸ List.mem_cons_self)
  have hbl : b ∉ l ++ [head] := by
    rw [List.mem_append, List.mem_singleton]
    exact fun hor => hor.elim (fun hmem => hb (List.mem_cons_of_mem _ hmem)) hbhead
  have hbn : b ≠ n := fun heq => hbl (heq ▸ List.mem_of_mem_head? hn)
  have hpointers : Chain.push head b (next, prev) =
      (Function.update (Function.update next b n) head b, Function.update (Function.update prev b head) n b) := by
    simp only [Chain.push, Function.update_of_ne hbhead.symm, hfirst]
  rw [hpointers]
  refine ⟨?_, ?_⟩
  · rw [List.cons_append, List.cons_append, List.isChain_cons_cons]
    refine ⟨⟨Function.update_self .., ?_⟩, ?_⟩
    · simp only [Function.update_of_ne hbn, Function.update_self]
    · refine List.isChain_cons.2 ⟨fun y hy => ?_, ?_⟩
      · obtain rfl : n = y := Option.some.inj (hn.symm.trans hy)
        refine ⟨?_, Function.update_self ..⟩
        simp only [Function.update_of_ne hbhead, Function.update_self]
      · obtain ⟨hl, hend, hjoin⟩ := List.isChain_append.1 htail
        have hkeep : ∀ x y, x ∈ l → y ∈ l ++ [head] → next x = y ∧ prev y = x →
            Function.update (Function.update next b n) head b x = y ∧
              Function.update (Function.update prev b head) n b y = x := by
          intro x y hx hy hxy
          have hxh : x ≠ head := fun heq => h.head_notMem (heq ▸ hx)
          have hxb : x ≠ b := fun heq => hb (heq ▸ List.mem_cons_of_mem _ hx)
          have hyb : y ≠ b := fun heq => hbl (heq ▸ hy)
          have hyn : y ≠ n := fun heq => hxh (by rw [← hxy.2, heq, hback])
          rw [Function.update_of_ne hxh, Function.update_of_ne hxb, Function.update_of_ne hyn,
            Function.update_of_ne hyb]
          exact hxy
        refine List.isChain_append.2 ⟨?_, List.isChain_singleton _, fun x hx y hy => ?_⟩
        · exact hl.imp_of_mem_imp fun x y hx hy => hkeep x y hx (List.mem_append_left _ hy)
        · exact hkeep x y (List.mem_of_mem_getLast? hx)
            (List.mem_append_right _ (List.mem_of_mem_head? hy)) (hjoin x hx y hy)
  · have hnodup := h.nodup
    rw [List.nodup_cons] at hnodup ⊢
    rw [List.nodup_cons]
    refine ⟨?_, fun hmem => hb (List.mem_cons_of_mem _ hmem), hnodup.2⟩
    rw [List.mem_cons, not_or]
    exact ⟨hbhead.symm, hnodup.1⟩

/-! ## Going through the list -/

/-- `for(; b != &head; b = b->next) if(f(b)) break;` with at most as many rounds as `fuel`. -/
def findFrom (next : α → α) (head : α) (f : α → Bool) : ℕ → α → Option (Option α)
  | 0, _ => none
  | fuel + 1, b => if b = head then some none else if f b then some (some b) else findFrom next head f fuel (next b)

theorem findFrom_eq (f : α → Bool) (a : α)
    (hchain : (a :: l ++ [head]).IsChain fun a b => next a = b ∧ prev b = a) (hhead : head ∉ l) :
    findFrom next head f (l.length + 1) (next a) = some (l.find? f) := by
  induction l generalizing a with
  | nil =>
    have hnext : next a = head := by simpa using (List.isChain_cons_cons.1 hchain).1.1
    simp [findFrom, hnext]
  | cons b l ih =>
    rw [List.cons_append, List.cons_append, List.isChain_cons_cons] at hchain
    have hb : b ≠ head := fun heq => hhead (heq ▸ List.mem_cons_self)
    rw [hchain.1.1, List.length_cons, findFrom, if_neg hb, List.find?_cons]
    cases hf : f b with
    | true => rfl
    | false => exact ih b hchain.2 fun hmem => hhead (List.mem_cons_of_mem _ hmem)

/-- The loop ends, and finds the first node of the list that it looks for. -/
theorem Linked.findFrom (h : Linked next prev head l) (f : α → Bool) :
    findFrom next head f (l.length + 1) (next head) = some (l.find? f) :=
  findFrom_eq f head h.chain h.head_notMem

end Pointers

end SystemsProjects.Chain
