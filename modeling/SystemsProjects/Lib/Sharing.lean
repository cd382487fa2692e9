import Mathlib.Data.Set.Card

/-!
# Tables of shared frames

A table gives each key at most one frame, read-only or writable.  `refs T f` is the number of keys
that share the frame `f`.  A table is `Exclusive` when a frame that some key may write is shared with
no other key, and `Coloured` when only keys of one colour share a frame.  Every operation on a table
is one update of an entry or two, so the lemmas say what an update does to the three.
-/

namespace SystemsProjects.Sharing

variable {κ φ : Type*}

/-- The entry of each key: a frame, and whether it may be written through that key. -/
abbrev Table (κ φ : Type*) := κ → Option (φ × Bool)

/-- The frame of a key. -/
def frame (T : Table κ φ) (k : κ) : Option φ := (T k).map Prod.fst

theorem frame_of_eq_some {T : Table κ φ} {k : κ} {f : φ} {w : Bool} (h : T k = some (f, w)) :
    frame T k = some f := by
  rw [frame, h, Option.map_some]

theorem frame_eq_some_iff {T : Table κ φ} {k : κ} {f : φ} :
    frame T k = some f ↔ ∃ w, T k = some (f, w) := by
  simp [frame]

theorem frame_eq_none_iff {T : Table κ φ} {k : κ} : frame T k = none ↔ T k = none := by
  simp [frame]

/-- No key has the frame. -/
def Unused (T : Table κ φ) (f : φ) : Prop := ∀ k, frame T k ≠ some f

/-- A frame that some key may write is the frame of no other key. -/
def Exclusive (T : Table κ φ) : Prop :=
  ∀ k f, T k = some (f, true) → ∀ k', frame T k' = some f → k' = k

/-- Keys that share a frame have the same colour. -/
def Coloured {γ : Type*} (colour : κ → γ) (T : Table κ φ) : Prop :=
  ∀ k k' f, frame T k = some f → frame T k' = some f → colour k = colour k'

section Refs

/-- The number of keys that have the frame. -/
noncomputable def refs (T : Table κ φ) (f : φ) : ℕ := {k | frame T k = some f}.ncard

theorem refs_congr {T T' : Table κ φ} (h : ∀ k, frame T' k = frame T k) (f : φ) :
    refs T' f = refs T f := by
  unfold refs
  simp only [h]

/-- A frame with one reference is the frame of one key. -/
theorem eq_of_refs_eq_one {T : Table κ φ} {f : φ} (h : refs T f = 1) {k k' : κ}
    (hk : frame T k = some f) (hk' : frame T k' = some f) : k' = k := by
  obtain ⟨a, ha⟩ := Set.ncard_eq_one.1 h
  have hmem : ∀ x, frame T x = some f → x = a := fun x hx => by
    have : x ∈ {k | frame T k = some f} := hx
    rw [ha] at this
    exact this
  rw [hmem k hk, hmem k' hk']

theorem refs_eq_one_of_unique {T : Table κ φ} {f : φ} {k : κ} (hk : frame T k = some f)
    (h : ∀ k', frame T k' = some f → k' = k) : refs T f = 1 :=
  Set.ncard_eq_one.2 ⟨k, Set.eq_singleton_iff_unique_mem.2 ⟨hk, h⟩⟩

variable [Finite κ]

theorem refs_pos_iff {T : Table κ φ} {f : φ} : 0 < refs T f ↔ ∃ k, frame T k = some f :=
  Set.ncard_pos

theorem refs_eq_zero_iff {T : Table κ φ} {f : φ} : refs T f = 0 ↔ Unused T f := by
  rw [refs, Set.ncard_eq_zero, Set.eq_empty_iff_forall_notMem]
  rfl

theorem refs_pos {T : Table κ φ} {k : κ} {f : φ} (h : frame T k = some f) : 0 < refs T f :=
  refs_pos_iff.2 ⟨k, h⟩

/-- A frame of two keys. -/
theorem one_lt_refs {T : Table κ φ} {k k' : κ} {f : φ} (h : frame T k = some f) (h' : frame T k' = some f)
    (hne : k' ≠ k) : 1 < refs T f := by
  have hpos := refs_pos h
  have hone : refs T f ≠ 1 := fun hx => hne (eq_of_refs_eq_one hx h h')
  omega

/-- A frame of many keys. -/
theorem card_le_refs {ι : Type*} {T : Table κ φ} {f : φ} {k : ι → κ} {S : Finset ι} (hinj : Set.InjOn k S)
    (h : ∀ i ∈ S, frame T (k i) = some f) : S.card ≤ refs T f := by
  classical
  rw [← Finset.card_image_of_injOn hinj, ← Set.ncard_coe_finset]
  refine Set.ncard_le_ncard (fun x hx => ?_) (Set.toFinite _)
  obtain ⟨i, hi, rfl⟩ := Finset.mem_image.1 hx
  exact h i hi

end Refs

/-! ## Counting frames -/

section Counting

variable {ι : Type*} [Finite φ] {own own' : ι → Option φ}

/-- The frames in `O` or in the range of `own`, which gives different keys different frames. -/
theorem ncard_union_own (hinj : ∀ a b g, own a = some g → own b = some g → a = b) (O : Set φ) :
    (O ∪ {g | ∃ a, own a = some g}).ncard = O.ncard + {a | ∃ g, own a = some g ∧ g ∉ O}.ncard := by
  have hset : O ∪ {g | ∃ a, own a = some g} = O ∪ {g | g ∉ O ∧ ∃ a, own a = some g} := by
    ext g
    by_cases hg : g ∈ O <;> simp [hg]
  have hdisj : Disjoint O {g | g ∉ O ∧ ∃ a, own a = some g} :=
    Set.disjoint_left.2 fun g hg hx => hx.1 hg
  have himage : some '' {g | g ∉ O ∧ ∃ a, own a = some g} = own '' {a | ∃ g, own a = some g ∧ g ∉ O} := by
    ext x
    constructor
    · rintro ⟨g, ⟨hg, a, ha⟩, rfl⟩
      exact ⟨a, ⟨g, ha, hg⟩, ha⟩
    · rintro ⟨a, ⟨g, ha, hg⟩, rfl⟩
      exact ⟨g, ⟨hg, a, ha⟩, ha.symm⟩
  have hinjOn : Set.InjOn own {a | ∃ g, own a = some g ∧ g ∉ O} := by
    rintro a ⟨g, ha, -⟩ b - hab
    exact hinj a b g ha (hab ▸ ha)
  rw [hset, Set.ncard_union_eq hdisj, ← Set.ncard_image_of_injective {g | g ∉ O ∧ ∃ a, own a = some g}
    (Option.some_injective φ), himage, hinjOn.ncard_image]

/-- The keys in `W` move to frames outside of `O`: one more frame is in use for each of them that had
its frame in `O`. -/
theorem ncard_union_own_of_moved [Finite ι] (own : ι → Option φ)
    (hinj : ∀ a b g, own a = some g → own b = some g → a = b)
    (hinj' : ∀ a b g, own' a = some g → own' b = some g → a = b) (O : Set φ) (W : Set ι)
    (hkeep : ∀ a ∉ W, own' a = own a) (hnone : ∀ a ∈ W, own a = none → own' a = none)
    (hmove : ∀ a ∈ W, own a ≠ none → ∃ g, own' a = some g ∧ g ∉ O) :
    (O ∪ {g | ∃ a, own' a = some g}).ncard =
      (O ∪ {g | ∃ a, own a = some g}).ncard + {a | a ∈ W ∧ ∃ g ∈ O, own a = some g}.ncard := by
  have hset : {a | ∃ g, own' a = some g ∧ g ∉ O} =
      {a | ∃ g, own a = some g ∧ g ∉ O} ∪ {a | a ∈ W ∧ ∃ g ∈ O, own a = some g} := by
    ext a
    simp only [Set.mem_ofPred_eq, Set.mem_union]
    by_cases ha : a ∈ W
    · cases hown : own a with
      | none => simp [hnone a ha hown]
      | some g =>
        refine iff_of_true (hmove a ha (by simp [hown])) ?_
        by_cases hg : g ∈ O
        · exact Or.inr ⟨ha, g, hg, rfl⟩
        · exact Or.inl ⟨g, rfl, hg⟩
    · simp [ha, hkeep a ha]
  have hdisj : Disjoint {a | ∃ g, own a = some g ∧ g ∉ O} {a | a ∈ W ∧ ∃ g ∈ O, own a = some g} := by
    rw [Set.disjoint_left]
    rintro a ⟨g, ha, hg⟩ ⟨-, g', hg', ha'⟩
    rw [ha] at ha'
    obtain rfl := Option.some.inj ha'
    exact hg hg'
  rw [ncard_union_own hinj, ncard_union_own hinj', hset, Set.ncard_union_eq hdisj, Nat.add_assoc]

/-- Members of `K` leave one by one, those in `W` as long as another member is left: all of `W` leaves, but
for the last one of `K`. -/
theorem ncard_eq_min_of_last [Finite ι] {K W M : Set ι} (hMW : M ⊆ W) (hWK : W ⊆ K) (hleft : (K \ M).Nonempty)
    (hlast : ∀ q ∈ W, q ∉ M → ∀ q' ∈ K, q' ∉ M → q' = q) : M.ncard = min W.ncard (K.ncard - 1) := by
  obtain ⟨r, hrK, hrM⟩ := hleft
  by_cases hr : W ⊆ M
  · -- all of `W` is gone, and somebody else is left
    obtain rfl : M = W := Set.Subset.antisymm hMW hr
    have hlt : M.ncard < K.ncard := Set.ncard_lt_ncard ⟨hWK, fun hx => hrM (hx hrK)⟩ (Set.toFinite K)
    omega
  · obtain ⟨q, hqW, hqM⟩ := Set.not_subset.1 hr
    have hK : K = insert q M := by
      ext q'
      rw [Set.mem_insert_iff]
      constructor
      · intro hq'
        by_cases hx : q' ∈ M
        · exact Or.inr hx
        · exact Or.inl (hlast q hqW hqM q' hq' hx)
      · rintro (rfl | hx)
        · exact hWK hqW
        · exact hWK (hMW hx)
    have hcard : K.ncard = M.ncard + 1 := by rw [hK, Set.ncard_insert_of_notMem hqM (Set.toFinite _)]
    have hlt : M.ncard < W.ncard := Set.ncard_lt_ncard ⟨hMW, hr⟩ (Set.toFinite W)
    omega

end Counting

/-! ## Updates -/

variable [DecidableEq κ]

theorem frame_update (T : Table κ φ) (k : κ) (e : Option (φ × Bool)) (k' : κ) :
    frame (Function.update T k e) k' = if k' = k then e.map Prod.fst else frame T k' := by
  unfold frame
  rw [Function.update_apply]
  split_ifs <;> rfl

/-- What an update of one entry does to the number of keys of a frame. -/
theorem refs_update [Finite κ] [DecidableEq φ] (T : Table κ φ) (k : κ) (e : Option (φ × Bool))
    (f : φ) :
    refs (Function.update T k e) f + (if frame T k = some f then 1 else 0) =
      refs T f + if e.map Prod.fst = some f then 1 else 0 := by
  -- the keys other than `k` are the same before and after
  have hsplit : ∀ T' : Table κ φ, refs T' f =
      {x | x ≠ k ∧ frame T' x = some f}.ncard + if frame T' k = some f then 1 else 0 := by
    intro T'
    unfold refs
    split_ifs with h
    · rw [← Set.ncard_insert_of_notMem (a := k) (by simp)]
      congr 1
      ext x
      by_cases hx : x = k
      · simp [hx, h]
      · simp [hx]
    · rw [Nat.add_zero]
      congr 1
      ext x
      by_cases hx : x = k
      · simp [hx, h]
      · simp [hx]
  have hrest : {x | x ≠ k ∧ frame (Function.update T k e) x = some f} =
      {x | x ≠ k ∧ frame T x = some f} := by
    ext x
    by_cases hx : x = k
    · simp [hx]
    · simp [frame_update, hx]
  rw [hsplit (Function.update T k e), hsplit T, hrest, frame_update, if_pos rfl]
  omega

/-! ## Exclusive tables -/

variable {T : Table κ φ} {k k' : κ} {f g : φ} {w : Bool}

/-- Removing an entry. -/
theorem Exclusive.update_none (h : Exclusive T) : Exclusive (Function.update T k none) := by
  intro a f ha b hb
  rw [frame_update] at hb
  by_cases hak : a = k
  · subst hak
    simp at ha
  · rw [Function.update_of_ne hak] at ha
    by_cases hbk : b = k
    · simp [hbk] at hb
    · rw [if_neg hbk] at hb
      exact h a f ha b hb

/-- A new entry for a frame that no other key has. -/
theorem Exclusive.update_unique (h : Exclusive T) (hf : ∀ x, frame T x = some f → x = k) :
    Exclusive (Function.update T k (some (f, w))) := by
  intro a g ha b hb
  rw [frame_update] at hb
  by_cases hak : a = k
  · subst hak
    obtain ⟨rfl, -⟩ : f = g ∧ w = true := by simpa using ha
    by_cases hba : b = a
    · exact hba
    · rw [if_neg hba] at hb
      exact hf b hb
  · rw [Function.update_of_ne hak] at ha
    by_cases hbk : b = k
    · subst hbk
      obtain rfl : f = g := by simpa using hb
      exact absurd (hf a (frame_of_eq_some ha)) hak
    · rw [if_neg hbk] at hb
      exact h a g ha b hb

/-- A read-only entry for a frame that no key may write. -/
theorem Exclusive.update_readonly (h : Exclusive T) (hf : ∀ x, T x ≠ some (f, true)) :
    Exclusive (Function.update T k (some (f, false))) := by
  intro a g ha b hb
  rw [frame_update] at hb
  by_cases hak : a = k
  · subst hak
    simp at ha
  · rw [Function.update_of_ne hak] at ha
    by_cases hbk : b = k
    · subst hbk
      obtain rfl : f = g := by simpa using hb
      exact absurd ha (hf a)
    · rw [if_neg hbk] at hb
      exact h a g ha b hb

/-- Taking away the permission of a key leaves its frame without a writer. -/
theorem Exclusive.update_self (h : Exclusive T) (hk : frame T k = some f) :
    Exclusive (Function.update T k (some (f, false))) ∧
      ∀ x, Function.update T k (some (f, false)) x ≠ some (f, true) := by
  have hno : ∀ x, Function.update T k (some (f, false)) x ≠ some (f, true) := by
    intro x hx
    by_cases hxk : x = k
    · subst hxk
      simp at hx
    · rw [Function.update_of_ne hxk] at hx
      exact hxk (h x f hx k hk).symm
  refine ⟨fun a g ha b hb => ?_, hno⟩
  by_cases hak : a = k
  · subst hak
    simp at ha
  · have hne : g ≠ f := fun hgf => hno a (hgf ▸ ha)
    rw [Function.update_of_ne hak] at ha
    rw [frame_update] at hb
    by_cases hbk : b = k
    · rw [if_pos hbk, Option.map_some, Option.some.injEq] at hb
      exact absurd hb.symm hne
    · rw [if_neg hbk] at hb
      exact h a g ha b hb

/-! ## Coloured tables -/

variable {γ : Type*} {colour : κ → γ}

theorem Coloured.update_none (h : Coloured colour T) :
    Coloured colour (Function.update T k none) := by
  intro a b g ha hb
  rw [frame_update] at ha hb
  by_cases hak : a = k
  · simp [hak] at ha
  · by_cases hbk : b = k
    · simp [hbk] at hb
    · rw [if_neg hak] at ha
      rw [if_neg hbk] at hb
      exact h a b g ha hb

/-- An entry for a frame whose keys all have the colour of the updated key. -/
theorem Coloured.update_some (h : Coloured colour T)
    (hf : ∀ x, frame T x = some f → colour x = colour k) :
    Coloured colour (Function.update T k (some (f, w))) := by
  intro a b g ha hb
  rw [frame_update] at ha hb
  by_cases hak : a = k
  · subst hak
    obtain rfl : f = g := by simpa using ha
    by_cases hba : b = a
    · rw [hba]
    · rw [if_neg hba] at hb
      exact (hf b hb).symm
  · rw [if_neg hak] at ha
    by_cases hbk : b = k
    · subst hbk
      obtain rfl : f = g := by simpa using hb
      exact hf a ha
    · rw [if_neg hbk] at hb
      exact h a b g ha hb

end SystemsProjects.Sharing
