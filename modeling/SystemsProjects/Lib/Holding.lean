import Mathlib.Data.Set.Basic

/-!
# Holders and what they hold

Each holder in `live` has an item of its own, and these are, with the items in `extra`, the ones in use.  A
new holder takes an item that is not in use, one that leaves gives its item back.
-/

namespace SystemsProjects.Holding

variable {ι φ : Type*} {live live' : Set ι} {item item' : ι → φ} {extra used used' : Set φ} {i : ι} {d : φ}

/-- Each holder has an item of its own, and the other items in use are those in `extra`. -/
structure Held (live : Set ι) (item : ι → φ) (extra used : Set φ) : Prop where
  used_iff : ∀ d, d ∈ used ↔ d ∈ extra ∨ ∃ i, i ∈ live ∧ item i = d
  inj : ∀ i j, i ∈ live → j ∈ live → item i = item j → i = j
  extra_ne : ∀ i, i ∈ live → item i ∉ extra

theorem Held.mem (h : Held live item extra used) (hi : i ∈ live) : item i ∈ used :=
  (h.used_iff _).2 (Or.inr ⟨i, hi, rfl⟩)

theorem Held.ne_of_notMem (h : Held live item extra used) (hi : i ∈ live) (hd : d ∉ used) : item i ≠ d := by
  rintro rfl
  exact hd (h.mem hi)

/-- There is one holder. -/
theorem Held.single (hlive : ∀ j, j ∈ live ↔ j = i) (hused : ∀ e, e ∈ used ↔ e ∈ extra ∨ e = item i)
    (hne : item i ∉ extra) : Held live item extra used := by
  refine ⟨fun e => ?_, fun j k hj hk _ => ((hlive j).1 hj).trans ((hlive k).1 hk).symm, fun j hj => ?_⟩
  · rw [hused e]
    refine or_congr_right ⟨?_, ?_⟩
    · rintro rfl
      exact ⟨i, (hlive i).2 rfl, rfl⟩
    · rintro ⟨j, hj, rfl⟩
      rw [(hlive j).1 hj]
  · rwa [(hlive j).1 hj]

/-- The same holders have the same items. -/
theorem Held.congr (h : Held live item extra used) (hlive : ∀ i, i ∈ live' ↔ i ∈ live)
    (hitem : ∀ i ∈ live, item' i = item i) (hused : ∀ d, d ∈ used' ↔ d ∈ used) :
    Held live' item' extra used' := by
  refine ⟨fun d => ?_, fun i j hi hj => ?_, fun i hi => ?_⟩
  · rw [hused d, h.used_iff d]
    refine or_congr_right (exists_congr fun i => ?_)
    rw [hlive i]
    exact and_congr_right fun hi => by rw [hitem i hi]
  · rw [hlive] at hi hj
    rw [hitem i hi, hitem j hj]
    exact h.inj i j hi hj
  · rw [hlive] at hi
    rw [hitem i hi]
    exact h.extra_ne i hi

/-- Whatever else is in use is extra. -/
theorem Held.rest (h : Held live item extra used) (hused : ∀ i ∈ live, item i ∈ used') :
    Held live item {d | d ∈ used' ∧ ∀ i ∈ live, item i ≠ d} used' := by
  refine ⟨fun d => ?_, h.inj, fun i hi hx => hx.2 i hi rfl⟩
  constructor
  · intro hd
    by_cases hx : ∃ i, i ∈ live ∧ item i = d
    · exact Or.inr hx
    · exact Or.inl ⟨hd, fun i hi hid => hx ⟨i, hi, hid⟩⟩
  · rintro (hd | ⟨i, hi, rfl⟩)
    · exact hd.1
    · exact hused i hi

/-- A new holder takes an item that is not in use. -/
theorem Held.add (h : Held live item extra used) (hd : d ∉ used) (hi : item' i = d)
    (hitem : ∀ j ∈ live, item' j = item j) (hlive : ∀ j, j ∈ live' ↔ j = i ∨ j ∈ live)
    (hused : ∀ e, e ∈ used' ↔ e = d ∨ e ∈ used) : Held live' item' extra used' := by
  have hne : ∀ j ∈ live, item' j ≠ d := fun j hj => by
    rw [hitem j hj]
    exact h.ne_of_notMem hj hd
  refine ⟨fun e => ?_, fun j k hj hk => ?_, fun j hj => ?_⟩
  · rw [hused e, h.used_iff e]
    constructor
    · rintro (rfl | he | ⟨j, hj, rfl⟩)
      · exact Or.inr ⟨i, (hlive i).2 (Or.inl rfl), hi⟩
      · exact Or.inl he
      · exact Or.inr ⟨j, (hlive j).2 (Or.inr hj), hitem j hj⟩
    · rintro (he | ⟨j, hj, rfl⟩)
      · exact Or.inr (Or.inl he)
      · cases (hlive j).1 hj with
        | inl hx => exact Or.inl (by rw [hx, hi])
        | inr hx => exact Or.inr (Or.inr ⟨j, hx, (hitem j hx).symm⟩)
  · intro hjk
    cases (hlive j).1 hj with
    | inl hj =>
      cases (hlive k).1 hk with
      | inl hk => rw [hj, hk]
      | inr hk => exact absurd (by rw [← hjk, hj, hi]) (hne k hk)
    | inr hj =>
      cases (hlive k).1 hk with
      | inl hk => exact absurd (by rw [hjk, hk, hi]) (hne j hj)
      | inr hk => exact h.inj j k hj hk (by rw [← hitem j hj, hjk, hitem k hk])
  · cases (hlive j).1 hj with
    | inl hj =>
      rw [hj, hi]
      exact fun hx => hd ((h.used_iff d).2 (Or.inl hx))
    | inr hj =>
      rw [hitem j hj]
      exact h.extra_ne j hj

/-- A holder leaves and gives its item back. -/
theorem Held.drop (h : Held live item extra used) (hi : i ∈ live) (hitem : ∀ j ∈ live, j ≠ i → item' j = item j)
    (hlive : ∀ j, j ∈ live' ↔ j ∈ live ∧ j ≠ i) (hused : ∀ e, e ∈ used' ↔ e ∈ used ∧ e ≠ item i) :
    Held live' item' extra used' := by
  refine ⟨fun e => ?_, fun j k hj hk => ?_, fun j hj => ?_⟩
  · rw [hused e, h.used_iff e]
    constructor
    · rintro ⟨he | ⟨j, hj, rfl⟩, hne⟩
      · exact Or.inl he
      · have hji : j ≠ i := by
          rintro rfl
          exact hne rfl
        exact Or.inr ⟨j, (hlive j).2 ⟨hj, hji⟩, hitem j hj hji⟩
    · rintro (he | ⟨j, hj, rfl⟩)
      · exact ⟨Or.inl he, fun hx => h.extra_ne i hi (hx ▸ he)⟩
      · obtain ⟨hj, hji⟩ := (hlive j).1 hj
        rw [hitem j hj hji]
        exact ⟨Or.inr ⟨j, hj, rfl⟩, fun hx => hji (h.inj j i hj hi hx)⟩
  · obtain ⟨hj, hji⟩ := (hlive j).1 hj
    obtain ⟨hk, hki⟩ := (hlive k).1 hk
    rw [hitem j hj hji, hitem k hk hki]
    exact h.inj j k hj hk
  · obtain ⟨hj, hji⟩ := (hlive j).1 hj
    rw [hitem j hj hji]
    exact h.extra_ne j hj

/-- A holder gives its item back and takes one that is not in use. -/
theorem Held.swap (h : Held live item extra used) (hi : i ∈ live) (hd : d ∉ used) (hnew : item' i = d)
    (hitem : ∀ j ∈ live, j ≠ i → item' j = item j) (hlive : ∀ j, j ∈ live' ↔ j ∈ live)
    (hused : ∀ e, e ∈ used' ↔ (e = d ∨ e ∈ used) ∧ e ≠ item i) : Held live' item' extra used' := by
  have hdrop : Held {j | j ∈ live ∧ j ≠ i} item' extra {e | e ∈ used ∧ e ≠ item i} :=
    h.drop hi hitem (fun _ => Iff.rfl) fun _ => Iff.rfl
  refine hdrop.add (fun hx => hd hx.1) hnew (fun _ _ => rfl) (fun j => ?_) fun e => ?_
  · rw [hlive j]
    constructor
    · intro hj
      by_cases hji : j = i
      · exact Or.inl hji
      · exact Or.inr ⟨hj, hji⟩
    · rintro (rfl | hj)
      · exact hi
      · exact hj.1
  · rw [hused e]
    constructor
    · rintro ⟨he | he, hne⟩
      · exact Or.inl he
      · exact Or.inr ⟨he, hne⟩
    · rintro (rfl | ⟨he, hne⟩)
      · exact ⟨Or.inl rfl, (h.ne_of_notMem hi hd).symm⟩
      · exact ⟨Or.inr he, hne⟩

end SystemsProjects.Holding
