import SystemsProjects.Cow.Entries

/-!
# How many copies are made

A frame that `k` processes share is copied as they write to the page, by whoever comes first: as long as
another process has the frame, a writer gets a copy, and the last one keeps the frame.  So the writes of `w`
of them, in any order and any number, take `min w (k - 1)` pages (`copies_eq_min`).
-/

namespace SystemsProjects.Cow

open Sharing

variable {L : Layout} {lost : Word} {leak leak' : Set Page} {eager : Bool} {s s' : Sys}
  {use use' : Page → Use} {f g u v : Page} {p i j q : Slot} {K W F : Set Slot} {C : Set (Slot × Page)} {e : KernelEvent}

/-! ## The property -/

/-- The processes that map a frame. -/
def sharers (s : Sys) (f : Page) : Set Slot := {i | Live s i ∧ ∃ v, userFrame s i v = some f}

/-- The process that stores to the page `v` in an event, and the address. -/
def KernelEvent.storer (v : Page) : KernelEvent → Option (Slot × Word)
  | .user (.mem (.store p va _)) => if pageOf va = v then some (p, va) else none
  | _ => none

/-- The processes in `K` that store to the page `v`. -/
def writers (K : Set Slot) (v : Page) (es : List KernelEvent) : Set Slot :=
  {q | q ∈ K ∧ ∃ e ∈ es, ∃ va, e.storer v = some (q, va)}

open Classical in
/-- The pages that `cowHandler` takes from the free list in an event, for the page `v` of a process in
`K`. -/
noncomputable def eventCopies (K : Set Slot) (v : Page) (s : Sys) (e : KernelEvent) : ℕ :=
  match e.storer v with
  | some (q, va) => if q ∈ K then handlerTakes s q va else 0
  | none => 0

/-- The pages that `cowHandler` takes in a run. -/
noncomputable def copies (L : Layout) (K : Set Slot) (v : Page) : Sys → List KernelEvent → ℕ
  | _, [] => 0
  | s, e :: es =>
    eventCopies K v s e +
      match kernelNext L s e with
      | some s' => copies L K v s' es
      | none => 0

/-- The process shares its frames anew or gives up some of them: it forks, shrinks or loads another
program. -/
def KernelEvent.Disturbs (q : Slot) : KernelEvent → Prop
  | .user (.mem (.fork p)) => p = q
  | .user (.mem (.sbrk p n)) => p = q ∧ n.toInt < 0
  | .user (.exec p _ _) => p = q
  | _ => False

/-- None of the processes in `K` disturbs the sharing, or is gone after the event. -/
def Undisturbed (L : Layout) (K : Set Slot) (s : Sys) (e : KernelEvent) : Prop :=
  (∀ q ∈ K, ¬ e.Disturbs q) ∧ ∀ s', kernelNext L s e = some s' → ∀ q ∈ K, Live s' q

/-- The process can write to the page, in a frame that no other process maps. -/
def OwnsPage (s : Sys) (q : Slot) (v : Page) : Prop :=
  ∃ g, access s.mem (s.procs q).pgdir (paddr v) true = some g ∧
    ∀ i u, Live s i → i ≠ q → userFrame s i u ≠ some g

/-! ## Entries for one frame -/

theorem Inv.userFrame_eq_some_iff (h : Inv L lost eager leak s use) (hi : Live s i) :
    userFrame s i v = some f ↔ ∃ b, pageEntry s i v = some (f, b) := by
  rw [h.userFrame_eq hi, frame_eq_some_iff, h.pageEntry_eq hi]

/-- A frame that a process can write to has no other entry. -/
theorem Inv.writable_unique {b : Bool} (h : Inv L lost eager leak s use) (hi : Live s i) (hj : Live s j)
    (hg : pageEntry s i v = some (g, true)) (hg' : pageEntry s j u = some (g, b)) : j = i ∧ u = v := by
  rw [h.pageEntry_eq hi] at hg
  rw [h.pageEntry_eq hj] at hg'
  obtain ⟨hd, hu⟩ := Prod.mk.inj (h.owned.counts.exclusive _ g hg _ (frame_of_eq_some hg'))
  exact ⟨h.pgdir_inj j i hj hi hd, hu⟩

/-- All entries for a frame are for the same page. -/
theorem Inv.same_page {b b' : Bool} (h : Inv L lost eager leak s use) (hi : Live s i) (hj : Live s j)
    (hg : pageEntry s i v = some (g, b)) (hg' : pageEntry s j u = some (g, b')) : u = v := by
  rw [h.pageEntry_eq hi] at hg
  rw [h.pageEntry_eq hj] at hg'
  exact h.owned.counts.coloured _ _ g (frame_of_eq_some hg') (frame_of_eq_some hg)

/-- A frame with more than one entry is mapped by another process. -/
theorem Inv.exists_other {b : Bool} (h : Inv L lost eager leak s use) (hi : Live s i)
    (hf : pageEntry s i v = some (f, b)) (hrefs : refs (userTable s.mem use) f ≠ 1) :
    ∃ j b', Live s j ∧ j ≠ i ∧ pageEntry s j v = some (f, b') := by
  by_contra hnone
  have hi' := hf
  rw [h.pageEntry_eq hi] at hi'
  refine hrefs (refs_eq_one_of_unique (frame_of_eq_some hi') fun k hk => ?_)
  obtain ⟨d, u⟩ := k
  obtain ⟨b', hb'⟩ := frame_eq_some_iff.1 hk
  cases (h.dirs d).1 (h.owned.counts.entry d u f b' hb').1 with
  | inl hx =>
    rw [hx, h.kernel u] at hb'
    cases hb'
  | inr hx =>
    obtain ⟨j, hj, rfl⟩ := hx
    rw [← h.pageEntry_eq hj] at hb'
    obtain rfl := h.same_page hi hj hf hb'
    by_cases hji : j = i
    · rw [hji]
    · exact absurd ⟨j, b', hj, hji, hb'⟩ hnone

theorem Inv.ownsPage (h : Inv L lost eager leak s use) (hq : Live s q) (hg : pageEntry s q v = some (g, true)) :
    OwnsPage s q v := by
  refine ⟨g, ?_, fun i u hi hiq hx => ?_⟩
  · rw [h.owned.access_eq (h.dir hq), pageOf_paddr, ← h.pageEntry_eq hq, hg]
    rfl
  · obtain ⟨b, hb⟩ := (h.userFrame_eq_some_iff hi).1 hx
    exact hiq (h.writable_unique hq hi hg hb).1

/-! ## While the frame is shared -/

/-- The processes in `K` shared the frame `f` at page `v`, and those in `W` have written to it since. -/
structure SharedBy (K : Set Slot) (f v : Page) (W : Set Slot) (s : Sys) : Prop where
  live : ∀ q ∈ K, Live s q
  subset : W ⊆ K
  written : ∀ q ∈ W, ∃ g, pageEntry s q v = some (g, true)
  unwritten : ∀ q ∈ K, q ∉ W → ∃ b, pageEntry s q v = some (f, b)
  only : ∀ i u b, Live s i → pageEntry s i u = some (f, b) → i ∈ K ∧ u = v
  left : ∃ q ∈ K, ∃ b, pageEntry s q v = some (f, b)

/-- The processes in `K` that have another frame now. -/
def moved (K : Set Slot) (f v : Page) (s : Sys) : Set Slot := {q | q ∈ K ∧ ∀ b, pageEntry s q v ≠ some (f, b)}

theorem Inv.sharedBy (h : Inv L lost eager leak s use) (hp : Live s p) (hf : userFrame s p v = some f) :
    SharedBy (sharers s f) f v ∅ s := by
  obtain ⟨b, hb⟩ := (h.userFrame_eq_some_iff hp).1 hf
  refine ⟨fun q hq => hq.1, Set.empty_subset _, fun q hq => absurd hq (Set.notMem_empty q), ?_, ?_,
    ⟨p, ⟨hp, v, hf⟩, b, hb⟩⟩
  · rintro q ⟨hq, u, hu⟩ -
    obtain ⟨b', hb'⟩ := (h.userFrame_eq_some_iff hq).1 hu
    obtain rfl := h.same_page hp hq hb hb'
    exact ⟨b', hb'⟩
  · intro i u b' hi hb'
    exact ⟨⟨hi, u, (h.userFrame_eq_some_iff hi).2 ⟨b', hb'⟩⟩, h.same_page hp hi hb hb'⟩

theorem SharedBy.entry (hs : SharedBy K f v W s) (hq : q ∈ K) : ∃ x, pageEntry s q v = some x := by
  by_cases hW : q ∈ W
  · obtain ⟨g, hg⟩ := hs.written q hW
    exact ⟨_, hg⟩
  · obtain ⟨b, hb⟩ := hs.unwritten q hq hW
    exact ⟨_, hb⟩

/-- As long as one of the processes has the frame and none of them forks, no other process gets it. -/
theorem SharedBy.only_of_left (hs : SharedBy K f v W s) (hfollow : EntriesFollow C F s s') (hF : ∀ q ∈ K, q ∉ F)
    (h' : Inv L lost eager leak' s' use') (hlive : ∀ q ∈ K, Live s' q)
    (hleft : ∃ q ∈ K, ∃ b, pageEntry s' q v = some (f, b)) (i : Slot) (u : Page) (b : Bool) (hi : Live s' i)
    (hb : pageEntry s' i u = some (f, b)) : i ∈ K ∧ u = v := by
  obtain ⟨q, hq, b', hb'⟩ := hleft
  cases b with
  | true =>
    obtain ⟨rfl, rfl⟩ := h'.writable_unique hi (hlive q hq) hb hb'
    exact ⟨hq, rfl⟩
  | false =>
    obtain ⟨j, b₁, hj, hij, hb₁⟩ := hfollow.origin i u f hi hb
    obtain ⟨hjK, rfl⟩ := hs.only j u b₁ hj hb₁
    cases hij with
    | inl hx => exact ⟨hx ▸ hjK, rfl⟩
    | inr hx => exact absurd hx (hF j hjK)

/-- The processes in `K` keep their entries for the page. -/
theorem SharedBy.of_kept (hs : SharedBy K f v W s) (hfollow : EntriesFollow C F s s') (hF : ∀ q ∈ K, q ∉ F)
    (hC : ∀ q ∈ K, (q, v) ∉ C) (h' : Inv L lost eager leak' s' use') (hlive : ∀ q ∈ K, Live s' q) :
    SharedBy K f v W s' ∧ moved K f v s' = moved K f v s := by
  have hsame : ∀ q ∈ K, pageEntry s' q v = pageEntry s q v := by
    intro q hq
    obtain ⟨x, hx⟩ := hs.entry hq
    rw [hx]
    exact hfollow.kept q v x (hs.live q hq) (hlive q hq) (hC q hq) hx
  have hleft : ∃ q ∈ K, ∃ b, pageEntry s' q v = some (f, b) := by
    obtain ⟨q, hq, b, hb⟩ := hs.left
    exact ⟨q, hq, b, by rw [hsame q hq, hb]⟩
  refine ⟨⟨hlive, hs.subset, fun q hq => ?_, fun q hq hW => ?_, hs.only_of_left hfollow hF h' hlive hleft,
    hleft⟩, ?_⟩
  · rw [hsame q (hs.subset hq)]
    exact hs.written q hq
  · rw [hsame q hq]
    exact hs.unwritten q hq hW
  · ext q
    exact and_congr_right fun hq => by rw [hsame q hq]

/-- One of the processes stores to the page: it gets a copy as long as another one has the frame. -/
theorem SharedBy.store {va : Word} {b : Byte} (hs : SharedBy K f v W s) (h : Inv L lost eager leak s use)
    (h' : Inv L lost eager leak' s' use') (hq : q ∈ K) (hva : pageOf va = v) (hfails : ¬ HandlerFails s q va)
    (hs' : store q va b s = .ok s') (hlive : ∀ q ∈ K, Live s' q) :
    SharedBy K f v (W ∪ {q}) s' ∧ (moved K f v s').ncard = (moved K f v s).ncard + handlerTakes s q va := by
  subst hva
  obtain ⟨⟨g, w⟩, hg⟩ := hs.entry hq
  have hT := hg
  rw [h.pageEntry_eq (hs.live q hq)] at hT
  obtain ⟨hfollow, g', hown, hcases⟩ := h.entryStored (F := ∅) (hs.live q hq) hfails hT hs'
  replace hown := hown (hlive q hq)
  have hother : ∀ i ∈ K, i ≠ q → pageEntry s' i (pageOf va) = pageEntry s i (pageOf va) := by
    intro i hi hiq
    obtain ⟨x, hx⟩ := hs.entry hi
    rw [hx]
    exact hfollow.kept i _ x (hs.live i hi) (hlive i hi) (fun hmem => hiq (Prod.mk.inj hmem).1) hx
  have hshared : (∃ i ∈ K, ∃ b, pageEntry s' i (pageOf va) = some (f, b)) →
      SharedBy K f (pageOf va) (W ∪ {q}) s' := by
    intro hleft
    refine ⟨hlive, Set.union_subset hs.subset (Set.singleton_subset_iff.2 hq), fun i hi => ?_, fun i hi hW => ?_,
      hs.only_of_left hfollow (fun _ _ => Set.notMem_empty _) h' hlive hleft, hleft⟩
    · by_cases hiq : i = q
      · exact ⟨g', hiq ▸ hown⟩
      · have hiW : i ∈ W := hi.resolve_right hiq
        rw [hother i (hs.subset hiW) hiq]
        exact hs.written i hiW
    · rw [Set.mem_union, not_or] at hW
      rw [hother i hi hW.2]
      exact hs.unwritten i hi hW.1
  obtain ⟨rfl, htakes⟩ | ⟨rfl, hrefs, htakes⟩ := hcases
  · -- in place: everybody has the frame that they had
    have hframe : ∀ i ∈ K, (∃ b, pageEntry s' i (pageOf va) = some (f, b)) ↔
        ∃ b, pageEntry s i (pageOf va) = some (f, b) := by
      intro i hi
      by_cases hiq : i = q
      · rw [hiq, hown, hg]
        simp
      · rw [hother i hi hiq]
    refine ⟨hshared ?_, ?_⟩
    · obtain ⟨i, hi, hb⟩ := hs.left
      exact ⟨i, hi, (hframe i hi).2 hb⟩
    · rw [htakes, Nat.add_zero]
      congr 1
      ext i
      refine and_congr_right fun hi => ?_
      rw [← not_exists, hframe i hi, not_exists]
  · -- a copy: the process has not written before, and another one has the frame
    have hqW : q ∉ W := by
      intro hqW
      obtain ⟨g₁, hg₁⟩ := hs.written q hqW
      rw [hg] at hg₁
      cases hg₁
    obtain ⟨b, hb⟩ := hs.unwritten q hq hqW
    obtain rfl : g = f := (Prod.mk.inj (Option.some.inj (hg.symm.trans hb))).1
    obtain ⟨j, b', hj, hjq, hb'⟩ := h.exists_other (hs.live q hq) hg hrefs
    have hjK := (hs.only j _ b' hj hb').1
    have hb'' : pageEntry s' j (pageOf va) = some (g, b') := by rw [hother j hjK hjq, hb']
    have hne : g' ≠ g := by
      rintro rfl
      exact hjq (h'.writable_unique (hlive q hq) (hlive j hjK) hown hb'').1
    refine ⟨hshared ⟨j, hjK, b', hb''⟩, ?_⟩
    have hmoved : moved K g (pageOf va) s' = insert q (moved K g (pageOf va) s) := by
      ext i
      by_cases hiq : i = q
      · rw [hiq]
        refine iff_of_true ⟨hq, fun b hx => ?_⟩ (Set.mem_insert q _)
        rw [hown] at hx
        exact hne (Prod.mk.inj (Option.some.inj hx)).1
      · rw [Set.mem_insert_iff, or_iff_right hiq]
        exact and_congr_right fun hi => by rw [hother i hi hiq]
    rw [hmoved, htakes, Set.ncard_insert_of_notMem (fun hx => hx.2 _ hg) (Set.toFinite _)]

/-! ## Runs -/

theorem KernelEvent.storer_eq_some {va : Word} (h : e.storer v = some (q, va)) :
    pageOf va = v ∧ ∃ b, e = .user (.mem (.store q va b)) := by
  unfold KernelEvent.storer at h
  split at h
  · split_ifs at h with hva
    obtain ⟨rfl, rfl⟩ := Prod.mk.inj (Option.some.inj h)
    exact ⟨hva, _, rfl⟩
  · cases h

/-- Without a disturbance only a store of the process changes its entry for the page. -/
theorem KernelEvent.storer_of_changed (hq : ¬ e.Disturbs q) (hC : (q, v) ∈ e.changed) :
    ∃ va, e.storer v = some (q, va) := by
  unfold KernelEvent.changed at hC
  split at hC
  · rename_i p va b
    obtain ⟨rfl, rfl⟩ := Prod.mk.inj hC
    exact ⟨va, by simp [KernelEvent.storer]⟩
  · exact absurd (Eq.symm hC) hq
  · exact absurd ⟨hC.1.symm, hC.2⟩ hq
  · exact absurd (Eq.symm hC) hq
  · exact absurd hC (Set.notMem_empty _)

theorem KernelEvent.not_forking (hq : ¬ e.Disturbs q) : q ∉ e.forking := by
  intro hF
  unfold KernelEvent.forking at hF
  split at hF
  · exact hq (Eq.symm hF)
  · exact hF

/-- One event. -/
theorem SharedBy.step (hs : SharedBy K f v W s) (h : Inv L lost false leak s use) (hall : AllManaged L use)
    (h' : Inv L lost false leak' s' use') (he : e.Allowed L s) (hu : Undisturbed L K s e)
    (hnext : kernelNext L s e = some s') : SharedBy K f v (W ∪ writers K v [e]) s' ∧
      (moved K f v s').ncard = (moved K f v s).ncard + eventCopies K v s e := by
  have hlive := hu.2 s' hnext
  by_cases hstore : ∃ q ∈ K, ∃ va, e.storer v = some (q, va)
  · obtain ⟨q, hq, va, hva⟩ := hstore
    obtain ⟨hpage, b, rfl⟩ := KernelEvent.storer_eq_some hva
    have hwriters : writers K v [.user (.mem (.store q va b))] = {q} := by
      ext i
      simp only [writers, List.mem_singleton, exists_eq_left, hva, Set.mem_ofPred_eq, Set.mem_singleton_iff]
      constructor
      · rintro ⟨-, va', hx⟩
        exact (Prod.mk.inj (Option.some.inj hx)).1.symm
      · rintro rfl
        exact ⟨hq, va, rfl⟩
    have hstep : memStep L cowuvm s (.store q va b) = .ok s' := kernelNext_eq_some_iff.1 hnext
    unfold memStep at hstep
    split_ifs at hstep
    rw [hwriters, eventCopies, hva]
    simp only [if_pos hq]
    exact hs.store h h' hq hpage he.1 hstep hlive
  · have hwriters : writers K v [e] = ∅ := by
      rw [Set.eq_empty_iff_forall_notMem]
      rintro q ⟨hq, e', he', va, hva⟩
      rw [List.mem_singleton.1 he'] at hva
      exact hstore ⟨q, hq, va, hva⟩
    have hcopied : eventCopies K v s e = 0 := by
      unfold eventCopies
      split
      · rename_i q va hva
        exact if_neg fun hq => hstore ⟨q, hq, va, hva⟩
      · rfl
    rw [hwriters, Set.union_empty, hcopied, Nat.add_zero]
    obtain ⟨hs₁, hmoved⟩ := hs.of_kept (h.entriesFollow_kernelNext hall he hnext)
      (fun q hq => KernelEvent.not_forking (hu.1 q hq))
      (fun q hq hC => hstore ⟨q, hq, KernelEvent.storer_of_changed (hu.1 q hq) hC⟩) h' hlive
    exact ⟨hs₁, by rw [hmoved]⟩

theorem writers_cons (K : Set Slot) (v : Page) (e : KernelEvent) (es : List KernelEvent) :
    writers K v (e :: es) = writers K v [e] ∪ writers K v es := by
  ext q
  simp only [writers, List.mem_cons, List.not_mem_nil, or_false, Set.mem_union, Set.mem_ofPred_eq]
  constructor
  · rintro ⟨hq, e', rfl | he', hva⟩
    · exact Or.inl ⟨hq, e', rfl, hva⟩
    · exact Or.inr ⟨hq, e', he', hva⟩
  · rintro (⟨hq, e', rfl, hva⟩ | ⟨hq, e', he', hva⟩)
    · exact ⟨hq, e', Or.inl rfl, hva⟩
    · exact ⟨hq, e', Or.inr he', hva⟩

/-- A whole run: every page that `cowHandler` takes is one for a process that has left the frame. -/
theorem SharedBy.run {es : List KernelEvent} (hes : Trace.Along (kernelNext L)
      (fun s e => e.Allowed L s ∧ Undisturbed L K s e) s es) (hrun : Trace.run (kernelNext L) s es = some s')
    (hs : SharedBy K f v W s) (h : Inv L lost false leak s use) (hall : AllManaged L use) :
    ∃ leak' use', Inv L lost false leak' s' use' ∧ SharedBy K f v (W ∪ writers K v es) s' ∧
      (moved K f v s').ncard = (moved K f v s).ncard + copies L K v s es := by
  induction es generalizing s W leak use with
  | nil =>
    obtain rfl : s = s' := by simpa using hrun
    refine ⟨leak, use, h, ?_, rfl⟩
    rwa [show writers K v [] = ∅ by simp [writers], Set.union_empty]
  | cons e es ih =>
    obtain ⟨s₁, hs₁, hrun₁⟩ := (Trace.run_cons_eq_some _).1 hrun
    obtain ⟨leak₁, use₁, h₁, hall₁⟩ := h.kernelNext hall hes.1.1 hs₁
    obtain ⟨hshared, hcount⟩ := hs.step h hall h₁ hes.1.1 hes.1.2 hs₁
    obtain ⟨leak', use', h', hshared', hcount'⟩ := ih (hes.2 s₁ hs₁) hrun₁ hshared h₁ hall₁
    refine ⟨leak', use', h', ?_, ?_⟩
    · rwa [writers_cons, ← Set.union_assoc]
    · rw [hcount', hcount, copies, hs₁, Nat.add_assoc]

/-- How many of the processes have left the frame. -/
theorem SharedBy.ncard_moved (hs : SharedBy K f v W s) (h : Inv L lost eager leak s use) :
    (moved K f v s).ncard = min W.ncard (K.ncard - 1) := by
  refine ncard_eq_min_of_last (fun q hq => ?_) hs.subset ?_ fun q hqW hqM q' hq'K hq'M => ?_
  · by_contra hqW
    obtain ⟨b, hb⟩ := hs.unwritten q hq.1 hqW
    exact hq.2 b hb
  · obtain ⟨q, hq, b, hb⟩ := hs.left
    exact ⟨q, hq, fun hx => hx.2 b hb⟩
  · have hframe : ∀ {i : Slot}, i ∈ K → i ∉ moved K f v s → ∃ b, pageEntry s i v = some (f, b) := by
      intro i hi hx
      by_contra hne
      exact hx ⟨hi, not_exists.1 hne⟩
    have hqK := hs.subset hqW
    obtain ⟨g, hg⟩ := hs.written q hqW
    obtain ⟨b, hb⟩ := hframe hqK hqM
    obtain ⟨b', hb'⟩ := hframe hq'K hq'M
    obtain rfl := (Prod.mk.inj (Option.some.inj (hg.symm.trans hb))).1
    exact (h.writable_unique (hs.live q hqK) (hs.live q' hq'K) hg hb').1

/-- The number of copies: from any reachable state, in any run in which none of the processes that map a frame
forks, shrinks, loads another program or is gone, `cowHandler` takes `min w (k - 1)` pages for the page, where
`k` processes map the frame and `w` of them store to the page; and every writer has a frame of its own in the
end. -/
theorem copies_eq_min {ram : Page → PageData} {init : List Byte} {es₀ es : List KernelEvent} {s₀ : Sys}
    (hboot : boot L ram init = .ok s₀)
    (hes₀ : Trace.Along (kernelNext L) (fun s e => e.Allowed L s) s₀ es₀)
    (hrun₀ : Trace.run (kernelNext L) s₀ es₀ = some s) (hp : Live s p) (hf : userFrame s p v = some f)
    (hes : Trace.Along (kernelNext L) (fun s₁ e => e.Allowed L s₁ ∧ Undisturbed L (sharers s f) s₁ e) s es)
    (hrun : Trace.run (kernelNext L) s es = some s') :
    copies L (sharers s f) v s es = min (writers (sharers s f) v es).ncard ((sharers s f).ncard - 1) ∧
      ∀ q ∈ writers (sharers s f) v es, OwnsPage s' q v := by
  obtain ⟨leak, use, h, hall⟩ := exists_managed_of_kernelRun hboot hes₀ hrun₀
  obtain ⟨leak', use', h', hs, hcount⟩ := (h.sharedBy hp hf).run hes hrun h hall
  rw [Set.empty_union] at hs
  have hstart : (moved (sharers s f) f v s).ncard = 0 := by
    rw [(h.sharedBy hp hf).ncard_moved h, Set.ncard_empty, Nat.zero_min]
  refine ⟨?_, fun q hq => ?_⟩
  · rw [← hs.ncard_moved h', hcount, hstart, Nat.zero_add]
  · obtain ⟨g, hg⟩ := hs.written q hq
    exact h'.ownsPage (hs.live q (hs.subset hq)) hg

/-- Parent and child write to their page. -/
def bothWrite : List KernelEvent :=
  [.user (.mem (.store slotA 0#32 7#8)), .user (.mem (.store initSlot 0#32 8#8))]

theorem writers_bothWrite : writers {initSlot, slotA} 0#20 bothWrite = {initSlot, slotA} := by
  have hpage : pageOf 0#32 = 0#20 := by decide
  ext q
  refine ⟨fun hq => hq.1, fun hq => ⟨hq, ?_⟩⟩
  rcases hq with rfl | rfl
  · exact ⟨_, List.mem_cons_of_mem _ List.mem_cons_self, 0#32, by simp [KernelEvent.storer, hpage]⟩
  · exact ⟨_, List.mem_cons_self, 0#32, by simp [KernelEvent.storer, hpage]⟩

/-- The first process forks, and both write to the page that they share. -/
theorem exists_bothWrite : ∃ s₀ s s' f,
    boot smallLayout blankRam [] = .ok s₀ ∧
    kernelNext smallLayout s₀ (.user (.mem (.fork initSlot))) = some s ∧ Live s initSlot ∧
    userFrame s initSlot 0#20 = some f ∧ sharers s f = {initSlot, slotA} ∧
    Trace.Along (kernelNext smallLayout)
      (fun s₁ e => e.Allowed smallLayout s₁ ∧ Undisturbed smallLayout {initSlot, slotA} s₁ e) s bothWrite ∧
    Trace.run (kernelNext smallLayout) s bothWrite = some s' := by
  obtain ⟨s₀, s, use, f, hboot, hs, ⟨par, f₀, h⟩, hf, hfA, -⟩ := exists_fork_shared
  obtain ⟨s₁, use₁, hs₁, h₁, -⟩ := h.step (by decide) (by simp)
    (h.family.store (p := slotA) (by decide) 7#8)
  obtain ⟨s₂, use₂, hs₂, h₂, -⟩ := h₁.step (by decide) (by simp)
    (h₁.family.store (p := initSlot) (by decide) 8#8)
  have hn₁ : kernelNext smallLayout s (.user (.mem (.store slotA 0#32 7#8))) = some s₁ :=
    kernelNext_eq_some_iff.2 hs₁
  have hn₂ : kernelNext smallLayout s₁ (.user (.mem (.store initSlot 0#32 8#8))) = some s₂ :=
    kernelNext_eq_some_iff.2 hs₂
  have hroom : ∀ {s : Sys} {use : Page → Use} {st : Slot → ProcState} {par : Slot → Option Slot} {p : Slot},
      Running smallLayout false {f₀} s use st par → (Finset.univ.filter fun i => st i ≠ .unused).card ≤ 4 →
      ¬ HandlerFails s p 0#32 := by
    rintro s use st par p h hfew ⟨-, -, hzero⟩
    have := h.inv.owned.freeCount_eq_zero hzero
    have := h.freeCount_le hfew
    omega
  have hinit : Live s initSlot := h.live_iff.2 (by decide)
  refine ⟨s₀, s, s₂, f, hboot, kernelNext_eq_some_iff.2 hs, hinit, hf, ?_,
    Trace.along_cons_of_eq ⟨⟨hroom h (by decide), trivial⟩, fun _ _ => id, fun s' hs' q hq => ?_⟩ hn₁
      (Trace.along_cons_of_eq ⟨⟨hroom h₁ (by decide), trivial⟩, fun _ _ => id, fun s' hs' q hq => ?_⟩ hn₂
        trivial), ?_⟩
  · ext q
    constructor
    · rintro ⟨hq, -⟩
      rw [h.live_iff] at hq
      revert q
      decide
    · rintro (rfl | rfl)
      · exact ⟨hinit, _, hf⟩
      · exact ⟨h.live_iff.2 (by decide), _, hfA⟩
  · obtain rfl := Option.some.inj (hn₁.symm.trans hs')
    rw [h₁.live_iff]
    rcases hq with rfl | rfl <;> decide
  · obtain rfl := Option.some.inj (hn₂.symm.trans hs')
    rw [h₂.live_iff]
    rcases hq with rfl | rfl <;> decide
  · rw [bothWrite, Trace.run_cons, hn₁, Option.bind_some, Trace.run_singleton hn₂]

/-- Two processes write and one page is taken. -/
theorem copies_eq_min_bothWrite : ∃ s₀ s s' f,
    boot smallLayout blankRam [] = .ok s₀ ∧
    Trace.run (kernelNext smallLayout) s₀ [.user (.mem (.fork initSlot))] = some s ∧
    userFrame s initSlot 0#20 = some f ∧ Trace.run (kernelNext smallLayout) s bothWrite = some s' ∧
    copies smallLayout (sharers s f) 0#20 s bothWrite = 1 ∧ OwnsPage s' initSlot 0#20 ∧
    OwnsPage s' slotA 0#20 := by
  obtain ⟨s₀, s, s', f, hboot, hfork, hinit, hf, hsharers, hes, hrun⟩ := exists_bothWrite
  have hes₀ : Trace.Along (kernelNext smallLayout) (fun s e => e.Allowed smallLayout s) s₀
      [.user (.mem (.fork initSlot))] := Trace.along_cons_of_eq ⟨id, trivial⟩ hfork trivial
  obtain ⟨hcopies, howns⟩ := copies_eq_min hboot hes₀ (Trace.run_singleton hfork) hinit hf
    (by rw [hsharers]; exact hes) hrun
  have hpair : ({initSlot, slotA} : Set Slot).ncard = 2 := Set.ncard_pair (by decide)
  rw [hsharers, writers_bothWrite] at howns
  refine ⟨s₀, s, s', f, hboot, Trace.run_singleton hfork, hf, hrun, ?_, howns _ (Or.inl rfl), howns _ (Or.inr rfl)⟩
  rw [hcopies, hsharers, writers_bothWrite, hpair]
  rfl

end SystemsProjects.Cow
