import SystemsProjects.Cow.Ownership

/-!
# No page is leaked across fork and exit

From a fork until the child and all its descendants have been reaped, the other processes keep their
frames, except that the parent gets new ones for pages it writes.  So the free pages are as many as
before the fork, less one for each page that the parent has written and that it shared before the fork
with a process outside of the family: from then on there are two copies of that page.
-/

namespace SystemsProjects.Cow

open Sharing

variable {L : Layout} {lost : Word} {leak : Set Page} {eager : Bool} {s s' s₁ s₂ : Sys}
  {use use' use₁ use₂ : Page → Use} {f g d v : Page} {p i : Slot} {old : Set Slot} {W : Set Page}

/-! ## Runs of a family -/

/-- The state in which the ghost flag is cleared, to see whether `kalloc` fails from here on. -/
def Sys.watch (s : Sys) : Sys := { s with mem := { s.mem with oom := false } }

/-- The frame of a process at a page, as its own loads see it. -/
def userFrame (s : Sys) (i : Slot) (v : Page) : Option Page :=
  access s.mem (s.procs i).pgdir (paddr v) false

/-- The process shares the page with another process. -/
def SharedPage (s : Sys) (p : Slot) (v : Page) : Prop :=
  ∃ f, userFrame s p v = some f ∧ ∃ i v', i ≠ p ∧ Live s i ∧ userFrame s i v' = some f

/-- What happens between a fork of `p` and the end of the family, if the processes in `old` were there
before: the parent loads and stores, the others do anything, and processes are reaped. -/
def MemEvent.OfFamily (old : Set Slot) (p : Slot) : MemEvent → Prop
  | .load q _ | .store q _ _ | .interrupt q => q = p ∨ q ∉ old
  | .fork q | .sbrk q _ | .exit q => q ∉ old
  | .wait _ => True

/-- A run of the family in which no `kalloc` fails and none of the old processes is reaped. -/
inductive FamilyRun (L : Layout) (old : Set Slot) (p : Slot) : Sys → List MemEvent → Sys → Prop
  | nil (s : Sys) : FamilyRun L old p s [] s
  | cons {s s₁ s' : Sys} {e : MemEvent} {es : List MemEvent} (family : e.OfFamily old p)
      (step : memStep L cowuvm s e = .ok s₁) (memory : s₁.mem.oom = false)
      (kept : ∀ i ∈ old, Live s₁ i) (rest : FamilyRun L old p s₁ es s') :
      FamilyRun L old p s (e :: es) s'

/-- The pages that `p` stores to. -/
def storedPages (p : Slot) (es : List MemEvent) : Set Page :=
  {v | ∃ va b, .store p va b ∈ es ∧ pageOf va = v}

theorem storedPages_cons (p : Slot) (e : MemEvent) (es : List MemEvent) :
    storedPages p (e :: es) = storedPages p [e] ∪ storedPages p es := by
  ext v
  simp only [storedPages, List.mem_cons, Set.mem_union, Set.mem_ofPred_eq, List.not_mem_nil, or_false]
  constructor
  · rintro ⟨va, b, h | h, rfl⟩
    · exact Or.inl ⟨va, b, h, rfl⟩
    · exact Or.inr ⟨va, b, h, rfl⟩
  · rintro (⟨va, b, h, rfl⟩ | ⟨va, b, h, rfl⟩)
    · exact ⟨va, b, Or.inl h, rfl⟩
    · exact ⟨va, b, Or.inr h, rfl⟩

/-- The pages that the parent has written and that it shared before. -/
def splitPages (s : Sys) (p : Slot) (es : List MemEvent) : Set Page :=
  {v | v ∈ storedPages p es ∧ SharedPage s p v}

/-- The only frames of old processes that an event of the family changes are those of pages the parent
stores to. -/
theorem MemEvent.OfFamily.touched {e : MemEvent} (h : e.OfFamily old p) (hi : i ∈ old)
    (hv : (i, v) ∈ e.touched) : i = p ∧ ∃ va b, e = .store p va b ∧ pageOf va = v := by
  cases e with
  | store q va b =>
    obtain ⟨rfl, rfl⟩ := Prod.mk.inj (Set.mem_singleton_iff.1 hv)
    cases h with
    | inl h => exact ⟨h, va, b, by rw [h], rfl⟩
    | inr h => exact absurd hi h
  | sbrk q n =>
    have hq : i = q := hv
    exact absurd (hq ▸ hi) h
  | _ => exact absurd hv (Set.notMem_empty _)

/-! ## What a run keeps -/

theorem Inv.watch (h : Inv L lost eager leak s use) : Inv L lost eager leak s.watch use :=
  ⟨(h.owned.setOom false).1, h.writable, h.ready, h.dirs, h.complete, h.pgdir_inj, h.pgdir_ne, h.kstacks,
    h.kstack_inj, h.kstack_ne, h.size, h.bound, h.kernel⟩

theorem Private.kill_page (pid : Word) (a : Private.Sys) (i : Slot) :
    ((Private.kill pid a).procs i).page = (a.procs i).page := by
  unfold Private.kill
  cases (List.finRange NPROC).find? fun i => (a.procs i).pid = pid with
  | none => rfl
  | some j =>
    by_cases hij : i = j
    · subst hij
      simp [Private.Sys.modify]
    · simp [Private.Sys.modify, Function.update_of_ne hij]

theorem Private.exitIfKilled_page {a a' : Private.Sys} (h : Private.exitIfKilled p a = .ok a') (i : Slot) :
    (a'.procs i).page = (a.procs i).page := by
  unfold Private.exitIfKilled Private.exit at h
  split_ifs at h
  · obtain rfl := Except.ok.inj h
    by_cases hip : i = p
    · subst hip
      simp only [Private.Sys.modify, Function.update_self]
      split_ifs <;> rfl
    · simp only [Private.Sys.modify, Function.update_of_ne hip]
      split_ifs <;> rfl
  · rw [← Except.ok.inj h]

/-- A store does not make a page that was not there. -/
theorem Inv.store_none {va : Word} {b : Byte} (h : Inv L lost eager leak s use)
    (h' : Inv L lost eager leak s' use') (hp : Live s p) (hp' : Live s' p)
    (hstep : Private.step (abs s) (withoutTraps s (.store p va b)) = .ok (abs s'))
    (hnone : userTable s.mem use ((s.procs p).pgdir, pageOf va) = none) :
    userTable s'.mem use' ((s'.procs p).pgdir, pageOf va) = none := by
  have hpage : ((abs s).procs p).page (pageOf va) = none := by
    rw [abs_page h hp, view_eq_none_iff, hnone]
  have hpages : ((abs s').procs p).page = ((abs s).procs p).page := by
    rw [withoutTraps_store] at hstep
    unfold Private.step at hstep
    split_ifs at hstep
    · exact Private.exitIfKilled_page hstep p
    · have hstore : Private.store p va b (abs s) = .ok (abs s') := hstep
      unfold Private.store Private.fault at hstore
      rw [hpage] at hstore
      simp only at hstore
      split_ifs at hstore
      rw [Private.exitIfKilled_page hstore p, Private.kill_page]
  rw [← view_eq_none_iff, ← abs_page h' hp', hpages, hpage]

/-- Between `s` and `s'` the old processes keep their frames; the parent has moved the pages in `W` to
frames that no other old process has. -/
structure Kept (old : Set Slot) (p : Slot) (W : Set Page) (s : Sys) (use : Page → Use) (s' : Sys)
    (use' : Page → Use) : Prop where
  reserved : ∀ g, use' g = .reserved ↔ use g = .reserved
  live : ∀ i ∈ old, Live s' i
  pgdir : ∀ i ∈ old, (s'.procs i).pgdir = (s.procs i).pgdir
  frames : ∀ i ∈ old, ∀ v, (i = p → v ∉ W) →
    frame (userTable s'.mem use') ((s.procs i).pgdir, v) =
      frame (userTable s.mem use) ((s.procs i).pgdir, v)
  absent : ∀ v ∈ W, frame (userTable s.mem use) ((s.procs p).pgdir, v) = none →
    frame (userTable s'.mem use') ((s.procs p).pgdir, v) = none
  moved : ∀ v ∈ W, frame (userTable s.mem use) ((s.procs p).pgdir, v) ≠ none →
    ∃ g, frame (userTable s'.mem use') ((s.procs p).pgdir, v) = some g ∧
      ∀ i ∈ old, i ≠ p → ∀ v', frame (userTable s'.mem use') ((s.procs i).pgdir, v') ≠ some g

/-- One event of the family. -/
theorem Kept.step {e : MemEvent} (hk : Kept old p W s use s₁ use₁) (hp : p ∈ old)
    (h₁ : Inv L lost eager leak s₁ use₁) (h₂ : Inv L lost eager leak s₂ use₂)
    (ht : Touches e.touched e.written s₁ use₁ s₂ use₂) (he : e.OfFamily old p)
    (hstep : Private.step (abs s₁) (withoutTraps s₁ e) = .ok (abs s₂)) (hlive : ∀ i ∈ old, Live s₂ i) :
    Kept old p (W ∪ storedPages p [e]) s use s₂ use₂ := by
  have hpg : ∀ i ∈ old, (s₂.procs i).pgdir = (s.procs i).pgdir := fun i hi => by
    rw [(ht.procs i (hk.live i hi) (hlive i hi)).1, hk.pgdir i hi]
  -- pages that the event does not touch
  have hsame : ∀ i ∈ old, ∀ v, (i = p → v ∉ storedPages p [e]) →
      frame (userTable s₂.mem use₂) ((s.procs i).pgdir, v) =
        frame (userTable s₁.mem use₁) ((s.procs i).pgdir, v) := by
    intro i hi v hv
    have := ht.frames i v (hk.live i hi) (hlive i hi) fun hx => by
      obtain ⟨hip, va, b, rfl, hva⟩ := he.touched hi hx
      exact hv hip ⟨va, b, List.mem_singleton_self _, hva⟩
    rwa [hk.pgdir i hi] at this
  -- and the page that the parent stores to
  have hstored : ∀ v ∈ storedPages p [e], ∃ va b, e = .store p va b ∧ pageOf va = v := by
    rintro v ⟨va, b, hmem, hva⟩
    exact ⟨va, b, (List.mem_singleton.1 hmem).symm, hva⟩
  have hbefore : ∀ v ∈ W ∪ storedPages p [e],
      (frame (userTable s₁.mem use₁) ((s.procs p).pgdir, v) = none ↔
        frame (userTable s.mem use) ((s.procs p).pgdir, v) = none) := by
    intro v _
    by_cases hvW : v ∈ W
    · constructor
      · intro hx
        by_contra hne
        obtain ⟨g, hg, -⟩ := hk.moved v hvW hne
        rw [hx] at hg
        cases hg
      · exact hk.absent v hvW
    · rw [hk.frames p hp v fun _ => hvW]
  refine ⟨fun g => (ht.reserved g).trans (hk.reserved g), hlive, hpg, fun i hi v hv => ?_, fun v hv hx => ?_,
    fun v hv hx => ?_⟩
  · rw [hsame i hi v fun hip hx => hv hip (Or.inr hx), hk.frames i hi v fun hip hx => hv hip (Or.inl hx)]
  · have hx₁ := (hbefore v hv).2 hx
    by_cases hve : v ∈ storedPages p [e]
    · obtain ⟨va, b, rfl, rfl⟩ := hstored v hve
      have := h₁.store_none h₂ (hk.live p hp) (hlive p hp) hstep
        (by rw [hk.pgdir p hp, ← frame_eq_none_iff, hx₁])
      rwa [hpg p hp, ← frame_eq_none_iff] at this
    · rw [hsame p hp v fun _ => hve, hx₁]
  · by_cases hve : v ∈ storedPages p [e]
    · obtain ⟨va, b, rfl, rfl⟩ := hstored v hve
      obtain ⟨g, hg⟩ := ht.written p (pageOf va) (hk.live p hp) (hlive p hp) (Set.mem_singleton _) (by
        rw [hk.pgdir p hp, Ne, ← frame_eq_none_iff, hbefore _ hv]
        exact hx)
      rw [hk.pgdir p hp] at hg
      refine ⟨g, frame_of_eq_some hg, fun i hi hip v' hv' => ?_⟩
      have hkey := h₂.owned.counts.exclusive _ g hg _ hv'
      refine hip (h₂.pgdir_inj i p (hlive i hi) (hlive p hp) ?_)
      rw [hpg i hi, hpg p hp]
      exact (Prod.mk.inj hkey).1
    · obtain ⟨g, hg, hother⟩ := hk.moved v (hv.resolve_right hve) hx
      refine ⟨g, by rw [hsame p hp v fun _ => hve, hg], fun i hi hip v' => ?_⟩
      rw [hsame i hi v' fun hx => absurd hx hip]
      exact hother i hi hip v'

/-- A whole run of the family. -/
theorem Kept.run {es : List MemEvent} (hp : p ∈ old) (hrun : FamilyRun L old p s₁ es s') :
    ∀ {W : Set Page} {use₁ : Page → Use}, Kept old p W s use s₁ use₁ →
      Inv L lost false leak s₁ use₁ → ∃ use', Inv L lost false leak s' use' ∧
        Kept old p (W ∪ storedPages p es) s use s' use' := by
  induction hrun with
  | nil s₁ =>
    intro W use₁ hk h₁
    refine ⟨use₁, h₁, ?_⟩
    rwa [show storedPages p [] = ∅ by simp [storedPages], Set.union_empty]
  | @cons s₁ s₂ s' e es he hs₂ hoom hlive _ ih =>
    intro W use₁ hk h₁
    have hfollow := h₁.memStep_follows copySpec_cowuvm e
    rw [hs₂] at hfollow
    obtain ⟨-, hx⟩ | ⟨use₂, leak₂, h₂, ht, habs⟩ := hfollow
    · rw [hoom] at hx
      cases hx
    · obtain ⟨rfl, hstep⟩ := habs hoom
      rw [storedPages_cons, ← Set.union_assoc]
      exact ih (hk.step hp h₁ h₂ ht he hstep hlive) h₂

/-! ## Counting the frames -/

theorem Inv.userFrame_eq (h : Inv L lost eager leak s use) (hi : Live s i) (v : Page) :
    userFrame s i v = frame (userTable s.mem use) ((s.procs i).pgdir, v) := by
  unfold userFrame frame
  rw [h.owned.access_eq (h.dir hi), pageOf_paddr]
  cases userTable s.mem use ((s.procs i).pgdir, v) <;> rfl

/-- The user frames are those of the processes. -/
theorem Inv.user_iff (h : Inv L lost eager leak s use) :
    use g = .user ↔ ∃ i v, Live s i ∧ frame (userTable s.mem use) ((s.procs i).pgdir, v) = some g := by
  constructor
  · intro hg
    obtain ⟨⟨d, v⟩, hk⟩ := h.owned.counts.used g hg
    obtain ⟨b, hb⟩ := frame_eq_some_iff.1 hk
    cases (h.dirs d).1 (h.owned.counts.entry d v g b hb).1 with
    | inl hx =>
      rw [hx, h.kernel v] at hb
      cases hb
    | inr hx =>
      obtain ⟨i, hi, rfl⟩ := hx
      exact ⟨i, v, hi, hk⟩
  · rintro ⟨i, v, -, hk⟩
    obtain ⟨b, hb⟩ := frame_eq_some_iff.1 hk
    exact (h.owned.counts.entry _ v g b hb).2.2

/-- The frames of the processes other than `p`. -/
def otherFrames (s : Sys) (use : Page → Use) (p : Slot) : Set Page :=
  {g | ∃ i v, Live s i ∧ i ≠ p ∧ frame (userTable s.mem use) ((s.procs i).pgdir, v) = some g}

theorem Inv.userCount_eq (h : Inv L lost eager leak s use) (hp : Live s p) :
    userCount use = (otherFrames s use p ∪
      {g | ∃ v, frame (userTable s.mem use) ((s.procs p).pgdir, v) = some g}).ncard := by
  unfold userCount
  congr 1
  ext g
  simp only [Set.mem_ofPred_eq, Set.mem_union, otherFrames, h.user_iff]
  constructor
  · rintro ⟨i, v, hi, hg⟩
    by_cases hip : i = p
    · subst hip
      exact Or.inr ⟨v, hg⟩
    · exact Or.inl ⟨i, v, hi, hip, hg⟩
  · rintro (⟨i, v, hi, -, hg⟩ | ⟨v, hg⟩)
    · exact ⟨i, v, hi, hg⟩
    · exact ⟨p, v, hp, hg⟩

/-- No two pages of a process have one frame. -/
theorem Owned.page_inj {m : Mem} (h : Owned L lost m use) {v v' : Page}
    (hv : frame (userTable m use) (d, v) = some g) (hv' : frame (userTable m use) (d, v') = some g) :
    v = v' :=
  h.counts.coloured (d, v) (d, v') g hv hv'

theorem Inv.sharedPage_iff (h : Inv L lost eager leak s use) (hp : Live s p) :
    SharedPage s p v ↔
      ∃ g ∈ otherFrames s use p, frame (userTable s.mem use) ((s.procs p).pgdir, v) = some g := by
  unfold SharedPage
  rw [h.userFrame_eq hp]
  constructor
  · rintro ⟨g, hg, i, v', hip, hi, hg'⟩
    rw [h.userFrame_eq hi] at hg'
    exact ⟨g, ⟨i, v', hi, hip, hg'⟩, hg⟩
  · rintro ⟨g, ⟨i, v', hi, hip, hg'⟩, hg⟩
    exact ⟨g, hg, i, v', hip, hi, by rw [h.userFrame_eq hi, hg']⟩

/-- When only the old processes are left, one more frame is in use for each page that was split. -/
theorem Kept.userCount {es : List MemEvent} (hk : Kept {i | Live s i} p (storedPages p es) s use s' use')
    (h : Inv L lost eager leak s use) (h' : Inv L lost eager leak s' use') (hp : Live s p)
    (hend : ∀ i, Live s' i → Live s i) :
    Cow.userCount use' = Cow.userCount use + (splitPages s p es).ncard := by
  have hothers : otherFrames s' use' p = otherFrames s use p := by
    ext g
    constructor
    · rintro ⟨i, v, hi, hip, hg⟩
      rw [hk.pgdir i (hend i hi), hk.frames i (hend i hi) v fun hx => absurd hx hip] at hg
      exact ⟨i, v, hend i hi, hip, hg⟩
    · rintro ⟨i, v, hi, hip, hg⟩
      refine ⟨i, v, hk.live i hi, hip, ?_⟩
      rw [hk.pgdir i hi, hk.frames i hi v fun hx => absurd hx hip, hg]
  rw [h.userCount_eq hp, h'.userCount_eq (hk.live p hp), hothers, hk.pgdir p hp,
    ncard_union_own_of_moved (fun v => frame (userTable s.mem use) ((s.procs p).pgdir, v))
      (fun a b g ha hb => h.owned.page_inj ha hb) (fun a b g ha hb => h'.owned.page_inj ha hb)
      (otherFrames s use p) (storedPages p es) (fun v hv => hk.frames p hp v fun _ => hv) hk.absent ?_]
  · congr 2
    ext v
    simp only [splitPages, Set.mem_ofPred_eq, h.sharedPage_iff hp]
  · intro v hv hne
    obtain ⟨g, hg, hother⟩ := hk.moved v hv hne
    refine ⟨g, hg, ?_⟩
    rw [← hothers]
    rintro ⟨i, v', hi, hip, hg'⟩
    rw [hk.pgdir i (hend i hi)] at hg'
    exact hother i (hend i hi) hip v' hg'

/-- The number of free pages at the end of the family. -/
theorem Kept.freePages {es : List MemEvent} (hk : Kept {i | Live s i} p (storedPages p es) s use s' use')
    (h : Inv L 0#32 eager leak s use) (h' : Inv L 0#32 eager leak s' use') (hp : Live s p)
    (hend : ∀ i, Live s' i → Live s i) :
    s'.mem.freePages + BitVec.ofNat 32 (splitPages s p es).ncard = s.mem.freePages := by
  have hlive : liveCount s' = liveCount s := by
    unfold liveCount
    congr 1
    ext i
    exact ⟨hend i, hk.live i⟩
  have hcount := h.count
  have hcount' := h'.count
  have huser := hk.userCount h h' hp hend
  have hset : {g | use' g ≠ .reserved} = {g | use g ≠ .reserved} := by
    ext g
    exact not_congr (hk.reserved g)
  rw [hset] at hcount'
  have hfree : freeCount use' + (splitPages s p es).ncard = freeCount use := by
    rw [hlive] at hcount'
    omega
  rw [h.owned.frames.freePages_eq, h'.owned.frames.freePages_eq, ← hfree, BitVec.add_zero, BitVec.add_zero,
    BitVec.ofNat_add]

/-! ## The fork -/

theorem Private.fork_live {a a' : Private.Sys} (h : Private.step a (.fork p) = .ok a')
    (hi : (a.procs i).state ≠ .unused) : (a'.procs i).state ≠ .unused := by
  have hexit : ∀ {b b' : Private.Sys}, Private.exit p b = .ok b' → (b.procs i).state ≠ .unused →
      (b'.procs i).state ≠ .unused := by
    intro b b' hb hx
    unfold Private.exit at hb
    split_ifs at hb
    obtain rfl := Except.ok.inj hb
    by_cases hip : i = p
    · subst hip
      simp [Private.Sys.modify]
    · simp only [Private.Sys.modify, Function.update_of_ne hip]
      split_ifs <;> exact hx
  unfold Private.step at h
  split_ifs at h
  have hcall : Private.syscall p (Private.fork p) a = .ok a' := h
  unfold Private.syscall at hcall
  split_ifs at hcall
  · exact hexit hcall hi
  · cases hfork : Private.fork p a with
    | error x =>
      rw [hfork] at hcall
      cases hcall
    | ok b =>
      have hb : (b.procs i).state ≠ .unused := by
        unfold Private.fork at hfork
        split at hfork
        · rwa [← Except.ok.inj hfork]
        · rename_i np hnp
          simp only at hfork
          split_ifs at hfork
          rw [← Except.ok.inj hfork]
          by_cases hin : i = np
          · subst hin
            simp [Private.Sys.modify, Private.Proc.copy]
          · simpa [Private.Sys.modify, Function.update_of_ne hin] using hi
      rw [hfork] at hcall
      have hcall' : Private.exitIfKilled p b = .ok a' := hcall
      unfold Private.exitIfKilled at hcall'
      split_ifs at hcall'
      · exact hexit hcall' hb
      · rwa [← Except.ok.inj hcall']

/-- After the fork nothing has changed for the old processes. -/
theorem Inv.kept_fork (h : Inv L lost false leak s use)
    (hfork : memStep L cowuvm s.watch (.fork p) = .ok s₁) (hoom : s₁.mem.oom = false) :
    ∃ use₁, Inv L lost false leak s₁ use₁ ∧ Kept {i | Live s i} p ∅ s use s₁ use₁ := by
  have hfollow := h.watch.memStep_follows copySpec_cowuvm (.fork p)
  rw [hfork] at hfollow
  obtain ⟨hx, -⟩ | ⟨use₁, leak₁, h₁, ht, habs⟩ := hfollow
  · exact absurd hx id
  · obtain ⟨rfl, hstep⟩ := habs hoom
    have hlive : ∀ i, Live s i → Live s₁ i := fun i hi => Private.fork_live hstep hi
    exact ⟨use₁, h₁, ht.reserved, hlive, fun i hi => (ht.procs i hi (hlive i hi)).1,
      fun i hi v _ => ht.frames i v hi (hlive i hi) (Set.notMem_empty _),
      fun v hv => absurd hv (Set.notMem_empty _), fun v hv => absurd hv (Set.notMem_empty _)⟩

theorem live_of_memStep {e : MemEvent} (h : memStep L cowuvm s e = .ok s') : Live s e.proc := by
  unfold memStep at h
  split_ifs at h with hrun
  exact live_of_runnable (not_not.1 hrun)

theorem Inv.freePages_of_family (h : Inv L 0#32 false leak s use)
    (hfork : memStep L cowuvm s.watch (.fork p) = .ok s₁) (hoom : s₁.mem.oom = false)
    {es : List MemEvent} (hrun : FamilyRun L {i | Live s i} p s₁ es s') (hend : ∀ i, Live s' i → Live s i) :
    s'.mem.freePages + BitVec.ofNat 32 (splitPages s p es).ncard = s.mem.freePages := by
  have hp : Live s p := live_of_memStep hfork
  obtain ⟨use₁, h₁, hk₁⟩ := h.kept_fork hfork hoom
  obtain ⟨use', h', hk⟩ := Kept.run hp hrun hk₁ h₁
  rw [Set.empty_union] at hk
  exact hk.freePages h h' hp hend

theorem watch_eq (h : s.mem.oom = false) : s.watch = s := by
  obtain ⟨m, procs, nextpid, initproc, kpgdir, loads⟩ := s
  obtain ⟨page, freelist, freePages, refCnt, oom⟩ := m
  obtain rfl : oom = false := h
  rfl

/-- After a fork the child has the frames of the parent. -/
theorem Inv.fork_frame {np : Slot} (h : Inv L lost false leak s use) (hp : Live s p)
    (hfind : (List.finRange NPROC).find? (fun i => (s.procs i).state = .unused) = some np)
    (hroom : 15 ≤ freeCount use) (hs' : fork L cowuvm p s = .ok s')
    (hv : v.toNat < pagesBelow (s.procs p).sz) :
    ∃ f, userFrame s p v = some f ∧ userFrame s' p v = some f ∧ userFrame s' np v = some f ∧
      s'.mem.page f = s.mem.page f := by
  have hne : s.mem.freelist ≠ 0#32 := fun hz => by
    have := h.owned.freeCount_eq_zero hz
    omega
  have hnp : p ≠ np := by
    rintro rfl
    exact hp (find_unused hfind)
  obtain ⟨k, m, hk, hkf, h₁, hT₁, hpage, -, -⟩ := h.owned.kalloc_eq_some hne
  have hcount := freeCount_update (x := .kern) hkf (by simp)
  obtain ⟨t, ht⟩ := h.exists_table hp
  have htk : t ≠ k := by
    rintro rfl
    simp [hkf] at ht
  rw [fork_eq hfind hp hk] at hs'
  obtain ⟨herr, -⟩ | ⟨d, m', use', hrun, hfork, hshares⟩ | ⟨m', use', -, hleak⟩ :=
    h₁.cowuvm_cases (p := (s.procs p).pgdir) (by rw [Function.update_of_ne htk, ht]) (h.size p hp)
  · rw [herr] at hs'
    cases hs'
  · rw [hrun] at hs'
    obtain rfl := Except.ok.inj hs'
    have hfull := hfork.full v hv
    rw [Ne, view_eq_none_iff] at hfull
    obtain ⟨⟨f, b⟩, hT⟩ := Option.ne_none_iff_exists'.1 hfull
    obtain ⟨hTp, hTd⟩ := hshares.shared v f b hv hT
    have haccess : ∀ e, userTable m' use' (e, v) = some (f, false) → access m' e (paddr v) false = some f := by
      intro e he
      rw [hfork.owned.access_eq (hfork.owned.counts.entry e v f false he).1, pageOf_paddr, he]
      rfl
    refine ⟨f, ?_, ?_, ?_, ?_⟩
    · rw [h.userFrame_eq hp, ← hT₁, frame_of_eq_some hT]
    · unfold userFrame
      rw [withChild_procs_of_ne hnp]
      exact haccess _ hTp
    · unfold userFrame
      rw [withChild_procs_self]
      exact haccess d hTd
    · -- the child sees the page of the parent
      have hchild := hfork.child v
      rw [if_pos hv, view_of_eq_some hTd, view_of_eq_some hT, hpage] at hchild
      exact Option.some.inj hchild
  · have hfew : freeCount (Function.update use k .kern) ≤ 12 := hleak.few
    omega

/-- A fork of a process that has not been killed. -/
theorem fork_of_memStep (hp : (s.procs p).state = .runnable) (hkilled : (s.procs p).killed = false)
    (hs' : memStep L cowuvm s (.fork p) = .ok s') : fork L cowuvm p s = .ok s' := by
  have hlive : Live s p := live_of_runnable hp
  unfold memStep at hs'
  rw [if_neg (by rw [show (MemEvent.fork p).proc = p from rfl, hp]; simp)] at hs'
  have hcall : syscall p (fork L cowuvm p) s = .ok s' := hs'
  rw [syscall, hkilled, if_neg Bool.false_ne_true] at hcall
  cases hfork : fork L cowuvm p s with
  | error x =>
    rw [hfork] at hcall
    cases hcall
  | ok s₁ =>
    rw [hfork] at hcall
    have hcall' : Cow.exitIfKilled p s₁ = .ok s' := hcall
    rwa [Cow.exitIfKilled, fork_killed hlive hfork, hkilled, if_neg Bool.false_ne_true] at hcall'

/-- The first process forks. -/
theorem exists_fork_shared : ∃ s₀ s use f,
    boot smallLayout blankRam [] = .ok s₀ ∧ memStep smallLayout cowuvm s₀ (.fork initSlot) = .ok s ∧
    (∃ par f₀, Running smallLayout false {f₀} s use (Function.update initStates slotA .runnable) par) ∧
    userFrame s initSlot 0#20 = some f ∧ userFrame s slotA 0#20 = some f ∧ s.mem.page f = fun _ => 0#32 := by
  obtain ⟨s₀, use₀, f₀, hboot, hb, h₀⟩ := exists_boot_running
  obtain ⟨s, use, hs, h, -⟩ := h₀.step (by decide) (by simp)
    (h₀.family.fork (p := initSlot) (by decide) (show _ = some slotA by decide))
  have hinit : Live s₀ initSlot := h₀.live_iff.2 (by decide)
  have hfind : (List.finRange NPROC).find? (fun i => (s₀.procs i).state = .unused) = some slotA := by
    simp only [← abs_state, (h₀.family.member _).state]
    decide
  have hfork := fork_of_memStep (by rw [hb.first]) (by rw [hb.first]) hs
  have hsz : (s₀.procs initSlot).sz = 4096#32 := by rw [hb.first]
  obtain ⟨f, hf₀, hf, hfA, hpage⟩ := h₀.inv.fork_frame hinit hfind (h₀.freeCount_le (by decide)) hfork
    (v := 0#20) (by rw [hsz]; decide)
  refine ⟨s₀, s, use, f, hboot, hs, ⟨_, f₀, h⟩, hf, hfA, ?_⟩
  obtain ⟨f', hf', hzero⟩ := hb.page
  rw [h₀.inv.userFrame_eq hinit, frame_of_eq_some hf'] at hf₀
  rw [hpage, ← Option.some.inj hf₀, hzero]
  rfl

/-- No page is leaked or lost: from any reachable state, once all descendants have been reaped, the free
pages are as many as before the fork, less one for each page that the parent has written and that it
shared with another process before. -/
theorem freePages_after_family {ram : Page → PageData} {init : List Byte} {es₀ : List Event} {s₀ : Sys}
    (hboot : boot L ram init = .ok s₀)
    (hes₀ : Trace.Along (next L) (fun s e => ¬ e.Fails s ∧ e.Fits) s₀ es₀)
    (hrun₀ : Trace.run (next L) s₀ es₀ = some s)
    (hfork : memStep L cowuvm s.watch (.fork p) = .ok s₁) (hoom : s₁.mem.oom = false)
    {es : List MemEvent} (hrun : FamilyRun L {i | Live s i} p s₁ es s') (hend : ∀ i, Live s' i → Live s i) :
    s'.mem.freePages + BitVec.ofNat 32 (splitPages s p es).ncard = s.mem.freePages := by
  obtain ⟨leak, use, h⟩ := exists_inv_of_run hboot hes₀ hrun₀
  exact h.freePages_of_family hfork hoom hrun hend

/-- The events after the second fork: the parent writes its page, and the child exits and is reaped. -/
def splitEvents : List MemEvent := [.store slotA 0#32 7#8, .exit slotB, .wait slotA]

/-- The first process forks a process that forks again: parent and grandparent share a page when the
parent writes it. -/
theorem exists_family_run : ∃ s₀ s s₁ s',
    boot smallLayout blankRam [] = .ok s₀ ∧
    Trace.Along (next smallLayout) (fun s e => ¬ e.Fails s ∧ e.Fits) s₀ [.mem (.fork initSlot)] ∧
    Trace.run (next smallLayout) s₀ [.mem (.fork initSlot)] = some s ∧
    memStep smallLayout cowuvm s.watch (.fork slotA) = .ok s₁ ∧ s₁.mem.oom = false ∧
    FamilyRun smallLayout {i | Live s i} slotA s₁ splitEvents s' ∧ (∀ i, Live s' i → Live s i) ∧
    SharedPage s slotA 0#20 := by
  obtain ⟨s₀, use₀, f₀, hboot, hb, h₀⟩ := exists_boot_running
  obtain ⟨s, use, hs, h, -⟩ := h₀.step (by decide) (by simp)
    (h₀.family.fork (p := initSlot) (by decide) (show _ = some slotA by decide))
  obtain ⟨s₁, use₁, hs₁, h₁, -⟩ := h.step (by decide) (by simp)
    (h.family.fork (p := slotA) (by decide) (show _ = some slotB by decide))
  obtain ⟨s₂, use₂, hs₂, h₂, -⟩ := h₁.step (by decide) (by simp)
    (h₁.family.store (p := slotA) (by decide) 7#8)
  obtain ⟨s₃, use₃, hs₃, h₃, -⟩ := h₂.step (by decide) (by simp)
    (h₂.family.exit (p := slotB) (by decide) (by decide))
  obtain ⟨s₄, use₄, hs₄, h₄, -⟩ := h₃.step (by decide) (by simp)
    (h₃.family.wait (p := slotA) (i := slotB) (by decide) (by decide))
  have hnext : next smallLayout s₀ (.mem (.fork initSlot)) = some s := next_eq_some_iff.2 hs
  have hold : slotA ∈ {i | Live s i} ∧ slotB ∉ {i | Live s i} := by
    simp only [Set.mem_ofPred_eq, h.live_iff]
    decide
  refine ⟨s₀, s, s₁, s₄, hboot, Trace.along_cons_of_eq ⟨id, trivial⟩ hnext trivial, ?_, ?_, h₁.oom,
    .cons (Or.inl rfl) hs₂ h₂.oom ?_ (.cons hold.2 hs₃ h₃.oom ?_ (.cons trivial hs₄ h₄.oom ?_ (.nil _))), ?_, ?_⟩
  · rw [Trace.run_cons, hnext, Option.bind_some, Trace.run_nil]
  · rwa [watch_eq h.oom]
  · simp only [Set.mem_ofPred_eq, h.live_iff, h₂.live_iff]
    decide
  · simp only [Set.mem_ofPred_eq, h.live_iff, h₃.live_iff]
    decide
  · simp only [Set.mem_ofPred_eq, h.live_iff, h₄.live_iff]
    decide
  · simp only [h.live_iff, h₄.live_iff]
    decide
  · obtain ⟨s₀', s', -, f, hboot', hs', -, hf, hfA, -⟩ := exists_fork_shared
    obtain rfl := Except.ok.inj (hboot.symm.trans hboot')
    obtain rfl := Except.ok.inj (hs.symm.trans hs')
    exact ⟨f, hfA, initSlot, 0#20, by decide, h.live_iff.2 (by decide), hf⟩

theorem freePages_after_family_split : ∃ s₀ s s₁ s',
    boot smallLayout blankRam [] = .ok s₀ ∧
    Trace.run (next smallLayout) s₀ [.mem (.fork initSlot)] = some s ∧
    memStep smallLayout cowuvm s.watch (.fork slotA) = .ok s₁ ∧
    FamilyRun smallLayout {i | Live s i} slotA s₁ splitEvents s' ∧
    s'.mem.freePages + BitVec.ofNat 32 (splitPages s slotA splitEvents).ncard = s.mem.freePages := by
  obtain ⟨s₀, s, s₁, s', hboot, hes, hrun₀, hfork, hoom, hrun, hend, -⟩ := exists_family_run
  exact ⟨s₀, s, s₁, s', hboot, hrun₀, hfork, hrun,
    freePages_after_family hboot hes hrun₀ hfork hoom hrun hend⟩

/-- One page fewer is free at the end, because the parent no longer shares its page with the
grandparent. -/
theorem freePages_ne_of_split : ∃ s₀ s s₁ s',
    boot smallLayout blankRam [] = .ok s₀ ∧
    Trace.run (next smallLayout) s₀ [.mem (.fork initSlot)] = some s ∧
    memStep smallLayout cowuvm s.watch (.fork slotA) = .ok s₁ ∧ s₁.mem.oom = false ∧
    FamilyRun smallLayout {i | Live s i} slotA s₁ splitEvents s' ∧ (∀ i, Live s' i → Live s i) ∧
    s'.mem.freePages ≠ s.mem.freePages := by
  obtain ⟨s₀, s, s₁, s', hboot, hes, hrun₀, hfork, hoom, hrun, hend, hshared⟩ := exists_family_run
  obtain ⟨leak, use, h⟩ := exists_inv_of_run hboot hes hrun₀
  have hsplit : splitPages s slotA splitEvents = {0#20} := by
    ext v
    rw [Set.mem_singleton_iff]
    constructor
    · rintro ⟨⟨va, b, hmem, rfl⟩, -⟩
      simp only [splitEvents, List.mem_cons, MemEvent.store.injEq, List.not_mem_nil, reduceCtorEq,
        or_false, true_and] at hmem
      rw [hmem.1]
      decide
    · rintro rfl
      exact ⟨⟨0#32, 7#8, by simp [splitEvents], by decide⟩, hshared⟩
  have hcount := h.freePages_of_family hfork hoom hrun hend
  rw [hsplit, Set.ncard_singleton] at hcount
  refine ⟨s₀, s, s₁, s', hboot, hrun₀, hfork, hoom, hrun, hend, fun hx => ?_⟩
  have hone := congrArg BitVec.toNat hcount
  rw [hx, BitVec.toNat_add, BitVec.toNat_ofNat] at hone
  have := s.mem.freePages.isLt
  omega

end SystemsProjects.Cow
