import SystemsProjects.Cow.Isolation

/-!
# What an event does to the page table entries

Seen from the page tables there are few kinds of events.  A process keeps the entries it has, unless it
stores to the page, forks, shrinks or loads another program; and an entry that cannot be written is for the
frame of an earlier entry for the same page, of the process itself or of the one that forked it.
-/

namespace SystemsProjects.Cow

open Sharing

variable {L : Layout} {lost : Word} {leak : Set Page} {eager : Bool} {s s₁ s' : Sys} {m m' : Mem}
  {use use' : Page → Use} {d f g t v : Page} {p i : Slot} {n va : Word} {C : Set (Slot × Page)} {F : Set Slot}

/-! ## Entries -/

/-- The entry of a process for a page that user code can use: the frame, and whether it can be written. -/
def pageEntry (s : Sys) (i : Slot) (v : Page) : Option (Page × Bool) :=
  (pteOf s.mem (s.procs i).pgdir v).bind decode

theorem pageEntry_eq (use : Page → Use) (hd : use (s.procs i).pgdir = .dir) :
    pageEntry s i v = userTable s.mem use ((s.procs i).pgdir, v) := by
  unfold pageEntry userTable
  rw [if_pos hd]

theorem Inv.pageEntry_eq (h : Inv L lost eager leak s use) (hi : Live s i) :
    pageEntry s i v = userTable s.mem use ((s.procs i).pgdir, v) :=
  Cow.pageEntry_eq use (h.dir hi)

theorem pageEntry_congr (hmem : s'.mem = s.mem) (hpgdir : (s'.procs i).pgdir = (s.procs i).pgdir) :
    pageEntry s' i v = pageEntry s i v := by
  unfold pageEntry
  rw [hmem, hpgdir]

/-- The entry is the same in the tables of two states. -/
theorem Inv.pageEntry_eq_of_table (h : Inv L lost eager leak s use) (hi : Live s i)
    (hd : use' (s.procs i).pgdir = .dir) (hpgdir : (s'.procs i).pgdir = (s.procs i).pgdir)
    (hT : userTable s'.mem use' ((s.procs i).pgdir, v) = userTable s.mem use ((s.procs i).pgdir, v)) :
    pageEntry s' i v = pageEntry s i v := by
  rw [h.pageEntry_eq hi, ← hT, ← hpgdir]
  exact Cow.pageEntry_eq use' (by rw [hpgdir, hd])

/-- Between two states only the entries in `C` may be lost, and an entry that cannot be written comes from
one of the same process or of a process in `F`. -/
structure EntriesFollow (C : Set (Slot × Page)) (F : Set Slot) (s s' : Sys) : Prop where
  kept : ∀ i v x, Live s i → Live s' i → (i, v) ∉ C → pageEntry s i v = some x → pageEntry s' i v = some x
  origin : ∀ i v g, Live s' i → pageEntry s' i v = some (g, false) →
    ∃ j b, Live s j ∧ (j = i ∨ j ∈ F) ∧ pageEntry s j v = some (g, b)

/-- No process is new, and all entries stay. -/
theorem EntriesFollow.of_eq (hlive : ∀ i, Live s' i → Live s i)
    (hentry : ∀ i v, Live s' i → pageEntry s' i v = pageEntry s i v) : EntriesFollow C F s s' := by
  refine ⟨fun i v x _ hi' _ hx => ?_, fun i v g hi' hg => ⟨i, false, hlive i hi', Or.inl rfl, ?_⟩⟩
  · rw [hentry i v hi', hx]
  · rw [← hentry i v hi', hg]

theorem EntriesFollow.refl : EntriesFollow C F s s := EntriesFollow.of_eq (fun _ => id) fun _ _ _ => rfl

/-- One of two steps leaves the entries alone. -/
theorem EntriesFollow.trans_eq (h : EntriesFollow C F s s₁) (hlive : ∀ i, Live s' i → Live s₁ i)
    (hentry : ∀ i v, Live s' i → pageEntry s' i v = pageEntry s₁ i v) : EntriesFollow C F s s' := by
  refine ⟨fun i v x hi hi' hv hx => ?_, fun i v g hi' hg => ?_⟩
  · rw [hentry i v hi']
    exact h.kept i v x hi (hlive i hi') hv hx
  · rw [hentry i v hi'] at hg
    exact h.origin i v g (hlive i hi') hg

/-- The entries of one process are given up or become writable ones; the others stay. -/
theorem EntriesFollow.of_own (hlive : ∀ i, Live s' i → Live s i)
    (hother : ∀ i v, Live s' i → i ≠ p → pageEntry s' i v = pageEntry s i v)
    (hkept : ∀ v x, (p, v) ∉ C → pageEntry s p v = some x → pageEntry s' p v = some x)
    (hown : ∀ v g, pageEntry s' p v = some (g, false) → ∃ b, pageEntry s p v = some (g, b)) :
    EntriesFollow C F s s' := by
  refine ⟨fun i v x _ hi' hv hx => ?_, fun i v g hi' hg => ?_⟩
  · by_cases hip : i = p
    · subst hip
      exact hkept v x hv hx
    · rw [hother i v hi' hip, hx]
  · by_cases hip : i = p
    · subst hip
      obtain ⟨b, hb⟩ := hown v g hg
      exact ⟨i, b, hlive i hi', Or.inl rfl, hb⟩
    · exact ⟨i, false, hlive i hi', Or.inl rfl, by rw [← hother i v hi' hip, hg]⟩

/-! ## The process table -/

theorem EntriesFollow.exit (h : EntriesFollow C F s s₁) (hp : Live s₁ p) (hs' : exit p s₁ = .ok s') :
    EntriesFollow C F s s' :=
  h.trans_eq (fun i => (live_exit hs' hp i).2) fun i _ _ =>
    pageEntry_congr (exit_fields hs').1 ((exit_fields hs').2.2 i).1.1

theorem EntriesFollow.exitIfKilled (h : EntriesFollow C F s s₁) (hp : Live s₁ p)
    (hs' : exitIfKilled p s₁ = .ok s') : EntriesFollow C F s s' := by
  unfold Cow.exitIfKilled at hs'
  split_ifs at hs'
  · exact h.exit hp hs'
  · rwa [← Except.ok.inj hs']

theorem EntriesFollow.kill (h : EntriesFollow C F s s₁) (pid : Word) : EntriesFollow C F s (kill pid s₁) :=
  h.trans_eq (fun _ => (live_kill pid).1) fun i _ _ =>
    pageEntry_congr (kill_rest pid).1 (kill_procs pid i).1.1

/-- A system call: the process exits, or the body does what it does. -/
theorem EntriesFollow.syscall {body : Sys → Except Halt Sys} (hp : Live s p)
    (hkilled : ∀ s', body s = .ok s' → (s'.procs p).killed = (s.procs p).killed)
    (hbody : ∀ s', body s = .ok s' → EntriesFollow C F s s') (hs' : syscall p body s = .ok s') :
    EntriesFollow C F s s' := by
  cases syscall_cases hkilled hs' with
  | inl hexit => exact EntriesFollow.refl.exit hp hexit
  | inr hrun => exact hbody s' hrun

/-! ## Loads and stores -/

/-- An access to a page that the process does not have. -/
theorem Inv.entriesFollow_fault (h : Inv L lost eager leak s use) (hp : Live s p)
    (hnone : userTable s.mem use ((s.procs p).pgdir, pageOf va) = none)
    (hs' : (cowHandler p va s).bind (Cow.exitIfKilled p) = .ok s') : EntriesFollow C F s s' := by
  rw [h.cowHandler_of_none hp hnone] at hs'
  split_ifs at hs'
  · exact (EntriesFollow.refl.kill _).exitIfKilled ((live_kill _).2 hp) hs'
  · cases hs'

theorem Inv.entriesFollow_load (h : Inv L lost eager leak s use) (hp : Live s p)
    (hs' : load p va s = .ok s') : EntriesFollow C F s s' := by
  unfold load at hs'
  split at hs'
  · rw [← Except.ok.inj hs']
    exact EntriesFollow.of_eq (fun _ => id) fun _ _ _ => rfl
  · rename_i hnone
    refine h.entriesFollow_fault hp ?_ hs'
    rw [h.owned.access_eq (h.dir hp)] at hnone
    cases hT : userTable s.mem use ((s.procs p).pgdir, pageOf va) with
    | none => rfl
    | some e =>
      rw [hT] at hnone
      cases hnone

/-- The end of a store to a page that can be written: the byte is stored, or the process exits. -/
def StoreEnds (p : Slot) (f : Page) (s s' : Sys) : Prop :=
  exit p s = .ok s' ∨ ∃ x, s' = { s with mem := s.mem.setPage f x }

theorem Inv.storeEnds (h : Inv L lost eager leak s use) (hp : Live s p) (hf : use f = .user)
    (hs' : StoreEnds p f s s') :
    (∀ i, Live s' i → Live s i) ∧ ∀ i v, Live s' i → pageEntry s' i v = pageEntry s i v := by
  obtain hexit | ⟨x, rfl⟩ := hs'
  · exact ⟨fun i => (live_exit hexit hp i).2, fun i v _ =>
      pageEntry_congr (exit_fields hexit).1 ((exit_fields hexit).2.2 i).1.1⟩
  · obtain ⟨-, hT⟩ := h.owned.setPage (Or.inr hf) x
    exact ⟨fun _ => id, fun i v hi => h.pageEntry_eq_of_table hi (h.dir hi) rfl (congrFun hT _)⟩

/-- The pages that `cowHandler` takes from the free list at a store of a process. -/
def handlerTakes (s : Sys) (p : Slot) (va : Word) : ℕ :=
  match access s.mem (s.procs p).pgdir va true with
  | some _ => 0
  | none =>
    match cowHandler p va s with
    | .ok s' => (s.mem.freePages - s'.mem.freePages).toNat
    | .error _ => 0

/-- It takes one for a copy, if the frame has other entries. -/
theorem Inv.handlerTakes_eq (h : Inv L lost eager leak s use) (hp : Live s p)
    (hT : userTable s.mem use ((s.procs p).pgdir, pageOf va) = some (f, false))
    (hne : refs (userTable s.mem use) f ≠ 1 → s.mem.freelist ≠ 0#32) :
    handlerTakes s p va = if refs (userTable s.mem use) f = 1 then 0 else 1 := by
  have hnone : access s.mem (s.procs p).pgdir va true = none := by
    rw [h.owned.access_eq (h.dir hp), hT]
    rfl
  rw [handlerTakes, hnone]
  obtain ⟨t, pte, -, -, -, ⟨hone, hmem⟩ | ⟨hone, hfree, hmem⟩ | ⟨hone, hzero, -⟩⟩ := h.cowHandler_eq hp hT
  · rw [if_pos hone, hmem]
    simp
  · have hkal : Cow.kalloc s.mem = (some (pageOf s.mem.freelist), (Cow.kalloc s.mem).2) := by
      unfold Cow.kalloc
      rw [if_neg hfree]
    have hpages : (Cow.kalloc s.mem).2.freePages = s.mem.freePages - 1#32 := by
      unfold Cow.kalloc
      rw [if_neg hfree]
    rw [if_neg hone, hmem _ _ hkal]
    show (s.mem.freePages - (Cow.kalloc s.mem).2.freePages).toNat = 1
    rw [hpages]
    bv_omega
  · exact absurd hzero (hne hone)

/-- What a store does to the entry of its page, if the entry was `(f, w)`: it can be written afterwards.  It
stays with its frame if it could be written before or is the only one of the frame; otherwise it gets a page
from the free list. -/
def EntryStored (use : Page → Use) (p : Slot) (va : Word) (f : Page) (w : Bool) (s s' : Sys) : Prop :=
  ∃ g, (Live s' p → pageEntry s' p (pageOf va) = some (g, true)) ∧
    (g = f ∧ handlerTakes s p va = 0 ∨
      w = false ∧ refs (userTable s.mem use) f ≠ 1 ∧ handlerTakes s p va = 1)

theorem Inv.entryStored_of_writable (h : Inv L lost eager leak s use) (hp : Live s p)
    (hT : userTable s.mem use ((s.procs p).pgdir, pageOf va) = some (f, true)) (hs' : StoreEnds p f s s') :
    EntriesFollow {(p, pageOf va)} F s s' ∧ EntryStored use p va f true s s' := by
  obtain ⟨hlive, hentry⟩ := h.storeEnds hp (h.owned.counts.entry _ _ _ _ hT).2.2 hs'
  refine ⟨EntriesFollow.of_eq hlive hentry, f, fun hp' => ?_, Or.inl ⟨rfl, ?_⟩⟩
  · rw [hentry p _ hp', h.pageEntry_eq hp, hT]
  · have hsome : access s.mem (s.procs p).pgdir va true = some f := by
      rw [h.owned.access_eq (h.dir hp), hT]
      rfl
    rw [handlerTakes, hsome]

theorem Inv.entryStored_of_handled (h : Inv L lost eager leak s use) (hp : Live s p)
    (hT : userTable s.mem use ((s.procs p).pgdir, pageOf va) = some (f, false))
    (hne : refs (userTable s.mem use) f ≠ 1 → s.mem.freelist ≠ 0#32)
    (howned : Owned L lost m' use')
    (honly : Only {((s.procs p).pgdir, pageOf va)} s.mem use m' use')
    (hentry : userTable m' use' ((s.procs p).pgdir, pageOf va) = some (g, true))
    (hinv : Inv L lost eager leak { s with mem := m' } use') (hframe : refs (userTable s.mem use) f = 1 → g = f)
    (hs' : StoreEnds p g { s with mem := m' } s') :
    EntriesFollow {(p, pageOf va)} F s s' ∧ EntryStored use p va f false s s' := by
  have hp₁ : Live { s with mem := m' } p := hp
  have htakes := h.handlerTakes_eq hp hT hne
  obtain ⟨hlive, hsame⟩ := hinv.storeEnds hp₁ (howned.counts.entry _ _ _ _ hentry).2.2 hs'
  have hown : pageEntry { s with mem := m' } p (pageOf va) = some (g, true) := by
    rw [hinv.pageEntry_eq hp₁]
    exact hentry
  have hother : ∀ i v, Live s i → (i, v) ∉ ({(p, pageOf va)} : Set (Slot × Page)) →
      pageEntry { s with mem := m' } i v = pageEntry s i v := by
    intro i v hi hv
    refine h.pageEntry_eq_of_table hi (hinv.dir (i := i) hi) rfl (honly.entries _ fun hx => hv ?_)
    obtain ⟨hd, rfl⟩ := Prod.mk.inj hx
    rw [h.pgdir_inj i p hi hp hd]
    rfl
  have hfollow : EntriesFollow {(p, pageOf va)} F s { s with mem := m' } := by
    refine ⟨fun i v x hi _ hv hx => by rw [hother i v hi hv, hx], fun i v x hi hx => ?_⟩
    refine ⟨i, false, hi, Or.inl rfl, ?_⟩
    rw [← hother i v hi, hx]
    rintro ⟨rfl, rfl⟩
    rw [hown] at hx
    cases hx
  refine ⟨hfollow.trans_eq hlive hsame, g, fun hp' => by rw [hsame p _ hp', hown], ?_⟩
  by_cases hone : refs (userTable s.mem use) f = 1
  · rw [if_pos hone] at htakes
    exact Or.inl ⟨hframe hone, htakes⟩
  · rw [if_neg hone] at htakes
    exact Or.inr ⟨rfl, hone, htakes⟩

/-- A store to a page that the process has. -/
theorem Inv.entryStored (h : Inv L lost eager leak s use) (hp : Live s p) {b : Byte} {w : Bool}
    (hfails : ¬ HandlerFails s p va)
    (hT : userTable s.mem use ((s.procs p).pgdir, pageOf va) = some (f, w)) (hs' : store p va b s = .ok s') :
    EntriesFollow {(p, pageOf va)} F s s' ∧ EntryStored use p va f w s s' := by
  have haccess := fun w => h.owned.access_eq (h.dir hp) va w
  cases w with
  | true =>
    have hsome : access s.mem (s.procs p).pgdir va true = some f := by
      rw [haccess, hT]
      rfl
    rw [store] at hs'
    simp only [hsome] at hs'
    exact h.entryStored_of_writable hp hT (Or.inr ⟨_, (Except.ok.inj hs').symm⟩)
  | false =>
    have hnone : access s.mem (s.procs p).pgdir va true = none := by
      rw [haccess, hT]
      rfl
    rw [store] at hs'
    simp only [hnone] at hs'
    obtain ⟨m', use', g, hs₁, howned, honly, hentry, hpage, -, hcases⟩ | ⟨hx, -⟩ := h.cowHandler_cases hp hT
    · have hinv := (h.handled hp hT howned honly hentry hpage).1
      refine h.entryStored_of_handled hp hT (fun hone hzero => ?_) howned honly hentry hinv
        (fun hone => ?_) ?_
      · -- a copy is needed and there is no page for it
        have hpos := refs_pos (frame_of_eq_some hT)
        refine hfails ⟨hnone, ⟨f, by rw [haccess, hT]; rfl, ?_⟩, hzero⟩
        rw [h.owned.refCount_eq (h.owned.counts.entry _ _ _ _ hT).2.2]
        omega
      · exact (hcases.resolve_right fun hx => hx.1 hone).2
      · rw [hs₁] at hs'
        simp only [Except.bind] at hs'
        split_ifs at hs' with hk
        · exact Or.inl hs'
        · have hsome : access m' (s.procs p).pgdir va true = some g := by
            rw [howned.access_eq (hinv.dir (i := p) hp), hentry]
            rfl
          simp only [hsome] at hs'
          exact Or.inr ⟨_, (Except.ok.inj hs').symm⟩
    · exact absurd hx hfails

theorem Inv.entriesFollow_store (h : Inv L lost eager leak s use) (hp : Live s p) {b : Byte}
    (hfails : ¬ HandlerFails s p va) (hs' : store p va b s = .ok s') :
    EntriesFollow {(p, pageOf va)} F s s' := by
  cases hT : userTable s.mem use ((s.procs p).pgdir, pageOf va) with
  | none =>
    rw [h.store_of_none hp hT] at hs'
    exact h.entriesFollow_fault hp hT hs'
  | some e => exact (h.entryStored hp hfails hT hs').1

/-! ## fork -/

/-- A `fork` without memory. -/
theorem Inv.entriesFollow_withoutChild {np : Slot} {q : Proc} (h : Inv L lost eager leak s use)
    (hnp : ¬ Live s np) (hq : q.state = .unused) (hd : ∀ i, Live s i → use' (s.procs i).pgdir = .dir)
    (hT : userTable m' use' = userTable s.mem use) : EntriesFollow C F s (Cow.withoutChild s np q m') := by
  have hlive : ∀ i, Live (Cow.withoutChild s np q m') i → Live s i := fun i => (live_withoutChild hnp hq).1
  refine EntriesFollow.of_eq hlive fun i v hi => ?_
  have hinp : i ≠ np := by
    rintro rfl
    exact hnp (hlive i hi)
  refine h.pageEntry_eq_of_table (hlive i hi) (hd i (hlive i hi)) ?_ (congrFun hT _)
  exact congrArg Proc.pgdir (Function.update_of_ne hinp _ _)

/-- The child has read-only entries for the frames of its parent, and the parent gives up its right to
write. -/
theorem Inv.entriesFollow_withChild {np : Slot} {k : Page} (h : Inv L lost eager leak s use) (hp : Live s p)
    (hnp : ¬ Live s np) (hk : use k = .free)
    (hT : userTable m (Function.update use k .kern) = userTable s.mem use)
    (hfork : Forked L lost m (Function.update use k .kern) (s.procs p).pgdir (pagesBelow (s.procs p).sz) d m' use')
    (hshares : Shares m (Function.update use k .kern) (s.procs p).pgdir (pagesBelow (s.procs p).sz) d m' use') :
    EntriesFollow (pagesOf p) {p} s (Cow.withChild s np p k d m') := by
  have hnew : ∀ i, Live s i → (s.procs i).pgdir ≠ d := by
    intro i hi hx
    have hdir := h.dir hi
    rw [hx, (free_of_update hfork.fresh).1] at hdir
    cases hdir
  have hdir : ∀ i, Live s i → use' (s.procs i).pgdir = .dir := by
    intro i hi
    rw [hfork.eq_iff (hnew i hi) (by simp) (by simp) (by simp), Function.update_of_ne, h.dir hi]
    intro hx
    have hdir := h.dir hi
    rw [hx, hk] at hdir
    cases hdir
  have hprocs : ∀ i, Live s i → (Cow.withChild s np p k d m').procs i = s.procs i := by
    intro i hi
    refine withChild_procs_of_ne ?_
    rintro rfl
    exact hnp hi
  have hentry : ∀ i v, Live s i →
      pageEntry (Cow.withChild s np p k d m') i v = userTable m' use' ((s.procs i).pgdir, v) := by
    intro i v hi
    rw [Cow.pageEntry_eq use' (by rw [hprocs i hi, hdir i hi]), hprocs i hi]
    rfl
  have hother : ∀ i v, Live s i → i ≠ p → pageEntry (Cow.withChild s np p k d m') i v = pageEntry s i v := by
    intro i v hi hip
    refine h.pageEntry_eq_of_table hi (hdir i hi) (congrArg Proc.pgdir (hprocs i hi)) ?_
    refine (hshares.others _ (fun hx => hip (h.pgdir_inj i p hi hp hx.1)) (hnew i hi)).trans ?_
    rw [hT]
  have hchild : ∀ v, pageEntry (Cow.withChild s np p k d m') np v = userTable m' use' (d, v) := by
    intro v
    rw [Cow.pageEntry_eq use' (by rw [withChild_procs_self]; exact hfork.dir), withChild_procs_self]
    rfl
  refine ⟨fun i v x hi _ hv hx => by rw [hother i v hi fun hip => hv hip, hx], fun i v g hi hg => ?_⟩
  by_cases hinp : i = np
  · -- the entry of the child is that of its parent
    subst hinp
    rw [hchild v] at hg
    have hlt : v.toNat < pagesBelow (s.procs p).sz := by
      by_contra hx
      rw [hshares.rest v (Nat.not_lt.1 hx)] at hg
      cases hg
    have hfull := hfork.full v hlt
    rw [Ne, view_eq_none_iff] at hfull
    obtain ⟨⟨f, b⟩, hf⟩ := Option.ne_none_iff_exists'.1 hfull
    rw [(hshares.shared v f b hlt hf).2] at hg
    obtain rfl := (Prod.mk.inj (Option.some.inj hg)).1
    exact ⟨p, b, hp, Or.inr rfl, by rw [h.pageEntry_eq hp, ← hT, hf]⟩
  · have hi' := (live_withChild.1 hi).resolve_left hinp
    have hframe : frame (userTable s.mem use) ((s.procs i).pgdir, v) = some g := by
      rw [← hT, ← hfork.frames _ (hnew i hi')]
      rw [hentry i v hi'] at hg
      exact frame_of_eq_some hg
    obtain ⟨b, hb⟩ := frame_eq_some_iff.1 hframe
    exact ⟨i, b, hi', Or.inl rfl, by rw [h.pageEntry_eq hi', hb]⟩

theorem Inv.entriesFollow_fork (h : Inv L lost false leak s use) (hp : Live s p)
    (hs' : fork L cowuvm p s = .ok s') : EntriesFollow (pagesOf p) {p} s s' := by
  obtain rfl | ⟨np, q, m', use', hnp, hq, hd, hT, rfl⟩ |
    ⟨np, k, m, d, m', use', hnp, hk, hT, hfork, hshares, rfl⟩ := h.fork_cases hp hs'
  · exact EntriesFollow.refl
  · exact h.entriesFollow_withoutChild hnp hq hd hT
  · exact h.entriesFollow_withChild hp hnp hk hT hfork hshares

/-! ## sbrk -/

/-- A process gets the entries from page `a` to page `c`, writable ones or none, and another size. -/
theorem Inv.entriesFollow_resize (h : Inv L lost eager leak s use) (hp : Live s p) {a c : ℕ}
    (honly : Only (span (s.procs p).pgdir a c) s.mem use m' use')
    (hnew : ∀ v, ((s.procs p).pgdir, v) ∈ span (s.procs p).pgdir a c → ∀ g,
      userTable m' use' ((s.procs p).pgdir, v) ≠ some (g, false))
    (hkept : ∀ v x, (p, v) ∉ C → userTable s.mem use ((s.procs p).pgdir, v) = some x →
      ((s.procs p).pgdir, v) ∉ span (s.procs p).pgdir a c)
    (hmem : s'.mem = m') (hprocs : ∀ i, (s'.procs i).pgdir = (s.procs i).pgdir ∧ (Live s' i → Live s i)) :
    EntriesFollow C F s s' := by
  have hdir : ∀ i, Live s i → use' (s.procs i).pgdir = .dir := fun i hi =>
    (honly.keeps.eq_iff (by simp) (by simp)).2 (h.dir hi)
  have hsame : ∀ i v, Live s i → ((s.procs i).pgdir, v) ∉ span (s.procs p).pgdir a c →
      pageEntry s' i v = pageEntry s i v := fun i v hi hv =>
    h.pageEntry_eq_of_table hi (hdir i hi) (hprocs i).1 (by rw [hmem, honly.entries _ hv])
  refine EntriesFollow.of_own (p := p) (fun i => (hprocs i).2) (fun i v hi hip => ?_) (fun v x hv hx => ?_)
    fun v g hg => ?_
  · exact hsame i v ((hprocs i).2 hi) fun hx => hip (h.pgdir_inj i p ((hprocs i).2 hi) hp hx.1)
  · rw [hsame p v hp (hkept v x hv (by rw [← h.pageEntry_eq hp, hx])), hx]
  · by_cases hv : ((s.procs p).pgdir, v) ∈ span (s.procs p).pgdir a c
    · rw [Cow.pageEntry_eq use' (by rw [(hprocs p).1, hdir p hp]), (hprocs p).1, hmem] at hg
      exact absurd hg (hnew v hv g)
    · exact ⟨false, by rw [← hsame p v hp hv, hg]⟩

theorem withSize_procs (s : Sys) (p : Slot) (r : Word × Mem) (i : Slot) :
    ((withSize s p r).procs i).pgdir = (s.procs i).pgdir ∧ (Live (withSize s p r) i → Live s i) ∧
      (withSize s p r).mem = r.2 := by
  unfold withSize Live
  split_ifs
  · exact ⟨rfl, id, rfl⟩
  · by_cases hi : i = p
    · subst hi
      simp [Sys.modify]
    · simp [Sys.modify, Function.update_of_ne hi]

/-- `sbrk` keeps the entries of its process, unless it shrinks it. -/
theorem Inv.entriesFollow_growproc (h : Inv L lost eager leak s use) (hp : Live s p)
    (hs' : growproc L p n s = .ok s') : EntriesFollow {k | k.1 = p ∧ n.toInt < 0} F s s' := by
  obtain rfl | ⟨sz, m', use', -, rfl, honly, hcases⟩ | ⟨m', use', hneg, -, rfl, honly, hnone⟩ :=
    h.growproc_cases hp hs'
  · exact EntriesFollow.refl
  · refine h.entriesFollow_resize hp honly (fun v hv g hg => ?_) (fun v x _ hx hv => ?_)
      (withSize_procs s p _ p).2.2 fun i => ⟨(withSize_procs s p _ i).1, (withSize_procs s p _ i).2.1⟩
    · obtain ⟨-, hnew⟩ | ⟨-, hnone⟩ := hcases
      · obtain ⟨g', hg'⟩ := hnew _ hv
        rw [hg'] at hg
        cases hg
      · rw [hnone _ hv] at hg
        cases hg
    · rw [h.bound p v hp (mem_span.1 hv).1] at hx
      cases hx
  · refine h.entriesFollow_resize hp honly (fun v hv g hg => ?_) (fun v x hv _ => absurd ⟨rfl, hneg⟩ hv)
      (withSize_procs s p _ p).2.2 fun i => ⟨(withSize_procs s p _ i).1, (withSize_procs s p _ i).2.1⟩
    rw [hnone _ hv] at hg
    cases hg

/-! ## wait -/

theorem Inv.entriesFollow_wait (h : Inv L lost eager leak s use) (hs' : wait L p s = .ok s') :
    EntriesFollow C F s s' := by
  obtain rfl | ⟨i, m, m', use', hi, rfl, hT, -, hfreed⟩ := h.wait_cases hs'
  · exact EntriesFollow.refl
  have hinv := (h.reap hi hT hfreed).1
  have hother : ∀ j, Live { s.modify i Proc.reaped with mem := m' } j → j ≠ i := by
    rintro j hj rfl
    simp [Live, Sys.modify, Proc.reaped] at hj
  have hprocs : ∀ j, j ≠ i → (s.modify i Proc.reaped).procs j = s.procs j := fun j hj =>
    Function.update_of_ne hj _ _
  have hlive : ∀ j, Live { s.modify i Proc.reaped with mem := m' } j → Live s j := by
    intro j hj
    have hji := hother j hj
    unfold Live at hj
    rwa [show (({ s.modify i Proc.reaped with mem := m' } : Sys).procs j) = _ from hprocs j hji] at hj
  refine EntriesFollow.of_eq hlive fun j v hj => ?_
  have hji := hother j hj
  have hdir := hinv.dir hj
  rw [show (({ s.modify i Proc.reaped with mem := m' } : Sys).procs j) = _ from hprocs j hji] at hdir
  refine h.pageEntry_eq_of_table (hlive j hj) hdir (congrArg Proc.pgdir (hprocs j hji)) ?_
  show userTable m' use' _ = _
  rw [hfreed.entries _ fun hx => hji (h.pgdir_inj j i (hlive j hj) hi hx), hT]

/-! ## exec -/

theorem Inv.entriesFollow_exec {file : Option Inode} {argv : List (List Byte)} (h : Inv L lost eager leak s use)
    (hp : Live s p) (hargs : ArgsOk argv (s.procs p).sz) (hfit : ∀ ip, file = some ip → ExecFits ip)
    (hrun : Cow.exec L p file argv s = .ok s') : EntriesFollow (pagesOf p) F s s' := by
  have hmem : ∀ (m' : Mem) (use' : Page → Use), (∀ i, Live s i → use' (s.procs i).pgdir = .dir) →
      (∀ i v, Live s i → userTable m' use' ((s.procs i).pgdir, v) =
        userTable s.mem use ((s.procs i).pgdir, v)) → EntriesFollow (pagesOf p) F s { s with mem := m' } :=
    fun _ _ hd hT => EntriesFollow.of_eq (fun _ => id) fun i v hi =>
      h.pageEntry_eq_of_table (i := i) hi (hd i hi) rfl (hT i v hi)
  obtain ⟨e, hx, -⟩ | hx | ⟨m₀, use₀, hx, hleak⟩ | ⟨d, m₀, use₀, m, use₁, m', use', hnew, himg, hcases⟩ :=
    h.exec_cases hp hargs hfit
  · rw [hx] at hrun
    cases hrun
  · rw [← Except.ok.inj (hx.symm.trans hrun)]
    exact EntriesFollow.refl
  · rw [← Except.ok.inj (hx.symm.trans hrun)]
    refine hmem m₀ use₀ (fun i hi => ?_) fun i v _ => by rw [hleak.entries]
    rw [(hleak.tags _).resolve_right fun hx => by simp [h.dir hi] at hx, h.dir hi]
  have hd : ∀ i, Live s i → (s.procs i).pgdir ≠ d := fun i hi => hnew.not_fresh (by simp [h.dir hi])
  obtain ⟨hx, hfreed⟩ | ⟨sz, hx, hsized, hfreed⟩ := hcases
  · rw [← Except.ok.inj (hx.symm.trans hrun)]
    obtain ⟨leak', hinv⟩ := h.abandon hnew himg hfreed
    refine hmem m' use' (fun i hi => hinv.dir (i := i) hi) fun i v hi => ?_
    rw [hfreed.entries _ (hd i hi), himg.entries _ (hd i hi), hnew.entries]
  · rw [← Except.ok.inj (hx.symm.trans hrun)]
    have hinv := h.withImage hp hnew himg hsized hfreed
    refine EntriesFollow.of_own (p := p) (fun i => live_withImage.1) (fun i v hi hip => ?_)
      (fun v x hv _ => absurd rfl hv) fun v g hg => ?_
    · have hi' := live_withImage.1 hi
      have hdir := hinv.dir hi
      rw [withImage_procs_of_ne hip] at hdir
      refine h.pageEntry_eq_of_table hi' hdir (congrArg Proc.pgdir (withImage_procs_of_ne hip)) ?_
      show userTable m' use' _ = _
      rw [hfreed.entries _ fun hx => hip (h.pgdir_inj i p hi' hp hx), himg.entries _ (hd i hi'), hnew.entries]
    · -- all pages of the new image can be written
      rw [hinv.pageEntry_eq (live_withImage.2 hp), withImage_procs_self] at hg
      have hg' : userTable m' use' (d, v) = some (g, false) := hg
      rw [hfreed.entries (d, v) (hd p hp).symm] at hg'
      exact absurd (himg.writable v g false hg') (by simp)

/-! ## Events -/

/-- The entries that an event may take from a process. -/
def KernelEvent.changed : KernelEvent → Set (Slot × Page)
  | .user (.mem (.store p va _)) => {(p, pageOf va)}
  | .user (.mem (.fork p)) => pagesOf p
  | .user (.mem (.sbrk p n)) => {k | k.1 = p ∧ n.toInt < 0}
  | .user (.exec p _ _) => pagesOf p
  | _ => ∅

/-- The process that forks. -/
def KernelEvent.forking : KernelEvent → Set Slot
  | .user (.mem (.fork p)) => {p}
  | _ => ∅

theorem Inv.entriesFollow_memStep (h : Inv L lost false leak s use) {e : MemEvent} (hfails : ¬ e.Fails s)
    (hs' : memStep L cowuvm s e = .ok s') :
    EntriesFollow (KernelEvent.user (.mem e)).changed (KernelEvent.user (.mem e)).forking s s' := by
  have hp := live_of_memStep hs'
  unfold memStep at hs'
  split_ifs at hs' with hrun
  rw [not_not] at hrun
  cases e with
  | load p va => exact h.entriesFollow_load hp hs'
  | store p va b => exact h.entriesFollow_store hp hfails hs'
  | fork p =>
    exact EntriesFollow.syscall hp (fun s₁ => fork_killed hp) (fun s₁ => h.entriesFollow_fork hp) hs'
  | sbrk p n =>
    exact EntriesFollow.syscall hp (fun s₁ => growproc_killed) (fun s₁ => h.entriesFollow_growproc hp) hs'
  | exit p => exact EntriesFollow.refl.exit hp hs'
  | wait p =>
    exact EntriesFollow.syscall hp (fun s₁ => wait_killed hrun) (fun s₁ => h.entriesFollow_wait) hs'
  | interrupt p => exact EntriesFollow.refl.exitIfKilled hp hs'

/-- What every event does to the entries. -/
theorem Inv.entriesFollow_kernelNext (h : Inv L lost false leak s use) (hall : AllManaged L use) {e : KernelEvent}
    (he : e.Allowed L s) (hs' : Cow.kernelNext L s e = some s') : EntriesFollow e.changed e.forking s s' := by
  rw [kernelNext_eq_some_iff] at hs'
  cases e with
  | user e =>
    cases e with
    | mem e => exact h.entriesFollow_memStep he.1 hs'
    | exec p file argv =>
      have hstep : step L cowuvm s (.exec p file argv) = .ok s' := hs'
      obtain ⟨hp, hargs, hexit | ⟨s₁, hs₁, hend⟩⟩ := step_exec_cases hstep
      · exact EntriesFollow.refl.exit hp hexit
      · obtain ⟨-, -, -, hp', -⟩ := h.exec hp hargs he.2 hs₁
        exact (h.entriesFollow_exec hp hargs he.2 hs₁).exitIfKilled hp' hend
  | call c =>
    simp only [kernelStep] at hs'
    split_ifs at hs' with hrun
    have hp : Live s c.proc := live_of_runnable (not_not.1 hrun)
    refine EntriesFollow.syscall hp (fun s₁ => Call.body_killed) (fun s₁ hs₁ => ?_) hs'
    obtain ⟨m, hc, rfl⟩ := Call.body_eq_ok hs₁
    obtain ⟨leak', use', hinv, -, hT⟩ := h.call hp hc
    exact EntriesFollow.of_eq (fun _ => id) fun i v hi =>
      h.pageEntry_eq_of_table (i := i) hi (hinv.dir (i := i) hi) rfl (congrFun hT _)
  | pipeclose f =>
    obtain ⟨hf, hstack⟩ := h.kern_of_held hall he
    obtain ⟨m, leak', hm, ha⟩ := h.kfree hf hstack
    simp only [kernelStep, hm, Except.map, Except.ok.injEq] at hs'
    rw [← hs']
    exact EntriesFollow.of_eq (fun _ => id) fun i v hi =>
      h.pageEntry_eq_of_table (i := i) hi (ha.inv.dir (i := i) hi) rfl (congrFun ha.entries _)

end SystemsProjects.Cow
