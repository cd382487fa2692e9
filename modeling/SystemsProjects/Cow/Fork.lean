import SystemsProjects.Cow.Access

/-!
# Fork

`fork` keeps the invariant and gives the child the pages of its parent.  The function that copies an
address space is a parameter, of which `fork` uses that it copies the pages, panics because one is
missing, or runs out of memory (`CopySpec`).
-/

namespace SystemsProjects.Cow

open Sharing Holding

variable {L : Layout} {lost : Word} {leak : Set Page} {eager : Bool} {s s' : Sys} {m m' : Mem}
  {use use' : Page → Use} {f g d t v : Page} {p i : Slot} {fails : Prop}

/-- What `fork` expects of the function that copies an address space. -/
def CopySpec (L : Layout) (lost : Word) (eager : Bool) (copy : CopyFn) : Prop :=
  ∀ {m : Mem} {use : Page → Use} {t d : Page} {sz : Word}, Owned L lost m use →
    (eager = true → AllWritable (userTable m use)) → use t = .table d 0#10 → sz ≤ USERTOP →
    (∃ e, copy L d sz m = .error e ∧ ∃ v, v.toNat < pagesBelow sz ∧ view m use (d, v) = none) ∨
    (∃ d' m' use', copy L d sz m = .ok (some d', m') ∧ Forked L lost m use d (pagesBelow sz) d' m' use' ∧
      (eager = true → AllWritable (userTable m' use'))) ∨
    (∃ m' use', copy L d sz m = .ok (none, m') ∧ Failed L lost m use m' use')

theorem copySpec_cowuvm : CopySpec L lost false cowuvm := by
  intro m use t d sz h _ ht hsz
  obtain ⟨herr, hv⟩ | ⟨d', m', use', hrun, hfork, -⟩ | ⟨m', use', hrun, hleak⟩ := h.cowuvm_cases ht hsz
  · exact Or.inl ⟨_, herr, hv⟩
  · exact Or.inr (Or.inl ⟨d', m', use', hrun, hfork, by simp⟩)
  · exact Or.inr (Or.inr ⟨m', use', hrun, hleak.failed h⟩)

theorem copySpec_copyuvm : CopySpec L lost true copyuvm := by
  intro m use t d sz h hw ht hsz
  obtain ⟨herr, hv⟩ | ⟨d', m', use', hrun, hfork, hall⟩ | ⟨m', use', hrun, hfail⟩ := h.copyuvm_cases ht hsz
  · exact Or.inl ⟨_, herr, hv⟩
  · exact Or.inr (Or.inl ⟨d', m', use', hrun, hfork, fun _ => hall (hw rfl)⟩)
  · exact Or.inr (Or.inr ⟨m', use', hrun, hfail⟩)

/-- The uses that copying an address space does not change. -/
theorem Forked.eq_iff {k : ℕ} (h : Forked L lost m use t k d m' use') {u : Use} (hg : g ≠ d)
    (hf : u ≠ .free) (hu : u ≠ .user) (ht : ∀ i, u ≠ .table d i) : use' g = u ↔ use g = u := by
  cases h.tags g hg with
  | inl hx => rw [hx]
  | inr hx =>
    constructor
    · rintro rfl
      obtain hx | hx | ⟨i, hx⟩ := hx.2
      · exact absurd hx hf
      · exact absurd hx hu
      · exact absurd hx (ht i)
    · rintro rfl
      exact hx.1.elim (fun hx => absurd hx hf) fun hx => absurd hx hu

theorem free_of_update {k : Page} (h : Function.update use k .kern d = .free) :
    use d = .free ∧ d ≠ k := by
  by_cases hdk : d = k
  · rw [hdk, Function.update_self] at h
    cases h
  · rw [Function.update_of_ne hdk] at h
    exact ⟨h, hdk⟩

/-- The process table after `fork`. -/
def withChild (s : Sys) (np p : Slot) (kstack d : Page) (m : Mem) : Sys :=
  { s with
    mem := m
    nextpid := s.nextpid + 1#32
    procs := Function.update s.procs np
      { s.procs np with
        sz := (s.procs p).sz, pgdir := d, kstack := kstack, state := .runnable, pid := s.nextpid
        parent := some p } }

/-- The process table after a `fork` that has not found memory. -/
def withoutChild (s : Sys) (np : Slot) (q : Proc) (m : Mem) : Sys :=
  { s with mem := m, nextpid := s.nextpid + 1#32, procs := Function.update s.procs np q }

variable {np : Slot} {copy : CopyFn} {k : Page}

/-- No slot is free. -/
theorem fork_of_no_slot (h : (List.finRange NPROC).find? (fun i => (s.procs i).state = .unused) = none) :
    fork L copy p s = .ok s := by
  unfold fork allocproc
  rw [h]

/-- There is no page for the kernel stack. -/
theorem fork_of_no_page (h : (List.finRange NPROC).find? (fun i => (s.procs i).state = .unused) = some np)
    (hk : kalloc s.mem = (none, m)) :
    fork L copy p s = .ok (withoutChild s np
      { s.procs np with kstack := 0#20, state := .unused, pid := s.nextpid } m) := by
  unfold fork allocproc
  rw [h]
  simp only [Sys.modify, hk, Function.update_self, Function.update_idem]
  rfl

theorem find_unused (h : (List.finRange NPROC).find? (fun i => (s.procs i).state = .unused) = some np) :
    (s.procs np).state = .unused := by
  simpa using List.find?_some h

/-- `fork` in terms of the allocation of the kernel stack and the copying of the address space. -/
theorem fork_eq (h : (List.finRange NPROC).find? (fun i => (s.procs i).state = .unused) = some np)
    (hp : Live s p) (hk : kalloc s.mem = (some k, m)) :
    fork L copy p s = (copy L (s.procs p).pgdir (s.procs p).sz m).bind fun (d, m') =>
      match d with
      | none => (kfree L k m').map fun m' => withoutChild s np
          { s.procs np with pgdir := 0#20, kstack := 0#20, state := .unused, pid := s.nextpid } m'
      | some d => .ok (withChild s np p k d m') := by
  have hne : p ≠ np := by
    rintro rfl
    exact hp (find_unused h)
  unfold fork allocproc
  rw [h]
  simp only [Sys.modify, hk, Function.update_self, Function.update_idem, Function.update_of_ne hne]
  rfl

section Child

variable {use₁ : Page → Use}

theorem withChild_procs_of_ne (hi : i ≠ np) : (withChild s np p k d m).procs i = s.procs i :=
  Function.update_of_ne hi _ _

theorem withChild_procs_self : (withChild s np p k d m).procs np =
    { s.procs np with
      sz := (s.procs p).sz, pgdir := d, kstack := k, state := .runnable, pid := s.nextpid
      parent := some p } :=
  Function.update_self _ _ _

/-- The slots in use after a successful `fork`. -/
theorem live_withChild : Live (withChild s np p k d m) i ↔ i = np ∨ Live s i := by
  unfold Live
  by_cases hi : i = np
  · rw [hi, withChild_procs_self]
    exact iff_of_true (by simp) (Or.inl rfl)
  · rw [withChild_procs_of_ne hi]
    simp [hi]

/-- The invariant after a successful `fork`: the new page directory and kernel stack were free. -/
theorem Inv.withChild (h : Inv L lost eager leak s use) (hp : Live s p) (hnp : ¬ Live s np)
    (hk : use k = .free) (hT : userTable m (Function.update use k .kern) = userTable s.mem use)
    (hfork : Forked L lost m (Function.update use k .kern) (s.procs p).pgdir
      (pagesBelow (s.procs p).sz) d m' use')
    (hw : eager = true → AllWritable (userTable m' use')) :
    Inv L lost eager leak (withChild s np p k d m') use' := by
  have hne : ∀ i, Live s i → i ≠ np := by
    rintro i hi rfl
    exact hnp hi
  have hdfree := free_of_update hfork.fresh
  -- apart from `d` and `k`, directories, tables of old directories and kernel pages are as before
  have huse : ∀ g u, g ≠ d → u ≠ .free → u ≠ .user → (∀ i, u ≠ .table d i) →
      (use' g = u ↔ if g = k then u = .kern else use g = u) := by
    intro g u hg hf hu ht
    rw [hfork.eq_iff hg hf hu ht, Function.update_apply]
    by_cases hgk : g = k
    · simp [hgk, eq_comm]
    · simp [hgk]
  have hdne : ∀ {g : Page}, use g ≠ .free → g ≠ d := by
    rintro g hg rfl
    exact hg hdfree.1
  have hdir : ∀ g, use' g = .dir ↔ g = d ∨ use g = .dir := by
    intro g
    by_cases hgd : g = d
    · rw [hgd]
      exact iff_of_true hfork.dir (Or.inl rfl)
    · rw [huse g .dir hgd (by simp) (by simp) (by simp)]
      by_cases hgk : g = k
      · simp [hgk, hk, Ne.symm hdfree.2]
      · simp [hgk, hgd]
  have hkern : ∀ g, use' g = .kern ↔ g = k ∨ use g = .kern := by
    intro g
    by_cases hgd : g = d
    · rw [hgd, hfork.dir, hdfree.1]
      simp [hdfree.2]
    · rw [huse g .kern hgd (by simp) (by simp) (by simp)]
      by_cases hgk : g = k
      · simp [hgk]
      · simp [hgk]
  have hentry : ∀ e v, e ≠ d → userTable s.mem use (e, v) = none → userTable m' use' (e, v) = none := by
    intro e v he hnone
    rw [← frame_eq_none_iff, hfork.frames (e, v) he, frame_eq_none_iff, hT, hnone]
  have hpg : ∀ i, Live s i → (s.procs i).pgdir ≠ d := fun i hi => hdne (by simp [h.dir hi])
  have hkp : s.kpgdir ≠ d := hdne (by simp [(h.dirs s.kpgdir).2 (Or.inl rfl)])
  have hpgdirs : Held {i | Live (Cow.withChild s np p k d m') i}
      (fun i => ((Cow.withChild s np p k d m').procs i).pgdir) {s.kpgdir} {g | use' g = .dir} :=
    h.pgdirs.add (by simp [hdfree.1]) (congrArg Proc.pgdir withChild_procs_self)
      (fun i hi => congrArg Proc.pgdir (withChild_procs_of_ne (hne i hi))) (fun _ => live_withChild) hdir
  have hstacks : Held {i | Live (Cow.withChild s np p k d m') i}
      (fun i => ((Cow.withChild s np p k d m').procs i).kstack) leak {g | use' g = .kern} :=
    h.stacks.add (by simp [hk]) (congrArg Proc.kstack withChild_procs_self)
      (fun i hi => congrArg Proc.kstack (withChild_procs_of_ne (hne i hi))) (fun _ => live_withChild) hkern
  refine Inv.of_held hfork.owned hw (fun i => ?_) hpgdirs (fun e he => ?_) hstacks (fun i hi => ?_)
    (fun i v hi => ?_) fun v => hentry _ v hkp (h.kernel v)
  · by_cases hi : i = np
    · rw [hi, withChild_procs_self]
      simp
    · rw [withChild_procs_of_ne hi]
      exact h.ready i
  · cases (hdir e).1 he with
    | inl he => rw [he]; exact hfork.complete
    | inr he' =>
      intro i
      rw [← h.complete e he' i]
      have hed := hdne (g := e) (by simp [he'])
      refine exists_congr fun t => ?_
      by_cases htd : t = d
      · rw [htd, hfork.dir, hdfree.1]
        simp
      · rw [huse t (.table e i) htd (by simp) (by simp) (fun j hx => hed (Use.table.inj hx).1)]
        by_cases htk : t = k
        · simp [htk, hk]
        · simp [htk]
  · cases live_withChild.1 hi with
    | inl hi =>
      rw [hi, withChild_procs_self]
      exact h.size p hp
    | inr hi =>
      rw [withChild_procs_of_ne (hne i hi)]
      exact h.size i hi
  · cases live_withChild.1 hi with
    | inl hi =>
      rw [hi, withChild_procs_self]
      intro hv
      have := hfork.child v
      rw [if_neg (Nat.not_lt.2 hv), view_eq_none_iff] at this
      exact this
    | inr hi =>
      rw [withChild_procs_of_ne (hne i hi)]
      exact fun hv => hentry _ v (hpg i hi) (h.bound i v hi hv)

/-- The abstract state after a successful `fork`. -/
theorem abs_withChild (h : Inv L lost eager leak s use) (hp : Live s p)
    (hT : userTable m (Function.update use k .kern) = userTable s.mem use) (hpage : m.page = s.mem.page)
    (hfork : Forked L lost m (Function.update use k .kern) (s.procs p).pgdir
      (pagesBelow (s.procs p).sz) d m' use')
    (hinv : Inv L lost eager leak (Cow.withChild s np p k d m') use') :
    abs (Cow.withChild s np p k d m') =
      { (abs s).modify np (((abs s).procs p).copy p s.nextpid) with nextpid := s.nextpid + 1#32 } := by
  have hview : ∀ k', view m (Function.update use k .kern) k' = view s.mem use k' := fun k' => by
    rw [view, view, hT, hpage]
  show abs (Cow.withChild s np p k d m') = (abs { s with nextpid := s.nextpid + 1#32 }).modify np
    (((abs s).procs p).copy p s.nextpid)
  apply abs_eq_modify (by rfl) (by rfl) (by rfl) ?_ fun i hi => ?_
  · have hpages : (absProc m' ((Cow.withChild s np p k d m').procs np)).page =
        fun v => if v.toNat < pagesBelow (s.procs p).sz then ((abs s).procs p).page v else none := by
      funext v
      rw [show (absProc m' ((Cow.withChild s np p k d m').procs np)).page v = _ from
        abs_page hinv (live_withChild.2 (Or.inl rfl)) v, withChild_procs_self, abs_page h hp, ← hview]
      exact hfork.child v
    show absProc m' ((Cow.withChild s np p k d m').procs np) = _
    unfold Private.Proc.copy
    rw [abs_sz, ← hpages, withChild_procs_self]
    rfl
  · refine h.absProc_eq hinv (withChild_procs_of_ne hi) fun hlive v => ?_
    rw [← hview]
    refine hfork.others _ fun hx => hi ?_
    refine hinv.pgdir_inj i np (live_withChild.2 (Or.inr hlive)) (live_withChild.2 (Or.inl rfl)) ?_
    rw [withChild_procs_of_ne hi, withChild_procs_self]
    exact hx

end Child

/-- A `fork` that returns has found no slot, has found no memory, or has made a child. -/
theorem Inv.fork_cases (h : Inv L lost eager leak s use) (hp : Live s p) (hs' : fork L cowuvm p s = .ok s') :
    s' = s ∨
    (∃ np q m' use', ¬ Live s np ∧ q.state = .unused ∧ (∀ i, Live s i → use' (s.procs i).pgdir = .dir) ∧
      userTable m' use' = userTable s.mem use ∧ s' = Cow.withoutChild s np q m') ∨
    ∃ np k m d m' use', ¬ Live s np ∧ use k = .free ∧
      userTable m (Function.update use k .kern) = userTable s.mem use ∧
      Forked L lost m (Function.update use k .kern) (s.procs p).pgdir (pagesBelow (s.procs p).sz) d m' use' ∧
      Shares m (Function.update use k .kern) (s.procs p).pgdir (pagesBelow (s.procs p).sz) d m' use' ∧
      s' = Cow.withChild s np p k d m' := by
  cases hfind : (List.finRange NPROC).find? fun i => (s.procs i).state = .unused with
  | none =>
    rw [fork_of_no_slot hfind] at hs'
    exact Or.inl (Except.ok.inj hs').symm
  | some np =>
    have hnp : ¬ Live s np := fun hx => hx (find_unused hfind)
    by_cases hzero : s.mem.freelist = 0#32
    · rw [fork_of_no_page hfind (kalloc_of_eq_zero hzero)] at hs'
      exact Or.inr (Or.inl ⟨np, _, _, use, hnp, rfl, fun i hi => h.dir hi, (h.owned.setOom true).2,
        (Except.ok.inj hs').symm⟩)
    obtain ⟨k, m, hkal, hk, h₁, hT₁, -, -, -⟩ := h.owned.kalloc_eq_some hzero
    obtain ⟨t, ht⟩ := h.exists_table hp
    have hne : ∀ {g : Page}, use g ≠ .free → Function.update use k .kern g = use g := by
      intro g hg
      apply Function.update_of_ne
      rintro rfl
      exact hg hk
    rw [fork_eq hfind hp hkal] at hs'
    obtain ⟨herr, -⟩ | ⟨d, m', use', hrun, hfork, hshares⟩ | ⟨m', use', hrun, hleak⟩ :=
      h₁.cowuvm_cases (p := (s.procs p).pgdir) (by rw [hne (g := t) (by simp [ht]), ht]) (h.size p hp)
    · rw [herr] at hs'
      cases hs'
    · rw [hrun] at hs'
      exact Or.inr (Or.inr ⟨np, k, m, d, m', use', hnp, hk, hT₁, hfork, hshares, (Except.ok.inj hs').symm⟩)
    · -- the kernel stack is given back
      have hk' : use' k = .kern := by
        cases hleak.tags k with
        | inl hx => rw [hx, Function.update_self]
        | inr hx =>
          have := hx.1
          simp at this
      obtain ⟨m'', hm'', -, hT₂, -, -⟩ := hleak.owned.kfree_kern hk'
      rw [hrun] at hs'
      simp only [Except.bind, hm'', Except.map, Except.ok.injEq] at hs'
      refine Or.inr (Or.inl ⟨np, _, m'', _, hnp, rfl, fun i hi => ?_, by rw [hT₂, hleak.entries, hT₁], hs'.symm⟩)
      have hdir := h.dir hi
      have hik : (s.procs i).pgdir ≠ k := by
        intro hx
        rw [hx, hk] at hdir
        cases hdir
      have htag := hleak.tags (s.procs i).pgdir
      rw [Function.update_of_ne hik] at htag
      rw [Function.update_of_ne hik, htag.resolve_right fun hx => by simp [hdir] at hx, hdir]

theorem live_withoutChild {q : Proc} (hnp : ¬ Live s np) (hq : q.state = .unused) :
    Live (withoutChild s np q m) i ↔ Live s i := by
  unfold Live withoutChild
  by_cases hi : i = np
  · subst hi
    refine iff_of_false ?_ hnp
    simp [hq]
  · simp [Function.update_of_ne hi]

/-- A `fork` that has not found memory: pages may be lost, and the slot stays unused. -/
theorem Inv.withoutChild (h : Inv L lost eager leak s use) (hnp : ¬ Live s np) {q : Proc}
    (hq : q.state = .unused) (howned : Owned L lost m' use')
    (htags : ∀ g, use' g = use g ∨ (use g = .free ∨ use g = .user) ∧
      (use' g = .free ∨ use' g = .user ∨ use' g = .kern))
    (hT : userTable m' use' = userTable s.mem use) :
    ∃ leak', Inv L lost eager leak' (withoutChild s np q m') use' ∧
      Touches ∅ ∅ s use (withoutChild s np q m') use' := by
  have hproc : ∀ i, i ≠ np → (Cow.withoutChild s np q m').procs i = s.procs i := fun i hi =>
    Function.update_of_ne hi _ _
  have hlive : ∀ i, Live (Cow.withoutChild s np q m') i ↔ Live s i := fun _ => live_withoutChild hnp hq
  have hne : ∀ i, Live s i → i ≠ np := by
    rintro i hi rfl
    exact hnp hi
  have hkeep : ∀ g u, u ≠ .free → u ≠ .user → u ≠ .kern → (use' g = u ↔ use g = u) := by
    intro g u hf hu hk
    cases htags g with
    | inl hx => rw [hx]
    | inr hx =>
      refine iff_of_false ?_ ?_
      · rintro rfl
        obtain hx | hx | hx := hx.2
        · exact hf hx
        · exact hu hx
        · exact hk hx
      · rintro rfl
        exact hx.1.elim hf hu
  have hkern : ∀ i, Live s i → use' (s.procs i).kstack = .kern := by
    intro i hi
    cases htags (s.procs i).kstack with
    | inl hx => rw [hx, h.kern hi]
    | inr hx =>
      have := hx.1
      simp [h.kern hi] at this
  have hready : ∀ i, ((Cow.withoutChild s np q m').procs i).state ≠ .embryo := by
    intro i
    by_cases hi : i = np
    · rw [hi, show (Cow.withoutChild s np q m').procs np = q from Function.update_self _ _ _, hq]
      simp
    · rw [hproc i hi]
      exact h.ready i
  obtain ⟨leak', hinv⟩ : ∃ leak', Inv L lost eager leak' (Cow.withoutChild s np q m') use' :=
    h.lose howned hkeep hkern hT rfl hready hlive fun i hi => hproc i (hne i hi)
  refine ⟨leak', hinv, fun g => hkeep g .reserved (by simp) (by simp) (by simp), rfl, fun i hi _ => ?_,
    fun i v hi _ _ => ?_, fun _ _ _ _ hx => absurd hx (Set.notMem_empty _)⟩
  · rw [hproc i (hne i hi)]
    exact ⟨rfl, rfl⟩
  · show frame (userTable m' use') _ = _
    rw [hT]

theorem Inv.fork_follows (hcopy : CopySpec L lost eager copy) (h : Inv L lost eager leak s use)
    (hp : Live s p) :
    Follows L lost eager leak s use ∅ ∅ fails (fork L copy p s) (Private.fork p (abs s)) := by
  have hsame : ((List.finRange NPROC).find? fun i => ((abs s).procs i).state = .unused) =
      (List.finRange NPROC).find? fun i => (s.procs i).state = .unused := rfl
  unfold Private.fork
  rw [hsame]
  cases hfind : (List.finRange NPROC).find? fun i => (s.procs i).state = .unused with
  | none =>
    rw [fork_of_no_slot hfind]
    exact Or.inr ⟨use, leak, h, Touches.refl CanWrite.empty, fun _ => ⟨rfl, rfl⟩⟩
  | some np =>
    have hnp : ¬ Live s np := fun hx => hx (find_unused hfind)
    by_cases hzero : s.mem.freelist = 0#32
    · rw [fork_of_no_page hfind (kalloc_of_eq_zero hzero)]
      obtain ⟨h₁, hT₁⟩ := h.owned.setOom true
      obtain ⟨leak', hinv, htouch⟩ := h.withoutChild hnp
        (q := { s.procs np with kstack := 0#20, state := .unused, pid := s.nextpid }) rfl h₁
        (fun _ => Or.inl rfl) hT₁
      exact Or.inr ⟨use, leak', hinv, htouch, fun hoom => by cases hoom⟩
    · obtain ⟨k, m, hkal, hk, h₁, hT₁, hpage, -, hoom₁⟩ := h.owned.kalloc_eq_some hzero
      obtain ⟨t, ht⟩ := h.exists_table hp
      have htk : t ≠ k := by
        rintro rfl
        simp [hk] at ht
      have hview : ∀ v, view m (Function.update use k .kern) ((s.procs p).pgdir, v) =
          ((abs s).procs p).page v := fun v => by
        rw [abs_page h hp, view, view, hT₁, hpage]
      rw [fork_eq hfind hp hkal]
      obtain ⟨e, herr, v, hv, hnone⟩ | ⟨d, m', use', hrun, hfork, hw⟩ | ⟨m', use', hrun, hfail⟩ :=
        hcopy h₁ (by rw [hT₁]; exact h.writable) (by rw [Function.update_of_ne htk, ht]) (h.size p hp)
      · rw [herr]
        refine Or.inr ⟨.panic "page not present", ?_⟩
        simp only
        rw [if_pos ⟨v, by rwa [abs_sz], by rw [← hview, hnone]⟩]
      · rw [hrun]
        have hinv := h.withChild hp hnp hk hT₁ hfork hw
        refine Or.inr ⟨use', leak, hinv, ⟨fun g => ?_, rfl, fun i hi _ => ?_, fun i v hi _ _ => ?_,
          fun _ _ _ _ hx => absurd hx (Set.notMem_empty _)⟩, fun _ => ⟨rfl, ?_⟩⟩
        · by_cases hgd : g = d
          · rw [hgd, hfork.dir, (free_of_update hfork.fresh).1]
            simp
          · rw [hfork.eq_iff hgd (by simp) (by simp) (by simp)]
            exact update_eq_iff (by simp [hk]) (by simp) g
        · rw [withChild_procs_of_ne]
          · exact ⟨rfl, rfl⟩
          · rintro rfl
            exact hnp hi
        · show frame (userTable m' use') _ = _
          rw [hfork.frames, hT₁]
          intro hx
          have hd := h.dir hi
          rw [show (s.procs i).pgdir = d from hx, (free_of_update hfork.fresh).1] at hd
          cases hd
        · simp only
          rw [if_neg, abs_withChild h hp hT₁ hpage hfork hinv]
          · rfl
          · rintro ⟨v, hv, hnone⟩
            exact hfork.full v hv (by rw [hview, hnone])
      · rw [hrun]
        have hk' : use' k = .kern := by
          cases hfail.tags k with
          | inl hx => rw [hx, Function.update_self]
          | inr hx =>
            have := hx.1
            simp at this
        obtain ⟨m'', hm'', h₂, hT₂, -, hoom₂⟩ := hfail.owned.kfree_kern hk'
        have hT : userTable m'' (Function.update use' k .free) = userTable s.mem use := by
          rw [hT₂, ← hT₁]
          exact funext hfail.entries
        obtain ⟨leak', hinv, htouch⟩ := h.withoutChild hnp
          (q := { s.procs np with pgdir := 0#20, kstack := 0#20, state := .unused, pid := s.nextpid })
          rfl h₂ (fun g => by
            by_cases hgk : g = k
            · exact Or.inl (by rw [hgk, Function.update_self, hk])
            · rw [Function.update_of_ne hgk]
              have := hfail.tags g
              rwa [Function.update_of_ne hgk] at this) hT
        show Follows L lost eager leak s use ∅ ∅ fails ((kfree L k m').map _) _
        rw [hm'']
        refine Or.inr ⟨_, leak', hinv, htouch, fun hoom => ?_⟩
        have hoom' : m''.oom = false := hoom
        rw [hoom₂, hfail.oom] at hoom'
        cases hoom'

end SystemsProjects.Cow
