import SystemsProjects.Cow.Smp

/-!
# The invariant of the threads

From its decrement (or `kfree`) to the write of its entry, a thread has given up the frame of a page,
but the page tables do not show it yet.  The invariant counts the entries without these pages
(`visible`), and says what each thread relies on (`ThreadOk`).  A thread relies only on its own page
tables, on the frames that it holds and, before it has made its copy, on the frame that it copies, so
that the steps of the others leave it alone (`Leaves`).
-/

namespace SystemsProjects.Cow

open Sharing

/-- The page whose frame the thread has given up. -/
def Thread.pending : Thread → Option Page
  | .copying c _ | .remapping c _ => some (pageOf c.va)
  | .clearing a _ _ => some a
  | _ => none

/-- The frames that only this thread uses; `d` is its page directory. -/
def Thread.Holds (m : Mem) (d : Page) : Thread → Page → Prop
  | .dropping _ mem, g | .copying _ mem, g | .remapping _ mem, g => mem = some g
  | .freeingTables i, g => g = d ∨ ∃ j : Index, i ≤ j.toNat ∧ m.page d j = pdeFor g
  | .freeingDir, g => g = d
  | _, _ => False

/-- The frame is the one that a handler has allocated. -/
def Thread.Allocated : Thread → Page → Prop
  | .dropping _ mem, g | .copying _ mem, g | .remapping _ mem, g => mem = some g
  | _, _ => False

/-- The thread runs user code or a handler. -/
def Thread.Runs : Thread → Prop
  | .unmapping _ | .clearing _ _ _ | .freeingTables _ | .freeingDir | .gone => False
  | _ => True

/-- The processes of a run, whose address spaces the run does not replace. -/
structure Procs where
  live : Slot → Prop
  pgdir : Slot → Page
  kpgdir : Page
  pgdir_inj : ∀ i j, live i → live j → pgdir i = pgdir j → i = j
  pgdir_ne : ∀ i, live i → pgdir i ≠ kpgdir

variable {L : Layout} {lost : Word} {P : Procs} {m m' : Mem} {thread : Slot → Thread} {x : Thread}
  {use use' : Page → Use} {f g d t v : Page} {p q : Slot} {k : Page × Page} {c : Fault} {mem : Option Page}
  {a a' : Slot → Page → Option PageData} {F : Set Page}

open Classical in
/-- The user entries without the pages whose frames are given up. -/
noncomputable def visible (P : Procs) (m : Mem) (thread : Slot → Thread) (use : Page → Use) :
    Table (Page × Page) Page := fun k =>
  if ∃ q, P.live q ∧ P.pgdir q = k.1 ∧ (thread q).pending = some k.2 then none else userTable m use k

theorem visible_own (hp : P.live p) (v : Page) : visible P m thread use (P.pgdir p, v) =
    if (thread p).pending = some v then none else userTable m use (P.pgdir p, v) := by
  unfold visible
  have hiff : (∃ q, P.live q ∧ P.pgdir q = P.pgdir p ∧ (thread q).pending = some v) ↔
      (thread p).pending = some v := by
    constructor
    · rintro ⟨q, hq, hqp, hv⟩
      rwa [← P.pgdir_inj q p hq hp hqp]
    · exact fun hv => ⟨p, hp, rfl, hv⟩
  by_cases hv : (thread p).pending = some v
  · rw [if_pos (hiff.2 hv), if_pos hv]
  · rw [if_neg (mt hiff.1 hv), if_neg hv]

/-- The entries of the other processes do not change. -/
theorem visible_other (hk : k.1 ≠ P.pgdir p) (hT : userTable m' use' k = userTable m use k) :
    visible P m' (Function.update thread p x) use' k = visible P m thread use k := by
  unfold visible
  have hiff : (∃ q, P.live q ∧ P.pgdir q = k.1 ∧ (Function.update thread p x q).pending = some k.2) ↔
      ∃ q, P.live q ∧ P.pgdir q = k.1 ∧ (thread q).pending = some k.2 := by
    refine exists_congr fun q => and_congr_right fun _ => and_congr_right fun hq => ?_
    rw [Function.update_of_ne]
    rintro rfl
    exact hk hq.symm
  rw [hT]
  by_cases hx : ∃ q, P.live q ∧ P.pgdir q = k.1 ∧ (thread q).pending = some k.2
  · rw [if_pos hx, if_pos (hiff.2 hx)]
  · rw [if_neg hx, if_neg (mt hiff.1 hx)]

/-- A step of `p` that concerns its page `v` only. -/
theorem visible_update (hp : P.live p) (hT : ∀ k, k ≠ (P.pgdir p, v) → userTable m' use' k = userTable m use k)
    (hold : ∀ u, u ≠ v → (thread p).pending ≠ some u) (hnew : ∀ u, u ≠ v → x.pending ≠ some u) :
    visible P m' (Function.update thread p x) use' = Function.update (visible P m thread use) (P.pgdir p, v)
      (if x.pending = some v then none else userTable m' use' (P.pgdir p, v)) := by
  funext k
  by_cases hk : k.1 = P.pgdir p
  · obtain ⟨d, u⟩ := k
    obtain rfl : d = P.pgdir p := hk
    rw [visible_own hp, Function.update_self]
    by_cases hu : u = v
    · rw [hu, Function.update_self]
    · have hne : (P.pgdir p, u) ≠ (P.pgdir p, v) := fun hx => hu (Prod.mk.inj hx).2
      rw [Function.update_of_ne hne, visible_own hp, if_neg (hold u hu), if_neg (hnew u hu), hT _ hne]
  · have hne : k ≠ (P.pgdir p, v) := by
      rintro rfl
      exact hk rfl
    rw [visible_other hk (hT k hne), Function.update_of_ne hne]

/-- A step that changes no entries. -/
theorem visible_congr (hp : P.live p) (hT : userTable m' use' = userTable m use)
    (hpend : x.pending = (thread p).pending) :
    visible P m' (Function.update thread p x) use' = visible P m thread use := by
  funext k
  by_cases hk : k.1 = P.pgdir p
  · obtain ⟨d, u⟩ := k
    obtain rfl : d = P.pgdir p := hk
    rw [visible_own hp, Function.update_self, hpend, hT, visible_own hp]
  · exact visible_other hk (congrFun hT k)

/-! ## The invariant -/

/-- The entry that a handler works on: it is where and what it was, and it is read-only. -/
structure PteOk (P : Procs) (m : Mem) (use : Page → Use) (p : Slot) (c : Fault) : Prop where
  table : use c.t = .table (P.pgdir p) (pdx (pageOf c.va))
  index : c.i = ptx (pageOf c.va)
  user : IsUser (pageOf c.va)
  entry : m.page c.t c.i = c.pte
  decoded : decode c.pte = some (c.pa, false)

/-- A page directory that is not in use any more, and its page tables from index `i` on. -/
structure GivenUp (m : Mem) (use : Page → Use) (d : Page) (i : ℕ) : Prop where
  dir : use d = .kern
  tables : ∀ j : Index, i ≤ j.toNat → m.page d j = 0#32 ∨ ∃ t, m.page d j = pdeFor t ∧ use t = .kern ∧ t ≠ d
  inj : ∀ (j j' : Index) (t : Page), m.page d j = pdeFor t → m.page d j' = pdeFor t → j = j'

/-- What the thread `x` of `p` relies on; `a p` is what `p` sees. -/
def ThreadOk (P : Procs) (m : Mem) (thread : Slot → Thread) (use : Page → Use)
    (a : Slot → Page → Option PageData) (p : Slot) : Thread → Prop
  | .user | .gone => True
  | .counting c | .allocating c => PteOk P m use p c
  | .granting c => PteOk P m use p c ∧
      ∀ k, frame (visible P m thread use) k = some c.pa → k = (P.pgdir p, pageOf c.va)
  | .dropping c mem => PteOk P m use p c ∧ ∃ g, mem = some g ∧ use g = .kern
  | .copying c mem => PteOk P m use p c ∧ (∃ g, mem = some g ∧ use g = .kern) ∧
      (use c.pa = .user ∨ use c.pa = .reserved) ∧ a p (pageOf c.va) = some (m.page c.pa)
  | .remapping c mem => PteOk P m use p c ∧
      ∃ g, mem = some g ∧ use g = .kern ∧ a p (pageOf c.va) = some (m.page g)
  | .unmapping b => b.toNat ≤ 160 ∧ ∀ v, v.toNat < b.toNat → userTable m use (P.pgdir p, v) = none
  | .clearing b t i => IsUser b ∧ use t = .table (P.pgdir p) (pdx b) ∧ i = ptx b ∧
      ∀ v, v.toNat < b.toNat → userTable m use (P.pgdir p, v) = none
  | .freeingTables i => GivenUp m use (P.pgdir p) i
  | .freeingDir => use (P.pgdir p) = .kern

/-- The frames in `F` do not leave the user pages and the free list, but for the copies under way. -/
structure ThreadsOk (L : Layout) (lost : Word) (P : Procs) (F : Set Page) (m : Mem)
    (thread : Slot → Thread) (use : Page → Use) (a : Slot → Page → Option PageData) : Prop where
  frames : Frames L lost m use
  counts : Counts (visible P m thread use) m.refCnt use
  present : ∀ d v pte, use d = .dir → IsUser v → pteOf m d v = some pte → has pte PTE_P = true →
    has pte PTE_U = true
  dirs : ∀ d, use d = .dir ↔ d = P.kpgdir ∨ ∃ p, P.live p ∧ (thread p).HasTables ∧ P.pgdir p = d
  tables : ∀ p, P.live p → (thread p).HasTables → ∃ t, use t = .table (P.pgdir p) 0#10
  kernel : ∀ v, userTable m use (P.kpgdir, v) = none
  threads : ∀ p, P.live p → ThreadOk P m thread use a p (thread p)
  apart : ∀ p q g, P.live p → P.live q → p ≠ q → (thread p).Holds m (P.pgdir p) g →
    ¬ (thread q).Holds m (P.pgdir q) g
  seen : ∀ p v, P.live p → (thread p).Runs → (thread p).pending ≠ some v →
    view m use (P.pgdir p, v) = a p v
  pool : ∀ g ∈ F, use g = .user ∨ use g = .free ∨ ∃ p, P.live p ∧ (thread p).Allocated g

theorem PteOk.userTable_eq (hc : PteOk P m use p c) (h : Frames L lost m use) :
    userTable m use (P.pgdir p, pageOf c.va) = some (c.pa, false) := by
  rw [h.entry_eq hc.table, ← hc.index, hc.entry]
  exact hc.decoded

theorem ThreadOk.kern (h : ThreadOk P m thread use a p x) (hg : x.Holds m (P.pgdir p) g) : use g = .kern := by
  cases x with
  | dropping c mem =>
    obtain ⟨-, g', rfl, hg'⟩ := h
    rwa [← Option.some.inj hg]
  | copying c mem =>
    obtain ⟨-, ⟨g', rfl, hg'⟩, -⟩ := h
    rwa [← Option.some.inj hg]
  | remapping c mem =>
    obtain ⟨-, g', rfl, hg', -⟩ := h
    rwa [← Option.some.inj hg]
  | freeingTables i =>
    obtain rfl | ⟨j, hj, hpde⟩ := hg
    · exact h.dir
    · cases h.tables j hj with
      | inl h0 => exact absurd (hpde.symm.trans h0) (pdeFor_ne_zero g)
      | inr h1 =>
        obtain ⟨t, ht, hkern, -⟩ := h1
        rwa [pdeFor_injective (hpde.symm.trans ht)]
  | freeingDir =>
    obtain rfl := hg
    exact h
  | _ => exact hg.elim

/-! ## The steps of the others -/

/-- A step of `p`, which goes on at `x`, leaves alone what the other threads rely on. -/
structure Leaves (P : Procs) (p : Slot) (m : Mem) (thread : Slot → Thread) (use : Page → Use) (x : Thread)
    (m' : Mem) (use' : Page → Use) : Prop where
  dir : ∀ d, d ≠ P.pgdir p → (use' d = .dir ↔ use d = .dir) ∧ (use d = .dir → m'.page d = m.page d)
  table : ∀ t d i, d ≠ P.pgdir p → use t = .table d i → use' t = .table d i ∧ m'.page t = m.page t
  kern : ∀ g, use g = .kern → ¬ (thread p).Holds m (P.pgdir p) g → use' g = .kern ∧ m'.page g = m.page g
  source : ∀ q c mem, P.live q → q ≠ p → thread q = .copying c mem →
    (use' c.pa = .user ∨ use' c.pa = .reserved) ∧ m'.page c.pa = m.page c.pa
  page : ∀ k g b, k.1 ≠ P.pgdir p → visible P m thread use k = some (g, b) → m'.page g = m.page g
  own : ∀ v g, frame (visible P m' (Function.update thread p x) use') (P.pgdir p, v) = some g →
    frame (visible P m thread use) (P.pgdir p, v) = some g ∨ use g = .kern

theorem Leaves.userTable_eq (hl : Leaves P p m thread use x m' use') (h : Frames L lost m use)
    (hk : k.1 ≠ P.pgdir p) : userTable m' use' k = userTable m use k := by
  unfold userTable
  obtain ⟨hdir, hpage⟩ := hl.dir k.1 hk
  by_cases hd : use k.1 = .dir
  · rw [if_pos hd, if_pos (hdir.2 hd), h.pteOf_congr hd (hpage hd) fun t i ht => (hl.table t _ i hk ht).2]
  · rw [if_neg hd, if_neg (mt hdir.1 hd)]

theorem Leaves.visible_eq (hl : Leaves P p m thread use x m' use') (h : Frames L lost m use)
    (hk : k.1 ≠ P.pgdir p) :
    visible P m' (Function.update thread p x) use' k = visible P m thread use k :=
  visible_other hk (hl.userTable_eq h hk)

section Others

variable (h : ThreadsOk L lost P F m thread use a) (hl : Leaves P p m thread use x m' use')
  (hp : P.live p) (hq : P.live q) (hqp : q ≠ p)

include h hl hp hq hqp

theorem Leaves.held (hg : (thread q).Holds m (P.pgdir q) g) : use' g = .kern ∧ m'.page g = m.page g :=
  hl.kern g ((h.threads q hq).kern hg) (h.apart q p g hq hp hqp hg)

/-- What a thread holds is not changed by the steps of the others. -/
theorem Leaves.holds_iff : (thread q).Holds m' (P.pgdir q) g ↔ (thread q).Holds m (P.pgdir q) g := by
  cases hx : thread q with
  | freeingTables i =>
    have hpage := (hl.held h hp hq hqp (g := P.pgdir q) (by rw [hx]; exact Or.inl rfl)).2
    simp only [Thread.Holds, hpage]
  | _ => rfl

omit h in
theorem PteOk.leave (hc : PteOk P m use q c) : PteOk P m' use' q c := by
  have hne : P.pgdir q ≠ P.pgdir p := fun hx => hqp (P.pgdir_inj q p hq hp hx)
  obtain ⟨htable, hpage⟩ := hl.table c.t _ _ hne hc.table
  exact ⟨htable, hc.index, hc.user, by rw [hpage, hc.entry], hc.decoded⟩

theorem ThreadOk.leave (ha : a' q = a q) :
    ThreadOk P m' (Function.update thread p x) use' a' q (thread q) := by
  have hne : P.pgdir q ≠ P.pgdir p := fun hx => hqp (P.pgdir_inj q p hq hp hx)
  have hok := h.threads q hq
  have hheld := fun g => hl.held h hp hq hqp (g := g)
  have hentry : ∀ v, userTable m' use' (P.pgdir q, v) = userTable m use (P.pgdir q, v) := fun v =>
    hl.userTable_eq h.frames hne
  cases hx : thread q with
  | user => trivial
  | gone => trivial
  | counting c =>
    rw [hx] at hok
    exact PteOk.leave hl hp hq hqp hok
  | allocating c =>
    rw [hx] at hok
    exact PteOk.leave hl hp hq hqp hok
  | granting c =>
    rw [hx] at hok
    obtain ⟨hc, hunique⟩ := hok
    refine ⟨PteOk.leave hl hp hq hqp hc, fun k hk => ?_⟩
    by_cases hkp : k.1 = P.pgdir p
    · obtain ⟨d, v⟩ := k
      obtain rfl : d = P.pgdir p := hkp
      cases hl.own v c.pa hk with
      | inl hold => exact hunique _ hold
      | inr hkern =>
        -- the page that `q` makes writable is one of its own
        have hvis : visible P m thread use (P.pgdir q, pageOf c.va) = some (c.pa, false) := by
          rw [visible_own hq, hx]
          exact hc.userTable_eq h.frames
        have := (h.counts.entry _ _ _ _ hvis).2.2
        rw [hkern] at this
        cases this
    · apply hunique
      rwa [frame, ← hl.visible_eq h.frames hkp]
  | dropping c mem =>
    rw [hx] at hok hheld
    obtain ⟨hc, g, rfl, -⟩ := hok
    exact ⟨PteOk.leave hl hp hq hqp hc, g, rfl, (hheld g rfl).1⟩
  | copying c mem =>
    obtain ⟨hsource, hpage⟩ := hl.source q c mem hq hqp hx
    rw [hx] at hok hheld
    obtain ⟨hc, ⟨g, rfl, -⟩, -, hseen⟩ := hok
    exact ⟨PteOk.leave hl hp hq hqp hc, ⟨g, rfl, (hheld g rfl).1⟩, hsource, by rw [ha, hpage, hseen]⟩
  | remapping c mem =>
    rw [hx] at hok hheld
    obtain ⟨hc, g, rfl, -, hseen⟩ := hok
    exact ⟨PteOk.leave hl hp hq hqp hc, g, rfl, (hheld g rfl).1, by rw [ha, (hheld g rfl).2, hseen]⟩
  | unmapping b =>
    rw [hx] at hok
    exact ⟨hok.1, fun v hv => by rw [hentry, hok.2 v hv]⟩
  | clearing b t i =>
    rw [hx] at hok
    obtain ⟨hb, ht, hi, hnone⟩ := hok
    exact ⟨hb, (hl.table t _ _ hne ht).1, hi, fun v hv => by rw [hentry, hnone v hv]⟩
  | freeingTables i =>
    rw [hx] at hok hheld
    obtain ⟨hdir, htables, hinj⟩ := hok
    have hpage := (hheld (P.pgdir q) (Or.inl rfl)).2
    refine ⟨(hheld _ (Or.inl rfl)).1, fun j hj => ?_, by rwa [hpage]⟩
    rw [hpage]
    refine (htables j hj).imp_right ?_
    rintro ⟨t, ht, -, htd⟩
    exact ⟨t, ht, (hheld t (Or.inr ⟨j, hj, ht⟩)).1, htd⟩
  | freeingDir =>
    rw [hx] at hheld
    exact (hheld _ rfl).1

end Others

/-- What a step of `p` has to do to keep the invariant. -/
structure StepOk (L : Layout) (lost : Word) (P : Procs) (F : Set Page) (p : Slot) (m : Mem)
    (thread : Slot → Thread) (use : Page → Use) (x : Thread) (m' : Mem) (use' : Page → Use)
    (a' : Slot → Page → Option PageData) : Prop where
  leaves : Leaves P p m thread use x m' use'
  frames : Frames L lost m' use'
  counts : Counts (visible P m' (Function.update thread p x) use') m'.refCnt use'
  present : ∀ v pte, use' (P.pgdir p) = .dir → IsUser v → pteOf m' (P.pgdir p) v = some pte →
    has pte PTE_P = true → has pte PTE_U = true
  dir : use' (P.pgdir p) = .dir ↔ x.HasTables
  hasTables : x.HasTables → (thread p).HasTables
  table : ∀ t, x.HasTables → use t = .table (P.pgdir p) 0#10 → use' t = .table (P.pgdir p) 0#10
  ok : ThreadOk P m' (Function.update thread p x) use' a' p x
  holds : ∀ g, x.Holds m' (P.pgdir p) g → (thread p).Holds m (P.pgdir p) g ∨ use g ≠ .kern
  seen : x.Runs → ∀ v, x.pending ≠ some v → view m' use' (P.pgdir p, v) = a' p v
  pool : ∀ g ∈ F, use g = .user ∨ use g = .free ∨ (thread p).Allocated g →
    use' g = .user ∨ use' g = .free ∨ x.Allocated g

theorem ThreadsOk.step (h : ThreadsOk L lost P F m thread use a) (hp : P.live p)
    (hk : StepOk L lost P F p m thread use x m' use' a') (ha : ∀ q, q ≠ p → a' q = a q) :
    ThreadsOk L lost P F m' (Function.update thread p x) use' a' := by
  have hl := hk.leaves
  have hne : ∀ q, P.live q → q ≠ p → P.pgdir q ≠ P.pgdir p := fun q hq hqp hx => hqp (P.pgdir_inj q p hq hp hx)
  refine ⟨hk.frames, hk.counts, fun d v pte hd hv hpte => ?_, fun d => ?_, fun q hq hx => ?_, fun v => ?_,
    fun q hq => ?_, fun q r g hq hr hqr hg hg' => ?_, fun q v hq hruns hpend => ?_, fun g hg => ?_⟩
  · by_cases hdp : d = P.pgdir p
    · subst hdp
      exact hk.present v pte hd hv hpte
    · have hd' := (hl.dir d hdp).1.1 hd
      rw [h.frames.pteOf_congr hd' ((hl.dir d hdp).2 hd') fun t i ht => (hl.table t d i hdp ht).2] at hpte
      exact h.present d v pte hd' hv hpte
  · by_cases hdp : d = P.pgdir p
    · subst hdp
      rw [hk.dir]
      constructor
      · exact fun hx => Or.inr ⟨p, hp, by rwa [Function.update_self], rfl⟩
      · rintro (hx | ⟨q, hq, hx, hqp⟩)
        · exact absurd hx (P.pgdir_ne p hp)
        · rwa [P.pgdir_inj q p hq hp hqp, Function.update_self] at hx
    · rw [(hl.dir d hdp).1, h.dirs d]
      refine or_congr_right (exists_congr fun q => and_congr_right fun hq => ?_)
      by_cases hqp : q = p
      · subst hqp
        exact iff_of_false (fun hx => hdp hx.2.symm) fun hx => hdp hx.2.symm
      · rw [Function.update_of_ne hqp]
  · by_cases hqp : q = p
    · subst hqp
      rw [Function.update_self] at hx
      obtain ⟨t, ht⟩ := h.tables q hq (hk.hasTables hx)
      exact ⟨t, hk.table t hx ht⟩
    · rw [Function.update_of_ne hqp] at hx
      obtain ⟨t, ht⟩ := h.tables q hq hx
      exact ⟨t, (hl.table t _ _ (hne q hq hqp) ht).1⟩
  · rw [hl.userTable_eq h.frames (P.pgdir_ne p hp).symm, h.kernel]
  · by_cases hqp : q = p
    · subst hqp
      rw [Function.update_self]
      exact hk.ok
    · rw [Function.update_of_ne hqp]
      exact ThreadOk.leave h hl hp hq hqp (ha q hqp)
  · -- nobody held a frame that `p` has just taken
    have hcase : ∀ q, P.live q → q ≠ p → (thread q).Holds m' (P.pgdir q) g → ¬ x.Holds m' (P.pgdir p) g := by
      intro q hq hqp hg hx
      rw [hl.holds_iff h hp hq hqp] at hg
      cases hk.holds g hx with
      | inl hx => exact h.apart q p g hq hp hqp hg hx
      | inr hx => exact hx ((h.threads q hq).kern hg)
    by_cases hqp : q = p
    · subst hqp
      rw [Function.update_self] at hg
      rw [Function.update_of_ne hqr.symm] at hg'
      exact hcase r hr hqr.symm hg' hg
    · rw [Function.update_of_ne hqp] at hg
      by_cases hrp : r = p
      · subst hrp
        rw [Function.update_self] at hg'
        exact hcase q hq hqp hg hg'
      · rw [Function.update_of_ne hrp] at hg'
        rw [hl.holds_iff h hp hq hqp] at hg
        rw [hl.holds_iff h hp hr hrp] at hg'
        exact h.apart q r g hq hr hqr hg hg'
  · by_cases hqp : q = p
    · subst hqp
      rw [Function.update_self] at hruns hpend
      exact hk.seen hruns v hpend
    · rw [Function.update_of_ne hqp] at hruns hpend
      rw [ha q hqp, ← h.seen q v hq hruns hpend]
      refine view_congr (hl.userTable_eq h.frames (hne q hq hqp)) fun g b hT =>
        hl.page (P.pgdir q, v) g b (hne q hq hqp) ?_
      rw [visible_own hq, if_neg hpend, hT]
  · have hcase : use g = .user ∨ use g = .free ∨ (thread p).Allocated g → use' g = .user ∨ use' g = .free ∨
        ∃ q, P.live q ∧ (Function.update thread p x q).Allocated g := by
      intro hx
      refine (hk.pool g hg hx).imp_right (Or.imp_right fun hx => ⟨p, hp, ?_⟩)
      rwa [Function.update_self]
    obtain hx | hx | ⟨q, hq, hx⟩ := h.pool g hg
    · exact hcase (Or.inl hx)
    · exact hcase (Or.inr (Or.inl hx))
    · by_cases hqp : q = p
      · subst hqp
        exact hcase (Or.inr (Or.inr hx))
      · exact Or.inr (Or.inr ⟨q, hq, by rwa [Function.update_of_ne hqp]⟩)

/-! ## Steps within some frames -/

/-- The frames in `S` are nobody else's business, and no other page changes but the page tables of `p`. -/
structure Within (P : Procs) (p : Slot) (m : Mem) (thread : Slot → Thread) (use : Page → Use) (m' : Mem)
    (use' : Page → Use) (S : Set Page) : Prop where
  tags : ∀ g, g ∉ S → use' g = use g
  pages : ∀ g, g ∉ S → (∀ i, use g ≠ .table (P.pgdir p) i) → m'.page g = m.page g
  old : ∀ f ∈ S, ¬ (use f).Structural ∧ (use f = .kern → (thread p).Holds m (P.pgdir p) f)
  new : ∀ f ∈ S, ¬ (use' f).Structural
  source : ∀ q c mem, P.live q → q ≠ p → thread q = .copying c mem → c.pa ∈ S →
    (use' c.pa = .user ∨ use' c.pa = .reserved) ∧ m'.page c.pa = m.page c.pa
  page : ∀ f ∈ S, m'.page f = m.page f ∨ ∀ k b, k.1 ≠ P.pgdir p → visible P m thread use k ≠ some (f, b)

variable {S : Set Page}

theorem Within.notMem (hw : Within P p m thread use m' use' S) (hg : (use g).Structural) : g ∉ S :=
  fun hx => (hw.old g hx).1 hg

theorem Within.dir_iff (hw : Within P p m thread use m' use' S) : use' d = .dir ↔ use d = .dir := by
  by_cases hd : d ∈ S
  · refine iff_of_false (fun hx => hw.new d hd ?_) fun hx => (hw.old d hd).1 ?_
    · simp [hx, Use.Structural]
    · simp [hx, Use.Structural]
  · rw [hw.tags d hd]

theorem Within.table_eq (hw : Within P p m thread use m' use' S) {i : Index} (ht : use t = .table d i) :
    use' t = .table d i := by
  rw [hw.tags t (hw.notMem (by simp [ht, Use.Structural])), ht]

/-- A step that gives one frame the use `u`. -/
theorem Within.single {u : Use} (hpages : ∀ g, g ≠ f → (∀ i, use g ≠ .table (P.pgdir p) i) → m'.page g = m.page g)
    (hold : ¬ (use f).Structural) (hheld : use f = .kern → (thread p).Holds m (P.pgdir p) f) (hnew : ¬ u.Structural)
    (hsource : ∀ q c mem, P.live q → thread q = .copying c mem → c.pa = f →
      (u = .user ∨ u = .reserved) ∧ m'.page f = m.page f)
    (hpage : m'.page f = m.page f ∨ ∀ k b, k.1 ≠ P.pgdir p → visible P m thread use k ≠ some (f, b)) :
    Within P p m thread use m' (Function.update use f u) {f} := by
  refine ⟨fun g hg => Function.update_of_ne hg _ _, hpages, ?_, ?_, ?_, ?_⟩
  · rintro g rfl
    exact ⟨hold, hheld⟩
  · rintro g rfl
    rwa [Function.update_self]
  · rintro q c mem hq - hx rfl
    rw [Function.update_self]
    exact hsource q c mem hq hx rfl
  · rintro g rfl
    exact hpage

/-- A step that overwrites one frame. -/
theorem Within.setPage (hold : ¬ (use f).Structural) (hheld : use f = .kern → (thread p).Holds m (P.pgdir p) f)
    (hsource : ∀ q c mem, P.live q → thread q = .copying c mem → c.pa ≠ f)
    (hpage : ∀ k b, k.1 ≠ P.pgdir p → visible P m thread use k ≠ some (f, b)) (y : PageData) :
    Within P p m thread use (m.setPage f y) use {f} := by
  have hw : Within P p m thread use (m.setPage f y) (Function.update use f (use f)) {f} :=
    Within.single (fun _ hg _ => Mem.setPage_page_of_ne m _ hg) hold hheld hold
      (fun q c mem hq hx hc => absurd hc (hsource q c mem hq hx)) (Or.inr hpage)
  rwa [Function.update_eq_self] at hw

theorem ThreadsOk.leaves (h : ThreadsOk L lost P F m thread use a) (hw : Within P p m thread use m' use' S)
    (hown : ∀ v g, frame (visible P m' (Function.update thread p x) use') (P.pgdir p, v) = some g →
      frame (visible P m thread use) (P.pgdir p, v) = some g ∨ use g = .kern) :
    Leaves P p m thread use x m' use' := by
  refine ⟨fun d hd => ⟨hw.dir_iff, fun hdir => ?_⟩, fun t d i hd ht => ⟨hw.table_eq ht, ?_⟩, fun g hg hheld => ?_,
    fun q c mem hq hqp hx => ?_, fun k g b hk hT => ?_, hown⟩
  · exact hw.pages d (hw.notMem (by simp [hdir, Use.Structural])) (by simp [hdir])
  · refine hw.pages t (hw.notMem (by simp [ht, Use.Structural])) fun j hj => ?_
    rw [ht] at hj
    exact hd (Use.table.inj hj).1
  · have hgS : g ∉ S := fun hx => hheld ((hw.old g hx).2 hg)
    rw [hw.tags g hgS]
    exact ⟨hg, hw.pages g hgS (by simp [hg])⟩
  · by_cases hcS : c.pa ∈ S
    · exact hw.source q c mem hq hqp hx hcS
    · have hok := h.threads q hq
      rw [hx] at hok
      rw [hw.tags _ hcS]
      refine ⟨hok.2.2.1, hw.pages _ hcS fun i hi => ?_⟩
      cases hok.2.2.1 with
      | inl hu => simp [hi] at hu
      | inr hu => simp [hi] at hu
  · by_cases hgS : g ∈ S
    · exact (hw.page g hgS).resolve_right fun hx => hx k b hk hT
    · exact hw.pages g hgS (by simp [(h.counts.entry _ _ _ _ hT).2.2])

end SystemsProjects.Cow
