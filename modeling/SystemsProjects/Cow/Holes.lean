import SystemsProjects.Cow.OutOfMemory

/-!
# The pages below the size of a process

`fork` panics if a page below `proc->sz` is missing, and `mappages` if a page above it is there.  The
size and the page table are kept by different functions: `growproc` takes the size 0 that `deallocuvm`
returns for an error, so that an `sbrk` of minus the size frees all pages and keeps the size.  Without
such an `sbrk` every process has exactly the pages below its size (`exactPages_of_run`).
-/

namespace SystemsProjects.Cow

open Sharing

variable {L : Layout} {lost : Word} {leak : Set Page} {eager : Bool} {s s' : Sys} {m₀ m m' : Mem}
  {use₀ use use' : Page → Use} {d t v cur : Page} {p i : Slot} {sz n : Word} {ip : Inode}

/-! ## The property -/

/-- There is an entry for the page that user code can use. -/
def HasPage (m : Mem) (d v : Page) : Prop := (pteOf m d v).bind decode ≠ none

/-- Every process has the pages below its size. -/
def Full (s : Sys) : Prop :=
  ∀ i v, Live s i → v.toNat < pagesBelow (s.procs i).sz → HasPage s.mem (s.procs i).pgdir v

/-- Every process has the pages below its size and no other. -/
structure ExactPages (s : Sys) : Prop where
  below : Full s
  above : ∀ i v, Live s i → IsUser v → pagesBelow (s.procs i).sz ≤ v.toNat →
    ¬ HasPage s.mem (s.procs i).pgdir v

/-- The panics of `cowuvm` and `mappages` that a missing page or an additional one leads to. -/
def holePanics : List Halt :=
  [.panic "cowuvm: pte should exist", .panic "cowuvm: page not present", .panic "remap"]

theorem hasPage_of_ne (use : Page → Use) (h : userTable m use (d, v) ≠ none) : HasPage m d v := by
  unfold userTable at h
  split_ifs at h
  · exact h
  · exact absurd rfl h

theorem hasPage_iff (hd : use d = .dir) : HasPage m d v ↔ userTable m use (d, v) ≠ none := by
  unfold HasPage userTable
  rw [if_pos hd]

theorem Inv.exactPages (h : Inv L lost eager leak s use) (hfull : Full s) : ExactPages s := by
  refine ⟨hfull, fun i v hi _ hv => ?_⟩
  rw [hasPage_iff (h.dir hi), not_not]
  exact h.bound i v hi hv

/-- Under the invariant, a full address space has its entries in the table. -/
theorem Inv.entry_ne_none (h : Inv L lost eager leak s use) (hfull : Full s) (hi : Live s i)
    (hv : v.toNat < pagesBelow (s.procs i).sz) : userTable s.mem use ((s.procs i).pgdir, v) ≠ none :=
  (hasPage_iff (h.dir hi)).1 (hfull i v hi hv)

/-! ## Events that keep the sizes -/

/-- No process is new or has another size. -/
def SameSizes (s s' : Sys) : Prop := ∀ i, Live s' i → Live s i ∧ (s'.procs i).sz = (s.procs i).sz

theorem SameSizes.trans {s₁ : Sys} (h : SameSizes s s₁) (h' : SameSizes s₁ s') : SameSizes s s' :=
  fun i hi => ⟨(h i (h' i hi).1).1, (h' i hi).2.trans (h i (h' i hi).1).2⟩

/-- Pages that get another frame are there afterwards. -/
theorem Full.of_touches {K W : Set (Slot × Page)} (hfull : Full s) (h : Inv L lost eager leak s use)
    (ht : Touches K W s use s' use') (hKW : K ⊆ W) (hsame : SameSizes s s') : Full s' := by
  intro i v hi' hv
  obtain ⟨hi, hsz⟩ := hsame i hi'
  rw [hsz] at hv
  have hne := h.entry_ne_none hfull hi hv
  rw [(ht.procs i hi hi').1]
  apply hasPage_of_ne use'
  by_cases hK : (i, v) ∈ K
  · obtain ⟨g, hg⟩ := ht.written i v hi hi' (hKW hK) hne
    rw [hg]
    simp
  · rw [Ne, ← frame_eq_none_iff, ht.frames i v hi hi' hK, frame_eq_none_iff]
    exact hne

theorem sameSizes_kill (pid : Word) : SameSizes s (kill pid s) := fun i hi =>
  ⟨(live_kill pid).1 hi, (kill_procs pid i).1.2.2⟩

theorem sameSizes_exit (hp : Live s p) (h : exit p s = .ok s') : SameSizes s s' := fun i hi =>
  ⟨(live_exit h hp i).2 hi, ((exit_fields h).2.2 i).1.2.2⟩

theorem sameSizes_exitIfKilled (hp : Live s p) (h : exitIfKilled p s = .ok s') : SameSizes s s' := by
  unfold exitIfKilled at h
  split_ifs at h
  · exact sameSizes_exit hp h
  · rw [← Except.ok.inj h]
    exact fun i hi => ⟨hi, rfl⟩

theorem Full.exit (hfull : Full s) (h : Inv L lost eager leak s use) (hp : Live s p)
    (hs' : Cow.exit p s = .ok s') : Full s' :=
  hfull.of_touches h (touches_exit (K := ∅) hs' CanWrite.empty) (Set.empty_subset _) (sameSizes_exit hp hs')

theorem Full.exitIfKilled (hfull : Full s) (h : Inv L lost eager leak s use) (hp : Live s p)
    (hs' : Cow.exitIfKilled p s = .ok s') : Full s' := by
  unfold Cow.exitIfKilled at hs'
  split_ifs at hs'
  · exact hfull.exit h hp hs'
  · rw [← Except.ok.inj hs']
    exact hfull

/-- `cowHandler` changes the process table by `kill` at most. -/
theorem cowHandler_procs {va : Word} (h : cowHandler p va s = .ok s') :
    s'.procs = s.procs ∨ s'.procs = (kill (s.procs p).pid s).procs := by
  unfold cowHandler at h
  simp only at h
  split at h
  · split at h
    · rw [← Except.ok.inj h]
      exact Or.inr rfl
    · cases h
  · split_ifs at h
    · rw [← Except.ok.inj h]
      exact Or.inr rfl
    · rw [← Except.ok.inj h]
      exact Or.inl rfl
    · split at h
      · rw [← Except.ok.inj h]
        exact Or.inl rfl
      · split at h
        · rw [← Except.ok.inj h]
          exact Or.inr rfl
        · cases h

theorem sameSizes_cowHandler {va : Word} (h : cowHandler p va s = .ok s') :
    SameSizes s s' ∧ ∀ i, Live s i → Live s' i := by
  unfold SameSizes Live
  obtain hprocs | hprocs := cowHandler_procs h
  · simp [hprocs]
  · rw [hprocs]
    exact ⟨sameSizes_kill _, fun i hi => (live_kill _).2 hi⟩

theorem sameSizes_wait (h : wait L p s = .ok s') : SameSizes s s' := by
  unfold wait at h
  split at h
  · rename_i i _
    cases hk : kfree L (s.procs i).kstack s.mem with
    | error e =>
      rw [hk] at h
      cases h
    | ok m =>
      rw [hk] at h
      cases hf : freevm L (s.procs i).pgdir m with
      | error e =>
        simp only [Except.bind, hf] at h
        cases h
      | ok m' =>
        simp only [Except.bind, hf, Except.map, Except.ok.injEq] at h
        subst h
        intro j hj
        by_cases hji : j = i
        · subst hji
          simp [Live, Sys.modify] at hj
        · simpa [Live, Sys.modify, Function.update_of_ne hji] using hj
  · split_ifs at h
    rw [← Except.ok.inj h]
    exact fun i hi => ⟨hi, rfl⟩

/-- A system call that returns has either made its process exit or done what it is for. -/
theorem syscall_cases {body : Sys → Except Halt Sys}
    (hkilled : ∀ s', body s = .ok s' → (s'.procs p).killed = (s.procs p).killed)
    (h : syscall p body s = .ok s') : exit p s = .ok s' ∨ body s = .ok s' := by
  unfold syscall at h
  split_ifs at h with hk
  · exact Or.inl h
  · cases hs₁ : body s with
    | error x =>
      rw [hs₁] at h
      cases h
    | ok s₁ =>
      rw [hs₁] at h
      have hk₁ : ¬ (s₁.procs p).killed = true := by
        rw [hkilled s₁ hs₁]
        exact hk
      rw [show (Except.ok s₁ : Except Halt Sys).bind (exitIfKilled p) = exitIfKilled p s₁ from rfl,
        exitIfKilled, if_neg hk₁] at h
      exact Or.inr h

/-- Every event but `fork` and `sbrk` keeps the sizes. -/
theorem memStep_sameSizes {e : MemEvent} (hfork : ∀ p, e ≠ .fork p) (hsbrk : ∀ p n, e ≠ .sbrk p n)
    (h : memStep L cowuvm s e = .ok s') : SameSizes s s' := by
  unfold memStep at h
  split_ifs at h with hrun
  have hp : Live s e.proc := live_of_runnable (not_not.1 hrun)
  have hfault : ∀ {va : Word} {s₁ : Sys}, cowHandler e.proc va s = .ok s₁ →
      SameSizes s s₁ ∧ Live s₁ e.proc := fun hs₁ =>
    ⟨(sameSizes_cowHandler hs₁).1, (sameSizes_cowHandler hs₁).2 _ hp⟩
  cases e with
  | load p va =>
    simp only [load] at h
    split at h
    · rw [← Except.ok.inj h]
      exact fun i hi => ⟨hi, rfl⟩
    · cases hs₁ : cowHandler p va s with
      | error x =>
        rw [hs₁] at h
        cases h
      | ok s₁ =>
        rw [hs₁] at h
        exact (hfault hs₁).1.trans (sameSizes_exitIfKilled (hfault hs₁).2 h)
  | store p va b =>
    simp only [store] at h
    split at h
    · rw [← Except.ok.inj h]
      exact fun i hi => ⟨hi, rfl⟩
    · cases hs₁ : cowHandler p va s with
      | error x =>
        rw [hs₁] at h
        cases h
      | ok s₁ =>
        rw [hs₁] at h
        simp only [Except.bind] at h
        split_ifs at h
        · exact (hfault hs₁).1.trans (sameSizes_exit (hfault hs₁).2 h)
        · split at h <;> (rw [← Except.ok.inj h]; exact (hfault hs₁).1)
  | fork p => exact absurd rfl (hfork p)
  | sbrk p n => exact absurd rfl (hsbrk p n)
  | exit p => exact sameSizes_exit hp h
  | wait p =>
    obtain hexit | hwait := syscall_cases (fun s₁ hs₁ => wait_killed (not_not.1 hrun) hs₁) h
    · exact sameSizes_exit hp hexit
    · exact sameSizes_wait hwait
  | interrupt p => exact sameSizes_exitIfKilled hp h

/-! ## fork -/

/-- The slots in use after a `fork` without memory. -/
theorem full_withoutChild {np : Slot} {q : Proc} (hfull : Full s) (h : Inv L lost eager leak s use)
    (hnp : ¬ Live s np) (hq : q.state = .unused)
    (hT : userTable m' use' = userTable s.mem use) : Full (withoutChild s np q m') := by
  intro i v hi hv
  have hi' := (live_withoutChild hnp hq).1 hi
  have hinp : i ≠ np := by
    rintro rfl
    exact hnp hi'
  rw [show (withoutChild s np q m').procs i = s.procs i from Function.update_of_ne hinp _ _] at hv ⊢
  apply hasPage_of_ne use'
  show userTable m' use' _ ≠ none
  rw [hT]
  exact h.entry_ne_none hfull hi' hv

/-- The slots in use after a successful `fork`. -/
theorem Inv.full_withChild {np : Slot} {k : Page} (h : Inv L lost eager leak s use) (hfull : Full s)
    (hT : userTable m (Function.update use k .kern) = userTable s.mem use)
    (hfork : Forked L lost m (Function.update use k .kern) (s.procs p).pgdir (pagesBelow (s.procs p).sz) d m'
      use') : Full (Cow.withChild s np p k d m') := by
  intro i v hi hv
  apply hasPage_of_ne use'
  by_cases hinp : i = np
  · -- the child has the pages of its parent
    rw [hinp, withChild_procs_self] at hv ⊢
    show userTable m' use' (d, v) ≠ none
    rw [Ne, ← view_eq_none_iff, hfork.child, if_pos hv]
    exact hfork.full v hv
  · have hi' := (live_withChild.1 hi).resolve_left hinp
    rw [withChild_procs_of_ne hinp] at hv ⊢
    show userTable m' use' ((s.procs i).pgdir, v) ≠ none
    rw [Ne, ← frame_eq_none_iff, hfork.frames, frame_eq_none_iff, hT]
    · exact h.entry_ne_none hfull hi' hv
    · intro hx
      have hdir := h.dir hi'
      rw [show (s.procs i).pgdir = d from hx, (free_of_update hfork.fresh).1] at hdir
      cases hdir

theorem Inv.full_fork (h : Inv L lost false leak s use) (hfull : Full s) (hp : Live s p)
    (hs' : fork L cowuvm p s = .ok s') : Full s' := by
  obtain rfl | ⟨np, q, m', use', hnp, hq, -, hT, rfl⟩ | ⟨np, k, m, d, m', use', -, -, hT, hfork, -, rfl⟩ :=
    h.fork_cases hp hs'
  · exact hfull
  · exact full_withoutChild hfull h hnp hq hT
  · exact h.full_withChild hfull hT hfork

/-! ## sbrk -/

/-- A process gets the size `sz`, and the pages below it are old or new ones. -/
theorem Inv.full_resize (h : Inv L lost eager leak s use) (hfull : Full s) (hp : Live s p) {a c : ℕ}
    (honly : Only (span (s.procs p).pgdir a c) s.mem use m' use')
    (hnew : ∀ v : Page, v.toNat < pagesBelow sz →
      userTable m' use' ((s.procs p).pgdir, v) ≠ none) :
    Full { s.modify p fun q => { q with sz := sz } with mem := m' } := by
  intro i v hi hv
  apply hasPage_of_ne use'
  show userTable m' use' _ ≠ none
  by_cases hip : i = p
  · subst hip
    simp only [Sys.modify, Function.update_self] at hv ⊢
    exact hnew v hv
  · simp only [Live, Sys.modify, Function.update_of_ne hip] at hi hv ⊢
    rw [honly.entries _ fun hx => hip (h.pgdir_inj i p hi hp hx.1)]
    exact h.entry_ne_none hfull hi hv

/-- A process keeps its size and the pages below it. -/
theorem Inv.full_remap (h : Inv L lost eager leak s use) (hfull : Full s) (hp : Live s p) {a c : ℕ}
    (honly : Only (span (s.procs p).pgdir a c) s.mem use m' use')
    (ha : pagesBelow (s.procs p).sz ≤ a) : Full { s with mem := m' } := by
  rw [show ({ s with mem := m' } : Sys) =
    { s.modify p fun q => { q with sz := (s.procs p).sz } with mem := m' } by rw [modify_sz_self]]
  refine h.full_resize hfull hp honly fun v hv => ?_
  rw [honly.entries _ fun hx => by have := (mem_span.1 hx).1; omega]
  exact h.entry_ne_none hfull hp hv

theorem Inv.full_growproc (h : Inv L lost eager leak s use) (hfull : Full s) (hp : Live s p)
    (hn : ¬ (n.toInt < 0 ∧ (s.procs p).sz + n = 0#32)) (hs' : growproc L p n s = .ok s') : Full s' := by
  obtain rfl | ⟨sz, m', use', hle, rfl, honly, hcases⟩ | ⟨m', use', hneg, hlt, rfl, honly, -⟩ :=
    h.growproc_cases hp hs'
  · exact hfull
  · unfold withSize
    by_cases hzero : sz = 0#32
    · rw [if_pos hzero]
      exact h.full_remap hfull hp honly le_rfl
    · rw [if_neg hzero]
      obtain ⟨rfl, hnew⟩ | ⟨hx, -⟩ := hcases
      · refine h.full_resize hfull hp honly fun v hv => ?_
        by_cases hold : v.toNat < pagesBelow (s.procs p).sz
        · rw [honly.entries _ fun hx => by have := (mem_span.1 hx).1; omega]
          exact h.entry_ne_none hfull hp hold
        · obtain ⟨g, hg⟩ := hnew _ (mem_span.2 ⟨Nat.not_lt.1 hold, hv⟩)
          rw [hg]
          simp
      · exact absurd hx hzero
  · rw [withSize, if_neg fun hx => hn ⟨hneg, hx⟩]
    have hmono := pagesBelow_mono (BitVec.le_of_lt hlt)
    refine h.full_resize hfull hp honly fun v hv => ?_
    have hv' : v.toNat < pagesBelow ((s.procs p).sz + n) := hv
    rw [honly.entries _ fun hx => by have := (mem_span.1 hx).1; omega]
    exact h.entry_ne_none hfull hp (by omega)

/-! ## exec -/

theorem Inv.full_exec {file : Option Inode} {argv : List (List Byte)} (h : Inv L lost eager leak s use)
    (hfull : Full s) (hp : Live s p) (hargs : ArgsOk argv (s.procs p).sz)
    (hfit : ∀ ip, file = some ip → ExecFits ip) (hrun : Cow.exec L p file argv s = .ok s') : Full s' := by
  have hsame : ∀ {m' : Mem} {use' : Page → Use},
      (∀ i v, Live s i → userTable m' use' ((s.procs i).pgdir, v) =
        userTable s.mem use ((s.procs i).pgdir, v)) → Full { s with mem := m' } := by
    intro m' use' hT i v hi hv
    apply hasPage_of_ne use'
    show userTable m' use' _ ≠ none
    rw [hT i v hi]
    exact h.entry_ne_none hfull hi hv
  obtain ⟨e, hx, -⟩ | hx | ⟨m₀, use₀, hx, hleak⟩ | ⟨d, m₀, use₀, m, use₁, m', use', hnew, himg, hcases⟩ :=
    h.exec_cases hp hargs hfit
  · rw [hx] at hrun
    cases hrun
  · rw [← Except.ok.inj (hx.symm.trans hrun)]
    exact hfull
  · rw [← Except.ok.inj (hx.symm.trans hrun)]
    exact hsame fun i v _ => by rw [hleak.entries]
  have hd : ∀ i, Live s i → (s.procs i).pgdir ≠ d := fun i hi => hnew.not_fresh (by simp [h.dir hi])
  obtain ⟨hx, hfreed⟩ | ⟨sz, hx, hsized, hfreed⟩ := hcases
  · rw [← Except.ok.inj (hx.symm.trans hrun)]
    exact hsame fun i v hi => by
      rw [hfreed.entries _ (hd i hi), himg.entries _ (hd i hi), hnew.entries]
  · rw [← Except.ok.inj (hx.symm.trans hrun)]
    intro i v hi hv
    have hi' := live_withImage.1 hi
    apply hasPage_of_ne use'
    show userTable m' use' _ ≠ none
    by_cases hip : i = p
    · rw [hip, withImage_procs_self] at hv ⊢
      rw [hfreed.entries (d, v) (hd p hp).symm]
      exact hsized.mapped v hv
    · rw [withImage_procs_of_ne hip] at hv ⊢
      rw [hfreed.entries _ fun hx => hip (h.pgdir_inj i p hi' hp hx), himg.entries _ (hd i hi'),
        hnew.entries]
      exact h.entry_ne_none hfull hi' hv

/-! ## Events -/

/-- An `sbrk` of minus the size. -/
def Event.Empties (s : Sys) : Event → Prop
  | .mem (.sbrk p n) => n.toInt < 0 ∧ (s.procs p).sz + n = 0#32
  | _ => False

theorem Inv.full_next (h : Inv L lost false leak s use) (hfull : Full s) {e : Event}
    (hfails : ¬ e.Fails s) (hfit : e.Fits) (hne : ¬ e.Empties s) (hs' : Cow.next L s e = some s') : Full s' := by
  rw [next_eq_some_iff] at hs'
  cases e with
  | exec p file argv =>
    obtain ⟨hp, hargs, hexit | ⟨s₁, hs₁, hend⟩⟩ := step_exec_cases hs'
    · exact hfull.exit h hp hexit
    · obtain ⟨leak', use', hinv, hp', -⟩ := h.exec hp hargs hfit hs₁
      exact (h.full_exec hfull hp hargs hfit hs₁).exitIfKilled hinv hp' hend
  | mem e =>
    have hstep : memStep L cowuvm s e = .ok s' := hs'
    have hrun : (s.procs e.proc).state = .runnable := by
      by_contra hx
      unfold memStep at hstep
      rw [if_pos hx] at hstep
      cases hstep
    have hp : Live s e.proc := live_of_runnable hrun
    have hother : (∀ p, e ≠ .fork p) → (∀ p n, e ≠ .sbrk p n) → e.touched ⊆ e.written → Full s' := by
      intro hfork hsbrk hsub
      have hfollow := h.memStep_follows copySpec_cowuvm e
      rw [hstep] at hfollow
      obtain ⟨hx, -⟩ | ⟨use', leak', -, htouch, -⟩ := hfollow
      · exact absurd hx hfails
      · exact hfull.of_touches h htouch hsub (memStep_sameSizes hfork hsbrk hstep)
    unfold memStep at hstep
    rw [if_neg (not_not.2 hrun)] at hstep
    cases e with
    | load p va => exact hother (by simp) (by simp) (Set.Subset.refl _)
    | store p va b => exact hother (by simp) (by simp) (Set.Subset.refl _)
    | exit p => exact hother (by simp) (by simp) (Set.Subset.refl _)
    | wait p => exact hother (by simp) (by simp) (Set.Subset.refl _)
    | interrupt p => exact hother (by simp) (by simp) (Set.Subset.refl _)
    | fork p =>
      obtain hx | hx := syscall_cases (fun s₁ hs₁ => fork_killed hp hs₁) hstep
      · exact hfull.exit h hp hx
      · exact h.full_fork hfull hp hx
    | sbrk p n =>
      obtain hx | hx := syscall_cases (fun s₁ hs₁ => growproc_killed hs₁) hstep
      · exact hfull.exit h hp hx
      · exact h.full_growproc hfull hp hne hx

/-! ## Panics -/

theorem LoadHalt.notMem {e : Halt} (h : LoadHalt e) : e ∉ holePanics := by
  obtain rfl | rfl | rfl := h <;> decide

theorem exit_error {x : Halt} (h : exit p s = .error x) : x ∉ holePanics := by
  unfold exit at h
  split_ifs at h
  rw [← Except.error.inj h]
  decide

theorem exitIfKilled_error {x : Halt} (h : exitIfKilled p s = .error x) : x ∉ holePanics := by
  unfold exitIfKilled at h
  split_ifs at h
  exact exit_error h

theorem cowHandler_error {va : Word} {x : Halt} (h : cowHandler p va s = .error x) : x ∉ holePanics := by
  unfold cowHandler at h
  simp only at h
  split at h
  · split at h
    · cases h
    · rw [← Except.error.inj h]
      decide
  · split_ifs at h
    split at h
    · cases h
    · split at h
      · cases h
      · rw [← Except.error.inj h]
        decide

theorem syscall_error {body : Sys → Except Halt Sys} {x : Halt}
    (hbody : ∀ x, body s = .error x → x ∉ holePanics) (h : syscall p body s = .error x) :
    x ∉ holePanics := by
  unfold syscall at h
  split_ifs at h
  · exact exit_error h
  · cases hs₁ : body s with
    | error y =>
      rw [hs₁] at h
      rw [← Except.error.inj h]
      exact hbody y hs₁
    | ok s₁ =>
      rw [hs₁] at h
      exact exitIfKilled_error h

theorem load_error {va : Word} {x : Halt} (h : load p va s = .error x) : x ∉ holePanics := by
  unfold load at h
  split at h
  · cases h
  · cases hs₁ : cowHandler p va s with
    | error y =>
      rw [hs₁] at h
      rw [← Except.error.inj h]
      exact cowHandler_error hs₁
    | ok s₁ =>
      rw [hs₁] at h
      exact exitIfKilled_error h

theorem store_error {va : Word} {b : Byte} {x : Halt} (h : store p va b s = .error x) : x ∉ holePanics := by
  simp only [store] at h
  split at h
  · cases h
  · cases hs₁ : cowHandler p va s with
    | error y =>
      rw [hs₁] at h
      rw [← Except.error.inj h]
      exact cowHandler_error hs₁
    | ok s₁ =>
      rw [hs₁] at h
      simp only [Except.bind] at h
      split_ifs at h
      · exact exit_error h
      · split at h <;> cases h

/-- `fork` does not panic: the parent has all its pages. -/
theorem Inv.fork_ne_error (h : Inv L lost false leak s use) (hfull : Full s) (hp : Live s p) (x : Halt) :
    fork L cowuvm p s ≠ .error x := by
  intro hx
  have hfollow : Follows L lost false leak s use ∅ ∅ False _ _ := h.fork_follows copySpec_cowuvm hp
  rw [hx] at hfollow
  obtain hfalse | ⟨y, hy⟩ := hfollow
  · exact hfalse
  unfold Private.fork at hy
  split at hy
  · cases hy
  · simp only at hy
    split_ifs at hy with hmiss
    obtain ⟨v, hv, hnone⟩ := hmiss
    rw [abs_page h hp, view_eq_none_iff] at hnone
    exact h.entry_ne_none hfull hp hv hnone

theorem Inv.growproc_ne_error (h : Inv L lost eager leak s use) (hp : Live s p) (x : Halt) :
    growproc L p n s ≠ .error x := by
  intro hx
  have hfollow : Follows L lost eager leak s use (pagesOf p) ∅ False (growproc L p n s) _ :=
    h.growproc_follows hp
  rw [hx] at hfollow
  obtain hfalse | ⟨y, hy⟩ := hfollow
  · exact hfalse
  · cases hy

theorem Inv.wait_error (h : Inv L lost eager leak s use) {x : Halt} (hx : wait L p s = .error x) :
    x ∉ holePanics := by
  have hfollow : Follows L lost eager leak s use ∅ ∅ False (wait L p s) _ := h.wait_follows
  rw [hx] at hfollow
  obtain hfalse | ⟨y, hy⟩ := hfollow
  · exact hfalse.elim
  have hnone : ((List.finRange NPROC).find? fun i =>
      (s.procs i).parent = some p ∧ (s.procs i).state = .zombie) = none := by
    cases hfind : (List.finRange NPROC).find? fun i =>
        (s.procs i).parent = some p ∧ (s.procs i).state = .zombie with
    | none => rfl
    | some i =>
      unfold Private.wait at hy
      rw [show ((List.finRange NPROC).find? fun i => ((abs s).procs i).parent = some p ∧
        ((abs s).procs i).state = .zombie) = some i from hfind] at hy
      cases hy
  unfold wait at hx
  rw [hnone] at hx
  simp only at hx
  split_ifs at hx
  rw [← Except.error.inj hx]
  decide

/-- No event panics because of a hole. -/
theorem Inv.step_error (h : Inv L lost false leak s use) (hfull : Full s) {e : Event} (hfit : e.Fits)
    {x : Halt} (hx : step L cowuvm s e = .error x) : x ∉ holePanics := by
  cases e with
  | exec p file argv =>
    simp only [step] at hx
    split_ifs at hx with hrun
    · rw [← Except.error.inj hx]
      decide
    · rw [not_or, not_not, not_not] at hrun
      have hp : Live s p := live_of_runnable hrun.1
      refine syscall_error (fun y hy => ?_) hx
      obtain ⟨e, he, hload⟩ | hok | ⟨_, _, hok, -⟩ | ⟨_, _, _, _, _, _, _, -, -, ⟨hok, -⟩ | ⟨_, hok, -⟩⟩ :=
        h.exec_cases hp hrun.2 hfit
      · rw [← Except.error.inj (he.symm.trans hy)]
        exact hload.notMem
      all_goals
        rw [hok] at hy
        cases hy
  | mem e =>
    have hstep : memStep L cowuvm s e = .error x := hx
    unfold memStep at hstep
    split_ifs at hstep with hrun
    · rw [← Except.error.inj hstep]
      decide
    have hp : Live s e.proc := live_of_runnable (not_not.1 hrun)
    cases e with
    | load p va => exact load_error hstep
    | store p va b => exact store_error hstep
    | fork p => exact syscall_error (fun y hy => absurd hy (h.fork_ne_error hfull hp y)) hstep
    | sbrk p n => exact syscall_error (fun y hy => absurd hy (h.growproc_ne_error hp y)) hstep
    | exit p => exact exit_error hstep
    | wait p => exact syscall_error (fun y hy => h.wait_error hy) hstep
    | interrupt p => exact exitIfKilled_error hstep

/-! ## Runs -/

/-- After every run without an `sbrk` of minus the size, without a failure of `kalloc` inside
`cowHandler` and without a segment that wraps around, every process has exactly the pages below its
size, and no event panics because of a page that is missing or in the way. -/
theorem exactPages_of_run {ram : Page → PageData} {init : List Byte} {es : List Event} {s₀ : Sys}
    (hboot : boot L ram init = .ok s₀)
    (hes : Trace.Along (next L) (fun s e => ¬ e.Fails s ∧ e.Fits ∧ ¬ e.Empties s) s₀ es)
    (hrun : Trace.run (next L) s₀ es = some s) :
    ExactPages s ∧ ∀ e : Event, e.Fits → ∀ x ∈ holePanics, step L cowuvm s e ≠ .error x := by
  obtain ⟨use, f₀, hb⟩ := boot_inv hboot
  have hfull₀ : Full s₀ := by
    intro i v hi hv
    obtain rfl := hb.live_iff.1 hi
    rw [show (s₀.procs initSlot).sz = 4096#32 by rw [hb.first], show pagesBelow 4096#32 = 1 by decide,
      Nat.lt_one_iff] at hv
    have hv0 : v = 0#20 := BitVec.eq_of_toNat_eq hv
    obtain ⟨f, hf, -⟩ := hb.page
    apply hasPage_of_ne use
    rw [hv0, hf]
    simp
  obtain ⟨⟨leak, use, h⟩, hfull⟩ := Trace.run_invariant
    (I := fun s => (∃ leak use, Inv L 0#32 false leak s use) ∧ Full s)
    (by
      rintro s e s' ⟨⟨leak, use, h⟩, hfull⟩ ⟨hfails, hfit, hne⟩ hs'
      obtain ⟨leak', use', hinv, -⟩ := h.next hfails hfit hs'
      exact ⟨⟨leak', use', hinv⟩, h.full_next hfull hfails hfit hne hs'⟩)
    ⟨⟨{f₀}, use, hb.inv.of_eager false⟩, hfull₀⟩ hes hrun
  exact ⟨h.exactPages hfull, fun e hfit x hx hstep => h.step_error hfull hfit hstep hx⟩

/-- The first process forks and writes to the page that it shares with its child. -/
theorem exactPages_of_run_fork_store : ∃ s₀ s,
    boot smallLayout blankRam [] = .ok s₀ ∧
    Trace.run (next smallLayout) s₀ [.mem (.fork initSlot), .mem (.store initSlot 0#32 7#8)] = some s ∧
    ExactPages s ∧
      ∀ e : Event, e.Fits → ∀ x ∈ holePanics, step smallLayout cowuvm s e ≠ .error x := by
  obtain ⟨s₀, s₁, s, hboot, hn₁, hn₂, hfails⟩ := exists_fork_store
  have hrun : Trace.run (next smallLayout) s₀
      [.mem (.fork initSlot), .mem (.store initSlot 0#32 7#8)] = some s := by
    rw [Trace.run_cons, hn₁, Option.bind_some, Trace.run_cons, hn₂, Option.bind_some, Trace.run_nil]
  refine ⟨s₀, s, hboot, hrun, exactPages_of_run hboot ?_ hrun⟩
  exact Trace.along_cons_of_eq ⟨id, trivial, id⟩ hn₁
    (Trace.along_cons_of_eq ⟨hfails, trivial, id⟩ hn₂ trivial)

/-- `fork` of a process with a hole panics, if it gets that far. -/
theorem Owned.fork_panics (h : Owned L lost s.mem use) (hp : Live s p) (hslot : ¬ ∀ i, Live s i)
    (ht : use t = .table (s.procs p).pgdir 0#10) (hsz : (s.procs p).sz ≤ USERTOP)
    (hroom : 14 ≤ freeCount use) (hv : v.toNat < pagesBelow (s.procs p).sz)
    (hnone : userTable s.mem use ((s.procs p).pgdir, v) = none) :
    fork L cowuvm p s = .error (.panic "cowuvm: page not present") := by
  obtain ⟨np, hfind⟩ := exists_find_unused hslot
  obtain ⟨k, m, hk, hkf, h₁, hT₁, -, -, -⟩ := h.kalloc_eq_some fun hz => by
    have := h.freeCount_eq_zero hz
    omega
  have hcount := freeCount_update (x := .kern) hkf (by simp)
  have htk : t ≠ k := by
    rintro rfl
    simp [hkf] at ht
  rw [fork_eq hfind hp hk]
  obtain ⟨herr, -⟩ | ⟨d, m', use', -, hfork, -⟩ | ⟨m', use', -, hleak⟩ :=
    h₁.cowuvm_cases (p := (s.procs p).pgdir) (by rw [Function.update_of_ne htk, ht]) hsz
  · rw [herr]
    rfl
  · refine absurd (view_eq_none_iff.2 ?_) (hfork.full v hv)
    rw [hT₁, hnone]
  · have hfew : freeCount (Function.update use k .kern) ≤ 12 := hleak.few
    omega

/-- The first process gives back all its memory, and its next `fork` panics. -/
theorem not_exactPages_emptied : ∃ s₀ s,
    boot smallLayout blankRam [] = .ok s₀ ∧
    Trace.Along (next smallLayout) (fun s e => ¬ e.Fails s ∧ e.Fits) s₀
      [.mem (.sbrk initSlot 0xFFFFF000#32)] ∧
    Trace.run (next smallLayout) s₀ [.mem (.sbrk initSlot 0xFFFFF000#32)] = some s ∧
    ¬ ExactPages s ∧
    step smallLayout cowuvm s (.mem (.fork initSlot)) = .error (.panic "cowuvm: page not present") := by
  obtain ⟨s₀, use, f₀, hboot, hb, -⟩ := exists_boot_running
  have h := hb.inv.of_eager false
  have hroom := hb.room
  rw [show smallLayout.kend.toNat = 300 by decide] at hroom
  have hinit : Live s₀ initSlot := hb.live_iff.2 rfl
  have hsz : (s₀.procs initSlot).sz = 4096#32 := by rw [hb.first]
  have hstate : (s₀.procs initSlot).state = .runnable := by rw [hb.first]
  have hkilled : (s₀.procs initSlot).killed = false := by rw [hb.first]
  obtain ⟨t, ht⟩ := h.exists_table hinit
  obtain ⟨m', use', hrun, h', honly, hnone, htags, -⟩ := h.owned.deallocuvm_eq_ok ht
    (show 0#32 < (s₀.procs initSlot).sz by rw [hsz]; decide) (h.size initSlot hinit)
  have hgrow : growproc smallLayout initSlot 0xFFFFF000#32 s₀ = .ok { s₀ with mem := m' } := by
    unfold growproc
    simp only [hsz]
    rw [if_neg (by decide), if_pos (by decide), show 4096#32 + 0xFFFFF000#32 = 0#32 by decide, ← hsz, hrun]
    rfl
  have hnext : next smallLayout s₀ (.mem (.sbrk initSlot 0xFFFFF000#32)) = some { s₀ with mem := m' } := by
    rw [next_eq_some_iff]
    show memStep _ cowuvm s₀ (.sbrk initSlot 0xFFFFF000#32) = _
    unfold memStep
    rw [if_neg (by rw [show (MemEvent.sbrk initSlot 0xFFFFF000#32).proc = initSlot from rfl, hstate]; simp)]
    exact syscall_eq_ok hkilled hgrow hkilled
  have hd : use' (s₀.procs initSlot).pgdir = .dir :=
    (honly.keeps.eq_iff (by simp) (by simp)).2 (h.dir hinit)
  have hempty : userTable m' use' ((s₀.procs initSlot).pgdir, 0#20) = none :=
    hnone _ (mem_span.2 ⟨by decide, by rw [hsz]; decide⟩)
  refine ⟨s₀, { s₀ with mem := m' }, hboot, Trace.along_cons_of_eq ⟨id, trivial⟩ hnext trivial, ?_, ?_, ?_⟩
  · exact Trace.run_singleton hnext
  · intro hx
    have hpage := hx.below initSlot 0#20 hinit (by rw [hsz]; decide)
    exact (hasPage_iff hd).1 hpage hempty
  · have hfew : freeCount use ≤ freeCount use' := Set.ncard_le_ncard (fun g hg => by
      cases htags g with
      | inl hx => exact hx.trans hg
      | inr hx => exact hx.2) (Set.toFinite _)
    have hslot : ¬ ∀ i, Live { s₀ with mem := m' } i := fun hall =>
      absurd (hb.live_iff.1 (hall slotA)) (by decide)
    have ht' : use' t = .table (s₀.procs initSlot).pgdir 0#10 :=
      (honly.keeps.eq_iff (by simp) (by simp)).2 ht
    have hfork := Owned.fork_panics (s := { s₀ with mem := m' }) h' hinit hslot ht' (h.size initSlot hinit)
      (by omega) (by rw [hsz]; decide) hempty
    show memStep _ cowuvm { s₀ with mem := m' } (.fork initSlot) = _
    unfold memStep
    rw [if_neg (by
      rw [show ({ s₀ with mem := m' } : Sys).procs (MemEvent.fork initSlot).proc = s₀.procs initSlot from rfl,
        hstate]
      simp)]
    show syscall initSlot (fork _ cowuvm initSlot) { s₀ with mem := m' } = _
    rw [syscall, show (({ s₀ with mem := m' } : Sys).procs initSlot).killed = false from hkilled,
      if_neg Bool.false_ne_true, hfork]
    rfl

end SystemsProjects.Cow
