import SystemsProjects.Cow.ThreadSteps

/-!
# Runs on several CPUs

While no step breaks the conditions of `SmpEvent.Apart`, the handlers and the freeing of address spaces
do not disturb one another (`faultsApart_of_run`).  Two handlers that both find the count at two lose the
frame (`not_faultsApart_lost`).
-/

namespace SystemsProjects.Cow

open Sharing

variable {L : Layout} {lost : Word} {P : Procs} {F : Set Page} {s s' : Smp} {sys sys' : Sys} {use use' : Page → Use}
  {a : Slot → Page → Option PageData} {f g t v y : Page} {p q i : Slot} {x : Thread} {e : SmpEvent}

/-! ## One step -/

/-- The invariant of a state; only processes in use have a thread. -/
structure SmpOk (L : Layout) (lost : Word) (P : Procs) (F : Set Page) (s : Smp) (use : Page → Use)
    (a : Slot → Page → Option PageData) : Prop where
  live : ∀ i, Live s.sys i ↔ P.live i
  pgdir : ∀ i, (s.sys.procs i).pgdir = P.pgdir i
  idle : ∀ i, ¬ P.live i → s.thread i = .user
  ok : ThreadsOk L lost P F s.sys.mem s.thread use a

theorem SmpOk.goOn (h : SmpOk L lost P F s use a) (hp : P.live p) (hlive : ∀ i, Live sys i ↔ P.live i)
    (hpgdir : ∀ i, (sys.procs i).pgdir = P.pgdir i)
    (hok : ThreadsOk L lost P F sys.mem (Function.update s.thread p x) use' a) :
    SmpOk L lost P F (s.goOn p x sys) use' a := by
  refine ⟨hlive, hpgdir, fun i hi => ?_, hok⟩
  show Function.update s.thread p x i = _
  rw [Function.update_of_ne, h.idle i hi]
  rintro rfl
  exact hi hp

/-- The return from a handler. -/
theorem SmpOk.handled (h : SmpOk L lost P F s use a) (hp : P.live p) (hlive : ∀ i, Live sys i ↔ P.live i)
    (hpgdir : ∀ i, (sys.procs i).pgdir = P.pgdir i)
    (hok : ThreadsOk L lost P F sys.mem (Function.update s.thread p .user) use' a)
    (hs' : s.handled p sys = .ok s') : SmpOk L lost P F s' use' a := by
  unfold Smp.handled exitIfKilled at hs'
  split_ifs at hs' with hkilled
  · cases hexit : exit p sys with
    | error x =>
      rw [hexit] at hs'
      cases hs'
    | ok sys' =>
      rw [hexit] at hs'
      obtain rfl := Except.ok.inj hs'
      obtain ⟨hmem, -, hprocs⟩ := exit_fields hexit
      refine h.goOn hp (fun i => ?_) (fun i => by rw [(hprocs i).1.1, hpgdir]) (by rw [hmem]; exact hok)
      rw [← live_exit hexit ((hlive p).2 hp), hlive]
  · obtain rfl := Except.ok.inj hs'
    exact h.goOn hp hlive hpgdir hok

theorem SmpOk.killed (h : SmpOk L lost P F s use a) (hp : P.live p) (hx : s.thread p = .user) (pid : Word)
    (hs' : s.handled p (kill pid s.sys) = .ok s') : SmpOk L lost P F s' use a := by
  refine h.handled hp (fun i => by rw [live_kill, h.live]) (fun i => by rw [(kill_procs pid i).1.1, h.pgdir]) ?_ hs'
  rw [(kill_rest pid).1, ← hx, Function.update_eq_self]
  exact h.ok

/-- `cowHandler` up to `refCount`. -/
theorem SmpOk.enterHandler (h : SmpOk L lost P F s use a) (hp : P.live p) (hx : s.thread p = .user) {va : Word}
    (haccess : access s.sys.mem (P.pgdir p) va true = none) (hs' : enterHandler p va s = .ok s') :
    SmpOk L lost P F s' use a := by
  have hd : use (P.pgdir p) = .dir := (h.ok.dir_iff hp).2 (by rw [hx]; trivial)
  unfold Cow.enterHandler firstDeref at hs'
  simp only [h.pgdir] at hs'
  cases h.ok.frames.pde _ (pdx (pageOf va)) hd with
  | inl h0 =>
    have hwalk : walkpgdir (P.pgdir p) (pageOf va) false s.sys.mem = (none, s.sys.mem) := by
      unfold walkpgdir
      simp [h0]
    rw [hwalk] at hs'
    simp only at hs'
    split at hs'
    · exact h.killed hp hx _ hs'
    · cases hs'
  | inr h1 =>
    obtain ⟨t, ht⟩ := h1
    rw [h.ok.frames.walkpgdir_eq ht] at hs'
    simp only at hs'
    split_ifs at hs' with hbad
    · exact h.killed hp hx _ hs'
    · obtain rfl := Except.ok.inj hs'
      rw [not_or, not_or, Bool.not_eq_false, Bool.not_eq_false] at hbad
      have hdec := decode_eq_some hbad.1 hbad.2.1
      have hT := h.ok.frames.entry_eq ht
      have hvis : visible P s.sys.mem s.thread use (P.pgdir p, pageOf va) =
          some (pageOf (s.sys.mem.page t (ptx (pageOf va))), has (s.sys.mem.page t (ptx (pageOf va))) PTE_W) := by
        rw [visible_own hp, hx, if_neg (by simp [Thread.pending]), hT, hdec]
      -- the store has faulted, and so the entry is read-only
      have hW : has (s.sys.mem.page t (ptx (pageOf va))) PTE_W = false := by
        rw [h.ok.frames.access_eq hd, hT, hdec] at haccess
        simpa using haccess
      rw [hW] at hdec
      refine h.goOn hp h.live h.pgdir (h.ok.move hp (by rw [hx]; rfl) (by rw [hx]; rfl)
        ⟨ht, rfl, (h.ok.counts.entry _ _ _ _ hvis).2.1, rfl, hdec⟩ (fun _ hg => hg.elim) (fun _ => by rw [hx]; trivial)
        fun g hg => by rw [hx] at hg; exact hg.elim)

theorem usertop_le_iff : USERTOP ≤ paddr v ↔ ¬ IsUser v := by
  rw [BitVec.le_def, toNat_USERTOP, toNat_paddr]
  unfold IsUser
  omega

/-- `deallocuvm` at one page. -/
theorem SmpOk.unmapping (h : SmpOk L lost P F s use a) (hp : P.live p) (hx : s.thread p = .unmapping v)
    (hcopied : ∀ pte, pteOf s.sys.mem (P.pgdir p) v = some pte →
      (s.sys.mem.refCnt (pageOf pte)).toNat ≤ 1 → ¬ BeingCopied s (pageOf pte))
    (hs' : Cow.goOn L p s = .ok s') : ∃ use', SmpOk L lost P F s' use' a := by
  unfold Cow.goOn at hs'
  simp only [hx, h.pgdir] at hs'
  by_cases hv : IsUser v
  · rw [if_neg (by rw [usertop_le_iff]; exact not_not.2 hv)] at hs'
    obtain ⟨t, ht, hwalk, hT⟩ := h.ok.walkpgdir_eq hp (by rw [hx]; trivial) hv
    rw [hwalk] at hs'
    simp only at hs'
    split_ifs at hs' with hP hzero
    · have hpte := h.ok.frames.pteOf_eq_some ht
      have hU := h.ok.present _ v _ (h.ok.frames.table t _ _ ht).1 hv hpte hP
      rw [decode_eq_some hP hU] at hT
      obtain ⟨m', use', hm', hok⟩ := h.ok.unmapping_kfree hp hx ht (frame_of_eq_some hT) fun hone q c mem hq hc =>
        hcopied _ hpte hone ⟨q, c, mem, hq, hc⟩
      rw [hm'] at hs'
      obtain rfl := Except.ok.inj hs'
      exact ⟨use', h.goOn hp h.live h.pgdir hok⟩
    · obtain rfl := Except.ok.inj hs'
      rw [decode_eq_none (Or.inl (by simpa using hP))] at hT
      exact ⟨use, h.goOn hp h.live h.pgdir (h.ok.unmapping_next hp hx hv hT)⟩
  · rw [if_pos (usertop_le_iff.2 hv)] at hs'
    obtain rfl := Except.ok.inj hs'
    exact ⟨_, h.goOn hp h.live h.pgdir (h.ok.retire hp hx hv)⟩

/-- A step of the kernel. -/
theorem SmpOk.kernel (h : SmpOk L lost P F s use a) (he : (SmpEvent.kernel p).Apart s)
    (hs' : Cow.goOn L p s = .ok s') : ∃ use', SmpOk L lost P F s' use' a := by
  have hp : P.live p := by
    by_contra hp
    unfold Cow.goOn at hs'
    simp only [h.idle p hp] at hs'
    cases hs'
  have hok := h.ok.threads p hp
  unfold SmpEvent.Apart at he
  cases hx : s.thread p with
  | unmapping v =>
    simp only [hx, h.pgdir] at he
    exact h.unmapping hp hx he hs'
  | counting c =>
    unfold Cow.goOn at hs'
    simp only [hx] at hs'
    obtain rfl := Except.ok.inj hs'
    exact ⟨use, h.goOn hp h.live h.pgdir (h.ok.counting hp hx)⟩
  | granting c =>
    unfold Cow.goOn at hs'
    simp only [hx] at hs'
    refine ⟨use, h.handled hp ?_ ?_ ?_ hs'⟩
    · exact h.live
    · exact h.pgdir
    · exact h.ok.granting hp hx
  | allocating c =>
    simp only [hx] at he
    obtain ⟨g, m', hk, hok'⟩ := h.ok.allocating hp hx he
    unfold Cow.goOn at hs'
    simp only [hx, hk] at hs'
    obtain rfl := Except.ok.inj hs'
    exact ⟨_, h.goOn hp h.live h.pgdir hok'⟩
  | dropping c mem =>
    simp only [hx] at he
    unfold Cow.goOn at hs'
    simp only [hx] at hs'
    obtain rfl := Except.ok.inj hs'
    exact ⟨use, h.goOn hp h.live h.pgdir (h.ok.dropping hp hx he)⟩
  | copying c mem =>
    rw [hx] at hok
    obtain ⟨-, ⟨g, rfl, -⟩, -⟩ := hok
    unfold Cow.goOn at hs'
    simp only [hx, Option.some_or] at hs'
    obtain rfl := Except.ok.inj hs'
    exact ⟨use, h.goOn hp h.live h.pgdir (h.ok.copying hp hx)⟩
  | remapping c mem =>
    rw [hx] at hok
    obtain ⟨-, g, rfl, -⟩ := hok
    have hword : decode (paddr g ||| pteFlags c.pte ||| PTE_W ||| PTE_P ||| PTE_U) = some (g, true) := by
      rw [decode_eq_some (by simp) (by simp)]
      simp
    unfold Cow.goOn at hs'
    simp only [hx, Option.getD_some] at hs'
    refine ⟨Function.update use g .user, h.handled hp ?_ ?_ ?_ hs'⟩
    · exact h.live
    · exact h.pgdir
    · exact h.ok.remapping hp hx hword
  | clearing b t i =>
    unfold Cow.goOn at hs'
    simp only [hx] at hs'
    obtain rfl := Except.ok.inj hs'
    exact ⟨use, h.goOn hp h.live h.pgdir (h.ok.clearing hp hx)⟩
  | freeingTables i =>
    unfold Cow.goOn at hs'
    simp only [hx, h.pgdir] at hs'
    by_cases hi : 1024 ≤ i
    · rw [if_pos hi] at hs'
      obtain rfl := Except.ok.inj hs'
      exact ⟨use, h.goOn hp h.live h.pgdir (h.ok.freeingTables_last hp hx)⟩
    · rw [if_neg hi] at hs'
      obtain ⟨hP, hok'⟩ | ⟨hP, m', use', hm', hok'⟩ := h.ok.freeingTables hp hx (by omega)
      · rw [hP, if_neg Bool.false_ne_true] at hs'
        obtain rfl := Except.ok.inj hs'
        exact ⟨use, h.goOn hp h.live h.pgdir hok'⟩
      · rw [hP, if_pos rfl, hm'] at hs'
        obtain rfl := Except.ok.inj hs'
        exact ⟨use', h.goOn hp h.live h.pgdir hok'⟩
  | freeingDir =>
    obtain ⟨m', use', hm', hok'⟩ := h.ok.freeingDir hp hx
    unfold Cow.goOn at hs'
    simp only [hx, h.pgdir, hm'] at hs'
    obtain rfl := Except.ok.inj hs'
    exact ⟨use', h.goOn hp h.live h.pgdir hok'⟩
  | user =>
    unfold Cow.goOn at hs'
    simp only [hx] at hs'
    cases hs'
  | gone =>
    unfold Cow.goOn at hs'
    simp only [hx] at hs'
    cases hs'

theorem smpNext_eq_some_iff : smpNext L s e = some s' ↔ smpStep L s e = .ok s' := by
  unfold smpNext
  cases smpStep L s e with
  | error x => simp [Except.toOption]
  | ok x => simp [Except.toOption]

theorem storesTo_cons (e : SmpEvent) (es : List SmpEvent) (y : PageData) :
    storesTo p v (e :: es) y = storesTo p v es (storesTo p v [e] y) := by
  cases e <;> rfl

theorem SmpOk.live_of_runnable (h : SmpOk L lost P F s use a) {st : ProcState} (hst : st ≠ .unused)
    (hp : (s.sys.procs p).state = st) : P.live p := by
  rw [← h.live]
  unfold Live
  rwa [hp]

/-- A store of user code. -/
theorem SmpOk.store (h : SmpOk L lost P F s use a) (hp : P.live p) (hx : s.thread p = .user) {va : Word}
    (haccess : access s.sys.mem (P.pgdir p) va true = some f) (hcopied : ¬ BeingCopied s f) (b : Byte) :
    ThreadsOk L lost P F (s.sys.mem.setPage f (setByte (s.sys.mem.page f) (offsetOf va) b)) s.thread use
      fun q u => (a q u).map (storesTo q u [.store p va b]) := by
  have hd : use (P.pgdir p) = .dir := (h.ok.dir_iff hp).2 (by rw [hx]; trivial)
  rw [h.ok.frames.access_eq hd] at haccess
  obtain ⟨⟨g, w⟩, hT, hgw⟩ := Option.bind_eq_some_iff.1 haccess
  obtain ⟨rfl, rfl⟩ : w = true ∧ g = f := by simpa using hgw
  have hstore := h.ok.store hp hx hT (fun q c mem hq hc => hcopied ⟨q, c, mem, hq, hc⟩) (offsetOf va) b
  convert hstore using 1
  funext q u
  by_cases hq : q = p
  · subst hq
    rw [Function.update_self]
    by_cases hu : u = pageOf va
    · subst hu
      simp [storesTo]
    · rw [Function.update_of_ne hu]
      simp [storesTo, Ne.symm hu]
  · rw [Function.update_of_ne hq]
    simp [storesTo, Ne.symm hq]

/-- One event: each process sees its own stores only. -/
theorem SmpOk.next (h : SmpOk L lost P F s use a) (he : e.Apart s) (hs' : smpNext L s e = some s') :
    ∃ use', SmpOk L lost P F s' use' fun p v => (a p v).map (storesTo p v [e]) := by
  rw [smpNext_eq_some_iff] at hs'
  have hsame : ∀ {es : List SmpEvent}, (∀ p v, storesTo p v es = id) →
      (fun p v => (a p v).map (storesTo p v es)) = a := by
    intro es hes
    funext p v
    rw [hes, Option.map_id, id]
  cases e with
  | store p va b =>
    simp only [smpStep] at hs'
    split_ifs at hs' with hguard
    rw [not_or, not_not, not_not] at hguard
    have hp := h.live_of_runnable (by simp) hguard.1
    cases haccess : access s.sys.mem (s.sys.procs p).pgdir va true with
    | none =>
      rw [haccess] at hs'
      cases hs'
    | some f =>
      rw [haccess] at hs'
      obtain rfl := Except.ok.inj hs'
      refine ⟨use, h.live, h.pgdir, h.idle, h.store hp hguard.2 ?_ (he f haccess) b⟩
      rw [← h.pgdir, haccess]
  | fault p va =>
    rw [hsame fun _ _ => rfl]
    simp only [smpStep] at hs'
    split_ifs at hs' with hguard haccess
    rw [not_or, not_not, not_not] at hguard
    rw [not_not, h.pgdir] at haccess
    exact ⟨use, h.enterHandler (h.live_of_runnable (by simp) hguard.1) hguard.2 haccess hs'⟩
  | exit p =>
    rw [hsame fun _ _ => rfl]
    simp only [smpStep] at hs'
    split_ifs at hs' with hguard
    rw [not_or, not_not, not_not] at hguard
    have hp := h.live_of_runnable (by simp) hguard.1
    cases hexit : Cow.exit p s.sys with
    | error x =>
      rw [hexit] at hs'
      cases hs'
    | ok sys' =>
      rw [hexit] at hs'
      obtain rfl := Except.ok.inj hs'
      obtain ⟨hmem, -, hprocs⟩ := exit_fields hexit
      refine ⟨use, h.goOn hp (fun i => ?_) (fun i => by rw [(hprocs i).1.1, h.pgdir]) ?_⟩
      · rw [← live_exit hexit ((h.live p).2 hp), h.live]
      · rw [hmem, ← hguard.2, Function.update_eq_self]
        exact h.ok
  | freevm p =>
    rw [hsame fun _ _ => rfl]
    simp only [smpStep] at hs'
    split_ifs at hs' with hguard hzero
    rw [not_or, not_not, not_not] at hguard
    have hp := h.live_of_runnable (by simp) hguard.1
    obtain rfl := Except.ok.inj hs'
    refine ⟨use, h.goOn hp h.live h.pgdir (h.ok.move hp (by rw [hguard.2]; rfl) (by rw [hguard.2]; rfl)
      ⟨by decide, fun v hv => absurd hv (Nat.not_lt_zero _)⟩ (fun _ hg => hg.elim) (fun hr => hr.elim)
      fun g hg => by rw [hguard.2] at hg; exact hg.elim)⟩
  | kernel p =>
    rw [hsame fun _ _ => rfl]
    exact h.kernel he hs'

/-! ## Runs -/

theorem SmpOk.run {es : List SmpEvent} (h : SmpOk L lost P F s use a)
    (hes : Trace.Along (smpNext L) (fun s e => e.Apart s) s es) (hrun : Trace.run (smpNext L) s es = some s') :
    ∃ use', SmpOk L lost P F s' use' fun p v => (a p v).map (storesTo p v es) := by
  induction es generalizing s use a with
  | nil =>
    obtain rfl := Option.some.inj hrun
    refine ⟨use, ?_⟩
    convert h using 1
    funext p v
    exact congrFun Option.map_id (a p v)
  | cons e es ih =>
    obtain ⟨s₁, hs₁, hrun⟩ := (Trace.run_cons_eq_some _).1 hrun
    obtain ⟨use₁, h₁⟩ := h.next hes.1 hs₁
    obtain ⟨use', h'⟩ := ih h₁ (hes.2 s₁ hs₁) hrun
    refine ⟨use', ?_⟩
    convert h' using 1
    funext p v
    rw [Option.map_map]
    congr 1
    funext y
    exact storesTo_cons e es y

theorem Thread.Settled.pending (h : x.Settled) : x.pending = none := by
  cases x <;> first | rfl | exact h.elim

theorem visible_of_settled {m : Mem} {thread : Slot → Thread} (h : ∀ p, (thread p).Settled) :
    visible P m thread use = userTable m use := by
  funext k
  unfold visible
  rw [if_neg]
  rintro ⟨q, -, -, hq⟩
  rw [(h q).pending] at hq
  cases hq

/-- The processes of a state. -/
def Inv.procs {eager : Bool} {leak : Set Page} (h : Inv L lost eager leak sys use) : Procs :=
  { live := Live sys, pgdir := fun i => (sys.procs i).pgdir, kpgdir := sys.kpgdir, pgdir_inj := h.pgdir_inj
    pgdir_ne := h.pgdir_ne }

theorem Inv.smpOk {eager : Bool} {leak : Set Page} (h : Inv L lost eager leak sys use)
    (hF : ∀ f ∈ F, use f = .user) :
    SmpOk L lost h.procs F (Smp.start sys) use fun i v => view sys.mem use ((sys.procs i).pgdir, v) := by
  refine ⟨fun _ => Iff.rfl, fun _ => rfl, fun _ _ => rfl, h.owned.frames, ?_, h.owned.present, fun d => ?_,
    fun p hp _ => h.exists_table hp, h.kernel, fun _ _ => trivial, fun _ _ _ _ _ _ hg => hg.elim,
    fun _ _ _ _ _ => rfl, fun g hg => Or.inl (hF g hg)⟩
  · have hsettled : ∀ p, ((Smp.start sys).thread p).Settled := fun _ => trivial
    rw [visible_of_settled hsettled]
    exact h.owned.counts
  · rw [h.dirs d]
    refine or_congr_right (exists_congr fun p => and_congr_right fun _ => ?_)
    exact (and_iff_right trivial).symm

/-- The entries of the address spaces that are there. -/
theorem SmpOk.userPtes_eq (h : SmpOk L lost P F s use a) : s.userPtes = userTable s.sys.mem use := by
  funext k
  obtain ⟨d, v⟩ := k
  have hiff : (∃ p, Live s.sys p ∧ (s.thread p).HasTables ∧ (s.sys.procs p).pgdir = d) ↔
      ∃ p, P.live p ∧ (s.thread p).HasTables ∧ P.pgdir p = d := by
    simp only [h.live, h.pgdir]
  unfold Smp.userPtes
  by_cases hd : ∃ p, P.live p ∧ (s.thread p).HasTables ∧ P.pgdir p = d
  · unfold userTable
    rw [if_pos (hiff.2 hd), if_pos ((h.ok.dirs d).2 (Or.inr hd))]
  · rw [if_neg (mt hiff.1 hd)]
    by_cases hk : d = P.kpgdir
    · rw [hk, h.ok.kernel]
    · unfold userTable
      rw [if_neg fun hx => ((h.ok.dirs d).1 hx).elim hk hd]

theorem Thread.Settled.not_allocated (h : x.Settled) : ¬ x.Allocated g := by
  cases x <;> first | exact id | exact h.elim

/-- What a process sees when user code runs. -/
theorem SmpOk.pageAt_eq (h : SmpOk L lost P F s use a) (hp : P.live p) (hx : s.thread p = .user) (v : Page) :
    pageAt s.sys.mem (s.sys.procs p).pgdir v = a p v := by
  have hd : use (P.pgdir p) = .dir := (h.ok.dir_iff hp).2 (by rw [hx]; trivial)
  rw [h.pgdir, ← view_eq_pageAt hd]
  exact h.ok.seen p v hp (by rw [hx]; trivial) (by rw [hx]; simp [Thread.pending])

/-- When no handler runs, a frame of the pool is free or has its count. -/
theorem SmpOk.counted (h : SmpOk L lost P F s use a) (hsettled : ∀ p, (s.thread p).Settled) (hf : f ∈ F) :
    OnFreeList s.sys f ∨ 1 ≤ refs s.userPtes f ∧ (s.sys.mem.refCnt f).toNat = refs s.userPtes f := by
  rw [h.userPtes_eq, ← visible_of_settled hsettled]
  obtain hu | hu | ⟨p, -, hp⟩ := h.ok.pool f hf
  · obtain ⟨k, hk⟩ := h.ok.counts.used f hu
    exact Or.inr ⟨refs_pos hk, (h.ok.toNat_refCnt hu).1⟩
  · obtain ⟨l, hchain, -, hmem, -⟩ := h.ok.frames.free
    exact Or.inl ⟨l, hchain, (hmem f).2 hu⟩
  · exact absurd hp (hsettled p).not_allocated

/-- From every state that the kernel can reach on one CPU, in every interleaving in which `kalloc` does
not fail, the count is still above one when a handler decrements it, and nobody stores to or frees a
frame that is being copied: when no handler runs, each process sees what it saw before its fault, and
the frames that were shared are free or have their counts. -/
theorem faultsApart_of_run {ram : Page → PageData} {init : List Byte} {es₀ : List Event} {s₀ : Sys}
    (hboot : boot L ram init = .ok s₀)
    (hes₀ : Trace.Along (next L) (fun s e => ¬ e.Fails s ∧ e.Fits) s₀ es₀)
    (hrun₀ : Trace.run (next L) s₀ es₀ = some sys) {es : List SmpEvent}
    (hes : Trace.Along (smpNext L) (fun s e => e.Apart s) (Smp.start sys) es)
    (hrun : Trace.run (smpNext L) (Smp.start sys) es = some s) (hsettled : ∀ p, (s.thread p).Settled) :
    FaultsApart L (Smp.start sys) es s := by
  obtain ⟨leak, use, hinv⟩ := exists_inv_of_run hboot hes₀ hrun₀
  have h := hinv.smpOk (F := {f | use f = .user}) fun f hf => hf
  constructor
  · rintro es₁ p va es₂ s₁ rfl hrun₁ hp
    obtain ⟨hes₁, hes₂⟩ := (Trace.along_append hrun₁).1 hes
    rw [Trace.run_append hrun₁] at hrun
    obtain ⟨use₁, h₁⟩ := h.run hes₁ hrun₁
    obtain ⟨use', h'⟩ := h₁.run hes₂ hrun
    -- the process runs user code at its fault
    obtain ⟨s₂, hs₂, -⟩ := (Trace.run_cons_eq_some _).1 hrun
    rw [smpNext_eq_some_iff] at hs₂
    simp only [smpStep] at hs₂
    split_ifs at hs₂ with hguard
    rw [not_or, not_not, not_not] at hguard
    have hlive := h₁.live_of_runnable (by simp) hguard.1
    rw [h'.pageAt_eq hlive hp, h₁.pageAt_eq hlive hguard.2]
    rfl
  · intro f hf
    obtain ⟨use', h'⟩ := h.run hes hrun
    refine h'.counted hsettled ?_
    obtain ⟨k, hk⟩ := refs_pos_iff.1 (show 0 < refs (Smp.start sys).userPtes f by omega)
    rw [h.userPtes_eq] at hk
    obtain ⟨b, hb⟩ := frame_eq_some_iff.1 hk
    exact (hinv.owned.counts.entry _ _ _ _ hb).2.2

/-! ## Two handlers that both find the count at two -/

/-- The memory when a handler that has allocated `g` is done. -/
def copied (c : Fault) (g : Page) (m : Mem) : Mem :=
  ((decPageRef c.pa m).setPage g ((decPageRef c.pa m).page c.pa)).write c.t c.i
    (paddr g ||| pteFlags c.pte ||| PTE_W ||| PTE_P ||| PTE_U)

/-- The events of a handler from `kalloc` on. -/
def copyEvents (p : Slot) : List SmpEvent := [.kernel p, .kernel p, .kernel p, .kernel p]

theorem copyEvents_steps {c : Fault} {m : Mem} (hx : s.thread p = .allocating c)
    (hk : kalloc s.sys.mem = (some g, m)) (hkilled : (s.sys.procs p).killed = false) :
    smpNext L s (.kernel p) = some (s.goOn p (.dropping c (some g)) { s.sys with mem := m }) ∧
    smpNext L (s.goOn p (.dropping c (some g)) { s.sys with mem := m }) (.kernel p) =
      some (s.goOn p (.copying c (some g)) { s.sys with mem := decPageRef c.pa m }) ∧
    smpNext L (s.goOn p (.copying c (some g)) { s.sys with mem := decPageRef c.pa m }) (.kernel p) =
      some (s.goOn p (.remapping c (some g)) { s.sys with
        mem := (decPageRef c.pa m).setPage g ((decPageRef c.pa m).page c.pa) }) ∧
    smpNext L (s.goOn p (.remapping c (some g)) { s.sys with
        mem := (decPageRef c.pa m).setPage g ((decPageRef c.pa m).page c.pa) }) (.kernel p) =
      some (s.goOn p .user { s.sys with mem := copied c g m }) := by
  simp only [smpNext_eq_some_iff]
  refine ⟨?_, ?_, ?_, ?_⟩
  · simp only [smpStep, Cow.goOn, hx, hk]
  · simp only [smpStep, Cow.goOn, Smp.goOn, Function.update_self, Function.update_idem]
  · simp only [smpStep, Cow.goOn, Smp.goOn, Function.update_self, Function.update_idem, Option.some_or]
  · simp only [smpStep, Cow.goOn, Smp.goOn, Smp.handled, exitIfKilled, hkilled, Function.update_self,
      Function.update_idem, Option.getD_some, Bool.false_eq_true, if_false, Except.map]
    rfl

theorem run_copyEvents {c : Fault} {m : Mem} (hx : s.thread p = .allocating c)
    (hk : kalloc s.sys.mem = (some g, m)) (hkilled : (s.sys.procs p).killed = false) :
    Trace.run (smpNext L) s (copyEvents p) =
      some (s.goOn p .user { s.sys with mem := copied c g m }) := by
  obtain ⟨h₁, h₂, h₃, h₄⟩ := copyEvents_steps (L := L) hx hk hkilled
  unfold copyEvents
  rw [Trace.run_cons, h₁, Option.bind_some, Trace.run_cons, h₂, Option.bind_some, Trace.run_cons, h₃,
    Option.bind_some, Trace.run_singleton h₄]

theorem along_copyEvents {c : Fault} {m : Mem} (hx : s.thread p = .allocating c)
    (hk : kalloc s.sys.mem = (some g, m)) (hkilled : (s.sys.procs p).killed = false)
    (hne : s.sys.mem.freelist ≠ 0#32) (hmany : 1 < refCount c.pa m) :
    Trace.Along (smpNext L) (fun s e => e.Apart s) s (copyEvents p) := by
  obtain ⟨h₁, h₂, h₃, h₄⟩ := copyEvents_steps (L := L) hx hk hkilled
  refine Trace.along_cons_of_eq ?_ h₁ (Trace.along_cons_of_eq ?_ h₂ (Trace.along_cons_of_eq ?_ h₃
    (Trace.along_cons_of_eq ?_ h₄ trivial)))
  · simp only [SmpEvent.Apart, hx]
    exact hne
  · simp only [SmpEvent.Apart, Smp.goOn, Function.update_self]
    exact hmany
  · simp only [SmpEvent.Apart, Smp.goOn, Function.update_self]
  · simp only [SmpEvent.Apart, Smp.goOn, Function.update_self]

/-- A handler that has given up its frame makes its copy and writes its entry. -/
theorem ThreadsOk.copied {m : Mem} {thread : Slot → Thread} {c : Fault} (hp : P.live p)
    (h : ThreadsOk L lost P F (decPageRef c.pa m) (Function.update thread p (.copying c (some g))) use a) :
    ThreadsOk L lost P F (copied c g m) (Function.update thread p .user) (Function.update use g .user) a ∧
      userTable (Cow.copied c g m) (Function.update use g .user) (P.pgdir p, pageOf c.va) = some (g, true) := by
  have hword : decode (paddr g ||| pteFlags c.pte ||| PTE_W ||| PTE_P ||| PTE_U) = some (g, true) := by
    rw [decode_eq_some (by simp) (by simp)]
    simp
  have h₁ := h.copying hp (c := c) (g := g) (Function.update_self _ _ _)
  rw [Function.update_idem] at h₁
  have hok := h₁.threads p hp
  rw [Function.update_self] at hok
  have h₂ := h₁.remapping hp (c := c) (g := g) (Function.update_self _ _ _) hword
  rw [Function.update_idem] at h₂
  refine ⟨h₂, ?_⟩
  obtain ⟨hc, g', hgg, hg, -⟩ := hok
  obtain rfl := Option.some.inj hgg
  have hgt : c.t ≠ g := hc.table_ne (by simp [hg, Use.Structural])
  unfold Cow.copied
  rw [h₂.frames.entry_eq (t := c.t) (by rw [Function.update_of_ne hgt]; exact hc.table), ← hc.index, Mem.write_page_self,
    Function.update_self, hword]

theorem kalloc_some {m m' : Mem} (h : kalloc m = (some g, m')) :
    m'.page = m.page ∧ ∀ y, y ≠ g → m'.refCnt y = m.refCnt y := by
  by_cases hzero : m.freelist = 0#32
  · rw [kalloc_of_eq_zero hzero] at h
    cases h
  · rw [kalloc, if_neg hzero] at h
    obtain ⟨hg, rfl⟩ := Prod.mk.inj h
    refine ⟨rfl, fun y hy => Function.update_of_ne ?_ _ _⟩
    rwa [Option.some.inj hg]

/-- A store to a read-only page enters the handler. -/
theorem SmpOk.fault (h : SmpOk L lost P F s use a) (hstate : (s.sys.procs p).state = .runnable)
    (hx : s.thread p = .user) {va : Word}
    (hT : userTable s.sys.mem use (P.pgdir p, pageOf va) = some (f, false)) :
    ∃ c : Fault, c.pa = f ∧ c.va = va ∧ smpNext L s (.fault p va) = some (s.goOn p (.counting c) s.sys) ∧
      SmpOk L lost P F (s.goOn p (.counting c) s.sys) use a := by
  have hp := h.live_of_runnable (by simp) hstate
  have hd : use (P.pgdir p) = .dir := (h.ok.dir_iff hp).2 (by rw [hx]; trivial)
  have hv : IsUser (pageOf va) := by
    have hvis : visible P s.sys.mem s.thread use (P.pgdir p, pageOf va) = some (f, false) := by
      rw [visible_own hp, hx, if_neg (by simp [Thread.pending]), hT]
    exact (h.ok.counts.entry _ _ _ _ hvis).2.1
  have haccess : access s.sys.mem (P.pgdir p) va true = none := by
    rw [h.ok.frames.access_eq hd, hT]
    rfl
  obtain ⟨t, ht, hwalk, hdec⟩ := h.ok.walkpgdir_eq hp (by rw [hx]; trivial) hv
  obtain ⟨hP, hU, he⟩ := decode_eq_some_iff.1 (hdec.symm.trans hT)
  have hva : ¬ USERTOP < va := by
    rw [BitVec.not_lt, BitVec.le_def, toNat_USERTOP]
    unfold IsUser at hv
    rw [toNat_pageOf] at hv
    omega
  have hrun : Cow.enterHandler p va s = .ok (s.goOn p (.counting
      { va := va, t := t, i := ptx (pageOf va), pte := s.sys.mem.page t (ptx (pageOf va)) }) s.sys) := by
    unfold Cow.enterHandler firstDeref
    simp only [h.pgdir, hwalk]
    rw [if_neg (by simp [hP, hU, hva])]
  refine ⟨{ va := va, t := t, i := ptx (pageOf va), pte := s.sys.mem.page t (ptx (pageOf va)) },
    (Prod.mk.inj he).1.symm, rfl, ?_, h.enterHandler hp hx haccess hrun⟩
  rw [smpNext_eq_some_iff]
  unfold smpStep
  have hguard : ¬ ((s.sys.procs p).state ≠ .runnable ∨ s.thread p ≠ .user) := by simp [hstate, hx]
  have haccess' : ¬ access s.sys.mem (s.sys.procs p).pgdir va true ≠ none := by rw [h.pgdir, haccess]; simp
  simp only [if_neg hguard, if_neg haccess']
  exact hrun

/-- The events of a handler up to `kalloc`. -/
def enterEvents (p : Slot) (va : Word) : List SmpEvent := [.fault p va, .kernel p]

/-- The handler finds the count above one. -/
theorem SmpOk.enterEvents (h : SmpOk L lost P F s use a) (va : Word)
    (hstate : (s.sys.procs p).state = .runnable) (hx : s.thread p = .user)
    (hT : userTable s.sys.mem use (P.pgdir p, pageOf va) = some (f, false)) (hmany : 1 < refCount f s.sys.mem) :
    ∃ c : Fault, c.pa = f ∧ c.va = va ∧
      Trace.run (smpNext L) s (enterEvents p va) = some (s.goOn p (.allocating c) s.sys) ∧
      Trace.Along (smpNext L) (fun s e => e.Apart s) s (Cow.enterEvents p va) ∧
      SmpOk L lost P F (s.goOn p (.allocating c) s.sys) use a := by
  have hp := h.live_of_runnable (by simp) hstate
  obtain ⟨c, rfl, hva, hs₁, h₁⟩ := h.fault hstate hx hT
  have hok := h₁.ok.counting hp (c := c) (s.goOn_thread_self p _ _)
  rw [if_neg (by rw [Smp.goOn_sys]; omega)] at hok
  have hs₂ : smpNext L (s.goOn p (.counting c) s.sys) (.kernel p) = some (s.goOn p (.allocating c) s.sys) := by
    have hcount : ¬ refCount c.pa (s.goOn p (.counting c) s.sys).sys.mem ≤ 1 := by
      rw [Smp.goOn_sys]
      omega
    rw [smpNext_eq_some_iff]
    simp only [smpStep, Cow.goOn, Smp.goOn_thread_self, if_neg hcount]
    simp only [Smp.goOn, Function.update_idem]
  refine ⟨c, rfl, hva, ?_, Trace.along_cons_of_eq trivial hs₁ (Trace.along_cons_of_eq ?_ hs₂ trivial),
    h.goOn hp h.live h.pgdir ?_⟩
  · unfold Cow.enterEvents
    rw [Trace.run_cons, hs₁, Option.bind_some, Trace.run_singleton hs₂]
  · simp only [SmpEvent.Apart, Smp.goOn_thread_self]
  · unfold Smp.goOn at hok
    rwa [Function.update_idem] at hok

/-- `kalloc` in a handler takes another frame than the one that is to be copied. -/
theorem SmpOk.allocate (h : SmpOk L lost P F s use a) (hp : P.live p) {c : Fault} (hx : s.thread p = .allocating c)
    (hfree : use g = .free) : s.sys.mem.freelist ≠ 0#32 ∧ ∃ y m, kalloc s.sys.mem = (some y, m) ∧ y ≠ c.pa ∧
      refCount c.pa m = refCount c.pa s.sys.mem ∧
      ThreadsOk L lost P F m (Function.update s.thread p (.dropping c (some y))) (Function.update use y .kern) a := by
  have hne : s.sys.mem.freelist ≠ 0#32 := fun hz => h.ok.frames.no_free hz g hfree
  obtain ⟨y, m, hk, hok⟩ := h.ok.allocating hp hx hne
  have hthread := hok.threads p hp
  rw [Function.update_self] at hthread
  obtain ⟨-, hu⟩ := hok.visible_entry hp (by rw [Function.update_self]; rfl) hthread.1
  have hyc : y ≠ c.pa := by
    rintro rfl
    rw [Function.update_self] at hu
    cases hu
  refine ⟨hne, y, m, hk, hyc, ?_, hok⟩
  unfold refCount
  rw [(kalloc_some hk).2 _ hyc.symm]

/-- The rest of a handler whose frame has other entries. -/
theorem SmpOk.copy (h : SmpOk L lost P F s use a) (hp : P.live p) {c : Fault} (hx : s.thread p = .allocating c)
    (hfree : use y = .free) (hmany : 1 < refCount c.pa s.sys.mem) : ∃ g m, kalloc s.sys.mem = (some g, m) ∧ g ≠ c.pa ∧
      SmpOk L lost P F (s.goOn p .user { s.sys with mem := copied c g m }) (Function.update use g .user) a ∧
      userTable (copied c g m) (Function.update use g .user) (P.pgdir p, pageOf c.va) = some (g, true) := by
  obtain ⟨-, g, m, hk, hgc, hcount, h₁⟩ := h.allocate hp hx hfree
  have h₂ := h₁.dropping hp (c := c) (Function.update_self _ _ _) (by rw [hcount]; exact hmany)
  rw [Function.update_idem] at h₂
  obtain ⟨h₃, hentry⟩ := h₂.copied hp
  rw [Function.update_idem] at h₃ hentry
  exact ⟨g, m, hk, hgc, h.goOn hp h.live h.pgdir h₃, hentry⟩

/-- The rest of a handler whose frame has no other entry any more. -/
theorem SmpOk.lose (h : SmpOk L lost P F s use a) (hp : P.live p) {c : Fault} (hx : s.thread p = .allocating c)
    (hfree : use y = .free) (hone : refs (visible P s.sys.mem s.thread use) c.pa = 1) (hF : c.pa ∉ F) :
    ∃ g m use', kalloc s.sys.mem = (some g, m) ∧ use' c.pa = .reserved ∧
      SmpOk L lost P F (s.goOn p .user { s.sys with mem := copied c g m }) use' a := by
  have hok := h.ok.threads p hp
  rw [hx] at hok
  obtain ⟨-, hu⟩ := h.ok.visible_entry hp (by rw [hx]; rfl) hok
  obtain ⟨-, g, m, hk, hgc, hcount, h₁⟩ := h.allocate hp hx hfree
  have hone₁ : refs (visible P m (Function.update s.thread p (.dropping c (some g))) (Function.update use g .kern))
      c.pa = 1 := by
    have hu₁ : Function.update use g .kern c.pa = .user := by rw [Function.update_of_ne hgc.symm, hu]
    have hrefs := (h₁.toNat_refCnt hu₁).2
    rw [hcount, (h.ok.toNat_refCnt hu).2, hone] at hrefs
    exact_mod_cast hrefs.symm
  have h₂ := h₁.dropping_last hp (c := c) (Function.update_self _ _ _) hone₁ hF
  rw [Function.update_idem] at h₂
  refine ⟨g, m, _, hk, ?_, h.goOn hp h.live h.pgdir (h₂.copied hp).1⟩
  rw [Function.update_of_ne hgc.symm, Function.update_self]

/-- The processes in `S` share the page 0, and there is free memory. -/
structure Sharers (S : Finset Slot) (sys : Sys) (use : Page → Use) (f₀ f : Page) : Prop where
  inv : Inv smallLayout 0#32 false {f₀} sys use
  live : ∀ i, Live sys i ↔ i ∈ S
  runs : ∀ i ∈ S, (sys.procs i).state = .runnable ∧ (sys.procs i).killed = false
  shared : ∀ i ∈ S, userTable sys.mem use ((sys.procs i).pgdir, 0#20) = some (f, false)
  free : 2 ≤ freeCount use

theorem Running.sharers {S : Finset Slot} {f₀ : Page} {st : Slot → ProcState} {par : Slot → Option Slot}
    (h : Running smallLayout false {f₀} sys use st par) (hst : ∀ i, st i = if i ∈ S then .runnable else .unused)
    (hmany : 1 < S.card) (hfew : S.card ≤ 4) (hframes : ∀ i ∈ S, userFrame sys i 0#20 = some f) :
    Sharers S sys use f₀ f := by
  have hlive : ∀ i, Live sys i ↔ i ∈ S := by
    intro i
    rw [h.live_iff, hst i]
    split_ifs with hi
    · simp [hi]
    · simp [hi]
  refine ⟨h.inv, hlive, fun i hi => ?_, fun i hi => ?_, ?_⟩
  · rw [← abs_state, ← abs_killed, (h.family.member i).state, hst i, if_pos hi]
    exact ⟨rfl, (h.family.member i).killed⟩
  · have hf := hframes i hi
    rw [h.inv.userFrame_eq ((hlive i).2 hi)] at hf
    obtain ⟨b, hb⟩ := frame_eq_some_iff.1 hf
    cases b with
    | false => exact hb
    | true =>
      -- a writable entry would be the only one of the frame
      obtain ⟨j, hj, hne⟩ := Finset.exists_mem_ne hmany i
      have hf' := hframes j hj
      rw [h.inv.userFrame_eq ((hlive j).2 hj)] at hf'
      have hsame := (Prod.mk.inj (h.inv.owned.counts.exclusive _ _ hb _ hf')).1
      exact absurd (h.inv.pgdir_inj j i ((hlive j).2 hj) ((hlive i).2 hi) hsame) hne
  · have hset : (Finset.univ.filter fun i => st i ≠ .unused) = S := by
      ext i
      rw [Finset.mem_filter, hst i]
      split_ifs with hi
      · simp [hi]
      · simp [hi]
    have := h.freeCount_le (by rw [hset]; exact hfew)
    omega

/-- The first process has forked once. -/
theorem exists_sharers : ∃ s₀ sys use f₀ f, boot smallLayout blankRam [] = .ok s₀ ∧
    Cow.next smallLayout s₀ (.mem (.fork initSlot)) = some sys ∧ Sharers {initSlot, slotA} sys use f₀ f := by
  obtain ⟨s₀, sys, use, f, hboot, hs, ⟨par, f₀, h⟩, hf, hfA, -⟩ := exists_fork_shared
  refine ⟨s₀, sys, use, f₀, f, hboot, next_eq_some_iff.2 hs, h.sharers (by decide) (by decide) (by decide) fun i hi => ?_⟩
  obtain rfl | hi := Finset.mem_insert.1 hi
  · exact hf
  · rw [Finset.mem_singleton.1 hi]
    exact hfA

/-- The first process has forked twice. -/
theorem exists_threeSharers : ∃ s₀ s₁ sys use f₀ f, boot smallLayout blankRam [] = .ok s₀ ∧
    Cow.next smallLayout s₀ (.mem (.fork initSlot)) = some s₁ ∧
    Cow.next smallLayout s₁ (.mem (.fork initSlot)) = some sys ∧
    Sharers {initSlot, slotA, slotB} sys use f₀ f := by
  obtain ⟨s₀, s₁, use₁, f, hboot, hs₁, ⟨par, f₀, h₁⟩, hf, hfA, -⟩ := exists_fork_shared
  obtain ⟨sys, use, hs, h, htouch⟩ := h₁.step (by decide) (by simp)
    (h₁.family.fork (p := initSlot) (by decide) (show _ = some slotB by decide))
  have hinit : Live s₁ initSlot := h₁.live_iff.2 (by decide)
  have hA : Live s₁ slotA := h₁.live_iff.2 (by decide)
  have hA' : Live sys slotA := h.live_iff.2 (by decide)
  have hfind : (List.finRange NPROC).find? (fun i => (s₁.procs i).state = .unused) = some slotB := by
    simp only [← abs_state, (h₁.family.member _).state]
    decide
  have hfork := fork_of_memStep (by rw [← abs_state, (h₁.family.member initSlot).state]; decide)
    (by rw [← abs_killed, (h₁.family.member initSlot).killed]) hs
  obtain ⟨g, hg₁, hg, hgB, -⟩ := h₁.inv.fork_frame hinit hfind (h₁.freeCount_le (by decide)) hfork
    (v := 0#20) (by rw [← abs_sz, (h₁.family.member initSlot).sz (by decide)]; decide)
  obtain rfl := Option.some.inj (hf.symm.trans hg₁)
  have hgA : userFrame sys slotA 0#20 = some f := by
    rw [h.inv.userFrame_eq hA', (htouch.procs slotA hA hA').1, htouch.frames slotA 0#20 hA hA' (Set.notMem_empty _),
      ← h₁.inv.userFrame_eq hA]
    exact hfA
  refine ⟨s₀, s₁, sys, use, f₀, f, hboot, next_eq_some_iff.2 hs₁, next_eq_some_iff.2 hs,
    h.sharers (by decide) (by decide) (by decide) fun i hi => ?_⟩
  obtain rfl | hi := Finset.mem_insert.1 hi
  · exact hg
  obtain rfl | hi := Finset.mem_insert.1 hi
  · exact hgA
  · rw [Finset.mem_singleton.1 hi]
    exact hgB

section Sharers

variable {S : Finset Slot} {f₀ : Page}

/-- The frame has an entry of each process, and all entries are counted. -/
theorem Sharers.card_le (h : Sharers S sys use f₀ f) (hp : p ∈ S) :
    S.card ≤ refs (userTable sys.mem use) f ∧ refCount f sys.mem = refs (userTable sys.mem use) f := by
  refine ⟨card_le_refs (k := fun i => ((sys.procs i).pgdir, 0#20)) (fun i hi j hj hx => ?_) fun i hi =>
    frame_of_eq_some (h.shared i hi),
    h.inv.owned.refCount_eq (h.inv.owned.counts.entry _ _ _ _ (h.shared p hp)).2.2⟩
  exact h.inv.pgdir_inj i j ((h.live i).2 hi) ((h.live j).2 hj) (Prod.mk.inj hx).1

/-- A frame stays free when another one is taken. -/
theorem Sharers.exists_free (h : Sharers S sys use f₀ f) (g : Page) :
    (∃ y, use y = .free) ∧ ∃ z, Function.update use g .user z = .free := by
  obtain ⟨y, hy, y', hy', hne⟩ := (Set.one_lt_ncard (Set.toFinite _)).1 (show 1 < {g | use g = .free}.ncard from h.free)
  refine ⟨⟨y, hy⟩, ?_⟩
  by_cases hyg : y = g
  · exact ⟨y', by rw [Function.update_of_ne fun hx => hne (hyg.trans hx.symm)]; exact hy'⟩
  · exact ⟨y, by rw [Function.update_of_ne hyg]; exact hy⟩

/-- Two processes fault at address 0, both handlers read the count, and then the first one makes its copy. -/
def firstCopy : List SmpEvent := enterEvents initSlot 0#32 ++ (enterEvents slotA 0#32 ++ copyEvents initSlot)

theorem Sharers.firstCopy (h : Sharers S sys use f₀ f) (hinit : initSlot ∈ S) (hA : slotA ∈ S) (hmany : 2 ≤ S.card) :
    ∃ c e g m s, c.va = 0#32 ∧ e.va = 0#32 ∧ c.pa = f ∧ e.pa = f ∧ g ≠ f ∧ refCount f m = refCount f sys.mem ∧
      s.sys = { sys with mem := copied c g m } ∧ (∀ i, s.thread i = if i = slotA then .allocating e else .user) ∧
      Trace.run (smpNext smallLayout) (Smp.start sys) firstCopy = some s ∧
      Trace.Along (smpNext smallLayout) (fun s e => e.Apart s) (Smp.start sys) firstCopy ∧
      SmpOk smallLayout 0#32 h.inv.procs ∅ s (Function.update use g .user)
        (fun i v => view sys.mem use ((sys.procs i).pgdir, v)) ∧
      userTable s.sys.mem (Function.update use g .user) ((sys.procs initSlot).pgdir, pageOf c.va) = some (g, true) := by
  have hne : slotA ≠ initSlot := by decide
  have hlive : ∀ i ∈ S, Live sys i := fun i hi => (h.live i).2 hi
  have hcount : 1 < refCount f sys.mem := by
    obtain ⟨hle, heq⟩ := h.card_le hinit
    omega
  have hstart := h.inv.smpOk (F := ∅) fun f hf => hf.elim
  -- both handlers read the count
  obtain ⟨c, rfl, hcva, hrun₁, halong₁, h₁⟩ := hstart.enterEvents 0#32 (h.runs _ hinit).1 rfl (h.shared _ hinit) hcount
  obtain ⟨e, hef, heva, hrun₂, halong₂, h₂⟩ := h₁.enterEvents (p := slotA) 0#32 (h.runs _ hA).1
    (Smp.goOn_thread_of_ne _ _ _ hne) (h.shared _ hA) hcount
  -- the first one makes its copy
  have hx : (((Smp.start sys).goOn initSlot (.allocating c) sys).goOn slotA (.allocating e) sys).thread initSlot =
      .allocating c := by
    rw [Smp.goOn_thread_of_ne _ _ _ hne.symm, Smp.goOn_thread_self]
  obtain ⟨y, hy⟩ := (h.exists_free 0#20).1
  obtain ⟨hfree, -⟩ := h₂.allocate (hlive _ hinit) hx hy
  obtain ⟨g, m, hk, hgc, h₃, hentry⟩ := h₂.copy (hlive _ hinit) hx hy hcount
  have hm : refCount c.pa m = refCount c.pa sys.mem := by
    unfold refCount
    rw [(kalloc_some hk).2 _ hgc.symm]
    rfl
  refine ⟨c, e, g, m, _, hcva, heva, rfl, hef, hgc, hm, rfl, fun i => ?_, ?_, ?_, h₃, hentry⟩
  · split_ifs with hi
    · rw [hi, Smp.goOn_thread_of_ne _ _ _ hne, Smp.goOn_thread_self]
    · by_cases hi' : i = initSlot
      · rw [hi', Smp.goOn_thread_self]
      · rw [Smp.goOn_thread_of_ne _ _ _ hi', Smp.goOn_thread_of_ne _ _ _ hi, Smp.goOn_thread_of_ne _ _ _ hi']
        rfl
  · unfold Cow.firstCopy
    rw [Trace.run_append hrun₁, Trace.run_append hrun₂]
    exact run_copyEvents hx hk (h.runs _ hinit).2
  · refine (Trace.along_append hrun₁).2 ⟨halong₁, (Trace.along_append hrun₂).2 ⟨halong₂, ?_⟩⟩
    exact along_copyEvents hx hk (h.runs _ hinit).2 hfree (by rw [hm]; exact hcount)

end Sharers

theorem refCount_copied {c : Fault} {m : Mem} (h : 2 < refCount c.pa m) : 1 < refCount c.pa (copied c g m) := by
  have hcell : (copied c g m).refCnt c.pa = m.refCnt c.pa - 1#32 := Function.update_self ..
  unfold refCount at h ⊢
  have hlt := (m.refCnt c.pa).toInt_lt
  rw [hcell, BitVec.toInt_sub, show (1#32).toInt = 1 from rfl, Int.bmod_eq_of_le (by omega) (by omega)]
  omega

/-- Of three processes that share the page two fault at once: both handlers have read the count when the first of
them decrements it, and both make a copy. -/
theorem faultsApart_of_run_bothCopy : ∃ s₀ s₁ sys s,
    boot smallLayout blankRam [] = .ok s₀ ∧ Cow.next smallLayout s₀ (.mem (.fork initSlot)) = some s₁ ∧
    Cow.next smallLayout s₁ (.mem (.fork initSlot)) = some sys ∧
    Trace.run (smpNext smallLayout) (Smp.start sys) (firstCopy ++ copyEvents slotA) = some s ∧
    FaultsApart smallLayout (Smp.start sys) (firstCopy ++ copyEvents slotA) s := by
  obtain ⟨s₀, s₁, sys, use, f₀, f, hboot, hs₁, hsys, h⟩ := exists_threeSharers
  have hlive : Live sys slotA := (h.live _).2 (by decide)
  obtain ⟨c, e, g, m, s, -, -, rfl, hef, hgf, hm, hs, hthread, hrun, halong, hok, -⟩ :=
    h.firstCopy (by decide) (by decide) (by decide)
  have hx : s.thread slotA = .allocating e := by rw [hthread, if_pos rfl]
  have hkilled : (s.sys.procs slotA).killed = false := by
    rw [hs]
    exact (h.runs _ (by decide)).2
  -- two entries of the frame are left
  have hmany : 1 < refCount e.pa s.sys.mem := by
    obtain ⟨hle, heq⟩ := h.card_le (p := slotA) (by decide)
    have hthree : 3 ≤ refs (userTable sys.mem use) c.pa := hle
    rw [hef, hs]
    exact refCount_copied (by rw [hm]; omega)
  obtain ⟨z, hz⟩ := (h.exists_free g).2
  obtain ⟨hne, g', m', hk, -, hcount, -⟩ := hok.allocate hlive hx hz
  have hrun' : Trace.run (smpNext smallLayout) (Smp.start sys) (firstCopy ++ copyEvents slotA) = _ :=
    (Trace.run_append hrun).trans (run_copyEvents hx hk hkilled)
  have halong₀ : Trace.Along (Cow.next smallLayout) (fun s e => ¬ e.Fails s ∧ e.Fits) s₀
      [.mem (.fork initSlot), .mem (.fork initSlot)] :=
    Trace.along_cons_of_eq ⟨id, trivial⟩ hs₁ (Trace.along_cons_of_eq ⟨id, trivial⟩ hsys trivial)
  have hrun₀ : Trace.run (Cow.next smallLayout) s₀ [.mem (.fork initSlot), .mem (.fork initSlot)] = some sys := by
    rw [Trace.run_cons, hs₁, Option.bind_some, Trace.run_singleton hsys]
  refine ⟨s₀, s₁, sys, _, hboot, hs₁, hsys, hrun', faultsApart_of_run hboot halong₀ hrun₀
    ((Trace.along_append hrun).2 ⟨halong, along_copyEvents hx hk hkilled hne (by rw [hcount]; exact hmany)⟩) hrun'
    fun p => ?_⟩
  by_cases hp : p = slotA
  · rw [hp, Smp.goOn_thread_self]
    trivial
  · rw [Smp.goOn_thread_of_ne _ _ _ hp, hthread, if_neg hp]
    trivial

/-- Frames other than those of user pages and the free ones are not counted. -/
theorem SmpOk.not_counted (h : SmpOk L lost P F s use a) (hsettled : ∀ p, (s.thread p).Settled)
    (hu : use f ≠ .user) (hfree : use f ≠ .free) : ¬ (OnFreeList s.sys f ∨
      1 ≤ refs s.userPtes f ∧ (s.sys.mem.refCnt f).toNat = refs s.userPtes f) := by
  rintro (⟨l, hchain, hf⟩ | ⟨hpos, -⟩)
  · obtain ⟨l', hchain', -, hmem, -⟩ := h.ok.frames.free
    rw [hchain.unique hchain'] at hf
    exact hfree ((hmem f).1 hf)
  · obtain ⟨k, hk⟩ := refs_pos_iff.1 hpos
    rw [h.userPtes_eq, ← visible_of_settled hsettled] at hk
    obtain ⟨b, hb⟩ := frame_eq_some_iff.1 hk
    exact hu (h.ok.counts.entry _ _ _ _ hb).2.2

/-- After the copy of the first process, only the second one has the frame. -/
theorem SmpOk.refs_eq_one {c e : Fault} (h : SmpOk L lost P F s use a)
    (hlive : ∀ i, P.live i ↔ i = initSlot ∨ i = slotA) (hinit : s.thread initSlot = .user)
    (hA : s.thread slotA = .allocating e) (hcva : c.va = 0#32) (heva : e.va = 0#32)
    (hentry : userTable s.sys.mem use (P.pgdir initSlot, pageOf c.va) = some (g, true)) (hg : g ≠ e.pa) :
    refs (visible P s.sys.mem s.thread use) e.pa = 1 := by
  have hliveA : P.live slotA := (hlive _).2 (Or.inr rfl)
  have hok := h.ok.threads slotA hliveA
  rw [hA] at hok
  obtain ⟨hvis, -⟩ := h.ok.visible_entry hliveA (by rw [hA]; rfl) hok
  refine refs_eq_one_of_unique (frame_of_eq_some hvis) fun k hk => ?_
  obtain ⟨d, v⟩ := k
  -- the frame is at the same page of every process
  obtain rfl : v = pageOf e.va := h.ok.counts.coloured _ _ _ hk (frame_of_eq_some hvis)
  obtain ⟨b, hb⟩ := frame_eq_some_iff.1 hk
  obtain hd | ⟨p, hp, -, rfl⟩ := (h.ok.dirs d).1 (h.ok.counts.entry _ _ _ _ hb).1
  · rw [hd] at hb
    unfold visible at hb
    rw [h.ok.kernel] at hb
    simp at hb
  · obtain rfl | rfl := (hlive p).1 hp
    · rw [visible_own hp, hinit, if_neg (by simp [Thread.pending]), heva, ← hcva, hentry] at hb
      exact absurd (Prod.mk.inj (Option.some.inj hb)).1 hg
    · rfl

/-- Both processes have read the count when the first of them decrements it; the second decrements it to
zero, and the frame is lost. -/
theorem not_faultsApart_lost : ∃ s₀ sys s,
    boot smallLayout blankRam [] = .ok s₀ ∧ Cow.next smallLayout s₀ (.mem (.fork initSlot)) = some sys ∧
    Trace.run (smpNext smallLayout) (Smp.start sys) (enterEvents initSlot 0#32 ++ (enterEvents slotA 0#32 ++
      (copyEvents initSlot ++ copyEvents slotA))) = some s ∧ (∀ p, (s.thread p).Settled) ∧
    ¬ FaultsApart smallLayout (Smp.start sys) (enterEvents initSlot 0#32 ++ (enterEvents slotA 0#32 ++
      (copyEvents initSlot ++ copyEvents slotA))) s := by
  obtain ⟨s₀, sys, use, f₀, f, hboot, hnext, h⟩ := exists_sharers
  have hA : Live sys slotA := (h.live _).2 (by decide)
  have hevents : enterEvents initSlot 0#32 ++ (enterEvents slotA 0#32 ++ (copyEvents initSlot ++ copyEvents slotA)) =
      firstCopy ++ copyEvents slotA := by
    unfold firstCopy
    simp only [List.append_assoc]
  obtain ⟨c, e, g, m, s, hcva, heva, hcf, hef, hgf, -, hs, hthread, hrun, -, hok, hentry⟩ :=
    h.firstCopy (by decide) (by decide) (by decide)
  have hx : s.thread slotA = .allocating e := by rw [hthread, if_pos rfl]
  have hkilled : (s.sys.procs slotA).killed = false := by
    rw [hs]
    exact (h.runs _ (by decide)).2
  -- only the second process has the frame now
  have hone := hok.refs_eq_one (fun i => (h.live i).trans (by simp)) (by rw [hthread, if_neg (by decide)]) hx hcva heva
    hentry (by rw [hef]; exact hgf)
  obtain ⟨z, hz⟩ := (h.exists_free g).2
  obtain ⟨g', m', use', hk, hres, hok'⟩ := hok.lose hA hx hz hone (Set.notMem_empty _)
  have hsettled : ∀ p, ((s.goOn slotA .user { s.sys with mem := copied e g' m' }).thread p).Settled := by
    intro p
    by_cases hp : p = slotA
    · rw [hp, Smp.goOn_thread_self]
      trivial
    · rw [Smp.goOn_thread_of_ne _ _ _ hp, hthread, if_neg hp]
      trivial
  rw [hevents]
  refine ⟨s₀, sys, _, hboot, hnext, (Trace.run_append hrun).trans (run_copyEvents hx hk hkilled), hsettled, fun hx => ?_⟩
  rw [hef] at hres
  refine hok'.not_counted hsettled (by rw [hres]; simp) (by rw [hres]; simp) (hx.counts f ?_)
  rw [(h.inv.smpOk (F := ∅) fun f hf => hf.elim).userPtes_eq]
  exact (h.card_le (p := slotA) (by decide)).1

end SystemsProjects.Cow
