import SystemsProjects.Cow.Ownership

/-!
# The page table of user memory

`setupkvm` maps the I/O space from `USERTOP` on, which lies in the same 4 MB as user memory.  So the
first entry of a page directory is there before the first user page is mapped, and as nothing clears it,
`mappages` of user pages needs no memory.  Its callers rely on that: `allocuvm` and `inituvm` do not look
at what it returns.  They are compared with the same kernel over a `mappages` that stops where the page table
is missing (`Strict`).
-/

namespace SystemsProjects.Cow

variable {L : Layout} {lost : Word} {leak : Set Page} {eager : Bool} {s s' : Sys} {m m' m₀ m₁ : Mem}
  {use use₀ : Page → Use} {a cur d f pa t : Page} {p : Slot} {n perm sz : Word} {ip : Inode}

/-! ## A kernel that relies on the page table -/

namespace Strict

/-- One iteration of `mappages`: it is a panic if there is no page table for the page. -/
def mapPage (pgdir : Page) (perm : Word) (a pa : Page) (s : Mem) : Except Halt (Bool × Mem) :=
  match walkpgdir pgdir a false s with
  | (none, _) => .error (.panic "mappages: no page table")
  | (some (t, i), s) =>
    if has (s.page t i) PTE_P then .error (.panic "remap")
    else .ok (true, s.write t i (paddr pa ||| perm ||| PTE_P))

def mapLoop (pgdir : Page) (perm : Word) : ℕ → Page → Page → Mem → Except Halt (Bool × Mem)
  | 0, a, pa, s => mapPage pgdir perm a pa s
  | n + 1, a, pa, s =>
    (mapPage pgdir perm a pa s).bind fun (ok, s) =>
      if ok then mapLoop pgdir perm n (a + 1#20) (pa + 1#20) s else .ok (false, s)

def mappages (pgdir : Page) (la size : Word) (pa : Page) (perm : Word) (s : Mem) :
    Except Halt (Bool × Mem) :=
  mapLoop pgdir perm (pageOf (la + size - 1#32) - pageOf la).toNat (pageOf la) pa s

def copyuvm (L : Layout) (pgdir : Page) (sz : Word) (s : Mem) : Except Halt (Option Page × Mem) :=
  uvmWith L (copyPageWith mappages) pgdir sz s

def cowuvm (L : Layout) (pgdir : Page) (sz : Word) (s : Mem) : Except Halt (Option Page × Mem) :=
  uvmWith L (cowPageWith mappages) pgdir sz s

/-- `growproc`; a process that shrinks maps nothing. -/
def growproc (L : Layout) (p : Slot) (n : Word) (s : Sys) : Except Halt Sys :=
  let q := s.procs p
  if 0 < n.toInt then (allocuvmWith mappages L q.pgdir q.sz (q.sz + n) s.mem).map (withSize s p)
  else Cow.growproc L p n s

/-- One event; of those without `exec`, only `sbrk` and `fork` map user pages. -/
def step (L : Layout) (s : Sys) : Event → Except Halt Sys
  | .mem (.sbrk p n) =>
    if (s.procs p).state ≠ .runnable then .error .disabled else syscall p (growproc L p n) s
  | .mem e => memStep L cowuvm s e
  | .exec p ip argv =>
    if (s.procs p).state ≠ .runnable ∨ ¬ ArgsOk argv (s.procs p).sz then .error .disabled
    else syscall p (execWith mappages L p ip argv) s

def boot (L : Layout) : (Page → PageData) → List Byte → Except Halt Sys := bootWith mappages L

/-- There is no return value -1. -/
theorem mapLoop_eq_ok : ∀ {n : ℕ} {a pa : Page} {m m' : Mem} {ok : Bool},
    mapLoop d perm n a pa m = .ok (ok, m') → ok = true := by
  have hpage : ∀ {a pa : Page} {m m' : Mem} {ok : Bool}, mapPage d perm a pa m = .ok (ok, m') →
      ok = true := by
    intro a pa m m' ok h
    unfold mapPage at h
    split at h
    · cases h
    · split_ifs at h
      exact (Prod.mk.inj (Except.ok.inj h)).1.symm
  intro n
  induction n with
  | zero => exact hpage
  | succ n ih =>
    intro a pa m m' ok h
    rw [mapLoop] at h
    cases hr : mapPage d perm a pa m with
    | error e =>
      rw [hr] at h
      cases h
    | ok r =>
      obtain ⟨ok₁, m₁⟩ := r
      obtain rfl := hpage hr
      rw [hr] at h
      exact ih h

end Strict

/-! ## The first entry -/

/-- The page directory `d` has a page table for user memory. -/
def FirstTable (m : Mem) (d : Page) : Prop := has (m.page d 0#10) PTE_P = true

theorem FirstTable.walkpgdir_eq (h : FirstTable m d) (ha : IsUser a) (create : Bool) :
    walkpgdir d a create m = (some (pageOf (m.page d 0#10), ptx a), m) := by
  unfold walkpgdir
  rw [ha.pdx_eq]
  exact if_pos h

/-- To write a present entry is safe, wherever it is written. -/
theorem FirstTable.write (h : FirstTable m d) {i : Index} {w : Word} (hw : has w PTE_P = true) :
    FirstTable (m.write t i w) d := by
  unfold FirstTable at h ⊢
  by_cases hk : (d, 0#10) = (t, i)
  · obtain ⟨rfl, rfl⟩ := Prod.mk.inj hk
    rw [Mem.write_page_self, Function.update_self]
    exact hw
  · rw [Mem.write_word_of_ne _ _ hk]
    exact h

theorem FirstTable.strict_mapPage (h : FirstTable m d) (ha : IsUser a) :
    Strict.mapPage d perm a pa m = mapPage d perm a pa m := by
  unfold Strict.mapPage mapPage
  rw [h.walkpgdir_eq ha, h.walkpgdir_eq ha]

theorem FirstTable.mapPage (h : FirstTable m d) (ha : IsUser a) {ok : Bool}
    (hrun : mapPage d perm a pa m = .ok (ok, m')) : FirstTable m' d := by
  unfold Cow.mapPage at hrun
  rw [h.walkpgdir_eq ha] at hrun
  simp only at hrun
  split_ifs at hrun
  rw [← (Prod.mk.inj (Except.ok.inj hrun)).2]
  exact h.write (by simp)

theorem FirstTable.strict_mapLoop : ∀ {k : ℕ} {a pa : Page} {m : Mem}, FirstTable m d → a.toNat + k < 160 →
    Strict.mapLoop d perm k a pa m = mapLoop d perm k a pa m
  | 0, a, pa, m, h, hlt => h.strict_mapPage hlt
  | k + 1, a, pa, m, h, hlt => by
    have ha : IsUser a := by
      unfold IsUser
      omega
    rw [Strict.mapLoop, mapLoop, h.strict_mapPage ha]
    cases hrun : Cow.mapPage d perm a pa m with
    | error e => rfl
    | ok r =>
      obtain ⟨ok, m'⟩ := r
      cases ok with
      | false => rfl
      | true =>
        have hnext : (a + 1#20).toNat = a.toNat + 1 := toNat_succ_page (n := 0) (by omega)
        exact (h.mapPage ha hrun).strict_mapLoop (by omega)

/-- `mappages` of user pages. -/
theorem FirstTable.strict_mappages (h : FirstTable m d) {la size : Word} (hpos : 0 < size.toNat)
    (hend : la.toNat + size.toNat ≤ USERTOP.toNat) :
    Strict.mappages d la size pa perm m = mappages d la size pa perm m := by
  have hlast : (la + size - 1#32).toNat = la.toNat + size.toNat - 1 := by
    rw [toNat_USERTOP] at hend
    rw [BitVec.toNat_sub, BitVec.toNat_add, BitVec.toNat_ofNat]
    omega
  have hle : (pageOf la).toNat ≤ (pageOf (la + size - 1#32)).toNat := by
    rw [toNat_pageOf, toNat_pageOf, hlast]
    omega
  refine h.strict_mapLoop ?_
  rw [BitVec.toNat_sub_of_le hle, Nat.add_sub_cancel' hle, toNat_pageOf, hlast]
  rw [toNat_USERTOP] at hend
  omega

theorem FirstTable.strict_mappages_page (h : FirstTable m d) (ha : IsUser a) :
    Strict.mappages d (paddr a) 4096#32 pa perm m = mappages d (paddr a) 4096#32 pa perm m := by
  unfold IsUser at ha
  refine h.strict_mappages (by decide) ?_
  rw [toNat_paddr, toNat_USERTOP, BitVec.toNat_ofNat]
  omega

theorem Owned.firstTable (h : Owned L lost m use) (ht : use t = .table d 0#10) : FirstTable m d := by
  unfold FirstTable
  rw [(h.frames.table t d _ ht).2, has_pdeFor_P]

/-- A free frame is taken and filled. -/
theorem Owned.firstTable_setPage (h : Owned L lost m use) (ht : use t = .table d 0#10) (hf : use f = .free)
    (hpage : m₁.page = m.page) (x : PageData) : FirstTable (m₁.setPage f x) d := by
  have hdf : d ≠ f := by
    rintro rfl
    rw [(h.frames.table t d _ ht).1] at hf
    cases hf
  unfold FirstTable
  rw [Mem.setPage_page_of_ne _ _ hdf, hpage]
  exact h.firstTable ht

/-! ## The callers of `mappages` -/

theorem Owned.strict_inituvm (h : Owned L lost m use) (ht : use t = .table d 0#10) (init : List Byte) :
    inituvmWith Strict.mappages d init m = inituvm d init m := by
  unfold inituvm inituvmWith
  by_cases hzero : m.freelist = 0#32
  · rw [kalloc_of_eq_zero hzero]
  · obtain ⟨f, m₁, hk, hf, -, -, hpage, -⟩ := h.kalloc_eq_some hzero
    have hfirst := h.firstTable_setPage ht hf hpage fun _ => 0#32
    rw [hk]
    simp only
    rw [hfirst.strict_mappages (by decide) (by decide)]

theorem Owned.strict_allocPage (h : Owned L lost m use) (ht : use t = .table d 0#10) (ha : IsUser a) :
    allocPageWith Strict.mappages d a m = allocPage d a m := by
  unfold allocPage allocPageWith
  by_cases hzero : m.freelist = 0#32
  · rw [kalloc_of_eq_zero hzero]
  · obtain ⟨f, m₁, hk, hf, -, -, hpage, -⟩ := h.kalloc_eq_some hzero
    have hfirst := h.firstTable_setPage ht hf hpage fun _ => 0#32
    rw [hk]
    simp only
    rw [hfirst.strict_mappages_page ha]

theorem Owned.strict_copyPage (h : Owned L lost m use) (ht : use t = .table d 0#10) (ha : IsUser a) (q : Page) :
    copyPageWith Strict.mappages q d a m = copyPage q d a m := by
  unfold copyPage copyPageWith
  cases pteOf m q a with
  | none => rfl
  | some pte =>
    simp only
    by_cases hzero : m.freelist = 0#32
    · rw [kalloc_of_eq_zero hzero]
    · obtain ⟨f, m₁, hk, hf, -, -, hpage, -⟩ := h.kalloc_eq_some hzero
      have hfirst := h.firstTable_setPage ht hf hpage (m₁.page (pageOf pte))
      rw [hk]
      simp only
      rw [hfirst.strict_mappages_page ha]

/-- The entry of the parent stays present. -/
theorem FirstTable.strict_cowPage (h : FirstTable m d) (ha : IsUser a) (q : Page) :
    cowPageWith Strict.mappages q d a m = cowPage q d a m := by
  unfold cowPage cowPageWith walkpgdir
  simp only
  by_cases hpde : has (m.page q (pdx a)) PTE_P = true
  · simp only [if_pos hpde]
    by_cases hpte : has (m.page (pageOf (m.page q (pdx a))) (ptx a)) PTE_P = false
    · rw [if_pos hpte, if_pos hpte]
    · rw [if_neg hpte, if_neg hpte, FirstTable.strict_mappages_page (h.write ?_) ha]
      rw [has_clearW_P]
      exact (Bool.not_eq_false _).mp hpte
  · simp only [if_neg hpde, if_true]

/-- Two loops over pages whose bodies agree wherever the first one gets. -/
theorem uvmLoop_congr {body body' : Page → Mem → Except Halt (Bool × Mem)} {I : ℕ → Page → Mem → Prop}
    (hbody : ∀ {k a m}, I (k + 1) a m → body' a m = body a m)
    (hnext : ∀ {k a m m'}, I (k + 1) a m → body a m = .ok (true, m') → I k (a + 1#20) m') :
    ∀ {k : ℕ} {a : Page} {m : Mem}, I k a m → uvmLoop body' k a m = uvmLoop body k a m
  | 0, _, _, _ => rfl
  | k + 1, a, m, h => by
    rw [uvmLoop, uvmLoop, hbody h]
    cases hrun : body a m with
    | error e => rfl
    | ok r =>
      obtain ⟨ok, m'⟩ := r
      cases ok with
      | false => rfl
      | true => exact uvmLoop_congr hbody hnext (hnext h hrun)

/-- The `k` pages from `a` on are still to be mapped in `d`. -/
structure Ahead (L : Layout) (lost : Word) (d : Page) (use : Page → Use) (k : ℕ) (a : Page) (m : Mem) :
    Prop where
  owned : Owned L lost m use
  table : ∃ t, use t = .table d 0#10
  le : a.toNat + k ≤ 160
  empty : ∀ e ∈ rows d a k, userTable m use e = none

theorem Ahead.user {k : ℕ} (h : Ahead L lost d use (k + 1) a m) : IsUser a ∧ (d, a) ∈ rows d a (k + 1) :=
  ⟨isUser_of_lt h.le, by rw [rows_succ h.le]; exact Or.inl rfl⟩

/-- The first of the pages has been mapped. -/
theorem Ahead.next {k : ℕ} {use' : Page → Use} (h : Ahead L lost d use (k + 1) a m)
    (howned : Owned L lost m' use') (hkeeps : Keeps use use')
    (hentries : ∀ e ∈ rows d (a + 1#20) k, userTable m' use' e = userTable m use e) :
    Ahead L lost d use' k (a + 1#20) m' := by
  obtain ⟨t, ht⟩ := h.table
  have hle := h.le
  refine ⟨howned, ⟨t, by rw [hkeeps.of_ne (by simp [ht]) (by simp [ht]), ht]⟩, ?_, fun e he => ?_⟩
  · rw [toNat_succ_page hle]
    omega
  · rw [hentries e he, h.empty e (by rw [rows_succ hle]; exact Or.inr he)]

theorem Ahead.strict_allocLoop {k : ℕ} (h : Ahead L lost d use k a m) :
    uvmLoop (allocPageWith Strict.mappages d) k a m = uvmLoop (allocPage d) k a m := by
  refine uvmLoop_congr (I := fun k a m => ∃ use, Ahead L lost d use k a m) ?_ ?_ ⟨use, h⟩
  · rintro k a m ⟨use, h⟩
    obtain ⟨t, ht⟩ := h.table
    exact h.owned.strict_allocPage ht h.user.1
  · rintro k a m m' ⟨use, h⟩ hrun
    obtain ⟨t, ht⟩ := h.table
    obtain ⟨ha, hmem⟩ := h.user
    obtain ⟨f, m₁, use₁, hm₁, howned, honly, -⟩ | ⟨hfail, -⟩ :=
      h.owned.allocPage_cases (by rw [ha.pdx_eq]; exact ht) ha (h.empty _ hmem)
    · obtain ⟨-, rfl⟩ := Prod.mk.inj (Except.ok.inj (hrun.symm.trans hm₁))
      refine ⟨use₁, h.next howned honly.keeps fun e he => honly.entries e ?_⟩
      exact ne_of_mem_rows_succ h.le he
    · rw [hfail] at hrun
      cases hrun

theorem Ahead.strict_cowLoop {k : ℕ} {q : Page} (h : Ahead L lost d use k a m) (htq : use t = .table q 0#10)
    (hdq : d ≠ q) : uvmLoop (cowPageWith Strict.mappages q d) k a m = uvmLoop (cowPage q d) k a m := by
  refine uvmLoop_congr (I := Ahead L lost d use) ?_ ?_ h
  · intro k a m h
    obtain ⟨t', ht'⟩ := h.table
    exact (h.owned.firstTable ht').strict_cowPage h.user.1 q
  · intro k a m m' h hrun
    obtain ⟨t', ht'⟩ := h.table
    obtain ⟨ha, hmem⟩ := h.user
    have htq' : use t = .table q (pdx a) := by rw [ha.pdx_eq, htq]
    cases hfb : userTable m use (q, a) with
    | none =>
      unfold cowPage cowPageWith at hrun
      rw [h.owned.frames.walkpgdir_eq htq'] at hrun
      simp only [h.owned.present_of_entry htq' hfb ha, if_true] at hrun
      cases hrun
    | some e =>
      obtain ⟨f, b⟩ := e
      obtain ⟨m₁, hm₁, howned, hT, -⟩ := h.owned.cowPage_eq_ok htq' (by rw [ha.pdx_eq]; exact ht') hdq ha
        (h.empty _ hmem) hfb
      obtain ⟨-, rfl⟩ := Prod.mk.inj (Except.ok.inj (hrun.symm.trans hm₁))
      refine h.next howned Keeps.refl fun e he => ?_
      rw [hT, Function.update_of_ne (ne_of_mem_rows_succ h.le he),
        Function.update_of_ne (ne_of_mem_rows_succ h.le he)]

theorem Ahead.strict_copyLoop {k : ℕ} {q : Page} (h : Ahead L lost d use k a m) (htq : use t = .table q 0#10) :
    uvmLoop (copyPageWith Strict.mappages q d) k a m = uvmLoop (copyPage q d) k a m := by
  refine uvmLoop_congr (I := fun k a m => ∃ use, Ahead L lost d use k a m ∧ use t = .table q 0#10) ?_ ?_
    ⟨use, h, htq⟩
  · rintro k a m ⟨use, h, -⟩
    obtain ⟨t', ht'⟩ := h.table
    exact h.owned.strict_copyPage ht' h.user.1 q
  · rintro k a m m' ⟨use, h, htq⟩ hrun
    obtain ⟨t', ht'⟩ := h.table
    obtain ⟨ha, hmem⟩ := h.user
    have htq' : use t = .table q (pdx a) := by rw [ha.pdx_eq, htq]
    cases hfb : userTable m use (q, a) with
    | none =>
      unfold copyPage copyPageWith at hrun
      rw [h.owned.frames.pteOf_eq_some htq'] at hrun
      simp only [h.owned.present_of_entry htq' hfb ha, if_true] at hrun
      cases hrun
    | some e =>
      obtain ⟨f, b⟩ := e
      obtain ⟨g, m₁, use₁, hm₁, howned, honly, -⟩ | ⟨hfail, -⟩ := h.owned.copyPage_cases
        (by rw [ha.pdx_eq]; exact ht') (h.owned.frames.table t q _ htq).1 ha (h.empty _ hmem) hfb
      · obtain ⟨-, rfl⟩ := Prod.mk.inj (Except.ok.inj (hrun.symm.trans hm₁))
        refine ⟨use₁, h.next howned honly.keeps fun e he => honly.entries e ?_, ?_⟩
        · exact ne_of_mem_rows_succ h.le he
        · rw [honly.keeps.of_ne (by simp [htq]) (by simp [htq]), htq]
      · rw [hfail] at hrun
        cases hrun

/-- `allocuvm` of a directory that has nothing above its size. -/
theorem Owned.strict_allocuvm (h : Owned L lost m use) (ht : use t = .table d 0#10) {oldsz newsz : Word}
    (hempty : ∀ v : Page, pagesBelow oldsz ≤ v.toNat → userTable m use (d, v) = none) :
    allocuvmWith Strict.mappages L d oldsz newsz m = allocuvm L d oldsz newsz m := by
  unfold allocuvm allocuvmWith
  by_cases hup : USERTOP < newsz
  · rw [if_pos hup, if_pos hup]
  by_cases hlt : newsz < oldsz
  · rw [if_neg hup, if_neg hup, if_pos hlt, if_pos hlt]
  have hle := BitVec.not_lt.1 hlt
  have hround := toNat_pgRoundUp (BitVec.le_trans hle (BitVec.not_lt.1 hup))
  have h160 := pagesBelow_le (BitVec.not_lt.1 hup)
  have hmono := pagesBelow_mono hle
  have hahead : Ahead L lost d use (pagesBelow newsz - (pgRoundUp oldsz).toNat) (pgRoundUp oldsz) m := by
    refine ⟨h, ⟨t, ht⟩, by omega, fun e he => ?_⟩
    obtain ⟨e, v⟩ := e
    obtain rfl : e = d := he.1
    exact hempty v (by rw [← hround]; exact he.2.1)
  rw [if_neg hup, if_neg hup, if_neg hlt, if_neg hlt, hahead.strict_allocLoop, allocPage]

/-- The pages of a new directory. -/
theorem NewDir.ahead (h : NewDir L lost m use₀ d m₀ use) (hsz : sz ≤ USERTOP) :
    Ahead L lost d use (pagesBelow sz) 0#20 m₀ := by
  refine ⟨h.owned, Complete.exists_table h.tables, ?_, fun e he => ?_⟩
  · rw [BitVec.toNat_ofNat, Nat.zero_mod, Nat.zero_add]
    exact pagesBelow_le hsz
  · obtain ⟨e, v⟩ := e
    obtain rfl : e = d := he.1
    exact h.empty v

/-- A table of another directory is still there after `setupkvm`. -/
theorem NewDir.table_of_table {q : Page} (h : NewDir L lost m use₀ d m₀ use) (ht : use₀ t = .table q 0#10) :
    use t = .table q 0#10 := by
  rw [h.of_ne_free (by simp [ht]), ht]

theorem Owned.strict_cowuvm {q : Page} (h : Owned L lost m use) (ht : use t = .table q 0#10)
    (hsz : sz ≤ USERTOP) : Strict.cowuvm L q sz m = cowuvm L q sz m := by
  unfold Strict.cowuvm cowuvm uvmWith
  obtain ⟨d, m₀, use₀, hm₀, hnew⟩ | ⟨m₀, use₀, hm₀, -⟩ := h.setupkvm_cases
  · have hdq : d ≠ q := by
      rintro rfl
      have := (h.frames.table t d _ ht).1
      rw [hnew.fresh] at this
      cases this
    rw [hm₀]
    simp only [Except.bind]
    rw [(hnew.ahead hsz).strict_cowLoop (hnew.table_of_table ht) hdq]
  · rw [hm₀]
    simp only [Except.bind]

theorem Owned.strict_copyuvm {q : Page} (h : Owned L lost m use) (ht : use t = .table q 0#10)
    (hsz : sz ≤ USERTOP) : Strict.copyuvm L q sz m = copyuvm L q sz m := by
  unfold Strict.copyuvm copyuvm uvmWith
  obtain ⟨d, m₀, use₀, hm₀, hnew⟩ | ⟨m₀, use₀, hm₀, -⟩ := h.setupkvm_cases
  · rw [hm₀]
    simp only [Except.bind]
    rw [(hnew.ahead hsz).strict_copyLoop (hnew.table_of_table ht)]
  · rw [hm₀]
    simp only [Except.bind]

/-! ## System calls -/

theorem syscall_congr {body body' : Sys → Except Halt Sys} (h : body s = body' s) :
    syscall p body s = syscall p body' s := by
  unfold syscall
  rw [h]

theorem Inv.strict_growproc (h : Inv L lost eager leak s use) (hp : Live s p) :
    Strict.growproc L p n s = growproc L p n s := by
  obtain ⟨t, ht⟩ := h.exists_table hp
  unfold Strict.growproc
  simp only
  split_ifs with hpos
  · rw [h.owned.strict_allocuvm ht fun v => h.bound p v hp]
    unfold growproc
    simp only
    rw [if_pos hpos]
    rfl
  · rfl

theorem Inv.strict_fork (h : Inv L lost eager leak s use) (hp : Live s p) :
    fork L Strict.cowuvm p s = fork L cowuvm p s := by
  cases hfind : (List.finRange NPROC).find? fun i => (s.procs i).state = .unused with
  | none =>
    rw [fork_of_no_slot hfind, fork_of_no_slot hfind]
  | some np =>
    by_cases hzero : s.mem.freelist = 0#32
    · rw [fork_of_no_page hfind (kalloc_of_eq_zero hzero), fork_of_no_page hfind (kalloc_of_eq_zero hzero)]
    · obtain ⟨k, m, hk, hkf, h₁, -⟩ := h.owned.kalloc_eq_some hzero
      obtain ⟨t, ht⟩ := h.exists_table hp
      have htk : t ≠ k := by
        rintro rfl
        simp [hkf] at ht
      rw [fork_eq hfind hp hk, fork_eq hfind hp hk,
        h₁.strict_cowuvm (by rw [Function.update_of_ne htk, ht]) (h.size p hp)]

theorem Image.strict_loadSegments : ∀ {k : ℕ} {off sz : Word} {m : Mem} {use : Page → Use},
    Image L lost d m₀ use₀ m use → Sized d sz m use → use t = .table d 0#10 → SegmentsFit ip k off sz →
    loadSegmentsWith Strict.mappages L cur d ip k off sz m = Cow.loadSegments L cur d ip k off sz m
  | 0, off, sz, m, use, _, _, _, _ => rfl
  | k + 1, off, sz, m, use, h, hsz, ht, hfit => by
    rw [Cow.loadSegments, loadSegmentsWith, loadSegmentsWith, ← Cow.allocuvm, ← Cow.loadSegments]
    rw [SegmentsFit] at hfit
    cases hread : ip.readi off 32#32 with
    | none => simp only
    | some bs =>
      rw [hread] at hfit
      simp only at hfit ⊢
      by_cases hlen : bs.length ≠ 32
      · rw [if_pos hlen, if_pos hlen]
      rw [if_neg hlen] at hfit
      rw [if_neg hlen, if_neg hlen]
      by_cases htype : (Proghdr.ofBytes bs).type ≠ ELF_PROG_LOAD
      · rw [if_pos htype] at hfit
        rw [if_pos htype, if_pos htype]
        exact h.strict_loadSegments hsz ht hfit
      rw [if_neg htype] at hfit
      rw [if_neg htype, if_neg htype]
      by_cases hmem : (Proghdr.ofBytes bs).memsz < (Proghdr.ofBytes bs).filesz
      · rw [if_pos hmem, if_pos hmem]
      rw [if_neg hmem, if_neg hmem, h.owned.strict_allocuvm ht hsz.bound]
      generalize Proghdr.ofBytes bs = ph at *
      cases halloc : Cow.allocuvm L d sz (ph.va + ph.memsz) m with
      | error e => simp only [Except.bind]
      | ok r =>
        obtain ⟨sz₁, m₁⟩ := r
        obtain ⟨use₁, h₁, ht₁, hsized⟩ := h.allocuvm hsz ht halloc
        simp only [Except.bind]
        by_cases hzero : sz₁ = 0#32
        · rw [if_pos hzero, if_pos hzero]
        obtain rfl := allocuvm_size halloc hzero
        rw [if_neg (not_or.2 ⟨hmem, hzero⟩)] at hfit
        obtain ⟨hsz₁, hle⟩ := hsized hzero
        rw [if_neg hzero, if_neg hzero]
        cases hload : Cow.loaduvm cur d ph.va ip ph.offset ph.filesz m₁ with
        | error e => simp only
        | ok r =>
          obtain ⟨ok, m₂⟩ := r
          cases ok with
          | false => simp only [Bool.false_eq_true, if_false]
          | true =>
            simp only [if_true]
            obtain ⟨h₂, hT₂⟩ := h₁.loaduvm ht₁ hsz₁ hfit.1 (BitVec.not_lt.1 hmem) hle hload
            exact h₂.strict_loadSegments (hsz₁.congr hT₂) ht₁ (hfit.2 (covers_of_loaduvm hload))

theorem Image.strict_loadImage {elf : List Byte} {argv : List (List Byte)} (h : Image L lost d m₀ use₀ m use)
    (hempty : ∀ v, userTable m use (d, v) = none) (hc : Complete use₀ d)
    (hfit : SegmentsFit ip (wordAt elf 44 &&& 0xFFFF#32).toNat (wordAt elf 28) 0#32) :
    loadImageWith Strict.mappages L cur d ip elf argv m = Cow.loadImage L cur d ip elf argv m := by
  obtain ⟨t, ht⟩ := (hc.keeps h.keeps).exists_table
  have hstart := Sized.zero hempty
  rw [Cow.loadImage, loadImageWith, loadImageWith, ← Cow.allocuvm, ← Cow.loadSegments,
    h.strict_loadSegments hstart ht hfit]
  cases hseg : Cow.loadSegments L cur d ip (wordAt elf 44 &&& 0xFFFF#32).toNat (wordAt elf 28) 0#32 m with
  | error e => simp only [Except.bind]
  | ok r =>
    obtain ⟨sz₁, m₁⟩ := r
    obtain ⟨use₁, h₁, ht₁, hsized⟩ := h.loadSegments hstart ht hfit hseg
    cases sz₁ with
    | none => simp only [Except.bind]
    | some sz₁ =>
      simp only [Except.bind]
      rewrite [h₁.owned.strict_allocuvm ht₁ (hsized sz₁ rfl).pgRoundUp.bound]
      cases Cow.allocuvm L d (paddr (pgRoundUp sz₁)) (paddr (pgRoundUp sz₁) + 4096#32) m₁ with
      | error e => simp only
      | ok r =>
        obtain ⟨sz₂, m₂⟩ := r
        by_cases hzero : sz₂ = 0#32
        · simp only [if_pos hzero]
        cases hpush : Cow.pushArgs cur d argv sz₂ [] m₂ with
        | error e => simp only [if_neg hzero, hpush]
        | ok r =>
          obtain ⟨stack, m₃⟩ := r
          cases stack with
          | none => simp only [if_neg hzero, hpush]
          | some stack =>
            obtain ⟨sp, args⟩ := stack
            simp only [if_neg hzero, hpush]

theorem Inv.strict_exec {file : Option Inode} {argv : List (List Byte)} (h : Inv L lost eager leak s use)
    (hfit : ∀ ip, file = some ip → ExecFits ip) :
    execWith Strict.mappages L p file argv s = Cow.exec L p file argv s := by
  unfold Cow.exec execWith
  rw [← Cow.loadImage]
  cases hread : file.bind fun ip => (ip.readi 0#32 52#32).map fun elf => (ip, elf) with
  | none => rfl
  | some r =>
    obtain ⟨ip, elf⟩ := r
    simp only
    by_cases hlen : elf.length < 52
    · rw [if_pos hlen, if_pos hlen]
    by_cases hmagic : wordAt elf 0 ≠ ELF_MAGIC
    · rw [if_neg hlen, if_neg hlen, if_pos hmagic, if_pos hmagic]
    have hsegments := segmentsFit_of_execFits hfit hread (Nat.not_lt.1 hlen) (not_not.1 hmagic)
    rw [if_neg hlen, if_neg hlen, if_neg hmagic, if_neg hmagic]
    obtain ⟨d, m₀, use₀, hm₀, hnew⟩ | ⟨m₀, use₀, hm₀, -⟩ := h.owned.setupkvm_cases
    · rw [hm₀]
      simp only [Except.bind]
      rewrite [hnew.image.strict_loadImage hnew.empty hnew.tables hsegments]
      cases Cow.loadImage L (s.procs p).pgdir d ip elf argv m₀ with
      | error e => simp only
      | ok r =>
        obtain ⟨sz, m⟩ := r
        cases sz with
        | none => simp only
        | some sz => simp only
    · rw [hm₀]
      simp only [Except.bind]

theorem Inv.strict_memStep (h : Inv L lost eager leak s use) (e : MemEvent) :
    Strict.step L s (.mem e) = memStep L cowuvm s e := by
  unfold memStep
  by_cases hrun : (s.procs e.proc).state = .runnable
  · have hp : Live s e.proc := live_of_runnable hrun
    rw [if_neg (not_not.2 hrun)]
    cases e with
    | fork p =>
      unfold Strict.step memStep
      simp only
      rw [if_neg (not_not.2 hrun)]
      exact syscall_congr (h.strict_fork hp)
    | sbrk p n =>
      unfold Strict.step
      simp only
      rw [if_neg (show ¬ (s.procs p).state ≠ .runnable from not_not.2 hrun)]
      exact syscall_congr (h.strict_growproc hp)
    | _ =>
      unfold Strict.step memStep
      simp only
      rw [if_neg (not_not.2 hrun)]
  · rw [if_pos hrun]
    cases e with
    | sbrk p n => exact if_pos hrun
    | _ => exact if_pos hrun

theorem Inv.strict_step (h : Inv L lost eager leak s use) {e : Event} (hfit : e.Fits) :
    Strict.step L s e = step L cowuvm s e := by
  cases e with
  | mem e => exact h.strict_memStep e
  | exec p file argv =>
    unfold Strict.step step
    simp only
    rw [syscall_congr (h.strict_exec hfit)]

theorem strict_boot (L : Layout) (ram : Page → PageData) (init : List Byte) :
    Strict.boot L ram init = boot L ram init := by
  obtain ⟨m, f₀, m₁, hm, hk, ⟨m₂, hm₂, -⟩ | ⟨d, m₂, use, hm₂, hstart⟩⟩ := kvmalloc_cases L ram
  · unfold Strict.boot boot bootWith
    rw [hm]
    simp only [Except.bind, hk, hm₂]
  · unfold Strict.boot boot bootWith
    rw [hm]
    simp only [Except.bind, hk, hm₂]
    unfold userinitWith allocproc
    rw [find_init]
    by_cases hzero : m₂.freelist = 0#32
    · simp only [Sys.modify, kalloc_of_eq_zero hzero]
    · obtain ⟨k, m₃, hk, hkf, h₃, -⟩ := hstart.owned.kalloc_eq_some hzero
      simp only [Sys.modify, hk]
      obtain ⟨d', m₄, use₄, hm₄, hnew⟩ | ⟨m₄, use₄, hm₄, -⟩ := h₃.setupkvm_cases
      · obtain ⟨t, ht⟩ := Complete.exists_table hnew.tables
        rw [hm₄]
        simp only [Except.bind]
        rw [hnew.owned.strict_inituvm ht, inituvm]
      · rw [hm₄]
        simp only [Except.bind]

/-! ## Reachable states -/

/-- User pages are mapped in `d` without memory. -/
structure MapsUserPages (d : Page) (m : Mem) : Prop where
  walkpgdir : ∀ a, IsUser a → ∃ e, ∀ create, walkpgdir d a create m = (some e, m)
  mappages : ∀ la size pa perm ok m', 0 < size.toNat → la.toNat + size.toNat ≤ USERTOP.toNat →
    mappages d la size pa perm m = .ok (ok, m') → ok = true

theorem FirstTable.mapsUserPages (h : FirstTable m d) : MapsUserPages d m := by
  refine ⟨fun a ha => ⟨_, h.walkpgdir_eq ha⟩, fun la size pa perm ok m' hpos hend hrun => ?_⟩
  rw [← h.strict_mappages hpos hend] at hrun
  exact Strict.mapLoop_eq_ok hrun

/-- Mapping a user page needs no memory: in the page directories that are in use, in one that `setupkvm`
would return now, and in all calls of `mappages` for user pages within the next event or a `copyuvm`. -/
structure MapsWithoutMemory (L : Layout) (s : Sys) : Prop where
  dirs : ∀ d, IsDir s d → MapsUserPages d s.mem
  setupkvm : ∀ d m, setupkvm L s.mem = .ok (some d, m) → MapsUserPages d m
  step : ∀ e : Event, e.Fits → Strict.step L s e = step L cowuvm s e
  copyuvm : ∀ p, Live s p →
    Strict.copyuvm L (s.procs p).pgdir (s.procs p).sz s.mem = copyuvm L (s.procs p).pgdir (s.procs p).sz s.mem

theorem Inv.mapsWithoutMemory (h : Inv L lost eager leak s use) : MapsWithoutMemory L s := by
  refine ⟨fun d hd => ?_, fun d m hrun => ?_, fun e hfit => h.strict_step hfit, fun p hp => ?_⟩
  · obtain ⟨t, ht⟩ := (h.complete d ((h.dirs d).2 hd)).exists_table
    exact (h.owned.firstTable ht).mapsUserPages
  · obtain ⟨d', m₀, use₀, hm₀, hnew⟩ | ⟨m₀, use₀, hm₀, -⟩ := h.owned.setupkvm_cases
    · obtain ⟨hd, rfl⟩ := Prod.mk.inj (Except.ok.inj (hrun.symm.trans hm₀))
      obtain rfl := Option.some.inj hd
      obtain ⟨t, ht⟩ := Complete.exists_table hnew.tables
      exact (hnew.owned.firstTable ht).mapsUserPages
    · rw [hm₀] at hrun
      cases hrun
  · obtain ⟨t, ht⟩ := h.exists_table hp
    exact h.owned.strict_copyuvm ht (h.size p hp)

/-- Mapping a user page needs no memory, at the start of the kernel and after every run without a failure
of `kalloc` inside `cowHandler` whose `exec`s meet no segment that wraps around. -/
theorem mapsWithoutMemory_of_run {ram : Page → PageData} {init : List Byte} {es : List Event} {s₀ : Sys}
    (hboot : boot L ram init = .ok s₀)
    (hes : Trace.Along (Cow.next L) (fun s e => ¬ e.Fails s ∧ e.Fits) s₀ es)
    (hrun : Trace.run (Cow.next L) s₀ es = some s) :
    Strict.boot L ram init = .ok s₀ ∧ MapsWithoutMemory L s := by
  obtain ⟨leak, use, h⟩ := exists_inv_of_run hboot hes hrun
  exact ⟨(strict_boot L ram init).trans hboot, h.mapsWithoutMemory⟩

theorem mapsWithoutMemory_of_run_fork_store : ∃ s₀ s,
    boot smallLayout blankRam [] = .ok s₀ ∧
    Trace.run (Cow.next smallLayout) s₀ [.mem (.fork initSlot), .mem (.store initSlot 0#32 7#8)] = some s ∧
    MapsWithoutMemory smallLayout s := by
  obtain ⟨s₀, s₁, s₂, hboot, hn₁, hn₂, hfails⟩ := exists_fork_store
  have hrun : Trace.run (Cow.next smallLayout) s₀
      [.mem (.fork initSlot), .mem (.store initSlot 0#32 7#8)] = some s₂ := by
    rw [Trace.run_cons, hn₁, Option.bind_some, Trace.run_cons, hn₂, Option.bind_some, Trace.run_nil]
  refine ⟨s₀, s₂, hboot, hrun, (mapsWithoutMemory_of_run hboot ?_ hrun).2⟩
  exact Trace.along_cons_of_eq ⟨id, trivial⟩ hn₁ (Trace.along_cons_of_eq ⟨hfails, trivial⟩ hn₂ trivial)

/-! ## A segment on a page directory -/

/-- The page tables that are left if `t` becomes an ordinary frame of the kernel. -/
theorem Frames.update_kern_eq_table_iff (h : Frames L lost m use) {e : Page} {i j : Index}
    (ht : use t = .table d i) :
    Function.update use t .kern f = .table e j ↔ use f = .table e j ∧ (e, j) ≠ (d, i) := by
  by_cases hk : (e, j) = (d, i)
  · obtain ⟨rfl, rfl⟩ := Prod.mk.inj hk
    refine iff_of_false (fun hf => ?_) fun hf => hf.2 rfl
    have hft : f ≠ t := by
      rintro rfl
      rw [Function.update_self] at hf
      cases hf
    rw [Function.update_of_ne hft] at hf
    exact hft (h.table_unique ht hf)
  · have hu : Use.table e j ≠ .table d i := by
      intro hu
      obtain ⟨rfl, rfl⟩ := Use.table.inj hu
      exact hk rfl
    rw [update_eq_iff (by rw [ht]; exact hu.symm) (by simp)]
    exact (and_iff_left hk).symm

/-- An entry of a page directory is cleared. -/
theorem Frames.unhook (h : Frames L lost m use) {i : Index} (ht : use t = .table d i) :
    Frames L lost (m.write d i 0#32) (Function.update use t .kern) := by
  have hd := (h.table t d i ht).1
  have hdir : ∀ e, Function.update use t .kern e = .dir ↔ use e = .dir :=
    update_eq_iff (by simp [ht]) (by simp)
  obtain ⟨l, hchain, hnodup, hmem, hlen⟩ := h.free
  refine ⟨fun g hg => h.range g fun hx => hg ((update_eq_iff (by simp [ht]) (by simp) g).2 hx),
    ⟨l, ?_, hnodup, fun g => ?_, hlen⟩, fun e j he => ?_, fun g e j hg => ?_, fun g hg => ?_⟩
  · refine hchain.congr fun g hg => Mem.write_page_of_ne _ _ _ ?_
    rintro rfl
    rw [(hmem g).1 hg] at hd
    cases hd
  · rw [hmem g, update_eq_iff (u := .free) (by simp [ht]) (by simp)]
  · rw [hdir] at he
    by_cases hk : (e, j) = (d, i)
    · obtain ⟨rfl, rfl⟩ := Prod.mk.inj hk
      rw [Mem.write_page_self, Function.update_self]
      exact Or.inl rfl
    · rw [Mem.write_word_of_ne _ _ hk]
      cases h.pde e j he with
      | inl hzero => exact Or.inl hzero
      | inr htable =>
        obtain ⟨g, hg⟩ := htable
        exact Or.inr ⟨g, (h.update_kern_eq_table_iff ht).2 ⟨hg, hk⟩⟩
  · obtain ⟨hg', hk⟩ := (h.update_kern_eq_table_iff ht).1 hg
    rw [hdir, Mem.write_word_of_ne _ _ hk]
    exact h.table g e j hg'
  · show m.refCnt g = 1#32
    by_cases hgt : g = t
    · rw [hgt]
      exact h.ref t (Or.inr (Or.inl ⟨d, _, ht⟩))
    · rw [Function.update_of_ne hgt] at hg
      exact h.ref g hg

/-- The pages behind the entry are not mapped any more. -/
theorem Frames.pteOf_unhook (h : Frames L lost m use) {i : Index} (ht : use t = .table d i) {e v : Page}
    (he : use e = .dir) :
    pteOf (m.write d i 0#32) e v = if (e, pdx v) = (d, i) then none else pteOf m e v := by
  have he' : Function.update use t .kern e = .dir := (update_eq_iff (by simp [ht]) (by simp) e).2 he
  by_cases htab : ∃ g, Function.update use t .kern g = .table e (pdx v)
  · obtain ⟨g, hg⟩ := htab
    obtain ⟨hg', hk⟩ := (h.update_kern_eq_table_iff ht).1 hg
    have hgd : g ≠ d := by
      rintro rfl
      rw [(h.table t g _ ht).1] at hg'
      cases hg'
    rw [if_neg hk, (h.unhook ht).pteOf_eq_some hg, h.pteOf_eq_some hg', Mem.write_page_of_ne _ _ _ hgd]
  · rw [not_exists] at htab
    rw [(h.unhook ht).pteOf_eq_none he' htab]
    split_ifs with hk
    · rfl
    · exact (h.pteOf_eq_none he fun g hg => htab g ((h.update_kern_eq_table_iff ht).2 ⟨hg, hk⟩)).symm

/-- A page directory without user pages loses a page table. -/
theorem Owned.unhook (h : Owned L lost m use) {i : Index} (ht : use t = .table d i)
    (hempty : ∀ v, userTable m use (d, v) = none) :
    Owned L lost (m.write d i 0#32) (Function.update use t .kern) := by
  have hdir : ∀ e, Function.update use t .kern e = .dir ↔ use e = .dir :=
    update_eq_iff (by simp [ht]) (by simp)
  have hT : userTable (m.write d i 0#32) (Function.update use t .kern) = userTable m use := by
    funext k
    obtain ⟨e, v⟩ := k
    by_cases he : use e = .dir
    · have hnone := hempty v
      unfold userTable at hnone ⊢
      rw [if_pos ((hdir e).2 he), if_pos he, h.frames.pteOf_unhook ht he]
      split_ifs with hk
      · obtain ⟨rfl, -⟩ := Prod.mk.inj hk
        rw [if_pos he] at hnone
        rw [hnone]
        rfl
      · rfl
    · unfold userTable
      rw [if_neg fun hx => he ((hdir e).1 hx), if_neg he]
  refine ⟨h.frames.unhook ht, ?_, fun e v pte he hv hp => ?_⟩
  · rw [hT]
    exact h.counts.congr (fun e he => Or.inl ((hdir e).2 he)) (update_eq_iff (by simp [ht]) (by simp))
      fun _ _ => rfl
  · rw [h.frames.pteOf_unhook ht ((hdir e).1 he)] at hp
    split_ifs at hp
    exact h.present e v pte ((hdir e).1 he) hv hp

/-- After an `exec` of a file with a segment that wraps around to the page directory of the kernel, that
directory has no page table for user memory any more. -/
theorem not_mapsWithoutMemory_wrappingFile : ∃ s₀ s,
    boot smallLayout blankRam [] = .ok s₀ ∧
    Trace.Along (Cow.next smallLayout) (fun s e => ¬ e.Fails s) s₀
      [.exec initSlot (some (wrappingFile s₀.kpgdir)) []] ∧
    Trace.run (Cow.next smallLayout) s₀ [.exec initSlot (some (wrappingFile s₀.kpgdir)) []] = some s ∧
    ¬ MapsWithoutMemory smallLayout s := by
  obtain ⟨s₀, use, d, m₀, use₀, m₁, use₁, h⟩ := exists_loading
  obtain ⟨f₀, hb⟩ := h.booted
  have hinv := hb.inv
  have hk : use s₀.kpgdir = .dir := (hinv.dirs _).2 (Or.inl rfl)
  have hkd : s₀.kpgdir ≠ d := h.newDir.not_fresh (by simp [hk])
  have hk₁ : use₁ s₀.kpgdir = .dir := by
    rw [h.keeps.eq_iff (by simp) (by simp), h.newDir.dir_iff]
    exact Or.inr hk
  obtain ⟨t, ht⟩ := (hinv.complete _ hk).exists_table
  have ht₁ : use₁ t = .table s₀.kpgdir 0#10 := by
    rw [h.keeps.eq_iff (by simp) (by simp), h.newDir.eq_iff (by simp) (by simp)
      fun i hx => hkd (Use.table.inj hx).1]
    exact ht
  have hempty : ∀ v, userTable m₁ use₁ (s₀.kpgdir, v) = none := by
    intro v
    rw [h.entries _ hkd, h.newDir.entries, hinv.kernel v]
  have hlost : Owned smallLayout 0#32
      (m₁.setPage s₀.kpgdir (writeBytes 0#12 [0#8, 0#8, 0#8, 0#8] (m₁.page s₀.kpgdir)))
      (Function.update use₁ t .kern) := by
    rw [writeBytes_zero]
    exact h.owned.unhook ht₁ hempty
  -- the image is given up
  obtain ⟨t', ht'⟩ := h.complete.exists_table
  have hd₂ : Function.update use₁ t .kern d = .dir := (update_eq_iff (by simp [ht₁]) (by simp) d).2 h.dir
  have ht₂ : Function.update use₁ t .kern t' = .table d 0#10 :=
    (update_eq_iff (by simp [ht₁, hkd]) (by simp) t').2 ht'
  obtain ⟨m', use', hm', hfreed⟩ := hlost.freevm_eq_ok hd₂ ht₂
  have hstep := h.next (by simp [hk₁]) hm'
  refine ⟨s₀, { s₀ with mem := m' }, h.boot, Trace.along_cons_of_eq id hstep trivial,
    Trace.run_singleton hstep, fun hx => ?_⟩
  have hk₂ : Function.update use₁ t .kern s₀.kpgdir = .dir :=
    (update_eq_iff (by simp [ht₁]) (by simp) s₀.kpgdir).2 hk₁
  have hk' : use' s₀.kpgdir = .dir := hfreed.dir_iff.2 ⟨hk₂, hkd⟩
  have hpde : m'.page s₀.kpgdir 0#10 = 0#32 := by
    cases hfreed.owned.frames.pde _ 0#10 hk' with
    | inl hzero => exact hzero
    | inr htable =>
      obtain ⟨g, hg⟩ := htable
      have hg₂ := ((hfreed.eq_iff (by simp) (by simp)).1 hg).1
      exact absurd rfl ((h.owned.frames.update_kern_eq_table_iff ht₁).1 hg₂).2
  obtain ⟨e, he⟩ := (hx.dirs s₀.kpgdir (Or.inl rfl)).walkpgdir 0#20 (by decide)
  have hwalk := he false
  unfold walkpgdir at hwalk
  rw [show pdx 0#20 = 0#10 by decide, show ({ s₀ with mem := m' } : Sys).mem = m' from rfl, hpde] at hwalk
  simp only [has_zero, Bool.false_eq_true, if_false, if_true] at hwalk
  cases hwalk

end SystemsProjects.Cow
