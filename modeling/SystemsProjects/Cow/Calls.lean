import SystemsProjects.Cow.Access

/-!
# Growing, shrinking and reaping

`sbrk` and `wait` keep the invariant and do to the pages of a process what they do to private pages.
-/

namespace SystemsProjects.Cow

open Sharing Holding

variable {L : Layout} {lost : Word} {leak : Set Page} {eager : Bool} {s s' : Sys} {m m' : Mem}
  {use use' : Page → Use} {f g d k t v : Page} {p i : Slot} {sz n : Word} {fails : Prop}

/-! ## sbrk -/

/-- All pages of a process. -/
def pagesOf (p : Slot) : Set (Slot × Page) := {k | k.1 = p}

theorem modify_sz_self (s : Sys) (p : Slot) :
    (s.modify p fun q => { q with sz := (s.procs p).sz }) = s := by
  unfold Sys.modify
  congr 1
  exact Function.update_eq_self p s.procs

/-- A process changes its size and its own entries. -/
theorem Inv.resize_follows (h : Inv L lost eager leak s use) (hp : Live s p)
    (howned : Owned L lost m' use') {a c : ℕ}
    (honly : Only (span (s.procs p).pgdir a c) s.mem use m' use')
    (hw : ∀ k ∈ span (s.procs p).pgdir a c, ∀ f b, userTable m' use' k = some (f, b) → b = true)
    (hsz : sz ≤ USERTOP)
    (hbound : ∀ v, pagesBelow sz ≤ v.toNat → userTable m' use' ((s.procs p).pgdir, v) = none)
    {ar : Except Halt Private.Sys}
    (har : m'.oom = false → ar = .ok ((abs s).modify p fun q =>
      { q with sz := sz, page := fun v => view m' use' ((s.procs p).pgdir, v) })) :
    Follows L lost eager leak s use (pagesOf p) ∅ fails
      (.ok { s.modify p fun q => { q with sz := sz } with mem := m' }) ar := by
  have hproc : ∀ i, i ≠ p → (s.modify p fun q => { q with sz := sz }).procs i = s.procs i :=
    fun i hi => Function.update_of_ne hi _ _
  have hself : (s.modify p fun q => { q with sz := sz }).procs p = { s.procs p with sz := sz } :=
    Function.update_self _ _ _
  have hfields : ∀ i, ((s.modify p fun q => { q with sz := sz }).procs i).pgdir = (s.procs i).pgdir ∧
      ((s.modify p fun q => { q with sz := sz }).procs i).kstack = (s.procs i).kstack ∧
      ((s.modify p fun q => { q with sz := sz }).procs i).state = (s.procs i).state := by
    intro i
    by_cases hi : i = p
    · rw [hi, hself]
      exact ⟨rfl, rfl, rfl⟩
    · rw [hproc i hi]
      exact ⟨rfl, rfl, rfl⟩
  have hinv : Inv L lost eager leak { s.modify p fun q => { q with sz := sz } with mem := m' } use' := by
    refine h.resize hp howned honly (fun k hk => hk.1) (fun _ => hw) rfl hfields
      (fun i hi => by rw [hproc i hi]) ?_ fun v hv => ?_
    · show ((s.modify p fun q => { q with sz := sz }).procs p).sz ≤ USERTOP
      rw [hself]
      exact hsz
    · apply hbound
      rw [← show ((s.modify p fun q => { q with sz := sz }).procs p).sz = sz by rw [hself]]
      exact hv
  have hout : ∀ i v, Live s i → i ≠ p → ((s.procs i).pgdir, v) ∉ span (s.procs p).pgdir a c :=
    fun i v hi hip hx => hip (h.pgdir_inj i p hi hp hx.1)
  refine Or.inr ⟨use', leak, hinv, ⟨fun g => honly.keeps.eq_iff (by simp) (by simp), rfl,
    fun i _ _ => ⟨(hfields i).1, (hfields i).2.1⟩, fun i v hi _ hK => ?_,
    fun _ _ _ _ hx => absurd hx (Set.notMem_empty _)⟩, fun hoom => ⟨rfl, ?_⟩⟩
  · show frame (userTable m' use') _ = _
    rw [frame, frame, honly.entries _ (hout i v hi hK)]
  · rw [har hoom]
    congr 1
    refine (abs_eq_modify (by rfl) (by rfl) (by rfl) ?_ fun i hi => ?_).symm
    · have hlive : Live { s.modify p fun q => { q with sz := sz } with mem := m' } p := by
        unfold Live
        rw [(hfields p).2.2]
        exact hp
      have hpage : (absProc m' ((s.modify p fun q => { q with sz := sz }).procs p)).page =
          fun v => view m' use' ((s.procs p).pgdir, v) := by
        funext v
        rw [show (absProc m' ((s.modify p fun q => { q with sz := sz }).procs p)).page v = _ from
          abs_page hinv hlive v]
        show view m' use' (((s.modify p fun q => { q with sz := sz }).procs p).pgdir, v) = _
        rw [(hfields p).1]
      show absProc m' ((s.modify p fun q => { q with sz := sz }).procs p) = _
      rw [← hpage, hself]
      rfl
    · refine h.absProc_eq hinv (hproc i hi) fun hlive u => ?_
      exact honly.views _ (hout i u hlive hi)

/-- A process changes its own entries and keeps its size. -/
theorem Inv.remap_follows (h : Inv L lost eager leak s use) (hp : Live s p)
    (howned : Owned L lost m' use') {a c : ℕ}
    (honly : Only (span (s.procs p).pgdir a c) s.mem use m' use')
    (hw : ∀ k ∈ span (s.procs p).pgdir a c, ∀ f b, userTable m' use' k = some (f, b) → b = true)
    (hbound : ∀ v, pagesBelow (s.procs p).sz ≤ v.toNat →
      userTable m' use' ((s.procs p).pgdir, v) = none)
    {ar : Except Halt Private.Sys}
    (har : m'.oom = false → ar = .ok ((abs s).modify p fun q =>
      { q with page := fun v => view m' use' ((s.procs p).pgdir, v) })) :
    Follows L lost eager leak s use (pagesOf p) ∅ fails (.ok { s with mem := m' }) ar := by
  rw [show ({ s with mem := m' } : Sys) =
    { s.modify p fun q => { q with sz := (s.procs p).sz } with mem := m' } by rw [modify_sz_self]]
  exact h.resize_follows hp howned honly hw (h.size p hp) hbound har

/-- The new size is entered into the process table if it is not 0. -/
def withSize (s : Sys) (p : Slot) (r : Word × Mem) : Sys :=
  if r.1 = 0#32 then { s with mem := r.2 } else { s.modify p fun q => { q with sz := r.1 } with mem := r.2 }

theorem withSize_self (s : Sys) (p : Slot) (m : Mem) : withSize s p ((s.procs p).sz, m) = { s with mem := m } := by
  unfold withSize
  simp only [modify_sz_self, ite_self]

/-- `allocuvm` in `growproc`. -/
theorem Inv.grow_follows (h : Inv L lost eager leak s use) (hp : Live s p) (hle : (s.procs p).sz ≤ sz)
    (hup : sz ≤ USERTOP) (hne : sz ≠ 0#32) :
    Follows L lost eager leak s use (pagesOf p) ∅ fails
      ((allocuvm L (s.procs p).pgdir (s.procs p).sz sz s.mem).map (withSize s p))
      (.ok ((abs s).modify p fun q =>
        { q with
          sz := sz
          page := fun v =>
            if pagesBelow q.sz ≤ v.toNat ∧ v.toNat < pagesBelow sz then some (fun _ => 0#32)
            else q.page v })) := by
  obtain ⟨t, ht⟩ := h.exists_table hp
  obtain ⟨sz', m', use', hrun, howned, honly, ⟨rfl, hoom, hnew⟩ | ⟨rfl, hoom, hnone⟩⟩ :=
    h.owned.allocuvm_cases ht hle hup fun k hk => by
      obtain ⟨e, u⟩ := k
      obtain rfl : e = (s.procs p).pgdir := hk.1
      exact h.bound p u hp hk.2.1
  · rw [hrun]
    show Follows L lost eager leak s use (pagesOf p) ∅ fails (.ok (withSize s p (sz', m'))) _
    rw [withSize, if_neg hne]
    refine h.resize_follows hp howned honly (fun k hk f b hT => ?_) hup (fun v hv => ?_) fun _ => ?_
    · obtain ⟨g, hg⟩ := (hnew k hk).1
      rw [hg] at hT
      exact (Prod.mk.inj (Option.some.inj hT)).2.symm
    · rw [honly.entries _ fun hx => absurd hx.2.2 (Nat.not_lt.2 hv)]
      exact h.bound p v hp (le_trans (pagesBelow_mono hle) hv)
    · have hpage : (fun v => if pagesBelow (s.procs p).sz ≤ v.toNat ∧ v.toNat < pagesBelow sz' then
          some (fun _ => 0#32) else ((abs s).procs p).page v) =
          fun v => view m' use' ((s.procs p).pgdir, v) := by
        funext v
        split_ifs with hv
        · exact (hnew _ (mem_span.2 hv)).2.symm
        · rw [abs_page h hp, honly.views _ fun hx => hv hx.2]
      congr 1
      apply Private.Sys.modify_congr
      rw [abs_sz, hpage]
  · rw [hrun]
    show Follows L lost eager leak s use (pagesOf p) ∅ fails (.ok (withSize s p (0#32, m'))) _
    rw [withSize, if_pos rfl]
    refine h.remap_follows hp howned honly (fun k hk f b hT => ?_) (fun v hv => ?_) fun hx => ?_
    · rw [hnone k hk] at hT
      cases hT
    · by_cases hk : ((s.procs p).pgdir, v) ∈ span (s.procs p).pgdir (pagesBelow (s.procs p).sz)
        (pagesBelow sz)
      · exact hnone _ hk
      · rw [honly.entries _ hk]
        exact h.bound p v hp hv
    · rw [hoom] at hx
      cases hx

/-- `deallocuvm` in `growproc`. -/
theorem Inv.shrink_follows (h : Inv L lost eager leak s use) (hp : Live s p) (hlt : sz < (s.procs p).sz) :
    Follows L lost eager leak s use (pagesOf p) ∅ fails
      ((deallocuvm L (s.procs p).pgdir (s.procs p).sz sz s.mem).map (withSize s p))
      (.ok ((abs s).modify p fun q =>
        { q with
          sz := if sz = 0#32 then q.sz else sz
          page := fun v =>
            if pagesBelow sz ≤ v.toNat ∧ v.toNat < pagesBelow q.sz then none else q.page v })) := by
  obtain ⟨t, ht⟩ := h.exists_table hp
  have hup := h.size p hp
  obtain ⟨m', use', hrun, howned, honly, hnone, -, hoom⟩ := h.owned.deallocuvm_eq_ok ht hlt hup
  have hbound : ∀ v : Page, pagesBelow sz ≤ v.toNat → userTable m' use' ((s.procs p).pgdir, v) = none := by
    intro v hv
    by_cases hlt' : v.toNat < pagesBelow (s.procs p).sz
    · exact hnone _ (mem_span.2 ⟨hv, hlt'⟩)
    · rw [honly.entries _ fun hx => hlt' hx.2.2]
      exact h.bound p v hp (Nat.not_lt.1 hlt')
  have hpage : (fun v => if pagesBelow sz ≤ v.toNat ∧ v.toNat < pagesBelow (s.procs p).sz then none
      else ((abs s).procs p).page v) = fun v => view m' use' ((s.procs p).pgdir, v) := by
    funext v
    split_ifs with hv
    · exact (view_eq_none_iff.2 (hnone _ (mem_span.2 hv))).symm
    · rw [abs_page h hp, honly.views _ fun hx => hv hx.2]
  rw [hrun]
  show Follows L lost eager leak s use (pagesOf p) ∅ fails (.ok (withSize s p (sz, m'))) _
  have hw : ∀ k ∈ span (s.procs p).pgdir (pagesBelow sz) (pagesBelow (s.procs p).sz), ∀ f b,
      userTable m' use' k = some (f, b) → b = true := by
    intro k hk f b hT
    rw [hnone k hk] at hT
    cases hT
  unfold withSize
  by_cases hzero : sz = 0#32
  · simp only [if_pos hzero]
    refine h.remap_follows hp howned honly hw (fun v hv => ?_) fun _ => ?_
    · exact hbound v (le_trans (pagesBelow_mono (BitVec.le_of_lt hlt)) hv)
    · congr 1
      apply Private.Sys.modify_congr
      rw [abs_sz, hpage]
  · simp only [if_neg hzero]
    refine h.resize_follows hp howned honly hw (BitVec.le_trans (BitVec.le_of_lt hlt) hup) hbound fun _ => ?_
    congr 1
    apply Private.Sys.modify_congr
    rw [abs_sz, hpage]

/-- An `sbrk` that returns has done nothing, has called `allocuvm` or has called `deallocuvm`. -/
theorem Inv.growproc_cases (h : Inv L lost eager leak s use) (hp : Live s p) (hs' : growproc L p n s = .ok s') :
    s' = s ∨
    (∃ sz m' use', (s.procs p).sz ≤ (s.procs p).sz + n ∧ s' = withSize s p (sz, m') ∧
      Only (span (s.procs p).pgdir (pagesBelow (s.procs p).sz) (pagesBelow ((s.procs p).sz + n))) s.mem use m' use' ∧
      (sz = (s.procs p).sz + n ∧
        (∀ k ∈ span (s.procs p).pgdir (pagesBelow (s.procs p).sz) (pagesBelow ((s.procs p).sz + n)),
          ∃ g, userTable m' use' k = some (g, true)) ∨
      sz = 0#32 ∧
        ∀ k ∈ span (s.procs p).pgdir (pagesBelow (s.procs p).sz) (pagesBelow ((s.procs p).sz + n)),
          userTable m' use' k = none)) ∨
    ∃ m' use', n.toInt < 0 ∧ (s.procs p).sz + n < (s.procs p).sz ∧ s' = withSize s p ((s.procs p).sz + n, m') ∧
      Only (span (s.procs p).pgdir (pagesBelow ((s.procs p).sz + n)) (pagesBelow (s.procs p).sz)) s.mem use m' use' ∧
      ∀ k ∈ span (s.procs p).pgdir (pagesBelow ((s.procs p).sz + n)) (pagesBelow (s.procs p).sz),
        userTable m' use' k = none := by
  obtain ⟨t, ht⟩ := h.exists_table hp
  have hsz : (s.procs p).sz.toNat ≤ 160 * 4096 := h.size p hp
  have hlt32 := n.isLt
  unfold growproc at hs'
  simp only at hs'
  split_ifs at hs' with hpos hneg
  · by_cases hup : USERTOP < (s.procs p).sz + n
    · rw [allocuvm, allocuvmWith, if_pos hup] at hs'
      exact Or.inl (Except.ok.inj hs').symm
    have hnat : n.toNat < 2 ^ 31 := by
      rw [BitVec.toInt_eq_toNat_cond] at hpos
      split_ifs at hpos <;> omega
    have hle : (s.procs p).sz ≤ (s.procs p).sz + n := by
      rw [BitVec.le_def, BitVec.toNat_add]
      omega
    obtain ⟨sz, m', use', hrun, -, honly, hcases⟩ :=
      h.owned.allocuvm_cases ht hle (BitVec.not_lt.1 hup) fun k hk => by
        obtain ⟨e, u⟩ := k
        obtain rfl : e = (s.procs p).pgdir := hk.1
        exact h.bound p u hp hk.2.1
    rw [hrun] at hs'
    refine Or.inr (Or.inl ⟨sz, m', use', hle, (Except.ok.inj hs').symm, honly, ?_⟩)
    exact hcases.imp (fun hx => ⟨hx.1, fun k hk => (hx.2.2 k hk).1⟩) fun hx => ⟨hx.1, hx.2.2⟩
  · by_cases hle : (s.procs p).sz ≤ (s.procs p).sz + n
    · rw [deallocuvm, if_pos hle] at hs'
      have hs₁ : withSize s p ((s.procs p).sz, s.mem) = s' := Except.ok.inj hs'
      rw [← hs₁, withSize_self]
      exact Or.inl rfl
    obtain ⟨m', use', hrun, -, honly, hnone, -⟩ := h.owned.deallocuvm_eq_ok ht (BitVec.not_le.1 hle)
      (h.size p hp)
    rw [hrun] at hs'
    exact Or.inr (Or.inr ⟨m', use', hneg, BitVec.not_le.1 hle, (Except.ok.inj hs').symm, honly, hnone⟩)
  · exact Or.inl (Except.ok.inj hs').symm

theorem Inv.growproc_follows (h : Inv L lost eager leak s use) (hp : Live s p) :
    Follows L lost eager leak s use (pagesOf p) ∅ fails (growproc L p n s)
      (.ok (Private.growproc p n (abs s))) := by
  have hstay : Follows L lost eager leak s use (pagesOf p) ∅ fails (.ok s) (.ok (abs s)) :=
    Or.inr ⟨use, leak, h, Touches.refl CanWrite.empty, fun _ => ⟨rfl, rfl⟩⟩
  have hsz : (s.procs p).sz.toNat ≤ 160 * 4096 := h.size p hp
  have hlt32 := n.isLt
  unfold growproc Private.growproc
  simp only [abs_sz]
  by_cases hpos : 0 < n.toInt
  · rw [if_pos hpos, if_pos hpos]
    -- the sum does not overflow
    have hnat : 0 < n.toNat ∧ n.toNat < 2 ^ 31 := by
      rw [BitVec.toInt_eq_toNat_cond] at hpos
      split_ifs at hpos <;> omega
    have hsum : ((s.procs p).sz + n).toNat = (s.procs p).sz.toNat + n.toNat := by
      rw [BitVec.toNat_add, Nat.mod_eq_of_lt (by omega)]
    have hle : (s.procs p).sz ≤ (s.procs p).sz + n := by
      rw [BitVec.le_def]
      omega
    have hne : (s.procs p).sz + n ≠ 0#32 := by
      intro h0
      rw [h0, BitVec.toNat_zero] at hsum
      omega
    by_cases hup : USERTOP < (s.procs p).sz + n
    · simp only [hup, true_or, if_true]
      rw [allocuvm, allocuvmWith, if_pos hup]
      exact hstay
    · simp only [hup, BitVec.not_lt.2 hle, or_self, if_false]
      exact h.grow_follows hp hle (BitVec.not_lt.1 hup) hne
  · rw [if_neg hpos, if_neg hpos]
    by_cases hneg : n.toInt < 0
    · rw [if_pos hneg, if_pos hneg]
      by_cases hle : (s.procs p).sz ≤ (s.procs p).sz + n
      · simp only [hle, if_true]
        rw [deallocuvm, if_pos hle]
        show Follows L lost eager leak s use (pagesOf p) ∅ fails (.ok (withSize s p (_, s.mem))) _
        rw [withSize_self]
        exact hstay
      · simp only [hle, if_false]
        exact h.shrink_follows hp (BitVec.not_le.1 hle)
    · rw [if_neg hneg, if_neg hneg]
      exact hstay

/-! ## wait -/

/-- What is left of a slot after `wait`. -/
def Proc.reaped (q : Proc) : Proc :=
  { q with kstack := 0#20, state := .unused, pid := 0#32, parent := none, killed := false }

/-- The invariant after a zombie has been reaped. -/
theorem Inv.reap (h : Inv L lost eager leak s use) (hi : Live s i)
    (hT : userTable m (Function.update use (s.procs i).kstack .free) = userTable s.mem use)
    (hfreed : Freed L lost m (Function.update use (s.procs i).kstack .free) (s.procs i).pgdir m' use') :
    Inv L lost eager leak { s.modify i Proc.reaped with mem := m' } use' ∧
      Touches ∅ ∅ s use { s.modify i Proc.reaped with mem := m' } use' := by
  have hproc : ∀ j, j ≠ i → (s.modify i Proc.reaped).procs j = s.procs j := fun j hj =>
    Function.update_of_ne hj _ _
  have hself : (s.modify i Proc.reaped).procs i = (s.procs i).reaped := Function.update_self _ _ _
  have hlive : ∀ j, Live { s.modify i Proc.reaped with mem := m' } j ↔ Live s j ∧ j ≠ i := by
    intro j
    unfold Live
    by_cases hj : j = i
    · simp [hj, hself, Proc.reaped]
    · simp [hproc j hj, hj]
  have hstack : ∀ {u}, u ≠ .kern → u ≠ .free → ∀ g,
      (Function.update use (s.procs i).kstack .free g = u ↔ use g = u) := fun hk hf =>
    update_eq_iff (by rw [h.kern hi]; exact hk.symm) hf.symm
  have hi₁ := (hstack (by simp) (by simp) _).2 (h.dir hi)
  have hdir : ∀ e, use' e = .dir ↔ use e = .dir ∧ e ≠ (s.procs i).pgdir := by
    intro e
    rw [hfreed.dir_iff, hstack (by simp) (by simp)]
  have hkern : ∀ f, use' f = .kern ↔ use f = .kern ∧ f ≠ (s.procs i).kstack := by
    intro f
    rw [hfreed.eq_iff_of_ne hi₁ (by simp) (by simp) (by simp) (by simp)]
    by_cases hf : f = (s.procs i).kstack
    · simp [hf]
    · simp [hf]
  have hpg : ∀ j, Live s j → j ≠ i → (s.procs j).pgdir ≠ (s.procs i).pgdir := fun j hj hji hx =>
    hji (h.pgdir_inj j i hj hi hx)
  have hentry : ∀ e v, e ≠ (s.procs i).pgdir →
      userTable m' use' (e, v) = userTable s.mem use (e, v) := by
    intro e v he
    rw [hfreed.entries (e, v) he, hT]
  have hpgdirs : Held {j | Live { s.modify i Proc.reaped with mem := m' } j}
      (fun j => ((s.modify i Proc.reaped).procs j).pgdir) {s.kpgdir} {g | use' g = .dir} :=
    h.pgdirs.drop hi (fun j _ hji => congrArg Proc.pgdir (hproc j hji)) hlive hdir
  have hstacks : Held {j | Live { s.modify i Proc.reaped with mem := m' } j}
      (fun j => ((s.modify i Proc.reaped).procs j).kstack) leak {g | use' g = .kern} :=
    h.stacks.drop hi (fun j _ hji => congrArg Proc.kstack (hproc j hji)) hlive hkern
  refine ⟨Inv.of_held hfreed.owned (fun he k f b hk => ?_) (fun j => ?_) hpgdirs (fun e he => ?_) hstacks
    (fun j hj => ?_) (fun j v hj => ?_) (fun v => ?_), fun g => ?_, rfl, fun j _ hj => ?_,
    fun j v _ hj _ => ?_, fun _ _ _ _ hx => absurd hx (Set.notMem_empty _)⟩
  · have hd := (hfreed.owned.counts.entry k.1 k.2 f b hk).1
    have hk' : userTable m' use' k = some (f, b) := hk
    rw [show k = (k.1, k.2) from rfl, hentry _ _ ((hdir _).1 hd).2] at hk'
    exact h.writable he _ f b hk'
  · by_cases hj : j = i
    · rw [hj, hself]
      simp [Proc.reaped]
    · rw [hproc j hj]
      exact h.ready j
  · obtain ⟨he', hne⟩ := (hdir e).1 he
    intro j
    rw [← h.complete e he' j]
    refine exists_congr fun t => ?_
    rw [hfreed.eq_iff_of_ne hi₁ (by simp) (by simp) (by simp) fun j' hj' => hne (Use.table.inj hj').1,
      hstack (by simp) (by simp)]
  · obtain ⟨hj, hji⟩ := (hlive j).1 hj
    rw [hproc j hji]
    exact h.size j hj
  · obtain ⟨hj, hji⟩ := (hlive j).1 hj
    rw [hproc j hji, hentry _ v (hpg j hj hji)]
    exact h.bound j v hj
  · show userTable m' use' (s.kpgdir, v) = none
    rw [hentry _ v (h.pgdir_ne i hi).symm]
    exact h.kernel v
  · rw [hfreed.eq_iff_of_ne hi₁ (by simp) (by simp) (by simp) (by simp), hstack (by simp) (by simp)]
  · rw [hproc j ((hlive j).1 hj).2]
    exact ⟨rfl, rfl⟩
  · show frame (userTable m' use') _ = _
    rw [frame, frame, hentry _ v (hpg j ((hlive j).1 hj).1 ((hlive j).1 hj).2)]

/-- The kernel stack and the address space of a zombie can be given back. -/
theorem Inv.exists_reap (h : Inv L lost eager leak s use) (hi : Live s i) : ∃ m m' use',
    ((kfree L (s.procs i).kstack s.mem).bind fun mem => (freevm L (s.procs i).pgdir mem).map fun mem =>
      { s.modify i Proc.reaped with mem := mem }) = .ok { s.modify i Proc.reaped with mem := m' } ∧
    userTable m (Function.update use (s.procs i).kstack .free) = userTable s.mem use ∧
    (∀ g, g ≠ (s.procs i).kstack → m.page g = s.mem.page g) ∧ m'.oom = s.mem.oom ∧
    Freed L lost m (Function.update use (s.procs i).kstack .free) (s.procs i).pgdir m' use' := by
  obtain ⟨t, ht⟩ := h.exists_table hi
  obtain ⟨m, hm, h₁, hT₁, hpage, hoom₁⟩ := h.owned.kfree_kern (h.kern hi)
  have hkeep : ∀ {g : Page}, use g ≠ .kern →
      Function.update use (s.procs i).kstack .free g = use g := by
    intro g hg
    apply Function.update_of_ne
    rintro rfl
    exact hg (h.kern hi)
  obtain ⟨m', use', hm', hfreed⟩ := h₁.freevm_eq_ok (d := (s.procs i).pgdir) (t := t)
    (by rw [hkeep (by simp [h.dir hi]), h.dir hi]) (by rw [hkeep (by simp [ht]), ht])
  refine ⟨m, m', use', ?_, hT₁, hpage, hfreed.oom.trans hoom₁, hfreed⟩
  rw [hm]
  show (freevm L (s.procs i).pgdir m).map _ = _
  rw [hm']
  rfl

/-- A `wait` that returns has found no child, or has reaped one. -/
theorem Inv.wait_cases (h : Inv L lost eager leak s use) (hs' : wait L p s = .ok s') :
    s' = s ∨ ∃ i m m' use', Live s i ∧ s' = { s.modify i Proc.reaped with mem := m' } ∧
      userTable m (Function.update use (s.procs i).kstack .free) = userTable s.mem use ∧
      m'.oom = s.mem.oom ∧
      Freed L lost m (Function.update use (s.procs i).kstack .free) (s.procs i).pgdir m' use' := by
  unfold wait at hs'
  cases hfind : (List.finRange NPROC).find? fun i =>
      (s.procs i).parent = some p ∧ (s.procs i).state = .zombie with
  | none =>
    rw [hfind] at hs'
    simp only at hs'
    split_ifs at hs'
    exact Or.inl (Except.ok.inj hs').symm
  | some i =>
    have hzombie : (s.procs i).parent = some p ∧ (s.procs i).state = .zombie := by
      simpa using List.find?_some hfind
    have hi : Live s i := live_of_zombie hzombie.2
    obtain ⟨m, m', use', hrun, hT, -, hoom, hfreed⟩ := h.exists_reap hi
    rw [hfind] at hs'
    exact Or.inr ⟨i, m, m', use', hi, Except.ok.inj (hs'.symm.trans hrun), hT, hoom, hfreed⟩

theorem Inv.wait_follows (h : Inv L lost eager leak s use) :
    Follows L lost eager leak s use ∅ ∅ fails (wait L p s) (Private.wait p (abs s)) := by
  have hsame : ((List.finRange NPROC).find? fun i =>
        ((abs s).procs i).parent = some p ∧ ((abs s).procs i).state = .zombie) =
      (List.finRange NPROC).find? fun i =>
        (s.procs i).parent = some p ∧ (s.procs i).state = .zombie := rfl
  unfold wait Private.wait
  rw [hsame]
  cases hfind : (List.finRange NPROC).find? fun i =>
      (s.procs i).parent = some p ∧ (s.procs i).state = .zombie with
  | none =>
    by_cases hc : (∀ i, (s.procs i).parent ≠ some p) ∨ (s.procs p).killed
    · simp only [abs_parent, abs_killed, hc, if_true]
      exact Or.inr ⟨use, leak, h, Touches.refl CanWrite.empty, fun _ => ⟨rfl, rfl⟩⟩
    · simp only [abs_parent, abs_killed, hc, if_false]
      exact Or.inr ⟨_, rfl⟩
  | some i =>
    have hzombie : (s.procs i).parent = some p ∧ (s.procs i).state = .zombie := by
      simpa using List.find?_some hfind
    have hi : Live s i := live_of_zombie hzombie.2
    obtain ⟨m, m', use', hrun, hT₁, hpage, -, hfreed⟩ := h.exists_reap hi
    obtain ⟨hinv, htouch⟩ := h.reap hi hT₁ hfreed
    show Follows L lost eager leak s use ∅ ∅ fails ((kfree L (s.procs i).kstack s.mem).bind fun mem =>
        (freevm L (s.procs i).pgdir mem).map fun mem =>
          { s.modify i Proc.reaped with mem := mem }) _
    rw [hrun]
    have habs : abs { s.modify i Proc.reaped with mem := m' } = (abs s).modify i fun q =>
        { q with state := .unused, pid := 0#32, parent := none, killed := false, page := fun _ => none } := by
      refine abs_eq_modify (by rfl) (by rfl) (by rfl) ?_ fun j hj => ?_
      · show absProc m' ((s.modify i Proc.reaped).procs i) = _
        rw [show (s.modify i Proc.reaped).procs i = (s.procs i).reaped from Function.update_self _ _ _]
        rfl
      · refine h.absProc_eq hinv (Function.update_of_ne hj _ _) fun hlive v => ?_
        have hne : (s.procs j).pgdir ≠ (s.procs i).pgdir := fun hx => hj (h.pgdir_inj j i hlive hi hx)
        show view m' use' _ = _
        rw [hfreed.views _ hne, view, view, hT₁]
        cases hT : userTable s.mem use ((s.procs j).pgdir, v) with
        | none => rfl
        | some e =>
          rw [Option.map_some, Option.map_some, hpage]
          intro hx
          have hu := (h.owned.counts.entry _ _ e.1 e.2 hT).2.2
          rw [hx, h.kern hi] at hu
          cases hu
    exact Or.inr ⟨use', leak, hinv, htouch, fun _ => ⟨rfl, by rw [habs]⟩⟩

end SystemsProjects.Cow
