import SystemsProjects.Cow.Threads

/-!
# The steps of the threads

Each step of a handler or of `freevm`, and each store, keeps the invariant of the threads.  The
conditions of `SmpEvent.Apart` are used where a frame is decremented, stored to or put on the free list.
-/

namespace SystemsProjects.Cow

open Sharing

variable {L : Layout} {lost : Word} {P : Procs} {m m' : Mem} {thread : Slot → Thread} {x : Thread}
  {use use' : Page → Use} {f g d t v : Page} {p q : Slot} {k : Page × Page} {c : Fault} {mem : Option Page}
  {a a' : Slot → Page → Option PageData} {F S : Set Page}

/-! ## Kinds of steps -/

theorem ThreadsOk.dir_iff (h : ThreadsOk L lost P F m thread use a) (hp : P.live p) :
    use (P.pgdir p) = .dir ↔ (thread p).HasTables := by
  rw [h.dirs]
  constructor
  · rintro (hx | ⟨q, hq, hx, hqp⟩)
    · exact absurd hx (P.pgdir_ne p hp)
    · rwa [P.pgdir_inj q p hq hp hqp] at hx
  · exact fun hx => Or.inr ⟨p, hp, hx, rfl⟩

theorem Within.userTable_eq (hw : Within P p m thread use m' use' S) (h : Frames L lost m use)
    (hpages : ∀ g, g ∉ S → m'.page g = m.page g) :
    userTable m' use' = userTable m use ∧ ∀ d v, use d = .dir → pteOf m' d v = pteOf m d v := by
  have hpte : ∀ d v, use d = .dir → pteOf m' d v = pteOf m d v := fun d v hd =>
    h.pteOf_congr hd (hpages d (hw.notMem (by simp [hd, Use.Structural]))) fun t i ht =>
      hpages t (hw.notMem (by simp [ht, Use.Structural]))
  exact ⟨userTable_congr (fun d => hw.dir_iff) hpte, hpte⟩

/-- A step that writes no page table entry. -/
theorem ThreadsOk.frameStep (h : ThreadsOk L lost P F m thread use a) (hp : P.live p)
    (hw : Within P p m thread use m' use' S) (hpages : ∀ g, g ∉ S → m'.page g = m.page g)
    (hpend : ∀ v, (thread p).pending = some v → x.pending = some v)
    (hframes : Frames L lost m' use')
    (hcounts : Counts (visible P m' (Function.update thread p x) use') m'.refCnt use')
    (htab : x.HasTables ↔ (thread p).HasTables)
    (hok : ThreadOk P m' (Function.update thread p x) use' a' p x)
    (hholds : ∀ g, x.Holds m' (P.pgdir p) g → (thread p).Holds m (P.pgdir p) g ∨ use g ≠ .kern)
    (hseen : x.Runs → ∀ v, x.pending ≠ some v → view m' use' (P.pgdir p, v) = a' p v)
    (hpool : ∀ g ∈ F, use g = .user ∨ use g = .free ∨ (thread p).Allocated g →
      use' g = .user ∨ use' g = .free ∨ x.Allocated g)
    (ha : ∀ q, q ≠ p → a' q = a q) : ThreadsOk L lost P F m' (Function.update thread p x) use' a' := by
  obtain ⟨hT, hpte⟩ := hw.userTable_eq h.frames hpages
  refine h.step hp ⟨h.leaves hw fun v g hg => Or.inl ?_, hframes, hcounts, fun v pte hd hv hp' => ?_, ?_,
    htab.1, fun t _ ht => hw.table_eq ht, hok, hholds, hseen, hpool⟩ ha
  · unfold frame at hg ⊢
    rw [visible_own hp, Function.update_self, hT] at hg
    rw [visible_own hp]
    split_ifs at hg with hx
    · cases hg
    · rwa [if_neg fun hv => hx (hpend v hv)]
  · rw [hw.dir_iff] at hd
    rw [hpte _ _ hd] at hp'
    exact h.present _ v pte hd hv hp'
  · rw [hw.dir_iff, h.dir_iff hp, htab]

/-- A step that changes neither pages nor uses. -/
theorem Within.of_page (hpage : m'.page = m.page) : Within P p m thread use m' use ∅ :=
  ⟨fun _ _ => rfl, fun _ _ _ => by rw [hpage], fun _ hx => hx.elim, fun _ hx => hx.elim,
    fun _ _ _ _ _ _ hx => hx.elim, fun _ hx => hx.elim⟩

/-- A step that does not change the memory. -/
theorem ThreadsOk.move (h : ThreadsOk L lost P F m thread use a) (hp : P.live p)
    (hpend : x.pending = (thread p).pending) (htab : x.HasTables ↔ (thread p).HasTables)
    (hok : ThreadOk P m (Function.update thread p x) use a p x)
    (hholds : ∀ g, x.Holds m (P.pgdir p) g → (thread p).Holds m (P.pgdir p) g)
    (hruns : x.Runs → (thread p).Runs) (hpool : ∀ g, (thread p).Allocated g → x.Allocated g) :
    ThreadsOk L lost P F m (Function.update thread p x) use a := by
  refine h.frameStep hp (Within.of_page rfl) (fun _ _ => rfl) (fun v hv => by rw [hpend, hv]) h.frames ?_ htab hok
    (fun g hg => Or.inl (hholds g hg)) (fun hx v hv => ?_) (fun g _ hg => ?_) fun _ _ => rfl
  · rw [visible_congr hp rfl hpend]
    exact h.counts
  · exact h.seen p v hp (hruns hx) (by rwa [← hpend])
  · exact hg.imp_right (Or.imp_right (hpool g))

/-- What a process sees does not change if the frames are not its own. -/
theorem ThreadsOk.view_eq (h : ThreadsOk L lost P F m thread use a) (hp : P.live p)
    (hw : Within P p m thread use m' use' S) (hpages : ∀ g, g ∉ S → m'.page g = m.page g)
    (hpage : ∀ g ∈ S, m'.page g = m.page g ∨ use g ≠ .user) (hruns : (thread p).Runs)
    (hv : (thread p).pending ≠ some v) : view m' use' (P.pgdir p, v) = a p v := by
  rw [← h.seen p v hp hruns hv]
  refine view_congr (congrFun (hw.userTable_eq h.frames hpages).1 _) fun g b hT => ?_
  have hvis : visible P m thread use (P.pgdir p, v) = some (g, b) := by
    rw [visible_own hp, if_neg hv, hT]
  by_cases hg : g ∈ S
  · exact (hpage g hg).resolve_right fun hx => hx (h.counts.entry _ _ _ _ hvis).2.2
  · exact hpages g hg

/-- Only user frames have entries. -/
theorem ThreadsOk.visible_ne (h : ThreadsOk L lost P F m thread use a) (hg : use g ≠ .user) (k : Page × Page)
    (b : Bool) : visible P m thread use k ≠ some (g, b) :=
  fun hx => hg (h.counts.entry _ _ _ _ hx).2.2

/-- The frame that a handler copies is a user frame, or a lost one. -/
theorem ThreadsOk.source_ne (h : ThreadsOk L lost P F m thread use a) (hq : P.live q)
    (hx : thread q = .copying c mem) (hu : use g ≠ .user) (hr : use g ≠ .reserved) : c.pa ≠ g := by
  rintro rfl
  have hok := h.threads q hq
  rw [hx] at hok
  exact hok.2.2.1.elim hu hr

/-! ## cowHandler -/

/-- The reference count of a user frame is the number of its visible entries. -/
theorem ThreadsOk.toNat_refCnt (h : ThreadsOk L lost P F m thread use a) (hf : use f = .user) :
    (m.refCnt f).toNat = refs (visible P m thread use) f ∧ refCount f m = refs (visible P m thread use) f := by
  have hlt : refs (visible P m thread use) f < 2 ^ 31 :=
    lt_of_le_of_lt (h.counts.refs_le (fun d hd => (h.frames.range d (by simp [hd])).2) (fun _ hv => hv) f)
      (by decide)
  have hnat : (m.refCnt f).toNat = refs (visible P m thread use) f := by
    rw [h.counts.count f hf, BitVec.toNat_ofNat]
    omega
  refine ⟨hnat, ?_⟩
  unfold refCount
  rw [BitVec.toInt_eq_toNat_of_lt (by omega), hnat]

/-- The entry that a handler works on, until the handler gives up its frame. -/
theorem ThreadsOk.visible_entry (h : ThreadsOk L lost P F m thread use a) (hp : P.live p)
    (hpend : (thread p).pending = none) (hc : PteOk P m use p c) :
    visible P m thread use (P.pgdir p, pageOf c.va) = some (c.pa, false) ∧ use c.pa = .user := by
  have hvis : visible P m thread use (P.pgdir p, pageOf c.va) = some (c.pa, false) := by
    rw [visible_own hp, hpend, if_neg (by simp), hc.userTable_eq h.frames]
  exact ⟨hvis, (h.counts.entry _ _ _ _ hvis).2.2⟩

/-- What the process sees at the page of its fault. -/
theorem ThreadsOk.seen_entry (h : ThreadsOk L lost P F m thread use a) (hp : P.live p) (hruns : (thread p).Runs)
    (hpend : (thread p).pending = none) (hc : PteOk P m use p c) : a p (pageOf c.va) = some (m.page c.pa) := by
  rw [← h.seen p _ hp hruns (by rw [hpend]; simp), view_of_eq_some (hc.userTable_eq h.frames)]

theorem PteOk.table_ne (hc : PteOk P m use p c) (hg : ¬ (use g).Structural) : c.t ≠ g := by
  rintro rfl
  simp [hc.table, Use.Structural] at hg

/-- The entry stays while neither its page table nor its directory changes. -/
theorem PteOk.congr (hc : PteOk P m use p c) (htable : use' c.t = use c.t) (hpage : m'.page c.t = m.page c.t) :
    PteOk P m' use' p c :=
  ⟨by rw [htable, hc.table], hc.index, hc.user, by rw [hpage, hc.entry], hc.decoded⟩

theorem ThreadsOk.counting (h : ThreadsOk L lost P F m thread use a) (hp : P.live p)
    (hx : thread p = .counting c) : ThreadsOk L lost P F m
      (Function.update thread p (if refCount c.pa m ≤ 1 then .granting c else .allocating c)) use a := by
  have hok := h.threads p hp
  rw [hx] at hok
  obtain ⟨hvis, hu⟩ := h.visible_entry hp (by rw [hx]; rfl) hok
  split_ifs with hone
  · refine h.move hp (by rw [hx]; rfl) (by rw [hx]; rfl) ⟨hok, fun k hk => ?_⟩ (fun g hg => hg.elim)
      (fun _ => by rw [hx]; trivial) (fun g hg => by rw [hx] at hg; exact hg.elim)
    rw [visible_congr hp rfl (by rw [hx]; rfl)] at hk
    rw [(h.toNat_refCnt hu).2] at hone
    have hpos := refs_pos hk
    exact eq_of_refs_eq_one (by omega) (frame_of_eq_some hvis) hk
  · exact h.move hp (by rw [hx]; rfl) (by rw [hx]; rfl) hok (fun g hg => hg.elim)
      (fun _ => by rw [hx]; trivial) (fun g hg => by rw [hx] at hg; exact hg.elim)

/-- `kalloc` for a handler. -/
theorem ThreadsOk.allocating (h : ThreadsOk L lost P F m thread use a) (hp : P.live p)
    (hx : thread p = .allocating c) (hne : m.freelist ≠ 0#32) :
    ∃ g m', kalloc m = (some g, m') ∧ ThreadsOk L lost P F m'
      (Function.update thread p (.dropping c (some g))) (Function.update use g .kern) a := by
  have hok := h.threads p hp
  rw [hx] at hok
  obtain ⟨g, m', hk, hfree, hframes, hpage, href, -⟩ := h.frames.kalloc_eq_some hne
  have hw : Within P p m thread use m' (Function.update use g .kern) {g} :=
    Within.single (fun y _ _ => by rw [hpage]) (by simp [hfree, Use.Structural]) (by simp [hfree])
      (by simp [Use.Structural]) (fun q c' mem hq hq' hg =>
        absurd hg (h.source_ne hq hq' (by simp [hfree]) (by simp [hfree]))) (Or.inl (by rw [hpage]))
  have hpages : ∀ y, y ∉ ({g} : Set Page) → m'.page y = m.page y := fun y _ => by rw [hpage]
  have hT := (hw.userTable_eq h.frames hpages).1
  have hct : c.t ≠ g := hok.table_ne (by simp [hfree, Use.Structural])
  refine ⟨g, m', hk, h.frameStep hp hw hpages (fun v hv => ?_) hframes ?_ (by rw [hx]; rfl)
    ⟨hok.congr (Function.update_of_ne hct _ _) (by rw [hpage]), g, rfl, by simp⟩ (fun y hy => Or.inr ?_)
    (fun _ v _ => ?_) (fun y _ hy => ?_) fun _ _ => rfl⟩
  · rw [hx] at hv
    cases hv
  · rw [visible_congr hp hT (by rw [hx]; rfl)]
    refine h.counts.congr (fun d hd => Or.inl (hw.dir_iff.2 hd)) (fun y => ?_) fun y hy => ?_
    · by_cases hyg : y = g
      · simp [hyg, hfree]
      · rw [Function.update_of_ne hyg]
    · rw [href, Function.update_of_ne]
      rintro rfl
      rw [hfree] at hy
      cases hy
  · rw [← Option.some.inj (show some g = some y from hy), hfree]
    simp
  · exact h.view_eq hp hw hpages (fun y _ => Or.inl (by rw [hpage])) (by rw [hx]; trivial) (by rw [hx]; simp [Thread.pending])
  · by_cases hyg : y = g
    · exact Or.inr (Or.inr (by rw [hyg]; rfl))
    · rw [Function.update_of_ne hyg]
      obtain hy | hy | hy := hy
      · exact Or.inl hy
      · exact Or.inr (Or.inl hy)
      · rw [hx] at hy
        exact hy.elim

/-- The table without the entry of a page that is given up. -/
theorem visible_giveUp (hp : P.live p) (hT : userTable m' use' = userTable m use)
    (hold : (thread p).pending = none) (hnew : x.pending = some v) :
    visible P m' (Function.update thread p x) use' =
      Function.update (visible P m thread use) (P.pgdir p, v) none := by
  refine (visible_update hp (fun k _ => congrFun hT k) (fun u _ => by rw [hold]; simp) fun u hu => ?_).trans
    (by rw [if_pos hnew])
  rw [hnew]
  exact fun hx => hu (Option.some.inj hx).symm

/-- `decPageRef` while other entries keep the frame. -/
theorem ThreadsOk.dropping (h : ThreadsOk L lost P F m thread use a) (hp : P.live p)
    (hx : thread p = .dropping c mem) (hmany : 1 < refCount c.pa m) :
    ThreadsOk L lost P F (decPageRef c.pa m) (Function.update thread p (.copying c mem)) use a := by
  have hok := h.threads p hp
  rw [hx] at hok
  obtain ⟨hc, hmem⟩ := hok
  have hpend : (thread p).pending = none := by rw [hx]; rfl
  obtain ⟨hvis, hu⟩ := h.visible_entry hp hpend hc
  rw [(h.toNat_refCnt hu).2] at hmany
  have hw : Within P p m thread use (decPageRef c.pa m) use ∅ := Within.of_page rfl
  refine h.frameStep hp hw (fun _ _ => rfl) (fun v hv => ?_) (h.frames.setRef hu _) ?_ (by rw [hx]; rfl)
    ⟨hc.congr rfl rfl, hmem, Or.inl hu, h.seen_entry hp (by rw [hx]; trivial) hpend hc⟩
    (fun g hg => Or.inl (by rw [hx]; exact hg)) (fun _ v _ => ?_) (fun g _ hg => by rwa [hx] at hg) fun _ _ => rfl
  · rw [hpend] at hv
    cases hv
  · rw [visible_giveUp hp rfl hpend rfl]
    exact h.counts.unmap (frame_of_eq_some hvis) (by omega)
  · exact h.view_eq hp hw (fun _ _ => rfl) (fun _ hy => hy.elim) (by rw [hx]; trivial) (by rw [hpend]; simp)

theorem Frames.lose (h : Frames L lost m use) (hf : use f = .user) (n : Word) :
    Frames L lost { m with refCnt := Function.update m.refCnt f n } (Function.update use f .reserved) := by
  obtain ⟨l, hchain, hnodup, hmem, hlen⟩ := h.free
  have hne : ∀ {g : Page}, Function.update use f .reserved g ≠ .reserved → g ≠ f := by
    rintro g hg rfl
    simp at hg
  refine h.rebuild (update_of_structural (by simp [hf, Use.Structural]) (by simp [Use.Structural]))
    (fun _ _ => rfl) (fun g hg => ?_) ⟨l, hchain, hnodup, fun g => ?_, hlen⟩ fun g hg => ?_
  · rw [Function.update_of_ne (hne hg)] at hg
    exact h.range g hg
  · rw [hmem g]
    by_cases hgf : g = f
    · simp [hgf, hf]
    · rw [Function.update_of_ne hgf]
  · have hgf : g ≠ f := by
      rintro rfl
      simp [Use.Structural] at hg
    rw [Function.update_of_ne hgf] at hg
    simp only [Function.update_of_ne hgf]
    exact h.ref_of hg

/-- `decPageRef` of a frame that has only this entry: the frame is lost. -/
theorem ThreadsOk.dropping_last (h : ThreadsOk L lost P F m thread use a) (hp : P.live p)
    (hx : thread p = .dropping c mem) (hone : refs (visible P m thread use) c.pa = 1) (hF : c.pa ∉ F) :
    ThreadsOk L lost P F (decPageRef c.pa m) (Function.update thread p (.copying c mem))
      (Function.update use c.pa .reserved) a := by
  have hok := h.threads p hp
  rw [hx] at hok
  obtain ⟨hc, g, rfl, hg⟩ := hok
  have hpend : (thread p).pending = none := by rw [hx]; rfl
  obtain ⟨hvis, hu⟩ := h.visible_entry hp hpend hc
  have hw : Within P p m thread use (decPageRef c.pa m) (Function.update use c.pa .reserved) {c.pa} :=
    Within.single (fun _ _ _ => rfl) (by simp [hu, Use.Structural]) (by simp [hu]) (by simp [Use.Structural])
      (fun _ _ _ _ _ _ => ⟨Or.inr rfl, rfl⟩) (Or.inl rfl)
  have hgc : g ≠ c.pa := by
    rintro rfl
    rw [hg] at hu
    cases hu
  have hct : c.t ≠ c.pa := hc.table_ne (by simp [hu, Use.Structural])
  refine h.frameStep hp hw (fun _ _ => rfl) (fun v hv => ?_) (h.frames.lose hu _) ?_ (by rw [hx]; rfl)
    ⟨hc.congr (Function.update_of_ne hct _ _) rfl, ⟨g, rfl, by rw [Function.update_of_ne hgc, hg]⟩,
      Or.inr (Function.update_self _ _ _), h.seen_entry hp (by rw [hx]; trivial) hpend hc⟩
    (fun g hg => Or.inl (by rw [hx]; exact hg)) (fun _ v _ => ?_) (fun y hy hyu => ?_) fun _ _ => rfl
  · rw [hpend] at hv
    cases hv
  · rw [visible_giveUp hp (hw.userTable_eq h.frames fun _ _ => rfl).1 hpend rfl]
    refine (h.counts.unmap_last (frame_of_eq_some hvis) hone .reserved (by simp)).congr
      (fun d hd => Or.inl hd) (fun _ => Iff.rfl) fun y hy => ?_
    apply Function.update_of_ne
    rintro rfl
    simp at hy
  · exact h.view_eq hp hw (fun _ _ => rfl) (fun _ _ => Or.inl rfl) (by rw [hx]; trivial) (by rw [hpend]; simp)
  · have hyc : y ≠ c.pa := by
      rintro rfl
      exact hF hy
    rw [Function.update_of_ne hyc]
    rwa [hx] at hyu

/-- `memmove` of the page. -/
theorem ThreadsOk.copying (h : ThreadsOk L lost P F m thread use a) (hp : P.live p)
    (hx : thread p = .copying c (some g)) : ThreadsOk L lost P F (m.setPage g (m.page c.pa))
      (Function.update thread p (.remapping c (some g))) use a := by
  have hok := h.threads p hp
  rw [hx] at hok
  obtain ⟨hc, ⟨g', hgg, hg⟩, -, hseen⟩ := hok
  obtain rfl := Option.some.inj hgg
  have hpend : (thread p).pending = some (pageOf c.va) := by rw [hx]; rfl
  have hpages : ∀ y, y ∉ ({g} : Set Page) → (m.setPage g (m.page c.pa)).page y = m.page y := fun y hy =>
    Mem.setPage_page_of_ne m _ hy
  have hw : Within P p m thread use (m.setPage g (m.page c.pa)) use {g} :=
    Within.setPage (by simp [hg, Use.Structural]) (fun _ => by rw [hx]; rfl)
      (fun q c' mem hq hq' => h.source_ne hq hq' (by simp [hg]) (by simp [hg]))
      (fun k b _ => h.visible_ne (by simp [hg]) k b) _
  have hct : c.t ≠ g := hc.table_ne (by simp [hg, Use.Structural])
  refine h.frameStep hp hw hpages (fun v hv => by rwa [hpend] at hv) (h.frames.setPage (by simp [hg]) (by simp [hg]) _)
    ?_ (by rw [hx]; rfl) ⟨hc.congr rfl (Mem.setPage_page_of_ne m _ hct), g, rfl, hg, ?_⟩
    (fun y hy => Or.inl (by rw [hx]; exact hy)) (fun _ v hv => ?_) (fun y _ hy => by rwa [hx] at hy) fun _ _ => rfl
  · rw [visible_congr hp (hw.userTable_eq h.frames hpages).1 (by rw [hpend]; rfl)]
    exact h.counts
  · rw [Mem.setPage_page_self, hseen]
  · exact h.view_eq hp hw hpages (fun y hy => Or.inr (by rw [Set.mem_singleton_iff.1 hy, hg]; simp)) (by rw [hx]; trivial)
      (by rw [hpend]; exact hv)

/-- A step that writes the entry of the page `v`. -/
theorem ThreadsOk.writeStep (h : ThreadsOk L lost P F m thread use a) (hp : P.live p)
    (ht : use t = .table (P.pgdir p) (pdx v)) {w : Word} (hU : has w PTE_P = true → has w PTE_U = true)
    (hw : Within P p m thread use (m.write t (ptx v) w) use' S) (hframes : Frames L lost m use')
    (hold : ∀ u, u ≠ v → (thread p).pending ≠ some u) (hnew : x.pending = none)
    (hcounts : Counts (Function.update (visible P m thread use) (P.pgdir p, v) (decode w)) m.refCnt use')
    (hown : ∀ g b, decode w = some (g, b) → frame (visible P m thread use) (P.pgdir p, v) = some g ∨ use g = .kern)
    (hx : x.HasTables) (hx' : (thread p).HasTables)
    (hok : ThreadOk P (m.write t (ptx v) w) (Function.update thread p x) use' a p x)
    (hholds : ∀ g, ¬ x.Holds (m.write t (ptx v) w) (P.pgdir p) g)
    (hseen : x.Runs → (thread p).Runs ∧ ∃ g b, decode w = some (g, b) ∧ g ≠ t ∧ a p v = some (m.page g))
    (hpool : ∀ g ∈ F, use g = .user ∨ use g = .free ∨ (thread p).Allocated g → use' g = .user ∨ use' g = .free) :
    ThreadsOk L lost P F (m.write t (ptx v) w) (Function.update thread p x) use' a := by
  have hT : userTable (m.write t (ptx v) w) use' =
      Function.update (userTable m use) (P.pgdir p, v) (decode w) := by
    rw [← h.frames.userTable_write ht w]
    exact userTable_congr (fun _ => hw.dir_iff) fun _ _ _ => rfl
  have hvis : visible P (m.write t (ptx v) w) (Function.update thread p x) use' =
      Function.update (visible P m thread use) (P.pgdir p, v) (decode w) := by
    have hrest : ∀ k, k ≠ (P.pgdir p, v) → userTable (m.write t (ptx v) w) use' k = userTable m use k :=
      fun k hk => by rw [hT, Function.update_of_ne hk]
    rw [visible_update hp hrest hold fun u _ => by rw [hnew]; simp, hnew, if_neg (by simp), hT,
      Function.update_self]
  have ht' := hw.table_eq ht
  refine h.step hp ⟨h.leaves hw fun u g hg => ?_, hframes.write (by simp [ht']) (by simp [ht']) _ _,
    by rw [hvis]; exact hcounts, fun u pte hd hu hpte hP => ?_, ?_, fun _ => hx', fun t' _ ht₂ => hw.table_eq ht₂,
    hok, fun g hg => absurd hg (hholds g), fun hruns u _ => ?_, fun g hg hgu => ?_⟩ fun _ _ => rfl
  · rw [hvis] at hg
    by_cases hu : u = v
    · subst hu
      unfold frame at hg
      rw [Function.update_self] at hg
      obtain ⟨e, he, rfl⟩ := Option.map_eq_some_iff.1 hg
      exact hown e.1 e.2 he
    · left
      unfold frame at hg ⊢
      rwa [Function.update_of_ne fun hx => hu (Prod.mk.inj hx).2] at hg
  · have hd' := hw.dir_iff.1 hd
    rw [h.frames.pteOf_write ht w hd'] at hpte
    split_ifs at hpte
    · rw [← Option.some.inj hpte] at hP ⊢
      exact hU hP
    · exact h.present _ u pte hd' hu hpte hP
  · rw [hw.dir_iff, h.dir_iff hp]
    exact iff_of_true hx' hx
  · obtain ⟨hruns', g, b, hdec, hgt, hseen⟩ := hseen hruns
    by_cases hu : u = v
    · rw [hu, view_of_eq_some (by rw [hT, Function.update_self, hdec]), hseen, Mem.write_page_of_ne _ _ _ hgt]
    · rw [← h.seen p u hp hruns' (hold u hu)]
      refine view_congr ?_ fun y b hTu => Mem.write_page_of_ne _ _ _ ?_
      · rw [hT, Function.update_of_ne fun hx => hu (Prod.mk.inj hx).2]
      · rintro rfl
        refine h.visible_ne (g := y) (by simp [ht]) (P.pgdir p, u) b ?_
        rw [visible_own hp, if_neg (hold u hu), hTu]
  · exact (hpool g hg hgu).imp_right Or.inl

/-- The write of an entry, with no change of the uses. -/
theorem Within.write (ht : use t = .table (P.pgdir p) (pdx v)) (w : Word) :
    Within P p m thread use (m.write t (ptx v) w) use ∅ := by
  refine ⟨fun _ _ => rfl, fun g _ hg => Mem.write_page_of_ne _ _ _ ?_, fun _ hx => hx.elim, fun _ hx => hx.elim,
    fun _ _ _ _ _ _ hx => hx.elim, fun _ hx => hx.elim⟩
  rintro rfl
  exact hg _ ht

/-- `*pte += 2`. -/
theorem ThreadsOk.granting (h : ThreadsOk L lost P F m thread use a) (hp : P.live p)
    (hx : thread p = .granting c) : ThreadsOk L lost P F (m.write c.t c.i (m.page c.t c.i + 2#32))
      (Function.update thread p .user) use a := by
  have hok := h.threads p hp
  rw [hx] at hok
  obtain ⟨hc, hunique⟩ := hok
  have hpend : (thread p).pending = none := by rw [hx]; rfl
  obtain ⟨hvis, hu⟩ := h.visible_entry hp hpend hc
  have hseen := h.seen_entry hp (by rw [hx]; trivial) hpend hc
  have hct : c.pa ≠ c.t := (hc.table_ne (by simp [hu, Use.Structural])).symm
  obtain ⟨hP, hU, hdec⟩ := decode_eq_some_iff.1 hc.decoded
  obtain ⟨-, hW⟩ := Prod.mk.inj hdec
  have hword : decode (c.pte + 2#32) = some (c.pa, true) := by
    rw [add_two_eq hW.symm, decode_eq_some (by simp [hP]) (by simp [hU])]
    simp [Fault.pa]
  rw [hc.entry, hc.index]
  refine h.writeStep hp hc.table (fun _ => (decode_eq_some_iff.1 hword).2.1) (Within.write hc.table _) h.frames
    (fun u _ => by rw [hpend]; simp) rfl ?_ (fun g b hg => Or.inl ?_) trivial (by rw [hx]; trivial) trivial
    (fun _ hg => hg) (fun _ => ⟨by rw [hx]; trivial, c.pa, true, hword, hct, hseen⟩) fun g _ hg => ?_
  · rw [hword]
    exact h.counts.setW (frame_of_eq_some hvis) fun _ => refs_eq_one_of_unique (frame_of_eq_some hvis) hunique
  · rw [hword] at hg
    rw [frame_of_eq_some hvis, (Prod.mk.inj (Option.some.inj hg)).1]
  · rw [hx] at hg
    exact hg.imp_right (Or.resolve_right · id)

/-- The write of the entry for the copy. -/
theorem ThreadsOk.remapping (h : ThreadsOk L lost P F m thread use a) (hp : P.live p)
    (hx : thread p = .remapping c (some g)) {w : Word} (hword : decode w = some (g, true)) :
    ThreadsOk L lost P F (m.write c.t c.i w) (Function.update thread p .user) (Function.update use g .user) a := by
  have hok := h.threads p hp
  rw [hx] at hok
  obtain ⟨hc, g', hgg, hg, hseen⟩ := hok
  obtain rfl := Option.some.inj hgg
  have hpend : (thread p).pending = some (pageOf c.va) := by rw [hx]; rfl
  have href : m.refCnt g = 1#32 := h.frames.ref_of (Or.inr hg)
  have hgt : g ≠ c.t := (hc.table_ne (by simp [hg, Use.Structural])).symm
  have hpage : (m.write c.t (ptx (pageOf c.va)) w).page g = m.page g := Mem.write_page_of_ne _ _ _ hgt
  have hw : Within P p m thread use (m.write c.t (ptx (pageOf c.va)) w) (Function.update use g .user) {g} := by
    refine Within.single (fun y _ hy => Mem.write_page_of_ne _ _ _ ?_) (by simp [hg, Use.Structural])
      (fun _ => by rw [hx]; rfl) (by simp [Use.Structural]) (fun _ _ _ _ _ _ => ⟨Or.inl rfl, hpage⟩) (Or.inl hpage)
    rintro rfl
    exact hy _ hc.table
  rw [hc.index]
  refine h.writeStep hp hc.table (fun _ => (decode_eq_some_iff.1 hword).2.1) hw
    (h.frames.retag (Or.inl hg) (Or.inr rfl) href) (fun u hu => ?_) rfl ?_ (fun y b hy => Or.inr ?_) trivial
    (by rw [hx]; trivial) trivial (fun _ hy => hy) (fun _ => ⟨by rw [hx]; trivial, g, true, hword, hgt, hseen⟩)
    fun y _ hy => ?_
  · rw [hpend]
    exact fun hx => hu (Option.some.inj hx).symm
  · rw [hword]
    refine h.counts.map (h.frames.table c.t _ _ hc.table).1 hc.user ?_ (by simp [hg]) (by simp [hg]) href
    rw [visible_own hp, if_pos hpend]
  · rw [hword] at hy
    rw [← (Prod.mk.inj (Option.some.inj hy)).1, hg]
  · by_cases hyg : y = g
    · exact Or.inl (by rw [hyg, Function.update_self])
    · rw [Function.update_of_ne hyg]
      refine hy.imp_right (Or.resolve_right · fun hal => ?_)
      rw [hx] at hal
      exact hyg (Option.some.inj hal).symm

/-- A store of user code to a page that it may write. -/
theorem ThreadsOk.store (h : ThreadsOk L lost P F m thread use a) (hp : P.live p) (hx : thread p = .user)
    (hT : userTable m use (P.pgdir p, v) = some (f, true)) (hcopied : ∀ q c mem, thread q = .copying c mem → c.pa ≠ f)
    (o : BitVec 12) (b : Byte) : ThreadsOk L lost P F (m.setPage f (setByte (m.page f) o b)) thread use
      (Function.update a p (Function.update (a p) v ((a p v).map fun y => setByte y o b))) := by
  have hpend : (thread p).pending = none := by rw [hx]; rfl
  have hvis : visible P m thread use (P.pgdir p, v) = some (f, true) := by
    rw [visible_own hp, hpend, if_neg (by simp), hT]
  have hu := (h.counts.entry _ _ _ _ hvis).2.2
  have hpages : ∀ y, y ∉ ({f} : Set Page) → (m.setPage f (setByte (m.page f) o b)).page y = m.page y := fun y hy =>
    Mem.setPage_page_of_ne m _ hy
  have hw : Within P p m thread use (m.setPage f (setByte (m.page f) o b)) use {f} := by
    refine Within.setPage (by simp [hu, Use.Structural]) (by simp [hu]) (fun q c mem _ hq => hcopied q c mem hq)
      (fun k b hk hkT => hk ?_) _
    rw [h.counts.exclusive _ _ hvis k (frame_of_eq_some hkT)]
  have hTeq := (hw.userTable_eq h.frames hpages).1
  suffices hkeep : ThreadsOk L lost P F (m.setPage f (setByte (m.page f) o b)) (Function.update thread p (thread p))
      use (Function.update a p (Function.update (a p) v ((a p v).map fun y => setByte y o b))) by
    rwa [Function.update_eq_self] at hkeep
  refine h.frameStep hp hw hpages (fun _ hv => hv) (h.frames.setPage (by simp [hu]) (by simp [hu]) _) ?_ Iff.rfl
    (by rw [hx]; trivial) (fun g hg => by rw [hx] at hg; exact hg.elim) (fun _ u _ => ?_) (fun _ _ hg => hg)
    fun q hq => Function.update_of_ne hq _ _
  · rw [visible_congr hp hTeq rfl]
    exact h.counts
  · have hseen : ∀ u, view m use (P.pgdir p, u) = a p u := fun u =>
      h.seen p u hp (by rw [hx]; trivial) (by rw [hpend]; simp)
    rw [Function.update_self]
    by_cases huv : u = v
    · rw [huv, Function.update_self, ← hseen, view_of_eq_some hT, view_of_eq_some (by rw [hTeq, hT]),
        Option.map_some, Mem.setPage_page_self]
    · rw [Function.update_of_ne huv, ← hseen u]
      refine view_congr (congrFun hTeq _) fun g b' hTu => hpages g ?_
      rintro rfl
      have hvisu : visible P m thread use (P.pgdir p, u) = some (g, b') := by
        rw [visible_own hp, hpend, if_neg (by simp), hTu]
      exact huv (Prod.mk.inj (h.counts.exclusive _ _ hvis _ (frame_of_eq_some hvisu))).2

/-! ## freevm -/

theorem ThreadsOk.walkpgdir_eq (h : ThreadsOk L lost P F m thread use a) (hp : P.live p)
    (htab : (thread p).HasTables) (hv : IsUser v) : ∃ t, use t = .table (P.pgdir p) (pdx v) ∧
      walkpgdir (P.pgdir p) v false m = (some (t, ptx v), m) ∧
      userTable m use (P.pgdir p, v) = decode (m.page t (ptx v)) := by
  obtain ⟨t, ht⟩ := h.tables p hp htab
  rw [← hv.pdx_eq] at ht
  exact ⟨t, ht, h.frames.walkpgdir_eq ht false, h.frames.entry_eq ht⟩

/-- The loop of `deallocuvm` goes on to the next page. -/
theorem ThreadsOk.unmapping_next (h : ThreadsOk L lost P F m thread use a) (hp : P.live p)
    (hx : thread p = .unmapping v) (hv : IsUser v) (hnone : userTable m use (P.pgdir p, v) = none) :
    ThreadsOk L lost P F m (Function.update thread p (.unmapping (v + 1#20))) use a := by
  have hok := h.threads p hp
  rw [hx] at hok
  have hnat : (v + 1#20).toNat = v.toNat + 1 := toNat_succ_page (n := 0) hv
  refine h.move hp (by rw [hx]; rfl) (by rw [hx]; rfl) ⟨?_, fun u hu => ?_⟩ (fun _ hg => hg.elim) (fun hr => hr.elim)
    fun g hg => by rw [hx] at hg; exact hg.elim
  · unfold IsUser at hv
    omega
  · rw [hnat] at hu
    by_cases huv : u.toNat < v.toNat
    · exact hok.2 u huv
    · rw [show u = v from BitVec.eq_of_toNat_eq (by omega)]
      exact hnone

/-- `kfree` of a page by `deallocuvm`. -/
theorem ThreadsOk.unmapping_kfree (h : ThreadsOk L lost P F m thread use a) (hp : P.live p)
    (hx : thread p = .unmapping v) (ht : use t = .table (P.pgdir p) (pdx v))
    (hk : frame (userTable m use) (P.pgdir p, v) = some f)
    (hcopied : (m.refCnt f).toNat ≤ 1 → ∀ q c mem, thread q = .copying c mem → c.pa ≠ f) :
    ∃ m' use', kfree L f m = .ok m' ∧
      ThreadsOk L lost P F m' (Function.update thread p (.clearing v t (ptx v))) use' a := by
  have hok := h.threads p hp
  rw [hx] at hok
  have hpend : (thread p).pending = none := by rw [hx]; rfl
  obtain ⟨b, hT⟩ := frame_eq_some_iff.1 hk
  have hvis : visible P m thread use (P.pgdir p, v) = some (f, b) := by
    rw [visible_own hp, hpend, if_neg (by simp), hT]
  obtain ⟨-, hv, hu⟩ := h.counts.entry _ _ _ _ hvis
  have hkv := frame_of_eq_some hvis
  have hnat := (h.toNat_refCnt hu).1
  have hpos := refs_pos hkv
  obtain ⟨hlo, hhi⟩ := h.frames.range f (by simp [hu])
  by_cases hone : refs (visible P m thread use) f = 1
  · obtain ⟨m', hm', hframes, hpages, href, -⟩ := h.frames.kfree_of_range hlo hhi (by simp [hu, Use.Structural])
      (by simp [hu]) (by omega)
    have hpages' : ∀ y, y ∉ ({f} : Set Page) → m'.page y = m.page y := fun y hy => hpages y hy
    have hw : Within P p m thread use m' (Function.update use f .free) {f} := by
      refine Within.single (fun y hy _ => hpages y hy) (by simp [hu, Use.Structural]) (by simp [hu])
        (by simp [Use.Structural]) (fun q c mem _ hq hc => absurd hc (hcopied (by omega) q c mem hq))
        (Or.inr fun k b hkp hkT => hkp ?_)
      rw [eq_of_refs_eq_one hone hkv (frame_of_eq_some hkT)]
    have hTeq := (hw.userTable_eq h.frames hpages').1
    refine ⟨m', _, hm', h.frameStep hp hw hpages' (fun u hu => ?_) hframes ?_ (by rw [hx]; rfl)
      ⟨hv, hw.table_eq ht, rfl, fun u hu => by rw [hTeq]; exact hok.2 u hu⟩ (fun _ hg => hg.elim) (fun hr => hr.elim)
      (fun y _ hy => ?_) fun _ _ => rfl⟩
    · rw [hpend] at hu
      cases hu
    · rw [visible_giveUp hp hTeq hpend rfl, href]
      exact h.counts.unmap_last hkv hone .free (by simp)
    · by_cases hyf : y = f
      · exact Or.inr (Or.inl (by rw [hyf, Function.update_self]))
      · rw [Function.update_of_ne hyf]
        rwa [hx] at hy
  · refine ⟨{ m with refCnt := Function.update m.refCnt f (m.refCnt f - 1#32) }, use, ?_,
      h.frameStep hp (Within.of_page rfl) (fun _ _ => rfl) (fun u hu => ?_) (h.frames.setRef hu _) ?_ (by rw [hx]; rfl)
      ⟨hv, ht, rfl, hok.2⟩ (fun _ hg => hg.elim) (fun hr => hr.elim) (fun y _ hy => by rwa [hx] at hy) fun _ _ => rfl⟩
    · rw [kfree, if_neg (by omega), if_neg (by omega)]
    · rw [hpend] at hu
      cases hu
    · rw [visible_giveUp hp rfl hpend rfl]
      exact h.counts.unmap hkv hone

/-- `*pte = 0`. -/
theorem ThreadsOk.clearing (h : ThreadsOk L lost P F m thread use a) (hp : P.live p) {i : Index}
    (hx : thread p = .clearing v t i) : ThreadsOk L lost P F (m.write t i 0#32)
      (Function.update thread p (.unmapping (v + 1#20))) use a := by
  have hok := h.threads p hp
  rw [hx] at hok
  obtain ⟨hv, ht, rfl, hnone⟩ := hok
  have hpend : (thread p).pending = some v := by rw [hx]; rfl
  have hzero : decode 0#32 = none := decode_eq_none (by simp)
  have hhidden : visible P m thread use (P.pgdir p, v) = none := by rw [visible_own hp, if_pos hpend]
  have hnat : (v + 1#20).toNat = v.toNat + 1 := toNat_succ_page (n := 0) hv
  refine h.writeStep hp ht (by simp) (Within.write ht _) h.frames (fun u hu => ?_) rfl ?_ (fun g b hg => ?_) trivial
    (by rw [hx]; trivial) ⟨?_, fun u hu => ?_⟩ (fun _ hg => hg) (fun hr => hr.elim) fun g _ hg => ?_
  · rw [hpend]
    exact fun hx => hu (Option.some.inj hx).symm
  · rw [hzero, ← hhidden, Function.update_eq_self]
    exact h.counts
  · rw [hzero] at hg
    cases hg
  · unfold IsUser at hv
    omega
  · rw [hnat] at hu
    rw [h.frames.userTable_write ht, hzero]
    by_cases huv : u = v
    · rw [huv, Function.update_self]
    · rw [Function.update_of_ne fun hx => huv (Prod.mk.inj hx).2]
      refine hnone u (Nat.lt_of_le_of_ne (by omega) fun hx => huv (BitVec.eq_of_toNat_eq hx))
  · rw [hx] at hg
    exact hg.imp_right (Or.resolve_right · id)

/-- Behind the last user page, no entry of the directory is left. -/
theorem ThreadsOk.visible_unmapped (h : ThreadsOk L lost P F m thread use a) (hp : P.live p)
    (hx : thread p = .unmapping v) (hv : ¬ IsUser v) (u : Page) :
    visible P m thread use (P.pgdir p, u) = none := by
  have hok := h.threads p hp
  rw [hx] at hok
  by_cases hu : IsUser u
  · rw [visible_own hp, hx, if_neg (by simp [Thread.pending])]
    refine hok.2 u ?_
    unfold IsUser at hu hv
    omega
  · cases hT : visible P m thread use (P.pgdir p, u) with
    | none => rfl
    | some e => exact absurd (h.counts.entry _ _ e.1 e.2 hT).2.1 hu

theorem userTable_retired_self (m : Mem) (use : Page → Use) (d : Page) (u : Page) :
    userTable m (retired use d) (d, u) = none := by
  unfold userTable
  rw [retired_self, if_neg (by simp)]

/-- The other threads rely on nothing that changes when a page directory is not used any more. -/
theorem ThreadsOk.leaves_retired (h : ThreadsOk L lost P F m thread use a) (hp : P.live p)
    (hd : use (P.pgdir p) = .dir) :
    Leaves P p m thread use (.freeingTables 0) m (retired use (P.pgdir p)) := by
  refine ⟨fun d hdp => ⟨?_, fun _ => rfl⟩, fun t d i hdp ht => ⟨?_, rfl⟩, fun g hg _ => ⟨?_, rfl⟩,
    fun q c mem hq _ hqx => ⟨?_, rfl⟩, fun _ _ _ _ _ => rfl, fun u g hg => ?_⟩
  · rw [retired_eq_dir_iff]
    exact and_iff_left hdp
  · refine (retired_eq_iff (by simp)).2 ⟨ht, ?_, fun j hj => ?_⟩
    · rintro rfl
      rw [hd] at ht
      cases ht
    · rw [ht] at hj
      exact hdp (Use.table.inj hj).1
  · unfold retired
    split_ifs
    · rfl
    · exact hg
  · have hokq := h.threads q hq
    rw [hqx] at hokq
    rw [retired_of_apart hd (by obtain hu | hu := hokq.2.2.1 <;> simp [hu])]
    exact hokq.2.2.1
  · unfold frame at hg
    rw [visible_own hp, userTable_retired_self] at hg
    simp at hg

theorem ThreadsOk.visible_retired (h : ThreadsOk L lost P F m thread use a) (hp : P.live p)
    (hd : use (P.pgdir p) = .dir) (hnone : ∀ u, visible P m thread use (P.pgdir p, u) = none) :
    visible P m (Function.update thread p (.freeingTables 0)) (retired use (P.pgdir p)) =
      visible P m thread use := by
  funext k
  by_cases hk : k.1 = P.pgdir p
  · obtain ⟨d, u⟩ := k
    obtain rfl : d = P.pgdir p := hk
    rw [hnone u, visible_own hp, userTable_retired_self]
    simp
  · exact (h.leaves_retired hp hd).visible_eq h.frames hk

/-- All user pages are unmapped, and the page directory is not used any more. -/
theorem ThreadsOk.retire (h : ThreadsOk L lost P F m thread use a) (hp : P.live p)
    (hx : thread p = .unmapping v) (hv : ¬ IsUser v) : ThreadsOk L lost P F m
      (Function.update thread p (.freeingTables 0)) (retired use (P.pgdir p)) a := by
  have hd : use (P.pgdir p) = .dir := (h.dir_iff hp).2 (by rw [hx]; trivial)
  have hdd := retired_self use (P.pgdir p)
  have hnone := h.visible_unmapped hp hx hv
  refine h.step hp ⟨h.leaves_retired hp hd, h.frames.retire hd, ?_, fun u pte hx => ?_, ?_, fun hr => hr.elim,
    fun t hr => hr.elim, ⟨hdd, fun j _ => ?_, fun j j' t hj hj' => ?_⟩, fun g hg => Or.inr ?_, fun hr => hr.elim,
    fun g _ hg => ?_⟩ fun _ _ => rfl
  · rw [h.visible_retired hp hd hnone]
    refine h.counts.congr (fun d hdd => ?_) (fun g => retired_eq_user_iff hd) fun _ _ => rfl
    by_cases hdp : d = P.pgdir p
    · exact Or.inr (hdp ▸ hnone)
    · exact Or.inl (retired_eq_dir_iff.2 ⟨hdd, hdp⟩)
  · rw [hdd] at hx
    cases hx
  · rw [hdd]
    exact iff_of_false (by simp) id
  · refine (h.frames.pde _ j hd).imp_right ?_
    rintro ⟨t, ht⟩
    refine ⟨t, (h.frames.table t _ j ht).2, if_pos (Or.inr ⟨j, ht⟩), ?_⟩
    rintro rfl
    rw [hd] at ht
    cases ht
  · have htab := h.frames.table_of_pde hd hj
    rw [h.frames.table_of_pde hd hj'] at htab
    exact (Use.table.inj htab).2.symm
  · cases hg with
    | inl hx => simp [hx, hd]
    | inr hx =>
      obtain ⟨j, -, hj⟩ := hx
      simp [h.frames.table_of_pde hd hj]
  · obtain hgu | hgu | hgu := hg
    · exact Or.inl (by rw [retired_of_apart hd (Or.inl hgu), hgu])
    · exact Or.inr (Or.inl (by rw [retired_of_apart hd (Or.inr (Or.inl hgu)), hgu]))
    · rw [hx] at hgu
      exact hgu.elim

/-- `kfree` of a frame that a thread of `freevm` holds. -/
theorem ThreadsOk.kfree_held (h : ThreadsOk L lost P F m thread use a) (hp : P.live p)
    (hheld : (thread p).Holds m (P.pgdir p) g) (hfreeing : ¬ (thread p).HasTables) (hpend : (thread p).pending = none)
    (hal : ∀ y, ¬ (thread p).Allocated y) :
    ∃ m', kfree L g m = .ok m' ∧ (∀ y, y ≠ g → m'.page y = m.page y) ∧
      ∀ x : Thread, ¬ x.HasTables → ¬ x.Runs → x.pending = none →
        ThreadOk P m' (Function.update thread p x) (Function.update use g .free) a p x →
        (∀ y, x.Holds m' (P.pgdir p) y → (thread p).Holds m (P.pgdir p) y) →
        ThreadsOk L lost P F m' (Function.update thread p x) (Function.update use g .free) a := by
  have hg : use g = .kern := (h.threads p hp).kern hheld
  obtain ⟨m', hm', hframes, hpages, href, -⟩ := h.frames.kfree_eq_ok hg
  refine ⟨m', hm', hpages, fun x htab hruns hpx hok hholds => ?_⟩
  have hpages' : ∀ y, y ∉ ({g} : Set Page) → m'.page y = m.page y := fun y hy => hpages y hy
  have hw : Within P p m thread use m' (Function.update use g .free) {g} :=
    Within.single (fun y hy _ => hpages y hy) (by simp [hg, Use.Structural]) (fun _ => hheld)
      (by simp [Use.Structural]) (fun q c mem hq hqx hgc =>
        absurd hgc (h.source_ne hq hqx (by simp [hg]) (by simp [hg])))
      (Or.inr fun k b _ => h.visible_ne (by simp [hg]) k b)
  refine h.frameStep hp hw hpages' (fun v hv => ?_) hframes ?_ (iff_of_false htab hfreeing) hok
    (fun y hy => Or.inl (hholds y hy)) (fun hr => absurd hr hruns) (fun y _ hy => ?_) fun _ _ => rfl
  · rw [hpend] at hv
    cases hv
  · rw [visible_congr hp (hw.userTable_eq h.frames hpages').1 (by rw [hpend, hpx]), href]
    refine h.counts.congr (fun d hd => Or.inl (hw.dir_iff.2 hd)) (fun y => ?_) fun _ _ => rfl
    by_cases hyg : y = g
    · simp [hyg, hg]
    · rw [Function.update_of_ne hyg]
  · by_cases hyg : y = g
    · exact Or.inr (Or.inl (by rw [hyg, Function.update_self]))
    · rw [Function.update_of_ne hyg]
      exact hy.imp_right (Or.imp_right fun hx => absurd hx (hal y))

theorem GivenUp.mono {i j : ℕ} (h : GivenUp m use d i) (hij : i ≤ j) : GivenUp m use d j :=
  ⟨h.dir, fun l hl => h.tables l (by omega), h.inj⟩

/-- The loop of `freevm` over the page directory. -/
theorem ThreadsOk.freeingTables (h : ThreadsOk L lost P F m thread use a) (hp : P.live p) {i : ℕ}
    (hx : thread p = .freeingTables i) (hi : i < 1024) :
    (has (m.page (P.pgdir p) (BitVec.ofNat 10 i)) PTE_P = false ∧
      ThreadsOk L lost P F m (Function.update thread p (.freeingTables (i + 1))) use a) ∨
    has (m.page (P.pgdir p) (BitVec.ofNat 10 i)) PTE_P = true ∧ ∃ m' use',
      kfree L (pageOf (m.page (P.pgdir p) (BitVec.ofNat 10 i))) m = .ok m' ∧
      ThreadsOk L lost P F m' (Function.update thread p (.freeingTables (i + 1))) use' a := by
  have hok := h.threads p hp
  rw [hx] at hok
  have hgiven : GivenUp m use (P.pgdir p) i := hok
  have hnat : (BitVec.ofNat 10 i).toNat = i := by
    rw [BitVec.toNat_ofNat]
    omega
  have hholds : ∀ y, (Thread.freeingTables (i + 1)).Holds m (P.pgdir p) y →
      (thread p).Holds m (P.pgdir p) y := by
    rw [hx]
    rintro y (hy | ⟨j, hj, hy⟩)
    · exact Or.inl hy
    · exact Or.inr ⟨j, by omega, hy⟩
  cases hgiven.tables (BitVec.ofNat 10 i) hnat.ge with
  | inl h0 =>
    refine Or.inl ⟨by rw [h0, has_zero], h.move hp (by rw [hx]; rfl) (by rw [hx]; rfl) ?_ hholds (fun hr => hr.elim)
      fun y hy => by rw [hx] at hy; exact hy.elim⟩
    exact hgiven.mono (Nat.le_succ i)
  | inr h1 =>
    obtain ⟨t, hpde, ht, htd⟩ := h1
    have hheld : (thread p).Holds m (P.pgdir p) t := by
      rw [hx]
      exact Or.inr ⟨_, hnat.ge, hpde⟩
    obtain ⟨m', hm', hpages, hstep⟩ := h.kfree_held hp hheld (by rw [hx]; exact id) (by rw [hx]; rfl)
      fun y hy => by rw [hx] at hy; exact hy
    have hd : m'.page (P.pgdir p) = m.page (P.pgdir p) := hpages _ htd.symm
    refine Or.inr ⟨by rw [hpde, has_pdeFor_P], m', _, by rw [hpde, pageOf_pdeFor, hm'], hstep _ id id rfl
      ⟨?_, fun j hj => ?_, by rw [hd]; exact hgiven.inj⟩ fun y hy => hholds y ?_⟩
    · rw [Function.update_of_ne htd.symm]
      exact hgiven.dir
    · rw [hd]
      refine (hgiven.tables j (by omega)).imp_right ?_
      rintro ⟨t', hpde', ht', htd'⟩
      refine ⟨t', hpde', ?_, htd'⟩
      rw [Function.update_of_ne, ht']
      rintro rfl
      have := hgiven.inj j _ _ hpde' hpde
      rw [this, hnat] at hj
      omega
    · simp only [Thread.Holds, hd] at hy
      exact hy

theorem ThreadsOk.freeingTables_last (h : ThreadsOk L lost P F m thread use a) (hp : P.live p) {i : ℕ}
    (hx : thread p = .freeingTables i) :
    ThreadsOk L lost P F m (Function.update thread p .freeingDir) use a := by
  have hok := h.threads p hp
  rw [hx] at hok
  refine h.move hp (by rw [hx]; rfl) (by rw [hx]; rfl) (GivenUp.dir hok) (fun y hy => ?_) (fun hr => hr.elim)
    fun y hy => by rw [hx] at hy; exact hy.elim
  rw [hx]
  exact Or.inl hy

/-- `kfree` of the page directory. -/
theorem ThreadsOk.freeingDir (h : ThreadsOk L lost P F m thread use a) (hp : P.live p)
    (hx : thread p = .freeingDir) : ∃ m' use', kfree L (P.pgdir p) m = .ok m' ∧
      ThreadsOk L lost P F m' (Function.update thread p .gone) use' a := by
  obtain ⟨m', hm', -, hstep⟩ := h.kfree_held hp (g := P.pgdir p) (by rw [hx]; rfl) (by rw [hx]; exact id)
    (by rw [hx]; rfl) fun y hy => by rw [hx] at hy; exact hy
  exact ⟨m', _, hm', hstep .gone id id rfl trivial fun y hy => hy.elim⟩

end SystemsProjects.Cow
