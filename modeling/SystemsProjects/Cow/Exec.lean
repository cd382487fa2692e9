import SystemsProjects.Cow.Image

/-!
# exec

`exec` builds the new image in a page directory of its own, and then gives up either that directory or
the old one (`Inv.exec_cases`).
-/

namespace SystemsProjects.Cow

open Sharing Holding

variable {L : Layout} {lost : Word} {leak : Set Page} {eager : Bool} {s s' : Sys} {m₀ m m' : Mem}
  {use₀ use use' : Page → Use} {f g d t v cur : Page} {p i : Slot} {sz : Word} {ip : Inode}

/-- The uses that building the image does not change. -/
theorem Image.eq_iff (h : Image L lost d m₀ use₀ m use') (hnew : NewDir L lost s.mem use d m₀ use₀)
    {u : Use} (hf : u ≠ .free) (hu : u ≠ .user) (hd : u ≠ .dir) (ht : ∀ i, u ≠ .table d i) :
    use' g = u ↔ use g = u := by
  rw [h.keeps.eq_iff hf hu, hnew.eq_iff hf hd ht]

theorem Image.dir_iff (h : Image L lost d m₀ use₀ m use') (hnew : NewDir L lost s.mem use d m₀ use₀) :
    use' g = .dir ↔ g = d ∨ use g = .dir := by
  rw [h.keeps.eq_iff (by simp) (by simp), hnew.dir_iff]

/-- The frames that are not the allocator's stay so. -/
theorem Image.reserved_iff {use₁ : Page → Use} {e : Page} (h : Image L lost d m₀ use₀ m use₁)
    (hnew : NewDir L lost s.mem use d m₀ use₀) (he : use e ≠ .reserved)
    (hfreed : Freed L lost m use₁ e m' use') (g : Page) : use' g = .reserved ↔ use g = .reserved := by
  have hiff := h.eq_iff hnew (g := g) (u := .reserved) (by simp) (by simp) (by simp) (by simp)
  rw [hfreed.eq_iff (by simp) (by simp), hiff]
  refine and_iff_left_of_imp fun hg => ⟨?_, fun i => ?_⟩
  · rintro rfl
    exact he hg
  · rw [hiff.2 hg]
    simp

/-- The image is given up. -/
theorem Inv.abandon {use₁ : Page → Use} (h : Inv L lost eager leak s use)
    (hnew : NewDir L lost s.mem use d m₀ use₀) (himg : Image L lost d m₀ use₀ m use₁)
    (hfreed : Freed L lost m use₁ d m' use') : ∃ leak', Inv L lost eager leak' { s with mem := m' } use' := by
  have hother : ∀ {g : Page}, use g ≠ .free → g ≠ d := by
    rintro g hg rfl
    exact hg hnew.fresh
  refine h.lose hfreed.owned (fun g u hf hu hk => ?_) (fun i hi => ?_) (funext fun k => ?_) rfl h.ready
    (fun _ => Iff.rfl) fun _ _ => rfl
  · rw [hfreed.eq_iff hf hu]
    constructor
    · rintro ⟨hg, hgd, hgt⟩
      by_cases hdir : u = .dir
      · subst hdir
        exact ((himg.dir_iff hnew).1 hg).resolve_left hgd
      · exact (himg.eq_iff hnew hf hu hdir fun i hx => hgt i (hg.trans hx)).1 hg
    · intro hg
      have hgt : ∀ i, u ≠ .table d i := by
        rintro i rfl
        have hd := (h.owned.frames.table g d i hg).1
        rw [hnew.fresh] at hd
        cases hd
      have hg₁ : use₁ g = u := by
        by_cases hdir : u = .dir
        · subst hdir
          exact (himg.dir_iff hnew).2 (Or.inr hg)
        · exact (himg.eq_iff hnew hf hu hdir hgt).2 hg
      exact ⟨hg₁, hother (by rwa [hg]), fun i hx => hgt i (hg₁.symm.trans hx)⟩
  · have hkern := (himg.eq_iff hnew (by simp) (by simp) (by simp) (by simp)).2 (h.kern hi)
    exact (hfreed.eq_iff (by simp) (by simp)).2 ⟨hkern, hother (by simp [h.kern hi]), by simp [hkern]⟩
  · show userTable m' use' k = _
    by_cases hk : k.1 = d
    · unfold userTable
      rw [hk, hfreed.freed d (Or.inl rfl), hnew.fresh]
      rfl
    · rw [hfreed.entries k hk, himg.entries k hk, hnew.entries]

/-- The process `p` with a new image. -/
def withImage (s : Sys) (p : Slot) (d : Page) (sz : Word) (m : Mem) : Sys :=
  { s.modify p fun q => { q with pgdir := d, sz := sz } with mem := m }

theorem withImage_procs_self (s : Sys) (p : Slot) (d : Page) (sz : Word) (m : Mem) :
    (withImage s p d sz m).procs p = { s.procs p with pgdir := d, sz := sz } := Function.update_self _ _ _

theorem withImage_procs_of_ne (h : i ≠ p) : (withImage s p d sz m).procs i = s.procs i :=
  Function.update_of_ne h _ _

theorem live_withImage : Live (withImage s p d sz m) i ↔ Live s i := by
  unfold Live
  by_cases hi : i = p
  · rw [hi, withImage_procs_self]
  · rw [withImage_procs_of_ne hi]

/-- The image takes the place of the old address space. -/
theorem Inv.withImage {use₁ : Page → Use} (h : Inv L lost eager leak s use) (hp : Live s p)
    (hnew : NewDir L lost s.mem use d m₀ use₀) (himg : Image L lost d m₀ use₀ m use₁)
    (hsz : Sized d sz m use₁) (hfreed : Freed L lost m use₁ (s.procs p).pgdir m' use') :
    Inv L lost eager leak (withImage s p d sz m') use' := by
  have hother : ∀ {g : Page}, use g ≠ .free → g ≠ d := by
    rintro g hg rfl
    exact hg hnew.fresh
  have hold := hother (by simp [h.dir hp] : use (s.procs p).pgdir ≠ .free)
  have hpg : ∀ i, Live s i → i ≠ p → (s.procs i).pgdir ≠ (s.procs p).pgdir := fun i hi hip hx =>
    hip (h.pgdir_inj i p hi hp hx)
  have hp₁ : use₁ (s.procs p).pgdir = .dir := (himg.dir_iff hnew).2 (Or.inr (h.dir hp))
  have hdir : ∀ e, use' e = .dir ↔ (e = d ∨ use e = .dir) ∧ e ≠ (s.procs p).pgdir := by
    intro e
    rw [hfreed.dir_iff, himg.dir_iff hnew]
  have hkern : ∀ f, use' f = .kern ↔ use f = .kern := by
    intro f
    rw [hfreed.eq_iff_of_ne hp₁ (by simp) (by simp) (by simp) (by simp),
      himg.eq_iff hnew (by simp) (by simp) (by simp) (by simp)]
  have hentry : ∀ e v, e ≠ d → e ≠ (s.procs p).pgdir →
      userTable m' use' (e, v) = userTable s.mem use (e, v) := by
    intro e v hed hep
    rw [hfreed.entries _ hep, himg.entries _ hed, hnew.entries]
  have hdirs : ∀ i, Live s i → (s.procs i).pgdir ≠ d := fun i hi => hother (by simp [h.dir hi])
  have hkp : s.kpgdir ≠ d := hother (by simp [(h.dirs s.kpgdir).2 (Or.inl rfl)])
  have hkstack : ∀ i, ((Cow.withImage s p d sz m').procs i).kstack = (s.procs i).kstack := by
    intro i
    by_cases hip : i = p
    · rw [hip, withImage_procs_self]
    · rw [withImage_procs_of_ne hip]
  have hpgdirs : Held {i | Live (Cow.withImage s p d sz m') i}
      (fun i => ((Cow.withImage s p d sz m').procs i).pgdir) {s.kpgdir} {g | use' g = .dir} :=
    h.pgdirs.swap hp (by simp [hnew.fresh]) (congrArg Proc.pgdir (withImage_procs_self s p d sz m'))
      (fun i _ hip => congrArg Proc.pgdir (withImage_procs_of_ne hip)) (fun _ => live_withImage) hdir
  have hstacks : Held {i | Live (Cow.withImage s p d sz m') i}
      (fun i => ((Cow.withImage s p d sz m').procs i).kstack) leak {g | use' g = .kern} :=
    h.stacks.congr (fun _ => live_withImage) (fun i _ => hkstack i) hkern
  refine Inv.of_held hfreed.owned (fun he k f b hT => ?_) (fun i => ?_) hpgdirs (fun e he => ?_) hstacks
    (fun i hi => ?_) (fun i v hi => ?_) fun v => ?_
  · obtain ⟨e, v⟩ := k
    have hT' : userTable m' use' (e, v) = some (f, b) := hT
    have hed : use' e = .dir := (hfreed.owned.counts.entry e v f b hT').1
    have hep := ((hdir e).1 hed).2
    by_cases hx : e = d
    · subst hx
      rw [hfreed.entries _ hep] at hT'
      exact himg.writable v f b hT'
    · rw [hentry e v hx hep] at hT'
      exact h.writable he _ f b hT'
  · by_cases hi : i = p
    · rw [hi, withImage_procs_self]
      exact h.ready p
    · rw [withImage_procs_of_ne hi]
      exact h.ready i
  · obtain ⟨hx, hep⟩ := (hdir e).1 he
    intro i
    have htable : ∀ t, use' t = .table e i ↔ use₁ t = .table e i := fun t =>
      hfreed.eq_iff_of_ne hp₁ (by simp) (by simp) (by simp) fun j hj => hep (Use.table.inj hj).1
    by_cases hed : e = d
    · subst hed
      rw [← hnew.tables i]
      refine exists_congr fun t => ?_
      rw [htable, himg.keeps.eq_iff (by simp) (by simp)]
    · rw [← h.complete e (hx.resolve_left hed) i]
      refine exists_congr fun t => ?_
      rw [htable, himg.eq_iff hnew (by simp) (by simp) (by simp)
        fun j hj => hed (Use.table.inj hj).1]
  · by_cases hip : i = p
    · rw [hip, withImage_procs_self]
      exact hsz.le
    · rw [withImage_procs_of_ne hip]
      exact h.size i (live_withImage.1 hi)
  · by_cases hip : i = p
    · rw [hip, withImage_procs_self]
      intro hv
      show userTable m' use' (d, v) = none
      rw [hfreed.entries _ (Ne.symm hold)]
      exact hsz.bound v hv
    · rw [withImage_procs_of_ne hip]
      intro hv
      have hi' := live_withImage.1 hi
      show userTable m' use' _ = none
      rw [hentry _ v (hdirs i hi') (hpg i hi' hip)]
      exact h.bound i v hi' hv
  · show userTable m' use' (s.kpgdir, v) = none
    rw [hentry _ v hkp (h.pgdir_ne p hp).symm]
    exact h.kernel v

/-- The file has no segment that wraps around, as far as `exec` looks at it. -/
def ExecFits (ip : Inode) : Prop :=
  ∀ elf, ip.readi 0#32 52#32 = some elf → 52 ≤ elf.length → wordAt elf 0 = ELF_MAGIC →
    SegmentsFit ip (wordAt elf 44 &&& 0xFFFF#32).toNat (wordAt elf 28) 0#32

theorem segmentsFit_of_execFits {file : Option Inode} {elf : List Byte}
    (hfit : ∀ ip, file = some ip → ExecFits ip)
    (hread : (file.bind fun ip => (ip.readi 0#32 52#32).map fun elf => (ip, elf)) = some (ip, elf))
    (hlen : 52 ≤ elf.length) (hmagic : wordAt elf 0 = ELF_MAGIC) :
    SegmentsFit ip (wordAt elf 44 &&& 0xFFFF#32).toNat (wordAt elf 28) 0#32 := by
  obtain ⟨ip', hip', hread'⟩ := Option.bind_eq_some_iff.1 hread
  obtain ⟨elf', helf', hx⟩ := Option.map_eq_some_iff.1 hread'
  obtain ⟨rfl, rfl⟩ := Prod.mk.inj hx
  exact hfit ip' hip' elf' helf' hlen hmagic

/-- The image before the first segment. -/
theorem NewDir.image (h : NewDir L lost m use d m₀ use₀) : Image L lost d m₀ use₀ m₀ use₀ :=
  ⟨h.owned, Keeps.refl, fun _ _ => rfl, fun v f b hT => by rw [h.empty v] at hT; cases hT⟩

/-- `exec` stops the kernel, looks at the file only, finds no memory for a page directory, gives up its
image or puts it in the place of the old one. -/
theorem Inv.exec_cases {file : Option Inode} {argv : List (List Byte)} (h : Inv L lost eager leak s use)
    (hp : Live s p) (hargs : ArgsOk argv (s.procs p).sz) (hfit : ∀ ip, file = some ip → ExecFits ip) :
    (∃ e, exec L p file argv s = .error e ∧ LoadHalt e) ∨
    exec L p file argv s = .ok s ∨
    (∃ m₀ use₀, exec L p file argv s = .ok { s with mem := m₀ } ∧ Leaked L lost s.mem use m₀ use₀) ∨
    ∃ d m₀ use₀ m use₁ m' use', NewDir L lost s.mem use d m₀ use₀ ∧ Image L lost d m₀ use₀ m use₁ ∧
      (exec L p file argv s = .ok { s with mem := m' } ∧ Freed L lost m use₁ d m' use' ∨
      ∃ sz, exec L p file argv s = .ok (Cow.withImage s p d sz m') ∧ Sized d sz m use₁ ∧
        Freed L lost m use₁ (s.procs p).pgdir m' use') := by
  unfold exec execWith
  rw [← loadImage]
  cases hread : file.bind fun ip => (ip.readi 0#32 52#32).map fun elf => (ip, elf) with
  | none => exact Or.inr (Or.inl rfl)
  | some r =>
    obtain ⟨ip, elf⟩ := r
    simp only
    by_cases hlen : elf.length < 52
    · simp only [if_pos hlen]
      exact Or.inr (Or.inl trivial)
    by_cases hmagic : wordAt elf 0 ≠ ELF_MAGIC
    · simp only [if_neg hlen, if_pos hmagic]
      exact Or.inr (Or.inl trivial)
    simp only [if_neg hlen, if_neg hmagic]
    have hsegments := segmentsFit_of_execFits hfit hread (Nat.not_lt.1 hlen) (not_not.1 hmagic)
    obtain ⟨d, m₀, use₀, hsetup, hnew⟩ | ⟨m₀, use₀, hsetup, hleak⟩ := h.owned.setupkvm_cases
    · rw [hsetup]
      simp only [Except.bind]
      cases himage : loadImage L (s.procs p).pgdir d ip elf argv m₀ with
      | error e =>
        exact Or.inl ⟨e, rfl, hnew.image.loadImage_error hnew.empty hnew.tables hsegments himage⟩
      | ok r =>
        obtain ⟨sz, m⟩ := r
        refine Or.inr (Or.inr (Or.inr ⟨d, m₀, use₀, m, ?_⟩))
        obtain ⟨use₁, himg, hsized⟩ := hnew.image.loadImage hnew.empty hnew.tables hargs (h.size p hp)
          hsegments himage
        have hc₁ : Complete use₁ d := Complete.keeps hnew.tables himg.keeps
        cases sz with
        | none =>
          obtain ⟨t, ht⟩ := hc₁.exists_table
          obtain ⟨m', use', hm', hfreed⟩ := himg.owned.freevm_eq_ok ((himg.dir_iff hnew).2 (Or.inl rfl)) ht
          simp only [hm', Except.map]
          exact ⟨use₁, m', use', hnew, himg, Or.inl ⟨rfl, hfreed⟩⟩
        | some sz =>
          obtain ⟨t, ht⟩ := h.exists_table hp
          have hd : (s.procs p).pgdir ≠ d := hnew.not_fresh (by simp [h.dir hp])
          have ht₁ : use₁ t = .table (s.procs p).pgdir 0#10 :=
            (himg.eq_iff hnew (by simp) (by simp) (by simp) fun i hx => hd (Use.table.inj hx).1).2 ht
          obtain ⟨m', use', hm', hfreed⟩ := himg.owned.freevm_eq_ok
            ((himg.dir_iff hnew).2 (Or.inr (h.dir hp))) ht₁
          simp only [hm', Except.map]
          exact ⟨use₁, m', use', hnew, himg, Or.inr ⟨sz, rfl, hsized sz rfl, hfreed⟩⟩
    · rw [hsetup]
      exact Or.inr (Or.inr (Or.inl ⟨m₀, use₀, rfl, hleak⟩))

theorem Inv.exec {file : Option Inode} {argv : List (List Byte)} (h : Inv L lost eager leak s use)
    (hp : Live s p) (hargs : ArgsOk argv (s.procs p).sz) (hfit : ∀ ip, file = some ip → ExecFits ip)
    (hrun : exec L p file argv s = .ok s') :
    ∃ leak' use', Inv L lost eager leak' s' use' ∧ Live s' p ∧ ∀ g, use' g = .reserved ↔ use g = .reserved := by
  have hsame : ∀ {s₁ : Sys}, Cow.exec L p file argv s = .ok s₁ → s' = s₁ := fun hs₁ =>
    Except.ok.inj (hrun.symm.trans hs₁)
  obtain ⟨e, hx, -⟩ | hx | ⟨m₀, use₀, hx, hleak⟩ | ⟨d, m₀, use₀, m, use₁, m', use', hnew, himg,
    ⟨hx, hfreed⟩ | ⟨sz, hx, hsized, hfreed⟩⟩ := h.exec_cases hp hargs hfit
  · rw [hx] at hrun
    cases hrun
  · rw [hsame hx]
    exact ⟨leak, use, h, hp, fun _ => Iff.rfl⟩
  · rw [hsame hx]
    have hkeep : ∀ g u, u ≠ .free → u ≠ .user → u ≠ .kern → (use₀ g = u ↔ use g = u) := by
      intro g u hf _ hk
      cases hleak.tags g with
      | inl hx => rw [hx]
      | inr hx =>
        rw [hx.1, hx.2]
        exact iff_of_false (Ne.symm hk) (Ne.symm hf)
    have hkern : ∀ i, Live s i → use₀ (s.procs i).kstack = .kern := by
      intro i hi
      cases hleak.tags (s.procs i).kstack with
      | inl hx => rw [hx, h.kern hi]
      | inr hx => exact hx.2
    obtain ⟨leak', hinv⟩ : ∃ leak', Inv L lost eager leak' { s with mem := m₀ } use₀ :=
      h.lose hleak.owned hkeep hkern hleak.entries rfl h.ready (fun _ => Iff.rfl) fun _ _ => rfl
    exact ⟨leak', use₀, hinv, hp, fun g => hkeep g _ (by simp) (by simp) (by simp)⟩
  · rw [hsame hx]
    obtain ⟨leak', hinv⟩ := h.abandon hnew himg hfreed
    exact ⟨leak', use', hinv, hp, himg.reserved_iff hnew (by simp [hnew.fresh]) hfreed⟩
  · rw [hsame hx]
    exact ⟨leak, use', h.withImage hp hnew himg hsized hfreed, live_withImage.2 hp,
      himg.reserved_iff hnew (by simp [h.dir hp]) hfreed⟩

end SystemsProjects.Cow
