import SystemsProjects.Xv6.Bio

/-!
# What processes see through the buffer cache

A process that has a buffer from `bread` has it alone, and while it does not change it the buffer holds what is
on the disk.  So what is on the disk is what all updates, one after the other, have made of it, and a process
reads what the updates until then have made (`blocks_coherent`).
-/

namespace SystemsProjects.Xv6.Bio

open Monitor

variable {ι β : Type*}

/-- What the updates in `log` make of the block `a`. -/
def replay (disk₀ : Addr → β) (log : List (Addr × (β → β))) (a : Addr) : β :=
  log.foldl (fun x u => if u.1 = a then u.2 x else x) (disk₀ a)

theorem replay_append (disk₀ : Addr → β) (log : List (Addr × (β → β))) (a c : Addr) (f : β → β) :
    replay disk₀ (log ++ [(a, f)]) c = if a = c then f (replay disk₀ log c) else replay disk₀ log c := by
  simp [replay]

/-- A block that can be read: of disk 0, or of disk 1 where it is there.  The drive takes one bit of the device and
28 bits of the sector, so other numbers would name the blocks of these disks again. -/
def Readable (havedisk1 : Bool) (a : Addr) : Prop := (a.1 = 0 ∨ a.1 = 1 ∧ havedisk1 = true) ∧ a.2 < 0x10000000

theorem Readable.ne_nodev {havedisk1 : Bool} {a : Addr} (h : Readable havedisk1 a) : a.1 ≠ NODEV := by
  rcases h.1 with h0 | ⟨h1, -⟩
  · rw [h0]
    decide
  · rw [h1]
    decide

theorem Readable.present {havedisk1 : Bool} {a : Addr} (h : Readable havedisk1 a) : a.1 ≠ 0 → havedisk1 = true := by
  rcases h.1 with h0 | ⟨-, h1⟩
  · exact fun hne => absurd h0 hne
  · exact fun _ => h1

/-- The buffer holds what is on the disk. -/
structure Bcache.Synced (p : Bcache ι β) (b : Buf) : Prop where
  valid : p.valid b = true
  clean : p.dirty b = false
  data : p.data b = p.disk (p.addr b)

/-- A buffer that a process has taken in `bget` and not returned yet. -/
def Point.taken : Point β → List Buf
  | .unlock _ b => [b]
  | .bread _ b => [b]
  | .fill _ b => [b]
  | .return_ _ b => [b]
  | _ => []

/-- All buffers of the process. -/
def Thread.mine (t : Thread β) : List Buf := t.point.taken ++ t.held

/-- The buffer that a call of `bwrite` or `brelse` is about. -/
def Point.Uses (b : Buf) : Point β → Prop
  | .edit c _ => c = b
  | .bwrite c _ => c = b
  | .flush c _ => c = b
  | .brelse c => c = b
  | .acquire c => c = b
  | .list c => c = b
  | _ => False

/-- The contents have been changed and are not on the disk yet. -/
def Point.Updates (b : Buf) : Point β → Prop
  | .bwrite c _ => c = b
  | .flush c _ => c = b
  | _ => False

/-- What the process knows of the buffer at hand. -/
def Point.Fits (p : Bcache ι β) : Point β → Prop
  | .bget a => Readable p.havedisk1 a
  | .loop a => Readable p.havedisk1 a
  | .sleep a _ => Readable p.havedisk1 a
  | .unlock a b => p.addr b = a ∧ p.dirty b = false ∧ (p.valid b = true → p.data b = p.disk (p.addr b))
  | .bread a b => p.addr b = a ∧ p.dirty b = false ∧ (p.valid b = true → p.data b = p.disk (p.addr b))
  | .fill a b => p.addr b = a ∧ p.dirty b = false ∧ p.valid b = false
  | .return_ a b => p.addr b = a ∧ p.Synced b
  | .bwrite b f => p.valid b = true ∧ p.data b = f (p.disk (p.addr b))
  | .flush b f => p.valid b = true ∧ p.dirty b = true ∧ p.data b = f (p.disk (p.addr b))
  | .panic => False
  | _ => True

/-- What holds of the buffers that nobody has, and of the disk. -/
structure Clean (disk₀ : Addr → β) (p : Bcache ι β) : Prop where
  disk : ∀ a, p.disk a = replay disk₀ p.log a
  nodev : ∀ b, (p.addr b).1 = NODEV → p.owner b = none ∧ p.valid b = false
  free : ∀ b, p.owner b = none → p.dirty b = false ∧ (p.valid b = true → p.data b = p.disk (p.addr b))

/-- What the process `i` knows. -/
structure Mine (disk₀ : Addr → β) (i : ι) (t : Thread β) (p : Bcache ι β) : Prop where
  clean : Clean disk₀ p
  nodup : t.mine.Nodup
  owner : ∀ b, p.owner b = some i ↔ b ∈ t.mine
  readable : ∀ b ∈ t.mine, Readable p.havedisk1 (p.addr b)
  synced : ∀ b ∈ t.held, ¬ t.point.Updates b → p.Synced b
  fits : t.point.Fits p
  uses : ∀ b, t.point.Uses b → b ∈ t.held
  script : ∀ a, Action.read a ∈ t.script → Readable p.havedisk1 a
  seen : ∀ r ∈ t.seen, r.2.2 ≤ p.log.length ∧ r.2.1 = replay disk₀ (p.log.take r.2.2) r.1

/-- A step of the process `i` leaves the buffers of the others alone. -/
structure Apart (i : ι) (p q : Bcache ι β) : Prop where
  havedisk1 : q.havedisk1 = p.havedisk1
  owner : ∀ j b, j ≠ i → (q.owner b = some j ↔ p.owner b = some j)
  addr : ∀ j b, j ≠ i → p.owner b = some j → q.addr b = p.addr b
  valid : ∀ j b, j ≠ i → p.owner b = some j → q.valid b = p.valid b
  dirty : ∀ j b, j ≠ i → p.owner b = some j → q.dirty b = p.dirty b
  data : ∀ j b, j ≠ i → p.owner b = some j → q.data b = p.data b
  disk : ∀ j b, j ≠ i → p.owner b = some j → q.disk (p.addr b) = p.disk (p.addr b)
  log : p.log <+: q.log

variable {disk₀ : Addr → β} {i j : ι} {t : Thread β} {p q : Bcache ι β} {a : Addr} {b : Buf} {k : Point β}

theorem Apart.refl (i : ι) (p : Bcache ι β) : Apart i p p :=
  ⟨rfl, fun _ _ _ => Iff.rfl, fun _ _ _ _ => rfl, fun _ _ _ _ => rfl, fun _ _ _ _ => rfl, fun _ _ _ _ => rfl,
    fun _ _ _ _ => rfl, List.prefix_rfl⟩

theorem seen_of_prefix {r : Addr × β × ℕ} {log log' : List (Addr × (β → β))} (hlog : log <+: log')
    (hr : r.2.2 ≤ log.length ∧ r.2.1 = replay disk₀ (log.take r.2.2) r.1) :
    r.2.2 ≤ log'.length ∧ r.2.1 = replay disk₀ (log'.take r.2.2) r.1 := by
  obtain ⟨rest, rfl⟩ := hlog
  rw [List.take_append_of_le_length hr.1, List.length_append]
  exact ⟨Nat.le_add_right_of_le hr.1, hr.2⟩

/-- What a process knows is not disturbed by the others. -/
theorem Mine.apart (h : Mine disk₀ j t p) (hj : j ≠ i) (hapart : Apart i p q) (hclean : Clean disk₀ q) :
    Mine disk₀ j t q := by
  have haddr : ∀ b ∈ t.mine, q.addr b = p.addr b := fun b hb => hapart.addr j b hj ((h.owner b).2 hb)
  have hvalid : ∀ b ∈ t.mine, q.valid b = p.valid b := fun b hb => hapart.valid j b hj ((h.owner b).2 hb)
  have hdirty : ∀ b ∈ t.mine, q.dirty b = p.dirty b := fun b hb => hapart.dirty j b hj ((h.owner b).2 hb)
  have hdata : ∀ b ∈ t.mine, q.data b = p.data b := fun b hb => hapart.data j b hj ((h.owner b).2 hb)
  have hdisk : ∀ b ∈ t.mine, q.disk (p.addr b) = p.disk (p.addr b) := fun b hb =>
    hapart.disk j b hj ((h.owner b).2 hb)
  have hread : ∀ a, Readable p.havedisk1 a → Readable q.havedisk1 a := fun a ha => by rwa [hapart.havedisk1]
  have hsynced : ∀ b ∈ t.mine, p.Synced b → q.Synced b := fun b hb hs =>
    ⟨(hvalid b hb).trans hs.valid, (hdirty b hb).trans hs.clean, by rw [hdata b hb, haddr b hb, hdisk b hb, hs.data]⟩
  have hheld : ∀ b ∈ t.held, b ∈ t.mine := fun b hb => List.mem_append_right _ hb
  have htaken : ∀ b ∈ t.point.taken, b ∈ t.mine := fun b hb => List.mem_append_left _ hb
  refine ⟨hclean, h.nodup, fun b => (hapart.owner j b hj).trans (h.owner b), fun b hb => ?_, fun b hb hu => ?_, ?_,
    h.uses, fun a ha => ?_, fun r hr => seen_of_prefix hapart.log (h.seen r hr)⟩
  · rw [haddr b hb]
    exact hread _ (h.readable b hb)
  · exact hsynced b (hheld b hb) (h.synced b hb hu)
  · have hfits := h.fits
    have huses := h.uses
    cases hpoint : t.point with
    | bget a =>
      rw [hpoint] at hfits
      exact hread a hfits
    | loop a =>
      rw [hpoint] at hfits
      exact hread a hfits
    | sleep a b =>
      rw [hpoint] at hfits
      exact hread a hfits
    | unlock a b =>
      rw [hpoint] at hfits htaken
      have hb := htaken b List.mem_cons_self
      simp only [Point.Fits, hdisk b hb, hvalid b hb, hdirty b hb, hdata b hb, haddr b hb]
      exact hfits
    | bread a b =>
      rw [hpoint] at hfits htaken
      have hb := htaken b List.mem_cons_self
      simp only [Point.Fits, hdisk b hb, hvalid b hb, hdirty b hb, hdata b hb, haddr b hb]
      exact hfits
    | fill a b =>
      rw [hpoint] at hfits htaken
      have hb := htaken b List.mem_cons_self
      simp only [Point.Fits, hvalid b hb, hdirty b hb, haddr b hb]
      exact hfits
    | return_ a b =>
      rw [hpoint] at hfits htaken
      have hb := htaken b List.mem_cons_self
      exact ⟨(haddr b hb).trans hfits.1, hsynced b hb hfits.2⟩
    | bwrite b f =>
      rw [hpoint] at hfits huses
      have hb := hheld b (huses b rfl)
      simp only [Point.Fits, haddr b hb, hdisk b hb, hvalid b hb, hdata b hb]
      exact hfits
    | flush b f =>
      rw [hpoint] at hfits huses
      have hb := hheld b (huses b rfl)
      simp only [Point.Fits, haddr b hb, hdisk b hb, hvalid b hb, hdirty b hb, hdata b hb]
      exact hfits
    | panic =>
      rw [hpoint] at hfits
      exact hfits
    | _ => trivial
  · exact hread a (h.script a ha)

/-! ## What a step does to the own buffers -/

/-- A step that changes no buffer. -/
theorem Mine.goto (h : Mine disk₀ i t p) (htaken : k.taken = t.point.taken)
    (hupdates : ∀ b ∈ t.held, t.point.Updates b → k.Updates b) (hfits : k.Fits p)
    (huses : ∀ b, k.Uses b → b ∈ t.held) : Mine disk₀ i (t.goto k) p := by
  have hmine : (t.goto k).mine = t.mine := congrArg (· ++ t.held) htaken
  refine ⟨h.clean, hmine ▸ h.nodup, fun b => ?_, fun b hb => ?_, fun b hb hu => ?_, hfits, huses, h.script, h.seen⟩
  · rw [hmine]
    exact h.owner b
  · rw [hmine] at hb
    exact h.readable b hb
  · exact h.synced b hb fun hold => hu (hupdates b hb hold)

theorem Mine.mem_of_taken (h : Mine disk₀ i t p) (hb : b ∈ t.point.taken) :
    p.owner b = some i ∧ b ∉ t.held ∧ Readable p.havedisk1 (p.addr b) := by
  have hmem : b ∈ t.mine := List.mem_append_left _ hb
  refine ⟨(h.owner b).2 hmem, fun hheld => ?_, h.readable b hmem⟩
  exact (List.nodup_append.1 h.nodup).2.2 b hb b hheld rfl

theorem Mine.mem_of_uses (h : Mine disk₀ i t p) (hb : t.point.Uses b) :
    b ∈ t.held ∧ p.owner b = some i ∧ Readable p.havedisk1 (p.addr b) := by
  have hheld := h.uses b hb
  have hmem : b ∈ t.mine := List.mem_append_right _ hheld
  exact ⟨hheld, (h.owner b).2 hmem, h.readable b hmem⟩

theorem some_ne_some (hj : j ≠ i) : some j ≠ some i := fun heq => hj (Option.some.inj heq)

/-- `b` is another buffer than one that somebody else has. -/
theorem ne_of_owner {c : Buf} (hb : p.owner b = some i) (hj : j ≠ i) (hc : p.owner c = some j) : c ≠ b := by
  rintro rfl
  exact some_ne_some hj (hc.symm.trans hb)

theorem ne_of_free {c : Buf} (hb : p.owner b = none) (hc : p.owner c = some j) : c ≠ b := by
  rintro rfl
  exact Option.some_ne_none j (hc.symm.trans hb)

/-- A free buffer that has the block is taken. -/
theorem Mine.hold (h : Mine disk₀ i t p) (ht : t.point = .loop a) (haddr : p.addr b = a) (hfree : p.owner b = none) :
    Mine disk₀ i (t.goto (.unlock a b)) (p.hold i b) ∧ Apart i p (p.hold i b) := by
  have hread : Readable p.havedisk1 a := by
    have hfits := h.fits
    rwa [ht] at hfits
  have hother : ∀ c, c ≠ b → (p.hold i b).owner c = p.owner c := fun c hc => Function.update_of_ne hc _ _
  have hself : (p.hold i b).owner b = some i := Function.update_self ..
  have hmine : t.mine = t.held := by simp [Thread.mine, ht, Point.taken]
  have hb : b ∉ t.held := fun hmem => Option.some_ne_none i (((h.owner b).2 (hmine ▸ hmem)).symm.trans hfree)
  refine ⟨⟨⟨h.clean.disk, fun c hc => ?_, fun c hc => ?_⟩, ?_, fun c => ?_, fun c hc => ?_, fun c hc _ => ?_, ?_,
    fun c hc => hc.elim, h.script, h.seen⟩, rfl, fun j c hj => ?_, fun _ _ _ _ => rfl, fun _ _ _ _ => rfl,
    fun _ _ _ _ => rfl, fun _ _ _ _ => rfl, fun _ _ _ _ => rfl, List.prefix_rfl⟩
  · have hcb : c ≠ b := fun heq => hread.ne_nodev (by rw [← haddr, ← heq]; exact hc)
    rw [hother c hcb]
    exact h.clean.nodev c hc
  · have hcb : c ≠ b := fun heq => Option.some_ne_none i (hself.symm.trans (heq ▸ hc))
    rw [hother c hcb] at hc
    exact h.clean.free c hc
  · refine List.nodup_cons.2 ⟨hb, hmine ▸ h.nodup⟩
  · by_cases hcb : c = b
    · rw [hcb]
      exact iff_of_true hself List.mem_cons_self
    · rw [hother c hcb, h.owner c, hmine]
      simp [Thread.mine, Thread.goto, Point.taken, hcb]
  · rcases List.mem_cons.1 hc with heq | hheld
    · rw [heq]
      exact haddr.symm ▸ hread
    · exact h.readable c (hmine ▸ hheld)
  · have hsynced := h.synced c hc (by rw [ht]; exact id)
    exact ⟨hsynced.valid, hsynced.clean, hsynced.data⟩
  · exact ⟨haddr, h.clean.free b hfree⟩
  · by_cases hcb : c = b
    · rw [hcb, hself, hfree]
      exact iff_of_false (some_ne_some hj).symm (Option.some_ne_none j).symm
    · rw [hother c hcb]

/-- A free buffer is taken for another block. -/
theorem Mine.recycle (h : Mine disk₀ i t p) (ht : t.point = .loop a) (hfree : p.owner b = none) :
    Mine disk₀ i (t.goto (.unlock a b)) (p.recycle i b a) ∧ Apart i p (p.recycle i b a) := by
  have hread : Readable p.havedisk1 a := by
    have hfits := h.fits
    rwa [ht] at hfits
  have hmine : t.mine = t.held := by simp [Thread.mine, ht, Point.taken]
  have hb : b ∉ t.held := fun hmem => Option.some_ne_none i (((h.owner b).2 (hmine ▸ hmem)).symm.trans hfree)
  have hself : (p.recycle i b a).owner b = some i := Function.update_self ..
  have haddr' : (p.recycle i b a).addr b = a := Function.update_self ..
  have hvalid' : (p.recycle i b a).valid b = false := Function.update_self ..
  have hother : ∀ c, c ≠ b → (p.recycle i b a).owner c = p.owner c ∧ (p.recycle i b a).addr c = p.addr c ∧
      (p.recycle i b a).valid c = p.valid c ∧ (p.recycle i b a).dirty c = p.dirty c := fun c hc =>
    ⟨Function.update_of_ne hc _ _, Function.update_of_ne hc _ _, Function.update_of_ne hc _ _,
      Function.update_of_ne hc _ _⟩
  refine ⟨⟨⟨h.clean.disk, fun c hc => ?_, fun c hc => ?_⟩, ?_, fun c => ?_, fun c hc => ?_, fun c hc _ => ?_, ?_,
    fun c hc => hc.elim, h.script, h.seen⟩, rfl, fun j c hj => ?_, fun j c hj hc => ?_, fun j c hj hc => ?_,
    fun j c hj hc => ?_, fun _ _ _ _ => rfl, fun _ _ _ _ => rfl, List.prefix_rfl⟩
  · have hcb : c ≠ b := by
      intro heq
      rw [heq, haddr'] at hc
      exact hread.ne_nodev hc
    obtain ⟨howner, haddr, hvalid, -⟩ := hother c hcb
    rw [howner, hvalid]
    rw [haddr] at hc
    exact h.clean.nodev c hc
  · have hcb : c ≠ b := fun heq => Option.some_ne_none i (hself.symm.trans (heq ▸ hc))
    obtain ⟨howner, haddr, hvalid, hdirty⟩ := hother c hcb
    rw [hdirty, hvalid, haddr]
    rw [howner] at hc
    exact h.clean.free c hc
  · exact List.nodup_cons.2 ⟨hb, hmine ▸ h.nodup⟩
  · by_cases hcb : c = b
    · rw [hcb]
      exact iff_of_true hself List.mem_cons_self
    · rw [(hother c hcb).1, h.owner c, hmine]
      simp [Thread.mine, Thread.goto, Point.taken, hcb]
  · by_cases hcb : c = b
    · rw [hcb, haddr']
      exact hread
    · rw [(hother c hcb).2.1]
      exact h.readable c (hmine ▸ (List.mem_cons.1 hc).resolve_left hcb)
  · have hcb : c ≠ b := fun heq => hb (heq ▸ hc)
    obtain ⟨howner, haddr, hvalid, hdirty⟩ := hother c hcb
    have hsynced := h.synced c hc (by rw [ht]; exact id)
    exact ⟨hvalid.trans hsynced.valid, hdirty.trans hsynced.clean, by rw [haddr]; exact hsynced.data⟩
  · refine ⟨Function.update_self .., Function.update_self .., fun hvalid => ?_⟩
    exact absurd (hvalid'.symm.trans hvalid) Bool.false_ne_true
  · by_cases hcb : c = b
    · rw [hcb, hself, hfree]
      exact iff_of_false (some_ne_some hj).symm (Option.some_ne_none j).symm
    · rw [(hother c hcb).1]
  · exact (hother c (ne_of_free hfree hc)).2.1
  · exact (hother c (ne_of_free hfree hc)).2.2.1
  · exact (hother c (ne_of_free hfree hc)).2.2.2

/-- A buffer is given back. -/
theorem Mine.release (h : Mine disk₀ i t p) (ht : t.point = .list b) :
    Mine disk₀ i { t with held := t.held.erase b, point := .wakeup b } (p.release b) ∧ Apart i p (p.release b) := by
  obtain ⟨hheld, howner, -⟩ := h.mem_of_uses (b := b) (by rw [ht]; rfl)
  have hmine : t.mine = t.held := by simp [Thread.mine, ht, Point.taken]
  have hnodup : t.held.Nodup := hmine ▸ h.nodup
  have hself : (p.release b).owner b = none := Function.update_self ..
  have hother : ∀ c, c ≠ b → (p.release b).owner c = p.owner c := fun c hc => Function.update_of_ne hc _ _
  have hsynced : ∀ c ∈ t.held, p.Synced c := fun c hc => h.synced c hc (by rw [ht]; exact id)
  refine ⟨⟨⟨h.clean.disk, fun c hc => ?_, fun c hc => ?_⟩, hnodup.erase b, fun c => ?_, fun c hc => ?_,
    fun c hc _ => ?_, trivial, fun c hc => hc.elim, h.script, h.seen⟩, rfl, fun j c hj => ?_, fun _ _ _ _ => rfl,
    fun _ _ _ _ => rfl, fun _ _ _ _ => rfl, fun _ _ _ _ => rfl, fun _ _ _ _ => rfl, List.prefix_rfl⟩
  · by_cases hcb : c = b
    · rw [hcb]
      exact ⟨hself, (h.clean.nodev b (hcb ▸ hc)).2⟩
    · rw [hother c hcb]
      exact h.clean.nodev c hc
  · by_cases hcb : c = b
    · rw [hcb]
      exact ⟨(hsynced b hheld).clean, fun _ => (hsynced b hheld).data⟩
    · rw [hother c hcb] at hc
      exact h.clean.free c hc
  · by_cases hcb : c = b
    · rw [hcb, hself]
      exact iff_of_false (Option.some_ne_none i).symm hnodup.not_mem_erase
    · rw [hother c hcb, h.owner c, hmine]
      exact (List.mem_erase_of_ne hcb).symm
  · exact h.readable c (hmine ▸ List.mem_of_mem_erase hc)
  · have hs := hsynced c (List.mem_of_mem_erase hc)
    exact ⟨hs.valid, hs.clean, hs.data⟩
  · by_cases hcb : c = b
    · rw [hcb, hself, howner]
      exact iff_of_false (Option.some_ne_none j).symm (some_ne_some hj).symm
    · rw [hother c hcb]

theorem Bcache.iderw_read (hbusy : p.busy b = true) (hvalid : p.valid b = false) (hdirty : p.dirty b = false)
    (hread : Readable p.havedisk1 (p.addr b)) :
    p.iderw b = some { p with
      data := Function.update p.data b (p.disk (p.addr b))
      valid := Function.update p.valid b true } := by
  have hdisk : (p.addr b).1 ≠ 0 → p.havedisk1 = true := hread.present
  simpa [Bcache.iderw, hbusy, hvalid, hdirty] using hdisk

theorem Bcache.iderw_write (hbusy : p.busy b = true) (hdirty : p.dirty b = true)
    (hread : Readable p.havedisk1 (p.addr b)) :
    p.iderw b = some { p with
      disk := Function.update p.disk (p.addr b) (p.data b)
      dirty := Function.update p.dirty b false
      valid := Function.update p.valid b true } := by
  have hdisk : (p.addr b).1 ≠ 0 → p.havedisk1 = true := hread.present
  simpa [Bcache.iderw, hbusy, hdirty] using hdisk

/-- A step of the process `i` that changes only the flags and the contents of a buffer of its own. -/
theorem Apart.of_own {valid dirty : Buf → Bool} {data : Buf → β} (hb : p.owner b = some i)
    (hvalid : ∀ c, c ≠ b → valid c = p.valid c) (hdirty : ∀ c, c ≠ b → dirty c = p.dirty c)
    (hdata : ∀ c, c ≠ b → data c = p.data c) :
    Apart i p { p with valid := valid, dirty := dirty, data := data } :=
  ⟨rfl, fun _ _ _ => Iff.rfl, fun _ _ _ _ => rfl, fun _ c hj hc => hvalid c (ne_of_owner hb hj hc),
    fun _ c hj hc => hdirty c (ne_of_owner hb hj hc), fun _ c hj hc => hdata c (ne_of_owner hb hj hc),
    fun _ _ _ _ => rfl, List.prefix_rfl⟩

theorem Clean.of_own {valid dirty : Buf → Bool} {data : Buf → β} (h : Clean disk₀ p) (hb : p.owner b = some i)
    (hvalid : ∀ c, c ≠ b → valid c = p.valid c) (hdirty : ∀ c, c ≠ b → dirty c = p.dirty c)
    (hdata : ∀ c, c ≠ b → data c = p.data c) :
    Clean disk₀ { p with valid := valid, dirty := dirty, data := data } := by
  have hne : ∀ c, p.owner c = none → c ≠ b := by
    rintro c hc rfl
    exact Option.some_ne_none i (hb.symm.trans hc)
  refine ⟨h.disk, fun c hc => ?_, fun c hc => ?_⟩
  · have hfree := h.nodev c hc
    exact ⟨hfree.1, (hvalid c (hne c hfree.1)).trans hfree.2⟩
  · obtain ⟨hclean, hsame⟩ := h.free c hc
    refine ⟨(hdirty c (hne c hc)).trans hclean, fun hv => ?_⟩
    exact (hdata c (hne c hc)).trans (hsame ((hvalid c (hne c hc)).symm.trans hv))

/-- The process `i` changes only the flags and the contents of the buffer `b` of its own. -/
theorem Mine.of_own {valid dirty : Buf → Bool} {data : Buf → β} (h : Mine disk₀ i t p) (hb : p.owner b = some i)
    (hvalid : ∀ c, c ≠ b → valid c = p.valid c) (hdirty : ∀ c, c ≠ b → dirty c = p.dirty c)
    (hdata : ∀ c, c ≠ b → data c = p.data c) (htaken : k.taken = t.point.taken)
    (hupdates : ∀ c ∈ t.held, t.point.Updates c → k.Updates c) (hb' : b ∈ t.held → k.Updates b)
    (hfits : k.Fits { p with valid := valid, dirty := dirty, data := data })
    (huses : ∀ c, k.Uses c → c ∈ t.held) :
    Mine disk₀ i (t.goto k) { p with valid := valid, dirty := dirty, data := data } ∧
      Apart i p { p with valid := valid, dirty := dirty, data := data } := by
  have hmine : (t.goto k).mine = t.mine := congrArg (· ++ t.held) htaken
  refine ⟨⟨h.clean.of_own hb hvalid hdirty hdata, hmine ▸ h.nodup, fun c => ?_, fun c hc => ?_, fun c hc hu => ?_,
    hfits, huses, h.script, h.seen⟩, .of_own hb hvalid hdirty hdata⟩
  · rw [hmine]
    exact h.owner c
  · rw [hmine] at hc
    exact h.readable c hc
  · have hcb : c ≠ b := fun heq => hu (heq ▸ hb' (heq ▸ hc))
    have hsynced := h.synced c hc fun hold => hu (hupdates c hc hold)
    exact ⟨(hvalid c hcb).trans hsynced.valid, (hdirty c hcb).trans hsynced.clean,
      (hdata c hcb).trans hsynced.data⟩

/-- The cache after a `bwrite`. -/
def Bcache.flushed (p : Bcache ι β) (b : Buf) (f : β → β) : Bcache ι β :=
  { p with
    disk := Function.update p.disk (p.addr b) (p.data b)
    dirty := Function.update p.dirty b false
    valid := Function.update p.valid b true
    log := p.log ++ [(p.addr b, f)] }

theorem flushed_disk_self (p : Bcache ι β) (b : Buf) (f : β → β) : (p.flushed b f).disk (p.addr b) = p.data b :=
  Function.update_self ..

theorem flushed_disk_of_ne {f : β → β} (h : a ≠ p.addr b) : (p.flushed b f).disk a = p.disk a :=
  Function.update_of_ne h ..

theorem flushed_synced (p : Bcache ι β) (b : Buf) (f : β → β) : (p.flushed b f).Synced b :=
  ⟨Function.update_self .., Function.update_self .., (flushed_disk_self p b f).symm⟩

theorem flushed_valid_of_ne {c : Buf} {f : β → β} (h : c ≠ b) : (p.flushed b f).valid c = p.valid c :=
  Function.update_of_ne h ..

theorem flushed_dirty_of_ne {c : Buf} {f : β → β} (h : c ≠ b) : (p.flushed b f).dirty c = p.dirty c :=
  Function.update_of_ne h ..

/-- The contents reach the disk. -/
theorem Mine.flush (h : Mine disk₀ i t p) (hok : p.Ok) {f : β → β} (ht : t.point = .flush b f) :
    Mine disk₀ i (t.goto .idle) (p.flushed b f) ∧ Apart i p (p.flushed b f) := by
  obtain ⟨hheld, howner, hread⟩ := h.mem_of_uses (b := b) (by rw [ht]; rfl)
  have hfits : p.valid b = true ∧ p.dirty b = true ∧ p.data b = f (p.disk (p.addr b)) := by
    have hfits := h.fits
    rwa [ht] at hfits
  have hmine : t.mine = (t.goto .idle).mine := by simp [Thread.mine, ht, Point.taken, Thread.goto]
  -- no other buffer is about this block
  have haddr : ∀ c, c ≠ b → p.addr c ≠ p.addr b := fun c hc heq => hc (hok.unique b c hread.ne_nodev heq.symm).symm
  refine ⟨⟨⟨fun c => ?_, fun c hc => ?_, fun c hc => ?_⟩, hmine ▸ h.nodup, fun c => ?_, fun c hc => ?_,
    fun c hc _ => ?_, trivial, fun c hc => hc.elim, h.script, fun r hr => ?_⟩, rfl, fun _ _ _ => Iff.rfl,
    fun _ _ _ _ => rfl, fun j c hj hc => ?_, fun j c hj hc => ?_, fun _ _ _ _ => rfl, fun j c hj hc => ?_,
    List.prefix_append _ _⟩
  · have hlog : (p.flushed b f).log = p.log ++ [(p.addr b, f)] := rfl
    rw [hlog, replay_append, ← h.clean.disk c]
    by_cases hc : p.addr b = c
    · rw [if_pos hc, ← hc, flushed_disk_self]
      exact hfits.2.2
    · rw [if_neg hc, flushed_disk_of_ne (Ne.symm hc)]
  · have hcb : c ≠ b := by
      rintro rfl
      exact hread.ne_nodev hc
    rw [flushed_valid_of_ne hcb]
    exact h.clean.nodev c hc
  · have hcb : c ≠ b := by
      rintro rfl
      exact Option.some_ne_none i (howner.symm.trans hc)
    rw [flushed_valid_of_ne hcb, flushed_dirty_of_ne hcb]
    have hdisk : (p.flushed b f).disk ((p.flushed b f).addr c) = p.disk (p.addr c) := flushed_disk_of_ne (haddr c hcb)
    rw [hdisk]
    exact h.clean.free c hc
  · rw [← hmine]
    exact h.owner c
  · exact h.readable c (hmine ▸ hc)
  · by_cases hcb : c = b
    · rw [hcb]
      exact flushed_synced p b f
    · have hsynced := h.synced c hc (by rw [ht]; exact fun heq => hcb (Eq.symm heq))
      exact ⟨(flushed_valid_of_ne hcb).trans hsynced.valid, (flushed_dirty_of_ne hcb).trans hsynced.clean,
        hsynced.data.trans (flushed_disk_of_ne (haddr c hcb)).symm⟩
  · exact seen_of_prefix (List.prefix_append _ _) (h.seen r hr)
  · exact flushed_valid_of_ne (ne_of_owner howner hj hc)
  · exact flushed_dirty_of_ne (ne_of_owner howner hj hc)
  · exact flushed_disk_of_ne (haddr c (ne_of_owner howner hj hc))

/-- `bread` returns the buffer. -/
theorem Mine.return_ (h : Mine disk₀ i t p) (ht : t.point = .return_ a b) :
    Mine disk₀ i
      { t with held := b :: t.held, seen := t.seen ++ [(a, p.data b, p.log.length)], point := .idle } p := by
  have hmem : b ∈ t.point.taken := by
    rw [ht]
    exact List.mem_cons_self
  obtain ⟨howner, hheld, hread⟩ := h.mem_of_taken hmem
  have hfits : p.addr b = a ∧ p.Synced b := by
    have hfits := h.fits
    rwa [ht] at hfits
  have hmine : t.mine = b :: t.held := by simp [Thread.mine, ht, Point.taken]
  refine ⟨h.clean, hmine ▸ h.nodup, fun c => ?_, fun c hc => ?_, fun c hc _ => ?_, trivial, fun c hc => hc.elim,
    h.script, fun r hr => ?_⟩
  · rw [h.owner c, hmine]
    rfl
  · exact h.readable c (hmine ▸ hc)
  · rcases List.mem_cons.1 hc with heq | hc'
    · rw [heq]
      exact hfits.2
    · exact h.synced c hc' (by rw [ht]; exact id)
  · rcases List.mem_append.1 hr with hold | hnew
    · exact h.seen r hold
    · rw [List.mem_singleton.1 hnew]
      refine ⟨Nat.le_refl _, ?_⟩
      simp only [List.take_length]
      rw [hfits.2.data, hfits.1, h.clean.disk a]

/-- An instruction of the process `i` keeps what the process knows, and leaves the buffers of the others alone. -/
structure Good (disk₀ : Addr → β) (i : ι) (t : Thread β) (instr : Instr (Thread β) (Bcache ι β) Buf) : Prop where
  own : instr.Keeps Bcache.Ok (Mine disk₀ i) t
  apart : ∀ p, p.Ok → Mine disk₀ i t p → instr.Spares (· = p) (Apart i p)

theorem Good.others {instr : Instr (Thread β) (Bcache ι β) Buf} (h : Good disk₀ i t instr) (hj : j ≠ i)
    (l : Thread β) : instr.Spares (fun p => p.Ok ∧ Mine disk₀ i t p) (Mine disk₀ j l) := by
  cases instr with
  | access f =>
    intro killed p hp hl
    exact hl.apart hj (h.apart p hp.1 hp.2 killed p rfl (.refl i p)) (h.own killed p hp.1 hp.2).clean
  | touch f =>
    intro p hp hl
    exact hl.apart hj (h.apart p hp.1 hp.2 p rfl (.refl i p)) (h.own p hp.1 hp.2).clean
  | _ => trivial

theorem good_touch {f : Bcache ι β → Bcache ι β × Thread β}
    (h : ∀ p, p.Ok → Mine disk₀ i t p → Mine disk₀ i (f p).2 (f p).1 ∧ Apart i p (f p).1) :
    Good disk₀ i t (.touch f) := by
  refine ⟨fun p hp hm => (h p hp hm).1, fun p hp hm q hq _ => ?_⟩
  rw [hq]
  exact (h p hp hm).2

theorem good_access {f : Bool → Bcache ι β → Bcache ι β × Thread β}
    (h : ∀ k p, p.Ok → Mine disk₀ i t p → Mine disk₀ i (f k p).2 (f k p).1 ∧ Apart i p (f k p).1) :
    Good disk₀ i t (.access f) := by
  refine ⟨fun k p hp hm => (h k p hp hm).1, fun p hp hm k q hq _ => ?_⟩
  rw [hq]
  exact (h k p hp hm).2

theorem Mine.fits_of (h : Mine disk₀ i t p) (ht : t.point = k) : k.Fits p := by
  rw [← ht]
  exact h.fits

theorem loop_good (me : ι) (ht : t.point = .loop a) :
    Good disk₀ me t (.access fun _ p => bgetLoop me t a p) := by
  apply good_access
  intro _ p hp hm
  have hread : Readable p.havedisk1 a := hm.fits_of ht
  have hgoto : ∀ k : Point β, k.taken = [] → k.Fits p → (∀ b, ¬ k.Uses b) → Mine disk₀ me (t.goto k) p := by
    intro k htaken hfits huses
    apply hm.goto
    · rw [ht, htaken]
      rfl
    · rw [ht]
      exact fun _ _ => False.elim
    · exact hfits
    · exact fun b hb => absurd hb (huses b)
  have hfree : ∀ b, p.busy b = false → p.owner b = none := fun b hb => by
    rw [hp.busy b] at hb
    exact Option.not_isSome_iff_eq_none.1 (by simp [hb])
  rcases hp.bgetLoop_cases me t a with ⟨b, haddr, hbusy, heq⟩ | ⟨b, -, hbusy, heq⟩ | ⟨b, -, hbusy, heq⟩ | ⟨-, -, heq⟩
  · rw [heq]
    exact hm.hold ht haddr (hfree b hbusy)
  · rw [heq]
    exact ⟨hgoto _ rfl hread fun _ => id, .refl me p⟩
  · rw [heq]
    exact hm.recycle ht (hfree b hbusy)
  · rw [heq]
    exact ⟨hgoto _ rfl trivial fun _ => id, .refl me p⟩

theorem fill_good (me : ι) (ht : t.point = .fill a b) :
    Good disk₀ me t (.touch fun p =>
      match p.iderw b with
      | some p' => (p', t.goto (.return_ a b))
      | none => (p, t.goto .panic)) := by
  apply good_touch
  intro p hp hm
  obtain ⟨haddr, hdirty, hvalid⟩ : p.addr b = a ∧ p.dirty b = false ∧ p.valid b = false := hm.fits_of ht
  obtain ⟨howner, hheld, hread⟩ := hm.mem_of_taken (b := b) (by rw [ht]; exact List.mem_cons_self)
  have hbusy : p.busy b = true := by rw [hp.busy b, howner]; rfl
  simp only [Bcache.iderw_read hbusy hvalid hdirty hread]
  apply hm.of_own howner
  · exact fun c hc => Function.update_of_ne hc ..
  · exact fun _ _ => rfl
  · exact fun c hc => Function.update_of_ne hc ..
  · rw [ht]
    rfl
  · rw [ht]
    exact fun _ _ => False.elim
  · exact fun hmem => absurd hmem hheld
  · exact ⟨haddr, Function.update_self .., hdirty, Function.update_self ..⟩
  · exact fun _ => False.elim

theorem edit_good (me : ι) {f : β → β} (ht : t.point = .edit b f) :
    Good disk₀ me t (.touch fun p =>
      ({ p with data := Function.update p.data b (f (p.data b)) }, t.goto (.bwrite b f))) := by
  apply good_touch
  intro p hp hm
  obtain ⟨hheld, howner, -⟩ := hm.mem_of_uses (b := b) (by rw [ht]; rfl)
  have hsynced := hm.synced b hheld (by rw [ht]; exact id)
  apply hm.of_own howner
  · exact fun _ _ => rfl
  · exact fun _ _ => rfl
  · exact fun c hc => Function.update_of_ne hc ..
  · rw [ht]
    rfl
  · rw [ht]
    exact fun _ _ => False.elim
  · exact fun _ => rfl
  · refine ⟨hsynced.valid, ?_⟩
    simp only [Function.update_self]
    rw [hsynced.data]
  · exact fun c hc => hc ▸ hheld

theorem bwrite_good (me : ι) {f : β → β} (ht : t.point = .bwrite b f) :
    Good disk₀ me t (.touch fun p =>
      if !p.busy b then (p, t.goto .panic)
      else ({ p with dirty := Function.update p.dirty b true }, t.goto (.flush b f))) := by
  apply good_touch
  intro p hp hm
  obtain ⟨hheld, howner, -⟩ := hm.mem_of_uses (b := b) (by rw [ht]; rfl)
  have hfits : p.valid b = true ∧ p.data b = f (p.disk (p.addr b)) := hm.fits_of ht
  have hbusy : p.busy b = true := by rw [hp.busy b, howner]; rfl
  simp only [hbusy, Bool.not_true]
  apply hm.of_own howner
  · exact fun _ _ => rfl
  · exact fun c hc => Function.update_of_ne hc ..
  · exact fun _ _ => rfl
  · rw [ht]
    rfl
  · rw [ht]
    exact fun _ _ => id
  · exact fun _ => rfl
  · exact ⟨hfits.1, Function.update_self .., hfits.2⟩
  · exact fun c hc => hc ▸ hheld

theorem flush_good (me : ι) {f : β → β} (ht : t.point = .flush b f) :
    Good disk₀ me t (.touch fun p =>
      match p.iderw b with
      | some p' => ({ p' with log := p.log ++ [(p.addr b, f)] }, t.goto .idle)
      | none => (p, t.goto .panic)) := by
  apply good_touch
  intro p hp hm
  obtain ⟨hheld, howner, hread⟩ := hm.mem_of_uses (b := b) (by rw [ht]; rfl)
  have hfits : p.valid b = true ∧ p.dirty b = true ∧ p.data b = f (p.disk (p.addr b)) := hm.fits_of ht
  have hbusy : p.busy b = true := by rw [hp.busy b, howner]; rfl
  simp only [Bcache.iderw_write hbusy hfits.2.1 hread]
  exact hm.flush hp ht

/-- An instruction that goes on without an access. -/
theorem good_of_keeps {instr : Instr (Thread β) (Bcache ι β) Buf} (h : instr.Keeps Bcache.Ok (Mine disk₀ i) t)
    (hspares : ∀ J R : Bcache ι β → Prop, instr.Spares J R) : Good disk₀ i t instr :=
  ⟨h, fun _ _ _ => hspares _ _⟩

/-- The next action begins. -/
theorem Mine.begin (h : Mine disk₀ i t p) (ht : t.point = .idle) {action : Action β} {rest : List (Action β)}
    (hscript : t.script = action :: rest) (htaken : k.taken = []) (hfits : k.Fits p)
    (huses : ∀ b, k.Uses b → b ∈ t.held) : Mine disk₀ i { t with script := rest, point := k } p := by
  have hgoto : Mine disk₀ i (t.goto k) p := by
    apply h.goto
    · rw [ht, htaken]
      rfl
    · rw [ht]
      exact fun _ _ => False.elim
    · exact hfits
    · exact huses
  exact ⟨hgoto.clean, hgoto.nodup, hgoto.owner, hgoto.readable, hgoto.synced, hgoto.fits, hgoto.uses,
    fun a ha => h.script a (hscript ▸ List.mem_cons_of_mem _ ha), hgoto.seen⟩

theorem code_good (me : ι) (t : Thread β) : Good disk₀ me t (code me t) := by
  unfold code
  -- a step that goes to a point about the same buffer
  have hgoto : ∀ {k k' : Point β} {p : Bcache ι β}, t.point = k → Mine disk₀ me t p → k'.taken = k.taken →
      (∀ b, k.Updates b → k'.Updates b) → k'.Fits p → (∀ b, k'.Uses b → k.Uses b) →
      Mine disk₀ me (t.goto k') p := by
    intro k k' p ht h htaken hupdates hfits huses
    apply h.goto
    · rw [ht, htaken]
    · rw [ht]
      exact fun b _ => hupdates b
    · exact hfits
    · exact fun b hb => h.uses b (ht ▸ huses b hb)
  cases ht : t.point with
  | idle =>
    cases hscript : t.script with
    | nil => exact good_of_keeps trivial fun _ _ => trivial
    | cons action rest =>
      cases action with
      | read a =>
        refine good_of_keeps (fun p _ h => ?_) fun _ _ => trivial
        exact h.begin ht hscript rfl (h.script a (hscript ▸ List.mem_cons_self)) fun _ => False.elim
      | update k f =>
        dsimp only
        cases hb : t.held[k]? with
        | none =>
          refine good_of_keeps (fun p _ h => ?_) fun _ _ => trivial
          exact h.begin ht hscript rfl trivial fun _ => False.elim
        | some b =>
          refine good_of_keeps (fun p _ h => ?_) fun _ _ => trivial
          exact h.begin ht hscript rfl trivial fun c hc => hc ▸ List.mem_of_getElem? hb
      | release k =>
        dsimp only
        cases hb : t.held[k]? with
        | none =>
          refine good_of_keeps (fun p _ h => ?_) fun _ _ => trivial
          exact h.begin ht hscript rfl trivial fun _ => False.elim
        | some b =>
          refine good_of_keeps (fun p _ h => ?_) fun _ _ => trivial
          exact h.begin ht hscript rfl trivial fun c hc => hc ▸ List.mem_of_getElem? hb
  | bget a =>
    refine good_of_keeps (fun p _ h => ?_) fun _ _ => trivial
    exact hgoto ht h rfl (fun _ => id) (h.fits_of ht :) fun _ => id
  | loop a => exact loop_good me ht
  | sleep a b =>
    refine good_of_keeps (fun p _ h => ?_) fun _ _ => trivial
    exact hgoto ht h rfl (fun _ => id) (h.fits_of ht :) fun _ => id
  | unlock a b =>
    refine good_of_keeps (fun p _ h => ?_) fun _ _ => trivial
    exact hgoto ht h rfl (fun _ => id) (h.fits_of ht :) fun _ => id
  | noBuffers => exact good_of_keeps trivial fun _ _ => trivial
  | bread a b =>
    apply good_touch
    intro p _ h
    have hfits : p.addr b = a ∧ p.dirty b = false ∧ (p.valid b = true → p.data b = p.disk (p.addr b)) :=
      h.fits_of ht
    cases hvalid : p.valid b with
    | false => exact ⟨hgoto ht h rfl (fun _ => id) ⟨hfits.1, hfits.2.1, hvalid⟩ fun _ => id, .refl me p⟩
    | true =>
      exact ⟨hgoto ht h rfl (fun _ => id) ⟨hfits.1, hvalid, hfits.2.1, hfits.2.2 hvalid⟩ fun _ => id, .refl me p⟩
  | fill a b => exact fill_good me ht
  | return_ a b => exact good_touch fun p _ h => ⟨h.return_ ht, .refl me p⟩
  | edit b f => exact edit_good me ht
  | bwrite b f => exact bwrite_good me ht
  | flush b f => exact flush_good me ht
  | brelse b =>
    apply good_touch
    intro p hp h
    obtain ⟨hheld, howner, -⟩ := h.mem_of_uses (b := b) (by rw [ht]; rfl)
    have hbusy : p.busy b = true := by rw [hp.busy b, howner]; rfl
    simp only [hbusy, Bool.not_true]
    exact ⟨hgoto ht h rfl (fun _ => id) trivial fun _ => id, .refl me p⟩
  | acquire b =>
    refine good_of_keeps (fun p _ h => ?_) fun _ _ => trivial
    exact hgoto ht h rfl (fun _ => id) trivial fun _ => id
  | list b => exact good_access fun _ p _ h => h.release ht
  | wakeup b =>
    refine good_of_keeps (fun p _ h => ?_) fun _ _ => trivial
    exact hgoto ht h rfl (fun _ => id) trivial fun _ => id
  | release =>
    refine good_of_keeps (fun p _ h => ?_) fun _ _ => trivial
    exact hgoto ht h rfl (fun _ => id) trivial fun _ => id
  | panic => exact good_of_keeps trivial fun _ _ => trivial
  | lost => exact good_of_keeps trivial fun _ _ => trivial

/-! ## Runs -/

variable [DecidableEq ι] {data : Buf → β} {havedisk1 : Bool} {script : ι → List (Action β)}
  {es : List (Event ι Buf)} {w : World ι (Thread β) (Bcache ι β) Buf}

/-- The processes read only blocks of disks that are there, under their own numbers. -/
def Reads (havedisk1 : Bool) (script : ι → List (Action β)) : Prop :=
  ∀ i a, Action.read a ∈ script i → Readable havedisk1 a

theorem mine_run (hreads : Reads havedisk1 script)
    (hrun : Trace.run (step code) (init data disk₀ havedisk1 script) es = some w) (i : ι) :
    Mine disk₀ i (w.pc i) w.shared := by
  have hkept : KeptBy code Bcache.Ok (Mine disk₀ (ι := ι)) :=
    ⟨fun i t => (code_good i t).own, fun i t j l hj => (code_good i t).others hj l⟩
  have hclean : Clean disk₀ (Bcache.init data disk₀ havedisk1 : Bcache ι β) :=
    ⟨fun _ => rfl, fun _ _ => ⟨rfl, rfl⟩, fun _ _ => ⟨rfl, fun h => absurd h Bool.false_ne_true⟩⟩
  refine hkept.run code_ok (fun _ h => h) (fun _ _ h => h.1) (inv_init data disk₀ havedisk1 script) (fun j => ?_) hrun i
  refine ⟨hclean, List.nodup_nil, fun b => ?_, fun b hb => absurd hb List.not_mem_nil,
    fun b hb => absurd hb List.not_mem_nil, trivial, fun b => False.elim, hreads j, fun r hr => absurd hr List.not_mem_nil⟩
  exact iff_of_false (Option.some_ne_none j).symm List.not_mem_nil

/-- Over every run a buffer is `B_BUSY` if and only if some process has it, and then only that one; no block is
cached twice; no process panics but in `bget`, and there only when all buffers are in use; no search goes on
without end; and while the lock is free, who sleeps on a buffer sleeps on one that is in use. -/
theorem buffers_exclusive (data : Buf → β) (disk₀ : Addr → β) (havedisk1 : Bool) (script : ι → List (Action β))
    (es : List (Event ι Buf)) (hreads : Reads havedisk1 script) {w : World ι (Thread β) (Bcache ι β) Buf}
    (hrun : Trace.run (step code) (init data disk₀ havedisk1 script) es = some w) :
    (∀ b, w.shared.busy b = true ↔ ∃ i, b ∈ (w.pc i).mine) ∧
    (∀ b i j, b ∈ (w.pc i).mine → b ∈ (w.pc j).mine → i = j) ∧
    (∀ b c, (w.shared.addr b).1 ≠ NODEV → w.shared.addr b = w.shared.addr c → b = c) ∧
    (∀ i, (w.pc i).point ≠ .panic ∧ (w.pc i).point ≠ .lost ∧
      ((w.pc i).point = .noBuffers → ∀ b, w.shared.busy b = true)) ∧
    (w.lk = none → ∀ i b, w.phase i = .asleep b → w.shared.busy b = true) := by
  have hinv := inv_run hrun
  have hok := ok_run hrun
  have hmine := mine_run hreads hrun
  refine ⟨fun b => ?_, fun b i j hi hj => ?_, hok.unique, fun i => ⟨fun hpanic => ?_, fun hlost => ?_, fun hno => ?_⟩,
    fun hlk i b hi => hinv.waits_of_asleep hlk hi⟩
  · rw [hok.busy b, Option.isSome_iff_exists]
    exact exists_congr fun i => (hmine i).owner b
  · exact Option.some.inj ((((hmine i).owner b).2 hi).symm.trans (((hmine j).owner b).2 hj))
  · exact (hmine i).fits_of hpanic
  · have hin : (w.pc i).point.Inside := by rw [hlost]; trivial
    have hfound := (hinv.holds hok hin).2
    rwa [hlost] at hfound
  · have hin : (w.pc i).point.Inside := by rw [hno]; trivial
    have hfound := (hinv.holds hok hin).2
    rwa [hno] at hfound

theorem reads_twoReaders : Reads true twoReaders := by
  intro i a ha
  have heq : a = (1, 5) := by
    cases i with
    | true => simpa [twoReaders] using ha
    | false => simpa [twoReaders] using ha
  rw [heq]
  exact ⟨.inr ⟨rfl, rfl⟩, by decide⟩

set_option maxRecDepth 4000 in
theorem buffers_exclusive_readAndSleep : ∃ w : World Bool (Thread ℕ) (Bcache Bool ℕ) Buf,
    Trace.run (step code) (init (fun _ => 0) (fun _ => 7) true twoReaders) readAndSleep = some w ∧
    w.phase false = .asleep 0 ∧ w.shared.busy 0 = true := by
  have heval : (Trace.run (step code) (init (fun _ => 0) (fun _ => 7) true twoReaders) readAndSleep).map
      (fun w => (w.lk, w.phase false)) = some (none, .asleep 0) := rfl
  obtain ⟨w, hrun, hw⟩ := Option.map_eq_some_iff.1 heval
  obtain ⟨hlk, hphase⟩ := Prod.mk.inj hw
  exact ⟨w, hrun, hphase, (buffers_exclusive _ _ true twoReaders _ reads_twoReaders hrun).2.2.2.2 hlk false 0 hphase⟩

/-- Over every run the disk holds what all updates that have been written, one after the other, have made of
it; a buffer that a process has and is not updating holds what is on the disk; and what a process has read are
the contents after the updates until then. -/
theorem blocks_coherent (data : Buf → β) (disk₀ : Addr → β) (havedisk1 : Bool) (script : ι → List (Action β))
    (es : List (Event ι Buf)) (hreads : Reads havedisk1 script) {w : World ι (Thread β) (Bcache ι β) Buf}
    (hrun : Trace.run (step code) (init data disk₀ havedisk1 script) es = some w) (i : ι) :
    (∀ a, w.shared.disk a = replay disk₀ w.shared.log a) ∧
    (∀ b ∈ (w.pc i).held, ¬ (w.pc i).point.Updates b → w.shared.data b = w.shared.disk (w.shared.addr b)) ∧
    ∀ r ∈ (w.pc i).seen, r.2.2 ≤ w.shared.log.length ∧ r.2.1 = replay disk₀ (w.shared.log.take r.2.2) r.1 := by
  have hmine := mine_run hreads hrun i
  exact ⟨hmine.clean.disk, fun b hb hu => (hmine.synced b hb hu).data, hmine.seen⟩

set_option maxRecDepth 4000 in
theorem blocks_coherent_readAndSleep : ∃ w : World Bool (Thread ℕ) (Bcache Bool ℕ) Buf,
    Trace.run (step code) (init (fun _ => 0) (fun _ => 7) true twoReaders) readAndSleep = some w ∧
    (∀ a, w.shared.disk a = replay (fun _ => 7) w.shared.log a) ∧ w.shared.disk (1, 5) = 8 := by
  have heval : (Trace.run (step code) (init (fun _ => 0) (fun _ => 7) true twoReaders) readAndSleep).map
      (fun w => w.shared.disk (1, 5)) = some 8 := rfl
  obtain ⟨w, hrun, hw⟩ := Option.map_eq_some_iff.1 heval
  exact ⟨w, hrun, (blocks_coherent _ _ true twoReaders _ reads_twoReaders hrun true).1, hw⟩

end SystemsProjects.Xv6.Bio
