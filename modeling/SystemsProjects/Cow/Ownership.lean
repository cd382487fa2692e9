import SystemsProjects.Cow.Exec
import SystemsProjects.Cow.Progress
import SystemsProjects.Lib.Trace

/-!
# Reference counts

What the reference counts of `kalloc.c` are for, said of the state alone: the free list is a list of
distinct pages and `free_pages` is its length, the count of a frame is the number of user page table
entries that map it, and a frame that can be written is mapped once.  It holds after every run in which
`exec` meets no segment that wraps around the end of the address space (`refCounted_of_run`); with such
a segment, `exec` writes the file to a page of physical memory of its choice.
-/

namespace SystemsProjects.Cow

open Sharing

variable {L : Layout} {lost : Word} {leak : Set Page} {eager : Bool} {s s' : Sys} {m m' : Mem}
  {use use' use₀ : Page → Use} {f g d t v : Page} {p i : Slot}

/-! ## The property -/

/-- A page directory: that of the kernel, or that of a process. -/
def IsDir (s : Sys) (d : Page) : Prop := d = s.kpgdir ∨ ∃ i, Live s i ∧ (s.procs i).pgdir = d

/-- A page table of one of the page directories. -/
def IsTable (s : Sys) (t : Page) : Prop :=
  ∃ d i, IsDir s d ∧ has (s.mem.page d i) PTE_P = true ∧ pageOf (s.mem.page d i) = t

def IsKstack (s : Sys) (f : Page) : Prop := ∃ i, Live s i ∧ (s.procs i).kstack = f

open Classical in
/-- The user entries of all page directories, by directory and page. -/
noncomputable def userPtes (s : Sys) : Table (Page × Page) Page := fun k =>
  if IsDir s k.1 then (pteOf s.mem k.1 k.2).bind decode else none

/-- The reference counts and the free list are right. -/
structure RefCounted (s : Sys) : Prop where
  freelist : ∃ l, FreeChain s.mem.page s.mem.freelist l ∧ l.Nodup ∧ s.mem.freePages.toNat = l.length ∧
    ∀ f, 1 ≤ refs (userPtes s) f → f ∉ l
  count : ∀ f, 1 ≤ refs (userPtes s) f → (s.mem.refCnt f).toNat = refs (userPtes s) f
  owned : ∀ f, 1 ≤ refs (userPtes s) f → ¬ IsDir s f ∧ ¬ IsTable s f ∧ ¬ IsKstack s f
  writable : ∀ k f, userPtes s k = some (f, true) → refs (userPtes s) f = 1

theorem Inv.userPtes_eq (h : Inv L lost eager leak s use) : userPtes s = userTable s.mem use := by
  funext k
  unfold userPtes userTable
  have hdir : use k.1 = .dir ↔ IsDir s k.1 := h.dirs k.1
  by_cases hk : use k.1 = .dir
  · rw [if_pos hk, if_pos (hdir.1 hk)]
  · rw [if_neg hk, if_neg fun hx => hk (hdir.2 hx)]

theorem Frames.length_le (h : Frames L lost m use) {l : List Page} (hnodup : l.Nodup)
    (hl : ∀ f ∈ l, use f = .free) : l.length ≤ 4096 := by
  have hsub : l.map BitVec.toNat ⊆ List.range 4096 := by
    intro n hn
    obtain ⟨f, hf, rfl⟩ := List.mem_map.1 hn
    exact List.mem_range.2 (h.range f (by simp [hl f hf])).2
  have hle := ((hnodup.map fun _ _ => BitVec.eq_of_toNat_eq).subperm hsub).length_le
  rwa [List.length_map, List.length_range] at hle

theorem Inv.refCounted (h : Inv L 0#32 eager leak s use) : RefCounted s := by
  have huser : ∀ f, 1 ≤ refs (userPtes s) f → use f = .user := by
    intro f hf
    rw [h.userPtes_eq] at hf
    obtain ⟨k, hk⟩ := refs_pos_iff.1 hf
    obtain ⟨b, hb⟩ := frame_eq_some_iff.1 hk
    exact (h.owned.counts.entry k.1 k.2 f b hb).2.2
  refine ⟨?_, fun f hf => ?_, fun f hf => ⟨fun hx => ?_, fun hx => ?_, fun hx => ?_⟩, fun k f hk => ?_⟩
  · obtain ⟨l, hchain, hnodup, hmem, hlen⟩ := h.owned.frames.free
    refine ⟨l, hchain, hnodup, ?_, fun f hf hl => ?_⟩
    · have := h.owned.frames.length_le hnodup fun f hf => (hmem f).1 hf
      rw [hlen, BitVec.add_zero, BitVec.toNat_ofNat]
      omega
    · have := huser f hf
      rw [(hmem f).1 hl] at this
      cases this
  · rw [h.userPtes_eq]
    exact h.owned.toNat_refCnt (huser f hf)
  · have := huser f hf
    rw [(h.dirs f).2 hx] at this
    cases this
  · obtain ⟨d, i, hd, hP, rfl⟩ := hx
    cases h.owned.frames.pde d i ((h.dirs d).2 hd) with
    | inl hz =>
      rw [hz, has_zero] at hP
      cases hP
    | inr ht =>
      obtain ⟨t, ht⟩ := ht
      have := huser _ hf
      rw [(h.owned.frames.table t d i ht).2, pageOf_pdeFor, ht] at this
      cases this
  · have := huser f hf
    obtain ⟨i, hi, rfl⟩ := hx
    rw [h.kern hi] at this
    cases this
  · rw [h.userPtes_eq] at hk ⊢
    exact refs_eq_one_of_unique (frame_of_eq_some hk) (h.owned.counts.exclusive k f hk)

/-! ## Runs -/

/-- `kalloc` fails inside `cowHandler`. -/
def Event.Fails (s : Sys) : Event → Prop
  | .mem e => e.Fails s
  | .exec _ _ _ => False

/-- An `exec` is of a file without a segment that wraps around. -/
def Event.Fits : Event → Prop
  | .mem _ => True
  | .exec _ file _ => ∀ ip, file = some ip → ExecFits ip

/-- The state after an event, if the kernel goes on. -/
def next (L : Layout) (s : Sys) (e : Event) : Option Sys := (step L cowuvm s e).toOption

theorem next_eq_some_iff {e : Event} : next L s e = some s' ↔ step L cowuvm s e = .ok s' := by
  unfold next
  cases step L cowuvm s e with
  | error x => simp [Except.toOption]
  | ok x => simp [Except.toOption]

/-- A system call of a process that has not been killed, before or in it. -/
theorem syscall_eq_ok {body : Sys → Except Halt Sys} (hlive : (s.procs p).killed = false)
    (hbody : body s = .ok s') (hlive' : (s'.procs p).killed = false) : syscall p body s = .ok s' := by
  rw [syscall, hlive, if_neg Bool.false_ne_true, hbody]
  show Cow.exitIfKilled p s' = _
  rw [Cow.exitIfKilled, hlive', if_neg Bool.false_ne_true]

theorem Inv.exitIfKilled (h : Inv L lost eager leak s use) (hp : Live s p)
    (hs' : exitIfKilled p s = .ok s') : Inv L lost eager leak s' use := by
  unfold Cow.exitIfKilled at hs'
  split_ifs at hs'
  · exact inv_exit hs' h hp
  · rw [← Except.ok.inj hs']
    exact h

/-- The process that calls `exec` exits, or `exec` returns. -/
theorem step_exec_cases {copy : CopyFn} {file : Option Inode} {argv : List (List Byte)}
    (hs' : step L copy s (.exec p file argv) = .ok s') :
    Live s p ∧ ArgsOk argv (s.procs p).sz ∧ (exit p s = .ok s' ∨
      ∃ s₁, exec L p file argv s = .ok s₁ ∧ exitIfKilled p s₁ = .ok s') := by
  unfold step at hs'
  simp only at hs'
  split_ifs at hs' with hrun
  rw [not_or, not_not, not_not] at hrun
  refine ⟨live_of_runnable hrun.1, hrun.2, ?_⟩
  unfold syscall at hs'
  split_ifs at hs'
  · exact Or.inl hs'
  · cases hs₁ : exec L p file argv s with
    | error x =>
      rw [hs₁] at hs'
      cases hs'
    | ok s₁ =>
      rw [hs₁] at hs'
      exact Or.inr ⟨s₁, rfl, hs'⟩

/-- One event. -/
theorem Inv.next (h : Inv L lost false leak s use) {e : Event} (hfails : ¬ e.Fails s) (hfit : e.Fits)
    (hs' : next L s e = some s') : ∃ leak' use', Inv L lost false leak' s' use' ∧
      ∀ g, use' g = .reserved ↔ use g = .reserved := by
  rw [next_eq_some_iff] at hs'
  cases e with
  | mem e =>
    have hfollow := h.memStep_follows copySpec_cowuvm e
    rw [show memStep L cowuvm s e = .ok s' from hs'] at hfollow
    obtain ⟨hx, -⟩ | ⟨use', leak', hinv, htouch, -⟩ := hfollow
    · exact absurd hx hfails
    · exact ⟨leak', use', hinv, htouch.reserved⟩
  | exec p file argv =>
    obtain ⟨hp, hargs, hexit | ⟨s₁, hs₁, hend⟩⟩ := step_exec_cases hs'
    · exact ⟨leak, use, inv_exit hexit h hp, fun _ => Iff.rfl⟩
    · obtain ⟨leak', use', hinv, hp', hreserved⟩ := h.exec hp hargs hfit hs₁
      exact ⟨leak', use', hinv.exitIfKilled hp' hend, hreserved⟩

/-- The invariant holds after every run in which `kalloc` does not fail inside `cowHandler` and the
files of `exec` fit. -/
theorem exists_inv_of_run {ram : Page → PageData} {init : List Byte} {es : List Event} {s₀ : Sys}
    (hboot : boot L ram init = .ok s₀)
    (hes : Trace.Along (Cow.next L) (fun s e => ¬ e.Fails s ∧ e.Fits) s₀ es)
    (hrun : Trace.run (Cow.next L) s₀ es = some s) :
    ∃ leak use, Inv L 0#32 false leak s use := by
  obtain ⟨use, f₀, hb⟩ := boot_inv hboot
  refine Trace.run_invariant (I := fun s => ∃ leak use, Inv L 0#32 false leak s use) ?_
    ⟨{f₀}, use, hb.inv.of_eager false⟩ hes hrun
  rintro s e s' ⟨leak, use, h⟩ ⟨hfails, hfit⟩ hs'
  obtain ⟨leak', use', hinv, -⟩ := h.next hfails hfit hs'
  exact ⟨leak', use', hinv⟩

/-- Reference counts and ownership, after every run without a failure of `kalloc` inside `cowHandler`
whose `exec`s meet no segment that wraps around. -/
theorem refCounted_of_run {ram : Page → PageData} {init : List Byte} {es : List Event} {s₀ : Sys}
    (hboot : boot L ram init = .ok s₀)
    (hes : Trace.Along (Cow.next L) (fun s e => ¬ e.Fails s ∧ e.Fits) s₀ es)
    (hrun : Trace.run (Cow.next L) s₀ es = some s) : RefCounted s := by
  obtain ⟨leak, use, h⟩ := exists_inv_of_run hboot hes hrun
  exact h.refCounted

/-- The first process forks and writes to the page that it shares with its child. -/
theorem exists_fork_store : ∃ s₀ s₁ s₂,
    boot smallLayout blankRam [] = .ok s₀ ∧
    Cow.next smallLayout s₀ (.mem (.fork initSlot)) = some s₁ ∧
    Cow.next smallLayout s₁ (.mem (.store initSlot 0#32 7#8)) = some s₂ ∧
    ¬ (Event.mem (.store initSlot 0#32 7#8)).Fails s₁ := by
  obtain ⟨s₀, use₀, f₀, hboot, -, h₀⟩ := exists_boot_running
  obtain ⟨s₁, use₁, hs₁, h₁, -⟩ := h₀.step (by decide) (by simp)
    (h₀.family.fork (p := initSlot) (by decide) (show _ = some slotA by decide))
  obtain ⟨s₂, use₂, hs₂, h₂, -⟩ := h₁.step (by decide) (by simp)
    (h₁.family.store (p := initSlot) (by decide) 7#8)
  refine ⟨s₀, s₁, s₂, hboot, next_eq_some_iff.2 hs₁, next_eq_some_iff.2 hs₂, ?_⟩
  rintro ⟨-, -, hzero⟩
  have := h₁.inv.owned.freeCount_eq_zero hzero
  have := h₁.freeCount_le (by decide)
  omega

theorem refCounted_of_run_fork_store : ∃ s₀ s,
    boot smallLayout blankRam [] = .ok s₀ ∧
    Trace.run (Cow.next smallLayout) s₀ [.mem (.fork initSlot), .mem (.store initSlot 0#32 7#8)] = some s ∧
    RefCounted s := by
  obtain ⟨s₀, s₁, s₂, hboot, hn₁, hn₂, hfails⟩ := exists_fork_store
  have hrun : Trace.run (Cow.next smallLayout) s₀
      [.mem (.fork initSlot), .mem (.store initSlot 0#32 7#8)] = some s₂ := by
    rw [Trace.run_cons, hn₁, Option.bind_some, Trace.run_cons, hn₂, Option.bind_some, Trace.run_nil]
  refine ⟨s₀, s₂, hboot, hrun, refCounted_of_run hboot ?_ hrun⟩
  exact Trace.along_cons_of_eq ⟨id, trivial⟩ hn₁ (Trace.along_cons_of_eq ⟨hfails, trivial⟩ hn₂ trivial)

/-! ## A segment that wraps around -/

/-- A file of words. -/
def fileOf (ws : List Word) : Inode :=
  { size := BitVec.ofNat 32 (4 * ws.length)
    byte := fun o => (ws.getD (o.toNat / 4) 0#32).extractLsb' (8 * (o.toNat % 4)) 8 }

theorem append_bytes (w : Word) : w.extractLsb' 24 8 ++ w.extractLsb' 16 8 ++ w.extractLsb' 8 8 ++
    w.extractLsb' 0 8 = w := by
  apply BitVec.eq_of_getLsbD_eq
  intro k hk
  simp only [BitVec.getLsbD_append, BitVec.getLsbD_extractLsb']
  split_ifs <;> simp <;> grind

theorem wordAt_fileOf {ws : List Word} {a b n : ℕ} (hn : 4 * b + 3 < n) (hlt : 4 * a + n < 2 ^ 32) :
    wordAt ((fileOf ws).bytes (BitVec.ofNat 32 (4 * a)) n) (4 * b) = ws.getD (a + b) 0#32 := by
  have hbyte : ∀ r < 4, ((fileOf ws).bytes (BitVec.ofNat 32 (4 * a)) n).getD (4 * b + r) 0#8 =
      (ws.getD (a + b) 0#32).extractLsb' (8 * r) 8 := by
    intro r hr
    have hnat : (BitVec.ofNat 32 (4 * a) + BitVec.ofNat 32 (4 * b + r) : Word).toNat = 4 * (a + b) + r := by
      rw [BitVec.toNat_add, BitVec.toNat_ofNat, BitVec.toNat_ofNat]
      omega
    have hdiv : (4 * (a + b) + r) / 4 = a + b ∧ (4 * (a + b) + r) % 4 = r := by omega
    unfold Inode.bytes fileOf
    rw [List.getD_eq_getElem?_getD, List.getElem?_map, List.getElem?_range (by omega)]
    simp only [Option.map_some, Option.getD_some, hnat, hdiv]
  unfold wordAt
  rw [hbyte 3 (by decide), hbyte 2 (by decide), hbyte 1 (by decide), show 4 * b = 4 * b + 0 from rfl,
    hbyte 0 (by decide)]
  exact append_bytes _

/-- A program with one segment of 8 bytes at the physical page `f`, which ends at address 4096 after it
has wrapped around; only 4 of the bytes are in the file. -/
def wrappingFile (f : Page) : Inode := fileOf
  [ELF_MAGIC, 0#32, 0#32, 0#32, 0#32, 0#32, 0#32, 52#32, 0#32, 0#32, 0#32, 1#32, 0#32,
    ELF_PROG_LOAD, 84#32, paddr f, 0#32, 8#32, 4096#32 - paddr f, 0#32, 0#32, 0#32]

theorem readi_wrappingFile (f : Page) : (wrappingFile f).readi 0#32 52#32 =
    some ((wrappingFile f).bytes 0#32 52) ∧ (wrappingFile f).readi 52#32 32#32 =
    some ((wrappingFile f).bytes 52#32 32) ∧ (wrappingFile f).readi 84#32 8#32 =
    some [0#8, 0#8, 0#8, 0#8] := by
  have hsize : (wrappingFile f).size = 88#32 := rfl
  have hbytes : (wrappingFile f).bytes 84#32 4 = [0#8, 0#8, 0#8, 0#8] := by
    simp [Inode.bytes, wrappingFile, fileOf, List.range_succ]
  unfold Inode.readi
  rw [hsize]
  exact ⟨rfl, rfl, congrArg some hbytes⟩

theorem wordAt_wrappingFile (f : Page) :
    wordAt ((wrappingFile f).bytes 0#32 52) 0 = ELF_MAGIC ∧
    wordAt ((wrappingFile f).bytes 0#32 52) 28 = 52#32 ∧
    wordAt ((wrappingFile f).bytes 0#32 52) 44 = 1#32 :=
  ⟨wordAt_fileOf (a := 0) (b := 0) (by decide) (by decide),
    wordAt_fileOf (a := 0) (b := 7) (by decide) (by decide),
    wordAt_fileOf (a := 0) (b := 11) (by decide) (by decide)⟩

theorem proghdr_wrappingFile (f : Page) : Proghdr.ofBytes ((wrappingFile f).bytes 52#32 32) =
    { type := ELF_PROG_LOAD, offset := 84#32, va := paddr f, filesz := 8#32
      memsz := 4096#32 - paddr f } := by
  have hword : ∀ b < 8, wordAt ((wrappingFile f).bytes 52#32 32) (4 * b) = _ := fun b hb =>
    wordAt_fileOf (a := 13) (b := b) (by omega) (by decide)
  unfold Proghdr.ofBytes
  rw [hword 0 (by decide), hword 1 (by decide), hword 2 (by decide), hword 4 (by decide),
    hword 5 (by decide)]
  rfl

theorem memsz_not_lt (hf : f.toNat < 4096) (hlo : 1 < f.toNat) : ¬ 4096#32 - paddr f < 8#32 := by
  intro hx
  have hx' : (4096#32 - paddr f).toNat < 8 := hx
  rw [BitVec.toNat_sub, toNat_paddr, BitVec.toNat_ofNat] at hx'
  omega

/-- `exec` of the file, up to the write to the physical page. -/
theorem exec_wrappingFile (hf : f.toNat < 4096) (hlo : 1 < f.toNat) {m₀ m₁ m₂ : Mem}
    (hsetup : setupkvm L s.mem = .ok (some d, m₀)) (halloc : allocuvm L d 0#32 4096#32 m₀ = .ok (4096#32, m₁))
    (hload : loaduvm (s.procs p).pgdir d (paddr f) (wrappingFile f) 84#32 8#32 m₁ = .ok (false, m₂)) :
    exec L p (some (wrappingFile f)) [] s = (freevm L d m₂).map fun mem => { s with mem := mem } := by
  obtain ⟨hread, hread', -⟩ := readi_wrappingFile f
  obtain ⟨hmagic, hphoff, hphnum⟩ := wordAt_wrappingFile f
  have hlen : ((wrappingFile f).bytes 0#32 52).length = 52 := length_bytes _ _ _
  have hlen' : ((wrappingFile f).bytes 52#32 32).length = 32 := length_bytes _ _ _
  have hend : paddr f + (4096#32 - paddr f) = 4096#32 := by
    rw [BitVec.add_comm]
    exact BitVec.sub_add_cancel _ _
  have hsegments : loadSegments L (s.procs p).pgdir d (wrappingFile f) 1 52#32 0#32 m₀ = .ok (none, m₂) := by
    rw [loadSegments, loadSegmentsWith, ← allocuvm, hread']
    simp only [proghdr_wrappingFile, hlen', ne_eq, not_true_eq_false, if_false, memsz_not_lt hf hlo, hend,
      halloc, Except.bind, hload]
    rfl
  unfold exec execWith
  simp only [Option.bind_some, hread, Option.map_some, hlen, hmagic, ne_eq, not_true_eq_false, if_false,
    Nat.lt_irrefl, hsetup, Except.bind]
  unfold loadImageWith
  rw [← loadSegments, hphnum, hphoff, show (1#32 &&& 0xFFFF#32).toNat = 1 by decide, hsegments]
  rfl

theorem writeBytes_zero (x : PageData) :
    writeBytes 0#12 [0#8, 0#8, 0#8, 0#8] x = Function.update x 0#10 0#32 := by
  have hput : ∀ (w : Word) k, putByte w k 0#8 = w &&& ~~~(0xFF#32 <<< (8 * k)) := by
    intro w k
    unfold putByte
    rw [show (0#8 : Byte).setWidth 32 <<< (8 * k) = 0#32 by simp, BitVec.or_zero]
  simp only [writeBytes, setByte, show wordIx 0#12 = 0#10 by decide,
    show wordIx (0#12 + 1#12) = 0#10 by decide, show wordIx (0#12 + 1#12 + 1#12) = 0#10 by decide,
    show wordIx (0#12 + 1#12 + 1#12 + 1#12) = 0#10 by decide, show byteIx 0#12 = 0 by decide,
    show byteIx (0#12 + 1#12) = 1 by decide, show byteIx (0#12 + 1#12 + 1#12) = 2 by decide,
    show byteIx (0#12 + 1#12 + 1#12 + 1#12) = 3 by decide, Function.update_self, Function.update_idem, hput,
    BitVec.and_assoc]
  rw [show ~~~(0xFF#32 <<< (8 * 0)) &&& (~~~(0xFF#32 <<< (8 * 1)) &&& (~~~(0xFF#32 <<< (8 * 2)) &&&
    ~~~(0xFF#32 <<< (8 * 3)))) = 0#32 by decide, BitVec.and_zero]

/-- The uses after the free list has been cut off behind its first frame `f`. -/
def cutOff (use : Page → Use) (f : Page) : Page → Use := fun g =>
  if use g = .free ∧ g ≠ f then .reserved else use g

theorem cutOff_eq_iff {u : Use} (hf : u ≠ .free) (hr : u ≠ .reserved) : cutOff use f g = u ↔ use g = u := by
  unfold cutOff
  split_ifs with hg
  · rw [hg.1]
    exact iff_of_false (Ne.symm hr) (Ne.symm hf)
  · rfl

/-- The link in the first free frame is overwritten: the other free frames are lost. -/
theorem Owned.cutOff (h : Owned L lost m use) {l : List Page}
    (hchain : FreeChain m.page m.freelist (f :: l)) {x : PageData} (hx : x 0#10 = 0#32) :
    Owned L (BitVec.ofNat 32 l.length + lost) (m.setPage f x) (cutOff use f) := by
  obtain ⟨l', hchain', hnodup, hmem, hlen⟩ := h.frames.free
  obtain rfl := hchain.unique hchain'
  have hf : use f = .free := (hmem f).1 List.mem_cons_self
  have hframes : Frames L (BitVec.ofNat 32 l.length + lost) (m.setPage f x) (Cow.cutOff use f) := by
    refine h.frames.rebuild (fun g hg => ?_) (fun e he => ?_) (fun g hg => ?_) ⟨[f], ?_, ?_, fun g => ?_, ?_⟩
      fun g hg => ?_
    · unfold Cow.cutOff at hg ⊢
      rw [if_neg]
      rintro ⟨hx, hgf⟩
      rw [if_pos ⟨hx, hgf⟩, hx] at hg
      simp [Use.Structural] at hg
    · apply Mem.setPage_page_of_ne
      rintro rfl
      rw [hf] at he
      cases he
    · apply h.frames.range g
      intro hx
      apply hg
      unfold Cow.cutOff
      rw [if_neg (by simp [hx]), hx]
    · refine ⟨hchain.1, hchain.2.1, ?_⟩
      show (m.setPage f x).page f 0#10 = 0#32
      rw [Mem.setPage_page_self, hx]
    · exact List.nodup_singleton f
    · rw [List.mem_singleton]
      unfold Cow.cutOff
      by_cases hg : g = f
      · simp [hg, hf]
      · refine iff_of_false hg ?_
        split_ifs with hx
        · simp
        · exact fun hfree => hx ⟨hfree, hg⟩
    · show m.freePages = _
      rw [hlen, List.length_cons, List.length_singleton, ← BitVec.add_assoc]
      congr 1
      rw [BitVec.ofNat_add]
      exact BitVec.add_comm _ _
    · show m.refCnt g = _
      apply h.frames.ref_of
      unfold Cow.cutOff at hg
      split_ifs at hg with hx
      · simp [Use.Structural] at hg
      · exact hg
  have hne : ∀ {g}, use g ≠ .free → g ≠ f := by
    rintro g hg rfl
    exact hg hf
  refine (h.congr hframes (fun e => cutOff_eq_iff (by simp) (by simp)) (fun e v he => ?_)
    (fun g => cutOff_eq_iff (by simp) (by simp)) fun _ _ => rfl).1
  apply h.frames.pteOf_congr he
  · exact Mem.setPage_page_of_ne _ _ (hne (by simp [he]))
  · intro t i ht
    exact Mem.setPage_page_of_ne _ _ (hne (by simp [ht]))

/-- A memory in which frames are lost is not the memory of a state with right counts. -/
theorem Owned.not_refCounted (h : Owned L lost s.mem use) (hpos : 0 < lost.toNat) (hle : lost.toNat ≤ 4096) :
    ¬ RefCounted s := by
  intro hx
  obtain ⟨l, hchain, hnodup, hlen, -⟩ := hx.freelist
  obtain ⟨l', hchain', -, hmem, hlen'⟩ := h.frames.free
  obtain rfl := hchain.unique hchain'
  have := h.frames.length_le hnodup fun f hf => (hmem f).1 hf
  rw [hlen', BitVec.toNat_add, BitVec.toNat_ofNat] at hlen
  omega

theorem offsetOf_paddr (f : Page) : offsetOf (paddr f) = 0#12 := by
  apply BitVec.eq_of_toNat_eq
  unfold offsetOf
  rw [BitVec.extractLsb'_toNat, toNat_paddr, Nat.shiftRight_zero, BitVec.toNat_ofNat]
  omega

/-- `loaduvm` at an address of the kernel writes to the physical page of that address. -/
theorem Owned.loaduvm_wrappingFile (h : Owned L lost m use) (ht : use t = .table d (pdx f))
    (hpte : pageOf (m.page t (ptx f)) = f) (hf : use f ≠ .reserved) (cur : Page) :
    loaduvm cur d (paddr f) (wrappingFile f) 84#32 8#32 m =
      .ok (false, m.setPage f (writeBytes 0#12 [0#8, 0#8, 0#8, 0#8] (m.page f))) := by
  have hkernel : kernelFrame m cur f = some f := by
    unfold kernelFrame
    rw [if_neg (h.frames.not_isUser hf), if_pos (Or.inl (h.frames.range f hf).2)]
  unfold loaduvm
  rw [if_neg (by rw [offsetOf_paddr]; simp), pageOf_paddr, show pagesBelow 8#32 = 1 by decide, loadLoop,
    h.frames.walkpgdir_eq ht]
  simp only [show (8#32 < 4096#32) = True from by decide, if_true, (readi_wrappingFile f).2.2, hpte, hkernel]
  rfl

/-- `allocuvm` of the first page keeps the entries for the pages of the kernel. -/
theorem NewDir.allocuvm_eq {m₀ : Mem} {use₀ : Page → Use} (h : NewDir L lost m use d m₀ use₀)
    (hne : m₀.freelist ≠ 0#32) :
    ∃ m₁ use₁, allocuvm L d 0#32 4096#32 m₀ = .ok (4096#32, m₁) ∧ Owned L lost m₁ use₁ ∧
      Keeps use₀ use₁ ∧ freeCount use₁ + 1 = freeCount use₀ ∧
      (∀ k, k.1 ≠ d → userTable m₁ use₁ k = userTable m₀ use₀ k) ∧
      ∀ f, KernelPage f → pageOf (pteWord m₁ d f) = f := by
  obtain ⟨t, ht⟩ := (show Complete use₀ d from h.tables).exists_table
  have ht0 : use₀ t = .table d (pdx 0#20) := ht
  obtain ⟨g, mk, hk, hg, h₁, hT₁, hpage, -, -⟩ := h.owned.kalloc_eq_some hne
  obtain ⟨h₂, hT₂⟩ := h₁.setPage (f := g) (Or.inl (by simp)) fun _ => 0#32
  have htg : t ≠ g := by
    rintro rfl
    simp [hg] at ht
  have ht₂ : Function.update use₀ g .kern t = .table d (pdx 0#20) := by rw [Function.update_of_ne htg, ht0]
  have hempty : userTable (mk.setPage g fun _ => 0#32) (Function.update use₀ g .kern) (d, 0#20) = none := by
    rw [hT₂, hT₁, h.empty]
  have hw : decode (paddr g ||| PTE_WU ||| PTE_P) = some (g, true) := by
    unfold PTE_WU
    rw [decode_eq_some (by simp) (by simp)]
    simp
  obtain ⟨h₃, hT₃⟩ := h₂.map ht₂ (by decide) hempty (by simp) hw
  rw [Function.update_idem] at h₃ hT₃
  rw [hT₂, hT₁] at hT₃
  have hmap := h₂.mappages_eq ht₂ (by decide) hempty g PTE_WU
  have hdg : d ≠ g := by
    rintro rfl
    rw [h.dir] at hg
    cases hg
  refine ⟨_, _, ?_, h₃, Keeps.update (Or.inl hg) (Or.inr rfl), freeCount_update hg (by simp),
    fun k hk => ?_, fun f hf => ?_⟩
  · unfold allocuvm allocuvmWith
    rw [if_neg (by decide), if_neg (by decide),
      show pagesBelow 4096#32 - (pgRoundUp 0#32).toNat = 1 by decide, show pgRoundUp 0#32 = 0#20 by decide,
      uvmLoop, allocPageWith, hk]
    simp only [hmap, Except.map, Except.bind, if_true, uvmLoop]
  · rw [hT₃, Function.update_of_ne fun hx => hk (congrArg Prod.fst hx)]
  · have hf0 : (d, f) ≠ (d, 0#20) := by
      intro hx
      exact hf.1 (by rw [(Prod.mk.inj hx).2]; decide)
    have hpte : pteOf ((mk.setPage g fun _ => 0#32).write t (ptx 0#20)
        (paddr g ||| PTE_WU ||| PTE_P)) d f = pteOf m₀ d f := by
      rw [h₂.frames.pteOf_write ht₂ _ (by rw [Function.update_of_ne hdg, h.dir]), if_neg hf0]
      apply h.owned.frames.pteOf_congr h.dir
      · rw [Mem.setPage_page_of_ne _ _ hdg, hpage]
      · intro t' i ht'
        rw [Mem.setPage_page_of_ne, hpage]
        rintro rfl
        simp [hg] at ht'
    unfold pteWord
    rw [hpte]
    exact h.kernel f hf

/-- `exec` of the first process, at the point where it loads a segment that ends in the first page. -/
structure Loading (s₀ : Sys) (use : Page → Use) (d : Page) (m₀ : Mem) (use₀ : Page → Use) (m₁ : Mem)
    (use₁ : Page → Use) : Prop where
  boot : boot smallLayout blankRam [] = .ok s₀
  booted : ∃ f₀, Booted smallLayout [] s₀ use f₀
  setup : setupkvm smallLayout s₀.mem = .ok (some d, m₀)
  newDir : NewDir smallLayout 0#32 s₀.mem use d m₀ use₀
  alloc : allocuvm smallLayout d 0#32 4096#32 m₀ = .ok (4096#32, m₁)
  owned : Owned smallLayout 0#32 m₁ use₁
  keeps : Keeps use₀ use₁
  entries : ∀ k, k.1 ≠ d → userTable m₁ use₁ k = userTable m₀ use₀ k
  kernel : ∀ f, KernelPage f → pageOf (pteWord m₁ d f) = f
  room : 2 ≤ freeCount use₁

theorem exists_loading : ∃ s₀ use d m₀ use₀ m₁ use₁, Loading s₀ use d m₀ use₀ m₁ use₁ := by
  obtain ⟨s₀, use, f₀, hboot, hb, h₀⟩ := exists_boot_running
  have hroom := hb.room
  rw [show smallLayout.kend.toNat = 300 by decide] at hroom
  obtain ⟨d, m₀, use₀, hsetup, hnew⟩ | ⟨m₀, use₀, -, hleak⟩ := h₀.inv.owned.setupkvm_cases
  · have hcount := hnew.freeCount_le
    obtain ⟨m₁, use₁, halloc, h₁, hkeeps, hcount₁, hentries, hkernel⟩ := hnew.allocuvm_eq fun hz => by
      have := hnew.owned.freeCount_eq_zero hz
      omega
    exact ⟨s₀, use, d, m₀, use₀, m₁, use₁, hboot, ⟨f₀, hb⟩, hsetup, hnew, halloc, h₁, hkeeps, hentries,
      hkernel, by omega⟩
  · have hfew : freeCount use ≤ 12 := hleak.few
    omega

namespace Loading

variable {s₀ : Sys} {use₁ : Page → Use} {m₀ m₁ : Mem}

theorem complete (h : Loading s₀ use d m₀ use₀ m₁ use₁) : Complete use₁ d :=
  Complete.keeps h.newDir.tables h.keeps

theorem dir (h : Loading s₀ use d m₀ use₀ m₁ use₁) : use₁ d = .dir :=
  (h.keeps.eq_iff (by simp) (by simp)).2 h.newDir.dir

/-- The contents of the segment go to the physical page `f`, and then the image is given up. -/
theorem next (h : Loading s₀ use d m₀ use₀ m₁ use₁) (hf : use₁ f ≠ .reserved)
    (hfree : freevm smallLayout d (m₁.setPage f (writeBytes 0#12 [0#8, 0#8, 0#8, 0#8] (m₁.page f))) = .ok m') :
    Cow.next smallLayout s₀ (.exec initSlot (some (wrappingFile f)) []) = some { s₀ with mem := m' } := by
  have hrange := h.owned.frames.range f hf
  rw [show smallLayout.kend.toNat = 300 by decide] at hrange
  have hpage : KernelPage f := ⟨h.owned.frames.not_isUser hf, Or.inl hrange.2⟩
  obtain ⟨t, ht⟩ := (h.complete (pdx f)).2 hpage.index
  have hpte := h.kernel f hpage
  unfold pteWord at hpte
  rw [h.owned.frames.pteOf_eq_some ht, Option.getD_some] at hpte
  have hload := h.owned.loaduvm_wrappingFile ht hpte hf (s₀.procs initSlot).pgdir
  have hexec := exec_wrappingFile (p := initSlot) hrange.2 (by omega) h.setup h.alloc hload
  rw [hfree] at hexec
  obtain ⟨f₀, hb⟩ := h.booted
  rw [next_eq_some_iff]
  have hargs : ArgsOk [] (s₀.procs initSlot).sz := ⟨by decide, by simp⟩
  have hkilled : (s₀.procs initSlot).killed = false := by rw [hb.first]
  simp only [step, hargs, not_true_eq_false, or_false, ne_eq]
  rw [if_neg (by rw [hb.first]; simp)]
  exact syscall_eq_ok hkilled hexec hkilled

end Loading

/-- After an `exec` of a file with a segment that wraps around to the first free frame, the free list is
shorter than `free_pages` says. -/
theorem not_refCounted_wrappingFile : ∃ s₀ f s,
    boot smallLayout blankRam [] = .ok s₀ ∧
    Trace.Along (Cow.next smallLayout) (fun s e => ¬ e.Fails s) s₀
      [.exec initSlot (some (wrappingFile f)) []] ∧
    Trace.run (Cow.next smallLayout) s₀ [.exec initSlot (some (wrappingFile f)) []] = some s ∧
    ¬ RefCounted s := by
  obtain ⟨s₀, use, d, m₀, use₀, m₁, use₁, h⟩ := exists_loading
  obtain ⟨l, hchain, hnodup, hmem, -⟩ := h.owned.frames.free
  have hlen : l.length = freeCount use₁ := by
    unfold freeCount
    rw [show {g | use₁ g = .free} = ((l.toFinset : Finset Page) : Set Page) by ext g; simp [hmem],
      Set.ncard_coe_finset, List.toFinset_card_of_nodup hnodup]
  have hroom := h.room
  cases l with
  | nil =>
    rw [List.length_nil] at hlen
    omega
  | cons f l =>
    have hf : use₁ f = .free := (hmem f).1 List.mem_cons_self
    have hlink : writeBytes 0#12 [0#8, 0#8, 0#8, 0#8] (m₁.page f) 0#10 = 0#32 := by
      rw [writeBytes_zero, Function.update_self]
    have hcut := h.owned.cutOff hchain hlink
    obtain ⟨t₀, ht₀⟩ := h.complete.exists_table
    obtain ⟨m', use', hm', hfreed⟩ := hcut.freevm_eq_ok ((cutOff_eq_iff (by simp) (by simp)).2 h.dir)
      ((cutOff_eq_iff (by simp) (by simp)).2 ht₀)
    have hstep := h.next (by simp [hf]) hm'
    refine ⟨s₀, f, { s₀ with mem := m' }, h.boot, Trace.along_cons_of_eq id hstep trivial, ?_, ?_⟩
    · exact Trace.run_singleton hstep
    · rw [List.length_cons] at hlen
      have hle := h.owned.frames.length_le (List.nodup_cons.1 hnodup).2
        fun g hg => (hmem g).1 (List.mem_cons_of_mem f hg)
      have hnat : (BitVec.ofNat 32 l.length + 0#32 : Word).toNat = l.length := by
        rw [BitVec.add_zero, BitVec.toNat_ofNat]
        omega
      exact Owned.not_refCounted (s := { s₀ with mem := m' }) hfreed.owned (by rw [hnat]; omega)
        (by rw [hnat]; exact hle)

end SystemsProjects.Cow
