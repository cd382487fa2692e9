import SystemsProjects.Cow.Step

/-!
# The image of a program

`exec` fills a page directory of its own with the segments of the file and the arguments.  As long as
no segment wraps around the end of the address space, it writes to frames of the new image alone, and
the image has exactly the pages below its size (`Image.loadImage`).  The kernel can stop in `loaduvm`
and where it follows a null pointer, but `mappages` finds nothing in its way
(`Image.loadImage_error`).
-/

namespace SystemsProjects.Cow

open Sharing

variable {L : Layout} {lost : Word} {leak : Set Page} {eager : Bool} {s s' : Sys} {m₀ m m' : Mem}
  {use₀ use use' : Page → Use} {f g d t v cur : Page} {p i : Slot} {sz : Word} {ip : Inode}

/-- The memory while `exec` fills the page directory `d`, from the state after `setupkvm` on. -/
structure Image (L : Layout) (lost : Word) (d : Page) (m₀ : Mem) (use₀ : Page → Use) (m : Mem)
    (use : Page → Use) : Prop where
  owned : Owned L lost m use
  keeps : Keeps use₀ use
  entries : ∀ k, k.1 ≠ d → userTable m use k = userTable m₀ use₀ k
  writable : ∀ v f b, userTable m use (d, v) = some (f, b) → b = true

/-- The image has the pages below `sz` and no others. -/
structure Sized (d : Page) (sz : Word) (m : Mem) (use : Page → Use) : Prop where
  le : sz ≤ USERTOP
  mapped : ∀ v, v.toNat < pagesBelow sz → userTable m use (d, v) ≠ none
  bound : ∀ v, pagesBelow sz ≤ v.toNat → userTable m use (d, v) = none

theorem Sized.congr (h : Sized d sz m use) (hT : userTable m' use' = userTable m use) :
    Sized d sz m' use' := by
  refine ⟨h.le, ?_, ?_⟩
  · rw [hT]
    exact h.mapped
  · rw [hT]
    exact h.bound

theorem Sized.zero (h : ∀ v, userTable m use (d, v) = none) : Sized d 0#32 m use :=
  ⟨by decide, fun v hv => absurd hv (by simp [pagesBelow, PGSIZE]), fun v _ => h v⟩

/-- The kernel reaches the frames of the allocator at their own addresses. -/
theorem Owned.kernelFrame_user (h : Owned L lost m use) (hf : use f = .user) (cur : Page) :
    kernelFrame m cur f = some f := by
  have hr := h.frames.range f (by simp [hf])
  unfold kernelFrame
  rw [if_neg (h.frames.not_isUser (by simp [hf])), if_pos (Or.inl hr.2)]

/-- A frame of the image is overwritten. -/
theorem Image.setPage (h : Image L lost d m₀ use₀ m use) (hf : use f = .user) (x : PageData) :
    Image L lost d m₀ use₀ (m.setPage f x) use ∧ userTable (m.setPage f x) use = userTable m use := by
  obtain ⟨h₁, hT⟩ := h.owned.setPage (Or.inr hf) x
  refine ⟨⟨h₁, h.keeps, ?_, ?_⟩, hT⟩
  · rw [hT]
    exact h.entries
  · rw [hT]
    exact h.writable

/-! ## allocuvm and loaduvm -/

theorem Image.allocuvm (h : Image L lost d m₀ use₀ m use) (hsz : Sized d sz m use)
    (ht : use t = .table d 0#10) {newsz sz' : Word} (hrun : allocuvm L d sz newsz m = .ok (sz', m')) :
    ∃ use', Image L lost d m₀ use₀ m' use' ∧ use' t = .table d 0#10 ∧
      (sz' ≠ 0#32 → Sized d sz' m' use' ∧ newsz ≤ sz') := by
  by_cases hup : USERTOP < newsz
  · rw [Cow.allocuvm, allocuvmWith, if_pos hup, Except.ok.injEq, Prod.mk.injEq] at hrun
    obtain ⟨rfl, rfl⟩ := hrun
    exact ⟨use, h, ht, fun hx => absurd rfl hx⟩
  by_cases hlt : newsz < sz
  · rw [Cow.allocuvm, allocuvmWith, if_neg hup, if_pos hlt, Except.ok.injEq, Prod.mk.injEq] at hrun
    obtain ⟨rfl, rfl⟩ := hrun
    exact ⟨use, h, ht, fun _ => ⟨hsz, BitVec.le_of_lt hlt⟩⟩
  have hle := BitVec.not_lt.1 hlt
  obtain ⟨sz₁, m₁, use₁, hm₁, h₁, honly, hcases⟩ := h.owned.allocuvm_cases ht hle (BitVec.not_lt.1 hup)
    (fun k hk => by
      obtain ⟨e, v⟩ := k
      obtain rfl := hk.1
      exact hsz.bound v hk.2.1)
  obtain ⟨rfl, rfl⟩ := Prod.mk.inj (Except.ok.inj (hrun.symm.trans hm₁))
  refine ⟨use₁, ⟨h₁, h.keeps.trans honly.keeps, fun k hk => ?_, fun v f b hT => ?_⟩, ?_, fun hne => ?_⟩
  · rw [honly.entries k fun hx => hk hx.1, h.entries k hk]
  · by_cases hv : (d, v) ∈ span d (pagesBelow sz) (pagesBelow newsz)
    · cases hcases with
      | inl hx =>
        obtain ⟨⟨g, hg⟩, -⟩ := hx.2.2 _ hv
        rw [hg] at hT
        exact (Prod.mk.inj (Option.some.inj hT)).2.symm
      | inr hx =>
        rw [hx.2.2 _ hv] at hT
        cases hT
    · rw [honly.entries _ hv] at hT
      exact h.writable v f b hT
  · rw [honly.keeps.of_ne (by simp [ht]) (by simp [ht]), ht]
  · obtain ⟨rfl, -, hnew⟩ | ⟨hx, -⟩ := hcases
    · refine ⟨⟨BitVec.not_lt.1 hup, fun v hv => ?_, fun v hv => ?_⟩, BitVec.le_refl _⟩
      · by_cases hold : v.toNat < pagesBelow sz
        · rw [honly.entries _ fun hx => by have := (mem_span.1 hx).1; omega]
          exact hsz.mapped v hold
        · obtain ⟨⟨g, hg⟩, -⟩ := hnew (d, v) (mem_span.2 ⟨by omega, hv⟩)
          rw [hg]
          simp
      · rw [honly.entries _ fun hx => by have := (mem_span.1 hx).2; omega]
        have := pagesBelow_mono hle
        exact hsz.bound v (by omega)
    · exact absurd hx hne

/-- `loaduvm` of `n` pages that the image has. -/
theorem Image.loadLoop : ∀ {n : ℕ} {a : Page} {off sz : Word} {m : Mem} {ok : Bool},
    Image L lost d m₀ use₀ m use → use t = .table d 0#10 →
    (∀ v : Page, a.toNat ≤ v.toNat → v.toNat < a.toNat + n → userTable m use (d, v) ≠ none) →
    loadLoop cur d ip n a off sz m = .ok (ok, m') →
      Image L lost d m₀ use₀ m' use ∧ userTable m' use = userTable m use
  | 0, a, off, sz, m, ok, h, ht, hmapped, hrun => by
    obtain ⟨rfl, rfl⟩ := Prod.mk.inj (Except.ok.inj hrun)
    exact ⟨h, rfl⟩
  | n + 1, a, off, sz, m, ok, h, ht, hmapped, hrun => by
    obtain ⟨e, hT⟩ := Option.ne_none_iff_exists'.1 (hmapped a le_rfl (by omega))
    obtain ⟨f, b⟩ := e
    obtain ⟨hd, ha, hf⟩ := h.owned.counts.entry d a f b hT
    have hta : use t = .table d (pdx a) := by rw [ha.pdx_eq, ht]
    have hpte : pageOf (m.page t (ptx a)) = f := by
      rw [h.owned.entry_eq hta, decode_eq_some_iff] at hT
      exact (congrArg Prod.fst hT.2.2).symm
    rw [Cow.loadLoop, h.owned.frames.walkpgdir_eq hta] at hrun
    simp only [hpte, h.owned.kernelFrame_user hf] at hrun
    generalize (if sz < 4096#32 then sz else 4096#32) = len at hrun
    have hnext : (a + 1#20).toNat = a.toNat + 1 := by
      unfold IsUser at ha
      rw [BitVec.toNat_add, BitVec.toNat_ofNat]
      omega
    split at hrun
    · obtain ⟨rfl, rfl⟩ := Prod.mk.inj (Except.ok.inj hrun)
      exact ⟨h, rfl⟩
    · obtain ⟨rfl, rfl⟩ := Prod.mk.inj (Except.ok.inj hrun)
      exact ⟨h, rfl⟩
    · rename_i bs _ hread
      obtain ⟨h₁, hT₁⟩ := h.setPage hf (writeBytes 0#12 bs (m.page f))
      split_ifs at hrun
      · obtain ⟨rfl, rfl⟩ := Prod.mk.inj (Except.ok.inj hrun)
        exact ⟨h₁, hT₁⟩
      · obtain ⟨h₂, hT₂⟩ := h₁.loadLoop ht (fun v hv hv' => by
          rw [hT₁]
          exact hmapped v (by omega) (by omega)) hrun
        exact ⟨h₂, hT₂.trans hT₁⟩

/-- The size that `allocuvm` makes of `sz` while there is memory; 0 is its error. -/
def grownSize (sz newsz : Word) : Word := if USERTOP < newsz then 0#32 else if newsz < sz then sz else newsz

theorem allocuvm_size {newsz sz' : Word} (hrun : Cow.allocuvm L d sz newsz m = .ok (sz', m')) (hne : sz' ≠ 0#32) :
    sz' = grownSize sz newsz := by
  unfold Cow.allocuvm allocuvmWith at hrun
  unfold grownSize
  split_ifs at hrun ⊢ with hup hlt
  · exact (Prod.mk.inj (Except.ok.inj hrun)).1.symm
  · exact (Prod.mk.inj (Except.ok.inj hrun)).1.symm
  · generalize uvmLoop _ _ _ _ = r at hrun
    cases r with
    | error e => cases hrun
    | ok r =>
      obtain ⟨ok, m₁⟩ := r
      simp only [Except.bind] at hrun
      split_ifs at hrun
      · exact (Prod.mk.inj (Except.ok.inj hrun)).1.symm
      · -- the pages are given back, and the result is 0
        generalize deallocuvm _ _ _ _ _ = r' at hrun
        cases r' with
        | error e => cases hrun
        | ok r' => exact absurd (Prod.mk.inj (Except.ok.inj hrun)).1.symm hne

/-- The `n` bytes at `offset` are in the file. -/
def Inode.Covers (ip : Inode) (offset n : Word) : Prop := n = 0#32 ∨ offset.toNat + n.toNat ≤ ip.size.toNat

theorem length_bytes (ip : Inode) (off : Word) (n : ℕ) : (ip.bytes off n).length = n := by
  unfold Inode.bytes
  rw [List.length_map, List.length_range]

/-- A read that is not cut short. -/
theorem le_size_of_readi {off n : Word} {bs : List Byte} (h : ip.readi off n = some bs) (hlen : bs.length = n.toNat) :
    off.toNat + n.toNat ≤ ip.size.toNat := by
  unfold Inode.readi at h
  split_ifs at h with hout hcut
  · have hbytes := congrArg List.length (Option.some.inj h)
    rw [length_bytes, hlen] at hbytes
    simp only [not_or, BitVec.lt_def, BitVec.toNat_add, BitVec.toNat_sub] at *
    omega
  · simp only [not_or, BitVec.not_lt, BitVec.le_def, BitVec.toNat_add] at *
    omega

/-- `loaduvm` succeeds only if the contents of the segment are in the file. -/
theorem covers_of_loadLoop : ∀ {n : ℕ} {a : Page} {off sz : Word} {m : Mem},
    pagesBelow sz ≤ n → loadLoop cur d ip n a off sz m = .ok (true, m') → ip.Covers off sz
  | 0, a, off, sz, m, hn, _ => by
    left
    apply BitVec.eq_of_toNat_eq
    unfold pagesBelow PGSIZE at hn
    simp only [BitVec.toNat_ofNat]
    omega
  | n + 1, a, off, sz, m, hn, hrun => by
    rw [Cow.loadLoop] at hrun
    generalize hchunk : (if sz < 4096#32 then sz else 4096#32) = chunk at hrun
    split at hrun
    · cases hrun
    simp only at hrun
    split at hrun
    · cases hrun
    · cases hrun
    rename_i bs _ hread
    split at hrun
    · cases hrun
    by_cases hlen : bs.length ≠ chunk.toNat
    · rw [if_pos hlen] at hrun
      cases hrun
    rw [if_neg hlen] at hrun
    have hle := le_size_of_readi hread (not_not.1 hlen)
    by_cases hlast : sz < 4096#32
    · rw [← hchunk, if_pos hlast] at hle
      exact Or.inr hle
    rw [← hchunk, if_neg hlast] at hle
    have hsz : 4096 ≤ sz.toNat := BitVec.not_lt.1 hlast
    have hnext : (off + 4096#32).toNat = off.toNat + 4096 := by
      have := ip.size.isLt
      rw [BitVec.toNat_add, BitVec.toNat_ofNat]
      simp only [BitVec.toNat_ofNat] at hle
      omega
    have hrest : (sz - 4096#32).toNat = sz.toNat - 4096 := by
      rw [BitVec.toNat_sub, BitVec.toNat_ofNat]
      omega
    have hn' : pagesBelow (sz - 4096#32) ≤ n := by
      unfold pagesBelow PGSIZE at hn ⊢
      rw [hrest]
      omega
    right
    rcases covers_of_loadLoop hn' hrun with hzero | hcovers
    · have hzero' := congrArg BitVec.toNat hzero
      rw [hrest] at hzero'
      simp only [BitVec.toNat_ofNat] at hle hzero'
      omega
    · rw [hnext, hrest] at hcovers
      omega

theorem covers_of_loaduvm {addr off sz : Word} (h : Cow.loaduvm cur d addr ip off sz m = .ok (true, m')) :
    ip.Covers off sz := by
  unfold Cow.loaduvm at h
  split_ifs at h
  exact covers_of_loadLoop le_rfl h

/-- No segment with contents that `exec` loads ends behind the end of the address space, for the `n` program
headers from `off` on and an image of size `sz` so far.  What is behind a header at which `exec` gives up, however
much memory there is, does not matter. -/
def SegmentsFit (ip : Inode) : ℕ → Word → Word → Prop
  | 0, _, _ => True
  | n + 1, off, sz =>
    match ip.readi off 32#32 with
    | none => True
    | some bs =>
      let ph := Proghdr.ofBytes bs
      let sz' := grownSize sz (ph.va + ph.memsz)
      if bs.length ≠ 32 then True
      else if ph.type ≠ ELF_PROG_LOAD then SegmentsFit ip n (off + 32#32) sz
      else if ph.memsz < ph.filesz ∨ sz' = 0#32 then True
      else (ph.filesz = 0#32 ∨ ph.va.toNat + ph.memsz.toNat < 2 ^ 32) ∧
        (ip.Covers ph.offset ph.filesz → SegmentsFit ip n (off + 32#32) sz')

/-- The pages of a segment that fits are below the end of the segment. -/
theorem Proghdr.lt_pagesBelow {ph : Proghdr} (halign : offsetOf ph.va = 0#12)
    (hfit : ph.filesz = 0#32 ∨ ph.va.toNat + ph.memsz.toNat < 2 ^ 32) (hmem : ph.filesz ≤ ph.memsz)
    (hsz : ph.va + ph.memsz ≤ sz) (hv : v.toNat < (pageOf ph.va).toNat + pagesBelow ph.filesz)
    (hv' : (pageOf ph.va).toNat ≤ v.toNat) : v.toNat < pagesBelow sz := by
  rw [toNat_pageOf] at hv hv'
  unfold pagesBelow PGSIZE at *
  have hoff : ph.va.toNat % 4096 = 0 := by
    have := congrArg BitVec.toNat halign
    unfold offsetOf at this
    simpa [BitVec.extractLsb'_toNat] using this
  cases hfit with
  | inl hzero =>
    rw [hzero] at hv
    simp only [BitVec.toNat_ofNat] at hv
    omega
  | inr hfit =>
    have hle : (ph.va + ph.memsz).toNat ≤ sz.toNat := hsz
    rw [BitVec.toNat_add, Nat.mod_eq_of_lt hfit] at hle
    have hmem' : ph.filesz.toNat ≤ ph.memsz.toNat := hmem
    omega

/-- `loaduvm` of a segment that fits. -/
theorem Image.loaduvm {ph : Proghdr} {ok : Bool} (h : Image L lost d m₀ use₀ m use)
    (ht : use t = .table d 0#10) (hsz : Sized d sz m use)
    (hfit : ph.filesz = 0#32 ∨ ph.va.toNat + ph.memsz.toNat < 2 ^ 32) (hmem : ph.filesz ≤ ph.memsz)
    (hle : ph.va + ph.memsz ≤ sz) (hrun : loaduvm cur d ph.va ip ph.offset ph.filesz m = .ok (ok, m')) :
    Image L lost d m₀ use₀ m' use ∧ userTable m' use = userTable m use := by
  unfold Cow.loaduvm at hrun
  by_cases halign : offsetOf ph.va ≠ 0#12
  · rw [if_pos halign] at hrun
    cases hrun
  rw [if_neg halign] at hrun
  exact h.loadLoop ht (fun v hv hv' => hsz.mapped v
    (Proghdr.lt_pagesBelow (not_not.1 halign) hfit hmem hle hv' hv)) hrun

theorem Image.loadSegments : ∀ {n : ℕ} {off sz : Word} {m : Mem} {use : Page → Use} {r : Option Word},
    Image L lost d m₀ use₀ m use → Sized d sz m use → use t = .table d 0#10 → SegmentsFit ip n off sz →
    loadSegments L cur d ip n off sz m = .ok (r, m') →
      ∃ use', Image L lost d m₀ use₀ m' use' ∧ use' t = .table d 0#10 ∧
        ∀ sz', r = some sz' → Sized d sz' m' use'
  | 0, off, sz, m, use, r, h, hsz, ht, _, hrun => by
    obtain ⟨rfl, rfl⟩ := Prod.mk.inj (Except.ok.inj hrun)
    refine ⟨use, h, ht, fun sz' hx => ?_⟩
    rw [← Option.some.inj hx]
    exact hsz
  | n + 1, off, sz, m, use, r, h, hsz, ht, hfit, hrun => by
    have hbad : ∀ {m'' : Mem} {use''}, Image L lost d m₀ use₀ m'' use'' → use'' t = .table d 0#10 →
        Except.ok (none, m'') = (.ok (r, m') : Except Halt (Option Word × Mem)) →
        ∃ use', Image L lost d m₀ use₀ m' use' ∧ use' t = .table d 0#10 ∧
          ∀ sz', r = some sz' → Sized d sz' m' use' := by
      intro m'' use'' h' ht' hx
      obtain ⟨rfl, rfl⟩ := Prod.mk.inj (Except.ok.inj hx)
      exact ⟨use'', h', ht', fun _ hx => by cases hx⟩
    rw [Cow.loadSegments, loadSegmentsWith, ← Cow.allocuvm, ← Cow.loadSegments] at hrun
    rw [SegmentsFit] at hfit
    cases hread : ip.readi off 32#32 with
    | none =>
      rw [hread] at hrun
      exact hbad h ht hrun
    | some bs =>
      rw [hread] at hrun hfit
      simp only at hrun hfit
      by_cases hlen : bs.length ≠ 32
      · rw [if_pos hlen] at hrun
        exact hbad h ht hrun
      rw [if_neg hlen] at hrun hfit
      by_cases htype : (Proghdr.ofBytes bs).type ≠ ELF_PROG_LOAD
      · rw [if_pos htype] at hrun hfit
        exact h.loadSegments hsz ht hfit hrun
      rw [if_neg htype] at hrun hfit
      by_cases hmem : (Proghdr.ofBytes bs).memsz < (Proghdr.ofBytes bs).filesz
      · rw [if_pos hmem] at hrun
        exact hbad h ht hrun
      rw [if_neg hmem] at hrun
      generalize Proghdr.ofBytes bs = ph at *
      cases halloc : Cow.allocuvm L d sz (ph.va + ph.memsz) m with
      | error e =>
        rw [halloc] at hrun
        cases hrun
      | ok r₁ =>
        obtain ⟨sz₁, m₁⟩ := r₁
        obtain ⟨use₁, h₁, ht₁, hsized⟩ := h.allocuvm hsz ht halloc
        rw [halloc] at hrun
        simp only [Except.bind] at hrun
        by_cases hzero : sz₁ = 0#32
        · rw [if_pos hzero] at hrun
          exact hbad h₁ ht₁ hrun
        obtain rfl := allocuvm_size halloc hzero
        rw [if_neg hzero] at hrun
        rw [if_neg (not_or.2 ⟨hmem, hzero⟩)] at hfit
        obtain ⟨hsz₁, hle⟩ := hsized hzero
        cases hload : Cow.loaduvm cur d ph.va ip ph.offset ph.filesz m₁ with
        | error e =>
          rw [hload] at hrun
          cases hrun
        | ok r₂ =>
          obtain ⟨ok, m₂⟩ := r₂
          rw [hload] at hrun
          simp only at hrun
          obtain ⟨h₂, hT₂⟩ := h₁.loaduvm ht₁ hsz₁ hfit.1 (BitVec.not_lt.1 hmem) hle hload
          by_cases hok : ok = true
          · rw [if_pos hok] at hrun
            rw [hok] at hload
            exact h₂.loadSegments (hsz₁.congr hT₂) ht₁ (hfit.2 (covers_of_loaduvm hload)) hrun
          · rw [if_neg hok] at hrun
            exact hbad h₂ ht₁ hrun

/-! ## The arguments -/

/-- A page for which every page directory has a page table. -/
def HasTable (v : Page) : Prop := v.toNat < 4096 ∨ 0xFE000 ≤ v.toNat

theorem HasTable.index (h : HasTable v) : KernelIndex (pdx v) := by
  unfold HasTable at h
  unfold KernelIndex
  rw [toNat_pdx]
  omega

theorem Image.copyLoop (hc : Complete use d) : ∀ {n : ℕ} {va : Word} {bs : List Byte} {m : Mem} {ok : Bool},
    Image L lost d m₀ use₀ m use → HasTable (pageOf va) → copyLoop cur d n va bs m = .ok (ok, m') →
      Image L lost d m₀ use₀ m' use ∧ userTable m' use = userTable m use ∧
        (ok = true → bs ≠ [] → 0 < n → IsUser (pageOf va))
  | 0, va, bs, m, ok, h, _, hrun => by
    obtain ⟨rfl, rfl⟩ := Prod.mk.inj (Except.ok.inj hrun)
    exact ⟨h, rfl, fun _ _ hn => absurd hn (Nat.lt_irrefl 0)⟩
  | n + 1, va, bs, m, ok, h, hva, hrun => by
    rw [Cow.copyLoop] at hrun
    by_cases hbs : bs = []
    · rw [if_pos hbs] at hrun
      obtain ⟨rfl, rfl⟩ := Prod.mk.inj (Except.ok.inj hrun)
      exact ⟨h, rfl, fun _ hx => absurd hbs hx⟩
    rw [if_neg hbs] at hrun
    obtain ⟨t, ht⟩ := (hc (pdx (pageOf va))).2 hva.index
    have hpte : loadPte m cur d (pageOf va) = .ok (m.page t (ptx (pageOf va))) := by
      rw [loadPte, h.owned.frames.pteOf_eq_some ht]
    simp only [uva2ka, hpte, Except.map, Except.bind] at hrun
    split_ifs at hrun with hflags
    · obtain ⟨rfl, rfl⟩ := Prod.mk.inj (Except.ok.inj hrun)
      exact ⟨h, rfl, fun hx => by cases hx⟩
    · rw [not_or, not_or, Bool.not_eq_false, Bool.not_eq_false] at hflags
      have hT : userTable m use (d, pageOf va) = some (pageOf (m.page t (ptx (pageOf va))),
          has (m.page t (ptx (pageOf va))) PTE_W) := by
        rw [h.owned.entry_eq ht, decode_eq_some hflags.1 hflags.2.1]
      obtain ⟨-, hv, hf⟩ := h.owned.counts.entry _ _ _ _ hT
      simp only [h.owned.kernelFrame_user hf] at hrun
      obtain ⟨h₁, hT₁⟩ := h.setPage hf (writeBytes (offsetOf va)
        (bs.take (PGSIZE - (offsetOf va).toNat)) (m.page (pageOf (m.page t (ptx (pageOf va))))))
      have hnext : HasTable (pageOf (paddr (pageOf va + 1#20))) := by
        left
        unfold IsUser at hv
        rw [pageOf_paddr, BitVec.toNat_add, BitVec.toNat_ofNat]
        omega
      obtain ⟨h₂, hT₂, -⟩ := h₁.copyLoop hc hnext hrun
      exact ⟨h₂, hT₂.trans hT₁, fun _ _ _ => hv⟩

theorem toNat_and_not_three (x : Word) : (x &&& ~~~3#32).toNat = x.toNat / 4 * 4 := by
  have hbits : ∀ k < 32, (~~~3#32 : Word).getLsbD k = decide (2 ≤ k) := by decide
  have heq : x &&& ~~~3#32 = (x >>> 2) <<< 2 := by
    apply BitVec.eq_of_getLsbD_eq
    intro k hk
    rw [BitVec.getLsbD_and, hbits k hk, BitVec.getLsbD_shiftLeft]
    by_cases h2 : 2 ≤ k
    · simp [h2, hk, BitVec.getLsbD_ushiftRight, Nat.add_sub_cancel' h2, Nat.not_lt.2 h2]
    · simp [h2, Nat.lt_of_not_le h2]
  have := x.isLt
  rw [heq, BitVec.toNat_shiftLeft, BitVec.toNat_ushiftRight, Nat.shiftLeft_eq, Nat.shiftRight_eq_div_pow]
  omega

/-- A stack pointer goes down a little, perhaps below 0. -/
theorem hasTable_of_sub {sp w : Word} {n : ℕ} (hsp : sp ≤ USERTOP) (hn : n ≤ 0xA0100)
    (hw : w.toNat = (sp.toNat + (2 ^ 32 - n)) % 2 ^ 32 / 4 * 4) : HasTable (pageOf w) := by
  have hsp' : sp.toNat ≤ 160 * 4096 := hsp
  unfold HasTable
  rw [toNat_pageOf, hw]
  omega

theorem Image.pushArgs (hc : Complete use d) :
    ∀ {argv : List (List Byte)} {sp : Word} {ustack : List Word} {m : Mem} {r : Option (Word × List Word)},
    Image L lost d m₀ use₀ m use → sp ≤ USERTOP → (∀ a ∈ argv, a.length < 0xA0000) →
    pushArgs cur d argv sp ustack m = .ok (r, m') →
      Image L lost d m₀ use₀ m' use ∧ userTable m' use = userTable m use ∧
        ∀ sp' ustack', r = some (sp', ustack') → sp' ≤ USERTOP ∧
          ustack'.length = ustack.length + argv.length
  | [], sp, ustack, m, r, h, hsp, _, hrun => by
    obtain ⟨rfl, rfl⟩ := Prod.mk.inj (Except.ok.inj hrun)
    refine ⟨h, rfl, fun sp' ustack' hx => ?_⟩
    obtain ⟨rfl, rfl⟩ := Prod.mk.inj (Option.some.inj hx)
    exact ⟨hsp, rfl⟩
  | a :: argv, sp, ustack, m, r, h, hsp, hargs, hrun => by
    have hbad : ∀ {m'' : Mem}, Image L lost d m₀ use₀ m'' use → userTable m'' use = userTable m use →
        Except.ok (none, m'') = (.ok (r, m') : Except Halt (Option (Word × List Word) × Mem)) →
        Image L lost d m₀ use₀ m' use ∧ userTable m' use = userTable m use ∧
          ∀ sp' ustack', r = some (sp', ustack') → sp' ≤ USERTOP ∧
            ustack'.length = ustack.length + (a :: argv).length := by
      intro m'' h' hT' hx
      obtain ⟨rfl, rfl⟩ := Prod.mk.inj (Except.ok.inj hx)
      exact ⟨h', hT', fun _ _ hx => by cases hx⟩
    rw [Cow.pushArgs] at hrun
    by_cases hmax : MAXARG ≤ ustack.length
    · rw [if_pos hmax] at hrun
      exact hbad h rfl hrun
    rw [if_neg hmax] at hrun
    simp only at hrun
    have hlen := hargs a List.mem_cons_self
    have htable : HasTable (pageOf ((sp - BitVec.ofNat 32 (a.length + 1)) &&& ~~~3#32)) := by
      refine hasTable_of_sub hsp (n := a.length + 1) (by omega) ?_
      rw [toNat_and_not_three, BitVec.toNat_sub, BitVec.toNat_ofNat]
      congr 2
      omega
    generalize (sp - BitVec.ofNat 32 (a.length + 1)) &&& ~~~3#32 = sp₁ at *
    cases hcopy : copyout cur d sp₁ (a ++ [0#8]) m with
    | error e =>
      rw [hcopy] at hrun
      cases hrun
    | ok r₁ =>
      obtain ⟨ok, m₁⟩ := r₁
      rw [hcopy] at hrun
      simp only [Except.bind] at hrun
      obtain ⟨h₁, hT₁, huser⟩ := h.copyLoop hc htable hcopy
      by_cases hok : ok = true
      · rw [if_pos hok] at hrun
        have hsp₁ : sp₁ ≤ USERTOP := by
          have hv := huser hok (by simp) (by omega)
          unfold IsUser at hv
          rw [toNat_pageOf] at hv
          show sp₁.toNat ≤ 160 * 4096
          omega
        obtain ⟨h₂, hT₂, hlast⟩ := h₁.pushArgs hc hsp₁
          (fun b hb => hargs b (List.mem_cons_of_mem a hb)) hrun
        refine ⟨h₂, hT₂.trans hT₁, fun sp' ustack' hx => ⟨(hlast sp' ustack' hx).1, ?_⟩⟩
        rw [(hlast sp' ustack' hx).2]
        simp only [List.length_append, List.length_cons, List.length_nil]
        omega
      · rw [if_neg hok] at hrun
        exact hbad h₁ hT₁ hrun

/-! ## The new image -/

theorem Sized.pgRoundUp (h : Sized d sz m use) : Sized d (paddr (pgRoundUp sz)) m use := by
  have hle := pagesBelow_le h.le
  have hnat : (paddr (Cow.pgRoundUp sz)).toNat = pagesBelow sz * 4096 := by
    rw [toNat_paddr, toNat_pgRoundUp h.le]
  have hbelow : pagesBelow (paddr (Cow.pgRoundUp sz)) = pagesBelow sz := by
    rw [pagesBelow, hnat, PGSIZE]
    omega
  refine ⟨?_, ?_, ?_⟩
  · show (paddr (Cow.pgRoundUp sz)).toNat ≤ 160 * 4096
    omega
  · rw [hbelow]
    exact h.mapped
  · rw [hbelow]
    exact h.bound

theorem Image.loadImage {elf : List Byte} {argv : List (List Byte)} {r : Option Word}
    (h : Image L lost d m₀ use₀ m use) (hempty : ∀ v, userTable m use (d, v) = none)
    (hc : Complete use₀ d) (hargs : ArgsOk argv sz) (hsz : sz ≤ USERTOP)
    (hfit : SegmentsFit ip (wordAt elf 44 &&& 0xFFFF#32).toNat (wordAt elf 28) 0#32)
    (hrun : loadImage L cur d ip elf argv m = .ok (r, m')) :
    ∃ use', Image L lost d m₀ use₀ m' use' ∧ ∀ sz', r = some sz' → Sized d sz' m' use' := by
  have hbad : ∀ {m'' : Mem} {use''}, Image L lost d m₀ use₀ m'' use'' →
      Except.ok (none, m'') = (.ok (r, m') : Except Halt (Option Word × Mem)) →
      ∃ use', Image L lost d m₀ use₀ m' use' ∧ ∀ sz', r = some sz' → Sized d sz' m' use' := by
    intro m'' use'' h' hx
    obtain ⟨rfl, rfl⟩ := Prod.mk.inj (Except.ok.inj hx)
    exact ⟨use'', h', fun _ hx => by cases hx⟩
  obtain ⟨t, ht⟩ := (hc.keeps h.keeps).exists_table
  have hstart := Sized.zero hempty
  rw [Cow.loadImage, loadImageWith, ← Cow.allocuvm, ← Cow.loadSegments] at hrun
  cases hseg : Cow.loadSegments L cur d ip (wordAt elf 44 &&& 0xFFFF#32).toNat (wordAt elf 28) 0#32 m with
  | error e =>
    rw [hseg] at hrun
    cases hrun
  | ok r₁ =>
    obtain ⟨sz₁, m₁⟩ := r₁
    obtain ⟨use₁, h₁, ht₁, hsized₁⟩ := h.loadSegments hstart ht hfit hseg
    rw [hseg] at hrun
    cases sz₁ with
    | none => exact hbad h₁ hrun
    | some sz₁ =>
      simp only [Except.bind] at hrun
      cases halloc : Cow.allocuvm L d (paddr (Cow.pgRoundUp sz₁)) (paddr (Cow.pgRoundUp sz₁) + 4096#32)
          m₁ with
      | error e =>
        rw [halloc] at hrun
        cases hrun
      | ok r₂ =>
        obtain ⟨sz₂, m₂⟩ := r₂
        obtain ⟨use₂, h₂, ht₂, hsized₂⟩ := h₁.allocuvm (hsized₁ sz₁ rfl).pgRoundUp ht₁ halloc
        rw [halloc] at hrun
        simp only at hrun
        by_cases hzero : sz₂ = 0#32
        · rw [if_pos hzero] at hrun
          exact hbad h₂ hrun
        rw [if_neg hzero] at hrun
        obtain ⟨hsz₂, -⟩ := hsized₂ hzero
        have hc₂ := hc.keeps h₂.keeps
        have hlen : ∀ a ∈ argv, a.length < 0xA0000 := by
          intro a ha
          have := hargs.2 a ha
          have hsz' : sz.toNat ≤ 160 * 4096 := hsz
          omega
        cases hpush : Cow.pushArgs cur d argv sz₂ [] m₂ with
        | error e =>
          rw [hpush] at hrun
          cases hrun
        | ok r₃ =>
          obtain ⟨stack, m₃⟩ := r₃
          obtain ⟨h₃, hT₃, hlast⟩ := h₂.pushArgs hc₂ hsz₂.le hlen hpush
          rw [hpush] at hrun
          cases stack with
          | none => exact hbad h₃ hrun
          | some stack =>
            obtain ⟨sp, args⟩ := stack
            obtain ⟨hsp, hargc⟩ := hlast sp args rfl
            simp only at hrun
            have htable : HasTable (pageOf (sp - (BitVec.ofNat 32 args.length + 4#32) * 4#32)) := by
              have := hargs.1
              unfold MAXARG at this
              have hsp' : sp.toNat ≤ 160 * 4096 := hsp
              unfold HasTable
              rw [toNat_pageOf, BitVec.toNat_sub, BitVec.toNat_mul, BitVec.toNat_add]
              simp only [BitVec.toNat_ofNat, List.length_nil] at hargc ⊢
              omega
            generalize sp - (BitVec.ofNat 32 args.length + 4#32) * 4#32 = sp' at *
            generalize ([0xFFFFFFFF#32, BitVec.ofNat 32 args.length,
              sp - (BitVec.ofNat 32 args.length + 1#32) * 4#32] ++ args ++ [0#32]).flatMap wordBytes = bs
              at *
            cases hcopy : copyout cur d sp' bs m₃ with
            | error e =>
              rw [hcopy] at hrun
              cases hrun
            | ok r₄ =>
              obtain ⟨ok, m₄⟩ := r₄
              obtain ⟨h₄, hT₄, -⟩ := h₃.copyLoop hc₂ htable hcopy
              rw [hcopy] at hrun
              obtain ⟨rfl, rfl⟩ := Prod.mk.inj (Except.ok.inj hrun)
              refine ⟨use₂, h₄, fun sz' hx => ?_⟩
              split_ifs at hx
              obtain rfl := Option.some.inj hx
              exact hsz₂.congr (hT₄.trans hT₃)

/-! ## Errors -/

/-- The ways in which `exec` can stop the kernel. -/
def LoadHalt (e : Halt) : Prop :=
  e = .hang ∨ e = .panic "loaduvm: address should exist" ∨ e = .panic "loaduvm: addr must be page aligned"

theorem loadLoop_error : ∀ {k : ℕ} {a : Page} {off sz : Word} {m : Mem} {e : Halt},
    loadLoop cur d ip k a off sz m = .error e → LoadHalt e
  | 0, a, off, sz, m, e, h => by cases h
  | k + 1, a, off, sz, m, e, h => by
    rw [loadLoop] at h
    generalize (if sz < 4096#32 then sz else 4096#32) = len at h
    split at h
    · exact Or.inr (Or.inl (Except.error.inj h).symm)
    · simp only at h
      split at h
      · cases h
      · cases h
      · split at h
        · exact Or.inl (Except.error.inj h).symm
        · split_ifs at h
          exact loadLoop_error h

theorem loaduvm_error {addr off : Word} {e : Halt} (h : loaduvm cur d addr ip off sz m = .error e) :
    LoadHalt e := by
  unfold loaduvm at h
  split_ifs at h
  · exact Or.inr (Or.inr (Except.error.inj h).symm)
  · exact loadLoop_error h

theorem uva2ka_error {e : Halt} (h : uva2ka m cur d v = .error e) : LoadHalt e := by
  unfold uva2ka loadPte at h
  split at h
  · cases h
  · split at h
    · cases h
    · exact Or.inl (Except.error.inj h).symm

theorem copyLoop_error : ∀ {k : ℕ} {va : Word} {bs : List Byte} {m : Mem} {e : Halt},
    copyLoop cur d k va bs m = .error e → LoadHalt e
  | 0, va, bs, m, e, h => by cases h
  | k + 1, va, bs, m, e, h => by
    rw [copyLoop] at h
    split_ifs at h
    cases hpa : uva2ka m cur d (pageOf va) with
    | error x =>
      rw [hpa] at h
      rw [← Except.error.inj h]
      exact uva2ka_error hpa
    | ok pa =>
      rw [hpa] at h
      cases pa with
      | none => cases h
      | some pa =>
        simp only [Except.bind] at h
        split at h
        · exact Or.inl (Except.error.inj h).symm
        · exact copyLoop_error h

theorem pushArgs_error : ∀ {argv : List (List Byte)} {sp : Word} {ustack : List Word} {m : Mem} {e : Halt},
    pushArgs cur d argv sp ustack m = .error e → LoadHalt e
  | [], sp, ustack, m, e, h => by cases h
  | a :: argv, sp, ustack, m, e, h => by
    rw [pushArgs] at h
    split_ifs at h
    simp only at h
    cases hcopy : copyout cur d ((sp - BitVec.ofNat 32 (a.length + 1)) &&& ~~~3#32) (a ++ [0#8]) m with
    | error x =>
      rw [hcopy] at h
      rw [← Except.error.inj h]
      exact copyLoop_error hcopy
    | ok r =>
      rw [hcopy] at h
      simp only [Except.bind] at h
      split_ifs at h
      exact pushArgs_error h

/-- `allocuvm` of the image does not panic: there is nothing above its size. -/
theorem Image.exists_allocuvm (h : Image L lost d m₀ use₀ m use) (hsz : Sized d sz m use)
    (ht : use t = .table d 0#10) (newsz : Word) : ∃ r, Cow.allocuvm L d sz newsz m = .ok r := by
  by_cases hup : USERTOP < newsz
  · exact ⟨_, by rw [Cow.allocuvm, allocuvmWith, if_pos hup]⟩
  by_cases hlt : newsz < sz
  · exact ⟨_, by rw [Cow.allocuvm, allocuvmWith, if_neg hup, if_pos hlt]⟩
  obtain ⟨sz', m', use', hrun, -⟩ := h.owned.allocuvm_cases ht (BitVec.not_lt.1 hlt) (BitVec.not_lt.1 hup)
    fun k hk => by
      obtain ⟨e, v⟩ := k
      obtain rfl := hk.1
      exact hsz.bound v hk.2.1
  exact ⟨_, hrun⟩

theorem Image.loadSegments_error : ∀ {k : ℕ} {off sz : Word} {m : Mem} {use : Page → Use} {e : Halt},
    Image L lost d m₀ use₀ m use → Sized d sz m use → use t = .table d 0#10 → SegmentsFit ip k off sz →
    Cow.loadSegments L cur d ip k off sz m = .error e → LoadHalt e
  | 0, off, sz, m, use, e, _, _, _, _, hrun => by cases hrun
  | k + 1, off, sz, m, use, e, h, hsz, ht, hfit, hrun => by
    rw [Cow.loadSegments, loadSegmentsWith, ← Cow.allocuvm, ← Cow.loadSegments] at hrun
    rw [SegmentsFit] at hfit
    cases hread : ip.readi off 32#32 with
    | none =>
      rw [hread] at hrun
      cases hrun
    | some bs =>
      rw [hread] at hrun hfit
      simp only at hrun hfit
      by_cases hlen : bs.length ≠ 32
      · rw [if_pos hlen] at hrun
        cases hrun
      rw [if_neg hlen] at hrun hfit
      by_cases htype : (Proghdr.ofBytes bs).type ≠ ELF_PROG_LOAD
      · rw [if_pos htype] at hrun hfit
        exact h.loadSegments_error hsz ht hfit hrun
      rw [if_neg htype] at hrun hfit
      by_cases hmem : (Proghdr.ofBytes bs).memsz < (Proghdr.ofBytes bs).filesz
      · rw [if_pos hmem] at hrun
        cases hrun
      rw [if_neg hmem] at hrun
      generalize Proghdr.ofBytes bs = ph at *
      obtain ⟨⟨sz₁, m₁⟩, halloc⟩ := h.exists_allocuvm hsz ht (ph.va + ph.memsz)
      obtain ⟨use₁, h₁, ht₁, hsized⟩ := h.allocuvm hsz ht halloc
      rw [halloc] at hrun
      simp only [Except.bind] at hrun
      by_cases hzero : sz₁ = 0#32
      · rw [if_pos hzero] at hrun
        cases hrun
      obtain rfl := allocuvm_size halloc hzero
      rw [if_neg hzero] at hrun
      rw [if_neg (not_or.2 ⟨hmem, hzero⟩)] at hfit
      obtain ⟨hsz₁, hle⟩ := hsized hzero
      cases hload : Cow.loaduvm cur d ph.va ip ph.offset ph.filesz m₁ with
      | error x =>
        rw [hload] at hrun
        rw [← Except.error.inj hrun]
        exact loaduvm_error hload
      | ok r =>
        obtain ⟨ok, m₂⟩ := r
        rw [hload] at hrun
        simp only at hrun
        split_ifs at hrun with hok
        obtain ⟨h₂, hT₂⟩ := h₁.loaduvm ht₁ hsz₁ hfit.1 (BitVec.not_lt.1 hmem) hle hload
        rw [hok] at hload
        exact h₂.loadSegments_error (hsz₁.congr hT₂) ht₁ (hfit.2 (covers_of_loaduvm hload)) hrun

theorem Image.loadImage_error {elf : List Byte} {argv : List (List Byte)} {e : Halt}
    (h : Image L lost d m₀ use₀ m use) (hempty : ∀ v, userTable m use (d, v) = none)
    (hc : Complete use₀ d) (hfit : SegmentsFit ip (wordAt elf 44 &&& 0xFFFF#32).toNat (wordAt elf 28) 0#32)
    (hrun : Cow.loadImage L cur d ip elf argv m = .error e) : LoadHalt e := by
  obtain ⟨t, ht⟩ := (hc.keeps h.keeps).exists_table
  have hstart := Sized.zero hempty
  rw [Cow.loadImage, loadImageWith, ← Cow.allocuvm, ← Cow.loadSegments] at hrun
  cases hseg : Cow.loadSegments L cur d ip (wordAt elf 44 &&& 0xFFFF#32).toNat (wordAt elf 28) 0#32 m with
  | error x =>
    rw [hseg] at hrun
    rw [← Except.error.inj hrun]
    exact h.loadSegments_error hstart ht hfit hseg
  | ok r₁ =>
    obtain ⟨sz₁, m₁⟩ := r₁
    obtain ⟨use₁, h₁, ht₁, hsized₁⟩ := h.loadSegments hstart ht hfit hseg
    rw [hseg] at hrun
    cases sz₁ with
    | none => cases hrun
    | some sz₁ =>
      simp only [Except.bind] at hrun
      obtain ⟨⟨sz₂, m₂⟩, halloc⟩ := h₁.exists_allocuvm (hsized₁ sz₁ rfl).pgRoundUp ht₁
        (paddr (pgRoundUp sz₁) + 4096#32)
      rw [halloc] at hrun
      simp only at hrun
      split_ifs at hrun
      cases hpush : Cow.pushArgs cur d argv sz₂ [] m₂ with
      | error x =>
        rw [hpush] at hrun
        rw [← Except.error.inj hrun]
        exact pushArgs_error hpush
      | ok r₃ =>
        obtain ⟨stack, m₃⟩ := r₃
        rw [hpush] at hrun
        cases stack with
        | none => cases hrun
        | some stack =>
          obtain ⟨sp, args⟩ := stack
          simp only at hrun
          generalize hcopy : copyout cur d _ _ m₃ = r at hrun
          cases r with
          | error x =>
            rw [← Except.error.inj hrun]
            exact copyLoop_error hcopy
          | ok r => cases hrun

end SystemsProjects.Cow
