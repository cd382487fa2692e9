import SystemsProjects.Cow.Files

/-!
# Isolation and the stores of the kernel

A store of user code to a shared frame faults and gets a frame of its own.  A store of the kernel into the
buffer of a system call does not: it changes the shared frame, and with it what the other processes
load.  So a call leaves the memory of the other processes alone if and only if every byte it stores goes
to a frame that no other process sees, or is there already (`isolated_iff`).
-/

namespace SystemsProjects.Cow

open Sharing

variable {L : Layout} {lost : Word} {leak : Set Page} {eager : Bool} {s s' : Sys} {m m' : Mem}
  {use use' : Page → Use} {cur d f g t v : Page} {p i : Slot} {ws : List (Word × Byte)}

/-! ## The property -/

/-- The byte that user code loads. -/
def byteAt (m : Mem) (d : Page) (va : Word) : Option Byte :=
  (access m d va false).map fun f => getByte (m.page f) (offsetOf va)

/-- A process that is about to make a system call. -/
def CanCall (s : Sys) (p : Slot) : Prop := (s.procs p).state = .runnable ∧ (s.procs p).killed = false

/-- The call changes no byte that another process can load. -/
def Isolated (L : Layout) (s : Sys) (c : Call) : Prop :=
  ∀ m returns, c.run L s = .ok (m, returns) → ∀ i va, i ≠ c.proc → (s.procs i).state = .runnable →
    byteAt m (s.procs i).pgdir va = byteAt s.mem (s.procs i).pgdir va

/-- The stores up to the first page that is not there. -/
def reached (m : Mem) (cur : Page) (ws : List (Word × Byte)) : List (Word × Byte) :=
  ws.takeWhile fun w => (kernelFrame m cur (pageOf w.1)).isSome

/-- Another process can load from the frame. -/
def SeenByOther (s : Sys) (p : Slot) (f : Page) : Prop :=
  ∃ i v, i ≠ p ∧ (s.procs i).state = .runnable ∧ userFrame s i v = some f

/-- Every byte that the call stores goes to a frame that no other process sees, or is there already. -/
def StoresPrivately (s : Sys) (c : Call) : Prop :=
  ∀ w ∈ reached s.mem (s.procs c.proc).pgdir (c.stores s), ∀ f,
    kernelFrame s.mem (s.procs c.proc).pgdir (pageOf w.1) = some f → SeenByOther s c.proc f →
      getByte (s.mem.page f) (offsetOf w.1) = w.2

/-! ## Stores -/

theorem address_eq {a a' : Word} (hp : pageOf a = pageOf a') (ho : offsetOf a = offsetOf a') : a = a' := by
  have := congrArg BitVec.toNat hp
  have := congrArg BitVec.toNat ho
  simp only [pageOf, offsetOf, BitVec.extractLsb'_toNat, Nat.shiftRight_eq_div_pow] at *
  apply BitVec.eq_of_toNat_eq
  have := a.isLt
  have := a'.isLt
  omega

theorem exists_address (v : Page) (o : BitVec 12) : ∃ va : Word, pageOf va = v ∧ offsetOf va = o := by
  refine ⟨v ++ o, ?_, ?_⟩
  · unfold pageOf
    apply BitVec.eq_of_getLsbD_eq
    intro j hj
    rw [BitVec.getLsbD_extractLsb', BitVec.getLsbD_append, if_neg (by omega), Nat.add_sub_cancel_left]
    simp [hj]
  · unfold offsetOf
    apply BitVec.eq_of_getLsbD_eq
    intro j hj
    rw [BitVec.getLsbD_extractLsb', BitVec.getLsbD_append]
    simp [hj]

/-- A page below the kernel is a user frame, or is reached at its own address and is not the
allocator's. -/
theorem Owned.kernelFrame_low (h : Owned L lost m use) (ht : use t = .table cur 0#10)
    (hv : v.toNat < 256) (hf : kernelFrame m cur v = some f) :
    use f = .user ∧ frame (userTable m use) (cur, v) = some f ∨ use f = .reserved ∧ f = v := by
  by_cases huser : IsUser v
  · rw [h.kernelFrame_eq (by rw [huser.pdx_eq, ht]) huser] at hf
    obtain ⟨b, hb⟩ := frame_eq_some_iff.1 hf
    exact Or.inl ⟨(h.counts.entry _ _ _ _ hb).2.2, hf⟩
  · unfold kernelFrame at hf
    rw [if_neg huser, if_pos (Or.inl (by omega))] at hf
    obtain rfl := Option.some.inj hf
    refine Or.inr ⟨?_, rfl⟩
    by_contra hx
    have := (h.frames.range v hx).1
    have := L.text_lt
    have := L.data_le
    omega

/-- Different pages are at different frames. -/
theorem Owned.kernelFrame_inj (h : Owned L lost m use) (ht : use t = .table cur 0#10) {v' : Page}
    (hv : v.toNat < 256) (hv' : v'.toNat < 256) (hf : kernelFrame m cur v = some f)
    (hf' : kernelFrame m cur v' = some f) : v = v' := by
  obtain ⟨hu, hx⟩ | ⟨hu, hx⟩ := h.kernelFrame_low ht hv hf
  · obtain ⟨-, hx'⟩ | ⟨hu', -⟩ := h.kernelFrame_low ht hv' hf'
    · exact h.page_inj hx hx'
    · rw [hu] at hu'
      cases hu'
  · obtain ⟨hu', -⟩ | ⟨-, hx'⟩ := h.kernelFrame_low ht hv' hf'
    · rw [hu] at hu'
      cases hu'
    · rw [← hx, hx']

/-- One store of the kernel. -/
theorem Owned.storeByte (h : Owned L lost m use) (ht : use t = .table cur 0#10) (hv : v.toNat < 256)
    (hf : kernelFrame m cur v = some f) (x : PageData) :
    Owned L lost (m.setPage f x) use ∧ userTable (m.setPage f x) use = userTable m use ∧
      kernelFrame (m.setPage f x) cur = kernelFrame m cur := by
  obtain ⟨h₁, hT⟩ : Owned L lost (m.setPage f x) use ∧ userTable (m.setPage f x) use = userTable m use := by
    obtain ⟨hu, -⟩ | ⟨hu, -⟩ := h.kernelFrame_low ht hv hf
    · exact h.setPage (Or.inr hu) x
    · exact h.setPage_of_ne (by simp [hu]) (by simp [hu]) (by simp [hu]) x
  refine ⟨h₁, hT, funext fun u => ?_⟩
  by_cases huser : IsUser u
  · have htu : use t = .table cur (pdx u) := by rw [huser.pdx_eq, ht]
    rw [h₁.kernelFrame_eq htu huser, h.kernelFrame_eq htu huser, hT]
  · simp only [kernelFrame, if_neg huser]

theorem storeBytes_cons_none {va : Word} {b : Byte} (hf : kernelFrame m cur (pageOf va) = none) :
    storeBytes cur ((va, b) :: ws) m = (m, false) ∧ reached m cur ((va, b) :: ws) = [] := by
  unfold reached
  rw [storeBytes, hf]
  exact ⟨rfl, List.takeWhile_cons_of_neg (by simp [hf])⟩

theorem storeBytes_cons_some {va : Word} (ws : List (Word × Byte)) (b : Byte)
    (hf : kernelFrame m cur (pageOf va) = some f) :
    storeBytes cur ((va, b) :: ws) m =
      storeBytes cur ws (m.setPage f (setByte (m.page f) (offsetOf va) b)) ∧
    reached m cur ((va, b) :: ws) = (va, b) :: reached m cur ws := by
  unfold reached
  rw [storeBytes, hf]
  exact ⟨rfl, List.takeWhile_cons_of_pos (by simp [hf])⟩

theorem reached_congr (h : kernelFrame m' cur = kernelFrame m cur) : reached m' cur ws = reached m cur ws := by
  unfold reached
  rw [h]

theorem Owned.storeBytes (ht : use t = .table cur 0#10) : ∀ {ws : List (Word × Byte)} {m : Mem},
    Owned L lost m use → (∀ w ∈ ws, (pageOf w.1).toNat < 256) →
    Owned L lost (storeBytes cur ws m).1 use ∧ userTable (Cow.storeBytes cur ws m).1 use = userTable m use
  | [], m, h, _ => ⟨h, rfl⟩
  | (va, b) :: ws, m, h, hlow => by
    cases hf : kernelFrame m cur (pageOf va) with
    | none =>
      rw [(storeBytes_cons_none hf).1]
      exact ⟨h, rfl⟩
    | some f =>
      obtain ⟨h₁, hT₁, -⟩ := h.storeByte ht (hlow _ List.mem_cons_self) hf
        (setByte (m.page f) (offsetOf va) b)
      obtain ⟨h₂, hT₂⟩ := Owned.storeBytes ht h₁ fun (w : Word × Byte) (hw : w ∈ ws) =>
        hlow w (List.mem_cons_of_mem _ hw)
      rw [(storeBytes_cons_some ws b hf).1]
      exact ⟨h₂, hT₂.trans hT₁⟩

/-- The pages of frames in which every store finds its byte stay. -/
theorem Owned.storeBytes_same (ht : use t = .table cur 0#10) (V : Set Page) :
    ∀ {ws : List (Word × Byte)} {m : Mem}, Owned L lost m use → (∀ w ∈ ws, (pageOf w.1).toNat < 256) →
    (∀ w ∈ reached m cur ws, ∀ f ∈ V, kernelFrame m cur (pageOf w.1) = some f →
      getByte (m.page f) (offsetOf w.1) = w.2) →
    ∀ g ∈ V, (Cow.storeBytes cur ws m).1.page g = m.page g
  | [], m, _, _, _, g, _ => rfl
  | (va, b) :: ws, m, h, hlow, hsame, g, hg => by
    cases hf : kernelFrame m cur (pageOf va) with
    | none => rw [(storeBytes_cons_none hf).1]
    | some f =>
      obtain ⟨hrun, hreached⟩ := storeBytes_cons_some ws b hf
      obtain ⟨h₁, -, hk₁⟩ := h.storeByte ht (hlow _ List.mem_cons_self) hf
        (setByte (m.page f) (offsetOf va) b)
      have hpage : ∀ g ∈ V, (m.setPage f (setByte (m.page f) (offsetOf va) b)).page g = m.page g := by
        intro g hg
        by_cases hgf : g = f
        · subst hgf
          have hb : getByte (m.page g) (offsetOf va) = b :=
            hsame (va, b) (by rw [hreached]; exact List.mem_cons_self) g hg hf
          rw [Mem.setPage_page_self, ← hb, setByte_getByte]
        · exact Mem.setPage_page_of_ne _ _ hgf
      rw [hrun, Owned.storeBytes_same ht V h₁ (fun (w : Word × Byte) (hw : w ∈ ws) =>
        hlow w (List.mem_cons_of_mem _ hw)) ?_ g hg,
        hpage g hg]
      intro w hw f' hf' hk
      rw [hk₁] at hk
      rw [reached_congr hk₁] at hw
      rw [hpage f' hf']
      exact hsame w (by rw [hreached]; exact List.mem_cons_of_mem _ hw) f' hf' hk

/-- A byte that is not stored to stays. -/
theorem Owned.getByte_storeBytes_of_ne (ht : use t = .table cur 0#10) {o : BitVec 12} :
    ∀ {ws : List (Word × Byte)} {m : Mem}, Owned L lost m use → (∀ w ∈ ws, (pageOf w.1).toNat < 256) →
    (∀ w ∈ ws, kernelFrame m cur (pageOf w.1) = some f → offsetOf w.1 ≠ o) →
    getByte ((Cow.storeBytes cur ws m).1.page f) o = getByte (m.page f) o
  | [], m, _, _, _ => rfl
  | (va, b) :: ws, m, h, hlow, hne => by
    cases hf : kernelFrame m cur (pageOf va) with
    | none => rw [(storeBytes_cons_none hf).1]
    | some f' =>
      obtain ⟨h₁, -, hk₁⟩ := h.storeByte ht (hlow _ List.mem_cons_self) hf
        (setByte (m.page f') (offsetOf va) b)
      rw [(storeBytes_cons_some ws b hf).1, Owned.getByte_storeBytes_of_ne ht h₁
        (fun (w : Word × Byte) (hw : w ∈ ws) => hlow w (List.mem_cons_of_mem _ hw)) fun w hw hk => hne w (List.mem_cons_of_mem _ hw)
          (by rwa [hk₁] at hk)]
      by_cases hff : f = f'
      · subst hff
        rw [Mem.setPage_page_self, getByte_setByte, if_neg (hne _ List.mem_cons_self hf).symm]
      · rw [Mem.setPage_page_of_ne _ _ hff]

/-- A byte that is stored is there at the end. -/
theorem Owned.getByte_storeBytes (ht : use t = .table cur 0#10) {w : Word × Byte} :
    ∀ {ws : List (Word × Byte)} {m : Mem}, Owned L lost m use → (∀ w ∈ ws, (pageOf w.1).toNat < 256) →
    (ws.map Prod.fst).Nodup → w ∈ reached m cur ws → kernelFrame m cur (pageOf w.1) = some f →
    getByte ((Cow.storeBytes cur ws m).1.page f) (offsetOf w.1) = w.2
  | [], m, _, _, _, hw, _ => by cases hw
  | (va, b) :: ws, m, h, hlow, hnodup, hw, hwf => by
    have hlow' : ∀ w ∈ ws, (pageOf w.1).toNat < 256 := fun w hw => hlow w (List.mem_cons_of_mem _ hw)
    rw [List.map_cons, List.nodup_cons] at hnodup
    cases hf : kernelFrame m cur (pageOf va) with
    | none =>
      rw [(storeBytes_cons_none hf).2] at hw
      cases hw
    | some f' =>
      obtain ⟨hrun, hreached⟩ := storeBytes_cons_some ws b hf
      obtain ⟨h₁, -, hk₁⟩ := h.storeByte ht (hlow _ List.mem_cons_self) hf
        (setByte (m.page f') (offsetOf va) b)
      rw [hreached, List.mem_cons] at hw
      rw [hrun]
      cases hw with
      | inl hw =>
        subst hw
        obtain rfl := Option.some.inj (hf.symm.trans hwf)
        rw [Owned.getByte_storeBytes_of_ne ht h₁ hlow' fun w' hw' hk ho => ?_, Mem.setPage_page_self,
          getByte_setByte, if_pos rfl]
        -- another store to the same byte would be to the same address
        rw [hk₁] at hk
        have hpage := h.kernelFrame_inj ht (hlow' w' hw') (hlow _ List.mem_cons_self) hk hf
        exact hnodup.1 (List.mem_map.2 ⟨w', hw', address_eq hpage ho⟩)
      | inr hw =>
        exact Owned.getByte_storeBytes ht h₁ hlow' hnodup.2 (by rwa [reached_congr hk₁])
          (by rwa [hk₁])

/-- Stores that nobody else sees, for the page directories in `D`. -/
theorem Owned.sameBytes_iff (h : Owned L lost m use) (ht : use t = .table cur 0#10)
    (hlow : ∀ w ∈ ws, (pageOf w.1).toNat < 256) (hnodup : (ws.map Prod.fst).Nodup) (D : Set Page)
    (hD : ∀ d ∈ D, use d = .dir) :
    (∀ d ∈ D, ∀ va, byteAt (Cow.storeBytes cur ws m).1 d va = byteAt m d va) ↔
      ∀ w ∈ reached m cur ws, ∀ f, kernelFrame m cur (pageOf w.1) = some f →
        (∃ d ∈ D, ∃ v, access m d (paddr v) false = some f) → getByte (m.page f) (offsetOf w.1) = w.2 := by
  obtain ⟨h', hT⟩ := h.storeBytes ht hlow
  have haccess : ∀ d ∈ D, ∀ va, access (Cow.storeBytes cur ws m).1 d va false = access m d va false := by
    intro d hd va
    rw [h'.access_eq (hD d hd), h.access_eq (hD d hd), hT]
  constructor
  · rintro hsame w hw f hf ⟨d, hd, v, hv⟩
    obtain ⟨va, rfl, hoff⟩ := exists_address v (offsetOf w.1)
    have hva : access m d va false = some f := by
      rw [← hv, h.access_eq (hD d hd), h.access_eq (hD d hd), pageOf_paddr]
    have hbyte := hsame d hd va
    unfold byteAt at hbyte
    rw [haccess d hd, hva, Option.map_some, Option.map_some, Option.some.injEq, hoff,
      h.getByte_storeBytes ht hlow hnodup hw hf] at hbyte
    exact hbyte.symm
  · intro hsame d hd va
    unfold byteAt
    rw [haccess d hd]
    cases hva : access m d va false with
    | none => rfl
    | some g =>
      rw [Option.map_some, Option.map_some, h.storeBytes_same ht {f | ∃ d ∈ D, ∃ v,
        access m d (paddr v) false = some f} hlow (fun w hw f hf hk => hsame w hw f hk hf) g
          ⟨d, hd, pageOf va, ?_⟩]
      rw [← hva, h.access_eq (hD d hd), h.access_eq (hD d hd), pageOf_paddr]

/-! ## The buffers of the calls -/

theorem bytesFrom_fst (o : ℕ) (bs : List Byte) : (bytesFrom o bs).map Prod.fst = List.range' o bs.length := by
  unfold bytesFrom
  rw [List.map_map]
  exact List.zipIdx_map_snd o bs

/-- Bytes of a buffer below the first megabyte. -/
structure LowBuffer (addr : Word) (l : List (ℕ × Byte)) : Prop where
  low : ∀ o ∈ l.map Prod.fst, addr.toNat + o < 2 ^ 20
  nodup : (l.map Prod.fst).Nodup

/-- The stores are to different bytes of low pages. -/
structure LowStores (ws : List (Word × Byte)) : Prop where
  low : ∀ w ∈ ws, (pageOf w.1).toNat < 256
  nodup : (ws.map Prod.fst).Nodup

theorem LowStores.nil : LowStores [] := ⟨by simp, List.nodup_nil⟩

theorem LowBuffer.stores {addr : Word} {l : List (ℕ × Byte)} (h : LowBuffer addr l) :
    LowStores (storesAt addr l) := by
  have hnat : ∀ o ∈ l.map Prod.fst, (addr + BitVec.ofNat 32 o).toNat = addr.toNat + o := by
    intro o ho
    have := h.low o ho
    rw [BitVec.toNat_add, BitVec.toNat_ofNat]
    omega
  constructor
  · intro w hw
    obtain ⟨x, hx, rfl⟩ := List.mem_map.1 hw
    have hmem : x.1 ∈ l.map Prod.fst := List.mem_map_of_mem hx
    have := h.low _ hmem
    rw [toNat_pageOf, hnat _ hmem]
    omega
  · have hmap : (storesAt addr l).map Prod.fst = (l.map Prod.fst).map fun o => addr + BitVec.ofNat 32 o := by
      unfold storesAt
      rw [List.map_map, List.map_map]
      rfl
    rw [hmap]
    refine h.nodup.map_on fun o ho o' ho' hx => ?_
    have := congrArg BitVec.toNat hx
    rw [hnat o ho, hnat o' ho'] at this
    omega

theorem length_pipeLoop (pi : Pipe) : ∀ (n : ℕ) (nread : Word), (pipeLoop pi n nread).length ≤ n
  | 0, _ => le_rfl
  | n + 1, nread => by
    rw [pipeLoop]
    split_ifs
    · exact Nat.zero_le _
    · exact Nat.succ_le_succ (length_pipeLoop pi n _)

theorem length_consoleread : ∀ (input : List Byte) (n : ℕ), (consoleread input n).length ≤ n
  | _, 0 => by simp [consoleread]
  | [], n + 1 => by simp [consoleread]
  | c :: input, n + 1 => by
    rw [consoleread]
    split_ifs
    · exact Nat.zero_le _
    · exact Nat.succ_le_succ (Nat.zero_le _)
    · exact Nat.succ_le_succ (length_consoleread input n)

theorem length_readi {ip : Inode} {off n : Word} {bs : List Byte} (h : ip.readi off n = some bs) :
    bs.length ≤ ip.size.toNat := by
  unfold Inode.readi at h
  split_ifs at h with hoff hend
  · rw [not_or, BitVec.not_lt, BitVec.not_lt] at hoff
    rw [← Option.some.inj h]
    rw [length_bytes]
    have hle : off.toNat ≤ ip.size.toNat := hoff.1
    rw [BitVec.toNat_sub]
    have := off.isLt
    have := ip.size.isLt
    omega
  · rw [not_or, BitVec.not_lt, BitVec.not_lt] at hoff
    rw [← Option.some.inj h]
    rw [length_bytes]
    have hle : off.toNat ≤ (off + n).toNat := hoff.2
    have hend' : (off + n).toNat ≤ ip.size.toNat := BitVec.not_lt.1 hend
    rw [BitVec.toNat_add] at hle hend'
    have := off.isLt
    have := n.isLt
    omega

/-- A `read` stores at most as many bytes as it is asked for, or as a file has. -/
theorem length_fileread (f : File) (n : Word) :
    ((fileread f n).getD []).length ≤ n.toInt.toNat ∨
      ((fileread f n).getD []).length ≤ MAXFILE * BSIZE := by
  unfold fileread
  split_ifs
  · exact Or.inl (Nat.zero_le _)
  · cases f.kind with
    | pipe pi =>
      simp only [piperead]
      split_ifs
      · exact Or.inl (Nat.zero_le _)
      · exact Or.inl (length_pipeLoop pi _ _)
    | inode ip off input =>
      simp only [Option.getD_some, OpenInode.readi]
      split_ifs
      · exact Or.inl (length_consoleread input _)
      · exact Or.inl (Nat.zero_le _)
      · right
        cases hread : ip.file.readi off n with
        | none => exact Nat.zero_le _
        | some bs => exact (length_readi hread).trans ip.size_le

theorem argptr_lt {addr size : Word} (h : argptr s p addr size) (hsz : (s.procs p).sz ≤ USERTOP) :
    addr.toNat < 160 * 4096 ∧ (addr + size).toNat ≤ 160 * 4096 := by
  unfold argptr at h
  rw [not_or, BitVec.not_le, BitVec.not_lt] at h
  have hlt : addr.toNat < (s.procs p).sz.toNat := h.1
  have hle : (addr + size).toNat ≤ (s.procs p).sz.toNat := h.2
  have hsz' : (s.procs p).sz.toNat ≤ 160 * 4096 := hsz
  omega

theorem lowBuffer_bytesFrom {addr : Word} {bs : List Byte} (h : addr.toNat + bs.length ≤ 2 ^ 20) :
    LowBuffer addr (bytesFrom 0 bs) := by
  constructor
  · intro o ho
    rw [bytesFrom_fst, List.mem_range'_1] at ho
    omega
  · rw [bytesFrom_fst]
    exact List.nodup_range'

/-- The buffers of the calls are low: a file is too short to reach the memory of the allocator, even if
the length is negative. -/
theorem Call.lowStores (c : Call) (hsz : (s.procs c.proc).sz ≤ USERTOP) : LowStores (c.stores s) := by
  cases c with
  | read p f addr n =>
    simp only [Call.stores]
    split_ifs with hptr
    · obtain ⟨haddr, hend⟩ := argptr_lt hptr hsz
      refine (lowBuffer_bytesFrom ?_).stores
      cases length_fileread f n with
      | inl hlen =>
        by_cases hneg : n.toInt < 0
        · rw [Int.toNat_of_nonpos hneg.le] at hlen
          omega
        · have hn : n.toInt.toNat = n.toNat ∧ n.toNat < 2 ^ 31 := by
            have := n.isLt
            rw [BitVec.toInt_eq_toNat_cond] at hneg ⊢
            split_ifs at hneg ⊢ <;> omega
          rw [BitVec.toNat_add] at hend
          omega
      | inr hlen =>
        unfold MAXFILE BSIZE at hlen
        omega
    · exact LowStores.nil
  | fstat p f addr =>
    simp only [Call.stores]
    split_ifs with hptr
    · obtain ⟨haddr, -⟩ := argptr_lt hptr hsz
      refine LowBuffer.stores ?_
      unfold filestat
      cases f.kind with
      | pipe pi => exact ⟨by simp, List.nodup_nil⟩
      | inode ip off input =>
        have hfst : (stati ip).map Prod.fst = [4, 5, 6, 7, 8, 9, 10, 11, 0, 1, 12, 13, 16, 17, 18, 19] := rfl
        constructor
        · intro o ho
          simp only [hfst, List.mem_cons, List.not_mem_nil, or_false] at ho
          omega
        · simp only [hfst]
          decide
    · exact LowStores.nil
  | pipe p addr files =>
    cases files with
    | noFile => exact LowStores.nil
    | noFd => exact LowStores.nil
    | fds fd0 fd1 =>
      simp only [Call.stores]
      split_ifs with hptr
      · obtain ⟨haddr, -⟩ := argptr_lt hptr.1 hsz
        have hfst : (bytesFrom 0 (wordBytes fd0) ++ bytesFrom 4 (wordBytes fd1)).map Prod.fst =
            [0, 1, 2, 3, 4, 5, 6, 7] := rfl
        refine LowBuffer.stores ⟨?_, ?_⟩
        · intro o ho
          simp only [hfst, List.mem_cons, List.not_mem_nil, or_false] at ho
          omega
        · rw [hfst]
          decide
      · exact LowStores.nil

/-! ## One call -/

/-- The allocator has worked on the memory, and the processes see the same pages. -/
structure Allocated (L : Layout) (lost : Word) (eager : Bool) (s : Sys) (use : Page → Use) (m : Mem)
    (leak' : Set Page) (use' : Page → Use) : Prop where
  inv : Inv L lost eager leak' { s with mem := m } use'
  reserved : ∀ g, use' g = .reserved ↔ use g = .reserved
  entries : userTable m use' = userTable s.mem use
  pages : ∀ g, use g = .user → m.page g = s.mem.page g

theorem Allocated.refl (h : Inv L lost eager leak s use) : Allocated L lost eager s use s.mem leak use :=
  ⟨h, fun _ => Iff.rfl, rfl, fun _ _ => rfl⟩

theorem Allocated.access_eq {leak' : Set Page} (ha : Allocated L lost eager s use m leak' use')
    (h : Inv L lost eager leak s use) (hi : Live s i) (va : Word) :
    access m (s.procs i).pgdir va false = access s.mem (s.procs i).pgdir va false := by
  rw [ha.inv.owned.access_eq (ha.inv.dir hi), h.owned.access_eq (h.dir hi)]
  show (userTable m use' _).bind _ = _
  rw [ha.entries]

theorem Inv.page_of_access (h : Inv L lost eager leak s use) (hi : Live s i) {va : Word}
    (hf : access s.mem (s.procs i).pgdir va false = some f) : use f = .user := by
  rw [h.owned.access_eq (h.dir hi)] at hf
  obtain ⟨e, he, hx⟩ := Option.bind_eq_some_iff.1 hf
  obtain rfl : e.1 = f := by simpa using hx
  exact (h.owned.counts.entry _ _ e.1 e.2 he).2.2

theorem Allocated.byteAt_eq {leak' : Set Page} (ha : Allocated L lost eager s use m leak' use')
    (h : Inv L lost eager leak s use) (hi : Live s i) (va : Word) :
    byteAt m (s.procs i).pgdir va = byteAt s.mem (s.procs i).pgdir va := by
  unfold byteAt
  rw [ha.access_eq h hi]
  cases hf : access s.mem (s.procs i).pgdir va false with
  | none => rfl
  | some f => rw [Option.map_some, Option.map_some, ha.pages f (h.page_of_access hi hf)]

theorem Allocated.kernelFrame_eq {leak' : Set Page} (ha : Allocated L lost eager s use m leak' use')
    (h : Inv L lost eager leak s use) (hi : Live s i) :
    kernelFrame m (s.procs i).pgdir = kernelFrame s.mem (s.procs i).pgdir := by
  funext v
  by_cases hv : IsUser v
  · obtain ⟨t, ht⟩ := h.exists_table hi
    obtain ⟨t', ht'⟩ := ha.inv.exists_table hi
    rw [h.owned.kernelFrame_eq (by rw [hv.pdx_eq, ht]) hv]
    rw [show kernelFrame m (s.procs i).pgdir v = _ from
      ha.inv.owned.kernelFrame_eq (t := t') (by rw [hv.pdx_eq, ht']) hv]
    show frame (userTable m use') _ = _
    rw [ha.entries]
  · simp only [kernelFrame, if_neg hv]

/-- `kalloc` for the kernel. -/
theorem Inv.kalloc (h : Inv L lost eager leak s use) {k : Page} (hk : kalloc s.mem = (some k, m)) :
    ∃ leak', Allocated L lost eager s use m leak' (Function.update use k .kern) := by
  have hne : s.mem.freelist ≠ 0#32 := by
    intro hz
    rw [kalloc_of_eq_zero hz] at hk
    cases hk
  obtain ⟨k', m', hk', hfree, howned, hT, hpage, -, -⟩ := h.owned.kalloc_eq_some hne
  obtain ⟨hkk, rfl⟩ := Prod.mk.inj (hk'.symm.trans hk)
  obtain rfl := Option.some.inj hkk
  have hother : ∀ g u, u ≠ .free → u ≠ .kern → (Function.update use k' .kern g = u ↔ use g = u) :=
    fun g u hf hu => update_eq_iff (by rw [hfree]; exact hf.symm) hu.symm g
  have hkern : ∀ i, Live s i → Function.update use k' .kern (s.procs i).kstack = .kern := by
    intro i hi
    by_cases hg : (s.procs i).kstack = k'
    · rw [hg, Function.update_self]
    · rw [Function.update_of_ne hg, h.kern hi]
  obtain ⟨leak', hinv⟩ : ∃ leak', Inv L lost eager leak' { s with mem := m' } (Function.update use k' .kern) :=
    h.lose howned (fun g u hf _ hu => hother g u hf hu) hkern hT rfl h.ready (fun _ => Iff.rfl) fun _ _ => rfl
  exact ⟨leak', hinv, fun g => hother g _ (by simp) (by simp), hT, fun g _ => by rw [hpage]⟩

/-- `kfree` of a page that the kernel holds. -/
theorem Inv.kfree (h : Inv L lost eager leak s use) {k : Page} (hk : use k = .kern)
    (hstack : ∀ i, Live s i → (s.procs i).kstack ≠ k) :
    ∃ m leak', kfree L k s.mem = .ok m ∧ Allocated L lost eager s use m leak' (Function.update use k .free) := by
  obtain ⟨m, hm, howned, hT, hpage, -⟩ := h.owned.kfree_kern hk
  have hother : ∀ g u, u ≠ .free → u ≠ .kern → (Function.update use k .free g = u ↔ use g = u) :=
    fun g u hf hu => update_eq_iff (by rw [hk]; exact hu.symm) hf.symm g
  obtain ⟨leak', hinv⟩ : ∃ leak', Inv L lost eager leak' { s with mem := m } (Function.update use k .free) :=
    h.lose howned (fun g u hf _ hu => hother g u hf hu)
      (fun i hi => by rw [Function.update_of_ne (hstack i hi), h.kern hi]) hT rfl h.ready (fun _ => Iff.rfl)
      fun _ _ => rfl
  refine ⟨m, leak', hm, hinv, fun g => hother g _ (by simp) (by simp), hT, fun g hg => hpage g ?_⟩
  rintro rfl
  rw [hk] at hg
  cases hg

theorem Inv.pipealloc (h : Inv L lost eager leak s use) (files : PipeFiles) :
    ∃ m leak' use', pipealloc L files s.mem = .ok m ∧ Allocated L lost eager s use m leak' use' := by
  obtain ⟨hoom, hToom⟩ := h.owned.setOom true
  have hfail : s.mem.freelist = 0#32 → ∃ leak',
      Allocated L lost eager s use { s.mem with oom := true } leak' use := by
    intro _
    obtain ⟨leak', hinv⟩ : ∃ leak', Inv L lost eager leak' { s with mem := { s.mem with oom := true } } use :=
      h.lose hoom (fun _ _ _ _ _ => Iff.rfl) (fun i hi => h.kern hi) hToom rfl h.ready (fun _ => Iff.rfl)
        fun _ _ => rfl
    exact ⟨leak', hinv, fun _ => Iff.rfl, hToom, fun _ _ => rfl⟩
  cases files with
  | noFile => exact ⟨s.mem, leak, use, rfl, Allocated.refl h⟩
  | noFd =>
    by_cases hz : s.mem.freelist = 0#32
    · obtain ⟨leak', ha⟩ := hfail hz
      exact ⟨_, leak', use, by rw [Cow.pipealloc, kalloc_of_eq_zero hz], ha⟩
    · obtain ⟨k, m, hk, hfree, -⟩ := h.owned.kalloc_eq_some hz
      obtain ⟨leak₁, ha₁⟩ := h.kalloc hk
      have hstack : ∀ i, Live s i → (s.procs i).kstack ≠ k := by
        rintro i hi rfl
        rw [h.kern hi] at hfree
        cases hfree
      obtain ⟨m', leak', hm', ha'⟩ := ha₁.inv.kfree (Function.update_self _ _ _) hstack
      refine ⟨m', leak', _, by rw [Cow.pipealloc, hk]; exact hm', ha'.inv, fun g => ?_, ?_, fun g hg => ?_⟩
      · rw [ha'.reserved, ha₁.reserved]
      · rw [ha'.entries]
        exact ha₁.entries
      · have hgk : g ≠ k := by
          rintro rfl
          rw [hfree] at hg
          cases hg
        rw [ha'.pages g (by rw [Function.update_of_ne hgk, hg])]
        exact ha₁.pages g hg
  | fds fd0 fd1 =>
    by_cases hz : s.mem.freelist = 0#32
    · obtain ⟨leak', ha⟩ := hfail hz
      exact ⟨_, leak', use, by rw [Cow.pipealloc, kalloc_of_eq_zero hz], ha⟩
    · obtain ⟨k, m, hk, -⟩ := h.owned.kalloc_eq_some hz
      obtain ⟨leak', ha⟩ := h.kalloc hk
      exact ⟨m, leak', _, by rw [Cow.pipealloc, hk], ha⟩

/-- A call waits, or works on the allocator and then stores its bytes. -/
theorem Inv.call_cases (h : Inv L lost eager leak s use) (c : Call) :
    (c.run L s = .error .disabled ∧ c.stores s = []) ∨
    ∃ m leak' use', Allocated L lost eager s use m leak' use' ∧
      c.run L s = .ok (Cow.storeBytes (s.procs c.proc).pgdir (c.stores s) m) := by
  cases c with
  | read p f addr n =>
    by_cases hwait : argptr s p addr n ∧ fileread f n = none
    · refine Or.inl ⟨by simp only [Call.run, if_pos hwait], ?_⟩
      simp only [Call.stores, if_pos hwait.1, hwait.2]
      rfl
    · exact Or.inr ⟨s.mem, leak, use, Allocated.refl h, by simp only [Call.run, if_neg hwait]⟩
  | fstat p f addr => exact Or.inr ⟨s.mem, leak, use, Allocated.refl h, rfl⟩
  | pipe p addr files =>
    by_cases hptr : argptr s p addr 8#32
    · obtain ⟨m, leak', use', hm, ha⟩ := h.pipealloc files
      refine Or.inr ⟨m, leak', use', ha, ?_⟩
      simp only [Call.run, if_pos hptr, hm]
      rfl
    · refine Or.inr ⟨s.mem, leak, use, Allocated.refl h, ?_⟩
      have hstores : (Call.pipe p addr files).stores s = [] := by
        cases files with
        | noFile => rfl
        | noFd => rfl
        | fds fd0 fd1 => simp only [Call.stores, hptr, false_and, if_false]
      rw [hstores]
      simp only [Call.run, if_neg hptr]
      rfl

theorem Inv.isolated_iff_storesPrivately (h : Inv L lost eager leak s use) {c : Call}
    (hp : Live s c.proc) : Isolated L s c ↔ StoresPrivately s c := by
  obtain ⟨hrun, hnil⟩ | ⟨m, leak', use', ha, hrun⟩ := h.call_cases c
  · refine iff_of_true (fun m returns hx => ?_) fun w hw => ?_
    · rw [hrun] at hx
      cases hx
    · rw [hnil] at hw
      cases hw
  obtain ⟨t, ht⟩ := ha.inv.exists_table hp
  have hlow := c.lowStores (h.size c.proc hp)
  have hiff := ha.inv.owned.sameBytes_iff ht hlow.low hlow.nodup
    {d | ∃ i, i ≠ c.proc ∧ (s.procs i).state = .runnable ∧ (s.procs i).pgdir = d} (by
      rintro d ⟨i, -, hi, rfl⟩
      exact ha.inv.dir (live_of_runnable hi))
  have hleft : Isolated L s c ↔ ∀ d ∈ {d | ∃ i, i ≠ c.proc ∧ (s.procs i).state = .runnable ∧
      (s.procs i).pgdir = d}, ∀ va, byteAt (Cow.storeBytes (s.procs c.proc).pgdir (c.stores s) m).1 d va =
        byteAt m d va := by
    constructor
    · rintro hiso d ⟨i, hip, hi, rfl⟩ va
      rw [ha.byteAt_eq h (live_of_runnable hi)]
      exact hiso _ _ hrun i va hip hi
    · intro hsame m' returns hx i va hip hi
      rw [hrun] at hx
      rw [← ha.byteAt_eq h (live_of_runnable hi), ← hsame _ ⟨i, hip, hi, rfl⟩ va, Except.ok.inj hx]
  rw [hleft, show (∀ d ∈ _, ∀ va, _) ↔ _ from hiff]
  unfold StoresPrivately
  have hframe := ha.kernelFrame_eq h hp
  simp only [reached, show kernelFrame m (s.procs c.proc).pgdir = _ from hframe]
  refine forall_congr' fun w => imp_congr_right fun _ => forall_congr' fun f => imp_congr_right fun _ => ?_
  have hseen : (∃ d ∈ {d | ∃ i, i ≠ c.proc ∧ (s.procs i).state = .runnable ∧ (s.procs i).pgdir = d},
      ∃ v, access m d (paddr v) false = some f) ↔ SeenByOther s c.proc f := by
    constructor
    · rintro ⟨d, ⟨i, hip, hi, rfl⟩, v, hv⟩
      rw [ha.access_eq h (live_of_runnable hi)] at hv
      exact ⟨i, v, hip, hi, hv⟩
    · rintro ⟨i, v, hip, hi, hv⟩
      exact ⟨_, ⟨i, hip, hi, rfl⟩, v, by rw [ha.access_eq h (live_of_runnable hi)]; exact hv⟩
  rw [show (∃ d ∈ _, _) ↔ _ from hseen]
  refine imp_congr_right fun hx => ?_
  obtain ⟨i, v, hip, hi, hv⟩ := hx
  rw [show ({ s with mem := m } : Sys).mem.page f = m.page f from rfl, ha.pages f (h.page_of_access (live_of_runnable hi) hv)]

/-! ## Runs -/

/-- All pages from the end of the kernel on are the allocator's. -/
def AllManaged (L : Layout) (use : Page → Use) : Prop :=
  ∀ g : Page, L.kend.toNat ≤ g.toNat → g.toNat < 4096 → use g ≠ .reserved

theorem Booted.allManaged {init : List Byte} {f₀ : Page} (h : Booted L init s use f₀) : AllManaged L use := by
  have hsub : BitVec.toNat '' {g : Page | use g ≠ .reserved} ⊆
      ((Finset.Ico L.kend.toNat 4096 : Finset ℕ) : Set ℕ) := by
    rintro n ⟨g, hg, rfl⟩
    rw [Finset.coe_Ico, Set.mem_Ico]
    exact h.inv.owned.frames.range g hg
  have hcard : 4096 - L.kend.toNat ≤ (BitVec.toNat '' {g : Page | use g ≠ .reserved}).ncard := by
    rw [Set.ncard_image_of_injective _ fun a b => BitVec.eq_of_toNat_eq]
    have hcount := h.inv.count
    have hfree := h.freeCount_eq
    have hlive : liveCount s = 1 := by
      unfold liveCount
      rw [show {i | Live s i} = {initSlot} by ext i; exact h.live_iff, Set.ncard_singleton]
    have huser : 1 ≤ userCount use := by
      obtain ⟨f, hf, -⟩ := h.page
      exact (Set.ncard_pos (Set.toFinite _)).2 ⟨f, (h.inv.owned.counts.entry _ _ f true hf).2.2⟩
    rw [hlive, Set.ncard_singleton] at hcount
    omega
  have heq := Set.eq_of_subset_of_ncard_le hsub
    (by rwa [Set.ncard_coe_finset, Nat.card_Ico]) (Set.toFinite _)
  intro g hlo hhi
  have hg : g.toNat ∈ BitVec.toNat '' {g : Page | use g ≠ .reserved} := by
    rw [heq, Finset.coe_Ico, Set.mem_Ico]
    exact ⟨hlo, hhi⟩
  obtain ⟨g', hg', hx⟩ := hg
  rwa [← BitVec.eq_of_toNat_eq hx]

theorem AllManaged.congr (h : AllManaged L use) (hiff : ∀ g, use' g = .reserved ↔ use g = .reserved) :
    AllManaged L use' := fun g hlo hhi hg => h g hlo hhi ((hiff g).1 hg)

/-- The page of a pipe is one of the kernel. -/
theorem Inv.kern_of_held (h : Inv L lost eager leak s use) (hall : AllManaged L use)
    (hf : HeldByKernel L s f) : use f = .kern ∧ ∀ i, Live s i → (s.procs i).kstack ≠ f := by
  refine ⟨?_, fun i hi hx => hf.kstack ⟨i, hi, hx⟩⟩
  cases hu : use f with
  | reserved => exact absurd hu (hall f hf.range.1 hf.range.2)
  | free => exact absurd (h.owned.onFreeList_iff.2 hu) hf.used
  | dir => exact absurd ((h.dirs f).1 hu) hf.dir
  | table d i =>
    obtain ⟨hd, hpde⟩ := h.owned.frames.table f d i hu
    exact absurd ⟨d, i, (h.dirs d).1 hd, by rw [hpde]; simp, by rw [hpde, pageOf_pdeFor]⟩ hf.table
  | kern => rfl
  | user =>
    obtain ⟨i, v, hi, hv⟩ := h.user_iff.1 hu
    exact absurd (by rw [h.userFrame_eq hi, hv]) (hf.user i v hi)

theorem kernelNext_eq_some_iff {e : KernelEvent} : kernelNext L s e = some s' ↔ kernelStep L s e = .ok s' := by
  unfold kernelNext
  cases kernelStep L s e with
  | error x => simp [Except.toOption]
  | ok x => simp [Except.toOption]

/-- A call that returns changes the memory only. -/
theorem Call.body_eq_ok {c : Call} (h : ((c.run L s).bind fun (m, returns) =>
      if returns then .ok { s with mem := m } else .error .hang) = .ok s') :
    ∃ m, c.run L s = .ok (m, true) ∧ s' = { s with mem := m } := by
  cases hc : c.run L s with
  | error x =>
    rw [hc] at h
    cases h
  | ok r =>
    obtain ⟨m, returns⟩ := r
    rw [hc] at h
    cases returns with
    | false => cases h
    | true => exact ⟨m, rfl, (Except.ok.inj h).symm⟩

theorem Call.body_killed {c : Call} (h : ((c.run L s).bind fun (m, returns) =>
      if returns then .ok { s with mem := m } else .error .hang) = .ok s') :
    (s'.procs p).killed = (s.procs p).killed := by
  obtain ⟨m, -, rfl⟩ := Call.body_eq_ok h
  rfl

/-- The memory after a call. -/
theorem Inv.call (h : Inv L lost eager leak s use) {c : Call} (hp : Live s c.proc) {returns : Bool}
    (hrun : c.run L s = .ok (m', returns)) : ∃ leak' use', Inv L lost eager leak' { s with mem := m' } use' ∧
      (∀ g, use' g = .reserved ↔ use g = .reserved) ∧ userTable m' use' = userTable s.mem use := by
  obtain ⟨hx, -⟩ | ⟨m, leak', use', ha, hx⟩ := h.call_cases c
  · rw [hx] at hrun
    cases hrun
  obtain ⟨t, ht⟩ := ha.inv.exists_table hp
  have hlow := c.lowStores (h.size c.proc hp)
  obtain ⟨howned, hT⟩ := Owned.storeBytes ht ha.inv.owned hlow.low
  have hm' : m' = (Cow.storeBytes (s.procs c.proc).pgdir (c.stores s) m).1 := by
    rw [show Cow.storeBytes _ _ m = _ from Except.ok.inj (hx.symm.trans hrun)]
  subst hm'
  obtain ⟨leak'', hinv⟩ : ∃ leak'', Inv L lost eager leak''
      { s with mem := (Cow.storeBytes (s.procs c.proc).pgdir (c.stores s) m).1 } use' :=
    ha.inv.lose howned (fun _ _ _ _ _ => Iff.rfl) (fun i hi => ha.inv.kern hi) hT rfl ha.inv.ready
      (fun _ => Iff.rfl) fun _ _ => rfl
  exact ⟨leak'', use', hinv, ha.reserved, hT.trans ha.entries⟩

/-- One event. -/
theorem Inv.kernelNext (h : Inv L lost false leak s use) (hall : AllManaged L use) {e : KernelEvent}
    (he : e.Allowed L s) (hs' : kernelNext L s e = some s') :
    ∃ leak' use', Inv L lost false leak' s' use' ∧ AllManaged L use' := by
  rw [kernelNext_eq_some_iff] at hs'
  cases e with
  | user e =>
    obtain ⟨leak', use', hinv, hiff⟩ := h.next he.1 he.2 (next_eq_some_iff.2 hs')
    exact ⟨leak', use', hinv, hall.congr hiff⟩
  | call c =>
    simp only [kernelStep] at hs'
    split_ifs at hs' with hrun
    have hp : Live s c.proc := live_of_runnable (not_not.1 hrun)
    obtain hx | hx := syscall_cases (fun s₁ => Call.body_killed) hs'
    · exact ⟨leak, use, inv_exit hx h hp, hall⟩
    · obtain ⟨m, hc, rfl⟩ := Call.body_eq_ok hx
      obtain ⟨leak', use', hinv, hiff, -⟩ := h.call hp hc
      exact ⟨leak', use', hinv, hall.congr hiff⟩
  | pipeclose f =>
    obtain ⟨hf, hstack⟩ := h.kern_of_held hall he
    obtain ⟨m, leak', hm, ha⟩ := h.kfree hf hstack
    simp only [kernelStep, hm, Except.map, Except.ok.injEq] at hs'
    rw [← hs']
    exact ⟨leak', _, ha.inv, hall.congr ha.reserved⟩

/-- The invariant holds after every run. -/
theorem exists_managed_of_kernelRun {ram : Page → PageData} {init : List Byte} {es : List KernelEvent} {s₀ : Sys}
    (hboot : boot L ram init = .ok s₀)
    (hes : Trace.Along (kernelNext L) (fun s e => e.Allowed L s) s₀ es)
    (hrun : Trace.run (kernelNext L) s₀ es = some s) :
    ∃ leak use, Inv L 0#32 false leak s use ∧ AllManaged L use := by
  obtain ⟨use, f₀, hb⟩ := boot_inv hboot
  refine Trace.run_invariant (I := fun s => ∃ leak use, Inv L 0#32 false leak s use ∧ AllManaged L use) ?_
    ⟨{f₀}, use, hb.inv.of_eager false, hb.allManaged⟩ hes hrun
  rintro s e s' ⟨leak, use, h, hall⟩ he hs'
  exact h.kernelNext hall he hs'

theorem exists_inv_of_kernelRun {ram : Page → PageData} {init : List Byte} {es : List KernelEvent} {s₀ : Sys}
    (hboot : boot L ram init = .ok s₀)
    (hes : Trace.Along (kernelNext L) (fun s e => e.Allowed L s) s₀ es)
    (hrun : Trace.run (kernelNext L) s₀ es = some s) : ∃ leak use, Inv L 0#32 false leak s use := by
  obtain ⟨leak, use, h, -⟩ := exists_managed_of_kernelRun hboot hes hrun
  exact ⟨leak, use, h⟩

/-- In every reachable state, a call changes no byte that another process can load if and only if every
byte it stores goes to a frame that no other process sees, or is there already. -/
theorem isolated_iff {ram : Page → PageData} {init : List Byte} {es : List KernelEvent} {s₀ : Sys}
    (hboot : boot L ram init = .ok s₀)
    (hes : Trace.Along (kernelNext L) (fun s e => e.Allowed L s) s₀ es)
    (hrun : Trace.run (kernelNext L) s₀ es = some s) {c : Call} (hc : CanCall s c.proc) :
    Isolated L s c ↔ StoresPrivately s c := by
  obtain ⟨leak, use, h⟩ := exists_inv_of_kernelRun hboot hes hrun
  exact h.isolated_iff_storesPrivately (live_of_runnable hc.1)

/-- An open file of one byte. -/
def byteFile (b : Byte) : File :=
  { readable := true
    kind := .inode
      { file := { size := 1#32, byte := fun _ => b }, dev := 1#32, inum := 2#32, type := 2#16, major := 0#16
        nlink := 1#16, size_le := Nat.le_of_ble_eq_true rfl } 0#32 [] }

/-- The first process forks and could then read into the page that it shares with its child. -/
theorem exists_fork_read : ∃ s₀ s,
    boot smallLayout blankRam [] = .ok s₀ ∧
    kernelNext smallLayout s₀ (.user (.mem (.fork initSlot))) = some s ∧ CanCall s initSlot ∧
    ¬ StoresPrivately s (.read initSlot (byteFile 7#8) 0#32 1#32) := by
  obtain ⟨s₀, s, use, f, hboot, hs, ⟨par, f₀, h⟩, hf, hfA, hzero⟩ := exists_fork_shared
  have hmember := h.family.member initSlot
  have hinit : Live s initSlot := h.live_iff.2 (by decide)
  have hsz : (s.procs initSlot).sz = 4096#32 := by
    rw [← abs_sz]
    exact hmember.sz (by decide)
  refine ⟨s₀, s, hboot, kernelNext_eq_some_iff.2 hs, ⟨?_, ?_⟩, fun hpriv => ?_⟩
  · rw [← abs_state]
    exact hmember.state
  · rw [← abs_killed]
    exact hmember.killed
  obtain ⟨t, ht⟩ := h.inv.exists_table hinit
  have hkernel : kernelFrame s.mem (s.procs initSlot).pgdir (pageOf 0#32) = some f := by
    rw [show pageOf 0#32 = 0#20 by decide, h.inv.owned.kernelFrame_eq (v := 0#20) ht (by decide),
      ← h.inv.userFrame_eq hinit, hf]
  have hstores : (Call.read initSlot (byteFile 7#8) 0#32 1#32).stores s = [(0#32, 7#8)] := by
    have hptr : argptr s initSlot 0#32 1#32 := by
      unfold argptr
      rw [hsz]
      decide
    simp only [Call.stores, if_pos hptr]
    decide
  have hseen : SeenByOther s initSlot f := by
    refine ⟨slotA, 0#20, by decide, ?_, hfA⟩
    rw [← abs_state]
    exact (h.family.member slotA).state
  have hreached : (0#32, 7#8) ∈ reached s.mem (s.procs initSlot).pgdir [(0#32, 7#8)] := by
    rw [(storeBytes_cons_some [] 7#8 hkernel).2]
    exact List.mem_cons_self
  have hbyte := hpriv (0#32, 7#8) (by rw [hstores]; exact hreached) f hkernel hseen
  rw [hzero] at hbyte
  exact absurd hbyte (by decide)

theorem isolated_iff_fork_read : ∃ s₀ s,
    boot smallLayout blankRam [] = .ok s₀ ∧
    Trace.run (kernelNext smallLayout) s₀ [.user (.mem (.fork initSlot))] = some s ∧
    (Isolated smallLayout s (.read initSlot (byteFile 7#8) 0#32 1#32) ↔
      StoresPrivately s (.read initSlot (byteFile 7#8) 0#32 1#32)) := by
  obtain ⟨s₀, s, hboot, hnext, hcan, -⟩ := exists_fork_read
  refine ⟨s₀, s, hboot, Trace.run_singleton hnext, isolated_iff hboot ?_ (Trace.run_singleton hnext) hcan⟩
  exact Trace.along_cons_of_eq ⟨id, trivial⟩ hnext trivial

/-- The byte that the first process reads is in the memory of its child. -/
theorem not_isolated_fork_read : ∃ s₀ s,
    boot smallLayout blankRam [] = .ok s₀ ∧
    Trace.run (kernelNext smallLayout) s₀ [.user (.mem (.fork initSlot))] = some s ∧ CanCall s initSlot ∧
    ¬ Isolated smallLayout s (.read initSlot (byteFile 7#8) 0#32 1#32) := by
  obtain ⟨s₀, s, hboot, hnext, hcan, hpriv⟩ := exists_fork_read
  have halong : Trace.Along (kernelNext smallLayout) (fun s e => e.Allowed smallLayout s) s₀
      [.user (.mem (.fork initSlot))] := Trace.along_cons_of_eq ⟨id, trivial⟩ hnext trivial
  obtain ⟨leak, use, h⟩ := exists_inv_of_kernelRun hboot halong (Trace.run_singleton hnext)
  refine ⟨s₀, s, hboot, Trace.run_singleton hnext, hcan, fun hx => hpriv ?_⟩
  have hlive : Live s (Call.read initSlot (byteFile 7#8) 0#32 1#32).proc := live_of_runnable hcan.1
  exact (h.isolated_iff_storesPrivately hlive).1 hx

end SystemsProjects.Cow
