import SystemsProjects.Rpc.Replies

/-!
# The indices the server uses, and its store as a map

The main loop and the workers index `payloadTable` with the client id of a packet, and `get` and `put`
index `datastore` with its key after a test that lets `NUMKEYS` itself pass.  `handledInBounds_iff` says
for which packets every index is inside its array and the store answers as a map does.
-/

namespace SystemsProjects.Rpc

/-! ## The indices of an event -/

/-- The slots that the search of the main loop looks at: up to the first of the client, or all of them. -/
def searchIndices (payloadTable : ℤ → Payload) (clientId : ℤ) : List ℤ :=
  match numClient payloadTable clientId with
  | some i => (List.range (i + 1)).map Int.ofNat
  | none => (List.range TABLE_SIZE).map Int.ofNat

/-- The index of the write of `returnValue`. -/
def workerTableIndices (w : Worker) : List ℤ :=
  match w.pc with
  | .executed _ => if w.attr.funcType = 2 then [w.attr.clientId] else []
  | _ => []

instance (attr : Payload) : Decidable (Returns attr) := inferInstanceAs (Decidable (_ ∨ _))

/-- The index that `get` or `put` uses, once the key has passed the test. -/
def workerDatastoreIndices (w : Worker) : List ℤ :=
  match w.pc with
  | .ready => if Returns w.attr ∧ ¬ OutOfBounds w.attr.key then [w.attr.key] else []
  | _ => []

/-- The indices into `payloadTable` that an event uses. -/
def tableIndices (s : Server) : ServerEvent → List ℤ
  | .receive attr => searchIndices s.payloadTable attr.clientId ++ [attr.clientId]
  | .work i => (s.workers[i]?).toList.flatMap workerTableIndices

/-- The indices into `datastore` that an event uses. -/
def datastoreIndices (s : Server) : ServerEvent → List ℤ
  | .receive _ => []
  | .work i => (s.workers[i]?).toList.flatMap workerDatastoreIndices

/-! ## The property -/

/-- The value of the latest put to the key among the executed requests; 0 if there is none. -/
def latestPut (log : List Payload) (key : ℤ) : ℤ :=
  log.foldl (fun value attr => if attr.funcType = 3 ∧ attr.key = key then attr.value else value) 0

/-- The event executes the operation that worker `w` was started for. -/
def Executes (s : Server) (e : ServerEvent) (w : Worker) : Prop :=
  ∃ i, e = .work i ∧ s.workers[i]? = some w ∧ w.pc = .ready

structure HandledInBounds (s : Server) (e : ServerEvent) : Prop where
  table : ∀ n ∈ tableIndices s e, InTable n
  datastore : ∀ n ∈ datastoreIndices s e, InStore n
  get : ∀ w, Executes s e w → w.attr.funcType = 2 →
    (execute s.datastore w.attr).1 = if InStore w.attr.key then latestPut s.log w.attr.key else -1
  put : ∀ w, Executes s e w → w.attr.funcType = 3 → ¬ InStore w.attr.key →
    (execute s.datastore w.attr).2 = s.datastore

/-- The client id of every packet has a slot, and no get or put is for the key `NUMKEYS`. -/
def IndexOk (s : Server) (e : ServerEvent) : Prop :=
  (∀ attr, e = .receive attr → InTable attr.clientId) ∧
  ∀ w, Executes s e w → Returns w.attr → w.attr.key ≠ NUMKEYS

/-! ## The store is the history of its puts -/

/-- The store holds what the executed puts have left. -/
structure StoreInv (s : Server) : Prop where
  server : ServerInv s
  latest : ∀ key, ¬ OutOfBounds key → s.datastore key = latestPut s.log key

theorem storeInv_init (junk : ℤ → Payload) : StoreInv (Server.init junk) where
  server := serverInv_init junk
  latest _ _ := rfl

variable {s s' : Server} {attr : Payload}

theorem latestPut_append (log : List Payload) (attr : Payload) (key : ℤ) :
    latestPut (log ++ [attr]) key =
      if attr.funcType = 3 ∧ attr.key = key then attr.value else latestPut log key := by
  rw [latestPut, List.foldl_append]
  rfl

/-- What `put` leaves in the cell of a key that passes the test. -/
theorem put_apply (datastore : ℤ → ℤ) (k value : ℤ) {key : ℤ} (hkey : ¬ OutOfBounds key) :
    (put datastore k value).2 key = if k = key then value else datastore key := by
  unfold put
  by_cases heq : k = key
  · rw [if_neg (heq ▸ hkey), if_pos heq, heq]
    exact Function.update_self key value datastore
  · rw [if_neg heq]
    split_ifs
    · rfl
    · exact Function.update_of_ne (Ne.symm heq) value datastore

/-- An operation leaves in every cell what the log says after it. -/
theorem StoreInv.execute (h : StoreInv s) (attr : Payload) {key : ℤ} (hkey : ¬ OutOfBounds key) :
    (Rpc.execute s.datastore attr).2 key = latestPut (s.log ++ [attr]) key := by
  rw [latestPut_append, ← h.latest key hkey]
  unfold Rpc.execute
  by_cases hput : attr.funcType = 3
  · rw [if_neg (by omega), if_pos hput]
    simp only [put_apply s.datastore attr.key attr.value hkey, hput, true_and]
  · have hlog : ¬ (attr.funcType = 3 ∧ attr.key = key) := fun hlog => hput hlog.1
    rw [if_neg hlog, if_neg hput]
    split_ifs <;> rfl

theorem StoreInv.step {e : ServerEvent} (h : StoreInv s) (hstep : serverStep s e = some s') : StoreInv s' := by
  refine ⟨h.server.step hstep, fun key hkey => ?_⟩
  cases e with
  | receive attr =>
    obtain ⟨-, -, -, -, hdatastore, hlog⟩ := h.server.mainLoop_spec hstep
    rw [hdatastore, hlog]
    exact h.latest key hkey
  | work i =>
    obtain ⟨w, hw, hwork⟩ := Option.bind_eq_some_iff.1 hstep
    unfold workStep at hwork
    split at hwork
    · obtain rfl := Option.some.inj hwork
      exact h.execute w.attr hkey
    · obtain rfl := Option.some.inj hwork
      exact h.latest key hkey
    · obtain rfl := Option.some.inj hwork
      exact h.latest key hkey
    · cases hwork

/-! ## The indices are inside the arrays -/

theorem inTable_of_mem_searchIndices {payloadTable : ℤ → Payload} {clientId n : ℤ}
    (hn : n ∈ searchIndices payloadTable clientId) : InTable n := by
  have hbound : ∀ k ≤ TABLE_SIZE, n ∈ (List.range k).map Int.ofNat → InTable n := by
    intro k hk hmem
    obtain ⟨i, hi, rfl⟩ := List.mem_map.1 hmem
    have hlt : i < TABLE_SIZE := lt_of_lt_of_le (List.mem_range.1 hi) hk
    exact ⟨Int.natCast_nonneg i, Int.ofNat_lt.2 hlt⟩
  unfold searchIndices at hn
  split at hn
  · rename_i i hfound
    have hi : i ∈ List.range TABLE_SIZE := List.mem_of_find?_eq_some hfound
    exact hbound (i + 1) (List.mem_range.1 hi) hn
  · exact hbound TABLE_SIZE le_rfl hn

/-- The table is indexed inside its bounds exactly when the client id of a packet has a slot: the workers
carry packets that have passed the main loop. -/
theorem ServerInv.tableIndices_iff (h : ServerInv s) (e : ServerEvent) :
    (∀ n ∈ tableIndices s e, InTable n) ↔ ∀ attr, e = .receive attr → InTable attr.clientId := by
  cases e with
  | receive attr =>
    constructor
    · rintro hin _ ⟨⟩
      exact hin attr.clientId (List.mem_append_right _ (List.mem_singleton.2 rfl))
    · intro hid n hn
      obtain hsearch | hclient := List.mem_append.1 hn
      · exact inTable_of_mem_searchIndices hsearch
      · rw [List.mem_singleton.1 hclient]
        exact hid attr rfl
  | work i =>
    refine iff_of_true (fun n hn => ?_) (fun attr hattr => nomatch hattr)
    obtain ⟨w, hw, hindex⟩ := List.mem_flatMap.1 hn
    have hmem : w ∈ s.workers := List.mem_of_getElem? (Option.mem_toList.1 hw)
    unfold workerTableIndices at hindex
    split at hindex
    · split_ifs at hindex
      · rw [List.mem_singleton.1 hindex]
        exact (h.started w hmem).1
      · cases hindex
    · cases hindex

theorem mem_datastoreIndices {e : ServerEvent} {n : ℤ} :
    n ∈ datastoreIndices s e ↔
      ∃ w, Executes s e w ∧ Returns w.attr ∧ ¬ OutOfBounds w.attr.key ∧ n = w.attr.key := by
  cases e with
  | receive attr =>
    refine iff_of_false (fun hn => nomatch hn) ?_
    rintro ⟨w, ⟨i, hi, -⟩, -⟩
    cases hi
  | work i =>
    unfold datastoreIndices
    rw [List.mem_flatMap]
    constructor
    · rintro ⟨w, hw, hindex⟩
      unfold workerDatastoreIndices at hindex
      split at hindex
      · rename_i hready
        split_ifs at hindex with hkey
        · exact ⟨w, ⟨i, rfl, Option.mem_toList.1 hw, hready⟩, hkey.1, hkey.2, List.mem_singleton.1 hindex⟩
        · cases hindex
      · cases hindex
    · rintro ⟨w, ⟨j, hj, hw, hready⟩, hreturns, hkey, rfl⟩
      cases hj
      refine ⟨w, Option.mem_toList.2 hw, ?_⟩
      unfold workerDatastoreIndices
      rw [hready]
      simp [hreturns, hkey]

/-- The store is indexed inside its bounds exactly when no operation is for the key `NUMKEYS`. -/
theorem datastoreIndices_iff (s : Server) (e : ServerEvent) :
    (∀ n ∈ datastoreIndices s e, InStore n) ↔
      ∀ w, Executes s e w → Returns w.attr → w.attr.key ≠ NUMKEYS := by
  simp only [mem_datastoreIndices]
  unfold InStore OutOfBounds NUMKEYS
  constructor
  · intro hin w hexec hreturns hkey
    have := hin w.attr.key ⟨w, hexec, hreturns, by omega, rfl⟩
    omega
  · rintro hne n ⟨w, hexec, hreturns, hkey, rfl⟩
    have := hne w hexec hreturns
    omega

/-! ## The store is a map -/

theorem inStore_iff {key : ℤ} (hkey : key ≠ NUMKEYS) : InStore key ↔ ¬ OutOfBounds key := by
  unfold InStore OutOfBounds
  omega

theorem StoreInv.get_eq (h : StoreInv s) {key : ℤ} (hkey : key ≠ NUMKEYS) :
    get s.datastore key = if InStore key then latestPut s.log key else -1 := by
  by_cases hin : InStore key
  · have hbounds : ¬ OutOfBounds key := (inStore_iff hkey).1 hin
    rw [if_pos hin, ← h.latest key hbounds]
    exact if_neg hbounds
  · rw [if_neg hin]
    exact if_pos (not_not.1 (mt (inStore_iff hkey).2 hin))

theorem put_outside {datastore : ℤ → ℤ} {key : ℤ} (value : ℤ) (hkey : key ≠ NUMKEYS) (hin : ¬ InStore key) :
    (put datastore key value).2 = datastore := by
  have hbounds : OutOfBounds key := not_not.1 (mt (inStore_iff hkey).2 hin)
  exact congrArg Prod.snd (if_pos hbounds)

theorem StoreInv.handledInBounds_iff_indexOk (h : StoreInv s) (e : ServerEvent) :
    HandledInBounds s e ↔ IndexOk s e := by
  constructor
  · exact fun hin => ⟨(h.server.tableIndices_iff e).1 hin.table, (datastoreIndices_iff s e).1 hin.datastore⟩
  · rintro ⟨hid, hkey⟩
    refine ⟨(h.server.tableIndices_iff e).2 hid, (datastoreIndices_iff s e).2 hkey, fun w hexec hget => ?_,
      fun w hexec hput hout => ?_⟩
    · rw [Rpc.execute, if_pos hget]
      exact h.get_eq (hkey w hexec (Or.inl hget))
    · rw [Rpc.execute, if_neg (by omega), if_pos hput]
      exact put_outside w.attr.value (hkey w hexec (Or.inr hput)) hout

/-- Every event of a run of the server is handled within bounds, with a store that is a map, exactly when
every packet has a client id of the table and no get or put of the key `NUMKEYS` is executed. -/
theorem handledInBounds_iff (junk : ℤ → Payload) (es : List ServerEvent) :
    Trace.Along serverStep HandledInBounds (Server.init junk) es ↔
      Trace.Along serverStep IndexOk (Server.init junk) es :=
  Trace.along_congr_of_invariant serverStep (fun _ _ _ h _ hstep => h.step hstep)
    (fun _ e h => h.handledInBounds_iff_indexOk e) (storeInv_init junk) es

/-- The first packet of client 100 indexes the table with 100, and a get of the key 1024 indexes the store
with 1024. -/
theorem not_handledInBounds_boundary :
    ¬ Trace.Along serverStep HandledInBounds (Server.init zeros)
        [.receive ⟨2, 100, 1, -1, 5, -1, 0, 0⟩] ∧
      ¬ Trace.Along serverStep HandledInBounds (Server.init zeros)
        [.receive ⟨2, 7, 1, -1, 1024, -1, 0, 0⟩, .work 0] := by
  constructor
  · intro h
    have hin : InTable 100 := h.1.table 100 (List.mem_append_right _ (List.mem_singleton.2 rfl))
    exact absurd hin.2 (by decide)
  · intro h
    have hin : InStore 1024 := (h.2 _ rfl).1.datastore 1024 (by decide)
    exact absurd hin.2 (by decide)

end SystemsProjects.Rpc
