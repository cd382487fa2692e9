import SystemsProjects.Rpc.AtMostOnce
import SystemsProjects.Rpc.Client

/-!
# When a completed put has been applied

`RPC_put` returns on any acknowledgement, on any datagram with `ack = 0` and, after a timeout, on
whatever the unwritten buffer holds, so a returned `put` need not have been executed.  `StepOk` rules
out, state by state, the deliveries and the early acknowledgement that make the difference; under it
`SysInv` is an invariant and `putApplied_of_stepOk` says that every returned `put` was executed exactly
once and is in the store.
-/

namespace SystemsProjects.Rpc

open MachineInt

/-! ## Workers and the execution log -/

/-- The log holds every executed request once: those of the workers past their operation. -/
structure LogInv (s : Server) : Prop where
  nodup : s.log.Nodup
  mem_iff : ∀ p, p ∈ s.log ↔ ∃ (j : ℕ) (w : Worker), s.workers[j]? = some w ∧ w.attr = p ∧ w.pc ≠ .ready

theorem logInv_init (junk : ℤ → Payload) : LogInv (Server.init junk) :=
  ⟨List.nodup_nil, fun p => by simp [Server.init]⟩

/-- No request is handed to two workers. -/
theorem ServerInv.attr_nodup {s : Server} (h : ServerInv s) : (s.workers.map (·.attr)).Nodup := by
  rw [List.Nodup, List.pairwise_map, List.pairwise_iff_getElem]
  intro i j hi hj hij heq
  have hpair := h.increasing (s.workers[i]).attr.clientId
  unfold startedFor at hpair
  rw [List.pairwise_map, List.pairwise_filter, List.pairwise_iff_getElem] at hpair
  have hlt := hpair i j hi hj hij (by simp) (by simp [heq])
  rw [heq] at hlt
  exact lt_irrefl _ hlt

theorem ServerInv.worker_unique {s : Server} (h : ServerInv s) {i j : ℕ} {w v : Worker}
    (hi : s.workers[i]? = some w) (hj : s.workers[j]? = some v) (heq : w.attr = v.attr) : i = j := by
  have hlen : i < (s.workers.map (·.attr)).length := by
    rw [List.length_map]
    exact (List.getElem?_eq_some_iff.1 hi).1
  apply (List.getElem?_inj hlen h.attr_nodup).1
  rw [List.getElem?_map, List.getElem?_map, hi, hj, Option.map_some, Option.map_some, heq]

variable {s s' : Server}

theorem LogInv.mainLoop {attr : Payload} (h : LogInv s) (hs : ServerInv s)
    (hstep : mainLoop s attr = some s') : LogInv s' := by
  obtain ⟨-, handled, -, -, -, hlog⟩ := hs.mainLoop_spec hstep
  refine ⟨hlog ▸ h.nodup, fun p => ?_⟩
  rw [hlog, h.mem_iff]
  cases handled with
  | acknowledge _ _ hw _ => rw [hw]
  | drop _ _ hw _ => rw [hw]
  | start _ _ hw _ =>
    rw [hw]
    constructor
    · rintro ⟨j, w, hj, hp, hpc⟩
      refine ⟨j, w, ?_, hp, hpc⟩
      rw [List.getElem?_append_left (List.getElem?_eq_some_iff.1 hj).1, hj]
    · rintro ⟨j, w, hj, hp, hpc⟩
      by_cases hlt : j < s.workers.length
      · exact ⟨j, w, by rwa [List.getElem?_append_left hlt] at hj, hp, hpc⟩
      · -- Position `j` can only be the new worker, which has not executed.
        rw [List.getElem?_append_right (by omega), List.getElem?_singleton] at hj
        split_ifs at hj
        exact absurd (by rw [← Option.some.inj hj]) hpc

/-- What a worker step does to the log, the store and the datagrams, by the worker's position in
`threadTasks`. -/
inductive Worked (s : Server) (w : Worker) (s' : Server) : WorkerPc → Prop
  | execute (pc : w.pc = .ready) (log : s'.log = s.log ++ [w.attr])
      (datastore : s'.datastore = (execute s.datastore w.attr).2) (sent : s'.sent = s.sent) (r : ℤ) :
      Worked s w s' (.executed r)
  | store (r : ℤ) (pc : w.pc = .executed r) (log : s'.log = s.log)
      (datastore : s'.datastore = s.datastore) (sent : s'.sent = s.sent) : Worked s w s' (.stored r)
  | reply (r : ℤ) (pc : w.pc = .stored r) (log : s'.log = s.log)
      (datastore : s'.datastore = s.datastore)
      (sent : s'.sent = s.sent ++ [{ w.attr with ack := 0, returnValue := r }]) :
      Worked s w s' .replied

theorem work_cases {i : ℕ} (hstep : work s i = some s') :
    ∃ w pc', s.workers[i]? = some w ∧ s'.workers = s.workers.set i ⟨w.attr, pc'⟩ ∧
      Worked s w s' pc' := by
  obtain ⟨w, hw, hstep⟩ := Option.bind_eq_some_iff.1 hstep
  unfold workStep at hstep
  cases hpc : w.pc with
  | replied => simp [hpc] at hstep
  | ready =>
    simp only [hpc, Option.some.injEq] at hstep
    subst hstep
    refine ⟨w, _, hw, rfl, ?_⟩
    apply Worked.execute hpc <;> rfl
  | executed r =>
    simp only [hpc, Option.some.injEq] at hstep
    subst hstep
    exact ⟨w, _, hw, rfl, .store r hpc rfl rfl rfl⟩
  | stored r =>
    simp only [hpc, Option.some.injEq] at hstep
    subst hstep
    exact ⟨w, _, hw, rfl, .reply r hpc rfl rfl rfl⟩

/-- A request whose worker has not executed is not in the log. -/
theorem LogInv.notMem_of_ready (h : LogInv s) (hs : ServerInv s) {i : ℕ} {w : Worker}
    (hw : s.workers[i]? = some w) (hpc : w.pc = .ready) : w.attr ∉ s.log := by
  intro hmem
  obtain ⟨j, v, hj, hattr, hv⟩ := (h.mem_iff _).1 hmem
  obtain rfl := hs.worker_unique hw hj hattr.symm
  obtain rfl := Option.some.inj (hw.symm.trans hj)
  exact hv hpc

theorem LogInv.work {i : ℕ} (h : LogInv s) (hs : ServerInv s) (hstep : work s i = some s') :
    LogInv s' := by
  obtain ⟨w, pc', hw, hset, worked⟩ := work_cases hstep
  have hlen := (List.getElem?_eq_some_iff.1 hw).1
  have hget : ∀ j v, s'.workers[j]? = some v ↔
      j = i ∧ v = ⟨w.attr, pc'⟩ ∨ j ≠ i ∧ s.workers[j]? = some v := by
    intro j v
    rw [hset, List.getElem?_set]
    by_cases hij : i = j
    · subst hij
      simp [hlen, eq_comm]
    · simp [hij, Ne.symm hij]
  have hready : pc' ≠ .ready := by cases worked <;> simp
  have hlog : ∀ p, p ∈ s'.log ↔ p ∈ s.log ∨ p = w.attr := by
    intro p
    cases worked with
    | execute _ hl _ _ => rw [hl, List.mem_append, List.mem_singleton]
    | store r hpc hl _ _ | reply r hpc hl _ _ =>
      rw [hl, iff_self_or]
      rintro rfl
      exact (h.mem_iff _).2 ⟨i, w, hw, rfl, by simp [hpc]⟩
  refine ⟨?_, fun p => ?_⟩
  · cases worked with
    | execute hpc hl _ _ =>
      rw [hl]
      exact List.nodup_append.2 ⟨h.nodup, List.nodup_singleton _, by
        intro a ha b hb hab
        rw [List.mem_singleton] at hb
        exact h.notMem_of_ready hs hw hpc (hb ▸ hab ▸ ha)⟩
    | store _ _ hl _ _ | reply _ _ hl _ _ => exact hl ▸ h.nodup
  · rw [hlog, h.mem_iff]
    constructor
    · rintro (⟨j, v, hj, hp, hv⟩ | rfl)
      · by_cases hji : j = i
        · subst hji
          obtain rfl := Option.some.inj (hw.symm.trans hj)
          exact ⟨j, _, (hget _ _).2 (Or.inl ⟨rfl, rfl⟩), hp, hready⟩
        · exact ⟨j, v, (hget _ _).2 (Or.inr ⟨hji, hj⟩), hp, hv⟩
      · exact ⟨i, _, (hget _ _).2 (Or.inl ⟨rfl, rfl⟩), rfl, hready⟩
    · rintro ⟨j, v, hj, hp, hv⟩
      rcases (hget _ _).1 hj with ⟨-, rfl⟩ | ⟨-, hj'⟩
      · exact Or.inr hp.symm
      · exact Or.inl ⟨j, v, hj', hp, hv⟩

/-! ## The condition on steps -/

/-- What has to hold, in the state before each event, for completed puts to be applied. -/
def StepOk (y : Sys) : Event → Prop
  -- The sequence number does not overflow.
  | .call _ => y.rpc.seqNumber < INT_MAX
  | .send => True
  -- A datagram that reaches `RPC_put` answers that very call.
  | .deliver d => ∀ c, y.call = some c → c.payload.funcType = 3 → d.seqNumber = c.payload.seqNumber
  -- After a timeout of `RPC_put` the unwritten buffer does not read as an acknowledgement.
  | .timeout buf => ∀ c, y.call = some c → c.payload.funcType = 3 → buf.ack ≠ 1
  -- A retransmitted put reaches the main loop only after its worker has executed it.
  | .serverReceive p =>
    p.funcType = 3 → p.seqNumber = latest y.server p.clientId → p ∈ y.server.log
  | .work _ => True

/-- `p` is a `put` with a key of the store. -/
def IsPut (p : Payload) : Prop := p.funcType = 3 ∧ InStore p.key

/-- Every returned `put` was executed exactly once, and the store holds its value unless this client
has called `put` on the key again. -/
def PutApplied (y : Sys) : Prop :=
  ∀ q ∈ y.returned, IsPut q → y.server.log.count q = 1 ∧
    ((∀ r ∈ y.calls, IsPut r → r.key = q.key → r.seqNumber ≤ q.seqNumber) →
      y.server.datastore q.key = q.value)

/-! ## The invariant -/

/-- The invariant of a client with id `c`, the server and the network under `StepOk`. -/
structure SysInv (c : ℤ) (y : Sys) : Prop where
  server : ServerInv y.server
  log : LogInv y.server
  /-- Calls carry the client's id and numbers below the next one; a number names one call. -/
  id : y.rpc.clientId = c ∧ 1 ≤ y.rpc.seqNumber
  calls : ∀ p ∈ y.calls, p.clientId = c ∧ p.seqNumber < y.rpc.seqNumber
  unique : ∀ p ∈ y.calls, ∀ q ∈ y.calls, p.seqNumber = q.seqNumber → p = q
  /-- The call in progress is the latest one. -/
  current : ∀ cl, y.call = some cl → cl.payload ∈ y.calls ∧
    ∀ p ∈ y.calls, p.seqNumber ≤ cl.payload.seqNumber
  toServer : ∀ p ∈ y.toServer, p ∈ y.calls
  workers : ∀ w ∈ y.server.workers, w.attr ∈ y.calls
  /-- A datagram of the server answers a call, and a put only after its execution. -/
  sent : ∀ d ∈ y.server.sent, ∃ p ∈ y.calls, p.seqNumber = d.seqNumber ∧
    (p.funcType = 3 → p ∈ y.server.log)
  /-- Only the call in progress can be a put that is not executed yet. -/
  done : ∀ p ∈ y.calls, p.funcType = 3 →
    p ∈ y.server.log ∨ ∃ cl, y.call = some cl ∧ cl.payload = p
  returned : ∀ q ∈ y.returned, q ∈ y.calls ∧ (q.funcType = 3 → q ∈ y.server.log)
  /-- The store holds the value of the latest put to a key, once that is executed. -/
  store : ∀ q ∈ y.calls, IsPut q →
    (∀ r ∈ y.calls, IsPut r → r.key = q.key → r.seqNumber ≤ q.seqNumber) →
    q ∈ y.server.log → y.server.datastore q.key = q.value

theorem sysInv_init (junk : ℤ → Payload) (c : ℤ) : SysInv c (Sys.init junk c) where
  server := serverInv_init junk
  log := logInv_init junk
  id := ⟨rfl, le_rfl⟩
  calls _ h := nomatch h
  unique _ h := nomatch h
  current _ h := nomatch h
  toServer _ h := nomatch h
  workers _ h := nomatch h
  sent _ h := nomatch h
  done _ h := nomatch h
  returned _ h := nomatch h
  store _ h := nomatch h

variable {c : ℤ} {y y' : Sys}

theorem SysInv.log_subset (h : SysInv c y) {p : Payload} (hp : p ∈ y.server.log) : p ∈ y.calls := by
  obtain ⟨j, w, hj, rfl, -⟩ := (h.log.mem_iff p).1 hp
  exact h.workers w (List.mem_of_getElem? hj)

theorem SysInv.putApplied (h : SysInv c y) : PutApplied y := by
  intro q hq hput
  obtain ⟨hcalls, hlog⟩ := h.returned q hq
  have hmem := hlog hput.1
  exact ⟨List.count_eq_one_of_mem h.log.nodup hmem, fun hlast => h.store q hcalls hput hlast hmem⟩

/-- The invariant when a call is made. -/
theorem SysInv.call (h : SysInv c y) {req : Request} (hno : y.call = none)
    (hfits : y.rpc.seqNumber < INT_MAX) :
    SysInv c { y with
      call := some ⟨myPayload y.rpc req, 0, false⟩
      calls := y.calls ++ [myPayload y.rpc req]
      rpc := { y.rpc with seqNumber := toInt32 (y.rpc.seqNumber + 1) } } := by
  have hseq : (myPayload y.rpc req).seqNumber = y.rpc.seqNumber := by cases req <;> rfl
  have hid : (myPayload y.rpc req).clientId = y.rpc.clientId := by cases req <;> rfl
  have hnext : toInt32 (y.rpc.seqNumber + 1) = y.rpc.seqNumber + 1 := by
    have := h.id.2
    exact toInt32_eq_self (by omega) (by omega)
  have hmem : ∀ p, p ∈ y.calls ++ [myPayload y.rpc req] ↔ p ∈ y.calls ∨ p = myPayload y.rpc req :=
    fun p => by rw [List.mem_append, List.mem_singleton]
  refine ⟨h.server, h.log, ⟨h.id.1, ?_⟩, ?_, ?_, ?_, ?_, ?_, ?_, ?_, ?_, ?_⟩
  · have := h.id.2
    show 1 ≤ toInt32 (y.rpc.seqNumber + 1)
    omega
  · intro p hp
    show p.clientId = c ∧ p.seqNumber < toInt32 (y.rpc.seqNumber + 1)
    rcases (hmem p).1 hp with hp | rfl
    · have := h.calls p hp
      exact ⟨this.1, by omega⟩
    · exact ⟨hid.trans h.id.1, by omega⟩
  · intro p hp q hq heq
    rcases (hmem p).1 hp with hp | rfl <;> rcases (hmem q).1 hq with hq | rfl
    · exact h.unique p hp q hq heq
    · have := h.calls p hp
      omega
    · have := h.calls q hq
      omega
    · rfl
  · intro cl hcl
    obtain rfl := Option.some.inj hcl
    refine ⟨(hmem _).2 (Or.inr rfl), fun p hp => ?_⟩
    rcases (hmem p).1 hp with hp | rfl
    · have := h.calls p hp
      show p.seqNumber ≤ (myPayload y.rpc req).seqNumber
      omega
    · exact le_rfl
  · exact fun p hp => (hmem p).2 (Or.inl (h.toServer p hp))
  · exact fun w hw => (hmem _).2 (Or.inl (h.workers w hw))
  · intro d hd
    obtain ⟨p, hp, hrest⟩ := h.sent d hd
    exact ⟨p, (hmem p).2 (Or.inl hp), hrest⟩
  · intro p hp hput
    rcases (hmem p).1 hp with hp | rfl
    · rcases h.done p hp hput with hlog | ⟨cl, hcl, -⟩
      · exact Or.inl hlog
      · rw [hno] at hcl
        cases hcl
    · exact Or.inr ⟨_, rfl, rfl⟩
  · intro q hq
    exact ⟨(hmem q).2 (Or.inl (h.returned q hq).1), (h.returned q hq).2⟩
  · intro q hq hput hlast hlog
    exact h.store q (h.log_subset hlog) hput
      (fun r hr => hlast r ((hmem r).2 (Or.inl hr))) hlog

/-- The invariant when a call ends by returning, or moves on in its loop. -/
theorem SysInv.setCall (h : SysInv c y) {cl : Call} (hcl : y.call = some cl) (cl' : Option Call)
    (ret : List Payload) (hcl' : ∀ d, cl' = some d → d.payload = cl.payload)
    (hret : ∀ q ∈ ret, q = cl.payload) (exited : Bool)
    (hlog : cl' = none ∨ ret ≠ [] → cl.payload.funcType = 3 → cl.payload ∈ y.server.log) :
    SysInv c { y with call := cl', returned := y.returned ++ ret, exited := exited } where
  server := h.server
  log := h.log
  id := h.id
  calls := h.calls
  unique := h.unique
  current d hd := by
    rw [hcl' d hd]
    exact h.current cl hcl
  toServer := h.toServer
  workers := h.workers
  sent := h.sent
  done p hp hput := by
    rcases h.done p hp hput with hmem | ⟨d, hd, rfl⟩
    · exact Or.inl hmem
    · obtain rfl := Option.some.inj (hcl.symm.trans hd)
      cases cl' with
      | none => exact Or.inl (hlog (Or.inl rfl) hput)
      | some e => exact Or.inr ⟨e, rfl, hcl' e rfl⟩
  returned q hq := by
    rcases List.mem_append.1 hq with hq | hq
    · exact h.returned q hq
    · obtain rfl := hret q hq
      exact ⟨(h.current cl hcl).1, hlog (Or.inr (List.ne_nil_of_mem hq))⟩
  store := h.store

/-- The invariant after a receive, provided a put that is left has been executed. -/
theorem SysInv.afterReceive (h : SysInv c y) {cl : Call} (hcl : y.call = some cl) (recvLen : ℤ)
    (buf : Payload)
    (hleave : ∀ r, loopBody cl.payload cl.i recvLen buf = .leave r → cl.payload.funcType = 3 →
      cl.payload ∈ y.server.log) :
    SysInv c (afterReceive y cl recvLen buf) := by
  unfold Rpc.afterReceive
  cases hbody : loopBody cl.payload cl.i recvLen buf with
  | leave r =>
    exact h.setCall hcl none [cl.payload] (fun _ hd => nomatch hd) (by simp) y.exited
      fun _ => hleave r hbody
  | again i _ =>
    simp only
    split_ifs with hi hidle
    · have := h.setCall hcl (some { cl with i := i, waiting := false }) []
        (fun d hd => by rw [← Option.some.inj hd]) (by simp) y.exited (by simp)
      simpa using this
    · exact h.setCall hcl none [cl.payload] (fun _ hd => nomatch hd) (by simp) y.exited
        fun _ hput => absurd (hput.symm.trans hidle) (by decide)
    · have := h.setCall hcl y.call [] (fun d hd => by rw [Option.some.inj (hcl.symm.trans hd)])
        (by simp) true (by simp [hcl])
      simpa using this

theorem loopBody_put {payload : Payload} (h : payload.funcType = 3) (i : ℕ) (recvLen : ℤ)
    (buf : Payload) : loopBody payload i recvLen buf = putBody i recvLen buf := by
  simp [loopBody, h]

/-- A timeout ends `RPC_put` only through a buffer that reads as an acknowledgement. -/
theorem putBody_timeout {i : ℕ} {buf : Payload} {r : Option ℤ}
    (h : putBody i (-1) buf = .leave r) : buf.ack = 1 := by
  by_contra hack
  simp [putBody, hack] at h

/-- The server's part of the invariant when its main loop handles a datagram of the client. -/
theorem SysInv.serverReceive (h : SysInv c y) {p : Payload} (hp : p ∈ y.toServer)
    (hearly : p.funcType = 3 → p.seqNumber = latest y.server p.clientId → p ∈ y.server.log)
    (hstep : mainLoop y.server p = some s') : SysInv c { y with server := s' } := by
  obtain ⟨-, handled, -, -, hstore, hlog⟩ := h.server.mainLoop_spec hstep
  have hpcall := h.toServer p hp
  refine ⟨h.server.mainLoop hstep, h.log.mainLoop h.server hstep, h.id, h.calls, h.unique,
    h.current, h.toServer, ?_, ?_, ?_, ?_, ?_⟩
  · cases handled with
    | start _ _ hw _ =>
      intro w hmem
      rcases List.mem_append.1 (hw ▸ hmem) with hmem | hmem
      · exact h.workers w hmem
      · rw [List.mem_singleton.1 hmem]
        exact hpcall
    | acknowledge _ _ hw _ | drop _ _ hw _ => exact fun w hmem => h.workers w (hw ▸ hmem)
  · show ∀ d ∈ s'.sent, ∃ p ∈ y.calls, p.seqNumber = d.seqNumber ∧ (p.funcType = 3 → p ∈ s'.log)
    rw [hlog]
    cases handled with
    | start _ _ _ hsent | drop _ _ _ hsent => exact fun d hd => h.sent d (hsent ▸ hd)
    | acknowledge equal _ _ hsent =>
      intro d hd
      rcases List.mem_append.1 (hsent ▸ hd) with hd | hd
      · exact h.sent d hd
      · rw [List.mem_singleton.1 hd]
        exact ⟨p, hpcall, rfl, fun hput => hearly hput equal⟩
  · show ∀ p ∈ y.calls, p.funcType = 3 → p ∈ s'.log ∨ _
    rw [hlog]
    exact h.done
  · show ∀ q ∈ y.returned, q ∈ y.calls ∧ (q.funcType = 3 → q ∈ s'.log)
    rw [hlog]
    exact h.returned
  · intro q hq hput hlast hmem
    show s'.datastore q.key = q.value
    rw [hstore]
    exact h.store q hq hput hlast (hlog ▸ hmem)

/-- Executing a request changes the store only for a put with a key of the table. -/
theorem execute_datastore_of_ne {datastore : ℤ → ℤ} {attr : Payload} {k : ℤ}
    (h : attr.funcType = 3 → attr.key ≠ k) : (execute datastore attr).2 k = datastore k := by
  unfold execute put
  split_ifs with hget hput hrange
  · rfl
  · rfl
  · exact Function.update_of_ne (h hput).symm _ _
  · rfl

theorem execute_datastore_self {datastore : ℤ → ℤ} {q : Payload} (h : IsPut q) :
    (execute datastore q).2 q.key = q.value := by
  obtain ⟨hput, hlo, hhi⟩ := h
  have hrange : ¬ (q.key > NUMKEYS ∨ q.key < 0) := by omega
  simp [execute, put, hput, hrange]

/-- A put whose worker has not executed is the call in progress, hence the latest call. -/
theorem SysInv.latest_of_ready (h : SysInv c y) {i : ℕ} {w : Worker}
    (hw : y.server.workers[i]? = some w) (hpc : w.pc = .ready) (hput : w.attr.funcType = 3) :
    ∀ p ∈ y.calls, p.seqNumber ≤ w.attr.seqNumber := by
  have hcall := h.workers w (List.mem_of_getElem? hw)
  rcases h.done w.attr hcall hput with hmem | ⟨cl, hcl, hpay⟩
  · exact absurd hmem (h.log.notMem_of_ready h.server hw hpc)
  · rw [← hpay]
    exact (h.current cl hcl).2

/-- The server's part of the invariant when a worker takes a step. -/
theorem SysInv.work (h : SysInv c y) {i : ℕ} (hstep : work y.server i = some s') :
    SysInv c { y with server := s' } := by
  obtain ⟨w, pc', hw, hset, worked⟩ := work_cases hstep
  have hcall := h.workers w (List.mem_of_getElem? hw)
  have hsub : ∀ p, p ∈ y.server.log → p ∈ s'.log := by
    intro p hp
    cases worked with
    | execute _ hl _ _ => exact hl ▸ List.mem_append_left _ hp
    | store _ _ hl _ _ | reply _ _ hl _ _ => exact hl ▸ hp
  refine ⟨h.server.work hstep, h.log.work h.server hstep, h.id, h.calls, h.unique, h.current,
    h.toServer, ?_, ?_, ?_, ?_, ?_⟩
  · intro v hv
    rcases List.mem_or_eq_of_mem_set (hset ▸ hv) with hv | rfl
    · exact h.workers v hv
    · exact hcall
  · intro d hd
    have hold : d ∈ y.server.sent → ∃ p ∈ y.calls, p.seqNumber = d.seqNumber ∧
        (p.funcType = 3 → p ∈ s'.log) := fun hd => by
      obtain ⟨p, hp, hseq, hlog⟩ := h.sent d hd
      exact ⟨p, hp, hseq, fun hput => hsub p (hlog hput)⟩
    cases worked with
    | execute _ _ _ hsent | store _ _ _ _ hsent => exact hold (hsent ▸ hd)
    | reply r hpc hl _ hsent =>
      rcases List.mem_append.1 (hsent ▸ hd) with hd | hd
      · exact hold hd
      · rw [List.mem_singleton.1 hd]
        exact ⟨w.attr, hcall, rfl, fun _ =>
          hsub _ ((h.log.mem_iff _).2 ⟨i, w, hw, rfl, by simp [hpc]⟩)⟩
  · intro p hp hput
    rcases h.done p hp hput with hmem | hcl
    · exact Or.inl (hsub p hmem)
    · exact Or.inr hcl
  · exact fun q hq => ⟨(h.returned q hq).1, fun hput => hsub q ((h.returned q hq).2 hput)⟩
  · intro q hq hput hlast hmem
    show s'.datastore q.key = q.value
    cases worked with
    | store _ _ hl hd _ | reply _ _ hl hd _ =>
      rw [hd]
      exact h.store q hq hput hlast (hl ▸ hmem)
    | execute hpc hl hd _ =>
      rw [hd]
      by_cases hqw : q = w.attr
      · rw [← hqw]
        exact execute_datastore_self hput
      · -- Another put to this key would be the latest call, so `q` would not be.
        rw [execute_datastore_of_ne]
        · rcases List.mem_append.1 (hl ▸ hmem) with hmem | hmem
          · exact h.store q hq hput hlast hmem
          · exact absurd (List.mem_singleton.1 hmem) hqw
        · intro hwput hkey
          have hle := h.latest_of_ready hw hpc hwput q hq
          have hge := hlast w.attr hcall ⟨hwput, hkey ▸ hput.2⟩ hkey
          exact hqw (h.unique q hq w.attr hcall (le_antisymm hle hge))

/-! ## Runs -/

theorem inCall_eq_some {waiting : Bool} {f : Call → Sys} (h : inCall y waiting f = some y') :
    ∃ cl, y.call = some cl ∧ y' = f cl := by
  unfold inCall at h
  cases hcl : y.call with
  | none => simp [hcl] at h
  | some cl =>
    simp only [hcl] at h
    split_ifs at h
    exact ⟨cl, rfl, (Option.some.inj h).symm⟩

theorem SysInv.step (h : SysInv c y) (e : Event) (hok : StepOk y e) (hstep : step y e = some y') :
    SysInv c y' := by
  cases e with
  | call req =>
    simp only [Rpc.step] at hstep
    split_ifs at hstep with hfree
    obtain rfl := Option.some.inj hstep
    exact h.call hfree.2 hok
  | send =>
    obtain ⟨cl, hcl, rfl⟩ := inCall_eq_some hstep
    have := h.setCall hcl (some { cl with waiting := true }) []
      (fun d hd => by rw [← Option.some.inj hd]) (by simp) y.exited (by simp)
    refine ⟨this.server, this.log, this.id, this.calls, this.unique, this.current, ?_,
      this.workers, this.sent, this.done, by simpa using this.returned, this.store⟩
    intro p hp
    rcases List.mem_append.1 hp with hp | hp
    · exact h.toServer p hp
    · rw [List.mem_singleton.1 hp]
      exact (h.current cl hcl).1
  | deliver d =>
    simp only [Rpc.step] at hstep
    split_ifs at hstep with hd
    obtain ⟨cl, hcl, rfl⟩ := inCall_eq_some hstep
    refine h.afterReceive hcl 32 d fun r _ hput => ?_
    obtain ⟨p, hp, hseq, hlog⟩ := h.sent d hd
    obtain rfl : p = cl.payload :=
      h.unique p hp _ (h.current cl hcl).1 (hseq.trans (hok cl hcl hput))
    exact hlog hput
  | timeout buf =>
    obtain ⟨cl, hcl, rfl⟩ := inCall_eq_some hstep
    refine h.afterReceive hcl (-1) buf fun r hleave hput => ?_
    rw [loopBody_put hput] at hleave
    exact absurd (putBody_timeout hleave) (hok cl hcl hput)
  | serverReceive p =>
    simp only [Rpc.step] at hstep
    split_ifs at hstep with hp
    obtain ⟨s', hs', rfl⟩ := Option.map_eq_some_iff.1 hstep
    exact h.serverReceive hp hok hs'
  | work i =>
    obtain ⟨s', hs', rfl⟩ := Option.map_eq_some_iff.1 hstep
    exact h.work hs'

/-- In every run of a client, the server and the network whose events all meet `StepOk`, every `put`
that has returned was executed exactly once, and the store holds the value of the latest one. -/
theorem putApplied_of_stepOk (junk : ℤ → Payload) (c : ℤ) (es : List Event) (y : Sys)
    (hok : Trace.Along step StepOk (Sys.init junk c) es)
    (reached : Trace.run step (Sys.init junk c) es = some y) : PutApplied y :=
  (Trace.run_invariant (fun _ e _ h hok hstep => h.step e hok hstep) (sysInv_init junk c) hok
    reached).putApplied

/-! ## Two runs of one put -/

/-- The worker runs and its reply is delivered. -/
def promptReply : List Event :=
  [.call (.put 5 9), .send, .serverReceive putFive, .work 0, .work 0, .work 0,
    .deliver { putFive with returnValue := 0 }]

theorem promptReply_stepOk : Trace.Along step StepOk (Sys.init zeros 7) promptReply := by
  refine Trace.along_cons_of_eq (show (1 : ℤ) < INT_MAX by decide) rfl ?_
  refine Trace.along_cons_of_eq trivial rfl ?_
  refine Trace.along_cons_of_eq (fun _ h => absurd h (by decide)) rfl ?_
  refine Trace.along_cons_of_eq trivial rfl ?_
  refine Trace.along_cons_of_eq trivial rfl ?_
  refine Trace.along_cons_of_eq trivial rfl ?_
  refine Trace.along_cons_of_eq ?_ rfl trivial
  intro cl hcl _
  rw [← Option.some.inj hcl]
  rfl

theorem putApplied_promptReply :
    ∃ y, Trace.run step (Sys.init zeros 7) promptReply = some y ∧ PutApplied y ∧
      y.returned = [putFive] :=
  ⟨_, rfl, putApplied_of_stepOk zeros 7 promptReply _ promptReply_stepOk rfl, rfl⟩

/-- The worker is slow: the call times out once, and the acknowledgement of the retransmission is
delivered before the worker has run. -/
def earlyAck : List Event :=
  [.call (.put 5 9), .send, .serverReceive putFive, .timeout (zeros 0), .send,
    .serverReceive putFive, .deliver { putFive with ack := 1 }]

/-- In `earlyAck` the put returns although no worker has executed it. -/
theorem not_putApplied_earlyAck :
    ∃ y, Trace.run step (Sys.init zeros 7) earlyAck = some y ∧ ¬ PutApplied y := by
  refine ⟨_, rfl, fun h => ?_⟩
  have hcount := (h putFive (by decide) ⟨rfl, by decide, by decide⟩).1
  exact absurd hcount (by decide)

end SystemsProjects.Rpc
