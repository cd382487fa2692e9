import SystemsProjects.Rpc.Client
import SystemsProjects.Rpc.Replies

/-!
# When the direct reply is lost

A request is sent again until a reply arrives, and once its worker has finished only the main loop
answers it: with `ack` 1 and the contents of the client's `returnValue` cell.  `RPC_idle` takes no such
answer for a reply, and `RPC_get` does not take one with -1.  `Recorded` is the server with the value
that each worker has computed and the worker that wrote the cell of each client last;
`recoverable_iff` says which lost replies can be recovered.
-/

namespace SystemsProjects.Rpc

/-! ## The server with the writers of its cells -/

structure Recorded where
  server : Server
  /-- `retVal` of the worker at each position, once it has executed. -/
  retVal : ℕ → ℤ
  /-- The position of the worker that has written the `returnValue` of a client last. -/
  writer : ℤ → Option ℕ

def Recorded.init (junk : ℤ → Payload) : Recorded where
  server := Server.init junk
  retVal _ := 0
  writer _ := none

def Recorded.nextRetVal (t : Recorded) : ServerEvent → ℕ → ℤ
  | .receive _ => t.retVal
  | .work i =>
    match t.server.workers[i]? with
    | some ⟨attr, .ready⟩ => Function.update t.retVal i (execute t.server.datastore attr).1
    | _ => t.retVal

def Recorded.nextWriter (t : Recorded) : ServerEvent → ℤ → Option ℕ
  | .receive _ => t.writer
  | .work i =>
    match t.server.workers[i]? with
    | some ⟨attr, .executed _⟩ =>
      if attr.funcType = 2 then Function.update t.writer attr.clientId (some i) else t.writer
    | _ => t.writer

def record (t : Recorded) (e : ServerEvent) : Option Recorded :=
  (serverStep t.server e).map fun s => ⟨s, t.nextRetVal e, t.nextWriter e⟩

/-! ## The property -/

/-- The server's answer to a retransmission of the request of worker `i` makes the call return, wherever
its retry loop stands; a get returns the value that the worker has computed. -/
def Recoverable (t : Recorded) (i : ℕ) (rpc : RpcConnection) (req : Request) : Prop :=
  ∃ s' d, mainLoop t.server (myPayload rpc req) = some s' ∧ s'.sent = t.server.sent ++ [d] ∧
    ∀ n, ∃ ret, loopBody (myPayload rpc req) n 32 d = .leave ret ∧
      ((myPayload rpc req).funcType = 2 → ret = some (t.retVal i))

/-- The request is a put, or a get whose result is not -1 and is the one that was written last. -/
def Answerable (t : Recorded) (i : ℕ) (rpc : RpcConnection) : Request → Prop
  | .idle _ => False
  | .get _ _ => t.retVal i ≠ -1 ∧ ∃ j, t.writer rpc.clientId = some j ∧ t.retVal j = t.retVal i
  | .put _ _ => True

/-! ## The invariant -/

structure RecordInv (s : Server) (retVal : ℕ → ℤ) (writer : ℤ → Option ℕ) : Prop where
  server : ServerInv s
  executed : ∀ (i : ℕ) attr r, s.workers[i]? = some ⟨attr, .executed r⟩ → r = retVal i
  /-- The cell holds what its last writer has computed. -/
  cell : ∀ c j, writer c = some j → InTable c ∧ (s.payloadTable c).clientId = c ∧
    (s.payloadTable c).returnValue = retVal j
  done : ∀ c j, writer c = some j → ∃ w, s.workers[j]? = some w ∧ w.pc ≠ .ready
  wrote : ∀ (i : ℕ) w, s.workers[i]? = some w → w.attr.funcType = 2 → w.pc.hasStored = true →
    ∃ j, writer w.attr.clientId = some j

theorem recordInv_init (junk : ℤ → Payload) (retVal : ℕ → ℤ) :
    RecordInv (Server.init junk) retVal fun _ => none where
  server := serverInv_init junk
  executed _ _ _ h := by simp [Server.init] at h
  cell _ _ h := nomatch h
  done _ _ h := nomatch h
  wrote _ _ h := by simp [Server.init] at h

variable {s s' : Server} {retVal : ℕ → ℤ} {writer : ℤ → Option ℕ} {attr : Payload} {i j : ℕ} {w : Worker} {r : ℤ}

/-- A packet leaves the workers that are there, and a new one is ready. -/
theorem ServerInv.mainLoop_workers (h : ServerInv s) (hstep : Rpc.mainLoop s attr = some s') (j : ℕ) (w : Worker)
    (hw : w.pc ≠ .ready) : s'.workers[j]? = some w ↔ s.workers[j]? = some w := by
  obtain ⟨-, handled, -⟩ := h.mainLoop_spec hstep
  cases handled with
  | acknowledge _ _ hsame _ => rw [hsame]
  | drop _ _ hsame _ => rw [hsame]
  | start _ _ hnew _ =>
    rw [hnew]
    by_cases hlt : j < s.workers.length
    · rw [List.getElem?_append_left hlt]
    · have hnone : s.workers[j]? = none := List.getElem?_eq_none (by omega)
      rw [List.getElem?_append_right (by omega), hnone, List.getElem?_singleton]
      refine iff_of_false (fun hx => hw ?_) (by simp)
      split_ifs at hx
      rw [← Option.some.inj hx]

theorem RecordInv.receive (h : RecordInv s retVal writer) (hstep : mainLoop s attr = some s') :
    RecordInv s' retVal writer := by
  have hworkers := h.server.mainLoop_workers hstep
  refine ⟨h.server.mainLoop hstep, fun i attr r hi => ?_, fun c j hj => ?_, fun c j hj => ?_,
    fun i w hi hget hstored => ?_⟩
  · exact h.executed i attr r ((hworkers i _ (by simp)).1 hi)
  · obtain ⟨hc, hused, hcell⟩ := h.cell c j hj
    obtain ⟨-, -, hid, hother, -, -⟩ := h.server.mainLoop_spec hstep
    refine ⟨hc, ?_, by rw [← hcell, h.server.mainLoop_returnValue hstep hc hused]⟩
    by_cases hca : c = attr.clientId
    · rw [hca, hid]
    · rw [hother c hca, hused]
  · obtain ⟨w, hw, hpc⟩ := h.done c j hj
    exact ⟨w, (hworkers j w hpc).2 hw, hpc⟩
  · refine h.wrote i w ((hworkers i w ?_).1 hi) hget hstored
    intro hready
    rw [hready] at hstored
    cases hstored

/-! ### The steps of a worker -/

/-- The workers after a step of the one at position `i`. -/
theorem getElem?_set_worker {l : List Worker} (hw : l[i]? = some w) (w' v : Worker) :
    (l.set i w')[j]? = some v ↔ if j = i then v = w' else l[j]? = some v := by
  by_cases hji : j = i
  · subst hji
    rw [List.getElem?_set_self (List.getElem?_eq_some_iff.1 hw).1, if_pos rfl, Option.some.injEq, eq_comm]
  · rw [List.getElem?_set_ne (Ne.symm hji), if_neg hji]

/-- A worker that is past the operation stays so. -/
theorem RecordInv.done_set (h : RecordInv s retVal writer) (hw : s.workers[i]? = some w) {w' : Worker}
    (hpc : w'.pc ≠ .ready) {c : ℤ} (hj : writer c = some j) :
    ∃ v, (s.workers.set i w')[j]? = some v ∧ v.pc ≠ .ready := by
  by_cases hji : j = i
  · exact ⟨w', by rw [getElem?_set_worker hw, if_pos hji], hpc⟩
  · obtain ⟨v, hv, hpcv⟩ := h.done c j hj
    exact ⟨v, by rw [getElem?_set_worker hw, if_neg hji, hv], hpcv⟩

/-- The operation is executed. -/
theorem RecordInv.execute (h : RecordInv s retVal writer) (hw : s.workers[i]? = some ⟨attr, .ready⟩)
    (hstep : work s i = some s') :
    RecordInv s' (Function.update retVal i (Rpc.execute s.datastore attr).1) writer := by
  have hserver := h.server.work hstep
  obtain rfl : _ = s' := by simpa [work, hw, workStep] using hstep
  -- the worker has not written a cell
  have hne : ∀ c j, writer c = some j → j ≠ i := by
    rintro c j hj rfl
    obtain ⟨v, hv, hpc⟩ := h.done c j hj
    rw [hw] at hv
    exact hpc (by rw [← Option.some.inj hv])
  refine ⟨hserver, fun j a r hj => ?_, fun c j hj => ?_, fun c j hj => ?_, fun j v hj hget hstored => ?_⟩
  · rw [getElem?_set_worker hw] at hj
    by_cases hji : j = i
    · rw [if_pos hji] at hj
      rw [hji, Function.update_self]
      exact WorkerPc.executed.inj (congrArg Worker.pc hj)
    · rw [if_neg hji] at hj
      rw [Function.update_of_ne hji]
      exact h.executed j a r hj
  · rw [Function.update_of_ne (hne c j hj)]
    exact h.cell c j hj
  · exact h.done_set hw (by simp) hj
  · rw [getElem?_set_worker hw] at hj
    split_ifs at hj
    · rw [hj] at hstored
      cases hstored
    · exact h.wrote j v hj hget hstored

/-- The value of a get is written to the cell. -/
theorem RecordInv.store (h : RecordInv s retVal writer) (hw : s.workers[i]? = some ⟨attr, .executed r⟩)
    (hstep : work s i = some s') : RecordInv s' retVal
      (if attr.funcType = 2 then Function.update writer attr.clientId (some i) else writer) := by
  have hserver := h.server.work hstep
  obtain ⟨hc, hused⟩ := h.server.started _ (List.mem_of_getElem? hw)
  have hr := h.executed i attr r hw
  obtain rfl : _ = s' := by simpa [work, hw, workStep] using hstep
  refine ⟨hserver, fun j a r' hj => ?_, fun c j hj => ?_, fun c j hj => ?_, fun j v hj hget hstored => ?_⟩
  · rw [getElem?_set_worker hw] at hj
    split_ifs at hj
    · exact absurd (congrArg Worker.pc hj) (by simp)
    · exact h.executed j a r' hj
  · by_cases hget : attr.funcType = 2
    · rw [if_pos hget] at hj ⊢
      by_cases hca : c = attr.clientId
      · subst hca
        rw [Function.update_self] at hj
        simp only [Function.update_self]
        rw [← Option.some.inj hj]
        exact ⟨hc, hused, hr⟩
      · rw [Function.update_of_ne hca] at hj
        simp only [Function.update_of_ne hca]
        exact h.cell c j hj
    · rw [if_neg hget] at hj ⊢
      exact h.cell c j hj
  · by_cases hji : j = i
    · exact ⟨_, by rw [getElem?_set_worker hw, if_pos hji], by simp⟩
    · refine h.done_set hw (by simp) (c := c) ?_
      split_ifs at hj
      · by_cases hca : c = attr.clientId
        · rw [hca, Function.update_self] at hj
          exact absurd (Option.some.inj hj).symm hji
        · rwa [Function.update_of_ne hca] at hj
      · exact hj
  · rw [getElem?_set_worker hw] at hj
    have hwriter : ∀ c, (∃ j, writer c = some j) ∨ attr.funcType = 2 ∧ c = attr.clientId →
        ∃ j, (if attr.funcType = 2 then Function.update writer attr.clientId (some i) else writer) c = some j := by
      intro c hx
      by_cases hca : attr.funcType = 2 ∧ c = attr.clientId
      · exact ⟨i, by rw [if_pos hca.1, hca.2, Function.update_self]⟩
      · obtain ⟨j, hj⟩ := hx.resolve_right hca
        refine ⟨j, ?_⟩
        split_ifs with hget
        · rw [Function.update_of_ne fun hx => hca ⟨hget, hx⟩, hj]
        · exact hj
    apply hwriter
    split_ifs at hj
    · rw [hj] at hget ⊢
      exact Or.inr ⟨hget, rfl⟩
    · exact Or.inl (h.wrote j v hj hget hstored)

/-- The worker sends its reply. -/
theorem RecordInv.reply (h : RecordInv s retVal writer) (hw : s.workers[i]? = some ⟨attr, .stored r⟩)
    (hstep : work s i = some s') : RecordInv s' retVal writer := by
  have hserver := h.server.work hstep
  obtain rfl : _ = s' := by simpa [work, hw, workStep] using hstep
  refine ⟨hserver, fun j a r' hj => ?_, h.cell, fun c j hj => h.done_set hw (by simp) hj,
    fun j v hj hget hstored => ?_⟩
  · rw [getElem?_set_worker hw] at hj
    split_ifs at hj
    · exact absurd (congrArg Worker.pc hj) (by simp)
    · exact h.executed j a r' hj
  · rw [getElem?_set_worker hw] at hj
    split_ifs at hj
    · rw [hj] at hget ⊢
      exact h.wrote i ⟨attr, .stored r⟩ hw hget rfl
    · exact h.wrote j v hj hget hstored

theorem RecordInv.work (h : RecordInv s retVal writer) (hstep : Rpc.work s i = some s') :
    RecordInv s' (Recorded.nextRetVal ⟨s, retVal, writer⟩ (.work i)) (Recorded.nextWriter ⟨s, retVal, writer⟩ (.work i)) := by
  obtain ⟨⟨attr, pc⟩, hw, -⟩ := Option.bind_eq_some_iff.1 hstep
  simp only [Recorded.nextRetVal, Recorded.nextWriter, hw]
  cases pc with
  | ready => exact h.execute hw hstep
  | executed r => exact h.store hw hstep
  | stored r => exact h.reply hw hstep
  | replied => simp [Rpc.work, hw, workStep] at hstep

/-! ## Runs -/

theorem recordInv_run {junk : ℤ → Payload} {es : List ServerEvent} {t : Recorded}
    (hrun : Trace.run record (Recorded.init junk) es = some t) : RecordInv t.server t.retVal t.writer := by
  refine Trace.run_invariant (P := fun _ _ => True) (I := fun t => RecordInv t.server t.retVal t.writer) ?_
    (recordInv_init junk _) (Trace.along_of_forall _ (fun _ _ => trivial) _ _) hrun
  intro t e t' h _ hstep
  obtain ⟨s', hs', rfl⟩ := Option.map_eq_some_iff.1 hstep
  cases e with
  | receive attr => exact h.receive hs'
  | work i => exact h.work hs'

/-- The answer to a retransmission is an acknowledgement with the contents of the cell. -/
theorem ServerInv.retransmit (h : ServerInv s) (hw : w ∈ s.workers) (hlatest : latest s w.attr.clientId = w.attr.seqNumber) :
    ∃ s', Rpc.mainLoop s w.attr = some s' ∧ s'.sent = s.sent ++
      [{ w.attr with ack := 1, returnValue := (s.payloadTable w.attr.clientId).returnValue }] := by
  obtain ⟨hc, hused⟩ := h.started w hw
  obtain ⟨s', hs'⟩ := mainLoop_isSome s hc
  obtain ⟨-, handled, -⟩ := h.mainLoop_spec hs'
  refine ⟨s', hs', ?_⟩
  cases handled with
  | start newer _ _ _ => omega
  | drop older _ _ _ => omega
  | acknowledge _ _ _ hsent => rw [hsent, h.contact_eq _ hc hused]

/-- Where the worker has finished and its number is the latest of its client, the loss of its reply can
be recovered from exactly for a put, and for a get whose result is not -1 and equals the one that was
written last to the cell of the client. -/
theorem recoverable_iff {junk : ℤ → Payload} {es : List ServerEvent} {t : Recorded}
    (hrun : Trace.run record (Recorded.init junk) es = some t) {rpc : RpcConnection} {req : Request}
    (hw : t.server.workers[i]? = some ⟨myPayload rpc req, .replied⟩)
    (hlatest : latest t.server rpc.clientId = rpc.seqNumber) :
    Recoverable t i rpc req ↔ Answerable t i rpc req := by
  have h := recordInv_run hrun
  have hid : (myPayload rpc req).clientId = rpc.clientId := by cases req <;> rfl
  have hseq : (myPayload rpc req).seqNumber = rpc.seqNumber := by cases req <;> rfl
  obtain ⟨s', hs', hsent⟩ := h.server.retransmit (List.mem_of_getElem? hw) (by rw [hid, hseq, hlatest])
  have hreply : Recoverable t i rpc req ↔ ∀ n, ∃ ret, loopBody (myPayload rpc req) n 32
      { myPayload rpc req with ack := 1, returnValue := (t.server.payloadTable rpc.clientId).returnValue } = .leave ret ∧
      ((myPayload rpc req).funcType = 2 → ret = some (t.retVal i)) := by
    rw [hid] at hsent
    constructor
    · rintro ⟨s₁, d, hs₁, hd, hret⟩
      obtain rfl := Option.some.inj (hs'.symm.trans hs₁)
      rw [hsent] at hd
      rwa [← List.singleton_inj.1 (List.append_cancel_left hd)] at hret
    · exact fun hret => ⟨s', _, hs', hsent, hret⟩
  rw [hreply]
  cases req with
  | idle time => simp [loopBody, myPayload, idleBody, Answerable]
  | put key value => simp [loopBody, myPayload, putBody, Answerable]
  | get key junk =>
    obtain ⟨j, hj⟩ := h.wrote i _ hw rfl rfl
    obtain ⟨-, -, hcell⟩ := h.cell _ j hj
    have hj' : t.writer rpc.clientId = some j := hj
    have hcell' : (t.server.payloadTable rpc.clientId).returnValue = t.retVal j := hcell
    rw [hcell']
    by_cases hret : t.retVal j = -1
    · refine iff_of_false (fun hx => ?_) fun hx => ?_
      · obtain ⟨ret, hleave, -⟩ := hx 0
        simp [loopBody, myPayload, getBody, hret] at hleave
      · obtain ⟨hne, j', hj₂, hsame⟩ := hx
        rw [hj'] at hj₂
        rw [← hsame, ← Option.some.inj hj₂] at hne
        exact hne hret
    · have hleave : ∀ n, loopBody (myPayload rpc (.get key junk)) n 32
          { myPayload rpc (.get key junk) with ack := 1, returnValue := t.retVal j } = .leave (some (t.retVal j)) := by
        intro n
        simp [loopBody, myPayload, getBody, hret]
      constructor
      · intro hx
        obtain ⟨ret, hn, hvalue⟩ := hx 0
        rw [hleave 0] at hn
        have hsame : t.retVal j = t.retVal i := by
          rw [← Verdict.leave.inj hn] at hvalue
          exact Option.some.inj (hvalue rfl)
        exact ⟨by rwa [← hsame], j, hj', hsame⟩
      · rintro ⟨-, j', hj₂, hsame⟩ n
        rw [hj'] at hj₂
        obtain rfl := Option.some.inj hj₂
        exact ⟨_, hleave n, fun _ => by rw [hsame]⟩

theorem recoverable_getAnswered :
    ∃ t, Trace.run record (Recorded.init zeros) answered = some t ∧
      Recoverable t 1 ⟨2, 7⟩ (.get 5 0) := by
  obtain ⟨t, hrun, hw, hlatest, hanswer⟩ :
      ∃ t, Trace.run record (Recorded.init zeros) answered = some t ∧
        t.server.workers[1]? = some ⟨myPayload ⟨2, 7⟩ (.get 5 0), .replied⟩ ∧ latest t.server 7 = 2 ∧
        Answerable t 1 ⟨2, 7⟩ (.get 5 0) := ⟨_, rfl, rfl, rfl, by decide, 1, rfl, rfl⟩
  exact ⟨t, hrun, (recoverable_iff hrun hw hlatest).2 hanswer⟩

/-- Client 7 calls `RPC_idle`, and the reply of the finished worker is lost. -/
theorem not_recoverable_idle :
    ∃ t, Trace.run record (Recorded.init zeros)
        [.receive ⟨1, 7, 1, 2, -1, -1, 0, -1⟩, .work 0, .work 0, .work 0] = some t ∧
      t.server.workers[0]? = some ⟨myPayload ⟨1, 7⟩ (.idle 2), .replied⟩ ∧ latest t.server 7 = 1 ∧
      ¬ Recoverable t 0 ⟨1, 7⟩ (.idle 2) := by
  refine ⟨_, rfl, rfl, rfl, ?_⟩
  rintro ⟨s', d, hs', hd, hret⟩
  obtain rfl := Option.some.inj hs'
  rw [← List.singleton_inj.1 (List.append_cancel_left hd)] at hret
  obtain ⟨ret, hn, -⟩ := hret 0
  revert hn
  simp [loopBody, myPayload, idleBody]

end SystemsProjects.Rpc
