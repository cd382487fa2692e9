import SystemsProjects.Rpc.Put

/-!
# What a connection can rely on

Two things a connection expects of the protocol.  A call should end on the reply to its own request;
but the retry loops never look at the number of the datagram they read, so a late reply of an earlier
call ends the next one (`ownReplies_iff`).  The first request of a new connection should be served; but
the server keeps the record of every client id for ever, so a connection that draws the id of an earlier
one is acknowledged or dropped (`served_iff`).
-/

namespace SystemsProjects.Rpc

/-! ## Replies that end a call -/

/-- A call that returned because of a datagram it received. -/
structure Ended where
  payload : Payload
  datagram : Payload
  ret : Option ℤ
  deriving DecidableEq

/-- What the call `c` returns on the datagram `d`, if it returns on it. -/
def returnsOn (c : Call) (d : Payload) : Option (Option ℤ) :=
  match loopBody c.payload c.i 32 d with
  | .leave ret => some ret
  | .again i _ => if RETRY_COUNT ≤ i ∧ c.payload.funcType = 1 then some none else none

/-- The call that an event ends with a datagram. -/
def endedBy (y : Sys) : Event → List Ended
  | .deliver d =>
    y.call.toList.flatMap fun c => (returnsOn c d).toList.map fun ret => ⟨c.payload, d, ret⟩
  | _ => []

/-- A client, the server and the network, with the calls that have ended on a datagram. -/
structure Session where
  sys : Sys
  ended : List Ended

def Session.init (junk : ℤ → Payload) (clientId : ℤ) : Session where
  sys := Sys.init junk clientId
  ended := []

def sessionStep (x : Session) (e : Event) : Option Session :=
  (step x.sys e).map fun y => ⟨y, x.ended ++ endedBy x.sys e⟩

/-- The call ended on a reply to its own request, and returned the value in it. -/
def Ended.Own (x : Ended) : Prop :=
  x.datagram.seqNumber = x.payload.seqNumber ∧
    (x.payload.funcType = 2 ∨ x.payload.funcType = 3 → x.ret = some x.datagram.returnValue)

/-- Every call that returned because of a datagram returned on a reply to its own request. -/
def OwnReplies (x : Session) : Prop := ∀ e ∈ x.ended, e.Own

/-- The loop of the call that sends `p` takes the datagram `d` for its reply. -/
def TakenFor (p d : Payload) : Prop :=
  d.ack = 0 ∨ d.ack = 1 ∧ (p.funcType = 2 ∧ d.returnValue ≠ -1 ∨ p.funcType = 3)

/-- No datagram of another call that a waiting call would take for its reply is delivered to it. -/
def DeliverOk (y : Sys) : Event → Prop
  | .deliver d => ∀ c, y.call = some c → TakenFor c.payload d → d.seqNumber = c.payload.seqNumber
  | _ => True

/-- The datagrams of the server are replies or acknowledgements, and a call is one of the three. -/
structure SessionInv (y : Sys) : Prop where
  server : ServerInv y.server
  acks : ∀ d ∈ y.server.sent, d.ack = 0 ∨ d.ack = 1
  kinds : ∀ c, y.call = some c →
    c.payload.funcType = 1 ∨ c.payload.funcType = 2 ∨ c.payload.funcType = 3

theorem sessionInv_init (junk : ℤ → Payload) (clientId : ℤ) : SessionInv (Sys.init junk clientId) where
  server := serverInv_init junk
  acks _ h := nomatch h
  kinds _ h := nomatch h

variable {s s' : Server} {y y' : Sys}

theorem mainLoop_acks {attr : Payload} (hinv : ServerInv s) (hacks : ∀ d ∈ s.sent, d.ack = 0 ∨ d.ack = 1)
    (hstep : mainLoop s attr = some s') : ∀ d ∈ s'.sent, d.ack = 0 ∨ d.ack = 1 := by
  obtain ⟨-, handled, -, -, -, -⟩ := hinv.mainLoop_spec hstep
  intro d hd
  cases handled with
  | start _ _ _ hsent | drop _ _ _ hsent => exact hacks d (hsent ▸ hd)
  | acknowledge _ _ _ hsent =>
    rcases List.mem_append.1 (hsent ▸ hd) with hd | hd
    · exact hacks d hd
    · exact Or.inr (by rw [List.mem_singleton.1 hd])

theorem work_acks {i : ℕ} (hacks : ∀ d ∈ s.sent, d.ack = 0 ∨ d.ack = 1)
    (hstep : work s i = some s') : ∀ d ∈ s'.sent, d.ack = 0 ∨ d.ack = 1 := by
  obtain ⟨w, pc', -, -, worked⟩ := work_cases hstep
  intro d hd
  cases worked with
  | execute _ _ _ hsent | store _ _ _ _ hsent => exact hacks d (hsent ▸ hd)
  | reply _ _ _ _ hsent =>
    rcases List.mem_append.1 (hsent ▸ hd) with hd | hd
    · exact hacks d hd
    · exact Or.inl (by rw [List.mem_singleton.1 hd])

/-- A call that has received is over or goes on with the same payload. -/
theorem afterReceive_cases (y : Sys) (c : Call) (recvLen : ℤ) (buf : Payload) :
    (afterReceive y c recvLen buf).server = y.server ∧
      ((afterReceive y c recvLen buf).call = none ∨ (afterReceive y c recvLen buf).call = y.call ∨
        ∃ i, (afterReceive y c recvLen buf).call = some { c with i := i, waiting := false }) := by
  unfold afterReceive
  cases loopBody c.payload c.i recvLen buf with
  | leave ret => exact ⟨rfl, Or.inl rfl⟩
  | again i _ =>
    simp only
    split_ifs
    · exact ⟨rfl, Or.inr (Or.inr ⟨i, rfl⟩)⟩
    · exact ⟨rfl, Or.inl rfl⟩
    · exact ⟨rfl, Or.inr (Or.inl rfl)⟩

theorem SessionInv.afterReceive (h : SessionInv y) {c : Call} (hc : y.call = some c) (recvLen : ℤ)
    (buf : Payload) : SessionInv (Rpc.afterReceive y c recvLen buf) := by
  obtain ⟨hserver, hcall⟩ := afterReceive_cases y c recvLen buf
  refine ⟨hserver ▸ h.server, hserver ▸ h.acks, fun c' hc' => ?_⟩
  rcases hcall with hnone | hsame | ⟨i, hnext⟩
  · rw [hnone] at hc'
    cases hc'
  · exact h.kinds c' (hsame ▸ hc')
  · obtain rfl := Option.some.inj (hnext.symm.trans hc')
    exact h.kinds c hc

theorem SessionInv.step {e : Event} (h : SessionInv y) (hstep : step y e = some y') :
    SessionInv y' := by
  cases e with
  | call req =>
    simp only [Rpc.step] at hstep
    split_ifs at hstep
    obtain rfl := Option.some.inj hstep
    refine ⟨h.server, h.acks, fun c hc => ?_⟩
    obtain rfl := Option.some.inj hc
    cases req <;> simp [myPayload]
  | send =>
    obtain ⟨c, hc, rfl⟩ := inCall_eq_some hstep
    refine ⟨h.server, h.acks, fun c' hc' => ?_⟩
    obtain rfl := Option.some.inj hc'
    exact h.kinds c hc
  | deliver d =>
    simp only [Rpc.step] at hstep
    split_ifs at hstep
    obtain ⟨c, hc, rfl⟩ := inCall_eq_some hstep
    exact h.afterReceive hc 32 d
  | timeout buf =>
    obtain ⟨c, hc, rfl⟩ := inCall_eq_some hstep
    exact h.afterReceive hc (-1) buf
  | serverReceive p =>
    simp only [Rpc.step] at hstep
    split_ifs at hstep
    obtain ⟨s', hs', rfl⟩ := Option.map_eq_some_iff.1 hstep
    exact ⟨h.server.mainLoop hs', mainLoop_acks h.server h.acks hs', h.kinds⟩
  | work i =>
    obtain ⟨s', hs', rfl⟩ := Option.map_eq_some_iff.1 hstep
    exact ⟨h.server.work hs', work_acks h.acks hs', h.kinds⟩

/-- A call returns on a datagram of the server exactly when its loop takes it for the reply. -/
theorem returnsOn_eq_none_iff {c : Call} {d : Payload} (hack : d.ack = 0 ∨ d.ack = 1)
    (hkind : c.payload.funcType = 1 ∨ c.payload.funcType = 2 ∨ c.payload.funcType = 3) :
    returnsOn c d = none ↔ ¬ TakenFor c.payload d := by
  rcases hack with hack | hack <;> rcases hkind with hkind | hkind | hkind <;>
    simp [returnsOn, loopBody, idleBody, getBody, putBody, RETRY_COUNT, TakenFor, hack, hkind]
  split_ifs <;> simp_all

/-- `RPC_get` and `RPC_put` return the value in the datagram they return on. -/
theorem returnsOn_value {c : Call} {d : Payload} {ret : Option ℤ} (h : returnsOn c d = some ret)
    (hkind : c.payload.funcType = 2 ∨ c.payload.funcType = 3) : ret = some d.returnValue := by
  rcases hkind with hkind | hkind
  · simp only [returnsOn, loopBody, hkind, getBody] at h
    split_ifs at h <;> simp_all
  · simp only [returnsOn, loopBody, hkind, putBody] at h
    split_ifs at h <;> simp_all

/-- One event keeps the property exactly when it meets `DeliverOk`. -/
theorem ownReplies_step {x x' : Session} {e : Event} (h : SessionInv x.sys)
    (hstep : sessionStep x e = some x') : OwnReplies x' ↔ OwnReplies x ∧ DeliverOk x.sys e := by
  obtain ⟨y', hy', rfl⟩ := Option.map_eq_some_iff.1 hstep
  show (∀ z ∈ x.ended ++ endedBy x.sys e, z.Own) ↔ (∀ z ∈ x.ended, z.Own) ∧ DeliverOk x.sys e
  rw [List.forall_mem_append]
  refine and_congr_right fun _ => ?_
  cases e with
  | call _ | send | timeout _ | serverReceive _ | work _ => simp [endedBy, DeliverOk]
  | deliver d =>
    simp only [Rpc.step] at hy'
    split_ifs at hy' with hd
    obtain ⟨c, hc, -⟩ := inCall_eq_some hy'
    have hnone := returnsOn_eq_none_iff (h.acks d hd) (h.kinds c hc)
    simp only [endedBy, DeliverOk, hc, Option.toList_some, List.flatMap_singleton, Option.some.injEq,
      forall_eq']
    cases hret : returnsOn c d with
    | none => simp [hnone.1 hret]
    | some ret =>
      have htaken : TakenFor c.payload d := by
        by_contra hnot
        rw [hnone.2 hnot] at hret
        cases hret
      simp only [Option.toList_some, List.map_cons, List.map_nil, List.forall_mem_singleton, htaken,
        true_imp_iff]
      exact and_iff_left fun hkind => returnsOn_value hret hkind

/-- For every run of a client, the server and the network: every call that returned because of a
datagram returned on a reply to its own request, with the value in it, if and only if no reply of
another call that a waiting call takes for its own was delivered to it. -/
theorem ownReplies_iff (junk : ℤ → Payload) (clientId : ℤ) (es : List Event) (x : Session)
    (reached : Trace.run sessionStep (Session.init junk clientId) es = some x) :
    OwnReplies x ↔
      Trace.Along sessionStep (fun x e => DeliverOk x.sys e) (Session.init junk clientId) es := by
  have hiff := Trace.run_iff_along (I := fun x : Session => SessionInv x.sys) (Q := OwnReplies)
    (P := fun x e => DeliverOk x.sys e) (fun x e x' h hstep => ?_)
    (fun x e x' h hstep => ownReplies_step h hstep) (sessionInv_init junk clientId) reached
  · rw [hiff]
    exact and_iff_right fun _ h => nomatch h
  · obtain ⟨y', hy', rfl⟩ := Option.map_eq_some_iff.1 hstep
    exact h.step hy'

/-- A put whose worker replies at once returns on that reply. -/
theorem ownReplies_promptReply :
    ∃ x, Trace.run sessionStep (Session.init zeros 7) promptReply = some x ∧ OwnReplies x ∧
      x.ended = [⟨putFive, { putFive with returnValue := 0 }, some 0⟩] := by
  refine ⟨_, rfl, (ownReplies_iff zeros 7 promptReply _ rfl).2 ?_, rfl⟩
  refine Trace.along_cons_of_eq trivial rfl ?_
  refine Trace.along_cons_of_eq trivial rfl ?_
  refine Trace.along_cons_of_eq trivial rfl ?_
  refine Trace.along_cons_of_eq trivial rfl ?_
  refine Trace.along_cons_of_eq trivial rfl ?_
  refine Trace.along_cons_of_eq trivial rfl ?_
  refine Trace.along_cons_of_eq ?_ rfl trivial
  intro c hc _
  rw [← Option.some.inj hc]
  rfl

/-- The get of key 5 as the first request of client 7. -/
def getFirst : Payload := { getFive with seqNumber := 1 }

/-- The get is retransmitted and acknowledged before its worker has run, and returns on the reply of
the worker.  The acknowledgement is delivered to the next call, a put. -/
def lateAck : List Event :=
  [.call (.get 5 0), .send, .serverReceive getFirst, .timeout (zeros 0), .send, .serverReceive getFirst,
    .work 0, .work 0, .work 0, .deliver { getFirst with returnValue := 0 },
    .call (.put 5 9), .send, .deliver { getFirst with ack := 1 }]

/-- In `lateAck` the put, with number 2, returns on the acknowledgement of the get, with number 1. -/
theorem not_ownReplies_lateAck :
    ∃ x, Trace.run sessionStep (Session.init zeros 7) lateAck = some x ∧ ¬ OwnReplies x := by
  refine ⟨_, rfl, fun h => ?_⟩
  have hown := h ⟨{ putFive with seqNumber := 2 }, { getFirst with ack := 1 }, some (-1)⟩ (by decide)
  exact absurd hown.1 (by decide)

/-! ## The first request of a connection -/

/-- The packet starts a worker, which executes it in its first step, and the main loop sends nothing
for it. -/
def Served (s : Server) (p : Payload) : Prop :=
  ∃ s' s'', mainLoop s p = some s' ∧ s'.workers = s.workers ++ [⟨p, .ready⟩] ∧ s'.sent = s.sent ∧
    work s' s.workers.length = some s'' ∧ s''.log = s.log ++ [p]

/-- A packet is served exactly when its number is above the recorded one. -/
theorem ServerInv.served_iff_latest (h : ServerInv s) {p : Payload} (hc : InTable p.clientId) :
    Served s p ↔ latest s p.clientId < p.seqNumber := by
  constructor
  · rintro ⟨s', s'', hstep, hworkers, -, -, -⟩
    obtain ⟨-, handled, -, -, -, -⟩ := h.mainLoop_spec hstep
    cases handled with
    | start newer _ _ _ => exact newer
    | acknowledge _ _ heq _ | drop _ _ heq _ =>
      rw [heq] at hworkers
      simpa using congrArg List.length hworkers
  · intro hnewer
    obtain ⟨s', hstep⟩ := mainLoop_isSome s hc
    obtain ⟨-, handled, -, -, -, hlog⟩ := h.mainLoop_spec hstep
    cases handled with
    | acknowledge equal _ _ _ => omega
    | drop older _ _ _ => omega
    | start _ _ hworkers hsent =>
      have hget : s'.workers[s.workers.length]? = some ⟨p, .ready⟩ := by
        rw [hworkers, List.getElem?_concat_length]
      have hwork : ∃ s'', Rpc.work s' s.workers.length = some s'' ∧ s''.log = s'.log ++ [p] := by
        rw [Rpc.work, hget]
        exact ⟨_, rfl, rfl⟩
      obtain ⟨s'', hs'', hlog''⟩ := hwork
      exact ⟨s', s'', hstep, hworkers, hsent, hs'', hlog ▸ hlog''⟩

/-- The event is not a packet of client `c` with a positive number. -/
def NotFrom (c : ℤ) : ServerEvent → Prop
  | .receive q => q.clientId = c → q.seqNumber < 1
  | .work _ => True

/-- The number recorded for a client stays below 1 as long as no packet of it has a positive one. -/
theorem ServerInv.latest_lt_one_step (h : ServerInv s) {e : ServerEvent}
    (hstep : serverStep s e = some s') (c : ℤ) :
    latest s' c < 1 ↔ latest s c < 1 ∧ NotFrom c e := by
  cases e with
  | receive q =>
    obtain ⟨-, handled, -, hother, -, -⟩ := h.mainLoop_spec hstep
    by_cases hq : q.clientId = c
    · subst hq
      simp only [NotFrom, true_imp_iff]
      cases handled with
      | start newer recorded _ _ => omega
      | acknowledge equal recorded _ _ => omega
      | drop older recorded _ _ => omega
    · rw [latest_congr (hother c (Ne.symm hq))]
      simp [NotFrom, hq]
  | work i =>
    obtain ⟨w, pc', -, -, hother, hid, hseq⟩ := work_spec hstep
    have hlatest : latest s' c = latest s c := by
      by_cases hc : c = w.attr.clientId
      · unfold latest
        rw [hc, hid, hseq]
      · exact latest_congr (hother c hc)
    simp [NotFrom, hlatest]

/-- For every state the server can reach and every connection opened then: its first request, whatever
it is, is executed if and only if no packet with the connection's client id and a positive number has
been received before. -/
theorem served_iff (junk : ℤ → Payload) (es : List ServerEvent) (s : Server)
    (reached : Trace.run serverStep (Server.init junk) es = some s) (clientId : ℤ)
    (hid : InTable clientId) (req : Request) :
    Served s (myPayload (rpcInit clientId) req) ↔
      ∀ q, .receive q ∈ es → q.clientId = clientId → q.seqNumber < 1 := by
  have hpayload : (myPayload (rpcInit clientId) req).clientId = clientId ∧
      (myPayload (rpcInit clientId) req).seqNumber = 1 := by cases req <;> exact ⟨rfl, rfl⟩
  have hrun := Trace.run_iff_along (I := ServerInv) (Q := fun s => latest s clientId < 1)
    (P := fun _ e => NotFrom clientId e) (fun _ _ _ h hstep => h.step hstep)
    (fun _ _ _ h hstep => h.latest_lt_one_step hstep clientId) (serverInv_init junk) reached
  rw [(serverInv_run reached).served_iff_latest (hpayload.1.symm ▸ hid), hpayload.1, hpayload.2, hrun,
    Trace.along_event_iff reached]
  have hfresh : latest (Server.init junk) clientId < 1 := by
    have hne : (-1 : ℤ) ≠ clientId := by
      unfold InTable at hid
      omega
    simp [latest, Server.init, hne]
  rw [and_iff_right hfresh]
  constructor
  · exact fun h q hq => h _ hq
  · intro h e he
    cases e with
    | receive q => exact h q he
    | work i => trivial

/-- A connection with id 8 after one with id 7. -/
theorem served_iff_freshId :
    ∃ s, Trace.run serverStep (Server.init zeros) [.receive getFirst, .work 0] = some s ∧
      Served s (myPayload (rpcInit 8) (.put 5 9)) := by
  refine ⟨_, rfl, ?_⟩
  refine (served_iff zeros [.receive getFirst, .work 0] _ rfl 8 ⟨by decide, by decide⟩ _).2 ?_
  intro q hq hid
  have hget : q = getFirst := by simpa using hq
  rw [hget] at hid
  exact absurd hid (by decide)

/-- After a connection with id 7 has made a get, the first put of a new connection that draws the same
id is not executed. -/
theorem not_served_reusedId :
    ∃ s, Trace.run serverStep (Server.init zeros) [.receive getFirst, .work 0] = some s ∧
      ¬ Served s (myPayload (rpcInit 7) (.put 5 9)) := by
  refine ⟨_, rfl, ?_⟩
  rintro ⟨s', s'', hstep, hworkers, -⟩
  obtain rfl := Option.some.inj hstep
  exact absurd (congrArg List.length hworkers) (by decide)

end SystemsProjects.Rpc
