import Q2pc.Rudp.Cluster
import Q2pc.Rudp.Retransmits

namespace Q2pc

variable {c c' : RudpConn} {cl cl' : Client} {id : Int} {k : Nat} {p q : Packet}

-- The messages the server writes on a connection: requests and decisions in turn.
def RequestsOk (wrote : List Packet) : Prop :=
  ∀ (k : Nat) (p : Packet), wrote[k]? = some p →
    p.stage = k ∧ p.msg.cRto = 0 ∧ p.msg.sRto = 0 ∧
    (k % 2 = 0 → p.msg.type = .request) ∧
    (k % 2 = 1 → p.msg.type = .commit ∨ p.msg.type = .cancel)

-- The response of client `id` to the message `q`, the `k`-th it got.
structure Answers (id : Int) (k : Nat) (q p : Packet) : Prop where
  stage : p.stage = q.stage
  ts : p.msg.ts = q.msg.ts
  cRto : p.msg.cRto = q.msg.cRto
  sRto : p.msg.sRto = q.msg.sRto
  srcHostid : p.msg.srcHostid = id
  vote : k % 2 = 0 → p.msg.type = .voteYes ∨ p.msg.type = .voteNo
  ack : k % 2 = 1 → p.msg.type = .ack

-- The client with this id at its end of a connection: after the connect message it
-- answers what it gets, a vote and an acknowledgement in turn.
structure Session (id : Int) (c : RudpConn) (cl : Client) : Prop where
  requests : RequestsOk c.server.wrote
  connect : ∀ p : Packet, c.client.wrote[0]? = some p → p.msg = conMsg id
  responses : ∀ (k : Nat) (p : Packet), c.client.wrote[k + 1]? = some p →
    ∃ q, c.clientGot[k]? = some q ∧ Answers id k q p
  clientNum : cl.clientNum = id
  phase : c.clientPc ≠ .terminated →
    (cl.phase = .phase1 ↔ (c.client.wrote.length - 1) % 2 = 0)
  waiting : c.clientPc ≠ .got → c.clientPc ≠ .terminated → cl.pc = .getMessage
  got : c.clientPc = .got → ∃ old, cl.pc = .respond old ∧ c.clientGot.getLast? = some old

theorem Session.init (i : Nat) : Session (i + 1) .init (.start (i + 1)) where
  requests := by simp [RequestsOk, RudpConn.init, Rudp.connect]
  connect := by simp [RudpConn.init, Rudp.connect]
  responses := by simp [RudpConn.init, Rudp.connect]
  clientNum := by simp [Client.start]
  phase := by simp [Client.start, RudpConn.init, Rudp.connect]
  waiting := fun _ _ => rfl
  got := by simp [RudpConn.init]

-- What becomes of the `k`-th message of the server: the client gets it and answers, and
-- the server gets that answer.
theorem Session.heard (h : Session id c cl) (hok : c.Ok)
    (hp : c.server.accepted[k + 1]? = some p) :
    ∃ q got r, c.server.wrote[k]? = some q ∧ c.client.accepted[k]? = some got ∧
      c.client.wrote[k + 1]? = some r ∧ q.SameButOwn false got ∧ Answers id k got r ∧
      r.SameButOwn true p := by
  obtain ⟨r, hr, hsame⟩ := hok.link.serverHeard.get hp
  obtain ⟨got, hgot, hanswers⟩ := h.responses k r hr
  have haccepted : c.client.accepted[k]? = some got := by
    obtain ⟨rest, hrest⟩ := hok.client.got_prefix
    have hlt := (List.getElem?_eq_some_iff.mp hgot).1
    rw [← hrest, List.getElem?_append_left hlt, hgot]
  obtain ⟨q, hq, hsame'⟩ := hok.link.clientHeard.get haccepted
  exact ⟨q, got, r, hq, haccepted, hr, hsame', hanswers, hsame⟩

theorem Session.heard_stage (h : Session id c cl) (hok : c.Ok)
    (hp : c.server.accepted[k + 1]? = some p) : p.stage = k ∧ p.msg.srcHostid = id := by
  obtain ⟨q, got, r, hq, -, -, hserver, hanswers, hclient⟩ := h.heard hok hp
  have hstage := (h.requests k q hq).1
  have h₁ : q.stage = got.stage := hserver.1.2
  have h₂ : r.stage = p.stage := hclient.1.2
  have h₃ : r.msg.srcHostid = p.msg.srcHostid := hclient.1.1.2.1
  exact ⟨by rw [← h₂, hanswers.stage, ← h₁, hstage], by rw [← h₃, hanswers.srcHostid]⟩

theorem Session.heard_con (h : Session id c cl) (hok : c.Ok)
    (hp : c.server.accepted[0]? = some p) : p.msg.type = .con := by
  obtain ⟨r, hr, hsame⟩ := hok.link.serverHeard.get hp
  have htype : r.msg.type = p.msg.type := hsame.1.1.1
  rw [← htype, h.connect r hr]
  rfl

theorem Session.frame (h : Session id c cl) (hserver : c'.server.wrote = c.server.wrote)
    (hclient : c'.client.wrote = c.client.wrote) (hgot : c'.clientGot = c.clientGot)
    (hpc : c'.clientPc = .terminated ∨ c'.clientPc = c.clientPc ∨
      c'.clientPc ≠ .got ∧ c.clientPc ≠ .got ∧ c.clientPc ≠ .terminated) :
    Session id c' cl where
  requests := hserver ▸ h.requests
  connect := hclient ▸ h.connect
  responses := by
    rw [hclient, hgot]
    exact h.responses
  clientNum := h.clientNum
  phase := by
    intro hne
    rw [hclient]
    rcases hpc with hpc | hpc | hpc
    · exact absurd hpc hne
    · exact h.phase (hpc ▸ hne)
    · exact h.phase hpc.2.2
  waiting := by
    intro hne hne'
    rcases hpc with hpc | hpc | hpc
    · exact absurd hpc hne'
    · exact h.waiting (hpc ▸ hne) (hpc ▸ hne')
    · exact h.waiting hpc.2.1 hpc.2.2
  got := by
    intro heq
    rw [hgot]
    rcases hpc with hpc | hpc | hpc
    · simp [hpc] at heq
    · exact h.got (hpc ▸ heq)
    · exact absurd heq hpc.1

theorem RequestsOk.append {wrote : List Packet} (h : RequestsOk wrote) {ph : Phase} {ts : Int}
    (hlen : wrote.length = p.stage) (hp : p.msg = requestMsg ph.msgType ts)
    (hph : p.stage % 2 = 0 ↔ ph = .phase1) : RequestsOk (wrote ++ [p]) := by
  intro k q hq
  rcases getElem?_snoc_cases hq with hq | ⟨rfl, rfl⟩
  · exact h k q hq
  · refine ⟨hlen.symm, by simp [hp, requestMsg], by simp [hp, requestMsg], ?_, ?_⟩
    · intro heven
      rw [hlen] at heven
      simp [hp, requestMsg, hph.mp heven, Phase.msgType]
    · intro hodd
      cases ph with
      | phase1 => have := hph.mpr rfl; omega
      | phase2 st => cases st <;> simp [hp, requestMsg, Phase.msgType]

theorem Rudp.begRead_wrote (c : Rudp) (x : BaseRead) : (c.begRead x).1.wrote = c.wrote := by
  rcases c.begRead_accept x with ⟨heq, -⟩ | ⟨d, k, -, -, heq⟩
  · rw [heq]
  · rw [heq]
    rfl

private theorem RudpClientPc.call_next {pc : RudpClientPc} {call : EndWritePc}
    {next : EndWritePc → RudpClientPc} (h : pc.call = some (call, next)) :
    (pc ≠ .got ∧ pc ≠ .terminated) ∧ ∀ call', next call' ≠ .got := by
  cases pc <;> cases h <;> simp

private theorem RudpClientPc.afterRet_ne (pc : RudpClientPc) (r : Ret) : pc.afterRet r ≠ .got := by
  cases pc <;> cases r <;> simp only [RudpClientPc.afterRet, ne_eq, reduceCtorEq, not_false_eq_true]
  split <;> simp

theorem Session.step {e : RudpEvent} (h : Session id c cl) (hs : RudpStep c e c')
    (hserver : ∀ p, e ≠ .masterWrite p) (hclient : ∀ p, e ≠ .clientWrite p)
    (hget : ∀ x, e ≠ .clientGet x) : Session id c' cl := by
  cases hs with
  | @masterWrite p _ => exact absurd rfl (hserver p)
  | @connect p _ | @respond p _ => exact absurd rfl (hclient p)
  | @clientGet x _ _ _ _ | @clientFin x _ _ _ | @clientAgain x _ _ _ => exact absurd rfl (hget x)
  | masterCall | masterRet | workerRelease => exact h.frame rfl rfl rfl (.inr (.inl rfl))
  | masterStep _ hstep => exact h.frame hstep.wrote_eq rfl rfl (.inr (.inl rfl))
  | workerRead => exact h.frame (c.server.begRead_wrote _) rfl rfl (.inr (.inl rfl))
  | @clientRet r next hcall =>
      obtain ⟨hpc, -⟩ := RudpClientPc.call_next hcall
      exact h.frame rfl rfl rfl (.inr (.inr ⟨c.clientPc.afterRet_ne r, hpc⟩))
  | clientStep hcall _ hstep =>
      obtain ⟨hpc, hnext⟩ := RudpClientPc.call_next hcall
      exact h.frame rfl hstep.wrote_eq rfl (.inr (.inr ⟨hnext _, hpc⟩))
  | clientQuit => exact h.frame rfl rfl rfl (.inl rfl)

theorem Session.masterWrite (h : Session id c cl) (hp : RequestsOk (c.server.wrote ++ [p])) :
    Session id { c with server := c.server.begWrite p, master := .filled } cl :=
  { h with requests := hp }

theorem Session.receive {cl' : Client} {x : BaseRead} (h : Session id c cl)
    (hpc : c.clientPc = .getMessage) (hr : cl.receive p = some cl') :
    Session id { c with
      client := (c.client.begRead x).1.endRead
      clientPc := .got
      clientGot := c.clientGot ++ [p] } cl' := by
  have hphase := h.phase (by simp [hpc])
  have hwrote : (c.client.begRead x).1.wrote = c.client.wrote := c.client.begRead_wrote x
  have hwait := h.waiting (by simp [hpc]) (by simp [hpc])
  have hcl : cl'.phase = cl.phase ∧ cl'.clientNum = cl.clientNum ∧ cl'.pc = .respond p := by
    unfold Client.receive at hr
    rw [hwait] at hr
    cases hph : cl.phase <;> simp only [hph, Option.some.injEq] at hr <;> subst hr <;>
      simp
  refine ⟨h.requests, ?_, ?_, hcl.2.1.trans h.clientNum, ?_, ?_, ?_⟩
  · intro q hq
    exact h.connect q (hwrote ▸ hq)
  · intro k q hq
    obtain ⟨old, hold, hanswers⟩ := h.responses k q (hwrote ▸ hq)
    have hlt := (List.getElem?_eq_some_iff.mp hold).1
    exact ⟨old, by rw [List.getElem?_append_left hlt, hold], hanswers⟩
  · intro _
    show cl'.phase = .phase1 ↔ ((c.client.begRead x).1.wrote.length - 1) % 2 = 0
    rw [hcl.1, hwrote]
    exact hphase
  · exact fun hne => absurd rfl hne
  · exact fun _ => ⟨p, hcl.2.2, by simp⟩

theorem Client.respond_cases {cl cl' : Client} {old : Packet} (hpc : cl.pc = .respond old)
    (hr : cl.respond = some (cl', some p)) :
    p.stage = old.stage ∧ (∃ t, p.msg = responseMsg t cl.clientNum old.msg) ∧
    cl'.clientNum = cl.clientNum ∧ cl'.pc = .getMessage ∧
    (cl'.phase = .phase1 ↔ cl.phase ≠ .phase1) ∧
    (cl.phase = .phase1 → p.msg.type = .voteYes ∨ p.msg.type = .voteNo) ∧
    (cl.phase ≠ .phase1 → p.msg.type = .ack) := by
  simp only [Client.respond, hpc] at hr
  cases ht : cl.answer old with
  | none => simp [ht] at hr
  | some t =>
      simp only [ht] at hr
      have htype : (cl.phase = .phase1 → t = .voteYes ∨ t = .voteNo) ∧
          (cl.phase ≠ .phase1 → t = .ack) := by
        unfold Client.answer at ht
        split at ht <;> simp_all
        subst ht
        unfold voteType
        split <;> simp
      cases hph : cl.phase <;> simp only [hph, Option.some.injEq, Prod.mk.injEq] at hr <;>
        obtain ⟨rfl, rfl⟩ := hr
      · exact ⟨rfl, ⟨t, rfl⟩, rfl, rfl, by simp, fun _ => htype.1 hph, by simp⟩
      · exact ⟨rfl, ⟨t, rfl⟩, rfl, rfl, by simp, by simp, fun _ => htype.2 (by simp [hph])⟩

theorem Client.clientNum_of_respond {cl cl' : Client} {response : Option Packet}
    (hr : cl.respond = some (cl', response)) : cl'.clientNum = cl.clientNum := by
  unfold Client.respond at hr
  split at hr <;> try contradiction
  split at hr
  · cases hr
    rfl
  · dsimp only at hr
    split at hr <;> cases hr <;> rfl

theorem Session.respond {cl' : Client} (h : Session id c cl) (hok : c.Ok)
    (hid : i16 id = id) (hpc : c.clientPc = .got) (hr : cl.respond = some (cl', some p)) :
    Session id { c with client := c.client.begWrite p, clientPc := .respond 0 .entry } cl' := by
  obtain ⟨old, hclpc, hold⟩ := h.got hpc
  obtain ⟨hstage, ⟨t, hmsg⟩, hnum, hpc', hphase', hvote, hack⟩ := Client.respond_cases hclpc hr
  have hphase := h.phase (by simp [hpc])
  have hclient := hok.client
  rw [hpc] at hclient
  obtain ⟨hlen, -, hgot⟩ := hclient
  obtain ⟨k, hk⟩ : ∃ k, c.client.wrote.length = k + 1 := by
    refine Nat.exists_eq_succ_of_ne_zero fun hzero => ?_
    rw [hlen, hgot] at hzero
    simp [List.eq_nil_of_length_eq_zero hzero] at hold
  have hlast : c.clientGot[k]? = some old := by
    rw [List.getLast?_eq_getElem?] at hold
    rwa [← hgot, ← hlen, hk, Nat.add_sub_cancel, hgot] at hold
  rw [hk, Nat.add_sub_cancel] at hphase
  refine ⟨h.requests, ?_, ?_, hnum.trans h.clientNum, ?_, fun _ _ => hpc', by simp⟩
  · intro q hq
    simp only [Rudp.begWrite] at hq
    rw [List.getElem?_append_left (by omega)] at hq
    exact h.connect q hq
  · intro j q hq
    rcases getElem?_snoc_cases hq with hq | ⟨hj, rfl⟩
    · exact h.responses j q hq
    · obtain rfl : j = k := by omega
      refine ⟨old, hlast, ?_⟩
      refine ⟨hstage, by rw [hmsg]; rfl, by rw [hmsg]; rfl, by rw [hmsg]; rfl, ?_, ?_, ?_⟩
      · rw [hmsg]
        simp [responseMsg, h.clientNum, hid]
      · exact fun heven => hvote (hphase.mpr heven)
      · exact fun hodd => hack fun hph => by have := hphase.mp hph; omega
  · intro _
    simp only [Rudp.begWrite, List.length_append, List.length_singleton, hk, Nat.add_sub_cancel]
    rw [hphase', Ne, hphase]
    omega

theorem Session.clientInit (h : Session id c cl) (hok : c.Ok) (hpc : c.clientPc = .init)
    (hp : p.msg = conMsg id) :
    Session id { c with client := c.client.begWrite p, clientPc := .connect .entry } cl := by
  have hclient := hok.client
  rw [hpc] at hclient
  obtain ⟨hwrote, -, -, -⟩ := hclient
  have hphase := h.phase (by simp [hpc])
  have hwait := h.waiting (by simp [hpc]) (by simp [hpc])
  refine ⟨h.requests, ?_, ?_, h.clientNum, ?_, fun _ _ => hwait, by simp⟩
  · intro q hq
    simp only [Rudp.begWrite, hwrote, List.nil_append, List.getElem?_cons_zero,
      Option.some.injEq] at hq
    exact hq ▸ hp
  · intro k q hq
    simp [Rudp.begWrite, hwrote] at hq
  · intro _
    simpa [Rudp.begWrite, hwrote] using hphase

end Q2pc
