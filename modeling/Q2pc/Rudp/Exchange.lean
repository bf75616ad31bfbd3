import Q2pc.Rudp.Link

namespace Q2pc

variable {c c' : RudpConn} {s s' : Rudp} {pc pc' : EndWritePc} {e : EndWriteEvent}

-- While a write waits for its acknowledgement, `current_seq` is the sequence number of
-- the message or, when the answer was accepted before `current_seq` was set, the next.
def Rudp.Waiting (s : Rudp) : Prop :=
  s.ackOutstanding = true → (s.wrote.length : Int) ≤ s.currentSeq + 1 ∧ s.currentSeq ≤ s.seqNo

-- The last message of the server process is answered.
def Rudp.Answered (s : Rudp) : Prop :=
  s.ackOutstanding = false ∧ s.accepted.length = s.wrote.length + 1

def Rudp.CallOk (s : Rudp) : EndWritePc → Prop
  | .entry | .ret .eagain | .ret .rtofired | .ret .efin => s.Waiting
  | .record => s.ackOutstanding = false
  | .probe | .compare | .timer | .resend => s.ackOutstanding = true ∧ s.Waiting
  | .ret .enone => s.Answered

def MasterWrite.Ok (m : MasterWrite) (s : Rudp) : Prop :=
  match m with
  | .idle => s.ackOutstanding = false ∧
      (s.accepted = [] ∨ s.accepted.length = s.wrote.length + 1)
  | .filled => s.wrote ≠ [] ∧ s.Waiting
  | .call pc => s.wrote ≠ [] ∧ s.CallOk pc
  | .failed => True

-- What `get_messge` has returned are the messages accepted, but for one that `end_write`
-- accepted and `get_messge` is still to return.
def Rudp.Handed (c : Rudp) (got : List Packet) : Prop :=
  c.wrote ≠ [] ∧
  ((c.wrote.length = c.accepted.length + 1 ∧ c.readData = none ∧ c.accepted = got) ∨
    (c.wrote.length = c.accepted.length ∧ ∃ p, c.readData = some p ∧ c.accepted = got ++ [p]))

def RudpClientPc.Ok (pc : RudpClientPc) (c : Rudp) (got : List Packet) : Prop :=
  match pc with
  | .init => c.wrote = [] ∧ c.readData = none ∧ c.accepted = got ∧ c.accepted = []
  | .connect _ | .respond _ _ | .getMessage => c.Handed got
  | .got => c.wrote.length = c.accepted.length ∧ c.readData = none ∧ c.accepted = got
  | .terminated => got <+: c.accepted

structure RudpConn.Ok (c : RudpConn) : Prop where
  link : RudpLink c.server c.client
  master : c.master.Ok c.server
  client : c.clientPc.Ok c.client c.clientGot

-- The master writes a message when the one before is acknowledged, the first when the
-- connect message has been read, and calls `end_write` until it is acknowledged.
def RudpConn.protocol (c : RudpConn) : RudpEvent → Prop
  | .masterWrite _ => c.master = .idle ∧ c.server.accepted ≠ []
  | .masterCall => c.master = .filled
  | _ => True

theorem Rudp.Handed.got_prefix {c : Rudp} {got : List Packet} (h : c.Handed got) :
    got <+: c.accepted := by
  obtain ⟨-, ⟨-, -, hgot⟩ | ⟨-, p, -, hgot⟩⟩ := h
  · rw [hgot]
  · exact ⟨[p], hgot.symm⟩

instance (c : RudpConn) (e : RudpEvent) : Decidable (c.protocol e) := by
  cases e <;> unfold RudpConn.protocol <;> infer_instance

theorem RudpClientPc.Ok.got_prefix {pc : RudpClientPc} {c : Rudp} {got : List Packet}
    (h : pc.Ok c got) : got <+: c.accepted := by
  cases pc with
  | init => rw [h.2.2.1]
  | got => rw [h.2.2]
  | terminated => exact h
  | connect | respond | getMessage => exact Rudp.Handed.got_prefix h

theorem RudpConn.Ok.init : RudpConn.Ok .init where
  link := .init
  master := ⟨rfl, .inl rfl⟩
  client := ⟨rfl, rfl, rfl, rfl⟩

-- `end_write` returns `Q2PC_ENONE` only when the message is answered.
theorem RudpLink.answered {cl : Rudp} (h : RudpLink s cl) (hw : s.Waiting)
    (hack : s.ackOutstanding = true) (hne : s.currentSeq ≠ s.seqNo) :
    s.accepted.length = s.wrote.length + 1 := by
  obtain ⟨hlo, hhi⟩ := hw hack
  have := h.serverSeq
  have := h.clientHeard_le
  have := h.clientWrote_le
  have := h.serverHeard.length_le
  omega

theorem Rudp.CallOk.step {cl : Rudp} (h : s.CallOk pc) (hlink : RudpLink s cl)
    (hs : s.EndWriteStep pc e s' pc') : s'.CallOk pc' := by
  cases hs with
  | sentBefore hack => exact ⟨hack, h⟩
  | transmit hack => exact hack
  | failed hack => exact h
  | record =>
      refine ⟨rfl, fun _ => ⟨?_, le_refl _⟩⟩
      have := hlink.serverSeq
      have := hlink.serverWrote_le
      simp only
      omega
  | noProbe | notAcked | expired => exact h
  | probe x hrole | probeFin x hrole => simp [hlink.serverRole] at hrole
  | acked hne => exact ⟨rfl, hlink.answered h.2 h.1 hne⟩
  | notExpired | resendFailed | resend => exact h.2

theorem Rudp.EndWriteStep.wrote_eq (hs : s.EndWriteStep pc e s' pc') : s'.wrote = s.wrote := by
  cases hs with
  | probe x | probeFin x =>
      rcases s.begRead_accept x with ⟨heq, -⟩ | ⟨d, k, -, -, heq⟩
      · rw [heq]
      · rw [heq]
        rfl
  | _ => rfl

private theorem Rudp.Waiting.accept (h : s.Waiting) {d : Datagram} (hnew : s.seqNo < d.seqNo) :
    (s.accept d.seqNo d.packet).Waiting := by
  intro hack
  obtain ⟨hlo, hhi⟩ := h hack
  exact ⟨hlo, by simp only [Rudp.accept]; omega⟩

-- The worker accepts no message while the last one of the master is answered.
theorem RudpLink.not_newer {cl : Rudp} (h : RudpLink s cl) {d : Datagram} (hd : d ∈ cl.sent)
    (hanswered : s.accepted.length = s.wrote.length + 1) : ¬s.seqNo < d.seqNo := by
  intro hnew
  obtain ⟨k, p, hk, hp, -⟩ := h.clientSent.sent d hd
  have hlt := (List.getElem?_eq_some_iff.mp hp).1
  have := h.serverSeq
  have := h.clientHeard_le
  have := h.clientWrote_le
  omega

private theorem MasterWrite.Ok.accept {m : MasterWrite} {cl : Rudp} (h : m.Ok s)
    (hlink : RudpLink s cl) {d : Datagram} (hd : d ∈ cl.sent) (hnew : s.seqNo < d.seqNo) :
    m.Ok (s.accept d.seqNo d.packet) := by
  have hanswered : s.accepted.length ≠ s.wrote.length + 1 :=
    fun hlen => hlink.not_newer hd hlen hnew
  cases m with
  | idle =>
      obtain ⟨hack, hempty | hlen⟩ := h
      · have := hlink.serverWrote_le
        simp only [hempty, List.length_nil, Nat.le_zero_eq] at this
        exact ⟨hack, .inr (by simp [Rudp.accept, hempty, this])⟩
      · exact absurd hlen hanswered
  | filled => exact ⟨h.1, h.2.accept hnew⟩
  | failed => trivial
  | call pc =>
      refine ⟨h.1, ?_⟩
      have hcall := h.2
      cases pc with
      | entry => exact Rudp.Waiting.accept hcall hnew
      | record => exact hcall
      | probe | compare | timer | resend => exact ⟨hcall.1, hcall.2.accept hnew⟩
      | ret r =>
          cases r with
          | enone => exact absurd hcall.2 hanswered
          | eagain | efin | rtofired => exact Rudp.Waiting.accept hcall hnew

private theorem MasterWrite.Ok.endRead {m : MasterWrite} (h : m.Ok s) : m.Ok s.endRead := by
  cases m with
  | idle | filled | failed => exact h
  | call pc =>
      cases pc with
      | ret r => cases r <;> exact h
      | _ => exact h

private theorem RudpConn.Ok.workerRead (h : c.Ok) {x : BaseRead} (hx : x.from c.client) :
    RudpConn.Ok { c with server := (c.server.begRead x).1 } where
  link := h.link.serverRead hx
  master := by
    rcases c.server.begRead_cases x with ⟨heq, -⟩ | ⟨d, rfl, -, -, hdata⟩
    · rw [heq]
      exact h.master
    · obtain ⟨hnew, heq⟩ := hdata h.link.serverRole
      rw [heq]
      exact h.master.accept h.link hx hnew
  client := h.client

-- A message accepted by a client that has written is the one `get_messge` returns next.
theorem Rudp.Handed.read {cl : Rudp} {got : List Packet} (h : cl.Handed got)
    (hrole : cl.isServer = true) (x : BaseRead) : (cl.begRead x).1.Handed got := by
  rcases cl.begRead_cases x with ⟨heq, -⟩ | ⟨d, -, hnone, hserver, -⟩
  · rwa [heq]
  · obtain ⟨-, heq⟩ := hserver hrole
    rw [heq]
    obtain ⟨hwrote, ⟨hlen, -, hgot⟩ | ⟨-, p, hp, -⟩⟩ := h
    · exact ⟨hwrote,
        .inr ⟨by simp [Rudp.accept, hlen], d.packet, rfl, by simp [Rudp.accept, hgot]⟩⟩
    · simp [hnone] at hp

theorem Rudp.Handed.call {cl cl' : Rudp} {got : List Packet} (h : cl.Handed got)
    (hrole : cl.isServer = true) (hs : cl.EndWriteStep pc e cl' pc') : cl'.Handed got := by
  cases hs with
  | probe x | probeFin x => exact h.read hrole x
  | _ => exact h

private theorem RudpClientPc.Ok.afterRet {pc : RudpClientPc} {cl : Rudp} {got : List Packet}
    (h : cl.Handed got) (r : Ret) : (pc.afterRet r).Ok cl got := by
  cases pc <;> cases r <;> simp only [RudpClientPc.afterRet]
  case respond.rtofired =>
      split
      · exact h
      · exact h
  all_goals first | exact h | exact h.got_prefix

private theorem RudpClientPc.Ok.handed {pc : RudpClientPc} {cl : Rudp} {got : List Packet}
    {call : EndWritePc} {next : EndWritePc → RudpClientPc} (h : pc.Ok cl got)
    (hcall : pc.call = some (call, next)) :
    cl.Handed got ∧
      ∀ (call' : EndWritePc) (cl' : Rudp), cl'.Handed got → (next call').Ok cl' got := by
  cases pc <;> cases hcall <;> exact ⟨h, fun _ _ h => h⟩

private theorem RudpLink.clientEndRead {cl : Rudp} (h : RudpLink s cl) : RudpLink s cl.endRead :=
  h.congr ⟨rfl, rfl, rfl, rfl⟩ id ⟨rfl, rfl, rfl, rfl⟩ (·.congr rfl rfl rfl rfl fun _ hp => hp)

theorem RudpConn.Ok.step {e : RudpEvent} (h : c.Ok) (hp : c.protocol e) (hs : RudpStep c e c') :
    c'.Ok := by
  have hlink := h.link
  have hmaster := h.master
  have hclient := h.client
  cases hs with
  | @masterWrite p _ =>
      obtain ⟨hidle, hread⟩ := hp
      rw [hidle] at hmaster
      obtain ⟨hack, hempty | hlen⟩ := hmaster
      · exact absurd hempty hread
      · exact ⟨hlink.serverWrite hlen, ⟨by simp [Rudp.begWrite],
          by simp [Rudp.Waiting, Rudp.begWrite, hack]⟩, hclient⟩
  | masterCall _ =>
      rw [show c.master = .filled from hp] at hmaster
      exact ⟨hlink, hmaster, hclient⟩
  | masterStep hpc hstep =>
      rw [hpc] at hmaster
      refine ⟨hlink.serverCall hmaster.1 hstep, ⟨?_, hmaster.2.step hlink hstep⟩, hclient⟩
      rw [hstep.wrote_eq]
      exact hmaster.1
  | @masterRet r hpc =>
      rw [hpc] at hmaster
      refine ⟨hlink, ?_, hclient⟩
      cases r with
      | enone => exact ⟨hmaster.2.1, .inr hmaster.2.2⟩
      | eagain | rtofired => exact hmaster
      | efin => trivial
  | workerRead hx => exact h.workerRead hx
  | workerRelease =>
      exact ⟨hlink.congr ⟨rfl, rfl, rfl, rfl⟩ (·.congr rfl rfl rfl rfl fun _ hp => hp)
        ⟨rfl, rfl, rfl, rfl⟩ id, hmaster.endRead, hclient⟩
  | connect hpc =>
      rw [hpc] at hclient
      obtain ⟨hwrote, hnone, hgot, hempty⟩ := hclient
      refine ⟨hlink.clientWrite (by simp [hwrote, hempty]), hmaster, by simp [Rudp.begWrite],
        .inl ⟨?_, hnone, hgot⟩⟩
      simp [Rudp.begWrite, hwrote, hempty]
  | respond hpc =>
      rw [hpc] at hclient
      obtain ⟨hlen, hnone, hgot⟩ := hclient
      refine ⟨hlink.clientWrite hlen, hmaster, by simp [Rudp.begWrite], .inl ⟨?_, hnone, hgot⟩⟩
      simp [Rudp.begWrite, hlen]
  | @clientRet r next hcall => exact ⟨hlink, hmaster, .afterRet (hclient.handed hcall).1 r⟩
  | clientStep hcall he hstep =>
      obtain ⟨hhanded, hnext⟩ := hclient.handed hcall
      exact ⟨hlink.clientCall hhanded.1 he hstep, hmaster,
        hnext _ _ (hhanded.call hlink.clientRole hstep)⟩
  | @clientGet x p hpc hx hdata =>
      rw [hpc] at hclient
      have hread := Rudp.Handed.read hclient hlink.clientRole x
      have hpending := Rudp.readData_of_begRead hdata
      refine ⟨(hlink.clientRead hx).clientEndRead, hmaster, ?_⟩
      obtain ⟨-, ⟨-, hnone, -⟩ | ⟨hlen, q, hq, hgot⟩⟩ := hread
      · simp [hpending] at hnone
      · obtain rfl : p = q := by simpa [hpending] using hq
        exact ⟨hlen, rfl, hgot⟩
  | @clientFin x hpc hx _ =>
      rw [hpc] at hclient
      have hread := Rudp.Handed.read hclient hlink.clientRole x
      exact ⟨(hlink.clientRead hx).clientEndRead, hmaster, hread.got_prefix⟩
  | @clientAgain x hpc hx _ =>
      rw [hpc] at hclient
      refine ⟨hlink.clientRead hx, hmaster, ?_⟩
      simp only [hpc]
      exact Rudp.Handed.read hclient hlink.clientRole x
  | clientQuit => exact ⟨hlink, hmaster, hclient.got_prefix⟩

theorem RudpConn.ok_of_reachable (h : rudpMachine.Reachable RudpConn.protocol c) : c.Ok :=
  h.invariant .init fun _ _ _ _ hok hp hs => hok.step hp (RudpConn.step_cases hs)

-- An RUDP connection over a network that loses, delays, repeats and reorders datagrams
-- hands over each message once and in order, and the rule of the server process, to
-- accept any sequence number greater than the last, only ever accepts the next.
theorem rudp_delivery (h : rudpMachine.Reachable RudpConn.protocol c) :
    Delivers Packet.SameButRto c.client.wrote c.server.accepted ∧
    Delivers Packet.SameButRto c.server.wrote c.clientGot ∧
    (c.client.seqNo = c.server.seqNo ∨ c.client.seqNo = c.server.seqNo + 1) ∧
    (∀ d ∈ c.client.sent, c.server.seqNo < d.seqNo → d.seqNo = c.server.seqNo + 1) := by
  have hok := RudpConn.ok_of_reachable h
  refine ⟨hok.link.serverHeard.imp fun _ _ h => h.1, ?_, hok.link.window, ?_⟩
  · exact (hok.link.clientHeard.of_prefix hok.client.got_prefix).imp fun _ _ h => h.1
  · exact fun d hd hnew => hok.link.next_of_newer hd hnew

-- The connect message is sent twice, the second copy arrives first and the other is
-- dropped; a request is answered, and its retransmission comes after the answer.
theorem rudp_delivery_vote : ∃ c : RudpConn, rudpMachine.Reachable RudpConn.protocol c ∧
    (c.server.accepted.length == 2 && c.clientGot.length == 1) = true ∧
    Delivers Packet.SameButRto c.client.wrote c.server.accepted ∧
    Delivers Packet.SameButRto c.server.wrote c.clientGot ∧
    (c.client.seqNo = c.server.seqNo ∨ c.client.seqNo = c.server.seqNo + 1) ∧
    (∀ d ∈ c.client.sent, c.server.seqNo < d.seqNo → d.seqNo = c.server.seqNo + 1) := by
  let con (cRto : Int) : Packet := ⟨⟨.con, 1, cRto, 0, 0⟩, 0⟩
  let request : Packet := ⟨⟨.request, -1, 0, 0, 500⟩, 0⟩
  let vote : Packet := ⟨⟨.voteYes, 1, 0, 0, 500⟩, 0⟩
  obtain ⟨c, hrun, hc⟩ := Machine.exists_run_of_eval rudpMachine RudpConn.protocol
    [.clientWrite (con 0), .clientStep (.base true), .clientStep .go, .clientStep (.read .eagain),
      .clientStep .go, .clientStep (.clock true), .clientStep (.base true), .clientStep .go,
      .workerRead (.data ⟨0, con 1⟩), .workerRelease, .workerRead (.data ⟨0, con 0⟩),
      .masterWrite request, .masterCall, .masterStep (.base true), .masterStep .go,
      .masterStep .go, .masterStep .go, .clientStep .go, .clientStep (.read (.data ⟨0, request⟩)),
      .masterStep (.clock true), .masterStep (.base true), .masterRet .rtofired,
      .clientStep .go, .clientStep .go, .clientGet .eagain, .clientWrite vote,
      .clientStep (.base true), .workerRead (.data ⟨1, vote⟩)]
    (fun c => c.server.accepted.length == 2 && c.clientGot.length == 1) (by decide +kernel)
  exact ⟨c, hrun.reachable, hc, rudp_delivery hrun.reachable⟩

end Q2pc
