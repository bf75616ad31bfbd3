import Q2pc.Lib.History
import Q2pc.Rudp.Exchange

namespace Q2pc

variable {c c' : RudpConn} {s s' : Rudp} {e : RudpEvent} {n : Nat}

-- How many datagrams the client process had sent when it began to write its last message.
def sentBefore (n : Nat) (c : RudpConn) : RudpEvent → Nat
  | .clientWrite _ => c.client.sent.length
  | _ => n

def clientMachine : Machine (RudpConn × Nat) RudpEvent := rudpMachine.withHistory 0 sentBefore

theorem reachable_iff_sentBefore : rudpMachine.Reachable RudpConn.protocol c ↔
    ∃ n, clientMachine.Reachable (fun s e => s.1.protocol e) (c, n) :=
  Machine.reachable_withHistory

-- The client begins to write a message only when the one before is acknowledged.
def WritesAcked (c : RudpConn × Nat) : RudpEvent → Prop
  | .clientWrite _ => c.1.client.ackOutstanding = false
  | _ => True

instance (c : RudpConn × Nat) (e : RudpEvent) : Decidable (WritesAcked c e) :=
  match e with
  | .clientWrite _ => instDecidableEqBool c.1.client.ackOutstanding false
  | .masterWrite _ | .masterCall | .masterStep _ | .masterRet _ | .workerRead _
  | .workerRelease | .clientStep _ | .clientGet _ | .clientQuit => .isTrue trivial

-- A call of `end_write` that is past the first transmission has sent the message.
def Rudp.CallSent (s : Rudp) (n : Nat) : EndWritePc → Prop
  | .entry => s.ackOutstanding = true → n < s.sent.length
  | .ret .efin => True
  | _ => n < s.sent.length

structure SentOk (c : RudpConn) (n : Nat) : Prop where
  le : n ≤ c.client.sent.length
  call : ∀ pc next, c.clientPc.call = some (pc, next) → c.client.CallSent n pc

private theorem Rudp.sent_begRead (s : Rudp) (x : BaseRead) :
    (s.begRead x).1.sent = s.sent ∧ (s.begRead x).1.ackOutstanding = s.ackOutstanding := by
  rcases s.begRead_accept x with ⟨heq, -⟩ | ⟨d, k, -, -, heq⟩
  · rw [heq]
    exact ⟨rfl, rfl⟩
  · rw [heq]
    exact ⟨rfl, rfl⟩

private theorem Rudp.CallSent.step {pc pc' : EndWritePc} {ev : EndWriteEvent}
    (h : s.CallSent n pc) (hle : n ≤ s.sent.length) (hs : s.EndWriteStep pc ev s' pc') :
    n ≤ s'.sent.length ∧ s'.CallSent n pc' := by
  have hgrow : ∀ s' : Rudp, n < s'.transmit.sent.length ↔ n ≤ s'.sent.length := by
    intro s'
    simp only [Rudp.transmit, List.length_append, List.length_singleton]
    omega
  cases hs with
  | sentBefore hack => exact ⟨hle, h hack⟩
  | transmit => exact ⟨((hgrow s).mpr hle).le, (hgrow s).mpr hle⟩
  | failed => exact ⟨hle, trivial⟩
  | probe x | probeFin x =>
      have hsent := (s.sent_begRead x).1
      simp only [Rudp.CallSent, hsent]
      first | exact ⟨hle, h⟩ | exact ⟨hle, trivial⟩
  | resend => exact ⟨((hgrow s.bumpRto).mpr hle).le, (hgrow s.bumpRto).mpr hle⟩
  | resendFailed => exact ⟨hle, trivial⟩
  | record | noProbe | acked | notAcked | notExpired | expired => exact ⟨hle, h⟩

private theorem call_afterRet {pc : RudpClientPc} {r : Ret} {call : EndWritePc}
    {next : EndWritePc → RudpClientPc} (h : (pc.afterRet r).call = some (call, next)) :
    call = .entry ∧ (r = .eagain ∨ r = .rtofired) := by
  cases pc with
  | connect pc =>
      cases r <;> simp_all [RudpClientPc.afterRet, RudpClientPc.call]
  | respond rtos pc =>
      cases r with
      | rtofired =>
          simp only [RudpClientPc.afterRet] at h
          by_cases hlt : rtos + 1 < rtosMax
          · rw [if_pos hlt] at h
            simp_all [RudpClientPc.call]
          · rw [if_neg hlt] at h
            simp [RudpClientPc.call] at h
      | enone | eagain | efin => simp_all [RudpClientPc.afterRet, RudpClientPc.call]
  | init | getMessage | got | terminated =>
      cases r <;> simp [RudpClientPc.afterRet, RudpClientPc.call] at h

private theorem SentOk.step (h : SentOk c n) (hok : WritesAcked (c, n) e)
    (hs : RudpStep c e c') : SentOk c' (sentBefore n c e) := by
  cases hs with
  | connect hpc | respond hpc =>
      refine ⟨le_refl _, fun pc next hcall => ?_⟩
      obtain ⟨rfl, -⟩ := Prod.mk.inj (Option.some.inj hcall)
      intro hack
      have hno : c.client.ackOutstanding = false := hok
      simp [Rudp.begWrite, hno] at hack
  | @clientRet r next hcall =>
      refine ⟨h.le, fun pc next' hcall' => ?_⟩
      obtain ⟨rfl, hr⟩ := call_afterRet hcall'
      have hsent := h.call _ _ hcall
      intro _
      rcases hr with rfl | rfl <;> exact hsent
  | @clientStep ev pc next client pc' hcall he hstep =>
      obtain ⟨hle, hsent⟩ := (h.call pc next hcall).step h.le hstep
      refine ⟨hle, fun call next' hcall' => ?_⟩
      have hnext : (next pc').call = some (pc', next) := by
        cases hpc : c.clientPc <;> simp only [hpc, RudpClientPc.call, reduceCtorEq,
          Option.some.injEq, Prod.mk.injEq] at hcall
        · rw [← hcall.2]; rfl
        · rw [← hcall.2]; rfl
      obtain ⟨rfl, -⟩ := Prod.mk.inj (Option.some.inj (hnext.symm.trans hcall'))
      exact hsent
  | @clientGet x p hpc =>
      refine ⟨?_, by simp [RudpClientPc.call]⟩
      have hsent := (c.client.sent_begRead x).1
      simp only [sentBefore, Rudp.endRead, hsent]
      exact h.le
  | @clientFin x hpc =>
      refine ⟨?_, by simp [RudpClientPc.call]⟩
      have hsent := (c.client.sent_begRead x).1
      simp only [sentBefore, Rudp.endRead, hsent]
      exact h.le
  | @clientAgain x hpc =>
      refine ⟨?_, by simp [hpc, RudpClientPc.call]⟩
      have hsent := (c.client.sent_begRead x).1
      simp only [sentBefore, hsent]
      exact h.le
  | clientQuit => exact ⟨h.le, by simp [RudpClientPc.call]⟩
  | masterWrite _ | masterCall _ | masterStep _ _ | masterRet _ | workerRead _ | workerRelease =>
      exact ⟨h.le, h.call⟩

-- In every run in which no message is written over one that is not acknowledged, a message
-- for which `end_write` returns `Q2PC_ENONE` has been sent since it was written.
theorem sent_before_enone {next : EndWritePc → RudpClientPc}
    (h : clientMachine.Reachable WritesAcked (c, n))
    (hcall : c.clientPc.call = some (.ret .enone, next)) : n < c.client.sent.length := by
  have hok : SentOk c n := by
    apply h.invariant (P := fun cn => SentOk cn.1 cn.2)
    · exact ⟨Nat.zero_le _, by simp [clientMachine, Machine.withHistory, rudpMachine,
        RudpConn.init, RudpClientPc.call]⟩
    · rintro ⟨c, n⟩ e ⟨c', n'⟩ - ih hok hs
      obtain ⟨hstep, rfl⟩ := Machine.step_withHistory.mp hs
      exact ih.step hok (RudpConn.step_cases hstep)
  exact hok.call _ _ hcall

def con : Packet := ⟨⟨.con, 1, 0, 0, 0⟩, 0⟩

-- The client connects, reads the request and sends its vote.
def voteEvents (request vote : Packet) : List RudpEvent :=
  [.clientWrite con, .clientStep (.base true), .clientStep .go, .workerRead (.data ⟨0, con⟩),
    .workerRelease, .masterWrite request, .masterCall, .masterStep (.base true), .masterStep .go,
    .clientStep (.read (.data ⟨0, request⟩)), .clientStep .go, .clientStep .go,
    .clientGet .eagain, .clientWrite vote, .clientStep (.base true)]

-- The server process reads the vote, and sends the next message.
def decideEvents (vote decision : Packet) : List RudpEvent :=
  [.masterStep .go, .workerRead (.data ⟨1, vote⟩), .workerRelease, .masterStep .go,
    .masterRet .enone, .masterWrite decision, .masterCall, .masterStep (.base true)]

theorem sent_before_enone_vote : ∃ (c : RudpConn) (n : Nat),
    clientMachine.Reachable WritesAcked (c, n) ∧
    c.clientPc.call = some (.ret .enone, .respond 0) ∧ n < c.client.sent.length := by
  let request : Packet := ⟨⟨.request, -1, 0, 0, 500⟩, 0⟩
  let vote : Packet := ⟨⟨.voteYes, 1, 0, 0, 500⟩, 0⟩
  let commit : Packet := ⟨⟨.commit, -1, 0, 0, 700⟩, 1⟩
  obtain ⟨⟨c, n⟩, hrun, hc⟩ := Machine.exists_run_of_eval clientMachine WritesAcked
    (voteEvents request vote ++ decideEvents vote commit ++
      [.clientStep .go, .clientStep (.read (.data ⟨1, commit⟩)), .clientStep .go])
    (fun cn => decide (cn.1.clientPc = .respond 0 (.ret .enone))) (by decide +kernel)
  have hpc := of_decide_eq_true hc
  have hcall : c.clientPc.call = some (.ret .enone, .respond 0) := by rw [hpc]; rfl
  exact ⟨c, n, hrun.reachable, hcall, sent_before_enone hrun.reachable hcall⟩

-- One pass of the loop of `send_response`, in which the timer fires.
def rtoPass : List RudpEvent :=
  [.clientStep .go, .clientStep (.read .eagain), .clientStep .go, .clientStep (.clock true),
    .clientStep (.base true), .clientStep .go]

-- The client waits for the acknowledgement of its response, after `rtos` timeouts.
structure Retrying (c : RudpConn) (rtos : Nat) : Prop where
  pc : c.clientPc = .respond rtos .entry
  role : c.client.isServer = true
  idle : c.client.readData = none
  outstanding : c.client.ackOutstanding = true
  same : c.client.currentSeq = c.client.seqNo

def RudpConn.afterPass (c : RudpConn) (rtos : Nat) : RudpConn :=
  { c with
    client := c.client.bumpRto.transmit
    clientPc := if rtos + 1 < rtosMax then .respond (rtos + 1) .entry else .getMessage }

theorem Retrying.eval_rtoPass {rtos : Nat} (h : Retrying c rtos) :
    rudpMachine.evalFrom RudpConn.protocol c rtoPass = some (c.afterPass rtos) := by
  obtain ⟨hpc, hrole, hidle, hack, hsame⟩ := h
  simp [rtoPass, Machine.evalFrom, rudpMachine, RudpConn.step, RudpConn.clientStep,
    RudpConn.protocol, RudpClientPc.call, hpc, EndWriteEvent.from, Rudp.endWriteStep, hack, hrole,
    Rudp.begRead, hidle, hsame, BaseRead.from]
  rfl

theorem Retrying.afterPass {rtos : Nat} (h : Retrying c rtos) (hlt : rtos + 1 < rtosMax) :
    Retrying (c.afterPass rtos) (rtos + 1) where
  pc := if_pos hlt
  role := h.role
  idle := h.idle
  outstanding := h.outstanding
  same := h.same

theorem Retrying.eval_passes {P : Nat → RudpConn → Prop} {k : Nat} (h : Retrying c 0) (h0 : P 0 c)
    (hpass : ∀ k c, P k c → P (k + 1) (c.afterPass k)) (hk : k < rtosMax) :
    ∃ c', rudpMachine.evalFrom RudpConn.protocol c (List.replicate k rtoPass).flatten = some c' ∧
      Retrying c' k ∧ P k c' := by
  induction k with
  | zero => exact ⟨c, rfl, h, h0⟩
  | succ k ih =>
      obtain ⟨c', heval, hretry, hP⟩ := ih (by omega)
      refine ⟨c'.afterPass k, ?_, hretry.afterPass hk, hpass k c' hP⟩
      rw [List.replicate_succ', List.flatten_append, Machine.evalFrom_append, heval,
        Option.bind_some, List.flatten_singleton, hretry.eval_rtoPass]

-- The client gives up on its response, and reads and answers the next message.
def abandonEvents (d : Datagram) (p : Packet) : List RudpEvent :=
  (List.replicate (rtosMax - 1) rtoPass).flatten ++ rtoPass ++
    [.clientGet (.data d), .clientWrite p, .clientStep .go, .clientStep (.read .eagain),
      .clientStep .go]

private theorem eval_giveUp (h : Retrying c 0) :
    ∃ c', clientMachine.evalFrom (fun s e => s.1.protocol e) (c, n)
        ((List.replicate (rtosMax - 1) rtoPass).flatten ++ rtoPass) = some (c', n) ∧
      c'.clientPc = .getMessage ∧ c'.client.isServer = true ∧ c'.client.readData = none ∧
      c'.client.ackOutstanding = true ∧ c'.client.currentSeq = c'.client.seqNo ∧
      c'.server = c.server ∧ c'.client.seqNo = c.client.seqNo := by
  have hsilent : ∀ e ∈ (List.replicate (rtosMax - 1) rtoPass).flatten ++ rtoPass,
      ∀ n c, sentBefore n c e = n := by
    have hpass : ∀ e ∈ rtoPass, ∀ n c, sentBefore n c e = n := by simp [rtoPass, sentBefore]
    intro e he
    rcases List.mem_append.mp he with he | he
    · obtain ⟨es, hes, he⟩ := List.mem_flatten.mp he
      exact hpass e (List.eq_of_mem_replicate hes ▸ he)
    · exact hpass e he
  obtain ⟨c', heval, hretry, hserver, hseq⟩ := h.eval_passes (k := rtosMax - 1)
    (P := fun _ c' => c'.server = c.server ∧ c'.client.seqNo = c.client.seqNo) ⟨rfl, rfl⟩
    (fun _ _ hkept => hkept) (by decide)
  have hmax : ¬rtosMax - 1 + 1 < rtosMax := by decide
  have hpc : (c'.afterPass (rtosMax - 1)).clientPc = .getMessage := by
    rw [RudpConn.afterPass, if_neg hmax]
  refine ⟨c'.afterPass (rtosMax - 1), ?_, hpc, hretry.role, hretry.idle, hretry.outstanding,
    hretry.same, hserver, hseq⟩
  rw [clientMachine, Machine.evalFrom_withHistory hsilent, Machine.evalFrom_append, heval,
    Option.bind_some, hretry.eval_rtoPass, Option.map_some]

-- Whatever the message, `end_write` returns `Q2PC_ENONE` for the answer without sending it.
private theorem eval_abandon {d : Datagram} {p : Packet} (h : Retrying c 0)
    (hd : d ∈ c.server.sent) (hseq : d.seqNo = c.client.seqNo) :
    ∃ c', clientMachine.evalFrom (fun s e => s.1.protocol e) (c, n) (abandonEvents d p) =
        some (c', c'.client.sent.length) ∧
      c'.clientPc = .respond 0 (.ret .enone) := by
  obtain ⟨c₁, heval, hpc, hrole, hidle, hack, hsame, hserver, hseq₁⟩ := eval_giveUp (n := n) h
  rw [← hserver] at hd
  rw [← hseq₁] at hseq
  rw [abandonEvents, Machine.evalFrom_append, heval, Option.bind_some]
  simp [Machine.evalFrom, clientMachine, Machine.withHistory, rudpMachine, RudpConn.step,
    RudpConn.clientGet, RudpConn.clientStep, RudpConn.protocol, RudpClientPc.call, hpc,
    EndWriteEvent.from, Rudp.endWriteStep, hack, hrole, Rudp.begRead, hidle, hsame, BaseRead.from,
    sentBefore, hd, hseq, Rudp.accept, Rudp.endRead, Rudp.begWrite]

-- After `RTOS_MAX` timeouts the client gives up on its vote. The server process has the
-- vote and sends the decision. `end_write` then returns `Q2PC_ENONE` for the
-- acknowledgement of the decision, which has not been sent.
theorem unsent_enone : ∃ (c : RudpConn) (n : Nat),
    clientMachine.Reachable (fun s e => s.1.protocol e) (c, n) ∧
    c.clientPc.call = some (.ret .enone, .respond 0) ∧ ¬n < c.client.sent.length := by
  let request : Packet := ⟨⟨.request, -1, 0, 0, 500⟩, 0⟩
  let vote : Packet := ⟨⟨.voteYes, 1, 0, 0, 500⟩, 0⟩
  let commit : Packet := ⟨⟨.commit, -1, 0, 0, 700⟩, 1⟩
  obtain ⟨⟨c, n⟩, hrun, hc⟩ := Machine.exists_run_of_eval clientMachine
    (fun s e => s.1.protocol e)
    (voteEvents request vote ++ [.clientStep .go, .clientStep (.read .eagain), .clientStep .go,
      .clientStep (.clock false), .clientStep .go] ++ decideEvents vote commit)
    (fun cn => decide (cn.1.clientPc = .respond 0 .entry ∧ cn.1.client.isServer = true ∧
      cn.1.client.readData = none ∧ cn.1.client.ackOutstanding = true ∧
      cn.1.client.currentSeq = cn.1.client.seqNo ∧ ⟨1, commit⟩ ∈ cn.1.server.sent ∧
      1 = cn.1.client.seqNo)) (by decide +kernel)
  obtain ⟨hpc, hrole, hidle, hack, hsame, hsent, hseq⟩ := of_decide_eq_true hc
  obtain ⟨c', heval, hpc'⟩ := eval_abandon (n := n) (d := ⟨1, commit⟩)
    (p := ⟨⟨.ack, 1, 0, 0, 700⟩, 1⟩) ⟨hpc, hrole, hidle, hack, hsame⟩ hsent hseq
  have hreach := (Machine.run_of_evalFrom hrun heval).reachable
  exact ⟨c', _, hreach, by rw [hpc']; rfl, Nat.lt_irrefl _⟩

end Q2pc
