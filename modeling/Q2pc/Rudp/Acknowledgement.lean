import Q2pc.Rudp.Exchange

namespace Q2pc

variable {c c' : RudpConn} {s s' : Rudp} {e : RudpEvent} {es : List RudpEvent}

-- The answer to the last message of the server process has been accepted.
def Rudp.Replied (s : Rudp) : Prop := s.wrote ≠ [] ∧ s.accepted.length = s.wrote.length + 1

instance (s : Rudp) : Decidable s.Replied := by
  unfold Rudp.Replied
  infer_instance

-- While a message is outstanding and its answer accepted, `current_seq` shows it, and a
-- call of `end_write` that compares the two returns `Q2PC_ENONE`.
structure RudpConn.NoMissedAck (c : RudpConn) : Prop where
  differs : c.server.ackOutstanding = true → c.server.Replied →
    c.server.currentSeq ≠ c.server.seqNo
  compared : c.master = .call .compare → c.server.Replied →
    ∃ s, c.server.endWriteStep .compare .go = some (s, .ret .enone)

-- `seq_no` is copied to `current_seq` before the answer to the message just sent is
-- accepted.
def RudpConn.copiedInTime (c : RudpConn) (e : RudpEvent) : Prop :=
  c.protocol e ∧ (e = .masterStep .go → c.master = .call .record → ¬c.server.Replied)

instance (c : RudpConn) (e : RudpEvent) : Decidable (c.copiedInTime e) := by
  unfold RudpConn.copiedInTime
  infer_instance

-- `current_seq` is the sequence number of the outstanding message.
def Rudp.Tight (s : Rudp) : Prop := s.ackOutstanding = true → s.currentSeq + 1 = s.wrote.length

private theorem Rudp.Tight.call {pc pc' : EndWritePc} {ev : EndWriteEvent} (h : s.Tight)
    (hrole : s.isServer = false) (hlink : s.seqNo + 1 = s.accepted.length)
    (hcopy : ev = .go → pc = .record → (s.accepted.length : Int) = s.wrote.length)
    (hs : s.EndWriteStep pc ev s' pc') : s'.Tight := by
  cases hs with
  | record =>
      intro _
      have := hcopy rfl rfl
      simp only
      omega
  | probe x hrole' | probeFin x hrole' => simp [hrole] at hrole'
  | acked => simp [Rudp.Tight]
  | _ => exact h

private theorem Rudp.Tight.read (h : s.Tight) (x : BaseRead) : (s.begRead x).1.Tight := by
  rcases s.begRead_accept x with ⟨heq, -⟩ | ⟨d, k, -, -, heq⟩
  · rwa [heq]
  · rw [heq]
    exact h

private theorem Rudp.Tight.step (h : c.server.Tight) (hok : c.Ok) (hp : c.copiedInTime e)
    (hs : RudpStep c e c') : c'.server.Tight := by
  have hlink := hok.link
  cases hs with
  | masterWrite _ =>
      have hidle := hok.master
      rw [hp.1.1] at hidle
      intro hack
      simp [Rudp.begWrite, hidle.1] at hack
  | masterStep hpc hstep =>
      refine h.call hlink.serverRole hlink.serverSeq (fun hgo hrecord => ?_) hstep
      subst hgo hrecord
      have hnot := hp.2 rfl hpc
      have hmaster := hok.master
      rw [hpc] at hmaster
      have hlen : c.server.accepted.length ≠ c.server.wrote.length + 1 :=
        fun hlen => hnot ⟨hmaster.1, hlen⟩
      have := hlink.serverWrote_le
      have := hlink.clientWrote_le
      have := hlink.clientHeard_le
      have := hlink.serverHeard.length_le
      omega
  | workerRead _ => exact h.read _
  | masterCall _ | masterRet _ | workerRelease | connect _ | respond _ | clientRet _
  | clientStep _ _ _ | clientGet _ _ _ | clientFin _ _ _ | clientAgain _ _ _ | clientQuit =>
      exact h

private theorem RudpConn.Ok.noMissedAck (hok : c.Ok) (h : c.server.Tight) : c.NoMissedAck := by
  have hdiffers : c.server.ackOutstanding = true → c.server.Replied →
      c.server.currentSeq ≠ c.server.seqNo := by
    intro hack hreplied
    have := h hack
    have := hreplied.2
    have := hok.link.serverSeq
    omega
  refine ⟨hdiffers, fun hpc hreplied => ?_⟩
  have hmaster := hok.master
  rw [hpc] at hmaster
  exact ⟨_, if_pos (hdiffers hmaster.2.1 hreplied)⟩

private theorem tight_of_run (h : rudpMachine.Run RudpConn.copiedInTime es c) :
    c.Ok ∧ c.server.Tight := by
  induction h with
  | nil => exact ⟨.init, by simp [rudpMachine, RudpConn.init, Rudp.Tight, Rudp.connect]⟩
  | snoc _ hp hs ih =>
      have hstep := RudpConn.step_cases hs
      exact ⟨ih.1.step hp.1 hstep, ih.2.step ih.1 hp hstep⟩

-- In a run of the protocol no acknowledgement is missed exactly when no answer is accepted
-- between the transmission of its message and the copy of `seq_no`.
theorem no_missed_ack_iff (h : rudpMachine.Run RudpConn.protocol es c) :
    (∀ es₁ c₁, es₁ <+: es → rudpMachine.Run RudpConn.protocol es₁ c₁ → c₁.NoMissedAck) ↔
      rudpMachine.Run RudpConn.copiedInTime es c := by
  constructor
  · intro hall
    induction h with
    | nil => exact .nil
    | @snoc es c c' e hrun hp hs ih =>
        have hprefix := List.prefix_append es [e]
        refine (ih fun es₁ c₁ hle => hall es₁ c₁ (hle.trans hprefix)).snoc ⟨hp, ?_⟩ hs
        rintro rfl hpc hreplied
        -- the copy takes the sequence number of the answer
        have hmissed := hall _ c' List.prefix_rfl (hrun.snoc hp hs)
        have hstep : RudpStep c (.masterStep .go) c' := RudpConn.step_cases hs
        cases hstep with
        | masterStep hpc' hstep =>
            obtain rfl := MasterWrite.call.inj (hpc.symm.trans hpc')
            cases hstep with
            | record => exact hmissed.differs rfl hreplied rfl
  · intro hcopied es₁ c₁ hle hrun
    obtain ⟨c₂, hrun₂⟩ := hcopied.take hle
    obtain rfl := hrun₂.unique hrun
    obtain ⟨hok, htight⟩ := tight_of_run hrun₂
    exact hok.noMissedAck htight

theorem no_missed_ack_iff_vote : ∃ (es : List RudpEvent) (c : RudpConn),
    rudpMachine.Run RudpConn.protocol es c ∧
    c.server.Replied ∧ c.server.ackOutstanding = true ∧
    ∀ es₁ c₁, es₁ <+: es → rudpMachine.Run RudpConn.protocol es₁ c₁ → c₁.NoMissedAck := by
  let con : Packet := ⟨⟨.con, 1, 0, 0, 0⟩, 0⟩
  let request : Packet := ⟨⟨.request, -1, 0, 0, 500⟩, 0⟩
  let vote : Packet := ⟨⟨.voteYes, 1, 0, 0, 500⟩, 0⟩
  obtain ⟨c, hrun, hc⟩ := Machine.exists_run_of_eval rudpMachine RudpConn.copiedInTime
    [.clientWrite con, .clientStep (.base true), .clientStep .go, .workerRead (.data ⟨0, con⟩),
      .workerRelease, .masterWrite request, .masterCall, .masterStep (.base true),
      .masterStep .go, .clientStep (.read (.data ⟨0, request⟩)), .clientStep .go, .clientStep .go,
      .clientGet .eagain, .clientWrite vote, .clientStep (.base true),
      .workerRead (.data ⟨1, vote⟩)]
    (fun c => decide (c.server.Replied ∧ c.server.ackOutstanding = true)) (by decide +kernel)
  obtain ⟨hreplied, hack⟩ := of_decide_eq_true hc
  have hprotocol := hrun.mono fun _ _ h => h.1
  exact ⟨_, c, hprotocol, hreplied, hack, (no_missed_ack_iff hprotocol).mpr hrun⟩

-- The acknowledgement is missed: the answer is in, and the master goes on waiting for it.
structure RudpConn.Missed (c : RudpConn) : Prop where
  replied : c.server.Replied
  outstanding : c.server.ackOutstanding = true
  same : c.server.currentSeq = c.server.seqNo
  waits : c.master = .filled ∨ c.master = .failed ∨
    ∃ pc, c.master = .call pc ∧ pc ≠ .record ∧ pc ≠ .ret .enone

instance (c : RudpConn) : Decidable (c.master = .filled ∨ c.master = .failed ∨
    ∃ pc, c.master = .call pc ∧ pc ≠ .record ∧ pc ≠ .ret .enone) :=
  match c.master with
  | .idle => isFalse (by simp)
  | .filled => isTrue (.inl rfl)
  | .failed => isTrue (.inr (.inl rfl))
  | .call pc => decidable_of_iff (pc ≠ .record ∧ pc ≠ .ret .enone) (by simp)

private theorem Rudp.EndWriteStep.missed {pc pc' : EndWritePc} {ev : EndWriteEvent}
    (hrole : s.isServer = false) (hack : s.ackOutstanding = true) (heq : s.currentSeq = s.seqNo)
    (hpc : pc ≠ .record ∧ pc ≠ .ret .enone) (hs : s.EndWriteStep pc ev s' pc') :
    s'.wrote = s.wrote ∧ s'.accepted = s.accepted ∧ s'.ackOutstanding = true ∧
      s'.currentSeq = s'.seqNo ∧ pc' ≠ .record ∧ pc' ≠ .ret .enone := by
  cases hs with
  | record => exact absurd rfl hpc.1
  | transmit hno | failed hno => simp [hack] at hno
  | acked hne => exact absurd heq hne
  | probe x hrole' | probeFin x hrole' => simp [hrole] at hrole'
  | _ => exact ⟨rfl, rfl, hack, heq, by simp, by simp⟩

-- From then on no call of `end_write` returns `Q2PC_ENONE`: the message is sent over and
-- over again.
theorem RudpConn.Missed.step (h : c.Missed) (hok : c.Ok) (hp : c.protocol e)
    (hs : RudpStep c e c') : c'.Missed := by
  have hlink := hok.link
  cases hs with
  | masterWrite _ =>
      have hidle := hok.master
      rw [hp.1] at hidle
      simp [h.outstanding, MasterWrite.Ok] at hidle
  | masterCall _ => exact ⟨h.replied, h.outstanding, h.same, .inr (.inr ⟨_, rfl, by simp, by simp⟩)⟩
  | masterStep hpc hstep =>
      have hwaits := h.waits
      simp only [hpc, reduceCtorEq, MasterWrite.call.injEq, exists_eq_left', false_or] at hwaits
      obtain ⟨hwrote, haccepted, hack, heq, hnext⟩ :=
        hstep.missed hlink.serverRole h.outstanding h.same hwaits
      refine ⟨?_, hack, heq, .inr (.inr ⟨_, rfl, hnext⟩)⟩
      simp only [Rudp.Replied, hwrote, haccepted]
      exact h.replied
  | @masterRet r hpc =>
      have hwaits := h.waits
      simp only [hpc, reduceCtorEq, MasterWrite.call.injEq, exists_eq_left', false_or] at hwaits
      refine ⟨h.replied, h.outstanding, h.same, ?_⟩
      cases r with
      | enone => exact absurd rfl hwaits.2
      | eagain | rtofired => exact .inl rfl
      | efin => exact .inr (.inl rfl)
  | @workerRead x hx =>
      rcases c.server.begRead_cases x with ⟨heq, -⟩ | ⟨d, rfl, -, -, hdata⟩
      · simp only [heq]
        exact ⟨h.replied, h.outstanding, h.same, h.waits⟩
      · exact absurd (hdata hlink.serverRole).1 (hlink.not_newer hx h.replied.2)
  | workerRelease => exact ⟨h.replied, h.outstanding, h.same, h.waits⟩
  | connect _ | respond _ | clientRet _ | clientStep _ _ _ | clientGet _ _ _ | clientFin _ _ _
  | clientAgain _ _ _ | clientQuit => exact ⟨h.replied, h.outstanding, h.same, h.waits⟩

-- The worker accepts the vote after the request is sent and before the master copies
-- `seq_no`.
theorem ack_missed : ∃ c : RudpConn, rudpMachine.Reachable RudpConn.protocol c ∧
    c.Missed ∧ ¬c.NoMissedAck := by
  let con : Packet := ⟨⟨.con, 1, 0, 0, 0⟩, 0⟩
  let request : Packet := ⟨⟨.request, -1, 0, 0, 500⟩, 0⟩
  let vote : Packet := ⟨⟨.voteYes, 1, 0, 0, 500⟩, 0⟩
  obtain ⟨c, hrun, hc⟩ := Machine.exists_run_of_eval rudpMachine RudpConn.protocol
    [.clientWrite con, .clientStep (.base true), .clientStep .go, .workerRead (.data ⟨0, con⟩),
      .workerRelease, .masterWrite request, .masterCall, .masterStep (.base true),
      .clientStep (.read (.data ⟨0, request⟩)), .clientStep .go, .clientStep .go,
      .clientGet .eagain, .clientWrite vote, .clientStep (.base true),
      .workerRead (.data ⟨1, vote⟩), .masterStep .go]
    (fun c => decide (c.server.Replied ∧ c.server.ackOutstanding = true ∧
      c.server.currentSeq = c.server.seqNo ∧ (c.master = .filled ∨ c.master = .failed ∨
        ∃ pc, c.master = .call pc ∧ pc ≠ .record ∧ pc ≠ .ret .enone))) (by decide +kernel)
  obtain ⟨hreplied, hack, heq, hwaits⟩ := of_decide_eq_true hc
  exact ⟨c, hrun.reachable, ⟨hreplied, hack, heq, hwaits⟩,
    fun h => h.differs hack hreplied heq⟩

end Q2pc
