import Q2pc.Rudp.Refinement
import Q2pc.System.Outcome

namespace Q2pc

variable {C : Cluster} {s : RudpSystem} {a : System} {q : Nat → Nat} {i : Nat} {d : Datagram}

private theorem Follows.passed (h : Follows C q s a) (hinv : RudpInv C s)
    (hi : i < C.cfg.clientCount) (hd : d ∈ (s.conn i).server.sent) :
    (i, d.packet.plain) ∈ a.net.passed := by
  have hmirror := h.conn i hi
  obtain ⟨k, p, hk, hp, hsame⟩ := (hinv.conn i hi).ok.link.serverSent.sent d hd
  have hlt := hmirror.sent d hd
  rw [← hsame.1.plain_eq]
  exact hmirror.passed k p (by omega) hp

-- What the clients of the two clusters have voted and learnt is the same.
theorem Implements.client (h : Implements C s a) (i : Nat) : a.client i = (s.client i).plain := by
  rcases h with ⟨-, rfl, hclient⟩ | ⟨q, h⟩
  · rw [hclient]
    rfl
  · exact h.client i

private theorem Implements.passed (h : Implements C s a) (hinv : RudpInv C s)
    (hi : i < C.cfg.clientCount) (hd : d ∈ (s.conn i).server.sent) :
    (i, d.packet.plain) ∈ a.net.passed := by
  rcases h with ⟨hup, -, -⟩ | ⟨q, h⟩
  · obtain ⟨-, hwrote, -⟩ := (hinv.connecting hup).2.1 i hi
    obtain ⟨k, p, -, hp, -⟩ := (hinv.conn i hi).ok.link.serverSent.sent d hd
    simp [hwrote] at hp
  · exact h.passed hinv hi hd

-- Each reachable state of the cluster over RUDP is one of the cluster over connections that
-- deliver every message once and in order.
theorem rudp_implements_fifo (hrdp : C.cfg.transType = .rdpLn)
    (h : (rudpSystem C).Reachable Machine.always s) :
    ∃ a, (systemMachine C).Reachable (fun _ e => e.reliable) a ∧ Implements C s a :=
  (rudpSystem_simulates (by simp [hrdp])).reachable h

-- Safety of two-phase commit over RUDP, whatever the network loses, delays, repeats and
-- reorders: a commit is sent, and a client learns of one, only in a round in which all have
-- voted yes, and no two clients learn different decisions of a round.
theorem rudp_commit_safety (hrdp : C.cfg.transType = .rdpLn)
    (h : (rudpSystem C).Reachable Machine.always s) :
    (∀ i < C.cfg.clientCount, ∀ d ∈ (s.conn i).server.sent, d.packet.msg.type = .commit →
      ∃ r, d.packet.stage = 2 * r + 1 ∧
        ∀ j < C.cfg.clientCount, (s.client j).votes[r]? = some .voteYes) ∧
    (∀ r : Nat, ∀ i < C.cfg.clientCount, (s.client i).decisions[r]? = some .commit →
      ∀ j < C.cfg.clientCount, (s.client j).votes[r]? = some .voteYes) ∧
    (∀ r : Nat, ∀ i < C.cfg.clientCount, ∀ j < C.cfg.clientCount,
      (s.client i).decisions[r]? = some .commit → (s.client j).decisions[r]? ≠ some .cancel) := by
  have hqj : C.cfg.transType ≠ .udpQj := by simp [hrdp]
  obtain ⟨a, ha, himpl⟩ := (rudpSystem_simulates hqj).reachable h
  have hlossy := ha.mono (fun _ _ => SysEvent.reliable.lossy)
  have hvotes : ∀ j, (a.client j).votes = (s.client j).votes := fun j => by rw [himpl.client j]; rfl
  have hdecisions : ∀ j, (a.client j).decisions = (s.client j).decisions :=
    fun j => by rw [himpl.client j]; rfl
  refine ⟨?_, ?_, ?_⟩
  · intro i hi d hd hc
    obtain ⟨r, hstage, hyes⟩ :=
      commit_valid hqj hlossy i _ (himpl.passed (rudpInv_of_reachable hqj h) hi hd) hc
    exact ⟨r, hstage, fun j hj => by rw [← hvotes]; exact hyes j hj⟩
  · intro r i hi hc j hj
    rw [← hdecisions] at hc
    rw [← hvotes]
    exact votes_of_learnt hqj hlossy hi hc j hj
  · intro r i hi j hj hc
    rw [← hdecisions] at hc ⊢
    exact learnt_agree hqj hlossy hi hj hc

-- Over RUDP the rounds are decided as over reliable connections.
private theorem decision_eq_outcome_of_sent {r : Nat} (hqj : C.cfg.transType ≠ .udpQj)
    (h : (rudpSystem C).Reachable Machine.always s) (hi : i < C.cfg.clientCount)
    (hd : d ∈ (s.conn i).server.sent) (hstage : d.packet.stage = 2 * r + 1) :
    d.packet.msg.type = outcome C.cfg.clientCount r := by
  obtain ⟨a, ha, himpl⟩ := (rudpSystem_simulates hqj).reachable h
  have hlossy := ha.mono (fun _ _ => SysEvent.reliable.lossy)
  exact decision_eq_outcome (p := d.packet.plain) hqj hlossy
    (himpl.passed (rudpInv_of_reachable hqj h) hi hd) hstage

private theorem learnt_eq_outcome {r : Nat} {t : MsgType} (hqj : C.cfg.transType ≠ .udpQj)
    (h : (rudpSystem C).Reachable Machine.always s) (hi : i < C.cfg.clientCount)
    (ht : (s.client i).decisions[r]? = some t) : t = outcome C.cfg.clientCount r := by
  obtain ⟨a, ha, himpl⟩ := (rudpSystem_simulates hqj).reachable h
  have hlossy := ha.mono (fun _ _ => SysEvent.reliable.lossy)
  obtain ⟨b, m, hinv⟩ := exists_inv hqj hlossy
  have hdecisions : (a.client i).decisions = (s.client i).decisions := by
    rw [himpl.client i]
    rfl
  obtain ⟨p, hp, hstage, rfl⟩ := hinv.history.decisions i hi r t (by rwa [hdecisions])
  exact decision_eq_outcome hqj hlossy hp hstage

-- Over RUDP all runs that get as far decide a round alike, whatever the network does.
theorem rudp_decisions_determined (hrdp : C.cfg.transType = .rdpLn)
    (h : (rudpSystem C).Reachable Machine.always s) :
    (∀ i < C.cfg.clientCount, ∀ d ∈ (s.conn i).server.sent, ∀ r, d.packet.stage = 2 * r + 1 →
      d.packet.msg.type = outcome C.cfg.clientCount r) ∧
    (∀ i < C.cfg.clientCount, ∀ (r : Nat) t, (s.client i).decisions[r]? = some t →
      t = outcome C.cfg.clientCount r) :=
  ⟨fun _ hi _ hd _ hstage => decision_eq_outcome_of_sent (by simp [hrdp]) h hi hd hstage,
    fun _ hi _ _ ht => learnt_eq_outcome (by simp [hrdp]) h hi ht⟩

-- The vote of the only client is counted, and the commit reaches it.
def commitOnceEvents : List RudpSysEvent :=
  let commit : Packet := ⟨requestMsg .commit 9, 1⟩
  voteOnceEvents ++ recordVoteEvents ++ List.replicate 3 (.server .master) ++
  [.server (.endWrite 0), .endWrite 0 .go, .endWrite 0 .go, .endWrite 0 .go,
    .server (.endWriteRet 0 .enone), .server .master, .server .master, .server (.clock true)] ++
  List.replicate 11 (.server .master) ++ [.server (.begWrite 0 commit)] ++
  List.replicate 3 (.server .master) ++
  [.server (.endWrite 0), .endWrite 0 (.base true), .clientEndWrite 0 .go,
    .clientEndWrite 0 (.read (.data ⟨1, commit⟩)), .clientEndWrite 0 .go, .clientEndWrite 0 .go,
    .receive 0 .eagain]

def rudpOne : Cluster := .oneThread .rdpLn 1 100 1 (by decide) (by decide)

private theorem commitOnce_run : ∃ s, (rudpSystem rudpOne).Run Machine.always commitOnceEvents s ∧
    ((s.client 0).decisions == [.commit]) = true :=
  Machine.exists_run_of_eval _ _ _ _ (by decide +kernel)

theorem rudp_implements_fifo_one : ∃ s : RudpSystem,
    (rudpSystem rudpOne).Reachable Machine.always s ∧ (s.client 0).decisions = [.commit] ∧
    ∃ a, (systemMachine rudpOne).Reachable (fun _ e => e.reliable) a ∧ Implements rudpOne s a := by
  obtain ⟨s, hrun, hs⟩ := commitOnce_run
  exact ⟨s, hrun.reachable, by simpa using hs,
    rudp_implements_fifo (C := rudpOne) rfl hrun.reachable⟩

theorem rudp_decisions_determined_one : ∃ s : RudpSystem,
    (rudpSystem rudpOne).Reachable Machine.always s ∧ (s.client 0).decisions = [.commit] ∧
    (∀ i < 1, ∀ d ∈ (s.conn i).server.sent, ∀ r, d.packet.stage = 2 * r + 1 →
      d.packet.msg.type = outcome 1 r) ∧
    (∀ i < 1, ∀ (r : Nat) t, (s.client i).decisions[r]? = some t → t = outcome 1 r) := by
  obtain ⟨s, hrun, hs⟩ := commitOnce_run
  exact ⟨s, hrun.reachable, by simpa using hs,
    rudp_decisions_determined (C := rudpOne) rfl hrun.reachable⟩

-- The message of a phase goes out on a connection, and its client responds to the only worker.
def rudpExchangeEvents (i stage : Nat) (ph : Phase) (response : MsgType) : List RudpSysEvent :=
  let request : Packet := ⟨requestMsg ph.msgType 0, stage⟩
  [.server .master, .server (.endWrite i), .endWrite i (.base true), .endWrite i .go,
    .clientEndWrite i .go, .clientEndWrite i (.read (.data ⟨stage, request⟩)),
    .clientEndWrite i .go, .clientEndWrite i .go, .receive i .eagain, .respond i,
    .clientEndWrite i (.base true),
    .begRead 0 i (.data ⟨stage + 1, ⟨⟨response, i + 1, 0, 0, 0⟩, stage⟩⟩), .server (.worker 0),
    .server (.endRead 0 i), .server (.worker 0), .server (.worker 0), .server (.timeEnd 0 0),
    .endWrite i .go, .endWrite i .go, .server (.endWriteRet i .enone)]

def rudpPhaseEvents (n stage : Nat) (ph : Phase) (response : Nat → MsgType) :
    List RudpSysEvent :=
  .replicate (n + 1) (.server .master) ++
  ((List.range n).flatMap fun i =>
    [.server .master, .server (.begWrite i ⟨requestMsg ph.msgType 0, stage⟩)]) ++
  .replicate 2 (.server .master) ++ .replicate 2 (.server (.worker 0)) ++
  ((List.range n).flatMap fun i => rudpExchangeEvents i stage ph (response i)) ++
  .server (.worker 0) :: .replicate 2 (.server .master) ++
  .server (.clock false) :: .replicate (2 * n + 8) (.server .master)

-- `n` clients connect, vote and learn the decision.
def rudpRoundEvents (n : Nat) (status : CommitStatus) (vote : Nat → MsgType) :
    List RudpSysEvent :=
  ((List.range n).flatMap fun i => [.clientInit i, .clientEndWrite i (.base true),
    .connect i (.data ⟨0, ⟨conMsg (i + 1), 0⟩⟩)]) ++
  .start :: .server .master :: rudpPhaseEvents n 0 .phase1 vote ++
  rudpPhaseEvents n 1 (.phase2 status) fun _ => .ack

theorem rudp_commit_safety_pair : ∃ s : RudpSystem,
    (rudpSystem (pair .rdpLn)).Reachable Machine.always s ∧
    (s.client 0).decisions = [.commit] ∧ (s.client 1).decisions = [.commit] ∧
    (∀ i < 2, ∀ d ∈ (s.conn i).server.sent, d.packet.msg.type = .commit →
      ∃ r, d.packet.stage = 2 * r + 1 ∧ ∀ j < 2, (s.client j).votes[r]? = some .voteYes) ∧
    (∀ r : Nat, ∀ i < 2, (s.client i).decisions[r]? = some .commit →
      ∀ j < 2, (s.client j).votes[r]? = some .voteYes) ∧
    (∀ r : Nat, ∀ i < 2, ∀ j < 2,
      (s.client i).decisions[r]? = some .commit → (s.client j).decisions[r]? ≠ some .cancel) := by
  obtain ⟨s, hrun, hs⟩ := Machine.exists_run_of_eval (rudpSystem (pair .rdpLn)) Machine.always
    (rudpRoundEvents 2 .requestSuccess fun _ => .voteYes)
    (fun s => (s.client 0).decisions == [.commit] && (s.client 1).decisions == [.commit])
    (by decide +kernel)
  simp only [Bool.and_eq_true, beq_iff_eq] at hs
  exact ⟨s, hrun.reachable, hs.1, hs.2,
    rudp_commit_safety (C := pair .rdpLn) rfl hrun.reachable⟩

private theorem no_commit_passed (hn : 5 ≤ C.cfg.clientCount) (hqj : C.cfg.transType ≠ .udpQj)
    (ha : (systemMachine C).Reachable (fun _ e => e.lossy) a) :
    ∀ x ∈ a.net.passed, x.2.msg.type ≠ .commit := by
  intro x hx hc
  obtain ⟨r, hstage, -⟩ := commit_valid hqj ha x.1 x.2 hx hc
  have houtcome := decision_eq_outcome hqj ha hx hstage
  rw [outcome_of_five hn, hc] at houtcome
  contradiction

private theorem no_commit_learnt (hn : 5 ≤ C.cfg.clientCount) (hqj : C.cfg.transType ≠ .udpQj)
    (ha : (systemMachine C).Reachable (fun _ e => e.lossy) a) (hi : i < C.cfg.clientCount) :
    .commit ∉ (a.client i).decisions := by
  intro hmem
  obtain ⟨b, m, hinv⟩ := exists_inv hqj ha
  obtain ⟨r, hr⟩ := List.getElem?_of_mem hmem
  obtain ⟨p, hp, -, htype⟩ := hinv.history.decisions i hi r .commit hr
  exact no_commit_passed hn hqj ha _ hp htype

-- A cluster of five clients or more commits in no round: one of any five in a row votes no.
theorem five_never_commit (hn : 5 ≤ C.cfg.clientCount) :
    (C.cfg.transType ≠ .udpQj → ∀ a, (systemMachine C).Reachable (fun _ e => e.lossy) a →
      (∀ x ∈ a.net.passed, x.2.msg.type ≠ .commit) ∧
      ∀ i < C.cfg.clientCount, .commit ∉ (a.client i).decisions) ∧
    (C.cfg.transType = .rdpLn → ∀ s, (rudpSystem C).Reachable Machine.always s →
      ∀ i < C.cfg.clientCount, (∀ d ∈ (s.conn i).server.sent, d.packet.msg.type ≠ .commit) ∧
        .commit ∉ (s.client i).decisions) := by
  refine ⟨fun hqj a ha =>
    ⟨no_commit_passed hn hqj ha, fun i hi => no_commit_learnt hn hqj ha hi⟩, ?_⟩
  intro hrdp s hs i hi
  have hqj : C.cfg.transType ≠ .udpQj := by simp [hrdp]
  obtain ⟨a, ha, himpl⟩ := (rudpSystem_simulates hqj).reachable hs
  have hlossy := ha.mono (fun _ _ => SysEvent.reliable.lossy)
  refine ⟨fun d hd => ?_, ?_⟩
  · exact no_commit_passed hn hqj hlossy _ (himpl.passed (rudpInv_of_reachable hqj hs) hi hd)
  · have hlearnt := no_commit_learnt hn hqj hlossy hi
    rwa [himpl.client i] at hlearnt

-- Five clients are asked for their votes, the last votes no, and the first gets the cancel.
def fiveCancelEvents : List SysEvent :=
  .server .master :: sendEvents 5 .phase1 0 ++ answerEvents (List.range 5) ++
  passEvents (.replicate 4 (some (.voteYes, 0)) ++ [some (.voteNo, 0)]) ++ scanEvents 5 false ++
  sendEvents 5 (.phase2 .requestFail) 1 ++ [.receive 0]

def five (transType : TransType) : Cluster := .oneThread transType 5 100 1 (by decide) (by decide)

theorem five_never_commit_five :
    (∃ a : System, (systemMachine (five .tcpLn)).Reachable (fun _ e => e.lossy) a ∧
      (a.client 0).decisions = [.cancel] ∧
      (∀ x ∈ a.net.passed, x.2.msg.type ≠ .commit) ∧
      ∀ i < 5, .commit ∉ (a.client i).decisions) ∧
    ∃ s : RudpSystem, (rudpSystem (five .rdpLn)).Reachable Machine.always s ∧
      (s.client 4).decisions = [.cancel] ∧
      ∀ i < 5, (∀ d ∈ (s.conn i).server.sent, d.packet.msg.type ≠ .commit) ∧
        .commit ∉ (s.client i).decisions := by
  obtain ⟨a, harun, ha⟩ := Machine.exists_run_of_eval (systemMachine (five .tcpLn))
    (fun _ e => e.lossy) fiveCancelEvents (fun a => (a.client 0).decisions == [.cancel])
    (by decide +kernel)
  obtain ⟨s, hsrun, hs⟩ := Machine.exists_run_of_eval (rudpSystem (five .rdpLn)) Machine.always
    (rudpRoundEvents 5 .requestFail fun i => if i = 4 then .voteNo else .voteYes)
    (fun s => (s.client 4).decisions == [.cancel]) (by decide +kernel)
  exact ⟨⟨a, harun.reachable, by simpa using ha,
      (five_never_commit (C := five .tcpLn) (by decide)).1 (by decide) a harun.reachable⟩,
    s, hsrun.reachable, by simpa using hs,
    (five_never_commit (C := five .rdpLn) (by decide)).2 rfl s hsrun.reachable⟩

end Q2pc
