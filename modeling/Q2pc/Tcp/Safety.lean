import Q2pc.System.Outcome
import Q2pc.Tcp.Refinement

namespace Q2pc

variable {C : Cluster} {msgSize i w : Nat} {s : TcpSystem} {a : System} {p : Packet}

namespace TcpImplements

theorem logs (h : TcpImplements msgSize C s a) (i : Nat) :
    (s.client i).votes = (a.client i).votes ∧ (s.client i).decisions = (a.client i).decisions := by
  rcases h with h | h
  · rw [h.client]
    exact ⟨rfl, rfl⟩
  · exact (h.client i).logs

private theorem carries (h : TcpImplements msgSize C s a) (hi : i < C.cfg.clientCount) :
    (s.conn i).down.Carries msgSize (s.conn i).passed := by
  rcases h with h | h
  · have hc := h.conn i hi
    exact hc.passed ▸ hc.down
  · exact (h.conn i hi).down

private theorem passed (h : TcpImplements msgSize C s a) (hi : i < C.cfg.clientCount)
    (hp : p ∈ (s.conn i).passed) : (i, p) ∈ a.net.passed := by
  rcases h with h | h
  · simp [(h.conn i hi).passed] at hp
  · exact (h.conn i hi).passed p hp

private theorem last (h : TcpImplements msgSize C s a) (hi : i < C.cfg.clientCount)
    (hpc : (s.client i).pc = .respond p) (hanswer : (s.client i).answer p ≠ none) :
    (s.conn i).Last p := by
  rcases h with h | h
  · exact absurd hpc (h.unstarted i p)
  · rcases h.client i with hsame | ⟨old, old', -, hsame, hnone⟩
    · exact h.last i hi p (hsame ▸ hpc)
    · -- the client has another message, and would terminate
      rw [hsame, ClientPc.respond.injEq] at hpc
      exact absurd (hpc ▸ hnone) hanswer

private theorem next {b m : Nat → Nat} (h : TcpImplements msgSize C s a) (hinv : Inv C a b m)
    (hw : w < C.cfg.threadCount) (hpc : (s.srv.workers w).pc = .score i p) :
    (s.conn i).sent[(s.conn i).up.delivered.length]? = some p := by
  rcases h with h | h
  · simp [h.srv, Server.init] at hpc
  · obtain ⟨hi, hpending⟩ := h.pending hinv hw (.inl hpc)
    have htoServer := (h.conn i hi).toServer
    rw [hpending, Option.toList_some, List.singleton_append] at htoServer
    have hhead := congrArg List.head? htoServer
    rwa [List.head?_cons, List.head?_drop, eq_comm] at hhead

end TcpImplements

-- Each reachable state of the cluster over TCP is one of the cluster over connections that
-- deliver every message once, whole and in order.
theorem tcp_implements_fifo (hmin : 16 ≤ msgSize) (htcp : C.cfg.transType = .tcpLn)
    (h : (tcpSystem msgSize C).Reachable Machine.always s) :
    ∃ a, (systemMachine C).Reachable (fun _ e => e.reliable) a ∧ TcpImplements msgSize C s a := by
  obtain ⟨a, -, ha, himpl⟩ := (tcpSystem_simulates hmin htcp).reachable h
  exact ⟨a, ha, himpl⟩

-- Safety of two-phase commit over the streams of TCP, wherever they are cut.
theorem tcp_commit_safety (hmin : 16 ≤ msgSize) (htcp : C.cfg.transType = .tcpLn)
    (h : (tcpSystem msgSize C).Reachable Machine.always s) :
    (∀ i < C.cfg.clientCount,
      (s.conn i).down.wrote.map Msg.decode = (s.conn i).passed.map Packet.msg ∧
      ∀ p ∈ (s.conn i).passed, p.msg.type = .commit → ∃ r, p.stage = 2 * r + 1 ∧
        ∀ j < C.cfg.clientCount, (s.client j).votes[r]? = some .voteYes) ∧
    (∀ r : Nat, ∀ i < C.cfg.clientCount, (s.client i).decisions[r]? = some .commit →
      ∀ j < C.cfg.clientCount, (s.client j).votes[r]? = some .voteYes) ∧
    (∀ r : Nat, ∀ i < C.cfg.clientCount, ∀ j < C.cfg.clientCount,
      (s.client i).decisions[r]? = some .commit → (s.client j).decisions[r]? ≠ some .cancel) := by
  have hqj : C.cfg.transType ≠ .udpQj := by simp [htcp]
  obtain ⟨a, -, ha, himpl⟩ := (tcpSystem_simulates hmin htcp).reachable h
  have hlossy := ha.mono (fun _ _ => SysEvent.reliable.lossy)
  have hvotes := fun j => (himpl.logs j).1
  have hdecisions := fun j => (himpl.logs j).2
  refine ⟨?_, ?_, ?_⟩
  · intro i hi
    refine ⟨(himpl.carries hi).wrote, fun p hp hc => ?_⟩
    obtain ⟨r, hstage, hyes⟩ := commit_valid hqj hlossy i p (himpl.passed hi hp) hc
    exact ⟨r, hstage, fun j hj => by rw [hvotes]; exact hyes j hj⟩
  · intro r i hi hc j hj
    rw [hdecisions] at hc
    rw [hvotes]
    exact votes_of_learnt hqj hlossy hi hc j hj
  · intro r i hi j hj hc
    rw [hdecisions] at hc ⊢
    exact learnt_agree hqj hlossy hi hj hc

-- Wherever the streams are cut, what a client answers is the message that the server sent,
-- and what a worker scores is the next that the client sent.
theorem tcp_messages_intact (hmin : 16 ≤ msgSize) (htcp : C.cfg.transType = .tcpLn)
    (h : (tcpSystem msgSize C).Reachable Machine.always s) :
    (∀ i < C.cfg.clientCount, ∀ p, (s.client i).pc = .respond p → (s.client i).answer p ≠ none →
      ∃ k, (s.conn i).down.delivered.length = k + 1 ∧ (s.conn i).passed[k]? = some p) ∧
    (∀ w < C.cfg.threadCount, ∀ i p, (s.srv.workers w).pc = .score i p →
      (s.conn i).sent[(s.conn i).up.delivered.length]? = some p) := by
  obtain ⟨a, -, ha, himpl⟩ := (tcpSystem_simulates hmin htcp).reachable h
  obtain ⟨b, m, hinv⟩ := exists_inv (by simp [htcp])
    (ha.mono fun _ _ => SysEvent.reliable.lossy)
  exact ⟨fun i hi p hpc hanswer => himpl.last hi hpc hanswer,
    fun w hw i p hpc => himpl.next hinv hw hpc⟩

-- A message that is read wrong takes a timeout: without one the server, its statistics and the
-- clients are as they are over connections that deliver whole messages, and a client has each
-- message as the server sent it.
theorem tcp_faultFree_exact (hmin : 16 ≤ msgSize) (htcp : C.cfg.transType = .tcpLn)
    (h : (tcpSystem msgSize C).Reachable TcpSystem.faultFree s) :
    (∃ a, (systemMachine C).Reachable System.faultFree a ∧ s.srv = a.srv ∧ s.client = a.client) ∧
    ∀ i < C.cfg.clientCount, ∀ p, (s.client i).pc = .respond p →
      ∃ k, (s.conn i).down.delivered.length = k + 1 ∧ (s.conn i).passed[k]? = some p := by
  obtain ⟨a, -, ha, himpl, hsrv, hclient⟩ := (tcpSystem_simulates_exact hmin htcp).reachable h
  refine ⟨⟨a, ha, hsrv, hclient⟩, fun i hi p hpc => ?_⟩
  rcases himpl with himpl | himpl
  · exact absurd hpc (himpl.unstarted i p)
  · rw [hclient] at hpc
    exact himpl.last i hi p hpc

-- A step of the cluster with whole messages over streams that are cut inside of them.
def cutEvents : SysEvent → List TcpSysEvent
  | .server (.endWrite i) =>
      [.server (.endWrite i), .write i (.wrote 10), .write i .again, .write i (.wrote 6)]
  | .server (.begRead w i _) => [.begRead w i (.chunk 16)]
  | .server e => [.server e]
  | .receive i => [.receive i (.chunk 7), .receive i (.chunk 9)]
  | .respond i => [.respond i, .clientWrite i (.wrote 16)]
  | .quit i => [.quit i]
  | .faultToClient .. | .faultToServer .. => []

def tcpConnectEvents : List TcpSysEvent :=
  ([0, 1].flatMap fun i => [.clientInit i, .clientWrite i (.wrote 16), .connect i (.chunk 16)]) ++
  [.start]

private theorem tcpCommit_run : ∃ s, (tcpSystem 16 (pair .tcpLn)).Run Machine.always
    (tcpConnectEvents ++ pairCommitEvents.flatMap cutEvents) s ∧
    ((s.client 0).decisions == [.commit]) = true :=
  Machine.exists_run_of_eval _ _ _ _ (by decide +kernel)

theorem tcp_implements_fifo_pair : ∃ s : TcpSystem,
    (tcpSystem 16 (pair .tcpLn)).Reachable Machine.always s ∧
    (s.client 0).decisions = [.commit] ∧
    ∃ a, (systemMachine (pair .tcpLn)).Reachable (fun _ e => e.reliable) a ∧
      TcpImplements 16 (pair .tcpLn) s a := by
  obtain ⟨s, hrun, hs⟩ := tcpCommit_run
  exact ⟨s, hrun.reachable, by simpa using hs,
    tcp_implements_fifo (C := pair .tcpLn) (Nat.le_refl 16) rfl hrun.reachable⟩

theorem tcp_commit_safety_pair : ∃ s : TcpSystem,
    (tcpSystem 16 (pair .tcpLn)).Reachable Machine.always s ∧
    (s.client 0).decisions = [.commit] ∧
    (∀ i < 2, (s.conn i).down.wrote.map Msg.decode = (s.conn i).passed.map Packet.msg ∧
      ∀ p ∈ (s.conn i).passed, p.msg.type = .commit → ∃ r, p.stage = 2 * r + 1 ∧
        ∀ j < 2, (s.client j).votes[r]? = some .voteYes) ∧
    (∀ r : Nat, ∀ i < 2, (s.client i).decisions[r]? = some .commit →
      ∀ j < 2, (s.client j).votes[r]? = some .voteYes) ∧
    (∀ r : Nat, ∀ i < 2, ∀ j < 2,
      (s.client i).decisions[r]? = some .commit → (s.client j).decisions[r]? ≠ some .cancel) := by
  obtain ⟨s, hrun, hs⟩ := tcpCommit_run
  exact ⟨s, hrun.reachable, by simpa using hs,
    tcp_commit_safety (C := pair .tcpLn) (Nat.le_refl 16) rfl hrun.reachable⟩

-- One client has voted and its vote is about to be scored, the other has the request.
def voteReadEvents : List SysEvent :=
  .server .master :: sendEvents 2 .phase1 0 ++
  [.receive 0, .respond 0, .receive 1, .server (.worker 0), .server (.worker 0),
    .server (.begRead 0 0 .unset)]

theorem tcp_messages_intact_pair : ∃ s : TcpSystem,
    (tcpSystem 16 (pair .tcpLn)).Reachable Machine.always s ∧
    (s.client 1).pc = .respond ⟨requestMsg .request 0, 0⟩ ∧
    (s.srv.workers 0).pc = .score 0 ⟨⟨.voteYes, 1, 0, 0, 0⟩, 0⟩ ∧
    (∀ i < 2, ∀ p, (s.client i).pc = .respond p → (s.client i).answer p ≠ none →
      ∃ k, (s.conn i).down.delivered.length = k + 1 ∧ (s.conn i).passed[k]? = some p) ∧
    (∀ w < 1, ∀ i p, (s.srv.workers w).pc = .score i p →
      (s.conn i).sent[(s.conn i).up.delivered.length]? = some p) := by
  obtain ⟨s, hrun, hs⟩ := Machine.exists_run_of_eval (tcpSystem 16 (pair .tcpLn)) Machine.always
    (tcpConnectEvents ++ voteReadEvents.flatMap cutEvents)
    (fun s => (s.client 1).pc == .respond ⟨requestMsg .request 0, 0⟩ &&
      (s.srv.workers 0).pc == .score 0 ⟨⟨.voteYes, 1, 0, 0, 0⟩, 0⟩) (by decide +kernel)
  rw [Bool.and_eq_true, beq_iff_eq, beq_iff_eq] at hs
  exact ⟨s, hrun.reachable, hs.1, hs.2,
    tcp_messages_intact (C := pair .tcpLn) (Nat.le_refl 16) rfl hrun.reachable⟩

theorem tcp_faultFree_exact_pair : ∃ s : TcpSystem,
    (tcpSystem 16 (pair .tcpLn)).Reachable TcpSystem.faultFree s ∧
    (s.client 0).decisions = [.commit] ∧
    (∃ a, (systemMachine (pair .tcpLn)).Reachable System.faultFree a ∧ s.srv = a.srv ∧
      s.client = a.client) ∧
    ∀ i < 2, ∀ p, (s.client i).pc = .respond p →
      ∃ k, (s.conn i).down.delivered.length = k + 1 ∧ (s.conn i).passed[k]? = some p := by
  obtain ⟨s, hrun, hs⟩ := Machine.exists_run_of_eval (tcpSystem 16 (pair .tcpLn))
    TcpSystem.faultFree (tcpConnectEvents ++ pairCommitEvents.flatMap cutEvents)
    (fun s => (s.client 0).decisions == [.commit]) (by decide +kernel)
  exact ⟨s, hrun.reachable, by simpa using hs,
    tcp_faultFree_exact (C := pair .tcpLn) (Nat.le_refl 16) rfl hrun.reachable⟩

end Q2pc
