import Q2pc.System.Safety

namespace Q2pc

variable {C : Cluster} {s : System}

def WorkerPc.handling : WorkerPc → Option Packet
  | .score _ p | .endRead _ p | .loadCount _ p | .storeCount _ p _ => some p
  | _ => none

private theorem Inv.scored_stage {b m : Nat → Nat} {w i : Nat} {p : Packet} (h : Inv C s b m)
    (hw : w < C.cfg.threadCount) (hhi : i < C.cfg.hi w) (hmark : m i = p.stage + 1)
    (htimed : p.Timed) : ∃ i < C.cfg.clientCount, m i ≤ p.stage + 1 ∧ p.stage < b i ∧ p.Timed := by
  have hic := lt_clientCount hw hhi
  have hle := (h.channel i hic).stage_le
  have hm := (h.channel i hic).mark_le
  exact ⟨i, hic, by omega, by omega, htimed⟩

-- The message a worker handles is of the exchange its connection was scored to, or of
-- a later one.
private theorem Inv.handling_stage {b m : Nat → Nat} {w : Nat} {p : Packet} (h : Inv C s b m)
    (hw : w < C.cfg.threadCount) (hp : (s.srv.workers w).pc.handling = some p) :
    ∃ i < C.cfg.clientCount, m i ≤ p.stage + 1 ∧ p.stage < b i ∧ p.Timed := by
  have hat := h.workers.position w hw
  cases hpc : (s.srv.workers w).pc <;>
    simp only [hpc, WorkerPc.handling, Option.some.injEq, reduceCtorEq] at hp
  case score i q =>
      subst hp
      simp only [hpc, WorkerAt] at hat
      obtain ⟨-, hhi, hmark, htimed, hpending⟩ := hat
      have hic := lt_clientCount hw hhi
      have hlt := (h.held_response hic hpending).stage_lt
      have hle := (h.channel i hic).stage_le
      exact ⟨i, hic, by omega, by omega, htimed⟩
  case endRead i q =>
      subst hp
      simp only [hpc, WorkerAt] at hat
      obtain ⟨-, hhi, hmark, htimed, -⟩ := hat
      exact h.scored_stage hw hhi hmark htimed
  case loadCount i q =>
      subst hp
      simp only [hpc, WorkerAt] at hat
      obtain ⟨-, hhi, hmark, htimed⟩ := hat
      exact h.scored_stage hw hhi hmark htimed
  case storeCount i q v =>
      subst hp
      simp only [hpc, WorkerAt] at hat
      obtain ⟨-, hhi, hmark, htimed⟩ := hat
      exact h.scored_stage hw hhi hmark htimed

-- Over plain UDP on a network that may lose and delay datagrams but neither repeats
-- nor reorders them, commits are valid, a client votes in answer to the request of
-- the round, and a vote is scored and counted in its own round only.
theorem datagram_vote_rounds (hudp : C.cfg.transType = .udpLn)
    (h : (systemMachine C).Reachable (fun _ e => e.lossy) s) :
    s.CommitValid C ∧
    (∀ i < C.cfg.clientCount, ∀ old, (s.client i).pc = .respond old →
      (s.client i).phase = .phase1 → old.msg.type = .request →
      old.stage = 2 * (s.client i).votes.length) ∧
    (∀ w < C.cfg.threadCount, ∀ p, (s.srv.workers w).pc.handling = some p →
      p.msg.type = .voteYes ∨ p.msg.type = .voteNo → s.srv.Active →
      p.stage = 2 * s.srv.requests) := by
  have hqj : C.cfg.transType ≠ .udpQj := by simp [hudp]
  obtain ⟨b, m, hinv⟩ := exists_inv hqj h
  refine ⟨commit_valid hqj h, ?_, ?_⟩
  · intro i hi old hpc hphase htype
    exact (hinv.channel i hi).stage_of_request hpc hphase htype
  · intro w hw p hp hvote hactive
    obtain ⟨i, hi, hmark, hbound, htimed⟩ := hinv.handling_stage hw hp
    have heven := htimed hvote
    have hge := hinv.master.mark_ge hactive i hi
    have hle := hinv.master.bound_le hactive i hi
    have hnow : s.srv.stageNow ≤ 2 * s.srv.requests + 1 := by
      unfold Server.stageNow Server.stage
      split <;> omega
    omega

-- The commit to client 2 is lost.
theorem datagram_vote_rounds_pair : ∃ s : System,
    (systemMachine (pair .udpLn)).Reachable (fun _ e => e.lossy) s ∧
    (s.net.passed.any fun x => x.2.msg.type == .commit) = true ∧ s.CommitValid (pair .udpLn) ∧
    (∀ i < 2, ∀ old, (s.client i).pc = .respond old → (s.client i).phase = .phase1 →
      old.msg.type = .request → old.stage = 2 * (s.client i).votes.length) ∧
    (∀ w < 1, ∀ p, (s.srv.workers w).pc.handling = some p →
      p.msg.type = .voteYes ∨ p.msg.type = .voteNo → s.srv.Active →
      p.stage = 2 * s.srv.requests) := by
  obtain ⟨s, hrun, hs⟩ := Machine.exists_run_of_eval (systemMachine (pair .udpLn))
    (fun _ e => e.lossy)
    (.server .master :: sendEvents 2 .phase1 0 ++ answerEvents [0, 1] ++
      passEvents [some (.voteYes, 0), some (.voteYes, 0)] ++ scanEvents 2 false ++
      sendEvents 2 (.phase2 .requestSuccess) 1 ++ [.faultToClient 1 (.drop 0)])
    (fun s => s.net.passed.any fun x => x.2.msg.type == .commit) (by decide +kernel)
  exact ⟨s, hrun.reachable, hs, datagram_vote_rounds (C := pair .udpLn) rfl hrun.reachable⟩

-- The network lets datagrams overtake others and does nothing else to them.
def SysEvent.overtakes : SysEvent → Bool
  | .faultToClient _ (.overtake _) | .faultToServer _ (.overtake _) => true
  | .faultToClient _ _ | .faultToServer _ _ => false
  | _ => true

-- The network sends copies of datagrams right behind them and does nothing else.
def System.copies (s : System) : SysEvent → Bool
  | .faultToClient i (.duplicate k) => k + 1 == (s.net.toClient i).length
  | .faultToServer i (.duplicate k) => k + 1 == (s.net.toServer i).length
  | .faultToClient _ _ | .faultToServer _ _ => false
  | _ => true

-- The vote of client 4 in round 0 is overtaken by its acknowledgement of the cancel,
-- which the no of client 5 brings about, and is scored in round 1.
def overtakenVoteEvents : List SysEvent :=
  .server .master :: sendEvents 5 .phase1 0 ++ answerEvents [0, 1, 2, 3, 4] ++
  passEvents [some (.voteYes, 0), some (.voteYes, 0), some (.voteYes, 0), none,
    some (.voteNo, 0)] ++ scanEvents 5 true ++
  sendEvents 5 (.phase2 .requestFail) 1 ++ answerEvents [0, 1, 2, 3, 4] ++
  .faultToServer 3 (.overtake 1) :: passEvents (.replicate 5 (some (.ack, 1))) ++
  scanEvents 5 false ++
  .server .master :: sendEvents 5 .phase1 2 ++ answerEvents [0, 1, 2, 4] ++
  passEvents [some (.voteYes, 2), some (.voteYes, 2), some (.voteYes, 2), some (.voteYes, 0),
    some (.voteYes, 2)] ++ scanEvents 5 false ++ sendEvents 5 (.phase2 .requestSuccess) 3

-- A copy of the acknowledgement of client 3 in round 0 stands in for that of round 1,
-- so that its vote of round 1 is scored in round 2.
def copiedAckEvents : List SysEvent :=
  .server .master :: sendEvents 4 .phase1 0 ++ answerEvents [0, 1, 2, 3] ++
  passEvents (.replicate 4 (some (.voteYes, 0))) ++ scanEvents 4 false ++
  sendEvents 4 (.phase2 .requestSuccess) 1 ++ answerEvents [0, 1, 2, 3] ++
  .faultToServer 2 (.duplicate 0) :: passEvents (.replicate 4 (some (.ack, 1))) ++
  scanEvents 4 false ++
  .server .master :: sendEvents 4 .phase1 2 ++ answerEvents [0, 1, 2, 3] ++
  passEvents [some (.voteYes, 2), some (.voteYes, 2), none, some (.voteNo, 2)] ++
  scanEvents 4 true ++
  sendEvents 4 (.phase2 .requestFail) 3 ++ answerEvents [0, 1, 3] ++
  passEvents [some (.ack, 3), some (.ack, 3), some (.ack, 1), some (.ack, 3)] ++
  scanEvents 4 false ++
  .server .master :: sendEvents 4 .phase1 4 ++ answerEvents [0, 1, 3] ++
  passEvents [some (.voteYes, 4), some (.voteYes, 4), some (.voteYes, 2), some (.voteYes, 4)] ++
  scanEvents 4 false ++ sendEvents 4 (.phase2 .requestSuccess) 5

-- The first message passed to `end_write` that is a commit of round `r`.
private def commitOf (r : Nat) (s : System) : Option (Nat × Packet) :=
  s.net.passed.find? fun x => x.2.msg.type == .commit && x.2.stage == 2 * r + 1

private theorem not_commitValid {i r : Nat} (hi : i < C.cfg.clientCount)
    (h : ((commitOf r s).isSome && ((s.client i).votes[r]? != some .voteYes)) = true) :
    ¬s.CommitValid C := by
  intro hvalid
  simp only [Bool.and_eq_true, bne_iff_ne, ne_eq] at h
  obtain ⟨x, hx⟩ := Option.isSome_iff_exists.mp h.1
  have hmem := List.mem_of_find?_eq_some hx
  have hprop := List.find?_some hx
  simp only [Bool.and_eq_true, beq_iff_eq] at hprop
  obtain ⟨r', hr', hall⟩ := hvalid x.1 x.2 hmem hprop.1
  obtain rfl : r' = r := by omega
  exact h.2 (hall i hi)

-- Reordering alone breaks commit validity, and so does duplication alone.
theorem not_commitValid_of_faults :
    (∃ C s, C.cfg.transType = .udpLn ∧
      (systemMachine C).Reachable (fun _ e => e.overtakes = true) s ∧ ¬s.CommitValid C) ∧
    (∃ C s, C.cfg.transType = .udpLn ∧
      (systemMachine C).Reachable (fun s e => s.copies e = true) s ∧ ¬s.CommitValid C) := by
  constructor
  · let C : Cluster := .oneThread .udpLn 5 100 1 (by decide) (by decide)
    obtain ⟨s, hrun, hs⟩ := Machine.exists_run_of_eval (systemMachine C)
      (fun _ e => e.overtakes = true) overtakenVoteEvents
      (fun s => (commitOf 1 s).isSome && ((s.client 3).votes[1]? != some .voteYes))
      (by decide +kernel)
    exact ⟨C, s, rfl, hrun.reachable, not_commitValid (by decide) hs⟩
  · let C : Cluster := .oneThread .udpLn 4 100 1 (by decide) (by decide)
    obtain ⟨s, hrun, hs⟩ := Machine.exists_run_of_eval (systemMachine C)
      (fun s e => s.copies e = true) copiedAckEvents
      (fun s => (commitOf 2 s).isSome && ((s.client 2).votes[2]? != some .voteYes))
      (by decide +kernel)
    exact ⟨C, s, rfl, hrun.reachable, not_commitValid (by decide) hs⟩

end Q2pc
