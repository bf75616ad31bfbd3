import Q2pc.System.Channel
import Q2pc.Server.Cases

namespace Q2pc

variable {C : Cluster} {s t : System} {b m : Nat → Nat}

-- The phase the master is in. Between two rounds this is phase 1 of the next.
def MasterPc.phase : MasterPc → Phase
  | .requests | .terminated => .phase1
  | .initScoreboard ph _ | .collect ph _ | .begWrite ph _ | .sendAll ph | .sendConn ph _
  | .endWrite ph _ | .inEndWrite ph _ | .poll ph | .sumVotes ph _ _ | .dopauseAll ph
  | .scan ph _ _ | .readSlot ph _ _ | .clearCount ph _ _ | .unpauseAll ph _
  | .phaseReturn ph _ => ph

-- The exchange the master carries out.
def Server.stageNow (s : Server) : Nat := s.stage s.master.phase

def Server.Active (s : Server) : Prop :=
  s.master ≠ .terminated ∧ (s.master = .requests → s.stopSignal = false)

def Server.Unsent (s : Server) (i : Nat) : Prop :=
  match s.master with
  | .requests | .initScoreboard _ _ | .collect _ _ | .begWrite _ _ => True
  | .sendAll _ | .sendConn _ _ | .endWrite _ _ => 0 ≤ s.connRtofiredCount i
  | .inEndWrite _ j => i ≠ j ∧ 0 ≤ s.connRtofiredCount i
  | _ => False

def Server.SlotReset (s : Server) (c : Nat) : Prop :=
  match s.master with
  | .requests | .terminated => False
  | .initScoreboard .phase1 j => c < j
  | _ => True

-- Connection `i` of the system, with the exchanges below `bound` passed to it and
-- those below `mark` scored.
def ChannelOk (C : Cluster) (s : System) (b m : Nat → Nat) (i : Nat) : Prop :=
  Channel (C.peer i + 1) (s.client i) (s.net.toClient i) (s.net.toServer i)
    (s.net.readBuffer i) (fun p => (i, p) ∈ s.net.passed)
    (s.srv.votesScoreboard (C.peer i)) (b i) (m i)

-- The clients with slots below `j` have voted yes in round `r`.
def YesBelow (C : Cluster) (s : System) (r j : Nat) : Prop :=
  ∀ i < C.cfg.clientCount, C.peer i < j → (s.client i).votes[r]? = some .voteYes

-- The acknowledgements of round `r` of the clients with slots below `j` are scored.
def AckedBelow (C : Cluster) (m : Nat → Nat) (r j : Nat) : Prop :=
  ∀ i < C.cfg.clientCount, C.peer i < j → 2 * r + 2 ≤ m i

def AllYes (C : Cluster) (s : System) (r : Nat) : Prop :=
  ∀ i < C.cfg.clientCount, (s.client i).votes[r]? = some .voteYes

def AllAcked (C : Cluster) (m : Nat → Nat) (r : Nat) : Prop :=
  ∀ i < C.cfg.clientCount, 2 * r + 2 ≤ m i

def BufferOk (s : System) (ph : Phase) (i : Nat) : Prop :=
  (s.net.writeBuffer i).stage = s.srv.stage ph ∧ (s.net.writeBuffer i).msg.type = ph.msgType

-- The loop over the buffers was left by the stop signal, or all are filled.
def Collected (C : Cluster) (s : System) (ph : Phase) : Prop :=
  s.srv.stopSignal = true ∨ ∀ i < C.cfg.clientCount, BufferOk s ph i

-- A commit decision rests on the votes of all, or on a scan the stop signal cut.
def Decided (C : Cluster) (s : System) (ph : Phase) : Prop :=
  ph = .phase2 .requestSuccess → s.srv.stopSignal = true ∨ AllYes C s s.srv.requests

-- What a scan has seen before slot `j` when its verdict is still `r`.
def Scanned (C : Cluster) (s : System) (m : Nat → Nat) (j : Nat) :
    Phase → CommitStatus → Prop
  | .phase1, r => r = .requestSuccess → YesBelow C s s.srv.requests j
  | .phase2 _, r => (r = .commitSuccess ∨ r = .clusterFail) ∧
      (r = .commitSuccess → AckedBelow C m s.srv.requests j)

-- What the verdict of a finished scan says.
def Verdict (C : Cluster) (s : System) (m : Nat → Nat) : Phase → CommitStatus → Prop
  | .phase1, r => r = .requestSuccess → s.srv.stopSignal = true ∨ AllYes C s s.srv.requests
  | .phase2 _, r => r ≠ .clusterFail → s.srv.stopSignal = true ∨ AllAcked C m s.srv.requests

-- What holds at each position of the master.
def MasterAt (C : Cluster) (s : System) (m : Nat → Nat) : Prop :=
  match s.srv.master with
  | .requests | .terminated => True
  | .initScoreboard ph _ | .poll ph | .sumVotes ph _ _ | .dopauseAll ph => Decided C s ph
  | .collect ph j | .begWrite ph j => Decided C s ph ∧ ∀ i < j, BufferOk s ph i
  | .sendAll ph | .sendConn ph _ | .inEndWrite ph _ => Decided C s ph ∧ Collected C s ph
  | .endWrite ph j => Decided C s ph ∧ Collected C s ph ∧ j < C.cfg.clientCount ∧
      0 ≤ s.srv.connRtofiredCount j ∧ BufferOk s ph j ∧
      (ph = .phase2 .requestSuccess → AllYes C s s.srv.requests)
  | .scan ph j r => Decided C s ph ∧ Scanned C s m j ph r
  | .readSlot ph j r => Decided C s ph ∧ j < C.cfg.clientCount ∧ Scanned C s m j ph r
  | .clearCount ph _ r | .unpauseAll ph r | .phaseReturn ph r =>
      Decided C s ph ∧ Verdict C s m ph r

structure MasterOk (C : Cluster) (s : System) (b m : Nat → Nat) : Prop where
  bound_le : s.srv.Active → ∀ i < C.cfg.clientCount, b i ≤ s.srv.stageNow + 1
  mark_ge : s.srv.Active → ∀ i < C.cfg.clientCount, 2 * s.srv.requests ≤ m i
  unsent : s.srv.Active → ∀ i < C.cfg.clientCount, s.srv.Unsent i → b i ≤ s.srv.stageNow
  passed : s.srv.Active → ∀ i p, (i, p) ∈ s.net.passed → p.stage ≤ s.srv.stageNow ∧
    (p.stage = s.srv.stageNow → p.msg.type = s.srv.master.phase.msgType)
  reset : ∀ i < C.cfg.clientCount, s.srv.SlotReset (C.peer i) →
    s.srv.votesScoreboard (C.peer i) = .lost ∨ 2 * s.srv.requests + 1 ≤ m i
  position : MasterAt C s m

-- What holds at each position of a worker. Between `beg_read` and `end_read` it has
-- the message that is pending on the connection, and until the message is counted
-- nothing after it is scored.
def WorkerAt (cfg : Config) (pending : Nat → Option Packet) (m : Nat → Nat) (w : Nat) :
    WorkerPc → Prop
  | .poll i | .stats i _ => cfg.lo w ≤ i
  | .score i p => cfg.lo w ≤ i ∧ i < cfg.hi w ∧ m i ≤ p.stage ∧ p.Timed ∧ pending i = some p
  | .endRead i p =>
      cfg.lo w ≤ i ∧ i < cfg.hi w ∧ m i = p.stage + 1 ∧ p.Timed ∧ pending i = some p
  | .loadCount i p | .storeCount i p _ =>
      cfg.lo w ≤ i ∧ i < cfg.hi w ∧ m i = p.stage + 1 ∧ p.Timed
  | _ => True

structure WorkersOk (cfg : Config) (workers : Nat → Worker) (pending : Nat → Option Packet)
    (m : Nat → Nat) : Prop where
  position : ∀ w < cfg.threadCount, WorkerAt cfg pending m w (workers w).pc
  held : ∀ i p, pending i = some p → ∃ w < cfg.threadCount, cfg.lo w ≤ i ∧ i < cfg.hi w ∧
    ((workers w).pc = .score i p ∨ (workers w).pc = .endRead i p)

-- The decisions the master has passed on: one for each round, a commit only on the
-- yes votes of all, and the clients have received no others.
structure HistoryOk (C : Cluster) (s : System) : Prop where
  agree : ∀ i j p q, (i, p) ∈ s.net.passed → (j, q) ∈ s.net.passed → p.stage = q.stage →
    p.stage % 2 = 1 → p.msg.type = q.msg.type
  lt : ∀ i p, (i, p) ∈ s.net.passed → i < C.cfg.clientCount
  commit : ∀ i p, (i, p) ∈ s.net.passed → p.msg.type = .commit → AllYes C s (p.stage / 2)
  decisions : ∀ i < C.cfg.clientCount, ∀ r d, (s.client i).decisions[r]? = some d →
    ∃ p, (i, p) ∈ s.net.passed ∧ p.stage = 2 * r + 1 ∧ p.msg.type = d

structure Inv (C : Cluster) (s : System) (b m : Nat → Nat) : Prop where
  channel : ∀ i < C.cfg.clientCount, ChannelOk C s b m i
  workers : WorkersOk C.cfg s.srv.workers s.net.readBuffer m
  master : MasterOk C s b m
  history : HistoryOk C s

-- How far the connections are scored after a step of the server.
def Server.nextMark (s : Server) (m : Nat → Nat) : Event → Nat → Nat
  | .worker w =>
      match (s.workers w).pc with
      | .score i p => Function.update m i (p.stage + 1)
      | _ => m
  | _ => m

def System.nextMark (s : System) (m : Nat → Nat) : SysEvent → Nat → Nat
  | .server e => s.srv.nextMark m e
  | _ => m

end Q2pc
