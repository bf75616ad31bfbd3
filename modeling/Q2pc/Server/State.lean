import Q2pc.Protocol
import Mathlib.Logic.Function.Basic

namespace Q2pc

-- `MAX_RTOS`
def maxRtos : Int := 200 * 1000

-- What `server_init` fixes before the rounds start. The ranges `[lo, hi)` of the
-- workers split the connections.
structure Config where
  transType : TransType
  clientCount : Nat
  -- `real_thread_count`
  threadCount : Nat
  lo : Nat → Nat
  hi : Nat → Nat
  -- `params->stats_len`
  statsLen : Int
  reportInt : Int
  hi_le : ∀ w < threadCount, hi w ≤ clientCount
  cover : ∀ i < clientCount, ∃ w < threadCount, lo w ≤ i ∧ i < hi w
  disjoint : ∀ w < threadCount, ∀ v < threadCount, ∀ i, lo w ≤ i → i < hi w →
    lo v ≤ i → i < hi v → w = v

-- What `server_init` makes of a thread count of 1.
def Config.oneThread (transType : TransType) (clientCount : Nat) (statsLen reportInt : Int) :
    Config where
  transType := transType
  clientCount := clientCount
  threadCount := 1
  lo := fun _ => 0
  hi := fun _ => clientCount
  statsLen := statsLen
  reportInt := reportInt
  hi_le := fun _ _ => Nat.le_refl _
  cover := fun _ hi => ⟨0, Nat.one_pos, Nat.zero_le _, hi⟩
  disjoint := fun w hw v hv _ _ _ _ _ => by omega

-- `q2pc_commit_status_t`
inductive CommitStatus
  | requestSuccess
  | requestFail
  | commitSuccess
  | commitFail
  | clusterFail
  deriving DecidableEq, Repr

-- Which of `do_phase1` and `do_phase2` the master is in, the second with the
-- status it was given.
inductive Phase
  | phase1
  | phase2 (phase1Status : CommitStatus)
  deriving DecidableEq, Repr

-- The message `send_request` is called with. `do_phase2` calls it for the two
-- statuses of a completed phase 1 only.
def Phase.msgType : Phase → MsgType
  | .phase1 => .request
  | .phase2 .requestSuccess => .commit
  | .phase2 _ => .cancel

-- The optimistic verdict the scan of a phase starts from.
def Phase.startStatus : Phase → CommitStatus
  | .phase1 => .requestSuccess
  | .phase2 _ => .commitSuccess

inductive MasterPc
  -- run_server: `for(i64 requests = 0; !stop_signal; requests++)`
  | requests
  -- do_phase1, do_phase2: `votes_scoreboard[i] = q2pc_lost_msg`
  | initScoreboard (ph : Phase) (i : Nat)
  -- send_request: the loop that collects the buffers, and `beg_write` in it
  | collect (ph : Phase) (i : Nat)
  | begWrite (ph : Phase) (i : Nat)
  -- send_request: `while(commited < client_count && !stop_signal)`
  | sendAll (ph : Phase)
  -- send_request: the inner for, the call of `end_write` in it, and the call running
  | sendConn (ph : Phase) (i : Nat)
  | endWrite (ph : Phase) (i : Nat)
  | inEndWrite (ph : Phase) (i : Nat)
  -- wait_for_votes: the clock test and the sum over `votes_count`
  | poll (ph : Phase)
  | sumVotes (ph : Phase) (i : Nat) (totalVotes : Nat)
  | dopauseAll (ph : Phase)
  -- the scan of the scoreboard: the loop test and the read of a slot
  | scan (ph : Phase) (i : Nat) (result : CommitStatus)
  | readSlot (ph : Phase) (i : Nat) (result : CommitStatus)
  -- `votes_count[i] = 0`
  | clearCount (ph : Phase) (i : Nat) (result : CommitStatus)
  | unpauseAll (ph : Phase) (result : CommitStatus)
  -- `do_phase1` or `do_phase2` returns
  | phaseReturn (ph : Phase) (status : CommitStatus)
  -- `term(0)`
  | terminated
  deriving DecidableEq, Repr

inductive WorkerPc
  -- `while(!stop_signal)`
  | loop
  -- `if(pause_signal)`
  | pauseTest
  -- `votes_count[thread_id] = 0`
  | clearCount
  -- the for over the connections, and `beg_read` in it
  | poll (i : Nat)
  -- the bounds check and `votes_scoreboard[msg->src_hostid - 1] = msg->type`
  | score (i : Nat) (p : Packet)
  -- `con->end_read(con)`
  | endRead (i : Nat) (p : Packet)
  -- `votes_count[thread_id]++`: its load and its store
  | loadCount (i : Nat) (p : Packet)
  | storeCount (i : Nat) (p : Packet) (count : Nat)
  -- `stats_mem[thread_id][stats_idx]` and the test on `stats_idx`
  | stats (i : Nat) (p : Packet)
  -- `stop_signal = 1`, then `break`
  | raiseStop
  -- the clean up after the loop
  | delete (i : Nat)
  | exited
  deriving DecidableEq, Repr

-- The value of its counter that the worker is about to increment.
def WorkerPc.loaded : WorkerPc → Option Nat
  | .storeCount _ _ count => some count
  | _ => none

-- `stat_t`
structure Stat where
  threadId : Nat
  clientId : Int
  cRtos : Int
  sRtos : Int
  timeStart : Int
  timeEnd : Int
  type : MsgType
  -- history: the exchange the recorded response belongs to
  stage : Nat
  deriving DecidableEq, Repr

-- `stats_idx` is the length of `stats`.
structure Worker where
  pc : WorkerPc
  stats : List Stat
  deriving DecidableEq, Repr

-- The globals of the server and the positions of its threads. `deleted i` says
-- that `delete` has freed connection `i`.
structure Server where
  stopSignal : Bool
  pauseSignal : Bool
  votesScoreboard : Nat → MsgType
  votesCount : Nat → Nat
  connRtofiredCount : Nat → Int
  totalRtos : Nat
  requests : Nat
  commited : Nat
  deleted : Nat → Bool
  master : MasterPc
  workers : Nat → Worker

-- The state when `server_init` returns: the scoreboard is zeroed by `bzero`.
def Server.init : Server where
  stopSignal := false
  pauseSignal := false
  votesScoreboard := fun _ => .request
  votesCount := fun _ => 0
  connRtofiredCount := fun _ => 0
  totalRtos := 0
  requests := 0
  commited := 0
  deleted := fun _ => false
  master := .requests
  workers := fun _ => ⟨.loop, []⟩

-- The exchange a phase of the current round carries out.
def Server.stage (s : Server) : Phase → Nat
  | .phase1 => 2 * s.requests
  | .phase2 _ => 2 * s.requests + 1

def Server.setMaster (s : Server) (pc : MasterPc) : Server := { s with master := pc }

def Server.setWorker (s : Server) (w : Nat) (pc : WorkerPc) : Server :=
  { s with workers := Function.update s.workers w { s.workers w with pc := pc } }

-- `term(0)` of the master: `cleanup` raises the stop signal and joins the workers.
def Server.term (s : Server) : Server :=
  { s with stopSignal := true, master := .terminated }

end Q2pc
