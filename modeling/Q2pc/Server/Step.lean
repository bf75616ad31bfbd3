import Q2pc.Server.State
import Q2pc.Lib.Machine

namespace Q2pc

open Function (update)

-- The steps of the threads of the server. A step makes at most one access to a
-- variable the threads share, or one call on a connection; the events carry what
-- the outside decides: the clock, the results of the calls, the schedule.
inductive Event
  | master
  | clock (expired : Bool)
  | begWrite (i : Nat) (p : Packet)
  | endWrite (i : Nat)
  | endWriteRet (i : Nat) (r : Ret)
  | worker (w : Nat)
  | begRead (w i : Nat) (r : ReadResult)
  | endRead (w i : Nat)
  | timeEnd (w : Nat) (us : Int)
  | delete (w i : Nat)
  deriving DecidableEq, Repr

-- run_server: `requests && (requests % report_int == 0)`, none on a zero divisor.
def reportDue (requests : Nat) (reportInt : Int) : Option Bool :=
  if requests = 0 then some false
  else if reportInt = 0 then none
  else some ((requests : Int).tmod reportInt == 0)

-- The message `send_request` writes into each buffer.
def requestMsg (msgType : MsgType) (tsStartUs : Int) : Msg where
  type := msgType
  srcHostid := i16 (-1)
  cRto := 0
  sRto := 0
  ts := tsStartUs

-- The switch of the two scans on a slot, none where it terminates.
def scanSlot (ph : Phase) (result : CommitStatus) (slot : MsgType) : Option CommitStatus :=
  match ph, slot with
  | .phase1, .voteYes => some result
  | .phase1, .voteNo => some .requestFail
  | .phase1, .lost => some .clusterFail
  | .phase1, _ => none
  | .phase2 _, .ack => some result
  | .phase2 _, _ => some .clusterFail

-- What a phase returns for the verdict of its scan, none where it terminates.
def phaseStatus (ph : Phase) (result : CommitStatus) : Option CommitStatus :=
  match ph, result with
  | .phase1, result => some result
  | .phase2 _, .clusterFail => some .clusterFail
  | .phase2 .requestSuccess, _ => some .commitSuccess
  | .phase2 .requestFail, _ => some .commitFail
  | .phase2 _, _ => none

namespace Server

-- The start of `send_request`: Q-Jump broadcasts on the first connection.
def sendRequest (cfg : Config) (s : Server) (ph : Phase) : Server :=
  if cfg.transType = .udpQj then s.setMaster (.begWrite ph 0) else s.setMaster (.collect ph 0)

-- From the scoreboard initialisation to the call of `send_request`.
def startPhase (cfg : Config) (s : Server) (ph : Phase) : Server :=
  match ph with
  | .phase1 => s.sendRequest cfg .phase1
  | .phase2 .requestSuccess => s.sendRequest cfg (.phase2 .requestSuccess)
  | .phase2 .requestFail => s.sendRequest cfg (.phase2 .requestFail)
  | .phase2 .clusterFail => s.setMaster (.phaseReturn (.phase2 .clusterFail) .clusterFail)
  | .phase2 _ => s.term

-- run_server after a phase has returned.
def afterPhase (s : Server) (ph : Phase) (status : CommitStatus) : Server :=
  match ph, status with
  | .phase1, status => s.setMaster (.initScoreboard (.phase2 status) 0)
  | .phase2 _, .commitSuccess | .phase2 _, .commitFail =>
      { s with requests := s.requests + 1, master := .requests }
  | .phase2 _, _ => s.term

def masterStep (cfg : Config) (s : Server) : Option Server :=
  match s.master with
  | .requests =>
      if s.stopSignal then some s.term
      else (reportDue s.requests cfg.reportInt).map fun _ =>
        s.setMaster (.initScoreboard .phase1 0)
  | .initScoreboard ph i =>
      if i < cfg.clientCount then
        some { s with
          votesScoreboard := update s.votesScoreboard i .lost
          master := .initScoreboard ph (i + 1) }
      else some (s.startPhase cfg ph)
  | .collect ph i =>
      if i < cfg.clientCount ∧ s.stopSignal = false then some (s.setMaster (.begWrite ph i))
      else some { s with commited := 0, connRtofiredCount := fun _ => 0, master := .sendAll ph }
  | .sendAll ph =>
      if s.commited < cfg.clientCount ∧ s.stopSignal = false then
        some (s.setMaster (.sendConn ph 0))
      else some (s.setMaster (.poll ph))
  | .sendConn ph i =>
      if i < cfg.clientCount ∧ s.stopSignal = false then
        if s.connRtofiredCount i < 0 then some (s.setMaster (.sendConn ph (i + 1)))
        else some (s.setMaster (.endWrite ph i))
      else some (s.setMaster (.sendAll ph))
  | .sumVotes ph i totalVotes =>
      if i < cfg.threadCount then
        some (s.setMaster (.sumVotes ph (i + 1) (totalVotes + s.votesCount i)))
      else if cfg.clientCount ≤ totalVotes then some (s.setMaster (.dopauseAll ph))
      else some (s.setMaster (.poll ph))
  | .dopauseAll ph =>
      some { s with pauseSignal := true, master := .scan ph 0 ph.startStatus }
  | .scan ph i result =>
      if i < cfg.clientCount ∧ s.stopSignal = false then
        some (s.setMaster (.readSlot ph i result))
      else some (s.setMaster (.clearCount ph 0 result))
  | .readSlot ph i result =>
      match scanSlot ph result (s.votesScoreboard i) with
      | some result => some (s.setMaster (.scan ph (i + 1) result))
      | none => some s.term
  | .clearCount ph i result =>
      if i < cfg.threadCount then
        some { s with
          votesCount := update s.votesCount i 0
          master := .clearCount ph (i + 1) result }
      else some (s.setMaster (.unpauseAll ph result))
  | .unpauseAll ph result =>
      match phaseStatus ph result with
      | some status => some { s with pauseSignal := false, master := .phaseReturn ph status }
      | none => some { s with pauseSignal := false }.term
  | .phaseReturn ph status => some (s.afterPhase ph status)
  | _ => none

-- send_request: what the master makes of the result of `end_write`. On the
-- broadcast path the result is not looked at.
def endWriteRet (cfg : Config) (s : Server) (ph : Phase) (i : Nat) (r : Ret) : Server :=
  if cfg.transType = .udpQj then s.setMaster (.poll ph)
  else match r with
    | .rtofired =>
        if maxRtos ≤ s.connRtofiredCount i then s.term
        else { s with
          connRtofiredCount := update s.connRtofiredCount i (s.connRtofiredCount i + 1)
          totalRtos := s.totalRtos + 1
          master := .sendConn ph (i + 1) }
    | .eagain => s.setMaster (.sendConn ph (i + 1))
    | .enone => { s with
        connRtofiredCount := update s.connRtofiredCount i (-1)
        commited := s.commited + 1
        master := .sendConn ph (i + 1) }
    | .efin => s.term

def workerStep (cfg : Config) (s : Server) (w : Nat) : Option Server :=
  match (s.workers w).pc with
  | .loop =>
      if s.stopSignal then some (s.setWorker w (.delete (cfg.lo w)))
      else some (s.setWorker w .pauseTest)
  | .pauseTest =>
      if s.pauseSignal then some (s.setWorker w .clearCount)
      else some (s.setWorker w (.poll (cfg.lo w)))
  | .clearCount => some ({ s with votesCount := update s.votesCount w 0 }.setWorker w .loop)
  | .poll i => if i < cfg.hi w then none else some (s.setWorker w .loop)
  | .score i p =>
      if p.msg.srcHostid < 1 ∨ (cfg.clientCount : Int) < p.msg.srcHostid then
        some (s.setWorker w (.poll (i + 1)))
      else
        some ({ s with
          votesScoreboard := update s.votesScoreboard (p.msg.srcHostid - 1).toNat p.msg.type
          }.setWorker w (.endRead i p))
  | .loadCount i p => some (s.setWorker w (.storeCount i p (s.votesCount w)))
  | .storeCount i p count =>
      some ({ s with votesCount := update s.votesCount w (count + 1) }.setWorker w (.stats i p))
  | .raiseStop => some ({ s with stopSignal := true }.setWorker w .loop)
  | .delete i => if i < cfg.hi w then none else some (s.setWorker w .exited)
  | _ => none

-- Where a worker goes with the result of `beg_read`. After `unset` it reads the
-- message through a null pointer: the process dies there and the run ends.
def afterBegRead (i : Nat) : ReadResult → Option WorkerPc
  | .data p => some (.score i p)
  | .unset => none
  | .eagain => some (.poll (i + 1))
  | .efin => some .raiseStop

-- The record of a message and the position after it.
def record (cfg : Config) (s : Server) (w i : Nat) (p : Packet) (us : Int) : Server :=
  let stat : Stat :=
    { threadId := w
      clientId := p.msg.srcHostid
      cRtos := p.msg.cRto
      sRtos := p.msg.sRto
      timeStart := p.msg.ts
      timeEnd := us
      type := p.msg.type
      stage := p.stage }
  let stats := (s.workers w).stats ++ [stat]
  let pc := if cfg.statsLen ≤ stats.length then .raiseStop else .poll (i + 1)
  { s with workers := update s.workers w ⟨pc, stats⟩ }

def step (cfg : Config) (s : Server) : Event → Option Server
  | .master => s.masterStep cfg
  | .clock expired =>
      match s.master with
      | .poll ph => some (s.setMaster (if expired then .dopauseAll ph else .sumVotes ph 0 0))
      | _ => none
  | .begWrite i p =>
      match s.master with
      | .begWrite ph j =>
          if i = j ∧ p = ⟨requestMsg ph.msgType p.msg.ts, s.stage ph⟩ then
            if cfg.transType = .udpQj then some (s.setMaster (.endWrite ph i))
            else some (s.setMaster (.collect ph (i + 1)))
          else none
      | _ => none
  | .endWrite i =>
      match s.master with
      | .endWrite ph j => if i = j then some (s.setMaster (.inEndWrite ph i)) else none
      | _ => none
  | .endWriteRet i r =>
      match s.master with
      | .inEndWrite ph j => if i = j then some (s.endWriteRet cfg ph i r) else none
      | _ => none
  | .worker w => if w < cfg.threadCount then s.workerStep cfg w else none
  | .begRead w i r =>
      if w < cfg.threadCount ∧ (s.workers w).pc = .poll i ∧ i < cfg.hi w then
        (afterBegRead i r).map (s.setWorker w)
      else none
  | .endRead w i =>
      match (s.workers w).pc with
      | .endRead j p =>
          if w < cfg.threadCount ∧ i = j then some (s.setWorker w (.loadCount i p)) else none
      | _ => none
  | .timeEnd w us =>
      match (s.workers w).pc with
      | .stats i p => if w < cfg.threadCount then some (s.record cfg w i p us) else none
      | _ => none
  | .delete w i =>
      if w < cfg.threadCount ∧ (s.workers w).pc = .delete i ∧ i < cfg.hi w then
        some ({ s with deleted := update s.deleted i true }.setWorker w (.delete (i + 1)))
      else none

end Server

-- The server under any transport: nothing is assumed of the results of the calls.
def serverMachine (cfg : Config) : Machine Server Event where
  init := .init
  step := Server.step cfg

end Q2pc
