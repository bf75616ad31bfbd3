import Q2pc.Rudp.Endpoint
import Q2pc.Lib.Machine

namespace Q2pc

-- q2pc_client.c: `RTOS_MAX`
def rtosMax : Nat := 200 * 1000

-- What the master is doing with a connection: nothing, it has filled the buffer, it is
-- in `end_write`, it has terminated on `Q2PC_EFIN`.
inductive MasterWrite
  | idle
  | filled
  | call (pc : EndWritePc)
  | failed
  deriving DecidableEq, Repr

inductive RudpClientPc
  -- `init` before `beg_write`
  | init
  -- the loop over `end_write` of `init`, or of `send_response`
  | connect (pc : EndWritePc)
  | respond (rtos : Nat) (pc : EndWritePc)
  -- in `get_messge`, and after it has returned a message
  | getMessage
  | got
  -- `term(0)`
  | terminated
  deriving DecidableEq, Repr

-- The two ends of an RUDP connection. The network between them may lose, delay,
-- repeat and reorder datagrams: at any time an end may read any datagram the
-- other has ever sent.
structure RudpConn where
  server : Rudp
  master : MasterWrite
  client : Rudp
  clientPc : RudpClientPc
  -- history: what `get_messge` has returned
  clientGot : List Packet
  deriving DecidableEq, Repr

inductive RudpEvent
  | masterWrite (p : Packet)
  | masterCall
  | masterStep (e : EndWriteEvent)
  | masterRet (r : Ret)
  | workerRead (x : BaseRead)
  | workerRelease
  | clientWrite (p : Packet)
  | clientStep (e : EndWriteEvent)
  | clientGet (x : BaseRead)
  | clientQuit
  deriving DecidableEq, Repr

-- The datagram is one of those the other end has sent.
def BaseRead.from (x : BaseRead) (peer : Rudp) : Prop :=
  match x with
  | .data d => d ∈ peer.sent
  | _ => True

def EndWriteEvent.from (e : EndWriteEvent) (peer : Rudp) : Prop :=
  match e with
  | .read x => x.from peer
  | _ => True

instance (x : BaseRead) (peer : Rudp) : Decidable (x.from peer) := by
  cases x <;> unfold BaseRead.from <;> infer_instance

instance (e : EndWriteEvent) (peer : Rudp) : Decidable (e.from peer) := by
  cases e <;> unfold EndWriteEvent.from <;> infer_instance

def RudpConn.init : RudpConn where
  server := .connect false
  master := .idle
  client := .connect true
  clientPc := .init
  clientGot := []

def MasterWrite.afterRet : Ret → MasterWrite
  | .enone => .idle
  | .eagain | .rtofired => .filled
  | .efin => .failed

-- Where the loop over `end_write` goes with a result. In `init` it has no limit.
def RudpClientPc.afterRet : RudpClientPc → Ret → RudpClientPc
  | .connect _, .enone => .getMessage
  | .connect _, .eagain => .connect .entry
  | .connect _, .rtofired => .connect .entry
  | .respond _ _, .enone => .getMessage
  | .respond rtos _, .eagain => .respond rtos .entry
  | .respond rtos _, .rtofired =>
      if rtos + 1 < rtosMax then .respond (rtos + 1) .entry else .getMessage
  | _, _ => .terminated

-- The call of `end_write` the client is in, and the client further on in that call.
def RudpClientPc.call : RudpClientPc → Option (EndWritePc × (EndWritePc → RudpClientPc))
  | .connect pc => some (pc, .connect)
  | .respond rtos pc => some (pc, .respond rtos)
  | _ => none

namespace RudpConn

def clientStep (c : RudpConn) (e : EndWriteEvent) : Option RudpConn :=
  match c.clientPc.call with
  | some (.ret r, _) =>
      if e = .go then some { c with clientPc := c.clientPc.afterRet r } else none
  | some (pc, next) =>
      if e.from c.server then
        (c.client.endWriteStep pc e).map fun (client, pc) => { c with client, clientPc := next pc }
      else none
  | none => none

-- An iteration of the loop of `get_messge`.
def clientGet (c : RudpConn) (x : BaseRead) : Option RudpConn :=
  if c.clientPc = .getMessage ∧ x.from c.server then
    match c.client.begRead x with
    | (client, .data p) => some { c with
        client := client.endRead
        clientPc := .got
        clientGot := c.clientGot ++ [p] }
    | (client, .efin) => some { c with client := client.endRead, clientPc := .terminated }
    | (client, _) => some { c with client }
  else none

def step (c : RudpConn) : RudpEvent → Option RudpConn
  | .masterWrite p =>
      match c.master with
      | .idle | .filled => some { c with server := c.server.begWrite p, master := .filled }
      | _ => none
  | .masterCall =>
      match c.master with
      | .idle | .filled => some { c with master := .call .entry }
      | _ => none
  | .masterStep e =>
      match c.master with
      | .call pc =>
          if e.from c.client then
            (c.server.endWriteStep pc e).map fun (server, pc) =>
              { c with server, master := .call pc }
          else none
      | _ => none
  | .masterRet r =>
      if c.master = .call (.ret r) then
        some { c with master := .afterRet r }
      else none
  | .workerRead x =>
      if x.from c.client then some { c with server := (c.server.begRead x).1 } else none
  | .workerRelease => some { c with server := c.server.endRead }
  | .clientWrite p =>
      match c.clientPc with
      | .init => some { c with client := c.client.begWrite p, clientPc := .connect .entry }
      | .got => some { c with client := c.client.begWrite p, clientPc := .respond 0 .entry }
      | _ => none
  | .clientStep e => c.clientStep e
  | .clientGet x => c.clientGet x
  | .clientQuit => some { c with clientPc := .terminated }

end RudpConn

def rudpMachine : Machine RudpConn RudpEvent where
  init := .init
  step := RudpConn.step

end Q2pc
