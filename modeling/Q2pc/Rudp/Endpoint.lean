import Q2pc.Protocol

namespace Q2pc

-- A datagram of RUDP: the sequence number and the message behind it.
structure Datagram where
  seqNo : Int
  packet : Packet
  deriving DecidableEq, Repr

-- What `beg_read` of the UDP connection below returns.
inductive BaseRead
  | data (d : Datagram)
  | eagain
  | efin
  deriving DecidableEq, Repr

-- `q2pc_rudp_conn_priv`, and the write buffer of the UDP connection below. `is_server`
-- holds at the clients. The sequence numbers grow by one with each message, so that
-- no run gets to the bounds of their i64.
structure Rudp where
  isServer : Bool
  seqNo : Int
  readData : Option Packet
  ackOutstanding : Bool
  currentSeq : Int
  -- the sequence number in front of `write_data`, and the message in it
  writeSeq : Int
  writeData : Packet
  -- history: the messages written, the datagrams sent, the messages `beg_read` accepted
  wrote : List Packet
  sent : List Datagram
  accepted : List Packet
  deriving DecidableEq, Repr

-- doconnect
def Rudp.connect (isServer : Bool) : Rudp where
  isServer := isServer
  seqNo := if isServer then 0 else -1
  readData := none
  ackOutstanding := false
  currentSeq := 0
  writeSeq := 0
  writeData := ⟨⟨.request, 0, 0, 0, 0⟩, 0⟩
  wrote := []
  sent := []
  accepted := []

-- Two messages that agree in all but the counter the end that sends them increments.
def Packet.SameButOwn (isServer : Bool) (p p' : Packet) : Prop :=
  p.SameButRto p' ∧
    if isServer then p.msg.sRto = p'.msg.sRto else p.msg.cRto = p'.msg.cRto

namespace Rudp

def accept (c : Rudp) (seqNo : Int) (p : Packet) : Rudp :=
  { c with seqNo, readData := some p, accepted := c.accepted ++ [p] }

-- conn_beg_read
def begRead (c : Rudp) (x : BaseRead) : Rudp × ReadResult :=
  match c.readData with
  | some p => (c, .data p)
  | none =>
      match x with
      | .eagain => (c, .eagain)
      | .efin => (c, .efin)
      | .data d =>
          if c.isServer then
            if d.seqNo ≠ c.seqNo then (c, .eagain)
            else (c.accept (c.seqNo + 1) d.packet, .data d.packet)
          else if d.seqNo ≤ c.seqNo then (c, .eagain)
          else (c.accept d.seqNo d.packet, .data d.packet)

-- conn_end_read
def endRead (c : Rudp) : Rudp := { c with readData := none }

-- conn_beg_write, and the message its caller puts into the buffer.
def begWrite (c : Rudp) (p : Packet) : Rudp :=
  { c with writeSeq := c.seqNo, writeData := p, wrote := c.wrote ++ [p] }

-- `base.end_write` sends the buffer as one datagram.
def transmit (c : Rudp) : Rudp := { c with sent := c.sent ++ [⟨c.writeSeq, c.writeData⟩] }

-- `write_data->c_rto++` or `write_data->s_rto++`
def bumpRto (c : Rudp) : Rudp :=
  let msg := c.writeData.msg
  { c with writeData.msg :=
      if c.isServer then { msg with cRto := i16 (msg.cRto + 1) }
      else { msg with sRto := i16 (msg.sRto + 1) } }

end Rudp

-- The positions in a call of `conn_end_write`.
inductive EndWritePc
  -- `if(!ack_outstanding)` and the first transmission
  | entry
  -- `current_seq = seq_no` and `ack_outstanding = true`
  | record
  -- `if(is_server)` and `conn_beg_read`
  | probe
  -- `if(current_seq != seq_no)`
  | compare
  -- the test of the retransmit timer
  | timer
  -- the retransmission
  | resend
  | ret (r : Ret)
  deriving DecidableEq, Repr

-- What the outside decides in a call of `conn_end_write`: the results of the UDP
-- connection below and the clock.
inductive EndWriteEvent
  | go
  | base (sent : Bool)
  | read (x : BaseRead)
  | clock (expired : Bool)
  deriving DecidableEq, Repr

-- conn_end_write. The other thread of the server process may accept a message
-- between any two of these steps.
def Rudp.endWriteStep (c : Rudp) : EndWritePc → EndWriteEvent → Option (Rudp × EndWritePc)
  | .entry, .go => if c.ackOutstanding then some (c, .probe) else none
  | .entry, .base sent =>
      if c.ackOutstanding then none
      else if sent then some (c.transmit, .record)
      else some (c, .ret .efin)
  | .record, .go => some ({ c with currentSeq := c.seqNo, ackOutstanding := true }, .probe)
  | .probe, .go => if c.isServer then none else some (c, .compare)
  | .probe, .read x =>
      if c.isServer then
        match c.begRead x with
        | (c, .efin) => some (c, .ret .efin)
        | (c, _) => some (c, .compare)
      else none
  | .compare, .go =>
      if c.currentSeq ≠ c.seqNo then some ({ c with ackOutstanding := false }, .ret .enone)
      else some (c, .timer)
  | .timer, .clock expired => some (c, if expired then .resend else .ret .eagain)
  | .resend, .base sent =>
      if sent then some (c.bumpRto.transmit, .ret .rtofired) else some (c.bumpRto, .ret .efin)
  | _, _ => none

end Q2pc
