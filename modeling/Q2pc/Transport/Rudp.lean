import Q2pc.Transport.Udp

namespace Q2pc

-- q2pc_rudp_conn_priv. `readData` and `writeData` are offsets in the buffers of `base`.
structure RudpPriv where
  base : UdpPriv
  isServer : Bool
  seqNo : Int
  readData : Option Nat
  readDataLen : Int
  writeData : Option Nat
  ackOutstanding : Bool
  currentSeq : Int

-- What the outside decides in a call of `conn_end_write`: the answers to the write()s of
-- the first transmission, to the read(), the clock, and the answers to the write()s of
-- the retransmission.
structure EndWriteInput where
  first : List SysWrite
  read : SysRead
  expired : Bool
  again : List SysWrite
  deriving DecidableEq, Repr

namespace RudpPriv

-- init_new_conn and doconnect
def new (server : Bool) : RudpPriv where
  base := .new server
  isServer := !server
  seqNo := if server then -1 else 0
  readData := none
  readDataLen := 0
  writeData := none
  ackOutstanding := false
  currentSeq := 0

-- `read_data && read_data_len`, and the message behind the sequence number.
def pending (c : RudpPriv) : Option View :=
  match c.readData with
  | some data => if c.readDataLen ≠ 0 then some ⟨data + 8, c.readDataLen - 8⟩ else none
  | none => none

-- Whether a datagram with this sequence number is taken.
def accepts (c : RudpPriv) (seqNo : Int) : Bool :=
  if c.isServer then seqNo = c.seqNo else c.seqNo < seqNo

-- conn_beg_read. There is no result where the process ends, and where `*data_o` would be
-- used without being set.
def begRead (c : RudpPriv) (x : SysRead) : Option (RudpPriv × BegRead) :=
  match c.pending with
  | some v => some (c, ⟨.enone, some v, false⟩)
  | none => do
      let (base, r) ← c.base.begRead x
      if r.ret ≠ .enone then
        return ({ c with base := base.endRead }, r)
      let data ← r.out
      let seqNo := base.readBuffer.int data.off 8
      if c.accepts seqNo then
        return ({ c with
          base
          seqNo := if c.isServer then c.seqNo + 1 else seqNo
          readData := some data.off
          readDataLen := data.len }, { r with out := some ⟨data.off + 8, data.len - 8⟩ })
      return ({ c with base := base.endRead }, { r with ret := .eagain })

-- conn_end_read
def endRead (c : RudpPriv) : RudpPriv :=
  { c with base := c.base.endRead, readData := none, readDataLen := 0 }

-- conn_beg_write
def begWrite (c : RudpPriv) : RudpPriv × View :=
  let data := c.base.begWrite
  ({ c with
    base.writeBuffer := c.base.writeBuffer.writeInt data.off 8 c.seqNo
    writeData := some (data.off + 8) }, ⟨data.off + 8, data.len - 8⟩)

-- `write_data->c_rto++` or `write_data->s_rto++`
def bumpRto (c : RudpPriv) (data : Nat) : RudpPriv :=
  let off := if c.isServer then data + 4 else data + 6
  let m := c.base.writeBuffer
  { c with base.writeBuffer := m.writeInt off 2 (m.int off 2 + 1) }

-- The first part of `conn_end_write`: `if(!ack_outstanding)`.
def firstWrite (c : RudpPriv) (len : Nat) (xs : List SysWrite) : Option (RudpPriv × Ret) :=
  if c.ackOutstanding then some (c, .enone)
  else (c.base.endWrite (len + 8) xs).map fun ret =>
    if ret ≠ .enone then (c, ret)
    else ({ c with currentSeq := c.seqNo, ackOutstanding := true }, .enone)

-- The second part: `if(is_server)`.
def probe (c : RudpPriv) (x : SysRead) : Option (RudpPriv × BegRead) :=
  if c.isServer then c.begRead x else some (c, ⟨.eagain, none, false⟩)

-- The rest, from `if(current_seq != seq_no)` on.
def checkAck (c : RudpPriv) (len : Nat) (x : EndWriteInput) : Option (RudpPriv × Ret) :=
  if c.currentSeq ≠ c.seqNo then some ({ c with ackOutstanding := false }, .enone)
  else if !x.expired then some (c, .eagain)
  else
    c.writeData.bind fun data =>
      ((c.bumpRto data).base.endWrite (len + 8) x.again).map fun ret =>
        (c.bumpRto data, if ret = .efin then .efin else .rtofired)

-- conn_end_write, with whether the call took the answer of the read().
def endWrite (c : RudpPriv) (len : Nat) (x : EndWriteInput) : Option (RudpPriv × Ret × Bool) :=
  (c.firstWrite len x.first).bind fun (c, ret) =>
    if ret ≠ .enone then some (c, ret, false)
    else
      (c.probe x.read).bind fun (c, r) =>
        if c.isServer ∧ r.ret = .efin then some (c, .efin, r.read)
        else (c.checkAck len x).map fun (c, ret) => (c, ret, r.read)

end RudpPriv

end Q2pc
