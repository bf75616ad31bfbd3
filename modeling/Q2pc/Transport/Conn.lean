import Q2pc.Transport.Tcp
import Q2pc.Transport.Rudp

namespace Q2pc

-- `q2pc_trans_conn`, by transport.
inductive TransConn
  | tcp (c : TcpPriv)
  | udp (c : UdpPriv)
  | rudp (c : RudpPriv)
  | qj (c : QjPriv)

-- A call of one of the four functions of a connection.
inductive ConnCall
  | begRead (x : SysRead)
  | endRead
  -- with what the caller puts into the buffer
  | begWrite (bs : List UInt8)
  | endWrite (len : Nat) (x : EndWriteInput)
  deriving DecidableEq, Repr

namespace TransConn

-- doconnect
def new (server : Bool) : TransType → TransConn
  | .tcpLn => .tcp .new
  | .udpLn => .udp (.new server)
  | .rdpLn => .rudp (.new server)
  | .udpQj => .qj .new

def begRead (msgSize : Nat) (x : SysRead) : TransConn → Option (TransConn × BegRead)
  | .tcp c => (c.begDelimit msgSize x).map fun (c, r) => (.tcp c, r)
  | .udp c => (c.begRead x).map fun (c, r) => (.udp c, r)
  | .rudp c => (c.begRead x).map fun (c, r) => (.rudp c, r)
  | .qj c => (c.begRead x).map fun (c, r) => (.qj c, r)

def endRead (msgSize : Nat) : TransConn → TransConn
  | .tcp c => .tcp (c.endDelimit msgSize)
  | .udp c => .udp c.endRead
  | .rudp c => .rudp c.endRead
  | .qj c => .qj c.endRead

def begWrite : TransConn → TransConn × View
  | .tcp c => (.tcp c, c.begWrite)
  | .udp c => (.udp c, c.begWrite)
  | .rudp c => let (c, v) := c.begWrite; (.rudp c, v)
  | .qj c => (.qj c, c.begWrite)

def fill (off : Nat) (bs : List UInt8) : TransConn → TransConn
  | .tcp c => .tcp { c with toConnBuffers := c.toConnBuffers.fill off bs }
  | .udp c => .udp { c with toConnBuffers := c.toConnBuffers.fill off bs }
  | .rudp c => .rudp { c with base.toConnBuffers := c.base.toConnBuffers.fill off bs }
  | .qj c => .qj ⟨c.toConnBuffers.fill off bs⟩

-- With whether the call took the answer of the read(), which only RUDP's may do.
def endWrite (len : Nat) (x : EndWriteInput) : TransConn → Option (TransConn × Bool)
  | .tcp c =>
      ((c.toConnBuffers.endWrite len).bind (·.run true x.first)).map fun _ => (.tcp c, false)
  | .udp c => (c.endWrite len x.first).map fun _ => (.udp c, false)
  | .rudp c => (c.endWrite len x).map fun (c, _, read) => (.rudp c, read)
  | .qj c => (c.endWrite len x.first).map fun _ => (.qj c, false)

-- The buffer that `beg_read` points into.
def buffer : TransConn → Memory
  | .tcp c => c.delimBuffer
  | .udp c => c.readBuffer
  | .rudp c => c.base.readBuffer
  | .qj c => c.readBuffer

-- The message that has been found and not yet been released.
def pending : TransConn → Option View
  | .tcp c => c.pending
  | .udp c => c.toConnBuffers.pending
  | .rudp c => c.pending
  | .qj c => c.toConnBuffers.pending

-- The transports whose early return sets `*data_o` and `*len_o`.
def setsOutputs : TransConn → Bool
  | .tcp _ | .rudp _ => true
  | .udp _ | .qj _ => false

end TransConn

end Q2pc
