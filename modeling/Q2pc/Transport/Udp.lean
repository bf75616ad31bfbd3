import Q2pc.Transport.Socket

namespace Q2pc

-- q2pc_udp_conn_priv
structure UdpPriv extends ConnBuffers where
  isConnected : Bool

-- q2pc_qj_conn_priv
structure QjPriv extends ConnBuffers

-- The datagram in the read buffer. No function of UDP and Q-Jump returns this.
def ConnBuffers.pending (c : ConnBuffers) : Option View :=
  if c.readBufferUsed ≠ 0 then some ⟨0, c.readBufferUsed⟩ else none

namespace UdpPriv

-- new_conn_priv and doconnect
def new (server : Bool) : UdpPriv where
  toConnBuffers := .new
  isConnected := !server

-- conn_beg_read. The first datagram connects the socket of a server.
def begRead (c : UdpPriv) (x : SysRead) : Option (UdpPriv × BegRead) :=
  (c.toConnBuffers.begRead (some .efin) x).map fun (b, r) =>
    ({ c with
      toConnBuffers := b
      isConnected := c.isConnected || (r.read && r.ret = .enone) }, r)

-- conn_end_read
def endRead (c : UdpPriv) : UdpPriv := { c with toConnBuffers := c.toConnBuffers.endRead }

-- conn_end_write
def endWrite (c : UdpPriv) (len : Nat) (xs : List SysWrite) : Option Ret :=
  (c.toConnBuffers.endWrite len).bind (·.run true xs)

end UdpPriv

namespace QjPriv

-- new_conn_priv
def new : QjPriv := ⟨.new⟩

-- conn_beg_read
def begRead (c : QjPriv) (x : SysRead) : Option (QjPriv × BegRead) :=
  (c.toConnBuffers.begRead none x).map fun (b, r) => (⟨b⟩, r)

-- conn_end_read
def endRead (c : QjPriv) : QjPriv := ⟨c.toConnBuffers.endRead⟩

-- conn_end_write
def endWrite (c : QjPriv) (len : Nat) (xs : List SysWrite) : Option Ret :=
  (c.toConnBuffers.endWrite len).bind (·.run false xs)

end QjPriv

end Q2pc
