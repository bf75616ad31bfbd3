import Q2pc.Transport.Socket

namespace Q2pc

-- q2pc_tcp_conn_priv. `delimResult` is an offset in `delimBuffer`.
structure TcpPriv extends ConnBuffers where
  delimBuffer : Memory
  delimBufferUsed : Nat
  delimBufferSize : Nat
  delimResult : Option Nat
  delimResultLen : Nat

-- delimit in q2pc_server.c, where a message has the length `msg_size`.
def delimit (msgSize len : Nat) : Nat := if msgSize ≤ len then msgSize else 0

-- `while(len > delim_buffer_size - delim_buffer_used)`, with the passes it may take.
def growSize (used len : Nat) : Nat → Nat → Option Nat
  | 0, _ => none
  | passes + 1, size =>
      if size < used + len then growSize used len passes (size * 2) else some size

namespace TcpPriv

-- new_conn_priv
def new : TcpPriv where
  toConnBuffers := .new
  delimBuffer := fun _ => 0
  delimBufferUsed := 0
  delimBufferSize := buffSize
  delimResult := none
  delimResultLen := 0

-- conn_beg_read
def begRead (c : TcpPriv) (x : SysRead) : Option (TcpPriv × BegRead) :=
  (c.toConnBuffers.begRead (some .efin) x).map fun (b, r) => ({ c with toConnBuffers := b }, r)

-- conn_end_read
def endRead (c : TcpPriv) : TcpPriv := { c with toConnBuffers := c.toConnBuffers.endRead }

-- `delim_result && delim_result_len`
def pending (c : TcpPriv) : Option View :=
  match c.delimResult with
  | some result => if c.delimResultLen ≠ 0 then some ⟨result, c.delimResultLen⟩ else none
  | none => none

-- The message at the start of the buffer, if `delimit` finds one.
def delimitBuffer (msgSize : Nat) (c : TcpPriv) : Option TcpPriv :=
  let size := delimit msgSize c.delimBufferUsed
  if 0 < size ∧ size ≤ c.delimBufferUsed then
    some { c with delimResult := some 0, delimResultLen := size }
  else none

-- `delim_buffer` takes `bs` up behind what is in it, and grows for that if it has to.
def append (c : TcpPriv) (bs : List UInt8) : Option TcpPriv :=
  (growSize c.delimBufferUsed bs.length (c.delimBufferUsed + bs.length + 1)
    c.delimBufferSize).map fun size =>
      { c with
        delimBuffer := c.delimBuffer.write c.delimBufferUsed bs
        delimBufferUsed := c.delimBufferUsed + bs.length
        delimBufferSize := size }

-- conn_beg_delimit. There is no result where the process ends, where the loop that
-- grows the buffer does not, and where `data` and `len` would be used without being
-- set.
def begDelimit (msgSize : Nat) (c : TcpPriv) (x : SysRead) : Option (TcpPriv × BegRead) :=
  match c.pending with
  | some v => some (c, ⟨.enone, some v, false⟩)
  | none =>
      match if c.delimBufferUsed ≠ 0 then c.delimitBuffer msgSize else none with
      | some c => some (c, ⟨.enone, some ⟨0, c.delimResultLen⟩, false⟩)
      | none => do
          let (c, r) ← c.begRead x
          if r.ret ≠ .enone then
            return (c, { r with out := none })
          let data ← r.out
          let c := (← c.append (data.bytes c.readBuffer)).endRead
          match c.delimitBuffer msgSize with
          | some c => return (c, ⟨.enone, some ⟨0, c.delimResultLen⟩, r.read⟩)
          | none => return (c, ⟨.eagain, none, r.read⟩)

-- `delim_result_len= 0; delim_result= NULL;`
def noResult (c : TcpPriv) : TcpPriv := { c with delimResult := none, delimResultLen := 0 }

-- The end of both cases of `conn_end_delimit`: the bytes from `next` on hold another
-- message, or they are moved to the start of the buffer.
def advance (msgSize : Nat) (c : TcpPriv) (next : Nat) : TcpPriv :=
  let size := delimit msgSize c.delimBufferUsed
  if size ≠ 0 ∧ size ≤ c.delimBufferUsed then
    { c with delimResult := some next, delimResultLen := size }
  else
    noResult { c with delimBuffer := c.delimBuffer.move 0 next c.delimBufferUsed }

-- conn_end_delimit
def endDelimit (msgSize : Nat) (c : TcpPriv) : TcpPriv :=
  match c.delimResult with
  | none => c
  | some result =>
      let next := result + c.delimResultLen
      -- case 1)
      if c.delimResultLen ≤ c.delimBufferUsed then
        let c := { c with delimBufferUsed := c.delimBufferUsed - c.delimResultLen }
        if c.delimBufferUsed = 0 then c.noResult else c.advance msgSize next
      -- case 2)
      else c.advance msgSize next

end TcpPriv

end Q2pc
