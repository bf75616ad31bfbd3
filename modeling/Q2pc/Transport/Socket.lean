import Q2pc.Lib.Memory
import Q2pc.Protocol

namespace Q2pc

-- What a read() on a socket answers. No bytes stand for the end of the stream, and
-- `failed` for the errors that the program does not know.
inductive SysRead
  | bytes (bs : List UInt8)
  -- EAGAIN or EWOULDBLOCK
  | again
  -- ECONNREFUSED
  | refused
  | failed
  deriving DecidableEq, Repr

def SysRead.data : SysRead → List UInt8
  | .bytes bs => bs
  | .again | .refused | .failed => []

-- What a write() on a socket answers.
inductive SysWrite
  | wrote (n : Nat)
  | again
  | failed
  deriving DecidableEq, Repr

def SysWrite.count : SysWrite → Nat
  | .wrote n => n
  | .again | .failed => 0

-- A pointer into a buffer, and the length that goes with it.
structure View where
  off : Nat
  len : Int
  deriving DecidableEq, Repr

def View.bytes (v : View) (m : Memory) : List UInt8 := m.bytes v.off v.len.toNat

-- A call of `beg_read`: what it returns, what it has stored through `data_o` and
-- `len_o`, and whether it took the answer of the socket.
structure BegRead where
  ret : Ret
  out : Option View
  read : Bool
  deriving DecidableEq, Repr

-- BUFF_SIZE
def buffSize : Nat := 4096 * 1024

-- The part for the reader and the part for the writer, which the connections of TCP,
-- UDP and Q-Jump share.
structure ConnBuffers where
  readBuffer : Memory
  readBufferUsed : Nat
  readBufferSize : Nat
  writeBuffer : Memory
  writeBufferSize : Nat

-- new_conn_priv
def ConnBuffers.new : ConnBuffers where
  readBuffer := fun _ => 0
  readBufferUsed := 0
  readBufferSize := buffSize
  writeBuffer := fun _ => 0
  writeBufferSize := buffSize

-- The loop of `conn_end_write`: `data` and `len`, or what it has returned.
inductive WriteLoop
  | loop (data len : Nat)
  | ret (r : Ret)
  deriving DecidableEq, Repr

-- `while(len > 0)`
def WriteLoop.enter (data len : Nat) : WriteLoop :=
  if 0 < len then .loop data len else .ret .enone

namespace ConnBuffers

-- conn_beg_read, with what it returns on ECONNREFUSED. Where there is no result,
-- ch_log_fatal ends the process.
def begRead (c : ConnBuffers) (refused : Option Ret) (x : SysRead) :
    Option (ConnBuffers × BegRead) :=
  if c.readBufferUsed ≠ 0 then some (c, ⟨.enone, none, false⟩)
  else
    match x with
    | .again => some (c, ⟨.eagain, none, true⟩)
    | .refused => refused.map fun r => (c, ⟨r, none, true⟩)
    | .failed => none
    | .bytes bs =>
        if bs = [] then some (c, ⟨.efin, none, true⟩)
        else
          some ({ c with readBuffer := c.readBuffer.write 0 bs, readBufferUsed := bs.length },
            ⟨.enone, some ⟨0, bs.length⟩, true⟩)

-- conn_end_read
def endRead (c : ConnBuffers) : ConnBuffers := { c with readBufferUsed := 0 }

-- conn_beg_write
def begWrite (c : ConnBuffers) : View := ⟨0, c.writeBufferSize⟩

-- What the caller puts into the buffer that `beg_write` has given it.
def fill (c : ConnBuffers) (off : Nat) (bs : List UInt8) : ConnBuffers :=
  { c with writeBuffer := c.writeBuffer.write off bs }

-- conn_end_write up to its loop
def endWrite (c : ConnBuffers) (len : Nat) : Option WriteLoop :=
  if c.writeBufferSize < len then none else some (.enter 0 len)

end ConnBuffers

-- One pass through the loop of `conn_end_write`. `retry` says whether errors are
-- handled; where they are not, ch_log_fatal ends the process.
def WriteLoop.step (retry : Bool) (data len : Nat) : SysWrite → Option WriteLoop
  | .wrote n => some (.enter (data + n) (len - n))
  | .again => if retry then some (.loop data len) else none
  | .failed => if retry then some (.ret .efin) else none

-- The loop on given answers, to its return.
def WriteLoop.run (retry : Bool) : WriteLoop → List SysWrite → Option Ret
  | .ret r, _ => some r
  | .loop _ _, [] => none
  | .loop data len, x :: xs => (WriteLoop.step retry data len x).bind fun w => w.run retry xs

end Q2pc
