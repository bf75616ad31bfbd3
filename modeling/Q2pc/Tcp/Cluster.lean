import Q2pc.Rudp.Cluster
import Q2pc.Tcp.Link

namespace Q2pc

open Function (update)

-- A TCP connection between the server and a client.
structure TcpConn where
  down : TcpLink
  up : TcpLink
  -- the pointer of `run_thread` into the buffer of the delimiter
  data : View
  -- `init` of the client has called `end_write`
  joined : Bool
  -- history: the message in the write buffer of the server, and those that the server and
  -- the client have passed to `end_write`
  buffer : Packet
  passed : List Packet
  sent : List Packet

-- The server and its clients over TCP, from the connect messages on.
structure TcpSystem where
  connected : Nat
  up : Bool
  srv : Server
  conn : Nat → TcpConn
  client : Nat → Client

inductive TcpSysEvent
  -- do_connectall reads connection `i`; it returns
  | connect (i : Nat) (x : PipeRead)
  | start
  -- a step of the server that is not a `beg_read`, a write() of the master inside
  -- `end_write` on connection `i`, and a `beg_read`
  | server (e : Event)
  | write (i : Nat) (x : SysWrite)
  | begRead (w i : Nat) (x : PipeRead)
  -- `init` writes the connect message; a write() of the client inside `end_write`
  | clientInit (i : Nat)
  | clientWrite (i : Nat) (x : SysWrite)
  | receive (i : Nat) (x : PipeRead)
  | respond (i : Nat)
  | quit (i : Nat)
  -- the process of the server has ended
  | exit (i : Nat)
  deriving DecidableEq, Repr

namespace TcpLink

-- The message behind a pointer into the buffer of the delimiter.
def message (l : TcpLink) (data : View) : Msg := Msg.read l.reader.delimBuffer data.off

-- `beg_write`, the message, and the call of `end_write`.
def send (msgSize : Nat) (l : TcpLink) (msg : Msg) : Option TcpLink := do
  let l ← l.step msgSize (.begWrite msg.encode)
  l.step msgSize .endWrite

-- The exchange of the message that comes next: history.
def nextStage (l : TcpLink) (sent : List Packet) : Nat :=
  (sent[l.delivered.length]?.map Packet.stage).getD 0

end TcpLink

-- The worker keeps the pointer that `beg_read` sets.
def TcpConn.setRead (c : TcpConn) (up : TcpLink) (r : BegRead) : TcpConn :=
  { c with up, data := r.out.getD c.data }

@[simp] theorem TcpConn.setRead_up (c : TcpConn) (up : TcpLink) (r : BegRead) :
    (c.setRead up r).up = up := rfl

@[simp] theorem TcpConn.setRead_sent (c : TcpConn) (up : TcpLink) (r : BegRead) :
    (c.setRead up r).sent = c.sent := rfl

-- What `beg_read` returns to the worker.
def TcpConn.readResult (c : TcpConn) (r : BegRead) : ReadResult :=
  match r.ret, r.out with
  | .enone, some data => .data ⟨c.up.message data, c.up.nextStage c.sent⟩
  | .enone, none => .unset
  | .efin, _ => .efin
  | _, _ => .eagain

-- After `end_read` the worker reads the message through its pointer again.
def Server.reread (s : Server) (w : Nat) (msg : Msg) : Server :=
  match (s.workers w).pc with
  | .loadCount i p => s.setWorker w (.loadCount i { p with msg })
  | _ => s

namespace TcpSystem

def init (C : Cluster) : TcpSystem where
  connected := 0
  up := false
  srv := .init
  conn := fun _ => ⟨.init, .init, ⟨0, 0⟩, false, ⟨requestMsg .lost 0, 0⟩, [], []⟩
  client := fun i => .start (C.peer i + 1)

-- do_connectall: one `beg_read` in its loop over the connections.
def connect (msgSize : Nat) (s : TcpSystem) (i : Nat) (x : PipeRead) : Option TcpSystem := do
  let c := s.conn i
  let (up, r) ← c.up.begRead msgSize x
  match r.ret, r.out with
  | .enone, some data =>
      if (up.message data).type = .con then
        let up ← up.step msgSize .endDelimit
        some { s with
          connected := s.connected + 1
          conn := update s.conn i { c with up } }
      else some { s with conn := update s.conn i { c with up }, srv := s.srv.term }
  | _, _ => some { s with conn := update s.conn i { c with up } }

-- The steps of the server and its calls on the connections. The clock is an i64, and
-- `delete` closes the connection.
def server (msgSize : Nat) (C : Cluster) (s : TcpSystem) (e : Event) : Option TcpSystem := do
  let srv ← s.srv.step C.cfg e
  match e with
  | .begWrite i p =>
      if -2 ^ 63 ≤ p.msg.ts ∧ p.msg.ts < 2 ^ 63 then do
        let c := s.conn i
        let down ← c.down.step msgSize (.begWrite p.msg.encode)
        some { s with srv, conn := update s.conn i { c with down, buffer := p } }
      else none
  | .endWrite i => do
      let c := s.conn i
      let down ← c.down.step msgSize .endWrite
      some { s with
        srv
        conn := update s.conn i { c with down, passed := c.passed ++ [c.buffer] } }
  | .endWriteRet i r =>
      if i < C.cfg.clientCount ∧ (s.conn i).down.endWrite = .ret r then some { s with srv }
      else none
  | .endRead w i => do
      let c := s.conn i
      let up ← c.up.step msgSize .endDelimit
      some { s with
        srv := srv.reread w (up.message c.data)
        conn := update s.conn i { c with up } }
  | .delete _ i =>
      let c := s.conn i
      some { s with
        srv
        conn := update s.conn i { c with down := { c.down with closed := true } } }
  | _ => some { s with srv }

def begRead (msgSize : Nat) (C : Cluster) (s : TcpSystem) (w i : Nat) (x : PipeRead) :
    Option TcpSystem := do
  let c := s.conn i
  let (up, r) ← c.up.begRead msgSize x
  let c := c.setRead up r
  let srv ← s.srv.step C.cfg (.begRead w i (c.readResult r))
  some { s with srv, conn := update s.conn i c }

-- `term` of the client.
def quit (s : TcpSystem) (i : Nat) : TcpSystem :=
  let c := s.conn i
  { s with
    conn := update s.conn i { c with up := { c.up with closed := true } }
    client := update s.client i { s.client i with pc := .terminated } }

def clientInit (msgSize : Nat) (s : TcpSystem) (i : Nat) : Option TcpSystem := do
  let c := s.conn i
  let msg := conMsg (s.client i).clientNum
  let up ← c.up.send msgSize msg
  some { s with
    conn := update s.conn i { c with up, joined := true, sent := c.sent ++ [⟨msg, 0⟩] } }

-- A client whose `end_write` fails terminates.
def clientWrite (msgSize : Nat) (s : TcpSystem) (i : Nat) (x : SysWrite) : Option TcpSystem := do
  let c := s.conn i
  let up ← c.up.step msgSize (.write x)
  let s := { s with conn := update s.conn i { c with up } }
  some (if up.endWrite = .ret .efin then s.quit i else s)

-- A pass through the loop of get_messge, and the client program that gets what it returns:
-- it reads the message through the pointer after `end_read`.
def receive (msgSize : Nat) (s : TcpSystem) (i : Nat) (x : PipeRead) : Option TcpSystem := do
  let c := s.conn i
  let (down, r) ← c.down.begRead msgSize x
  match r.ret, r.out with
  | .enone, some data =>
      let stage := down.nextStage c.passed
      let down ← down.step msgSize .endDelimit
      let client ← (s.client i).receive ⟨down.message data, stage⟩
      some { s with
        conn := update s.conn i { c with down }
        client := update s.client i client }
  | .efin, _ =>
      let down ← down.step msgSize .endDelimit
      some (quit { s with conn := update s.conn i { c with down } } i)
  | _, _ => some { s with conn := update s.conn i { c with down } }

def respond (msgSize : Nat) (s : TcpSystem) (i : Nat) : Option TcpSystem := do
  let (client, response) ← (s.client i).respond
  let c := s.conn i
  match response with
  | some p =>
      let up ← c.up.send msgSize p.msg
      some { s with
        conn := update s.conn i { c with up, sent := c.sent ++ [p] }
        client := update s.client i client }
  | none => some (s.quit i)

-- A client that sends waits until all of the message is written.
def step (msgSize : Nat) (C : Cluster) (s : TcpSystem) : TcpSysEvent → Option TcpSystem
  | .connect i x =>
      if s.up = false ∧ s.srv.master ≠ .terminated ∧ i < C.cfg.clientCount then
        s.connect msgSize i x
      else none
  | .start =>
      if s.up = false ∧ s.srv.master ≠ .terminated ∧ C.cfg.clientCount ≤ s.connected then
        some { s with up := true }
      else none
  | .server e => if s.up ∧ e.isBegRead = false then s.server msgSize C e else none
  | .write i x =>
      if s.up ∧ i < C.cfg.clientCount then
        ((s.conn i).down.step msgSize (.write x)).map fun down =>
          { s with conn := update s.conn i { s.conn i with down } }
      else none
  | .begRead w i x => if s.up then s.begRead msgSize C w i x else none
  | .clientInit i =>
      if i < C.cfg.clientCount ∧ (s.conn i).joined = false ∧ (s.client i).pc = .getMessage then
        s.clientInit msgSize i
      else none
  | .clientWrite i x => if i < C.cfg.clientCount then s.clientWrite msgSize i x else none
  | .receive i x =>
      if i < C.cfg.clientCount ∧ (s.conn i).joined ∧ (s.conn i).up.endWrite = .ret .enone ∧
          (s.client i).pc = .getMessage then
        s.receive msgSize i x
      else none
  | .respond i => if i < C.cfg.clientCount then s.respond msgSize i else none
  | .quit i => if i < C.cfg.clientCount then some (s.quit i) else none
  | .exit i =>
      if i < C.cfg.clientCount ∧ s.srv.master = .terminated then
        let c := s.conn i
        some { s with conn := update s.conn i { c with down := { c.down with closed := true } } }
      else none

end TcpSystem

def tcpSystem (msgSize : Nat) (C : Cluster) : Machine TcpSystem TcpSysEvent where
  init := .init C
  step := TcpSystem.step msgSize C

end Q2pc
