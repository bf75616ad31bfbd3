import Q2pc.System.State
import Q2pc.Rudp.Conn

namespace Q2pc

open Function (update)

-- The server and its clients over RUDP, from the connect messages on. `up` says that
-- `server_init` has returned from `do_connectall` and started the workers.
structure RudpSystem where
  connected : Nat
  up : Bool
  srv : Server
  conn : Nat → RudpConn
  client : Nat → Client

inductive RudpSysEvent
  -- do_connectall reads connection `i`; it returns
  | connect (i : Nat) (x : BaseRead)
  | start
  -- a step of the server that is not a `beg_read`, a step of the master inside
  -- `end_write` on connection `i`, and a `beg_read`
  | server (e : Event)
  | endWrite (i : Nat) (e : EndWriteEvent)
  | begRead (w i : Nat) (x : BaseRead)
  -- `init` writes the connect message; a step of the client inside `end_write`
  | clientInit (i : Nat)
  | clientEndWrite (i : Nat) (e : EndWriteEvent)
  | receive (i : Nat) (x : BaseRead)
  | respond (i : Nat)
  | quit (i : Nat)
  deriving DecidableEq, Repr

-- The connect message. `init` leaves the other fields of the zeroed buffer alone.
def conMsg (clientId : Int) : Msg where
  type := .con
  srcHostid := i16 clientId
  cRto := 0
  sRto := 0
  ts := 0

-- The calls of the server on its connections.
def Event.onConn : Event → Option (Nat × RudpEvent)
  | .begWrite i p => some (i, .masterWrite p)
  | .endWrite i => some (i, .masterCall)
  | .endWriteRet i r => some (i, .masterRet r)
  | .endRead _ i => some (i, .workerRelease)
  | _ => none

def Event.isBegRead : Event → Bool
  | .begRead _ _ _ => true
  | _ => false

namespace RudpSystem

def init (C : Cluster) : RudpSystem where
  connected := 0
  up := false
  srv := .init
  conn := fun _ => .init
  client := fun i => .start (C.peer i + 1)

def connStep (s : RudpSystem) (i : Nat) (e : RudpEvent) : Option RudpSystem :=
  ((s.conn i).step e).map fun c => { s with conn := update s.conn i c }

-- do_connectall: one `beg_read` in its loop over the connections.
def connect (s : RudpSystem) (i : Nat) (x : BaseRead) : Option RudpSystem := do
  let s' ← s.connStep i (.workerRead x)
  match ((s.conn i).server.begRead x).2 with
  | .data p =>
      if p.msg.type = .con then
        let s' ← s'.connStep i .workerRelease
        some { s' with connected := s.connected + 1 }
      else some { s' with srv := s.srv.term }
  | _ => some s'

def server (C : Cluster) (s : RudpSystem) (e : Event) : Option RudpSystem := do
  let srv ← s.srv.step C.cfg e
  match e.onConn with
  | some (i, e) =>
      let s ← s.connStep i e
      some { s with srv }
  | none => some { s with srv }

def begRead (C : Cluster) (s : RudpSystem) (w i : Nat) (x : BaseRead) : Option RudpSystem := do
  let srv ← s.srv.step C.cfg (.begRead w i ((s.conn i).server.begRead x).2)
  let s ← s.connStep i (.workerRead x)
  some { s with srv }

-- get_messge, and the client program that gets what it returns.
def receive (s : RudpSystem) (i : Nat) (x : BaseRead) : Option RudpSystem := do
  let s' ← s.connStep i (.clientGet x)
  match ((s.conn i).client.begRead x).2 with
  | .data p =>
      let client ← (s.client i).receive p
      some { s' with client := update s.client i client }
  | _ => some s'

def respond (s : RudpSystem) (i : Nat) : Option RudpSystem := do
  let (client, response) ← (s.client i).respond
  let s' ← s.connStep i (match response with
    | some p => .clientWrite p
    | none => .clientQuit)
  some { s' with client := update s.client i client }

def step (C : Cluster) (s : RudpSystem) : RudpSysEvent → Option RudpSystem
  | .connect i x =>
      if s.up = false ∧ s.srv.master ≠ .terminated ∧ i < C.cfg.clientCount then s.connect i x
      else none
  | .start =>
      if s.up = false ∧ s.srv.master ≠ .terminated ∧ C.cfg.clientCount ≤ s.connected then
        some { s with up := true }
      else none
  | .server e => if s.up ∧ e.isBegRead = false then s.server C e else none
  | .endWrite i e =>
      if s.up ∧ i < C.cfg.clientCount then s.connStep i (.masterStep e) else none
  | .begRead w i x => if s.up then s.begRead C w i x else none
  | .clientInit i =>
      if i < C.cfg.clientCount ∧ (s.conn i).clientPc = .init then
        s.connStep i (.clientWrite ⟨conMsg (s.client i).clientNum, 0⟩)
      else none
  | .clientEndWrite i e => if i < C.cfg.clientCount then s.connStep i (.clientStep e) else none
  | .receive i x => if i < C.cfg.clientCount then s.receive i x else none
  | .respond i => if i < C.cfg.clientCount then s.respond i else none
  | .quit i => if i < C.cfg.clientCount then s.connStep i .clientQuit else none

end RudpSystem

def rudpSystem (C : Cluster) : Machine RudpSystem RudpSysEvent where
  init := .init C
  step := RudpSystem.step C

end Q2pc
