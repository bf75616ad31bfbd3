import Q2pc.Client
import Q2pc.Server.Step
import Mathlib.Logic.Equiv.Defs

namespace Q2pc

open Function (update)

-- The server together with the `clientCount` clients with the ids 1..n. Connection
-- `i` leads to the client with id `peer i + 1`: over TCP the connections are
-- accepted in any order, the other transports use `peer i = i`.
structure Cluster where
  cfg : Config
  peer : Equiv.Perm Nat
  peer_lt : ∀ i, peer i < cfg.clientCount ↔ i < cfg.clientCount
  count_pos : 1 ≤ cfg.clientCount
  count_le : cfg.clientCount ≤ 32767

def Cluster.oneThread (transType : TransType) (clientCount : Nat) (statsLen reportInt : Int)
    (hpos : 1 ≤ clientCount) (hle : clientCount ≤ 32767) : Cluster where
  cfg := .oneThread transType clientCount statsLen reportInt
  peer := .refl Nat
  peer_lt := fun _ => Iff.rfl
  count_pos := hpos
  count_le := hle

-- The connections of the TCP, UDP and Q-Jump transports with their messages, each
-- message being one block of the stream or one datagram. `readBuffer i` is the
-- message `beg_read` has returned on connection `i` and `end_read` not released.
structure Net where
  writeBuffer : Nat → Packet
  toClient : Nat → List Packet
  toServer : Nat → List Packet
  readBuffer : Nat → Option Packet
  -- history: what the master has passed to `end_write`, and on which connection
  passed : List (Nat × Packet)

def Net.init : Net where
  writeBuffer := fun _ => ⟨requestMsg .lost 0, 0⟩
  toClient := fun _ => []
  toServer := fun _ => []
  readBuffer := fun _ => none
  passed := []

-- `end_write` on connection `i`. Q-Jump sends to the broadcast address, so that
-- the message reaches every client.
def Net.write (cfg : Config) (n : Net) (i : Nat) : Net :=
  { n with
    toClient := fun j =>
      if cfg.transType = .udpQj ∨ j = i then n.toClient j ++ [n.writeBuffer i] else n.toClient j
    passed := n.passed ++ [(i, n.writeBuffer i)] }

-- `beg_read` on connection `i`. With a message pending TCP returns it again, UDP
-- and Q-Jump return without it. Else a message on its way may have arrived or not,
-- and the stream may have ended.
def Net.begRead (cfg : Config) (n : Net) (i : Nat) (r : ReadResult) : Option Net :=
  match n.readBuffer i with
  | some p =>
      if r = (if cfg.transType = .tcpLn then .data p else .unset) then some n else none
  | none =>
      match r, n.toServer i with
      | .data p, q :: rest =>
          if p = q then some { n with
            toServer := update n.toServer i rest
            readBuffer := update n.readBuffer i (some p) }
          else none
      | .eagain, _ => some n
      | .efin, _ => some n
      | _, _ => none

-- What a call of the server does to the connections.
def Net.step (cfg : Config) (n : Net) : Event → Option Net
  | .begWrite i p => some { n with writeBuffer := update n.writeBuffer i p }
  | .endWrite i => some (n.write cfg i)
  | .endWriteRet _ r => if r = .enone ∨ r = .efin then some n else none
  | .begRead _ i r => n.begRead cfg i r
  | .endRead _ i => some { n with readBuffer := update n.readBuffer i none }
  | _ => some n

-- What an unreliable network does to the messages on their way in one direction of
-- a connection: lose one, repeat one, let one overtake those before it.
inductive Fault
  | drop (k : Nat)
  | duplicate (k : Nat)
  | overtake (k : Nat)
  deriving DecidableEq, Repr

def Fault.apply {α : Type} : Fault → List α → Option (List α)
  | .drop k, l => if k < l.length then some (l.eraseIdx k) else none
  | .duplicate k, l => l[k]?.map fun a => l ++ [a]
  | .overtake k, l => l[k]?.map fun a => a :: l.eraseIdx k

structure System where
  srv : Server
  net : Net
  client : Nat → Client

inductive SysEvent
  | server (e : Event)
  -- `get_messge` returns on the client of connection `i`; it responds; it terminates
  | receive (i : Nat)
  | respond (i : Nat)
  | quit (i : Nat)
  | faultToClient (i : Nat) (f : Fault)
  | faultToServer (i : Nat) (f : Fault)
  deriving DecidableEq, Repr

-- All clients are connected, as `do_connectall` leaves it.
def System.init (C : Cluster) : System where
  srv := .init
  net := .init
  client := fun i => .start (C.peer i + 1)

def System.step (C : Cluster) (s : System) : SysEvent → Option System
  | .server e => do
      let srv ← s.srv.step C.cfg e
      let net ← s.net.step C.cfg e
      some { s with srv, net }
  | .receive i =>
      match s.net.toClient i with
      | p :: rest =>
          if i < C.cfg.clientCount then
            ((s.client i).receive p).map fun c => { s with
              net := { s.net with toClient := update s.net.toClient i rest }
              client := update s.client i c }
          else none
      | [] => none
  | .respond i =>
      if i < C.cfg.clientCount then
        (s.client i).respond.map fun (c, response) => { s with
          net := { s.net with
            toServer := update s.net.toServer i (s.net.toServer i ++ response.toList) }
          client := update s.client i c }
      else none
  | .quit i =>
      if i < C.cfg.clientCount then
        some { s with client := update s.client i { s.client i with pc := .terminated } }
      else none
  | .faultToClient i f =>
      if i < C.cfg.clientCount then
        (f.apply (s.net.toClient i)).map fun l =>
          { s with net := { s.net with toClient := update s.net.toClient i l } }
      else none
  | .faultToServer i f =>
      if i < C.cfg.clientCount then
        (f.apply (s.net.toServer i)).map fun l =>
          { s with net := { s.net with toServer := update s.net.toServer i l } }
      else none

def systemMachine (C : Cluster) : Machine System SysEvent where
  init := .init C
  step := System.step C

-- The connections deliver every message exactly once and in order.
def SysEvent.reliable : SysEvent → Prop
  | .faultToClient _ _ | .faultToServer _ _ => False
  | _ => True

-- The network loses messages and delivers the others once and in order.
def SysEvent.lossy : SysEvent → Prop
  | .faultToClient _ f | .faultToServer _ f => ∃ k, f = .drop k
  | _ => True

instance : DecidablePred SysEvent.reliable
  | .faultToClient _ _ | .faultToServer _ _ => isFalse id
  | .server _ | .receive _ | .respond _ | .quit _ => isTrue trivial

instance : DecidablePred SysEvent.lossy
  | .faultToClient _ (.drop k) | .faultToServer _ (.drop k) => isTrue ⟨k, rfl⟩
  | .faultToClient _ (.duplicate _) | .faultToServer _ (.duplicate _)
  | .faultToClient _ (.overtake _) | .faultToServer _ (.overtake _) =>
      isFalse fun ⟨_, h⟩ => by cases h
  | .server _ | .receive _ | .respond _ | .quit _ => isTrue trivial

theorem SysEvent.reliable.lossy {e : SysEvent} (h : e.reliable) : e.lossy := by
  cases e <;> trivial

end Q2pc
