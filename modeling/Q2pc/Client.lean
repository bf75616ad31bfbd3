import Q2pc.Protocol

namespace Q2pc

-- `q2pc_phase_t`: which of `do_phase1` and `do_phase2` the client is in.
inductive ClientPhase
  | phase1
  | phase2
  deriving DecidableEq, Repr

inductive ClientPc
  -- in `get_messge`
  | getMessage
  -- `get_messge` has returned this message, the response is still to be sent
  | respond (old : Packet)
  -- `term(0)`
  | terminated
  deriving DecidableEq, Repr

structure Client where
  clientNum : Int
  voteCount : Nat
  phase : ClientPhase
  pc : ClientPc
  -- history: the types of the votes sent, and of the messages `do_phase2` received
  votes : List MsgType
  decisions : List MsgType
  deriving DecidableEq, Repr

-- `run_client` after `init`
def Client.start (clientId : Nat) : Client where
  clientNum := clientId
  voteCount := clientId
  phase := .phase1
  pc := .getMessage
  votes := []
  decisions := []

-- `do_phase1`: 1 in 5 votes fails. The counter is a u64.
def voteType (voteCount : Nat) : MsgType :=
  if voteCount % 5 ≠ 0 then .voteYes else .voteNo

-- The message `send_response` writes.
def responseMsg (msgType : MsgType) (clientNum : Int) (old : Msg) : Msg where
  type := msgType
  srcHostid := i16 clientNum
  cRto := old.cRto
  sRto := old.sRto
  ts := old.ts

-- `get_messge` returns a message.
def Client.receive (c : Client) (p : Packet) : Option Client :=
  match c.pc with
  | .getMessage =>
      match c.phase with
      | .phase1 => some { c with pc := .respond p }
      | .phase2 => some { c with pc := .respond p, decisions := c.decisions ++ [p.msg.type] }
  | _ => none

-- The type of the response of `do_phase1` and `do_phase2`, none where they
-- terminate on an unexpected message.
def Client.answer (c : Client) (old : Packet) : Option MsgType :=
  match c.phase, old.msg.type with
  | .phase1, .request => some (voteType c.voteCount)
  | .phase2, .commit => some .ack
  | .phase2, .cancel => some .ack
  | _, _ => none

-- `do_phase1` and `do_phase2` from the return of `get_messge` to their end: the
-- client after the response, and the response if there is one.
def Client.respond (c : Client) : Option (Client × Option Packet) :=
  match c.pc with
  | .respond old =>
      match c.answer old with
      | none => some ({ c with pc := .terminated }, none)
      | some t =>
          let response : Packet := ⟨responseMsg t c.clientNum old.msg, old.stage⟩
          match c.phase with
          | .phase1 =>
              some ({ c with
                pc := .getMessage
                phase := .phase2
                voteCount := (c.voteCount + 1) % 2 ^ 64
                votes := c.votes ++ [t] }, some response)
          | .phase2 =>
              some ({ c with pc := .getMessage, phase := .phase1 }, some response)
  | _ => none

end Q2pc
