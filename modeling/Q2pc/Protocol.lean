import Mathlib.Data.Int.ModEq

namespace Q2pc

-- `q2pc_msg_type_t`. The wire field is an i16, so a received message can also
-- carry a value outside the enumeration.
inductive MsgType
  | lost
  | request
  | voteYes
  | voteNo
  | commit
  | cancel
  | ack
  | con
  | other (code : Int)
  deriving DecidableEq, Repr

-- The value of a type in the wire field and in a scoreboard slot.
def MsgType.code : MsgType → Int
  | .lost => -1
  | .request => 0
  | .voteYes => 1
  | .voteNo => 2
  | .commit => 3
  | .cancel => 4
  | .ack => 5
  | .con => 6
  | .other code => code

def MsgType.ofCode (code : Int) : MsgType :=
  if code = -1 then .lost
  else if code = 0 then .request
  else if code = 1 then .voteYes
  else if code = 2 then .voteNo
  else if code = 3 then .commit
  else if code = 4 then .cancel
  else if code = 5 then .ack
  else if code = 6 then .con
  else .other code

@[simp] theorem MsgType.code_ofCode (code : Int) : (MsgType.ofCode code).code = code := by
  unfold MsgType.ofCode
  split_ifs <;> simp_all [MsgType.code]

-- Conversion to an i16 field.
def i16 (x : Int) : Int := Int.bmod x (2 ^ 16)

theorem i16_eq_self {x : Int} (hlo : -32768 ≤ x) (hhi : x ≤ 32767) : i16 x = x := by
  unfold i16
  rw [Int.bmod_def]
  split <;> omega

-- `q2pc_msg`
structure Msg where
  type : MsgType
  srcHostid : Int
  cRto : Int
  sRto : Int
  ts : Int
  deriving DecidableEq, Repr

-- A message together with the exchange it belongs to: stage `2 * r` is the
-- request of round `r` and its vote, stage `2 * r + 1` the decision of round `r`
-- and its acknowledgement. The stage is history, it is not on the wire and no
-- function of the program reads it.
structure Packet where
  msg : Msg
  stage : Nat
  deriving DecidableEq, Repr

-- Two messages that agree in all but the retransmission counters.
def Msg.SameButRto (m m' : Msg) : Prop :=
  m.type = m'.type ∧ m.srcHostid = m'.srcHostid ∧ m.ts = m'.ts

def Packet.SameButRto (p p' : Packet) : Prop := p.msg.SameButRto p'.msg ∧ p.stage = p'.stage

-- `errors.h`
inductive Ret
  | enone
  | eagain
  | efin
  | rtofired
  deriving DecidableEq, Repr

-- What a call of `beg_read` leaves for its caller. `unset` is a return of
-- `Q2PC_ENONE` that writes neither `*data_o` nor `*len_o`.
inductive ReadResult
  | data (p : Packet)
  | unset
  | eagain
  | efin
  deriving DecidableEq, Repr

-- `transport_e`
inductive TransType
  | udpLn
  | tcpLn
  | rdpLn
  | udpQj
  deriving DecidableEq, Repr

end Q2pc
