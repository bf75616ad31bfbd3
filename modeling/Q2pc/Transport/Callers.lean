import Q2pc.Transport.Conn
import Q2pc.Client

namespace Q2pc

-- The fields of `q2pc_msg` behind a pointer into a buffer.
def Msg.read (m : Memory) (off : Nat) : Msg where
  type := .ofCode (m.int off 2)
  srcHostid := m.int (off + 2) 2
  cRto := m.int (off + 4) 2
  sRto := m.int (off + 6) 2
  ts := m.int (off + 8) 8

-- The bounds check of `run_thread`.
def idInRange (count : Nat) (srcHostid : Int) : Prop := 1 ≤ srcHostid ∧ srcHostid ≤ count

instance (count : Nat) (srcHostid : Int) : Decidable (idInRange count srcHostid) := by
  unfold idInRange
  infer_instance

-- The slot and the type with which `run_thread` counts a message, if it does.
def Msg.vote (count : Nat) (msg : Msg) : Option (Nat × MsgType) :=
  if idInRange count msg.srcHostid then some ((msg.srcHostid - 1).toNat, msg.type) else none

-- What the loop of `run_thread` does in a pass over one connection.
inductive WorkerPass
  -- Q2PC_EAGAIN
  | nothing
  -- Q2PC_EFIN: `stop_signal = 1`
  | stop
  -- `src_hostid` out of range
  | ignored
  -- `votes_scoreboard[slot] = type`, `votes_count[thread_id]++`, and the message that goes
  -- into the stats array
  | counted (slot : Nat) (type : MsgType) (stat : Msg)
  deriving DecidableEq, Repr

namespace TransConn

-- run_thread on a connection. The fields of the statistics are read through the pointer
-- after `end_read`. There is no result where the pointer is not set.
def runThread (msgSize count : Nat) (x : SysRead) (c : TransConn) :
    Option (TransConn × WorkerPass) :=
  (c.begRead msgSize x).bind fun (c, r) =>
    match r.ret with
    | .eagain => some (c, .nothing)
    | .efin => some (c, .stop)
    | _ => r.out.map fun data =>
        let msg := Msg.read c.buffer data.off
        if idInRange count msg.srcHostid then
          let c := c.endRead msgSize
          (c, .counted (msg.srcHostid - 1).toNat msg.type (Msg.read c.buffer data.off))
        else (c, .ignored)

-- A pass through the loop of `get_messge`, with the pointer if it returns one.
def getMessge (msgSize : Nat) (x : SysRead) (c : TransConn) : Option (TransConn × Option View) :=
  (c.begRead msgSize x).bind fun (c, r) =>
    match r.ret with
    | .enone => r.out.map fun data => (c.endRead msgSize, some data)
    | .efin => some (c.endRead msgSize, none)
    | _ => some (c, none)

end TransConn

-- Two messages that agree in the fields that do_phase1, do_phase2 and send_response read.
structure Msg.SameRequest (msg msg' : Msg) : Prop where
  type : msg.type = msg'.type
  cRto : msg.cRto = msg'.cRto
  sRto : msg.sRto = msg'.sRto
  ts : msg.ts = msg'.ts

variable {m m' : Memory} {off off' : Nat}

theorem MsgType.ofCode_inj {code code' : Int} (h : MsgType.ofCode code = MsgType.ofCode code') :
    code = code' := by
  rw [← MsgType.code_ofCode code, h, MsgType.code_ofCode]

private theorem ofCode_eq_iff : MsgType.ofCode (m.int off 2) = MsgType.ofCode (m'.int off' 2) ↔
    ∀ i < 2, m (off + i) = m' (off' + i) := by
  rw [← Memory.int_eq_iff_apply]
  exact ⟨MsgType.ofCode_inj, congrArg _⟩

private theorem field_eq_iff (field len : Nat) :
    m.int (off + field) len = m'.int (off' + field) len ↔
      ∀ i, field ≤ i → i < field + len → m (off + i) = m' (off' + i) := by
  rw [Memory.int_eq_iff_apply]
  constructor
  · intro h i hlo hhi
    have hi := h (i - field) (by omega)
    rwa [Nat.add_assoc, Nat.add_assoc, Nat.add_sub_cancel' hlo] at hi
  · intro h i hi
    rw [Nat.add_assoc, Nat.add_assoc]
    exact h (field + i) (by omega) (by omega)

theorem Msg.sameRequest_read_iff : (Msg.read m off).SameRequest (Msg.read m' off') ↔
    ∀ i < 16, i ≠ 2 → i ≠ 3 → m (off + i) = m' (off' + i) := by
  constructor
  · rintro ⟨htype, hcRto, hsRto, hts⟩ i hi h2 h3
    simp only [Msg.read] at htype hcRto hsRto hts
    rcases (show i < 2 ∨ 4 ≤ i ∧ i < 6 ∨ 6 ≤ i ∧ i < 8 ∨ 8 ≤ i by omega) with h | h | h | h
    · exact ofCode_eq_iff.mp htype i h
    · exact (field_eq_iff 4 2).mp hcRto i h.1 h.2
    · exact (field_eq_iff 6 2).mp hsRto i h.1 h.2
    · exact (field_eq_iff 8 8).mp hts i h hi
  · intro h
    constructor <;> simp only [Msg.read]
    · exact ofCode_eq_iff.mpr fun i hi => h i (by omega) (by omega) (by omega)
    · exact (field_eq_iff 4 2).mpr fun i _ _ => h i (by omega) (by omega) (by omega)
    · exact (field_eq_iff 6 2).mpr fun i _ _ => h i (by omega) (by omega) (by omega)
    · exact (field_eq_iff 8 8).mpr fun i _ _ => h i (by omega) (by omega) (by omega)

theorem Msg.read_eq_iff : Msg.read m off = Msg.read m' off' ↔
    ∀ i < 16, m (off + i) = m' (off' + i) := by
  have hsplit : Msg.read m off = Msg.read m' off' ↔
      (Msg.read m off).SameRequest (Msg.read m' off') ∧
        m.int (off + 2) 2 = m'.int (off' + 2) 2 := by
    constructor
    · intro h
      have hid := congrArg Msg.srcHostid h
      simp only [Msg.read] at hid
      rw [h]
      exact ⟨⟨rfl, rfl, rfl, rfl⟩, hid⟩
    · rintro ⟨⟨htype, hcRto, hsRto, hts⟩, hid⟩
      simp only [Msg.read] at *
      rw [htype, hcRto, hsRto, hts, hid]
  rw [hsplit, Msg.sameRequest_read_iff, field_eq_iff 2 2]
  constructor
  · rintro ⟨h, hid⟩ i hi
    by_cases hfield : 2 ≤ i ∧ i < 4
    · exact hid i hfield.1 hfield.2
    · exact h i hi (by omega) (by omega)
  · intro h
    exact ⟨fun i hi _ _ => h i hi, fun i _ hi => h i (by omega)⟩

def voteBytes : List UInt8 := [1, 0, 1, 0, 0, 0, 0, 0, 0, 0, 0, 0, 0, 0, 0, 0]

example : Msg.read (Memory.write (fun _ => 0) 0 voteBytes) 0 = ⟨.voteYes, 1, 0, 0, 0⟩ := by
  decide +kernel

end Q2pc
