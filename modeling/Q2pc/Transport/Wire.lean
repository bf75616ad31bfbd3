import Q2pc.Server.Step
import Q2pc.Transport.Callers

namespace Q2pc

variable {m : Memory} {msg : Msg} {bs rest : List UInt8} {off n : Nat}

-- `q2pc_msg` as a sender lays it out: packed, each field in two's complement with the least
-- significant byte first.
def Msg.encode (msg : Msg) : List UInt8 :=
  Memory.intBytes 2 msg.type.code ++ (Memory.intBytes 2 msg.srcHostid ++
    (Memory.intBytes 2 msg.cRto ++ (Memory.intBytes 2 msg.sRto ++ Memory.intBytes 8 msg.ts)))

-- The message at the start of a block or a datagram.
def Msg.decode (bs : List UInt8) : Msg := Msg.read (.ofList bs) 0

-- What is left of a message in the fields of the wire format.
def Msg.wire (msg : Msg) : Msg where
  type := .ofCode (i16 msg.type.code)
  srcHostid := i16 msg.srcHostid
  cRto := i16 msg.cRto
  sRto := i16 msg.sRto
  ts := Int.bmod msg.ts (2 ^ 64)

-- The fields have room for the message, and its type is not an `other` that has a name.
structure Msg.Fits (msg : Msg) : Prop where
  type : MsgType.ofCode msg.type.code = msg.type
  code : -2 ^ 15 ≤ msg.type.code ∧ msg.type.code < 2 ^ 15
  srcHostid : -2 ^ 15 ≤ msg.srcHostid ∧ msg.srcHostid < 2 ^ 15
  cRto : -2 ^ 15 ≤ msg.cRto ∧ msg.cRto < 2 ^ 15
  sRto : -2 ^ 15 ≤ msg.sRto ∧ msg.sRto < 2 ^ 15
  ts : -2 ^ 63 ≤ msg.ts ∧ msg.ts < 2 ^ 63

@[simp] theorem Msg.length_encode (msg : Msg) : msg.encode.length = 16 := by
  simp [Msg.encode]

private theorem bmod_eq_self_iff {x : Int} {k : Nat} (hk : 0 < k) :
    Int.bmod x (2 * k) = x ↔ -(k : Int) ≤ x ∧ x < k := by
  constructor
  · intro h
    have hle := Int.le_bmod (x := x) (m := 2 * k) (by omega)
    have hlt := Int.bmod_lt (x := x) (m := 2 * k) (by omega)
    omega
  · rintro ⟨hle, hlt⟩
    exact Int.bmod_eq_of_le (by omega) (by omega)

private theorem i16_iff (x : Int) : i16 x = x ↔ -2 ^ 15 ≤ x ∧ x < 2 ^ 15 :=
  bmod_eq_self_iff (k := 32768) (by decide)

private theorem bmod64_iff (x : Int) : Int.bmod x (2 ^ 64) = x ↔ -2 ^ 63 ≤ x ∧ x < 2 ^ 63 := by
  have h := bmod_eq_self_iff (x := x) (k := 2 ^ 63) (by omega)
  rwa [show 2 * 2 ^ 63 = 2 ^ 64 by omega, Nat.cast_pow, Nat.cast_ofNat] at h

private theorem type_iff (t : MsgType) : MsgType.ofCode (i16 t.code) = t ↔
    MsgType.ofCode t.code = t ∧ -2 ^ 15 ≤ t.code ∧ t.code < 2 ^ 15 := by
  constructor
  · intro h
    have hcode : i16 t.code = t.code := by
      conv_rhs => rw [← h]
      rw [MsgType.code_ofCode]
    exact ⟨by rwa [hcode] at h, (i16_iff _).mp hcode⟩
  · rintro ⟨h, hcode⟩
    rwa [(i16_iff _).mpr hcode]

theorem Msg.wire_eq_iff : msg.wire = msg ↔ msg.Fits := by
  constructor
  · intro h
    obtain ⟨type, srcHostid, cRto, sRto, ts⟩ := msg
    simp only [Msg.wire, Msg.mk.injEq] at h
    obtain ⟨htype, hsrc, hcRto, hsRto, hts⟩ := h
    obtain ⟨htype, hcode⟩ := (type_iff type).mp htype
    exact ⟨htype, hcode, (i16_iff _).mp hsrc, (i16_iff _).mp hcRto, (i16_iff _).mp hsRto,
      (bmod64_iff _).mp hts⟩
  · intro h
    have htype := (type_iff msg.type).mpr ⟨h.type, h.code⟩
    have hts := (bmod64_iff _).mpr h.ts
    simp only [Msg.wire, htype, (i16_iff _).mpr h.srcHostid, (i16_iff _).mpr h.cRto,
      (i16_iff _).mpr h.sRto]
    exact congrArg (fun ts => { msg with ts }) hts

private theorem bytes_fields (m : Memory) (off : Nat) : m.bytes off 16 =
    m.bytes off 2 ++ (m.bytes (off + 2) 2 ++ (m.bytes (off + 4) 2 ++ (m.bytes (off + 6) 2 ++
      m.bytes (off + 8) 8))) := by
  rw [show 16 = 2 + (2 + (2 + (2 + 8))) from rfl, m.bytes_add, m.bytes_add, m.bytes_add,
    m.bytes_add]

theorem Msg.read_of_bytes (h : m.bytes off 16 = msg.encode) : Msg.read m off = msg.wire := by
  rw [bytes_fields, Msg.encode] at h
  obtain ⟨htype, h⟩ := List.append_inj h (by simp)
  obtain ⟨hsrc, h⟩ := List.append_inj h (by simp)
  obtain ⟨hcRto, h⟩ := List.append_inj h (by simp)
  obtain ⟨hsRto, hts⟩ := List.append_inj h (by simp)
  simp only [Msg.read, Memory.int_of_bytes htype, Memory.int_of_bytes hsrc,
    Memory.int_of_bytes hcRto, Memory.int_of_bytes hsRto, Memory.int_of_bytes hts]
  rfl

theorem Msg.encode_read (m : Memory) (off : Nat) : (Msg.read m off).encode = m.bytes off 16 := by
  simp only [Msg.encode, Msg.read, MsgType.code_ofCode, Memory.intBytes_int]
  exact (bytes_fields m off).symm

theorem Msg.read_eq_decode (hn : 16 ≤ n) : Msg.read m off = Msg.decode (m.bytes off n) := by
  rw [Msg.decode, Msg.read_eq_iff]
  intro i hi
  have hlt : i < (m.bytes off n).length := by
    rw [Memory.length_bytes]
    omega
  simp only [Memory.ofList, Nat.zero_add, List.getElem?_eq_getElem hlt, Option.getD_some,
    Memory.getElem_bytes]

theorem Msg.decode_encode_append (msg : Msg) (rest : List UInt8) :
    Msg.decode (msg.encode ++ rest) = msg.wire := by
  refine Msg.read_of_bytes ?_
  have hlen : 16 ≤ (msg.encode ++ rest).length := by
    rw [List.length_append, Msg.length_encode]
    omega
  rw [Memory.bytes_ofList hlen, List.take_left' (Msg.length_encode msg)]

theorem Msg.encode_decode (hlen : 16 ≤ bs.length) : (Msg.decode bs).encode = bs.take 16 := by
  rw [Msg.decode, Msg.encode_read, Memory.bytes_ofList hlen]

theorem Msg.fits_read (m : Memory) (off : Nat) : (Msg.read m off).Fits := by
  rw [← Msg.wire_eq_iff]
  exact (Msg.read_of_bytes (Msg.encode_read m off).symm).symm

theorem requestMsg_fits (ph : Phase) {ts : Int} (hle : -2 ^ 63 ≤ ts) (hlt : ts < 2 ^ 63) :
    (requestMsg ph.msgType ts).Fits := by
  have htype : ph.msgType = .request ∨ ph.msgType = .commit ∨ ph.msgType = .cancel := by
    cases ph with
    | phase1 => exact .inl rfl
    | phase2 st => cases st <;> simp [Phase.msgType]
  refine ⟨?_, ?_, ?_, by simp [requestMsg], by simp [requestMsg], hle, hlt⟩
  · rcases htype with h | h | h <;> simp only [requestMsg, h] <;> decide
  · rcases htype with h | h | h <;> simp only [requestMsg, h] <;> decide
  · exact (i16_iff _).mp rfl

-- The clients copy the clock and the counters of what they respond to.
theorem responseMsg_fits {t : MsgType} {old : Msg} (ht : t = .voteYes ∨ t = .voteNo ∨ t = .ack)
    (clientNum : Int) (h : old.Fits) : (responseMsg t clientNum old).Fits := by
  have hsrc : i16 (i16 clientNum) = i16 clientNum := Int.bmod_bmod
  refine ⟨?_, ?_, (i16_iff _).mp hsrc, h.cRto, h.sRto, h.ts⟩
  · rcases ht with rfl | rfl | rfl <;> simp only [responseMsg] <;> decide
  · rcases ht with rfl | rfl | rfl <;> simp only [responseMsg] <;> decide

theorem respond_fits {c c' : Client} {p : Packet} (hr : c.respond = some (c', some p))
    (h : ∀ old, c.pc = .respond old → old.msg.Fits) : p.msg.Fits := by
  unfold Client.respond at hr
  split at hr <;> try contradiction
  rename_i old hpc
  split at hr
  · simp at hr
  · rename_i t ht
    have hmsg : p.msg = responseMsg t c.clientNum old.msg := by
      split at hr <;> cases hr <;> rfl
    rw [hmsg]
    refine responseMsg_fits ?_ c.clientNum (h old hpc)
    unfold Client.answer at ht
    split at ht <;> cases ht
    · unfold voteType
      split <;> simp
    · simp
    · simp

-- The wire format loses nothing. Wherever a block lies, the fields behind the pointer are
-- those of the block. A message comes out of the format as it went in if and only if its
-- fields have room for it, each block of 16 bytes or more is the message that comes out of
-- it and what follows, and the messages that the program sends have room.
theorem wire_format :
    (∀ (m : Memory) (off n : Nat), 16 ≤ n → Msg.read m off = Msg.decode (m.bytes off n)) ∧
    (∀ (msg : Msg) (rest : List UInt8), Msg.decode (msg.encode ++ rest) = msg ↔ msg.Fits) ∧
    (∀ bs : List UInt8, 16 ≤ bs.length →
      (Msg.decode bs).Fits ∧ (Msg.decode bs).encode ++ bs.drop 16 = bs) ∧
    (∀ (ph : Phase) (ts : Int), -2 ^ 63 ≤ ts → ts < 2 ^ 63 →
      (requestMsg ph.msgType ts).Fits) ∧
    ∀ (c c' : Client) (p : Packet), c.respond = some (c', some p) →
      (∀ old, c.pc = .respond old → old.msg.Fits) → p.msg.Fits := by
  refine ⟨fun m off n hn => Msg.read_eq_decode hn, fun msg rest => ?_, fun bs hlen => ?_,
    fun ph ts hle hlt => requestMsg_fits ph hle hlt, fun c c' p => respond_fits⟩
  · rw [Msg.decode_encode_append]
    exact Msg.wire_eq_iff
  · rw [Msg.encode_decode hlen, List.take_append_drop]
    exact ⟨Msg.fits_read _ _, rfl⟩

theorem wire_format_commit :
    Msg.decode ((requestMsg .commit 5).encode ++ [7]) = requestMsg .commit 5 := by
  obtain ⟨-, hdecode, -, hrequest, -⟩ := wire_format
  exact (hdecode _ _).mpr (hrequest (.phase2 .requestSuccess) 5 (by decide) (by decide))

end Q2pc
