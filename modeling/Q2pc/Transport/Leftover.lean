import Q2pc.Lib.Leftover
import Q2pc.Transport.Callers
import Q2pc.Transport.Contract

namespace Q2pc

-- What the arrival of a datagram makes a connection and its caller do: whether the
-- datagram is taken, `seq_no` afterwards, and what the caller acts on.
structure Decision (α : Type*) where
  taken : Bool
  seqNo : Option Int
  acts : Option α
  deriving DecidableEq, Repr

-- The datagram is not acted upon: RUDP drops it, and the caller does nothing. UDP and Q-Jump
-- have no `seq_no` and hand every datagram to the caller.
def Decision.Idle {α : Type*} (d : Decision α) : Prop :=
  d.acts = none ∧ (d.seqNo ≠ none → d.taken = false)

-- Whether `run_thread` was given a message, and the slot and type it counted.
def WorkerPass.taken : WorkerPass → Bool
  | .nothing | .stop => false
  | .ignored | .counted _ _ _ => true

def WorkerPass.vote : WorkerPass → Option (Nat × MsgType)
  | .counted slot type _ => some (slot, type)
  | _ => none

namespace TransConn

-- The connection with `m` in the buffer that datagrams are read into.
def withBuffer (m : Memory) : TransConn → TransConn
  | .tcp c => .tcp { c with readBuffer := m }
  | .udp c => .udp { c with readBuffer := m }
  | .rudp c => .rudp { c with base.readBuffer := m }
  | .qj c => .qj { c with readBuffer := m }

def seqNo : TransConn → Option Int
  | .rudp c => some c.seqNo
  | .tcp _ | .udp _ | .qj _ => none

def workerDecides (msgSize count : Nat) (bs : List UInt8) (c : TransConn) :
    Option (Decision (Nat × MsgType)) :=
  (c.runThread msgSize count (.bytes bs)).map fun (c, pass) => ⟨pass.taken, c.seqNo, pass.vote⟩

def clientDecides (msgSize : Nat) (bs : List UInt8) (c : TransConn) :
    Option (Decision MsgType) :=
  (c.getMessge msgSize (.bytes bs)).map fun (c, data) =>
    ⟨data.isSome, c.seqNo, data.map fun data => (Msg.read c.buffer data.off).type⟩

-- Where the message starts in a datagram.
def header : TransConn → Nat
  | .rudp _ => 8
  | .tcp _ | .udp _ | .qj _ => 0

def takes (m : Memory) : TransConn → Bool
  | .rudp c => c.accepts (m.int 0 8)
  | .tcp _ | .udp _ | .qj _ => true

def nextSeqNo (m : Memory) (c : TransConn) : Option Int :=
  match c with
  | .rudp c =>
      if c.accepts (m.int 0 8) then some (if c.isServer then c.seqNo + 1 else m.int 0 8)
      else some c.seqNo
  | .tcp _ | .udp _ | .qj _ => none

variable {c : TransConn} {msgSize count : Nat} {received bs : List UInt8}

-- The connection is one of UDP, RUDP or Q-Jump.
def Datagrams : TransConn → Prop
  | .tcp _ => False
  | .udp _ | .rudp _ | .qj _ => True

theorem endRead_datagram (msgSize : Nat) (h : c.Datagrams) :
    (c.endRead msgSize).buffer = c.buffer ∧ (c.endRead msgSize).seqNo = c.seqNo := by
  cases c with
  | tcp => exact absurd h id
  | udp | rudp | qj => exact ⟨rfl, rfl⟩

private theorem buffers_begRead {c : ConnBuffers} (refused : Option Ret)
    (hused : c.readBufferUsed = 0) (hbs : bs ≠ []) : c.begRead refused (.bytes bs) =
      some ({ c with readBuffer := c.readBuffer.write 0 bs, readBufferUsed := bs.length },
        ⟨.enone, some ⟨0, bs.length⟩, true⟩) := by
  simp only [ConnBuffers.begRead, hused, ne_eq, not_true_eq_false, if_false, if_neg hbs]

theorem begRead_datagram (m : Memory) (h : c.Datagrams) (hinv : c.Inv msgSize received)
    (hidle : c.pending = none) (hbs : bs ≠ []) :
    ∃ c' r, (c.withBuffer m).begRead msgSize (.bytes bs) = some (c', r) ∧ c'.Datagrams ∧
      c'.buffer = m.write 0 bs ∧ c'.seqNo = c.nextSeqNo (m.write 0 bs) ∧
      if c.takes (m.write 0 bs) then r.ret = .enone ∧ ∃ len, r.out = some ⟨c.header, len⟩
      else r.ret = .eagain := by
  cases c with
  | tcp => exact absurd h id
  | udp c =>
      have hread := buffers_begRead (c := { c.toConnBuffers with readBuffer := m }) (some .efin)
        (ConnBuffers.unused_of_idle hidle) hbs
      simp only [withBuffer, begRead, UdpPriv.begRead, hread, Option.map_some]
      exact ⟨_, _, rfl, trivial, rfl, rfl, rfl, _, rfl⟩
  | qj c =>
      have hread := buffers_begRead (c := { c.toConnBuffers with readBuffer := m }) none
        (ConnBuffers.unused_of_idle hidle) hbs
      simp only [withBuffer, begRead, QjPriv.begRead, hread, Option.map_some]
      exact ⟨_, _, rfl, trivial, rfl, rfl, rfl, _, rfl⟩
  | rudp c =>
      have hinv : c.Inv := hinv
      have hidle : c.pending = none := hidle
      have hpending : RudpPriv.pending { c with base.readBuffer := m } = none := hidle
      have hread := buffers_begRead (c := { c.base.toConnBuffers with readBuffer := m })
        (some .efin) (hinv.idle (hinv.readData_of_idle hidle)) hbs
      simp only [withBuffer, begRead, RudpPriv.begRead, hpending, UdpPriv.begRead, hread,
        Option.map_some, Option.bind_eq_bind, Option.bind_some, ne_eq, not_true_eq_false, if_false]
      split
      next haccept =>
        have haccept : c.accepts ((m.write 0 bs).int 0 8) = true := haccept
        refine ⟨_, _, rfl, trivial, rfl, ?_, ?_⟩
        · simp only [seqNo, nextSeqNo, if_pos haccept]
        · rw [takes, if_pos haccept]
          exact ⟨rfl, _, rfl⟩
      next haccept =>
        have haccept : ¬c.accepts ((m.write 0 bs).int 0 8) = true := haccept
        refine ⟨_, _, rfl, trivial, rfl, ?_, ?_⟩
        · simp only [seqNo, nextSeqNo, if_neg haccept]
        · rw [takes, if_neg haccept]

-- The decision on the datagram in the buffer `b`, of a caller that does `act` with a
-- message.
def decision {α : Type*} (act : Msg → Option α) (c : TransConn) (b : Memory) : Decision α :=
  ⟨c.takes b, c.nextSeqNo b, if c.takes b then act (Msg.read b c.header) else none⟩

theorem workerDecides_eq (m : Memory) (h : c.Datagrams) (hinv : c.Inv msgSize received)
    (hidle : c.pending = none) (hbs : bs ≠ []) :
    (c.withBuffer m).workerDecides msgSize count bs =
      some (c.decision (Msg.vote count) (m.write 0 bs)) := by
  obtain ⟨c', ⟨ret, out, read⟩, hread, h', hbuffer, hseq, htaken⟩ :=
    begRead_datagram m h hinv hidle hbs
  simp only [workerDecides, runThread, hread, Option.bind_some]
  obtain ⟨hbuffer', hseq'⟩ := endRead_datagram msgSize h'
  split at htaken
  next htakes =>
    obtain ⟨rfl, len, rfl⟩ := htaken
    simp only [Option.map_some, hbuffer]
    unfold decision Msg.vote
    split
    next hrange =>
      simp only [hseq', hseq, htakes, WorkerPass.taken, WorkerPass.vote]
    next hrange =>
      simp only [hseq, htakes, WorkerPass.taken, WorkerPass.vote]
  next htakes =>
    obtain rfl := htaken
    simp only [Option.map_some, decision, hseq, htakes, WorkerPass.taken, WorkerPass.vote,
      Bool.false_eq_true, if_false]

theorem clientDecides_eq (m : Memory) (h : c.Datagrams) (hinv : c.Inv msgSize received)
    (hidle : c.pending = none) (hbs : bs ≠ []) :
    (c.withBuffer m).clientDecides msgSize bs =
      some (c.decision (fun msg => some msg.type) (m.write 0 bs)) := by
  obtain ⟨c', ⟨ret, out, read⟩, hread, h', hbuffer, hseq, htaken⟩ :=
    begRead_datagram m h hinv hidle hbs
  simp only [clientDecides, getMessge, hread, Option.bind_some]
  obtain ⟨hbuffer', hseq'⟩ := endRead_datagram msgSize h'
  split at htaken
  next htakes =>
    obtain ⟨rfl, len, rfl⟩ := htaken
    simp only [Option.map_some, hbuffer', hbuffer, hseq', hseq, decision, htakes, if_true,
      Option.isSome_some]
  next htakes =>
    obtain rfl := htaken
    simp only [Option.map_some, Option.map_none, hseq, decision, htakes, Option.isSome_none,
      Bool.false_eq_true, if_false]

theorem nextSeqNo_of_not_takes {b : Memory} (h : c.takes b = false) :
    c.nextSeqNo b = c.seqNo := by
  cases c with
  | tcp | udp | qj => rfl
  | rudp c =>
      simp only [takes] at h
      simp only [nextSeqNo, h, Bool.false_eq_true, if_false, seqNo]

-- The sequence number decides on the datagram, and is in its first bytes.
theorem readsWithin_takes (c : TransConn) :
    Memory.ReadsWithin c.header fun b => (c.takes b, c.nextSeqNo b) := by
  cases c with
  | tcp | udp | qj => exact fun _ _ _ => rfl
  | rudp c =>
      exact (Memory.readsWithin_int 0 8).comp fun seq => (c.accepts seq,
        if c.accepts seq then some (if c.isServer then c.seqNo + 1 else seq) else some c.seqNo)

theorem takes_inj {b b' : Memory} {priv : RudpPriv} (htakes : (rudp priv).takes b = true)
    (h : ((rudp priv).takes b', (rudp priv).nextSeqNo b') =
      ((rudp priv).takes b, (rudp priv).nextSeqNo b)) : b'.int 0 8 = b.int 0 8 := by
  obtain ⟨htakes', hnext⟩ := Prod.mk.inj h
  rw [htakes] at htakes'
  simp only [takes] at htakes htakes'
  simp only [nextSeqNo, htakes, htakes', if_true, Option.some.injEq] at hnext
  cases hserver : priv.isServer with
  | true =>
      simp only [RudpPriv.accepts, hserver, if_true, decide_eq_true_eq] at htakes htakes'
      rw [htakes, htakes']
  | false =>
      simpa [hserver] using hnext

-- Bytes behind the datagram can complete its sequence number to one that is taken.
def CanTake (bs : List UInt8) (c : TransConn) : Prop := ∃ m : Memory, c.takes (m.write 0 bs) = true

-- They can complete its sequence number and its message so that the caller acts.
def CanAct {α : Type*} (act : Msg → Option α) (bs : List UInt8) (c : TransConn) : Prop :=
  ∃ m : Memory, (c.decision act (m.write 0 bs)).acts ≠ none

theorem takes_own_iff :
    Memory.OwnBytes bs (fun b => (c.takes b, c.nextSeqNo b)) ↔
      (c.header ≤ bs.length ∨ ¬c.CanTake bs) := by
  constructor
  · intro hown
    by_contra hcon
    obtain ⟨hlen, m, htakes⟩ : bs.length < c.header ∧ c.CanTake bs := by
      simpa only [not_or, not_le, not_not] using hcon
    cases c with
    | tcp | udp | qj => exact absurd hlen (Nat.not_lt_zero _)
    | rudp c =>
        obtain ⟨m', hother, -⟩ :=
          Memory.exists_other_int (show bs.length < 0 + (7 + 1) from hlen) m
        exact hother (takes_inj htakes (hown m' m))
  · rintro (hlen | hnever) m m'
    · exact (readsWithin_takes c).ownBytes hlen m m'
    · have hnot : ∀ m : Memory, c.takes (m.write 0 bs) = false := fun m =>
        Bool.eq_false_of_not_eq_true fun htakes => hnever ⟨m, htakes⟩
      simp only [hnot, nextSeqNo_of_not_takes (hnot _)]

end TransConn

-- What a caller does with a message depends on its first `len + 1` bytes, and where it
-- acts, on the last of them.
structure ActsOn {α : Type*} (len : Nat) (act : Msg → Option α) : Prop where
  reads : ∀ off : Nat, Memory.ReadsWithin (off + (len + 1)) fun b => act (Msg.read b off)
  last : ∀ (off : Nat) (b b' : Memory), (∀ i < off + len, b' i = b i) →
    b' (off + len) ≠ b (off + len) → act (Msg.read b off) ≠ none →
    act (Msg.read b' off) ≠ act (Msg.read b off)

theorem ActsOn.type : ActsOn 1 fun msg => some msg.type where
  reads := by
    intro off m m' hsame
    have hcode : m.int off 2 = m'.int off 2 := Memory.readsWithin_int off 2 m m' hsame
    simp only [Msg.read, hcode]
  last := by
    intro off b b' _ hother _ heq
    simp only [Msg.read, Option.some.injEq] at heq
    exact hother (Memory.int_eq_iff_apply.mp (MsgType.ofCode_inj heq) 1 (by omega))

private theorem vote_inj {count : Nat} {msg msg' : Msg} (hvote : Msg.vote count msg ≠ none)
    (h : Msg.vote count msg' = Msg.vote count msg) :
    msg'.srcHostid = msg.srcHostid := by
  unfold Msg.vote at hvote h
  split at hvote
  next hrange =>
    rw [if_pos hrange] at h
    obtain ⟨hrange', h⟩ := Option.ite_none_right_eq_some.mp h
    obtain ⟨hslot, -⟩ := Prod.mk.inj (Option.some.inj h)
    have hlo := hrange.1
    have hlo' := hrange'.1
    omega
  next => exact absurd rfl hvote

theorem ActsOn.vote (count : Nat) : ActsOn 3 (Msg.vote count) where
  reads := by
    intro off m m' hsame
    have hid : (Msg.read m off).srcHostid = (Msg.read m' off).srcHostid := by
      simp only [Msg.read]
      exact Memory.readsWithin_int (off + 2) 2 m m' hsame
    have htype : (Msg.read m off).type = (Msg.read m' off).type := by
      simp only [Msg.read]
      have hcode : m.int off 2 = m'.int off 2 :=
        Memory.readsWithin_int off 2 m m' fun i hi => hsame i (by omega)
      rw [hcode]
    simp only [Msg.vote, hid, htype]
  last := by
    intro off b b' _ hother hvote heq
    have hid := vote_inj hvote heq
    simp only [Msg.read] at hid
    exact hother (Memory.int_eq_iff_apply.mp hid 1 (by omega))

namespace TransConn

variable {c : TransConn} {bs : List UInt8}

-- A decision on the datagram alone: its own bytes hold what decides, or whatever lies
-- behind them does not make up for it.
theorem decision_own_iff {α : Type*} {len : Nat} {act : Msg → Option α} (hact : ActsOn len act) :
    Memory.OwnBytes bs (c.decision act) ↔
      (c.header ≤ bs.length ∨ ¬c.CanTake bs) ∧
      (c.header + (len + 1) ≤ bs.length ∨ ¬c.CanAct act bs) := by
  have htaken : Memory.OwnBytes bs (c.decision act) →
      Memory.OwnBytes bs fun b => (c.takes b, c.nextSeqNo b) := by
    intro hown m m'
    have heq := hown m m'
    exact Prod.ext (congrArg Decision.taken heq) (congrArg Decision.seqNo heq)
  constructor
  · intro hown
    have htakes := takes_own_iff.mp (htaken hown)
    refine ⟨htakes, ?_⟩
    by_contra hcon
    obtain ⟨hlen, m, hacts⟩ : bs.length < c.header + (len + 1) ∧ c.CanAct act bs := by
      simpa only [not_or, not_le, not_not] using hcon
    -- another last byte behind the datagram
    obtain ⟨m', hother, hsame⟩ := Memory.exists_leftover
      (show bs.length ≤ c.header + len by omega) m
    have htakes := (Prod.mk.inj (readsWithin_takes c (m'.write 0 bs) (m.write 0 bs)
      fun i hi => hsame i (by omega))).1
    have heq := congrArg Decision.acts (hown m' m)
    simp only [decision, htakes] at hacts heq
    split at hacts
    next htaken =>
      rw [if_pos htaken, if_pos htaken] at heq
      exact hact.last _ _ _ (fun i hi => hsame i (by omega)) hother hacts heq
    next => exact absurd rfl hacts
  · rintro ⟨htakes, hacts⟩ m m'
    obtain ⟨htaken, hnext⟩ := Prod.mk.inj (takes_own_iff.mpr htakes m m')
    have hsame : (c.decision act (m.write 0 bs)).acts = (c.decision act (m'.write 0 bs)).acts := by
      rcases hacts with hlen | hnever
      · have hown : act (Msg.read (m.write 0 bs) c.header) =
            act (Msg.read (m'.write 0 bs) c.header) := (hact.reads c.header).ownBytes hlen m m'
        simp only [decision, htaken, hown]
      · have hnone : ∀ m : Memory, (c.decision act (m.write 0 bs)).acts = none := fun m => by
          by_contra hacts
          exact hnever ⟨m, hacts⟩
        rw [hnone m, hnone m']
    exact Decision.mk.injEq .. ▸ ⟨htaken, hnext, hsame⟩

theorem canAct_type : c.CanAct (fun msg => some msg.type) bs ↔ c.CanTake bs := by
  apply exists_congr
  intro m
  simp [decision]

theorem CanAct.canTake {α : Type*} {act : Msg → Option α} (h : c.CanAct act bs) :
    c.CanTake bs := by
  obtain ⟨m, hacts⟩ := h
  refine ⟨m, ?_⟩
  by_contra hnot
  simp [decision, hnot] at hacts

end TransConn

-- What a caller decides on a datagram is the same whatever the buffer held before, and a
-- datagram of less than `size` bytes is not acted upon.
structure DecidesAlone {α : Type*} (size : Nat) (bs : List UInt8)
    (decides : Memory → Option (Decision α)) : Prop where
  same : ∀ m m' : Memory, decides m = decides m'
  short : bs.length < size → ∀ (m : Memory) (d : Decision α), decides m = some d → d.Idle

-- The bytes that complete a sequence number to one that is taken, if any do: those of the
-- number the server expects, and for a client those of the largest number.
def RudpPriv.likeliest (c : RudpPriv) : Memory :=
  .ofList (if c.isServer then Memory.intBytes 8 c.seqNo else Memory.maxBytes 8)

-- The smallest host id above 0 that a datagram can start with whose bytes are `bs`.
def leastId (bs : List UInt8) : Int :=
  match bs[2]?, bs[3]? with
  | some lo, some hi => Int.bmod (lo.toNat + 256 * hi.toNat : Nat) 65536
  | some lo, none => if lo = 0 then 256 else lo.toNat
  | none, _ => 1

namespace TransConn

variable {c c' : TransConn} {bs : List UInt8} {count : Nat}

-- RUDP drops the datagram for its sequence number, or for the bytes it has of it.
def Drops (bs : List UInt8) : TransConn → Prop
  | .rudp c => c.accepts ((c.likeliest.write 0 bs).int 0 8) = false
  | .tcp _ | .udp _ | .qj _ => False

-- A worker ignores the datagram of UDP or Q-Jump for its host id, or for the byte it has of it.
def Ignores (count : Nat) (bs : List UInt8) : TransConn → Prop
  | .udp _ | .qj _ => ¬idInRange count (leastId bs)
  | .tcp _ | .rudp _ => False

instance (bs : List UInt8) : DecidablePred (Drops bs)
  | .rudp _ => inferInstanceAs (Decidable (_ = false))
  | .tcp _ | .udp _ | .qj _ => isFalse id

instance (count : Nat) (bs : List UInt8) : DecidablePred (Ignores count bs)
  | .udp _ | .qj _ => inferInstanceAs (Decidable (¬_))
  | .tcp _ | .rudp _ => isFalse id

theorem canTake_rudp {c : RudpPriv} : (rudp c).CanTake bs ↔ ¬(rudp c).Drops bs := by
  unfold Drops CanTake takes
  rw [Bool.not_eq_false]
  cases hserver : c.isServer with
  | true =>
      have haccepts : ∀ seq, c.accepts seq = true ↔ seq = c.seqNo := fun seq => by
        simp [RudpPriv.accepts, hserver]
      rw [haccepts, RudpPriv.likeliest, if_pos hserver, ← Memory.exists_int_eq_iff]
      exact exists_congr fun m => haccepts _
  | false =>
      have haccepts : ∀ seq, c.accepts seq = true ↔ c.seqNo < seq := fun seq => by
        simp [RudpPriv.accepts, hserver]
      rw [haccepts, RudpPriv.likeliest, if_neg (by simp [hserver])]
      constructor
      · rintro ⟨m, htakes⟩
        have hlt := (haccepts _).mp htakes
        have hle := Memory.int_le_int_maxBytes m bs 8
        exact hlt.trans_le hle
      · exact fun hlt => ⟨_, (haccepts _).mpr hlt⟩

private theorem id_of_write (m : Memory) : (Msg.read (m.write 0 bs) 0).srcHostid =
    Int.bmod (((bs[2]?).getD (m 2)).toNat + 256 * ((bs[3]?).getD (m 3)).toNat : Nat) 65536 := by
  simp only [Msg.read, Memory.int_two]
  rfl

private theorem bmod_eq_of_pos {n : Nat} (hn : n < 65536) (hpos : 1 ≤ Int.bmod n 65536) :
    Int.bmod n 65536 = n := by
  rw [Int.bmod_def] at hpos ⊢
  split at hpos
  next hlt =>
    rw [if_pos hlt]
    omega
  next => omega

private theorem leastId_le (m : Memory) (hpos : 1 ≤ (Msg.read (m.write 0 bs) 0).srcHostid) :
    1 ≤ leastId bs ∧ leastId bs ≤ (Msg.read (m.write 0 bs) 0).srcHostid := by
  rw [id_of_write] at hpos ⊢
  unfold leastId
  cases hlo : bs[2]? with
  | none => exact ⟨le_refl 1, by simpa [hlo] using hpos⟩
  | some lo =>
      cases hhi : bs[3]? with
      | some hi => exact ⟨by simpa [hlo, hhi] using hpos, le_refl _⟩
      | none =>
          -- the other byte is at least 0, and at least 1 if this one is 0
          have hzero : lo = 0 ↔ lo.toNat = 0 := by
            rw [← UInt8.toNat_inj]
            rfl
          have hbyte := lo.toNat_lt
          have hleft := (m 3).toNat_lt
          simp only [hlo, hhi, Option.getD_some, Option.getD_none] at hpos ⊢
          have hlt : lo.toNat + 256 * (m 3).toNat < 65536 := by omega
          have hsame := bmod_eq_of_pos hlt hpos
          rw [hsame] at hpos ⊢
          by_cases hnot : lo.toNat = 0
          · rw [if_pos (hzero.mpr hnot)]
            omega
          · rw [if_neg (mt hzero.mp hnot)]
            omega

private theorem exists_leastId (bs : List UInt8) :
    ∃ m : Memory, (Msg.read (m.write 0 bs) 0).srcHostid = leastId bs := by
  simp only [id_of_write]
  unfold leastId
  cases hlo : bs[2]? with
  | none =>
      have hhi : bs[3]? = none := by
        rw [List.getElem?_eq_none_iff] at hlo ⊢
        omega
      refine ⟨fun i => if i = 2 then 1 else 0, ?_⟩
      simp only [hhi]
      decide
  | some lo =>
      cases hhi : bs[3]? with
      | some hi => exact ⟨fun _ => 0, rfl⟩
      | none =>
          have hbyte := lo.toNat_lt
          by_cases hzero : lo = 0
          · refine ⟨fun _ => 1, ?_⟩
            simp only [hzero, if_true]
            decide
          · refine ⟨fun _ => 0, ?_⟩
            simp only [Option.getD_some, Option.getD_none, if_neg hzero, Int.bmod_def]
            simp only [UInt8.toNat_zero]
            omega

theorem canAct_vote_unnumbered (hudp : c.header = 0) (htakes : ∀ m, c.takes m = true) :
    c.CanAct (Msg.vote count) bs ↔ idInRange count (leastId bs) := by
  simp only [CanAct, decision, htakes, if_true, hudp, Msg.vote, ne_eq, ite_eq_right_iff,
    reduceCtorEq, imp_false, not_not]
  constructor
  · rintro ⟨m, hlo, hhi⟩
    obtain ⟨hpos, hle⟩ := leastId_le m hlo
    exact ⟨hpos, hle.trans hhi⟩
  · rintro ⟨hlo, hhi⟩
    obtain ⟨m, hm⟩ := exists_leastId bs
    exact ⟨m, by rw [hm]; exact ⟨hlo, hhi⟩⟩

private theorem decidesAlone_iff {α : Type*} {len size : Nat} {act : Msg → Option α}
    {decides : Memory → Option (Decision α)} (hact : ActsOn len act)
    (hdecides : ∀ m : Memory, decides m = some (c.decision act (m.write 0 bs)))
    (hsize : c.header + (len + 1) ≤ size) : DecidesAlone size bs decides ↔
      (c.header ≤ bs.length ∨ ¬c.CanTake bs) ∧
        (size ≤ bs.length ∨ ¬c.CanAct act bs ∧ (c.seqNo ≠ none → ¬c.CanTake bs)) := by
  have hown : (∀ m m' : Memory, decides m = decides m') ↔
      Memory.OwnBytes bs (c.decision act) := by
    simp only [hdecides, Option.some.injEq]
    exact Iff.rfl
  have hnumbered : ∀ b : Memory, c.nextSeqNo b ≠ none ↔ c.seqNo ≠ none := by
    intro b
    cases c with
    | tcp | udp | qj => exact Iff.rfl
    | rudp => simp only [nextSeqNo, seqNo]; split <;> simp
  constructor
  · rintro ⟨hsame, hshort⟩
    refine ⟨((decision_own_iff hact).mp (hown.mp hsame)).1, ?_⟩
    by_cases hlen : size ≤ bs.length
    · exact .inl hlen
    · have hidle := fun m => hshort (Nat.lt_of_not_le hlen) m _ (hdecides m)
      refine .inr ⟨fun ⟨m, hacts⟩ => hacts (hidle m).1, fun hseq ⟨m, htakes⟩ => ?_⟩
      have hdropped := (hidle m).2 ((hnumbered _).mpr hseq)
      simp [decision, htakes] at hdropped
  · rintro ⟨htakes, hacts⟩
    refine ⟨hown.mpr ((decision_own_iff hact).mpr ⟨htakes, ?_⟩), fun hlen m d hd => ?_⟩
    · exact hacts.imp (fun hle => by omega) And.left
    · obtain ⟨hnever, hdrops⟩ := hacts.resolve_left (by omega)
      obtain rfl := Option.some.inj ((hdecides m).symm.trans hd)
      refine ⟨?_, fun hseq => ?_⟩
      · by_contra hsome
        exact hnever ⟨m, hsome⟩
      · exact Bool.eq_false_of_not_eq_true fun htakes =>
          hdrops ((hnumbered _).mp hseq) ⟨m, htakes⟩

private theorem rudp_condition_iff {priv : RudpPriv} {A : Prop} {size : Nat}
    (hA : A → (rudp priv).CanTake bs) (hsize : 8 ≤ size) :
    ((rudp priv).header ≤ bs.length ∨ ¬(rudp priv).CanTake bs) ∧
      (size ≤ bs.length ∨ ¬A ∧ ((rudp priv).seqNo ≠ none → ¬(rudp priv).CanTake bs)) ↔
      size ≤ bs.length ∨ (rudp priv).Drops bs := by
  have hdrops : ¬(rudp priv).CanTake bs ↔ (rudp priv).Drops bs := by
    rw [canTake_rudp, not_not]
  rw [← hdrops]
  constructor
  · rintro ⟨-, hlen | ⟨-, hnever⟩⟩
    · exact .inl hlen
    · exact .inr (hnever (by simp [seqNo]))
  · rintro (hlen | hnever)
    · exact ⟨.inl (hsize.trans hlen), .inl hlen⟩
    · exact ⟨.inr hnever, .inr ⟨fun ha => hnever (hA ha), fun _ => hnever⟩⟩

private theorem worker_condition_iff {size : Nat} (h : c.Datagrams) (hsize : c.header + 4 ≤ size) :
    (c.header ≤ bs.length ∨ ¬c.CanTake bs) ∧ (size ≤ bs.length ∨
      ¬c.CanAct (Msg.vote count) bs ∧ (c.seqNo ≠ none → ¬c.CanTake bs)) ↔
      size ≤ bs.length ∨ c.Drops bs ∨ c.Ignores count bs := by
  cases c with
  | tcp => exact absurd h id
  | udp | qj =>
      rw [canAct_vote_unnumbered rfl fun _ => rfl]
      simp [header, seqNo, Drops, Ignores]
  | rudp priv =>
      rw [rudp_condition_iff CanAct.canTake (Nat.le_trans (Nat.le_add_right 8 4) hsize)]
      simp [Ignores]

private theorem client_condition_iff {size : Nat} (h : c.Datagrams) (hsize : c.header + 2 ≤ size) :
    (c.header ≤ bs.length ∨ ¬c.CanTake bs) ∧ (size ≤ bs.length ∨
      ¬c.CanTake bs ∧ (c.seqNo ≠ none → ¬c.CanTake bs)) ↔
      size ≤ bs.length ∨ c.Drops bs := by
  cases c with
  | tcp => exact absurd h id
  | udp priv =>
      have htakes : (udp priv).CanTake bs := ⟨fun _ => 0, rfl⟩
      simp [header, Drops, htakes]
  | qj priv =>
      have htakes : (qj priv).CanTake bs := ⟨fun _ => 0, rfl⟩
      simp [header, Drops, htakes]
  | rudp priv => exact rudp_condition_iff id (Nat.le_trans (Nat.le_add_right 8 2) hsize)

theorem begRead_kind {msgSize : Nat} {x : SysRead} {r : BegRead} (h : c.Datagrams)
    (hcall : c.begRead msgSize x = some (c', r)) : c'.Datagrams := by
  cases c with
  | tcp => exact absurd h id
  | udp | rudp | qj =>
      obtain ⟨_, -, heq⟩ := Option.map_eq_some_iff.mp hcall
      obtain ⟨rfl, -⟩ := Prod.mk.inj heq
      trivial

theorem endRead_kind (msgSize : Nat) (h : c.Datagrams) : (c.endRead msgSize).Datagrams := by
  cases c with
  | tcp => exact absurd h id
  | udp | rudp | qj => trivial

theorem begWrite_kind (off : Nat) (bs : List UInt8) (h : c.Datagrams) :
    (c.begWrite.1.fill off bs).Datagrams := by
  cases c with
  | tcp => exact absurd h id
  | udp | rudp | qj => trivial

theorem endWrite_kind {len : Nat} {x : EndWriteInput} {read : Bool} (h : c.Datagrams)
    (hcall : c.endWrite len x = some (c', read)) : c'.Datagrams := by
  cases c with
  | tcp => exact absurd h id
  | udp | rudp | qj =>
      obtain ⟨_, -, heq⟩ := Option.map_eq_some_iff.mp hcall
      obtain ⟨rfl, -⟩ := Prod.mk.inj heq
      trivial

end TransConn

theorem ConnReads.datagrams_of_run {msgSize : Nat} {server : Bool} {t : TransType}
    {es : List ConnCall} {s : ConnReads} (ht : t ≠ .tcpLn)
    (h : (connReads msgSize server t).Run Machine.always es s) : s.conn.Datagrams := by
  apply h.reachable.invariant (P := fun s => s.conn.Datagrams)
  · cases t with
    | tcpLn => exact absurd rfl ht
    | udpLn | rdpLn | udpQj => trivial
  · intro s e s' _ hd _ hs
    cases e with
    | begRead x =>
        simp only [connReads, ConnReads.step, Option.ite_none_right_eq_some,
          Option.map_eq_some_iff, Prod.exists] at hs
        obtain ⟨-, c, r, hcall, rfl⟩ := hs
        exact TransConn.begRead_kind hd hcall
    | endRead =>
        obtain rfl := Option.some.inj hs
        exact TransConn.endRead_kind msgSize hd
    | begWrite bs =>
        simp only [connReads, ConnReads.step, Option.ite_none_right_eq_some,
          Option.some.injEq] at hs
        obtain ⟨-, rfl⟩ := hs
        exact TransConn.begWrite_kind _ bs hd
    | endWrite len x =>
        simp only [connReads, ConnReads.step, Option.ite_none_right_eq_some,
          Option.map_eq_some_iff, Prod.exists] at hs
        obtain ⟨-, c, read, hcall, rfl⟩ := hs
        exact TransConn.endWrite_kind hd hcall

-- On a connection of UDP, RUDP or Q-Jump that waits for a datagram, whatever state it is
-- in: what a worker and a client decide on the datagram depends on what its buffer held
-- before, or they act on a datagram of less than `size` bytes, unless the datagram has
-- that size, or RUDP drops it for the bytes it has of its sequence number, or a worker
-- ignores it for those it has of its host id.
theorem datagram_decides_alone_iff {msgSize : Nat} (hmin : 16 ≤ msgSize) {server : Bool}
    {t : TransType} (ht : t ≠ .tcpLn) {es : List ConnCall} {s : ConnReads}
    (h : (connReads msgSize server t).Run Machine.always es s) (hidle : s.conn.pending = none)
    {bs : List UInt8} (hbs : bs ≠ []) :
    (∀ count size : Nat, s.conn.header + 4 ≤ size →
      (DecidesAlone size bs
          (fun m => (s.conn.withBuffer m).workerDecides msgSize count bs) ↔
        size ≤ bs.length ∨ s.conn.Drops bs ∨ s.conn.Ignores count bs)) ∧
    ∀ size : Nat, s.conn.header + 2 ≤ size →
      (DecidesAlone size bs (fun m => (s.conn.withBuffer m).clientDecides msgSize bs) ↔
        size ≤ bs.length ∨ s.conn.Drops bs) := by
  have hd := ConnReads.datagrams_of_run ht h
  have hinv := (ConnReads.inv_of_run (by omega) h).1
  constructor
  · intro count size hsize
    rw [TransConn.decidesAlone_iff (ActsOn.vote count)
      (fun m => TransConn.workerDecides_eq m hd hinv hidle hbs) hsize]
    exact TransConn.worker_condition_iff hd hsize
  · intro size hsize
    rw [TransConn.decidesAlone_iff ActsOn.type
      (fun m => TransConn.clientDecides_eq m hd hinv hidle hbs) hsize, TransConn.canAct_type]
    exact TransConn.client_condition_iff hd hsize

-- A whole vote decides by itself. Of a datagram of 12 bytes RUDP takes the sequence number 0
-- behind -1, and drops another -1.
theorem datagram_decides_alone_iff_vote :
    DecidesAlone 16 voteBytes (fun m =>
      ((TransConn.new true .udpLn).withBuffer m).workerDecides 16 2 voteBytes) ∧
    DecidesAlone 16 voteBytes (fun m =>
      ((TransConn.new true .udpLn).withBuffer m).clientDecides 16 voteBytes) ∧
    ¬DecidesAlone 24 (List.replicate 12 0) (fun m =>
      ((TransConn.new true .rdpLn).withBuffer m).workerDecides 16 2 (List.replicate 12 0)) ∧
    DecidesAlone 24 (List.replicate 12 255) (fun m =>
      ((TransConn.new true .rdpLn).withBuffer m).workerDecides 16 2 (List.replicate 12 255)) := by
  have hudp : (connReads 16 true .udpLn).Run Machine.always [] (.init (.new true .udpLn)) := .nil
  have hrdp : (connReads 16 true .rdpLn).Run Machine.always [] (.init (.new true .rdpLn)) := .nil
  have h := @datagram_decides_alone_iff 16 (by decide) true .udpLn (by decide) [] _ hudp rfl
    voteBytes (by decide)
  have htaken := @datagram_decides_alone_iff 16 (by decide) true .rdpLn (by decide) [] _ hrdp rfl
    (List.replicate 12 0) (by decide)
  have hdropped := @datagram_decides_alone_iff 16 (by decide) true .rdpLn (by decide) [] _ hrdp rfl
    (List.replicate 12 255) (by decide)
  refine ⟨(h.1 2 16 (by decide)).mpr (.inl (by decide)),
    (h.2 16 (by decide)).mpr (.inl (by decide)),
    fun hcon => ?_, (hdropped.1 2 24 (by decide)).mpr (.inr (.inl ?_))⟩
  · have hcases := (htaken.1 2 24 (by decide)).mp hcon
    exact absurd hcases (by decide +kernel)
  · decide +kernel

-- Two bytes that follow a vote of client 1 into the buffer of UDP count as a vote of client 1,
-- and with RUDP one byte behind a vote is the next vote.
theorem leftover_vote_counted :
    ((TransConn.new true .udpLn).withBuffer (Memory.write (fun _ => 0) 0 voteBytes)).workerDecides
        16 1 [1, 0] = some ⟨true, none, some (0, .voteYes)⟩ ∧
    ((TransConn.new true .udpLn).withBuffer fun _ => 0).workerDecides 16 1 [1, 0] =
      some ⟨true, none, none⟩ ∧
    ((TransConn.new true .rdpLn).withBuffer (Memory.write (fun _ => 0) 8 voteBytes)).workerDecides
        16 1 [1] = some ⟨true, some 1, some (0, .voteYes)⟩ ∧
    ((TransConn.new true .rdpLn).withBuffer fun _ => 255).workerDecides 16 1 [1] =
      some ⟨false, some (-1), none⟩ := by
  decide +kernel

end Q2pc
