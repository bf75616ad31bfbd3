import Q2pc.Transport.Callers
import Q2pc.Transport.Contract

namespace Q2pc

variable {msgSize off : Nat} {x : SysRead}

namespace TcpPriv

variable {c c' : TcpPriv} {r : BegRead}

-- A result lies at the start of the buffer, or a whole message behind it.
def Aligned (msgSize : Nat) (c : TcpPriv) : Prop :=
  ∀ off : Nat, c.delimResult = some off → off = 0 ∨ msgSize ≤ off

-- The number of bytes that `conn_end_delimit` moves to the start of the buffer: what
-- follows the result, unless that is a message.
def moved (msgSize : Nat) (c : TcpPriv) : Nat :=
  if c.delimBufferUsed - msgSize < msgSize then c.delimBufferUsed - msgSize else 0

-- Byte `i` of the result survives `conn_end_delimit`: nothing is moved over it, or the
-- byte it has already.
def Keeps (msgSize : Nat) (c : TcpPriv) (i : Nat) : Prop :=
  c.delimResult = some 0 → i < c.moved msgSize → c.delimBuffer (msgSize + i) = c.delimBuffer i

theorem BegDelimit.aligned (hb : BegDelimit msgSize c x c' r) (h : c.Aligned msgSize) :
    c'.Aligned msgSize := by
  cases hb with
  | pending | again | refused | finished => exact h
  | found _ _ _ hr' _ =>
      intro off hoff
      exact .inl (Option.some.inj (hoff.symm.trans hr'))
  | short _ _ _ hr' _ =>
      intro off hoff
      simp [hr'] at hoff

theorem Inv.endDelimit_aligned (hpos : 0 < msgSize) (h : c.Inv msgSize) (ha : c.Aligned msgSize) :
    (c.endDelimit msgSize).Aligned msgSize := by
  cases hr : c.delimResult with
  | none => rwa [endDelimit_of_idle hr]
  | some off =>
      intro off' hoff'
      simp only [h.endDelimit_eq hr] at hoff'
      split at hoff'
      · simp [noResult] at hoff'
      · by_cases hnext : msgSize ≤ c.delimBufferUsed - msgSize
        · rw [advance_of_le hpos hnext] at hoff'
          obtain rfl := Option.some.inj hoff'
          exact .inr (Nat.le_add_left _ _)
        · rw [advance_of_lt (by simpa using hnext)] at hoff'
          simp [noResult] at hoff'

theorem Inv.endDelimit_buffer (hpos : 0 < msgSize) (h : c.Inv msgSize)
    (hr : c.delimResult = some off) (i : Nat) : (c.endDelimit msgSize).delimBuffer i =
      if i < c.moved msgSize then c.delimBuffer (off + msgSize + i) else c.delimBuffer i := by
  simp only [h.endDelimit_eq hr]
  by_cases hused : c.delimBufferUsed - msgSize = 0
  · have hmoved : c.moved msgSize = 0 := by
      rw [moved, hused]
      exact ite_self 0
    rw [if_pos hused, hmoved, if_neg (Nat.not_lt_zero i)]
    rfl
  · rw [if_neg hused]
    by_cases hnext : msgSize ≤ c.delimBufferUsed - msgSize
    · have hmoved : c.moved msgSize = 0 := if_neg (by omega)
      rw [hmoved, if_neg (Nat.not_lt_zero i), advance_of_le hpos hnext]
    · have hmoved : c.moved msgSize = c.delimBufferUsed - msgSize := if_pos (by omega)
      rw [hmoved, advance_of_lt (by simpa using hnext)]
      exact c.delimBuffer.move_zero_apply _ _ _

theorem Inv.endDelimit_keeps (hpos : 0 < msgSize) (h : c.Inv msgSize) (ha : c.Aligned msgSize)
    (hr : c.delimResult = some off) {i : Nat} :
    (c.endDelimit msgSize).delimBuffer (off + i) = c.delimBuffer (off + i) ↔
      c.Keeps msgSize i := by
  have hmoved : c.moved msgSize < msgSize := by
    unfold moved
    split <;> omega
  rw [h.endDelimit_buffer hpos hr, Keeps, hr, Option.some.injEq]
  rcases ha off hr with rfl | hoff
  · rw [Nat.zero_add, Nat.zero_add]
    split
    next hlt => exact ⟨fun heq _ _ => heq, fun heq => heq rfl hlt⟩
    next hnot => exact ⟨fun _ _ hlt => absurd hlt hnot, fun _ => rfl⟩
  · have hbehind : ¬off + i < c.moved msgSize := by omega
    rw [if_neg hbehind]
    exact ⟨fun _ hzero => absurd hzero (by omega), fun _ => rfl⟩

end TcpPriv

-- What holds of a connection of TCP between two calls.
def TransConn.Delimits (msgSize : Nat) (c : TransConn) : Prop :=
  ∃ priv : TcpPriv, c = .tcp priv ∧ priv.Inv msgSize ∧ priv.Aligned msgSize

namespace ConnReads

variable {s s' : ConnReads} {e : ConnCall}

theorem delimits_step (hpos : 0 < msgSize) (h : s.conn.Delimits msgSize)
    (hs : s.step msgSize e = some s') : s'.conn.Delimits msgSize := by
  obtain ⟨c, hc, hinv, ha⟩ := h
  cases e with
  | begRead x =>
      simp only [ConnReads.step, hc, TransConn.begRead, Option.ite_none_right_eq_some,
        Option.map_eq_some_iff, Prod.exists, Prod.mk.injEq] at hs
      obtain ⟨-, _, _, ⟨c', r, hcall, rfl, rfl⟩, rfl⟩ := hs
      have hb := hinv.begDelimit_cases hpos hcall
      exact ⟨c', rfl, hb.inv hinv, hb.aligned ha⟩
  | endRead =>
      obtain rfl := Option.some.inj hs
      refine ⟨c.endDelimit msgSize, by simp only [hc, TransConn.endRead], ?_,
        hinv.endDelimit_aligned hpos ha⟩
      cases hr : c.delimResult with
      | none => rwa [TcpPriv.endDelimit_of_idle hr]
      | some off => exact (hinv.endDelimit hpos hr).1
  | begWrite bs =>
      simp only [ConnReads.step, hc, TransConn.begWrite, TransConn.fill,
        Option.ite_none_right_eq_some, Option.some.injEq] at hs
      obtain ⟨-, rfl⟩ := hs
      exact ⟨_, rfl, ⟨hinv.read, hinv.size, hinv.fits, hinv.idle, hinv.result⟩, ha⟩
  | endWrite len x =>
      simp only [ConnReads.step, hc, TransConn.endWrite, Option.ite_none_right_eq_some,
        Option.map_eq_some_iff, Prod.exists, Prod.mk.injEq] at hs
      obtain ⟨-, _, _, ⟨_, -, rfl, rfl⟩, rfl⟩ := hs
      exact ⟨c, rfl, hinv, ha⟩

theorem delimits_of_run {server : Bool} {es : List ConnCall} (hpos : 0 < msgSize)
    (h : (connReads msgSize server .tcpLn).Run Machine.always es s) : s.conn.Delimits msgSize :=
  h.reachable.invariant ⟨.new, rfl, .new hpos, by simp [TcpPriv.Aligned, TcpPriv.new]⟩
    fun _ _ _ _ hi _ hs => delimits_step hpos hi hs

end ConnReads

namespace TransConn

variable {c c' : TransConn} {count slot : Nat} {type : MsgType} {stat : Msg} {data : View}

-- The statistics are filled with what lies behind the pointer after `end_read`.
theorem stat_of_runThread (h : c.runThread msgSize count x = some (c', .counted slot type stat)) :
    ∃ c₁ r data, c.begRead msgSize x = some (c₁, r) ∧ r.out = some data ∧
      stat = Msg.read (c₁.endRead msgSize).buffer data.off := by
  obtain ⟨⟨c₁, r⟩, hcall, hpass⟩ := Option.bind_eq_some_iff.mp h
  refine ⟨c₁, r, ?_⟩
  simp only at hpass
  split at hpass
  · simp at hpass
  · simp at hpass
  · obtain ⟨data, hdata, hpass⟩ := Option.map_eq_some_iff.mp hpass
    split at hpass
    · obtain ⟨-, hcounted⟩ := Prod.mk.inj hpass
      obtain ⟨-, -, rfl⟩ := WorkerPass.counted.inj hcounted
      exact ⟨data, hcall, hdata, rfl⟩
    · simp at hpass

theorem getMessge_eq (h : c.getMessge msgSize x = some (c', some data)) :
    ∃ c₁ r, c.begRead msgSize x = some (c₁, r) ∧ r.out = some data ∧
      c' = c₁.endRead msgSize := by
  obtain ⟨⟨c₁, r⟩, hcall, hpass⟩ := Option.bind_eq_some_iff.mp h
  refine ⟨c₁, r, hcall, ?_⟩
  simp only at hpass
  split at hpass
  · obtain ⟨data', hdata, heq⟩ := Option.map_eq_some_iff.mp hpass
    obtain ⟨rfl, hsame⟩ := Prod.mk.inj heq
    exact ⟨hdata.trans hsame, rfl⟩
  · simp at hpass
  · simp at hpass

theorem Delimits.delivered {c₁ : TransConn} {r : BegRead} (hpos : 0 < msgSize)
    (h : c.Delimits msgSize) (hcall : c.begRead msgSize x = some (c₁, r))
    (hdata : r.out = some data) :
    ∃ priv : TcpPriv, c₁ = .tcp priv ∧ ∀ i,
      ((c₁.endRead msgSize).buffer (data.off + i) = priv.delimBuffer (data.off + i) ↔
        priv.Keeps msgSize i) := by
  obtain ⟨priv, rfl, hinv, ha⟩ := h
  obtain ⟨⟨priv', r'⟩, hdelimit, heq⟩ := Option.map_eq_some_iff.mp hcall
  obtain ⟨rfl, rfl⟩ := Prod.mk.inj heq
  have hb := hinv.begDelimit_cases hpos hdelimit
  obtain ⟨off, hr, hout⟩ : ∃ off, priv'.delimResult = some off ∧ data = ⟨off, msgSize⟩ := by
    cases hb with
    | pending hr => exact ⟨_, hr, Option.some.inj hdata.symm⟩
    | found _ _ _ hr' _ => exact ⟨0, hr', Option.some.inj hdata.symm⟩
    | again | refused | finished | short => simp at hdata
  subst hout
  exact ⟨priv', rfl, fun _ => (hb.inv hinv).endDelimit_keeps hpos (hb.aligned ha) hr⟩

end TransConn

-- Over TCP, whatever the stream and its chunks are and however the connection is called,
-- the fields that `run_thread` stores are those of the message that `beg_read` delivered
-- if and only if no byte of them changes when `conn_end_delimit` moves the start of the
-- next message to the start of the buffer. The same holds for the fields that a client
-- reads of a request, for which `src_hostid` does not matter.
theorem released_message_iff (hmin : 16 ≤ msgSize) {server : Bool} {es : List ConnCall}
    {s : ConnReads} {c' : TransConn}
    (h : (connReads msgSize server .tcpLn).Run Machine.always es s) :
    (∀ (count slot : Nat) (type : MsgType) (stat : Msg),
      s.conn.runThread msgSize count x = some (c', .counted slot type stat) →
      ∃ c r data, s.conn.begRead msgSize x = some (.tcp c, r) ∧ r.out = some data ∧
        (stat = Msg.read c.delimBuffer data.off ↔ ∀ i < 16, c.Keeps msgSize i)) ∧
    ∀ data : View, s.conn.getMessge msgSize x = some (c', some data) →
      ∃ c r, s.conn.begRead msgSize x = some (.tcp c, r) ∧ r.out = some data ∧
        ((Msg.read c'.buffer data.off).SameRequest (Msg.read c.delimBuffer data.off) ↔
          ∀ i < 16, i ≠ 2 → i ≠ 3 → c.Keeps msgSize i) := by
  have hpos : 0 < msgSize := by omega
  have hconn := ConnReads.delimits_of_run hpos h
  constructor
  · intro count slot type stat hpass
    obtain ⟨c₁, r, data, hcall, hdata, rfl⟩ := TransConn.stat_of_runThread hpass
    obtain ⟨priv, rfl, hkeeps⟩ := hconn.delivered hpos hcall hdata
    refine ⟨priv, r, data, hcall, hdata, ?_⟩
    rw [Msg.read_eq_iff]
    exact forall₂_congr fun i _ => hkeeps i
  · intro data hpass
    obtain ⟨c₁, r, hcall, hdata, rfl⟩ := TransConn.getMessge_eq hpass
    obtain ⟨priv, rfl, hkeeps⟩ := hconn.delivered hpos hcall hdata
    refine ⟨priv, r, hcall, hdata, ?_⟩
    rw [Msg.sameRequest_read_iff]
    exact forall₄_congr fun i _ _ _ => hkeeps i

private theorem exists_pass {α : Type} {β : Type*} [DecidableEq α] {o : Option (β × α)} {a : α}
    (h : (o.map Prod.snd) = some a) : ∃ b, o = some (b, a) := by
  obtain ⟨⟨b, a'⟩, ho, rfl⟩ := Option.map_eq_some_iff.mp h
  exact ⟨b, ho⟩

-- A vote, and behind it the whole of the next message.
theorem released_message_iff_next : ∃ c' c r data,
    (TransConn.new true .tcpLn).runThread 16 1 (.bytes (voteBytes ++ voteBytes)) =
      some (c', .counted 0 .voteYes ⟨.voteYes, 1, 0, 0, 0⟩) ∧
    (TransConn.new true .tcpLn).begRead 16 (.bytes (voteBytes ++ voteBytes)) =
      some (.tcp c, r) ∧ r.out = some data ∧
    (⟨.voteYes, 1, 0, 0, 0⟩ = Msg.read c.delimBuffer data.off ↔ ∀ i < 16, c.Keeps 16 i) := by
  obtain ⟨c', hpass⟩ := exists_pass (show (((TransConn.new true .tcpLn).runThread 16 1
    (.bytes (voteBytes ++ voteBytes))).map Prod.snd) =
      some (.counted 0 .voteYes ⟨.voteYes, 1, 0, 0, 0⟩) by decide +kernel)
  have hrun : (connReads 16 true .tcpLn).Run Machine.always [] (.init (.new true .tcpLn)) := .nil
  obtain ⟨c, r, data, h⟩ := (released_message_iff (by decide) hrun).1 1 0 _ _ hpass
  exact ⟨c', c, r, data, hpass, h⟩

def requestBytes : List UInt8 := [0, 0, 255, 255, 0, 0, 0, 0, 0, 0, 0, 0, 0, 0, 0, 0]

private theorem exists_delivered {c : TransConn} (data : View) (msg : Msg)
    (h : ((c.begRead 16 x).bind fun (c, r) => r.out.map fun data =>
      (data, Msg.read c.buffer data.off)) = some (data, msg)) :
    ∃ c₁ r, c.begRead 16 x = some (c₁, r) ∧ r.out = some data ∧
      Msg.read c₁.buffer data.off = msg := by
  obtain ⟨⟨c₁, r⟩, hcall, h⟩ := Option.bind_eq_some_iff.mp h
  obtain ⟨data', hdata, heq⟩ := Option.map_eq_some_iff.mp h
  obtain ⟨rfl, rfl⟩ := Prod.mk.inj heq
  exact ⟨c₁, r, hcall, hdata, rfl⟩

-- One byte of the next message follows a message in the buffer. A vote goes into the
-- statistics as an acknowledgement, and a client takes a request for a cancel.
theorem released_message_overwritten :
    (∃ c' c r data,
      (TransConn.new true .tcpLn).runThread 16 1 (.bytes (voteBytes ++ [5])) =
        some (c', .counted 0 .voteYes ⟨.ack, 1, 0, 0, 0⟩) ∧
      (TransConn.new true .tcpLn).begRead 16 (.bytes (voteBytes ++ [5])) = some (c, r) ∧
      r.out = some data ∧ Msg.read c.buffer data.off = ⟨.voteYes, 1, 0, 0, 0⟩) ∧
    ∃ c' c r data,
      (TransConn.new false .tcpLn).getMessge 16 (.bytes (requestBytes ++ [4])) =
        some (c', some data) ∧
      (Msg.read c'.buffer data.off).type = .cancel ∧
      (TransConn.new false .tcpLn).begRead 16 (.bytes (requestBytes ++ [4])) = some (c, r) ∧
      r.out = some data ∧ Msg.read c.buffer data.off = ⟨.request, -1, 0, 0, 0⟩ := by
  constructor
  · obtain ⟨c', hpass⟩ := exists_pass (show (((TransConn.new true .tcpLn).runThread 16 1
      (.bytes (voteBytes ++ [5]))).map Prod.snd) =
        some (.counted 0 .voteYes ⟨.ack, 1, 0, 0, 0⟩) by decide +kernel)
    obtain ⟨c, r, hcall, hdata, hmsg⟩ := exists_delivered (c := .new true .tcpLn)
      (x := .bytes (voteBytes ++ [5])) ⟨0, 16⟩ ⟨.voteYes, 1, 0, 0, 0⟩ (by decide +kernel)
    exact ⟨c', c, r, _, hpass, hcall, hdata, hmsg⟩
  · obtain ⟨c, r, hcall, hdata, hmsg⟩ := exists_delivered (c := .new false .tcpLn)
      (x := .bytes (requestBytes ++ [4])) ⟨0, 16⟩ ⟨.request, -1, 0, 0, 0⟩ (by decide +kernel)
    obtain ⟨⟨c', out⟩, hpass, hread⟩ := Option.map_eq_some_iff.mp
      (show ((TransConn.new false .tcpLn).getMessge 16 (.bytes (requestBytes ++ [4]))).map
        (fun r => (r.2, (Msg.read r.1.buffer 0).type)) =
          some (some ⟨0, 16⟩, .cancel) by decide +kernel)
    obtain ⟨rfl, htype⟩ := Prod.mk.inj hread
    exact ⟨c', c, r, _, hpass, htype, hcall, hdata, hmsg⟩

end Q2pc
