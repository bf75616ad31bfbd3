import Q2pc.Lib.Blocks
import Q2pc.Lib.Machine
import Q2pc.Transport.Delimiter

namespace Q2pc

variable {msgSize : Nat}

-- What read() may answer at the reader's end of a TCP connection: a chunk of the bytes
-- that are on their way, the end of the stream, or an error.
inductive PipeRead
  | chunk (n : Nat)
  | finished
  | again
  | refused
  deriving DecidableEq, Repr

-- One direction of a TCP connection.
structure TcpLink where
  writer : TcpPriv
  endWrite : WriteLoop
  closed : Bool
  -- the bytes sent and not yet read
  pipe : List UInt8
  reader : TcpPriv
  -- history: the messages that `conn_end_write` was called with, and the bytes of them
  -- that write() took
  wrote : List (List UInt8)
  sent : List UInt8
  -- history: the messages of the pairs of `conn_beg_delimit` and `conn_end_delimit` so
  -- far, whether `conn_beg_delimit` was called since, and the message it returned
  delivered : List (List UInt8)
  begun : Bool
  shown : Option (List UInt8)

inductive TcpEvent
  -- `conn_beg_write`, and what the caller puts into the buffer
  | begWrite (bs : List UInt8)
  -- `conn_end_write(msg_size)`, up to its loop
  | endWrite
  -- a write() of the loop
  | write (x : SysWrite)
  | close
  | begDelimit (x : PipeRead)
  | endDelimit
  deriving DecidableEq, Repr

namespace TcpLink

def init : TcpLink where
  writer := .new
  endWrite := .ret .enone
  closed := false
  pipe := []
  reader := .new
  wrote := []
  sent := []
  delivered := []
  begun := false
  shown := none

def answer (s : TcpLink) : PipeRead → Option SysRead
  | .chunk n =>
      if 0 < n ∧ n ≤ s.pipe.length ∧ n ≤ s.reader.readBufferSize then
        some (.bytes (s.pipe.take n))
      else none
  | .finished => if s.closed ∧ s.pipe = [] then some (.bytes []) else none
  | .again => some .again
  | .refused => some .refused

-- A writer whose `conn_end_write` has failed writes no more, and a reader calls
-- `conn_end_delimit` after `conn_beg_delimit` only.
def step (msgSize : Nat) (s : TcpLink) : TcpEvent → Option TcpLink
  | .begWrite bs =>
      if s.closed = false ∧ s.endWrite = .ret .enone ∧ bs.length ≤ s.writer.begWrite.len then
        some { s with
          writer.toConnBuffers := s.writer.toConnBuffers.fill s.writer.begWrite.off bs }
      else none
  | .endWrite =>
      if s.closed = false ∧ s.endWrite = .ret .enone then
        (s.writer.toConnBuffers.endWrite msgSize).map fun w =>
          { s with
            endWrite := w
            wrote := s.wrote ++ [s.writer.writeBuffer.bytes 0 msgSize] }
      else none
  | .write x =>
      match s.endWrite with
      | .loop data len =>
          if s.closed = false ∧ x.count ≤ len then
            (WriteLoop.step true data len x).map fun w =>
              { s with
                endWrite := w
                pipe := s.pipe ++ s.writer.writeBuffer.bytes data x.count
                sent := s.sent ++ s.writer.writeBuffer.bytes data x.count }
          else none
      | .ret _ => none
  | .close => some { s with closed := true }
  | .begDelimit x => do
      let a ← s.answer x
      let (c, r) ← s.reader.begDelimit msgSize a
      return { s with
        reader := c
        pipe := if r.read then s.pipe.drop a.data.length else s.pipe
        begun := true
        shown := if r.ret = .enone then r.out.map (·.bytes c.delimBuffer) else s.shown }
  | .endDelimit =>
      if s.begun then
        some { s with
          reader := s.reader.endDelimit msgSize
          delivered := s.delivered ++ s.shown.toList
          begun := false
          shown := none }
      else none

end TcpLink

def tcpLink (msgSize : Nat) : Machine TcpLink TcpEvent where
  init := .init
  step := TcpLink.step msgSize

namespace TcpLink

variable {s t : TcpLink}

-- The bytes of the messages that write() has not taken yet.
def Unsent (s : TcpLink) (rest : List UInt8) : Prop :=
  match s.endWrite with
  | .loop data len => rest = s.writer.writeBuffer.bytes data len
  | .ret r => r = .enone → rest = []

-- What the writer has sent is the start of the messages it wrote.
structure Writes (msgSize : Nat) (s : TcpLink) : Prop where
  size : s.writer.writeBufferSize = buffSize
  whole : ∀ b ∈ s.wrote, b.length = msgSize
  sent : ∃ rest, s.wrote.flatten = s.sent ++ rest ∧ s.Unsent rest

-- What the reader delivered, what it holds and what is on its way is what was sent.
structure Reads (msgSize : Nat) (s : TcpLink) : Prop where
  reader : s.reader.Inv msgSize
  whole : ∀ b ∈ s.delivered, b.length = msgSize
  sent : s.sent = s.delivered.flatten ++ (s.reader.held ++ s.pipe)
  shown : ∀ b : List UInt8, s.shown = some b →
    s.reader.delimResult ≠ none ∧ b = s.reader.held.take msgSize
  notShown : s.begun = true → s.shown = none → s.reader.delimResult = none

theorem Writes.init : Writes msgSize .init where
  size := rfl
  whole := by simp [TcpLink.init]
  sent := ⟨[], rfl, fun _ => rfl⟩

theorem Reads.init (hpos : 0 < msgSize) : Reads msgSize .init where
  reader := .new hpos
  whole := by simp [TcpLink.init]
  sent := rfl
  shown := by simp [TcpLink.init]
  notShown := by simp [TcpLink.init]

private theorem Unsent.enter {data len : Nat} {rest : List UInt8}
    (hend : s.endWrite = .enter data len) (hrest : rest = s.writer.writeBuffer.bytes data len) :
    s.Unsent rest := by
  unfold Unsent
  rw [hend, WriteLoop.enter]
  by_cases hlen : 0 < len
  · rw [if_pos hlen]
    exact hrest
  · rw [if_neg hlen]
    obtain rfl : len = 0 := by omega
    exact fun _ => hrest

private theorem Writes.write {data len : Nat} {x : SysWrite} {w : WriteLoop}
    (h : s.Writes msgSize) (hend : s.endWrite = .loop data len) (hlen : x.count ≤ len)
    (hw : WriteLoop.step true data len x = some w) (pipe : List UInt8) :
    Writes msgSize { s with
      endWrite := w
      pipe := pipe
      sent := s.sent ++ s.writer.writeBuffer.bytes data x.count } := by
  obtain ⟨rest, hflat, hrest⟩ := h.sent
  have hrest : rest = s.writer.writeBuffer.bytes data len := by
    simpa only [Unsent, hend] using hrest
  have hsplit : len = x.count + (len - x.count) := by omega
  rw [hsplit, Memory.bytes_add] at hrest
  refine ⟨h.size, h.whole, s.writer.writeBuffer.bytes (data + x.count) (len - x.count), ?_, ?_⟩
  · rw [hflat, hrest, List.append_assoc]
  · cases x with
    | wrote n =>
        obtain rfl := Option.some.inj hw
        exact Unsent.enter rfl rfl
    | again =>
        obtain rfl := Option.some.inj hw
        rfl
    | failed =>
        obtain rfl := Option.some.inj hw
        intro hret
        exact absurd hret (by simp)

private theorem Writes.step {e : TcpEvent} (h : s.Writes msgSize)
    (hs : s.step msgSize e = some t) : t.Writes msgSize := by
  cases e with
  | begWrite bs =>
      simp only [TcpLink.step, Option.ite_none_right_eq_some, Option.some.injEq] at hs
      obtain ⟨⟨-, hend, -⟩, rfl⟩ := hs
      obtain ⟨rest, hflat, hrest⟩ := h.sent
      refine ⟨h.size, h.whole, rest, hflat, ?_⟩
      simpa only [Unsent, hend] using hrest
  | endWrite =>
      simp only [TcpLink.step, Option.ite_none_right_eq_some, Option.map_eq_some_iff] at hs
      obtain ⟨⟨-, hend⟩, w, hw, rfl⟩ := hs
      simp only [ConnBuffers.endWrite, Option.ite_none_left_eq_some, Option.some.injEq] at hw
      obtain ⟨rest, hflat, hrest⟩ := h.sent
      have hrest : rest = [] := by simpa only [Unsent, hend, forall_const] using hrest
      refine ⟨h.size, ?_, _, ?_, Unsent.enter hw.2.symm rfl⟩
      · intro b hb
        rcases List.mem_append.mp hb with hb | hb
        · exact h.whole b hb
        · rw [List.mem_singleton.mp hb, Memory.length_bytes]
      · rw [List.flatten_append, hflat, hrest, List.append_nil, List.flatten_singleton]
  | write x =>
      simp only [TcpLink.step] at hs
      split at hs
      next data len hend =>
        simp only [Option.ite_none_right_eq_some, Option.map_eq_some_iff] at hs
        obtain ⟨⟨-, hlen⟩, w, hw, rfl⟩ := hs
        exact h.write hend hlen hw _
      next => simp at hs
  | close =>
      obtain rfl := Option.some.inj hs
      exact ⟨h.size, h.whole, h.sent⟩
  | begDelimit x =>
      simp only [TcpLink.step, Option.bind_eq_bind, Option.bind_eq_some_iff] at hs
      obtain ⟨a, -, ⟨c, r⟩, -, ht⟩ := hs
      obtain rfl := Option.some.inj ht
      exact ⟨h.size, h.whole, h.sent⟩
  | endDelimit =>
      simp only [TcpLink.step, Option.ite_none_right_eq_some, Option.some.injEq] at hs
      obtain ⟨-, rfl⟩ := hs
      exact ⟨h.size, h.whole, h.sent⟩

private theorem answer_cases {x : PipeRead} {a : SysRead} (h : s.answer x = some a) :
    (∃ n, a = .bytes (s.pipe.take n) ∧ a.data.length = n ∧ s.pipe.take n ≠ []) ∨
      x = .finished ∧ a = .bytes [] ∧ s.pipe = [] ∨ a = .again ∨ a = .refused := by
  cases x with
  | chunk n =>
      simp only [answer, Option.ite_none_right_eq_some, Option.some.injEq] at h
      obtain ⟨⟨hpos, hn, -⟩, rfl⟩ := h
      have hlen : (s.pipe.take n).length = n := by
        rw [List.length_take]
        omega
      exact .inl ⟨n, rfl, hlen, List.length_pos_iff.mp (by omega)⟩
  | finished =>
      simp only [answer, Option.ite_none_right_eq_some, Option.some.injEq] at h
      obtain ⟨⟨-, hpipe⟩, rfl⟩ := h
      exact .inr (.inl ⟨rfl, rfl, hpipe⟩)
  | again => exact .inr (.inr (.inl (Option.some.inj h).symm))
  | refused => exact .inr (.inr (.inr (Option.some.inj h).symm))

private theorem answer_ne_failed {x : PipeRead} {a : SysRead} (h : s.answer x = some a) :
    a ≠ .failed := by
  rcases answer_cases h with ⟨n, rfl, -⟩ | ⟨-, rfl, -⟩ | rfl | rfl <;> simp

-- What a call of `conn_beg_delimit` takes from the pipe it holds afterwards.
private theorem held_append_pipe {x : PipeRead} {a : SysRead} {c : TcpPriv} {r : BegRead}
    (ha : s.answer x = some a) (hb : TcpPriv.BegDelimit msgSize s.reader a c r) :
    c.held ++ (if r.read then s.pipe.drop a.data.length else s.pipe) = s.reader.held ++ s.pipe := by
  have hchunk : ∀ bs : List UInt8, a = .bytes bs → bs ≠ [] →
      bs ++ s.pipe.drop a.data.length = s.pipe := by
    intro bs hbs hne
    rcases answer_cases ha with ⟨n, rfl, hn, -⟩ | ⟨-, rfl, -⟩ | rfl | rfl
    · rw [← SysRead.bytes.inj hbs, hn, List.take_append_drop]
    · exact absurd (SysRead.bytes.inj hbs).symm hne
    · simp at hbs
    · simp at hbs
  cases hb with
  | pending => rfl
  | again | refused | finished => simp [SysRead.data]
  | found _ hne hheld | short _ hne hheld =>
      rw [hheld, if_pos rfl, List.append_assoc, hchunk _ rfl hne]

private theorem Reads.begDelimit {x : PipeRead} {a : SysRead} {c : TcpPriv} {r : BegRead}
    (h : s.Reads msgSize) (ha : s.answer x = some a)
    (hb : TcpPriv.BegDelimit msgSize s.reader a c r) :
    Reads msgSize { s with
      reader := c
      pipe := if r.read then s.pipe.drop a.data.length else s.pipe
      begun := true
      shown := if r.ret = .enone then r.out.map (·.bytes c.delimBuffer) else s.shown } := by
  have hnone : s.reader.delimResult = none → s.shown = none := by
    intro hr
    cases hshown : s.shown with
    | none => rfl
    | some b => exact absurd hr (h.shown b hshown).1
  have hsent := h.sent
  rw [← held_append_pipe ha hb] at hsent
  refine ⟨hb.inv h.reader, h.whole, hsent, ?_, ?_⟩
  · intro b hb'
    by_cases hret : r.ret = .enone
    · obtain ⟨off, hr, hout, hbytes⟩ := hb.shown h.reader hret
      simp only [if_pos hret, hout, Option.map_some, Option.some.injEq] at hb'
      exact ⟨by simp [hr], hb'.symm.trans hbytes⟩
    · simp only [if_neg hret] at hb'
      cases hb with
      | pending | found => simp at hret
      | again hr | refused hr | finished hr | short hr =>
          rw [hnone hr] at hb'
          simp at hb'
  · intro _ hb'
    cases hb with
    | pending | found => simp at hb'
    | again hr | refused hr | finished hr => exact hr
    | short _ _ _ hr' => exact hr'

private theorem Reads.endDelimit (hpos : 0 < msgSize) (h : s.Reads msgSize)
    (hbegun : s.begun = true) :
    Reads msgSize { s with
      reader := s.reader.endDelimit msgSize
      delivered := s.delivered ++ s.shown.toList
      begun := false
      shown := none } := by
  cases hshown : s.shown with
  | none =>
      have hidle : s.reader.endDelimit msgSize = s.reader :=
        TcpPriv.endDelimit_of_idle (h.notShown hbegun hshown)
      rw [hidle, Option.toList_none, List.append_nil]
      exact ⟨h.reader, h.whole, h.sent, by simp, by simp⟩
  | some b =>
      obtain ⟨hr, hb⟩ := h.shown b hshown
      obtain ⟨off, hr⟩ := Option.ne_none_iff_exists'.mp hr
      obtain ⟨hinv, hheld⟩ := h.reader.endDelimit hpos hr
      have hle := (h.reader.result off hr).2
      have hlen : b.length = msgSize := by
        rw [hb, List.length_take, TcpPriv.length_held]
        omega
      refine ⟨hinv, ?_, ?_, by simp, by simp⟩
      · intro b' hb'
        rcases List.mem_append.mp hb' with hb' | hb'
        · exact h.whole b' hb'
        · rw [List.mem_singleton.mp hb', hlen]
      · show s.sent = (s.delivered ++ [b]).flatten ++ ((s.reader.endDelimit msgSize).held ++ s.pipe)
        rw [h.sent, hheld, hb, List.flatten_append, List.flatten_singleton]
        simp only [List.append_assoc]
        rw [← List.append_assoc (s.reader.held.take msgSize), List.take_append_drop]

private theorem Reads.step {e : TcpEvent} (hpos : 0 < msgSize) (h : s.Reads msgSize)
    (hs : s.step msgSize e = some t) : t.Reads msgSize := by
  cases e with
  | begWrite bs =>
      simp only [TcpLink.step, Option.ite_none_right_eq_some, Option.some.injEq] at hs
      obtain ⟨-, rfl⟩ := hs
      exact ⟨h.reader, h.whole, h.sent, h.shown, h.notShown⟩
  | endWrite =>
      simp only [TcpLink.step, Option.ite_none_right_eq_some, Option.map_eq_some_iff] at hs
      obtain ⟨-, w, -, rfl⟩ := hs
      exact ⟨h.reader, h.whole, h.sent, h.shown, h.notShown⟩
  | write x =>
      simp only [TcpLink.step] at hs
      split at hs
      next data len hend =>
        simp only [Option.ite_none_right_eq_some, Option.map_eq_some_iff] at hs
        obtain ⟨-, w, -, rfl⟩ := hs
        refine ⟨h.reader, h.whole, ?_, h.shown, h.notShown⟩
        simp only [h.sent, List.append_assoc]
      next => simp at hs
  | close =>
      obtain rfl := Option.some.inj hs
      exact ⟨h.reader, h.whole, h.sent, h.shown, h.notShown⟩
  | begDelimit x =>
      simp only [TcpLink.step, Option.bind_eq_bind, Option.bind_eq_some_iff] at hs
      obtain ⟨a, ha, ⟨c, r⟩, hcall, ht⟩ := hs
      obtain rfl := Option.some.inj ht
      exact h.begDelimit ha (h.reader.begDelimit_cases hpos hcall)
  | endDelimit =>
      simp only [TcpLink.step, Option.ite_none_right_eq_some, Option.some.injEq] at hs
      obtain ⟨hbegun, rfl⟩ := hs
      exact h.endDelimit hpos hbegun

theorem writes_of_reachable (h : (tcpLink msgSize).Reachable Machine.always s) :
    s.Writes msgSize :=
  h.invariant .init fun _ _ _ _ hi _ hs => hi.step hs

theorem reads_of_reachable (hpos : 0 < msgSize)
    (h : (tcpLink msgSize).Reachable Machine.always s) : s.Reads msgSize :=
  h.invariant (.init hpos) fun _ _ _ _ hi _ hs => hi.step hpos hs

theorem exists_wrote_eq (hpos : 0 < msgSize) (hw : s.Writes msgSize) (hr : s.Reads msgSize) :
    ∃ rest, s.Unsent rest ∧
      s.wrote = s.delivered ++ blocks msgSize (s.reader.held ++ (s.pipe ++ rest)) := by
  obtain ⟨rest, hflat, hrest⟩ := hw.sent
  refine ⟨rest, hrest, ?_⟩
  rw [← blocks_flatten hpos hw.whole, hflat, hr.sent, List.append_assoc, List.append_assoc,
    blocks_flatten_append hpos hr.whole]

theorem wrote_of_result (hpos : 0 < msgSize) (hw : s.Writes msgSize) (hr : s.Reads msgSize)
    {off : Nat} (hres : s.reader.delimResult = some off) :
    s.wrote[s.delivered.length]? = some (s.reader.held.take msgSize) := by
  obtain ⟨rest, -, hwrote⟩ := exists_wrote_eq hpos hw hr
  have hle := (hr.reader.result off hres).2
  have hlen : (s.reader.held.take msgSize).length = msgSize := by
    rw [List.length_take, TcpPriv.length_held]
    omega
  rw [← List.take_append_drop msgSize s.reader.held, List.append_assoc,
    blocks_append_block hpos hlen] at hwrote
  rw [hwrote, List.getElem?_append_right (Nat.le_refl _), Nat.sub_self, List.getElem?_cons_zero]

theorem delivered_of_finished (hpos : 0 < msgSize) (hr : s.Reads msgSize)
    (hpipe : s.pipe = []) (hres : s.reader.delimResult = none) :
    s.delivered = blocks msgSize s.sent := by
  have hlt := (hr.reader.idle hres).2
  rw [hr.sent, hpipe, List.append_nil, blocks_flatten_append hpos hr.whole,
    blocks_of_length_lt (by rwa [TcpPriv.length_held]), List.append_nil]

-- What holds of the messages at the two ends of the connection, and of the next call
-- of `conn_beg_delimit`.
structure Framing (msgSize : Nat) (s : TcpLink) : Prop where
  inOrder : s.delivered <+: s.wrote
  writes : s.endWrite = .ret .enone → ∃ w, s.writer.toConnBuffers.endWrite msgSize = some w
  returns : ∀ (x : PipeRead) (a : SysRead), s.answer x = some a →
    ∃ c r, s.reader.begDelimit msgSize a = some (c, r)
  next : ∀ (x : PipeRead) (a : SysRead) (c : TcpPriv) (r : BegRead), s.answer x = some a →
    s.reader.begDelimit msgSize a = some (c, r) → r.ret = .enone →
    ∃ v, r.out = some v ∧ v.len = msgSize ∧
      s.wrote[s.delivered.length]? = some (v.bytes c.delimBuffer)
  again : ∀ (x : PipeRead) (a : SysRead) (b : List UInt8), s.answer x = some a →
    s.shown = some b →
    ∃ v, s.reader.begDelimit msgSize a = some (s.reader, ⟨.enone, some v, false⟩) ∧
      v.bytes s.reader.delimBuffer = b
  finished : ∀ (a : SysRead) (c : TcpPriv) (r : BegRead), s.answer .finished = some a →
    s.reader.begDelimit msgSize a = some (c, r) → r.ret = .efin →
    s.delivered.length = s.sent.length / msgSize ∧
      (s.endWrite = .ret .enone → s.delivered = s.wrote)

private theorem framing_next (hpos : 0 < msgSize) (hw : s.Writes msgSize)
    (hr : s.Reads msgSize) {x : PipeRead} {a : SysRead} {c : TcpPriv} {r : BegRead}
    (ha : s.answer x = some a) (hb : TcpPriv.BegDelimit msgSize s.reader a c r)
    (hret : r.ret = .enone) :
    ∃ v, r.out = some v ∧ v.len = msgSize ∧
      s.wrote[s.delivered.length]? = some (v.bytes c.delimBuffer) := by
  obtain ⟨off, hres, hout, hbytes⟩ := hb.shown hr.reader hret
  refine ⟨_, hout, rfl, ?_⟩
  rw [hbytes]
  -- the state after the call has the same messages
  exact wrote_of_result (s := { s with
    reader := c
    pipe := if r.read then s.pipe.drop a.data.length else s.pipe
    begun := true
    shown := if r.ret = .enone then r.out.map (·.bytes c.delimBuffer) else s.shown })
    hpos ⟨hw.size, hw.whole, hw.sent⟩ (hr.begDelimit ha hb) hres

private theorem framing_finished (hpos : 0 < msgSize) (hw : s.Writes msgSize)
    (hr : s.Reads msgSize) (hpipe : s.pipe = []) (hres : s.reader.delimResult = none) :
    s.delivered.length = s.sent.length / msgSize ∧
      (s.endWrite = .ret .enone → s.delivered = s.wrote) := by
  have hall := delivered_of_finished hpos hr hpipe hres
  refine ⟨by rw [hall, length_blocks], fun hend => ?_⟩
  obtain ⟨rest, hflat, hrest⟩ := hw.sent
  have hrest : rest = [] := by simpa only [Unsent, hend, forall_const] using hrest
  rw [hrest, List.append_nil] at hflat
  rw [hall, ← hflat, blocks_flatten hpos hw.whole]

end TcpLink

-- The framing of TCP loses nothing: in every run of a connection, however write() and
-- read() cut the stream, the calls return the messages as they were written.
theorem tcp_framing (hmin : 16 ≤ msgSize) (hmax : msgSize ≤ buffSize) {s : TcpLink}
    (h : (tcpLink msgSize).Reachable Machine.always s) : s.Framing msgSize := by
  have hpos : 0 < msgSize := by omega
  have hw := TcpLink.writes_of_reachable h
  have hr := TcpLink.reads_of_reachable hpos h
  constructor
  case inOrder =>
    obtain ⟨rest, -, hwrote⟩ := TcpLink.exists_wrote_eq hpos hw hr
    exact ⟨_, hwrote.symm⟩
  case writes =>
    intro _
    refine ⟨_, if_neg ?_⟩
    rw [hw.size]
    omega
  case returns =>
    intro x a ha
    obtain ⟨c, r, hret, -⟩ := hr.reader.begDelimit hpos (TcpLink.answer_ne_failed ha)
    exact ⟨c, r, hret⟩
  case next =>
    intro x a c r ha hcall
    exact TcpLink.framing_next hpos hw hr ha (hr.reader.begDelimit_cases hpos hcall)
  case again =>
    intro x a b ha hb
    obtain ⟨hres, rfl⟩ := hr.shown b hb
    obtain ⟨off, hres⟩ := Option.ne_none_iff_exists'.mp hres
    refine ⟨⟨off, msgSize⟩, ?_, TcpPriv.view_bytes_of_result hr.reader hres⟩
    simp only [TcpPriv.begDelimit, TcpPriv.pending_of_result hpos hr.reader hres]
  case finished =>
    intro a c r ha hcall hefin
    simp only [TcpLink.answer, Option.ite_none_right_eq_some] at ha
    cases hr.reader.begDelimit_cases hpos hcall with
    | pending | found | short => simp at hefin
    | again hres | refused hres | finished hres =>
        exact TcpLink.framing_finished hpos hw hr ha.1.2 hres

-- Two messages of 16 bytes, cut into chunks of 7, 13 and 12 bytes.
theorem tcp_framing_two :
    ∃ s, (tcpLink 16).Reachable Machine.always s ∧
      s.delivered = [List.replicate 16 1, List.replicate 16 2] ∧ s.Framing 16 := by
  obtain ⟨s, hrun, hs⟩ := (tcpLink 16).exists_run_of_eval Machine.always
    [.begWrite (List.replicate 16 1), .endWrite, .write (.wrote 10), .write .again,
      .write (.wrote 6), .begWrite (List.replicate 16 2), .endWrite, .write (.wrote 16),
      .begDelimit (.chunk 7), .begDelimit .again, .begDelimit (.chunk 13), .begDelimit .again,
      .endDelimit, .begDelimit (.chunk 12), .endDelimit, .close]
    (fun s => s.delivered = [List.replicate 16 1, List.replicate 16 2]) (by decide +kernel)
  exact ⟨s, hrun.reachable, by simpa using hs, tcp_framing (by decide) (by decide) hrun.reachable⟩

end Q2pc
