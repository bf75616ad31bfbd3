import Q2pc.Lib.Blocks
import Q2pc.Transport.Conn
import Q2pc.Transport.Datagram
import Q2pc.Transport.Delimiter

namespace Q2pc

variable {msgSize : Nat} {received : List UInt8} {x : SysRead} {r : BegRead} {v : View}

namespace TransConn

-- The messages that came out of the socket with an answer of read(), after the bytes
-- `received`: the blocks of the stream of TCP, a datagram of UDP and Q-Jump, and what
-- RUDP takes of a datagram.
def arrivals (msgSize : Nat) (received : List UInt8) (x : SysRead) :
    TransConn → List (List UInt8)
  | .tcp _ => (blocks msgSize (received ++ x.data)).drop (blocks msgSize received).length
  | .udp _ | .qj _ => if x.data = [] then [] else [x.data]
  | .rudp c => if x.data ≠ [] ∧ c.accepts (c.seqOf x.data) then [x.data.drop 8] else []

def waiting (msgSize : Nat) : TransConn → List (List UInt8)
  | .tcp c => blocks msgSize c.held
  | .udp c => (c.toConnBuffers.pending.map (·.bytes c.readBuffer)).toList
  | .rudp c => (c.pending.map (·.bytes c.base.readBuffer)).toList
  | .qj c => (c.toConnBuffers.pending.map (·.bytes c.readBuffer)).toList

-- What holds between two calls. The bytes that came out of a TCP socket are the messages
-- released so far and the bytes held.
def Inv (msgSize : Nat) (received : List UInt8) : TransConn → Prop
  | .tcp c => c.Inv msgSize ∧
      ∃ released : List (List UInt8), (∀ b ∈ released, b.length = msgSize) ∧
        received = released.flatten ++ c.held
  | .udp _ | .qj _ => True
  | .rudp c => c.Inv

variable {c c' : TransConn}

theorem Inv.new (hpos : 0 < msgSize) (server : Bool) (t : TransType) :
    (new server t).Inv msgSize [] := by
  cases t with
  | tcpLn => exact ⟨.new hpos, [], by simp, rfl⟩
  | udpLn | udpQj => trivial
  | rdpLn => exact RudpPriv.Inv.new server

theorem Inv.waiting_of_idle (h : c.Inv msgSize received) (hpos : 0 < msgSize)
    (hp : c.pending = none) : c.waiting msgSize = [] := by
  cases c with
  | tcp c =>
      cases hr : c.delimResult with
      | none => exact blocks_of_length_lt (by simpa using (h.1.idle hr).2)
      | some off => simp [pending, TcpPriv.pending_of_result hpos h.1 hr] at hp
  | udp c | qj c | rudp c =>
      simp only [pending] at hp
      rw [waiting, hp]
      rfl

theorem Inv.waiting_of_pending (h : c.Inv msgSize received) (hpos : 0 < msgSize)
    (hp : c.pending = some v) : ∃ rest, c.waiting msgSize = v.bytes c.buffer :: rest := by
  cases c with
  | tcp c =>
      cases hr : c.delimResult with
      | none => simp [pending, TcpPriv.pending_of_idle hr] at hp
      | some off =>
          simp only [pending, TcpPriv.pending_of_result hpos h.1 hr, Option.some.injEq] at hp
          subst hp
          have hlen : (c.held.take msgSize).length = msgSize := by
            rw [List.length_take, TcpPriv.length_held, Nat.min_eq_left (h.1.result off hr).2]
          refine ⟨blocks msgSize (c.held.drop msgSize), ?_⟩
          rw [buffer, TcpPriv.view_bytes_of_result h.1 hr, ← blocks_append_block hpos hlen,
            List.take_append_drop, waiting]
  | udp c | qj c | rudp c =>
      simp only [pending] at hp
      rw [waiting, hp]
      exact ⟨[], rfl⟩

private theorem used_of_pending {c : ConnBuffers} (hp : c.pending = some v) :
    c.readBufferUsed ≠ 0 := by
  intro hused
  rw [ConnBuffers.pending_of_unused hused] at hp
  simp at hp

theorem begRead_pending (hp : c.pending = some v) (hcall : c.begRead msgSize x = some (c', r)) :
    c' = c ∧ r = ⟨.enone, if c.setsOutputs then some v else none, false⟩ := by
  cases c with
  | tcp c =>
      simp only [pending] at hp
      simp only [begRead, TcpPriv.begDelimit, hp, Option.map_some, Option.some.injEq,
        Prod.mk.injEq] at hcall
      obtain ⟨rfl, rfl⟩ := hcall
      exact ⟨rfl, rfl⟩
  | udp c =>
      simp only [begRead, UdpPriv.begRead, ConnBuffers.begRead, if_pos (used_of_pending hp),
        Option.map_some, Option.some.injEq, Prod.mk.injEq, Bool.false_and, Bool.or_false] at hcall
      obtain ⟨rfl, rfl⟩ := hcall
      exact ⟨rfl, rfl⟩
  | qj c =>
      simp only [begRead, QjPriv.begRead, ConnBuffers.begRead, if_pos (used_of_pending hp),
        Option.map_some, Option.some.injEq, Prod.mk.injEq] at hcall
      obtain ⟨rfl, rfl⟩ := hcall
      exact ⟨rfl, rfl⟩
  | rudp c =>
      simp only [pending] at hp
      simp only [begRead, RudpPriv.begRead, hp, Option.map_some, Option.some.injEq,
        Prod.mk.injEq] at hcall
      obtain ⟨rfl, rfl⟩ := hcall
      exact ⟨rfl, rfl⟩

-- What a call of `beg_read` does that finds no message pending: it takes the answer of
-- the socket, and afterwards holds what arrived with it.
structure Fresh (msgSize : Nat) (received : List UInt8) (x : SysRead) (c c' : TransConn)
    (r : BegRead) : Prop where
  read : r.read = true
  inv : c'.Inv msgSize (received ++ x.data)
  waiting : c'.waiting msgSize = c.arrivals msgSize received x
  out : r.ret = .enone → r.out ≠ none ∧ r.out = c'.pending
  failed : r.ret ≠ .enone → c'.pending = none

private theorem fresh_tcp {c c' : TcpPriv} (h : (tcp c).Inv msgSize received) (hpos : 0 < msgSize)
    (hr : c.delimResult = none) (hb : TcpPriv.BegDelimit msgSize c x c' r) :
    Fresh msgSize received x (.tcp c) (.tcp c') r := by
  obtain ⟨hinv, released, hwhole, hreceived⟩ := h
  have hinv' := hb.inv hinv
  -- the blocks of the stream are those released, then those of the bytes held
  have hblocks : ∀ bs : List UInt8, blocks msgSize (received ++ bs) =
      released ++ blocks msgSize (c.held ++ bs) := by
    intro bs
    rw [hreceived, List.append_assoc, blocks_flatten_append hpos hwhole]
  have hidle : blocks msgSize c.held = [] :=
    blocks_of_length_lt (by simpa using (hinv.idle hr).2)
  have harrived : (tcp c).arrivals msgSize received x = blocks msgSize (c.held ++ x.data) := by
    have hold := hblocks []
    rw [List.append_nil, List.append_nil, hidle, List.append_nil] at hold
    rw [arrivals, hblocks, hold, List.drop_left]
  have hheld : c'.held = c.held ++ x.data ∧ r.read = true := by
    cases hb with
    | pending hr' => simp [hr] at hr'
    | again | refused | finished => simp [SysRead.data]
    | found _ _ hheld | short _ _ hheld => exact ⟨hheld, rfl⟩
  refine ⟨hheld.2, ⟨hinv', released, hwhole, ?_⟩, ?_, fun hret => ?_, fun hret => ?_⟩
  · rw [hreceived, hheld.1, List.append_assoc]
  · rw [harrived, waiting, hheld.1]
  · obtain ⟨off, hr', hout, -⟩ := hb.shown hinv hret
    rw [hout, pending, TcpPriv.pending_of_result hpos hinv' hr']
    simp
  · cases hb with
    | pending | found => simp at hret
    | again | refused | finished => exact TcpPriv.pending_of_idle hr
    | short _ _ _ hr' => exact TcpPriv.pending_of_idle hr'

private theorem fresh_buffers {c c' : ConnBuffers} (hused : c.readBufferUsed = 0)
    (hb : c.ReadCall x c' r) :
    r.read = true ∧
      (c'.pending.map (·.bytes c'.readBuffer)).toList =
        (if x.data = [] then [] else [x.data]) ∧
      (r.ret = .enone → r.out ≠ none ∧ r.out = c'.pending) ∧
      (r.ret ≠ .enone → c'.pending = none) := by
  cases hb with
  | silent hne => exact absurd hused hne
  | failed _ hret hx =>
      have hp := ConnBuffers.pending_of_unused hused
      exact ⟨rfl, by simp [hp, hx], fun heq => absurd heq hret, fun _ => hp⟩
  | found _ hx =>
      have hp := ConnBuffers.pending_of_used
        (c := { c with readBuffer := c.readBuffer.write 0 x.data,
                       readBufferUsed := x.data.length }) (by simpa using hx)
      refine ⟨rfl, ?_, fun _ => ⟨by simp, hp.symm⟩, fun hret => absurd rfl hret⟩
      rw [hp, if_neg hx, Option.map_some, Option.toList_some]
      exact congrArg (fun bs => [bs]) (c.readBuffer.bytes_write 0 x.data)

private theorem fresh_udp {c c' : UdpPriv} (hp : (udp c).pending = none)
    (hcall : c.begRead x = some (c', r)) : Fresh msgSize received x (.udp c) (.udp c') r := by
  obtain ⟨⟨b, r'⟩, hb, heq⟩ := Option.map_eq_some_iff.mp hcall
  obtain ⟨rfl, rfl⟩ := Prod.mk.inj heq
  obtain ⟨hread, hwaiting, hout, hfailed⟩ :=
    fresh_buffers (ConnBuffers.unused_of_idle hp) (ConnBuffers.begRead_cases (by simp) hb)
  exact ⟨hread, trivial, hwaiting, hout, hfailed⟩

private theorem fresh_qj {c c' : QjPriv} (hp : (qj c).pending = none)
    (hcall : c.begRead x = some (c', r)) : Fresh msgSize received x (.qj c) (.qj c') r := by
  obtain ⟨⟨b, r'⟩, hb, heq⟩ := Option.map_eq_some_iff.mp hcall
  obtain ⟨rfl, rfl⟩ := Prod.mk.inj heq
  obtain ⟨hread, hwaiting, hout, hfailed⟩ :=
    fresh_buffers (ConnBuffers.unused_of_idle hp) (ConnBuffers.begRead_cases (by simp) hb)
  exact ⟨hread, trivial, hwaiting, hout, hfailed⟩

private theorem bytes_behind_seqNo (m : Memory) (bs : List UInt8) :
    (View.mk 8 (bs.length - 8)).bytes (m.write 0 bs) = bs.drop 8 := by
  have hlen : ((bs.length : Int) - 8).toNat = bs.length - 8 := by omega
  rw [View.bytes, hlen]
  by_cases h8 : 8 ≤ bs.length
  · have hdrop := Memory.drop_bytes (m.write 0 bs) 0 h8
    rw [m.bytes_write 0 bs, Nat.zero_add] at hdrop
    exact hdrop.symm
  · have hzero : bs.length - 8 = 0 := by omega
    rw [hzero, Memory.bytes_zero, List.drop_eq_nil_of_le (by omega)]

private theorem fresh_rudp {c c' : RudpPriv} (hp : (rudp c).pending = none)
    (hb : c.ReadCall x c' r) : Fresh msgSize received x (.rudp c) (.rudp c') r := by
  cases hb with
  | pending hp' => exact absurd (hp.symm.trans hp') (by simp)
  | failed _ h' hinv hx hret hread =>
      have hnone : c'.pending = none := by rw [hinv.pending, if_pos h']
      refine ⟨hread, hinv, ?_, fun heq => absurd heq hret, fun _ => hnone⟩
      have hnot : ¬(x.data ≠ [] ∧ c.accepts (c.seqOf x.data) = true) := by
        rcases hx with hx | hx <;> simp [hx]
      rw [waiting, hnone, arrivals, if_neg hnot]
      rfl
  | found _ h' hinv hx haccept hbuffer hused =>
      have hsome : c'.pending = some ⟨8, x.data.length - 8⟩ := by
        rw [hinv.pending, if_neg (by simp [h']), hused]
      refine ⟨rfl, hinv, ?_, fun _ => ⟨by simp, hsome.symm⟩, fun hret => absurd rfl hret⟩
      rw [waiting, hsome, arrivals, if_pos ⟨hx, haccept⟩, Option.map_some, hbuffer,
        bytes_behind_seqNo]
      rfl

theorem Inv.begRead_idle (h : c.Inv msgSize received) (hpos : 0 < msgSize)
    (hp : c.pending = none) (hcall : c.begRead msgSize x = some (c', r)) :
    Fresh msgSize received x c c' r := by
  cases c with
  | tcp c =>
      obtain ⟨⟨c₁, r₁⟩, hc, heq⟩ := Option.map_eq_some_iff.mp hcall
      obtain ⟨rfl, rfl⟩ := Prod.mk.inj heq
      cases hr : c.delimResult with
      | none => exact fresh_tcp h hpos hr (h.1.begDelimit_cases hpos hc)
      | some off => simp [pending, TcpPriv.pending_of_result hpos h.1 hr] at hp
  | udp c =>
      obtain ⟨⟨c₁, r₁⟩, hc, heq⟩ := Option.map_eq_some_iff.mp hcall
      obtain ⟨rfl, rfl⟩ := Prod.mk.inj heq
      exact fresh_udp hp hc
  | qj c =>
      obtain ⟨⟨c₁, r₁⟩, hc, heq⟩ := Option.map_eq_some_iff.mp hcall
      obtain ⟨rfl, rfl⟩ := Prod.mk.inj heq
      exact fresh_qj hp hc
  | rudp c =>
      obtain ⟨⟨c₁, r₁⟩, hc, heq⟩ := Option.map_eq_some_iff.mp hcall
      obtain ⟨rfl, rfl⟩ := Prod.mk.inj heq
      exact fresh_rudp hp (RudpPriv.begRead_cases h hc)

private theorem begRead_ret_rudp {c c' : RudpPriv} (hcall : c.begRead x = some (c', r)) :
    r.ret ≠ .rtofired := by
  unfold RudpPriv.begRead at hcall
  split at hcall
  · obtain ⟨rfl, rfl⟩ := Prod.mk.inj (Option.some.inj hcall)
    simp
  · obtain ⟨⟨base, r'⟩, hbase, hcall⟩ := Option.bind_eq_some_iff.mp hcall
    obtain ⟨⟨b, r''⟩, hb, heq⟩ := Option.map_eq_some_iff.mp hbase
    obtain ⟨rfl, rfl⟩ := Prod.mk.inj heq
    have hret := ConnBuffers.begRead_ret (by simp) hb
    dsimp only at hcall
    split at hcall
    · obtain ⟨rfl, rfl⟩ := Prod.mk.inj (Option.some.inj hcall)
      exact hret
    · obtain ⟨data, -, hcall⟩ := Option.bind_eq_some_iff.mp hcall
      split at hcall <;> obtain ⟨rfl, rfl⟩ := Prod.mk.inj (Option.some.inj hcall)
      · exact hret
      · simp

theorem Inv.begRead_ret (h : c.Inv msgSize received) (hpos : 0 < msgSize)
    (hcall : c.begRead msgSize x = some (c', r)) : r.ret ≠ .rtofired := by
  cases c with
  | tcp c =>
      obtain ⟨⟨c₁, r₁⟩, hc, heq⟩ := Option.map_eq_some_iff.mp hcall
      obtain ⟨rfl, rfl⟩ := Prod.mk.inj heq
      cases h.1.begDelimit_cases hpos hc <;> simp
  | udp c =>
      obtain ⟨⟨c₁, r₁⟩, hc, heq⟩ := Option.map_eq_some_iff.mp hcall
      obtain ⟨rfl, rfl⟩ := Prod.mk.inj heq
      obtain ⟨⟨b, r'⟩, hb, heq⟩ := Option.map_eq_some_iff.mp hc
      obtain ⟨rfl, rfl⟩ := Prod.mk.inj heq
      exact ConnBuffers.begRead_ret (by simp) hb
  | qj c =>
      obtain ⟨⟨c₁, r₁⟩, hc, heq⟩ := Option.map_eq_some_iff.mp hcall
      obtain ⟨rfl, rfl⟩ := Prod.mk.inj heq
      obtain ⟨⟨b, r'⟩, hb, heq⟩ := Option.map_eq_some_iff.mp hc
      obtain ⟨rfl, rfl⟩ := Prod.mk.inj heq
      exact ConnBuffers.begRead_ret (by simp) hb
  | rudp c =>
      obtain ⟨⟨c₁, r₁⟩, hc, heq⟩ := Option.map_eq_some_iff.mp hcall
      obtain ⟨rfl, rfl⟩ := Prod.mk.inj heq
      exact begRead_ret_rudp hc

theorem Inv.endRead (h : c.Inv msgSize received) (hpos : 0 < msgSize) :
    (c.endRead msgSize).Inv msgSize received ∧
      (c.endRead msgSize).waiting msgSize = (c.waiting msgSize).tail := by
  cases c with
  | tcp c =>
      obtain ⟨hinv, released, hwhole, hreceived⟩ := h
      cases hr : c.delimResult with
      | none =>
          have hidle := blocks_of_length_lt (show c.held.length < msgSize by
            simpa using (hinv.idle hr).2)
          rw [TransConn.endRead, TcpPriv.endDelimit_of_idle hr]
          refine ⟨⟨hinv, released, hwhole, hreceived⟩, ?_⟩
          rw [waiting, hidle, List.tail_nil]
      | some off =>
          obtain ⟨hinv', hheld⟩ := hinv.endDelimit hpos hr
          have hlen : (c.held.take msgSize).length = msgSize := by
            rw [List.length_take, TcpPriv.length_held, Nat.min_eq_left (hinv.result off hr).2]
          have hsplit := List.take_append_drop msgSize c.held
          refine ⟨⟨hinv', released ++ [c.held.take msgSize], ?_, ?_⟩, ?_⟩
          · intro b hb
            rcases List.mem_append.mp hb with hb | hb
            · exact hwhole b hb
            · rw [List.mem_singleton.mp hb, hlen]
          · rw [hreceived, hheld, List.flatten_append, List.flatten_singleton, List.append_assoc,
              hsplit]
          · rw [TransConn.endRead, waiting, waiting, hheld, ← hsplit, blocks_append_block hpos hlen,
              List.tail_cons, List.drop_left' hlen]
  | udp c | qj c =>
      refine ⟨trivial, ?_⟩
      rw [TransConn.endRead, waiting, waiting, ConnBuffers.pending_of_unused rfl]
      cases c.toConnBuffers.pending <;> rfl
  | rudp c =>
      have hinv : RudpPriv.Inv c.endRead := ⟨fun _ => rfl, by simp [RudpPriv.endRead]⟩
      refine ⟨hinv, ?_⟩
      rw [TransConn.endRead, waiting, waiting, hinv.pending,
        if_pos (show c.endRead.readData = none from rfl)]
      cases c.pending <;> rfl

theorem Inv.begWrite (h : c.Inv msgSize received) :
    c.begWrite.1.Inv msgSize received ∧ c.begWrite.1.pending = c.pending ∧
      c.begWrite.1.waiting msgSize = c.waiting msgSize := by
  cases c with
  | tcp c | udp c | qj c => exact ⟨h, rfl, rfl⟩
  | rudp c =>
      have hsame := c.sameReads_begWrite
      exact ⟨hsame.inv h, hsame.pending, rfl⟩

theorem Inv.fill (h : c.Inv msgSize received) (off : Nat) (bs : List UInt8) :
    (c.fill off bs).Inv msgSize received ∧ (c.fill off bs).pending = c.pending ∧
      (c.fill off bs).waiting msgSize = c.waiting msgSize := by
  cases c with
  | tcp c => exact ⟨⟨⟨h.1.read, h.1.size, h.1.fits, h.1.idle, h.1.result⟩, h.2⟩, rfl, rfl⟩
  | udp c | qj c => exact ⟨h, rfl, rfl⟩
  | rudp c => exact ⟨⟨h.idle, h.data⟩, rfl, rfl⟩

private theorem inv_rudp_of_sameReads {c c' : RudpPriv} (hsame : c.SameReads c') (h : c.Inv) :
    (rudp c').Inv msgSize received ∧ (rudp c').pending = (rudp c).pending ∧
      (rudp c').waiting msgSize = (rudp c).waiting msgSize := by
  refine ⟨hsame.inv h, hsame.pending, ?_⟩
  rw [waiting, waiting, hsame.pending, hsame.readBuffer]

private theorem endWrite_rudp {c c' : RudpPriv} {len : Nat} {x : EndWriteInput} {ret : Ret}
    {read : Bool} (h : c.Inv) (hcall : c.endWrite len x = some (c', ret, read)) :
    (read = false → (rudp c').Inv msgSize received ∧ (rudp c').pending = (rudp c).pending ∧
      (rudp c').waiting msgSize = (rudp c).waiting msgSize) ∧
    (read = true → (rudp c).pending = none ∧ (rudp c').Inv msgSize (received ++ x.read.data) ∧
      (rudp c').waiting msgSize = (rudp c).arrivals msgSize received x.read) := by
  rcases RudpPriv.endWrite_cases hcall with ⟨rfl, hsame⟩ | ⟨c₁, c₂, r, h₁, hread, rfl, h₂⟩
  · exact ⟨fun _ => inv_rudp_of_sameReads hsame h, by simp⟩
  · have hb := RudpPriv.begRead_cases (h₁.inv h) hread
    cases hp : c₁.pending with
    | some v =>
        cases hb with
        | pending => exact ⟨fun _ => inv_rudp_of_sameReads (h₁.trans h₂) h, by simp⟩
        | failed hdata | found hdata =>
            rw [(h₁.inv h).pending, if_pos hdata] at hp
            simp at hp
    | none =>
        have hfresh : Fresh msgSize received x.read (rudp c₁) (rudp c₂) r := fresh_rudp hp hb
        refine ⟨fun hno => absurd (hno.symm.trans hfresh.read) (by simp), fun _ => ?_⟩
        obtain ⟨hinv, -, hwaiting⟩ :=
          @inv_rudp_of_sameReads msgSize received _ _ h₂ hfresh.inv
        refine ⟨h₁.pending.symm.trans hp, hinv, ?_⟩
        rw [hwaiting, hfresh.waiting, arrivals, arrivals, h₁.seqOf, h₁.accepts]

-- Where `end_write` asks the socket no message is pending, and it takes one in as
-- `beg_read` does.
theorem Inv.endWrite {len : Nat} {x : EndWriteInput} {read : Bool} (h : c.Inv msgSize received)
    (hcall : c.endWrite len x = some (c', read)) :
    (read = false → c'.Inv msgSize received ∧ c'.pending = c.pending ∧
      c'.waiting msgSize = c.waiting msgSize) ∧
    (read = true → c.pending = none ∧ c'.Inv msgSize (received ++ x.read.data) ∧
      c'.waiting msgSize = c.arrivals msgSize received x.read) := by
  cases c with
  | tcp c | udp c | qj c =>
      obtain ⟨_, -, heq⟩ := Option.map_eq_some_iff.mp hcall
      obtain ⟨rfl, rfl⟩ := Prod.mk.inj heq
      exact ⟨fun _ => ⟨h, rfl, rfl⟩, by simp⟩
  | rudp c =>
      obtain ⟨⟨c₁, ret, read₁⟩, hc, heq⟩ := Option.map_eq_some_iff.mp hcall
      obtain ⟨rfl, rfl⟩ := Prod.mk.inj heq
      exact endWrite_rudp h hc

-- The answers of the socket on which `beg_read` of a transport returns: an error that it
-- does not know ends the process.
def Survives (x : SysRead) : TransConn → Prop
  | .tcp _ | .udp _ | .rudp _ => x ≠ .failed
  | .qj _ => x ≠ .failed ∧ x ≠ .refused

theorem Inv.exists_begRead (h : c.Inv msgSize received) (hpos : 0 < msgSize)
    (hx : c.Survives x) : ∃ c' r, c.begRead msgSize x = some (c', r) := by
  cases c with
  | tcp c =>
      obtain ⟨c', r, hc, -⟩ := h.1.begDelimit hpos hx
      exact ⟨_, r, by rw [begRead, hc, Option.map_some]⟩
  | udp c =>
      obtain ⟨b, r, hb⟩ : ∃ b r, c.toConnBuffers.begRead (some .efin) x = some (b, r) :=
        c.toConnBuffers.exists_begRead (by simp) hx
      exact ⟨_, r, by rw [begRead, UdpPriv.begRead, hb, Option.map_some, Option.map_some]⟩
  | qj c =>
      obtain ⟨b, r, hb⟩ : ∃ b r, c.toConnBuffers.begRead none x = some (b, r) :=
        c.toConnBuffers.exists_begRead (fun heq => absurd heq hx.2) hx.1
      exact ⟨_, r, by rw [begRead, QjPriv.begRead, hb, Option.map_some, Option.map_some]⟩
  | rudp c =>
      obtain ⟨c', r, hc⟩ := RudpPriv.exists_begRead h hx
      exact ⟨_, r, by rw [begRead, hc, Option.map_some]⟩

end TransConn

end Q2pc
