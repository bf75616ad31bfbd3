import Q2pc.Rudp.Mirror
import Q2pc.System.Channel
import Q2pc.Tcp.Cluster

namespace Q2pc

open Function (update)

variable {msgSize i : Nat} {c : TcpConn} {n n' : Net} {l : TcpLink} {p : Packet} {cfg : Config}

theorem TcpLink.Carries.delivered_le {sent : List Packet} (hpos : 0 < msgSize)
    (h : l.Carries msgSize sent) : l.delivered.length ≤ sent.length := by
  obtain ⟨rest, -, hwrote⟩ := TcpLink.exists_wrote_eq hpos (TcpLink.writes_of_reachable h.run)
    (TcpLink.reads_of_reachable hpos h.run)
  have hlen := congrArg List.length h.wrote
  simp only [hwrote, List.length_map, List.length_append] at hlen
  omega

-- The message that the client has released last.
def TcpConn.Last (c : TcpConn) (p : Packet) : Prop :=
  ∃ k, c.down.delivered.length = k + 1 ∧ c.passed[k]? = some p

-- The client releases nothing.
structure TcpConn.Later (c c' : TcpConn) : Prop where
  delivered : c'.down.delivered = c.down.delivered
  passed : c.passed <+: c'.passed

theorem TcpConn.Last.later {c' : TcpConn} (h : c.Last p) (hlater : c.Later c') : c'.Last p := by
  obtain ⟨k, hlen, hp⟩ := h
  exact ⟨k, by rw [hlater.delivered, hlen], getElem?_extend hlater.passed hp⟩

-- Connection `i` of a network that delivers whole messages, when the TCP connection is in
-- state `c`: on its way is what one end has passed to `end_write` and the other has not
-- released.
structure TcpMirror (msgSize : Nat) (c : TcpConn) (n : Net) (i : Nat) : Prop where
  joined : c.joined = true
  down : c.down.Carries msgSize c.passed
  up : c.up.Carries msgSize c.sent
  idle : c.down.shown = none
  buffer : n.writeBuffer i = c.buffer
  filled : c.buffer.msg.type ≠ .lost →
    Msg.decode (c.down.writer.writeBuffer.bytes 0 msgSize) = c.buffer.msg
  passed : ∀ p ∈ c.passed, (i, p) ∈ n.passed
  toClient : n.toClient i = c.passed.drop c.down.delivered.length
  toServer : (n.readBuffer i).toList ++ n.toServer i = c.sent.drop c.up.delivered.length
  pending : n.readBuffer i = none ↔ c.up.shown = none
  data : c.up.shown ≠ none → c.up.reader.delimResult = some c.data.off

namespace TcpMirror

theorem congr (h : TcpMirror msgSize c n i) (hn : n.SameAt n' i) : TcpMirror msgSize c n' i :=
  { h with
    buffer := hn.writeBuffer.trans h.buffer
    passed := fun p hp => hn.passed (h.passed p hp)
    toClient := hn.toClient.trans h.toClient
    toServer := by rw [hn.readBuffer, hn.toServer, h.toServer]
    pending := by rw [hn.readBuffer, h.pending] }

theorem begWrite (h : TcpMirror msgSize c n i) (hmin : 16 ≤ msgSize) (hfits : p.msg.Fits)
    (hs : c.down.step msgSize (.begWrite p.msg.encode) = some l) :
    TcpMirror msgSize { c with down := l, buffer := p }
      { n with writeBuffer := update n.writeBuffer i p } i := by
  obtain ⟨hreader, hdelivered, hshown⟩ := TcpLink.writer_frame hs trivial
  obtain ⟨hdown, hdecode⟩ := h.down.begWrite hmin hfits hs
  exact { h with
    down := hdown
    idle := hshown.trans h.idle
    buffer := Function.update_self _ _ _
    filled := fun _ => hdecode
    toClient := by simpa only [hdelivered] using h.toClient }

theorem endWrite (h : TcpMirror msgSize c n i) (hmin : 16 ≤ msgSize)
    (hqj : cfg.transType ≠ .udpQj) (htype : c.buffer.msg.type ≠ .lost)
    (hs : c.down.step msgSize .endWrite = some l) :
    TcpMirror msgSize { c with down := l, passed := c.passed ++ [c.buffer] } (n.write cfg i) i := by
  obtain ⟨hreader, hdelivered, hshown⟩ := TcpLink.writer_frame hs trivial
  obtain ⟨hdown, hwriter⟩ := h.down.endWrite (h.filled htype) hs
  have hle := h.down.delivered_le (by omega)
  exact { h with
    down := hdown
    idle := hshown.trans h.idle
    filled := by simpa only [hwriter] using h.filled
    passed := by
      intro p hp
      rcases List.mem_append.mp hp with hp | hp
      · exact List.mem_append_left _ (h.passed p hp)
      · rw [List.mem_singleton.mp hp, ← h.buffer]
        exact List.mem_append_right _ (by simp)
    toClient := by
      simp only [hdelivered, List.drop_append_of_le_length hle, ← h.toClient, ← h.buffer]
      simp [Net.write, hqj] }

theorem downWrite {x : SysWrite} (h : TcpMirror msgSize c n i)
    (hs : c.down.step msgSize (.write x) = some l) :
    TcpMirror msgSize { c with down := l } n i := by
  obtain ⟨hreader, hdelivered, hshown⟩ := TcpLink.writer_frame hs trivial
  obtain ⟨hdown, hwriter⟩ := h.down.write hs
  exact { h with
    down := hdown
    idle := hshown.trans h.idle
    filled := by simpa only [hwriter] using h.filled
    toClient := by simpa only [hdelivered] using h.toClient }

theorem downClose (h : TcpMirror msgSize c n i) :
    TcpMirror msgSize { c with down := { c.down with closed := true } } n i :=
  { h with down := h.down.close }

theorem upSend (h : TcpMirror msgSize c n i) (hmin : 16 ≤ msgSize) (hfits : p.msg.Fits)
    (hs : c.up.send msgSize p.msg = some l) :
    TcpMirror msgSize { c with up := l, sent := c.sent ++ [p] }
      { n with toServer := update n.toServer i (n.toServer i ++ [p]) } i := by
  obtain ⟨l', hbeg, hend⟩ := Option.bind_eq_some_iff.mp hs
  obtain ⟨hreader, hdelivered, hshown⟩ := TcpLink.writer_frame hbeg trivial
  obtain ⟨hreader', hdelivered', hshown'⟩ := TcpLink.writer_frame hend trivial
  obtain ⟨hup, hdecode⟩ := h.up.begWrite hmin hfits hbeg
  have hle := h.up.delivered_le (by omega)
  exact { h with
    up := (hup.endWrite hdecode hend).1
    toServer := by
      simp only [hdelivered', hdelivered, List.drop_append_of_le_length hle, ← h.toServer,
        Function.update_self, List.append_assoc]
    pending := by rw [h.pending, hshown', hshown]
    data := by
      rw [hshown', hshown, hreader', hreader]
      exact h.data }

theorem upWrite {x : SysWrite} (h : TcpMirror msgSize c n i)
    (hs : c.up.step msgSize (.write x) = some l) : TcpMirror msgSize { c with up := l } n i := by
  obtain ⟨hreader, hdelivered, hshown⟩ := TcpLink.writer_frame hs trivial
  exact { h with
    up := (h.up.write hs).1
    toServer := by simpa only [hdelivered] using h.toServer
    pending := by rw [h.pending, hshown]
    data := by
      rw [hshown, hreader]
      exact h.data }

theorem upClose (h : TcpMirror msgSize c n i) :
    TcpMirror msgSize { c with up := { c.up with closed := true } } n i :=
  { h with up := h.up.close }

theorem receiveNone {x : PipeRead} {r : BegRead} (h : TcpMirror msgSize c n i)
    (hmin : 16 ≤ msgSize) (hs : c.down.begRead msgSize x = some (l, r)) (hret : r.ret ≠ .enone) :
    TcpMirror msgSize { c with down := l } n i := by
  obtain ⟨hwriter, -, -, hdelivered⟩ := TcpLink.begRead_frame hs
  obtain ⟨hdown, ⟨hret', -⟩ | ⟨-, -, hnone, -⟩⟩ := h.down.begRead hmin hs
  · exact absurd hret' hret
  · exact { h with
      down := hdown
      idle := hnone
      filled := by simpa only [hwriter] using h.filled
      toClient := by simpa only [hdelivered] using h.toClient }

theorem downEndRead (h : TcpMirror msgSize c n i)
    (hs : c.down.step msgSize .endDelimit = some l) :
    TcpMirror msgSize { c with down := l } n i := by
  obtain ⟨hdown, hwriter, hdelivered, hnone⟩ := h.down.endNothing h.idle hs
  exact { h with
    down := hdown
    idle := hnone
    filled := by simpa only [hwriter] using h.filled
    toClient := by simpa only [hdelivered] using h.toClient }

private theorem drop_eq_cons {sent : List Packet} {k : Nat} (hp : sent[k]? = some p) :
    sent.drop k = p :: sent.drop (k + 1) := by
  obtain ⟨hk, rfl⟩ := List.getElem?_eq_some_iff.mp hp
  exact List.drop_eq_getElem_cons hk

private theorem nextStage_eq {sent : List Packet} {k : Nat} (hp : sent[k]? = some p)
    (hk : l.delivered.length = k) : l.nextStage sent = p.stage := by
  rw [TcpLink.nextStage, hk, hp]
  rfl

-- get_messge returns the next message, or one that looks like the message behind it.
theorem receive {x : PipeRead} {r : BegRead} (h : TcpMirror msgSize c n i) (hmin : 16 ≤ msgSize)
    (hs : c.down.begRead msgSize x = some (l, r)) (hret : r.ret = .enone) :
    ∃ data l' p rest, r.out = some data ∧ l.step msgSize .endDelimit = some l' ∧
      n.toClient i = p :: rest ∧ l.nextStage c.passed = p.stage ∧
      TcpMirror msgSize { c with down := l' } { n with toClient := update n.toClient i rest } i ∧
      TcpConn.Last { c with down := l' } p ∧
      (l'.message data = p.msg ∨ ∃ q, rest.head? = some q ∧
        (p.msg.type.Small → q.msg.type.Small → (l'.message data).type = q.msg.type)) := by
  obtain ⟨hwriter, -, -, hdelivered⟩ := TcpLink.begRead_frame hs
  obtain ⟨hdown, ⟨-, off, p, hout, hres, hshown, -, hp⟩ | ⟨hret', -⟩⟩ := h.down.begRead hmin hs
  · obtain ⟨l', p', hend, hdown', hwriter', -, -, hlen, hnone, hp', hread⟩ :=
      hdown.endRead hmin hshown hres
    rw [hdelivered] at hlen hp' hread
    obtain rfl := Option.some.inj (hp.symm.trans hp')
    have htoClient := h.toClient
    rw [drop_eq_cons hp] at htoClient
    refine ⟨_, l', p, _, hout, hend, htoClient, nextStage_eq hp (by rw [hdelivered]), ?_,
      ⟨_, hlen, hp⟩, ?_⟩
    · exact { h with
        down := hdown'
        idle := hnone
        filled := by simpa only [hwriter', hwriter] using h.filled
        toClient := by
          simp only [Function.update_self, hlen] }
    · rcases hread with hsame | ⟨q, hq, htype⟩
      · exact .inl hsame
      · exact .inr ⟨q, by rw [List.head?_drop, hq], htype⟩
  · rcases hret' with hret' | hret' <;> simp [hret] at hret'

theorem begRead {x : PipeRead} {r : BegRead} (h : TcpMirror msgSize c n i) (hmin : 16 ≤ msgSize)
    (htcp : cfg.transType = .tcpLn) (hs : c.up.begRead msgSize x = some (l, r)) :
    ∃ n', n.begRead cfg i ((c.setRead l r).readResult r) = some n' ∧
      TcpMirror msgSize (c.setRead l r) n' i ∧
      ∀ j, j ≠ i → n.SameAt n' j := by
  obtain ⟨-, -, -, hdelivered⟩ := TcpLink.begRead_frame hs
  obtain ⟨hup, ⟨hret, off, p, hout, hres, hshown, hmsg, hp⟩ | ⟨hret, hout, hnone, hwas⟩⟩ :=
    h.up.begRead hmin hs
  · have hresult : (c.setRead l r).readResult r = .data p := by
      have hstage := nextStage_eq hp (congrArg List.length hdelivered)
      simp only [TcpConn.readResult, TcpConn.setRead, hret, hout, TcpLink.message, hmsg, hstage]
    have hdata : l.reader.delimResult = some (r.out.getD c.data).off := by
      rw [hres, hout]
      rfl
    rw [hresult]
    have htoServer := h.toServer
    rw [drop_eq_cons hp] at htoServer
    cases hread : n.readBuffer i with
    | some p' =>
        rw [hread, Option.toList_some, List.singleton_append] at htoServer
        obtain ⟨rfl, -⟩ := List.cons.inj htoServer
        refine ⟨n, by simp [Net.begRead, hread, htcp], ?_, fun j _ => .refl n j⟩
        exact { h with
          up := hup
          toServer := by simpa [hdelivered] using h.toServer
          pending := by simp [hread, hshown]
          data := fun _ => hdata }
    | none =>
        rw [hread, Option.toList_none, List.nil_append] at htoServer
        refine ⟨{ n with
          toServer := update n.toServer i (c.sent.drop (c.up.delivered.length + 1))
          readBuffer := update n.readBuffer i (some p) }, by simp [Net.begRead, hread, htoServer],
          ?_, fun j hj => ⟨rfl, by simp [hj], by simp [hj], rfl, fun _ h => h⟩⟩
        exact { h with
          up := hup
          toServer := by
            simp [hdelivered, drop_eq_cons hp]
          pending := by simp [hshown]
          data := fun _ => hdata }
  · have hread := h.pending.mpr hwas
    refine ⟨n, ?_, ?_, fun j _ => .refl n j⟩
    · rcases hret with hret | hret <;>
        simp [Net.begRead, hread, TcpConn.readResult, hret]
    · exact { h with
        up := hup
        toServer := by simpa [hdelivered] using h.toServer
        pending := by simp [hread, hnone]
        data := fun hne => absurd hnone hne }

-- `end_read` of the worker. The message is as it was if no other follows it.
theorem endRead (h : TcpMirror msgSize c n i) (hmin : 16 ≤ msgSize)
    (hp : n.readBuffer i = some p) (hs : c.up.step msgSize .endDelimit = some l) :
    TcpMirror msgSize { c with up := l } { n with readBuffer := update n.readBuffer i none } i ∧
      (n.toServer i = [] → l.message c.data = p.msg) := by
  have hshown : c.up.shown ≠ none := fun hnone => by simp [h.pending.mpr hnone] at hp
  obtain ⟨l', p', hs', hup, -, -, -, hlen, hnone, hp', hread⟩ :=
    h.up.endRead hmin hshown (h.data hshown)
  obtain rfl := Option.some.inj (hs.symm.trans hs')
  have htoServer := h.toServer
  rw [hp, Option.toList_some, List.singleton_append, drop_eq_cons hp'] at htoServer
  obtain ⟨rfl, htail⟩ := List.cons.inj htoServer
  refine ⟨{ h with
    up := hup
    toServer := by simpa [hlen] using htail
    pending := by simp [hnone]
    data := fun hne => absurd hnone hne }, fun hnil => ?_⟩
  rcases hread with hsame | ⟨q, hq, -⟩
  · exact hsame
  · have hhead := congrArg List.head? htail
    simp [hnil, hq] at hhead

end TcpMirror

end Q2pc
