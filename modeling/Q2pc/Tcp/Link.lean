import Q2pc.Transport.Stream
import Q2pc.Transport.Released
import Q2pc.Transport.Wire

namespace Q2pc

variable {msgSize off : Nat} {l l' : TcpLink} {x : PipeRead} {r : BegRead} {b : List UInt8}

namespace TcpLink

-- `conn_beg_delimit`, with what it returns to its caller.
def begRead (msgSize : Nat) (l : TcpLink) (x : PipeRead) : Option (TcpLink × BegRead) := do
  let a ← l.answer x
  let (c, r) ← l.reader.begDelimit msgSize a
  return ({ l with
    reader := c
    pipe := if r.read then l.pipe.drop a.data.length else l.pipe
    begun := true
    shown := if r.ret = .enone then r.out.map (·.bytes c.delimBuffer) else l.shown }, r)

theorem step_of_begRead (h : l.begRead msgSize x = some (l', r)) :
    (tcpLink msgSize).step l (.begDelimit x) = some l' := by
  simp only [begRead, Option.bind_eq_bind, Option.bind_eq_some_iff] at h
  obtain ⟨a, ha, ⟨c, r'⟩, hcall, h⟩ := h
  obtain ⟨rfl, rfl⟩ := Prod.mk.inj (Option.some.inj h)
  simp only [tcpLink, TcpLink.step, ha, hcall, Option.bind_eq_bind, Option.bind_some]
  rfl

theorem begRead_efin (hpos : 0 < msgSize) (h : (tcpLink msgSize).Reachable Machine.always l)
    (hs : l.begRead msgSize x = some (l', r)) (hret : r.ret = .efin) :
    x = .finished ∨ x = .refused := by
  have hr := reads_of_reachable hpos h
  simp only [begRead, Option.bind_eq_bind, Option.bind_eq_some_iff] at hs
  obtain ⟨a, ha, ⟨c, r'⟩, hcall, hs⟩ := hs
  obtain ⟨rfl, rfl⟩ := Prod.mk.inj (Option.some.inj hs)
  cases x with
  | finished => exact .inl rfl
  | refused => exact .inr rfl
  | again =>
      obtain rfl := Option.some.inj ha
      cases hr.reader.begDelimit_cases hpos hcall <;> simp at hret
  | chunk n =>
      simp only [answer, Option.ite_none_right_eq_some, Option.some.injEq] at ha
      obtain ⟨⟨hn, hle, -⟩, rfl⟩ := ha
      have hne : l.pipe.take n ≠ [] := by
        rw [← List.length_pos_iff, List.length_take]
        omega
      generalize l.pipe.take n = bs at hcall hne
      cases hr.reader.begDelimit_cases hpos hcall with
      | finished => exact absurd rfl hne
      | pending | found | short => simp at hret

-- What holds besides at the reader's end.
structure Held (msgSize : Nat) (l : TcpLink) : Prop where
  aligned : l.reader.Aligned msgSize
  begun : l.shown ≠ none → l.begun = true

private theorem Held.step {e : TcpEvent} (hpos : 0 < msgSize) (h : l.Held msgSize)
    (hr : l.Reads msgSize) (hs : l.step msgSize e = some l') : l'.Held msgSize := by
  cases e with
  | begWrite bs =>
      simp only [TcpLink.step, Option.ite_none_right_eq_some, Option.some.injEq] at hs
      obtain ⟨-, rfl⟩ := hs
      exact ⟨h.aligned, h.begun⟩
  | endWrite =>
      simp only [TcpLink.step, Option.ite_none_right_eq_some, Option.map_eq_some_iff] at hs
      obtain ⟨-, w, -, rfl⟩ := hs
      exact ⟨h.aligned, h.begun⟩
  | write x =>
      simp only [TcpLink.step] at hs
      split at hs
      · simp only [Option.ite_none_right_eq_some, Option.map_eq_some_iff] at hs
        obtain ⟨-, w, -, rfl⟩ := hs
        exact ⟨h.aligned, h.begun⟩
      · simp at hs
  | close =>
      obtain rfl := Option.some.inj hs
      exact ⟨h.aligned, h.begun⟩
  | begDelimit x =>
      simp only [TcpLink.step, Option.bind_eq_bind, Option.bind_eq_some_iff] at hs
      obtain ⟨a, -, ⟨c, r⟩, hcall, ht⟩ := hs
      obtain rfl := Option.some.inj ht
      exact ⟨(hr.reader.begDelimit_cases hpos hcall).aligned h.aligned, fun _ => rfl⟩
  | endDelimit =>
      simp only [TcpLink.step, Option.ite_none_right_eq_some, Option.some.injEq] at hs
      obtain ⟨-, rfl⟩ := hs
      exact ⟨hr.reader.endDelimit_aligned hpos h.aligned, fun hshown => absurd rfl hshown⟩

theorem held_of_reachable (hpos : 0 < msgSize)
    (h : (tcpLink msgSize).Reachable Machine.always l) : l.Held msgSize := by
  apply h.invariant (P := TcpLink.Held msgSize)
  · exact ⟨by simp [tcpLink, TcpLink.init, TcpPriv.Aligned, TcpPriv.new],
      by simp [tcpLink, TcpLink.init]⟩
  · intro l e l' hr ih _ hs
    exact ih.step hpos (reads_of_reachable hpos hr) hs

-- What a call of `conn_beg_delimit` shows its caller is the next message.
theorem begRead_cases (hpos : 0 < msgSize) (h : (tcpLink msgSize).Reachable Machine.always l)
    (hs : l.begRead msgSize x = some (l', r)) :
    (r.ret = .enone ∧ ∃ off b, r.out = some ⟨off, msgSize⟩ ∧ l'.reader.delimResult = some off ∧
      l'.shown = some b ∧ b = l'.reader.delimBuffer.bytes off msgSize ∧
      l.wrote[l.delivered.length]? = some b) ∨
    ((r.ret = .eagain ∨ r.ret = .efin) ∧ r.out = none ∧ l'.shown = none ∧ l.shown = none) := by
  have hr := reads_of_reachable hpos h
  have h' := h.step trivial (step_of_begRead hs)
  simp only [begRead, Option.bind_eq_bind, Option.bind_eq_some_iff] at hs
  obtain ⟨a, ha, ⟨c, r'⟩, hcall, hs⟩ := hs
  obtain ⟨rfl, rfl⟩ := Prod.mk.inj (Option.some.inj hs)
  have hb := hr.reader.begDelimit_cases hpos hcall
  by_cases hret : r'.ret = .enone
  · obtain ⟨off, hres, hout, hbytes⟩ := hb.shown hr.reader hret
    have hnext := wrote_of_result hpos (writes_of_reachable h') (reads_of_reachable hpos h') hres
    refine .inl ⟨hret, off, _, hout, hres, ?_, rfl, ?_⟩
    · simp only [if_pos hret, hout, Option.map_some]
      rfl
    · exact hnext.trans (congrArg some hbytes.symm)
  · have hnone : l.shown = none := by
      cases hshown : l.shown with
      | none => rfl
      | some b =>
          have hres := (hr.shown b hshown).1
          cases hb with
          | pending => simp at hret
          | again hr' | refused hr' | finished hr' | found hr' | short hr' => exact absurd hr' hres
    refine .inr ⟨?_, ?_, by simp only [if_neg hret, hnone], hnone⟩
    · cases hb <;> simp at hret ⊢
    · cases hb <;> simp at hret ⊢

theorem begRead_frame (hs : l.begRead msgSize x = some (l', r)) :
    l'.writer = l.writer ∧ l'.endWrite = l.endWrite ∧ l'.wrote = l.wrote ∧
      l'.delivered = l.delivered := by
  simp only [begRead, Option.bind_eq_bind, Option.bind_eq_some_iff] at hs
  obtain ⟨a, -, ⟨c, r'⟩, -, hs⟩ := hs
  obtain ⟨rfl, rfl⟩ := Prod.mk.inj (Option.some.inj hs)
  exact ⟨rfl, rfl, rfl, rfl⟩

private theorem exists_rest (hpos : 0 < msgSize) (hw : l.Writes msgSize) (hr : l.Reads msgSize) :
    ∃ tail rest, l.wrote = l.delivered ++ tail ∧ tail.flatten = l.reader.held ++ rest := by
  obtain ⟨rest, -, hwrote⟩ := exists_wrote_eq hpos hw hr
  obtain ⟨unsent, hflat, -⟩ := hw.sent
  rw [hr.sent, hwrote, List.flatten_append, List.append_assoc, List.append_assoc] at hflat
  exact ⟨_, _, hwrote, List.append_cancel_left hflat⟩

private theorem exists_next (hpos : 0 < msgSize) (hw : l.Writes msgSize) (hr : l.Reads msgSize)
    (hres : l.reader.delimResult = some off) (hmore : msgSize < l.reader.delimBufferUsed) :
    ∃ b, l.wrote[l.delivered.length + 1]? = some b ∧ ∀ i < msgSize,
      msgSize + i < l.reader.delimBufferUsed →
      b[i]? = some (l.reader.delimBuffer (off + msgSize + i)) := by
  obtain ⟨tail, rest, hwrote, hflat⟩ := exists_rest hpos hw hr
  have hwhole : ∀ b ∈ tail, b.length = msgSize := fun b hb => hw.whole b (by simp [hwrote, hb])
  have hlen := congrArg List.length hflat
  rw [List.length_append, TcpPriv.length_held] at hlen
  rcases tail with _ | ⟨b₁, _ | ⟨b₂, tail⟩⟩
  · simp only [List.flatten_nil, List.length_nil] at hlen
    omega
  · rw [List.flatten_singleton, hwhole b₁ (by simp)] at hlen
    omega
  · have h₁ := hwhole b₁ (by simp)
    have h₂ := hwhole b₂ (by simp)
    refine ⟨b₂, by simp [hwrote], ?_⟩
    intro i hi hused
    have hheld : msgSize + i < l.reader.held.length := by rwa [TcpPriv.length_held]
    have hbyte := congrArg (·[msgSize + i]?) hflat
    simp only [List.flatten_cons] at hbyte
    rw [List.getElem?_append_left hheld, List.getElem?_append_right (by omega), h₁,
      Nat.add_sub_cancel_left, List.getElem?_append_left (by omega),
      List.getElem?_eq_getElem hheld] at hbyte
    simp only [TcpPriv.held_eq_of_result hres, Memory.getElem_bytes] at hbyte
    rw [hbyte, Nat.add_assoc]

-- The release of a message: its bytes stay, or the first bytes of the next message are
-- moved over them.
theorem release (hpos : 0 < msgSize) (h : (tcpLink msgSize).Reachable Machine.always l)
    (hshown : l.shown = some b) (hres : l.reader.delimResult = some off) :
    ∃ l', l.step msgSize .endDelimit = some l' ∧ l'.writer = l.writer ∧
      l'.endWrite = l.endWrite ∧ l'.closed = l.closed ∧ l'.wrote = l.wrote ∧
      l'.delivered = l.delivered ++ [b] ∧ l'.shown = none ∧
      ((∀ i < msgSize, l'.reader.delimBuffer (off + i) = l.reader.delimBuffer (off + i)) ∨
        ∃ b k, l.wrote[l.delivered.length + 1]? = some b ∧ off = 0 ∧ 0 < k ∧
          ∀ i < msgSize, if i < k then b[i]? = some (l'.reader.delimBuffer i)
            else l'.reader.delimBuffer i = l.reader.delimBuffer i) := by
  have hr := reads_of_reachable hpos h
  have hheld := held_of_reachable hpos h
  have hbegun := hheld.begun (by simp [hshown])
  refine ⟨_, if_pos hbegun, rfl, rfl, rfl, rfl, by simp [hshown], rfl, ?_⟩
  have hbuffer := hr.reader.endDelimit_buffer hpos hres
  by_cases hmoved : l.reader.moved msgSize = 0
  · refine .inl fun i _ => ?_
    rw [hbuffer, hmoved, if_neg (Nat.not_lt_zero _)]
  · have hlt : l.reader.delimBufferUsed - msgSize < msgSize ∧
        l.reader.moved msgSize = l.reader.delimBufferUsed - msgSize := by
      unfold TcpPriv.moved at hmoved ⊢
      split at hmoved
      next h => exact ⟨h, if_pos h⟩
      next => exact absurd rfl hmoved
    rcases hheld.aligned off hres with rfl | hoff
    · obtain ⟨b', hb', hbytes⟩ := exists_next hpos (writes_of_reachable h) hr hres (by omega)
      refine .inr ⟨b', l.reader.moved msgSize, hb', rfl, by omega, fun i hi => ?_⟩
      simp only [hbuffer]
      split
      · exact hbytes i hi (by omega)
      · rfl
    · refine .inl fun i _ => ?_
      rw [hbuffer, if_neg (by omega)]

private theorem int_two_eq_iff (m : Memory) (off : Nat) {c : Int} (hle : 0 ≤ c) (hlt : c < 256) :
    m.int off 2 = c ↔ ((m off).toNat : Int) = c ∧ m (off + 1) = 0 := by
  have h₀ := (m off).toNat_lt
  have h₁ := (m (off + 1)).toNat_lt
  have hzero : m (off + 1) = 0 ↔ (m (off + 1)).toNat = 0 := by
    rw [← UInt8.toNat_inj]
    rfl
  rw [Memory.int_two, hzero, Int.bmod_def]
  split <;> omega

theorem release_type {m m' : Memory} {b₂ : List UInt8} {k : Nat} (hmin : 16 ≤ msgSize)
    (hk : 0 < k)
    (hbytes : ∀ i < msgSize, if i < k then b₂[i]? = some (m' i) else m' i = m i)
    (h₁ : 0 ≤ (Msg.read m 0).type.code ∧ (Msg.read m 0).type.code < 256)
    (h₂ : 0 ≤ (Msg.decode b₂).type.code ∧ (Msg.decode b₂).type.code < 256) :
    (Msg.read m' 0).type = (Msg.decode b₂).type := by
  simp only [Msg.decode, Msg.read, MsgType.code_ofCode] at h₁ h₂ ⊢
  obtain ⟨hfirst, hsecond⟩ := (int_two_eq_iff _ 0 h₂.1 h₂.2).mp rfl
  have hown := ((int_two_eq_iff m 0 h₁.1 h₁.2).mp rfl).2
  have hbyte : ∀ i < msgSize, i < k → Memory.ofList b₂ i = m' i := by
    intro i hi hik
    have h := hbytes i hi
    rw [if_pos hik] at h
    rw [Memory.ofList, h, Option.getD_some]
  refine congrArg _ ((int_two_eq_iff m' 0 h₂.1 h₂.2).mpr ⟨?_, ?_⟩)
  · rwa [← hbyte 0 (by omega) hk]
  · by_cases hone : 0 + 1 < k
    · rwa [← hbyte (0 + 1) (by omega) hone]
    · have h := hbytes (0 + 1) (by omega)
      rw [if_neg hone] at h
      rwa [h]

end TcpLink

theorem WriteLoop.enter_ne_efin (data len : Nat) : enter data len ≠ .ret .efin := by
  unfold enter
  split <;> simp

def TcpEvent.atWriter : TcpEvent → Prop
  | .begDelimit _ | .endDelimit => False
  | .begWrite _ | .endWrite | .write _ | .close => True

-- The types whose code is a byte, as that of every message of the program is.
def MsgType.Small (t : MsgType) : Prop := 0 ≤ t.code ∧ t.code < 256

instance : DecidablePred MsgType.Small := fun _ => inferInstanceAs (Decidable (_ ∧ _))

namespace TcpLink

variable {e : TcpEvent} {sent : List Packet} {p : Packet} {msg : Msg}

theorem writer_frame (hs : l.step msgSize e = some l') (he : e.atWriter) :
    l'.reader = l.reader ∧ l'.delivered = l.delivered ∧ l'.shown = l.shown := by
  cases e with
  | begWrite bs =>
      simp only [TcpLink.step, Option.ite_none_right_eq_some, Option.some.injEq] at hs
      obtain ⟨-, rfl⟩ := hs
      exact ⟨rfl, rfl, rfl⟩
  | endWrite =>
      simp only [TcpLink.step, Option.ite_none_right_eq_some, Option.map_eq_some_iff] at hs
      obtain ⟨-, w, -, rfl⟩ := hs
      exact ⟨rfl, rfl, rfl⟩
  | write x =>
      simp only [TcpLink.step] at hs
      split at hs
      · simp only [Option.ite_none_right_eq_some, Option.map_eq_some_iff] at hs
        obtain ⟨-, w, -, rfl⟩ := hs
        exact ⟨rfl, rfl, rfl⟩
      · simp at hs
  | close =>
      obtain rfl := Option.some.inj hs
      exact ⟨rfl, rfl, rfl⟩
  | begDelimit | endDelimit => exact he.elim

theorem write_efin {x : SysWrite} (hs : l.step msgSize (.write x) = some l')
    (hend : l'.endWrite = .ret .efin) : x = .failed := by
  simp only [TcpLink.step] at hs
  split at hs
  · simp only [Option.ite_none_right_eq_some, Option.map_eq_some_iff] at hs
    obtain ⟨-, w, hw, rfl⟩ := hs
    cases x with
    | failed => rfl
    | again => simp [← Option.some.inj hw] at hend
    | wrote n => exact absurd ((Option.some.inj hw).trans hend) (WriteLoop.enter_ne_efin _ _)
  · simp at hs

-- A connection that carries the messages `sent`.
structure Carries (msgSize : Nat) (l : TcpLink) (sent : List Packet) : Prop where
  run : (tcpLink msgSize).Reachable Machine.always l
  wrote : l.wrote.map Msg.decode = sent.map Packet.msg

theorem Carries.init (msgSize : Nat) : TcpLink.init.Carries msgSize [] := ⟨.init, rfl⟩

private theorem Carries.same (h : l.Carries msgSize sent) (hs : l.step msgSize e = some l')
    (hwrote : l'.wrote = l.wrote) : l'.Carries msgSize sent :=
  ⟨h.run.step trivial hs, by rw [hwrote, h.wrote]⟩

theorem ret_of_reachable (h : (tcpLink msgSize).Reachable Machine.always l) :
    ∀ ret, l.endWrite = .ret ret → ret = .enone ∨ ret = .efin := by
  have henter : ∀ data len ret, WriteLoop.enter data len = .ret ret → ret = .enone := by
    intro data len ret hret
    unfold WriteLoop.enter at hret
    split at hret
    · simp at hret
    · exact (WriteLoop.ret.inj hret).symm
  apply h.invariant (P := fun l => ∀ ret, l.endWrite = .ret ret → ret = .enone ∨ ret = .efin)
  · intro ret hret
    exact .inl (WriteLoop.ret.inj hret).symm
  · intro l e l' _ ih _ hs ret hret
    simp only [tcpLink] at hs
    cases e with
    | begWrite bs =>
        simp only [TcpLink.step, Option.ite_none_right_eq_some, Option.some.injEq] at hs
        obtain ⟨-, rfl⟩ := hs
        exact ih ret hret
    | endWrite =>
        simp only [TcpLink.step, Option.ite_none_right_eq_some, Option.map_eq_some_iff] at hs
        obtain ⟨-, w, hw, rfl⟩ := hs
        simp only [ConnBuffers.endWrite, Option.ite_none_left_eq_some, Option.some.injEq] at hw
        exact .inl (henter _ _ ret (hw.2.trans hret))
    | write x =>
        simp only [TcpLink.step] at hs
        split at hs
        · simp only [Option.ite_none_right_eq_some, Option.map_eq_some_iff] at hs
          obtain ⟨-, w, hw, rfl⟩ := hs
          cases x with
          | wrote n => exact .inl (henter _ _ ret ((Option.some.inj hw).trans hret))
          | again => simp [← Option.some.inj hw] at hret
          | failed => exact .inr (WriteLoop.ret.inj ((Option.some.inj hw).trans hret)).symm
        · simp at hs
    | close =>
        obtain rfl := Option.some.inj hs
        exact ih ret hret
    | begDelimit x =>
        simp only [TcpLink.step, Option.bind_eq_bind, Option.bind_eq_some_iff] at hs
        obtain ⟨a, -, ⟨c, r⟩, -, ht⟩ := hs
        obtain rfl := Option.some.inj ht
        exact ih ret hret
    | endDelimit =>
        simp only [TcpLink.step, Option.ite_none_right_eq_some, Option.some.injEq] at hs
        obtain ⟨-, rfl⟩ := hs
        exact ih ret hret

theorem Carries.ret {ret : Ret} (h : l.Carries msgSize sent) (hret : l.endWrite = .ret ret) :
    ret = .enone ∨ ret = .efin :=
  ret_of_reachable h.run ret hret

theorem Carries.close (h : l.Carries msgSize sent) :
    Carries msgSize { l with closed := true } sent :=
  h.same (e := .close) rfl rfl

theorem Carries.write {x : SysWrite} (h : l.Carries msgSize sent)
    (hs : l.step msgSize (.write x) = some l') :
    l'.Carries msgSize sent ∧ l'.writer = l.writer := by
  have hsame : l'.wrote = l.wrote ∧ l'.writer = l.writer := by
    simp only [TcpLink.step] at hs
    split at hs
    · simp only [Option.ite_none_right_eq_some, Option.map_eq_some_iff] at hs
      obtain ⟨-, w, -, rfl⟩ := hs
      exact ⟨rfl, rfl⟩
    · simp at hs
  exact ⟨h.same hs hsame.1, hsame.2⟩

-- What the writer puts into its buffer is what will be read, if its fields have room.
theorem Carries.begWrite (hmin : 16 ≤ msgSize) (h : l.Carries msgSize sent) (hfits : msg.Fits)
    (hs : l.step msgSize (.begWrite msg.encode) = some l') :
    l'.Carries msgSize sent ∧ Msg.decode (l'.writer.writeBuffer.bytes 0 msgSize) = msg := by
  have hs' := hs
  simp only [TcpLink.step, Option.ite_none_right_eq_some, Option.some.injEq] at hs'
  obtain ⟨-, rfl⟩ := hs'
  refine ⟨h.same hs rfl, ?_⟩
  have hbytes := l.writer.writeBuffer.bytes_write 0 msg.encode
  rw [Msg.length_encode] at hbytes
  rw [← Msg.read_eq_decode hmin]
  exact (Msg.read_of_bytes hbytes).trans (Msg.wire_eq_iff.mpr hfits)

theorem Carries.endWrite (h : l.Carries msgSize sent)
    (hp : Msg.decode (l.writer.writeBuffer.bytes 0 msgSize) = p.msg)
    (hs : l.step msgSize .endWrite = some l') :
    l'.Carries msgSize (sent ++ [p]) ∧ l'.writer = l.writer := by
  have hstep : (tcpLink msgSize).step l .endWrite = some l' := hs
  have hrun := h.run.step trivial hstep
  simp only [TcpLink.step, Option.ite_none_right_eq_some, Option.map_eq_some_iff] at hs
  obtain ⟨-, w, -, rfl⟩ := hs
  refine ⟨⟨hrun, ?_⟩, rfl⟩
  simp only [List.map_append, h.wrote, List.map_singleton, hp]

private theorem Carries.sent_of_wrote (h : l.Carries msgSize sent) {k : Nat}
    (hb : l.wrote[k]? = some b) : ∃ p, sent[k]? = some p ∧ Msg.decode b = p.msg := by
  have hmap := congrArg (·[k]?) h.wrote
  simp only [List.getElem?_map, hb, Option.map_some] at hmap
  obtain ⟨p, hp, hmsg⟩ := Option.map_eq_some_iff.mp hmap.symm
  exact ⟨p, hp, hmsg.symm⟩

theorem Carries.begRead (hmin : 16 ≤ msgSize) (h : l.Carries msgSize sent)
    (hs : l.begRead msgSize x = some (l', r)) :
    l'.Carries msgSize sent ∧
    ((r.ret = .enone ∧ ∃ off p, r.out = some ⟨off, msgSize⟩ ∧ l'.reader.delimResult = some off ∧
        l'.shown ≠ none ∧ Msg.read l'.reader.delimBuffer off = p.msg ∧
        sent[l.delivered.length]? = some p) ∨
      (r.ret = .eagain ∨ r.ret = .efin) ∧ r.out = none ∧ l'.shown = none ∧ l.shown = none) := by
  have hstep : l.step msgSize (.begDelimit x) = some l' := step_of_begRead hs
  refine ⟨h.same hstep (begRead_frame hs).2.2.1, ?_⟩
  rcases begRead_cases (by omega) h.run hs with ⟨hret, off, b, hout, hres, hshown, hb, hwrote⟩ | hno
  · obtain ⟨p, hp, hmsg⟩ := h.sent_of_wrote hwrote
    refine .inl ⟨hret, off, p, hout, hres, by simp [hshown], ?_, hp⟩
    rw [Msg.read_eq_decode hmin, ← hb, hmsg]
  · exact .inr hno

theorem Carries.endNothing (h : l.Carries msgSize sent) (hnone : l.shown = none)
    (hs : l.step msgSize .endDelimit = some l') :
    l'.Carries msgSize sent ∧ l'.writer = l.writer ∧ l'.delivered = l.delivered ∧
      l'.shown = none := by
  have hs' := hs
  simp only [TcpLink.step, Option.ite_none_right_eq_some, Option.some.injEq] at hs'
  obtain ⟨-, rfl⟩ := hs'
  exact ⟨h.same hs rfl, rfl, by simp [hnone], rfl⟩

-- `end_read` releases it. What is behind the pointer then is the message still, or has the
-- type of the next one.
theorem Carries.endRead (hmin : 16 ≤ msgSize) (h : l.Carries msgSize sent)
    (hshown : l.shown ≠ none) (hres : l.reader.delimResult = some off) :
    ∃ l' p, l.step msgSize .endDelimit = some l' ∧ l'.Carries msgSize sent ∧
      l'.writer = l.writer ∧ l'.endWrite = l.endWrite ∧ l'.closed = l.closed ∧
      l'.delivered.length = l.delivered.length + 1 ∧ l'.shown = none ∧
      sent[l.delivered.length]? = some p ∧
      (Msg.read l'.reader.delimBuffer off = p.msg ∨
        ∃ q, sent[l.delivered.length + 1]? = some q ∧ (p.msg.type.Small → q.msg.type.Small →
          (Msg.read l'.reader.delimBuffer off).type = q.msg.type)) := by
  have hpos : 0 < msgSize := by omega
  have hr := reads_of_reachable hpos h.run
  obtain ⟨b, hb⟩ := Option.ne_none_iff_exists'.mp hshown
  obtain ⟨-, hblock⟩ := hr.shown b hb
  have hnext := wrote_of_result hpos (writes_of_reachable h.run) hr hres
  rw [← hblock] at hnext
  obtain ⟨p, hp, hmsg⟩ := h.sent_of_wrote hnext
  have hread : Msg.read l.reader.delimBuffer off = p.msg := by
    rw [Msg.read_eq_decode hmin, ← hmsg, hblock, TcpPriv.held_eq_of_result hres,
      Memory.take_bytes _ _ (hr.reader.result off hres).2]
  obtain ⟨l', hs, hwriter, hend, hclosed, hwrote, hdelivered, hnone, hbytes⟩ :=
    release hpos h.run hb hres
  refine ⟨l', p, hs, h.same hs hwrote, hwriter, hend, hclosed, by simp [hdelivered], hnone, hp, ?_⟩
  rcases hbytes with hsame | ⟨b₂, k, hb₂, rfl, hk, hbytes⟩
  · refine .inl ?_
    rw [← hread, Msg.read_eq_iff]
    exact fun i hi => hsame i (by omega)
  · obtain ⟨q, hq, hmsg₂⟩ := h.sent_of_wrote hb₂
    refine .inr ⟨q, hq, fun hsmall hsmall' => ?_⟩
    rw [← hmsg₂] at hsmall' ⊢
    rw [← hread] at hsmall
    exact release_type hmin hk hbytes hsmall hsmall'

end TcpLink

end Q2pc
