import Q2pc.Tcp.Cluster
import Q2pc.Tcp.Draining

namespace Q2pc

namespace TcpLink

variable {msgSize : Nat} {l l' : TcpLink} {sent : List Packet} {x : PipeRead} {r : BegRead}
  {a : SysRead}

theorem Up.begRead (h : l.Up msgSize) (hs : l.begRead msgSize x = some (l', r)) : l'.Up msgSize :=
  h.step (e := .begDelimit x) trivial (step_of_begRead hs)

theorem Up.send {msg : Msg} (h : l.Up msgSize) (hs : l.send msgSize msg = some l') :
    l'.Up msgSize := by
  obtain ⟨l₁, hbeg, hend⟩ := Option.bind_eq_some_iff.mp hs
  exact (h.step (e := .begWrite msg.encode) trivial hbeg).step (e := .endWrite) trivial hend

-- A write() can take what is left of the message.
theorem Up.flush (h : l.Up msgSize) : l.endWrite = .ret .enone ∨
    ∃ n l', l.step msgSize (.write (.wrote n)) = some l' ∧ l'.endWrite = .ret .enone := by
  cases hend : l.endWrite with
  | ret ret =>
      rcases ret_of_reachable h.run ret hend with rfl | rfl
      · exact .inl rfl
      · exact absurd hend h.endWrite
  | loop data len =>
      have hw : WriteLoop.step true data len (.wrote len) = some (.ret .enone) := by
        simp [WriteLoop.step, WriteLoop.enter]
      refine .inr ⟨len, { l with
        endWrite := .ret .enone
        pipe := l.pipe ++ l.writer.writeBuffer.bytes data len
        sent := l.sent ++ l.writer.writeBuffer.bytes data len }, ?_, rfl⟩
      simp only [TcpLink.step, hend]
      rw [if_pos ⟨h.closed, Nat.le_refl len⟩, hw]
      rfl

theorem Up.exists_begWrite (h : l.Up msgSize) (hend : l.endWrite = .ret .enone) (msg : Msg) :
    ∃ l', l.step msgSize (.begWrite msg.encode) = some l' ∧ l'.endWrite = .ret .enone := by
  have hsize := (writes_of_reachable h.run).size
  refine ⟨_, if_pos ⟨h.closed, hend, ?_⟩, hend⟩
  rw [Msg.length_encode, ConnBuffers.begWrite, hsize]
  decide

theorem Up.exists_endWrite (h : l.Up msgSize) (hmax : msgSize ≤ buffSize)
    (hend : l.endWrite = .ret .enone) : ∃ l', l.step msgSize .endWrite = some l' := by
  have hsize := (writes_of_reachable h.run).size
  have hw : l.writer.toConnBuffers.endWrite msgSize = some (.enter 0 msgSize) := by
    rw [ConnBuffers.endWrite, hsize, if_neg (by omega)]
  exact ⟨_, by rw [TcpLink.step, if_pos ⟨h.closed, hend⟩, hw, Option.map_some]⟩

theorem Up.exists_send (h : l.Up msgSize) (hmax : msgSize ≤ buffSize)
    (hend : l.endWrite = .ret .enone) (msg : Msg) : ∃ l', l.send msgSize msg = some l' := by
  obtain ⟨l₁, hbeg, hend₁⟩ := h.exists_begWrite hend msg
  obtain ⟨l₂, hl₂⟩ := (h.step (e := .begWrite msg.encode) trivial hbeg).exists_endWrite hmax hend₁
  exact ⟨l₂, by simp only [TcpLink.send, hbeg, hl₂, Option.bind_eq_bind, Option.bind_some]⟩

private theorem exists_begRead (hpos : 0 < msgSize)
    (h : (tcpLink msgSize).Reachable Machine.always l) (ha : l.answer x = some a)
    (hne : a ≠ .failed) :
    ∃ l' r c, l.begRead msgSize x = some (l', r) ∧
      TcpPriv.BegDelimit msgSize l.reader a c r := by
  obtain ⟨c, r, hcall, hb⟩ := (reads_of_reachable hpos h).reader.begDelimit hpos hne
  refine ⟨{ l with
    reader := c
    pipe := if r.read then l.pipe.drop a.data.length else l.pipe
    begun := true
    shown := if r.ret = .enone then r.out.map (·.bytes c.delimBuffer) else l.shown }, r, c, ?_, hb⟩
  simp only [TcpLink.begRead, ha, hcall, Option.bind_eq_bind, Option.bind_some]
  rfl

-- The bytes of the messages that are written and not delivered are held by the reader or on
-- their way.
private theorem length_held_add_pipe (hpos : 0 < msgSize) (h : l.Carries msgSize sent)
    (hend : l.endWrite = .ret .enone) (hlt : l.delivered.length < sent.length) :
    msgSize ≤ l.reader.delimBufferUsed + l.pipe.length := by
  obtain ⟨rest, hrest, hwrote⟩ := exists_wrote_eq hpos (writes_of_reachable h.run)
    (reads_of_reachable hpos h.run)
  obtain rfl : rest = [] := by simpa only [Unsent, hend, forall_const] using hrest
  have hlen := congrArg List.length h.wrote
  rw [List.length_map, List.length_map, hwrote, List.length_append, length_blocks,
    List.append_nil, List.length_append, TcpPriv.length_held] at hlen
  by_contra hfew
  rw [Nat.div_eq_of_lt (by omega)] at hlen
  omega

-- Once a message is written one call of `beg_read` can return it.
theorem Carries.exists_shown (hpos : 0 < msgSize) (hmax : msgSize ≤ buffSize)
    (h : l.Carries msgSize sent) (hend : l.endWrite = .ret .enone)
    (hlt : l.delivered.length < sent.length) :
    ∃ x l' r, (x ≠ .finished ∧ x ≠ .refused) ∧ l.begRead msgSize x = some (l', r) ∧
      r.ret = .enone := by
  have hr := reads_of_reachable hpos h.run
  cases hres : l.reader.delimResult with
  | some off =>
      obtain ⟨l', r, c, hread, hb⟩ := exists_begRead hpos h.run (x := .again) rfl (by simp)
      refine ⟨.again, l', r, by simp, hread, ?_⟩
      cases hb with
      | pending => rfl
      | again hnone => simp [hres] at hnone
  | none =>
      have hheld := (hr.reader.idle hres).2
      have hmany := length_held_add_pipe hpos h hend hlt
      have hsize := readBufferSize_of_reachable h.run
      have htake : (l.pipe.take (msgSize - l.reader.delimBufferUsed)).length =
          msgSize - l.reader.delimBufferUsed := by
        rw [List.length_take]
        omega
      obtain ⟨l', r, c, hread, hb⟩ := exists_begRead hpos h.run
        (x := .chunk (msgSize - l.reader.delimBufferUsed))
        (if_pos ⟨by omega, by omega, by omega⟩) (by simp)
      refine ⟨_, l', r, by simp, hread, ?_⟩
      generalize l.pipe.take (msgSize - l.reader.delimBufferUsed) = bs at hb htake
      cases hb with
      | pending | found => rfl
      | finished =>
          rw [List.length_nil] at htake
          omega
      | short _ _ hheld' hnone hinv =>
          -- the message is complete
          have hshort := (hinv.idle hnone).2
          have hbytes := congrArg List.length hheld'
          rw [List.length_append, TcpPriv.length_held, TcpPriv.length_held] at hbytes
          omega

theorem Carries.begRead_again (hpos : 0 < msgSize) (h : l.Carries msgSize sent)
    (hall : sent.length ≤ l.delivered.length) :
    ∃ l' r, l.begRead msgSize .again = some (l', r) ∧ r.ret = .eagain := by
  obtain ⟨l', r, c, hread, hb⟩ := exists_begRead hpos h.run (x := .again) rfl (by simp)
  refine ⟨l', r, hread, ?_⟩
  cases hb with
  | again => rfl
  | pending hres =>
      have hnext := wrote_of_result hpos (writes_of_reachable h.run)
        (reads_of_reachable hpos h.run) hres
      have hlen := congrArg List.length h.wrote
      rw [List.length_map, List.length_map] at hlen
      obtain ⟨hlt, -⟩ := List.getElem?_eq_some_iff.mp hnext
      omega

end TcpLink

end Q2pc
