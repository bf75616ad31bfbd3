import Q2pc.Lib.Progress
import Q2pc.Tcp.Link

namespace Q2pc

variable {msgSize : Nat} {c c' : TcpPriv} {l l' : TcpLink} {x : SysRead} {e : TcpEvent}

namespace TcpPriv

private theorem begRead_readBufferSize {r : BegRead} (hs : c.begRead x = some (c', r)) :
    c'.readBufferSize = c.readBufferSize := by
  obtain ⟨⟨b, r⟩, hb, h⟩ := Option.map_eq_some_iff.mp hs
  cases h
  show b.readBufferSize = _
  unfold ConnBuffers.begRead at hb
  split at hb
  · cases hb
    rfl
  · cases x with
    | bytes bs =>
        simp only at hb
        split at hb <;> cases hb <;> rfl
    | again | refused =>
        cases hb
        rfl
    | failed => contradiction

private theorem delimitBuffer_readBufferSize (hs : c.delimitBuffer msgSize = some c') :
    c'.readBufferSize = c.readBufferSize := by
  simp only [delimitBuffer, Option.ite_none_right_eq_some, Option.some.injEq] at hs
  rw [← hs.2]

theorem begDelimit_readBufferSize {r : BegRead}
    (hs : c.begDelimit msgSize x = some (c', r)) : c'.readBufferSize = c.readBufferSize := by
  unfold begDelimit at hs
  split at hs
  · cases hs
    rfl
  · split at hs
    next c₁ hc₁ =>
      cases hs
      split at hc₁
      · exact delimitBuffer_readBufferSize hc₁
      · contradiction
    next =>
      obtain ⟨⟨c₁, r₁⟩, hread, hs⟩ := Option.bind_eq_some_iff.mp hs
      have hsize := begRead_readBufferSize hread
      dsimp only at hs
      split at hs
      · cases hs
        exact hsize
      · obtain ⟨data, -, hs⟩ := Option.bind_eq_some_iff.mp hs
        obtain ⟨c₂, happend, hs⟩ := Option.bind_eq_some_iff.mp hs
        obtain ⟨size, -, rfl⟩ := Option.map_eq_some_iff.mp happend
        split at hs
        next c₃ hc₃ =>
          cases hs
          exact (delimitBuffer_readBufferSize hc₃).trans hsize
        next =>
          cases hs
          exact hsize

theorem endDelimit_readBufferSize :
    (c.endDelimit msgSize).readBufferSize = c.readBufferSize := by
  unfold endDelimit advance noResult
  split
  · rfl
  · dsimp only
    split <;> split <;> try split
    all_goals rfl

end TcpPriv

-- The bytes of the message that write() has not taken, twice.
def WriteLoop.rank : WriteLoop → Nat
  | .loop _ len => 2 * len
  | .ret _ => 0

@[simp] theorem WriteLoop.rank_loop (data len : Nat) : (loop data len).rank = 2 * len := rfl

@[simp] theorem WriteLoop.rank_enter (data len : Nat) : (enter data len).rank = 2 * len := by
  unfold enter
  split
  · rfl
  · show 0 = _
    omega

-- The writer does not close the connection, and its write() does not fail.
def TcpEvent.keeps : TcpEvent → Prop
  | .close | .write .failed => False
  | _ => True

theorem TcpEvent.keeps_write {x : SysWrite} (hx : x ≠ .failed) : (TcpEvent.write x).keeps := by
  cases x with
  | failed => exact hx rfl
  | wrote | again => trivial

namespace TcpLink

theorem readBufferSize_of_reachable (h : (tcpLink msgSize).Reachable Machine.always l) :
    l.reader.readBufferSize = buffSize := by
  apply h.invariant (P := fun l => l.reader.readBufferSize = buffSize)
  · rfl
  · intro l e l' _ ih _ hs
    simp only [tcpLink] at hs
    cases e with
    | begWrite | endWrite | write | close => rw [(writer_frame hs trivial).1, ih]
    | begDelimit x =>
        simp only [TcpLink.step, Option.bind_eq_bind, Option.bind_eq_some_iff] at hs
        obtain ⟨a, -, ⟨c, r⟩, hcall, ht⟩ := hs
        obtain rfl := Option.some.inj ht
        exact (TcpPriv.begDelimit_readBufferSize hcall).trans ih
    | endDelimit =>
        simp only [TcpLink.step, Option.ite_none_right_eq_some, Option.some.injEq] at hs
        obtain ⟨-, rfl⟩ := hs
        exact TcpPriv.endDelimit_readBufferSize.trans ih

-- The writer has not closed the connection, and no write() of it has failed.
structure Up (msgSize : Nat) (l : TcpLink) : Prop where
  run : (tcpLink msgSize).Reachable Machine.always l
  closed : l.closed = false
  endWrite : l.endWrite ≠ .ret .efin

theorem Up.init (msgSize : Nat) : TcpLink.init.Up msgSize := ⟨.init, rfl, by simp [TcpLink.init]⟩

theorem Up.step (h : l.Up msgSize) (he : e.keeps) (hs : l.step msgSize e = some l') :
    l'.Up msgSize := by
  suffices hends : l'.closed = false ∧ l'.endWrite ≠ .ret .efin from
    ⟨h.run.step trivial hs, hends.1, hends.2⟩
  cases e with
  | close => exact he.elim
  | begWrite bs =>
      simp only [TcpLink.step, Option.ite_none_right_eq_some, Option.some.injEq] at hs
      obtain ⟨-, rfl⟩ := hs
      exact ⟨h.closed, h.endWrite⟩
  | endWrite =>
      simp only [TcpLink.step, Option.ite_none_right_eq_some, Option.map_eq_some_iff] at hs
      obtain ⟨-, w, hw, rfl⟩ := hs
      simp only [ConnBuffers.endWrite, Option.ite_none_left_eq_some, Option.some.injEq] at hw
      refine ⟨h.closed, ?_⟩
      rw [← hw.2]
      exact WriteLoop.enter_ne_efin _ _
  | write x =>
      refine ⟨?_, fun hend => ?_⟩
      · simp only [TcpLink.step] at hs
        split at hs
        · simp only [Option.ite_none_right_eq_some, Option.map_eq_some_iff] at hs
          obtain ⟨-, w, -, rfl⟩ := hs
          exact h.closed
        · contradiction
      · rw [write_efin hs hend] at he
        exact he
  | begDelimit x =>
      simp only [TcpLink.step, Option.bind_eq_bind, Option.bind_eq_some_iff] at hs
      obtain ⟨a, -, ⟨c, r⟩, -, ht⟩ := hs
      obtain rfl := Option.some.inj ht
      exact ⟨h.closed, h.endWrite⟩
  | endDelimit =>
      simp only [TcpLink.step, Option.ite_none_right_eq_some, Option.some.injEq] at hs
      obtain ⟨-, rfl⟩ := hs
      exact ⟨h.closed, h.endWrite⟩

-- The calls that get a message on: write() and read() take a byte at least, the delimiter
-- returns a message, and its caller releases it.
def productive (l : TcpLink) : TcpEvent → Prop
  | .write (.wrote n) => 0 < n
  | .begDelimit (.chunk _) => l.shown = none
  | .begDelimit _ => l.shown = none ∧ l.reader.delimResult ≠ none
  | .endDelimit => l.shown ≠ none
  | _ => False

instance (l : TcpLink) (e : TcpEvent) : Decidable (l.productive e) := by
  unfold productive
  split <;> infer_instance

-- What there is to do until all messages are delivered.
def rank (l : TcpLink) : Nat :=
  3 * (l.wrote.length - l.delivered.length) + l.pipe.length + l.endWrite.rank +
    if l.shown = none then 1 else 0

theorem keeps_of_productive (hok : l.productive e) : e.keeps := by
  cases e with
  | close => exact hok.elim
  | write x =>
      cases x with
      | failed => exact hok.elim
      | wrote | again => trivial
  | begWrite | endWrite | begDelimit | endDelimit => trivial

-- Each of these calls gets on.
theorem Up.progress (hpos : 0 < msgSize) (h : l.Up msgSize) (hok : l.productive e)
    (hs : l.step msgSize e = some l') : l'.wrote = l.wrote ∧ l'.rank < l.rank := by
  have hr := reads_of_reachable hpos h.run
  cases e with
  | begWrite | endWrite | close => exact hok.elim
  | write x =>
      cases x with
      | again | failed => exact hok.elim
      | wrote n =>
          simp only [TcpLink.step] at hs
          split at hs
          next data len hend =>
            simp only [Option.ite_none_right_eq_some, Option.map_eq_some_iff] at hs
            obtain ⟨⟨-, hle⟩, w, hw, rfl⟩ := hs
            obtain rfl := Option.some.inj hw
            refine ⟨rfl, ?_⟩
            simp only [productive] at hok
            simp only [SysWrite.count] at hle
            simp only [rank, hend, WriteLoop.rank_enter, WriteLoop.rank_loop, List.length_append,
              Memory.length_bytes, SysWrite.count]
            omega
          next => contradiction
  | begDelimit x =>
      have hshown : l.shown = none := by
        cases x with
        | chunk => exact hok
        | finished | again | refused => exact hok.1
      simp only [TcpLink.step, Option.bind_eq_bind, Option.bind_eq_some_iff] at hs
      obtain ⟨a, ha, ⟨c, r⟩, hcall, ht⟩ := hs
      obtain rfl := Option.some.inj ht
      refine ⟨rfl, ?_⟩
      -- a call that finds no message has read
      have hread : l.reader.delimResult = none → ∃ n, 0 < n ∧ n ≤ l.pipe.length ∧
          a = .bytes (l.pipe.take n) ∧ a.data.length = n := by
        intro hres
        cases x with
        | chunk n =>
            simp only [answer, Option.ite_none_right_eq_some, Option.some.injEq] at ha
            obtain ⟨⟨hn, hle, -⟩, rfl⟩ := ha
            exact ⟨n, hn, hle, rfl, by simpa [SysRead.data] using hle⟩
        | finished | again | refused => exact absurd hres hok.2
      cases hr.reader.begDelimit_cases hpos hcall with
      | pending hres =>
          simp only [rank, hshown, if_true, Option.map_some, reduceCtorEq, if_false,
            Bool.false_eq_true]
          omega
      | again hres | refused hres =>
          obtain ⟨n, -, -, hbytes, -⟩ := hread hres
          contradiction
      | finished hres =>
          obtain ⟨n, hn, hle, hbytes, hlen⟩ := hread hres
          simp only [SysRead.data, List.length_nil] at hlen
          omega
      | found hres hne hheld hres' h' =>
          obtain ⟨n, hn, hle, hbytes, hlen⟩ := hread hres
          simp only [rank, hshown, if_true, Option.map_some, reduceCtorEq, if_false, hlen,
            List.length_drop]
          omega
      | short hres hne hheld hres' h' =>
          obtain ⟨n, hn, hle, hbytes, hlen⟩ := hread hres
          simp only [rank, hshown, if_true, reduceCtorEq, if_false, hlen, List.length_drop]
          omega
  | endDelimit =>
      simp only [TcpLink.step, Option.ite_none_right_eq_some, Option.some.injEq] at hs
      obtain ⟨-, rfl⟩ := hs
      refine ⟨rfl, ?_⟩
      obtain ⟨b, hb⟩ := Option.ne_none_iff_exists'.mp hok
      obtain ⟨off, hres⟩ := Option.ne_none_iff_exists'.mp (hr.shown b hb).1
      have hnext := wrote_of_result hpos (writes_of_reachable h.run) hr hres
      obtain ⟨hlt, -⟩ := List.getElem?_eq_some_iff.mp hnext
      simp only [rank, hb, Option.toList_some, List.length_append, List.length_singleton,
        reduceCtorEq, if_false, if_true]
      omega

-- If there is none of them left, all is delivered.
theorem Up.delivered_of_stuck (hpos : 0 < msgSize) (h : l.Up msgSize)
    (hstuck : ∀ e, l.productive e → l.step msgSize e = none) : l.delivered = l.wrote := by
  have hr := reads_of_reachable hpos h.run
  have hw := writes_of_reachable h.run
  have hshown : l.shown = none := by
    by_contra hne
    have hbegun := (held_of_reachable hpos h.run).begun hne
    have hnone := hstuck .endDelimit hne
    simp [TcpLink.step, hbegun] at hnone
  have hbeg : ∀ x a, l.answer x = some a → l.productive (.begDelimit x) → False := by
    intro x a ha hok
    have hnone := hstuck _ hok
    obtain ⟨c, r, hcall, -⟩ := hr.reader.begDelimit hpos (x := a) (by
      rintro rfl
      cases x <;> simp [answer] at ha)
    simp [TcpLink.step, ha, hcall] at hnone
  have hres : l.reader.delimResult = none := by
    by_contra hne
    exact hbeg .again _ rfl ⟨hshown, hne⟩
  have hpipe : l.pipe = [] := by
    by_contra hne
    have hlen := List.length_pos_iff.mpr hne
    have hsize := readBufferSize_of_reachable h.run
    refine hbeg (.chunk 1) _ (if_pos ⟨Nat.one_pos, hlen, ?_⟩) hshown
    rw [hsize]
    decide
  obtain ⟨rest, hflat, hrest⟩ := hw.sent
  have hnil : rest = [] := by
    unfold Unsent at hrest
    split at hrest
    next data len hend =>
      by_cases hlen : 0 < len
      · have hnone := hstuck (.write (.wrote len)) hlen
        simp [TcpLink.step, hend, h.closed, SysWrite.count, WriteLoop.step] at hnone
      · obtain rfl : len = 0 := by omega
        exact hrest
    next ret hend =>
      rcases ret_of_reachable h.run ret hend with rfl | rfl
      · exact hrest rfl
      · exact absurd hend h.endWrite
  rw [hnil, List.append_nil] at hflat
  rw [delivered_of_finished hpos hr hpipe hres, ← hflat, blocks_flatten hpos hw.whole]

end TcpLink

-- The framing of TCP gets on: as long as the writer is up, write() and read() that take a
-- byte at least, and the calls that return and release a message, deliver all that was
-- written after a bounded number of them, and until then one of them can be made.
theorem tcp_delivers_all (hpos : 0 < msgSize) (h : (tcpLink msgSize).Reachable Machine.always l)
    (hopen : l.closed = false) (hend : l.endWrite ≠ .ret .efin) {es : List TcpEvent}
    (hs : (tcpLink msgSize).evalFrom TcpLink.productive l es = some l') :
    es.length ≤ l.rank ∧
      ((∀ e, l'.productive e → l'.step msgSize e = none) → l'.delivered = l.wrote) := by
  obtain ⟨⟨hup, hwrote⟩, hle⟩ := Machine.length_le_rank
    (P := fun k => k.Up msgSize ∧ k.wrote = l.wrote) TcpLink.rank
    (fun _ _ _ hk hok hs => by
      obtain ⟨hsame, hlt⟩ := hk.1.progress hpos hok hs
      exact ⟨⟨hk.1.step (TcpLink.keeps_of_productive hok) hs, hsame.trans hk.2⟩, hlt⟩)
    ⟨⟨h, hopen, hend⟩, rfl⟩ hs
  exact ⟨by omega, fun hstuck => (hup.delivered_of_stuck hpos hstuck).trans hwrote⟩

-- Two messages of 16 bytes, of which 5 are still to be written and none is read.
theorem tcp_delivers_all_two : ∃ (l l' : TcpLink) (es : List TcpEvent),
    (tcpLink 16).Reachable Machine.always l ∧ l.delivered = [] ∧
    (tcpLink 16).evalFrom TcpLink.productive l es = some l' ∧ es.length = 6 ∧
    l'.delivered = [List.replicate 16 1, List.replicate 16 2] ∧ 6 ≤ l.rank ∧
    ((∀ e, l'.productive e → l'.step 16 e = none) → l'.delivered = l.wrote) := by
  obtain ⟨l, hrun, hl⟩ := (tcpLink 16).exists_run_of_eval Machine.always
    [.begWrite (List.replicate 16 1), .endWrite, .write (.wrote 16),
      .begWrite (List.replicate 16 2), .endWrite, .write (.wrote 11)]
    (fun l => l.closed = false ∧ l.endWrite ≠ .ret .efin ∧ l.delivered = [] ∧
      ((tcpLink 16).evalFrom TcpLink.productive l [.begDelimit (.chunk 20), .endDelimit,
        .write (.wrote 5), .begDelimit (.chunk 7), .begDelimit (.chunk 5), .endDelimit]).any
          fun l' => l'.delivered = [List.replicate 16 1, List.replicate 16 2]) (by decide +kernel)
  simp only [decide_eq_true_eq, Option.any_eq_true] at hl
  obtain ⟨hopen, hend, hnone, l', hs, hl'⟩ := hl
  obtain ⟨hle, hall⟩ := tcp_delivers_all (by decide) hrun.reachable hopen hend hs
  exact ⟨l, l', _, hrun.reachable, hnone, hs, rfl, hl', hle, hall⟩

end Q2pc
