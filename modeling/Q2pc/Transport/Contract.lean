import Q2pc.Lib.PeekPop
import Q2pc.Transport.Pending

namespace Q2pc

variable {msgSize : Nat}

-- A connection that is called, with the history of it: the bytes that came out of the
-- socket, whether `beg_read` has returned since the last `end_read`, and the record of
-- what the callers saw.
structure ConnReads where
  conn : TransConn
  received : List UInt8
  shown : Bool
  log : List (PeekPopEvent (List UInt8) View)

-- What a call of `beg_read` shows its caller.
def BegRead.seen (r : BegRead) (m : Memory) : PeekResult (List UInt8) View :=
  if r.ret = .enone then
    match r.out with
    | some v => .shown (v.bytes m) v
    | none => .silent
  else .nothing

namespace ConnReads

def init (c : TransConn) : ConnReads := ⟨c, [], false, []⟩

-- A read() does not answer with more bytes than it is asked for, and the caller of
-- `beg_write` stays in the buffer it is given.
def step (msgSize : Nat) (s : ConnReads) : ConnCall → Option ConnReads
  | .begRead x =>
      if x.data.length ≤ buffSize then
        (s.conn.begRead msgSize x).map fun (c, r) =>
          { conn := c
            received := if r.read then s.received ++ x.data else s.received
            shown := s.shown || r.ret = .enone
            log := s.log ++ [.peek r.read
              (if r.read then s.conn.arrivals msgSize s.received x else []) (r.seen c.buffer)] }
      else none
  | .endRead =>
      some { s with
        conn := s.conn.endRead msgSize
        shown := false
        log := s.log ++ [.pop (s.conn.pending.map (·.bytes s.conn.buffer))] }
  | .begWrite bs =>
      let (c, v) := s.conn.begWrite
      if bs.length ≤ v.len then some { s with conn := c.fill v.off bs } else none
  | .endWrite len x =>
      if x.read.data.length ≤ buffSize then
        (s.conn.endWrite len x).map fun (c, read) =>
          { s with
            conn := c
            received := if read then s.received ++ x.read.data else s.received
            log := s.log ++ [.arrive read
              (if read then s.conn.arrivals msgSize s.received x.read else [])] }
      else none

-- On UDP and Q-Jump `beg_read` is not called while a message is pending, and nowhere
-- does `end_read` release a message that no `beg_read` has returned.
def CallOk (s : ConnReads) : ConnCall → Prop
  | .begRead _ => s.conn.setsOutputs = true ∨ s.conn.pending = none
  | .endRead => s.conn.pending = none ∨ s.shown = true
  | .begWrite _ | .endWrite _ _ => True

instance (s : ConnReads) (e : ConnCall) : Decidable (s.CallOk e) := by
  cases e <;> unfold CallOk <;> infer_instance

end ConnReads

def connReads (msgSize : Nat) (server : Bool) (t : TransType) : Machine ConnReads ConnCall where
  init := .init (.new server t)
  step := ConnReads.step msgSize

namespace ConnReads

variable {s s' : ConnReads} {q : PeekPop (List UInt8) View} {e : ConnCall}

def Inv (msgSize : Nat) (s : ConnReads) : Prop :=
  s.conn.Inv msgSize s.received ∧ (s.shown = true → s.conn.pending ≠ none)

theorem Inv.step (hpos : 0 < msgSize) (h : s.Inv msgSize) (hs : s.step msgSize e = some s') :
    s'.Inv msgSize := by
  cases e with
  | begRead x =>
      simp only [ConnReads.step, Option.ite_none_right_eq_some, Option.map_eq_some_iff,
        Prod.exists] at hs
      obtain ⟨-, c, r, hcall, rfl⟩ := hs
      cases hp : s.conn.pending with
      | some v =>
          obtain ⟨rfl, rfl⟩ := TransConn.begRead_pending hp hcall
          exact ⟨h.1, fun _ => by simp [hp]⟩
      | none =>
          have hfresh := h.1.begRead_idle hpos hp hcall
          have hshown : s.shown = false := by
            by_contra hne
            exact h.2 (by simpa using hne) hp
          refine ⟨by simpa [hfresh.read] using hfresh.inv, fun hret => ?_⟩
          simp only [hshown, Bool.false_or, decide_eq_true_eq] at hret
          obtain ⟨hne, hout⟩ := hfresh.out hret
          exact hout ▸ hne
  | endRead =>
      obtain rfl := Option.some.inj hs
      exact ⟨(h.1.endRead hpos).1, by simp⟩
  | begWrite bs =>
      simp only [ConnReads.step, Option.ite_none_right_eq_some, Option.some.injEq] at hs
      obtain ⟨-, rfl⟩ := hs
      obtain ⟨hinv, hp, -⟩ := h.1.begWrite
      obtain ⟨hinv', hp', -⟩ := hinv.fill s.conn.begWrite.2.off bs
      exact ⟨hinv', fun hshown => by simpa [hp', hp] using h.2 hshown⟩
  | endWrite len x =>
      simp only [ConnReads.step, Option.ite_none_right_eq_some, Option.map_eq_some_iff,
        Prod.exists] at hs
      obtain ⟨-, c, read, hcall, rfl⟩ := hs
      obtain ⟨hno, hyes⟩ := h.1.endWrite hcall
      cases read with
      | false => exact ⟨(hno rfl).1, fun hshown => by simpa [(hno rfl).2.1] using h.2 hshown⟩
      | true => exact ⟨(hyes rfl).2.1, fun hshown => absurd (hyes rfl).1 (h.2 hshown)⟩

theorem inv_of_run {server : Bool} {t : TransType} {es : List ConnCall} (hpos : 0 < msgSize)
    (h : (connReads msgSize server t).Run Machine.always es s) : s.Inv msgSize :=
  h.reachable.invariant ⟨.new hpos server t, by simp [connReads, init]⟩
    fun _ _ _ _ hi _ hs => hi.step hpos hs

-- The queue that a connection is to its callers.
structure Agrees (msgSize : Nat) (s : ConnReads) (q : PeekPop (List UInt8) View) : Prop where
  waiting : q.waiting = s.conn.waiting msgSize
  place : q.place = if s.shown then s.conn.pending else none

theorem Agrees.place_of_idle (h : s.Agrees msgSize q) (hp : s.conn.pending = none) :
    q.place = none := by
  rw [h.place, hp, ite_self]

private theorem look_pending (hpos : 0 < msgSize) (h : s.conn.Inv msgSize s.received)
    (hwaiting : q.waiting = s.conn.waiting msgSize) {v : View} (hp : s.conn.pending = some v)
    (hplace : q.place = none ∨ q.place = some v) :
    q.look (.shown (v.bytes s.conn.buffer) v) = some { q with place := some v } := by
  obtain ⟨rest, hrest⟩ := h.waiting_of_pending hpos hp
  exact PeekPop.look_shown (hwaiting.trans hrest) hplace

private theorem accepts_begRead {x : SysRead} {c : TransConn} {r : BegRead} (hpos : 0 < msgSize)
    (h : s.Inv msgSize) (hag : s.Agrees msgSize q)
    (hok : s.conn.setsOutputs = true ∨ s.conn.pending = none)
    (hcall : s.conn.begRead msgSize x = some (c, r)) :
    ∃ q' : PeekPop (List UInt8) View,
      PeekPop.machine.step q (.peek r.read
        (if r.read then s.conn.arrivals msgSize s.received x else []) (r.seen c.buffer)) =
          some q' ∧
      q'.waiting = c.waiting msgSize ∧
      q'.place = if s.shown || r.ret = .enone then c.pending else none := by
  cases hp : s.conn.pending with
  | some v =>
      obtain ⟨rfl, rfl⟩ := TransConn.begRead_pending hp hcall
      have hsets : s.conn.setsOutputs = true := hok.resolve_right (by simp [hp])
      have hplace : q.place = none ∨ q.place = some v := by
        rw [hag.place, hp]
        cases s.shown <;> simp
      have hlook := look_pending hpos h.1 hag.waiting hp hplace
      refine ⟨{ q with place := some v }, ?_, hag.waiting, by simp [hp]⟩
      simpa [PeekPop.machine, PeekPop.step, PeekPop.arrive, BegRead.seen, hsets] using hlook
  | none =>
      have hfresh := h.1.begRead_idle hpos hp hcall
      have hplace := hag.place_of_idle hp
      have hshown : s.shown = false := by
        by_contra hne
        exact h.2 (by simpa using hne) hp
      have hwaiting : q.waiting = [] := hag.waiting.trans (h.1.waiting_of_idle hpos hp)
      -- the queue with what arrived
      let q₁ : PeekPop (List UInt8) View := { q with waiting := c.waiting msgSize }
      have harrive : q.arrive r.read
          (if r.read then s.conn.arrivals msgSize s.received x else []) = some q₁ := by
        simp [PeekPop.arrive, hfresh.read, hplace, hwaiting, q₁, hfresh.waiting]
      simp only [PeekPop.machine, PeekPop.step, harrive, Option.bind_some]
      by_cases hret : r.ret = .enone
      · obtain ⟨hne, hout⟩ := hfresh.out hret
        obtain ⟨v, hv⟩ := Option.ne_none_iff_exists'.mp hne
        have hlook := look_pending (s := ⟨c, s.received ++ x.data, false, []⟩) (q := q₁) hpos
          hfresh.inv rfl (hout.symm.trans hv) (.inl hplace)
        refine ⟨{ q₁ with place := some v }, ?_, rfl, ?_⟩
        · simpa [BegRead.seen, hret, hv] using hlook
        · simp [hret, ← hout, hv]
      · have hempty := hfresh.inv.waiting_of_idle hpos (hfresh.failed hret)
        refine ⟨q₁, ?_, rfl, ?_⟩
        · simp [BegRead.seen, hret, PeekPop.look, q₁, hempty]
        · simp [hshown, hret, q₁, hplace]

private theorem accepts_endRead (hpos : 0 < msgSize) (h : s.Inv msgSize)
    (hag : s.Agrees msgSize q) (hok : s.conn.pending = none ∨ s.shown = true) :
    ∃ q' : PeekPop (List UInt8) View,
      PeekPop.machine.step q (.pop (s.conn.pending.map (·.bytes s.conn.buffer))) = some q' ∧
      q'.waiting = (s.conn.endRead msgSize).waiting msgSize ∧ q'.place = none := by
  rw [(h.1.endRead hpos).2, ← hag.waiting]
  cases hp : s.conn.pending with
  | none =>
      have hwaiting : q.waiting = [] := hag.waiting.trans (h.1.waiting_of_idle hpos hp)
      have hplace := hag.place_of_idle hp
      refine ⟨q, ?_, by rw [hwaiting, List.tail_nil], hplace⟩
      simp [PeekPop.machine, PeekPop.step, hplace]
  | some v =>
      have hshown : s.shown = true := hok.resolve_left (by simp [hp])
      have hplace : q.place = some v := by rw [hag.place, hshown, if_pos rfl, hp]
      obtain ⟨rest, hrest⟩ := h.1.waiting_of_pending hpos hp
      rw [← hag.waiting] at hrest
      refine ⟨⟨rest, none⟩, ?_, by rw [hrest, List.tail_cons], rfl⟩
      simp [PeekPop.machine, PeekPop.step, hplace, hrest]

private theorem accepts_endWrite {len : Nat} {x : EndWriteInput} {c : TransConn} {read : Bool}
    (hpos : 0 < msgSize) (h : s.Inv msgSize) (hag : s.Agrees msgSize q)
    (hcall : s.conn.endWrite len x = some (c, read)) :
    ∃ q' : PeekPop (List UInt8) View,
      PeekPop.machine.step q (.arrive read
        (if read then s.conn.arrivals msgSize s.received x.read else [])) = some q' ∧
      q'.waiting = c.waiting msgSize ∧ q'.place = if s.shown then c.pending else none := by
  obtain ⟨hno, hyes⟩ := h.1.endWrite hcall
  cases read with
  | false =>
      obtain ⟨-, hp, hw⟩ := hno rfl
      refine ⟨q, by simp [PeekPop.machine, PeekPop.step, PeekPop.arrive], ?_, ?_⟩
      · rw [hw, hag.waiting]
      · rw [hp, hag.place]
  | true =>
      obtain ⟨hp, -, hw⟩ := hyes rfl
      have hplace := hag.place_of_idle hp
      have hwaiting : q.waiting = [] := hag.waiting.trans (h.1.waiting_of_idle hpos hp)
      have hshown : s.shown = false := by
        by_contra hne
        exact h.2 (by simpa using hne) hp
      refine ⟨{ q with waiting := c.waiting msgSize }, ?_, rfl, ?_⟩
      · simp [PeekPop.machine, PeekPop.step, PeekPop.arrive, hplace, hwaiting, hw]
      · simp [hshown, hplace]

-- A call that meets the condition is a step of the queue, or none.
theorem Agrees.step (hpos : 0 < msgSize) (h : s.Inv msgSize) (hag : s.Agrees msgSize q)
    (hok : s.CallOk e) (hs : s.step msgSize e = some s') :
    s'.log = s.log ∧ s'.Agrees msgSize q ∨
      ∃ f q', s'.log = s.log ++ [f] ∧ PeekPop.machine.step q f = some q' ∧
        s'.Agrees msgSize q' := by
  cases e with
  | begRead x =>
      simp only [ConnReads.step, Option.ite_none_right_eq_some, Option.map_eq_some_iff,
        Prod.exists] at hs
      obtain ⟨-, c, r, hcall, rfl⟩ := hs
      obtain ⟨q', hstep, hw, hp⟩ := accepts_begRead hpos h hag hok hcall
      exact .inr ⟨_, q', rfl, hstep, hw, hp⟩
  | endRead =>
      obtain rfl := Option.some.inj hs
      obtain ⟨q', hstep, hw, hp⟩ := accepts_endRead hpos h hag hok
      exact .inr ⟨_, q', rfl, hstep, hw, hp⟩
  | begWrite bs =>
      simp only [ConnReads.step, Option.ite_none_right_eq_some, Option.some.injEq] at hs
      obtain ⟨-, rfl⟩ := hs
      obtain ⟨hinv, hp, hw⟩ := h.1.begWrite
      obtain ⟨-, hp', hw'⟩ := hinv.fill s.conn.begWrite.2.off bs
      refine .inl ⟨rfl, ?_, ?_⟩
      · rw [hag.waiting, hw', hw]
      · rw [hag.place, hp', hp]
  | endWrite len x =>
      simp only [ConnReads.step, Option.ite_none_right_eq_some, Option.map_eq_some_iff,
        Prod.exists] at hs
      obtain ⟨-, c, read, hcall, rfl⟩ := hs
      obtain ⟨q', hstep, hw, hp⟩ := accepts_endWrite hpos h hag hcall
      exact .inr ⟨_, q', rfl, hstep, hw, hp⟩

-- A call that does not meet the condition is no step of the queue.
theorem Agrees.rejects (hag : s.Agrees msgSize q) (hok : ¬s.CallOk e)
    (hs : s.step msgSize e = some s') :
    ∃ f, s'.log = s.log ++ [f] ∧ PeekPop.machine.step q f = none := by
  cases e with
  | begRead x =>
      simp only [CallOk, not_or, Bool.not_eq_true] at hok
      simp only [ConnReads.step, Option.ite_none_right_eq_some, Option.map_eq_some_iff,
        Prod.exists] at hs
      obtain ⟨-, c, r, hcall, rfl⟩ := hs
      obtain ⟨v, hp⟩ := Option.ne_none_iff_exists'.mp hok.2
      obtain ⟨rfl, rfl⟩ := TransConn.begRead_pending hp hcall
      refine ⟨_, rfl, ?_⟩
      simp [PeekPop.machine, PeekPop.step, PeekPop.arrive, PeekPop.look, BegRead.seen, hok.1]
  | endRead =>
      simp only [CallOk, not_or, Bool.not_eq_true] at hok
      obtain rfl := Option.some.inj hs
      obtain ⟨v, hp⟩ := Option.ne_none_iff_exists'.mp hok.1
      have hplace : q.place = none := by simp [hag.place, hok.2]
      refine ⟨_, rfl, ?_⟩
      simp [PeekPop.machine, PeekPop.step, hplace, hp]
  | begWrite bs => exact absurd trivial hok
  | endWrite len x => exact absurd trivial hok

private theorem log_extends (hs : s.step msgSize e = some s') : s.log <+: s'.log := by
  cases e with
  | begRead x =>
      simp only [ConnReads.step, Option.ite_none_right_eq_some, Option.map_eq_some_iff] at hs
      obtain ⟨-, _, -, rfl⟩ := hs
      exact List.prefix_append _ _
  | endRead =>
      obtain rfl := Option.some.inj hs
      exact List.prefix_append _ _
  | begWrite bs =>
      simp only [ConnReads.step, Option.ite_none_right_eq_some, Option.some.injEq] at hs
      obtain ⟨-, rfl⟩ := hs
      exact List.prefix_rfl
  | endWrite len x =>
      simp only [ConnReads.step, Option.ite_none_right_eq_some, Option.map_eq_some_iff] at hs
      obtain ⟨-, _, -, rfl⟩ := hs
      exact List.prefix_append _ _

variable {server : Bool} {t : TransType} {es : List ConnCall}

theorem exists_agrees (hpos : 0 < msgSize) (h : (connReads msgSize server t).Run CallOk es s) :
    ∃ q, PeekPop.machine.Run Machine.always s.log q ∧ s.Agrees msgSize q := by
  induction h with
  | nil =>
      have hidle : (TransConn.new server t).pending = none := by cases t <;> rfl
      have hempty := (TransConn.Inv.new hpos server t).waiting_of_idle hpos hidle
      exact ⟨_, .nil, hempty.symm, rfl⟩
  | snoc h hok hs ih =>
      obtain ⟨q, hrun, hag⟩ := ih
      have hinv := inv_of_run hpos (h.mono fun _ _ _ => trivial)
      rcases hag.step hpos hinv hok hs with ⟨hlog, hag'⟩ | ⟨f, q', hlog, hstep, hag'⟩
      · exact ⟨q, hlog ▸ hrun, hag'⟩
      · exact ⟨q', hlog ▸ hrun.snoc trivial hstep, hag'⟩

theorem run_callOk (hpos : 0 < msgSize) (h : (connReads msgSize server t).Run Machine.always es s)
    (hlog : PeekPop.Accepts s.log) : (connReads msgSize server t).Run CallOk es s := by
  induction h with
  | nil => exact .nil
  | @snoc es s s' e h _ hs ih =>
      have hprefix : PeekPop.Accepts s.log := by
        obtain ⟨q', hrun⟩ := hlog
        exact hrun.take (log_extends hs)
      have hrun := ih hprefix
      by_cases hok : s.CallOk e
      · exact hrun.snoc hok hs
      · obtain ⟨q, hq, hag⟩ := exists_agrees hpos hrun
        obtain ⟨f, hf, hnone⟩ := hag.rejects hok hs
        obtain ⟨q', hq'⟩ := hlog
        rw [hf] at hq'
        obtain ⟨q₁, hq₁, -, hstep⟩ := hq'.unsnoc
        rw [hq₁.unique hq, hnone] at hstep
        simp at hstep

end ConnReads

-- A connection is one queue to its callers, whatever the calls, the transport and the
-- answers of the socket, if and only if the calls meet the condition. Then the messages
-- released and those held are the messages that arrived, in their order. In any case the
-- calls of `beg_read` return, unless the socket answers with an error that ends the
-- process.
theorem read_contract_iff (hmin : 16 ≤ msgSize) {server : Bool} {t : TransType}
    {es : List ConnCall} {s : ConnReads}
    (h : (connReads msgSize server t).Run Machine.always es s) :
    (PeekPop.Accepts s.log ↔ (connReads msgSize server t).Run ConnReads.CallOk es s) ∧
    (PeekPop.Accepts s.log → s.log.flatMap PeekPop.drops ++ s.conn.waiting msgSize =
      s.log.flatMap PeekPop.arrivals) ∧
    ∀ x : SysRead, s.conn.Survives x → ∃ c r, s.conn.begRead msgSize x = some (c, r) := by
  have hpos : 0 < msgSize := by omega
  have hiff : PeekPop.Accepts s.log ↔ (connReads msgSize server t).Run ConnReads.CallOk es s := by
    constructor
    · exact ConnReads.run_callOk hpos h
    · intro hrun
      obtain ⟨q, hq, -⟩ := ConnReads.exists_agrees hpos hrun
      exact ⟨q, hq⟩
  refine ⟨hiff, fun hlog => ?_, fun x hx => ?_⟩
  · obtain ⟨q, hq, hag⟩ := ConnReads.exists_agrees hpos (hiff.mp hlog)
    exact hag.waiting ▸ PeekPop.drops_append_waiting hq
  · exact (ConnReads.inv_of_run hpos h).1.exists_begRead hpos hx

-- On TCP a message is looked at twice, released, and followed by the next one.
theorem read_contract_iff_tcp :
    ∃ s, (connReads 16 true .tcpLn).Run Machine.always
        [.begRead (.bytes (List.replicate 20 1)), .begRead .again, .endRead,
          .begRead (.bytes (List.replicate 12 2))] s ∧
      PeekPop.Accepts s.log := by
  obtain ⟨s, hrun, -⟩ := (connReads 16 true .tcpLn).exists_run_of_eval ConnReads.CallOk
    [.begRead (.bytes (List.replicate 20 1)), .begRead .again, .endRead,
      .begRead (.bytes (List.replicate 12 2))] (fun _ => true) (by decide +kernel)
  have halways : (connReads 16 true .tcpLn).Run Machine.always _ s :=
    hrun.mono fun _ _ _ => trivial
  exact ⟨s, halways, (read_contract_iff (by decide) halways).1.mpr hrun⟩

private theorem not_accepts_of_eval {log : List (PeekPopEvent (List UInt8) View)}
    (h : (PeekPop.machine.eval Machine.always log).isNone = true) : ¬PeekPop.Accepts log := by
  rintro ⟨q, hq⟩
  rw [Machine.eval_of_run hq] at h
  simp at h

-- On UDP and Q-Jump the second of two looks at a message succeeds without setting
-- `*data_o` and `*len_o`.
theorem read_contract_broken :
    (∃ s, (connReads 16 true .udpLn).Run Machine.always
        [.begRead (.bytes (List.replicate 16 1)), .begRead .again] s ∧
      s.log[1]? = some (.peek false [] .silent) ∧ ¬PeekPop.Accepts s.log) ∧
    ∃ s, (connReads 16 true .udpQj).Run Machine.always
        [.begRead (.bytes (List.replicate 16 1)), .begRead .again] s ∧
      s.log[1]? = some (.peek false [] .silent) ∧ ¬PeekPop.Accepts s.log := by
  have hbroken : ∀ t : TransType,
      (((connReads 16 true t).eval Machine.always
        [.begRead (.bytes (List.replicate 16 1)), .begRead .again]).any fun s =>
          s.log[1]? = some (.peek false [] .silent) &&
            (PeekPop.machine.eval Machine.always s.log).isNone) = true →
      ∃ s, (connReads 16 true t).Run Machine.always
          [.begRead (.bytes (List.replicate 16 1)), .begRead .again] s ∧
        s.log[1]? = some (.peek false [] .silent) ∧ ¬PeekPop.Accepts s.log := by
    intro t ht
    obtain ⟨s, hrun, hs⟩ := (connReads 16 true t).exists_run_of_eval Machine.always _ _ ht
    rw [Bool.and_eq_true, decide_eq_true_eq] at hs
    exact ⟨s, hrun, hs.1, not_accepts_of_eval hs.2⟩
  exact ⟨hbroken .udpLn (by decide +kernel), hbroken .udpQj (by decide +kernel)⟩

end Q2pc
