import Q2pc.Server.Cases
import Q2pc.Transport.Callers
import Q2pc.Transport.Contract

namespace Q2pc

open Function (update)

-- What a call of `beg_read` leaves for `run_thread`. The stage of a message is history
-- that is not used here.
def BegRead.result (r : BegRead) (m : Memory) : ReadResult :=
  match r.ret with
  | .eagain => .eagain
  | .efin => .efin
  | .enone | .rtofired =>
      match r.out with
      | some data => .data ⟨Msg.read m data.off, 0⟩
      | none => .unset

-- The message that it hands out: the bytes, and the fields that are read of it.
def BegRead.handed (r : BegRead) (m : Memory) : List (List UInt8 × Msg) :=
  match r.ret with
  | .eagain | .efin => []
  | .enone | .rtofired => (r.out.map fun data => (data.bytes m, Msg.read m data.off)).toList

-- The history of a connection: the messages that arrived on it, those that were handed to
-- its worker, the slots that the worker has written for them, and by how much it has
-- increased its `votes_count` and its `stats_idx`.
structure Handling where
  arrived : List (List UInt8)
  handled : List (List UInt8 × Msg)
  scored : List (Nat × MsgType)
  counted : Int
  recorded : Int

-- The server on its connections.
structure Polling where
  server : Server
  conns : Nat → ConnReads
  history : Nat → Handling

inductive PollingEvent
  -- a step that calls no `beg_read` and no `end_read`
  | server (e : Event)
  | begRead (w i : Nat) (x : SysRead)
  | endRead (w i : Nat)
  -- a call of `beg_write` or `end_write`
  | write (i : Nat) (call : ConnCall)
  deriving DecidableEq, Repr

def ConnReads.arrivedWith (c c' : ConnReads) : List (List UInt8) :=
  (c'.log.drop c.log.length).flatMap PeekPop.arrivals

namespace Polling

variable {msgSize : Nat} {cfg : Config}

def init (msgSize : Nat) (start : Nat → ConnReads) : Polling where
  server := .init
  conns := start
  history := fun i => ⟨(start i).conn.waiting msgSize, [], [], 0, 0⟩

def call (msgSize i : Nat) (call : ConnCall) (s : Polling) : Option Polling :=
  ((s.conns i).step msgSize call).map fun c =>
    { s with
      conns := update s.conns i c
      history := update s.history i { s.history i with
        arrived := (s.history i).arrived ++ (s.conns i).arrivedWith c } }

def hand (i : Nat) (msgs : List (List UInt8 × Msg)) (s : Polling) : Polling :=
  { s with history := update s.history i { s.history i with
      handled := (s.history i).handled ++ msgs } }

-- What a step of the server to the state `t` adds to the history of a connection.
def record (cfg : Config) (s : Polling) (t : Server) : Event → Nat → Handling
  | .worker w =>
      match (s.server.workers w).pc with
      | .score i p => update s.history i { s.history i with
          scored := (s.history i).scored ++ (p.msg.vote cfg.clientCount).toList }
      | .storeCount i _ _ => update s.history i { s.history i with
          counted := (s.history i).counted + (t.votesCount w - s.server.votesCount w) }
      | _ => s.history
  | .timeEnd w _ =>
      match (s.server.workers w).pc with
      | .stats i _ => update s.history i { s.history i with
          recorded := (s.history i).recorded +
            ((t.workers w).stats.length - (s.server.workers w).stats.length) }
      | _ => s.history
  | _ => s.history

def step (msgSize : Nat) (cfg : Config) (s : Polling) : PollingEvent → Option Polling
  | .server (.begRead _ _ _) | .server (.endRead _ _) => none
  | .server e =>
      (s.server.step cfg e).map fun t => { s with server := t, history := s.record cfg t e }
  | .begRead w i x =>
      ((s.conns i).conn.begRead msgSize x).bind fun (c, r) =>
        (s.server.step cfg (.begRead w i (r.result c.buffer))).bind fun t =>
          (s.call msgSize i (.begRead x)).map fun s =>
            { s.hand i (r.handed c.buffer) with server := t }
  | .endRead w i =>
      (s.server.step cfg (.endRead w i)).bind fun t =>
        (s.call msgSize i .endRead).map fun s => { s with server := t }
  | .write _ (.begRead _) | .write _ .endRead => none
  | .write i call => s.call msgSize i call

end Polling

-- The rounds start with the connections as `do_connectall` leaves them.
def pollingMachine (msgSize : Nat) (cfg : Config) (start : Nat → ConnReads) :
    Machine Polling PollingEvent where
  init := .init msgSize start
  step := Polling.step msgSize cfg

namespace ConnReads

variable {msgSize : Nat} {c c' : ConnReads} {d : TransConn} {r : BegRead} {x : SysRead}

-- On UDP and Q-Jump a message is in the buffer only from `beg_read` to `end_read`.
def ShowsAll (c : ConnReads) : Prop :=
  c.conn.setsOutputs = false → c.shown = false → c.conn.pending = none

theorem ShowsAll.step {call : ConnCall} (hpos : 0 < msgSize) (h : c.Inv msgSize)
    (hall : c.ShowsAll) (hs : c.step msgSize call = some c') : c'.ShowsAll := by
  cases call with
  | begRead x =>
      simp only [ConnReads.step, Option.ite_none_right_eq_some, Option.map_eq_some_iff,
        Prod.exists] at hs
      obtain ⟨-, d, r, hcall, rfl⟩ := hs
      intro _ hshown
      simp only [Bool.or_eq_false_iff, decide_eq_false_iff_not] at hshown
      cases hp : c.conn.pending with
      | some v =>
          obtain ⟨rfl, rfl⟩ := TransConn.begRead_pending hp hcall
          exact absurd rfl hshown.2
      | none => exact (h.1.begRead_idle hpos hp hcall).failed hshown.2
  | endRead =>
      obtain rfl := Option.some.inj hs
      intro hsets _
      revert hsets
      cases c.conn with
      | tcp d | rudp d => simp [TransConn.endRead, TransConn.setsOutputs]
      | udp d | qj d => exact fun _ => ConnBuffers.pending_of_unused rfl
  | begWrite bs =>
      simp only [ConnReads.step, Option.ite_none_right_eq_some, Option.some.injEq] at hs
      obtain ⟨-, rfl⟩ := hs
      intro hsets hshown
      have hp := hall
      unfold ShowsAll at hp
      revert hsets hp
      cases c.conn with
      | tcp d | rudp d => simp [TransConn.begWrite, TransConn.fill, TransConn.setsOutputs]
      | udp d | qj d => exact fun _ hp => hp rfl hshown
  | endWrite len x =>
      simp only [ConnReads.step, Option.ite_none_right_eq_some, Option.map_eq_some_iff,
        Prod.exists] at hs
      obtain ⟨-, d, read, hcall, rfl⟩ := hs
      intro hsets hshown
      have hp := hall
      unfold ShowsAll at hp
      cases hconn : c.conn with
      | tcp b | rudp b =>
          rw [hconn] at hcall
          obtain ⟨_, _, heq⟩ := Option.map_eq_some_iff.mp hcall
          obtain ⟨rfl, rfl⟩ := Prod.mk.inj heq
          simp [TransConn.setsOutputs] at hsets
      | udp b | qj b =>
          rw [hconn] at hcall hp
          obtain ⟨_, _, heq⟩ := Option.map_eq_some_iff.mp hcall
          obtain ⟨rfl, rfl⟩ := Prod.mk.inj heq
          exact hp hsets hshown

theorem showsAll_of_run {server : Bool} {t : TransType} {es : List ConnCall} (hpos : 0 < msgSize)
    (h : (connReads msgSize server t).Run Machine.always es c) : c.ShowsAll := by
  apply h.reachable.invariant (P := ShowsAll)
  · intro hsets _
    cases t with
    | tcpLn | rdpLn => cases hsets
    | udpLn | udpQj => rfl
  · rintro c e c' ⟨es, hrun⟩ hall - hs
    exact hall.step hpos (inv_of_run hpos hrun) hs

theorem ShowsAll.result_ne_unset (hpos : 0 < msgSize) (h : c.Inv msgSize) (hall : c.ShowsAll)
    (hshown : c.shown = false) (hcall : c.conn.begRead msgSize x = some (d, r)) :
    r.result d.buffer ≠ .unset := by
  unfold BegRead.result
  cases hp : c.conn.pending with
  | some v =>
      obtain ⟨rfl, rfl⟩ := TransConn.begRead_pending hp hcall
      cases hsets : c.conn.setsOutputs with
      | true => simp
      | false => simp [hall hsets hshown] at hp
  | none =>
      have hfresh := h.1.begRead_idle hpos hp hcall
      have hrto := h.1.begRead_ret hpos hcall
      cases hret : r.ret with
      | enone =>
          obtain ⟨v, hv⟩ := Option.ne_none_iff_exists'.mp (hfresh.out hret).1
          simp [hv]
      | eagain | efin => simp
      | rtofired => exact absurd hret hrto

def unseen (msgSize : Nat) (c : ConnReads) : List (List UInt8) :=
  if c.shown then (c.conn.waiting msgSize).tail else c.conn.waiting msgSize

theorem arrivedWith_of_log {es : List (PeekPopEvent (List UInt8) View)}
    (h : c'.log = c.log ++ es) : c.arrivedWith c' = es.flatMap PeekPop.arrivals := by
  rw [arrivedWith, h, List.drop_left]

theorem unseen_begRead (hpos : 0 < msgSize) (h : c.Inv msgSize) (hshown : c.shown = false)
    (hcall : c.conn.begRead msgSize x = some (d, r)) (hs : c.step msgSize (.begRead x) = some c')
    (hset : r.result d.buffer ≠ .unset) :
    c.unseen msgSize ++ c.arrivedWith c' =
      (r.handed d.buffer).map Prod.fst ++ c'.unseen msgSize ∧
    c'.shown = decide (r.handed d.buffer ≠ []) ∧
    (r.handed d.buffer = [] → c'.unseen msgSize = []) := by
  simp only [ConnReads.step, hcall, Option.map_some, Option.ite_none_right_eq_some,
    Option.some.injEq] at hs
  obtain ⟨-, rfl⟩ := hs
  rw [arrivedWith_of_log rfl, List.flatMap_singleton]
  simp only [unseen, hshown, Bool.false_or, Bool.false_eq_true, if_false, decide_eq_true_eq,
    PeekPop.arrivals]
  cases hp : c.conn.pending with
  | some v =>
      obtain ⟨rfl, rfl⟩ := TransConn.begRead_pending hp hcall
      obtain ⟨rest, hrest⟩ := h.1.waiting_of_pending hpos hp
      cases hsets : c.conn.setsOutputs with
      | true => simp [BegRead.handed, hrest]
      | false => simp [BegRead.result, hsets] at hset
  | none =>
      have hfresh := h.1.begRead_idle hpos hp hcall
      have hidle := h.1.waiting_of_idle hpos hp
      rw [hidle, List.nil_append, hfresh.read, if_pos rfl, ← hfresh.waiting]
      by_cases hret : r.ret = .enone
      · obtain ⟨hne, hout⟩ := hfresh.out hret
        obtain ⟨v, hv⟩ := Option.ne_none_iff_exists'.mp hne
        obtain ⟨rest, hrest⟩ := hfresh.inv.waiting_of_pending hpos (hout.symm.trans hv)
        simp [BegRead.handed, hret, hv, hrest]
      · have hrto := h.1.begRead_ret hpos hcall
        have hnothing : r.handed d.buffer = [] := by
          unfold BegRead.handed
          split <;> first | rfl | contradiction
        have hempty := hfresh.inv.waiting_of_idle hpos (hfresh.failed hret)
        simp [hnothing, hret, hempty]

theorem unseen_endRead (hpos : 0 < msgSize) (h : c.Inv msgSize) (hshown : c.shown = true)
    (hs : c.step msgSize .endRead = some c') :
    c.unseen msgSize ++ c.arrivedWith c' = c'.unseen msgSize ∧ c'.shown = false := by
  obtain rfl := Option.some.inj hs
  rw [arrivedWith_of_log rfl]
  refine ⟨?_, rfl⟩
  simp only [unseen, hshown, if_true, Bool.false_eq_true, if_false, List.flatMap_singleton,
    PeekPop.arrivals, List.append_nil]
  exact (h.1.endRead hpos).2.symm

theorem unseen_begWrite {bs : List UInt8} (h : c.Inv msgSize)
    (hs : c.step msgSize (.begWrite bs) = some c') :
    c.unseen msgSize ++ c.arrivedWith c' = c'.unseen msgSize ∧ c'.shown = c.shown := by
  simp only [ConnReads.step, Option.ite_none_right_eq_some, Option.some.injEq] at hs
  obtain ⟨-, rfl⟩ := hs
  obtain ⟨hinv, -, hwaiting⟩ := h.1.begWrite
  obtain ⟨-, -, hwaiting'⟩ := hinv.fill c.conn.begWrite.2.off bs
  have hnothing : c.arrivedWith { c with
      conn := c.conn.begWrite.1.fill c.conn.begWrite.2.off bs } = [] :=
    arrivedWith_of_log (List.append_nil c.log).symm
  refine ⟨?_, rfl⟩
  rw [hnothing, List.append_nil]
  simp only [unseen, hwaiting', hwaiting]

theorem unseen_endWrite {len : Nat} {x : EndWriteInput} (hpos : 0 < msgSize) (h : c.Inv msgSize)
    (hs : c.step msgSize (.endWrite len x) = some c') :
    c.unseen msgSize ++ c.arrivedWith c' = c'.unseen msgSize ∧ c'.shown = c.shown := by
  simp only [ConnReads.step, Option.ite_none_right_eq_some, Option.map_eq_some_iff,
    Prod.exists] at hs
  obtain ⟨-, d, read, hcall, rfl⟩ := hs
  rw [arrivedWith_of_log rfl, List.flatMap_singleton]
  refine ⟨?_, rfl⟩
  obtain ⟨hno, hyes⟩ := h.1.endWrite hcall
  cases read with
  | false =>
      obtain ⟨-, -, hwaiting⟩ := hno rfl
      simp [unseen, PeekPop.arrivals, hwaiting]
  | true =>
      obtain ⟨hp, -, hwaiting⟩ := hyes rfl
      have hidle := h.1.waiting_of_idle hpos hp
      have hshown : c.shown = false := by
        by_contra hne
        exact h.2 (by simpa using hne) hp
      simp [unseen, PeekPop.arrivals, hwaiting, hshown, hidle]

end ConnReads

end Q2pc
