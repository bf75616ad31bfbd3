import Q2pc.Lib.Machine
import Q2pc.Transport.Callers
import Q2pc.Transport.Connect
import Mathlib.Data.Finset.Card
import Mathlib.Data.Finset.Range

namespace Q2pc

open Function (update)

inductive ConnectPc
  -- `while(connected < client_count)`
  | loop
  -- the for over the connections
  | conn (i : Nat)
  | returned
  -- `term(0)`
  | terminated
  deriving DecidableEq, Repr

-- The server in `do_connectall`.
structure ConnectAll where
  trans : Trans
  connected : Int
  -- none where `conn->priv` is not set
  conns : Nat → Option Connected
  pc : ConnectPc
  -- history: how many connect messages came out of each connection
  delivered : Nat → Nat

inductive ConnectEvent
  -- the test of a loop
  | test
  -- a pass of the for, with the answer of the socket
  | pass (x : SysRead)
  deriving DecidableEq, Repr

namespace ConnectAll

def init (transport : Transport) : ConnectAll where
  trans := transport.construct
  connected := 0
  conns := fun _ => none
  pc := .loop
  delivered := fun _ => 0

def clientCount (s : ConnectAll) : Int := s.trans.transport.clientCount

-- `if(!conn->priv)`: all four transports connect at the first try.
def connect (s : ConnectAll) (i : Nat) : Trans × Connected :=
  match s.conns i with
  | some conn => (s.trans, conn)
  | none => s.trans.doconnect

def setConn (s : ConnectAll) (i : Nat) (c : TransConn) : ConnectAll :=
  { s with
    trans := (s.connect i).1
    conns := update s.conns i (some { (s.connect i).2 with conn := c }) }

-- The for on connection `i`.
def poll (msgSize i : Nat) (x : SysRead) (s : ConnectAll) : Option ConnectAll :=
  ((s.connect i).2.conn.begRead msgSize x).bind fun (c, r) =>
    if r.ret ≠ .enone then some { s.setConn i c with pc := .conn (i + 1) }
    else r.out.map fun data =>
      if data.len < (msgSize : Int) then { s.setConn i c with pc := .terminated }
      else if (Msg.read c.buffer data.off).type = .con then
        { s.setConn i (c.endRead msgSize) with
          connected := s.connected + 1
          pc := .conn (i + 1)
          delivered := update s.delivered i (s.delivered i + 1) }
      else { s.setConn i c with pc := .terminated }

def step (msgSize : Nat) (s : ConnectAll) : ConnectEvent → Option ConnectAll
  | .test =>
      match s.pc with
      | .loop =>
          some { s with pc := if s.connected < s.clientCount then .conn 0 else .returned }
      | .conn i => if (i : Int) < s.clientCount then none else some { s with pc := .loop }
      | _ => none
  | .pass x =>
      match s.pc with
      | .conn i => if (i : Int) < s.clientCount then s.poll msgSize i x else none
      | _ => none

-- The message that connection `i` delivers with an answer of the socket.
def message (msgSize i : Nat) (x : SysRead) (s : ConnectAll) : Option Msg :=
  ((s.connect i).2.conn.begRead msgSize x).bind fun (c, r) =>
    if r.ret ≠ .enone then none else r.out.map fun data => Msg.read c.buffer data.off

end ConnectAll

def connectMachine (msgSize : Nat) (transport : Transport) : Machine ConnectAll ConnectEvent where
  init := .init transport
  step := ConnectAll.step msgSize

namespace ConnectAll

variable {msgSize i : Nat} {x : SysRead} {s s' : ConnectAll} {e : ConnectEvent}

inductive Poll (msgSize i : Nat) (x : SysRead) (s : ConnectAll) : ConnectAll → Prop
  | terminates (c : TransConn) :
      Poll msgSize i x s { s.setConn i c with pc := .terminated }
  | silent (c : TransConn) : Poll msgSize i x s { s.setConn i c with pc := .conn (i + 1) }
  | counts (c : TransConn) {msg : Msg} (hmsg : s.message msgSize i x = some msg)
      (hcon : msg.type = .con) :
      Poll msgSize i x s
        { s.setConn i c with
          connected := s.connected + 1
          pc := .conn (i + 1)
          delivered := update s.delivered i (s.delivered i + 1) }

theorem poll_cases (h : s.poll msgSize i x = some s') : Poll msgSize i x s s' := by
  obtain ⟨⟨c, r⟩, hread, h⟩ := Option.bind_eq_some_iff.mp h
  by_cases hret : r.ret = .enone
  · simp only [hret, ne_eq, not_true_eq_false, if_false, Option.map_eq_some_iff] at h
    obtain ⟨data, hdata, rfl⟩ := h
    have hmsg : s.message msgSize i x = some (Msg.read c.buffer data.off) := by
      simp only [message, hread, Option.bind_some, hret, ne_eq, not_true_eq_false, if_false, hdata,
        Option.map_some]
    split
    · exact .terminates c
    · split
      next hcon => exact .counts _ hmsg hcon
      next => exact .terminates c
  · simp only [ne_eq, hret, not_false_eq_true, if_true, Option.some.injEq] at h
    subst h
    exact .silent c

inductive Step (msgSize : Nat) (s : ConnectAll) : ConnectEvent → ConnectAll → Prop
  | enter (hpc : s.pc = .loop) (hlt : s.connected < s.clientCount) :
      Step msgSize s .test { s with pc := .conn 0 }
  | returns (hpc : s.pc = .loop) (hle : s.clientCount ≤ s.connected) :
      Step msgSize s .test { s with pc := .returned }
  | again {i : Nat} (hpc : s.pc = .conn i) (hle : s.clientCount ≤ i) :
      Step msgSize s .test { s with pc := .loop }
  | pass {i : Nat} {x : SysRead} {s' : ConnectAll} (hpc : s.pc = .conn i)
      (hlt : (i : Int) < s.clientCount) (hpoll : Poll msgSize i x s s') :
      Step msgSize s (.pass x) s'

theorem step_cases (h : s.step msgSize e = some s') : Step msgSize s e s' := by
  cases e with
  | test =>
      simp only [step] at h
      split at h
      next hpc =>
        obtain rfl := Option.some.inj h
        split
        next hlt => exact .enter hpc hlt
        next hle => exact .returns hpc (by omega)
      next i hpc =>
        simp only [Option.ite_none_left_eq_some, Option.some.injEq] at h
        obtain ⟨hle, rfl⟩ := h
        exact .again hpc (by omega)
      next => simp at h
  | pass x =>
      simp only [step] at h
      split at h
      next i hpc =>
        obtain ⟨hlt, hpoll⟩ := Option.ite_none_right_eq_some.mp h
        exact .pass hpc hlt (poll_cases hpoll)
      next => simp at h

theorem doconnect_transport (trans : Trans) : trans.doconnect.1.transport = trans.transport := by
  simp only [Trans.doconnect]
  cases trans.transport.type with
  | udpLn | rdpLn | udpQj => cases trans.transport.server <;> rfl
  | tcpLn => rfl

theorem setConn_transport (s : ConnectAll) (i : Nat) (c : TransConn) :
    (s.setConn i c).trans.transport = s.trans.transport := by
  show (s.connect i).1.transport = _
  unfold connect
  split
  · rfl
  · exact doconnect_transport s.trans

theorem Step.transport (hs : Step msgSize s e s') : s'.trans.transport = s.trans.transport := by
  cases hs with
  | enter | returns | again => rfl
  | pass _ _ hpoll =>
      cases hpoll with
      | terminates c | silent c | counts c => exact s.setConn_transport _ c

def AllDelivered (count : Int) (delivered : Nat → Nat) : Prop :=
  ∀ i < count.toNat, 1 ≤ delivered i

instance (count : Int) (delivered : Nat → Nat) : Decidable (AllDelivered count delivered) := by
  unfold AllDelivered
  infer_instance

def ConnectsOnce (msgSize : Nat) (s : ConnectAll) : ConnectEvent → Prop
  | .test => True
  | .pass x =>
      match s.pc with
      | .conn i => (s.message msgSize i x).map Msg.type = some .con →
          s.delivered i = 0 ∨ AllDelivered s.clientCount s.delivered
      | _ => True

instance (s : ConnectAll) (e : ConnectEvent) : Decidable (s.ConnectsOnce msgSize e) := by
  cases e with
  | test => exact isTrue trivial
  | pass x =>
      unfold ConnectsOnce
      cases s.pc <;> infer_instance

def heard (count : Int) (delivered : Nat → Nat) : Finset Nat :=
  (Finset.range count.toNat).filter fun i => delivered i ≠ 0

theorem le_update_succ (delivered : Nat → Nat) (i j : Nat) :
    delivered j ≤ update delivered i (delivered i + 1) j := by
  by_cases hji : j = i
  · simp [hji]
  · rw [Function.update_of_ne hji]

theorem card_heard_update {count : Int} {delivered : Nat → Nat} (hlt : (i : Int) < count)
    (hnone : delivered i = 0) : (heard count delivered).card + 1 ≤
      (heard count (update delivered i (delivered i + 1))).card := by
  have hnot : i ∉ heard count delivered := by simp [heard, hnone]
  rw [← Finset.card_insert_of_notMem hnot]
  apply Finset.card_le_card
  intro j hj
  rcases Finset.mem_insert.mp hj with rfl | hj
  · exact Finset.mem_filter.mpr ⟨Finset.mem_range.mpr (by omega), by simp⟩
  · obtain ⟨hrange, hne⟩ := Finset.mem_filter.mp hj
    refine Finset.mem_filter.mpr ⟨hrange, ?_⟩
    by_cases hji : j = i
    · simp [hji]
    · rwa [Function.update_of_ne hji]

theorem allDelivered_of_card {count : Int} {delivered : Nat → Nat}
    (h : count ≤ (heard count delivered).card) : AllDelivered count delivered := by
  intro i hi
  have hle := Finset.card_filter_le (Finset.range count.toNat) fun i => delivered i ≠ 0
  have hall := Finset.filter_card_eq (show (heard count delivered).card =
    (Finset.range count.toNat).card by
      unfold heard at h ⊢
      rw [Finset.card_range] at hle ⊢
      omega)
  exact Nat.one_le_iff_ne_zero.mpr (hall i (Finset.mem_range.mpr hi))

-- Until every connection was heard, the messages that were counted came from as many
-- connections.
structure Counted (s : ConnectAll) : Prop where
  count : AllDelivered s.clientCount s.delivered ∨
    s.connected ≤ (heard s.clientCount s.delivered).card
  returned : s.pc = .returned → s.clientCount ≤ s.connected

theorem Counted.step (h : s.Counted) (hok : s.ConnectsOnce msgSize e) (hs : Step msgSize s e s') :
    s'.Counted := by
  have hsame : s'.clientCount = s.clientCount := congrArg Transport.clientCount hs.transport
  cases hs with
  | enter | again => exact ⟨h.count, by simp⟩
  | returns _ hle => exact ⟨h.count, fun _ => hle⟩
  | @pass i x _ hpc hlt hpoll =>
      cases hpoll with
      | terminates c | silent c =>
          refine ⟨?_, by simp⟩
          rw [hsame]
          exact h.count
      | counts c hmsg hcon =>
          refine ⟨?_, by simp⟩
          rw [hsame]
          simp only [ConnectsOnce, hpc, hmsg, Option.map_some, hcon, true_imp_iff] at hok
          have hor : AllDelivered s.clientCount s.delivered ∨
              s.delivered i = 0 ∧ s.connected ≤ (heard s.clientCount s.delivered).card := by
            rcases h.count with hall | hcard
            · exact .inl hall
            · exact hok.symm.imp_right fun hnone => ⟨hnone, hcard⟩
          rcases hor with hall | ⟨hnone, hcard⟩
          · exact .inl fun j hj => (hall j hj).trans (le_update_succ s.delivered i j)
          · have hmore := card_heard_update hlt hnone
            refine .inr ?_
            show s.connected + 1 ≤
              (heard s.clientCount (update s.delivered i (s.delivered i + 1))).card
            omega

end ConnectAll

variable {msgSize : Nat} {transport : Transport} {s : ConnectAll}

-- In every run in which no connection delivers a second connect message while another
-- one has delivered none, `do_connectall` returns only when every connection has
-- delivered a connect message.
theorem connectall_returns
    (h : (connectMachine msgSize transport).Reachable (ConnectAll.ConnectsOnce msgSize) s)
    (hret : s.pc = .returned) : ∀ i : Nat, (i : Int) < transport.clientCount →
      1 ≤ s.delivered i := by
  have hcounted : s.trans.transport = transport ∧ s.Counted := by
    apply h.invariant (P := fun s => s.trans.transport = transport ∧ s.Counted)
    · exact ⟨rfl, .inr (by simp [connectMachine, ConnectAll.init]),
        by simp [connectMachine, ConnectAll.init]⟩
    · intro s e s' _ ⟨htransport, hcounted⟩ hok hs
      have hstep := ConnectAll.step_cases hs
      exact ⟨hstep.transport.trans htransport, hcounted.step hok hstep⟩
  obtain ⟨rfl, hcount, hreturned⟩ := hcounted
  have hall : ConnectAll.AllDelivered s.clientCount s.delivered := by
    rcases hcount with hall | hcard
    · exact hall
    · exact ConnectAll.allDelivered_of_card ((hreturned hret).trans hcard)
  intro i hi
  exact hall i (by rw [ConnectAll.clientCount]; omega)

def connectBytes : List UInt8 := [6, 0, 1, 0, 0, 0, 0, 0, 0, 0, 0, 0, 0, 0, 0, 0]

def udpServer (clientCount : Int) : Transport := ⟨.udpLn, 7331, true, clientCount, -1⟩

-- Two clients connect one after the other.
theorem connectall_returns_two : ∃ s,
    (connectMachine 16 (udpServer 2)).Reachable (ConnectAll.ConnectsOnce 16) s ∧
    s.pc = .returned ∧ 1 ≤ s.delivered 0 ∧ 1 ≤ s.delivered 1 := by
  obtain ⟨s, hrun, hpc⟩ := (connectMachine 16 (udpServer 2)).exists_run_of_eval
    (ConnectAll.ConnectsOnce 16)
    [.test, .pass (.bytes connectBytes), .pass (.bytes connectBytes), .test, .test]
    (fun s => decide (s.pc = .returned)) (by decide +kernel)
  have hret := of_decide_eq_true hpc
  exact ⟨s, hrun.reachable, hret, connectall_returns hrun.reachable hret 0 (by decide),
    connectall_returns hrun.reachable hret 1 (by decide)⟩

-- The network duplicates the connect message of client 1, and `do_connectall` returns
-- without client 2.
theorem connectall_duplicate : ∃ s,
    (connectMachine 16 (udpServer 2)).Reachable Machine.always s ∧
    s.pc = .returned ∧ s.delivered 1 = 0 := by
  obtain ⟨s, hrun, hs⟩ := (connectMachine 16 (udpServer 2)).exists_run_of_eval Machine.always
    [.test, .pass (.bytes connectBytes), .pass .again, .test, .test,
      .pass (.bytes connectBytes), .pass .again, .test, .test]
    (fun s => decide (s.pc = .returned ∧ s.delivered 1 = 0)) (by decide +kernel)
  obtain ⟨hret, hnone⟩ := of_decide_eq_true hs
  exact ⟨s, hrun.reachable, hret, hnone⟩

end Q2pc
