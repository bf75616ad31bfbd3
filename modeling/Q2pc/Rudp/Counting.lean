import Q2pc.Rudp.Abandoned
import Q2pc.Rudp.Copies
import Q2pc.Rudp.Statistics

namespace Q2pc

open Function (update)

variable {C : Cluster} {s s' : RudpSystem} {i w : Nat} {e : RudpEvent} {x : Stat}

-- The connections of a system are runs of the protocol of two ends.
def RudpSystem.ConnsReachable (s : RudpSystem) : Prop :=
  ∀ i, rudpMachine.Reachable RudpConn.protocol (s.conn i)

theorem RudpSystem.ConnsReachable.connStep (h : s.ConnsReachable) (hs : s.connStep i e = some s')
    (hp : (s.conn i).protocol e) : s'.ConnsReachable := by
  obtain ⟨c, hc, rfl⟩ := Option.map_eq_some_iff.mp hs
  intro j
  show rudpMachine.Reachable RudpConn.protocol (update s.conn i c j)
  by_cases hji : j = i
  · subst hji
    rw [Function.update_self]
    exact (h j).step hp hc
  · rw [Function.update_of_ne hji]
    exact h j

-- The master writes when it may, and calls `end_write` for what it has written.
theorem RudpInv.protocol {srv : Server} {event : Event} (h : RudpInv C s) (hup : s.up = true)
    (hqj : C.cfg.transType ≠ .udpQj) (hs : s.srv.step C.cfg event = some srv)
    (he : event.onConn = some (i, e)) : (s.conn i).protocol e := by
  have haligned := h.aligned hup
  rcases step_cases hs with hm | ⟨w, -, hm⟩
  · cases hm with
    | begWrite hpc _ =>
        cases he
        simp only [Aligned, hpc] at haligned
        obtain ⟨hi, hready, -⟩ := haligned
        exact ⟨hready.1, h.connected hup i hi⟩
    | endWrite hpc =>
        cases he
        simp only [Aligned, hpc] at haligned
        exact haligned.2.1
    | endWriteRet hpc =>
        cases he
        trivial
    | broadcastBegWrite _ htype => exact absurd htype hqj
    | _ => simp [Event.onConn] at he
  · cases hm with
    | endRead hpc =>
        cases he
        trivial
    | _ => simp [Event.onConn] at he

theorem RudpSystem.ConnsReachable.step {event : RudpSysEvent} (h : s.ConnsReachable)
    (hinv : RudpInv C s) (hqj : C.cfg.transType ≠ .udpQj) (hs : s.step C event = some s') :
    s'.ConnsReachable := by
  cases event <;> simp only [RudpSystem.step, Option.ite_none_right_eq_some] at hs
  case connect i x =>
      obtain ⟨u, hu, hs⟩ := Option.bind_eq_some_iff.mp hs.2
      have hread := h.connStep hu trivial
      split at hs
      · split at hs
        · obtain ⟨v, hv, hs⟩ := Option.bind_eq_some_iff.mp hs
          have hconns := hread.connStep hv trivial
          cases hs
          exact hconns
        · cases hs
          exact hread
      · cases hs
        exact hread
  case start =>
      cases hs.2
      exact h
  case server event =>
      obtain ⟨⟨hup, -⟩, hs⟩ := hs
      obtain ⟨srv, hsrv, hs⟩ := Option.bind_eq_some_iff.mp hs
      split at hs
      · rename_i i e he
        obtain ⟨u, hu, hs⟩ := Option.bind_eq_some_iff.mp hs
        have hconns := h.connStep hu (hinv.protocol hup hqj hsrv he)
        cases hs
        exact hconns
      · cases hs
        exact h
  case endWrite i e => exact h.connStep hs.2 trivial
  case begRead w i x =>
      obtain ⟨srv, -, hs⟩ := Option.bind_eq_some_iff.mp hs.2
      obtain ⟨u, hu, hs⟩ := Option.bind_eq_some_iff.mp hs
      have hconns := h.connStep hu trivial
      cases hs
      exact hconns
  case clientInit i => exact h.connStep hs.2 trivial
  case clientEndWrite i e => exact h.connStep hs.2 trivial
  case receive i x =>
      obtain ⟨u, hu, hs⟩ := Option.bind_eq_some_iff.mp hs.2
      have hread := h.connStep hu trivial
      split at hs
      · obtain ⟨client, -, hs⟩ := Option.bind_eq_some_iff.mp hs
        cases hs
        exact hread
      · cases hs
        exact hread
  case respond i =>
      obtain ⟨⟨client, response⟩, -, hs⟩ := Option.bind_eq_some_iff.mp hs.2
      obtain ⟨u, hu, hs⟩ := Option.bind_eq_some_iff.mp hs
      have hconns : u.ConnsReachable := by
        cases response with
        | some p => exact h.connStep hu trivial
        | none => exact h.connStep hu trivial
      cases hs
      exact hconns
  case quit i => exact h.connStep hs.2 trivial

theorem connsReachable_of_reachable (hqj : C.cfg.transType ≠ .udpQj)
    (h : (rudpSystem C).Reachable Machine.always s) : s.ConnsReachable := by
  apply h.invariant (fun _ => .init)
  intro s event s' hreach ih _ hs
  exact ih.step (rudpInv_of_reachable hqj hreach) hqj hs

theorem Session.server_rto {id : Int} {c : RudpConn} {cl : Client} (h : Session id c cl) :
    ∀ (k : Nat) (p : Packet), c.server.wrote[k]? = some p → p.msg.rto false = 0 :=
  fun k p hp => (h.requests k p hp).2.2.1

theorem Session.client_rto {id : Int} {c : RudpConn} {cl : Client} (h : Session id c cl)
    (hok : c.Ok) : ∀ (k : Nat) (p : Packet), c.client.wrote[k]? = some p → p.msg.rto true = 0 := by
  intro k p hp
  cases k with
  | zero =>
      rw [h.connect p hp]
      rfl
  | succ k =>
      obtain ⟨got, hgot, hanswers⟩ := h.responses k p hp
      have haccepted : c.client.accepted[k]? = some got := by
        obtain ⟨hlt, rfl⟩ := List.getElem?_eq_some_iff.mp hgot
        exact List.prefix_iff_getElem?.mp hok.client.got_prefix k hlt
      obtain ⟨request, hrequest, hsame⟩ := hok.link.clientHeard.get haccepted
      have hrto : request.msg.cRto = got.msg.cRto := hsame.2
      show p.msg.cRto = 0
      rw [hanswers.cRto, ← hrto, (h.requests k request hrequest).2.1]

-- The `k`-th retransmission counts exactly as long as an i16 does.
def Rudp.CountsCopies (isServer : Bool) (c : Rudp) : Prop :=
  ∀ (n : Int) (k : Nat) (first p : Packet), (c.copies n)[0]? = some first →
    (c.copies n)[k]? = some p → (Packet.Counts isServer k first p ↔ k ≤ 32767)

-- A value recorded of the copy `p` is neither negative nor below the number of
-- retransmissions, exactly as long as an i16 counts them.
def Recorded (copies : List Packet) (p : Packet) (rtos : Int) : Prop :=
  p ∈ copies ∧ ∀ k : Nat, copies[k]? = some p → (0 ≤ rtos ∧ k ≤ rtos ↔ k ≤ 32767)

section Copies

variable {c : Rudp} {isServer : Bool}

theorem Rudp.SentCopies.countsCopies (h : c.SentCopies) (hrole : c.isServer = isServer)
    (hzero : ∀ (k : Nat) (p : Packet), c.wrote[k]? = some p → p.msg.rto isServer = 0) :
    c.CountsCopies isServer := by
  subst hrole
  intro n k first p hfirst hp
  obtain ⟨j, w, rfl, hw, rfl⟩ := h n 0 first hfirst
  obtain ⟨j', w', hj, hw', rfl⟩ := h j k p hp
  obtain rfl : j = j' := Int.ofNat_inj.mp hj
  obtain rfl := Option.some.inj (hw.symm.trans hw')
  exact Packet.counts_iff (hzero j _ hw)

theorem Rudp.SentCopies.recorded {n : Int} {p : Packet} (h : c.SentCopies)
    (hrole : c.isServer = isServer)
    (hzero : ∀ (k : Nat) (p : Packet), c.wrote[k]? = some p → p.msg.rto isServer = 0)
    (hp : p ∈ c.copies n) : Recorded (c.copies n) p (p.msg.rto isServer) := by
  subst hrole
  refine ⟨hp, fun k hk => ?_⟩
  obtain ⟨j, w, -, hw, rfl⟩ := h n k p hk
  exact Packet.own_ge_iff (hzero j w hw) k

end Copies

-- The copies of the request and of the response that a record is about, and what it says
-- of their retransmissions.
def Stat.Recorded (s : RudpSystem) (i : Nat) (x : Stat) : Prop :=
  ∃ request response : Packet,
    (s.conn i).client.accepted[x.stage]? = some request ∧
    (s.conn i).server.accepted[x.stage + 1]? = some response ∧
    Q2pc.Recorded ((s.conn i).server.copies x.stage) request x.sRtos ∧
    Q2pc.Recorded ((s.conn i).client.copies ((x.stage + 1 : Nat) : Int)) response x.cRtos

theorem RudpInv.recorded {p : Packet} (h : RudpInv C s) (hi : i < C.cfg.clientCount)
    (hcopied : (s.conn i).Copied) (hp : (s.conn i).server.accepted[x.stage + 1]? = some p)
    (hx : x.Of p) : x.Recorded s i := by
  obtain ⟨hok, hsession, -⟩ := h.conn i hi
  obtain ⟨-, got, response, -, hgot, -, -, hanswers, hsame⟩ := hsession.heard hok hp
  obtain ⟨-, hc, hs, -, -, -⟩ := hx
  have hrto : response.msg.sRto = p.msg.sRto := hsame.2
  refine ⟨got, p, hgot, hp, ?_, ?_⟩
  · rw [hs, ← hrto, hanswers.sRto]
    exact hcopied.serverSent.recorded hok.link.serverRole hsession.server_rto
      (hcopied.clientHeard _ got hgot)
  · rw [hc]
    exact hcopied.clientSent.recorded hok.link.clientRole (hsession.client_rto hok)
      (hcopied.serverHeard _ p hp)

-- The retransmissions of a message are counted in its copies and in the records up to
-- 32767, and no further.
theorem retransmissions_counted_iff (hrdp : C.cfg.transType = .rdpLn)
    (h : (rudpSystem C).Reachable Machine.always s) :
    (∀ i < C.cfg.clientCount, (s.conn i).server.CountsCopies false ∧
      (s.conn i).client.CountsCopies true) ∧
    ∀ w < C.cfg.threadCount, ∀ x ∈ (s.srv.workers w).stats,
      ∃ i < C.cfg.clientCount, x.clientId = C.peer i + 1 ∧ x.Recorded s i := by
  have hqj : C.cfg.transType ≠ .udpQj := by simp [hrdp]
  have hinv := rudpInv_of_reachable hqj h
  have hcopied := fun i => RudpConn.copied_of_reachable (connsReachable_of_reachable hqj h i)
  constructor
  · intro i hi
    obtain ⟨hok, hsession, -⟩ := hinv.conn i hi
    exact ⟨(hcopied i).serverSent.countsCopies hok.link.serverRole hsession.server_rto,
      (hcopied i).clientSent.countsCopies hok.link.clientRole (hsession.client_rto hok)⟩
  · intro w hw x hx
    cases hup : s.up with
    | false =>
        obtain ⟨hsrv, -, -⟩ := hinv.connecting hup
        simp [hsrv, Server.init] at hx
    | true =>
        obtain ⟨i, p, hown, hid, hp, hof⟩ := (hinv.records hup w hw).records x hx
        have hi := lt_clientCount hw hown.2
        exact ⟨i, hi, hid, hinv.recorded hi (hcopied i) hp hof⟩

theorem retransmissions_counted_iff_one : ∃ s : RudpSystem,
    (rudpSystem (.oneThread .rdpLn 1 100 1 (by decide) (by decide))).Reachable Machine.always s ∧
    (s.conn 0).server.copies 0 =
      [⟨requestMsg .request 7, 0⟩, ⟨{ requestMsg .request 7 with sRto := 1 }, 0⟩] ∧
    (s.srv.workers 0).stats.map (fun x => x.sRtos) = [1] ∧
    (s.conn 0).server.CountsCopies false ∧ (s.conn 0).client.CountsCopies true ∧
    ∀ x ∈ (s.srv.workers 0).stats, x.Recorded s 0 := by
  let C : Cluster := .oneThread .rdpLn 1 100 1 (by decide) (by decide)
  obtain ⟨s, hrun, hs⟩ := Machine.exists_run_of_eval (rudpSystem C) Machine.always
    (voteOnceEvents ++ recordVoteEvents)
    (fun s => (s.conn 0).server.copies 0 ==
      [⟨requestMsg .request 7, 0⟩, ⟨{ requestMsg .request 7 with sRto := 1 }, 0⟩] &&
      (s.srv.workers 0).stats.map (fun x => x.sRtos) == [1]) (by decide +kernel)
  simp only [Bool.and_eq_true, beq_iff_eq] at hs
  obtain ⟨hcopies, hrecords⟩ := retransmissions_counted_iff (C := C) rfl hrun.reachable
  obtain ⟨hserver, hclient⟩ := hcopies 0 (by decide)
  refine ⟨s, hrun.reachable, hs.1, hs.2, hserver, hclient, fun x hx => ?_⟩
  obtain ⟨i, hi, -, hrecorded⟩ := hrecords 0 (by decide) x hx
  obtain rfl : i = 0 := Nat.lt_one_iff.mp hi
  exact hrecorded

private theorem eval_clientSteps {c : RudpConn} (es : List EndWriteEvent)
    (hi : i < C.cfg.clientCount)
    (h : rudpMachine.evalFrom RudpConn.protocol (s.conn i) (es.map .clientStep) = some c) :
    (rudpSystem C).evalFrom Machine.always s (es.map (.clientEndWrite i)) =
      some { s with conn := update s.conn i c } := by
  induction es generalizing s with
  | nil =>
      obtain rfl : s.conn i = c := Option.some.inj h
      rw [Function.update_eq_self]
      rfl
  | cons e es ih =>
      simp only [List.map_cons, Machine.evalFrom, Option.ite_none_right_eq_some] at h
      obtain ⟨c₁, hc₁, h⟩ := Option.bind_eq_some_iff.mp h.2
      have hstep : (rudpSystem C).step s (.clientEndWrite i e) =
          some { s with conn := update s.conn i c₁ } := by
        show (if i < C.cfg.clientCount then s.connStep i (.clientStep e) else none) = _
        rw [if_pos hi]
        exact Option.map_eq_some_iff.mpr ⟨c₁, hc₁, rfl⟩
      have hrest := ih (s := { s with conn := update s.conn i c₁ })
        (by simpa only [Function.update_self] using h)
      simp only [Function.update_idem] at hrest
      rw [List.map_cons, Machine.evalFrom, if_pos (show Machine.always s _ from trivial), hstep,
        Option.bind_some, hrest]

-- One pass of the loop of `send_response`, in which the timer fires.
def clientPass : List EndWriteEvent :=
  [.go, .read .eagain, .go, .clock true, .base true, .go]

private theorem eval_clientPasses {k n : Nat} (h : Retrying (s.conn i) 0)
    (hi : i < C.cfg.clientCount) (hn : (s.conn i).client.writeSeq = n) (hk : k < rtosMax) :
    ∃ s', (rudpSystem C).evalFrom Machine.always s
        ((List.replicate k clientPass).flatten.map (.clientEndWrite i)) = some s' ∧
      ((s'.conn i).client.copies n).length = ((s.conn i).client.copies n).length + k := by
  have hpass : ∀ (k : Nat) (c : RudpConn), c.client.writeSeq = n ∧
      (c.client.copies n).length = ((s.conn i).client.copies n).length + k →
      (c.afterPass k).client.writeSeq = n ∧ ((c.afterPass k).client.copies n).length =
        ((s.conn i).client.copies n).length + (k + 1) := by
    rintro k c ⟨hseq, hlen⟩
    have hcopies : (c.afterPass k).client.copies n =
        c.client.copies n ++ [c.client.bumpRto.writeData] := by
      rw [← hseq]
      exact c.client.bumpRto.copies_transmit_self
    refine ⟨hseq, ?_⟩
    rw [hcopies, List.length_append, hlen, List.length_singleton, Nat.add_assoc]
  obtain ⟨c, heval, -, -, hlen⟩ := h.eval_passes (P := fun k c => c.client.writeSeq = n ∧
    (c.client.copies n).length = ((s.conn i).client.copies n).length + k) ⟨hn, rfl⟩ hpass hk
  refine ⟨{ s with conn := update s.conn i c }, eval_clientSteps _ hi ?_, ?_⟩
  · rw [List.map_flatten, List.map_replicate]
    exact heval
  · simp only [Function.update_self]
    exact hlen

-- The network loses the vote of the client 32768 times, which its loop allows. The next
-- copy says that it was retransmitted -32768 times.
theorem retransmissions_miscounted : 32768 < rtosMax ∧ ∃ (s : RudpSystem) (first p : Packet),
    (rudpSystem (.oneThread .rdpLn 1 100 1 (by decide) (by decide))).Reachable Machine.always s ∧
    ((s.conn 0).client.copies 1)[0]? = some first ∧
    ((s.conn 0).client.copies 1)[32768]? = some p ∧ first.msg.cRto = 0 ∧ p.msg.cRto = -32768 ∧
    ¬Packet.Counts true 32768 first p := by
  refine ⟨by decide, ?_⟩
  let C : Cluster := .oneThread .rdpLn 1 100 1 (by decide) (by decide)
  obtain ⟨s, hrun, hs⟩ := Machine.exists_run_of_eval (rudpSystem C) Machine.always
    (voteOnceEvents ++ [.clientEndWrite 0 .go, .clientEndWrite 0 (.read .eagain),
      .clientEndWrite 0 .go, .clientEndWrite 0 (.clock false), .clientEndWrite 0 .go])
    (fun s => decide ((s.conn 0).clientPc = .respond 0 .entry ∧ (s.conn 0).client.isServer = true ∧
      (s.conn 0).client.readData = none ∧ (s.conn 0).client.ackOutstanding = true ∧
      (s.conn 0).client.currentSeq = (s.conn 0).client.seqNo ∧ (s.conn 0).client.writeSeq = 1 ∧
      ((s.conn 0).client.copies 1).length = 1)) (by decide +kernel)
  obtain ⟨hpc, hrole, hidle, hack, hsame, hseq, hone⟩ := of_decide_eq_true hs
  obtain ⟨t, heval, hlen⟩ := eval_clientPasses (C := C) (k := 32768) (n := 1)
    ⟨hpc, hrole, hidle, hack, hsame⟩ (by decide) hseq (by decide)
  have hreach := (Machine.run_of_evalFrom hrun heval).reachable
  have hqj : C.cfg.transType ≠ .udpQj := by decide
  obtain ⟨hok, hsession, -⟩ := (rudpInv_of_reachable hqj hreach).conn 0 (by decide)
  have hcopied := RudpConn.copied_of_reachable (connsReachable_of_reachable hqj hreach 0)
  have hlen' : ((t.conn 0).client.copies 1).length = 32769 := by
    have hone' : ((s.conn 0).client.copies ((1 : Nat) : Int)).length = 1 := hone
    rw [hone'] at hlen
    exact hlen
  have hfirst := List.getElem?_eq_getElem (show 0 < ((t.conn 0).client.copies 1).length by omega)
  have hlast := List.getElem?_eq_getElem (show 32768 < ((t.conn 0).client.copies 1).length by omega)
  generalize ((t.conn 0).client.copies 1)[0] = first at hfirst
  generalize ((t.conn 0).client.copies 1)[32768] = p at hlast
  obtain ⟨j, w, hj, hw, hcopy⟩ := hcopied.clientSent 1 0 first hfirst
  obtain ⟨j', w', hj', hw', hcopy'⟩ := hcopied.clientSent 1 32768 p hlast
  obtain rfl : j = j' := by omega
  obtain rfl := Option.some.inj (hw.symm.trans hw')
  rw [hok.link.clientRole] at hcopy hcopy'
  have hzero : w.msg.rto true = 0 := hsession.client_rto hok j w hw
  have hp : p.msg.rto true = -32768 := by
    rw [hcopy', Packet.own_iterate_zero hzero]
    rfl
  refine ⟨t, first, p, hreach, hfirst, hlast, ?_, hp, fun hcounts => ?_⟩
  · rw [hcopy]
    exact hzero
  · have hown := hcounts.own
    rw [hp, hcopy, Function.iterate_zero_apply, hzero] at hown
    simp at hown

end Q2pc
