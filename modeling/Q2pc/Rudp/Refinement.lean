import Q2pc.Rudp.Mirror
import Q2pc.Rudp.Passes
import Q2pc.Rudp.Statistics

namespace Q2pc

open Function (update)

variable {C : Cluster} {s s' : RudpSystem} {a : System} {q : Nat → Nat} {i w : Nat}
  {c : RudpConn} {x : BaseRead} {e : Event}

def written (conn : Nat → RudpConn) (i : Nat) : Nat := (conn i).server.wrote.length

-- The cluster `a` over connections that deliver every message once and in order follows the
-- cluster `s` over RUDP, of which `q i` messages are passed to `end_write` on connection `i`.
structure Follows (C : Cluster) (q : Nat → Nat) (s : RudpSystem) (a : System) : Prop where
  up : s.up = true
  srv : ∃ v, a.srv = s.srv.view v ∧ Passes C.cfg.clientCount s.srv (written s.conn) q v
  conn : ∀ i < C.cfg.clientCount, Mirror (s.conn i) (q i) a.net i
  client : ∀ i, a.client i = (s.client i).plain

-- Until `do_connectall` has returned the other cluster waits, its clients connected.
def Implements (C : Cluster) (s : RudpSystem) (a : System) : Prop :=
  (s.up = false ∧ a = .init C ∧ s.client = (System.init C).client) ∨ ∃ q, Follows C q s a

theorem written_update (conn : Nat → RudpConn) (i : Nat) (c : RudpConn) :
    written (update conn i c) = update (written conn) i c.server.wrote.length :=
  funext fun j => Function.apply_update (fun _ c => c.server.wrote.length) conn i c j

theorem written_same {conn : Nat → RudpConn}
    (h : c.server.wrote.length = (conn i).server.wrote.length) :
    written (update conn i c) = written conn := by
  rw [written_update, h]
  exact Function.update_eq_self i (written conn)

private theorem Follows.mirrors {conn : Nat → RudpConn} {net net' : Net} {q' : Nat → Nat}
    (h : ∀ j < C.cfg.clientCount, Mirror (conn j) (q j) net j)
    (hmirror : i < C.cfg.clientCount → Mirror c (q' i) net' i)
    (hq : ∀ j, j ≠ i → q' j = q j) (hnet : ∀ j, j ≠ i → net.SameAt net' j) :
    ∀ j < C.cfg.clientCount, Mirror (update conn i c j) (q' j) net' j := by
  intro j hj
  by_cases hji : j = i
  · subst hji
    rw [Function.update_self]
    exact hmirror hj
  · rw [Function.update_of_ne hji, hq j hji]
    exact (h j hj).congr (hnet j hji)

-- A step that is none to the threads of the server, between the steps of its calls.
private theorem Follows.quiet {client : Nat → Client} {net : Net} {client' : Nat → Client}
    (h : Follows C q s a) (hmirror : i < C.cfg.clientCount → Mirror c (q i) net i)
    (hnet : ∀ j, j ≠ i → a.net.SameAt net j)
    (hlen : c.server.wrote.length = (s.conn i).server.wrote.length)
    (hclient : ∀ j, client' j = (client j).plain) :
    Follows C q { s with conn := update s.conn i c, client } { a with net, client := client' } where
  up := h.up
  srv := by
    simp only [written_same hlen]
    exact h.srv
  conn := Follows.mirrors h.conn hmirror (fun _ _ => rfl) hnet
  client := hclient

private theorem Follows.stutter (h : Follows C q s a)
    (hmirror : i < C.cfg.clientCount → Mirror c (q i) a.net i)
    (hlen : c.server.wrote.length = (s.conn i).server.wrote.length) :
    Follows C q { s with conn := update s.conn i c } a :=
  h.quiet hmirror (fun j _ => .refl _ j) hlen h.client

private theorem plain_update {client client' : Nat → Client} {cl : Client}
    (h : ∀ j, client' j = (client j).plain) (i j : Nat) :
    update client' i cl.plain j = (update client i cl j).plain := by
  by_cases hji : j = i
  · subst hji
    simp
  · simp [hji, h]

private theorem RudpInv.ok (hinv : RudpInv C s) (hi : i < C.cfg.clientCount) : (s.conn i).Ok :=
  (hinv.conn i hi).ok

private theorem Follows.receive (h : Follows C q s a) (hinv : RudpInv C s)
    (hi : i < C.cfg.clientCount) (hs : s.receive i x = some s') :
    ∃ b, (systemMachine C).Steps (fun _ e => e.reliable) a b ∧ Follows C q s' b := by
  unfold RudpSystem.receive at hs
  obtain ⟨u, hu, hs⟩ := Option.bind_eq_some_iff.mp hs
  obtain ⟨c, hstep, rfl⟩ := connStep_cases hu
  have hok := hinv.ok hi
  have hx : x.from (s.conn i).server := by
    cases hstep <;> assumption
  have hlen : c.server.wrote.length = (s.conn i).server.wrote.length := by
    cases hstep <;> rfl
  split at hs
  · rename_i p hdata
    obtain ⟨cl, hcl, hs⟩ := Option.bind_eq_some_iff.mp hs
    cases hs
    obtain ⟨rest, htoClient, hmirror⟩ := (h.conn i hi).clientGet hok hx hstep hdata
    refine ⟨_, .one (e := .receive i) trivial ?_,
      h.quiet (fun _ => hmirror) (fun j hj => ⟨by simp [hj], rfl, rfl, rfl, fun _ h => h⟩) hlen
        (plain_update h.client i)⟩
    have hreceive := Client.plain_receive hcl
    rw [← h.client i] at hreceive
    simp [systemMachine, System.step, htoClient, hi, hreceive]
  · rename_i hnone
    cases hs
    exact ⟨a, .refl, h.stutter (fun _ => (h.conn i hi).clientNone hok hstep hnone) hlen⟩

private theorem Follows.respond (h : Follows C q s a) (hinv : RudpInv C s)
    (hi : i < C.cfg.clientCount) (hs : s.respond i = some s') :
    ∃ b, (systemMachine C).Steps (fun _ e => e.reliable) a b ∧ Follows C q s' b := by
  unfold RudpSystem.respond at hs
  obtain ⟨⟨cl, response⟩, hcl, hs⟩ := Option.bind_eq_some_iff.mp hs
  obtain ⟨u, hu, hs⟩ := Option.bind_eq_some_iff.mp hs
  cases hs
  obtain ⟨c, hstep, rfl⟩ := connStep_cases hu
  have hrespond := Client.plain_respond hcl
  rw [← h.client i] at hrespond
  let net : Net := { a.net with
    toServer := update a.net.toServer i (a.net.toServer i ++ (response.map Packet.plain).toList) }
  have hrespond' : (systemMachine C).step a (.respond i) =
      some { a with net, client := update a.client i cl.plain } := by
    simp [systemMachine, System.step, hi, hrespond, net]
  have hother : ∀ j, j ≠ i → a.net.SameAt net j :=
    fun j hj => ⟨rfl, by simp [net, hj], rfl, rfl, fun _ h => h⟩
  refine ⟨_, .one (e := .respond i) trivial hrespond',
    h.quiet (fun _ => ?_) hother ?_ (plain_update h.client i)⟩
  · have hmirror := h.conn i hi
    cases response with
    | some p =>
        have hok := hinv.ok hi
        cases hstep with
        | connect => exact hmirror.clientWrite hok p
        | respond => exact hmirror.clientWrite hok p
    | none =>
        cases hstep with
        | clientQuit => exact hmirror.clientQuit.congr ⟨rfl, by simp [net], rfl, rfl, fun _ h => h⟩
  · cases response <;> cases hstep <;> rfl

private theorem Follows.endWrite {x : EndWriteEvent} (h : Follows C q s a) (hinv : RudpInv C s)
    (hs : RudpStep (s.conn i) (.masterStep x) c) :
    Follows C q { s with conn := update s.conn i c } a := by
  refine h.stutter (fun hi => (h.conn i hi).masterStep (hinv.ok hi) hs) ?_
  cases hs with
  | masterStep _ hstep => exact congrArg List.length hstep.wrote_eq

private theorem Follows.clientEndWrite {x : EndWriteEvent} (h : Follows C q s a)
    (hinv : RudpInv C s) (hs : RudpStep (s.conn i) (.clientStep x) c) :
    Follows C q { s with conn := update s.conn i c } a := by
  refine h.stutter (fun hi => (h.conn i hi).clientStep (hinv.ok hi) hs) ?_
  cases hs <;> rfl

private theorem Follows.quit (h : Follows C q s a) :
    Follows C q { s with conn := update s.conn i { s.conn i with clientPc := .terminated } } a :=
  h.stutter (fun hi => (h.conn i hi).clientQuit) rfl

private theorem Follows.call {srv : Server} {v : SendView} {n : Net} {q' : Nat → Nat}
    (h : Follows C q s a)
    (hpasses : Passes C.cfg.clientCount srv (written (update s.conn i c)) q' v)
    (hmirror : i < C.cfg.clientCount → Mirror c (q' i) n i)
    (hq : ∀ j, j ≠ i → q' j = q j) (hnet : ∀ j, j ≠ i → a.net.SameAt n j) :
    Follows C q' { s with srv, conn := update s.conn i c }
      { a with srv := srv.view v, net := n } where
  up := h.up
  srv := ⟨v, rfl, hpasses⟩
  conn := Follows.mirrors h.conn hmirror hq hnet
  client := h.client

private theorem System.serverStep {srv : Server} {net : Net} (hsrv : a.srv.step C.cfg e = some srv)
    (hnet : a.net.step C.cfg e = some net) :
    (systemMachine C).Steps (fun _ e => e.reliable) a { a with srv, net } :=
  .one (e := .server e) trivial (by simp [systemMachine, System.step, hsrv, hnet])

private theorem Follows.masterCall {srv : Server} {ev : RudpEvent} (h : Follows C q s a)
    (hinv : RudpInv C s) (hqj : C.cfg.transType ≠ .udpQj)
    (hm : MasterStep C.cfg s.srv e srv) (hsrv : s.srv.step C.cfg e = some srv)
    (he : e.onConn = some (i, ev)) (hs : RudpStep (s.conn i) ev c) :
    ∃ q' b, (systemMachine C).Steps (fun _ e => e.reliable) a b ∧
      Follows C q' { s with srv, conn := update s.conn i c } b := by
  obtain ⟨v, hv, hpasses⟩ := h.srv
  have hat := hinv.aligned h.up
  cases hm with
  | @begWrite ph j ts hpc _ =>
      cases he
      simp only [Aligned, hpc] at hat
      obtain ⟨hi, hready, -⟩ := hat
      have hmirror := h.conn i hi
      have hq : q i = written s.conn i := hmirror.called (by simp [hready.1])
      obtain ⟨v', hview, hpasses'⟩ := hpasses.begWrite hpc hqj hsrv hq
      rw [← hv] at hview
      cases hs with
      | masterWrite _ =>
          refine ⟨q, _, System.serverStep hview rfl, h.call ?_
            (fun _ => hmirror.masterWrite hready.1 rfl) (fun _ _ => rfl)
            fun j hj => ⟨rfl, rfl, rfl, by simp [hj], fun _ h => h⟩⟩
          rw [written_update]
          simpa [Rudp.begWrite, written] using hpasses'
  | @endWrite ph j hpc =>
      cases he
      simp only [Aligned, hpc] at hat
      obtain ⟨hi, -, -, -⟩ := hat
      have hmirror := h.conn i hi
      cases hs with
      | masterCall _ =>
          have hsame : written (update s.conn i { s.conn i with master := .call .entry }) =
              written s.conn := written_same rfl
          rcases hpasses.endWrite hpc hi with ⟨hfresh, v', hview, hpasses'⟩ | ⟨hq, hpasses'⟩
          · have hgot : (s.conn i).clientGot.length ≤ q i :=
              (hinv.ok hi).client.got_prefix.length_le.trans hmirror.heard
            rw [← hv] at hview
            refine ⟨_, _, System.serverStep hview rfl, h.call (hsame ▸ hpasses') (fun _ => ?_)
              (fun j hj => Function.update_of_ne hj _ _) fun j hj => ?_⟩
            · rw [Function.update_self]
              exact hmirror.masterCall hqj hfresh hgot
            · exact ⟨by simp [Net.write, hqj, hj], rfl, rfl, rfl,
                fun x hx => by simp [Net.write, hx]⟩
          · refine ⟨q, a, .refl, ?_⟩
            have hcall := h.call (v := v) (n := a.net) (hsame ▸ hpasses')
              (fun _ => hmirror.masterRet hq _) (fun _ _ => rfl) fun j _ => .refl _ j
            rwa [Server.view_setMaster, ← hv] at hcall
  | @endWriteRet ph j r hpc =>
      cases he
      simp only [Aligned, hpc] at hat
      obtain ⟨hi, ⟨pc, hcall⟩, -, -⟩ := hat
      have hmirror := h.conn i hi
      have hq := hmirror.called (by simp [hcall])
      obtain ⟨v', hsteps, hpasses'⟩ := hpasses.endWriteRet hpc hqj r
      have hsteps := steps_of_still hsteps a.net a.client
      rw [← hv] at hsteps
      cases hs with
      | masterRet _ =>
          have hsame : written (update s.conn i { s.conn i with master := .afterRet r }) =
              written s.conn := written_same rfl
          exact ⟨q, _, hsteps, h.call (hsame ▸ hpasses') (fun _ => hmirror.masterRet hq _)
            (fun _ _ => rfl) fun j _ => .refl _ j⟩
  | broadcastBegWrite _ h => exact absurd h hqj
  | _ => simp [Event.onConn] at he

private theorem WorkerStep.still {srv t : Server} {cfg : Config} (h : WorkerStep cfg srv w e t)
    (he : e.onConn = none) (he' : e.isBegRead = false) : e.plain = e ∧ e.Still cfg := by
  cases h with
  | begRead => simp [Event.isBegRead] at he'
  | endRead => simp [Event.onConn] at he
  | _ => exact ⟨rfl, fun _ => rfl⟩

private theorem Passes.workerStep {srv t : Server} {cfg : Config} {n : Nat} {len q : Nat → Nat}
    {v : SendView} (h : Passes n srv len q v) (hm : WorkerStep cfg srv w e t) :
    Passes n t len q v := by
  obtain ⟨hmaster, -, -, hstop⟩ := hm.frame
  obtain ⟨hcommited, hrto⟩ := hm.commited_eq
  exact h.congr hmaster hcommited hrto hstop

private theorem Follows.server (h : Follows C q s a) (hinv : RudpInv C s)
    (hqj : C.cfg.transType ≠ .udpQj) (he : e.isBegRead = false) (hs : s.server C e = some s') :
    ∃ q' b, (systemMachine C).Steps (fun _ e => e.reliable) a b ∧ Follows C q' s' b := by
  unfold RudpSystem.server at hs
  obtain ⟨srv, hsrv, hs⟩ := Option.bind_eq_some_iff.mp hs
  obtain ⟨v, hv, hpasses⟩ := h.srv
  split at hs
  · rename_i i ev hcall
    obtain ⟨u, hu, hs⟩ := Option.bind_eq_some_iff.mp hs
    obtain ⟨c, hstep, rfl⟩ := connStep_cases hu
    cases hs
    rcases step_cases hsrv with hm | ⟨w, hw, hm⟩
    · exact h.masterCall hinv hqj hm hsrv hcall hstep
    · have hview := Server.view_workerStep (v := v) hw hm
      rw [← hv] at hview
      have hpasses' := hpasses.workerStep hm
      cases hm with
      | @endRead j p hpc =>
          cases hcall
          have hown := ((hinv.records h.up w hw).taken i p (by simp [hpc, WorkerPc.taken])).1
          have hi := lt_clientCount hw hown.2
          cases hstep with
          | workerRelease =>
              have hsame : written (update s.conn i { s.conn i with
                  server := (s.conn i).server.endRead }) = written s.conn := written_same rfl
              exact ⟨q, _, System.serverStep hview rfl, h.call (hsame ▸ hpasses')
                (fun _ => (h.conn i hi).workerRelease) (fun _ _ => rfl)
                fun j hj => ⟨rfl, rfl, by simp [hj], rfl, fun _ h => h⟩⟩
      | _ => simp [Event.onConn] at hcall
  · rename_i hcall
    cases hs
    rcases step_cases hsrv with hm | ⟨w, hw, hm⟩
    · obtain ⟨v', hsteps, hpasses'⟩ := hpasses.step hm hsrv hqj rfl C.count_pos hcall
      have hsteps := steps_of_still hsteps a.net a.client
      rw [← hv] at hsteps
      exact ⟨q, _, hsteps, h.up, ⟨v', rfl, hpasses'⟩, h.conn, h.client⟩
    · have hview := Server.view_workerStep (v := v) hw hm
      obtain ⟨hplain, hstill⟩ := hm.still hcall he
      rw [hplain, ← hv] at hview
      exact ⟨q, _, System.serverStep hview (hstill a.net), h.up, ⟨v, rfl, hpasses.workerStep hm⟩,
        h.conn, h.client⟩

private theorem Follows.begRead (h : Follows C q s a) (hinv : RudpInv C s)
    (hs : s.begRead C w i x = some s') :
    ∃ b, (systemMachine C).Steps (fun _ e => e.reliable) a b ∧ Follows C q s' b := by
  unfold RudpSystem.begRead at hs
  obtain ⟨srv, hsrv, hs⟩ := Option.bind_eq_some_iff.mp hs
  obtain ⟨u, hu, hs⟩ := Option.bind_eq_some_iff.mp hs
  obtain ⟨c, hstep, rfl⟩ := connStep_cases hu
  cases hs
  obtain ⟨v, hv, hpasses⟩ := h.srv
  rcases step_cases hsrv with hm | ⟨w', hw, hm⟩
  · cases hm
  · have hview := Server.view_workerStep (v := v) hw hm
    rw [← hv] at hview
    have hpasses' := hpasses.workerStep hm
    cases hm with
    | begRead hpc hi _ =>
        have hrecords := hinv.records h.up w hw
        have hown : C.cfg.Owns w i := ⟨hrecords.poll i hpc, hi⟩
        have hic := lt_clientCount hw hown.2
        -- the worker polls: it has released what it read before
        have hnone : (s.conn i).server.readData = none := by
          cases hread : (s.conn i).server.readData with
          | none => rfl
          | some p =>
              have := hrecords.pending i p hown hread
              simp [hpc] at this
        cases hstep with
        | workerRead hx =>
            obtain ⟨net, hnet, hmirror, hother⟩ :=
              (h.conn i hic).workerRead C.cfg (hinv.ok hic) hx hnone
            have hsame : written (update s.conn i { s.conn i with
                server := ((s.conn i).server.begRead x).1 }) = written s.conn :=
              written_same (congrArg List.length ((s.conn i).server.begRead_wrote x))
            exact ⟨_, System.serverStep hview hnet, h.call (hsame ▸ hpasses') (fun _ => hmirror)
              (fun _ _ => rfl) hother⟩

private theorem Follows.start (hinv : RudpInv C s) (hup : s.up = false)
    (hconnected : ∀ i < C.cfg.clientCount, (s.conn i).Connected)
    (hclient : s.client = (System.init C).client) :
    Follows C (fun _ => 0) { s with up := true } (.init C) where
  up := rfl
  srv := by
    obtain ⟨hsrv, -, -⟩ := hinv.connecting hup
    refine ⟨⟨.requests, 0, fun _ => 0, 0⟩, by rw [hsrv]; rfl, .inl ⟨?_, ?_, ?_⟩⟩
    · rw [hsrv]
      rfl
    · rw [hsrv]
      rfl
    · simp [hsrv, Server.init]
  conn := by
    intro i hi
    obtain ⟨-, hunused, -⟩ := hinv.connecting hup
    obtain ⟨-, hwrote, hnone⟩ := hunused i hi
    have hlink := (hinv.ok hi).link
    have haccepted := List.length_pos_of_ne_nil (hconnected i hi)
    have hheard := hlink.clientHeard_le
    have hanswers := hlink.clientWrote_le
    rw [hwrote, List.length_nil] at hheard
    refine ⟨by simp [hwrote, System.init, Net.init], ?_, by simp [hnone, System.init, Net.init],
      by simp [hwrote], by simp, Nat.zero_le _, by simp [hwrote], hheard, ?_⟩
    · show [] = ((s.conn i).client.wrote.drop (s.conn i).server.accepted.length).map Packet.plain
      rw [List.drop_eq_nil_of_le (by omega)]
      rfl
    · intro d hd
      obtain ⟨k, p, -, hp, -⟩ := hlink.serverSent.sent d hd
      simp [hwrote] at hp
  client := by
    intro i
    rw [hclient]
    rfl

private theorem connect_frame (hs : s.connect i x = some s') :
    s'.up = s.up ∧ s'.client = s.client := by
  unfold RudpSystem.connect at hs
  obtain ⟨u, hu, hs⟩ := Option.bind_eq_some_iff.mp hs
  obtain ⟨c, -, rfl⟩ := connStep_cases hu
  split at hs
  · split at hs
    · obtain ⟨u, hu, hs⟩ := Option.bind_eq_some_iff.mp hs
      obtain ⟨c, -, rfl⟩ := connStep_cases hu
      cases hs
      exact ⟨rfl, rfl⟩
    · cases hs
      exact ⟨rfl, rfl⟩
  · cases hs
    exact ⟨rfl, rfl⟩

private theorem receive_frame (hinv' : RudpInv C s') (hup : s.up = false)
    (hi : i < C.cfg.clientCount) (hs : s.receive i x = some s') :
    s'.up = s.up ∧ s'.client = s.client := by
  unfold RudpSystem.receive at hs
  obtain ⟨u, hu, hs⟩ := Option.bind_eq_some_iff.mp hs
  obtain ⟨c, hstep, rfl⟩ := connStep_cases hu
  split at hs
  · rename_i p hdata
    obtain ⟨cl, hcl, hs⟩ := Option.bind_eq_some_iff.mp hs
    cases hs
    have hok := hinv'.ok hi
    obtain ⟨-, hwrote, -⟩ := (hinv'.connecting hup).2.1 i hi
    simp only [Function.update_self] at hok hwrote
    have hheard := hok.link.clientHeard_le
    have hgot := hok.client.got_prefix.length_le
    cases hstep with
    | clientFin _ _ hp => simp [hdata] at hp
    | clientAgain _ _ hp => exact absurd hdata (hp p)
    | clientGet =>
        rw [hwrote] at hheard
        simp only [List.length_nil, List.length_append, List.length_singleton] at hheard hgot
        omega
  · cases hs
    exact ⟨rfl, rfl⟩

private theorem respond_started (hclient : s.client = (System.init C).client)
    (hs : s.respond i = some s') : False := by
  unfold RudpSystem.respond at hs
  obtain ⟨⟨cl, response⟩, hcl, -⟩ := Option.bind_eq_some_iff.mp hs
  simp [hclient, System.init, Client.start, Client.respond] at hcl

private theorem connecting_step {event : RudpSysEvent} (hinv' : RudpInv C s')
    (hup : s.up = false) (hclient : s.client = (System.init C).client)
    (hs : s.step C event = some s') :
    s'.up = s.up ∧ s'.client = s.client ∨
      (∀ i < C.cfg.clientCount, (s.conn i).Connected) ∧ s' = { s with up := true } := by
  cases event <;> simp only [RudpSystem.step, Option.ite_none_right_eq_some, hup,
    Bool.false_eq_true, false_and] at hs
  case connect i x => exact .inl (connect_frame hs.2)
  case start =>
      obtain ⟨-, hs⟩ := hs
      cases hs
      exact .inr ⟨hinv'.connected rfl, rfl⟩
  case clientInit i | clientEndWrite i e | quit i =>
      obtain ⟨c, -, rfl⟩ := connStep_cases hs.2
      exact .inl ⟨rfl, rfl⟩
  case receive i x => exact .inl (receive_frame hinv' hup hs.1 hs.2)
  case respond i => exact (respond_started hclient hs.2).elim

private theorem Follows.step {event : RudpSysEvent} (h : Follows C q s a) (hinv : RudpInv C s)
    (hqj : C.cfg.transType ≠ .udpQj) (hs : s.step C event = some s') :
    ∃ q' b, (systemMachine C).Steps (fun _ e => e.reliable) a b ∧ Follows C q' s' b := by
  cases event <;> simp only [RudpSystem.step, Option.ite_none_right_eq_some, h.up,
    Bool.true_eq_false, false_and, true_and] at hs
  case server e => exact h.server hinv hqj hs.1 hs.2
  case endWrite i e =>
      obtain ⟨c, hstep, rfl⟩ := connStep_cases hs.2
      exact ⟨q, a, .refl, h.endWrite hinv hstep⟩
  case begRead w i x => exact ⟨q, h.begRead hinv hs⟩
  case clientInit i =>
      -- the client has connected
      have hclient := (hinv.ok hs.1.1).client
      rw [hs.1.2] at hclient
      have hle := (hinv.ok hs.1.1).link.serverHeard.length_le
      rw [hclient.1, List.length_nil, Nat.le_zero] at hle
      exact absurd (List.eq_nil_of_length_eq_zero hle) (hinv.connected h.up i hs.1.1)
  case clientEndWrite i e =>
      obtain ⟨c, hstep, rfl⟩ := connStep_cases hs.2
      exact ⟨q, a, .refl, h.clientEndWrite hinv hstep⟩
  case receive i x => exact ⟨q, h.receive hinv hs.1 hs.2⟩
  case respond i => exact ⟨q, h.respond hinv hs.1 hs.2⟩
  case quit i =>
      obtain ⟨c, hstep, rfl⟩ := connStep_cases hs.2
      cases hstep with
      | clientQuit => exact ⟨q, a, .refl, h.quit⟩

-- RUDP on an unreliable network implements connections that deliver every message once and
-- in order: the runs of the cluster over RUDP are runs of the cluster over those.
theorem rudpSystem_simulates (hqj : C.cfg.transType ≠ .udpQj) :
    (rudpSystem C).Simulates Machine.always (systemMachine C) (fun _ e => e.reliable)
      (Implements C) where
  init := .inl ⟨rfl, rfl, rfl⟩
  step := by
    intro s a event t hr h _ hs
    have hinv := rudpInv_of_reachable hqj hr
    rcases h with ⟨hup, rfl, hclient⟩ | ⟨q, hfollows⟩
    · refine ⟨.init C, .refl, ?_⟩
      rcases connecting_step (hinv.step hqj hs) hup hclient hs with
        ⟨hup', hsame⟩ | ⟨hconnected, rfl⟩
      · exact .inl ⟨hup'.trans hup, rfl, hsame.trans hclient⟩
      · exact .inr ⟨_, .start hinv hup hconnected hclient⟩
    · obtain ⟨q', b, hsteps, hfollows'⟩ := hfollows.step hinv hqj hs
      exact ⟨b, hsteps, .inr ⟨q', hfollows'⟩⟩

end Q2pc
