import Q2pc.Rudp.Records

namespace Q2pc

open Function (update)

variable {C : Cluster} {s s' : RudpSystem} {i w : Nat} {c c' : RudpConn} {cl cl' : Client}
  {id : Int} {e : RudpEvent}

structure ConnInv (id : Int) (c : RudpConn) (cl : Client) : Prop where
  ok : c.Ok
  session : Session id c cl
  rto : c.FewResends → c.RtoOk

-- Nothing is written on a connection before the server is up.
def RudpConn.Unused (c : RudpConn) : Prop :=
  c.master = .idle ∧ c.server.wrote = [] ∧ c.server.readData = none

def RudpConn.Connected (c : RudpConn) : Prop := c.server.accepted ≠ []

instance : DecidablePred RudpConn.Connected := fun _ => inferInstanceAs (Decidable (_ ≠ _))

structure RudpInv (C : Cluster) (s : RudpSystem) : Prop where
  conn : ∀ i < C.cfg.clientCount, ConnInv (C.peer i + 1) (s.conn i) (s.client i)
  connecting : s.up = false → s.srv = .init ∧ (∀ i < C.cfg.clientCount, (s.conn i).Unused) ∧
    s.connected ≤
      ((Finset.range C.cfg.clientCount).filter fun i => (s.conn i).Connected).card
  connected : s.up = true → ∀ i < C.cfg.clientCount, (s.conn i).Connected
  aligned : s.up = true → Aligned C.cfg s.srv s.conn
  records : s.up = true → ∀ w < C.cfg.threadCount, Records C s.conn w (s.srv.workers w)

theorem Cluster.i16_peer (C : Cluster) (hi : i < C.cfg.clientCount) :
    i16 (C.peer i + 1) = C.peer i + 1 := by
  have := (C.peer_lt i).mpr hi
  have := C.count_le
  exact i16_eq_self (by omega) (by omega)

theorem RudpInv.init (C : Cluster) : RudpInv C (.init C) where
  conn := fun i _ => ⟨.init, .init (C.peer i), fun _ => .init⟩
  connecting := fun _ => ⟨rfl, fun _ _ => ⟨rfl, rfl, rfl⟩, Nat.zero_le _⟩
  connected := by simp [RudpSystem.init]
  aligned := by simp [RudpSystem.init]
  records := by simp [RudpSystem.init]

theorem ConnInv.step (h : ConnInv id c cl) (hs : RudpStep c e c') (hp : c.protocol e)
    (hsession : Session id c' cl') (hserver : ∀ p, e = .masterWrite p → p.msg.sRto = 0)
    (hclient : ∀ p, e = .clientWrite p → p.msg.cRto = 0) : ConnInv id c' cl' where
  ok := h.ok.step hp hs
  session := hsession
  rto := fun hfew => (h.rto (hs.fewResends hfew)).step h.ok hp hs hfew hserver hclient

theorem ConnInv.inner (h : ConnInv id c cl) (hs : RudpStep c e c') (hp : c.protocol e)
    (hserver : ∀ p, e ≠ .masterWrite p) (hclient : ∀ p, e ≠ .clientWrite p)
    (hget : ∀ x, e ≠ .clientGet x) : ConnInv id c' cl :=
  h.step hs hp (h.session.step hs hserver hclient hget) (fun p he => absurd he (hserver p))
    fun p he => absurd he (hclient p)

theorem connStep_cases (h : s.connStep i e = some s') :
    ∃ c, RudpStep (s.conn i) e c ∧ s' = { s with conn := update s.conn i c } := by
  obtain ⟨c, hc, rfl⟩ := Option.map_eq_some_iff.mp h
  exact ⟨c, RudpConn.step_cases hc, rfl⟩

private theorem RudpInv.conns {client : Nat → Client} (h : RudpInv C s)
    (hclient : ∀ j, j ≠ i → client j = s.client j)
    (hconn : i < C.cfg.clientCount → ConnInv (C.peer i + 1) c (client i)) :
    ∀ j < C.cfg.clientCount, ConnInv (C.peer j + 1) (update s.conn i c j) (client j) := by
  intro j hj
  by_cases hji : j = i
  · subst hji
    simpa using hconn hj
  · rw [Function.update_of_ne hji, hclient j hji]
    exact h.conn j hj

theorem RudpInv.quiet {client : Nat → Client} (h : RudpInv C s)
    (hclient : ∀ j, j ≠ i → client j = s.client j)
    (hconn : i < C.cfg.clientCount → ConnInv (C.peer i + 1) c (client i))
    (hsame : SameCalls (s.conn i) c)
    (haccepted : c.server.accepted = (s.conn i).server.accepted)
    (hread : c.server.readData = (s.conn i).server.readData) :
    RudpInv C { s with conn := update s.conn i c, client } := by
  have hupdate : ∀ {P : RudpConn → RudpConn → Prop}, (∀ c, P c c) → P (s.conn i) c →
      ∀ j, P (s.conn j) (update s.conn i c j) := by
    intro P hrefl hc j
    by_cases hji : j = i
    · subst hji
      simpa using hc
    · rw [Function.update_of_ne hji]
      exact hrefl _
  have hacc : ∀ j, (update s.conn i c j).server.accepted = (s.conn j).server.accepted :=
    hupdate (P := fun c c' => c'.server.accepted = c.server.accepted) (fun _ => rfl) haccepted
  have hrd : ∀ j, (update s.conn i c j).server.readData = (s.conn j).server.readData :=
    hupdate (P := fun c c' => c'.server.readData = c.server.readData) (fun _ => rfl) hread
  have hcalls : ∀ j, SameCalls (s.conn j) (update s.conn i c j) :=
    hupdate (P := SameCalls) SameCalls.refl hsame
  refine ⟨h.conns hclient hconn, ?_, ?_, ?_, ?_⟩
  · intro hup
    obtain ⟨hsrv, hunused, hcount⟩ := h.connecting hup
    refine ⟨hsrv, fun j hj => ?_, ?_⟩
    · obtain ⟨hidle, hwrote, hnone⟩ := hunused j hj
      refine ⟨(hcalls j).idle hidle, ?_, (hrd j).trans hnone⟩
      have := (hcalls j).wrote
      rw [hwrote] at this
      exact List.eq_nil_of_length_eq_zero this
    · refine hcount.trans_eq (congrArg Finset.card (Finset.filter_congr fun j _ => ?_))
      simp only [RudpConn.Connected, hacc]
  · intro hup j hj
    show (update s.conn i c j).server.accepted ≠ []
    rw [hacc]
    exact h.connected hup j hj
  · exact fun hup => (h.aligned hup).congr rfl rfl rfl rfl id fun j _ => hcalls j
  · exact fun hup w hw => (h.records hup w hw).congr fun j _ => ⟨hacc j, hrd j⟩

private theorem RudpStep.server_eq (hs : RudpStep c e c')
    (he : (∃ p, e = .clientWrite p) ∨ (∃ x, e = .clientStep x) ∨ (∃ x, e = .clientGet x) ∨
      e = .clientQuit) : c'.server = c.server ∧ c'.master = c.master := by
  cases hs with
  | connect | respond | clientRet | clientStep | clientGet | clientFin | clientAgain
  | clientQuit => exact ⟨rfl, rfl⟩
  | masterWrite | masterCall | masterStep | masterRet | workerRead | workerRelease => simp at he

private theorem RudpInv.clientStep {client : Nat → Client} (h : RudpInv C s)
    (hs : RudpStep (s.conn i) e c)
    (he : (∃ p, e = .clientWrite p) ∨ (∃ x, e = .clientStep x) ∨ (∃ x, e = .clientGet x) ∨
      e = .clientQuit)
    (hclient : ∀ j, j ≠ i → client j = s.client j)
    (hconn : i < C.cfg.clientCount → ConnInv (C.peer i + 1) c (client i)) :
    RudpInv C { s with conn := update s.conn i c, client } := by
  obtain ⟨hserver, hmaster⟩ := hs.server_eq he
  exact h.quiet hclient hconn ⟨by rw [hserver], .inl hmaster⟩ (by rw [hserver]) (by rw [hserver])

private theorem RudpInv.endWrite {x : EndWriteEvent} (h : RudpInv C s)
    (hi : i < C.cfg.clientCount) (hs : RudpStep (s.conn i) (.masterStep x) c) :
    RudpInv C { s with conn := update s.conn i c } := by
  have hconn := (h.conn i hi).inner hs trivial (by simp) (by simp) (by simp)
  have hrole := (h.conn i hi).ok.link.serverRole
  cases hs with
  | masterStep hpc hstep =>
      refine h.quiet (fun _ _ => rfl) (fun _ => hconn)
        ⟨congrArg List.length hstep.wrote_eq, .inr ⟨⟨_, hpc⟩, _, rfl⟩⟩ ?_ ?_
      · cases hstep with
        | probe x h | probeFin x h => simp [hrole] at h
        | _ => rfl
      · cases hstep with
        | probe x h | probeFin x h => simp [hrole] at h
        | _ => rfl

private theorem RudpInv.clientInit (h : RudpInv C s) (hi : i < C.cfg.clientCount)
    (hpc : (s.conn i).clientPc = .init)
    (hs : RudpStep (s.conn i) (.clientWrite ⟨conMsg (s.client i).clientNum, 0⟩) c) :
    RudpInv C { s with conn := update s.conn i c } := by
  obtain ⟨hok, hsession, hrto⟩ := h.conn i hi
  refine h.clientStep hs (.inl ⟨_, rfl⟩) (fun _ _ => rfl) fun _ => ?_
  refine (h.conn i hi).step hs trivial ?_ (by simp) (by simp [conMsg])
  cases hs with
  | connect => exact hsession.clientInit hok hpc (by rw [hsession.clientNum])
  | respond hgot => simp [hpc] at hgot

private theorem RudpInv.receive {x : BaseRead} (h : RudpInv C s) (hi : i < C.cfg.clientCount)
    (hs : s.receive i x = some s') : RudpInv C s' := by
  unfold RudpSystem.receive at hs
  obtain ⟨u, hu, hs⟩ := Option.bind_eq_some_iff.mp hs
  obtain ⟨c, hstep, rfl⟩ := connStep_cases hu
  have hsession := (h.conn i hi).session
  have hpc : (s.conn i).clientPc = .getMessage := by
    cases hstep <;> assumption
  split at hs
  · rename_i p hdata
    obtain ⟨cl, hcl, hs⟩ := Option.bind_eq_some_iff.mp hs
    cases hs
    refine h.clientStep hstep (.inr (.inr (.inl ⟨_, rfl⟩)))
      (fun j hj => Function.update_of_ne hj _ _) fun _ => ?_
    refine (h.conn i hi).step hstep trivial ?_ (by simp) (by simp)
    rw [Function.update_self]
    cases hstep with
    | clientGet _ _ hp =>
        rw [hdata] at hp
        cases hp
        exact hsession.receive hpc hcl
    | clientFin _ _ hp => simp [hdata] at hp
    | clientAgain _ _ hp => exact absurd hdata (hp p)
  · rename_i hdata
    cases hs
    refine h.clientStep hstep (.inr (.inr (.inl ⟨_, rfl⟩))) (fun _ _ => rfl) fun _ => ?_
    refine (h.conn i hi).step hstep trivial ?_ (by simp) (by simp)
    cases hstep with
    | clientGet _ _ hp => exact absurd hp (hdata _)
    | clientFin => exact hsession.frame rfl ((s.conn i).client.begRead_wrote x) rfl (.inl rfl)
    | clientAgain =>
        exact hsession.frame rfl ((s.conn i).client.begRead_wrote x) rfl (.inr (.inl rfl))

-- The messages of the server have no retransmissions of the client in them.
private theorem Session.got_cRto {old : Packet} (h : Session id c cl) (hok : c.Ok)
    (hpc : c.clientPc = .got) (hold : c.clientGot.getLast? = some old) : old.msg.cRto = 0 := by
  have hclient := hok.client
  rw [hpc] at hclient
  rw [List.getLast?_eq_getElem?, ← hclient.2.2] at hold
  obtain ⟨q, hq, hsame⟩ := hok.link.clientHeard.get hold
  have hrto : q.msg.cRto = old.msg.cRto := hsame.2
  rw [← hrto, (h.requests _ q hq).2.1]

private theorem RudpInv.respond (h : RudpInv C s) (hi : i < C.cfg.clientCount)
    (hs : s.respond i = some s') : RudpInv C s' := by
  unfold RudpSystem.respond at hs
  obtain ⟨⟨cl, response⟩, hcl, hs⟩ := Option.bind_eq_some_iff.mp hs
  obtain ⟨u, hu, hs⟩ := Option.bind_eq_some_iff.mp hs
  cases hs
  obtain ⟨c, hstep, rfl⟩ := connStep_cases hu
  obtain ⟨hok, hsession, hrto⟩ := h.conn i hi
  cases response with
  | some p =>
      refine h.clientStep hstep (.inl ⟨_, rfl⟩) (fun j hj => Function.update_of_ne hj _ _)
        fun _ => ?_
      rw [Function.update_self]
      cases hstep with
      | connect hpc =>
          have hwait := hsession.waiting (by simp [hpc]) (by simp [hpc])
          simp [Client.respond, hwait] at hcl
      | respond hpc =>
          have hsession' := hsession.respond hok (C.i16_peer hi) hpc hcl
          obtain ⟨old, hclpc, hold⟩ := hsession.got hpc
          obtain ⟨-, ⟨t, hmsg⟩, -⟩ := Client.respond_cases hclpc hcl
          have hold := hsession.got_cRto hok hpc hold
          refine (h.conn i hi).step (.respond hpc) trivial hsession' (by simp) fun q hq => ?_
          cases hq
          rw [hmsg]
          exact hold
  | none =>
      refine h.clientStep hstep (.inr (.inr (.inr rfl))) (fun j hj => Function.update_of_ne hj _ _)
        fun _ => ?_
      rw [Function.update_self]
      cases hstep with
      | clientQuit =>
          refine (h.conn i hi).step .clientQuit trivial ?_ (by simp) (by simp)
          have hquit : Session _ ({ s.conn i with clientPc := .terminated } : RudpConn) _ :=
            hsession.frame rfl rfl rfl (.inl rfl)
          exact { hquit with
            clientNum := (Client.clientNum_of_respond hcl).trans hsession.clientNum
            phase := fun hne => absurd rfl hne
            waiting := fun _ hne => absurd rfl hne
            got := by simp }

private theorem RudpInv.connectNew (h : RudpInv C s) (hup : s.up = false)
    (hi : i < C.cfg.clientCount) (hempty : (s.conn i).server.accepted = []) (hc : c.Connected)
    (hunused : c.Unused) (hconn : ConnInv (C.peer i + 1) c (s.client i)) :
    RudpInv C { s with connected := s.connected + 1, conn := update s.conn i c } := by
  obtain ⟨hsrv, hothers, hcount⟩ := h.connecting hup
  refine ⟨h.conns (fun _ _ => rfl) fun _ => hconn, fun _ => ⟨hsrv, ?_, ?_⟩, ?_, ?_, ?_⟩
  · intro j hj
    show (update s.conn i c j).Unused
    by_cases hji : j = i
    · subst hji
      rwa [Function.update_self]
    · rw [Function.update_of_ne hji]
      exact hothers j hj
  · have hfilter : (Finset.range C.cfg.clientCount).filter
        (fun j => (update s.conn i c j).Connected) =
        insert i ((Finset.range C.cfg.clientCount).filter fun j => (s.conn j).Connected) := by
      ext j
      simp only [Finset.mem_filter, Finset.mem_range, Finset.mem_insert]
      by_cases hji : j = i
      · subst hji
        simp [hi, hc]
      · simp [hji]
    have hnot : ¬(s.conn i).Connected := fun hne => hne hempty
    show s.connected + 1 ≤ ((Finset.range C.cfg.clientCount).filter
        fun j => (update s.conn i c j).Connected).card
    rw [hfilter, Finset.card_insert_of_notMem (by simp [hnot])]
    omega
  · simp [hup]
  · simp [hup]
  · simp [hup]

private theorem RudpInv.connect {x : BaseRead} (h : RudpInv C s) (hup : s.up = false)
    (hi : i < C.cfg.clientCount) (hs : s.connect i x = some s') : RudpInv C s' := by
  unfold RudpSystem.connect at hs
  obtain ⟨u, hu, hs⟩ := Option.bind_eq_some_iff.mp hs
  obtain ⟨c, hstep, rfl⟩ := connStep_cases hu
  have hconn := (h.conn i hi).inner hstep trivial (by simp) (by simp) (by simp)
  obtain ⟨hsrv, hunused, hcount⟩ := h.connecting hup
  obtain ⟨hidle, hwrote, hnone⟩ := hunused i hi
  cases hstep with
  | workerRead hx =>
      rcases (s.conn i).server.begRead_accept x with ⟨heq, hpending⟩ | ⟨d, k, -, -, heq⟩
      · split at hs
        · rename_i p hp
          simp [hnone] at hpending
          exact absurd hp (hpending p)
        · cases hs
          exact h.quiet (fun _ _ => rfl) (fun _ => hconn) ⟨by rw [heq], .inl rfl⟩ (by rw [heq])
            (by rw [heq])
      · simp only [heq] at hs hconn
        have hempty : (s.conn i).server.accepted = [] := by
          have hle := hconn.ok.link.serverHeard.length_le
          have hclient := hconn.ok.link.clientWrote_le
          have hheard := hconn.ok.link.clientHeard_le
          simp only [Rudp.accept, List.length_append, List.length_singleton, hwrote,
            List.length_nil] at hle hclient hheard
          exact List.eq_nil_of_length_eq_zero (by omega)
        have htype : d.packet.msg.type = .con :=
          hconn.session.heard_con hconn.ok (by simp [Rudp.accept, hempty])
        rw [if_pos htype] at hs
        obtain ⟨v, hv, hs⟩ := Option.bind_eq_some_iff.mp hs
        obtain ⟨c, hstep, rfl⟩ := connStep_cases hv
        cases hs
        simp only [Function.update_self, Function.update_idem] at hstep ⊢
        have hconn := hconn.inner hstep trivial (by simp) (by simp) (by simp)
        cases hstep with
        | workerRelease =>
            refine h.connectNew hup hi hempty ?_ ⟨hidle, hwrote, rfl⟩ hconn
            simp [RudpConn.Connected, Rudp.endRead, Rudp.accept]

private theorem RudpInv.start (h : RudpInv C s) (hup : s.up = false)
    (hall : C.cfg.clientCount ≤ s.connected) : RudpInv C { s with up := true } := by
  obtain ⟨hsrv, hunused, hcount⟩ := h.connecting hup
  have hcard : ((Finset.range C.cfg.clientCount).filter fun i => (s.conn i).Connected).card =
      (Finset.range C.cfg.clientCount).card := by
    apply Nat.le_antisymm (Finset.card_filter_le _ _)
    rw [Finset.card_range]
    omega
  have hconnected := Finset.filter_card_eq hcard
  refine ⟨h.conn, by simp, ?_, ?_, ?_⟩
  · exact fun _ i hi => hconnected i (Finset.mem_range.mpr hi)
  · intro _
    simp only [hsrv]
    exact fun _ i hi => ⟨(hunused i hi).1, by simp [(hunused i hi).2.1, Server.init, Server.stage]⟩
  · intro _ w hw
    simp only [hsrv]
    exact .init (fun i hi => (hunused i hi).2.2) hw

private theorem RudpInv.call {srv : Server} (h : RudpInv C s) (hup : s.up = true)
    (hi : i < C.cfg.clientCount) (hs : RudpStep (s.conn i) e c)
    (hconn : ConnInv (C.peer i + 1) c (s.client i))
    (haligned : Aligned C.cfg srv (update s.conn i c))
    (hrecords : ∀ w < C.cfg.threadCount, Records C (update s.conn i c) w (srv.workers w)) :
    RudpInv C { s with srv, conn := update s.conn i c } := by
  refine ⟨h.conns (fun _ _ => rfl) fun _ => hconn, by simp [hup], ?_, fun _ => haligned,
    fun _ => hrecords⟩
  intro _ j hj
  show (update s.conn i c j).Connected
  by_cases hji : j = i
  · subst hji
    rw [Function.update_self]
    intro hempty
    have hprefix := hs.ext.1.accepted
    rw [hempty, List.prefix_nil] at hprefix
    exact h.connected hup j hj hprefix
  · rw [Function.update_of_ne hji]
    exact h.connected hup j hj

private theorem RudpInv.masterCall {srv : Server} {event : Event} (h : RudpInv C s)
    (hup : s.up = true) (hqj : C.cfg.transType ≠ .udpQj)
    (hm : MasterStep C.cfg s.srv event srv) (he : event.onConn = some (i, e))
    (hs : RudpStep (s.conn i) e c) : RudpInv C { s with srv, conn := update s.conn i c } := by
  have haligned := h.aligned hup
  have hworkers := hm.workers_eq
  have hrecords : c.server.accepted = (s.conn i).server.accepted →
      c.server.readData = (s.conn i).server.readData →
      ∀ w < C.cfg.threadCount, Records C (update s.conn i c) w (srv.workers w) := by
    intro hacc hread w hw
    rw [hworkers]
    refine (h.records hup w hw).congr fun j _ => ?_
    by_cases hji : j = i
    · subst hji
      simp [hacc, hread]
    · simp [hji]
  cases hm with
  | @begWrite ph j ts hpc _ =>
      cases he
      have hat := haligned
      simp only [Aligned, hpc] at hat
      obtain ⟨hi, hready, -⟩ := hat
      have hinv := h.conn i hi
      have hprotocol :
          (s.conn i).protocol (.masterWrite ⟨requestMsg ph.msgType ts, s.srv.stage ph⟩) :=
        ⟨hready.1, h.connected hup i hi⟩
      have hrequests : RequestsOk
          ((s.conn i).server.wrote ++ [⟨requestMsg ph.msgType ts, s.srv.stage ph⟩]) := by
        refine hinv.session.requests.append hready.2 rfl ?_
        cases ph <;> simp [Server.stage]
      have hstep := hs
      cases hs with
      | masterWrite _ =>
          refine h.call hup hi hstep ?_ (haligned.begWrite hpc) (hrecords rfl rfl)
          exact hinv.step hstep hprotocol (hinv.session.masterWrite hrequests)
            (fun p hp => by cases hp; rfl) (by simp)
  | @endWrite ph j hpc =>
      cases he
      have hat := haligned
      simp only [Aligned, hpc] at hat
      obtain ⟨hi, hfilled, -, -⟩ := hat
      have hstep := hs
      cases hs with
      | masterCall _ =>
          refine h.call hup hi hstep ?_ (haligned.endWrite hpc) (hrecords rfl rfl)
          exact (h.conn i hi).inner hstep hfilled (by simp) (by simp) (by simp)
  | @endWriteRet ph j r hpc =>
      cases he
      have hat := haligned
      simp only [Aligned, hpc] at hat
      obtain ⟨hi, -, -, -⟩ := hat
      have hstep := hs
      cases hs with
      | masterRet _ =>
          refine h.call hup hi hstep ?_ (haligned.endWriteRet hqj hpc r) (hrecords rfl rfl)
          exact (h.conn i hi).inner hstep trivial (by simp) (by simp) (by simp)
  | broadcastBegWrite _ h => exact absurd h hqj
  | _ => simp [Event.onConn] at he

private theorem RudpInv.identified {p : Packet} (h : RudpInv C s) (hup : s.up = true)
    (hw : w < C.cfg.threadCount) (htaken : (s.srv.workers w).pc.taken = some (i, p)) :
    Identified C s.conn i p := by
  obtain ⟨hown, hlast, hlen, -⟩ := (h.records hup w hw).taken i p htaken
  obtain ⟨hok, hsession, -⟩ := h.conn i (lt_clientCount hw hown.2)
  obtain ⟨k, hk⟩ : ∃ k, (s.conn i).server.accepted.length = k + 2 :=
    ⟨(s.conn i).server.accepted.length - 2, by omega⟩
  rw [List.getLast?_eq_getElem?, hk] at hlast
  obtain ⟨hstage, hsrc⟩ := hsession.heard_stage hok hlast
  exact ⟨hsrc, by omega⟩

private theorem RudpInv.workerAligned {srv : Server} {event : Event} {conn : Nat → RudpConn}
    (h : RudpInv C s) (hup : s.up = true) (hm : WorkerStep C.cfg s.srv w event srv)
    (hconn : ∀ i < C.cfg.clientCount, SameCalls (s.conn i) (conn i)) :
    Aligned C.cfg srv conn := by
  obtain ⟨hmaster, hreq, -, hstop⟩ := hm.frame
  obtain ⟨hcommited, hrto⟩ := hm.commited_eq
  refine (h.aligned hup).congr hmaster hreq hcommited hrto (fun hs => ?_) hconn
  cases hstop' : s.srv.stopSignal with
  | true => simp [hstop hstop'] at hs
  | false => rfl

private theorem RudpInv.workerCall {srv : Server} {event : Event} (h : RudpInv C s)
    (hup : s.up = true) (hw : w < C.cfg.threadCount) (hown : C.cfg.Owns w i)
    (hm : WorkerStep C.cfg s.srv w event srv) (hs : RudpStep (s.conn i) e c)
    (hconn : ConnInv (C.peer i + 1) c (s.client i)) (hsame : SameCalls (s.conn i) c)
    (hrecords : Records C (update s.conn i c) w (srv.workers w)) :
    RudpInv C { s with srv, conn := update s.conn i c } := by
  refine h.call hup (lt_clientCount hw hown.2) hs hconn (h.workerAligned hup hm fun j _ => ?_) ?_
  · by_cases hji : j = i
    · subst hji
      rwa [Function.update_self]
    · rw [Function.update_of_ne hji]
      exact .refl _
  · intro v hv
    by_cases hvw : v = w
    · subst hvw
      exact hrecords
    · rw [hm.workers_ne hvw]
      refine (h.records hup v hv).congr fun j hj => ?_
      have hji : j ≠ i := by
        rintro rfl
        exact hvw (C.cfg.disjoint v hv w hw j hj.1 hj.2 hown.1 hown.2)
      rw [Function.update_of_ne hji]
      exact ⟨rfl, rfl⟩

private theorem RudpInv.server {event : Event} (h : RudpInv C s) (hup : s.up = true)
    (hqj : C.cfg.transType ≠ .udpQj) (he : event.isBegRead = false)
    (hs : s.server C event = some s') : RudpInv C s' := by
  unfold RudpSystem.server at hs
  obtain ⟨srv, hsrv, hs⟩ := Option.bind_eq_some_iff.mp hs
  rcases step_cases hsrv with hm | ⟨w, hw, hm⟩
  · split at hs
    · rename_i i e hcall
      obtain ⟨u, hu, hs⟩ := Option.bind_eq_some_iff.mp hs
      obtain ⟨c, hstep, rfl⟩ := connStep_cases hu
      cases hs
      exact h.masterCall hup hqj hm hcall hstep
    · rename_i hcall
      cases hs
      refine ⟨h.conn, by simp [hup], h.connected, ?_, ?_⟩
      · exact fun _ => (h.aligned hup).masterStep hqj hcall hm
      · intro _ w hw
        simp only [hm.workers_eq]
        exact h.records hup w hw
  · split at hs
    · rename_i i e hcall
      obtain ⟨u, hu, hs⟩ := Option.bind_eq_some_iff.mp hs
      obtain ⟨c, hstep, rfl⟩ := connStep_cases hu
      cases hs
      have hrecords := h.records hup w hw
      have hmstep := hm
      cases hm with
      | @endRead j p hpc =>
          cases hcall
          have hown := (hrecords.taken i p (by simp [hpc, WorkerPc.taken])).1
          have hconn := (h.conn i (lt_clientCount hw hown.2)).inner hstep trivial (by simp)
            (by simp) (by simp)
          have hcstep := hstep
          cases hstep with
          | workerRelease =>
              refine h.workerCall hup hw hown hmstep hcstep hconn ⟨rfl, .inl rfl⟩ ?_
              simp only [Server.setWorker, Function.update_self]
              exact hrecords.endRead hpc rfl rfl
      | _ => simp [Event.onConn] at hcall
    · rename_i hcall
      cases hs
      refine ⟨h.conn, by simp [hup], h.connected, ?_, ?_⟩
      · exact fun _ => h.workerAligned hup hm fun _ _ => .refl _
      · intro _ v hv
        by_cases hvw : v = w
        · subst hvw
          exact (h.records hup v hv).workerStep hv (fun i p => h.identified hup hv) hm hcall he
        · simp only [hm.workers_ne hvw]
          exact h.records hup v hv

private theorem RudpInv.begRead {x : BaseRead} (h : RudpInv C s) (hup : s.up = true)
    (hs : s.begRead C w i x = some s') : RudpInv C s' := by
  unfold RudpSystem.begRead at hs
  obtain ⟨srv, hsrv, hs⟩ := Option.bind_eq_some_iff.mp hs
  obtain ⟨u, hu, hs⟩ := Option.bind_eq_some_iff.mp hs
  obtain ⟨c, hstep, rfl⟩ := connStep_cases hu
  cases hs
  rcases step_cases hsrv with hm | ⟨v, hw, hm⟩
  · cases hm
  · have hmstep := hm
    cases hm with
    | begRead hpc hi hafter =>
        have hrecords := h.records hup w hw
        have hown : C.cfg.Owns w i := ⟨hrecords.poll i hpc, hi⟩
        have hic := lt_clientCount hw hown.2
        have hconn := (h.conn i hic).inner hstep trivial (by simp) (by simp) (by simp)
        have hcstep := hstep
        cases hstep with
        | workerRead hx =>
            have hwrote := (s.conn i).server.begRead_wrote x
            refine h.workerCall hup hw hown hmstep hcstep hconn
              ⟨congrArg List.length hwrote, .inl rfl⟩ ?_
            simp only [Server.setWorker, Function.update_self]
            rcases (s.conn i).server.begRead_accept x with ⟨heq, hpending⟩ | ⟨d, k, -, -, heq⟩
            · have hsame : Records C (update s.conn i { s.conn i with
                  server := ((s.conn i).server.begRead x).1 }) w (s.srv.workers w) := by
                refine hrecords.congr fun j _ => ?_
                by_cases hji : j = i
                · subst hji
                  simp [heq]
                · simp [hji]
              cases hr : ((s.conn i).server.begRead x).2 with
              | data p =>
                  have := hrecords.pending i p hown (hpending p hr)
                  simp [hpc] at this
              | unset => simp [hr, Server.afterBegRead] at hafter
              | eagain =>
                  simp only [hr, Server.afterBegRead, Option.some.injEq] at hafter
                  subst hafter
                  refine hsame.move rfl ?_ (by simp [WorkerPc.taken]) (by simp [hpc])
                  intro j hj
                  obtain rfl : i + 1 = j := by simpa using hj
                  exact Nat.le_succ_of_le hown.1
              | efin =>
                  simp only [hr, Server.afterBegRead, Option.some.injEq] at hafter
                  subst hafter
                  exact hsame.move rfl (by simp) (by simp [WorkerPc.taken]) (by simp [hpc])
            · simp only [heq, Server.afterBegRead, Option.some.injEq] at hafter ⊢
              subst hafter
              exact hrecords.take hpc hi (h.connected hup i hic) rfl rfl

theorem RudpInv.step {event : RudpSysEvent} (h : RudpInv C s) (hqj : C.cfg.transType ≠ .udpQj)
    (hs : s.step C event = some s') : RudpInv C s' := by
  cases event <;> simp only [RudpSystem.step, Option.ite_none_right_eq_some] at hs
  case connect i x => exact h.connect hs.1.1 hs.1.2.2 hs.2
  case start =>
      obtain ⟨⟨hup, -, hall⟩, hs⟩ := hs
      cases hs
      exact h.start hup hall
  case server e => exact h.server hs.1.1 hqj hs.1.2 hs.2
  case endWrite i e =>
      obtain ⟨c, hstep, rfl⟩ := connStep_cases hs.2
      exact h.endWrite hs.1.2 hstep
  case begRead w i x => exact h.begRead hs.1 hs.2
  case clientInit i =>
      obtain ⟨c, hstep, rfl⟩ := connStep_cases hs.2
      exact h.clientInit hs.1.1 hs.1.2 hstep
  case clientEndWrite i e =>
      obtain ⟨c, hstep, rfl⟩ := connStep_cases hs.2
      exact h.clientStep hstep (.inr (.inl ⟨e, rfl⟩)) (fun _ _ => rfl)
        fun hi => (h.conn i hi).inner hstep trivial (by simp) (by simp) (by simp)
  case receive i x => exact h.receive hs.1 hs.2
  case respond i => exact h.respond hs.1 hs.2
  case quit i =>
      obtain ⟨c, hstep, rfl⟩ := connStep_cases hs.2
      exact h.clientStep hstep (.inr (.inr (.inr rfl))) (fun _ _ => rfl)
        fun hi => (h.conn i hi).inner hstep trivial (by simp) (by simp) (by simp)

theorem rudpInv_of_reachable (hqj : C.cfg.transType ≠ .udpQj)
    (h : (rudpSystem C).Reachable Machine.always s) : RudpInv C s :=
  h.invariant (.init C) fun _ _ _ _ hinv _ hs => hinv.step hqj hs

-- The record of a response: who sent it, the message it answers with the time stamp
-- `send_request` gave it, and the retransmissions of the two.
def Attributed (C : Cluster) (s : RudpSystem) (x : Stat) : Prop :=
  ∃ i < C.cfg.clientCount, ∃ request response : Packet,
    (s.conn i).server.wrote[x.stage]? = some request ∧ request.stage = x.stage ∧
    (s.conn i).client.wrote[x.stage + 1]? = some response ∧ response.stage = x.stage ∧
    x.clientId = C.peer i + 1 ∧ response.msg.srcHostid = x.clientId ∧
    x.type = response.msg.type ∧ x.timeStart = request.msg.ts ∧
    (x.stage % 2 = 0 → request.msg.type = .request ∧ (x.type = .voteYes ∨ x.type = .voteNo)) ∧
    (x.stage % 2 = 1 →
      (request.msg.type = .commit ∨ request.msg.type = .cancel) ∧ x.type = .ack) ∧
    0 ≤ x.sRtos ∧ x.sRtos ≤ (s.conn i).server.resent x.stage ∧
    0 ≤ x.cRtos ∧ x.cRtos ≤ (s.conn i).client.resent (x.stage + 1)

private theorem RudpInv.attributed {x : Stat} {p : Packet} (h : RudpInv C s)
    (hi : i < C.cfg.clientCount) (hfew : (s.conn i).FewResends)
    (hid : x.clientId = C.peer i + 1)
    (hp : (s.conn i).server.accepted[x.stage + 1]? = some p) (hx : x.Of p) :
    Attributed C s x := by
  obtain ⟨hok, hsession, hrto⟩ := h.conn i hi
  have hrto := hrto hfew
  obtain ⟨q, got, r, hq, hgot, hr, hserver, hanswers, hclient⟩ := hsession.heard hok hp
  obtain ⟨hqstage, hqc, hqs, heven, hodd⟩ := hsession.requests _ q hq
  obtain ⟨hxid, hxc, hxs, hxts, hxtype, hxstage⟩ := hx
  obtain ⟨⟨⟨hrtype, hrsrc, hrts⟩, hrstage⟩, hrs⟩ := hclient
  obtain ⟨⟨⟨-, -, hqts⟩, -⟩, -⟩ := hserver
  have hrs : r.msg.sRto = p.msg.sRto := hrs
  have hc := hrto.serverHeard _ p hp
  have hs := hrto.clientHeard _ got hgot
  simp only [hok.link.clientRole, hok.link.serverRole, Msg.rto, if_true, Bool.false_eq_true,
    if_false] at hc hs
  refine ⟨i, hi, q, r, hq, hqstage, hr, hrstage.trans hxstage.symm, hid, ?_, ?_, ?_, ?_, ?_, ?_⟩
  · rw [hxid, hrsrc]
  · rw [hxtype, hrtype]
  · rw [hxts, ← hrts, hanswers.ts, hqts]
  · intro h0
    rw [hxtype, ← hrtype]
    exact ⟨heven h0, hanswers.vote h0⟩
  · intro h1
    rw [hxtype, ← hrtype]
    exact ⟨hodd h1, hanswers.ack h1⟩
  · rw [hxs, hxc, ← hrs, hanswers.sRto]
    exact ⟨hs.1, hs.2, hc.1, by exact_mod_cast hc.2⟩

-- Over RUDP each record is attributed to its exchange, and no response is recorded twice.
theorem rudp_statistics (hrdp : C.cfg.transType = .rdpLn)
    (h : (rudpSystem C).Reachable Machine.always s)
    (hfew : ∀ i < C.cfg.clientCount, (s.conn i).FewResends) :
    (∀ w < C.cfg.threadCount, ∀ x ∈ (s.srv.workers w).stats, Attributed C s x) ∧
    (∀ w < C.cfg.threadCount, ∀ v < C.cfg.threadCount, ∀ (j k : Nat) (x y : Stat),
      (s.srv.workers w).stats[j]? = some x → (s.srv.workers v).stats[k]? = some y →
      x.clientId = y.clientId → x.stage = y.stage → w = v ∧ j = k) := by
  have hinv := rudpInv_of_reachable (by simp [hrdp]) h
  cases hup : s.up with
  | false =>
      obtain ⟨hsrv, -, -⟩ := hinv.connecting hup
      simp [hsrv, Server.init]
  | true =>
      constructor
      · intro w hw x hx
        obtain ⟨i, p, hown, hid, hp, hof⟩ := (hinv.records hup w hw).records x hx
        have hi := lt_clientCount hw hown.2
        exact hinv.attributed hi (hfew i hi) hid hp hof
      · intro w hw v hv j k x y hx hy hid hstage
        have hwr := hinv.records hup w hw
        obtain ⟨i, -, hi, hxi, -, -⟩ := hwr.records x (List.mem_of_getElem? hx)
        obtain ⟨i', -, hi', hyi, -, -⟩ :=
          (hinv.records hup v hv).records y (List.mem_of_getElem? hy)
        obtain rfl : i = i' := C.peer.injective (by omega)
        obtain rfl := C.cfg.disjoint w hw v hv i hi.1 hi.2 hi'.1 hi'.2
        refine ⟨rfl, ?_⟩
        obtain ⟨hj, rfl⟩ := List.getElem?_eq_some_iff.mp hx
        obtain ⟨hk, rfl⟩ := List.getElem?_eq_some_iff.mp hy
        have hdistinct := List.pairwise_iff_getElem.mp hwr.distinct
        rcases Nat.lt_trichotomy j k with hlt | heq | hlt
        · exact absurd hstage (hdistinct j k hj hk hlt hid)
        · exact heq
        · exact absurd hstage.symm (hdistinct k j hk hj hlt hid.symm)

theorem Rudp.resent_le_length (c : Rudp) (k : Int) : c.resent k ≤ c.sent.length :=
  (Nat.sub_le _ _).trans List.countP_le_length

-- One client connects; its request is retransmitted once before it votes.
def voteOnceEvents : List RudpSysEvent :=
  let request : Packet := ⟨requestMsg .request 7, 0⟩
  let again : Packet := ⟨{ requestMsg .request 7 with sRto := 1 }, 0⟩
  [.clientInit 0, .clientEndWrite 0 (.base true), .clientEndWrite 0 .go,
    .connect 0 (.data ⟨0, ⟨conMsg 1, 0⟩⟩), .start] ++
  List.replicate 4 (.server .master) ++ [.server (.begWrite 0 request)] ++
  List.replicate 3 (.server .master) ++
  [.server (.endWrite 0), .endWrite 0 (.base true), .endWrite 0 .go, .endWrite 0 .go,
    .endWrite 0 .go, .endWrite 0 (.clock true), .endWrite 0 (.base true),
    .server (.endWriteRet 0 .rtofired),
    .clientEndWrite 0 (.read (.data ⟨0, again⟩)), .clientEndWrite 0 .go, .clientEndWrite 0 .go,
    .receive 0 .eagain, .respond 0, .clientEndWrite 0 (.base true)]

-- The worker reads the vote and records it.
def recordVoteEvents : List RudpSysEvent :=
  [.server (.worker 0), .server (.worker 0), .begRead 0 0 (.data ⟨1, ⟨⟨.voteYes, 1, 0, 1, 7⟩, 0⟩⟩),
    .server (.worker 0), .server (.endRead 0 0), .server (.worker 0), .server (.worker 0),
    .server (.timeEnd 0 99)]

theorem rudp_statistics_one : ∃ s : RudpSystem,
    (rudpSystem (.oneThread .rdpLn 1 100 1 (by decide) (by decide))).Reachable Machine.always s ∧
    ((s.srv.workers 0).stats.map fun x => (x.clientId, x.sRtos, x.timeStart)) = [(1, 1, 7)] ∧
    (∀ w < 1, ∀ x ∈ (s.srv.workers w).stats,
      Attributed (.oneThread .rdpLn 1 100 1 (by decide) (by decide)) s x) ∧
    (∀ w < 1, ∀ v < 1, ∀ (j k : Nat) (x y : Stat),
      (s.srv.workers w).stats[j]? = some x → (s.srv.workers v).stats[k]? = some y →
      x.clientId = y.clientId → x.stage = y.stage → w = v ∧ j = k) := by
  let C : Cluster := .oneThread .rdpLn 1 100 1 (by decide) (by decide)
  obtain ⟨s, hrun, hs⟩ := Machine.exists_run_of_eval (rudpSystem C) Machine.always
    (voteOnceEvents ++ recordVoteEvents)
    (fun s => ((s.srv.workers 0).stats.map fun x => (x.clientId, x.sRtos, x.timeStart)) ==
        [(1, 1, 7)] && (decide ((s.conn 0).server.sent.length ≤ 2) &&
        decide ((s.conn 0).client.sent.length ≤ 2))) (by decide +kernel)
  simp only [Bool.and_eq_true, beq_iff_eq, decide_eq_true_eq] at hs
  obtain ⟨hstats, hserver, hclient⟩ := hs
  refine ⟨s, hrun.reachable, hstats, rudp_statistics (C := C) rfl hrun.reachable fun i hi k => ?_⟩
  obtain rfl : i = 0 := Nat.lt_one_iff.mp hi
  have := (s.conn 0).server.resent_le_length k
  have := (s.conn 0).client.resent_le_length k
  omega

end Q2pc
