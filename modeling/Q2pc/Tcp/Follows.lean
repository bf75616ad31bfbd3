import Q2pc.System.WorkerSteps
import Q2pc.Tcp.Connecting
import Q2pc.Tcp.Released

namespace Q2pc

open Function (update)

variable {C : Cluster} {msgSize i w : Nat} {s s' : TcpSystem} {a : System} {b m : Nat → Nat}
  {c : TcpConn} {cl cl' : Client} {p q : Packet} {x : PipeRead} {e : Event}
  {l : TcpLink} {r : BegRead}

-- A client that takes the message it has read for another one terminates on it.
def Client.Like (c a : Client) : Prop :=
  c = a ∨ ∃ old old', a.pc = .respond old ∧ c = { a with pc := .respond old' } ∧
    c.answer old' = none

theorem Client.Like.logs (h : cl.Like cl') :
    cl.votes = cl'.votes ∧ cl.decisions = cl'.decisions := by
  rcases h with rfl | ⟨old, old', -, rfl, -⟩
  · exact ⟨rfl, rfl⟩
  · exact ⟨rfl, rfl⟩

theorem Client.Like.waiting (h : cl.Like cl') (hpc : cl.pc = .getMessage) : cl = cl' := by
  rcases h with rfl | ⟨old, old', -, rfl, -⟩
  · rfl
  · simp at hpc

theorem Client.Like.quit (h : cl.Like cl') :
    Client.Like { cl with pc := .terminated } { cl' with pc := .terminated } := by
  rcases h with rfl | ⟨old, old', -, rfl, -⟩
  · exact .inl rfl
  · exact .inl rfl

theorem Client.Like.responding {next : Client} {response : Packet} (h : cl.Like cl')
    (hr : cl.respond = some (next, some response)) : cl = cl' := by
  rcases h with rfl | ⟨old, old', -, rfl, hnone⟩
  · rfl
  · simp [Client.respond, hnone] at hr

-- Of two messages on their way to a client the first is a request, which the client waits
-- for, and the second the decision of the round.
theorem Channel.two_on_way {id bound mark : Nat} {toClient toServer : List Packet}
    {pending : Option Packet} {passed : Packet → Prop} {slot : MsgType}
    (h : Channel id cl (p :: toClient) toServer pending passed slot bound mark)
    (hq : toClient.head? = some q) :
    cl.phase = .phase1 ∧ p.msg.type = .request ∧
      (q.msg.type = .commit ∨ q.msg.type = .cancel) := by
  have hmem : q ∈ toClient := List.mem_of_head? hq
  obtain ⟨hp, hle, -⟩ := h.toClient_mem p (by simp)
  obtain ⟨hpq, -, hlt⟩ := h.toClient_mem q (by simp [hmem])
  have hsorted := (List.pairwise_cons.mp h.toClient_sorted).1 q hmem
  have hwindow := h.window
  have hmark := h.mark_le
  cases hphase : cl.phase with
  | phase1 =>
      have hstage : cl.stage = 2 * cl.votes.length := by simp [Client.stage, hphase]
      exact ⟨rfl, h.request p hp (by omega), h.decision q hpq (by omega)⟩
  | phase2 =>
      have hpos := h.logs.phase2 hphase
      have hstage : cl.stage = 2 * cl.votes.length - 1 := by simp [Client.stage, hphase]
      omega

-- The cluster `a` over connections that deliver whole messages follows the cluster `s` over
-- TCP.
structure TcpFollows (msgSize : Nat) (C : Cluster) (s : TcpSystem) (a : System) : Prop where
  up : s.up = true
  srv : s.srv.Same a.srv
  conn : ∀ i < C.cfg.clientCount, TcpMirror msgSize (s.conn i) a.net i
  client : ∀ i, (s.client i).Like (a.client i)
  fits : ∀ i old, (s.client i).pc = .respond old → old.msg.Fits
  last : ∀ i < C.cfg.clientCount, ∀ old, (a.client i).pc = .respond old → (s.conn i).Last old

private theorem TcpFollows.mirrors {net : Net} (h : TcpFollows msgSize C s a)
    (hmirror : i < C.cfg.clientCount → TcpMirror msgSize c net i)
    (hnet : ∀ j, j ≠ i → a.net.SameAt net j) :
    ∀ j < C.cfg.clientCount, TcpMirror msgSize (update s.conn i c j) net j := by
  intro j hj
  by_cases hji : j = i
  · subst hji
    rw [Function.update_self]
    exact hmirror hj
  · rw [Function.update_of_ne hji]
    exact (h.conn j hj).congr (hnet j hji)

private theorem TcpFollows.lasts (h : TcpFollows msgSize C s a) (hlater : (s.conn i).Later c) :
    ∀ j < C.cfg.clientCount, ∀ old, (a.client j).pc = .respond old →
      (update s.conn i c j).Last old := by
  intro j hj old hpc
  have hlast := h.last j hj old hpc
  by_cases hji : j = i
  · subst hji
    rw [Function.update_self]
    exact hlast.later hlater
  · rwa [Function.update_of_ne hji]

private theorem TcpFollows.stutter (h : TcpFollows msgSize C s a)
    (hmirror : i < C.cfg.clientCount → TcpMirror msgSize c a.net i)
    (hlater : (s.conn i).Later c) :
    TcpFollows msgSize C { s with conn := update s.conn i c } a :=
  { h with
    conn := h.mirrors hmirror fun j _ => .refl _ j
    last := h.lasts hlater }

-- The clusters agree in the server and in the clients.
def TcpExact (srv : Server) (client : Nat → Client) (a : System) : Prop :=
  srv = a.srv ∧ client = a.client

def System.Sparse (C : Cluster) (a : System) : Prop :=
  ∀ i < C.cfg.clientCount, (a.net.toClient i).tail = [] ∧
    (a.net.readBuffer i ≠ none → a.net.toServer i = [])

-- The step to `s'` is the step `e` of the other cluster. If they agree, and no message is
-- behind another one, they agree still.
def TcpAnswers (msgSize : Nat) (C : Cluster) (s s' : TcpSystem) (a : System) (e : SysEvent) :
    Prop :=
  ∃ b, (systemMachine C).step a e = some b ∧ TcpFollows msgSize C s' b ∧
    (TcpExact s.srv s.client a → a.Sparse C → TcpExact s'.srv s'.client b)

private theorem TcpFollows.call {srv t : Server} {net : Net} (h : TcpFollows msgSize C s a)
    (hsame : srv.Same t) (hmirror : i < C.cfg.clientCount → TcpMirror msgSize c net i)
    (hnet : ∀ j, j ≠ i → a.net.SameAt net j) (hlater : (s.conn i).Later c) :
    TcpFollows msgSize C { s with srv, conn := update s.conn i c } { a with srv := t, net } :=
  { h with
    srv := hsame
    conn := h.mirrors hmirror hnet
    last := h.lasts hlater }

private theorem serverStep {srv : Server} {net : Net} (hsrv : a.srv.step C.cfg e = some srv)
    (hnet : a.net.step C.cfg e = some net) :
    (systemMachine C).step a (.server e) = some { a with srv, net } := by
  simp [systemMachine, System.step, hsrv, hnet]

private theorem TcpFollows.clients {net : Net} {ac : Client} (h : TcpFollows msgSize C s a)
    (hmirror : i < C.cfg.clientCount → TcpMirror msgSize c net i)
    (hnet : ∀ j, j ≠ i → a.net.SameAt net j) (hlike : cl.Like ac)
    (hfits : ∀ old, cl.pc = .respond old → old.msg.Fits)
    (hlast : ∀ old, ac.pc = .respond old → c.Last old) :
    TcpFollows msgSize C
      { s with conn := update s.conn i c, client := update s.client i cl }
      { a with net, client := update a.client i ac } where
  up := h.up
  srv := h.srv
  conn := h.mirrors hmirror hnet
  client := by
    intro j
    show (update s.client i cl j).Like (update a.client i ac j)
    by_cases hji : j = i
    · subst hji
      rwa [Function.update_self, Function.update_self]
    · rw [Function.update_of_ne hji, Function.update_of_ne hji]
      exact h.client j
  fits := by
    intro j old hpc
    change (update s.client i cl j).pc = _ at hpc
    by_cases hji : j = i
    · subst hji
      rw [Function.update_self] at hpc
      exact hfits old hpc
    · rw [Function.update_of_ne hji] at hpc
      exact h.fits j old hpc
  last := by
    intro j hj old hpc
    change (update a.client i ac j).pc = _ at hpc
    show (update s.conn i c j).Last old
    by_cases hji : j = i
    · subst hji
      rw [Function.update_self] at hpc ⊢
      exact hlast old hpc
    · rw [Function.update_of_ne hji] at hpc ⊢
      exact h.last j hj old hpc

theorem TcpFollows.quit (h : TcpFollows msgSize C s a) (hi : i < C.cfg.clientCount) :
    TcpAnswers msgSize C s (s.quit i) a (.quit i) := by
  refine ⟨_, if_pos hi, h.clients (fun hi => (h.conn i hi).upClose)
    (fun j _ => Net.SameAt.refl a.net j) (h.client i).quit (by simp) (by simp), ?_⟩
  rintro ⟨hsrv, hclient⟩ -
  refine ⟨hsrv, ?_⟩
  show update s.client i _ = update a.client i _
  rw [hclient]

-- A message that is not what the client waits for is as good as the one that came.
private theorem Client.Like.receive {msg : Msg} {id bound mark : Nat} {rest toServer : List Packet}
    {pending : Option Packet} {passed : Packet → Prop} {slot : MsgType}
    (h : Channel id cl (p :: rest) toServer pending passed slot bound mark)
    (hmsg : msg = p.msg ∨ ∃ q, rest.head? = some q ∧
      (p.msg.type.Small → q.msg.type.Small → msg.type = q.msg.type))
    (hr : cl.receive ⟨msg, p.stage⟩ = some cl') :
    ∃ ac, cl.receive p = some ac ∧ cl'.Like ac := by
  rcases hmsg with rfl | ⟨q, hq, htype⟩
  · exact ⟨cl', hr, .inl rfl⟩
  · obtain ⟨hphase, hp, hdecision⟩ := h.two_on_way hq
    have hsmall : q.msg.type.Small := by
      rcases hdecision with hq | hq <;> rw [hq] <;> decide
    have hmsg := htype (by rw [hp]; decide) hsmall
    unfold Client.receive at hr ⊢
    split at hr <;> try contradiction
    simp only [hphase, Option.some.injEq] at hr ⊢
    subst hr
    refine ⟨_, rfl, .inr ⟨p, _, rfl, rfl, ?_⟩⟩
    simp only [Client.answer, hmsg]
    rcases hdecision with hq | hq <;> rw [hq]

private theorem receive_pc (hr : cl.receive p = some cl') : cl'.pc = .respond p := by
  unfold Client.receive at hr
  split at hr <;> try contradiction
  split at hr <;> cases hr <;> rfl

theorem TcpFollows.receiveMessage (h : TcpFollows msgSize C s a) (hinv : Inv C a b m)
    (hmin : 16 ≤ msgSize) (hi : i < C.cfg.clientCount) (hpc : (s.client i).pc = .getMessage)
    (hread : (s.conn i).down.begRead msgSize x = some (l, r)) (hret : r.ret = .enone)
    (hs : s.receive msgSize i x = some s') : TcpAnswers msgSize C s s' a (.receive i) := by
  have hmirror := h.conn i hi
  obtain ⟨data, l', p, rest, hout, hend, htoClient, hstage, hmirror', hlast, hmsg⟩ :=
    hmirror.receive hmin hread hret
  simp only [TcpSystem.receive, hread, hret, hout, hend, Option.bind_eq_bind, Option.bind_some,
    hstage] at hs
  obtain ⟨cl, hcl, hs⟩ := Option.bind_eq_some_iff.mp hs
  cases hs
  have hsame := (h.client i).waiting hpc
  have hch := hinv.channel i hi
  simp only [ChannelOk, htoClient] at hch
  rw [hsame] at hcl
  obtain ⟨ac, hac, hlike⟩ := Client.Like.receive hch hmsg hcl
  refine ⟨_, ?_, h.clients (fun _ => hmirror')
    (fun j hj => ⟨by simp [hj], rfl, rfl, rfl, fun _ h => h⟩) hlike ?_ ?_, ?_⟩
  · simp [systemMachine, System.step, htoClient, hi, hac]
  · intro old hold
    rw [receive_pc hcl, ClientPc.respond.injEq] at hold
    subst hold
    exact Msg.fits_read _ _
  · intro old hold
    rw [receive_pc hac, ClientPc.respond.injEq] at hold
    rwa [← hold]
  · rintro ⟨hsrv, hclient⟩ hsparse
    have htail := (hsparse i hi).1
    rw [htoClient, List.tail_cons] at htail
    rcases hmsg with hmsg | ⟨q, hq, -⟩
    · rw [hmsg] at hcl
      obtain rfl := Option.some.inj (hcl.symm.trans hac)
      refine ⟨hsrv, ?_⟩
      show update s.client i _ = update a.client i _
      rw [hclient]
    · simp [htail] at hq

theorem TcpFollows.receive (h : TcpFollows msgSize C s a) (hinv : Inv C a b m)
    (hmin : 16 ≤ msgSize) (hi : i < C.cfg.clientCount) (hpc : (s.client i).pc = .getMessage)
    (hs : s.receive msgSize i x = some s') :
    (TcpFollows msgSize C s' a ∧ s'.srv = s.srv ∧ s'.client = s.client) ∨
      TcpAnswers msgSize C s s' a (.receive i) ∨
      (x = .finished ∨ x = .refused) ∧ TcpAnswers msgSize C s s' a (.quit i) := by
  obtain ⟨⟨l, r⟩, hread, hrest⟩ := Option.bind_eq_some_iff.mp hs
  by_cases hret : r.ret = .enone
  · exact .inr (.inl (h.receiveMessage hinv hmin hi hpc hread hret hs))
  · have hmirror := (h.conn i hi).receiveNone hmin hread hret
    obtain ⟨-, -, -, hdelivered⟩ := TcpLink.begRead_frame hread
    cases hr : r.ret with
    | enone => exact absurd hr hret
    | efin =>
        simp only [hr] at hrest
        obtain ⟨l', hend, hrest⟩ := Option.bind_eq_some_iff.mp hrest
        cases hrest
        obtain ⟨-, -, hsame, -⟩ := hmirror.down.endNothing hmirror.idle hend
        exact .inr (.inr ⟨TcpLink.begRead_efin (by omega) (h.conn i hi).down.run hread hr,
          (h.stutter (fun _ => hmirror.downEndRead hend)
            ⟨hsame.trans hdelivered, List.prefix_rfl⟩).quit hi⟩)
    | eagain | rtofired =>
        simp only [hr, Option.some.injEq] at hrest
        subst hrest
        exact .inl ⟨h.stutter (fun _ => hmirror) ⟨hdelivered, List.prefix_rfl⟩, rfl, rfl⟩

theorem TcpFollows.respond (h : TcpFollows msgSize C s a) (hmin : 16 ≤ msgSize)
    (hi : i < C.cfg.clientCount) (hs : s.respond msgSize i = some s') :
    TcpAnswers msgSize C s s' a (.respond i) ∨
      (∃ c, (s.client i).respond = some (c, none)) ∧ TcpAnswers msgSize C s s' a (.quit i) := by
  unfold TcpSystem.respond at hs
  obtain ⟨⟨cl, response⟩, hcl, hs⟩ := Option.bind_eq_some_iff.mp hs
  cases response with
  | none =>
      cases hs
      exact .inr ⟨⟨cl, hcl⟩, h.quit hi⟩
  | some p =>
      obtain ⟨l, hsend, hs⟩ := Option.bind_eq_some_iff.mp hs
      cases hs
      have hfits := respond_fits hcl (h.fits i)
      have hpc : ∀ old, cl.pc ≠ .respond old := by
        intro old hold
        unfold Client.respond at hcl
        split at hcl <;> try contradiction
        split at hcl
        · simp at hcl
        · split at hcl <;> cases hcl <;> simp at hold
      rw [(h.client i).responding hcl] at hcl
      refine .inl ⟨_, ?_, h.clients (fun hi => (h.conn i hi).upSend hmin hfits hsend)
        (fun j hj => ⟨rfl, by simp [hj], rfl, rfl, fun _ h => h⟩) (.inl rfl)
        (fun old hold => absurd hold (hpc old)) fun old hold => absurd hold (hpc old), ?_⟩
      · simp [systemMachine, System.step, hi, hcl]
      · rintro ⟨hsrv, hclient⟩ -
        refine ⟨hsrv, ?_⟩
        show update s.client i _ = update a.client i _
        rw [hclient]

theorem TcpFollows.pending (h : TcpFollows msgSize C s a) (hinv : Inv C a b m)
    (hw : w < C.cfg.threadCount)
    (hpc : (s.srv.workers w).pc = .score i p ∨ (s.srv.workers w).pc = .endRead i p) :
    i < C.cfg.clientCount ∧ a.net.readBuffer i = some p := by
  obtain ⟨ws, hsrv, hsame⟩ := h.srv
  have hpcs := (hsame w).pc
  have hat := hinv.workers.position w hw
  rw [hsrv] at hat
  rcases hpc with hpc | hpc <;> rw [hpc] at hpcs
  · rw [show ((s.srv.withWorkers ws).workers w).pc = .score i p from
      hpcs.eq (by simp) (by simp) (by simp)] at hat
    exact ⟨lt_clientCount hw hat.2.1, hat.2.2.2.2⟩
  · rw [show ((s.srv.withWorkers ws).workers w).pc = .endRead i p from
      hpcs.eq (by simp) (by simp) (by simp)] at hat
    exact ⟨lt_clientCount hw hat.2.1, hat.2.2.2.2⟩

private theorem Server.Same.master {srv t : Server} (h : srv.Same t) : t.master = srv.master := by
  obtain ⟨ws, rfl, -⟩ := h
  rfl

private theorem reread_eq {srv : Server} (hpc : (srv.workers w).pc = .loadCount i p) :
    srv.reread w p.msg = srv := by
  have hworker : (⟨.loadCount i p, (srv.workers w).stats⟩ : Worker) = srv.workers w := by
    rw [← hpc]
  simp only [Server.reread, hpc, Server.setWorker, hworker, Function.update_eq_self]

theorem TcpFollows.server (h : TcpFollows msgSize C s a) (hinv : Inv C a b m)
    (hmin : 16 ≤ msgSize) (hqj : C.cfg.transType ≠ .udpQj) (hbeg : e.isBegRead = false)
    (hs : s.server msgSize C e = some s') : TcpAnswers msgSize C s s' a (.server e) := by
  unfold TcpSystem.server at hs
  obtain ⟨srv, hsrv, hs⟩ := Option.bind_eq_some_iff.mp hs
  obtain ⟨t, ht, hsame⟩ := h.srv.step hsrv
  have hexact : TcpExact s.srv s.client a → srv = t ∧ s.client = a.client := by
    rintro ⟨heq, hclient⟩
    rw [heq] at hsrv
    exact ⟨Option.some.inj (hsrv.symm.trans ht), hclient⟩
  -- a step that is no call
  have hstill : a.net.step C.cfg e = some a.net → s' = { s with srv } →
      TcpAnswers msgSize C s s' a (.server e) := by
    rintro hnet rfl
    exact ⟨_, serverStep ht hnet, { h with srv := hsame }, fun heq _ => hexact heq⟩
  cases e with
  | begRead => simp [Event.isBegRead] at hbeg
  | master | clock | worker | timeEnd => exact hstill rfl (Option.some.inj hs).symm
  | begWrite i p =>
      simp only [Option.ite_none_right_eq_some] at hs
      obtain ⟨⟨hle, hlt⟩, hs⟩ := hs
      obtain ⟨l, hl, hs⟩ := Option.bind_eq_some_iff.mp hs
      cases hs
      have hfits : p.msg.Fits := by
        rcases step_cases hsrv with hm | ⟨_, -, hm⟩
        · cases hm with
          | begWrite | broadcastBegWrite => exact requestMsg_fits _ hle hlt
        · cases hm
      exact ⟨_, serverStep ht rfl, h.call hsame
        (fun hi => (h.conn i hi).begWrite hmin hfits hl)
        (fun j hj => ⟨rfl, rfl, rfl, by simp [hj], fun _ h => h⟩)
        ⟨(TcpLink.writer_frame hl trivial).2.1, List.prefix_rfl⟩, fun heq _ => hexact heq⟩
  | endWrite i =>
      obtain ⟨l, hl, hs⟩ := Option.bind_eq_some_iff.mp hs
      cases hs
      refine ⟨_, serverStep ht rfl, h.call hsame (fun hi => ?_)
        (fun j hj => ⟨by simp [Net.write, hqj, hj], rfl, rfl, rfl, fun x hx => by
          simp [Net.write, hx]⟩)
        ⟨(TcpLink.writer_frame hl trivial).2.1, List.prefix_append _ _⟩, fun heq _ => hexact heq⟩
      have hmirror := h.conn i hi
      refine hmirror.endWrite hmin hqj ?_ hl
      -- the buffer holds the message of the phase
      rcases step_cases hsrv with hm | ⟨_, -, hm⟩
      · cases hm with
        | @endWrite ph _ hpc =>
            have hat := hinv.master.position
            simp only [MasterAt, h.srv.master.trans hpc] at hat
            obtain ⟨-, -, -, -, ⟨-, htype⟩, -⟩ := hat
            rw [← hmirror.buffer, htype]
            cases ph with
            | phase1 => simp [Phase.msgType]
            | phase2 st => cases st <;> simp [Phase.msgType]
      · cases hm
  | endWriteRet i r =>
      simp only [Option.ite_none_right_eq_some, Option.some.injEq] at hs
      obtain ⟨⟨hi, hret⟩, rfl⟩ := hs
      exact hstill (if_pos ((h.conn i hi).down.ret hret)) rfl
  | endRead w i =>
      obtain ⟨l, hl, hs⟩ := Option.bind_eq_some_iff.mp hs
      cases hs
      obtain ⟨p, hw, hpc, hnext⟩ : ∃ p, w < C.cfg.threadCount ∧
          (s.srv.workers w).pc = .endRead i p ∧ (srv.workers w).pc = .loadCount i p := by
        rcases step_cases hsrv with hm | ⟨w', hw, hm⟩
        · cases hm
        · cases hm with
          | endRead hpc => exact ⟨_, hw, hpc, by simp [Server.setWorker]⟩
      obtain ⟨hi, hpending⟩ := h.pending hinv hw (.inr hpc)
      obtain ⟨hmirror, hmsg⟩ := (h.conn i hi).endRead hmin hpending hl
      refine ⟨_, serverStep ht rfl, h.call (hsame.reread w _) (fun _ => hmirror)
        (fun j hj => ⟨rfl, rfl, by simp [hj], rfl, fun _ h => h⟩) ⟨rfl, List.prefix_rfl⟩, ?_⟩
      intro heq hsparse
      rw [hmsg ((hsparse i hi).2 (by simp [hpending])), reread_eq hnext]
      exact hexact heq
  | delete w i =>
      cases hs
      exact ⟨_, serverStep ht rfl, h.call hsame (fun hi => (h.conn i hi).downClose)
        (fun j _ => .refl _ j) ⟨rfl, List.prefix_rfl⟩, fun heq _ => hexact heq⟩

theorem TcpConn.readResult_efin (hread : (s.conn i).up.begRead msgSize x = some (l, r))
    (hpos : 0 < msgSize) (hup : (tcpLink msgSize).Reachable Machine.always (s.conn i).up)
    (hefin : ((s.conn i).setRead l r).readResult r = .efin) : x = .finished ∨ x = .refused := by
  refine TcpLink.begRead_efin hpos hup hread ?_
  unfold TcpConn.readResult at hefin
  split at hefin <;> simp_all

theorem TcpFollows.begRead (h : TcpFollows msgSize C s a) (hmin : 16 ≤ msgSize)
    (htcp : C.cfg.transType = .tcpLn)
    (hread : (s.conn i).up.begRead msgSize x = some (l, r))
    (hs : s.begRead msgSize C w i x = some s') :
    (((s.conn i).setRead l r).readResult r = .efin → x = .finished ∨ x = .refused) ∧
      TcpAnswers msgSize C s s' a
        (.server (.begRead w i (((s.conn i).setRead l r).readResult r))) := by
  simp only [TcpSystem.begRead, hread, Option.bind_eq_bind, Option.bind_some] at hs
  obtain ⟨srv, hsrv, hs⟩ := Option.bind_eq_some_iff.mp hs
  cases hs
  obtain ⟨t, ht, hsame⟩ := h.srv.step hsrv
  have hi : i < C.cfg.clientCount := by
    rcases step_cases hsrv with hm | ⟨w', hw, hm⟩
    · cases hm
    · cases hm with
      | begRead hpc hi _ => exact lt_clientCount hw hi
  obtain ⟨net, hnet, hmirror, hother⟩ := (h.conn i hi).begRead hmin htcp hread
  refine ⟨TcpConn.readResult_efin hread (by omega) (h.conn i hi).up.run, _, serverStep ht hnet,
    h.call hsame (fun _ => hmirror) hother ⟨rfl, List.prefix_rfl⟩, ?_⟩
  rintro ⟨heq, hclient⟩ -
  rw [heq] at hsrv
  exact ⟨Option.some.inj (hsrv.symm.trans ht), hclient⟩

theorem TcpFollows.clientWrite {x : SysWrite} (h : TcpFollows msgSize C s a)
    (hi : i < C.cfg.clientCount) (hs : s.clientWrite msgSize i x = some s') :
    (TcpFollows msgSize C s' a ∧ s'.srv = s.srv ∧ s'.client = s.client) ∨
      x = .failed ∧ TcpAnswers msgSize C s s' a (.quit i) := by
  unfold TcpSystem.clientWrite at hs
  obtain ⟨l, hl, hs⟩ := Option.bind_eq_some_iff.mp hs
  cases hs
  have hquiet := h.stutter (fun hi => (h.conn i hi).upWrite hl) ⟨rfl, List.prefix_rfl⟩
  split
  next hend => exact .inr ⟨TcpLink.write_efin hl hend, hquiet.quit hi⟩
  next => exact .inl ⟨hquiet, rfl, rfl⟩

theorem TcpFollows.write {x : SysWrite} (h : TcpFollows msgSize C s a)
    (hs : (s.conn i).down.step msgSize (.write x) = some l) :
    TcpFollows msgSize C { s with conn := update s.conn i { s.conn i with down := l } } a :=
  h.stutter (fun hi => (h.conn i hi).downWrite hs)
    ⟨(TcpLink.writer_frame hs trivial).2.1, List.prefix_rfl⟩

-- The server has ended, and so have its streams.
theorem TcpFollows.exit (h : TcpFollows msgSize C s a) :
    TcpFollows msgSize C { s with conn := update s.conn i { s.conn i with
      down := { (s.conn i).down with closed := true } } } a :=
  h.stutter (fun hi => (h.conn i hi).downClose) ⟨rfl, List.prefix_rfl⟩

end Q2pc
