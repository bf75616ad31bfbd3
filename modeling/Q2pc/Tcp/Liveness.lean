import Q2pc.System.Rounds
import Q2pc.Tcp.Undisturbed

namespace Q2pc

open Function (update)

variable {C : Cluster} {cfg : Config} {sv : Server} {msgSize i w R : Nat} {s s' : TcpSystem}
  {a b : System} {e : Event} {event : TcpSysEvent} {l : TcpLink}

private theorem callee_startPhase (hqj : cfg.transType ≠ .udpQj) (ph : Phase) :
    (sv.startPhase cfg ph).master.callee = none := by
  have hsend : ∀ ph, (sv.sendRequest cfg ph).master.callee = none := by
    intro ph
    rw [Server.sendRequest, if_neg hqj]
    rfl
  unfold Server.startPhase
  split <;> first | exact hsend _ | rfl

theorem callee_lt (hqj : cfg.transType ≠ .udpQj)
    (h : (serverMachine cfg).Reachable Machine.always sv) (hi : sv.master.callee = some i) :
    i < cfg.clientCount := by
  revert i
  apply h.invariant (P := fun sv => ∀ i, sv.master.callee = some i → i < cfg.clientCount)
  · intro i hi
    contradiction
  · intro sv e t _ ih _ hs i hi
    rcases step_cases hs with hm | ⟨w, -, hm⟩
    · cases hm with
      | collectNext _ hlt | callConn _ hlt =>
          obtain rfl := Option.some.inj hi
          exact hlt
      | endWrite hpc | broadcastBegWrite hpc =>
          obtain rfl := Option.some.inj hi
          exact ih _ (by rw [hpc]; rfl)
      | startPhase => simp [callee_startPhase hqj] at hi
      | phaseReturn => simp [Server.callee_afterPhase] at hi
      | endWriteRet => simp [Server.callee_endWriteRet] at hi
      | _ => contradiction
    · rw [hm.frame.1] at hi
      exact ih i hi

namespace TcpSystem

def setUp (s : TcpSystem) (i : Nat) (l : TcpLink) : TcpSystem :=
  { s with conn := update s.conn i { s.conn i with up := l } }

def setDown (s : TcpSystem) (i : Nat) (l : TcpLink) : TcpSystem :=
  { s with conn := update s.conn i { s.conn i with down := l } }

@[simp] theorem setUp_client : (s.setUp i l).client = s.client := rfl

@[simp] theorem setUp_srv : (s.setUp i l).srv = s.srv := rfl

@[simp] theorem setDown_srv : (s.setDown i l).srv = s.srv := rfl

@[simp] theorem setUp_conn : (s.setUp i l).conn i = { s.conn i with up := l } :=
  Function.update_self ..

@[simp] theorem setDown_conn : (s.setDown i l).conn i = { s.conn i with down := l } :=
  Function.update_self ..

@[simp] theorem setUp_eq : s.setUp i (s.conn i).up = s := by
  simp [setUp]

@[simp] theorem setDown_eq : s.setDown i (s.conn i).down = s := by
  simp [setDown]

end TcpSystem

theorem TcpLive.flushUp (h : TcpLive msgSize C s a) (hi : i < C.cfg.clientCount) :
    ∃ l, l.endWrite = .ret .enone ∧ l.delivered = (s.conn i).up.delivered ∧
      (tcpSystem msgSize C).Steps (TcpSystem.undisturbed C) s (s.setUp i l) ∧
      TcpLive msgSize C (s.setUp i l) a := by
  rcases (h.up i).2.flush with hend | ⟨n, l, hl, hend⟩
  · refine ⟨_, hend, rfl, ?_, ?_⟩
    · rw [TcpSystem.setUp_eq]
      exact .refl
    · rwa [TcpSystem.setUp_eq]
  · have hwrite : s.clientWrite msgSize i (.wrote n) = some (s.setUp i l) := by
      simp [TcpSystem.clientWrite, hl, hend, TcpSystem.setUp]
    refine ⟨l, hend, (TcpLink.writer_frame hl trivial).2.1,
      .one (e := .clientWrite i (.wrote n)) (by simp [TcpSystem.undisturbed])
        ((if_pos hi).trans hwrite), h.run, ?_, h.exact, ?_⟩
    · rcases h.implements with himpl | himpl
      · exact .inl ((himpl.clientWrite hi hwrite).resolve_right fun hfail => by simp at hfail)
      · exact .inr ((himpl.clientWrite hi hwrite).resolve_right fun hfail => by simp at hfail).1
    · exact h.up.update ⟨(h.up i).1, (h.up i).2.step (TcpEvent.keeps_write (by simp)) hl⟩

namespace TcpServing

-- The cluster over TCP has steps to the state `b` of the other cluster.
def Reaches (msgSize : Nat) (C : Cluster) (s : TcpSystem) (b : System) : Prop :=
  ∃ t, (tcpSystem msgSize C).Steps (TcpSystem.undisturbed C) s t ∧ TcpServing msgSize C t b

theorem Reaches.after (h : Reaches msgSize C s' b)
    (hsteps : (tcpSystem msgSize C).Steps (TcpSystem.undisturbed C) s s') :
    Reaches msgSize C s b := by
  obtain ⟨t, hst, ht⟩ := h
  exact ⟨t, hsteps.trans hst, ht⟩

theorem flushDown (h : TcpServing msgSize C s a) (hi : i < C.cfg.clientCount) :
    ∃ l, l.endWrite = .ret .enone ∧
      (tcpSystem msgSize C).Steps (TcpSystem.undisturbed C) s (s.setDown i l) ∧
      TcpServing msgSize C (s.setDown i l) a := by
  rcases (h.up i).1.flush with hend | ⟨n, l, hl, hend⟩
  · refine ⟨_, hend, ?_, ?_⟩
    · rw [TcpSystem.setDown_eq]
      exact .refl
    · rwa [TcpSystem.setDown_eq]
  · refine ⟨l, hend, .one (e := .write i (.wrote n)) (by simp [TcpSystem.undisturbed]) ?_,
      ⟨h.run, .inr (h.follows.write hl), h.exact,
        h.up.update ⟨(h.up i).1.step (TcpEvent.keeps_write (by simp)) hl, (h.up i).2⟩⟩, h.started⟩
    simp [tcpSystem, TcpSystem.step, h.started, hi, hl, TcpSystem.setDown]

theorem flushUp (h : TcpServing msgSize C s a) (hi : i < C.cfg.clientCount) :
    ∃ l, l.endWrite = .ret .enone ∧
      (tcpSystem msgSize C).Steps (TcpSystem.undisturbed C) s (s.setUp i l) ∧
      TcpServing msgSize C (s.setUp i l) a := by
  obtain ⟨l, hend, -, hsteps, hlive⟩ := h.toTcpLive.flushUp hi
  exact ⟨l, hend, hsteps, hlive, h.started⟩

private theorem one {e : SysEvent} (h : TcpServing msgSize C s a) (hpos : 0 < msgSize)
    (hqj : C.cfg.transType ≠ .udpQj) (hs : s.step msgSize C event = some s')
    (hok : s.undisturbed C event) (hanswers : TcpAnswers msgSize C s s' a e)
    (he : a.undisturbed C e) (hb : (systemMachine C).step a e = some b) :
    Reaches msgSize C s b :=
  ⟨s', .one hok hs, h.answers hpos hqj hok hs hanswers he hb⟩

private theorem undisturbed_server (h : TcpServing msgSize C s a)
    (he : a.undisturbed C (.server e)) : s.undisturbed C (.server e) := by
  cases e with
  | timeEnd w us =>
      simp only [TcpSystem.undisturbed, h.exact.1]
      exact he
  | begRead | master | worker | begWrite | endWrite | endRead | delete => trivial
  | clock | endWriteRet => exact he

private theorem call (h : TcpServing msgSize C s a) (hmin : 16 ≤ msgSize)
    (hqj : C.cfg.transType ≠ .udpQj) (he : a.undisturbed C (.server e))
    (hbeg : e.isBegRead = false) (hs : (s.server msgSize C e).isSome)
    (hb : (systemMachine C).step a (.server e) = some b) : Reaches msgSize C s b := by
  obtain ⟨_, _, hinv, -⟩ := exists_balance hqj h.run
  obtain ⟨s', hs⟩ := Option.isSome_iff_exists.mp hs
  have hstep : s.step msgSize C (.server e) = some s' := (if_pos ⟨h.started, hbeg⟩).trans hs
  exact h.one (by omega) hqj hstep (h.undisturbed_server he)
    (h.follows.server hinv hmin hqj hbeg hs) he hb

private theorem masterCall {srv : Server} (h : TcpServing msgSize C s a) (hmin : 16 ≤ msgSize)
    (hmax : msgSize ≤ buffSize) (hqj : C.cfg.transType ≠ .udpQj)
    (he : a.undisturbed C (.server e)) (hfit : a.prompt (.server e))
    (hsrv : a.srv.step C.cfg e = some srv) (hi : a.srv.master.callee = some i)
    (hcall : (∃ p, e = .begWrite i p) ∨ e = .endWrite i ∨ e = .endWriteRet i .enone)
    (hb : (systemMachine C).step a (.server e) = some b) : Reaches msgSize C s b := by
  have hlt := callee_lt hqj (srv_reachable h.run) hi
  obtain ⟨l, hend, hsteps, h'⟩ := h.flushDown hlt
  have hdown := (h'.up i).1
  rw [TcpSystem.setDown_conn] at hdown
  rw [← h.exact.1] at hsrv
  refine Reaches.after ?_ hsteps
  rcases hcall with ⟨p, rfl⟩ | rfl | rfl
  · obtain ⟨l', hl', -⟩ := hdown.exists_begWrite hend p.msg
    refine h'.call hmin hqj he rfl ?_ hb
    have hclock : -2 ^ 63 ≤ p.msg.ts ∧ p.msg.ts < 2 ^ 63 := hfit
    simpa [TcpSystem.server, hsrv, hl'] using hclock
  · obtain ⟨l', hl'⟩ := hdown.exists_endWrite hmax hend
    refine h'.call hmin hqj he rfl ?_ hb
    simp [TcpSystem.server, hsrv, hl']
  · refine h'.call hmin hqj he rfl ?_ hb
    simp [TcpSystem.server, hsrv, hend, hlt]

-- The other cluster has a message on its way, or pending.
private theorem delivered_lt {p : Packet} {rest : List Packet} {sent : List Packet}
    {k : Nat} (h : p :: rest = sent.drop k) : k < sent.length := by
  have hlen := congrArg List.length h
  rw [List.length_cons, List.length_drop] at hlen
  omega

private theorem readResult_of_enone {c : TcpConn} {r : BegRead} (hret : r.ret = .enone) :
    c.readResult r ≠ .eagain ∧ c.readResult r ≠ .efin := by
  unfold TcpConn.readResult
  rw [hret]
  cases r.out <;> simp

private theorem begRead {srv : Server} {net : Net} {r : ReadResult} (h : TcpServing msgSize C s a)
    (hmin : 16 ≤ msgSize) (hmax : msgSize ≤ buffSize) (htcp : C.cfg.transType = .tcpLn)
    (he : a.undisturbed C (.server (.begRead w i r))) (hfit : a.prompt (.server (.begRead w i r)))
    (hsrv : a.srv.step C.cfg (.begRead w i r) = some srv)
    (hnet : a.net.begRead C.cfg i r = some net)
    (hb : (systemMachine C).step a (.server (.begRead w i r)) = some b) :
    Reaches msgSize C s b := by
  have hqj : C.cfg.transType ≠ .udpQj := by simp [htcp]
  obtain ⟨_, _, hinv, -⟩ := exists_balance hqj h.run
  obtain ⟨hi, hnone⟩ : i < C.cfg.clientCount ∧ a.net.readBuffer i = none := by
    rcases step_cases hsrv with hm | ⟨w', hw, hm⟩
    · cases hm
    · cases hm with
      | begRead hpc hlt _ => exact ⟨lt_clientCount hw hlt, hinv.workers.pending_none hw hpc hlt⟩
  obtain ⟨l, hend, hsteps, h'⟩ := h.flushUp hi
  refine Reaches.after ?_ hsteps
  have hmirror := h'.follows.conn i hi
  have htoServer := hmirror.toServer
  rw [hnone, Option.toList_none, List.nil_append] at htoServer
  rw [← h.exact.1] at hsrv
  -- a read() that brings this result
  suffices hread : ∃ x l' r', (x ≠ .finished ∧ x ≠ .refused) ∧
      ((s.setUp i l).conn i).up.begRead msgSize x = some (l', r') ∧
      (((s.setUp i l).conn i).setRead l' r').readResult r' = r by
    obtain ⟨x, l', r', hx, hread, rfl⟩ := hread
    obtain ⟨s', hs⟩ : ∃ s', (s.setUp i l).begRead msgSize C w i x = some s' := by
      simp only [TcpSystem.begRead, hread, TcpSystem.setUp_srv, hsrv, Option.bind_eq_bind,
        Option.bind_some]
      exact ⟨_, rfl⟩
    have hstep : (s.setUp i l).step msgSize C (.begRead w i x) = some s' :=
      (if_pos h'.started).trans hs
    exact h'.one (by omega) hqj hstep hx (h'.follows.begRead hmin htcp hread hs).2 he hb
  rcases begRead_cases hnone hnet with ⟨rfl | rfl, -⟩ | ⟨p, rest, rfl, hto, -⟩
  · have hempty : a.net.toServer i = [] := hfit
    rw [hempty] at htoServer
    obtain ⟨l', r', hread, hret⟩ := hmirror.up.begRead_again (by omega)
      (List.drop_eq_nil_iff.mp htoServer.symm)
    exact ⟨.again, l', r', by simp, hread, by simp [TcpConn.readResult, hret]⟩
  · exact absurd rfl he
  · rw [hto] at htoServer
    obtain ⟨x, l', r', hx, hread, hret⟩ := hmirror.up.exists_shown (by omega) hmax
      (by simpa using hend) (delivered_lt htoServer)
    refine ⟨x, l', r', hx, hread, ?_⟩
    obtain ⟨net', hnet', -⟩ := hmirror.begRead hmin htcp hread
    rcases begRead_cases hnone hnet' with ⟨hr | hr, -⟩ | ⟨q, rest', hr, hto', -⟩
    · exact absurd hr (readResult_of_enone hret).1
    · exact absurd hr (readResult_of_enone hret).2
    · rw [hto] at hto'
      rw [hr, (List.cons.inj hto').1]

private theorem endRead {srv : Server} (h : TcpServing msgSize C s a) (hmin : 16 ≤ msgSize)
    (hqj : C.cfg.transType ≠ .udpQj) (he : a.undisturbed C (.server (.endRead w i)))
    (hsrv : a.srv.step C.cfg (.endRead w i) = some srv)
    (hb : (systemMachine C).step a (.server (.endRead w i)) = some b) : Reaches msgSize C s b := by
  obtain ⟨_, _, hinv, -⟩ := exists_balance hqj h.run
  rw [← h.exact.1] at hsrv
  obtain ⟨p, hw, hpc⟩ : ∃ p, w < C.cfg.threadCount ∧ (s.srv.workers w).pc = .endRead i p := by
    rcases step_cases hsrv with hm | ⟨w', hw, hm⟩
    · cases hm
    · cases hm with
      | endRead hpc => exact ⟨_, hw, hpc⟩
  obtain ⟨hi, hpending⟩ := h.follows.pending hinv hw (.inr hpc)
  have hmirror := h.follows.conn i hi
  have hshown : (s.conn i).up.shown ≠ none := fun hnone => by
    simp [hmirror.pending.mpr hnone] at hpending
  have hbegun := (TcpLink.held_of_reachable (by omega) hmirror.up.run).begun hshown
  refine h.call hmin hqj he rfl ?_ hb
  simp [TcpSystem.server, hsrv, TcpLink.step, hbegun]

private theorem receive {p : Packet} {rest : List Packet} {cl : Client}
    (h : TcpServing msgSize C s a) (hmin : 16 ≤ msgSize) (hmax : msgSize ≤ buffSize)
    (htcp : C.cfg.transType = .tcpLn) (hi : i < C.cfg.clientCount)
    (hto : a.net.toClient i = p :: rest) (hcl : (a.client i).receive p = some cl)
    (hb : (systemMachine C).step a (.receive i) = some b) : Reaches msgSize C s b := by
  have hqj : C.cfg.transType ≠ .udpQj := by simp [htcp]
  obtain ⟨_, _, hinv, -⟩ := exists_balance hqj h.run
  have hsparse := (h.toTcpLive.sparse hqj i hi).1
  have hpc : (a.client i).pc = .getMessage := by
    unfold Client.receive at hcl
    split at hcl <;> first | assumption | contradiction
  obtain ⟨l, hend, hsteps, h'⟩ := h.flushUp hi
  obtain ⟨l', hend', hsteps', h''⟩ := h'.flushDown hi
  refine Reaches.after (Reaches.after ?_ hsteps') hsteps
  generalize hs : (s.setUp i l).setDown i l' = u at h''
  have hmirror := h''.follows.conn i hi
  have hclient := congrFun h''.exact.2 i
  have htoClient := hmirror.toClient
  rw [hto] at htoClient
  obtain ⟨x, l₁, r, hx, hread, hret⟩ := hmirror.down.exists_shown (by omega) hmax
    (by simpa [← hs] using hend') (delivered_lt htoClient)
  obtain ⟨data, l₂, p', rest', hout, hrelease, hto', hstage, -, -, hmsg⟩ :=
    hmirror.receive hmin hread hret
  obtain ⟨rfl, rfl⟩ := List.cons.inj (hto.symm.trans hto')
  have hsame : l₂.message data = p.msg := by
    rw [hto, List.tail_cons] at hsparse
    rcases hmsg with hmsg | ⟨q, hq, -⟩
    · exact hmsg
    · simp [hsparse] at hq
  obtain ⟨s', hs'⟩ : ∃ s', u.receive msgSize i x = some s' := by
    simp only [TcpSystem.receive, hread, hret, hout, hrelease, hstage, hsame, hclient, hcl,
      Option.bind_eq_bind, Option.bind_some]
    exact ⟨_, rfl⟩
  rw [← hclient] at hpc
  have hstep : u.step msgSize C (.receive i x) = some s' :=
    (if_pos ⟨hi, hmirror.joined, by simpa [← hs] using hend, hpc⟩).trans hs'
  exact h''.one (by omega) hqj hstep hx
    (h''.follows.receiveMessage hinv hmin hi hpc hread hret hs') trivial hb

private theorem respond {cl : Client} {response : Option Packet} (h : TcpServing msgSize C s a)
    (hmin : 16 ≤ msgSize) (hmax : msgSize ≤ buffSize) (hqj : C.cfg.transType ≠ .udpQj)
    (hi : i < C.cfg.clientCount) (hcl : (a.client i).respond = some (cl, response))
    (hb : (systemMachine C).step a (.respond i) = some b) : Reaches msgSize C s b := by
  obtain ⟨l, hend, hsteps, h'⟩ := h.flushUp hi
  have hup := (h'.up i).2
  rw [TcpSystem.setUp_conn] at hup
  rw [← h.exact.2] at hcl
  have hexpected := h'.toTcpLive.expected hqj hi
  refine Reaches.after ?_ hsteps
  cases response with
  | none => exact absurd hcl (hexpected cl)
  | some p =>
      obtain ⟨l', hl'⟩ := hup.exists_send hmax hend p.msg
      obtain ⟨s', hs'⟩ : ∃ s', (s.setUp i l).respond msgSize i = some s' := by
        simp [TcpSystem.respond, hcl, hl']
      have hstep : (s.setUp i l).step msgSize C (.respond i) = some s' := (if_pos hi).trans hs'
      exact h'.one (by omega) hqj hstep trivial
        ((h'.follows.respond hmin hi hs').resolve_right fun ⟨⟨c, hc⟩, _⟩ => hexpected c hc)
        trivial hb

-- Each step of the other cluster has its steps over TCP.
theorem reaches {e : SysEvent} (h : TcpServing msgSize C s a) (hmin : 16 ≤ msgSize)
    (hmax : msgSize ≤ buffSize) (htcp : C.cfg.transType = .tcpLn) (he : a.undisturbed C e)
    (hfit : a.prompt e) (hb : (systemMachine C).step a e = some b) : Reaches msgSize C s b := by
  have hqj : C.cfg.transType ≠ .udpQj := by simp [htcp]
  have hb' := hb
  cases e with
  | quit | faultToClient | faultToServer => exact he.elim
  | receive i =>
      simp only [systemMachine, System.step] at hb'
      split at hb' <;> try contradiction
      next p rest hto =>
      simp only [Option.ite_none_right_eq_some] at hb'
      obtain ⟨hi, hb'⟩ := hb'
      obtain ⟨cl, hcl, -⟩ := Option.map_eq_some_iff.mp hb'
      exact h.receive hmin hmax htcp hi hto hcl hb
  | respond i =>
      simp only [systemMachine, System.step, Option.ite_none_right_eq_some] at hb'
      obtain ⟨hi, hb'⟩ := hb'
      obtain ⟨⟨cl, response⟩, hcl, -⟩ := Option.map_eq_some_iff.mp hb'
      exact h.respond hmin hmax hqj hi hcl hb
  | server e =>
      simp only [systemMachine, System.step] at hb'
      obtain ⟨srv, hsrv, hb'⟩ := Option.bind_eq_some_iff.mp hb'
      obtain ⟨net, hnet, -⟩ := Option.bind_eq_some_iff.mp hb'
      have hcallee : ∀ i, (∃ p, e = .begWrite i p) ∨ e = .endWrite i ∨ e = .endWriteRet i .enone →
          a.srv.master.callee = some i := by
        intro i hcall
        rcases step_cases hsrv with hm | ⟨w, -, hm⟩
        · cases hm with
          | begWrite hpc | broadcastBegWrite hpc | endWrite hpc =>
              rw [hpc]
              simpa [MasterPc.callee, eq_comm] using hcall
          | endWriteRet hpc =>
              simp only [reduceCtorEq, exists_false, Event.endWriteRet.injEq, false_or] at hcall
              rw [hpc, hcall.1]
              rfl
          | _ => simp at hcall
        · cases hm <;> simp at hcall
      have hcall : ∀ i, (∃ p, e = .begWrite i p) ∨ e = .endWrite i ∨ e = .endWriteRet i .enone →
          Reaches msgSize C s b := fun i hcall =>
        h.masterCall hmin hmax hqj he hfit hsrv (hcallee i hcall) hcall hb
      cases e with
      | master | clock | worker | timeEnd =>
          refine h.call hmin hqj he rfl ?_ hb
          simp [TcpSystem.server, h.exact.1, hsrv]
      | begWrite i p => exact hcall i (.inl ⟨p, rfl⟩)
      | endWrite i => exact hcall i (.inr (.inl rfl))
      | endWriteRet i r =>
          simp only [Net.step, Option.ite_none_right_eq_some] at hnet
          obtain rfl := hnet.1.resolve_right he
          exact hcall i (.inr (.inr rfl))
      | begRead w i r => exact h.begRead hmin hmax htcp he hfit hsrv hnet hb
      | endRead w i => exact h.endRead hmin hqj he hsrv hb
      | delete w i =>
          obtain ⟨_, _, -, -, -, hbalance⟩ := exists_balance hqj h.run
          exact absurd hsrv hbalance.not_delete

end TcpServing

private theorem TcpSystem.clientInit_frame (hs : s.clientInit msgSize i = some s') :
    s'.up = s.up ∧ s'.connected = s.connected ∧ (s'.conn i).joined = true ∧
      (s'.conn i).up.delivered = (s.conn i).up.delivered := by
  obtain ⟨l, hl, hs⟩ := Option.bind_eq_some_iff.mp hs
  cases hs
  obtain ⟨l', hbeg, hend⟩ := Option.bind_eq_some_iff.mp hl
  have hsame := (TcpLink.writer_frame hend trivial).2.1.trans
    (TcpLink.writer_frame hbeg trivial).2.1
  simpa using hsame

namespace TcpLive

theorem connecting (h : TcpLive msgSize C s a) (hup : s.up = false) :
    TcpConnecting msgSize C s a := by
  rcases h.implements with himpl | himpl
  · exact himpl
  · simp [himpl.up] at hup

private theorem exists_joined (h : TcpLive msgSize C s a) (hmin : 16 ≤ msgSize)
    (hmax : msgSize ≤ buffSize) (hqj : C.cfg.transType ≠ .udpQj) (hup : s.up = false)
    (hi : i < C.cfg.clientCount) :
    ∃ t, (tcpSystem msgSize C).Steps (TcpSystem.undisturbed C) s t ∧ TcpLive msgSize C t a ∧
      t.up = false ∧ t.connected = s.connected ∧ (t.conn i).joined = true ∧
      (t.conn i).up.endWrite = .ret .enone ∧
      (t.conn i).up.delivered = (s.conn i).up.delivered := by
  obtain ⟨l, hend, hsame, hsteps, h'⟩ := h.flushUp hi
  cases hjoined : (s.conn i).joined with
  | true =>
      exact ⟨_, hsteps, h', hup, rfl, by simpa using hjoined, by simpa using hend,
        by simpa using hsame⟩
  | false =>
      obtain ⟨_, _, -, -, -, hbalance⟩ := exists_balance hqj h.run
      have hpc : (s.client i).pc = .getMessage := by
        have hrunning := (hbalance.sent i hi).running
        rw [← h.exact.2] at hrunning
        have hunstarted := (h.connecting hup).unstarted i
        cases hpc : (s.client i).pc with
        | getMessage => rfl
        | respond old => exact absurd hpc (hunstarted old)
        | terminated => exact absurd hpc hrunning
      have hlink := (h'.up i).2
      rw [TcpSystem.setUp_conn] at hlink
      obtain ⟨l', hl'⟩ := hlink.exists_send hmax hend (conMsg (s.client i).clientNum)
      obtain ⟨u, hu⟩ : ∃ u, (s.setUp i l).clientInit msgSize i = some u := by
        simp [TcpSystem.clientInit, hl']
      have hguard : i < C.cfg.clientCount ∧ ((s.setUp i l).conn i).joined = false ∧
          ((s.setUp i l).client i).pc = .getMessage := ⟨hi, by simpa using hjoined, hpc⟩
      have hs : (s.setUp i l).step msgSize C (.clientInit i) = some u := (if_pos hguard).trans hu
      have hok : (s.setUp i l).undisturbed C (.clientInit i) := trivial
      have hlive : TcpLive msgSize C u a := h'.connect (by omega) hqj hok hs
        ((h'.connecting hup).clientInit hmin hi (by simpa using hjoined) hu)
      obtain ⟨huup, hconnected, hujoined, hdelivered⟩ := TcpSystem.clientInit_frame hu
      obtain ⟨l'', hend', hsame', hsteps', hlive'⟩ := hlive.flushUp hi
      refine ⟨_, hsteps.trans (.head hok hs hsteps'), hlive', huup.trans hup, hconnected,
        by simpa using hujoined, by simpa using hend', ?_⟩
      simpa [hsame', hsame] using hdelivered

private theorem connectNext (h : TcpLive msgSize C s a) (hmin : 16 ≤ msgSize)
    (hmax : msgSize ≤ buffSize) (hqj : C.cfg.transType ≠ .udpQj) (hup : s.up = false)
    (hmore : s.connected < C.cfg.clientCount) :
    ∃ t, (tcpSystem msgSize C).Steps (TcpSystem.undisturbed C) s t ∧ TcpLive msgSize C t a ∧
      t.up = false ∧ t.connected = s.connected + 1 := by
  obtain ⟨i, hi, hnot⟩ := (h.connecting hup).exists_unconnected hmore
  obtain ⟨u, hsteps, h', huup, hconnected, hjoined, hend, hsame⟩ :=
    h.exists_joined hmin hmax hqj hup hi
  have hconnecting := h'.connecting huup
  have hjoining := hconnecting.conn i hi
  have hnone : (u.conn i).up.delivered = [] := hsame.trans (not_not.mp hnot)
  have hsent := hjoining.sent
  rw [if_pos hjoined] at hsent
  obtain ⟨x, l, r, hx, hread, hret⟩ := hjoining.up.exists_shown (by omega) hmax hend
    (by simp [hnone, hsent])
  obtain ⟨hbad, -⟩ | ⟨-, -, data, l', hout, htype, hrelease, -⟩ := hjoining.connect hmin hread
  · exact absurd hret hbad
  obtain ⟨t, ht, htup, htconnected⟩ : ∃ t, u.connect msgSize i x = some t ∧ t.up = u.up ∧
      t.connected = u.connected + 1 := by
    simp [TcpSystem.connect, hread, hret, hout, htype, hrelease]
  have hguard : u.up = false ∧ u.srv.master ≠ .terminated ∧ i < C.cfg.clientCount :=
    ⟨huup, by simp [hconnecting.srv, Server.init], hi⟩
  have hstep : u.step msgSize C (.connect i x) = some t := (if_pos hguard).trans ht
  have hok : u.undisturbed C (.connect i x) := hx
  exact ⟨t, hsteps.trans (.one hok hstep),
    h'.connect (by omega) hqj hok hstep (hconnecting.connect hmin hi ht), htup.trans huup,
    htconnected.trans (congrArg (· + 1) hconnected)⟩

theorem starts (h : TcpLive msgSize C s a) (hmin : 16 ≤ msgSize) (hmax : msgSize ≤ buffSize)
    (hqj : C.cfg.transType ≠ .udpQj) : TcpServing.Reaches msgSize C s a := by
  cases hup : s.up with
  | true => exact ⟨s, .refl, h, hup⟩
  | false =>
      induction hleft : C.cfg.clientCount - s.connected generalizing s with
      | zero =>
          have hconnecting := h.connecting hup
          have hall : C.cfg.clientCount ≤ s.connected := by omega
          have hguard : s.up = false ∧ s.srv.master ≠ .terminated ∧
              C.cfg.clientCount ≤ s.connected :=
            ⟨hup, by simp [hconnecting.srv, Server.init], hall⟩
          exact ⟨{ s with up := true }, .one (e := .start) trivial (if_pos hguard),
            ⟨h.run, .inr (.start hconnecting hmin hall), h.exact, h.up⟩, rfl⟩
      | succ k ih =>
          obtain ⟨t, hst, ht, htup, hconnected⟩ :=
            h.connectNext hmin hmax hqj hup (by omega)
          exact (ih ht htup (by omega)).after hst

end TcpLive

-- From every state of an undisturbed run of the cluster over TCP, from the connect messages
-- on and however its streams are cut, the steps lead on to the end of any later round that
-- the workers have room for, and there each client has cast its votes and learnt the outcomes
-- of all rounds.
theorem tcp_rounds_complete (hmin : 16 ≤ msgSize) (hmax : msgSize ≤ buffSize)
    (htcp : C.cfg.transType = .tcpLn) (hreport : C.cfg.reportInt ≠ 0)
    (h : (tcpSystem msgSize C).Reachable (TcpSystem.undisturbed C) s) (hR : s.srv.requests < R)
    (hroom : ∀ w < C.cfg.threadCount,
      ((2 * R * (C.cfg.hi w - C.cfg.lo w) : Nat) : Int) < C.cfg.statsLen) :
    ∃ t, (tcpSystem msgSize C).Steps (TcpSystem.undisturbed C) s t ∧ t.srv.master = .requests ∧
      t.srv.requests = R ∧ ∀ i < C.cfg.clientCount,
        (t.client i).votes = (List.range R).map (roundVote (C.peer i + 1)) ∧
        (t.client i).decisions = (List.range R).map (outcome C.cfg.clientCount) := by
  have hqj : C.cfg.transType ≠ .udpQj := by simp [htcp]
  obtain ⟨a, ha⟩ := exists_tcpLive hmin htcp h
  obtain ⟨t, hst, ht⟩ := ha.starts hmin hmax hqj
  rw [ha.exact.1] at hR
  obtain ⟨b, hab, hb⟩ := rounds_promptly hqj hreport ha.run hR hroom
  obtain ⟨u, htu, hu⟩ := Machine.Steps.lift
    (fun s a e b (hsa : TcpServing msgSize C s a) hok hb =>
      hsa.reaches hmin hmax htcp hok.1 hok.2 hb) ht hab
  refine ⟨u, hst.trans htu, ?_⟩
  rwa [hu.exact.1, hu.exact.2]

-- One of two clients is connected, and the connect message of the other is on its way.
def halfConnectedEvents : List TcpSysEvent :=
  [.clientInit 1, .clientWrite 1 (.wrote 16), .connect 1 (.chunk 9), .connect 1 (.chunk 7),
    .clientInit 0, .clientWrite 0 (.wrote 5)]

theorem tcp_rounds_complete_pair : ∃ s t : TcpSystem,
    (tcpSystem 16 (pair .tcpLn)).Reachable (TcpSystem.undisturbed (pair .tcpLn)) s ∧
    s.connected = 1 ∧
    (tcpSystem 16 (pair .tcpLn)).Steps (TcpSystem.undisturbed (pair .tcpLn)) s t ∧
    t.srv.requests = 5 ∧
    (t.client 0).decisions = [.commit, .commit, .commit, .cancel, .cancel] := by
  obtain ⟨s, hrun, hs⟩ := Machine.exists_run_of_eval (tcpSystem 16 (pair .tcpLn))
    (TcpSystem.undisturbed (pair .tcpLn)) halfConnectedEvents
    (fun s => s.connected == 1 && s.srv.requests == 0) (by decide +kernel)
  simp only [Bool.and_eq_true, beq_iff_eq] at hs
  obtain ⟨t, hst, -, hreq, ht⟩ := tcp_rounds_complete (C := pair .tcpLn) (R := 5) (Nat.le_refl 16)
    (by decide) rfl (by decide) hrun.reachable (by omega) (by decide)
  refine ⟨s, t, hrun.reachable, hs.1, hst, hreq, (ht 0 (by decide)).2.trans ?_⟩
  decide

end Q2pc
