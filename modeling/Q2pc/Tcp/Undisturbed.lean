import Q2pc.System.Balance
import Q2pc.Tcp.Delivery
import Q2pc.Tcp.Refinement

namespace Q2pc

open Function (update)

variable {C : Cluster} {msgSize i : Nat} {s s' : TcpSystem} {a b : System} {c : TcpConn}
  {event : TcpSysEvent} {m : Nat → Nat}

-- No wait for votes has a timeout, no read() or write() fails, no process ends, and the
-- workers have room for what they record.
def TcpSystem.undisturbed (C : Cluster) (s : TcpSystem) : TcpSysEvent → Prop
  | .server (.clock expired) => expired = false
  | .server (.endWriteRet _ r) => r ≠ .efin
  | .server (.timeEnd w _) => ((s.srv.workers w).stats.length : Int) + 1 < C.cfg.statsLen
  | .connect _ x | .begRead _ _ x | .receive _ x => x ≠ .finished ∧ x ≠ .refused
  | .write _ x | .clientWrite _ x => x ≠ .failed
  | .quit _ | .exit _ => False
  | .server _ | .start | .clientInit _ | .respond _ => True

instance (C : Cluster) (s : TcpSystem) (e : TcpSysEvent) : Decidable (s.undisturbed C e) := by
  unfold TcpSystem.undisturbed
  split <;> infer_instance

def TcpSystem.Up (msgSize : Nat) (s : TcpSystem) : Prop :=
  ∀ i, (s.conn i).down.Up msgSize ∧ (s.conn i).up.Up msgSize

theorem TcpSystem.Up.update (h : s.Up msgSize)
    (hc : c.down.Up msgSize ∧ c.up.Up msgSize) :
    ∀ j, (update s.conn i c j).down.Up msgSize ∧ (update s.conn i c j).up.Up msgSize := by
  intro j
  by_cases hji : j = i
  · subst hji
    rwa [Function.update_self]
  · rw [Function.update_of_ne hji]
    exact h j

private theorem TcpSystem.Up.server {e : Event} (h : s.Up msgSize)
    (hdelete : ∀ w i, e ≠ .delete w i) (hs : s.server msgSize C e = some s') :
    s'.Up msgSize := by
  obtain ⟨srv, -, hs⟩ := Option.bind_eq_some_iff.mp hs
  cases e with
  | begWrite i p =>
      simp only [Option.ite_none_right_eq_some] at hs
      obtain ⟨l, hl, hs⟩ := Option.bind_eq_some_iff.mp hs.2
      cases hs
      exact h.update ⟨(h i).1.step (e := .begWrite p.msg.encode) trivial hl, (h i).2⟩
  | endWrite i =>
      obtain ⟨l, hl, hs⟩ := Option.bind_eq_some_iff.mp hs
      cases hs
      exact h.update ⟨(h i).1.step (e := .endWrite) trivial hl, (h i).2⟩
  | endWriteRet i r =>
      simp only [Option.ite_none_right_eq_some, Option.some.injEq] at hs
      rw [← hs.2]
      exact h
  | endRead w i =>
      obtain ⟨l, hl, hs⟩ := Option.bind_eq_some_iff.mp hs
      cases hs
      exact h.update ⟨(h i).1, (h i).2.step (e := .endDelimit) trivial hl⟩
  | delete w i => exact absurd rfl (hdelete w i)
  | master | clock | worker | begRead | timeEnd =>
      cases hs
      exact h

private theorem TcpSystem.Up.connect {x : PipeRead} (h : s.Up msgSize)
    (hs : s.connect msgSize i x = some s') : s'.Up msgSize := by
  obtain ⟨⟨l, r⟩, hread, hs⟩ := Option.bind_eq_some_iff.mp hs
  have hup := (h i).2.begRead hread
  dsimp only at hs
  split at hs
  · split at hs
    · obtain ⟨l', hend, hs⟩ := Option.bind_eq_some_iff.mp hs
      cases hs
      exact h.update ⟨(h i).1, hup.step (e := .endDelimit) trivial hend⟩
    · cases hs
      exact h.update ⟨(h i).1, hup⟩
  · cases hs
    exact h.update ⟨(h i).1, hup⟩

private theorem TcpSystem.Up.receive {x : PipeRead} (h : s.Up msgSize) (hpos : 0 < msgSize)
    (hx : x ≠ .finished ∧ x ≠ .refused) (hs : s.receive msgSize i x = some s') :
    s'.Up msgSize := by
  obtain ⟨⟨l, r⟩, hread, hs⟩ := Option.bind_eq_some_iff.mp hs
  have hup := (h i).1.begRead hread
  dsimp only at hs
  split at hs
  · obtain ⟨l', hend, hs⟩ := Option.bind_eq_some_iff.mp hs
    obtain ⟨cl, -, hs⟩ := Option.bind_eq_some_iff.mp hs
    cases hs
    exact h.update ⟨hup.step (e := .endDelimit) trivial hend, (h i).2⟩
  next hret =>
    rcases TcpLink.begRead_efin hpos (h i).1.run hread hret with rfl | rfl
    · exact absurd rfl hx.1
    · exact absurd rfl hx.2
  · cases hs
    exact h.update ⟨hup, (h i).2⟩

-- A connection is closed by `delete`, and where a client terminates.
theorem TcpSystem.Up.step (h : s.Up msgSize) (hpos : 0 < msgSize) (hok : s.undisturbed C event)
    (hdelete : ∀ w i, event ≠ .server (.delete w i))
    (hexpected : ∀ i < C.cfg.clientCount, ∀ c, (s.client i).respond ≠ some (c, none))
    (hs : s.step msgSize C event = some s') : s'.Up msgSize := by
  cases event <;> simp only [TcpSystem.step, Option.ite_none_right_eq_some] at hs
  case connect i x => exact h.connect hs.2
  case start =>
      obtain ⟨-, hs⟩ := hs
      cases hs
      exact h
  case server e => exact h.server (fun w i he => hdelete w i (congrArg _ he)) hs.2
  case write i x =>
      obtain ⟨-, hs⟩ := hs
      obtain ⟨l, hl, rfl⟩ := Option.map_eq_some_iff.mp hs
      exact h.update ⟨(h i).1.step (TcpEvent.keeps_write hok) hl, (h i).2⟩
  case begRead w i x =>
      obtain ⟨⟨l, r⟩, hread, hs⟩ := Option.bind_eq_some_iff.mp hs.2
      obtain ⟨srv, -, hs⟩ := Option.bind_eq_some_iff.mp hs
      cases hs
      exact h.update ⟨(h i).1, (h i).2.begRead hread⟩
  case clientInit i =>
      obtain ⟨l, hl, hs⟩ := Option.bind_eq_some_iff.mp hs.2
      cases hs
      exact h.update ⟨(h i).1, (h i).2.send hl⟩
  case clientWrite i x =>
      obtain ⟨l, hl, hs⟩ := Option.bind_eq_some_iff.mp hs.2
      have hend : l.endWrite ≠ .ret .efin := fun hend => hok (TcpLink.write_efin hl hend)
      simp only [if_neg hend] at hs
      cases hs
      exact h.update ⟨(h i).1, (h i).2.step (TcpEvent.keeps_write hok) hl⟩
  case receive i x => exact h.receive hpos hok hs.2
  case respond i =>
      obtain ⟨hi, hs⟩ := hs
      obtain ⟨⟨cl, response⟩, hcl, hs⟩ := Option.bind_eq_some_iff.mp hs
      cases response with
      | none => exact absurd hcl (hexpected i hi cl)
      | some p =>
          obtain ⟨l, hl, hs⟩ := Option.bind_eq_some_iff.mp hs
          cases hs
          exact h.update ⟨(h i).1, (h i).2.send hl⟩
  case quit => exact hok.elim
  case exit => exact hok.elim

-- The cluster over TCP, and the cluster over whole messages in the same state.
structure TcpLive (msgSize : Nat) (C : Cluster) (s : TcpSystem) (a : System) : Prop where
  run : (systemMachine C).Reachable (System.undisturbed C) a
  implements : TcpImplements msgSize C s a
  exact : TcpExact s.srv s.client a
  up : s.Up msgSize

theorem TcpLive.init (msgSize : Nat) (C : Cluster) : TcpLive msgSize C (.init C) (.init C) where
  run := .init
  implements := .inl (.init msgSize C)
  exact := ⟨rfl, rfl⟩
  up := fun _ => ⟨.init msgSize, .init msgSize⟩

private theorem TcpLive.not_delete (h : TcpLive msgSize C s a) (hbalance : Balance C a m)
    (hs : s.step msgSize C event = some s') : ∀ w i, event ≠ .server (.delete w i) := by
  rintro w i rfl
  simp only [TcpSystem.step, Option.ite_none_right_eq_some] at hs
  obtain ⟨srv, hsrv, -⟩ := Option.bind_eq_some_iff.mp hs.2
  rw [h.exact.1] at hsrv
  exact hbalance.not_delete hsrv

theorem TcpLive.expected (h : TcpLive msgSize C s a) (hqj : C.cfg.transType ≠ .udpQj)
    (hi : i < C.cfg.clientCount) : ∀ c, (s.client i).respond ≠ some (c, none) := by
  intro c hc
  rw [h.exact.2] at hc
  have hs : (systemMachine C).step a (.respond i) = some { a with
      net := { a.net with toServer := update a.net.toServer i (a.net.toServer i ++ []) }
      client := update a.client i c } := by
    simp [systemMachine, System.step, hi, hc]
  obtain ⟨b, m, -, -, -, hbalance⟩ := exists_balance hqj (h.run.step (e := .respond i) trivial hs)
  refine (hbalance.sent i hi).running ?_
  unfold Client.respond at hc
  split at hc <;> try contradiction
  split at hc
  · cases hc
    simp
  · split at hc <;> cases hc

private theorem TcpLive.upStep (h : TcpLive msgSize C s a) (hpos : 0 < msgSize)
    (hqj : C.cfg.transType ≠ .udpQj) (hok : s.undisturbed C event)
    (hs : s.step msgSize C event = some s') : s'.Up msgSize := by
  obtain ⟨b, m, -, -, -, hbalance⟩ := exists_balance hqj h.run
  exact h.up.step hpos hok (h.not_delete hbalance hs) (fun i hi => h.expected hqj hi) hs

private theorem TcpLive.undisturbed {e : SysEvent} (h : TcpLive msgSize C s a)
    (hqj : C.cfg.transType ≠ .udpQj) (hok : s.undisturbed C event) (he : event.Answer s e)
    (hs : s.step msgSize C event = some s') : a.undisturbed C e := by
  cases he with
  | server e =>
      cases e with
      | timeEnd w us =>
          simp only [TcpSystem.undisturbed, h.exact.1] at hok
          exact hok
      | begRead w i r =>
          -- these steps are `begRead` of the system
          simp [TcpSystem.step, Event.isBegRead] at hs
      | _ => exact hok
  | begRead hefin =>
      intro heq
      rcases hefin heq with rfl | rfl
      · exact hok.1 rfl
      · exact hok.2 rfl
  | receive | respond => trivial
  | finished hx =>
      rcases hx with rfl | rfl
      · exact hok.1 rfl
      · exact hok.2 rfl
  | failed => exact hok rfl
  | @unexpected i hnone =>
      obtain ⟨c, hc⟩ := hnone
      simp only [TcpSystem.step, Option.ite_none_right_eq_some] at hs
      exact h.expected hqj hs.1 c hc
  | quit => exact hok

theorem TcpLive.sparse (h : TcpLive msgSize C s a) (hqj : C.cfg.transType ≠ .udpQj) :
    a.Sparse C := by
  obtain ⟨b, m, hinv, hcounters, -, hbalance⟩ := exists_balance hqj h.run
  exact sparse_of_counters hinv hcounters hbalance.running

theorem TcpLive.step (h : TcpLive msgSize C s a) (hmin : 16 ≤ msgSize)
    (htcp : C.cfg.transType = .tcpLn) (hok : s.undisturbed C event)
    (hs : s.step msgSize C event = some s') : ∃ b, TcpLive msgSize C s' b := by
  have hqj : C.cfg.transType ≠ .udpQj := by simp [htcp]
  obtain ⟨bound, mark, hinv, -⟩ := exists_balance hqj h.run
  have hup := h.upStep (by omega) hqj hok hs
  obtain ⟨t, rfl | ⟨e, he, ht⟩, himpl, hexact⟩ := h.implements.step hinv hmin htcp hs
  · exact ⟨t, h.run, himpl, hexact h.exact (h.sparse hqj), hup⟩
  · exact ⟨t, h.run.step (h.undisturbed hqj hok he hs) ht, himpl,
      hexact h.exact (h.sparse hqj), hup⟩

theorem exists_tcpLive (hmin : 16 ≤ msgSize) (htcp : C.cfg.transType = .tcpLn)
    (h : (tcpSystem msgSize C).Reachable (TcpSystem.undisturbed C) s) :
    ∃ a, TcpLive msgSize C s a := by
  apply h.invariant (P := fun s => ∃ a, TcpLive msgSize C s a)
  · exact ⟨_, .init msgSize C⟩
  · rintro s event s' - ⟨a, ha⟩ hok hs
    exact ha.step hmin htcp hok hs

theorem TcpLive.connect (h : TcpLive msgSize C s a) (hpos : 0 < msgSize)
    (hqj : C.cfg.transType ≠ .udpQj) (hok : s.undisturbed C event)
    (hs : s.step msgSize C event = some s') (hnext : TcpConnecting msgSize C s' a) :
    TcpLive msgSize C s' a :=
  ⟨h.run, .inl hnext, ⟨hnext.srv.trans hnext.waits.1.symm, hnext.client⟩,
    h.upStep hpos hqj hok hs⟩

structure TcpServing (msgSize : Nat) (C : Cluster) (s : TcpSystem) (a : System) : Prop
    extends TcpLive msgSize C s a where
  started : s.up = true

theorem TcpServing.follows (h : TcpServing msgSize C s a) : TcpFollows msgSize C s a := by
  rcases h.implements with himpl | himpl
  · have hstarted := h.started
    simp [himpl.up] at hstarted
  · exact himpl

theorem TcpServing.answers {e : SysEvent} (h : TcpServing msgSize C s a) (hpos : 0 < msgSize)
    (hqj : C.cfg.transType ≠ .udpQj) (hok : s.undisturbed C event)
    (hs : s.step msgSize C event = some s') (hanswers : TcpAnswers msgSize C s s' a e)
    (he : a.undisturbed C e) (hb : (systemMachine C).step a e = some b) :
    TcpServing msgSize C s' b := by
  obtain ⟨b', hb', hfollows, hexact⟩ := hanswers
  obtain rfl := Option.some.inj (hb.symm.trans hb')
  exact ⟨⟨h.run.step he hb, .inr hfollows, hexact h.exact (h.toTcpLive.sparse hqj),
    h.toTcpLive.upStep hpos hqj hok hs⟩, hfollows.up⟩

end Q2pc
