import Q2pc.Lib.Progress
import Q2pc.System.Balance
import Q2pc.System.Safety

namespace Q2pc

open Function (update)

variable {C : Cluster} {s t u : System} {sv : Server} {net : Net} {e : Event} {b m : Nat → Nat}
  {i j k w : Nat}

-- The connections lose messages, the waits for votes have no timeout and the stop signal is
-- down.
def System.patient (s : System) (e : SysEvent) : Prop :=
  e.lossy ∧ e ≠ .server (.clock true) ∧ s.srv.stopSignal = false

instance (s : System) (e : SysEvent) : Decidable (s.patient e) :=
  inferInstanceAs (Decidable (_ ∧ _ ∧ _))

-- The message of the exchange `k` on connection `i`, or the answer to it, is nowhere.
structure Lost (s : System) (m : Nat → Nat) (i k : Nat) : Prop where
  now : s.srv.stageNow = k
  sent : ¬s.srv.Unsent i
  mark : m i ≤ k
  toClient : ∀ p ∈ s.net.toClient i, p.stage ≠ k
  responding : ∀ old, (s.client i).pc = .respond old → old.stage ≠ k
  toServer : ∀ p ∈ s.net.toServer i, p.stage ≠ k
  pending : ∀ p, s.net.readBuffer i = some p → p.stage ≠ k

theorem exists_counters_lossy (hqj : C.cfg.transType ≠ .udpQj)
    (h : (systemMachine C).Reachable System.patient s) :
    ∃ b m, Inv C s b m ∧ (s.srv.stopSignal = false → Counters C s.srv m) := by
  apply h.invariant (P := fun s => ∃ b m, Inv C s b m ∧
    (s.srv.stopSignal = false → Counters C s.srv m))
  · exact ⟨_, _, Inv.init C, fun _ => Counters.init C⟩
  · rintro s e t - ⟨b, m, hinv, hcounters⟩ ⟨hlossy, hclock, hstop⟩ hs
    obtain ⟨b', hinv'⟩ := hinv.step hqj hlossy hs
    exact ⟨b', _, hinv', counters_step hinv (hcounters hstop) hstop hclock hs⟩

theorem drop_only {l l' : List Packet} (hsorted : l.Pairwise fun p q => p.stage < q.stage)
    (hall : ∀ p ∈ l, p.stage = k) (hdrop : (Fault.drop j).apply l = some l') : l' = [] := by
  simp only [Fault.apply, Option.ite_none_right_eq_some, Option.some.injEq] at hdrop
  obtain ⟨hj, rfl⟩ := hdrop
  rcases l with _ | ⟨p, _ | ⟨q, l⟩⟩
  · simp at hj
  · obtain rfl : j = 0 := by simpa using hj
    rfl
  · have hlt := (List.pairwise_cons.mp hsorted).1 q (by simp)
    rw [hall p (by simp), hall q (by simp)] at hlt
    exact absurd hlt (Nat.lt_irrefl _)

theorem drop_nonempty {l l' : List Packet} (hdrop : (Fault.drop j).apply l = some l') :
    ∃ p, p ∈ l := by
  simp only [Fault.apply, Option.ite_none_right_eq_some] at hdrop
  exact ⟨l[j], List.getElem_mem hdrop.1⟩

private theorem mark_eq (hcounters : Counters C s.srv m) (hi : i < C.cfg.clientCount)
    (hle : m i ≤ s.srv.stageNow) : m i = s.srv.stageNow :=
  Nat.le_antisymm hle (hcounters.mark_ge hi)

-- A message that is on its way belongs to the exchange the master carries out.
theorem lost_toClient {l : List Packet} (hinv : Inv C s b m) (hcounters : Counters C s.srv m)
    (hstop : s.srv.stopSignal = false) (hi : i < C.cfg.clientCount)
    (hdrop : (Fault.drop j).apply (s.net.toClient i) = some l) :
    Lost { s with net := { s.net with toClient := update s.net.toClient i l } } m i
      s.srv.stageNow := by
  have hactive : s.srv.Active := ⟨hcounters.running, fun _ => hstop⟩
  have hchannel := hinv.channel i hi
  have hbound := hinv.master.bound_le hactive i hi
  have hmark := hchannel.mark_le
  obtain ⟨p, hp⟩ := drop_nonempty hdrop
  obtain ⟨-, hge, hlt⟩ := hchannel.toClient_mem p hp
  have hnow := mark_eq hcounters hi (by omega)
  have hall : ∀ q ∈ s.net.toClient i, q.stage = s.srv.stageNow := by
    intro q hq
    obtain ⟨-, hqge, hqlt⟩ := hchannel.toClient_mem q hq
    omega
  have hp := hall p hp
  refine ⟨rfl, ?_, hnow.le, ?_, ?_, ?_, ?_⟩
  · intro hunsent
    have := hinv.master.unsent hactive i hi hunsent
    omega
  · simp [drop_only hchannel.toClient_sorted hall hdrop]
  · intro old hpc
    have := (hchannel.responding old hpc).2.2.2 p ‹_›
    omega
  · intro q hq
    have := ((hchannel.toServer_mem q hq).1).stage_lt
    omega
  · intro q hq
    have := ((hchannel.pending_mem q hq).1).stage_lt
    omega

theorem lost_toServer {l : List Packet} (hinv : Inv C s b m) (hcounters : Counters C s.srv m)
    (hstop : s.srv.stopSignal = false) (hi : i < C.cfg.clientCount)
    (hdrop : (Fault.drop j).apply (s.net.toServer i) = some l) :
    Lost { s with net := { s.net with toServer := update s.net.toServer i l } } m i
      s.srv.stageNow := by
  have hactive : s.srv.Active := ⟨hcounters.running, fun _ => hstop⟩
  have hchannel := hinv.channel i hi
  have hbound := hinv.master.bound_le hactive i hi
  have hstage := hchannel.stage_le
  obtain ⟨p, hp⟩ := drop_nonempty hdrop
  obtain ⟨hresponse, hge⟩ := hchannel.toServer_mem p hp
  have hlt := hresponse.stage_lt
  have hnow := mark_eq hcounters hi (by omega)
  have hall : ∀ q ∈ s.net.toServer i, q.stage = s.srv.stageNow := by
    intro q hq
    obtain ⟨hqresponse, hqge⟩ := hchannel.toServer_mem q hq
    have := hqresponse.stage_lt
    omega
  refine ⟨rfl, ?_, hnow.le, ?_, ?_, ?_, ?_⟩
  · intro hunsent
    have := hinv.master.unsent hactive i hi hunsent
    omega
  · intro q hq
    have := (hchannel.toClient_mem q hq).2
    omega
  · intro old hpc
    have := (hchannel.responding old hpc).2
    omega
  · simp [drop_only hchannel.toServer_sorted hall hdrop]
  · intro q hq
    have := (hchannel.pending_mem q hq).2 p ‹_›
    omega

-- The master cannot get past the wait for votes of the exchange.
theorem Lost.masterStep (h : Lost s m i k) (hinv : Inv C s b m) (hcounters : Counters C s.srv m)
    (hqj : C.cfg.transType ≠ .udpQj) (hi : i < C.cfg.clientCount)
    (hs : MasterStep C.cfg s.srv e sv) (hnet : s.net.step C.cfg e = some net)
    (hstop : s.srv.stopSignal = false) (hstop' : sv.stopSignal = false) (hclock : e ≠ .clock true) :
    Lost { s with srv := sv, net := net } m i k := by
  have hopen : ¬s.srv.master.Closed := by
    intro hclosed
    have hcounted := ((hcounters.closed hclosed).counted i hi).1
    have := h.now
    have := h.mark
    omega
  have hsent := h.sent
  obtain ⟨hread, hserver, hclient⟩ := net_of_masterStep hs hqj hnet
  have hgo : ∀ ph, sv.master.phase = ph → s.srv.master.phase = ph →
      sv.requests = s.srv.requests → ¬sv.Unsent i → e ≠ .endWrite i →
      Lost { s with srv := sv, net := net } m i k := by
    intro ph hphase hphase' hreq hun he
    refine ⟨(Server.stageNow_congr hphase hphase' hreq).trans h.now, hun, h.mark, ?_,
      h.responding, ?_, ?_⟩
    · simpa only [hclient, if_neg he, List.append_nil] using h.toClient
    · simpa only [hserver] using h.toServer
    · simpa only [hread] using h.pending
  cases hs with
  | finish _ hf => simp [hf] at hstop
  | expired _ => exact absurd rfl hclock
  | startRound hpc | initSlot hpc | startPhase hpc | collectNext hpc | collected hpc
  | begWrite hpc | broadcastBegWrite hpc =>
      simp [Server.Unsent, hpc] at hsent
  | pause hpc | scanNext hpc | scanned hpc | readSlot hpc | badSlot hpc | clearNext hpc
  | cleared hpc | unpause hpc | badStatus hpc | phaseReturn hpc =>
      simp [MasterPc.Closed, hpc] at hopen
  | sendPass hpc | skipConn hpc | callConn hpc | passDone hpc =>
      refine hgo _ rfl (by rw [hpc]; rfl) rfl ?_ (by simp)
      simpa [Server.Unsent, Server.setMaster, hpc] using hsent
  | sent hpc | sumNext hpc | sumEnough hpc | sumShort hpc | notExpired hpc =>
      exact hgo _ rfl (by rw [hpc]; rfl) rfl (by simp [Server.Unsent, Server.setMaster]) (by simp)
  | @endWrite ph j hpc =>
      have hat := hinv.master.position
      simp only [MasterAt, hpc] at hat
      have hji : j ≠ i := by
        rintro rfl
        simp [Server.Unsent, hpc, hat.2.2.2.1] at hsent
      refine hgo ph rfl (by rw [hpc]; rfl) rfl ?_ (by simpa using hji)
      simp only [Server.Unsent, hpc] at hsent
      simp [Server.Unsent, Server.setMaster, hsent]
  | @endWriteRet ph j r hpc =>
      obtain rfl : r = .enone := by
        simp only [Net.step, Option.ite_none_right_eq_some] at hnet
        refine hnet.1.resolve_right ?_
        rintro rfl
        simp [Server.endWriteRet, hqj, Server.term] at hstop'
      have heq : s.srv.endWriteRet C.cfg ph j .enone = { s.srv with
          connRtofiredCount := update s.srv.connRtofiredCount j (-1)
          commited := s.srv.commited + 1
          master := .sendConn ph (j + 1) } := if_neg hqj
      rw [heq] at hgo ⊢
      refine hgo ph rfl (by rw [hpc]; rfl) rfl ?_ (by simp)
      simp only [Server.Unsent, hpc] at hsent
      by_cases hij : i = j
      · simp [Server.Unsent, hij]
      · simpa [Server.Unsent, hij] using hsent

theorem Lost.workerStep (h : Lost s m i k) (hinv : Inv C s b m) (hcounters : Counters C s.srv m)
    (hstop : s.srv.stopSignal = false) (hw : w < C.cfg.threadCount)
    (hs : WorkerStep C.cfg s.srv w e sv) (hnet : s.net.step C.cfg e = some net) :
    Lost { s with srv := sv, net := net } (s.srv.nextMark m e) i k := by
  have hactive : s.srv.Active := ⟨hcounters.running, fun _ => hstop⟩
  obtain ⟨hmaster, hreq, -, -⟩ := hs.frame
  have hunsent : ¬sv.Unsent i := by
    have hsent := h.sent
    unfold Server.Unsent at hsent ⊢
    rw [hmaster, hs.commited_eq.2]
    exact hsent
  have hgo : ∀ m' : Nat → Nat, m' i = m i → net.toClient = s.net.toClient →
      (∀ p ∈ net.toServer i, p.stage ≠ k) → (∀ p, net.readBuffer i = some p → p.stage ≠ k) →
      Lost { s with srv := sv, net := net } m' i k := by
    intro m' hm htoClient htoServer hpending
    refine ⟨(Server.stageNow_congr (by rw [hmaster]) rfl hreq).trans h.now, hunsent,
      by rw [hm]; exact h.mark, ?_, h.responding, htoServer, hpending⟩
    simpa only [htoClient] using h.toClient
  have hmark := nextMark_of_workerStep (m := m) hs
  cases hs with
  | @score j p hpc =>
      cases hnet
      rw [nextMark_of_score hpc]
      refine hgo _ (Function.update_of_ne ?_ _ _) rfl h.toServer h.pending
      -- it would be the one the worker has in its hands
      rintro rfl
      have hat := hinv.workers.position w hw
      simp only [hpc, WorkerAt] at hat
      have hstage := (hinv.score_stage hcounters hactive hw hpc).2.2.2.2.1
      exact h.pending p hat.2.2.2.2 (hstage.trans h.now)
  | @endRead j p hpc =>
      cases hnet
      rw [hmark (by simp [hpc])]
      refine hgo _ rfl rfl h.toServer fun q hq => h.pending q ?_
      by_cases hij : i = j
      · simp [hij] at hq
      · simpa [hij] using hq
  | @begRead j r pc hpc hj hr =>
      rw [hmark (by simp [hpc])]
      have hnone := hinv.workers.pending_none hw hpc hj
      rcases begRead_cases hnone hnet with ⟨-, rfl⟩ | ⟨p, rest, rfl, hto, rfl⟩
      · exact hgo _ rfl rfl h.toServer h.pending
      · by_cases hij : i = j
        · subst hij
          refine hgo _ rfl rfl ?_ ?_
          · intro q hq
            exact h.toServer q (by simp only [Function.update_self] at hq; simp [hto, hq])
          · intro q hq
            simp only [Function.update_self, Option.some.injEq] at hq
            exact h.toServer q (by simp [hto, hq])
        · refine hgo _ rfl rfl ?_ ?_
          · simpa [hij] using h.toServer
          · simpa [hij] using h.pending
  | outOfRange hpc =>
      rename_i hout
      obtain ⟨-, hic, -, -, -, hresponse⟩ := hinv.score_stage hcounters hactive hw hpc
      have hid := hresponse.srcHostid
      have := (C.peer_lt _).mpr hic
      omega
  | leave hpc | stay hpc | paused hpc | startPass hpc | clearCount hpc | endPass hpc
  | loadCount hpc | storeCount hpc | raiseStop hpc | exit hpc | timeEnd hpc | delete hpc =>
      cases hnet
      rw [hmark (by simp [hpc])]
      exact hgo _ rfl rfl h.toServer h.pending

private theorem Lost.client {l r : List Packet} {c : Client}
    (h : Lost s m i k) (htoClient : ∀ p ∈ l, i = j → p.stage ≠ k)
    (hresponding : ∀ old, c.pc = .respond old → i = j → old.stage ≠ k)
    (htoServer : ∀ p ∈ r, i = j → p.stage ≠ k) :
    Lost { s with
      net := { s.net with
        toClient := update s.net.toClient j l
        toServer := update s.net.toServer j r }
      client := update s.client j c } m i k := by
  by_cases hij : i = j
  · subst hij
    refine ⟨h.now, h.sent, h.mark, ?_, ?_, ?_, h.pending⟩
    · intro p hp
      exact htoClient p (by simpa using hp) rfl
    · intro old hpc
      exact hresponding old (by simpa using hpc) rfl
    · intro p hp
      exact htoServer p (by simpa using hp) rfl
  · refine ⟨h.now, h.sent, h.mark, ?_, ?_, ?_, h.pending⟩
    · simpa [hij] using h.toClient
    · simpa [hij] using h.responding
    · simpa [hij] using h.toServer

private theorem mem_of_drop {n : Nat} {l l' : List Packet}
    (hdrop : (Fault.drop n).apply l = some l') {p : Packet} (hp : p ∈ l') : p ∈ l :=
  (drop_sublist hdrop).subset hp

theorem Lost.clientStep {e : SysEvent} (h : Lost s m i k) (hlossy : e.lossy)
    (he : ∀ x, e ≠ .server x) (hs : s.step C e = some t) : Lost t m i k := by
  cases e with
  | server x => exact absurd rfl (he x)
  | receive j =>
      obtain ⟨p, rest, c, hto, -, hc, rfl⟩ := System.receive_cases hs
      have hheld : c.pc = .respond p := by
        unfold Client.receive at hc
        split at hc <;> try contradiction
        split at hc <;> cases hc <;> rfl
      have hnew := h.client (j := j) (l := rest) (c := c) (r := s.net.toServer j)
        ?_ ?_ ?_
      · simpa using hnew
      · rintro q hq rfl
        exact h.toClient q (by simp [hto, hq])
      · rintro old hpc rfl
        rw [hheld] at hpc
        cases hpc
        exact h.toClient p (by simp [hto])
      · rintro q hq rfl
        exact h.toServer q hq
  | respond j =>
      simp only [System.step, Option.ite_none_right_eq_some] at hs
      obtain ⟨⟨c, response⟩, hc, rfl⟩ := Option.map_eq_some_iff.mp hs.2
      obtain ⟨old, hpc⟩ : ∃ old, (s.client j).pc = .respond old := by
        unfold Client.respond at hc
        split at hc
        · exact ⟨_, ‹_›⟩
        · contradiction
      have hcases := respond_cases hpc hc
      have hnew := h.client (j := j) (l := s.net.toClient j) (c := c)
        (r := s.net.toServer j ++ response.toList) ?_ ?_ ?_
      · simpa using hnew
      · rintro q hq rfl
        exact h.toClient q hq
      · intro old' hpc'
        rcases hcases with ⟨rfl, -⟩ | ⟨-, -, rfl, -⟩ | ⟨-, -, rfl, -⟩ <;> simp at hpc'
      · rintro q hq rfl
        rcases List.mem_append.mp hq with hq | hq
        · exact h.toServer q hq
        · have hold := h.responding old hpc
          rcases hcases with ⟨-, rfl⟩ | ⟨-, -, -, rfl⟩ | ⟨-, -, -, rfl⟩
          · simp at hq
          · simp only [Option.toList_some, List.mem_singleton] at hq
            rwa [hq]
          · simp only [Option.toList_some, List.mem_singleton] at hq
            rwa [hq]
  | quit j =>
      simp only [System.step, Option.ite_none_right_eq_some, Option.some.injEq] at hs
      obtain ⟨-, rfl⟩ := hs
      refine ⟨h.now, h.sent, h.mark, h.toClient, ?_, h.toServer, h.pending⟩
      intro old hpc
      by_cases hij : i = j
      · simp [hij] at hpc
      · exact h.responding old (by simpa [hij] using hpc)
  | faultToClient j f =>
      obtain ⟨n, rfl⟩ := hlossy
      simp only [System.step, Option.ite_none_right_eq_some] at hs
      obtain ⟨l, hl, rfl⟩ := Option.map_eq_some_iff.mp hs.2
      refine ⟨h.now, h.sent, h.mark, ?_, h.responding, h.toServer, h.pending⟩
      intro p hp
      by_cases hij : i = j
      · subst hij
        exact h.toClient p (mem_of_drop hl (by simpa using hp))
      · exact h.toClient p (by simpa [hij] using hp)
  | faultToServer j f =>
      obtain ⟨n, rfl⟩ := hlossy
      simp only [System.step, Option.ite_none_right_eq_some] at hs
      obtain ⟨l, hl, rfl⟩ := Option.map_eq_some_iff.mp hs.2
      refine ⟨h.now, h.sent, h.mark, h.toClient, h.responding, ?_, h.pending⟩
      intro p hp
      by_cases hij : i = j
      · subst hij
        exact h.toServer p (mem_of_drop hl (by simpa using hp))
      · exact h.toServer p (by simpa [hij] using hp)

-- The step either raises the stop signal or leaves the exchange where it is.
private theorem Lost.step {e : SysEvent} (h : Lost s m i k) (hinv : Inv C s b m)
    (hcounters : Counters C s.srv m) (hqj : C.cfg.transType ≠ .udpQj)
    (hi : i < C.cfg.clientCount) (hok : s.patient e)
    (hs : (systemMachine C).step s e = some t) (hstop : t.srv.stopSignal = false) :
    Lost t (s.nextMark m e) i k := by
  cases e with
  | server x =>
      obtain ⟨srv, net, hsrv, hnet, rfl⟩ := server_step hs
      simp only [System.nextMark]
      rcases step_cases hsrv with hm | ⟨w, hw, hm⟩
      · rw [nextMark_of_masterStep hm]
        exact h.masterStep hinv hcounters hqj hi hm hnet hok.2.2 hstop
          fun hx => hok.2.1 (by rw [hx])
      · exact h.workerStep hinv hcounters hok.2.2 hw hm hnet
  | _ => exact h.clientStep hok.1 (by simp) hs

private theorem srv_of_drop {f : SysEvent}
    (hf : f = .faultToClient i (.drop j) ∨ f = .faultToServer i (.drop j))
    (hs : (systemMachine C).step s f = some t) :
    t.srv = s.srv ∧ f.lossy ∧ s.nextMark m f = m ∧ i < C.cfg.clientCount := by
  rcases hf with rfl | rfl <;>
    simp only [systemMachine, System.step, Option.ite_none_right_eq_some] at hs <;>
    obtain ⟨l, hl, rfl⟩ := Option.map_eq_some_iff.mp hs.2 <;>
    exact ⟨rfl, ⟨j, rfl⟩, rfl, hs.1⟩

private theorem lost_of_drop {f : SysEvent} (hinv : Inv C s b m) (hcounters : Counters C s.srv m)
    (hstop : s.srv.stopSignal = false)
    (hf : f = .faultToClient i (.drop j) ∨ f = .faultToServer i (.drop j))
    (hs : (systemMachine C).step s f = some t) : Lost t m i s.srv.stageNow := by
  rcases hf with rfl | rfl <;>
    simp only [systemMachine, System.step, Option.ite_none_right_eq_some] at hs <;>
    obtain ⟨l, hl, rfl⟩ := Option.map_eq_some_iff.mp hs.2
  · exact lost_toClient hinv hcounters hstop hs.1 hl
  · exact lost_toServer hinv hcounters hstop hs.1 hl

private theorem Lost.steps (hqj : C.cfg.transType ≠ .udpQj) (hi : i < C.cfg.clientCount)
    (h : t.srv.stopSignal = false → ∃ b m, Inv C t b m ∧ Counters C t.srv m ∧ Lost t m i k)
    (hsteps : (systemMachine C).Steps System.patient t u) (hstop : u.srv.stopSignal = false) :
    ∃ b m, Inv C u b m ∧ Counters C u.srv m ∧ Lost u m i k := by
  induction hsteps with
  | refl => exact h hstop
  | tail _ hstep ih =>
      obtain ⟨e, hok, hs⟩ := hstep
      obtain ⟨b, m, hinv, hcounters, hlost⟩ := ih hok.2.2
      obtain ⟨b', hinv'⟩ := hinv.step hqj hok.1 hs
      exact ⟨b', _, hinv', counters_step hinv hcounters hok.2.2 hok.2.1 hs hstop,
        hlost.step hinv hcounters hqj hi hok hs hstop⟩

-- What is lost is never made up for: a cluster that loses one message while its waits for
-- votes have no timeout stays in the exchange of that message.
theorem loss_blocks {f : SysEvent} (hqj : C.cfg.transType ≠ .udpQj)
    (h : (systemMachine C).Reachable System.patient s)
    (hf : ∃ i j, f = .faultToClient i (.drop j) ∨ f = .faultToServer i (.drop j))
    (hs : (systemMachine C).step s f = some t)
    (hsteps : (systemMachine C).Steps System.patient t u) (hstop : u.srv.stopSignal = false) :
    u.srv.stageNow = s.srv.stageNow ∧ u.srv.requests = s.srv.requests ∧
      ∀ i p, (i, p) ∈ u.net.passed → p.stage ≤ s.srv.stageNow := by
  obtain ⟨i, j, hf⟩ := hf
  obtain ⟨b, m, hinv, hcounters⟩ := exists_counters_lossy hqj h
  obtain ⟨hsrv, hlossy, hmark, hi⟩ := srv_of_drop (m := m) hf hs
  obtain ⟨b', hinv'⟩ := hinv.step hqj hlossy hs
  rw [hmark] at hinv'
  have hlost : t.srv.stopSignal = false →
      ∃ b m, Inv C t b m ∧ Counters C t.srv m ∧ Lost t m i s.srv.stageNow := by
    rw [hsrv]
    intro hstop
    exact ⟨b', m, hinv', hcounters hstop, lost_of_drop hinv (hcounters hstop) hstop hf hs⟩
  obtain ⟨b, m, hinv, hcounters, hlost⟩ := Lost.steps hqj hi hlost hsteps hstop
  have hnow := hlost.now
  refine ⟨hnow, ?_, fun i p hp => ?_⟩
  · unfold Server.stageNow Server.stage at hnow
    split at hnow <;> split at hnow <;> omega
  · exact hnow ▸ (hinv.master.passed ⟨hcounters.running, fun _ => hstop⟩ i p hp).1

-- The request to the first client is lost, and the second votes all the same.
theorem loss_blocks_pair : ∃ s t u : System,
    (systemMachine (pair .udpLn)).Reachable System.patient s ∧
    (systemMachine (pair .udpLn)).step s (.faultToClient 0 (.drop 0)) = some t ∧
    (systemMachine (pair .udpLn)).Steps System.patient t u ∧
    (u.client 1).votes = [.voteYes] ∧ u.srv.stageNow = s.srv.stageNow := by
  obtain ⟨s, hrun, hs⟩ := (systemMachine (pair .udpLn)).exists_run_of_eval System.patient
    (.server .master :: sendEvents 2 .phase1 0)
    (fun s => (((systemMachine (pair .udpLn)).step s (.faultToClient 0 (.drop 0))).bind fun t =>
      (systemMachine (pair .udpLn)).evalFrom System.patient t
        (answerEvents [1] ++ passEvents [none, some (.voteYes, 0)] ++
          [.server (.clock false), .server .master, .server .master])).any fun u =>
      (u.client 1).votes == [.voteYes] && !u.srv.stopSignal) (by decide +kernel)
  obtain ⟨u, hu, hvotes⟩ := (Option.any_eq_true _ _).mp hs
  obtain ⟨t, ht, hu⟩ := Option.bind_eq_some_iff.mp hu
  simp only [Bool.and_eq_true, beq_iff_eq, Bool.not_eq_true'] at hvotes
  have hsteps := Machine.steps_of_evalFrom hu
  exact ⟨s, t, u, hrun.reachable, ht, hsteps, hvotes.1, (loss_blocks (by decide) hrun.reachable
    ⟨0, 0, .inl rfl⟩ ht hsteps hvotes.2).1⟩

end Q2pc
