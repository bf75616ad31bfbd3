import Q2pc.System.Flow

namespace Q2pc

open Function (update)

variable {C : Cluster} {s t : System} {sv : Server} {net : Net} {e : Event} {b m m' : Nat → Nat}
  {w i : Nat}

-- The message of connection `i` that its worker has read and not scored.
def Net.unscored (n : Net) (m : Nat → Nat) (i : Nat) : Nat :=
  match n.readBuffer i with
  | some p => if m i ≤ p.stage then 1 else 0
  | none => 0

def WorkerPc.inHand : WorkerPc → Nat
  | .endRead _ _ | .loadCount _ _ | .storeCount _ _ _ | .stats _ _ => 1
  | _ => 0

-- The worker has not left its loop, nor is about to.
def WorkerPc.Working : WorkerPc → Prop
  | .raiseStop | .delete _ | .exited => False
  | _ => True

-- No message is lost: those passed to a connection are answered or on their way, those
-- answered are scored or on their way, and those scored are recorded or about to be.
structure Balance (C : Cluster) (s : System) (m : Nat → Nat) : Prop where
  running : s.srv.stopSignal = false
  working : ∀ w < C.cfg.threadCount, (s.srv.workers w).pc.Working
  sent : ∀ i < C.cfg.clientCount, Downstream (s.client i) (s.net.toClient i) (s.srv.sent i)
  answered : ∀ i < C.cfg.clientCount,
    m i + s.net.unscored m i + (s.net.toServer i).length = (s.client i).stage
  recorded : ∀ w < C.cfg.threadCount, (s.srv.workers w).stats.length +
    (s.srv.workers w).pc.inHand = ∑ i ∈ Finset.Ico (C.cfg.lo w) (C.cfg.hi w), m i

theorem Balance.init (C : Cluster) : Balance C (.init C) (fun _ => 0) where
  running := rfl
  working := fun _ _ => trivial
  sent := by
    intro i _
    refine ⟨by simp [System.init, Client.start], ?_, ?_⟩
    · simp [System.init, Client.start, Client.stage]
    · simp [System.init, Client.start, Client.stage, Client.holding, Net.init, Server.sent,
        Server.init, Server.stageNow, Server.stage, MasterPc.phase, MasterPc.passes]
  answered := by
    intro i _
    simp [System.init, Net.init, Net.unscored, Client.start, Client.stage]
  recorded := by
    intro w _
    simp [System.init, Server.init, WorkerPc.inHand]

-- No worker has left its loop.
theorem Balance.not_delete {w i : Nat} (h : Balance C s m) :
    s.srv.step C.cfg (.delete w i) ≠ some sv := by
  intro hs
  rcases step_cases hs with hm | ⟨w', hw, hm⟩
  · cases hm
  · cases hm with
    | delete hpc =>
        have hworking := h.working w hw
        rw [hpc] at hworking
        exact hworking

-- A step of worker `w`, which may score a message of one of its connections.
private theorem Balance.worker {n : Net} (h : Balance C s m)
    (hs : WorkerStep C.cfg s.srv w e sv)
    (hw : w < C.cfg.threadCount) (hstop : sv.stopSignal = s.srv.stopSignal)
    (hworking : (sv.workers w).pc.Working) (htoClient : n.toClient = s.net.toClient)
    (hanswered : ∀ i < C.cfg.clientCount, m' i + n.unscored m' i + (n.toServer i).length =
      m i + s.net.unscored m i + (s.net.toServer i).length)
    (hrecorded : (sv.workers w).stats.length + (sv.workers w).pc.inHand =
      ∑ i ∈ Finset.Ico (C.cfg.lo w) (C.cfg.hi w), m' i)
    (hother : ∀ i, ¬C.cfg.Owns w i → m' i = m i) :
    Balance C { s with srv := sv, net := n } m' where
  running := hstop.trans h.running
  working := by
    intro v hv
    by_cases hvw : v = w
    · rwa [hvw]
    · simpa only [hs.workers_ne hvw] using h.working v hv
  sent := by
    intro i hi
    obtain ⟨hmaster, hreq, -, -⟩ := hs.frame
    have hsent : sv.sent i = s.srv.sent i := by
      rw [Server.sent, Server.sent, Server.stageNow_congr (by rw [hmaster]) rfl hreq, hmaster,
        hs.commited_eq.2]
    simpa only [hsent, htoClient] using h.sent i hi
  answered := fun i hi => (hanswered i hi).trans (h.answered i hi)
  recorded := by
    intro v hv
    by_cases hvw : v = w
    · rwa [hvw]
    · simp only [hs.workers_ne hvw, h.recorded v hv]
      refine Finset.sum_congr rfl fun i hi => (hother i fun hown => hvw ?_).symm
      have hvi := Finset.mem_Ico.mp hi
      exact C.cfg.disjoint v hv w hw i hvi.1 hvi.2 hown.1 hown.2

private theorem Balance.move (h : Balance C s m) (hs : WorkerStep C.cfg s.srv w e sv)
    (hw : w < C.cfg.threadCount) (hstop : sv.stopSignal = s.srv.stopSignal)
    (hworking : (sv.workers w).pc.Working) (htoClient : net.toClient = s.net.toClient)
    (hread : net.readBuffer = s.net.readBuffer) (htoServer : net.toServer = s.net.toServer)
    (hrecorded : (sv.workers w).stats.length + (sv.workers w).pc.inHand =
      (s.srv.workers w).stats.length + (s.srv.workers w).pc.inHand) :
    Balance C { s with srv := sv, net := net } m := by
  refine h.worker hs hw hstop hworking htoClient ?_ (hrecorded.trans (h.recorded w hw))
    (fun _ _ => rfl)
  intro i _
  simp only [Net.unscored, hread, htoServer]

theorem sum_update_Ico {lo hi i v : Nat} (hlo : lo ≤ i) (hhi : i < hi) (hv : v = m i + 1) :
    ∑ j ∈ Finset.Ico lo hi, update m i v j = ∑ j ∈ Finset.Ico lo hi, m j + 1 := by
  have hmem : i ∈ Finset.Ico lo hi := Finset.mem_Ico.mpr ⟨hlo, hhi⟩
  rw [Finset.sum_update_of_mem hmem, hv, Finset.sdiff_singleton_eq_erase,
    ← Finset.add_sum_erase _ m hmem]
  omega

private theorem Balance.score {p : Packet} (h : Balance C s m) (hinv : Inv C s b m)
    (hcounters : Counters C s.srv m) (hactive : s.srv.Active)
    (hs : WorkerStep C.cfg s.srv w e sv) (hw : w < C.cfg.threadCount)
    (hpc : (s.srv.workers w).pc = .score i p) (hstop : sv.stopSignal = s.srv.stopSignal)
    (hnext : sv.workers w = ⟨.endRead i p, (s.srv.workers w).stats⟩) :
    Balance C { s with srv := sv } (update m i (p.stage + 1)) := by
  obtain ⟨-, hi, hown, hmark, hstage, -⟩ := hinv.score_stage hcounters hactive hw hpc
  have hat := hinv.workers.position w hw
  simp only [hpc, WorkerAt] at hat
  have hpending := hat.2.2.2.2
  refine h.worker (n := s.net) hs hw hstop (by rw [hnext]; trivial) rfl ?_ ?_ ?_
  · intro j _
    by_cases hji : j = i
    · subst hji
      simp only [Net.unscored, hpending, Function.update_self]
      rw [if_neg (by omega), if_pos (by omega)]
      omega
    · simp only [Net.unscored, Function.update_of_ne hji]
  · rw [sum_update_Ico hown.1 hown.2 (by omega), ← h.recorded w hw, hnext, hpc]
    rfl
  · intro j hj
    refine Function.update_of_ne ?_ _ _
    rintro rfl
    exact hj hown

theorem Balance.workerStep (h : Balance C s m) (hinv : Inv C s b m)
    (hcounters : Counters C s.srv m) (hw : w < C.cfg.threadCount)
    (hs : WorkerStep C.cfg s.srv w e sv) (hnet : s.net.step C.cfg e = some net)
    (hok : s.undisturbed C (.server e)) :
    Balance C { s with srv := sv, net := net } (s.srv.nextMark m e) := by
  have hactive : s.srv.Active := ⟨hcounters.running, fun _ => h.running⟩
  have hmark := nextMark_of_workerStep (m := m) hs
  have hworking := h.working w hw
  have hat := hinv.workers.position w hw
  have hstep := hs
  cases hs with
  | leave _ hstop => simp [h.running] at hstop
  | raiseStop hpc | exit hpc | delete hpc =>
      rw [hpc] at hworking
      exact hworking.elim
  | outOfRange hpc hout =>
      obtain ⟨-, hi, -, -, -, hresponse⟩ := hinv.score_stage hcounters hactive hw hpc
      have hid := hresponse.srcHostid
      have := (C.peer_lt _).mpr hi
      omega
  | score hpc =>
      cases hnet
      rw [nextMark_of_score hpc]
      exact h.score hinv hcounters hactive hstep hw hpc rfl (by simp [Server.setWorker])
  | stay hpc | paused hpc | startPass hpc | clearCount hpc | endPass hpc | loadCount hpc
  | storeCount hpc =>
      cases hnet
      rw [hmark (by simp [hpc])]
      exact h.move hstep hw rfl (by simp [Server.setWorker, WorkerPc.Working]) rfl rfl rfl
        (by simp [Server.setWorker, WorkerPc.inHand, hpc])
  | @endRead i p hpc =>
      simp only [hpc, WorkerAt] at hat
      obtain ⟨hlo, hhi, hscored, -, hpending⟩ := hat
      cases hnet
      rw [hmark (by simp [hpc])]
      refine h.worker hstep hw rfl (by simp [Server.setWorker, WorkerPc.Working]) rfl ?_ ?_
        (fun _ _ => rfl)
      · intro j _
        by_cases hji : j = i
        · subst hji
          have hold : ¬m j ≤ p.stage := by omega
          simp [Net.unscored, hpending, hold]
        · simp [Net.unscored, hji]
      · simpa [Server.setWorker, WorkerPc.inHand, hpc] using h.recorded w hw
  | @begRead i r pc hpc hi hr =>
      rw [hmark (by simp [hpc])]
      have hnone := hinv.workers.pending_none hw hpc hi
      rcases begRead_cases hnone hnet with ⟨rfl | rfl, rfl⟩ | ⟨p, rest, rfl, hto, rfl⟩
      · cases hr
        exact h.move hstep hw rfl (by simp [Server.setWorker, WorkerPc.Working]) rfl rfl rfl
          (by simp [Server.setWorker, WorkerPc.inHand, hpc])
      · exact absurd rfl hok
      · cases hr
        refine h.worker hstep hw rfl (by simp [Server.setWorker, WorkerPc.Working]) rfl ?_ ?_
          (fun _ _ => rfl)
        · intro j hj
          by_cases hji : j = i
          · subst hji
            have hmem := ((hinv.channel j hj).toServer_mem p (by simp [hto])).2
            simp only [Net.unscored, Function.update_self, hnone, hto, List.length_cons, hmem,
              if_true]
            omega
          · simp [Net.unscored, hji]
        · simpa [Server.setWorker, WorkerPc.inHand, hpc] using h.recorded w hw
  | @timeEnd i p us hpc =>
      cases hnet
      rw [hmark (by simp [hpc])]
      have hroom : ¬C.cfg.statsLen ≤ ((s.srv.workers w).stats.length : Int) + 1 := by
        simpa [System.undisturbed] using hok
      refine h.move hstep hw rfl ?_ rfl rfl rfl ?_
      · simp [Server.record, hroom, WorkerPc.Working]
      · simp [Server.record, hroom, WorkerPc.inHand, hpc]

theorem net_of_masterStep (hs : MasterStep C.cfg s.srv e sv)
    (hqj : C.cfg.transType ≠ .udpQj) (hnet : s.net.step C.cfg e = some net) :
    net.readBuffer = s.net.readBuffer ∧ net.toServer = s.net.toServer ∧
      ∀ i, net.toClient i = s.net.toClient i ++
        if e = .endWrite i then [s.net.writeBuffer i] else [] := by
  cases hs with
  | @endWrite ph j hpc =>
      cases hnet
      refine ⟨rfl, rfl, fun i => ?_⟩
      by_cases hij : i = j
      · simp [Net.write, hij]
      · simp [Net.write, hij, Ne.symm hij, hqj]
  | endWriteRet =>
      simp only [Net.step, Option.ite_none_right_eq_some, Option.some.injEq] at hnet
      obtain ⟨-, rfl⟩ := hnet
      simp
  | _ =>
      cases hnet
      simp

theorem Balance.masterStep (h : Balance C s m) (hinv : Inv C s b m)
    (hcounters : Counters C s.srv m) (hreg : Regular C.cfg s.srv)
    (hqj : C.cfg.transType ≠ .udpQj) (hs : MasterStep C.cfg s.srv e sv)
    (hnet : s.net.step C.cfg e = some net) (hok : s.undisturbed C (.server e)) :
    Balance C { s with srv := sv, net := net } m := by
  have hclock : e ≠ .clock true := by
    rintro rfl
    simp [System.undisturbed] at hok
  have hret : ∀ i r, e = .endWriteRet i r → r = .enone := by
    rintro i r rfl
    simp only [Net.step, Option.ite_none_right_eq_some] at hnet
    exact hnet.1.resolve_right hok
  obtain ⟨hstop, hsent⟩ := sent_of_masterStep hs hinv hcounters hreg hqj h.running hclock hret
  obtain ⟨hread, hserver, hclient⟩ := net_of_masterStep hs hqj hnet
  refine ⟨hstop, ?_, ?_, ?_, ?_⟩
  · simpa only [hs.workers_eq] using h.working
  · intro i hi
    simp only [hsent i hi, hclient]
    by_cases he : e = .endWrite i
    · rw [if_pos he, if_pos he]
      refine (h.sent i hi).pass ?_
      subst he
      cases hs with
      | @endWrite ph j hpc =>
          have hat := hinv.master.position
          simp only [MasterAt, hpc] at hat
          obtain ⟨-, -, -, hunsent, ⟨hstage, -⟩, -⟩ := hat
          rw [hstage, Server.sent, Server.stageNow, hpc]
          simp [MasterPc.passes, MasterPc.phase, not_lt.mpr hunsent]
    · rw [if_neg he, if_neg he, List.append_nil, Nat.add_zero]
      exact h.sent i hi
  · intro i hi
    simpa only [Net.unscored, hread, hserver] using h.answered i hi
  · simpa only [hs.workers_eq] using h.recorded

theorem Balance.receive (h : Balance C s m) (hs : s.step C (.receive i) = some t) :
    Balance C t m := by
  obtain ⟨p, rest, c, hto, hi, hc, rfl⟩ := System.receive_cases hs
  have hold := h.sent i hi
  rw [hto] at hold
  obtain ⟨hnew, hstage⟩ := hold.receive hc
  refine ⟨h.running, h.working, ?_, ?_, h.recorded⟩
  · intro j hj
    by_cases hji : j = i
    · subst hji
      simpa using hnew
    · simpa [hji] using h.sent j hj
  · intro j hj
    have hanswered := h.answered j hj
    by_cases hji : j = i
    · subst hji
      simpa [Net.unscored, hstage] using hanswered
    · simpa [Net.unscored, hji] using hanswered

theorem Balance.respond (h : Balance C s m) (hinv : Inv C s b m)
    (hs : s.step C (.respond i) = some t) : Balance C t m := by
  simp only [System.step, Option.ite_none_right_eq_some] at hs
  obtain ⟨hi, hs⟩ := hs
  obtain ⟨⟨c, response⟩, hc, rfl⟩ := Option.map_eq_some_iff.mp hs
  obtain ⟨old, hpc⟩ : ∃ old, (s.client i).pc = .respond old := by
    unfold Client.respond at hc
    split at hc
    · exact ⟨_, ‹_›⟩
    · contradiction
  have hchannel := hinv.channel i hi
  have hpassed := (hchannel.responding old hpc).1
  obtain ⟨hnew, hstage, p, rfl⟩ := (h.sent i hi).respond hchannel.logs hpc
    (hchannel.request old hpassed) (hchannel.decision old hpassed) hc
  refine ⟨h.running, h.working, ?_, ?_, h.recorded⟩
  · intro j hj
    by_cases hji : j = i
    · subst hji
      simpa using hnew
    · simpa [hji] using h.sent j hj
  · intro j hj
    have hanswered := h.answered j hj
    by_cases hji : j = i
    · subst hji
      simp only [Net.unscored, Function.update_self, hstage, Option.toList_some,
        List.length_append, List.length_singleton] at hanswered ⊢
      omega
    · simpa [Net.unscored, hji] using hanswered

-- The counters after a step over connections that lose messages, in which no timeout fires.
theorem counters_step {e : SysEvent} (hinv : Inv C s b m) (hcounters : Counters C s.srv m)
    (hstop : s.srv.stopSignal = false) (hclock : e ≠ .server (.clock true))
    (hs : (systemMachine C).step s e = some t) (hstop' : t.srv.stopSignal = false) :
    Counters C t.srv (s.nextMark m e) := by
  have hactive : s.srv.Active := ⟨hcounters.running, fun _ => hstop⟩
  cases e with
  | server x =>
      obtain ⟨srv, net, hsrv, -, rfl⟩ := server_step hs
      simp only [System.nextMark]
      rcases step_cases hsrv with hm | ⟨w, hw, hm⟩
      · rw [nextMark_of_masterStep hm]
        exact hcounters.masterStep hinv hactive hstop hstop' (fun hx => hclock (by rw [hx])) hm
      · exact hcounters.workerStep hinv hactive hw hm
  | _ =>
      have hsrv : t.srv = s.srv := srv_of_step hs (by simp)
      rw [hsrv]
      exact hcounters

theorem exists_balance (hqj : C.cfg.transType ≠ .udpQj)
    (h : (systemMachine C).Reachable (System.undisturbed C) s) :
    ∃ b m, Inv C s b m ∧ Counters C s.srv m ∧ Regular C.cfg s.srv ∧ Balance C s m := by
  suffices hall : ∃ b m, Inv C s b m ∧ Counters C s.srv m ∧ Balance C s m by
    obtain ⟨b, m, hinv, hcounters, hbalance⟩ := hall
    exact ⟨b, m, hinv, hcounters, regular_of_reachable hqj h hcounters, hbalance⟩
  apply h.invariant (P := fun s => ∃ b m, Inv C s b m ∧ Counters C s.srv m ∧ Balance C s m)
  · exact ⟨_, _, Inv.init C, Counters.init C, .init C⟩
  · rintro s e u hr ⟨b, m, hinv, hcounters, hbalance⟩ hok hs
    obtain ⟨b', hinv'⟩ := hinv.step hqj hok.reliable.lossy hs
    have hclock : e ≠ .server (.clock true) := by
      rintro rfl
      simp [System.undisturbed] at hok
    have hnext : Balance C u (s.nextMark m e) := by
      cases e with
      | server x =>
          obtain ⟨srv, net, hsrv, hnet, rfl⟩ := server_step hs
          simp only [System.nextMark]
          rcases step_cases hsrv with hm | ⟨w, hw, hm⟩
          · rw [nextMark_of_masterStep hm]
            exact hbalance.masterStep hinv hcounters (regular_of_reachable hqj hr hcounters) hqj
              hm hnet hok
          · exact hbalance.workerStep hinv hcounters hw hm hnet hok
      | receive i => exact hbalance.receive hs
      | respond i => exact hbalance.respond hinv hs
      | quit i => exact hok.elim
      | faultToClient i f => exact hok.elim
      | faultToServer i f => exact hok.elim
    exact ⟨b', _, hinv', counters_step hinv hcounters hbalance.running hclock hs hnext.running,
      hnext⟩

end Q2pc
