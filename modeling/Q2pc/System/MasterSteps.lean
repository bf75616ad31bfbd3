import Q2pc.System.WorkerSteps

namespace Q2pc

open Function (update)

variable {C : Cluster} {s : System} {b m : Nat → Nat}

private theorem Inv.masterMove {srv : Server} {writeBuffer : Nat → Packet} (h : Inv C s b m)
    (hreq : srv.requests = s.srv.requests)
    (hslots : srv.votesScoreboard = s.srv.votesScoreboard)
    (hworkers : srv.workers = s.srv.workers) (hphase : srv.master.phase = s.srv.master.phase)
    (hactive : s.srv.Active) (hunsent : ∀ i, srv.Unsent i → s.srv.Unsent i)
    (hreset : ∀ i < C.cfg.clientCount, srv.SlotReset (C.peer i) → s.srv.SlotReset (C.peer i))
    (hat : MasterAt C ⟨srv, { s.net with writeBuffer := writeBuffer }, s.client⟩ m) :
    Inv C ⟨srv, { s.net with writeBuffer := writeBuffer }, s.client⟩ b m := by
  have hnow : srv.stageNow = s.srv.stageNow := by
    simp only [Server.stageNow, Server.stage, hphase, hreq]
  exact {
    channel := by
      intro i hi
      simpa only [ChannelOk, hslots] using h.channel i hi
    workers := by simpa only [hworkers] using h.workers
    master := {
      bound_le := fun _ i hi => hnow ▸ h.master.bound_le hactive i hi
      mark_ge := fun _ i hi => hreq ▸ h.master.mark_ge hactive i hi
      unsent := fun _ i hi hun => hnow ▸ h.master.unsent hactive i hi (hunsent i hun)
      passed := fun _ i p hp => by
        simpa only [hnow, hphase] using h.master.passed hactive i p hp
      reset := fun i hi hr => by
        simpa only [hslots, hreq] using h.master.reset i hi (hreset i hi hr)
      position := hat }
    history := h.history.mono rfl (fun _ _ => List.prefix_refl _) (fun _ _ _ _ hd => .inl hd) }

private theorem Inv.masterTerm {srv : Server} (h : Inv C s b m)
    (hpc : srv.master = .terminated) (hslots : srv.votesScoreboard = s.srv.votesScoreboard)
    (hworkers : srv.workers = s.srv.workers) : Inv C { s with srv := srv } b m where
  channel := by
    intro i hi
    simpa only [ChannelOk, hslots] using h.channel i hi
  workers := by simpa only [hworkers] using h.workers
  master := {
    bound_le := fun hact => absurd hpc hact.1
    mark_ge := fun hact => absurd hpc hact.1
    unsent := fun hact => absurd hpc hact.1
    passed := fun hact => absurd hpc hact.1
    reset := fun i _ hr => by simp [Server.SlotReset, hpc] at hr
    position := by simp [MasterAt, hpc] }
  history := h.history.mono rfl (fun _ _ => List.prefix_refl _) (fun _ _ _ _ hd => .inl hd)

private theorem Inv.masterNext {srv : Server} (h : Inv C s b m)
    (hslots : srv.votesScoreboard = s.srv.votesScoreboard)
    (hworkers : srv.workers = s.srv.workers) (hactive : s.srv.Active)
    (hnow : srv.Active → srv.stageNow = s.srv.stageNow + 1)
    (hmark : srv.Active → ∀ i < C.cfg.clientCount, 2 * srv.requests ≤ m i)
    (hreset : ∀ i < C.cfg.clientCount, srv.SlotReset (C.peer i) →
      srv.votesScoreboard (C.peer i) = .lost ∨ 2 * srv.requests + 1 ≤ m i)
    (hat : MasterAt C { s with srv := srv } m) : Inv C { s with srv := srv } b m where
  channel := by
    intro i hi
    simpa only [ChannelOk, hslots] using h.channel i hi
  workers := by simpa only [hworkers] using h.workers
  master := {
    bound_le := by
      intro hact i hi
      have := h.master.bound_le hactive i hi
      have := hnow hact
      dsimp only
      omega
    mark_ge := hmark
    unsent := by
      intro hact i hi _
      have := h.master.bound_le hactive i hi
      have := hnow hact
      dsimp only
      omega
    passed := by
      intro hact i p hp
      have := (h.master.passed hactive i p hp).1
      have := hnow hact
      dsimp only
      constructor
      · omega
      · intro heq
        omega
    reset := hreset
    position := hat }
  history := h.history.mono rfl (fun _ _ => List.prefix_refl _) (fun _ _ _ _ hd => .inl hd)

private theorem Inv.initSlot (h : Inv C s b m) {ph : Phase} {j : Nat}
    (hpc : s.srv.master = .initScoreboard ph j) :
    Inv C { s with srv := { s.srv with
      votesScoreboard := update s.srv.votesScoreboard j .lost
      master := .initScoreboard ph (j + 1) } } b m where
  channel := by
    intro i hi
    by_cases hij : C.peer i = j
    · subst hij
      simpa [ChannelOk] using (h.channel i hi).resetSlot
    · simpa [ChannelOk, hij] using h.channel i hi
  workers := h.workers
  master := by
    have hactive : s.srv.Active := by simp [Server.Active, hpc]
    have hnow : s.srv.stageNow = s.srv.stage ph := by
      simp [Server.stageNow, MasterPc.phase, hpc]
    have hat := h.master.position
    simp only [MasterAt, hpc] at hat
    exact {
      bound_le := fun _ i hi => by
        simpa [Server.stageNow, MasterPc.phase, Server.stage, hpc] using
          h.master.bound_le hactive i hi
      mark_ge := fun _ i hi => h.master.mark_ge hactive i hi
      unsent := fun _ i hi _ => by
        simpa [Server.stageNow, MasterPc.phase, Server.stage, hpc] using
          h.master.unsent hactive i hi (by simp [Server.Unsent, hpc])
      passed := fun _ i p hp => by
        simpa [Server.stageNow, MasterPc.phase, Server.stage, hpc] using
          h.master.passed hactive i p hp
      reset := by
        intro i hi hr
        by_cases hij : C.peer i = j
        · exact .inl (by simp [hij])
        · have hr' : s.srv.SlotReset (C.peer i) := by
            cases ph with
            | phase1 =>
                simp only [Server.SlotReset] at hr
                simp only [Server.SlotReset, hpc]
                omega
            | phase2 st => simp [Server.SlotReset, hpc]
          simpa [hij] using h.master.reset i hi hr'
      position := hat }
  history := h.history.mono rfl (fun _ _ => List.prefix_refl _) (fun _ _ _ _ hd => .inl hd)

private theorem Inv.scannedVote (h : Inv C s b m) {j : Nat} {r : CommitStatus}
    (hpc : s.srv.master = .readSlot .phase1 j r) (hslot : s.srv.votesScoreboard j = .voteYes)
    {i : Nat} (hi : i < C.cfg.clientCount) (hij : C.peer i = j) :
    (s.client i).votes[s.srv.requests]? = some .voteYes := by
  have hactive : s.srv.Active := by simp [Server.Active, hpc]
  have hch := h.channel i hi
  subst hij
  simp only [ChannelOk, hslot] at hch
  obtain ⟨hodd, hvote⟩ := hch.slot.vote (.inl rfl)
  have hge := h.master.mark_ge hactive i hi
  have hle := h.master.bound_le hactive i hi
  simp only [Server.stageNow, hpc, MasterPc.phase, Server.stage] at hle
  have := hch.mark_le
  have := hch.stage_le
  have hr : m i / 2 = s.srv.requests := by omega
  rwa [hr] at hvote

private theorem Inv.scannedAck (h : Inv C s b m) {j : Nat} {st r : CommitStatus}
    (hpc : s.srv.master = .readSlot (.phase2 st) j r) (hslot : s.srv.votesScoreboard j = .ack)
    {i : Nat} (hi : i < C.cfg.clientCount) (hij : C.peer i = j) :
    2 * s.srv.requests + 2 ≤ m i := by
  have hch := h.channel i hi
  subst hij
  simp only [ChannelOk, hslot] at hch
  have heven := hch.slot.ack rfl
  have hreset := h.master.reset i hi (by simp [Server.SlotReset, hpc])
  simp only [hslot, reduceCtorEq, false_or] at hreset
  omega

private theorem scanSlot_phase1 {r r' : CommitStatus} {slot : MsgType}
    (h : scanSlot .phase1 r slot = some r') :
    (slot = .voteYes ∧ r' = r) ∨ r' = .requestFail ∨ r' = .clusterFail := by
  cases slot <;> simp_all [scanSlot]

private theorem scanSlot_phase2 {st r r' : CommitStatus} {slot : MsgType}
    (h : scanSlot (.phase2 st) r slot = some r') :
    (slot = .ack ∧ r' = r) ∨ r' = .clusterFail := by
  cases slot <;> simp_all [scanSlot]

private theorem Inv.readSlot (h : Inv C s b m) {ph : Phase} {j : Nat} {r r' : CommitStatus}
    (hpc : s.srv.master = .readSlot ph j r)
    (hscan : scanSlot ph r (s.srv.votesScoreboard j) = some r') :
    Scanned C s m (j + 1) ph r' := by
  have hat := h.master.position
  simp only [MasterAt, hpc] at hat
  obtain ⟨-, -, hscanned⟩ := hat
  cases ph with
  | phase1 =>
      intro hr'
      rcases scanSlot_phase1 hscan with ⟨hslot, rfl⟩ | rfl | rfl
      · intro i hi hij
        by_cases heq : C.peer i = j
        · exact h.scannedVote hpc hslot hi heq
        · exact hscanned hr' i hi (by omega)
      · contradiction
      · contradiction
  | phase2 st =>
      rcases scanSlot_phase2 hscan with ⟨hslot, rfl⟩ | rfl
      · refine ⟨hscanned.1, fun hr i hi hij => ?_⟩
        by_cases heq : C.peer i = j
        · exact h.scannedAck hpc hslot hi heq
        · exact hscanned.2 hr i hi (by omega)
      · exact ⟨.inr rfl, by simp⟩

private theorem verdict_of_scanned {ph : Phase} {j : Nat} {r : CommitStatus}
    (h : Scanned C s m j ph r) (hdone : C.cfg.clientCount ≤ j ∨ s.srv.stopSignal = true) :
    Verdict C s m ph r := by
  have hlt : ∀ i < C.cfg.clientCount, C.cfg.clientCount ≤ j → C.peer i < j := by
    intro i hi hj
    have := (C.peer_lt i).mpr hi
    omega
  cases ph with
  | phase1 =>
      intro hr
      rcases hdone with hj | hstop
      · exact .inr fun i hi => h hr i hi (hlt i hi hj)
      · exact .inl hstop
  | phase2 st =>
      intro hr
      rcases hdone with hj | hstop
      · exact .inr fun i hi => h.2 (h.1.resolve_right hr) i hi (hlt i hi hj)
      · exact .inl hstop

-- Only the decision after a successful phase 1 is a commit.
private theorem phase_of_commit {ph : Phase} (h : ph.msgType = .commit) :
    ph = .phase2 .requestSuccess := by
  cases ph with
  | phase1 => simp [Phase.msgType] at h
  | phase2 st => cases st <;> simp_all [Phase.msgType]

private theorem verdict_of_status {ph : Phase} {r status : CommitStatus}
    (h : Verdict C s m ph r) (hstatus : phaseStatus ph r = some status) :
    Verdict C s m ph status := by
  cases ph with
  | phase1 =>
      simp only [phaseStatus, Option.some.injEq] at hstatus
      exact hstatus ▸ h
  | phase2 st =>
      intro hne
      refine h ?_
      rintro rfl
      simp only [phaseStatus, Option.some.injEq] at hstatus
      exact hne hstatus.symm

-- The message in the buffer of connection `i` is passed on: the decisions stay those of
-- their rounds.
private theorem HistoryOk.write {i : Nat} {srv : Server} (h : HistoryOk C s)
    (hi : i < C.cfg.clientCount)
    (hsame : ∀ j q, (j, q) ∈ s.net.passed → q.stage = (s.net.writeBuffer i).stage →
      (s.net.writeBuffer i).stage % 2 = 1 → q.msg.type = (s.net.writeBuffer i).msg.type)
    (hcommit : (s.net.writeBuffer i).msg.type = .commit →
      AllYes C s ((s.net.writeBuffer i).stage / 2)) :
    HistoryOk C { s with srv, net := s.net.write C.cfg i } where
  agree := by
    intro j k q q' hq hq' heq hpar
    simp only [Net.write, List.mem_append, List.mem_singleton, Prod.mk.injEq] at hq hq'
    rcases hq with hq | ⟨-, rfl⟩ <;> rcases hq' with hq' | ⟨-, rfl⟩
    · exact h.agree j k q q' hq hq' heq hpar
    · exact hsame j q hq heq (heq ▸ hpar)
    · exact (hsame k q' hq' heq.symm hpar).symm
    · rfl
  lt := by
    intro j q hq
    simp only [Net.write, List.mem_append, List.mem_singleton, Prod.mk.injEq] at hq
    rcases hq with hq | ⟨rfl, -⟩
    · exact h.lt j q hq
    · exact hi
  commit := by
    intro j q hq hc
    simp only [Net.write, List.mem_append, List.mem_singleton, Prod.mk.injEq] at hq
    rcases hq with hq | ⟨-, rfl⟩
    · exact h.commit j q hq hc
    · exact hcommit hc
  decisions := by
    intro j hj r d hd
    obtain ⟨q, hq, hqs, hqt⟩ := h.decisions j hj r d hd
    exact ⟨q, by simp [Net.write, hq], hqs, hqt⟩

private theorem Inv.endWrite (h : Inv C s b m) (hqj : C.cfg.transType ≠ .udpQj) {ph : Phase}
    {i : Nat} (hpc : s.srv.master = .endWrite ph i) :
    Inv C { s with srv := s.srv.setMaster (.inEndWrite ph i), net := s.net.write C.cfg i }
      (update b i (s.srv.stageNow + 1)) m := by
  have hactive : s.srv.Active := by simp [Server.Active, hpc]
  have hnow : s.srv.stageNow = s.srv.stage ph := by simp [Server.stageNow, MasterPc.phase, hpc]
  have hat := h.master.position
  simp only [MasterAt, hpc] at hat
  obtain ⟨hdecided, hcollected, hi, hrto, ⟨hstage, htype⟩, hyes⟩ := hat
  have hunsent := h.master.unsent hactive i hi (by simpa [Server.Unsent, hpc] using hrto)
  have hmark := h.master.mark_ge hactive i hi
  have hparity : (s.srv.stage ph % 2 = 0 → ph = .phase1) ∧
      (s.srv.stage ph % 2 = 1 → ph ≠ .phase1) ∧ s.srv.stage ph ≤ 2 * s.srv.requests + 1 ∧
      s.srv.stage ph / 2 = s.srv.requests := by
    cases ph <;> simp [Server.stage]
    omega
  obtain ⟨heven, hodd, hle, hround⟩ := hparity
  set p := s.net.writeBuffer i with hp
  have hrequest : p.stage % 2 = 0 → p.msg.type = .request := by
    intro hpar
    rw [htype, heven (hstage ▸ hpar)]
    rfl
  have hdecision : p.stage % 2 = 1 → p.msg.type = .commit ∨ p.msg.type = .cancel := by
    intro hpar
    rw [htype]
    cases ph with
    | phase1 => exact absurd rfl (hodd (hstage ▸ hpar))
    | phase2 st => cases st <;> simp [Phase.msgType]
  exact {
    channel := by
      intro j hj
      by_cases hji : j = i
      · subst hji
        have hmem : ∀ q, (j, q) ∈ s.net.passed ++ [(j, p)] ↔ (j, q) ∈ s.net.passed ∨ q = p := by
          simp
        have hpass := (h.channel j hj).pass p (by omega) (by omega : s.srv.stageNow + 1 = _)
          (by omega) hrequest hdecision hmem
        simpa [ChannelOk, Net.write, Server.setMaster] using hpass
      · have hother : ∀ q, (j, q) ∈ s.net.passed ++ [(i, p)] ↔ (j, q) ∈ s.net.passed := by
          simp [hji]
        simpa [ChannelOk, Net.write, Server.setMaster, hji, hqj, ← hp, hother] using
          h.channel j hj
    workers := h.workers
    master := {
      bound_le := by
        intro _ j hj
        by_cases hji : j = i
        · subst hji
          simp [Server.stageNow, Server.setMaster, MasterPc.phase, Server.stage, hpc]
        · simpa [Server.stageNow, Server.setMaster, MasterPc.phase, Server.stage, hpc, hji] using
            h.master.bound_le hactive j hj
      mark_ge := fun _ j hj => h.master.mark_ge hactive j hj
      unsent := by
        intro _ j hj hun
        simp only [Server.Unsent, Server.setMaster] at hun
        simpa [Server.stageNow, Server.setMaster, MasterPc.phase, Server.stage, hpc, hun.1] using
          h.master.unsent hactive j hj (by simpa [Server.Unsent, Server.setMaster, hpc] using hun.2)
      passed := by
        intro _ j q hq
        simp only [Net.write, List.mem_append, List.mem_singleton, Prod.mk.injEq] at hq
        rcases hq with hq | ⟨-, rfl⟩
        · simpa [Server.stageNow, Server.setMaster, MasterPc.phase, Server.stage, hpc] using
            h.master.passed hactive j q hq
        · simp [Server.stageNow, Server.setMaster, MasterPc.phase, ← hp, htype, hstage,
            Server.stage]
      reset := fun j hj _ => h.master.reset j hj (by simp [Server.SlotReset, hpc])
      position := ⟨hdecided, hcollected⟩ }
    history := h.history.write hi
      (fun l x hx hxp _ => by
        rw [← hp] at hxp
        have hty := (h.master.passed hactive l x hx).2 (by omega)
        rw [hty, ← hp, htype]
        simp [MasterPc.phase, hpc])
      (fun hc => by
        rw [← hp, htype] at hc
        rw [← hp, hstage, hround]
        exact hyes (phase_of_commit hc)) }

-- What the master makes of the result of `end_write`, which no transport of the
-- cluster makes an `RTOFIRED`.
private theorem Inv.endWriteRet (h : Inv C s b m) (hqj : C.cfg.transType ≠ .udpQj) {ph : Phase}
    {i : Nat} {r : Ret} (hpc : s.srv.master = .inEndWrite ph i) (hr : r = .enone ∨ r = .efin) :
    Inv C { s with srv := s.srv.endWriteRet C.cfg ph i r } b m := by
  simp only [Server.endWriteRet, hqj, if_false]
  rcases hr with rfl | rfl
  · have hat := h.master.position
    simp only [MasterAt, hpc] at hat
    refine h.masterMove rfl rfl rfl (by simp [MasterPc.phase, hpc])
      (by simp [Server.Active, hpc]) ?_ (by simp [Server.SlotReset, hpc]) hat
    intro j hun
    simp only [Server.Unsent] at hun
    by_cases hji : j = i
    · simp [hji] at hun
    · simpa [Server.Unsent, hpc, hji] using hun
  · exact h.masterTerm rfl rfl rfl

private theorem Inv.startPhase (h : Inv C s b m) (hqj : C.cfg.transType ≠ .udpQj) {ph : Phase}
    {j : Nat} (hpc : s.srv.master = .initScoreboard ph j) (hj : C.cfg.clientCount ≤ j) :
    Inv C { s with srv := s.srv.startPhase C.cfg ph } b m := by
  have hat := h.master.position
  simp only [MasterAt, hpc] at hat
  have hreset : ∀ i < C.cfg.clientCount, s.srv.SlotReset (C.peer i) := by
    intro i hi
    have := (C.peer_lt i).mpr hi
    cases ph with
    | phase1 =>
        simp only [Server.SlotReset, hpc]
        omega
    | phase2 st => simp [Server.SlotReset, hpc]
  have hcollect : Inv C { s with srv := s.srv.sendRequest C.cfg ph } b m := by
    simp only [Server.sendRequest, hqj, if_false]
    refine h.masterMove rfl rfl rfl (by simp [Server.setMaster, MasterPc.phase, hpc])
      (by simp [Server.Active, hpc]) ?_ (fun i hi _ => hreset i hi) ?_
    · intro i _
      simp [Server.Unsent, hpc]
    · exact ⟨hat, fun i hi => absurd hi (Nat.not_lt_zero i)⟩
  cases ph with
  | phase1 => exact hcollect
  | phase2 st =>
      cases st with
      | requestSuccess => exact hcollect
      | requestFail => exact hcollect
      | clusterFail =>
          refine h.masterMove rfl rfl rfl
            (by simp [Server.startPhase, Server.setMaster, MasterPc.phase, hpc])
            (by simp [Server.Active, hpc]) ?_ (fun i hi _ => hreset i hi) ?_
          · intro i hun
            simp [Server.Unsent, Server.startPhase, Server.setMaster] at hun
          · exact ⟨hat, by simp [Verdict]⟩
      | commitSuccess => exact h.masterTerm rfl rfl rfl
      | commitFail => exact h.masterTerm rfl rfl rfl

private theorem Inv.afterPhase (h : Inv C s b m) {ph : Phase} {status : CommitStatus}
    (hpc : s.srv.master = .phaseReturn ph status) :
    Inv C { s with srv := s.srv.afterPhase ph status } b m := by
  have hactive : s.srv.Active := by simp [Server.Active, hpc]
  have hat := h.master.position
  simp only [MasterAt, hpc] at hat
  obtain ⟨-, hverdict⟩ := hat
  have hround : ∀ st, ph = .phase2 st → status ≠ .clusterFail →
      Inv C { s with srv := { s.srv with requests := s.srv.requests + 1, master := .requests } }
        b m := by
    rintro st rfl hne
    refine h.masterNext rfl rfl hactive ?_ ?_ ?_ trivial
    · intro _
      simp only [Server.stageNow, MasterPc.phase, Server.stage, hpc]
      omega
    · intro hact i hi
      have hstop := hact.2 rfl
      rcases hverdict hne with hs | hacked
      · simp [hs] at hstop
      · have := hacked i hi
        dsimp only
        omega
    · intro i _ hr
      simp [Server.SlotReset] at hr
  cases ph with
  | phase1 =>
      refine h.masterNext rfl rfl hactive ?_ ?_ ?_ ?_
      · intro _
        simp [Server.stageNow, Server.afterPhase, Server.setMaster, MasterPc.phase, Server.stage,
          hpc]
      · exact fun _ i hi => h.master.mark_ge hactive i hi
      · intro i hi _
        exact h.master.reset i hi (by simp [Server.SlotReset, hpc])
      · intro hst
        simp only [Phase.phase2.injEq] at hst
        exact hverdict hst
  | phase2 st =>
      cases status with
      | commitSuccess => exact hround st rfl (by simp)
      | commitFail => exact hround st rfl (by simp)
      | requestSuccess => exact h.masterTerm rfl rfl rfl
      | requestFail => exact h.masterTerm rfl rfl rfl
      | clusterFail => exact h.masterTerm rfl rfl rfl

private theorem Inv.begWrite (h : Inv C s b m) {ph : Phase} {i : Nat} {ts : Int}
    (hpc : s.srv.master = .begWrite ph i) :
    Inv C { s with
      srv := s.srv.setMaster (.collect ph (i + 1))
      net := { s.net with
        writeBuffer := update s.net.writeBuffer i ⟨requestMsg ph.msgType ts, s.srv.stage ph⟩ } }
      b m := by
  have hat := h.master.position
  simp only [MasterAt, hpc] at hat
  refine h.masterMove rfl rfl rfl (by simp [Server.setMaster, MasterPc.phase, hpc])
    (by simp [Server.Active, hpc]) ?_ (fun _ _ _ => by simp [Server.SlotReset, hpc]) ?_
  · intro j _
    simp [Server.Unsent, hpc]
  · refine ⟨hat.1, fun j hj => ?_⟩
    by_cases hji : j = i
    · subst hji
      simp [BufferOk, Server.setMaster, Server.stage, requestMsg]
    · simpa [BufferOk, Server.setMaster, Server.stage, hji] using hat.2 j (by omega)

-- From the wait for the votes to the end of the phase all slots are initialised and
-- nothing is left to send.
private def MasterPc.Sent : MasterPc → Prop
  | .poll _ | .sumVotes _ _ _ | .dopauseAll _ | .scan _ _ _ | .readSlot _ _ _
  | .clearCount _ _ _ | .unpauseAll _ _ | .phaseReturn _ _ => True
  | _ => False

private theorem Inv.sentMove {srv : Server} {pc : MasterPc} (h : Inv C s b m)
    (hreq : srv.requests = s.srv.requests) (hslots : srv.votesScoreboard = s.srv.votesScoreboard)
    (hworkers : srv.workers = s.srv.workers) (hpc : s.srv.master = pc)
    (hphase : srv.master.phase = pc.phase) (hold : pc.Sent) (hnew : srv.master.Sent)
    (hat : MasterAt C { s with srv := srv } m) : Inv C { s with srv := srv } b m := by
  subst hpc
  have hreset : ∀ c, s.srv.SlotReset c := by
    intro c
    unfold MasterPc.Sent at hold
    unfold Server.SlotReset
    split at hold <;> simp_all
  have hunsent : ∀ i, ¬srv.Unsent i := by
    intro i
    unfold MasterPc.Sent at hnew
    unfold Server.Unsent
    split at hnew <;> simp_all
  exact h.masterMove hreq hslots hworkers hphase (hreset 0).active
    (fun i hun => absurd hun (hunsent i)) (fun i _ _ => hreset _) hat

private theorem Inv.sendMove {pc : MasterPc} (h : Inv C s b m)
    (hphase : pc.phase = s.srv.master.phase) (hreset : ∀ c, s.srv.SlotReset c)
    (hunsent : ∀ i, (s.srv.setMaster pc).Unsent i → s.srv.Unsent i)
    (hat : MasterAt C { s with srv := s.srv.setMaster pc } m) :
    Inv C { s with srv := s.srv.setMaster pc } b m :=
  h.masterMove rfl rfl rfl hphase (hreset 0).active hunsent (fun _ _ _ => hreset _) hat

theorem Inv.masterStep {e : Event} {srv : Server} {net : Net} (h : Inv C s b m)
    (hqj : C.cfg.transType ≠ .udpQj) (hs : MasterStep C.cfg s.srv e srv)
    (hnet : s.net.step C.cfg e = some net) :
    ∃ b', Inv C { s with srv := srv, net := net } b' m := by
  have hat := h.master.position
  cases hs with
  | finish _ _ | badSlot _ _ | badStatus _ _ =>
      cases hnet
      exact ⟨b, h.masterTerm rfl rfl rfl⟩
  | startRound hpc hstop =>
      cases hnet
      refine ⟨b, h.masterMove rfl rfl rfl (by simp [Server.setMaster, MasterPc.phase, hpc])
        (by simp [Server.Active, hpc, hstop]) ?_ ?_ ?_⟩
      · intro i _
        simp [Server.Unsent, hpc]
      · intro i _ hr
        simp [Server.SlotReset, Server.setMaster] at hr
      · simp [MasterAt, Server.setMaster, Decided]
  | initSlot hpc hi =>
      cases hnet
      exact ⟨b, h.initSlot hpc⟩
  | startPhase hpc hi =>
      cases hnet
      exact ⟨b, h.startPhase hqj hpc hi⟩
  | begWrite hpc _ =>
      cases hnet
      exact ⟨b, h.begWrite hpc⟩
  | broadcastBegWrite hpc hq => exact absurd hq hqj
  | endWrite hpc =>
      cases hnet
      exact ⟨_, h.endWrite hqj hpc⟩
  | endWriteRet hpc =>
      simp only [Net.step, Option.ite_none_right_eq_some, Option.some.injEq] at hnet
      obtain ⟨hr, rfl⟩ := hnet
      exact ⟨b, h.endWriteRet hqj hpc hr⟩
  | phaseReturn hpc =>
      cases hnet
      exact ⟨b, h.afterPhase hpc⟩
  | collectNext hpc hi hstop =>
      cases hnet
      simp only [MasterAt, hpc] at hat
      exact ⟨b, h.sendMove (by rw [hpc]; rfl) (by simp [Server.SlotReset, hpc])
        (by simp [Server.Unsent, hpc]) hat⟩
  | collected hpc hdone =>
      cases hnet
      simp only [MasterAt, hpc] at hat
      refine ⟨b, h.masterMove rfl rfl rfl (by rw [hpc]; rfl) (by simp [Server.Active, hpc])
        (by simp [Server.Unsent, hpc]) (by simp [Server.SlotReset, hpc]) ⟨hat.1, ?_⟩⟩
      rcases hdone with hle | hstop
      · exact .inr fun i hi => hat.2 i (by omega)
      · exact .inl hstop
  | sendPass hpc _ _ | skipConn hpc _ _ _ | passDone hpc _ =>
      cases hnet
      simp only [MasterAt, hpc] at hat
      exact ⟨b, h.sendMove (by rw [hpc]; rfl) (by simp [Server.SlotReset, hpc])
        (fun _ hun => by simpa [Server.Unsent, Server.setMaster, hpc] using hun) hat⟩
  | callConn hpc hi hstop hrto =>
      cases hnet
      simp only [MasterAt, hpc] at hat
      refine ⟨b, h.sendMove (by rw [hpc]; rfl) (by simp [Server.SlotReset, hpc])
        (fun _ hun => by simpa [Server.Unsent, Server.setMaster, hpc] using hun)
        ⟨hat.1, hat.2, hi, hrto, ?_, ?_⟩⟩
      · -- the stop signal is still down, so that all the buffers were collected
        exact (hat.2.resolve_left (by simp [hstop])) _ hi
      · exact fun hph => (hat.1 hph).resolve_left (by simp [hstop])
  | sent hpc _ =>
      cases hnet
      simp only [MasterAt, hpc] at hat
      exact ⟨b, h.sendMove (by rw [hpc]; rfl) (by simp [Server.SlotReset, hpc])
        (fun _ hun => by simp [Server.Unsent, Server.setMaster] at hun) hat.1⟩
  | sumNext hpc _ | sumEnough hpc _ _ | sumShort hpc _ _ | expired hpc | notExpired hpc
  | clearNext hpc _ | cleared hpc _ =>
      cases hnet
      simp only [MasterAt, hpc] at hat
      exact ⟨b, h.sentMove rfl rfl rfl hpc rfl trivial trivial hat⟩
  | @pause ph hpc =>
      cases hnet
      simp only [MasterAt, hpc] at hat
      refine ⟨b, h.sentMove rfl rfl rfl hpc rfl trivial trivial
        ⟨hat, ?_⟩⟩
      cases ph with
      | phase1 => exact fun _ i _ hi => absurd hi (Nat.not_lt_zero _)
      | phase2 st => exact ⟨.inl rfl, fun _ i _ hi => absurd hi (Nat.not_lt_zero _)⟩
  | scanNext hpc hi hstop =>
      cases hnet
      simp only [MasterAt, hpc] at hat
      exact ⟨b, h.sentMove rfl rfl rfl hpc rfl trivial trivial ⟨hat.1, hi, hat.2⟩⟩
  | scanned hpc hdone =>
      cases hnet
      simp only [MasterAt, hpc] at hat
      exact ⟨b, h.sentMove rfl rfl rfl hpc rfl trivial trivial
        ⟨hat.1, verdict_of_scanned hat.2 hdone⟩⟩
  | readSlot hpc hscan =>
      cases hnet
      have hscanned := h.readSlot hpc hscan
      simp only [MasterAt, hpc] at hat
      exact ⟨b, h.sentMove rfl rfl rfl hpc rfl trivial trivial ⟨hat.1, hscanned⟩⟩
  | unpause hpc hstatus =>
      cases hnet
      simp only [MasterAt, hpc] at hat
      exact ⟨b, h.sentMove rfl rfl rfl hpc rfl trivial trivial
        ⟨hat.1, verdict_of_status hat.2 hstatus⟩⟩

end Q2pc
