import Q2pc.System.Completion
import Q2pc.System.Outcome

namespace Q2pc

open Function (update)
open Tally

variable {C : Cluster} {s t : System} {sv : Server} {b m : Nat → Nat} {i k w R : Nat} {ph : Phase}

theorem counted_of_read (hinv : Inv C s b m) (hbalance : Balance C s m)
    (hanswered : s.Answered C) (hread : s.AllRead C)
    (hpasses : s.srv.master.passes s.srv.connRtofiredCount i = 1) (hi : i < C.cfg.clientCount) :
    Counted C.cfg s.srv m i := by
  obtain ⟨hloop, hempty⟩ := hread
  have hsent := hbalance.sent i hi
  obtain ⟨hto, hheld⟩ := hanswered i hi
  have hstages := congrArg List.length hsent.stages
  have hle := hsent.le
  simp only [hto, hheld, List.append_nil, List.map_nil, List.length_nil, List.length_range',
    Server.sent, hpasses] at hstages hle
  have hpending : s.net.readBuffer i = none := by
    cases hp : s.net.readBuffer i with
    | none => rfl
    | some p =>
        obtain ⟨v, hv, -, -, hpc⟩ := hinv.workers.held i p hp
        rw [hloop v hv] at hpc
        simp at hpc
  have hmark := hbalance.answered i hi
  simp only [Net.unscored, hpending, hempty i hi, List.length_nil, Nat.add_zero] at hmark
  refine ⟨by omega, fun w hw => ?_⟩
  rw [hloop w hw]
  exact id

theorem sum_votesCount (hcounters : Counters C s.srv m) (hopen : s.srv.master.Open)
    (hall : ∀ i < C.cfg.clientCount, Counted C.cfg s.srv m i) :
    ∑ w ∈ Finset.range C.cfg.threadCount, s.srv.votesCount w = C.cfg.clientCount := by
  have hok := hcounters.opened hopen
  calc ∑ w ∈ Finset.range C.cfg.threadCount, s.srv.votesCount w
    _ = ∑ w ∈ Finset.range C.cfg.threadCount, tally (Finset.range C.cfg.clientCount)
          C.cfg.Owns (Counted C.cfg s.srv m) w :=
        Finset.sum_congr rfl fun w hw => hok.count w (Finset.mem_range.mp hw)
    _ = (Finset.range C.cfg.clientCount).card :=
        sum_tally_of_forall C.cfg.splits fun i hi => hall i (Finset.mem_range.mp hi)
    _ = C.cfg.clientCount := Finset.card_range _

def MasterPc.Summing (votesCount : Nat → Nat) : MasterPc → Prop
  | .poll _ => True
  | .sumVotes _ i v => v = ∑ w ∈ Finset.range i, votesCount w
  | _ => False

def MasterPc.sumRank (threadCount : Nat) : MasterPc → Nat
  | .poll _ => threadCount + 2
  | .sumVotes _ i _ => (threadCount - i) + 1
  | _ => 0

-- The wait for votes ends once all are counted.
theorem leads_closed (hqj : C.cfg.transType ≠ .udpQj) (k : Nat) :
    (systemMachine C).Leads (System.undisturbed C) System.prompt
      (fun s => s.srv.stageNow = k ∧ s.Answered C ∧ s.AllRead C ∧
        (s.srv.master.Closed ∨ s.srv.master.Summing s.srv.votesCount))
      (fun s => s.srv.stageNow = k ∧ s.srv.master.Closed) := by
  refine .of_rank (fun s => s.srv.master.sumRank C.cfg.threadCount)
    fun s hr ⟨hk, hanswered, hread, hsum⟩ => ?_
  rcases hsum with hclosed | hsum
  · exact .inl ⟨hk, hclosed⟩
  have hgo : ∀ (e : Event) (sv : Server), s.undisturbed C (.server e) →
      s.prompt (.server e) → s.srv.step C.cfg e = some sv → s.net.step C.cfg e = some s.net →
      sv.stageNow = s.srv.stageNow → sv.workers = s.srv.workers →
      (sv.master.Closed ∨ sv.master.Summing sv.votesCount) →
      sv.master.sumRank C.cfg.threadCount < s.srv.master.sumRank C.cfg.threadCount →
      ∃ e t, s.undisturbed C e ∧ s.prompt e ∧ (systemMachine C).step s e = some t ∧
        (t.srv.stageNow = k ∧ t.Answered C ∧ t.AllRead C ∧
          (t.srv.master.Closed ∨ t.srv.master.Summing t.srv.votesCount)) ∧
        t.srv.master.sumRank C.cfg.threadCount < s.srv.master.sumRank C.cfg.threadCount := by
    intro e sv hok hfit hsrv hnet hnow hworkers hnext hlt
    refine ⟨.server e, { s with srv := sv }, hok, hfit, step_of_server hsrv hnet,
      ⟨hnow.trans hk, hanswered, ⟨?_, hread.2⟩, hnext⟩, hlt⟩
    intro w hw
    simpa only [hworkers] using hread.1 w hw
  obtain ⟨pc, hpc⟩ : ∃ pc, s.srv.master = pc := ⟨_, rfl⟩
  rw [hpc] at hsum
  cases pc with
  | poll ph =>
      refine .inr (hgo (.clock false) (s.srv.setMaster (.sumVotes ph 0 0)) rfl trivial ?_ rfl
        (Server.stageNow_congr (p := ph) rfl (by rw [hpc]; rfl) rfl) rfl (.inr ?_) ?_)
      · simp [Server.step, hpc]
      · simp [MasterPc.Summing, Server.setMaster]
      · simp [MasterPc.sumRank, Server.setMaster, hpc]
  | sumVotes ph i v =>
      simp only [MasterPc.Summing] at hsum
      by_cases hi : i < C.cfg.threadCount
      · refine .inr (hgo .master (s.srv.setMaster (.sumVotes ph (i + 1) (v + s.srv.votesCount i)))
          trivial trivial ?_ rfl (Server.stageNow_congr (p := ph) rfl (by rw [hpc]; rfl) rfl) rfl
          (.inr ?_) ?_)
        · simp [Server.step, Server.masterStep, hpc, hi]
        · simp [MasterPc.Summing, Server.setMaster, hsum, Finset.sum_range_succ]
        · simp only [MasterPc.sumRank, Server.setMaster, hpc]
          omega
      · obtain ⟨b, m, hinv, hcounters, -, hbalance⟩ := exists_balance hqj hr
        have hopen : s.srv.master.Open := by simp [hpc, MasterPc.Open]
        obtain ⟨hle, -⟩ := (hcounters.opened hopen).sum ph i v hpc
        have htotal := sum_votesCount hcounters hopen fun j hj =>
          counted_of_read hinv hbalance hanswered hread (by rw [hpc]; rfl) hj
        obtain rfl : i = C.cfg.threadCount := by omega
        have hv : C.cfg.clientCount ≤ v := by omega
        refine .inr (hgo .master (s.srv.setMaster (.dopauseAll ph)) trivial trivial ?_ rfl
          (Server.stageNow_congr (p := ph) rfl (by rw [hpc]; rfl) rfl) rfl (.inl trivial) ?_)
        · simp [Server.step, Server.masterStep, hpc, hv]
        · simp [MasterPc.sumRank, Server.setMaster, hpc]
  | _ => exact hsum.elim

def MasterPc.scanRank (cfg : Config) : MasterPc → Nat
  | .dopauseAll _ => 2 * cfg.clientCount + cfg.threadCount + 6
  | .scan _ i _ => 2 * (cfg.clientCount - i) + cfg.threadCount + 5
  | .readSlot _ i _ => 2 * (cfg.clientCount - (i + 1)) + cfg.threadCount + 6
  | .clearCount _ i _ => (cfg.threadCount - i) + 3
  | .unpauseAll _ _ => 2
  | .phaseReturn _ _ => 1
  | _ => 0

def MasterPc.Begins (pc : MasterPc) : Prop :=
  pc = .requests ∨ ∃ st, pc = .initScoreboard (.phase2 st) 0

private theorem phase_over (hreg : Regular C.cfg s.srv) {st : CommitStatus}
    (hpc : s.srv.master = .phaseReturn ph st) :
    (s.srv.afterPhase ph st).stageNow = s.srv.stageNow + 1 ∧
      (s.srv.afterPhase ph st).master.Begins := by
  have hnow : s.srv.stageNow = s.srv.stage ph := by
    simp [Server.stageNow, hpc, MasterPc.phase]
  rw [hnow]
  cases ph with
  | phase1 => exact ⟨rfl, .inr ⟨st, rfl⟩⟩
  | phase2 st₁ => rcases hreg.phase2 st₁ st hpc with rfl | rfl <;> exact ⟨rfl, .inl rfl⟩

-- After the wait for votes the master ends the phase.
theorem leads_begins (hqj : C.cfg.transType ≠ .udpQj) (k : Nat) :
    (systemMachine C).Leads (System.undisturbed C) System.prompt
      (fun s => s.srv.stageNow = k ∧ s.srv.master.Closed ∨
        s.srv.stageNow = k + 1 ∧ s.srv.master.Begins)
      (fun s => s.srv.stageNow = k + 1 ∧ s.srv.master.Begins) := by
  refine .of_rank (fun s => s.srv.master.scanRank C.cfg) fun s hr hs => ?_
  rcases hs with ⟨hk, hclosed⟩ | hbegins
  swap
  · exact .inl hbegins
  obtain ⟨b, m, hinv, hcounters, hreg, hbalance⟩ := exists_balance hqj hr
  have hstop := hbalance.running
  have hgo : ∀ sv : Server, s.srv.masterStep C.cfg = some sv →
      (sv.stageNow = k ∧ sv.master.Closed ∨ sv.stageNow = k + 1 ∧ sv.master.Begins) →
      sv.master.scanRank C.cfg < s.srv.master.scanRank C.cfg →
      ∃ e t, s.undisturbed C e ∧ s.prompt e ∧ (systemMachine C).step s e = some t ∧
        (t.srv.stageNow = k ∧ t.srv.master.Closed ∨
          t.srv.stageNow = k + 1 ∧ t.srv.master.Begins) ∧
        t.srv.master.scanRank C.cfg < s.srv.master.scanRank C.cfg := by
    intro sv hsrv hnext hlt
    exact ⟨.server .master, { s with srv := sv }, trivial, trivial,
      step_of_server (e := .master) hsrv rfl, hnext, hlt⟩
  have hsame : ∀ (sv : Server) (ph : Phase), sv.master.phase = ph → s.srv.master.phase = ph →
      sv.requests = s.srv.requests → sv.master.Closed → sv.stageNow = k ∧ sv.master.Closed ∨
        sv.stageNow = k + 1 ∧ sv.master.Begins := by
    intro sv ph hphase hphase' hreq hclosed
    exact .inl ⟨(Server.stageNow_congr hphase hphase' hreq).trans hk, hclosed⟩
  obtain ⟨pc, hpc⟩ : ∃ pc, s.srv.master = pc := ⟨_, rfl⟩
  rw [hpc] at hclosed
  refine .inr ?_
  cases pc with
  | dopauseAll ph =>
      refine hgo { s.srv with pauseSignal := true, master := .scan ph 0 ph.startStatus } ?_
        (hsame _ ph rfl (by rw [hpc]; rfl) rfl trivial) ?_
      · simp [Server.masterStep, hpc]
      · simp [MasterPc.scanRank, hpc]
  | scan ph i r =>
      by_cases hi : i < C.cfg.clientCount
      · refine hgo (s.srv.setMaster (.readSlot ph i r)) ?_
          (hsame _ ph rfl (by rw [hpc]; rfl) rfl trivial) ?_
        · simp [Server.masterStep, hpc, hi, hstop]
        · simp only [MasterPc.scanRank, Server.setMaster, hpc]
          omega
      · refine hgo (s.srv.setMaster (.clearCount ph 0 r)) ?_
          (hsame _ ph rfl (by rw [hpc]; rfl) rfl trivial) ?_
        · simp [Server.masterStep, hpc, hi]
        · simp only [MasterPc.scanRank, Server.setMaster, hpc]
          omega
  | readSlot ph i r =>
      have hat := hinv.master.position
      simp only [MasterAt, hpc] at hat
      obtain ⟨r', hr'⟩ := hcounters.scanSlot hpc hat.2.1
      refine hgo (s.srv.setMaster (.scan ph (i + 1) r')) ?_
        (hsame _ ph rfl (by rw [hpc]; rfl) rfl trivial) ?_
      · simp [Server.masterStep, hpc, hr']
      · simp only [MasterPc.scanRank, Server.setMaster, hpc]
        omega
  | clearCount ph i r =>
      by_cases hi : i < C.cfg.threadCount
      · refine hgo { s.srv with
            votesCount := update s.srv.votesCount i 0
            master := .clearCount ph (i + 1) r } ?_
          (hsame _ ph rfl (by rw [hpc]; rfl) rfl trivial) ?_
        · simp [Server.masterStep, hpc, hi]
        · simp only [MasterPc.scanRank, hpc]
          omega
      · refine hgo (s.srv.setMaster (.unpauseAll ph r)) ?_
          (hsame _ ph rfl (by rw [hpc]; rfl) rfl trivial) ?_
        · simp [Server.masterStep, hpc, hi]
        · simp only [MasterPc.scanRank, Server.setMaster, hpc]
          omega
  | unpauseAll ph r =>
      obtain ⟨st, hst⟩ := hreg.phaseStatus hpc
      refine hgo { s.srv with pauseSignal := false, master := .phaseReturn ph st } ?_
        (hsame _ ph rfl (by rw [hpc]; rfl) rfl trivial) ?_
      · simp [Server.masterStep, hpc, hst]
      · simp [MasterPc.scanRank, hpc]
  | phaseReturn ph st =>
      obtain ⟨hnow, hbegins⟩ := phase_over hreg hpc
      refine hgo (s.srv.afterPhase ph st) ?_ (.inr ⟨by rw [hnow, hk], hbegins⟩) ?_
      · simp [Server.masterStep, hpc]
      · rcases hbegins with h | ⟨st', h⟩ <;> simp [MasterPc.scanRank, hpc, h]
  | _ => exact hclosed.elim

-- One phase after the other: nothing blocks an undisturbed cluster.
theorem leads_next (hqj : C.cfg.transType ≠ .udpQj) (hreport : C.cfg.reportInt ≠ 0)
    (hroom : C.cfg.Room k) :
    (systemMachine C).Leads (System.undisturbed C) System.prompt (fun s => s.srv.stageNow = k)
      (fun s => s.srv.stageNow = k + 1 ∧ s.srv.master.Begins) := by
  refine (leads_wait hqj hreport k).trans (.trans ?_ (leads_begins hqj k))
  rintro s hr ⟨hk, ⟨ph, hpc⟩ | hclosed⟩
  · obtain ⟨t, hst, hk', hpc', hanswered, hread⟩ :=
      ((leads_answered hqj k ph).trans (leads_read hqj hroom ph)) s hr ⟨hk, hpc⟩
    obtain ⟨u, htu, hu⟩ := leads_closed hqj k t (hr.leads hst)
      ⟨hk', hanswered, hread, .inr (by rw [hpc']; trivial)⟩
    exact ⟨u, hst.trans htu, .inl hu⟩
  · exact ⟨s, .refl, .inl ⟨hk, hclosed⟩⟩

private theorem logs_of_round (hqj : C.cfg.transType ≠ .udpQj)
    (h : (systemMachine C).Reachable (System.undisturbed C) s) (hpc : s.srv.master = .requests)
    (hi : i < C.cfg.clientCount) :
    (s.client i).votes.length = s.srv.requests ∧
      (s.client i).decisions.length = s.srv.requests := by
  obtain ⟨b, m, hinv, hcounters, -, hbalance⟩ := exists_balance hqj h
  have hnow : s.srv.stageNow = 2 * s.srv.requests := by
    simp [Server.stageNow, hpc, MasterPc.phase, Server.stage]
  have hge := (hcounters.opened (by simp [hpc, MasterPc.Open])).mark_ge i hi
  have hanswered := hbalance.answered i hi
  have hle := (hbalance.sent i hi).le
  simp only [Server.sent, hpc, MasterPc.passes, hnow] at hge hle
  have hstage : (s.client i).stage = 2 * s.srv.requests := by omega
  have hlogs := (hinv.channel i hi).logs
  have hphase := ((s.client i).stage_even hlogs).mpr (by omega)
  have hdecisions := hlogs.phase1 hphase
  simp only [Client.stage, hphase] at hstage
  omega

private theorem eq_map_range {α : Type*} {l : List α} {f : Nat → α} (hlen : l.length = R)
    (h : ∀ (r : Nat) v, l[r]? = some v → v = f r) : l = (List.range R).map f := by
  refine List.ext_getElem (by simp [hlen]) fun r hr _ => ?_
  rw [h r l[r] (List.getElem?_eq_getElem hr)]
  simp

theorem rounds_promptly (hqj : C.cfg.transType ≠ .udpQj) (hreport : C.cfg.reportInt ≠ 0)
    (h : (systemMachine C).Reachable (System.undisturbed C) s) (hR : s.srv.requests < R)
    (hroom : ∀ w < C.cfg.threadCount,
      ((2 * R * (C.cfg.hi w - C.cfg.lo w) : Nat) : Int) < C.cfg.statsLen) :
    ∃ t, (systemMachine C).Steps (fun s e => s.undisturbed C e ∧ s.prompt e) s t ∧
      t.srv.master = .requests ∧
      t.srv.requests = R ∧ ∀ i < C.cfg.clientCount,
        (t.client i).votes = (List.range R).map (roundVote (C.peer i + 1)) ∧
        (t.client i).decisions = (List.range R).map (outcome C.cfg.clientCount) := by
  have hstart : s.srv.stageNow ≤ 2 * R - 1 := by
    unfold Server.stageNow Server.stage
    split <;> omega
  have hfits : ∀ j < 2 * R, C.cfg.Room j := by
    intro j hj w hw
    have hle : (C.cfg.hi w - C.cfg.lo w) * (j + 1) ≤ 2 * R * (C.cfg.hi w - C.cfg.lo w) := by
      rw [Nat.mul_comm]
      exact Nat.mul_le_mul_right _ hj
    have := hroom w hw
    omega
  have hiterate : (systemMachine C).Leads (System.undisturbed C) System.prompt
      (fun u => u.srv.stageNow = s.srv.stageNow) (fun u => u.srv.stageNow = 2 * R - 1) :=
    .iterate (P := fun j (u : System) => u.srv.stageNow = j) (fun j _ hj =>
      (leads_next hqj hreport (hfits j (by omega))).trans (.of_imp fun _ _ hu => hu.1)) hstart
  obtain ⟨t, hsteps, hnow, hbegins⟩ :=
    (hiterate.trans (leads_next hqj hreport (hfits _ (by omega)))) s h rfl
  have hreach := h.leads hsteps
  obtain ⟨hpc, hreq⟩ : t.srv.master = .requests ∧ t.srv.requests = R := by
    rcases hbegins with hpc | ⟨st, hpc⟩ <;>
      simp only [Server.stageNow, hpc, MasterPc.phase, Server.stage] at hnow
    · exact ⟨hpc, by omega⟩
    · omega
  refine ⟨t, hsteps, hpc, hreq, fun i hi => ?_⟩
  obtain ⟨hvotes, hdecisions⟩ := logs_of_round hqj hreach hpc hi
  have hlossy : (systemMachine C).Reachable (fun _ e => e.lossy) t :=
    hreach.mono fun _ _ hok => hok.reliable.lossy
  refine ⟨eq_map_range (hvotes.trans hreq) (counts_of_reachable hlossy i hi).votes,
    eq_map_range (hdecisions.trans hreq) fun r d hd => ?_⟩
  obtain ⟨b, m, hinv⟩ := exists_inv hqj hlossy
  obtain ⟨p, hp, hstage, rfl⟩ := hinv.history.decisions i hi r d hd
  exact decision_eq_outcome hqj hlossy hp hstage

-- From every state of an undisturbed run of the cluster the steps lead on to the end of any
-- later round that the workers have room for, and there each client has cast its votes and
-- learnt the outcomes of all rounds.
theorem rounds_complete (hqj : C.cfg.transType ≠ .udpQj) (hreport : C.cfg.reportInt ≠ 0)
    (h : (systemMachine C).Reachable (System.undisturbed C) s) (hR : s.srv.requests < R)
    (hroom : ∀ w < C.cfg.threadCount,
      ((2 * R * (C.cfg.hi w - C.cfg.lo w) : Nat) : Int) < C.cfg.statsLen) :
    ∃ t, (systemMachine C).Steps (System.undisturbed C) s t ∧ t.srv.master = .requests ∧
      t.srv.requests = R ∧ ∀ i < C.cfg.clientCount,
        (t.client i).votes = (List.range R).map (roundVote (C.peer i + 1)) ∧
        (t.client i).decisions = (List.range R).map (outcome C.cfg.clientCount) := by
  obtain ⟨t, hsteps, ht⟩ := rounds_promptly hqj hreport h hR hroom
  exact ⟨t, hsteps.mono fun _ _ hok => hok.1, ht⟩

-- A client that is alone votes yes in four rounds of five.
theorem rounds_complete_one : ∃ t : System,
    (systemMachine (.oneThread .tcpLn 1 100 1 (by decide) (by decide))).Steps
      (System.undisturbed (.oneThread .tcpLn 1 100 1 (by decide) (by decide)))
      (.init (.oneThread .tcpLn 1 100 1 (by decide) (by decide))) t ∧
    t.srv.requests = 5 ∧
    (t.client 0).decisions = [.commit, .commit, .commit, .commit, .cancel] := by
  obtain ⟨t, hsteps, -, hreq, ht⟩ := rounds_complete
    (C := .oneThread .tcpLn 1 100 1 (by decide) (by decide)) (R := 5) (by decide) (by decide)
    .init (by decide) (by decide)
  refine ⟨t, hsteps, hreq, (ht 0 (by decide)).2.trans ?_⟩
  decide

end Q2pc
