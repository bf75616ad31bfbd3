import Q2pc.System.Counters

namespace Q2pc

open Function (update)
open Tally

variable {C : Cluster} {s : System} {t : Server} {e : Event} {b m : Nat → Nat}

private theorem Inv.mark_le_of_unsent (hinv : Inv C s b m) (hactive : s.srv.Active) {i : Nat}
    (hi : i < C.cfg.clientCount) (hunsent : s.srv.Unsent i) : m i ≤ s.srv.stageNow := by
  have hb := hinv.master.unsent hactive i hi hunsent
  have hle := (hinv.channel i hi).stage_le
  have hm := (hinv.channel i hi).mark_le
  omega

theorem Counters.initSlot (h : Counters C s.srv m) (hinv : Inv C s b m)
    (hactive : s.srv.Active) {ph : Phase} {j : Nat} (hpc : s.srv.master = .initScoreboard ph j) :
    Counters C { s.srv with
      votesScoreboard := update s.srv.votesScoreboard j .lost
      master := .initScoreboard ph (j + 1) } m := by
  have hunsent : ∀ i < C.cfg.clientCount, m i ≤ s.srv.stageNow :=
    fun i hi => hinv.mark_le_of_unsent hactive hi (by simp [Server.Unsent, hpc])
  have hnow : s.srv.stageNow = s.srv.stage ph := by
    simp [Server.stageNow, hpc, MasterPc.phase]
  have hmove : Counters C { s.srv with master := .initScoreboard ph j } m := by
    rw [← hpc]
    exact h
  have hok := hmove.opened trivial
  refine ⟨by simp, ?_, hmove.phase, hmove.verdict, ?_, ?_, fun _ => ?_, fun hc => hc.elim⟩
  · exact fun hp => absurd (hmove.paused hp) (by simp [MasterPc.Paused])
  · intro i hi hreset hm
    by_cases hij : C.peer i = j
    · simp [hij]
    · simp only [MasterPc.Reset] at hreset
      simpa [hij] using hmove.fresh i hi (by simp only [MasterPc.Reset]; omega) hm
  · intro i hi _ hm
    have := hunsent i hi
    rw [hnow] at this
    simp only [Server.stageNow, MasterPc.phase, Server.stage] at hm this
    omega
  · exact ⟨hok.mark_ge, hok.count, hok.store, hok.clearing, hok.counting, by simp⟩

private theorem Counters.sumEnough (h : Counters C s.srv m) {ph : Phase} {i v : Nat}
    (hpc : s.srv.master = .sumVotes ph i v) (hi : C.cfg.threadCount ≤ i)
    (hv : C.cfg.clientCount ≤ v) : Counters C (s.srv.setMaster (.dopauseAll ph)) m := by
  have hopen : s.srv.master.Open := by simp [hpc, MasterPc.Open]
  have hok := h.opened hopen
  obtain ⟨hle, hsum⟩ := hok.sum ph i v hpc
  obtain rfl : i = C.cfg.threadCount := by omega
  have hcard : (Finset.range C.cfg.clientCount).card ≤ ∑ w ∈ Finset.range C.cfg.threadCount,
      tally (Finset.range C.cfg.clientCount) C.cfg.Owns (Counted C.cfg s.srv m) w := by
    calc (Finset.range C.cfg.clientCount).card = C.cfg.clientCount := Finset.card_range _
      _ ≤ v := hv
      _ ≤ ∑ w ∈ Finset.range C.cfg.threadCount, s.srv.votesCount w := hsum
      _ = _ := Finset.sum_congr rfl fun w hw => hok.count w (Finset.mem_range.mp hw)
  have hall := forall_of_le_sum_tally C.cfg.splits hcard
  have hnow : (s.srv.setMaster (.dopauseAll ph)).stageNow = s.srv.stageNow := by
    simp [Server.stageNow, Server.setMaster, Server.stage, MasterPc.phase, hpc]
  have hphase := h.phase
  simp only [hpc, MasterPc.phase] at hphase
  refine ⟨by simp [Server.setMaster], ?_, hphase, by simp [Server.setMaster, MasterPc.verdict],
    ?_, ?_, fun ho => ho.elim, fun _ => ⟨?_, ?_, by simp [Server.setMaster, MasterPc.cleared]⟩⟩
  · exact fun hp => absurd (h.paused hp) hopen.not_paused
  · intro k hk _ hm
    exact h.fresh k hk (by simp [hpc, MasterPc.Reset]) (hm.trans hnow)
  · intro k hk _ hm
    rw [hnow] at hm ⊢
    exact h.response k hk (by simp [hpc, MasterPc.Reset]) hm
  · intro k hk
    refine (Counted.congr ?_ rfl ?_).mpr (hall k (Finset.mem_range.mpr hk))
    · exact hnow
    · exact fun _ _ => Iff.rfl
  · intro w hw
    exact (le_of_eq (hok.count w hw)).trans (tally_mono fun _ _ _ _ => trivial)

-- At the end of a phase all counters are 0 and all responses are those of the last
-- exchange.
private theorem Counters.nextPhase (h : Counters C s.srv m) (hinv : Inv C s b m)
    (hclosed : s.srv.master.Closed) (hcleared : s.srv.master.cleared C.cfg = C.cfg.threadCount)
    (hopen : t.master.Open) (hphase : t.master.phase ≠ .phase2 .clusterFail)
    (hnow : t.stageNow = s.srv.stageNow + 1) (hpause : t.pauseSignal = s.srv.pauseSignal)
    (hpaused : ¬s.srv.master.Paused) (hcount : t.votesCount = s.srv.votesCount)
    (hworkers : t.workers = s.srv.workers) (hreset : ∀ c, ¬t.master.Reset c)
    (hsum : ∀ ph i v, t.master ≠ .sumVotes ph i v) : Counters C t m := by
  have hok := h.closed hclosed
  have hmark : ∀ i < C.cfg.clientCount, m i = t.stageNow := by
    intro i hi
    rw [hnow]
    exact (hok.counted i hi).1
  have hidle : ∀ w < C.cfg.threadCount, ∀ i, ¬(s.srv.workers w).pc.Counting i := by
    intro w hw i hc
    have hi := lt_clientCount hw (hinv.owns_of_counting hw hc).2
    exact (hok.counted i hi).2 w hw hc
  refine ⟨?_, ?_, hphase, ?_, fun _ _ hr => absurd hr (hreset _),
    fun _ _ hr => absurd hr (hreset _), fun _ => ⟨?_, ?_, ?_, ?_, ?_, ?_⟩,
    fun hc => absurd hc hopen.not_closed⟩
  · intro hterm
    simp [hterm, MasterPc.Open] at hopen
  · intro hp
    rw [hpause] at hp
    exact absurd (h.paused hp) hpaused
  · intro r hr
    cases hpc : t.master <;> simp_all [MasterPc.verdict, MasterPc.Open]
  · exact fun i hi => (hmark i hi).ge
  · intro w hw
    rw [hcount, hok.cleared w (by omega) hw]
    refine Eq.symm (tally_eq_zero fun i hi _ hc => ?_)
    have := hmark i (Finset.mem_range.mp hi)
    have := hc.1
    omega
  · intro w hw i p v hpc
    rw [hworkers] at hpc
    exact absurd (by simp [hpc, WorkerPc.Counting]) (hidle w hw i)
  · intro w hw _ i hown
    exact hmark i (lt_clientCount hw hown.2)
  · intro w hw i hc
    rw [hworkers] at hc
    exact absurd hc (hidle w hw i)
  · exact fun ph i v hpc => absurd hpc (hsum ph i v)

private theorem Counters.afterPhase (h : Counters C s.srv m) (hinv : Inv C s b m) {ph : Phase}
    {status : CommitStatus} (hpc : s.srv.master = .phaseReturn ph status)
    (hstop : (s.srv.afterPhase ph status).stopSignal = false) :
    Counters C (s.srv.afterPhase ph status) m := by
  have hclosed : s.srv.master.Closed := by simp [hpc, MasterPc.Closed]
  have hpaused : ¬s.srv.master.Paused := by simp [hpc, MasterPc.Paused]
  have hcleared : s.srv.master.cleared C.cfg = C.cfg.threadCount := by
    simp [hpc, MasterPc.cleared]
  have hstatus := h.verdict status (by simp [hpc, MasterPc.verdict])
  have hnow : s.srv.stageNow = s.srv.stage ph := by
    simp [Server.stageNow, hpc, MasterPc.phase]
  cases ph with
  | phase1 =>
      refine h.nextPhase hinv hclosed hcleared trivial ?_ ?_ rfl hpaused rfl rfl ?_ ?_
      · simpa [Server.afterPhase, Server.setMaster, MasterPc.phase] using hstatus
      · rw [hnow]
        rfl
      · simp [Server.afterPhase, Server.setMaster, MasterPc.Reset]
      · simp [Server.afterPhase, Server.setMaster]
  | phase2 st =>
      have hround :
          Counters C { s.srv with requests := s.srv.requests + 1, master := .requests } m := by
        refine h.nextPhase hinv hclosed hcleared trivial ?_ ?_ rfl hpaused rfl rfl ?_ ?_
        · simp [MasterPc.phase]
        · rw [hnow]
          rfl
        · simp [MasterPc.Reset]
        · simp
      cases status with
      | commitSuccess => exact hround
      | commitFail => exact hround
      | _ => simp [Server.afterPhase, Server.term] at hstop

theorem Counters.slot (h : Counters C s.srv m) {ph : Phase} {j : Nat} {r : CommitStatus}
    (hpc : s.srv.master = .readSlot ph j r) (hj : j < C.cfg.clientCount) :
    (ph = .phase1 → s.srv.votesScoreboard j = .voteYes ∨ s.srv.votesScoreboard j = .voteNo) ∧
    (ph ≠ .phase1 → s.srv.votesScoreboard j = .ack) := by
  have hi : C.peer.symm j < C.cfg.clientCount := by
    rw [← C.peer_lt]
    simpa using hj
  have hclosed : s.srv.master.Closed := by simp [hpc, MasterPc.Closed]
  have hcounted := (h.closed hclosed).counted _ hi
  have hresponse := h.response _ hi (by simp [hpc, MasterPc.Reset]) hcounted.1
  rw [Equiv.apply_symm_apply] at hresponse
  have hnow : s.srv.stageNow = s.srv.stage ph := by
    simp [Server.stageNow, hpc, MasterPc.phase]
  rw [hnow] at hresponse
  constructor
  · rintro rfl
    exact hresponse.1 (by simp [Server.stage])
  · intro hph
    cases ph with
    | phase1 => contradiction
    | phase2 st => exact hresponse.2 (by simp only [Server.stage]; omega)

private theorem Counters.readSlot (h : Counters C s.srv m) {ph : Phase} {j : Nat}
    {r r' : CommitStatus} (hpc : s.srv.master = .readSlot ph j r) (hj : j < C.cfg.clientCount)
    (hscan : scanSlot ph r (s.srv.votesScoreboard j) = some r') : r' ≠ .clusterFail := by
  have hr := h.verdict r (by simp [hpc, MasterPc.verdict])
  obtain ⟨hvote, hack⟩ := h.slot hpc hj
  cases ph with
  | phase1 =>
      rcases hvote rfl with hslot | hslot
      · simp only [hslot, scanSlot, Option.some.injEq] at hscan
        exact hscan ▸ hr
      · simp only [hslot, scanSlot, Option.some.injEq] at hscan
        simp [← hscan]
  | phase2 st =>
      simp only [hack (by simp), scanSlot, Option.some.injEq] at hscan
      exact hscan ▸ hr

private theorem Counters.startPhase (h : Counters C s.srv m) {ph : Phase} {j : Nat}
    (hpc : s.srv.master = .initScoreboard ph j) (hj : C.cfg.clientCount ≤ j)
    (hstop : (s.srv.startPhase C.cfg ph).stopSignal = false) :
    Counters C (s.srv.startPhase C.cfg ph) m := by
  have hreset : ∀ i < C.cfg.clientCount, (MasterPc.initScoreboard ph j).Reset (C.peer i) := by
    intro i hi
    have := (C.peer_lt i).mpr hi
    simp only [MasterPc.Reset]
    omega
  have hsend : Counters C (s.srv.sendRequest C.cfg ph) m := by
    unfold Server.sendRequest
    split <;>
      exact h.openMove hpc trivial trivial rfl rfl rfl rfl rfl rfl
        (fun i hi _ => hreset i hi) (by simp [Server.setMaster])
  cases ph with
  | phase1 => exact hsend
  | phase2 st =>
      cases st with
      | requestSuccess => exact hsend
      | requestFail => exact hsend
      | clusterFail => exact absurd (by simp [hpc, MasterPc.phase]) h.phase
      | commitSuccess => simp [Server.startPhase, Server.term] at hstop
      | commitFail => simp [Server.startPhase, Server.term] at hstop

private theorem Counters.endWriteRet (h : Counters C s.srv m) {ph : Phase} {i : Nat} {r : Ret}
    (hpc : s.srv.master = .inEndWrite ph i)
    (hstop : (s.srv.endWriteRet C.cfg ph i r).stopSignal = false) :
    Counters C (s.srv.endWriteRet C.cfg ph i r) m := by
  have hgo : ∀ t : Server, t.master.Open → t.master.phase = ph → t.requests = s.srv.requests →
      t.pauseSignal = s.srv.pauseSignal → t.votesScoreboard = s.srv.votesScoreboard →
      t.votesCount = s.srv.votesCount → t.workers = s.srv.workers →
      (∀ ph i v, t.master ≠ .sumVotes ph i v) → Counters C t m := by
    intro t hopen hphase hreq hpause hslots hcount hworkers hsum
    exact h.openMove hpc trivial hopen hphase hreq hpause
      hslots hcount hworkers (by simp [MasterPc.Reset])
      (fun ph i v hv => absurd hv (hsum ph i v))
  unfold Server.endWriteRet at hstop ⊢
  split
  · exact hgo _ trivial rfl rfl rfl rfl rfl rfl (by simp [Server.setMaster])
  · rename_i hqj
    rw [if_neg hqj] at hstop
    cases r with
    | rtofired =>
        dsimp only at hstop ⊢
        split
        · rename_i hmax
          simp [hmax, Server.term] at hstop
        · exact hgo _ trivial rfl rfl rfl rfl rfl rfl (by simp)
    | eagain => exact hgo _ trivial rfl rfl rfl rfl rfl rfl (by simp [Server.setMaster])
    | enone => exact hgo _ trivial rfl rfl rfl rfl rfl rfl (by simp)
    | efin => simp [Server.term] at hstop

private theorem phaseStatus_ne {ph : Phase} {r status : CommitStatus}
    (h : phaseStatus ph r = some status) (hr : r ≠ .clusterFail) : status ≠ .clusterFail := by
  cases ph with
  | phase1 =>
      simp only [phaseStatus, Option.some.injEq] at h
      exact h ▸ hr
  | phase2 st =>
      rintro rfl
      cases st <;> cases r <;> simp_all [phaseStatus]

theorem Counters.masterStep (h : Counters C s.srv m) (hinv : Inv C s b m)
    (hactive : s.srv.Active) (hstop : s.srv.stopSignal = false) (hstop' : t.stopSignal = false)
    (he : e ≠ .clock true) (hs : MasterStep C.cfg s.srv e t) : Counters C t m := by
  cases hs with
  | finish hpc hf => simp [hf] at hstop
  | badSlot _ _ => simp [Server.term] at hstop'
  | badStatus _ _ => simp [Server.term] at hstop'
  | expired _ => exact absurd rfl he
  | initSlot hpc _ => exact h.initSlot hinv hactive hpc
  | startPhase hpc hj => exact h.startPhase hpc hj hstop'
  | endWriteRet hpc => exact h.endWriteRet hpc hstop'
  | phaseReturn hpc => exact h.afterPhase hinv hpc hstop'
  | sumEnough hpc hi hv => exact h.sumEnough hpc hi hv
  | startRound hpc | collectNext hpc | collected hpc | sendPass hpc | sent hpc | skipConn hpc
  | callConn hpc | passDone hpc | begWrite hpc | broadcastBegWrite hpc | endWrite hpc
  | sumShort hpc =>
      exact h.openMove hpc trivial trivial rfl rfl rfl rfl rfl rfl
        (by simp [Server.setMaster, MasterPc.Reset]) (by simp [Server.setMaster])
  | notExpired hpc =>
      refine h.openMove hpc trivial trivial rfl rfl rfl rfl rfl rfl
        (by simp [MasterPc.Reset]) ?_
      intro ph i v hv
      cases hv
      exact ⟨Nat.zero_le _, Nat.zero_le _⟩
  | @sumNext ph i v hpc hi =>
      have hopen : s.srv.master.Open := by simp [hpc, MasterPc.Open]
      refine h.openMove hpc trivial trivial rfl rfl rfl rfl rfl rfl
        (by simp [MasterPc.Reset]) ?_
      intro ph' i' v' hv
      cases hv
      obtain ⟨-, hsum⟩ := (h.opened hopen).sum ph i v hpc
      rw [Finset.sum_range_succ]
      exact ⟨hi, by omega⟩
  | @pause ph hpc =>
      refine h.closedMove hpc trivial trivial rfl rfl rfl rfl
        (fun _ => trivial) ?_ (fun _ => Nat.le_refl _) (by simp [MasterPc.cleared])
      intro r hr
      simp only [MasterPc.verdict, Option.some.injEq] at hr
      subst hr
      cases ph <;> simp [Phase.startStatus]
  | @scanNext ph i r hpc _ _ | @scanned ph i r hpc _ =>
      exact h.closedMove hpc trivial trivial rfl rfl rfl rfl (fun _ => trivial)
        (fun r' hr' => h.verdict r' (by rw [hpc]; exact hr')) (fun _ => Nat.le_refl _)
        (by simp [Server.setMaster, MasterPc.cleared])
  | @readSlot ph i r r' hpc hscan =>
      have hat := hinv.master.position
      simp only [MasterAt, hpc] at hat
      have hne := h.readSlot hpc hat.2.1 hscan
      refine h.closedMove hpc trivial trivial rfl rfl rfl rfl (fun _ => trivial) ?_
        (fun _ => Nat.le_refl _) (by simp [Server.setMaster, MasterPc.cleared])
      intro r'' hr''
      cases hr''
      exact hne
  | @clearNext ph i r hpc hi =>
      have hclosed : s.srv.master.Closed := by simp [hpc, MasterPc.Closed]
      refine h.closedMove hpc trivial trivial rfl rfl rfl rfl (fun _ => trivial)
        (fun r' hr' => h.verdict r' (by rw [hpc]; exact hr')) ?_ ?_
      · intro w
        by_cases hwi : w = i
        · simp [hwi]
        · simp [hwi]
      · intro w hw hwt
        simp only [MasterPc.cleared] at hw
        by_cases hwi : w = i
        · simp [hwi]
        · have hzero := (h.closed hclosed).cleared w
            (by simp only [hpc, MasterPc.cleared]; omega) hwt
          simpa [hwi] using hzero
  | @cleared ph i r hpc hi =>
      have hclosed : s.srv.master.Closed := by simp [hpc, MasterPc.Closed]
      refine h.closedMove hpc trivial trivial rfl rfl rfl rfl (fun _ => trivial)
        (fun r' hr' => h.verdict r' (by rw [hpc]; exact hr')) (fun _ => Nat.le_refl _) ?_
      intro w _ hwt
      exact (h.closed hclosed).cleared w (by simp only [hpc, MasterPc.cleared]; omega) hwt
  | @unpause ph r status hpc hstatus =>
      have hclosed : s.srv.master.Closed := by simp [hpc, MasterPc.Closed]
      have hr := h.verdict r (by simp [hpc, MasterPc.verdict])
      refine h.closedMove hpc trivial trivial rfl rfl rfl rfl (by simp) ?_
        (fun _ => Nat.le_refl _) ?_
      · intro r' hr'
        cases hr'
        exact phaseStatus_ne hstatus hr
      · intro w hw hwt
        exact (h.closed hclosed).cleared w (by simpa [hpc, MasterPc.cleared] using hw) hwt

theorem Counters.init (C : Cluster) : Counters C .init (fun _ => 0) where
  running := by simp [Server.init]
  paused := by simp [Server.init]
  phase := by simp [Server.init, MasterPc.phase]
  verdict := by simp [Server.init, MasterPc.verdict]
  fresh := fun _ _ hreset => hreset.elim
  response := fun _ _ hreset => hreset.elim
  opened := fun _ => {
    mark_ge := by simp [Server.init, Server.stageNow, Server.stage, MasterPc.phase]
    count := fun w _ => (tally_eq_zero fun _ _ _ hc => absurd hc.1 (by simp)).symm
    store := by simp [Server.init]
    clearing := by simp [Server.init]
    counting := by simp [Server.init, WorkerPc.Counting]
    sum := by simp [Server.init] }
  closed := fun hc => hc.elim

-- The connections are reliable, no timeout fires and the stop signal stays down.
def System.faultFree (s : System) (e : SysEvent) : Prop :=
  e.reliable ∧ e ≠ .server (.clock true) ∧ s.srv.stopSignal = false

instance (s : System) (e : SysEvent) : Decidable (s.faultFree e) :=
  inferInstanceAs (Decidable (_ ∧ _ ∧ _))

theorem srv_of_step {u : System} {e : SysEvent}
    (hs : (systemMachine C).step s e = some u)
    (he : ∀ x, e ≠ .server x) : u.srv = s.srv := by
  cases e <;> simp only [systemMachine, System.step] at hs
  case server x => exact absurd rfl (he x)
  case receive =>
      split at hs <;> try contradiction
      split at hs <;> try contradiction
      obtain ⟨-, -, rfl⟩ := Option.map_eq_some_iff.mp hs
      rfl
  case quit =>
      simp only [Option.ite_none_right_eq_some, Option.some.injEq] at hs
      rw [← hs.2]
  all_goals
    split at hs <;> try contradiction
    obtain ⟨-, -, rfl⟩ := Option.map_eq_some_iff.mp hs
    rfl

theorem exists_counters (hqj : C.cfg.transType ≠ .udpQj)
    (h : (systemMachine C).Reachable System.faultFree s) :
    ∃ b m, Inv C s b m ∧ (s.srv.stopSignal = false → Counters C s.srv m) := by
  apply h.invariant (P := fun s => ∃ b m, Inv C s b m ∧
    (s.srv.stopSignal = false → Counters C s.srv m))
  · exact ⟨_, _, Inv.init C, fun _ => Counters.init C⟩
  · rintro s e u - ⟨b, m, hinv, hcounters⟩ ⟨hreliable, hclock, hstop⟩ hs
    obtain ⟨b', hinv'⟩ := hinv.step hqj hreliable.lossy hs
    refine ⟨b', _, hinv', fun hstop' => ?_⟩
    have hcounters := hcounters hstop
    have hactive : s.srv.Active := ⟨hcounters.running, fun _ => hstop⟩
    cases e with
    | server x =>
        obtain ⟨srv, net, hsrv, -, rfl⟩ := server_step hs
        simp only [System.nextMark]
        rcases step_cases hsrv with hm | ⟨w, hw, hm⟩
        · rw [nextMark_of_masterStep hm]
          exact hcounters.masterStep hinv hactive hstop hstop' (fun hx => hclock (by rw [hx])) hm
        · exact hcounters.workerStep hinv hactive hw hm
    | _ =>
        have hsrv : u.srv = s.srv := srv_of_step hs (by simp)
        rw [hsrv]
        exact hcounters

-- The slots of the phase are initialised and the master has not left wait_for_votes.
def MasterPc.Waiting (pc : MasterPc) : Prop := pc.Open ∧ ∀ c, pc.Reset c

def Server.Handled (C : Cluster) (s : Server) (i : Nat) : Prop :=
  s.votesScoreboard (C.peer i) ≠ .lost ∧
    ∀ w < C.cfg.threadCount, ¬(s.workers w).pc.Counting i

theorem Counters.counted (h : Counters C s.srv m) (hinv : Inv C s b m)
    (hwait : s.srv.master.Waiting) {i : Nat} (hi : i < C.cfg.clientCount)
    (hhandled : s.srv.Handled C i) (hactive : s.srv.Active) : Counted C.cfg s.srv m i := by
  refine ⟨?_, hhandled.2⟩
  have hge := (h.opened hwait.1).mark_ge i hi
  have hne : m i ≠ s.srv.stageNow := fun hm => hhandled.1 (h.fresh i hi (hwait.2 _) hm)
  have hm := (hinv.channel i hi).mark_le
  have hs := (hinv.channel i hi).stage_le
  have hb := hinv.master.bound_le hactive i hi
  omega

theorem Counters.sum_le (h : Counters C s.srv m) :
    ∑ w ∈ Finset.range C.cfg.threadCount, s.srv.votesCount w ≤ C.cfg.clientCount := by
  rcases MasterPc.open_or_closed h.running with hopen | hclosed
  · calc ∑ w ∈ Finset.range C.cfg.threadCount, s.srv.votesCount w
      _ = ∑ w ∈ Finset.range C.cfg.threadCount, tally (Finset.range C.cfg.clientCount)
            C.cfg.Owns (Counted C.cfg s.srv m) w :=
          Finset.sum_congr rfl fun w hw => (h.opened hopen).count w (Finset.mem_range.mp hw)
      _ ≤ (Finset.range C.cfg.clientCount).card := sum_tally_le C.cfg.splits
      _ = C.cfg.clientCount := Finset.card_range _
  · calc ∑ w ∈ Finset.range C.cfg.threadCount, s.srv.votesCount w
      _ ≤ ∑ w ∈ Finset.range C.cfg.threadCount, tally (Finset.range C.cfg.clientCount)
            C.cfg.Owns (fun _ => True) w :=
          Finset.sum_le_sum fun w hw => (h.closed hclosed).count_le w (Finset.mem_range.mp hw)
      _ ≤ (Finset.range C.cfg.clientCount).card := sum_tally_le C.cfg.splits
      _ = C.cfg.clientCount := Finset.card_range _

-- Without faults, timeouts and stop signals no response is lost on the way to the
-- counters, none is counted twice, and no phase fails.
theorem votes_counted (htcp : C.cfg.transType = .tcpLn)
    (h : (systemMachine C).Reachable System.faultFree s) (hstop : s.srv.stopSignal = false) :
    (s.srv.master.Waiting → (∀ i < C.cfg.clientCount, s.srv.Handled C i) →
      ∑ w ∈ Finset.range C.cfg.threadCount, s.srv.votesCount w = C.cfg.clientCount) ∧
    (∑ w ∈ Finset.range C.cfg.threadCount, s.srv.votesCount w ≤ C.cfg.clientCount) ∧
    (∀ ph status, s.srv.master = .phaseReturn ph status → status ≠ .clusterFail) := by
  obtain ⟨b, m, hinv, hcounters⟩ := exists_counters (by simp [htcp]) h
  have hcounters := hcounters hstop
  refine ⟨?_, ?_, ?_⟩
  · intro hwait hhandled
    have hok := hcounters.opened hwait.1
    calc ∑ w ∈ Finset.range C.cfg.threadCount, s.srv.votesCount w
      _ = ∑ w ∈ Finset.range C.cfg.threadCount, tally (Finset.range C.cfg.clientCount)
            C.cfg.Owns (Counted C.cfg s.srv m) w :=
          Finset.sum_congr rfl fun w hw => hok.count w (Finset.mem_range.mp hw)
      _ = (Finset.range C.cfg.clientCount).card :=
          sum_tally_of_forall C.cfg.splits fun i hi =>
            hcounters.counted hinv hwait (Finset.mem_range.mp hi)
              (hhandled i (Finset.mem_range.mp hi)) ⟨hcounters.running, fun _ => hstop⟩
      _ = C.cfg.clientCount := Finset.card_range _
  · exact hcounters.sum_le
  · intro ph status hpc
    exact hcounters.verdict status (by simp [hpc, MasterPc.verdict])

-- The master adds up the counters of a phase in which both clients have answered.
theorem votes_counted_pair : ∃ s : System,
    (systemMachine (pair .tcpLn)).Reachable System.faultFree s ∧ s.srv.stopSignal = false ∧
    (s.srv.master == .sumVotes .phase1 0 0 && s.srv.votesCount 0 == 2) = true ∧
    (s.srv.master.Waiting → (∀ i < 2, s.srv.Handled (pair .tcpLn) i) →
      ∑ w ∈ Finset.range 1, s.srv.votesCount w = 2) ∧
    (∑ w ∈ Finset.range 1, s.srv.votesCount w ≤ 2) ∧
    (∀ ph status, s.srv.master = .phaseReturn ph status → status ≠ .clusterFail) := by
  obtain ⟨s, hrun, hs⟩ := Machine.exists_run_of_eval (systemMachine (pair .tcpLn))
    System.faultFree
    (.server .master :: sendEvents 2 .phase1 0 ++ answerEvents [0, 1] ++
      passEvents [some (.voteYes, 0), some (.voteYes, 0)] ++ [.server (.clock false)])
    (fun s => !s.srv.stopSignal && (s.srv.master == .sumVotes .phase1 0 0 &&
      s.srv.votesCount 0 == 2)) (by decide +kernel)
  rw [Bool.and_eq_true, Bool.not_eq_true'] at hs
  exact ⟨s, hrun.reachable, hs.1, hs.2, votes_counted (C := pair .tcpLn) rfl hrun.reachable hs.1⟩

end Q2pc
