import Q2pc.Lib.History
import Q2pc.Server.Verdict
import Q2pc.System.Broadcast

namespace Q2pc

variable {cfg : Config} {s t : Server} {e : Event} {ph : Phase}

-- What a scan saw of the scoreboard: the slots it has read, and those that it had not
-- read when the stop signal ended it.
structure ScanLog where
  read : List MsgType
  unread : List MsgType
  deriving DecidableEq

def ScanLog.slots (x : ScanLog) : List MsgType := x.read ++ x.unread

-- The last scans of the two phases.
structure RoundLog where
  phase1 : ScanLog
  phase2 : ScanLog
  deriving DecidableEq

def RoundLog.init : RoundLog := ⟨⟨[], []⟩, ⟨[], []⟩⟩

def RoundLog.scan (l : RoundLog) : Phase → ScanLog
  | .phase1 => l.phase1
  | .phase2 _ => l.phase2

def RoundLog.set (l : RoundLog) (x : ScanLog) : Phase → RoundLog
  | .phase1 => { l with phase1 := x }
  | .phase2 _ => { l with phase2 := x }

@[simp] theorem RoundLog.scan_set (l : RoundLog) (x : ScanLog) (ph : Phase) :
    (l.set x ph).scan ph = x := by cases ph <;> rfl

@[simp] theorem RoundLog.phase1_set (l : RoundLog) (x : ScanLog) (st : CommitStatus) :
    (l.set x (.phase2 st)).phase1 = l.phase1 := rfl

def RoundLog.record (cfg : Config) (l : RoundLog) (s : Server) : Event → RoundLog
  | .master =>
      match s.master with
      | .dopauseAll ph => l.set ⟨[], []⟩ ph
      | .readSlot ph i _ => l.set ⟨(l.scan ph).read ++ [s.votesScoreboard i], []⟩ ph
      | .scan ph i _ =>
          if i < cfg.clientCount ∧ s.stopSignal = false then l
          else l.set ⟨(l.scan ph).read, (s.scoreboard cfg).drop i⟩ ph
      | _ => l
  | _ => l

def roundMachine (cfg : Config) : Machine (Server × RoundLog) Event :=
  (serverMachine cfg).withHistory .init (RoundLog.record cfg)

theorem reachable_iff_roundLog : (serverMachine cfg).Reachable Machine.always s ↔
    ∃ l, (roundMachine cfg).Reachable Machine.always (s, l) :=
  Machine.reachable_withHistory

-- The scan of a phase is over with the verdict `r`, and saw every slot.
def ScanLog.Gives (cfg : Config) (x : ScanLog) (ph : Phase) (r : CommitStatus) : Prop :=
  verdict ph x.read = some r ∧ x.slots.length = cfg.clientCount

def MasterPc.ScanOk (cfg : Config) (l : RoundLog) : MasterPc → Prop
  | .scan ph i r => i ≤ cfg.clientCount ∧ (l.scan ph).read.length = i ∧
      Q2pc.verdict ph (l.scan ph).read = some r
  | .readSlot ph i r => i < cfg.clientCount ∧ (l.scan ph).read.length = i ∧
      Q2pc.verdict ph (l.scan ph).read = some r
  | .clearCount ph _ r | .unpauseAll ph r => (l.scan ph).Gives cfg ph r
  | .phaseReturn ph status => ph = .phase2 .clusterFail ∧ status = .clusterFail ∨
      ∃ r, (l.scan ph).Gives cfg ph r ∧ phaseStatus ph r = some status
  | _ => True

structure RoundOk (cfg : Config) (s : Server) (l : RoundLog) : Prop where
  phase1 : ∀ st, s.master.phase = .phase2 st → l.phase1.Gives cfg .phase1 st
  scan : s.master.ScanOk cfg l

variable {l : RoundLog}

private theorem RoundOk.move (h : RoundOk cfg s l) (hphase : t.master.phase = s.master.phase)
    (hscan : t.master.ScanOk cfg l) : RoundOk cfg t l where
  phase1 := by
    rw [hphase]
    exact h.phase1
  scan := hscan

private theorem RoundOk.of_phase1 (hphase : t.master.phase = .phase1)
    (hscan : t.master.ScanOk cfg l) : RoundOk cfg t l where
  phase1 := by simp [hphase]
  scan := hscan

private theorem RoundOk.term (s : Server) (l : RoundLog) : RoundOk cfg s.term l :=
  .of_phase1 rfl trivial

private theorem RoundOk.set {x : ScanLog} (h : RoundOk cfg s l) (hphase : s.master.phase = ph)
    (hphase' : t.master.phase = ph) (hscan : t.master.ScanOk cfg (l.set x ph)) :
    RoundOk cfg t (l.set x ph) where
  phase1 := by
    intro st hst
    rw [hphase'] at hst
    subst hst
    rw [RoundLog.phase1_set]
    exact h.phase1 st hphase
  scan := hscan

private theorem RoundOk.startPhase {i : Nat} (h : RoundOk cfg s l)
    (hpc : s.master = .initScoreboard ph i) : RoundOk cfg (s.startPhase cfg ph) l := by
  have hsend : RoundOk cfg (s.sendRequest cfg ph) l := by
    unfold Server.sendRequest
    split <;> exact h.move (by simp [hpc, Server.setMaster, MasterPc.phase]) trivial
  cases ph with
  | phase1 => exact hsend
  | phase2 st =>
      cases st with
      | requestSuccess => exact hsend
      | requestFail => exact hsend
      | clusterFail =>
          exact h.move (by simp [hpc, Server.startPhase, Server.setMaster, MasterPc.phase])
            (.inl ⟨rfl, rfl⟩)
      | commitSuccess => exact .term s l
      | commitFail => exact .term s l

private theorem RoundOk.endWriteRet {i : Nat} {r : Ret} (h : RoundOk cfg s l)
    (hpc : s.master = .inEndWrite ph i) : RoundOk cfg (s.endWriteRet cfg ph i r) l := by
  have hgo : ∀ t : Server, t.master.phase = ph → t.master.ScanOk cfg l → RoundOk cfg t l :=
    fun t hphase hscan => h.move (by rw [hphase, hpc]; rfl) hscan
  unfold Server.endWriteRet
  split
  · exact hgo _ rfl trivial
  · split
    · split
      · exact .term s l
      · exact hgo _ rfl trivial
    · exact hgo _ rfl trivial
    · exact hgo _ rfl trivial
    · exact .term s l

private theorem RoundOk.afterPhase {status : CommitStatus} (h : RoundOk cfg s l)
    (hpc : s.master = .phaseReturn ph status) : RoundOk cfg (s.afterPhase ph status) l := by
  have hscan := h.scan
  rw [hpc] at hscan
  cases ph with
  | phase1 =>
      obtain ⟨r, hgives, hstatus⟩ := hscan.resolve_left (by simp)
      obtain rfl : r = status := by simpa [phaseStatus] using hstatus
      refine ⟨fun st hst => ?_, trivial⟩
      obtain rfl : r = st := by
        simpa [Server.afterPhase, Server.setMaster, MasterPc.phase] using hst
      exact hgives
  | phase2 st => cases status <;> exact .of_phase1 rfl trivial

-- Where the scan stops it has read the first slots, and the log takes the others.
private theorem RoundOk.scanned {i : Nat} {r : CommitStatus} (h : RoundOk cfg s l)
    (hpc : s.master = .scan ph i r) (hdone : cfg.clientCount ≤ i ∨ s.stopSignal = true) :
    RoundOk cfg (s.setMaster (.clearCount ph 0 r)) (l.record cfg s .master) := by
  have hscan := h.scan
  rw [hpc] at hscan
  obtain ⟨hi, hlen, hverdict⟩ := hscan
  have hleft : ¬(i < cfg.clientCount ∧ s.stopSignal = false) := by
    rintro ⟨hlt, hgo⟩
    rcases hdone with hdone | hdone
    · omega
    · simp [hgo] at hdone
  simp only [RoundLog.record, hpc, if_neg hleft]
  refine h.set (by rw [hpc]; rfl) rfl ⟨by simpa using hverdict, ?_⟩
  rw [RoundLog.scan_set, ScanLog.slots, List.length_append, hlen, List.length_drop,
    Server.scoreboard, List.length_map, List.length_range]
  omega

private theorem RoundOk.readSlot {i : Nat} {r r' : CommitStatus} (h : RoundOk cfg s l)
    (hpc : s.master = .readSlot ph i r) (hread : scanSlot ph r (s.votesScoreboard i) = some r') :
    RoundOk cfg (s.setMaster (.scan ph (i + 1) r')) (l.record cfg s .master) := by
  have hscan := h.scan
  rw [hpc] at hscan
  obtain ⟨hi, hlen, hverdict⟩ := hscan
  simp only [RoundLog.record, hpc]
  refine h.set (by rw [hpc]; rfl) rfl ⟨hi, ?_, ?_⟩
  · rw [RoundLog.scan_set, List.length_append, hlen, List.length_singleton]
  · rw [RoundLog.scan_set, verdict_snoc, hverdict, Option.bind_some, hread]

private theorem RoundOk.masterStep (h : RoundOk cfg s l) (hs : MasterStep cfg s e t) :
    RoundOk cfg t (l.record cfg s e) := by
  cases hs with
  | scanned hpc hdone => exact h.scanned hpc hdone
  | readSlot hpc hread => exact h.readSlot hpc hread
  | pause hpc =>
      simp only [RoundLog.record, hpc]
      refine h.set (by rw [hpc]; rfl) rfl ⟨Nat.zero_le _, ?_, ?_⟩
      · rw [RoundLog.scan_set, List.length_nil]
      · rw [RoundLog.scan_set, verdict_nil]
  | scanNext hpc hi hstop =>
      have hscan := h.scan
      simp only [RoundLog.record, hpc, if_pos (And.intro hi hstop)]
      rw [hpc] at hscan
      exact h.move (by rw [hpc]; rfl) ⟨hi, hscan.2⟩
  | clearNext hpc _ | cleared hpc _ =>
      have hscan := h.scan
      simp only [RoundLog.record, hpc]
      rw [hpc] at hscan
      exact h.move (by rw [hpc]; rfl) hscan
  | unpause hpc hstatus =>
      have hscan := h.scan
      simp only [RoundLog.record, hpc]
      rw [hpc] at hscan
      exact h.move (by rw [hpc]; rfl) (.inr ⟨_, hscan, hstatus⟩)
  | phaseReturn hpc =>
      simp only [RoundLog.record, hpc]
      exact h.afterPhase hpc
  | startPhase hpc _ =>
      simp only [RoundLog.record, hpc]
      exact h.startPhase hpc
  | endWriteRet hpc => exact h.endWriteRet hpc
  | finish hpc _ | badSlot hpc _ | badStatus hpc _ =>
      simp only [RoundLog.record, hpc]
      exact .of_phase1 rfl trivial
  | startRound hpc _ =>
      simp only [RoundLog.record, hpc]
      exact .of_phase1 rfl trivial
  | expired hpc | notExpired hpc | broadcastBegWrite hpc _ | begWrite hpc _ | endWrite hpc =>
      exact h.move (by rw [hpc]; rfl) trivial
  | initSlot hpc _ | collectNext hpc _ _ | collected hpc _ | sendPass hpc _ _ | sent hpc _
  | skipConn hpc _ _ _ | callConn hpc _ _ _ | passDone hpc _ | sumNext hpc _ | sumEnough hpc _ _
  | sumShort hpc _ _ =>
      simp only [RoundLog.record, hpc]
      exact h.move (by rw [hpc]; rfl) trivial

theorem roundOk_of_reachable (h : (roundMachine cfg).Reachable Machine.always (s, l)) :
    RoundOk cfg s l := by
  apply h.invariant (P := fun sl => RoundOk cfg sl.1 sl.2)
  · exact .of_phase1 rfl trivial
  · intro ⟨s, l⟩ e ⟨t, l'⟩ _ ih _ hs
    obtain ⟨hstep, rfl⟩ := Machine.step_withHistory.mp hs
    rcases step_cases hstep with hm | ⟨w, _, hm⟩
    · exact ih.masterStep hm
    · have hmaster := hm.frame.1
      have hlog : l.record cfg s e = l := by
        cases hm <;> rfl
      rw [hlog]
      exact ih.move (by rw [hmaster]) (by rw [hmaster]; exact ih.scan)

-- What the status that phase 2 returns reports of the round.
def ReportTrue (cfg : Config) (l : RoundLog) : CommitStatus → Prop
  | .commitSuccess => l.phase1.slots = .replicate cfg.clientCount .voteYes ∧
      l.phase2.slots = .replicate cfg.clientCount .ack
  | .commitFail => l.phase2.slots = .replicate cfg.clientCount .ack
  | _ => True

-- Where the stop signal has ended a scan that this status rests on, the slots that it
-- had not read hold a yes in phase 1 and an ack in phase 2.
def CutHarmless (l : RoundLog) : CommitStatus → Prop
  | .commitSuccess => (∀ t ∈ l.phase1.unread, t = .voteYes) ∧ ∀ t ∈ l.phase2.unread, t = .ack
  | .commitFail => ∀ t ∈ l.phase2.unread, t = .ack
  | _ => True

-- Where a good verdict comes from good verdicts and good slots only, the slots read are
-- good.
private theorem read_of_verdict {slots : List MsgType} {r : CommitStatus} {good : MsgType}
    (P : CommitStatus → Prop)
    (hgood : ∀ r t r', scanSlot ph r t = some r' → P r' → t = good ∧ P r)
    (hverdict : verdict ph slots = some r) (hr : P r) : ∀ t ∈ slots, t = good := by
  induction slots using List.reverseRecOn generalizing r with
  | nil => simp
  | append_singleton slots t ih =>
      rw [verdict_snoc] at hverdict
      obtain ⟨r₁, hr₁, hscan⟩ := Option.bind_eq_some_iff.mp hverdict
      obtain ⟨ht, hp⟩ := hgood r₁ t r hscan hr
      intro t' ht'
      rcases List.mem_append.mp ht' with ht' | ht'
      · exact ih hr₁ hp t' ht'
      · rw [List.mem_singleton.mp ht', ht]

theorem phase1_read {slots : List MsgType} (h : verdict .phase1 slots = some .requestSuccess) :
    ∀ t ∈ slots, t = .voteYes := by
  refine read_of_verdict (· = .requestSuccess) (fun r t r' hscan hr' => ?_) h rfl
  subst hr'
  cases t <;> simp_all [scanSlot]

theorem phase2_read {slots : List MsgType} {st r : CommitStatus}
    (h : verdict (.phase2 st) slots = some r) (hr : r ≠ .clusterFail) : ∀ t ∈ slots, t = .ack := by
  refine read_of_verdict (· ≠ .clusterFail) (fun r t r' hscan hr' => ?_) h hr
  cases t <;> simp_all [scanSlot]

private theorem slots_iff {x : ScanLog} {r : CommitStatus} {good : MsgType}
    (hgives : x.Gives cfg ph r) (hread : ∀ t ∈ x.read, t = good) :
    x.slots = .replicate cfg.clientCount good ↔ ∀ t ∈ x.unread, t = good := by
  rw [List.eq_replicate_iff, and_iff_right hgives.2]
  constructor
  · intro h t ht
    exact h t (List.mem_append_right _ ht)
  · intro h t ht
    rcases List.mem_append.mp ht with ht | ht
    · exact hread t ht
    · exact h t ht

-- A phase 2 that does not fail the cluster has a verdict that does not, on a phase 1
-- with the verdict that goes with the status.
private theorem phaseStatus_phase2 {st r status : CommitStatus}
    (h : phaseStatus (.phase2 st) r = some status) (hne : status ≠ .clusterFail) :
    r ≠ .clusterFail ∧ (status = .commitSuccess → st = .requestSuccess) := by
  constructor
  · rintro rfl
    simp [phaseStatus] at h
    exact hne h.symm
  · rintro rfl
    cases st <;> cases r <;> simp_all [phaseStatus]

-- In every run, what the status of phase 2 reports of its round is true exactly when the
-- stop signal has ended no scan of the round in front of a slot that says otherwise.
theorem commit_report_iff {st status : CommitStatus}
    (h : (roundMachine cfg).Reachable Machine.always (s, l))
    (hpc : s.master = .phaseReturn (.phase2 st) status) :
    ReportTrue cfg l status ↔ CutHarmless l status := by
  have hok := roundOk_of_reachable h
  have hscan := hok.scan
  rw [hpc] at hscan
  have hphase1 := hok.phase1 st (by rw [hpc]; rfl)
  by_cases hne : status = .clusterFail
  · subst hne
    exact Iff.rfl
  · rcases hscan with hst | ⟨r, hgives, hstatus⟩
    · exact absurd hst.2 hne
    · obtain ⟨hr, hsuccess⟩ := phaseStatus_phase2 hstatus hne
      have hacks := slots_iff hgives (phase2_read hgives.1 hr)
      cases status with
      | commitSuccess =>
          obtain rfl := hsuccess rfl
          exact and_congr (slots_iff hphase1 (phase1_read hphase1.1)) hacks
      | commitFail => exact hacks
      | _ => exact Iff.rfl

def oneCommitEvents : List Event :=
  oneBroadcastEvents ++ [.endWrite 0, .endWriteRet 0 .enone, .worker 0, .worker 0, .worker 0,
    .begRead 0 0 (.data ⟨⟨.ack, 1, 0, 0, 0⟩, 1⟩), .worker 0, .endRead 0 0, .worker 0, .worker 0,
    .clock false] ++ .replicate 9 .master

theorem commit_report_iff_one : ∃ s l,
    (roundMachine (.oneThread .udpQj 1 100 1)).Reachable Machine.always (s, l) ∧
    s.master = .phaseReturn (.phase2 .requestSuccess) .commitSuccess ∧
    ReportTrue (.oneThread .udpQj 1 100 1) l .commitSuccess := by
  obtain ⟨⟨s, l⟩, hrun, hs⟩ := Machine.exists_run_of_eval
    (roundMachine (.oneThread .udpQj 1 100 1)) Machine.always oneCommitEvents
    (fun sl => decide (sl.1.master = .phaseReturn (.phase2 .requestSuccess) .commitSuccess ∧
      sl.2.phase1.unread = [] ∧ sl.2.phase2.unread = [])) (by decide +kernel)
  obtain ⟨hpc, h₁, h₂⟩ := of_decide_eq_true hs
  refine ⟨s, l, hrun.reachable, hpc, (commit_report_iff hrun.reachable hpc).mpr ?_⟩
  rw [CutHarmless, h₁, h₂]
  simp

-- Of two clients the first votes yes, which fills the memory for statistics, so that the
-- stop signal is up when the scans start.
def unreadScanEvents : List Event :=
  .replicate 4 .master ++ [.begWrite 0 ⟨requestMsg .request 0, 0⟩, .endWrite 0,
    .endWriteRet 0 .enone, .worker 0, .worker 0, .begRead 0 0 (.data ⟨⟨.voteYes, 1, 0, 0, 0⟩, 0⟩),
    .worker 0, .endRead 0 0, .worker 0, .worker 0, .timeEnd 0 0, .worker 0, .clock true] ++
  .replicate 9 .master ++ [.begWrite 0 ⟨requestMsg .commit 0, 1⟩, .endWrite 0,
    .endWriteRet 0 .enone, .clock true] ++ .replicate 5 .master

-- The server reports the success of a commit that client 2 never voted for and no client
-- acknowledged.
theorem commit_reported_unread : ∃ s l,
    (roundMachine (.oneThread .udpQj 2 1 1)).Reachable Machine.always (s, l) ∧
    s.master = .phaseReturn (.phase2 .requestSuccess) .commitSuccess ∧
    l.phase1.slots = [.voteYes, .lost] ∧ l.phase2.slots = [.lost, .lost] ∧
    ¬ReportTrue (.oneThread .udpQj 2 1 1) l .commitSuccess := by
  obtain ⟨⟨s, l⟩, hrun, hs⟩ := Machine.exists_run_of_eval
    (roundMachine (.oneThread .udpQj 2 1 1)) Machine.always unreadScanEvents
    (fun sl => decide (sl.1.master = .phaseReturn (.phase2 .requestSuccess) .commitSuccess ∧
      sl.2.phase1.slots = [.voteYes, .lost] ∧ sl.2.phase2.slots = [.lost, .lost]))
    (by decide +kernel)
  obtain ⟨hpc, h₁, h₂⟩ := of_decide_eq_true hs
  refine ⟨s, l, hrun.reachable, hpc, h₁, h₂, ?_⟩
  rw [ReportTrue, h₁]
  exact fun h => absurd h.1 (by decide)

end Q2pc
