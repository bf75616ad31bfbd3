import Q2pc.System.Progress

namespace Q2pc

open Function (update)

variable {C : Cluster} {s t : System} {sv : Server} {net : Net} {e : Event} {b m : Nat → Nat}
  {i k n w : Nat} {ph : Phase}

-- The steps of a worker to the end of its pass
def WorkerPc.toEnd (hi : Nat) : WorkerPc → Nat
  | .pauseTest => 8 * hi + 2
  | .clearCount => 1
  | .poll i => 8 * (hi - i) + 1
  | .score i _ => 8 * (hi - (i + 1)) + 7
  | .endRead i _ => 8 * (hi - (i + 1)) + 6
  | .loadCount i _ => 8 * (hi - (i + 1)) + 5
  | .storeCount i _ _ => 8 * (hi - (i + 1)) + 4
  | .stats i _ => 8 * (hi - (i + 1)) + 3
  | _ => 0

-- The connections below have had their turn in the pass.
def WorkerPc.turn (hi : Nat) : WorkerPc → Nat
  | .pauseTest => 0
  | .poll i => i
  | .score i _ | .endRead i _ | .loadCount i _ | .storeCount i _ _ | .stats i _ => i + 1
  | _ => hi

-- Connection `i` of the worker had its turn with a response on its way.
def Passed (cfg : Config) (w : Nat) (toServer : Nat → List Packet) (turn : Nat) : Prop :=
  ∃ i < turn, cfg.lo w ≤ i ∧ i < cfg.hi w ∧ toServer i ≠ []

instance (cfg : Config) (w : Nat) (toServer : Nat → List Packet) (turn : Nat) :
    Decidable (Passed cfg w toServer turn) :=
  inferInstanceAs (Decidable (∃ i < turn, _))

-- The steps of a worker to the end of the pass that finds no response on its way. Where one
-- has been passed that is the next pass.
def passRank (cfg : Config) (w : Nat) (toServer : Nat → List Packet) (pc : WorkerPc) : Nat :=
  pc.toEnd (cfg.hi w) +
    if Passed cfg w toServer (pc.turn (cfg.hi w)) then 8 * cfg.hi w + 3 else 0

def System.toRead (C : Cluster) (s : System) : Nat :=
  ∑ w ∈ Finset.range C.cfg.threadCount, passRank C.cfg w s.net.toServer (s.srv.workers w).pc

def System.AllRead (C : Cluster) (s : System) : Prop :=
  (∀ w < C.cfg.threadCount, (s.srv.workers w).pc = .loop) ∧
    ∀ i < C.cfg.clientCount, s.net.toServer i = []

theorem allRead_of_toRead (h : s.toRead C = 0) (hworking : ∀ w < C.cfg.threadCount,
    (s.srv.workers w).pc.Working) : s.AllRead C := by
  have hzero : ∀ w < C.cfg.threadCount,
      passRank C.cfg w s.net.toServer (s.srv.workers w).pc = 0 := by
    intro w hw
    exact Finset.sum_eq_zero_iff.mp h w (Finset.mem_range.mpr hw)
  have hloop : ∀ w < C.cfg.threadCount, (s.srv.workers w).pc = .loop := by
    intro w hw
    have hrank := hzero w hw
    have hw := hworking w hw
    cases hpc : (s.srv.workers w).pc <;>
      simp_all [passRank, WorkerPc.toEnd, WorkerPc.Working]
  refine ⟨hloop, fun i hi => ?_⟩
  obtain ⟨w, hw, hlo, hhi⟩ := C.cfg.cover i hi
  have hrank := hzero w hw
  rw [hloop w hw, passRank] at hrank
  by_contra hne
  have hpassed : Passed C.cfg w s.net.toServer (WorkerPc.loop.turn (C.cfg.hi w)) :=
    ⟨i, hhi, hlo, hhi, hne⟩
  rw [if_pos hpassed] at hrank
  omega

-- A step of worker `w` on its own connections, to a lower rank.
def Turn (C : Cluster) (s : System) (w : Nat) : Prop :=
  ∃ e sv net, s.undisturbed C (.server e) ∧ s.prompt (.server e) ∧ e.byWorker = some w ∧
    s.srv.step C.cfg e = some sv ∧ s.net.step C.cfg e = some net ∧ net.toClient = s.net.toClient ∧
    (∀ i, ¬C.cfg.Owns w i → net.toServer i = s.net.toServer i) ∧
    passRank C.cfg w net.toServer (sv.workers w).pc <
      passRank C.cfg w s.net.toServer (s.srv.workers w).pc

theorem passRank_lt {cfg : Config} {toServer : Nat → List Packet} {pc pc' : WorkerPc}
    (hturn : pc'.turn (cfg.hi w) = pc.turn (cfg.hi w))
    (hend : pc'.toEnd (cfg.hi w) < pc.toEnd (cfg.hi w)) :
    passRank cfg w toServer pc' < passRank cfg w toServer pc := by
  unfold passRank
  rw [hturn]
  omega

theorem passRank_congr {cfg : Config} {toServer toServer' : Nat → List Packet} (pc : WorkerPc)
    (h : ∀ i, cfg.Owns w i → toServer' i = toServer i) :
    passRank cfg w toServer' pc = passRank cfg w toServer pc := by
  have hpassed : ∀ turn, Passed cfg w toServer' turn ↔ Passed cfg w toServer turn := by
    intro turn
    refine exists_congr fun i => and_congr_right fun _ => and_congr_right fun hlo =>
      and_congr_right fun hhi => ?_
    rw [h i ⟨hlo, hhi⟩]
  simp only [passRank, hpassed]

theorem passRank_next {cfg : Config} {toServer toServer' : Nat → List Packet} {pc pc' : WorkerPc}
    (hother : ∀ j < i, toServer' j = toServer j) (hnone : toServer' i = [])
    (hturn : pc.turn (cfg.hi w) = i) (hturn' : pc'.turn (cfg.hi w) = i + 1)
    (hend : pc'.toEnd (cfg.hi w) < pc.toEnd (cfg.hi w)) :
    passRank cfg w toServer' pc' < passRank cfg w toServer pc := by
  have hpassed : Passed cfg w toServer' (i + 1) ↔ Passed cfg w toServer i := by
    constructor
    · rintro ⟨j, hj, hlo, hhi, hne⟩
      have hji : j ≠ i := by
        rintro rfl
        exact hne hnone
      exact ⟨j, by omega, hlo, hhi, by rwa [← hother j (by omega)]⟩
    · rintro ⟨j, hj, hlo, hhi, hne⟩
      exact ⟨j, by omega, hlo, hhi, by rwa [hother j hj]⟩
  unfold passRank
  rw [hturn, hturn']
  simp only [hpassed]
  omega

private theorem Turn.move {pc pc' : WorkerPc} {v : Server} (hw : w < C.cfg.threadCount)
    (hpc : (s.srv.workers w).pc = pc) (hs : s.srv.workerStep C.cfg w = some v)
    (hpc' : (v.workers w).pc = pc')
    (hlt : passRank C.cfg w s.net.toServer pc' < passRank C.cfg w s.net.toServer pc) :
    Turn C s w := by
  refine ⟨.worker w, v, s.net, trivial, trivial, rfl, ?_, rfl, rfl, fun _ _ => rfl,
    by rwa [hpc, hpc']⟩
  simpa [Server.step, hw] using hs

private theorem setWorker_at (sv : Server) (w : Nat) (pc : WorkerPc) :
    ((sv.setWorker w pc).workers w).pc = pc := by
  simp [Server.setWorker]

private theorem turn_between (hw : w < C.cfg.threadCount) (hstop : s.srv.stopSignal = false)
    (hpause : s.srv.pauseSignal = false)
    (hrank : passRank C.cfg w s.net.toServer (s.srv.workers w).pc ≠ 0)
    (h : (s.srv.workers w).pc = .loop ∨ (s.srv.workers w).pc = .pauseTest ∨
      (s.srv.workers w).pc = .clearCount) : Turn C s w := by
  rcases h with hpc | hpc | hpc
  · have hpassed : Passed C.cfg w s.net.toServer (C.cfg.hi w) := by
      by_contra hnot
      refine hrank ?_
      rw [hpc]
      simp only [passRank, WorkerPc.turn, WorkerPc.toEnd, hnot, if_false]
    have hfresh : ¬Passed C.cfg w s.net.toServer 0 := fun ⟨_, hj, _⟩ => Nat.not_lt_zero _ hj
    refine .move (v := s.srv.setWorker w .pauseTest) hw hpc ?_ (setWorker_at _ _ _) ?_
    · simp [Server.workerStep, hpc, hstop]
    · simp only [passRank, WorkerPc.turn, WorkerPc.toEnd, hpassed, hfresh, if_true, if_false]
      omega
  · have hfresh : ¬Passed C.cfg w s.net.toServer 0 := fun ⟨_, hj, _⟩ => Nat.not_lt_zero _ hj
    have hfresh' : ¬Passed C.cfg w s.net.toServer (C.cfg.lo w) := by
      rintro ⟨j, hj, hlo, -⟩
      omega
    refine .move (v := s.srv.setWorker w (.poll (C.cfg.lo w))) hw hpc ?_ (setWorker_at _ _ _) ?_
    · simp [Server.workerStep, hpc, hpause]
    · simp only [passRank, WorkerPc.turn, WorkerPc.toEnd, hfresh, hfresh', if_false]
      omega
  · refine .move (v := { s.srv with votesCount := update s.srv.votesCount w 0 }.setWorker w .loop)
      hw hpc ?_ (setWorker_at _ _ _) ?_
    · simp [Server.workerStep, hpc]
    · exact passRank_lt rfl (by simp [WorkerPc.toEnd])

private theorem turn_holding (hw : w < C.cfg.threadCount)
    (hid : ∀ i p, (s.srv.workers w).pc = .score i p →
      1 ≤ p.msg.srcHostid ∧ p.msg.srcHostid ≤ C.cfg.clientCount)
    (hroom : ((s.srv.workers w).stats.length + (s.srv.workers w).pc.inHand : Int) < C.cfg.statsLen)
    (h : (∃ i p, (s.srv.workers w).pc = .score i p) ∨ (∃ i p, (s.srv.workers w).pc = .endRead i p) ∨
      (∃ i p, (s.srv.workers w).pc = .loadCount i p) ∨
      (∃ i p v, (s.srv.workers w).pc = .storeCount i p v) ∨
      ∃ i p, (s.srv.workers w).pc = .stats i p) : Turn C s w := by
  rcases h with ⟨i, p, hpc⟩ | ⟨i, p, hpc⟩ | ⟨i, p, hpc⟩ | ⟨i, p, v, hpc⟩ | ⟨i, p, hpc⟩
  · obtain ⟨hlo, hhi⟩ := hid i p hpc
    refine .move (v := { s.srv with
      votesScoreboard := update s.srv.votesScoreboard (p.msg.srcHostid - 1).toNat p.msg.type
      }.setWorker w (.endRead i p)) hw hpc ?_ (setWorker_at _ _ _) ?_
    · simp [Server.workerStep, hpc, not_lt.mpr hlo, not_lt.mpr hhi]
    · exact passRank_lt rfl (by simp [WorkerPc.toEnd])
  · refine ⟨.endRead w i, s.srv.setWorker w (.loadCount i p), _, trivial, trivial, rfl, ?_, rfl,
      rfl, fun _ _ => rfl, ?_⟩
    · simp [Server.step, hpc, hw]
    · rw [setWorker_at, hpc]
      exact passRank_lt rfl (by simp [WorkerPc.toEnd])
  · refine .move (v := s.srv.setWorker w (.storeCount i p (s.srv.votesCount w))) hw hpc ?_
      (setWorker_at _ _ _) ?_
    · simp [Server.workerStep, hpc]
    · exact passRank_lt rfl (by simp [WorkerPc.toEnd])
  · refine .move (v := { s.srv with
      votesCount := update s.srv.votesCount w (v + 1) }.setWorker w (.stats i p)) hw hpc ?_
      (setWorker_at _ _ _) ?_
    · simp [Server.workerStep, hpc]
    · exact passRank_lt rfl (by simp [WorkerPc.toEnd])
  · simp only [hpc, WorkerPc.inHand, Nat.cast_one] at hroom
    have hnext : ((s.srv.record C.cfg w i p 0).workers w).pc = .poll (i + 1) := by
      simp [Server.record, hroom]
    refine ⟨.timeEnd w 0, s.srv.record C.cfg w i p 0, _, hroom, trivial, rfl, ?_, rfl, rfl,
      fun _ _ => rfl, ?_⟩
    · simp [Server.step, hpc, hw]
    · rw [hnext, hpc]
      exact passRank_lt rfl (by simp [WorkerPc.toEnd])

-- At a connection, which has one response on its way at most
private theorem turn_poll (hw : w < C.cfg.threadCount) (hpc : (s.srv.workers w).pc = .poll i)
    (hlo : C.cfg.lo w ≤ i) (hnone : i < C.cfg.hi w → s.net.readBuffer i = none)
    (hone : i < C.cfg.hi w → (s.net.toServer i).length ≤ 1) : Turn C s w := by
  by_cases hi : i < C.cfg.hi w
  · cases hto : s.net.toServer i with
    | nil =>
        refine ⟨.begRead w i .eagain, s.srv.setWorker w (.poll (i + 1)), s.net,
          by simp [System.undisturbed], hto, rfl, ?_, ?_, rfl, fun _ _ => rfl, ?_⟩
        · simp [Server.step, hw, hpc, hi, Server.afterBegRead]
        · simp [Net.step, Net.begRead, hnone hi]
        · rw [setWorker_at, hpc]
          exact passRank_next (fun _ _ => rfl) hto rfl rfl (by simp only [WorkerPc.toEnd]; omega)
    | cons p rest =>
        have hone := hone hi
        obtain rfl : rest = [] := by simpa [hto] using hone
        refine ⟨.begRead w i (.data p), s.srv.setWorker w (.score i p), { s.net with
          toServer := update s.net.toServer i []
          readBuffer := update s.net.readBuffer i (some p) }, by simp [System.undisturbed],
          trivial, rfl, ?_, ?_, rfl, ?_, ?_⟩
        · simp [Server.step, hw, hpc, hi, Server.afterBegRead]
        · simp [Net.step, Net.begRead, hnone hi, hto]
        · intro j hj
          refine Function.update_of_ne ?_ _ _
          rintro rfl
          exact hj ⟨hlo, hi⟩
        · rw [setWorker_at, hpc]
          exact passRank_next (i := i) (fun j hj => Function.update_of_ne (by omega) _ _) (by simp)
            rfl rfl (by simp only [WorkerPc.toEnd]; omega)
  · have hpassed :
        Passed C.cfg w s.net.toServer (C.cfg.hi w) ↔ Passed C.cfg w s.net.toServer i := by
      constructor
      · rintro ⟨j, hj, hrest⟩
        exact ⟨j, by omega, hrest⟩
      · rintro ⟨j, _, hjlo, hjhi, hne⟩
        exact ⟨j, hjhi, hjlo, hjhi, hne⟩
    refine .move (v := s.srv.setWorker w .loop) hw hpc ?_ (setWorker_at _ _ _) ?_
    · simp [Server.workerStep, hpc, hi]
    · by_cases hleft : Passed C.cfg w s.net.toServer i <;>
        simp only [passRank, WorkerPc.turn, WorkerPc.toEnd, hpassed, hleft, if_true, if_false] <;>
        omega

theorem toServer_le_one (hbalance : Balance C s m) (hcounters : Counters C s.srv m)
    (hopen : s.srv.master.Open) (hi : i < C.cfg.clientCount) : (s.net.toServer i).length ≤ 1 := by
  have hanswered := hbalance.answered i hi
  have hge := (hcounters.opened hopen).mark_ge i hi
  have hle := (hbalance.sent i hi).le
  have hpasses : s.srv.master.passes s.srv.connRtofiredCount i ≤ 1 := by
    unfold MasterPc.passes
    split <;> (try split) <;> omega
  rw [Server.sent] at hle
  omega

theorem recorded_le (hbalance : Balance C s m) (hk : s.srv.stageNow = k)
    (hw : w < C.cfg.threadCount) :
    (s.srv.workers w).stats.length + (s.srv.workers w).pc.inHand ≤
      (C.cfg.hi w - C.cfg.lo w) * (k + 1) := by
  have hmark : ∀ i ∈ Finset.Ico (C.cfg.lo w) (C.cfg.hi w), m i ≤ k + 1 := by
    intro i hi
    have hic := lt_clientCount hw (Finset.mem_Ico.mp hi).2
    have hanswered := hbalance.answered i hic
    have hle := (hbalance.sent i hic).le
    have hpasses : s.srv.master.passes s.srv.connRtofiredCount i ≤ 1 := by
      unfold MasterPc.passes
      split <;> (try split) <;> omega
    rw [Server.sent] at hle
    omega
  calc (s.srv.workers w).stats.length + (s.srv.workers w).pc.inHand
    _ = ∑ i ∈ Finset.Ico (C.cfg.lo w) (C.cfg.hi w), m i := hbalance.recorded w hw
    _ ≤ ∑ _i ∈ Finset.Ico (C.cfg.lo w) (C.cfg.hi w), (k + 1) := Finset.sum_le_sum hmark
    _ = (C.cfg.hi w - C.cfg.lo w) * (k + 1) := by simp

private theorem exists_turn (hinv : Inv C s b m) (hcounters : Counters C s.srv m)
    (hbalance : Balance C s m) (hpc : s.srv.master = .poll ph) (hw : w < C.cfg.threadCount)
    (hroom : ((s.srv.workers w).stats.length + (s.srv.workers w).pc.inHand : Int) < C.cfg.statsLen)
    (hrank : passRank C.cfg w s.net.toServer (s.srv.workers w).pc ≠ 0) : Turn C s w := by
  have hstop := hbalance.running
  have hactive : s.srv.Active := ⟨hcounters.running, fun _ => hstop⟩
  have hopen : s.srv.master.Open := by simp [hpc, MasterPc.Open]
  have hpause : s.srv.pauseSignal = false := by
    cases hp : s.srv.pauseSignal with
    | false => rfl
    | true => exact absurd (hcounters.paused hp) hopen.not_paused
  have hid : ∀ i p, (s.srv.workers w).pc = .score i p →
      1 ≤ p.msg.srcHostid ∧ p.msg.srcHostid ≤ C.cfg.clientCount := by
    intro i p hscore
    obtain ⟨-, hi, -, -, -, hresponse⟩ := hinv.score_stage hcounters hactive hw hscore
    have hid := hresponse.srcHostid
    have := (C.peer_lt i).mpr hi
    omega
  have hworking := hbalance.working w hw
  obtain ⟨pc, hwpc⟩ : ∃ pc, (s.srv.workers w).pc = pc := ⟨_, rfl⟩
  cases pc with
  | loop => exact turn_between hw hstop hpause hrank (.inl hwpc)
  | pauseTest => exact turn_between hw hstop hpause hrank (.inr (.inl hwpc))
  | clearCount => exact turn_between hw hstop hpause hrank (.inr (.inr hwpc))
  | poll i =>
      have hat := hinv.workers.position w hw
      simp only [hwpc, WorkerAt] at hat
      exact turn_poll hw hwpc hat (hinv.workers.pending_none hw hwpc)
        fun hi => toServer_le_one hbalance hcounters hopen (lt_clientCount hw hi)
  | score i p => exact turn_holding hw hid hroom (.inl ⟨i, p, hwpc⟩)
  | endRead i p => exact turn_holding hw hid hroom (.inr (.inl ⟨i, p, hwpc⟩))
  | loadCount i p => exact turn_holding hw hid hroom (.inr (.inr (.inl ⟨i, p, hwpc⟩)))
  | storeCount i p v => exact turn_holding hw hid hroom (.inr (.inr (.inr (.inl ⟨i, p, v, hwpc⟩))))
  | stats i p => exact turn_holding hw hid hroom (.inr (.inr (.inr (.inr ⟨i, p, hwpc⟩))))
  | raiseStop | delete _ | exited =>
      rw [hwpc] at hworking
      exact hworking.elim

-- The records of the exchanges up to `k` leave room in the arrays of the workers.
def Config.Room (cfg : Config) (k : Nat) : Prop :=
  ∀ w < cfg.threadCount, (((cfg.hi w - cfg.lo w) * (k + 1) : Nat) : Int) < cfg.statsLen

-- While the master waits, the workers read the answers.
theorem leads_read (hqj : C.cfg.transType ≠ .udpQj) (hroom : C.cfg.Room k) (ph : Phase) :
    (systemMachine C).Leads (System.undisturbed C) System.prompt
      (fun s => s.srv.stageNow = k ∧ s.srv.master = .poll ph ∧ s.Answered C)
      (fun s => s.srv.stageNow = k ∧ s.srv.master = .poll ph ∧ s.Answered C ∧ s.AllRead C) := by
  refine .of_rank (System.toRead C) fun s hr ⟨hk, hpc, hanswered⟩ => ?_
  obtain ⟨b, m, hinv, hcounters, -, hbalance⟩ := exists_balance hqj hr
  by_cases hzero : s.toRead C = 0
  · exact .inl ⟨hk, hpc, hanswered, allRead_of_toRead hzero hbalance.working⟩
  · obtain ⟨w, hw, hrank⟩ : ∃ w < C.cfg.threadCount,
        passRank C.cfg w s.net.toServer (s.srv.workers w).pc ≠ 0 := by
      by_contra hnone
      push Not at hnone
      exact hzero (Finset.sum_eq_zero fun w hw => hnone w (Finset.mem_range.mp hw))
    have hrecorded := recorded_le hbalance hk hw
    obtain ⟨e, sv, net, hok, hfit, hby, hsrv, hnet, htoClient, htoServer, hlt⟩ :=
      exists_turn hinv hcounters hbalance hpc hw (by have := hroom w hw; omega) hrank
    obtain ⟨-, hstep⟩ := workerStep_of_byWorker hby hsrv
    obtain ⟨hmaster, hreq, -, -⟩ := hstep.frame
    refine .inr ⟨.server e, _, hok, hfit, step_of_server hsrv hnet, ⟨?_, ?_, ?_⟩, ?_⟩
    · exact (Server.stageNow_congr (by rw [hmaster]) rfl hreq).trans hk
    · exact hmaster.trans hpc
    · intro i hi
      simpa only [htoClient] using hanswered i hi
    · refine Finset.sum_lt_sum (fun v hv => ?_) ⟨w, Finset.mem_range.mpr hw, hlt⟩
      by_cases hvw : v = w
      · rw [hvw]
        exact hlt.le
      · rw [hstep.workers_ne hvw]
        refine (passRank_congr _ fun i hown => htoServer i fun hwi => hvw ?_).le
        exact C.cfg.disjoint v (Finset.mem_range.mp hv) w hw i hown.1 hown.2 hwi.1 hwi.2

end Q2pc
