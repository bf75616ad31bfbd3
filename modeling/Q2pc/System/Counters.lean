import Q2pc.System.Pause
import Q2pc.Lib.Tally

namespace Q2pc

open Function (update)
open Tally

variable {C : Cluster} {s : System} {srv t : Server} {b m : Nat → Nat} {w : Nat}

def Config.Owns (cfg : Config) (w i : Nat) : Prop := cfg.lo w ≤ i ∧ i < cfg.hi w

theorem Config.splits (cfg : Config) :
    Splits (Finset.range cfg.threadCount) (Finset.range cfg.clientCount) cfg.Owns where
  cover := by
    intro i hi
    obtain ⟨w, hw, hlo, hhi⟩ := cfg.cover i (Finset.mem_range.mp hi)
    exact ⟨w, Finset.mem_range.mpr hw, hlo, hhi⟩
  disjoint := by
    intro w hw v hv i _ hwi hvi
    exact cfg.disjoint w (Finset.mem_range.mp hw) v (Finset.mem_range.mp hv) i hwi.1 hwi.2
      hvi.1 hvi.2

-- The worker has scored the message of connection `i` and not yet counted it.
def WorkerPc.Counting (pc : WorkerPc) (i : Nat) : Prop :=
  match pc with
  | .endRead j _ | .loadCount j _ | .storeCount j _ _ => j = i
  | _ => False

def Counted (cfg : Config) (srv : Server) (m : Nat → Nat) (i : Nat) : Prop :=
  m i = srv.stageNow + 1 ∧ ∀ w < cfg.threadCount, ¬(srv.workers w).pc.Counting i

-- From the end of a phase to the end of the wait for votes of the next.
def MasterPc.Open : MasterPc → Prop
  | .requests | .initScoreboard _ _ | .collect _ _ | .begWrite _ _ | .sendAll _ | .sendConn _ _
  | .endWrite _ _ | .inEndWrite _ _ | .poll _ | .sumVotes _ _ _ => True
  | _ => False

-- From the end of the wait for votes to the end of the phase.
def MasterPc.Closed : MasterPc → Prop
  | .dopauseAll _ | .scan _ _ _ | .readSlot _ _ _ | .clearCount _ _ _ | .unpauseAll _ _
  | .phaseReturn _ _ => True
  | _ => False

def MasterPc.Reset (pc : MasterPc) (c : Nat) : Prop :=
  match pc with
  | .requests | .terminated => False
  | .initScoreboard _ j => c < j
  | _ => True

def MasterPc.verdict : MasterPc → Option CommitStatus
  | .scan _ _ r | .readSlot _ _ r | .clearCount _ _ r | .unpauseAll _ r | .phaseReturn _ r => some r
  | _ => none

-- Each worker's counter is the number of its connections that are counted.
structure OpenOk (cfg : Config) (srv : Server) (m : Nat → Nat) : Prop where
  mark_ge : ∀ i < cfg.clientCount, srv.stageNow ≤ m i
  count : ∀ w < cfg.threadCount,
    srv.votesCount w = tally (Finset.range cfg.clientCount) cfg.Owns (Counted cfg srv m) w
  store : ∀ w < cfg.threadCount, ∀ i p v, (srv.workers w).pc = .storeCount i p v →
    v = srv.votesCount w
  clearing : ∀ w < cfg.threadCount, (srv.workers w).pc = .clearCount →
    ∀ i, cfg.Owns w i → m i = srv.stageNow
  counting : ∀ w < cfg.threadCount, ∀ i, (srv.workers w).pc.Counting i → m i = srv.stageNow + 1
  sum : ∀ ph i v, srv.master = .sumVotes ph i v →
    i ≤ cfg.threadCount ∧ v ≤ ∑ w ∈ Finset.range i, srv.votesCount w

-- All responses are counted, and the counters are on their way to 0.
structure ClosedOk (cfg : Config) (srv : Server) (m : Nat → Nat) : Prop where
  counted : ∀ i < cfg.clientCount, Counted cfg srv m i
  count_le : ∀ w < cfg.threadCount,
    srv.votesCount w ≤ tally (Finset.range cfg.clientCount) cfg.Owns (fun _ => True) w
  cleared : ∀ w < srv.master.cleared cfg, w < cfg.threadCount → srv.votesCount w = 0

-- The counters and slots in a run without faults, timeouts and stop signals.
structure Counters (C : Cluster) (srv : Server) (m : Nat → Nat) : Prop where
  running : srv.master ≠ .terminated
  paused : srv.pauseSignal = true → srv.master.Paused
  phase : srv.master.phase ≠ .phase2 .clusterFail
  verdict : ∀ r, srv.master.verdict = some r → r ≠ .clusterFail
  fresh : ∀ i < C.cfg.clientCount, srv.master.Reset (C.peer i) → m i = srv.stageNow →
    srv.votesScoreboard (C.peer i) = .lost
  response : ∀ i < C.cfg.clientCount, srv.master.Reset (C.peer i) → m i = srv.stageNow + 1 →
    (srv.stageNow % 2 = 0 → srv.votesScoreboard (C.peer i) = .voteYes ∨
      srv.votesScoreboard (C.peer i) = .voteNo) ∧
    (srv.stageNow % 2 = 1 → srv.votesScoreboard (C.peer i) = .ack)
  opened : srv.master.Open → OpenOk C.cfg srv m
  closed : srv.master.Closed → ClosedOk C.cfg srv m

theorem MasterPc.open_or_closed {pc : MasterPc} (h : pc ≠ .terminated) : pc.Open ∨ pc.Closed := by
  cases pc <;> simp_all [MasterPc.Open, MasterPc.Closed]

-- Without a timeout the master is at no exchange that a client is behind.
theorem Counters.mark_ge (h : Counters C srv m) {i : Nat} (hi : i < C.cfg.clientCount) :
    srv.stageNow ≤ m i := by
  rcases MasterPc.open_or_closed h.running with hopen | hclosed
  · exact (h.opened hopen).mark_ge i hi
  · have := ((h.closed hclosed).counted i hi).1
    omega

theorem MasterPc.Open.not_closed {pc : MasterPc} (h : pc.Open) : ¬pc.Closed := by
  cases pc <;> simp_all [MasterPc.Open, MasterPc.Closed]

theorem MasterPc.Open.not_paused {pc : MasterPc} (h : pc.Open) : ¬pc.Paused := by
  cases pc <;> simp_all [MasterPc.Open, MasterPc.Paused]

theorem Counted.congr {cfg : Config} (hnow : t.stageNow = srv.stageNow) {m' : Nat → Nat} {i : Nat}
    (hm : m' i = m i) (hcounting : ∀ w < cfg.threadCount,
      (t.workers w).pc.Counting i ↔ (srv.workers w).pc.Counting i) :
    Counted cfg t m' i ↔ Counted cfg srv m i := by
  unfold Counted
  rw [hnow, hm]
  refine and_congr_right fun _ => forall_congr' fun w => forall_congr' fun hw => ?_
  exact not_congr (hcounting w hw)

theorem Counters.move {x : Worker} (h : Counters C srv m) (hmaster : t.master = srv.master)
    (hreq : t.requests = srv.requests) (hpause : t.pauseSignal = srv.pauseSignal)
    (hslots : t.votesScoreboard = srv.votesScoreboard) (hcount : t.votesCount = srv.votesCount)
    (hworkers : t.workers = update srv.workers w x) (hw : w < C.cfg.threadCount)
    (hcounting : ∀ i, x.pc.Counting i ↔ (srv.workers w).pc.Counting i)
    (hstore : ∀ i p v, x.pc = .storeCount i p v → srv.master.Open → v = srv.votesCount w)
    (hclear : x.pc = .clearCount → ¬srv.master.Open) : Counters C t m := by
  have hnow : t.stageNow = srv.stageNow := by
    simp only [Server.stageNow, Server.stage, hmaster, hreq]
  have hall : ∀ v i, (t.workers v).pc.Counting i ↔ (srv.workers v).pc.Counting i := by
    intro v i
    by_cases hvw : v = w
    · subst hvw
      simpa [hworkers] using hcounting i
    · simp [hworkers, hvw]
  have hcounted : ∀ i, Counted C.cfg t m i ↔ Counted C.cfg srv m i :=
    fun i => Counted.congr hnow rfl fun v _ => hall v i
  refine ⟨?_, ?_, ?_, ?_, ?_, ?_, ?_, ?_⟩
  · rw [hmaster]
    exact h.running
  · rw [hpause, hmaster]
    exact h.paused
  · rw [hmaster]
    exact h.phase
  · rw [hmaster]
    exact h.verdict
  · rw [hmaster, hnow, hslots]
    exact h.fresh
  · rw [hmaster, hnow, hslots]
    exact h.response
  · intro hopen
    rw [hmaster] at hopen
    have hok := h.opened hopen
    refine ⟨?_, ?_, ?_, ?_, ?_, ?_⟩
    · rw [hnow]
      exact hok.mark_ge
    · intro v hv
      rw [hcount, hok.count v hv]
      exact tally_congr fun i _ _ => (hcounted i).symm
    · intro v hv i p c hpc
      rw [hcount]
      by_cases hvw : v = w
      · subst hvw
        exact hstore i p c (by simpa [hworkers] using hpc) hopen
      · exact hok.store v hv i p c (by simpa [hworkers, hvw] using hpc)
    · intro v hv hpc
      rw [hnow]
      by_cases hvw : v = w
      · subst hvw
        exact absurd hopen (hclear (by simpa [hworkers] using hpc))
      · exact hok.clearing v hv (by simpa [hworkers, hvw] using hpc)
    · intro v hv i hc
      rw [hnow]
      exact hok.counting v hv i ((hall v i).mp hc)
    · rw [hmaster, hcount]
      exact hok.sum
  · intro hclosed
    rw [hmaster] at hclosed
    have hok := h.closed hclosed
    refine ⟨fun i hi => (hcounted i).mpr (hok.counted i hi), ?_, ?_⟩
    · rw [hcount]
      exact hok.count_le
    · rw [hmaster, hcount]
      exact hok.cleared

-- A worker that saw the pause clears its counter, even long after: nothing is counted
-- on its connections then.
private theorem Counters.clearCount (h : Counters C srv m) (hw : w < C.cfg.threadCount)
    (hpc : (srv.workers w).pc = .clearCount) :
    Counters C ({ srv with votesCount := update srv.votesCount w 0 }.setWorker w .loop) m := by
  rcases MasterPc.open_or_closed h.running with hopen | hclosed
  · have hok := h.opened hopen
    have hzero : srv.votesCount w = 0 := by
      rw [hok.count w hw]
      refine tally_eq_zero fun i _ hown hcounted => ?_
      have := hok.clearing w hw hpc i hown
      have := hcounted.1
      omega
    have hsame : update srv.votesCount w 0 = srv.votesCount := by
      rw [← hzero, Function.update_eq_self]
    rw [hsame]
    exact h.move rfl rfl rfl rfl rfl rfl hw (by simp [hpc, WorkerPc.Counting]) (by simp) (by simp)
  · have hok := h.closed hclosed
    have hmove := h.move (t := srv.setWorker w .loop) rfl rfl rfl rfl rfl rfl hw
      (by simp [hpc, WorkerPc.Counting]) (by simp) (by simp)
    have hzero : ∀ v, srv.votesCount v = 0 → update srv.votesCount w 0 v = 0 := by
      intro v hv
      by_cases hvw : v = w
      · subst hvw
        simp
      · simpa [hvw] using hv
    exact { hmove with
      opened := fun ho => absurd hclosed ho.not_closed
      closed := fun hc => {
        counted := (hmove.closed hc).counted
        count_le := by
          intro v hv
          by_cases hvw : v = w
          · subst hvw
            simp [Server.setWorker]
          · simpa [Server.setWorker, hvw] using hok.count_le v hv
        cleared := fun v hv hvt => hzero v (hok.cleared v hv hvt) } }

-- The message a worker scores in a run without faults is the response of this exchange.
theorem Inv.score_stage (hinv : Inv C s b m) (h : Counters C s.srv m)
    (hactive : s.srv.Active) (hw : w < C.cfg.threadCount) {i : Nat} {p : Packet}
    (hpc : (s.srv.workers w).pc = .score i p) :
    s.srv.master.Open ∧ i < C.cfg.clientCount ∧ C.cfg.Owns w i ∧ m i = s.srv.stageNow ∧
      p.stage = s.srv.stageNow ∧
      Response (C.peer i + 1) (s.client i).votes (s.client i).stage p := by
  have hat := hinv.workers.position w hw
  simp only [hpc, WorkerAt] at hat
  obtain ⟨hlo, hhi, hmark, -, hpending⟩ := hat
  have hi := lt_clientCount hw hhi
  have hresponse := hinv.held_response hi hpending
  have hlt := hresponse.stage_lt
  have hle := (hinv.channel i hi).stage_le
  have hbound := hinv.master.bound_le hactive i hi
  rcases MasterPc.open_or_closed h.running with hopen | hclosed
  · have hge := (h.opened hopen).mark_ge i hi
    exact ⟨hopen, hi, ⟨hlo, hhi⟩, by omega, by omega, hresponse⟩
  · have hcounted := ((h.closed hclosed).counted i hi).1
    omega

theorem Inv.owns_of_counting (hinv : Inv C s b m) (hw : w < C.cfg.threadCount) {i : Nat}
    (hc : (s.srv.workers w).pc.Counting i) : C.cfg.Owns w i := by
  have hat := hinv.workers.position w hw
  unfold WorkerPc.Counting at hc
  split at hc
  · rename_i hpc
    subst hc
    simp only [hpc, WorkerAt] at hat
    exact ⟨hat.1, hat.2.1⟩
  · rename_i hpc
    subst hc
    simp only [hpc, WorkerAt] at hat
    exact ⟨hat.1, hat.2.1⟩
  · rename_i hpc
    subst hc
    simp only [hpc, WorkerAt] at hat
    exact ⟨hat.1, hat.2.1⟩
  · exact hc.elim

private theorem counting_score {i j : Nat} {p : Packet} (hpc : (srv.workers w).pc = .score i p)
    (hji : j ≠ i) (v : Nat) :
    (update srv.workers w { srv.workers w with pc := .endRead i p } v).pc.Counting j ↔
      (srv.workers v).pc.Counting j := by
  by_cases hvw : v = w
  · subst hvw
    simp [hpc, WorkerPc.Counting, Ne.symm hji]
  · simp [hvw]

private theorem counting_stats {i j c v : Nat} {p : Packet}
    (hpc : (srv.workers w).pc = .storeCount i p c) (hvj : v ≠ w ∨ j ≠ i) :
    (update srv.workers w { srv.workers w with pc := .stats i p } v).pc.Counting j ↔
      (srv.workers v).pc.Counting j := by
  by_cases hvw : v = w
  · subst hvw
    have hji : i ≠ j := fun heq => hvj.resolve_left (by simp) heq.symm
    simp [hpc, WorkerPc.Counting, hji]
  · simp [hvw]

private theorem OpenOk.score {cfg : Config} {i : Nat} {p : Packet} {board : Nat → MsgType}
    (hok : OpenOk cfg srv m) (hw : w < cfg.threadCount) (hown : cfg.Owns w i)
    (hpc : (srv.workers w).pc = .score i p) (hmark : m i = srv.stageNow) :
    OpenOk cfg ({ srv with votesScoreboard := board }.setWorker w (.endRead i p))
      (update m i (srv.stageNow + 1)) := by
  have hother : ∀ j, j ≠ i → update m i (srv.stageNow + 1) j = m j :=
    fun j hji => Function.update_of_ne hji _ _
  refine ⟨?_, ?_, ?_, ?_, ?_, hok.sum⟩
  · intro j hj
    by_cases hji : j = i
    · subst hji
      simp only [Function.update_self]
      exact Nat.le_succ _
    · rw [hother j hji]
      exact hok.mark_ge j hj
  · intro v hv
    refine (hok.count v hv).trans (tally_congr fun j _ _ => ?_)
    by_cases hji : j = i
    · subst hji
      constructor
      · intro hc
        have := hc.1
        omega
      · intro hc
        exact absurd (by simp [Server.setWorker, WorkerPc.Counting]) (hc.2 w hw)
    · refine Iff.symm (Counted.congr ?_ (hother j hji) ?_)
      · rfl
      · exact fun v _ => counting_score hpc hji v
  · intro v hv j q c hvpc
    by_cases hvw : v = w
    · subst hvw
      simp [Server.setWorker] at hvpc
    · exact hok.store v hv j q c (by simpa [Server.setWorker, hvw] using hvpc)
  · intro v hv hvpc j hj
    by_cases hvw : v = w
    · subst hvw
      simp [Server.setWorker] at hvpc
    · have hji : j ≠ i := by
        rintro rfl
        exact hvw (cfg.disjoint v hv w hw j hj.1 hj.2 hown.1 hown.2)
      rw [hother j hji]
      exact hok.clearing v hv (by simpa [Server.setWorker, hvw] using hvpc) j hj
  · intro v hv j hc
    by_cases hji : j = i
    · subst hji
      simp only [Function.update_self]
      rfl
    · rw [hother j hji]
      exact hok.counting v hv j ((counting_score hpc hji v).mp hc)

private theorem Counters.score (h : Counters C s.srv m) (hinv : Inv C s b m)
    (hactive : s.srv.Active) (hw : w < C.cfg.threadCount) {i : Nat} {p : Packet}
    (hpc : (s.srv.workers w).pc = .score i p) :
    Counters C ({ s.srv with
      votesScoreboard := update s.srv.votesScoreboard (p.msg.srcHostid - 1).toNat p.msg.type
      }.setWorker w (.endRead i p)) (update m i (p.stage + 1)) := by
  obtain ⟨hopen, hi, hown, hmark, hstage, hresponse⟩ := hinv.score_stage h hactive hw hpc
  have hslot : (p.msg.srcHostid - 1).toNat = C.peer i := by
    rw [hresponse.srcHostid]
    omega
  have hne : ∀ j, j ≠ i → C.peer j ≠ C.peer i := fun j hji heq => hji (C.peer.injective heq)
  have hother : ∀ j, j ≠ i → update m i (s.srv.stageNow + 1) j = m j :=
    fun j hji => Function.update_of_ne hji _ _
  rw [hslot, hstage]
  refine ⟨h.running, h.paused, h.phase, h.verdict, ?_, ?_,
    fun _ => (h.opened hopen).score hw hown hpc hmark, fun hc => absurd hc hopen.not_closed⟩
  · intro j hj hreset hm
    by_cases hji : j = i
    · subst hji
      simp [Server.stageNow, Server.stage, Server.setWorker] at hm
    · have hfresh := h.fresh j hj hreset ((hother j hji).symm.trans hm)
      simpa [Server.setWorker, hne j hji] using hfresh
  · intro j hj hreset hm
    by_cases hji : j = i
    · subst hji
      have hvotes := (hinv.channel j hi).votes p.msg.type
      simp only [Server.setWorker, Function.update_self]
      constructor
      · intro heven
        exact hvotes (List.mem_of_getElem? (hresponse.vote (by rw [hstage]; exact heven)))
      · intro hodd
        exact hresponse.ack (by rw [hstage]; exact hodd)
    · have hresp := h.response j hj hreset ((hother j hji).symm.trans hm)
      simp only [Server.setWorker, Function.update_of_ne (hne j hji)]
      exact hresp

private theorem OpenOk.storeCount {cfg : Config} {i c : Nat} {p : Packet} (hok : OpenOk cfg srv m)
    (hw : w < cfg.threadCount) (hi : i < cfg.clientCount) (hown : cfg.Owns w i)
    (hpc : (srv.workers w).pc = .storeCount i p c)
    (hexcl : ∀ u < cfg.threadCount, (srv.workers u).pc.Counting i → u = w) :
    OpenOk cfg ({ srv with votesCount := update srv.votesCount w (c + 1) }.setWorker w
      (.stats i p)) m := by
  have hcounting : (srv.workers w).pc.Counting i := by simp [hpc, WorkerPc.Counting]
  have hstore := hok.store w hw i p c hpc
  have hle : ∀ v, srv.votesCount v ≤ update srv.votesCount w (c + 1) v := by
    intro v
    by_cases hvw : v = w
    · subst hvw
      simp [hstore]
    · simp [hvw]
  refine ⟨hok.mark_ge, ?_, ?_, ?_, ?_, ?_⟩
  · intro v hv
    by_cases hvw : v = w
    · subst hvw
      simp only [Server.setWorker, Function.update_self]
      rw [hstore, hok.count v hv]
      refine Eq.symm (tally_succ (i := i) (Finset.mem_range.mpr hi) hown ?_ ?_)
      · exact fun hc => hc.2 v hv hcounting
      · intro j _ _
        by_cases hji : j = i
        · subst hji
          simp only [or_true, iff_true]
          refine ⟨hok.counting v hv j hcounting, fun u hu => ?_⟩
          by_cases huv : u = v
          · subst huv
            simp [WorkerPc.Counting]
          · rw [counting_stats hpc (.inl huv)]
            exact fun hc => huv (hexcl u hu hc)
        · simp only [hji, or_false]
          refine Counted.congr ?_ rfl ?_
          · rfl
          · exact fun u _ => counting_stats hpc (.inr hji)
    · simp only [Server.setWorker, ne_eq, hvw, not_false_eq_true, Function.update_of_ne]
      refine (hok.count v hv).trans (tally_congr fun j _ hjown => ?_)
      have hji : j ≠ i := by
        rintro rfl
        exact hvw (cfg.disjoint v hv w hw j hjown.1 hjown.2 hown.1 hown.2)
      refine Iff.symm (Counted.congr ?_ rfl ?_)
      · rfl
      · exact fun u _ => counting_stats hpc (.inr hji)
  · intro v hv j q d hvpc
    by_cases hvw : v = w
    · subst hvw
      simp [Server.setWorker] at hvpc
    · simpa [Server.setWorker, hvw] using
        hok.store v hv j q d (by simpa [Server.setWorker, hvw] using hvpc)
  · intro v hv hvpc
    by_cases hvw : v = w
    · subst hvw
      simp [Server.setWorker] at hvpc
    · exact hok.clearing v hv (by simpa [Server.setWorker, hvw] using hvpc)
  · intro v hv j hc
    by_cases hvw : v = w
    · subst hvw
      simp [Server.setWorker, WorkerPc.Counting] at hc
    · exact hok.counting v hv j ((counting_stats hpc (.inl hvw)).mp hc)
  · intro ph k v hmaster
    obtain ⟨hk, hsum⟩ := hok.sum ph k v hmaster
    exact ⟨hk, hsum.trans (Finset.sum_le_sum fun u _ => hle u)⟩

private theorem Counters.storeCount (h : Counters C s.srv m) (hinv : Inv C s b m)
    (hw : w < C.cfg.threadCount) {i c : Nat} {p : Packet}
    (hpc : (s.srv.workers w).pc = .storeCount i p c) :
    Counters C ({ s.srv with votesCount := update s.srv.votesCount w (c + 1) }.setWorker w
      (.stats i p)) m := by
  have hcounting : (s.srv.workers w).pc.Counting i := by simp [hpc, WorkerPc.Counting]
  have hown := hinv.owns_of_counting hw hcounting
  have hi := lt_clientCount hw hown.2
  -- the response of a closed exchange is no longer being counted
  have hopen : s.srv.master.Open := by
    rcases MasterPc.open_or_closed h.running with hopen | hclosed
    · exact hopen
    · exact absurd hcounting (((h.closed hclosed).counted i hi).2 w hw)
  have hexcl : ∀ u < C.cfg.threadCount, (s.srv.workers u).pc.Counting i → u = w := by
    intro u hu hc
    have huown := hinv.owns_of_counting hu hc
    exact C.cfg.disjoint u hu w hw i huown.1 huown.2 hown.1 hown.2
  exact ⟨h.running, h.paused, h.phase, h.verdict, h.fresh, h.response,
    fun _ => (h.opened hopen).storeCount hw hi hown hpc hexcl,
    fun hc => absurd hc hopen.not_closed⟩

theorem Counters.workerStep {e : Event} (h : Counters C s.srv m) (hinv : Inv C s b m)
    (hactive : s.srv.Active) (hw : w < C.cfg.threadCount) (hs : WorkerStep C.cfg s.srv w e t) :
    Counters C t (s.srv.nextMark m e) := by
  have hmark := nextMark_of_workerStep (m := m) hs
  cases hs with
  | score hpc _ _ =>
      rw [nextMark_of_score hpc]
      exact h.score hinv hactive hw hpc
  | storeCount hpc =>
      rw [hmark (by simp [hpc])]
      exact h.storeCount hinv hw hpc
  | clearCount hpc =>
      rw [hmark (by simp [hpc])]
      exact h.clearCount hw hpc
  | @outOfRange i p hpc hout =>
      obtain ⟨-, hi, -, -, -, hresponse⟩ := hinv.score_stage h hactive hw hpc
      have hid := hresponse.srcHostid
      have := (C.peer_lt i).mpr hi
      omega
  | paused hpc hp =>
      rw [hmark (by simp [hpc])]
      exact h.move rfl rfl rfl rfl rfl rfl hw (by simp [hpc, WorkerPc.Counting]) (by simp)
        (fun _ hopen => hopen.not_paused (h.paused hp))
  | loadCount hpc =>
      rw [hmark (by simp [hpc])]
      exact h.move rfl rfl rfl rfl rfl rfl hw (by simp [hpc, WorkerPc.Counting])
        (by simp) (by simp)
  | timeEnd hpc =>
      rw [hmark (by simp [hpc])]
      refine h.move rfl rfl rfl rfl rfl rfl hw ?_ ?_ ?_
      · intro i
        dsimp only
        split <;> simp [hpc, WorkerPc.Counting]
      · intro i p v hx
        dsimp only at hx
        split at hx <;> cases hx
      · intro hx
        dsimp only at hx
        split at hx <;> cases hx
  | @begRead i r pc hpc _ hr =>
      rw [hmark (by simp [hpc])]
      cases r <;> simp only [Server.afterBegRead, Option.some.injEq, reduceCtorEq] at hr <;>
        subst hr <;>
        exact h.move rfl rfl rfl rfl rfl rfl hw (by simp [hpc, WorkerPc.Counting]) (by simp)
          (by simp)
  | endRead hpc | leave hpc | stay hpc | startPass hpc | endPass hpc | raiseStop hpc | exit hpc
  | delete hpc =>
      rw [hmark (by simp [hpc])]
      exact h.move rfl rfl rfl rfl rfl rfl hw (by simp [hpc, WorkerPc.Counting]) (by simp)
        (by simp)

theorem Counters.openMove {pc : MasterPc} (h : Counters C srv m) (hpc : srv.master = pc)
    (hopen : pc.Open) (hopen' : t.master.Open) (hphase : t.master.phase = pc.phase)
    (hreq : t.requests = srv.requests) (hpause : t.pauseSignal = srv.pauseSignal)
    (hslots : t.votesScoreboard = srv.votesScoreboard) (hcount : t.votesCount = srv.votesCount)
    (hworkers : t.workers = srv.workers)
    (hreset : ∀ i < C.cfg.clientCount, t.master.Reset (C.peer i) → pc.Reset (C.peer i))
    (hsum : ∀ ph i v, t.master = .sumVotes ph i v →
      i ≤ C.cfg.threadCount ∧ v ≤ ∑ w ∈ Finset.range i, srv.votesCount w) :
    Counters C t m := by
  subst hpc
  have hnow : t.stageNow = srv.stageNow := by
    simp only [Server.stageNow, Server.stage, hphase, hreq]
  have hok := h.opened hopen
  refine ⟨?_, ?_, ?_, ?_, ?_, ?_, ?_, fun hc => absurd hc hopen'.not_closed⟩
  · intro hterm
    simp [hterm, MasterPc.Open] at hopen'
  · intro hp
    rw [hpause] at hp
    exact absurd (h.paused hp) hopen.not_paused
  · rw [hphase]
    exact h.phase
  · intro r hr
    cases hpc : t.master <;> simp_all [MasterPc.verdict, MasterPc.Open]
  · intro i hi hr hm
    rw [hslots]
    exact h.fresh i hi (hreset i hi hr) (hm.trans hnow)
  · intro i hi hr hm
    rw [hslots, hnow]
    exact h.response i hi (hreset i hi hr) (by rw [hm, hnow])
  · intro _
    have hcounted : ∀ i, Counted C.cfg t m i ↔ Counted C.cfg srv m i :=
      fun i => Counted.congr hnow rfl fun v _ => by rw [hworkers]
    refine ⟨?_, ?_, ?_, ?_, ?_, ?_⟩
    · rw [hnow]
      exact hok.mark_ge
    · intro v hv
      rw [hcount, hok.count v hv]
      exact tally_congr fun i _ _ => (hcounted i).symm
    · rw [hworkers, hcount]
      exact hok.store
    · rw [hworkers, hnow]
      exact hok.clearing
    · rw [hworkers, hnow]
      exact hok.counting
    · rw [hcount]
      exact hsum

theorem Counters.closedMove {pc : MasterPc} (h : Counters C srv m) (hpc : srv.master = pc)
    (hclosed : pc.Closed) (hclosed' : t.master.Closed) (hphase : t.master.phase = pc.phase)
    (hreq : t.requests = srv.requests) (hslots : t.votesScoreboard = srv.votesScoreboard)
    (hworkers : t.workers = srv.workers) (hpause : t.pauseSignal = true → t.master.Paused)
    (hverdict : ∀ r, t.master.verdict = some r → r ≠ .clusterFail)
    (hcount : ∀ w, t.votesCount w ≤ srv.votesCount w)
    (hcleared : ∀ w < t.master.cleared C.cfg, w < C.cfg.threadCount → t.votesCount w = 0) :
    Counters C t m := by
  subst hpc
  have hnow : t.stageNow = srv.stageNow := by
    simp only [Server.stageNow, Server.stage, hphase, hreq]
  have hreset : ∀ c, srv.master.Reset c := by
    intro c
    cases hpc : srv.master <;> simp_all [MasterPc.Closed, MasterPc.Reset]
  have hok := h.closed hclosed
  refine ⟨?_, hpause, ?_, hverdict, ?_, ?_, fun ho => absurd hclosed' ho.not_closed, ?_⟩
  · intro hterm
    simp [hterm, MasterPc.Closed] at hclosed'
  · rw [hphase]
    exact h.phase
  · intro i hi _ hm
    rw [hslots]
    exact h.fresh i hi (hreset _) (hm.trans hnow)
  · intro i hi _ hm
    rw [hslots, hnow]
    exact h.response i hi (hreset _) (by rw [hm, hnow])
  · intro _
    refine ⟨?_, ?_, hcleared⟩
    · intro i hi
      exact (Counted.congr hnow rfl fun v _ => by rw [hworkers]).mpr (hok.counted i hi)
    · intro v hv
      exact (hcount v).trans (hok.count_le v hv)

end Q2pc
