import Q2pc.Server.Cases
import Mathlib.Data.List.Perm.Basic

namespace Q2pc

variable {cfg : Config} {s : Server} {slots : List MsgType} {ph : Phase} {t : MsgType}

-- The verdict of a scan that reads these slots one after the other, none where it
-- terminates.
def verdict (ph : Phase) (slots : List MsgType) : Option CommitStatus :=
  slots.foldlM (scanSlot ph) ph.startStatus

@[simp] theorem verdict_nil (ph : Phase) : verdict ph [] = some ph.startStatus := rfl

theorem verdict_snoc (ph : Phase) (slots : List MsgType) (t : MsgType) :
    verdict ph (slots ++ [t]) = (verdict ph slots).bind fun r => scanSlot ph r t := by
  simp [verdict, List.foldlM_append]

-- The slots that the scan of phase 1 does not terminate on.
def MsgType.IsVote (t : MsgType) : Prop := t = .voteYes ∨ t = .voteNo ∨ t = .lost

-- What the votes ask for: a lost one fails the cluster, else a no fails the request.
def FollowsVotes (slots : List MsgType) (status : CommitStatus) : Prop :=
  (status = .clusterFail ↔ .lost ∈ slots) ∧
  (status = .requestFail ↔ .lost ∉ slots ∧ .voteNo ∈ slots) ∧
  (status = .requestSuccess ↔ .lost ∉ slots ∧ .voteNo ∉ slots)

-- Behind a no that stands behind a lost slot there is another lost slot.
def LostLast (slots : List MsgType) : Prop :=
  ∀ l l', slots = l ++ .voteNo :: l' → .lost ∈ l → .lost ∈ l'

-- What is known of the verdict `r` of phase 1 on these slots.
structure VotesRead (slots : List MsgType) (r : CommitStatus) : Prop where
  status : r = .requestSuccess ∨ r = .requestFail ∨ r = .clusterFail
  success : r = .requestSuccess ↔ .lost ∉ slots ∧ .voteNo ∉ slots
  lost : r = .clusterFail → .lost ∈ slots
  no : r = .requestFail → .voteNo ∈ slots
  lostLast : LostLast slots ↔ (.lost ∈ slots → r = .clusterFail)

theorem LostLast.snoc (hne : t ≠ .voteNo) :
    LostLast (slots ++ [t]) ↔ t = .lost ∨ LostLast slots := by
  constructor
  · intro h
    by_cases hlost : t = .lost
    · exact .inl hlost
    · refine .inr fun l l' heq hl => ?_
      have hmem := h l (l' ++ [t]) (by rw [heq, List.append_assoc, List.cons_append]) hl
      rcases List.mem_append.mp hmem with hmem | hmem
      · exact hmem
      · exact absurd (List.mem_singleton.mp hmem).symm hlost
  · intro h l l' heq hl
    rcases List.eq_nil_or_concat l' with rfl | ⟨l', t', rfl⟩
    · have := (List.append_inj' heq rfl).2
      simp_all
    · have heq' : slots ++ [t] = (l ++ .voteNo :: l') ++ [t'] := by simpa using heq
      obtain ⟨rfl, ht⟩ := List.append_inj' heq' rfl
      obtain rfl : t = t' := by simpa using ht
      rcases h with rfl | h
      · simp
      · simpa using .inl (h l l' rfl hl)

theorem LostLast.snoc_no : LostLast (slots ++ [.voteNo]) ↔ .lost ∉ slots := by
  constructor
  · intro h hmem
    simpa using h slots [] rfl hmem
  · intro hnot l l' heq hl
    exfalso
    apply hnot
    rcases List.eq_nil_or_concat l' with rfl | ⟨l', t', rfl⟩
    · rw [(List.append_inj' heq rfl).1]
      exact hl
    · have heq' : slots ++ [.voteNo] = (l ++ .voteNo :: l') ++ [t'] := by simpa using heq
      rw [(List.append_inj' heq' rfl).1]
      exact List.mem_append_left _ hl

-- The scan of phase 1 over votes: each slot that holds no yes overwrites the verdict.
theorem exists_verdict (hslots : ∀ t ∈ slots, t.IsVote) :
    ∃ r, verdict .phase1 slots = some r ∧ VotesRead slots r := by
  induction slots using List.reverseRecOn with
  | nil => exact ⟨.requestSuccess, rfl, by simp, by simp, by simp, by simp, by simp [LostLast]⟩
  | append_singleton slots t ih =>
      obtain ⟨r, hr, hread⟩ := ih fun t ht => hslots t (List.mem_append_left _ ht)
      rw [verdict_snoc, hr, Option.bind_some]
      rcases hslots t (by simp) with rfl | rfl | rfl
      · refine ⟨r, rfl, hread.status, by simpa using hread.success, fun h => ?_, fun h => ?_, ?_⟩
        · exact List.mem_append_left _ (hread.lost h)
        · exact List.mem_append_left _ (hread.no h)
        · rw [LostLast.snoc (by simp)]
          simpa using hread.lostLast
      · refine ⟨.requestFail, rfl, by simp, by simp, by simp, by simp, ?_⟩
        rw [LostLast.snoc_no]
        simp
      · refine ⟨.clusterFail, rfl, by simp, by simp, by simp, by simp, ?_⟩
        rw [LostLast.snoc (by simp)]
        simp

-- The verdict is what the votes ask for exactly when a no overwrites no lost slot.
theorem VotesRead.follows_iff {r : CommitStatus} (h : VotesRead slots r) :
    FollowsVotes slots r ↔ LostLast slots := by
  rw [h.lostLast]
  constructor
  · intro hf
    exact hf.1.mpr
  · intro hlost
    have hsuccess := h.success
    refine ⟨⟨h.lost, hlost⟩, ⟨fun hr => ?_, fun ⟨hl, hn⟩ => ?_⟩, hsuccess⟩
    · exact ⟨fun hl => by simp [hlost hl] at hr, h.no hr⟩
    · rcases h.status with hr | hr | hr
      · exact absurd hn (hsuccess.mp hr).2
      · exact hr
      · exact absurd (h.lost hr) hl

-- The verdict depends on the votes alone exactly when a lost one and a no do not meet.
theorem VotesRead.perm_iff {r : CommitStatus} (h : VotesRead slots r)
    (hslots : ∀ t ∈ slots, t.IsVote) :
    (∀ slots' : List MsgType, slots'.Perm slots → verdict .phase1 slots' = some r) ↔
      ¬(.lost ∈ slots ∧ .voteNo ∈ slots) := by
  have hvotes : ∀ slots' : List MsgType, slots'.Perm slots → ∀ t ∈ slots', t.IsVote :=
    fun _ hperm t ht => hslots t (hperm.subset ht)
  constructor
  · rintro hperm ⟨hl, hn⟩
    have hlast : ∀ t ∈ slots, verdict .phase1 (slots.erase t ++ [t]) = some r := by
      intro t ht
      apply hperm
      exact (List.perm_append_singleton t _).trans (List.perm_cons_erase ht).symm
    have herase : ∀ t, ∃ r, verdict .phase1 (slots.erase t) = some r := by
      intro t
      obtain ⟨r, hr, -⟩ := @exists_verdict (slots.erase t)
        fun t' ht' => hslots t' (List.mem_of_mem_erase ht')
      exact ⟨r, hr⟩
    obtain ⟨r₁, hr₁⟩ := herase .lost
    obtain ⟨r₂, hr₂⟩ := herase .voteNo
    have hlost := hlast _ hl
    have hno := hlast _ hn
    rw [verdict_snoc, hr₁, Option.bind_some] at hlost
    rw [verdict_snoc, hr₂, Option.bind_some, ← hlost] at hno
    simp [scanSlot] at hno
  · intro hnot slots' hperm
    obtain ⟨r', hr', h'⟩ := exists_verdict (hvotes slots' hperm)
    have hmem : ∀ t, t ∈ slots' ↔ t ∈ slots := fun t => hperm.mem_iff
    have hsuccess := h.success
    have hsuccess' := h'.success
    simp only [hmem] at hsuccess'
    have hlost' := h'.lost
    have hno' := h'.no
    rw [hmem] at hlost' hno'
    rw [hr']
    congr 1
    rcases h.status with hr | hr | hr <;> rcases h'.status with hr'' | hr'' | hr'' <;>
      have := h.lost <;> have := h.no <;> simp_all

def Server.scoreboard (cfg : Config) (s : Server) : List MsgType :=
  (List.range cfg.clientCount).map s.votesScoreboard

-- The master, at the start of the scan of a phase, returns from the phase with this
-- status.
def Server.Returns (cfg : Config) (s : Server) (ph : Phase) (status : CommitStatus) : Prop :=
  ∃ t, (serverMachine cfg).evalFrom Machine.always s
      (.replicate (2 * cfg.clientCount + 1 + (cfg.threadCount + 2)) .master) = some t ∧
    t.master = .phaseReturn ph status

private theorem evalFrom_master {es : List Event} {t : Server} (hs : s.masterStep cfg = some t) :
    (serverMachine cfg).evalFrom Machine.always s (.master :: es) =
      (serverMachine cfg).evalFrom Machine.always t es := by
  have hstep : (serverMachine cfg).step s .master = some t := hs
  rw [Machine.evalFrom, if_pos (show Machine.always s Event.master from trivial), hstep,
    Option.bind_some]

private theorem scan_run {i k : Nat} {r r' : CommitStatus} (hpc : s.master = .scan ph i r)
    (hstop : s.stopSignal = false) (hk : i + k = cfg.clientCount)
    (hr : ((List.range' i k).map s.votesScoreboard).foldlM (scanSlot ph) r = some r') :
    (serverMachine cfg).evalFrom Machine.always s (.replicate (2 * k + 1) .master) =
      some (s.setMaster (.clearCount ph 0 r')) := by
  induction k generalizing s i r with
  | zero =>
      obtain rfl : r = r' := by simpa using hr
      have hstep : s.masterStep cfg = some (s.setMaster (.clearCount ph 0 r)) := by
        simp only [Server.masterStep, hpc]
        exact if_neg (by omega)
      exact evalFrom_master hstep
  | succ k ih =>
      rw [List.range'_succ, List.map_cons, List.foldlM_cons] at hr
      obtain ⟨r₁, hscan, hrest⟩ := Option.bind_eq_some_iff.mp hr
      have hnext : s.masterStep cfg = some (s.setMaster (.readSlot ph i r)) := by
        simp only [Server.masterStep, hpc]
        exact if_pos ⟨by omega, hstop⟩
      have hread : (s.setMaster (.readSlot ph i r)).masterStep cfg =
          some (s.setMaster (.scan ph (i + 1) r₁)) := by
        simp only [Server.masterStep, Server.setMaster, hscan]
      have hrec := ih (s := s.setMaster (.scan ph (i + 1) r₁)) rfl hstop (by omega) hrest
      rw [show 2 * (k + 1) + 1 = 2 * k + 1 + 1 + 1 by omega, List.replicate_succ,
        evalFrom_master hnext, List.replicate_succ, evalFrom_master hread, hrec]
      rfl

private theorem clear_run {i k : Nat} {r status : CommitStatus}
    (hpc : s.master = .clearCount ph i r) (hk : i + k = cfg.threadCount)
    (hstatus : phaseStatus ph r = some status) :
    ∃ t, (serverMachine cfg).evalFrom Machine.always s (.replicate (k + 2) .master) = some t ∧
      t.master = .phaseReturn ph status := by
  induction k generalizing s i with
  | zero =>
      have hdone : s.masterStep cfg = some (s.setMaster (.unpauseAll ph r)) := by
        simp only [Server.masterStep, hpc]
        exact if_neg (by omega)
      have hreturn : (s.setMaster (.unpauseAll ph r)).masterStep cfg =
          some { s with pauseSignal := false, master := .phaseReturn ph status } := by
        simp only [Server.masterStep, Server.setMaster, hstatus]
      rw [List.replicate_succ, evalFrom_master hdone, List.replicate_succ,
        evalFrom_master hreturn]
      exact ⟨_, rfl, rfl⟩
  | succ k ih =>
      have hnext : s.masterStep cfg = some { s with
          votesCount := Function.update s.votesCount i 0
          master := .clearCount ph (i + 1) r } := by
        simp only [Server.masterStep, hpc]
        exact if_pos (by omega)
      rw [show k + 1 + 2 = k + 2 + 1 by omega, List.replicate_succ, evalFrom_master hnext]
      exact ih rfl (by omega)

theorem Server.returns_of_verdict {r status : CommitStatus}
    (hpc : s.master = .scan ph 0 ph.startStatus) (hstop : s.stopSignal = false)
    (hr : verdict ph (s.scoreboard cfg) = some r) (hstatus : phaseStatus ph r = some status) :
    s.Returns cfg ph status := by
  rw [verdict, Server.scoreboard, List.range_eq_range'] at hr
  have hscan := scan_run hpc hstop (Nat.zero_add cfg.clientCount) hr
  obtain ⟨t, hclear, ht⟩ := clear_run (s := s.setMaster (.clearCount ph 0 r)) rfl
    (Nat.zero_add cfg.threadCount) hstatus
  refine ⟨t, ?_, ht⟩
  rw [List.replicate_add, Machine.evalFrom_append, hscan, Option.bind_some, hclear]

theorem Server.Returns.unique {st st' : CommitStatus} (h : s.Returns cfg ph st)
    (h' : s.Returns cfg ph st') : st = st' := by
  obtain ⟨t, ht, hpc⟩ := h
  obtain ⟨t', ht', hpc'⟩ := h'
  obtain rfl := Option.some.inj (ht.symm.trans ht')
  have heq := hpc.symm.trans hpc'
  exact (MasterPc.phaseReturn.inj heq).2

def Server.withSlots (s : Server) (slots : List MsgType) : Server :=
  { s with votesScoreboard := fun c => slots.getD c .lost }

theorem Server.scoreboard_withSlots (hlen : slots.length = cfg.clientCount) :
    (s.withSlots slots).scoreboard cfg = slots := by
  apply List.ext_getElem
  · simp [Server.scoreboard, hlen]
  · intro i hi hi'
    simp [Server.scoreboard, Server.withSlots, hi']

-- do_phase1 returns from a scan of votes. It returns what they ask for exactly when no
-- lost slot is overwritten, and the same for all orders of the slots exactly when they
-- do not hold both a lost one and a no.
theorem phase1_verdict_iff (hpc : s.master = .scan .phase1 0 .requestSuccess)
    (hstop : s.stopSignal = false) (hslots : ∀ c < cfg.clientCount, (s.votesScoreboard c).IsVote) :
    ∃ status, s.Returns cfg .phase1 status ∧
      (FollowsVotes (s.scoreboard cfg) status ↔ LostLast (s.scoreboard cfg)) ∧
      ((∀ slots : List MsgType, slots.Perm (s.scoreboard cfg) →
          (s.withSlots slots).Returns cfg .phase1 status) ↔
        ¬(.lost ∈ s.scoreboard cfg ∧ .voteNo ∈ s.scoreboard cfg)) := by
  have hvotes : ∀ t ∈ s.scoreboard cfg, t.IsVote := by
    intro t ht
    obtain ⟨c, hc, rfl⟩ := List.mem_map.mp ht
    exact hslots c (List.mem_range.mp hc)
  obtain ⟨r, hr, hread⟩ := exists_verdict hvotes
  refine ⟨r, Server.returns_of_verdict hpc hstop hr rfl, hread.follows_iff, ?_⟩
  rw [← hread.perm_iff hvotes]
  apply forall₂_congr
  intro slots hperm
  have hlen : slots.length = cfg.clientCount := by simpa [Server.scoreboard] using hperm.length_eq
  obtain ⟨r', hr', -⟩ := exists_verdict fun t ht => hvotes t (hperm.subset ht)
  have hreturns : (s.withSlots slots).Returns cfg .phase1 r' :=
    Server.returns_of_verdict (s := s.withSlots slots) hpc hstop
      ((congrArg _ (Server.scoreboard_withSlots hlen)).trans hr') rfl
  rw [hr', Option.some.injEq]
  constructor
  · intro h
    exact hreturns.unique h
  · rintro rfl
    exact hreturns

-- The scan of phase 1 is about to read these slots.
def scanOf (slots : List MsgType) : Server :=
  (Server.init.withSlots slots).setMaster (.scan .phase1 0 .requestSuccess)

theorem phase1_verdict_iff_pair : ∃ status,
    (scanOf [.voteNo, .lost]).Returns (.oneThread .udpQj 2 100 1) .phase1 status ∧
    FollowsVotes [.voteNo, .lost] status := by
  obtain ⟨status, hreturns, hfollows, -⟩ :=
    @phase1_verdict_iff (.oneThread .udpQj 2 100 1) (scanOf [.voteNo, .lost]) rfl rfl
      (by unfold MsgType.IsVote; decide)
  have hlast : LostLast ([.voteNo] ++ [.lost]) := (LostLast.snoc (by simp)).mpr (.inl rfl)
  exact ⟨status, hreturns, hfollows.mpr hlast⟩

-- The message of client 1 is lost, client 2 votes no, and the master gives up waiting.
def lostThenNoEvents : List Event :=
  .replicate 4 .master ++ [.begWrite 0 ⟨requestMsg .request 0, 0⟩, .endWrite 0,
    .endWriteRet 0 .enone, .worker 0, .worker 0, .begRead 0 0 .eagain,
    .begRead 0 1 (.data ⟨⟨.voteNo, 2, 0, 0, 0⟩, 0⟩), .worker 0, .endRead 0 1, .worker 0, .worker 0,
    .timeEnd 0 0, .clock true, .master]

-- A lost slot in front of a no does not fail the cluster.
theorem lost_slot_overwritten : ∃ s status,
    (serverMachine (.oneThread .udpQj 2 100 1)).Reachable Machine.always s ∧
    s.master = .scan .phase1 0 .requestSuccess ∧ s.stopSignal = false ∧
    s.scoreboard (.oneThread .udpQj 2 100 1) = [.lost, .voteNo] ∧
    s.Returns (.oneThread .udpQj 2 100 1) .phase1 status ∧
    ¬FollowsVotes [.lost, .voteNo] status := by
  obtain ⟨s, hrun, hs⟩ := Machine.exists_run_of_eval (serverMachine (.oneThread .udpQj 2 100 1))
    Machine.always lostThenNoEvents (fun s => decide (s.master = .scan .phase1 0 .requestSuccess ∧
      s.stopSignal = false ∧ s.scoreboard (.oneThread .udpQj 2 100 1) = [.lost, .voteNo]))
    (by decide +kernel)
  obtain ⟨hpc, hstop, hslots⟩ := of_decide_eq_true hs
  have hverdict : verdict .phase1 (s.scoreboard (.oneThread .udpQj 2 100 1)) =
      some .requestFail := by
    rw [hslots]
    rfl
  refine ⟨s, .requestFail, hrun.reachable, hpc, hstop, hslots,
    Server.returns_of_verdict hpc hstop hverdict rfl, ?_⟩
  simp [FollowsVotes]

end Q2pc
