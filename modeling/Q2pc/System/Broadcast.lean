import Q2pc.System.Safety

namespace Q2pc

variable {cfg : Config} {s t : Server} {es : List Event} {e : Event}

-- The stop signal does not cut the scan of phase 1 short while a slot that it has not
-- read holds no yes.
def ScanUncut (cfg : Config) (s : Server) (e : Event) : Prop :=
  e = .master → ∀ i, s.master = .scan .phase1 i .requestSuccess → s.stopSignal = true →
    ∀ c, i ≤ c → c < cfg.clientCount → s.votesScoreboard c = .voteYes

def MasterPc.Scanning (pc : MasterPc) : Prop :=
  ∃ i r, pc = .scan .phase1 i r ∨ pc = .readSlot .phase1 i r

-- Slot `c` has held a yes when the master scanned the slots in phase 1 of round `r`.
def YesSeen (cfg : Config) (es : List Event) (r c : Nat) : Prop :=
  ∃ es₁ s₁, es₁ <+: es ∧ (serverMachine cfg).Run Machine.always es₁ s₁ ∧
    s₁.requests = r ∧ s₁.master.Scanning ∧ s₁.votesScoreboard c = .voteYes

theorem YesSeen.snoc {r c : Nat} (h : YesSeen cfg es r c) : YesSeen cfg (es ++ [e]) r c := by
  obtain ⟨es₁, s₁, hp, h⟩ := h
  exact ⟨es₁, s₁, hp.trans (List.prefix_append _ _), h⟩

-- How many slots are known to have held a yes: in phase 1 those the scan has read
-- while its verdict is success, after a successful phase 1 all.
def Phase.yesBound (cfg : Config) (ph : Phase) (result : CommitStatus) (scanned : Nat) : Nat :=
  match ph with
  | .phase1 => if result = .requestSuccess then scanned else 0
  | .phase2 st => if st = .requestSuccess then cfg.clientCount else 0

def MasterPc.yesBound (cfg : Config) : MasterPc → Nat
  | .scan ph i r | .readSlot ph i r => ph.yesBound cfg r i
  | .clearCount ph _ r | .unpauseAll ph r | .phaseReturn ph r => ph.yesBound cfg r cfg.clientCount
  | pc => pc.phase.yesBound cfg .clusterFail 0

def AllYesSeen (cfg : Config) (es : List Event) (s : Server) : Prop :=
  ∀ c < s.master.yesBound cfg, c < cfg.clientCount → YesSeen cfg es s.requests c

private theorem AllYesSeen.mono (h : AllYesSeen cfg es s)
    (hle : t.master.yesBound cfg ≤ s.master.yesBound cfg) (hreq : t.requests = s.requests) :
    AllYesSeen cfg (es ++ [e]) t := by
  intro c hc hn
  rw [hreq]
  exact (h c (by omega) hn).snoc

private theorem AllYesSeen.zero (hz : t.master.yesBound cfg = 0) : AllYesSeen cfg es t := by
  intro c hc
  omega

-- The slots the scan has not read hold a yes, or the scan has read them all.
private theorem AllYesSeen.scanned {ph : Phase} {i : Nat} {r : CommitStatus}
    (h : AllYesSeen cfg es s) (hrun : (serverMachine cfg).Run Machine.always es s)
    (hok : ScanUncut cfg s .master) (hpc : s.master = .scan ph i r)
    (hdone : cfg.clientCount ≤ i ∨ s.stopSignal = true) :
    AllYesSeen cfg (es ++ [.master]) (s.setMaster (.clearCount ph 0 r)) := by
  cases ph with
  | phase2 st =>
      exact h.mono (by simp [hpc, Server.setMaster, MasterPc.yesBound, Phase.yesBound]) rfl
  | phase1 =>
      by_cases hr : r = .requestSuccess
      · subst hr
        intro c _ hn
        by_cases hci : c < i
        · exact (h c (by simpa [hpc, MasterPc.yesBound, Phase.yesBound] using hci) hn).snoc
        · have hstop := hdone.resolve_left (by omega)
          have hyes := hok rfl i hpc hstop c (by omega) hn
          exact ⟨es, s, List.prefix_append _ _, hrun, rfl, ⟨i, _, .inl hpc⟩, hyes⟩
      · exact .zero (by simp [Server.setMaster, MasterPc.yesBound, Phase.yesBound, hr])

private theorem scanSlot_success {r r' : CommitStatus} {slot : MsgType}
    (h : scanSlot .phase1 r slot = some r') (hr : r' = .requestSuccess) :
    slot = .voteYes ∧ r = .requestSuccess := by
  cases slot <;> simp_all [scanSlot]

private theorem AllYesSeen.readSlot {ph : Phase} {i : Nat} {r r' : CommitStatus}
    (h : AllYesSeen cfg es s) (hrun : (serverMachine cfg).Run Machine.always es s)
    (hpc : s.master = .readSlot ph i r) (hscan : scanSlot ph r (s.votesScoreboard i) = some r') :
    AllYesSeen cfg (es ++ [.master]) (s.setMaster (.scan ph (i + 1) r')) := by
  cases ph with
  | phase2 st =>
      exact h.mono (by simp [hpc, Server.setMaster, MasterPc.yesBound, Phase.yesBound]) rfl
  | phase1 =>
      by_cases hr' : r' = .requestSuccess
      · obtain ⟨hslot, rfl⟩ := scanSlot_success hscan hr'
        intro c hc hn
        by_cases hci : c < i
        · exact (h c (by simpa [hpc, MasterPc.yesBound, Phase.yesBound] using hci) hn).snoc
        · simp only [Server.setMaster, MasterPc.yesBound, Phase.yesBound, hr', if_true] at hc
          obtain rfl : c = i := by omega
          exact ⟨es, s, List.prefix_append _ _, hrun, rfl, ⟨c, _, .inr hpc⟩, hslot⟩
      · exact .zero (by simp [Server.setMaster, MasterPc.yesBound, Phase.yesBound, hr'])

private theorem AllYesSeen.afterPhase {ph : Phase} {status : CommitStatus}
    (h : AllYesSeen cfg es s) (hpc : s.master = .phaseReturn ph status) :
    AllYesSeen cfg (es ++ [.master]) (s.afterPhase ph status) := by
  cases ph with
  | phase1 =>
      exact h.mono (by simp [hpc, Server.afterPhase, Server.setMaster, MasterPc.yesBound,
        Phase.yesBound, MasterPc.phase]) rfl
  | phase2 st =>
      refine .zero ?_
      cases status <;>
        simp [Server.afterPhase, Server.term, MasterPc.yesBound, Phase.yesBound, MasterPc.phase]

private theorem AllYesSeen.startPhase {ph : Phase} {i : Nat} (h : AllYesSeen cfg es s)
    (hpc : s.master = .initScoreboard ph i) :
    AllYesSeen cfg (es ++ [.master]) (s.startPhase cfg ph) := by
  have hsend : AllYesSeen cfg (es ++ [.master]) (s.sendRequest cfg ph) := by
    unfold Server.sendRequest
    split <;> exact h.mono (by simp [hpc, Server.setMaster, MasterPc.yesBound, MasterPc.phase]) rfl
  cases ph with
  | phase1 => exact hsend
  | phase2 st =>
      cases st with
      | requestSuccess => exact hsend
      | requestFail => exact hsend
      | _ =>
          exact .zero (by simp [Server.startPhase, Server.term, Server.setMaster,
            MasterPc.yesBound, Phase.yesBound, MasterPc.phase])

private theorem AllYesSeen.endWriteRet {ph : Phase} {i : Nat} {r : Ret} (h : AllYesSeen cfg es s)
    (hpc : s.master = .inEndWrite ph i) :
    AllYesSeen cfg (es ++ [e]) (s.endWriteRet cfg ph i r) := by
  have hgo : ∀ pc : MasterPc, pc.yesBound cfg = ph.yesBound cfg .clusterFail 0 →
      pc.yesBound cfg ≤ s.master.yesBound cfg := by
    intro pc heq
    rw [hpc, heq]
    exact Nat.le_refl _
  unfold Server.endWriteRet
  split
  · exact h.mono (hgo _ rfl) rfl
  · split
    · split
      · exact .zero (by simp [Server.term, MasterPc.yesBound, Phase.yesBound, MasterPc.phase])
      · exact h.mono (hgo _ rfl) rfl
    · exact h.mono (hgo _ rfl) rfl
    · exact h.mono (hgo _ rfl) rfl
    · exact .zero (by simp [Server.term, MasterPc.yesBound, Phase.yesBound, MasterPc.phase])

private theorem AllYesSeen.masterStep (h : AllYesSeen cfg es s)
    (hrun : (serverMachine cfg).Run Machine.always es s) (hok : ScanUncut cfg s e)
    (hs : MasterStep cfg s e t) : AllYesSeen cfg (es ++ [e]) t := by
  cases hs with
  | scanned hpc hdone => exact h.scanned hrun hok hpc hdone
  | readSlot hpc hscan => exact h.readSlot hrun hpc hscan
  | phaseReturn hpc => exact h.afterPhase hpc
  | startPhase hpc _ => exact h.startPhase hpc
  | endWriteRet hpc => exact h.endWriteRet hpc
  | @pause ph hpc =>
      cases ph <;>
        exact h.mono (by simp [hpc, MasterPc.yesBound, Phase.yesBound, MasterPc.phase]) rfl
  | @unpause ph r status hpc hstatus =>
      cases ph with
      | phase1 =>
          simp only [phaseStatus, Option.some.injEq] at hstatus
          subst hstatus
          exact h.mono (by simp [hpc, MasterPc.yesBound]) rfl
      | phase2 st => exact h.mono (by simp [hpc, MasterPc.yesBound, Phase.yesBound]) rfl
  | _ =>
      refine h.mono ?_ rfl
      simp [*, Server.setMaster, Server.term, MasterPc.yesBound, MasterPc.phase, Phase.yesBound]

-- In every run in which no scan is cut short with an unread slot that holds no yes,
-- the server broadcasts a commit in a round only after each slot has held a yes in
-- phase 1 of that round.
theorem broadcast_validity (h : (serverMachine cfg).Run (ScanUncut cfg) es s) {i : Nat}
    (hpc : s.master = .endWrite (.phase2 .requestSuccess) i) :
    ∀ c < cfg.clientCount, YesSeen cfg es s.requests c := by
  have hall : AllYesSeen cfg es s := by
    apply h.invariant (P := AllYesSeen cfg)
    · exact .zero (by simp [serverMachine, Server.init, MasterPc.yesBound, Phase.yesBound,
        MasterPc.phase])
    · intro es s e t hrun ih hok hs
      rcases step_cases hs with hm | ⟨w, _, hm⟩
      · exact ih.masterStep (hrun.mono (fun _ _ _ => trivial)) hok hm
      · obtain ⟨hmaster, hreq, -⟩ := hm.frame
        exact ih.mono (by rw [hmaster]) hreq
  intro c hc
  exact hall c (by simpa [hpc, MasterPc.yesBound, Phase.yesBound, MasterPc.phase] using hc) hc

def oneBroadcastEvents : List Event :=
  [.master, .master, .master, .begWrite 0 ⟨requestMsg .request 0, 0⟩, .endWrite 0,
    .endWriteRet 0 .enone, .worker 0, .worker 0, .begRead 0 0 (.data ⟨⟨.voteYes, 1, 0, 0, 0⟩, 0⟩),
    .worker 0, .endRead 0 0, .worker 0, .worker 0, .timeEnd 0 0, .clock false] ++
  .replicate 12 .master ++ [.begWrite 0 ⟨requestMsg .commit 0, 1⟩]

theorem broadcast_validity_one : ∃ s : Server,
    (serverMachine (.oneThread .udpQj 1 100 1)).Run (ScanUncut (.oneThread .udpQj 1 100 1))
      oneBroadcastEvents s ∧
    s.master = .endWrite (.phase2 .requestSuccess) 0 ∧
    ∀ c < 1, YesSeen (.oneThread .udpQj 1 100 1) oneBroadcastEvents s.requests c := by
  obtain ⟨s, hrun, hs⟩ := Machine.exists_run_of_eval (serverMachine (.oneThread .udpQj 1 100 1))
    (fun s _ => s.stopSignal = false) oneBroadcastEvents
    (fun s => s.master == .endWrite (.phase2 .requestSuccess) 0) (by decide +kernel)
  have huncut : (serverMachine (.oneThread .udpQj 1 100 1)).Run
      (ScanUncut (.oneThread .udpQj 1 100 1)) oneBroadcastEvents s := by
    refine hrun.mono fun s e hstop _ i _ hcut => ?_
    simp [hstop] at hcut
  have hpc := beq_iff_eq.mp hs
  exact ⟨s, huncut, hpc, broadcast_validity huncut hpc⟩

-- The worker handles the no of client 5 as the last record its memory has room for and
-- raises the stop signal when the master has not read a slot.
def cutScanEvents : List SysEvent :=
  .replicate 7 (.server .master) ++
  [.server (.begWrite 0 ⟨requestMsg .request 0, 0⟩), .server (.endWrite 0),
    .server (.endWriteRet 0 .enone)] ++ answerEvents [0, 1, 2, 3, 4] ++
  (passEvents (.replicate 4 (some (.voteYes, 0)) ++ [some (.voteNo, 0)])).dropLast ++
  .server (.clock false) :: .replicate 3 (.server .master) ++ .server (.worker 0) ::
  .replicate 11 (.server .master) ++ [.server (.begWrite 0 ⟨requestMsg .commit 0, 1⟩)]

-- Over Q-Jump the server broadcasts a commit in a round in which a slot never holds
-- a yes.
theorem broadcast_without_vote : ∃ (C : Cluster) (s : System), C.cfg.transType = .udpQj ∧
    (systemMachine C).Reachable
      (fun s e => e.reliable ∧ s.srv.requests = 0 ∧ s.srv.votesScoreboard 4 ≠ .voteYes) s ∧
    4 < C.cfg.clientCount ∧ s.srv.requests = 0 ∧ s.srv.votesScoreboard 4 ≠ .voteYes ∧
    s.srv.master = .endWrite (.phase2 .requestSuccess) 0 := by
  let C : Cluster := .oneThread .udpQj 5 5 1 (by decide) (by decide)
  obtain ⟨s, hrun, hs⟩ := Machine.exists_run_of_eval (systemMachine C)
    (fun s e => e.reliable ∧ s.srv.requests = 0 ∧ s.srv.votesScoreboard 4 ≠ .voteYes)
    cutScanEvents (fun s => decide (s.srv.requests = 0 ∧ s.srv.votesScoreboard 4 ≠ .voteYes ∧
      s.srv.master = .endWrite (.phase2 .requestSuccess) 0)) (by decide +kernel)
  exact ⟨C, s, rfl, hrun.reachable, by decide, of_decide_eq_true hs⟩

end Q2pc
