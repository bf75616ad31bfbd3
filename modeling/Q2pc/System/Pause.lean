import Q2pc.System.Safety

namespace Q2pc

variable {cfg : Config} {s t : Server} {e : Event}

-- The worker has read a message and not yet counted it.
def WorkerPc.Holding : WorkerPc → Prop
  | .score _ _ | .endRead _ _ | .loadCount _ _ | .storeCount _ _ _ => True
  | _ => False

-- From the return of `dopause_all` to the call of `unpause_all`.
def MasterPc.Paused : MasterPc → Prop
  | .scan _ _ _ | .readSlot _ _ _ | .clearCount _ _ _ | .unpauseAll _ _ => True
  | _ => False

-- Between two phases, and in a phase before its sending starts.
def MasterPc.Unsent : MasterPc → Prop
  | .phaseReturn _ _ | .requests | .initScoreboard _ _ | .collect _ _ | .begWrite _ _ => True
  | _ => False

instance : DecidablePred WorkerPc.Holding := fun pc => by
  cases pc <;> first | exact isTrue trivial | exact isFalse id

instance : DecidablePred MasterPc.Paused := fun pc => by
  cases pc <;> first | exact isTrue trivial | exact isFalse id

instance : DecidablePred MasterPc.Unsent := fun pc => by
  cases pc <;> first | exact isTrue trivial | exact isFalse id

def Event.byWorker : Event → Option Nat
  | .worker w | .begRead w _ _ | .endRead w _ | .timeEnd w _ | .delete w _ => some w
  | _ => none

theorem workerStep_of_byWorker {w : Nat} (he : e.byWorker = some w)
    (hs : s.step cfg e = some t) : w < cfg.threadCount ∧ WorkerStep cfg s w e t := by
  rcases step_cases hs with hm | ⟨v, hv, hm⟩
  · cases hm <;> simp [Event.byWorker] at he
  · have hvw : v = w := by
      cases hm <;> simpa [Event.byWorker] using he
    subst hvw
    exact ⟨hv, hm⟩

-- The pause finds no worker with a message, and until the sending of the next phase
-- starts no worker that is still in a pass reads another.
structure Quiet (cfg : Config) (s : Server) (e : Event) : Prop where
  idle : e = .master → ∀ ph, s.master = .dopauseAll ph →
    ∀ w < cfg.threadCount, ¬(s.workers w).pc.Holding
  silent : ∀ w i p, e = .begRead w i (.data p) → ¬s.master.Paused ∧ ¬s.master.Unsent

def MasterPc.cleared (cfg : Config) : MasterPc → Nat
  | .clearCount _ i _ => i
  | .unpauseAll _ _ | .phaseReturn _ _ | .requests | .initScoreboard _ _ | .collect _ _
  | .begWrite _ _ => cfg.threadCount
  | _ => 0

structure Barrier (cfg : Config) (s : Server) : Prop where
  idle : s.master.Paused ∨ s.master.Unsent → ∀ w < cfg.threadCount, ¬(s.workers w).pc.Holding
  cleared : ∀ w < s.master.cleared cfg, w < cfg.threadCount → s.votesCount w = 0

-- A worker with no message in its hands changes no slot and raises no counter, and has
-- none after its step unless it read one.
theorem WorkerStep.idle {w : Nat} (h : WorkerStep cfg s w e t)
    (hidle : ¬(s.workers w).pc.Holding) :
    t.votesScoreboard = s.votesScoreboard ∧
    (∀ v, t.votesCount v = s.votesCount v ∨ t.votesCount v = 0) ∧
    ((∃ i p, e = .begRead w i (.data p)) ∨ ¬(t.workers w).pc.Holding) := by
  cases h with
  | outOfRange hpc _ => exact absurd (by simp [hpc, WorkerPc.Holding]) hidle
  | score hpc _ _ => exact absurd (by simp [hpc, WorkerPc.Holding]) hidle
  | endRead hpc => exact absurd (by simp [hpc, WorkerPc.Holding]) hidle
  | loadCount hpc => exact absurd (by simp [hpc, WorkerPc.Holding]) hidle
  | storeCount hpc => exact absurd (by simp [hpc, WorkerPc.Holding]) hidle
  | clearCount hpc =>
      refine ⟨rfl, fun v => ?_, .inr (by simp [Server.setWorker, WorkerPc.Holding])⟩
      by_cases hv : v = w
      · subst hv
        exact .inr (by simp [Server.setWorker])
      · exact .inl (by simp [Server.setWorker, hv])
  | @begRead i r pc hpc _ hr =>
      refine ⟨rfl, fun _ => .inl rfl, ?_⟩
      cases r with
      | data p => exact .inl ⟨i, p, rfl⟩
      | unset => simp [Server.afterBegRead] at hr
      | eagain =>
          simp only [Server.afterBegRead, Option.some.injEq] at hr
          exact .inr (by simp [Server.setWorker, ← hr, WorkerPc.Holding])
      | efin =>
          simp only [Server.afterBegRead, Option.some.injEq] at hr
          exact .inr (by simp [Server.setWorker, ← hr, WorkerPc.Holding])
  | timeEnd hpc =>
      refine ⟨rfl, fun _ => .inl rfl, .inr ?_⟩
      simp only [Server.record, Function.update_self]
      split <;> exact id
  | _ => exact ⟨rfl, fun _ => .inl rfl, .inr (by simp [Server.setWorker, WorkerPc.Holding])⟩

private theorem Barrier.workerStep {w : Nat} (h : Barrier cfg s) (hok : Quiet cfg s e)
    (hw : w < cfg.threadCount) (hs : WorkerStep cfg s w e t) : Barrier cfg t := by
  obtain ⟨hmaster, -⟩ := hs.frame
  by_cases hregion : s.master.Paused ∨ s.master.Unsent
  · obtain ⟨-, hcount, hnext⟩ := hs.idle (h.idle hregion w hw)
    constructor
    · intro _ v hv
      by_cases hvw : v = w
      · subst hvw
        refine hnext.resolve_left ?_
        rintro ⟨i, p, rfl⟩
        have hsilent := hok.silent v i p rfl
        tauto
      · rw [hs.workers_ne hvw]
        exact h.idle hregion v hv
    · intro v hv hvt
      rw [hmaster] at hv
      rcases hcount v with heq | hz
      · rw [heq]
        exact h.cleared v hv hvt
      · exact hz
  · constructor
    · intro hr
      rw [hmaster] at hr
      contradiction
    · intro v hv
      rw [hmaster] at hv
      cases hpc : s.master <;>
        simp_all [MasterPc.cleared, MasterPc.Paused, MasterPc.Unsent]

private theorem Barrier.move (h : Barrier cfg s) (hworkers : t.workers = s.workers)
    (hcount : t.votesCount = s.votesCount)
    (hregion : t.master.Paused ∨ t.master.Unsent → s.master.Paused ∨ s.master.Unsent)
    (hcleared : t.master.cleared cfg ≤ s.master.cleared cfg) : Barrier cfg t where
  idle := by
    intro hr
    rw [hworkers]
    exact h.idle (hregion hr)
  cleared := by
    intro w hw
    rw [hcount]
    exact h.cleared w (by omega)

private theorem Barrier.masterStep (h : Barrier cfg s) (hok : Quiet cfg s e)
    (hs : MasterStep cfg s e t) : Barrier cfg t := by
  cases hs with
  | @pause ph hpc =>
      exact {
        idle := fun _ => hok.idle rfl ph hpc
        cleared := by simp [MasterPc.cleared] }
  | @clearNext ph i r hpc hi =>
      refine ⟨fun _ => h.idle (by simp [hpc, MasterPc.Paused]), ?_⟩
      intro w hw hwt
      simp only [MasterPc.cleared] at hw
      by_cases hwi : w = i
      · simp [hwi]
      · have hzero := h.cleared w (by simp only [hpc, MasterPc.cleared]; omega) hwt
        simpa [hwi] using hzero
  | cleared hpc hi =>
      refine ⟨fun _ => h.idle (by simp [hpc, MasterPc.Paused]), ?_⟩
      intro w _ hwt
      exact h.cleared w (by simp only [hpc, MasterPc.cleared]; omega) hwt
  | @startPhase ph i hpc _ =>
      have hidle := h.idle (by simp [hpc, MasterPc.Unsent])
      have hzero : ∀ w < cfg.threadCount, s.votesCount w = 0 :=
        fun w hw => h.cleared w (by simpa [hpc, MasterPc.cleared] using hw) hw
      have hframe : (s.startPhase cfg ph).workers = s.workers ∧
          (s.startPhase cfg ph).votesCount = s.votesCount := by
        unfold Server.startPhase Server.sendRequest
        split <;> (try split) <;> exact ⟨rfl, rfl⟩
      constructor
      · intro _
        rw [hframe.1]
        exact hidle
      · intro w _ hw
        rw [hframe.2]
        exact hzero w hw
  | @phaseReturn ph status hpc =>
      have hidle := h.idle (by simp [hpc, MasterPc.Unsent])
      have hzero : ∀ w < cfg.threadCount, s.votesCount w = 0 :=
        fun w hw => h.cleared w (by simpa [hpc, MasterPc.cleared] using hw) hw
      have hframe : (s.afterPhase ph status).workers = s.workers ∧
          (s.afterPhase ph status).votesCount = s.votesCount := by
        unfold Server.afterPhase
        split <;> exact ⟨rfl, rfl⟩
      constructor
      · intro _
        rw [hframe.1]
        exact hidle
      · intro w _ hw
        rw [hframe.2]
        exact hzero w hw
  | @endWriteRet ph i r hpc =>
      have hout : ¬((s.endWriteRet cfg ph i r).master.Paused ∨
          (s.endWriteRet cfg ph i r).master.Unsent) := by
        unfold Server.endWriteRet
        split <;> (try split) <;> (try split) <;>
          simp [Server.setMaster, Server.term, MasterPc.Paused, MasterPc.Unsent]
      have hcleared : (s.endWriteRet cfg ph i r).master.cleared cfg = 0 := by
        unfold Server.endWriteRet
        split <;> (try split) <;> (try split) <;> rfl
      exact ⟨fun hr => absurd hr hout, fun w hw => by omega⟩
  | _ =>
      refine h.move rfl rfl ?_ ?_ <;>
        simp [*, Server.setMaster, Server.term, MasterPc.Paused, MasterPc.Unsent,
          MasterPc.cleared]

-- In every run in which the pause finds the workers idle and they read nothing until
-- the sending of the next phase starts, no worker changes a slot or raises a counter
-- during the pause, and all counters are 0 when the sending starts.
theorem pause_barrier (h : (serverMachine cfg).Reachable (Quiet cfg) s) :
    (s.master.Paused → ∀ w e t, e.byWorker = some w → s.step cfg e = some t →
      t.votesScoreboard = s.votesScoreboard ∧ ∀ v, t.votesCount v ≤ s.votesCount v) ∧
    (s.master.Unsent → ∀ w < cfg.threadCount, s.votesCount w = 0) := by
  have hbarrier : Barrier cfg s := by
    apply h.invariant (P := Barrier cfg)
    · exact ⟨fun _ w _ => by simp [serverMachine, Server.init, WorkerPc.Holding], fun w _ _ => rfl⟩
    · intro s e t _ ih hok hs
      rcases step_cases hs with hm | ⟨w, hw, hm⟩
      · exact ih.masterStep hok hm
      · exact ih.workerStep hok hw hm
  constructor
  · intro hpaused w e t he hs
    obtain ⟨hw, hstep⟩ := workerStep_of_byWorker he hs
    obtain ⟨hslots, hcount, -⟩ := hstep.idle (hbarrier.idle (.inl hpaused) w hw)
    refine ⟨hslots, fun v => ?_⟩
    have := hcount v
    omega
  · intro hunsent w hw
    refine hbarrier.cleared w ?_ hw
    cases hpc : s.master <;> simp_all [MasterPc.cleared, MasterPc.Unsent]

-- One client votes and the master is in the pause that follows.
def quietEvents : List Event :=
  [.master, .master, .master, .master, .begWrite 0 ⟨requestMsg .request 0, 0⟩, .master, .master,
    .master, .endWrite 0, .endWriteRet 0 .enone, .master, .master, .worker 0, .worker 0,
    .begRead 0 0 (.data ⟨⟨.voteYes, 1, 0, 0, 0⟩, 0⟩), .worker 0, .endRead 0 0, .worker 0,
    .worker 0, .timeEnd 0 0, .worker 0, .clock false, .master, .master, .master]

theorem pause_barrier_one : ∃ s : Server,
    (serverMachine (.oneThread .tcpLn 1 100 1)).Reachable (Quiet (.oneThread .tcpLn 1 100 1)) s ∧
    s.master.Paused ∧
    (s.master.Paused → ∀ w e t, e.byWorker = some w →
      s.step (.oneThread .tcpLn 1 100 1) e = some t →
      t.votesScoreboard = s.votesScoreboard ∧ ∀ v, t.votesCount v ≤ s.votesCount v) ∧
    (s.master.Unsent → ∀ w < 1, s.votesCount w = 0) := by
  obtain ⟨s, hrun, hs⟩ := Machine.exists_run_of_eval (serverMachine (.oneThread .tcpLn 1 100 1))
    (fun s e => (e = .master → ¬(s.workers 0).pc.Holding) ∧
      (e.byWorker ≠ none → ¬s.master.Paused ∧ ¬s.master.Unsent))
    quietEvents (fun s => decide s.master.Paused) (by decide +kernel)
  have hquiet : (serverMachine (.oneThread .tcpLn 1 100 1)).Run
      (Quiet (.oneThread .tcpLn 1 100 1)) quietEvents s := by
    refine hrun.mono fun s e hok => ⟨?_, ?_⟩
    · intro he _ _ w hw
      obtain rfl : w = 0 := Nat.lt_one_iff.mp hw
      exact hok.1 he
    · intro w i p he
      exact hok.2 (by simp [he, Event.byWorker])
  exact ⟨s, hquiet.reachable, of_decide_eq_true hs, pause_barrier hquiet.reachable⟩

-- A worker has read the vote of the only client when the wait for votes times out. It
-- scores it and counts it during the pause.
def lateVoteEvents : List SysEvent :=
  .server .master :: sendEvents 1 .phase1 0 ++ answerEvents [0] ++
  [.server (.worker 0), .server (.worker 0),
    .server (.begRead 0 0 (.data ⟨⟨.voteYes, 1, 0, 0, 0⟩, 0⟩)), .server (.clock true),
    .server .master]

def lateCountEvents : List SysEvent :=
  lateVoteEvents ++ [.server (.worker 0), .server (.endRead 0 0), .server (.worker 0)] ++
  .replicate 5 (.server .master) ++ .server (.worker 0) :: .replicate 4 (.server .master)

-- A slot changes during the pause, and phase 2 starts with a vote counted.
theorem pause_broken : ∃ (C : Cluster) (s t u : System), C.cfg.transType = .tcpLn ∧
    (systemMachine C).Reachable (fun _ e => e.reliable) s ∧ s.srv.master.Paused ∧
    s.step C (.server (.worker 0)) = some t ∧
    t.srv.votesScoreboard 0 ≠ s.srv.votesScoreboard 0 ∧
    (systemMachine C).Reachable (fun _ e => e.reliable) u ∧
    u.srv.master = .collect (.phase2 .requestSuccess) 0 ∧ u.srv.votesCount 0 = 1 := by
  let C : Cluster := .oneThread .tcpLn 1 100 1 (by decide) (by decide)
  obtain ⟨s, hrun, hs⟩ := Machine.exists_run_of_eval (systemMachine C) (fun _ e => e.reliable)
    lateVoteEvents (fun s => decide s.srv.master.Paused &&
      (s.step C (.server (.worker 0))).any fun t =>
        t.srv.votesScoreboard 0 != s.srv.votesScoreboard 0) (by decide +kernel)
  obtain ⟨u, hrun', hu⟩ := Machine.exists_run_of_eval (systemMachine C) (fun _ e => e.reliable)
    lateCountEvents (fun u => decide (u.srv.master = .collect (.phase2 .requestSuccess) 0 ∧
      u.srv.votesCount 0 = 1)) (by decide +kernel)
  simp only [Bool.and_eq_true, decide_eq_true_eq, Option.any_eq_true, bne_iff_ne] at hs
  obtain ⟨hpaused, t, hstep, hne⟩ := hs
  exact ⟨C, s, t, u, rfl, hrun.reachable, hpaused, hstep, hne, hrun'.reachable,
    of_decide_eq_true hu⟩

end Q2pc
