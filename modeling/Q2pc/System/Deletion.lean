import Q2pc.System.Safety

namespace Q2pc

open Function (update)

variable {cfg : Config} {s t : Server} {e : Event} {es : List Event}

def Event.writesOn : Event → Option Nat
  | .begWrite i _ | .endWrite i => some i
  | _ => none

def WorkerPc.Past (pc : WorkerPc) (i : Nat) : Prop :=
  match pc with
  | .delete j => i < j
  | .exited => True
  | _ => False

-- The master calls nothing on a connection that is deleted.
def LiveCalls (s : Server) (e : Event) : Prop :=
  ∀ i, e.writesOn = some i → s.deleted i = false

-- The connection of the call that comes next, past the last test of the stop signal.
def MasterPc.pending : MasterPc → Option Nat
  | .begWrite _ i | .endWrite _ i => some i
  | _ => none

-- The phases whose message is sent: `do_phase2` calls `send_request` for two statuses.
def Phase.Sends : Phase → Prop
  | .phase1 | .phase2 .requestSuccess | .phase2 .requestFail => True
  | .phase2 _ => False

-- The master is about to enter the broadcast of `send_request`, which tests no signal.
def MasterPc.Broadcasts (cfg : Config) : MasterPc → Prop
  | .initScoreboard ph i => cfg.transType = .udpQj ∧ cfg.clientCount ≤ i ∧ ph.Sends
  | _ => False

-- No worker deletes a connection between the master's test of the stop signal for it and
-- the call, and the connection of a broadcast is there when the master enters it.
def DeletesClear (cfg : Config) (s : Server) : Event → Prop
  | .delete _ i => s.master.pending ≠ some i
  | .master => s.master.Broadcasts cfg → s.deleted 0 = false
  | _ => True

instance : DecidablePred Phase.Sends := fun ph => by
  unfold Phase.Sends
  split <;> infer_instance

instance (cfg : Config) : DecidablePred (MasterPc.Broadcasts cfg)
  | .initScoreboard ph i =>
      inferInstanceAs (Decidable (cfg.transType = .udpQj ∧ cfg.clientCount ≤ i ∧ ph.Sends))
  | .requests | .collect _ _ | .begWrite _ _ | .sendAll _ | .sendConn _ _ | .endWrite _ _
  | .inEndWrite _ _ | .poll _ | .sumVotes _ _ _ | .dopauseAll _ | .scan _ _ _ | .readSlot _ _ _
  | .clearCount _ _ _ | .unpauseAll _ _ | .phaseReturn _ _ | .terminated => isFalse id

instance (cfg : Config) (s : Server) (e : Event) : Decidable (DeletesClear cfg s e) := by
  unfold DeletesClear
  split <;> infer_instance

-- The deleted connections are those the workers have got past, and no worker leaves
-- its loop before the stop signal is raised.
structure Cleanup (cfg : Config) (s : Server) : Prop where
  deleted : ∀ i, s.deleted i = true ↔
    ∃ w < cfg.threadCount, cfg.lo w ≤ i ∧ i < cfg.hi w ∧ (s.workers w).pc.Past i
  position : ∀ w j, (s.workers w).pc = .delete j → cfg.lo w ≤ j ∧ s.stopSignal = true
  exited : ∀ w, (s.workers w).pc = .exited → s.stopSignal = true

private theorem Cleanup.masterStep (h : Cleanup cfg s) (hs : MasterStep cfg s e t) :
    Cleanup cfg t := by
  obtain ⟨hworkers, hdeleted, hstop⟩ := hs.frame
  constructor
  · intro i
    rw [hdeleted, hworkers]
    exact h.deleted i
  · intro w j hpc
    rw [hworkers] at hpc
    exact ⟨(h.position w j hpc).1, hstop (h.position w j hpc).2⟩
  · intro w hpc
    rw [hworkers] at hpc
    exact hstop (h.exited w hpc)

private theorem Cleanup.loopStep {w : Nat} {x : Worker} (h : Cleanup cfg s)
    (hworkers : t.workers = update s.workers w x) (hdeleted : t.deleted = s.deleted)
    (hstop : s.stopSignal = true → t.stopSignal = true)
    (hpast : ∀ i, cfg.lo w ≤ i → i < cfg.hi w → (x.pc.Past i ↔ (s.workers w).pc.Past i))
    (hpos : ∀ j, x.pc = .delete j → cfg.lo w ≤ j ∧ t.stopSignal = true)
    (hexit : x.pc = .exited → t.stopSignal = true) : Cleanup cfg t := by
  constructor
  · intro i
    rw [hdeleted, h.deleted i, hworkers]
    constructor
    · rintro ⟨v, hv, hlo, hhi, hvp⟩
      refine ⟨v, hv, hlo, hhi, ?_⟩
      by_cases hvw : v = w
      · subst hvw
        simpa using (hpast i hlo hhi).mpr hvp
      · simpa [hvw] using hvp
    · rintro ⟨v, hv, hlo, hhi, hvp⟩
      refine ⟨v, hv, hlo, hhi, ?_⟩
      by_cases hvw : v = w
      · subst hvw
        exact (hpast i hlo hhi).mp (by simpa using hvp)
      · simpa [hvw] using hvp
  · intro v j hpc
    by_cases hvw : v = w
    · subst hvw
      exact hpos j (by simpa [hworkers] using hpc)
    · have hat := h.position v j (by simpa [hworkers, hvw] using hpc)
      exact ⟨hat.1, hstop hat.2⟩
  · intro v hpc
    by_cases hvw : v = w
    · subst hvw
      exact hexit (by simpa [hworkers] using hpc)
    · exact hstop (h.exited v (by simpa [hworkers, hvw] using hpc))

private theorem Cleanup.delete {w j : Nat} (h : Cleanup cfg s) (hw : w < cfg.threadCount)
    (hpc : (s.workers w).pc = .delete j) (hj : j < cfg.hi w) :
    Cleanup cfg ({ s with deleted := update s.deleted j true }.setWorker w (.delete (j + 1))) := by
  obtain ⟨hlo, hstop⟩ := h.position w j hpc
  constructor
  · intro i
    by_cases hij : i = j
    · subst hij
      simp only [Server.setWorker, Function.update_self, true_iff]
      exact ⟨w, hw, hlo, hj, by simp [WorkerPc.Past]⟩
    · have hiff := h.deleted i
      simp only [Server.setWorker, ne_eq, hij, not_false_eq_true, Function.update_of_ne, hiff]
      constructor
      · rintro ⟨v, hv, hvlo, hvhi, hvp⟩
        refine ⟨v, hv, hvlo, hvhi, ?_⟩
        by_cases hvw : v = w
        · subst hvw
          simp only [hpc, WorkerPc.Past] at hvp
          simp only [Function.update_self, WorkerPc.Past]
          omega
        · simpa [hvw] using hvp
      · rintro ⟨v, hv, hvlo, hvhi, hvp⟩
        refine ⟨v, hv, hvlo, hvhi, ?_⟩
        by_cases hvw : v = w
        · subst hvw
          simp only [Function.update_self, WorkerPc.Past] at hvp
          simp only [hpc, WorkerPc.Past]
          omega
        · simpa [hvw] using hvp
  · intro v k hvpc
    by_cases hvw : v = w
    · subst hvw
      simp only [Server.setWorker, Function.update_self, WorkerPc.delete.injEq] at hvpc
      exact ⟨by omega, hstop⟩
    · exact h.position v k (by simpa [Server.setWorker, hvw] using hvpc)
  · intro v hvpc
    by_cases hvw : v = w
    · subst hvw
      simp [Server.setWorker] at hvpc
    · exact h.exited v (by simpa [Server.setWorker, hvw] using hvpc)

private theorem Cleanup.workerStep {w : Nat} (h : Cleanup cfg s) (hw : w < cfg.threadCount)
    (hs : WorkerStep cfg s w e t) : Cleanup cfg t := by
  cases hs with
  | leave hpc hstop =>
      refine h.loopStep rfl rfl id ?_ ?_ (by simp)
      · intro i hlo _
        simp only [hpc, WorkerPc.Past, iff_false]
        omega
      · intro j hj
        simp only [WorkerPc.delete.injEq] at hj
        exact ⟨by omega, hstop⟩
  | exit hpc hi =>
      have hstop := (h.position w _ hpc).2
      refine h.loopStep rfl rfl id ?_ (by simp) (fun _ => hstop)
      intro j _ hhi
      simp only [hpc, WorkerPc.Past, true_iff]
      omega
  | delete hpc hi => exact h.delete hw hpc hi
  | timeEnd hpc =>
      refine h.loopStep rfl rfl id ?_ ?_ ?_
      · intro i _ _
        dsimp only
        split <;> simp [hpc, WorkerPc.Past]
      · intro j
        dsimp only
        split <;> simp
      · dsimp only
        split <;> simp
  | @begRead i r pc hpc _ hr =>
      cases r <;> simp only [Server.afterBegRead, Option.some.injEq, reduceCtorEq] at hr <;>
        subst hr <;>
        exact h.loopStep rfl rfl id (by simp [hpc, WorkerPc.Past]) (by simp) (by simp)
  | raiseStop hpc =>
      exact h.loopStep rfl rfl (fun _ => rfl) (by simp [hpc, WorkerPc.Past]) (by simp) (by simp)
  | stay hpc | paused hpc | startPass hpc | clearCount hpc | endPass hpc | outOfRange hpc
  | score hpc | loadCount hpc | storeCount hpc | endRead hpc =>
      exact h.loopStep rfl rfl id (by simp [hpc, WorkerPc.Past]) (by simp) (by simp)

theorem cleanup_of_run (h : (serverMachine cfg).Run Machine.always es s) : Cleanup cfg s := by
  apply h.reachable.invariant (P := Cleanup cfg)
  · constructor
    · intro i
      simp [serverMachine, Server.init, WorkerPc.Past]
    · intro w j hpc
      simp [serverMachine, Server.init] at hpc
    · intro w hpc
      simp [serverMachine, Server.init] at hpc
  · intro s e t _ ih _ hs
    rcases step_cases hs with hm | ⟨w, hw, hm⟩
    · exact ih.masterStep hm
    · exact ih.workerStep hw hm

private theorem Cleanup.not_deleted (h : Cleanup cfg s) (hstop : s.stopSignal = false) (i : Nat) :
    s.deleted i = false := by
  cases hdeleted : s.deleted i with
  | false => rfl
  | true =>
      obtain ⟨w, -, -, -, hpast⟩ := (h.deleted i).mp hdeleted
      cases hpc : (s.workers w).pc with
      | delete j =>
          have hraised := (h.position w j hpc).2
          simp [hstop] at hraised
      | exited =>
          have hraised := h.exited w hpc
          simp [hstop] at hraised
      | _ => simp [hpc, WorkerPc.Past] at hpast

def Server.LiveNext (s : Server) : Prop := ∀ i, s.master.pending = some i → s.deleted i = false

private theorem liveNext_iff :
    s.LiveNext ↔ ∀ e, (s.step cfg e).isSome → LiveCalls s e := by
  constructor
  · intro h e hs i hi
    obtain ⟨t, ht⟩ := Option.isSome_iff_exists.mp hs
    rcases step_cases ht with hm | ⟨w, -, hm⟩
    · cases hm with
      | broadcastBegWrite hpc | begWrite hpc | endWrite hpc =>
          obtain rfl := Option.some.inj hi
          exact h _ (by rw [hpc]; rfl)
      | _ => contradiction
    · cases hm <;> contradiction
  · intro h i hi
    cases hpc : s.master with
    | begWrite ph j =>
        obtain rfl : j = i := by simpa [hpc, MasterPc.pending] using hi
        refine h (.begWrite j ⟨requestMsg ph.msgType 0, s.stage ph⟩) ?_ j rfl
        by_cases hqj : cfg.transType = .udpQj <;> simp [Server.step, hpc, requestMsg, hqj]
    | endWrite ph j =>
        obtain rfl : j = i := by simpa [hpc, MasterPc.pending] using hi
        exact h (.endWrite j) (by simp [Server.step, hpc]) j rfl
    | _ => simp [hpc, MasterPc.pending] at hi

private theorem pending_startPhase {ph : Phase} {i j : Nat} (hpc : s.master = .initScoreboard ph j)
    (hj : cfg.clientCount ≤ j) (hi : (s.startPhase cfg ph).master.pending = some i) :
    s.master.Broadcasts cfg ∧ i = 0 := by
  have hsend : ∀ ph, (s.sendRequest cfg ph).master.pending = some i →
      cfg.transType = .udpQj ∧ i = 0 := by
    intro ph hi
    unfold Server.sendRequest at hi
    split at hi
    next hqj => exact ⟨hqj, (Option.some.inj hi).symm⟩
    next => contradiction
  simp only [hpc, MasterPc.Broadcasts]
  unfold Server.startPhase at hi
  split at hi
  · exact ⟨⟨(hsend _ hi).1, hj, trivial⟩, (hsend _ hi).2⟩
  · exact ⟨⟨(hsend _ hi).1, hj, trivial⟩, (hsend _ hi).2⟩
  · exact ⟨⟨(hsend _ hi).1, hj, trivial⟩, (hsend _ hi).2⟩
  · contradiction
  · contradiction

private theorem pending_eq_none {pc : MasterPc} (h : pc.callee = none) : pc.pending = none := by
  cases pc <;> simp [MasterPc.pending, MasterPc.callee] at h ⊢

-- The master tests the stop signal before a call, or follows one of the broadcast.
private theorem pending_of_masterStep {i : Nat} (hs : MasterStep cfg s e t)
    (hi : t.master.pending = some i) :
    s.stopSignal = false ∨ s.master.pending = some i ∨
      e = .master ∧ s.master.Broadcasts cfg ∧ i = 0 := by
  cases hs with
  | collectNext _ _ hstop | callConn _ _ hstop => exact .inl hstop
  | broadcastBegWrite hpc =>
      obtain rfl := Option.some.inj hi
      exact .inr (.inl (by rw [hpc]; rfl))
  | startPhase hpc hj => exact .inr (.inr ⟨rfl, pending_startPhase hpc hj hi⟩)
  | phaseReturn => simp [pending_eq_none (Server.callee_afterPhase ..)] at hi
  | endWriteRet => simp [pending_eq_none (Server.callee_endWriteRet ..)] at hi
  | _ => contradiction

private theorem WorkerStep.deleted_eq {w : Nat} (hs : WorkerStep cfg s w e t) :
    t.deleted = s.deleted ∨ ∃ i, e = .delete w i ∧ t.deleted = update s.deleted i true := by
  cases hs with
  | delete => exact .inr ⟨_, rfl, rfl⟩
  | _ => exact .inl rfl

private theorem Server.LiveNext.step (h : s.LiveNext) (hcleanup : Cleanup cfg s)
    (hok : DeletesClear cfg s e) (hs : s.step cfg e = some t) : t.LiveNext := by
  intro i hi
  rcases step_cases hs with hm | ⟨w, -, hm⟩
  · rw [hm.frame.2.1]
    rcases pending_of_masterStep hm hi with hstop | hpending | ⟨rfl, hbroadcasts, rfl⟩
    · exact hcleanup.not_deleted hstop i
    · exact h i hpending
    · exact hok hbroadcasts
  · rw [hm.frame.1] at hi
    rcases hm.deleted_eq with hsame | ⟨j, rfl, hdeleted⟩
    · rw [hsame]
      exact h i hi
    · have hij : i ≠ j := by
        rintro rfl
        exact hok hi
      rw [hdeleted, Function.update_of_ne hij]
      exact h i hi

private theorem Server.LiveNext.of_step (h : t.LiveNext) (hlive : LiveCalls s e)
    (hs : s.step cfg e = some t) : s.LiveNext ∧ DeletesClear cfg s e := by
  rcases step_cases hs with hm | ⟨w, -, hm⟩
  · have hdeleted := hm.frame.2.1
    cases hm with
    | broadcastBegWrite hpc | begWrite hpc | endWrite hpc =>
        refine ⟨fun i hi => ?_, trivial⟩
        rw [hpc] at hi
        exact hlive i hi
    | @startPhase ph j hpc hj =>
        refine ⟨fun i hi => by simp [hpc, MasterPc.pending] at hi, fun hbroadcasts => ?_⟩
        rw [← hdeleted]
        refine h 0 ?_
        simp only [hpc, MasterPc.Broadcasts] at hbroadcasts
        obtain ⟨hqj, -, hsends⟩ := hbroadcasts
        unfold Phase.Sends at hsends
        split at hsends
        · simp [Server.startPhase, Server.sendRequest, hqj, Server.setMaster, MasterPc.pending]
        · simp [Server.startPhase, Server.sendRequest, hqj, Server.setMaster, MasterPc.pending]
        · simp [Server.startPhase, Server.sendRequest, hqj, Server.setMaster, MasterPc.pending]
        · exact hsends.elim
    | @initSlot ph j hpc hj =>
        refine ⟨fun i hi => by simp [hpc, MasterPc.pending] at hi, fun hbroadcasts => ?_⟩
        simp only [hpc, MasterPc.Broadcasts] at hbroadcasts
        omega
    | finish hpc | startRound hpc | collectNext hpc | collected hpc | sendPass hpc | sent hpc
    | skipConn hpc | callConn hpc | passDone hpc | sumNext hpc | sumEnough hpc | sumShort hpc
    | pause hpc | scanNext hpc | scanned hpc | readSlot hpc | badSlot hpc | clearNext hpc
    | cleared hpc | unpause hpc | badStatus hpc | phaseReturn hpc | expired hpc | notExpired hpc
    | endWriteRet hpc =>
        refine ⟨fun i hi => by simp [hpc, MasterPc.pending] at hi, ?_⟩
        simp [DeletesClear, hpc, MasterPc.Broadcasts]
  · have hmaster := hm.frame.1
    refine ⟨fun i hi => ?_, ?_⟩
    · have hthere := h i (by rw [hmaster, hi])
      rcases hm.deleted_eq with hsame | ⟨j, rfl, hdeleted⟩
      · rwa [← hsame]
      · rw [hdeleted] at hthere
        by_cases hij : i = j
        · simp [hij] at hthere
        · rwa [Function.update_of_ne hij] at hthere
    · cases hm with
      | delete hpc hj =>
          intro hpending
          have hthere := h _ (by rw [hmaster, hpending])
          simp [Server.setWorker] at hthere
      | _ => trivial

private theorem liveNext_of_run (h : (serverMachine cfg).Run (DeletesClear cfg) es s) :
    s.LiveNext := by
  induction h with
  | nil =>
      intro i hi
      contradiction
  | snoc hrun hok hs ih =>
      exact ih.step (cleanup_of_run (hrun.mono fun _ _ _ => trivial)) hok hs

private theorem deletesClear_of_run (h : (serverMachine cfg).Run LiveCalls es s)
    (hnext : s.LiveNext) : (serverMachine cfg).Run (DeletesClear cfg) es s := by
  induction h with
  | nil => exact .nil
  | snoc hrun hlive hs ih =>
      obtain ⟨hprev, hok⟩ := hnext.of_step hlive hs
      exact .snoc (ih hprev) hok hs

-- A run calls nothing on a deleted connection, nor can its next call, if and only if no
-- connection is deleted between the master's test of the stop signal and its call, or before
-- a broadcast on it. None is deleted before the stop signal is raised.
theorem live_calls_iff :
    ((serverMachine cfg).Run (DeletesClear cfg) es s ↔
      (serverMachine cfg).Run LiveCalls es s ∧ ∀ e, (s.step cfg e).isSome → LiveCalls s e) ∧
    ((serverMachine cfg).Run Machine.always es s → s.stopSignal = false →
      ∀ i, s.deleted i = false) := by
  refine ⟨⟨fun hrun => ⟨?_, ?_⟩, fun ⟨hrun, hnext⟩ => ?_⟩, fun hrun hstop i => ?_⟩
  · refine hrun.imp_run fun es s e t hrun hs _ => ?_
    exact liveNext_iff.mp (liveNext_of_run hrun) e (Option.isSome_iff_exists.mpr ⟨t, hs⟩)
  · exact liveNext_iff.mp (liveNext_of_run hrun)
  · exact deletesClear_of_run hrun (liveNext_iff.mpr hnext)
  · exact (cleanup_of_run hrun).not_deleted hstop i

-- The connection is deleted while the master waits for the vote of its client. The scan is
-- cut, and send_request of phase 2 makes no call.
def clearDeleteEvents : List Event :=
  .replicate 4 .master ++ .begWrite 0 ⟨requestMsg .request 0, 0⟩ :: .replicate 3 .master ++
  [.endWrite 0, .endWriteRet 0 .enone, .master, .master, .worker 0, .worker 0,
    .begRead 0 0 .efin, .worker 0, .worker 0, .delete 0 0, .clock true] ++ .replicate 10 .master

theorem live_calls_iff_cut : ∃ s : Server,
    (serverMachine (.oneThread .tcpLn 1 100 1)).Run
      (DeletesClear (.oneThread .tcpLn 1 100 1)) clearDeleteEvents s ∧
    (s.deleted 0 = true ∧ s.master = .poll (.phase2 .requestSuccess)) ∧
    (serverMachine (.oneThread .tcpLn 1 100 1)).Run LiveCalls clearDeleteEvents s := by
  obtain ⟨s, hrun, hs⟩ := Machine.exists_run_of_eval (serverMachine (.oneThread .tcpLn 1 100 1))
    (DeletesClear (.oneThread .tcpLn 1 100 1)) clearDeleteEvents
    (fun s => s.deleted 0 && s.master == .poll (.phase2 .requestSuccess)) (by decide +kernel)
  exact ⟨s, hrun, by simpa using hs, (live_calls_iff.1.mp hrun).1⟩

-- The stream ends between the test of the stop signal and the call of `end_write`.
def lateEndWriteEvents : List SysEvent :=
  .replicate 4 (.server .master) ++ .server (.begWrite 0 ⟨requestMsg .request 0, 0⟩) ::
  .replicate 3 (.server .master) ++
  [.server (.worker 0), .server (.worker 0), .server (.begRead 0 0 .efin), .server (.worker 0),
    .server (.worker 0), .server (.delete 0 0)]

-- Over Q-Jump the stream ends while the master waits for the votes, and the scan that
-- the signal cuts leads to the broadcast of phase 2.
def lateBroadcastEvents : List SysEvent :=
  .replicate 3 (.server .master) ++
  [.server (.begWrite 0 ⟨requestMsg .request 0, 0⟩), .server (.endWrite 0),
    .server (.endWriteRet 0 .enone), .server (.worker 0), .server (.worker 0),
    .server (.begRead 0 0 .efin), .server (.worker 0), .server (.worker 0),
    .server (.delete 0 0), .server (.clock true)] ++ .replicate 8 (.server .master)

-- The master calls `end_write`, and over Q-Jump `beg_write`, on a deleted connection.
theorem call_after_delete :
    (∃ (C : Cluster) (s : System), C.cfg.transType = .tcpLn ∧
      (systemMachine C).Reachable (fun _ e => e.reliable) s ∧ s.srv.deleted 0 = true ∧
      (s.step C (.server (.endWrite 0))).isSome = true) ∧
    (∃ (C : Cluster) (s : System), C.cfg.transType = .udpQj ∧
      (systemMachine C).Reachable (fun _ e => e.reliable) s ∧ s.srv.deleted 0 = true ∧
      (s.step C (.server (.begWrite 0 ⟨requestMsg .commit 0, 1⟩))).isSome = true) := by
  constructor
  · let C : Cluster := .oneThread .tcpLn 1 100 1 (by decide) (by decide)
    obtain ⟨s, hrun, hs⟩ := Machine.exists_run_of_eval (systemMachine C) (fun _ e => e.reliable)
      lateEndWriteEvents
      (fun s => s.srv.deleted 0 && (s.step C (.server (.endWrite 0))).isSome) (by decide +kernel)
    exact ⟨C, s, rfl, hrun.reachable, by simpa using hs⟩
  · let C : Cluster := .oneThread .udpQj 1 100 1 (by decide) (by decide)
    obtain ⟨s, hrun, hs⟩ := Machine.exists_run_of_eval (systemMachine C) (fun _ e => e.reliable)
      lateBroadcastEvents (fun s => s.srv.deleted 0 &&
        (s.step C (.server (.begWrite 0 ⟨requestMsg .commit 0, 1⟩))).isSome) (by decide +kernel)
    exact ⟨C, s, rfl, hrun.reachable, by simpa using hs⟩

end Q2pc
