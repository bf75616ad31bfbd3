import Q2pc.Server.Cases
import Q2pc.Tcp.Cluster

namespace Q2pc

open Function (update)

variable {cfg : Config} {s s' t : Server} {e : Event} {w i : Nat}

-- After `end_read` a worker has the message for its statistics only. Two servers are the same
-- but for these messages and for what the statistics hold.
inductive WorkerPc.Same : WorkerPc → WorkerPc → Prop
  | refl (pc : WorkerPc) : Same pc pc
  | loadCount (i : Nat) (p q : Packet) : Same (.loadCount i p) (.loadCount i q)
  | storeCount (i : Nat) (p q : Packet) (count : Nat) :
      Same (.storeCount i p count) (.storeCount i q count)
  | stats (i : Nat) (p q : Packet) : Same (.stats i p) (.stats i q)

structure Worker.Same (x y : Worker) : Prop where
  pc : x.pc.Same y.pc
  stats : x.stats.length = y.stats.length

def Server.withWorkers (s : Server) (workers : Nat → Worker) : Server := { s with workers }

def Server.Same (s t : Server) : Prop :=
  ∃ ws, t = s.withWorkers ws ∧ ∀ w, (s.workers w).Same (ws w)

theorem Server.Same.refl (s : Server) : s.Same s :=
  ⟨s.workers, rfl, fun _ => ⟨.refl _, rfl⟩⟩

private theorem startPhase_withWorkers (cfg : Config) (s : Server) (ph : Phase)
    (ws : Nat → Worker) :
    (s.withWorkers ws).startPhase cfg ph = (s.startPhase cfg ph).withWorkers ws := by
  have hsend : ∀ ph, (s.withWorkers ws).sendRequest cfg ph =
      (s.sendRequest cfg ph).withWorkers ws := by
    intro ph
    unfold Server.sendRequest
    split <;> rfl
  cases ph with
  | phase1 => exact hsend _
  | phase2 st => cases st <;> first | exact hsend _ | rfl

private theorem afterPhase_withWorkers (s : Server) (ph : Phase) (st : CommitStatus)
    (ws : Nat → Worker) :
    (s.withWorkers ws).afterPhase ph st = (s.afterPhase ph st).withWorkers ws := by
  cases ph with
  | phase1 => rfl
  | phase2 => cases st <;> rfl

private theorem endWriteRet_withWorkers (cfg : Config) (s : Server) (ph : Phase) (i : Nat)
    (r : Ret) (ws : Nat → Worker) :
    (s.withWorkers ws).endWriteRet cfg ph i r = (s.endWriteRet cfg ph i r).withWorkers ws := by
  unfold Server.endWriteRet
  split
  · rfl
  · cases r with
    | rtofired =>
        have hrto : (s.withWorkers ws).connRtofiredCount i = s.connRtofiredCount i := rfl
        simp only [hrto]
        split <;> rfl
    | eagain | enone | efin => rfl

private theorem loop_done {n : Nat} {stop : Bool} (h : n ≤ i ∨ stop = true) :
    ¬(i < n ∧ stop = false) := by
  rintro ⟨hlt, rfl⟩
  exact absurd (h.resolve_right (by simp)) (Nat.not_le.mpr hlt)

theorem MasterStep.withWorkers (hm : MasterStep cfg s e s') (hs : s.step cfg e = some s')
    (ws : Nat → Worker) : (s.withWorkers ws).step cfg e = some (s'.withWorkers ws) := by
  have hmaster : (s.withWorkers ws).master = s.master := rfl
  have hstop : (s.withWorkers ws).stopSignal = s.stopSignal := rfl
  have hslots : (s.withWorkers ws).votesScoreboard = s.votesScoreboard := rfl
  have hreq : (s.withWorkers ws).requests = s.requests := rfl
  have hcommited : (s.withWorkers ws).commited = s.commited := rfl
  have hrto : (s.withWorkers ws).connRtofiredCount = s.connRtofiredCount := rfl
  have hstage : ∀ ph, (s.withWorkers ws).stage ph = s.stage ph := fun ph => by cases ph <;> rfl
  simp only [Server.step]
  cases hm with
  | startRound hpc h =>
      simp only [Server.step, Server.masterStep, hpc, h, Bool.false_eq_true, if_false] at hs
      obtain ⟨b, hb, -⟩ := Option.map_eq_some_iff.mp hs
      simp only [Server.masterStep, hmaster, hpc, hstop, h, hreq, hb, Bool.false_eq_true, if_false]
      rfl
  | finish hpc h =>
      simp only [Server.masterStep, hmaster, hpc, hstop, h, if_true]
      rfl
  | startPhase hpc hi =>
      simp only [Server.masterStep, hmaster, hpc, if_neg (Nat.not_lt.mpr hi),
        startPhase_withWorkers]
  | phaseReturn hpc =>
      simp only [Server.masterStep, hmaster, hpc, afterPhase_withWorkers]
  | initSlot hpc hi | clearNext hpc hi | sumNext hpc hi =>
      simp only [Server.masterStep, hmaster, hpc, if_pos hi]
      rfl
  | cleared hpc hi =>
      simp only [Server.masterStep, hmaster, hpc, if_neg (Nat.not_lt.mpr hi)]
      rfl
  | collectNext hpc hi h | scanNext hpc hi h =>
      simp only [Server.masterStep, hmaster, hpc, hstop, if_pos (And.intro hi h)]
      rfl
  | collected hpc hi | scanned hpc hi | passDone hpc hi =>
      simp only [Server.masterStep, hmaster, hpc, hstop, if_neg (loop_done hi)]
      rfl
  | sendPass hpc hc h =>
      simp only [Server.masterStep, hmaster, hpc, hstop, hcommited, if_pos (And.intro hc h)]
      rfl
  | sent hpc hc =>
      simp only [Server.masterStep, hmaster, hpc, hstop, hcommited, if_neg (loop_done hc)]
      rfl
  | skipConn hpc hi h hneg =>
      simp only [Server.masterStep, hmaster, hpc, hstop, hrto, if_pos (And.intro hi h), if_pos hneg]
      rfl
  | callConn hpc hi h hge =>
      simp only [Server.masterStep, hmaster, hpc, hstop, hrto, if_pos (And.intro hi h),
        if_neg (Int.not_lt.mpr hge)]
      rfl
  | sumEnough hpc hi hv =>
      simp only [Server.masterStep, hmaster, hpc, if_neg (Nat.not_lt.mpr hi), if_pos hv]
      rfl
  | sumShort hpc hi hv =>
      simp only [Server.masterStep, hmaster, hpc, if_neg (Nat.not_lt.mpr hi),
        if_neg (Nat.not_le.mpr hv)]
      rfl
  | pause hpc =>
      simp only [Server.masterStep, hmaster, hpc]
      rfl
  | readSlot hpc hslot | badSlot hpc hslot =>
      simp only [Server.masterStep, hmaster, hpc, hslots, hslot]
      rfl
  | unpause hpc hst | badStatus hpc hst =>
      simp only [Server.masterStep, hmaster, hpc, hst]
      rfl
  | expired hpc | notExpired hpc =>
      simp only [hmaster, hpc]
      rfl
  | endWrite hpc =>
      simp only [hmaster, hpc, if_true]
      rfl
  | endWriteRet hpc =>
      simp only [hmaster, hpc, if_true, endWriteRet_withWorkers]
  | begWrite hpc hq | broadcastBegWrite hpc hq =>
      simp only [hmaster, hpc, hstage, requestMsg, and_self, if_true, hq, if_false]
      rfl

theorem WorkerPc.Same.eq {x y : WorkerPc} (h : x.Same y) (hload : ∀ i p, x ≠ .loadCount i p)
    (hstore : ∀ i p v, x ≠ .storeCount i p v) (hstats : ∀ i p, x ≠ .stats i p) : y = x := by
  cases h with
  | refl => rfl
  | loadCount => exact absurd rfl (hload _ _)
  | storeCount => exact absurd rfl (hstore _ _ _)
  | stats => exact absurd rfl (hstats _ _)

private theorem same_update {ws : Nat → Worker} {x y : Worker}
    (h : ∀ w, (s.workers w).Same (ws w)) (hxy : x.Same y) (v : Nat) :
    (update s.workers w x v).Same (update ws w y v) := by
  by_cases hv : v = w
  · subst hv
    rwa [Function.update_self, Function.update_self]
  · rw [Function.update_of_ne hv, Function.update_of_ne hv]
    exact h v

private theorem same_setWorker {ws : Nat → Worker} {pc pc' : WorkerPc}
    (h : ∀ w, (s.workers w).Same (ws w)) (hpc : pc.Same pc') :
    (s.setWorker w pc).Same ((s.withWorkers ws).setWorker w pc') :=
  ⟨_, rfl, same_update h ⟨hpc, (h w).stats⟩⟩

theorem Server.Same.step (h : s.Same t) (hs : s.step cfg e = some s') :
    ∃ t', t.step cfg e = some t' ∧ s'.Same t' := by
  obtain ⟨ws, rfl, hsame⟩ := h
  rcases step_cases hs with hm | ⟨w, hw, hm⟩
  · refine ⟨_, hm.withWorkers hs ws, ws, rfl, ?_⟩
    rwa [hm.workers_eq]
  · have hpcs := (hsame w).pc
    have hworkers : (s.withWorkers ws).workers = ws := rfl
    have hstop : (s.withWorkers ws).stopSignal = s.stopSignal := rfl
    have hpause : (s.withWorkers ws).pauseSignal = s.pauseSignal := rfl
    -- the position of the worker, where it has no message it has released
    have heq : ∀ pc, (s.workers w).pc = pc → (∀ i p, pc ≠ .loadCount i p) →
        (∀ i p v, pc ≠ .storeCount i p v) → (∀ i p, pc ≠ .stats i p) → (ws w).pc = pc := by
      rintro pc rfl hload hstore hstats
      exact hpcs.eq hload hstore hstats
    cases hm with
    | leave hpc h | stay hpc h =>
        refine ⟨_, ?_, same_setWorker hsame (.refl _)⟩
        simp [Server.step, hw, Server.workerStep, hworkers, hstop, h, heq _ hpc]
    | paused hpc h | startPass hpc h =>
        refine ⟨_, ?_, same_setWorker hsame (.refl _)⟩
        simp [Server.step, hw, Server.workerStep, hworkers, hpause, h, heq _ hpc]
    | clearCount hpc =>
        refine ⟨_, ?_, same_setWorker (s := { s with votesCount := update s.votesCount w 0 }) hsame
          (.refl _)⟩
        simp [Server.step, hw, Server.workerStep, hworkers, heq _ hpc]
        rfl
    | raiseStop hpc =>
        refine ⟨_, ?_, same_setWorker (s := { s with stopSignal := true }) hsame (.refl _)⟩
        simp [Server.step, hw, Server.workerStep, hworkers, heq _ hpc]
        rfl
    | endPass hpc hi | exit hpc hi =>
        refine ⟨_, ?_, same_setWorker hsame (.refl _)⟩
        simp [Server.step, hw, Server.workerStep, hworkers, heq _ hpc, Nat.not_lt.mpr hi]
    | outOfRange hpc hrange =>
        refine ⟨_, ?_, same_setWorker hsame (.refl _)⟩
        simp only [Server.step, hw, if_true, Server.workerStep, hworkers, heq _ hpc (by simp)
          (by simp) (by simp), if_pos hrange]
    | @score i p hpc hlo hhi =>
        refine ⟨_, ?_, same_setWorker (s := { s with
          votesScoreboard := update s.votesScoreboard (p.msg.srcHostid - 1).toNat p.msg.type })
            hsame (.refl _)⟩
        simp only [Server.step, hw, if_true, Server.workerStep, hworkers, heq _ hpc (by simp)
          (by simp) (by simp)]
        rw [if_neg (by omega)]
        rfl
    | begRead hpc hi hafter =>
        refine ⟨_, ?_, same_setWorker hsame (.refl _)⟩
        simp [Server.step, hw, hworkers, heq _ hpc, hi, hafter]
    | endRead hpc =>
        refine ⟨_, ?_, same_setWorker hsame (.refl _)⟩
        simp [Server.step, hw, hworkers, heq _ hpc]
    | @delete i hpc hi =>
        refine ⟨_, ?_, same_setWorker (s := { s with deleted := update s.deleted i true }) hsame
          (.refl _)⟩
        simp [Server.step, hw, hworkers, heq _ hpc, hi]
        rfl
    | @loadCount i p hpc =>
        obtain ⟨q, hq⟩ : ∃ q, (ws w).pc = .loadCount i q := by
          rw [hpc] at hpcs
          generalize (ws w).pc = pc at hpcs ⊢
          cases hpcs <;> exact ⟨_, rfl⟩
        refine ⟨_, ?_, same_setWorker hsame (.storeCount i p q (s.votesCount w))⟩
        simp [Server.step, hw, Server.workerStep, hworkers, hq]
        rfl
    | @storeCount i p v hpc =>
        obtain ⟨q, hq⟩ : ∃ q, (ws w).pc = .storeCount i q v := by
          rw [hpc] at hpcs
          generalize (ws w).pc = pc at hpcs ⊢
          cases hpcs <;> exact ⟨_, rfl⟩
        refine ⟨_, ?_, same_setWorker (s := { s with votesCount := update s.votesCount w (v + 1) })
          hsame (.stats i p q)⟩
        simp [Server.step, hw, Server.workerStep, hworkers, hq]
        rfl
    | @timeEnd i p us hpc =>
        obtain ⟨q, hq⟩ : ∃ q, (ws w).pc = .stats i q := by
          rw [hpc] at hpcs
          generalize (ws w).pc = pc at hpcs ⊢
          cases hpcs <;> exact ⟨_, rfl⟩
        have hlen := (hsame w).stats
        refine ⟨(s.withWorkers ws).record cfg w i q us, ?_, _, rfl, same_update hsame ⟨?_, ?_⟩⟩
        · simp [Server.step, hw, hworkers, hq]
        · simp only [List.length_append, hworkers, hlen]
          exact .refl _
        · simp only [List.length_append, List.length_singleton, hworkers, hlen]

-- What the worker reads again makes no difference.
theorem Server.Same.reread (h : s.Same t) (w : Nat) (msg : Msg) : (s.reread w msg).Same t := by
  unfold Server.reread
  split
  · rename_i i p hpc
    obtain ⟨ws, rfl, hsame⟩ := h
    have hpcs := (hsame w).pc
    rw [hpc] at hpcs
    refine ⟨ws, rfl, fun v => ?_⟩
    by_cases hv : v = w
    · subst hv
      simp only [Server.setWorker, Function.update_self]
      refine ⟨?_, (hsame v).stats⟩
      generalize (ws v).pc = pc at hpcs ⊢
      cases hpcs <;> exact .loadCount _ _ _
    · simp only [Server.setWorker, Function.update_of_ne hv]
      exact hsame v
  · exact h

end Q2pc
