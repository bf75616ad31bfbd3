import Q2pc.Server.Step

namespace Q2pc

open Function (update)

variable {cfg : Config} {s t : Server} {e : Event}

-- What a step of the master can do, with the guards it passed.
inductive MasterStep (cfg : Config) (s : Server) : Event → Server → Prop
  | finish : s.master = .requests → s.stopSignal = true → MasterStep cfg s .master s.term
  | startRound : s.master = .requests → s.stopSignal = false →
      MasterStep cfg s .master (s.setMaster (.initScoreboard .phase1 0))
  | initSlot {ph i} : s.master = .initScoreboard ph i → i < cfg.clientCount →
      MasterStep cfg s .master { s with
        votesScoreboard := update s.votesScoreboard i .lost
        master := .initScoreboard ph (i + 1) }
  | startPhase {ph i} : s.master = .initScoreboard ph i → cfg.clientCount ≤ i →
      MasterStep cfg s .master (s.startPhase cfg ph)
  | collectNext {ph i} : s.master = .collect ph i → i < cfg.clientCount →
      s.stopSignal = false → MasterStep cfg s .master (s.setMaster (.begWrite ph i))
  | collected {ph i} : s.master = .collect ph i →
      cfg.clientCount ≤ i ∨ s.stopSignal = true →
      MasterStep cfg s .master { s with
        commited := 0, connRtofiredCount := fun _ => 0, master := .sendAll ph }
  | sendPass {ph} : s.master = .sendAll ph → s.commited < cfg.clientCount →
      s.stopSignal = false → MasterStep cfg s .master (s.setMaster (.sendConn ph 0))
  | sent {ph} : s.master = .sendAll ph → cfg.clientCount ≤ s.commited ∨ s.stopSignal = true →
      MasterStep cfg s .master (s.setMaster (.poll ph))
  | skipConn {ph i} : s.master = .sendConn ph i → i < cfg.clientCount →
      s.stopSignal = false → s.connRtofiredCount i < 0 →
      MasterStep cfg s .master (s.setMaster (.sendConn ph (i + 1)))
  | callConn {ph i} : s.master = .sendConn ph i → i < cfg.clientCount →
      s.stopSignal = false → 0 ≤ s.connRtofiredCount i →
      MasterStep cfg s .master (s.setMaster (.endWrite ph i))
  | passDone {ph i} : s.master = .sendConn ph i →
      cfg.clientCount ≤ i ∨ s.stopSignal = true →
      MasterStep cfg s .master (s.setMaster (.sendAll ph))
  | sumNext {ph i v} : s.master = .sumVotes ph i v → i < cfg.threadCount →
      MasterStep cfg s .master (s.setMaster (.sumVotes ph (i + 1) (v + s.votesCount i)))
  | sumEnough {ph i v} : s.master = .sumVotes ph i v → cfg.threadCount ≤ i →
      cfg.clientCount ≤ v → MasterStep cfg s .master (s.setMaster (.dopauseAll ph))
  | sumShort {ph i v} : s.master = .sumVotes ph i v → cfg.threadCount ≤ i →
      v < cfg.clientCount → MasterStep cfg s .master (s.setMaster (.poll ph))
  | pause {ph} : s.master = .dopauseAll ph →
      MasterStep cfg s .master { s with
        pauseSignal := true, master := .scan ph 0 ph.startStatus }
  | scanNext {ph i r} : s.master = .scan ph i r → i < cfg.clientCount →
      s.stopSignal = false → MasterStep cfg s .master (s.setMaster (.readSlot ph i r))
  | scanned {ph i r} : s.master = .scan ph i r →
      cfg.clientCount ≤ i ∨ s.stopSignal = true →
      MasterStep cfg s .master (s.setMaster (.clearCount ph 0 r))
  | readSlot {ph i r r'} : s.master = .readSlot ph i r →
      scanSlot ph r (s.votesScoreboard i) = some r' →
      MasterStep cfg s .master (s.setMaster (.scan ph (i + 1) r'))
  | badSlot {ph i r} : s.master = .readSlot ph i r →
      scanSlot ph r (s.votesScoreboard i) = none → MasterStep cfg s .master s.term
  | clearNext {ph i r} : s.master = .clearCount ph i r → i < cfg.threadCount →
      MasterStep cfg s .master { s with
        votesCount := update s.votesCount i 0
        master := .clearCount ph (i + 1) r }
  | cleared {ph i r} : s.master = .clearCount ph i r → cfg.threadCount ≤ i →
      MasterStep cfg s .master (s.setMaster (.unpauseAll ph r))
  | unpause {ph r status} : s.master = .unpauseAll ph r → phaseStatus ph r = some status →
      MasterStep cfg s .master { s with
        pauseSignal := false, master := .phaseReturn ph status }
  | badStatus {ph r} : s.master = .unpauseAll ph r → phaseStatus ph r = none →
      MasterStep cfg s .master { s with pauseSignal := false }.term
  | phaseReturn {ph status} : s.master = .phaseReturn ph status →
      MasterStep cfg s .master (s.afterPhase ph status)
  | expired {ph} : s.master = .poll ph →
      MasterStep cfg s (.clock true) (s.setMaster (.dopauseAll ph))
  | notExpired {ph} : s.master = .poll ph →
      MasterStep cfg s (.clock false) (s.setMaster (.sumVotes ph 0 0))
  | broadcastBegWrite {ph i ts} : s.master = .begWrite ph i → cfg.transType = .udpQj →
      MasterStep cfg s (.begWrite i ⟨requestMsg ph.msgType ts, s.stage ph⟩)
        (s.setMaster (.endWrite ph i))
  | begWrite {ph i ts} : s.master = .begWrite ph i → cfg.transType ≠ .udpQj →
      MasterStep cfg s (.begWrite i ⟨requestMsg ph.msgType ts, s.stage ph⟩)
        (s.setMaster (.collect ph (i + 1)))
  | endWrite {ph i} : s.master = .endWrite ph i →
      MasterStep cfg s (.endWrite i) (s.setMaster (.inEndWrite ph i))
  | endWriteRet {ph i r} : s.master = .inEndWrite ph i →
      MasterStep cfg s (.endWriteRet i r) (s.endWriteRet cfg ph i r)

-- What a step of a worker can do.
inductive WorkerStep (cfg : Config) (s : Server) (w : Nat) : Event → Server → Prop
  | leave : (s.workers w).pc = .loop → s.stopSignal = true →
      WorkerStep cfg s w (.worker w) (s.setWorker w (.delete (cfg.lo w)))
  | stay : (s.workers w).pc = .loop → s.stopSignal = false →
      WorkerStep cfg s w (.worker w) (s.setWorker w .pauseTest)
  | paused : (s.workers w).pc = .pauseTest → s.pauseSignal = true →
      WorkerStep cfg s w (.worker w) (s.setWorker w .clearCount)
  | startPass : (s.workers w).pc = .pauseTest → s.pauseSignal = false →
      WorkerStep cfg s w (.worker w) (s.setWorker w (.poll (cfg.lo w)))
  | clearCount : (s.workers w).pc = .clearCount →
      WorkerStep cfg s w (.worker w)
        ({ s with votesCount := update s.votesCount w 0 }.setWorker w .loop)
  | endPass {i} : (s.workers w).pc = .poll i → cfg.hi w ≤ i →
      WorkerStep cfg s w (.worker w) (s.setWorker w .loop)
  | outOfRange {i p} : (s.workers w).pc = .score i p →
      p.msg.srcHostid < 1 ∨ (cfg.clientCount : Int) < p.msg.srcHostid →
      WorkerStep cfg s w (.worker w) (s.setWorker w (.poll (i + 1)))
  | score {i p} : (s.workers w).pc = .score i p →
      1 ≤ p.msg.srcHostid → p.msg.srcHostid ≤ (cfg.clientCount : Int) →
      WorkerStep cfg s w (.worker w) ({ s with
        votesScoreboard := update s.votesScoreboard (p.msg.srcHostid - 1).toNat p.msg.type
        }.setWorker w (.endRead i p))
  | loadCount {i p} : (s.workers w).pc = .loadCount i p →
      WorkerStep cfg s w (.worker w) (s.setWorker w (.storeCount i p (s.votesCount w)))
  | storeCount {i p v} : (s.workers w).pc = .storeCount i p v →
      WorkerStep cfg s w (.worker w)
        ({ s with votesCount := update s.votesCount w (v + 1) }.setWorker w (.stats i p))
  | raiseStop : (s.workers w).pc = .raiseStop →
      WorkerStep cfg s w (.worker w) ({ s with stopSignal := true }.setWorker w .loop)
  | exit {i} : (s.workers w).pc = .delete i → cfg.hi w ≤ i →
      WorkerStep cfg s w (.worker w) (s.setWorker w .exited)
  | begRead {i r pc} : (s.workers w).pc = .poll i → i < cfg.hi w →
      Server.afterBegRead i r = some pc →
      WorkerStep cfg s w (.begRead w i r) (s.setWorker w pc)
  | endRead {i p} : (s.workers w).pc = .endRead i p →
      WorkerStep cfg s w (.endRead w i) (s.setWorker w (.loadCount i p))
  | timeEnd {i p us} : (s.workers w).pc = .stats i p →
      WorkerStep cfg s w (.timeEnd w us) (s.record cfg w i p us)
  | delete {i} : (s.workers w).pc = .delete i → i < cfg.hi w →
      WorkerStep cfg s w (.delete w i)
        ({ s with deleted := update s.deleted i true }.setWorker w (.delete (i + 1)))

private theorem loop_left {i n : Nat} {stop : Bool} (h : ¬(i < n ∧ stop = false)) :
    n ≤ i ∨ stop = true := by
  cases stop <;> simp_all

theorem masterStep_cases (h : s.masterStep cfg = some t) : MasterStep cfg s .master t := by
  unfold Server.masterStep at h
  split at h
  case h_1 hpc =>
    split at h
    · cases h; exact .finish hpc ‹_›
    · obtain ⟨_, _, rfl⟩ := Option.map_eq_some_iff.mp h
      exact .startRound hpc (by simpa using ‹¬s.stopSignal = true›)
  case h_2 ph i hpc =>
    split at h <;> cases h
    · exact .initSlot hpc ‹_›
    · exact .startPhase hpc (by omega)
  case h_3 ph i hpc =>
    split at h <;> cases h
    · exact .collectNext hpc (by tauto) (by tauto)
    · exact .collected hpc (loop_left ‹_›)
  case h_4 ph hpc =>
    split at h <;> cases h
    · exact .sendPass hpc (by tauto) (by tauto)
    · exact .sent hpc (loop_left ‹_›)
  case h_5 ph i hpc =>
    split at h
    · split at h <;> cases h
      · exact .skipConn hpc (by tauto) (by tauto) ‹_›
      · exact .callConn hpc (by tauto) (by tauto) (by omega)
    · cases h
      exact .passDone hpc (loop_left ‹_›)
  case h_6 ph i v hpc =>
    split at h
    · cases h; exact .sumNext hpc ‹_›
    · split at h <;> cases h
      · exact .sumEnough hpc (by omega) ‹_›
      · exact .sumShort hpc (by omega) (by omega)
  case h_7 ph hpc => cases h; exact .pause hpc
  case h_8 ph i r hpc =>
    split at h <;> cases h
    · exact .scanNext hpc (by tauto) (by tauto)
    · exact .scanned hpc (loop_left ‹_›)
  case h_9 ph i r hpc =>
    split at h <;> cases h
    · exact .readSlot hpc ‹_›
    · exact .badSlot hpc ‹_›
  case h_10 ph i r hpc =>
    split at h <;> cases h
    · exact .clearNext hpc ‹_›
    · exact .cleared hpc (by omega)
  case h_11 ph r hpc =>
    split at h <;> cases h
    · exact .unpause hpc ‹_›
    · exact .badStatus hpc ‹_›
  case h_12 ph status hpc => cases h; exact .phaseReturn hpc
  case h_13 => cases h

theorem workerStep_cases {w : Nat} (h : s.workerStep cfg w = some t) :
    WorkerStep cfg s w (.worker w) t := by
  unfold Server.workerStep at h
  split at h
  case h_1 hpc =>
    split at h <;> cases h
    · exact .leave hpc ‹_›
    · exact .stay hpc (by simpa using ‹¬s.stopSignal = true›)
  case h_2 hpc =>
    split at h <;> cases h
    · exact .paused hpc ‹_›
    · exact .startPass hpc (by simpa using ‹¬s.pauseSignal = true›)
  case h_3 hpc => cases h; exact .clearCount hpc
  case h_4 i hpc =>
    split at h <;> cases h
    exact .endPass hpc (by omega)
  case h_5 i p hpc =>
    split at h <;> cases h
    · exact .outOfRange hpc ‹_›
    · exact .score hpc (by omega) (by omega)
  case h_6 i p hpc => cases h; exact .loadCount hpc
  case h_7 i p v hpc => cases h; exact .storeCount hpc
  case h_8 hpc => cases h; exact .raiseStop hpc
  case h_9 i hpc =>
    split at h <;> cases h
    exact .exit hpc (by omega)
  case h_10 => cases h

theorem step_cases (h : s.step cfg e = some t) :
    MasterStep cfg s e t ∨ ∃ w < cfg.threadCount, WorkerStep cfg s w e t := by
  cases e with
  | master => exact .inl (masterStep_cases h)
  | clock expired =>
      simp only [Server.step] at h
      split at h <;> cases h
      rename_i ph hpc
      cases expired with
      | true => exact .inl (.expired hpc)
      | false => exact .inl (.notExpired hpc)
  | begWrite i p =>
      simp only [Server.step] at h
      split at h
      · rename_i ph j hpc
        split at h
        · rename_i hg
          obtain ⟨rfl, hp⟩ := hg
          rw [hp]
          split at h <;> cases h
          · exact .inl (.broadcastBegWrite hpc ‹_›)
          · exact .inl (.begWrite hpc ‹_›)
        · cases h
      · cases h
  | endWrite i =>
      simp only [Server.step] at h
      split at h
      · rename_i ph j hpc
        split at h <;> cases h
        rename_i hij
        subst hij
        exact .inl (.endWrite hpc)
      · cases h
  | endWriteRet i r =>
      simp only [Server.step] at h
      split at h
      · rename_i ph j hpc
        split at h <;> cases h
        rename_i hij
        subst hij
        exact .inl (.endWriteRet hpc)
      · cases h
  | worker w =>
      simp only [Server.step] at h
      split at h
      · exact .inr ⟨w, ‹_›, workerStep_cases h⟩
      · cases h
  | begRead w i r =>
      simp only [Server.step] at h
      split at h
      · rename_i hg
        obtain ⟨hw, hpc, hi⟩ := hg
        obtain ⟨pc, hr, rfl⟩ := Option.map_eq_some_iff.mp h
        exact .inr ⟨w, hw, .begRead hpc hi hr⟩
      · cases h
  | endRead w i =>
      simp only [Server.step] at h
      split at h
      · rename_i j p hpc
        split at h <;> cases h
        rename_i hg
        obtain ⟨hw, rfl⟩ := hg
        exact .inr ⟨w, hw, .endRead hpc⟩
      · cases h
  | timeEnd w us =>
      simp only [Server.step] at h
      split at h
      · rename_i i p hpc
        split at h <;> cases h
        exact .inr ⟨w, ‹_›, .timeEnd hpc⟩
      · cases h
  | delete w i =>
      simp only [Server.step] at h
      split at h
      · rename_i hg
        cases h
        exact .inr ⟨w, hg.1, .delete hg.2.1 hg.2.2⟩
      · cases h

theorem WorkerStep.frame {w : Nat} (h : WorkerStep cfg s w e t) :
    t.master = s.master ∧ t.requests = s.requests ∧ t.pauseSignal = s.pauseSignal ∧
    (s.stopSignal = true → t.stopSignal = true) := by
  cases h <;> simp [Server.setWorker, Server.record]

theorem WorkerStep.workers_ne {w v : Nat} (h : WorkerStep cfg s w e t) (hv : v ≠ w) :
    t.workers v = s.workers v := by
  cases h <;> simp [Server.setWorker, Server.record, hv]

theorem WorkerStep.votesCount_ne {w v : Nat} (h : WorkerStep cfg s w e t) (hv : v ≠ w) :
    t.votesCount v = s.votesCount v := by
  cases h <;> simp [Server.setWorker, Server.record, hv]

theorem MasterStep.frame (h : MasterStep cfg s e t) :
    t.workers = s.workers ∧ t.deleted = s.deleted ∧
    (s.stopSignal = true → t.stopSignal = true) := by
  cases h with
  | startPhase _ _ =>
      unfold Server.startPhase Server.sendRequest
      split <;> (try split) <;> simp [Server.setMaster, Server.term]
  | phaseReturn _ =>
      unfold Server.afterPhase
      split <;> simp [Server.setMaster, Server.term]
  | endWriteRet _ =>
      unfold Server.endWriteRet
      split <;> (try split) <;> (try split) <;> simp [Server.setMaster, Server.term]
  | _ => simp [Server.setMaster, Server.term]

theorem MasterStep.workers_eq (h : MasterStep cfg s e t) : t.workers = s.workers :=
  h.frame.1

theorem MasterStep.votesCount_eq (h : MasterStep cfg s e t) : t.votesCount = s.votesCount ∨
    ∃ ph w r, e = .master ∧ s.master = .clearCount ph w r ∧
      t.votesCount = update s.votesCount w 0 := by
  cases h with
  | @startPhase ph i =>
      have hsend : ∀ ph, (s.sendRequest cfg ph).votesCount = s.votesCount := by
        intro ph
        unfold Server.sendRequest
        split <;> rfl
      unfold Server.startPhase
      split <;> first | exact .inl (hsend _) | exact .inl rfl
  | phaseReturn =>
      unfold Server.afterPhase
      split <;> exact .inl rfl
  | endWriteRet =>
      unfold Server.endWriteRet
      split
      · exact .inl rfl
      · split
        · split <;> exact .inl rfl
        · exact .inl rfl
        · exact .inl rfl
        · exact .inl rfl
  | @clearNext ph i r hpc _ => exact .inr ⟨ph, i, r, rfl, hpc, rfl⟩
  | _ => exact .inl rfl

theorem WorkerStep.commited_eq {w : Nat} (h : WorkerStep cfg s w e t) :
    t.commited = s.commited ∧ t.connRtofiredCount = s.connRtofiredCount := by
  cases h <;> simp [Server.setWorker, Server.record]

def MasterPc.callee : MasterPc → Option Nat
  | .begWrite _ i | .endWrite _ i | .inEndWrite _ i => some i
  | _ => none

theorem Server.callee_afterPhase (ph : Phase) (st : CommitStatus) :
    (s.afterPhase ph st).master.callee = none := by
  unfold Server.afterPhase
  split <;> rfl

theorem Server.callee_endWriteRet (ph : Phase) (i : Nat) (r : Ret) :
    (s.endWriteRet cfg ph i r).master.callee = none := by
  unfold Server.endWriteRet
  split
  · rfl
  · split
    · split <;> rfl
    · rfl
    · rfl
    · rfl

end Q2pc
