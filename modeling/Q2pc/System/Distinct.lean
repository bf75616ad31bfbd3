import Q2pc.Lib.History
import Q2pc.Lib.Tally
import Q2pc.System.Pause

namespace Q2pc

open Function (update)
open Tally (fiber)

variable {cfg : Config} {s t : Server} {e : Event} {w : Nat}

def Packet.slot (p : Packet) : Nat := (p.msg.srcHostid - 1).toNat

-- The slot of the message that the worker has recorded and not yet counted.
def WorkerPc.scored : WorkerPc → Option Nat
  | .endRead _ p | .loadCount _ p | .storeCount _ p _ => some p.slot
  | _ => none

-- The slots that a worker has written since they were reset, and the worker whose
-- counter counts a message of a client since it was cleared.
structure VoteLog where
  written : Nat → Bool
  countedBy : Nat → Option Nat

def VoteLog.init : VoteLog := ⟨fun _ => false, fun _ => none⟩

def VoteLog.clear (l : VoteLog) (w : Nat) : VoteLog :=
  { l with countedBy := fun c => if l.countedBy c = some w then none else l.countedBy c }

def VoteLog.record (cfg : Config) (l : VoteLog) (s : Server) : Event → VoteLog
  | .master =>
      match s.master with
      | .initScoreboard _ c =>
          if c < cfg.clientCount then { l with written := update l.written c false } else l
      | .clearCount _ w _ => if w < cfg.threadCount then l.clear w else l
      | _ => l
  | .worker w =>
      match (s.workers w).pc with
      | .score _ p =>
          if p.msg.srcHostid < 1 ∨ (cfg.clientCount : Int) < p.msg.srcHostid then l
          else { l with written := update l.written p.slot true }
      | .storeCount _ p _ => { l with countedBy := update l.countedBy p.slot (some w) }
      | .clearCount => l.clear w
      | _ => l
  | _ => l

def voteMachine (cfg : Config) : Machine (Server × VoteLog) Event :=
  (serverMachine cfg).withHistory .init (VoteLog.record cfg)

theorem reachable_iff_voteLog : (serverMachine cfg).Reachable Machine.always s ↔
    ∃ l, (voteMachine cfg).Reachable Machine.always (s, l) :=
  Machine.reachable_withHistory

-- A message is counted only while no other of its client is, none of a client is
-- counted or on the way to that when the slot of the client is reset, and no counter is
-- cleared between its load and its store.
def CountedOnce (cfg : Config) (s : Server × VoteLog) : Event → Prop
  | .master =>
      match s.1.master with
      | .initScoreboard _ c => c < cfg.clientCount → s.2.countedBy c = none ∧
          ∀ w < cfg.threadCount, (s.1.workers w).pc.scored ≠ some c
      | .clearCount _ w _ => (s.1.workers w).pc.loaded = none
      | _ => True
  | .worker w =>
      match (s.1.workers w).pc with
      | .storeCount _ p _ => s.2.countedBy p.slot = none
      | _ => True
  | _ => True

instance (s : Server × VoteLog) (e : Event) : Decidable (CountedOnce cfg s e) := by
  unfold CountedOnce
  split
  · split <;> infer_instance
  · split <;> infer_instance
  · infer_instance

-- The slots below are reset, and their messages may be counted for the phase.
def MasterPc.resetBelow (cfg : Config) : MasterPc → Nat
  | .initScoreboard _ c => c
  | .collect _ _ | .begWrite _ _ | .sendAll _ | .sendConn _ _ | .endWrite _ _ | .inEndWrite _ _
  | .poll _ | .sumVotes _ _ _ | .dopauseAll _ => cfg.clientCount
  | _ => 0

def VoteLog.count (cfg : Config) (l : VoteLog) (w : Nat) : Nat :=
  fiber (Finset.range cfg.clientCount) l.countedBy w

structure VotesOk (cfg : Config) (s : Server) (l : VoteLog) : Prop where
  owner : ∀ c w, l.countedBy c = some w → c < cfg.clientCount
  counted : ∀ w < cfg.threadCount, s.votesCount w ≤ l.count cfg w
  loaded : ∀ w < cfg.threadCount, ∀ v, (s.workers w).pc.loaded = some v → v ≤ l.count cfg w
  scored : ∀ w < cfg.threadCount, ∀ c, (s.workers w).pc.scored = some c →
    c < cfg.clientCount ∧ l.written c = true
  written : ∀ c < s.master.resetBelow cfg, l.countedBy c ≠ none → l.written c = true
  cleared : ∀ w < cfg.threadCount, (s.workers w).pc = .clearCount →
    ∀ c < s.master.resetBelow cfg, l.countedBy c ≠ some w
  paused : s.pauseSignal = true → s.master.Paused ∨ s.master = .terminated
  summed : ∀ ph i v, s.master = .sumVotes ph i v → v ≤ ∑ w ∈ Finset.range i, l.count cfg w

variable {l : VoteLog}

theorem VotesOk.init : VotesOk cfg .init .init where
  owner := by simp [VoteLog.init]
  counted := fun _ _ => Nat.zero_le _
  loaded := by simp [Server.init, WorkerPc.loaded]
  scored := by simp [Server.init, WorkerPc.scored]
  written := by simp [VoteLog.init]
  cleared := by simp [Server.init]
  paused := by simp [Server.init]
  summed := by simp [Server.init]

private theorem VotesOk.move (h : VotesOk cfg s l) (hworkers : t.workers = s.workers)
    (hcount : t.votesCount = s.votesCount)
    (hreset : t.master.resetBelow cfg ≤ s.master.resetBelow cfg ∨
      cfg.clientCount ≤ s.master.resetBelow cfg)
    (hpaused : t.pauseSignal = true → t.master.Paused ∨ t.master = .terminated)
    (hsummed : ∀ ph i v, t.master = .sumVotes ph i v →
      v ≤ ∑ w ∈ Finset.range i, l.count cfg w) : VotesOk cfg t l where
  owner := h.owner
  counted := by
    rw [hcount]
    exact h.counted
  loaded := by
    rw [hworkers]
    exact h.loaded
  scored := by
    rw [hworkers]
    exact h.scored
  written := by
    intro c hc hne
    obtain ⟨w, hw⟩ := Option.ne_none_iff_exists'.mp hne
    have := h.owner c w hw
    exact h.written c (by omega) hne
  cleared := by
    intro w hw hpc c hc hcount
    rw [hworkers] at hpc
    have := h.owner c w hcount
    exact h.cleared w hw hpc c (by omega) hcount
  paused := hpaused
  summed := hsummed

private theorem VotesOk.workerMove (h : VotesOk cfg s l) (hmaster : t.master = s.master)
    (hpause : t.pauseSignal = s.pauseSignal) (hcount : t.votesCount = s.votesCount)
    (hothers : ∀ v, v ≠ w → t.workers v = s.workers v)
    (hloaded : ∀ v, (t.workers w).pc.loaded = some v → v ≤ l.count cfg w)
    (hscored : ∀ c, (t.workers w).pc.scored = some c → c < cfg.clientCount ∧ l.written c = true)
    (hcleared : (t.workers w).pc = .clearCount → s.master.resetBelow cfg = 0) :
    VotesOk cfg t l where
  owner := h.owner
  counted := by
    rw [hcount]
    exact h.counted
  loaded := by
    intro v hv
    by_cases hvw : v = w
    · rw [hvw]
      exact hloaded
    · rw [hothers v hvw]
      exact h.loaded v hv
  scored := by
    intro v hv
    by_cases hvw : v = w
    · rw [hvw]
      exact hscored
    · rw [hothers v hvw]
      exact h.scored v hv
  written := by
    rw [hmaster]
    exact h.written
  cleared := by
    intro v hv hpc c hc
    rw [hmaster] at hc
    by_cases hvw : v = w
    · rw [hvw] at hpc
      have := hcleared hpc
      omega
    · rw [hothers v hvw] at hpc
      exact h.cleared v hv hpc c hc
  paused := by
    rw [hpause, hmaster]
    exact h.paused
  summed := by
    rw [hmaster]
    exact h.summed

private theorem resetBelow_of_paused {pc : MasterPc} (h : pc.Paused ∨ pc = .terminated) :
    pc.resetBelow cfg = 0 := by
  rcases h with h | rfl
  · cases pc <;> first | rfl | exact h.elim
  · rfl

theorem VoteLog.clear_eq_some {c v : Nat} :
    (l.clear w).countedBy c = some v ↔ l.countedBy c = some v ∧ v ≠ w := by
  simp only [VoteLog.clear]
  split
  · rename_i heq
    constructor
    · simp
    · rintro ⟨hv, hne⟩
      rw [heq] at hv
      exact absurd (Option.some.inj hv).symm hne
  · rename_i hne
    constructor
    · intro hv
      exact ⟨hv, fun hvw => hne (hvw ▸ hv)⟩
    · exact fun h => h.1

theorem VoteLog.count_clear_ne {v : Nat} (hne : v ≠ w) :
    (l.clear w).count cfg v = l.count cfg v := by
  apply Tally.fiber_congr
  intro c _
  rw [VoteLog.clear_eq_some, and_iff_left hne]

theorem VoteLog.ne_none_of_clear {c : Nat} (h : (l.clear w).countedBy c ≠ none) :
    l.countedBy c ≠ none := by
  obtain ⟨v, hv⟩ := Option.ne_none_iff_exists'.mp h
  simp [(VoteLog.clear_eq_some.mp hv).1]

private theorem VotesOk.score {i : Nat} {p : Packet} (h : VotesOk cfg s l)
    (hslot : p.slot < cfg.clientCount) :
    VotesOk cfg ({ s with votesScoreboard := update s.votesScoreboard p.slot p.msg.type
      }.setWorker w (.endRead i p)) { l with written := update l.written p.slot true } := by
  have hkeep : ∀ c, l.written c = true → update l.written p.slot true c = true := by
    intro c hc
    by_cases hcp : c = p.slot
    · rw [hcp, Function.update_self]
    · rw [Function.update_of_ne hcp, hc]
  have hmid : VotesOk cfg s { l with written := update l.written p.slot true } :=
    { h with
      scored := fun v hv c hc => ⟨(h.scored v hv c hc).1, hkeep c (h.scored v hv c hc).2⟩
      written := fun c hc hne => hkeep c (h.written c hc hne) }
  refine hmid.workerMove (w := w) rfl rfl rfl (fun v hv => ?_) ?_ ?_ ?_
  · simp [Server.setWorker, hv]
  · simp [Server.setWorker, WorkerPc.loaded]
  · intro c hc
    obtain rfl : p.slot = c := by simpa [Server.setWorker, WorkerPc.scored] using hc
    exact ⟨hslot, Function.update_self _ _ _⟩
  · simp [Server.setWorker]

private theorem VotesOk.scored_of_none (h : VotesOk cfg s l)
    (hothers : ∀ v, v ≠ w → t.workers v = s.workers v)
    (hnone : (t.workers w).pc.scored = none) :
    ∀ u < cfg.threadCount, ∀ c, (t.workers u).pc.scored = some c →
      c < cfg.clientCount ∧ l.written c = true := by
  intro u hu c hc
  by_cases huw : u = w
  · rw [huw, hnone] at hc
    simp at hc
  · rw [hothers u huw] at hc
    exact h.scored u hu c hc

private theorem VotesOk.storeCount {i v : Nat} {p : Packet} (h : VotesOk cfg s l)
    (hw : w < cfg.threadCount) (hpc : (s.workers w).pc = .storeCount i p v)
    (hnone : l.countedBy p.slot = none) :
    VotesOk cfg ({ s with votesCount := update s.votesCount w (v + 1) }.setWorker w (.stats i p))
      { l with countedBy := update l.countedBy p.slot (some w) } := by
  obtain ⟨hslot, hwritten⟩ := h.scored w hw p.slot (by rw [hpc]; rfl)
  have hmem : p.slot ∈ Finset.range cfg.clientCount := Finset.mem_range.mpr hslot
  have hself := Tally.fiber_update (w := w) hmem hnone
  have hother : ∀ u, u ≠ w → fiber (Finset.range cfg.clientCount)
      (update l.countedBy p.slot (some w)) u = l.count cfg u :=
    fun u hu => Tally.fiber_update_ne hu hnone
  have hloaded := h.loaded w hw v (by rw [hpc]; rfl)
  constructor
  case owner =>
    intro c u hc
    by_cases hcp : c = p.slot
    · rw [hcp]
      exact hslot
    · exact h.owner c u (by simpa [hcp] using hc)
  case counted =>
    intro u hu
    by_cases huw : u = w
    · subst huw
      simp only [Server.setWorker, Function.update_self, VoteLog.count, hself]
      exact Nat.succ_le_succ hloaded
    · simp only [Server.setWorker, Function.update_of_ne huw, VoteLog.count, hother u huw]
      exact h.counted u hu
  case loaded =>
    intro u hu x hx
    by_cases huw : u = w
    · simp [Server.setWorker, huw, WorkerPc.loaded] at hx
    · simp only [VoteLog.count, hother u huw]
      exact h.loaded u hu x (by simpa [Server.setWorker, huw] using hx)
  case scored =>
    exact h.scored_of_none (w := w) (fun v hv => by simp [Server.setWorker, hv])
      (by simp [Server.setWorker, WorkerPc.scored])
  case written =>
    intro c hc hne
    by_cases hcp : c = p.slot
    · rw [hcp]
      exact hwritten
    · exact h.written c hc (by simpa [hcp] using hne)
  case cleared =>
    intro u hu hupc c hc hcu
    have huw : u ≠ w := by
      rintro rfl
      simp [Server.setWorker] at hupc
    have hcp : c ≠ p.slot := by
      rintro rfl
      simp at hcu
      exact huw hcu.symm
    exact h.cleared u hu (by simpa [Server.setWorker, huw] using hupc) c hc
      (by simpa [hcp] using hcu)
  case paused => exact h.paused
  case summed =>
    intro ph j x hx
    refine (h.summed ph j x hx).trans (Finset.sum_le_sum fun u _ => ?_)
    by_cases huw : u = w
    · rw [huw, VoteLog.count, VoteLog.count, hself]
      exact Nat.le_succ _
    · exact (hother u huw).ge

private theorem VotesOk.clearOwn (h : VotesOk cfg s l) (hw : w < cfg.threadCount)
    (hpc : (s.workers w).pc = .clearCount) :
    VotesOk cfg ({ s with votesCount := update s.votesCount w 0 }.setWorker w .loop)
      (l.clear w) := by
  constructor
  case owner =>
    intro c u hc
    exact h.owner c u (VoteLog.clear_eq_some.mp hc).1
  case counted =>
    intro u hu
    by_cases huw : u = w
    · simp [Server.setWorker, huw]
    · simp only [Server.setWorker, Function.update_of_ne huw, VoteLog.count_clear_ne huw]
      exact h.counted u hu
  case loaded =>
    intro u hu x hx
    by_cases huw : u = w
    · simp [Server.setWorker, huw, WorkerPc.loaded] at hx
    · rw [VoteLog.count_clear_ne huw]
      exact h.loaded u hu x (by simpa [Server.setWorker, huw] using hx)
  case scored =>
    exact h.scored_of_none (w := w) (fun v hv => by simp [Server.setWorker, hv])
      (by simp [Server.setWorker, WorkerPc.scored])
  case written =>
    intro c hc hne
    exact h.written c hc (VoteLog.ne_none_of_clear hne)
  case cleared =>
    intro u hu hupc c hc hcu
    have huw : u ≠ w := by
      rintro rfl
      simp [Server.setWorker] at hupc
    exact h.cleared u hu (by simpa [Server.setWorker, huw] using hupc) c hc
      (VoteLog.clear_eq_some.mp hcu).1
  case paused => exact h.paused
  case summed =>
    intro ph j x hx
    have hx' : s.master = .sumVotes ph j x := hx
    have hnone := h.cleared w hw hpc
    rw [hx'] at hnone
    refine (h.summed ph j x hx).trans (Finset.sum_le_sum fun u _ => ?_)
    apply le_of_eq
    apply Tally.fiber_congr
    intro c hc
    rw [VoteLog.clear_eq_some]
    constructor
    · rintro hcu
      exact ⟨hcu, fun huw => hnone c (Finset.mem_range.mp hc) (huw ▸ hcu)⟩
    · exact fun h => h.1

private theorem pc_of_record {i : Nat} {p : Packet} {us : Int} (s : Server) (w : Nat) :
    ((s.record cfg w i p us).workers w).pc = .raiseStop ∨
      ((s.record cfg w i p us).workers w).pc = .poll (i + 1) := by
  simp only [Server.record, Function.update_self]
  split
  · exact .inl rfl
  · exact .inr rfl

private theorem VotesOk.workerStep (h : VotesOk cfg s l) (hok : CountedOnce cfg (s, l) e)
    (hw : w < cfg.threadCount) (hs : WorkerStep cfg s w e t) :
    VotesOk cfg t (l.record cfg s e) := by
  have hothers := fun v hv => hs.workers_ne (v := v) hv
  have hmaster := hs.frame.1
  have hpause := hs.frame.2.2.1
  cases hs with
  | score hpc hlo hhi =>
      have hin : ¬(_ ∨ _) := not_or.mpr ⟨not_lt.mpr hlo, not_lt.mpr hhi⟩
      simp only [VoteLog.record, hpc, if_neg hin]
      exact h.score (by simp only [Packet.slot]; omega)
  | storeCount hpc =>
      simp only [CountedOnce, hpc] at hok
      simp only [VoteLog.record, hpc]
      exact h.storeCount hw hpc hok
  | clearCount hpc =>
      simp only [VoteLog.record, hpc]
      exact h.clearOwn hw hpc
  | outOfRange hpc hout =>
      simp only [VoteLog.record, hpc, if_pos hout]
      exact h.workerMove (w := w) hmaster hpause rfl hothers
        (by simp [Server.setWorker, WorkerPc.loaded]) (by simp [Server.setWorker, WorkerPc.scored])
        (by simp [Server.setWorker])
  | paused hpc hsignal =>
      simp only [VoteLog.record, hpc]
      exact h.workerMove (w := w) hmaster hpause rfl hothers
        (by simp [Server.setWorker, WorkerPc.loaded]) (by simp [Server.setWorker, WorkerPc.scored])
        (fun _ => resetBelow_of_paused (h.paused hsignal))
  | loadCount hpc =>
      simp only [VoteLog.record, hpc]
      refine h.workerMove (w := w) hmaster hpause rfl hothers ?_ ?_ (by simp [Server.setWorker])
      · intro v hv
        obtain rfl : s.votesCount w = v := by simpa [Server.setWorker, WorkerPc.loaded] using hv
        exact h.counted w hw
      · intro c hc
        exact h.scored w hw c (by simpa [Server.setWorker, WorkerPc.scored, hpc] using hc)
  | endRead hpc =>
      refine h.workerMove (w := w) hmaster hpause rfl hothers
        (by simp [Server.setWorker, WorkerPc.loaded]) ?_ (by simp [Server.setWorker])
      intro c hc
      exact h.scored w hw c (by simpa [Server.setWorker, WorkerPc.scored, hpc] using hc)
  | @begRead i r pc hpc _ hr =>
      have hpc' : pc.loaded = none ∧ pc.scored = none ∧ pc ≠ .clearCount := by
        cases r <;> simp only [Server.afterBegRead, Option.some.injEq, reduceCtorEq] at hr <;>
          subst hr <;> simp [WorkerPc.loaded, WorkerPc.scored]
      exact h.workerMove (w := w) hmaster hpause rfl hothers (by simp [Server.setWorker, hpc'.1])
        (by simp [Server.setWorker, hpc'.2.1]) (by simp [Server.setWorker, hpc'.2.2])
  | @timeEnd i p us hpc =>
      rcases @pc_of_record cfg i p us s w with hnext | hnext <;>
        exact h.workerMove (w := w) hmaster hpause rfl hothers (by simp [hnext, WorkerPc.loaded])
          (by simp [hnext, WorkerPc.scored]) (by simp [hnext])
  | delete hpc _ =>
      exact h.workerMove (w := w) hmaster hpause rfl hothers
        (by simp [Server.setWorker, WorkerPc.loaded]) (by simp [Server.setWorker, WorkerPc.scored])
        (by simp [Server.setWorker])
  | leave hpc _ | stay hpc _ | startPass hpc _ | endPass hpc _ | raiseStop hpc | exit hpc _ =>
      simp only [VoteLog.record, hpc]
      exact h.workerMove (w := w) hmaster hpause rfl hothers
        (by simp [Server.setWorker, WorkerPc.loaded]) (by simp [Server.setWorker, WorkerPc.scored])
        (by simp [Server.setWorker])

private theorem VotesOk.initSlot {c : Nat} {ph : Phase} (h : VotesOk cfg s l)
    (hpc : s.master = .initScoreboard ph c) (hc : c < cfg.clientCount)
    (hnone : l.countedBy c = none)
    (hscored : ∀ w < cfg.threadCount, (s.workers w).pc.scored ≠ some c) :
    VotesOk cfg { s with
      votesScoreboard := update s.votesScoreboard c .lost
      master := .initScoreboard ph (c + 1) } { l with written := update l.written c false } := by
  have hreset : s.master.resetBelow cfg = c := by rw [hpc]; rfl
  refine { h with
    scored := fun w hw c' hc' => ?_
    written := fun c' hc' hne => ?_
    cleared := fun w hw hwpc c' hc' => ?_
    paused := fun hpause => ?_
    summed := fun ph i v hv => by simp at hv }
  · have hne : c' ≠ c := by
      rintro rfl
      exact hscored w hw hc'
    simpa [hne] using h.scored w hw c' hc'
  · have hne' : c' ≠ c := by
      rintro rfl
      exact hne hnone
    have hlt : c' < c + 1 := hc'
    simpa [hne'] using h.written c' (by omega) hne
  · have hlt : c' < c + 1 := hc'
    by_cases heq : c' = c
    · simp [heq, hnone]
    · exact h.cleared w hw hwpc c' (by omega)
  · simpa [hpc, MasterPc.Paused] using h.paused hpause

private theorem VotesOk.clearNext {v : Nat} {ph : Phase} {r : CommitStatus} (h : VotesOk cfg s l)
    (hloaded : (s.workers v).pc.loaded = none) :
    VotesOk cfg { s with
      votesCount := update s.votesCount v 0
      master := .clearCount ph (v + 1) r } (l.clear v) where
  owner := fun c u hc => h.owner c u (VoteLog.clear_eq_some.mp hc).1
  counted := by
    intro u hu
    by_cases huv : u = v
    · simp [huv]
    · simp only [Function.update_of_ne huv, VoteLog.count_clear_ne huv]
      exact h.counted u hu
  loaded := by
    intro u hu x hx
    by_cases huv : u = v
    · simp [huv, hloaded] at hx
    · rw [VoteLog.count_clear_ne huv]
      exact h.loaded u hu x hx
  scored := h.scored
  written := fun c hc => absurd hc (Nat.not_lt_zero c)
  cleared := fun _ _ _ c hc => absurd hc (Nat.not_lt_zero c)
  paused := fun _ => .inl trivial
  summed := by simp

private theorem VotesOk.goto (h : VotesOk cfg s l) (hworkers : t.workers = s.workers)
    (hcount : t.votesCount = s.votesCount) (hpause : t.pauseSignal = s.pauseSignal)
    (hreset : t.master.resetBelow cfg ≤ s.master.resetBelow cfg ∨
      cfg.clientCount ≤ s.master.resetBelow cfg)
    (hopen : s.master.Paused ∨ s.master = .terminated → t.master.Paused ∨ t.master = .terminated)
    (hsum : ∀ ph i v, t.master ≠ .sumVotes ph i v) : VotesOk cfg t l := by
  refine h.move hworkers hcount hreset (fun hsignal => ?_) fun ph i v hpc => ?_
  · rw [hpause] at hsignal
    exact hopen (h.paused hsignal)
  · exact absurd hpc (hsum ph i v)

private theorem VotesOk.term (h : VotesOk cfg s l) : VotesOk cfg s.term l :=
  h.goto rfl rfl rfl (.inl (Nat.zero_le _)) (fun _ => .inr rfl) (by simp [Server.term])

private theorem VotesOk.startPhase {c : Nat} {ph : Phase} (h : VotesOk cfg s l)
    (hpc : s.master = .initScoreboard ph c) (hc : cfg.clientCount ≤ c) :
    VotesOk cfg (s.startPhase cfg ph) l := by
  have hreset : cfg.clientCount ≤ s.master.resetBelow cfg := by rw [hpc]; exact hc
  have hopen : ¬(s.master.Paused ∨ s.master = .terminated) := by simp [hpc, MasterPc.Paused]
  have hsend : VotesOk cfg (s.sendRequest cfg ph) l := by
    unfold Server.sendRequest
    split <;> exact h.goto rfl rfl rfl (.inr hreset) (fun h => absurd h hopen)
      (by simp [Server.setMaster])
  cases ph with
  | phase1 => exact hsend
  | phase2 st =>
      cases st with
      | requestSuccess => exact hsend
      | requestFail => exact hsend
      | clusterFail =>
          exact h.goto rfl rfl rfl (.inr hreset) (fun h => absurd h hopen)
            (by simp [Server.startPhase, Server.setMaster])
      | commitSuccess => exact h.term
      | commitFail => exact h.term

private theorem VotesOk.endWriteRet {i : Nat} {ph : Phase} {r : Ret} (h : VotesOk cfg s l)
    (hpc : s.master = .inEndWrite ph i) : VotesOk cfg (s.endWriteRet cfg ph i r) l := by
  have hreset : cfg.clientCount ≤ s.master.resetBelow cfg := by
    rw [hpc]
    exact Nat.le_refl _
  have hopen : ¬(s.master.Paused ∨ s.master = .terminated) := by simp [hpc, MasterPc.Paused]
  have hgo : ∀ t : Server, t.workers = s.workers → t.votesCount = s.votesCount →
      t.pauseSignal = s.pauseSignal → (∀ ph i v, t.master ≠ .sumVotes ph i v) → VotesOk cfg t l :=
    fun t hworkers hcount hpause hsum =>
      h.goto hworkers hcount hpause (.inr hreset) (fun h => absurd h hopen) hsum
  unfold Server.endWriteRet
  split
  · exact hgo _ rfl rfl rfl (by simp [Server.setMaster])
  · split
    · split
      · exact h.term
      · exact hgo _ rfl rfl rfl (by simp)
    · exact hgo _ rfl rfl rfl (by simp [Server.setMaster])
    · exact hgo _ rfl rfl rfl (by simp)
    · exact h.term

private theorem VotesOk.afterPhase {ph : Phase} {status : CommitStatus} (h : VotesOk cfg s l)
    (hpc : s.master = .phaseReturn ph status) : VotesOk cfg (s.afterPhase ph status) l := by
  have hopen : ¬(s.master.Paused ∨ s.master = .terminated) := by simp [hpc, MasterPc.Paused]
  have hgo : ∀ t : Server, t.workers = s.workers → t.votesCount = s.votesCount →
      t.pauseSignal = s.pauseSignal → t.master.resetBelow cfg = 0 →
      (∀ ph i v, t.master ≠ .sumVotes ph i v) → VotesOk cfg t l :=
    fun t hworkers hcount hpause hzero hsum =>
      h.goto hworkers hcount hpause (.inl (by omega)) (fun h => absurd h hopen) hsum
  cases ph with
  | phase1 => exact hgo _ rfl rfl rfl rfl (by simp [Server.afterPhase, Server.setMaster])
  | phase2 st =>
      cases status with
      | commitSuccess => exact hgo _ rfl rfl rfl rfl (by simp [Server.afterPhase])
      | commitFail => exact hgo _ rfl rfl rfl rfl (by simp [Server.afterPhase])
      | requestSuccess => exact h.term
      | requestFail => exact h.term
      | clusterFail => exact h.term

private theorem VotesOk.masterStep (h : VotesOk cfg s l) (hok : CountedOnce cfg (s, l) e)
    (hs : MasterStep cfg s e t) : VotesOk cfg t (l.record cfg s e) := by
  cases hs with
  | initSlot hpc hc =>
      simp only [CountedOnce, hpc] at hok
      simp only [VoteLog.record, hpc, if_pos hc]
      exact h.initSlot hpc hc (hok hc).1 (hok hc).2
  | clearNext hpc hv =>
      simp only [CountedOnce, hpc] at hok
      simp only [VoteLog.record, hpc, if_pos hv]
      exact h.clearNext hok
  | cleared hpc hv =>
      simp only [VoteLog.record, hpc, if_neg (not_lt.mpr hv)]
      exact h.goto rfl rfl rfl (.inl (Nat.zero_le _)) (fun _ => .inl trivial)
        (by simp [Server.setMaster])
  | startPhase hpc hc =>
      simp only [VoteLog.record, hpc, if_neg (not_lt.mpr hc)]
      exact h.startPhase hpc hc
  | phaseReturn hpc =>
      simp only [VoteLog.record, hpc]
      exact h.afterPhase hpc
  | endWriteRet hpc => exact h.endWriteRet hpc
  | @sumNext ph i v hpc hi =>
      simp only [VoteLog.record, hpc]
      refine h.move rfl rfl (.inl (by rw [hpc]; exact Nat.le_refl _)) (fun hsignal => ?_) ?_
      · simpa [hpc, MasterPc.Paused] using h.paused hsignal
      · intro ph' i' v' hpc'
        obtain ⟨-, rfl, rfl⟩ := MasterPc.sumVotes.inj hpc'
        rw [Finset.sum_range_succ]
        exact Nat.add_le_add (h.summed ph i v hpc) (h.counted i hi)
  | notExpired hpc =>
      refine h.move rfl rfl (.inl (by rw [hpc]; exact Nat.le_refl _)) (fun hsignal => ?_) ?_
      · simpa [hpc, MasterPc.Paused] using h.paused hsignal
      · intro ph' i' v' hpc'
        obtain ⟨-, rfl, rfl⟩ := MasterPc.sumVotes.inj hpc'
        exact Nat.zero_le _
  | pause hpc =>
      simp only [VoteLog.record, hpc]
      exact h.move rfl rfl (.inl (Nat.zero_le _)) (fun _ => .inl trivial) (by simp)
  | unpause hpc _ =>
      simp only [VoteLog.record, hpc]
      exact h.move rfl rfl (.inl (Nat.zero_le _)) (by simp) (by simp)
  | badStatus hpc _ =>
      simp only [VoteLog.record, hpc]
      exact h.move rfl rfl (.inl (Nat.zero_le _)) (fun _ => .inr rfl) (by simp [Server.term])
  | finish hpc _ | badSlot hpc _ =>
      simp only [VoteLog.record, hpc]
      exact h.term
  | scanned hpc _ | scanNext hpc _ _ | readSlot hpc _ =>
      simp only [VoteLog.record, hpc]
      exact h.goto rfl rfl rfl (.inl (Nat.zero_le _)) (fun _ => .inl trivial)
        (by simp [Server.setMaster])
  | expired hpc | broadcastBegWrite hpc _ | begWrite hpc _ | endWrite hpc =>
      exact h.goto rfl rfl rfl (.inl (by rw [hpc]; exact Nat.le_refl _))
        (by simp [hpc, MasterPc.Paused]) (by simp [Server.setMaster])
  | startRound hpc _ | collectNext hpc _ _ | collected hpc _ | sendPass hpc _ _ | sent hpc _
  | skipConn hpc _ _ _ | callConn hpc _ _ _ | passDone hpc _ | sumEnough hpc _ _
  | sumShort hpc _ _ =>
      simp only [VoteLog.record, hpc]
      exact h.goto rfl rfl rfl (.inl (by rw [hpc]; exact Nat.le_refl _))
        (by simp [hpc, MasterPc.Paused]) (by simp [Server.setMaster])

theorem votesOk_of_reachable (h : (voteMachine cfg).Reachable (CountedOnce cfg) (s, l)) :
    VotesOk cfg s l := by
  apply h.invariant (P := fun sl => VotesOk cfg sl.1 sl.2)
  · exact .init
  · rintro ⟨s, l⟩ e ⟨t, l'⟩ - ih hok hs
    obtain ⟨hstep, rfl⟩ := Machine.step_withHistory.mp hs
    rcases step_cases hstep with hm | ⟨w, hw, hm⟩
    · exact ih.masterStep hok hm
    · exact ih.workerStep hok hw hm

-- In every run in which each client is counted once, `wait_for_votes` leaves by the
-- count only when every slot was written since it was reset.
theorem votes_distinct {ph : Phase} {i v : Nat}
    (h : (voteMachine cfg).Reachable (CountedOnce cfg) (s, l))
    (hpc : s.master = .sumVotes ph i v) (hv : cfg.clientCount ≤ v) :
    ∀ c < cfg.clientCount, l.written c = true := by
  have hok := votesOk_of_reachable h
  have hsum := hok.summed ph i v hpc
  have hcard : (Finset.range cfg.clientCount).card ≤ ∑ w ∈ Finset.range i, l.count cfg w := by
    rw [Finset.card_range]
    exact hv.trans hsum
  intro c hc
  refine hok.written c ?_ (Tally.ne_none_of_le_sum_fiber hcard c (Finset.mem_range.mpr hc))
  rw [hpc]
  exact hc

def handleVote (i : Nat) (id : Int) : List Event :=
  [.begRead 0 i (.data ⟨⟨.voteYes, id, 0, 0, 0⟩, 0⟩), .worker 0, .endRead 0 i, .worker 0, .worker 0,
    .timeEnd 0 0]

def requestEvents : List Event :=
  .replicate 4 .master ++ [.begWrite 0 ⟨requestMsg .request 0, 0⟩, .endWrite 0,
    .endWriteRet 0 .enone, .worker 0, .worker 0]

theorem votes_distinct_pair : ∃ (s : Server) (l : VoteLog),
    (voteMachine (.oneThread .udpQj 2 100 1)).Reachable
      (CountedOnce (.oneThread .udpQj 2 100 1)) (s, l) ∧
    s.master = .sumVotes .phase1 1 2 ∧ ∀ c < 2, l.written c = true := by
  obtain ⟨⟨s, l⟩, hrun, hs⟩ := Machine.exists_run_of_eval
    (voteMachine (.oneThread .udpQj 2 100 1)) (CountedOnce (.oneThread .udpQj 2 100 1))
    (requestEvents ++ handleVote 0 1 ++ handleVote 1 2 ++ [.clock false, .master])
    (fun sl => sl.1.master == .sumVotes .phase1 1 2) (by decide +kernel)
  have hpc := beq_iff_eq.mp hs
  exact ⟨s, l, hrun.reachable, hpc, votes_distinct hrun.reachable hpc (Nat.le_refl 2)⟩

-- The vote of client 1 arrives twice and is counted twice: `wait_for_votes` leaves, and
-- the slot of client 2 has not been written.
theorem votes_counted_twice : ∃ s l,
    (voteMachine (.oneThread .udpQj 2 100 1)).Reachable Machine.always (s, l) ∧
    s.master = .sumVotes .phase1 1 2 ∧ l.written 1 = false := by
  obtain ⟨⟨s, l⟩, hrun, hs⟩ := Machine.exists_run_of_eval
    (voteMachine (.oneThread .udpQj 2 100 1)) Machine.always
    (requestEvents ++ handleVote 0 1 ++ [.begRead 0 1 .eagain, .worker 0, .worker 0, .worker 0] ++
      handleVote 0 1 ++ [.clock false, .master])
    (fun sl => decide (sl.1.master = .sumVotes .phase1 1 2 ∧ sl.2.written 1 = false))
    (by decide +kernel)
  obtain ⟨hpc, hwritten⟩ := of_decide_eq_true hs
  exact ⟨s, l, hrun.reachable, hpc, hwritten⟩

end Q2pc
