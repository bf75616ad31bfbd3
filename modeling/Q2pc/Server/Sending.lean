import Mathlib.Algebra.BigOperators.Group.Finset.Piecewise
import Q2pc.Lib.History
import Q2pc.Server.Cases

namespace Q2pc

open Function (update)

variable {cfg : Config} {s t : Server} {e : Event} {i : Nat} {r : Ret}

-- What `end_write` has returned on each connection since send_request was last called, and
-- `total_rtos` at that time.
structure SendLog where
  results : Nat → List Ret
  start : Nat

def SendLog.init : SendLog := ⟨fun _ => [], 0⟩

def SendLog.add (l : SendLog) (i : Nat) (r : Ret) : SendLog :=
  { l with results := update l.results i (l.results i ++ [r]) }

def SendLog.record (cfg : Config) (l : SendLog) (s : Server) : Event → SendLog
  | .master =>
      match s.master with
      | .initScoreboard ph i =>
          if cfg.clientCount ≤ i ∧ (s.startPhase cfg ph).master = .collect ph 0 then
            ⟨fun _ => [], s.totalRtos⟩
          else l
      | _ => l
  | .endWriteRet i r => l.add i r
  | _ => l

def sendMachine (cfg : Config) : Machine (Server × SendLog) Event :=
  (serverMachine cfg).withHistory .init (SendLog.record cfg)

theorem reachable_iff_sendLog : (serverMachine cfg).Reachable Machine.always s ↔
    ∃ l, (sendMachine cfg).Reachable Machine.always (s, l) :=
  Machine.reachable_withHistory

namespace SendLog

variable {l : SendLog}

def count (l : SendLog) (x : Ret) (i : Nat) : Nat := (l.results i).count x

def tolerated (l : SendLog) (i : Nat) : Nat := min (l.count .rtofired i) maxRtos.toNat

-- One entry of `conn_rtofired_count` counts the timeouts of its connection, until it says
-- that the message is sent.
def Counts (l : SendLog) (i : Nat) (count : Int) : Prop :=
  (l.count .enone i = 0 ∧ count = l.count .rtofired i) ∨ (l.count .enone i = 1 ∧ count = -1)

-- `commited` is the number of the connections that the message is sent on.
structure Linked (cfg : Config) (l : SendLog) (s : Server) : Prop where
  counts : ∀ i < cfg.clientCount, l.Counts i (s.connRtofiredCount i)
  commited : s.commited = ((Finset.range cfg.clientCount).filter fun i => l.count .enone i = 1).card

def Place (cfg : Config) (l : SendLog) (s : Server) : MasterPc → Prop
  | .collect _ _ | .begWrite _ _ => ∀ i, l.results i = []
  | .sendAll _ | .sendConn _ _ => l.Linked cfg s
  | .endWrite _ i | .inEndWrite _ i =>
      l.Linked cfg s ∧ i < cfg.clientCount ∧ 0 ≤ s.connRtofiredCount i
  | _ => True

theorem count_add (l : SendLog) (i : Nat) (r x : Ret) (j : Nat) :
    (l.add i r).count x j = l.count x j + if j = i ∧ r = x then 1 else 0 := by
  unfold count add
  by_cases hj : j = i
  · subst hj
    simp [List.count_singleton]
  · simp [hj]

theorem count_add_of_ne {x : Ret} (h : r ≠ x) : (l.add i r).count x = l.count x := by
  funext j
  simp [count_add, h]

theorem tolerated_add_of_ne (h : r ≠ .rtofired) : (l.add i r).tolerated = l.tolerated := by
  funext j
  rw [tolerated, tolerated, count_add_of_ne h]

theorem tolerated_add (l : SendLog) (i j : Nat) : (l.add i .rtofired).tolerated j =
    l.tolerated j + if j = i ∧ l.count .rtofired i < maxRtos.toNat then 1 else 0 := by
  unfold tolerated
  rw [count_add]
  by_cases hj : j = i
  · subst hj
    simp only [true_and, and_true, if_true]
    split <;> omega
  · simp [hj]

end SendLog

structure SendOk (cfg : Config) (s : Server) (l : SendLog) : Prop where
  enones : ∀ i, l.count .enone i ≤ 1
  rtos : ∀ i, maxRtos.toNat < l.count .rtofired i → s.master = .terminated
  total : s.totalRtos = l.start + ∑ i ∈ Finset.range cfg.clientCount, l.tolerated i
  place : l.Place cfg s s.master

variable {l : SendLog}

theorem SendOk.init : SendOk cfg .init .init where
  enones := fun _ => Nat.zero_le _
  rtos := by
    intro i hi
    exact absurd hi (Nat.not_lt_zero _)
  total := by simp [Server.init, SendLog.init, SendLog.tolerated, SendLog.count]
  place := trivial

private theorem SendOk.move (h : SendOk cfg s l) (hpc : s.master ≠ .terminated)
    (htotal : t.totalRtos = s.totalRtos) (hplace : l.Place cfg t t.master) : SendOk cfg t l where
  enones := h.enones
  rtos := fun i hi => absurd (h.rtos i hi) hpc
  total := htotal.trans h.total
  place := hplace

private theorem SendOk.fresh (htotal : t.totalRtos = s.totalRtos) {ph : Phase}
    (hpc : t.master = .collect ph 0) : SendOk cfg t ⟨fun _ => [], s.totalRtos⟩ where
  enones := fun _ => Nat.zero_le _
  rtos := by
    intro i hi
    exact absurd hi (Nat.not_lt_zero _)
  total := by simp [htotal, SendLog.tolerated, SendLog.count]
  place := by
    rw [hpc]
    exact fun _ => rfl

private theorem SendOk.startPhase {ph : Phase} {j : Nat} (h : SendOk cfg s l)
    (htype : cfg.transType ≠ .udpQj) (hpc : s.master = .initScoreboard ph j)
    (hj : cfg.clientCount ≤ j) : SendOk cfg (s.startPhase cfg ph) (l.record cfg s .master) := by
  have hrun : s.master ≠ .terminated := by simp [hpc]
  have hcollect : ∀ ph, s.startPhase cfg ph = s.setMaster (.collect ph 0) →
      s.master = .initScoreboard ph j →
      SendOk cfg (s.startPhase cfg ph) (l.record cfg s .master) := by
    intro ph heq hpc
    have hlog : l.record cfg s .master = ⟨fun _ => [], s.totalRtos⟩ := by
      simp only [SendLog.record, hpc, heq]
      exact if_pos ⟨hj, rfl⟩
    rw [hlog, heq]
    exact .fresh rfl rfl
  have hsame : ∀ ph, s.master = .initScoreboard ph j →
      (s.startPhase cfg ph).master ≠ .collect ph 0 → l.record cfg s .master = l := by
    intro ph hpc hne
    simp only [SendLog.record, hpc]
    exact if_neg fun hcall => hne hcall.2
  cases ph with
  | phase1 => exact hcollect _ (if_neg htype) hpc
  | phase2 status =>
      cases status with
      | requestSuccess | requestFail => exact hcollect _ (if_neg htype) hpc
      | clusterFail | commitSuccess | commitFail =>
          rw [hsame _ hpc (by simp [Server.startPhase, Server.setMaster, Server.term])]
          exact h.move hrun rfl trivial

private theorem SendOk.next {ph : Phase} (h : SendOk cfg s l) (hrun : s.master ≠ .terminated)
    (hpc : t.master = .sendConn ph (i + 1)) (hlinked : (l.add i r).Linked cfg t)
    (henones : (l.add i r).count .enone i ≤ 1)
    (hrtos : (l.add i r).count .rtofired i ≤ maxRtos.toNat)
    (htotal : t.totalRtos =
      l.start + ∑ j ∈ Finset.range cfg.clientCount, (l.add i r).tolerated j) :
    SendOk cfg t (l.add i r) where
  enones := by
    intro j
    by_cases hj : j = i
    · rwa [hj]
    · have := h.enones j
      simpa [SendLog.count_add, hj] using this
  rtos := by
    intro j hj
    by_cases hji : j = i
    · rw [hji] at hj
      omega
    · simp only [SendLog.count_add, hji, false_and, if_false, Nat.add_zero] at hj
      exact absurd (h.rtos j hj) hrun
  total := htotal
  place := by
    rw [hpc]
    exact hlinked

private theorem SendLog.Linked.add (h : l.Linked cfg s)
    (hother : ∀ j, j ≠ i → t.connRtofiredCount j = s.connRtofiredCount j)
    (hcount : (l.add i r).Counts i (t.connRtofiredCount i))
    (hcommited : t.commited = ((Finset.range cfg.clientCount).filter fun j =>
      (l.add i r).count .enone j = 1).card) : (l.add i r).Linked cfg t where
  counts := by
    intro j hj
    by_cases hji : j = i
    · rwa [hji]
    · have hcounts := h.counts j hj
      rw [← hother j hji] at hcounts
      simpa [SendLog.Counts, SendLog.count_add, hji] using hcounts
  commited := hcommited

-- The results that end the process: it is terminated with what was tolerated so far.
private theorem SendOk.term (h : SendOk cfg s l) (hr : r ≠ .enone)
    (htolerated : (l.add i r).tolerated = l.tolerated) : SendOk cfg s.term (l.add i r) where
  enones := by
    rw [SendLog.count_add_of_ne hr]
    exact h.enones
  rtos := fun _ _ => rfl
  total := by
    rw [htolerated]
    exact h.total
  place := trivial

private theorem card_commited (hi : i < cfg.clientCount) (h0 : l.count .enone i = 0) :
    ((Finset.range cfg.clientCount).filter fun j => (l.add i .enone).count .enone j = 1).card =
      ((Finset.range cfg.clientCount).filter fun j => l.count .enone j = 1).card + 1 := by
  have hset : (Finset.range cfg.clientCount).filter (fun j =>
      (l.add i .enone).count .enone j = 1) =
        insert i ((Finset.range cfg.clientCount).filter fun j => l.count .enone j = 1) := by
    ext j
    simp only [Finset.mem_filter, Finset.mem_insert, Finset.mem_range, SendLog.count_add]
    by_cases hj : j = i
    · subst hj
      simp [hi, h0]
    · simp [hj]
  rw [hset, Finset.card_insert_of_notMem]
  simp [h0]

private theorem SendLog.Linked.unsent (h : l.Linked cfg s) (hr : r ≠ .enone)
    (h0 : l.count .enone i = 0)
    (hother : ∀ j, j ≠ i → t.connRtofiredCount j = s.connRtofiredCount j)
    (hcount : t.connRtofiredCount i = (l.add i r).count .rtofired i)
    (hcommited : t.commited = s.commited) : (l.add i r).Linked cfg t := by
  have hsame : (l.add i r).count .enone = l.count .enone := SendLog.count_add_of_ne hr
  refine h.add hother (.inl ⟨?_, hcount⟩) ?_
  · rw [hsame, h0]
  · rw [hsame, hcommited]
    exact h.commited

private theorem SendOk.inCall {ph : Phase} (h : SendOk cfg s l)
    (hpc : s.master = .inEndWrite ph i) :
    l.Linked cfg s ∧ i < cfg.clientCount ∧ l.count .enone i = 0 ∧
      s.connRtofiredCount i = l.count .rtofired i := by
  have hplace := h.place
  rw [hpc] at hplace
  obtain ⟨hlinked, hi, hpos⟩ := hplace
  rcases hlinked.counts i hi with ⟨henones, hcount⟩ | ⟨_, hneg⟩
  · exact ⟨hlinked, hi, henones, hcount⟩
  · omega

private theorem SendOk.rtofired {ph : Phase} (h : SendOk cfg s l)
    (hpc : s.master = .inEndWrite ph i) (hroom : s.connRtofiredCount i < maxRtos) :
    SendOk cfg { s with
      connRtofiredCount := update s.connRtofiredCount i (s.connRtofiredCount i + 1)
      totalRtos := s.totalRtos + 1
      master := .sendConn ph (i + 1) } (l.add i .rtofired) := by
  obtain ⟨hlinked, hi, henones, hcount⟩ := h.inCall hpc
  have hlt : l.count .rtofired i < maxRtos.toNat := by omega
  refine h.next (by simp [hpc]) rfl (hlinked.unsent (by simp) henones
    (fun j hj => Function.update_of_ne hj _ _) ?_ rfl) ?_ ?_ ?_
  · show update s.connRtofiredCount i (s.connRtofiredCount i + 1) i = _
    rw [Function.update_self, SendLog.count_add, hcount]
    simp
  · rw [SendLog.count_add_of_ne (by simp)]
    exact h.enones i
  · rw [SendLog.count_add]
    simp only [and_self, if_true]
    omega
  · simp only [SendLog.tolerated_add, Finset.sum_add_distrib, hlt, and_true,
      Finset.sum_ite_eq', Finset.mem_range, hi, if_true, ← Nat.add_assoc, ← h.total]

private theorem SendOk.eagain {ph : Phase} (h : SendOk cfg s l)
    (hpc : s.master = .inEndWrite ph i) :
    SendOk cfg (s.setMaster (.sendConn ph (i + 1))) (l.add i .eagain) := by
  obtain ⟨hlinked, hi, henones, hcount⟩ := h.inCall hpc
  have hrun : s.master ≠ .terminated := by simp [hpc]
  have hrtos : (l.add i .eagain).count .rtofired = l.count .rtofired :=
    SendLog.count_add_of_ne (by simp)
  refine h.next hrun rfl (hlinked.unsent (by simp) henones (fun _ _ => rfl) ?_ rfl) ?_ ?_ ?_
  · rw [hrtos]
    exact hcount
  · rw [SendLog.count_add_of_ne (by simp)]
    exact h.enones i
  · rw [hrtos]
    by_contra hlt
    exact hrun (h.rtos i (by omega))
  · rw [SendLog.tolerated_add_of_ne (by simp)]
    exact h.total

private theorem SendOk.enone {ph : Phase} (h : SendOk cfg s l)
    (hpc : s.master = .inEndWrite ph i) :
    SendOk cfg { s with
      connRtofiredCount := update s.connRtofiredCount i (-1)
      commited := s.commited + 1
      master := .sendConn ph (i + 1) } (l.add i .enone) := by
  obtain ⟨hlinked, hi, henones, -⟩ := h.inCall hpc
  have hrun : s.master ≠ .terminated := by simp [hpc]
  have hone : (l.add i .enone).count .enone i = 1 := by
    rw [SendLog.count_add, henones]
    simp
  refine h.next hrun rfl (hlinked.add (fun j hj => Function.update_of_ne hj _ _)
    (.inr ⟨hone, Function.update_self ..⟩) ?_) hone.le ?_ ?_
  · rw [card_commited hi henones]
    show s.commited + 1 = _
    rw [hlinked.commited]
  · rw [SendLog.count_add_of_ne (by simp)]
    by_contra hlt
    exact hrun (h.rtos i (by omega))
  · rw [SendLog.tolerated_add_of_ne (by simp)]
    exact h.total

private theorem SendOk.endWriteRet {ph : Phase} (h : SendOk cfg s l)
    (htype : cfg.transType ≠ .udpQj) (hpc : s.master = .inEndWrite ph i) :
    SendOk cfg (s.endWriteRet cfg ph i r) (l.add i r) := by
  have hret : s.endWriteRet cfg ph i r = _ := if_neg htype
  rw [hret]
  cases r with
  | rtofired =>
      dsimp only
      by_cases hfull : maxRtos ≤ s.connRtofiredCount i
      · have hcount := (h.inCall hpc).2.2.2
        rw [if_pos hfull]
        refine h.term (by simp) ?_
        funext j
        rw [SendLog.tolerated_add, if_neg (by omega), Nat.add_zero]
      · rw [if_neg hfull]
        exact h.rtofired hpc (by omega)
  | eagain => exact h.eagain hpc
  | enone => exact h.enone hpc
  | efin => exact h.term (by simp) (SendLog.tolerated_add_of_ne (by simp))

-- Only where a phase may start does the log depend on a step of the master.
private theorem record_master (h : ∀ ph j, s.master ≠ .initScoreboard ph j) :
    l.record cfg s .master = l := by
  cases hpc : s.master with
  | initScoreboard ph j => exact absurd hpc (h ph j)
  | _ => simp only [SendLog.record, hpc]

private theorem linked_of_collected (h : ∀ i, l.results i = [])
    (hcounts : t.connRtofiredCount = fun _ => 0) (hcommited : t.commited = 0) :
    l.Linked cfg t where
  counts := by
    intro i _
    rw [hcounts]
    exact .inl ⟨by simp [SendLog.count, h], by simp [SendLog.count, h]⟩
  commited := by simp [hcommited, SendLog.count, h]

private theorem SendOk.afterPhase {ph : Phase} {status : CommitStatus} (h : SendOk cfg s l)
    (hrun : s.master ≠ .terminated) : SendOk cfg (s.afterPhase ph status) l := by
  unfold Server.afterPhase
  split <;> exact h.move hrun rfl trivial

private theorem SendOk.masterStep (h : SendOk cfg s l) (htype : cfg.transType ≠ .udpQj)
    (hs : MasterStep cfg s e t) : SendOk cfg t (l.record cfg s e) := by
  have hplace := h.place
  cases hs with
  | startPhase hpc hi => exact h.startPhase htype hpc hi
  | @initSlot ph j hpc hj =>
      have hlog : l.record cfg s .master = l := by
        simp only [SendLog.record, hpc]
        exact if_neg fun hcall => absurd hcall.1 (by omega)
      rw [hlog]
      exact h.move (by simp [hpc]) rfl trivial
  | collectNext hpc =>
      rw [hpc] at hplace
      rw [record_master (by simp [hpc])]
      exact h.move (by simp [hpc]) rfl hplace
  | begWrite hpc =>
      rw [hpc] at hplace
      exact h.move (by simp [hpc]) rfl hplace
  | broadcastBegWrite _ hqj => exact absurd hqj htype
  | collected hpc =>
      rw [hpc] at hplace
      rw [record_master (by simp [hpc])]
      exact h.move (by simp [hpc]) rfl (linked_of_collected hplace rfl rfl)
  | sendPass hpc | skipConn hpc | passDone hpc =>
      rw [hpc] at hplace
      rw [record_master (by simp [hpc])]
      exact h.move (by simp [hpc]) rfl ⟨hplace.counts, hplace.commited⟩
  | callConn hpc hi _ hpos =>
      rw [hpc] at hplace
      rw [record_master (by simp [hpc])]
      exact h.move (by simp [hpc]) rfl ⟨⟨hplace.counts, hplace.commited⟩, hi, hpos⟩
  | endWrite hpc =>
      rw [hpc] at hplace
      obtain ⟨hlinked, hi, hpos⟩ := hplace
      exact h.move (by simp [hpc]) rfl ⟨⟨hlinked.counts, hlinked.commited⟩, hi, hpos⟩
  | endWriteRet hpc => exact h.endWriteRet htype hpc
  | phaseReturn hpc =>
      rw [record_master (by simp [hpc])]
      exact h.afterPhase (by simp [hpc])
  | expired hpc | notExpired hpc => exact h.move (by simp [hpc]) rfl trivial
  | finish hpc | startRound hpc | sent hpc | sumNext hpc | sumEnough hpc | sumShort hpc
  | pause hpc | scanNext hpc | scanned hpc | readSlot hpc | badSlot hpc | clearNext hpc
  | cleared hpc | unpause hpc | badStatus hpc =>
      rw [record_master (by simp [hpc])]
      exact h.move (by simp [hpc]) rfl trivial

private theorem WorkerStep.sending {w : Nat} (hs : WorkerStep cfg s w e t) :
    t.master = s.master ∧ t.connRtofiredCount = s.connRtofiredCount ∧
      t.commited = s.commited ∧ t.totalRtos = s.totalRtos ∧ l.record cfg s e = l := by
  cases hs with
  | begRead | endRead | timeEnd | delete => exact ⟨rfl, rfl, rfl, rfl, rfl⟩
  | _ => exact ⟨rfl, rfl, rfl, rfl, rfl⟩

private theorem SendLog.Place.congr {pc : MasterPc} (h : l.Place cfg s pc)
    (hcounts : t.connRtofiredCount = s.connRtofiredCount) (hcommited : t.commited = s.commited) :
    l.Place cfg t pc := by
  have hlinked : l.Linked cfg s → l.Linked cfg t :=
    fun hl => ⟨hcounts ▸ hl.counts, hcommited ▸ hl.commited⟩
  cases pc with
  | sendAll | sendConn => exact hlinked h
  | endWrite | inEndWrite => exact ⟨hlinked h.1, h.2.1, hcounts ▸ h.2.2⟩
  | _ => exact h

private theorem SendOk.workerStep {w : Nat} (h : SendOk cfg s l) (hs : WorkerStep cfg s w e t) :
    SendOk cfg t (l.record cfg s e) := by
  obtain ⟨hmaster, hcounts, hcommited, htotal, hlog⟩ := hs.sending (l := l)
  rw [hlog]
  refine ⟨h.enones, fun i hi => ?_, htotal.trans h.total, ?_⟩
  · rw [hmaster]
    exact h.rtos i hi
  · rw [hmaster]
    exact h.place.congr hcounts hcommited

theorem sendOk_of_reachable (htype : cfg.transType ≠ .udpQj)
    (h : (sendMachine cfg).Reachable Machine.always (s, l)) : SendOk cfg s l := by
  apply h.invariant (P := fun sl => SendOk cfg sl.1 sl.2)
  · exact .init
  · rintro ⟨s, l⟩ e ⟨t, l'⟩ _ hok _ hs
    obtain ⟨hs, rfl⟩ := Machine.step_withHistory.mp hs
    rcases step_cases hs with hm | ⟨w, _, hm⟩
    · exact hok.masterStep htype hm
    · exact hok.workerStep hm

theorem enones_of_endWrite (h : SendOk cfg s l) (hs : s.step cfg (.endWrite i) = some t) :
    Ret.enone ∉ l.results i := by
  have hplace := h.place
  rcases step_cases hs with hm | ⟨w, _, hm⟩
  · cases hm with
    | endWrite hpc =>
        rw [hpc] at hplace
        obtain ⟨hlinked, hi, hpos⟩ := hplace
        rcases hlinked.counts i hi with ⟨h0, _⟩ | ⟨_, hneg⟩
        · exact List.count_eq_zero.mp h0
        · omega
  · cases hm

-- send_request returns with the stop signal down: every connection is counted.
theorem enones_of_return {ph : Phase} (h : SendOk cfg s l) (hpc : s.master = .sendAll ph)
    (hs : s.step cfg .master = some t) (hret : t.master = .poll ph) (hstop : t.stopSignal = false)
    (hi : i < cfg.clientCount) : l.count .enone i = 1 := by
  have hplace := h.place
  rw [hpc] at hplace
  have hall : cfg.clientCount ≤ s.commited := by
    simp only [Server.step, Server.masterStep, hpc] at hs
    split at hs
    next =>
        obtain rfl := Option.some.inj hs
        simp [Server.setMaster] at hret
    next hleft =>
        obtain rfl := Option.some.inj hs
        have hstop : s.stopSignal = false := hstop
        by_contra hlt
        exact hleft ⟨by omega, hstop⟩
  have hcard := hplace.commited
  have hfilter : (Finset.range cfg.clientCount).filter (fun j => l.count .enone j = 1) =
      Finset.range cfg.clientCount := by
    apply Finset.eq_of_subset_of_card_le (Finset.filter_subset _ _)
    rw [Finset.card_range]
    omega
  have hmem : i ∈ (Finset.range cfg.clientCount).filter fun j => l.count .enone j = 1 := by
    rw [hfilter]
    exact Finset.mem_range.mpr hi
  exact (Finset.mem_filter.mp hmem).2

-- A timeout is tolerated, or one too many ends the process.
theorem rtofired_step (h : SendOk cfg s l) (htype : cfg.transType ≠ .udpQj)
    (hs : s.step cfg (.endWriteRet i .rtofired) = some t) :
    (l.count .rtofired i < maxRtos.toNat → t.master ≠ .terminated ∧
      t.totalRtos = s.totalRtos + 1) ∧
    (maxRtos.toNat ≤ l.count .rtofired i → t = s.term) := by
  have hplace := h.place
  rcases step_cases hs with hm | ⟨w, _, hm⟩
  · cases hm with
    | endWriteRet hpc =>
        rw [hpc] at hplace
        obtain ⟨hlinked, hi, hpos⟩ := hplace
        have hcount : s.connRtofiredCount i = l.count .rtofired i := by
          rcases hlinked.counts i hi with ⟨_, hcount⟩ | ⟨_, hneg⟩
          · exact hcount
          · omega
        simp only [Server.endWriteRet, if_neg htype]
        refine ⟨fun hlt => ?_, fun hle => if_pos (by omega)⟩
        rw [if_neg (by omega)]
        exact ⟨by simp, rfl⟩
  · cases hm

-- send_request commits each client once, whatever `end_write` returns on the connections
-- and whenever the stop signal is raised.
theorem send_request_commits_once (htype : cfg.transType ≠ .udpQj)
    (h : (sendMachine cfg).Reachable Machine.always (s, l)) :
    -- end_write is not called after ENONE
    (∀ i t, s.step cfg (.endWrite i) = some t → Ret.enone ∉ l.results i) ∧
    -- send_request returns with the stop signal down
    (∀ ph t, s.master = .sendAll ph → s.step cfg .master = some t → t.master = .poll ph →
      t.stopSignal = false → ∀ i < cfg.clientCount, l.count .enone i = 1) ∧
    -- timeouts are tolerated up to MAX_RTOS, the next one ends the process
    (∀ i t, s.step cfg (.endWriteRet i .rtofired) = some t →
      (l.count .rtofired i < maxRtos.toNat → t.master ≠ .terminated ∧
        t.totalRtos = s.totalRtos + 1) ∧
      (maxRtos.toNat ≤ l.count .rtofired i → t = s.term)) ∧
    (∀ i, maxRtos.toNat < l.count .rtofired i → s.master = .terminated) ∧
    -- total_rtos has grown by the timeouts that were tolerated
    s.totalRtos = l.start + ∑ i ∈ Finset.range cfg.clientCount, l.tolerated i := by
  have hok := sendOk_of_reachable htype h
  exact ⟨fun i t hs => enones_of_endWrite hok hs,
    fun ph t hpc hs hret hstop i hi => enones_of_return hok hpc hs hret hstop hi,
    fun i t hs => rtofired_step hok htype hs, hok.rtos, hok.total⟩

-- Two clients, the first of which times out once and is busy once.
def retryEvents : List Event :=
  .replicate 5 .master ++ .begWrite 0 ⟨requestMsg .request 0, 0⟩ ::
  .master :: .begWrite 1 ⟨requestMsg .request 0, 0⟩ ::
  .replicate 3 .master ++ [.endWrite 0, .endWriteRet 0 .rtofired, .master, .endWrite 1,
    .endWriteRet 1 .enone, .master, .master, .master, .endWrite 0, .endWriteRet 0 .eagain,
    .master, .master, .master, .master, .endWrite 0, .endWriteRet 0 .enone, .master, .master]

theorem send_request_commits_once_retry : ∃ s l,
    (sendMachine (.oneThread .udpLn 2 100 1)).Reachable Machine.always (s, l) ∧
      s.master = .sendAll .phase1 ∧ l.results 0 = [.rtofired, .eagain, .enone] ∧
      s.totalRtos = l.start + ∑ i ∈ Finset.range 2, l.tolerated i := by
  let cfg : Config := .oneThread .udpLn 2 100 1
  obtain ⟨⟨s, l⟩, hrun, hs⟩ := Machine.exists_run_of_eval (sendMachine cfg) Machine.always
    retryEvents (fun sl => sl.1.master = .sendAll .phase1 ∧
      sl.2.results 0 = [.rtofired, .eagain, .enone]) (by decide +kernel)
  obtain ⟨hpc, hresults⟩ : s.master = .sendAll .phase1 ∧
      l.results 0 = [.rtofired, .eagain, .enone] := by simpa using hs
  have hcommits := send_request_commits_once (show cfg.transType ≠ .udpQj by decide) hrun.reachable
  exact ⟨s, l, hrun.reachable, hpc, hresults, hcommits.2.2.2.2⟩

end Q2pc
