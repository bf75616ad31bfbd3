import Q2pc.Rudp.Session
import Q2pc.System.Invariant
import Mathlib.Data.Finset.Card
import Mathlib.Data.Finset.Range

namespace Q2pc

open Function (update)

variable {cfg : Config} {srv t : Server} {e : Event} {conn conn' : Nat → RudpConn} {i j k w : Nat}
  {ph : Phase}

-- `k` messages are written on connection `i` and acknowledged.
def Ready (conn : Nat → RudpConn) (i k : Nat) : Prop :=
  (conn i).master = .idle ∧ (conn i).server.wrote.length = k

-- `k` messages are written on connection `i`, the last is still to be acknowledged.
def Filled (conn : Nat → RudpConn) (i k : Nat) : Prop :=
  (conn i).master = .filled ∧ (conn i).server.wrote.length = k

def InCall (conn : Nat → RudpConn) (i : Nat) : Prop := ∃ pc, (conn i).master = .call pc

def Collecting (cfg : Config) (srv : Server) (conn : Nat → RudpConn) (ph : Phase) (j : Nat) :
    Prop :=
  ∀ i < cfg.clientCount, (i < j → Filled conn i (srv.stage ph + 1)) ∧
    (j ≤ i → Ready conn i (srv.stage ph))

def Sent (srv : Server) : Nat → Prop := fun i => srv.connRtofiredCount i < 0

instance (srv : Server) : DecidablePred (Sent srv) := fun _ => inferInstanceAs (Decidable (_ < _))

structure Sending (cfg : Config) (srv : Server) (conn : Nat → RudpConn) (ph : Phase) : Prop where
  wrote : ∀ i < cfg.clientCount, (conn i).server.wrote.length = srv.stage ph + 1
  sent : ∀ i < cfg.clientCount, Sent srv i → (conn i).master = .idle
  unsent : ∀ i < cfg.clientCount, ¬Sent srv i →
    (conn i).master = .filled ∨ srv.master = .inEndWrite ph i
  commited : srv.commited = ((Finset.range cfg.clientCount).filter (Sent srv)).card

def AllReady (cfg : Config) (conn : Nat → RudpConn) (k : Nat) : Prop :=
  ∀ i < cfg.clientCount, Ready conn i k

-- How far the connections are at each position of the master, unless the stop signal
-- has cut a loop short.
def Aligned (cfg : Config) (srv : Server) (conn : Nat → RudpConn) : Prop :=
  match srv.master with
  | .requests => srv.stopSignal = false → AllReady cfg conn (srv.stage .phase1)
  | .initScoreboard ph _ => srv.stopSignal = false → AllReady cfg conn (srv.stage ph)
  | .collect ph j => srv.stopSignal = false → Collecting cfg srv conn ph j
  | .begWrite ph j => j < cfg.clientCount ∧ Ready conn j (srv.stage ph) ∧
      (srv.stopSignal = false → Collecting cfg srv conn ph j)
  | .sendAll ph | .sendConn ph _ => srv.stopSignal = false → Sending cfg srv conn ph
  | .endWrite ph j => j < cfg.clientCount ∧ (conn j).master = .filled ∧ ¬Sent srv j ∧
      (srv.stopSignal = false → Sending cfg srv conn ph)
  | .inEndWrite ph j => j < cfg.clientCount ∧ InCall conn j ∧ ¬Sent srv j ∧
      (srv.stopSignal = false → Sending cfg srv conn ph)
  | .poll ph | .sumVotes ph _ _ | .dopauseAll ph | .scan ph _ _ | .readSlot ph _ _
  | .clearCount ph _ _ | .unpauseAll ph _ =>
      srv.stopSignal = false → AllReady cfg conn (srv.stage ph + 1)
  | .phaseReturn ph status => srv.stopSignal = false →
      (ph = .phase2 .clusterFail ∧ status = .clusterFail) ∨ AllReady cfg conn (srv.stage ph + 1)
  | .terminated => True

-- The same to the master: as far with the messages, and in a call if it was.
structure SameCalls (c c' : RudpConn) : Prop where
  wrote : c'.server.wrote.length = c.server.wrote.length
  master : c'.master = c.master ∨ (∃ pc, c.master = .call pc) ∧ ∃ pc, c'.master = .call pc

theorem SameCalls.refl (c : RudpConn) : SameCalls c c := ⟨rfl, .inl rfl⟩

theorem SameCalls.idle {c c' : RudpConn} (h : SameCalls c c') (hm : c.master = .idle) :
    c'.master = .idle := by
  rcases h.master with heq | ⟨⟨pc, hpc⟩, -⟩
  · rw [heq, hm]
  · simp [hm] at hpc

theorem SameCalls.filled {c c' : RudpConn} (h : SameCalls c c') (hm : c.master = .filled) :
    c'.master = .filled := by
  rcases h.master with heq | ⟨⟨pc, hpc⟩, -⟩
  · rw [heq, hm]
  · simp [hm] at hpc

@[simp] theorem Server.stage_setMaster (s : Server) (pc : MasterPc) (ph : Phase) :
    (s.setMaster pc).stage ph = s.stage ph := by
  cases ph <;> rfl

theorem Ready.congr (h : Ready conn i k) (hs : SameCalls (conn i) (conn' i)) : Ready conn' i k :=
  ⟨hs.idle h.1, hs.wrote.trans h.2⟩

theorem Filled.congr (h : Filled conn i k) (hs : SameCalls (conn i) (conn' i)) : Filled conn' i k :=
  ⟨hs.filled h.1, hs.wrote.trans h.2⟩

theorem InCall.congr (h : InCall conn i) (hs : SameCalls (conn i) (conn' i)) : InCall conn' i := by
  obtain ⟨pc, hpc⟩ := h
  rcases hs.master with heq | ⟨-, hpc'⟩
  · exact ⟨pc, heq.trans hpc⟩
  · exact hpc'

theorem Aligned.congr (h : Aligned cfg srv conn) (hmaster : t.master = srv.master)
    (hreq : t.requests = srv.requests) (hcommited : t.commited = srv.commited)
    (hrto : t.connRtofiredCount = srv.connRtofiredCount)
    (hstop : t.stopSignal = false → srv.stopSignal = false)
    (hconn : ∀ i < cfg.clientCount, SameCalls (conn i) (conn' i)) : Aligned cfg t conn' := by
  have hstage : ∀ ph, t.stage ph = srv.stage ph := by
    intro ph
    cases ph <;> simp [Server.stage, hreq]
  have hsent : Sent t = Sent srv := by
    unfold Sent
    rw [hrto]
  have hall : ∀ k, AllReady cfg conn k → AllReady cfg conn' k :=
    fun k h i hi => (h i hi).congr (hconn i hi)
  have hcollect : ∀ ph j, Collecting cfg srv conn ph j → Collecting cfg t conn' ph j := by
    intro ph j h i hi
    rw [hstage]
    exact ⟨fun hij => ((h i hi).1 hij).congr (hconn i hi),
      fun hij => ((h i hi).2 hij).congr (hconn i hi)⟩
  have hsending : ∀ ph, Sending cfg srv conn ph → Sending cfg t conn' ph := by
    intro ph h
    refine ⟨?_, ?_, ?_, ?_⟩
    · intro i hi
      rw [hstage, (hconn i hi).wrote]
      exact h.wrote i hi
    · intro i hi hs
      exact (hconn i hi).idle (h.sent i hi (hsent ▸ hs))
    · intro i hi hs
      rcases h.unsent i hi (hsent ▸ hs) with hf | hc
      · exact .inl ((hconn i hi).filled hf)
      · exact .inr (hmaster.trans hc)
    · rw [hcommited, h.commited]
      congr 1
      exact Finset.filter_congr fun i _ => by rw [hsent]
  unfold Aligned at h ⊢
  rw [hmaster]
  cases hpc : srv.master <;> simp only [hpc, hstage] at h ⊢
  case requests => exact fun hs => hall _ (h (hstop hs))
  case initScoreboard => exact fun hs => hall _ (h (hstop hs))
  case collect => exact fun hs => hcollect _ _ (h (hstop hs))
  case begWrite => exact ⟨h.1, h.2.1.congr (hconn _ h.1), fun hs => hcollect _ _ (h.2.2 (hstop hs))⟩
  case sendAll | sendConn => exact fun hs => hsending _ (h (hstop hs))
  case endWrite =>
      rw [hsent]
      exact ⟨h.1, (hconn _ h.1).filled h.2.1, h.2.2.1, fun hs => hsending _ (h.2.2.2 (hstop hs))⟩
  case inEndWrite =>
      rw [hsent]
      exact ⟨h.1, h.2.1.congr (hconn _ h.1), h.2.2.1, fun hs => hsending _ (h.2.2.2 (hstop hs))⟩
  case poll | sumVotes | dopauseAll | scan | readSlot | clearCount | unpauseAll =>
      exact fun hs => hall _ (h (hstop hs))
  case phaseReturn => exact fun hs => (h (hstop hs)).imp_right (hall _)

-- All messages of a phase are sent when as many are acknowledged as there are clients.
theorem Sending.allReady (h : Sending cfg srv conn ph) (hc : cfg.clientCount ≤ srv.commited) :
    AllReady cfg conn (srv.stage ph + 1) := by
  have hcard : ((Finset.range cfg.clientCount).filter (Sent srv)).card =
      (Finset.range cfg.clientCount).card := by
    apply Nat.le_antisymm (Finset.card_filter_le _ _)
    rw [Finset.card_range, ← h.commited]
    exact hc
  have hall := Finset.filter_card_eq hcard
  intro i hi
  exact ⟨h.sent i hi (hall i (Finset.mem_range.mpr hi)), h.wrote i hi⟩

theorem Sending.setMaster (h : Sending cfg srv conn ph) (hcall : ∀ i, srv.master ≠ .inEndWrite ph i)
    (pc : MasterPc) : Sending cfg (srv.setMaster pc) conn ph where
  wrote := h.wrote
  sent := h.sent
  unsent := fun i hi hs => .inl ((h.unsent i hi hs).resolve_right (hcall i))
  commited := h.commited

theorem Collecting.sending (h : Collecting cfg srv conn ph j) (hj : cfg.clientCount ≤ j) :
    Sending cfg { srv with commited := 0, connRtofiredCount := fun _ => 0, master := .sendAll ph }
      conn ph where
  wrote := fun i hi => ((h i hi).1 (by omega)).2
  sent := fun i hi hs => absurd hs (by simp [Sent])
  unsent := fun i hi _ => .inl ((h i hi).1 (by omega)).1
  commited := by
    refine Eq.symm (Finset.card_eq_zero.mpr (Finset.filter_eq_empty_iff.mpr fun i _ hs => ?_))
    exact absurd hs (lt_irrefl 0)

private theorem Aligned.sendRequest (hqj : cfg.transType ≠ .udpQj)
    (h : srv.stopSignal = false → AllReady cfg conn (srv.stage ph)) :
    Aligned cfg (srv.sendRequest cfg ph) conn := by
  simp only [Server.sendRequest, if_neg hqj, Aligned, Server.setMaster]
  exact fun hs i hi => ⟨by omega, fun _ => h hs i hi⟩

private theorem Aligned.startPhase (hqj : cfg.transType ≠ .udpQj)
    (h : srv.stopSignal = false → AllReady cfg conn (srv.stage ph)) :
    Aligned cfg (srv.startPhase cfg ph) conn := by
  cases ph with
  | phase1 => exact Aligned.sendRequest hqj h
  | phase2 st =>
      cases st with
      | requestSuccess | requestFail => exact Aligned.sendRequest hqj h
      | clusterFail => exact fun _ => .inl ⟨rfl, rfl⟩
      | commitSuccess | commitFail => trivial

private theorem Aligned.afterPhase {status : CommitStatus}
    (h : srv.stopSignal = false → (ph = .phase2 .clusterFail ∧ status = .clusterFail) ∨
      AllReady cfg conn (srv.stage ph + 1)) : Aligned cfg (srv.afterPhase ph status) conn := by
  cases ph with
  | phase1 => exact fun hs => (h hs).resolve_left (by simp)
  | phase2 st =>
      cases status with
      | commitSuccess | commitFail => exact fun hs => (h hs).resolve_left (by simp)
      | requestSuccess | requestFail | clusterFail => trivial

theorem Aligned.masterStep (h : Aligned cfg srv conn) (hqj : cfg.transType ≠ .udpQj)
    (he : e.onConn = none) (hs : MasterStep cfg srv e t) : Aligned cfg t conn := by
  unfold Aligned at h
  cases hs with
  | finish | badSlot | badStatus => trivial
  | broadcastBegWrite | begWrite | endWrite | endWriteRet => simp [Event.onConn] at he
  | startPhase hpc _ =>
      simp only [hpc] at h
      exact Aligned.startPhase hqj h
  | collectNext hpc hi hstop =>
      simp only [hpc] at h
      exact ⟨hi, (h hstop _ hi).2 (Nat.le_refl _), h⟩
  | collected hpc hi =>
      simp only [hpc] at h
      intro hs
      replace hs : srv.stopSignal = false := hs
      exact (h hs).sending (hi.resolve_right (by simp [hs]))
  | sendPass hpc _ _ | skipConn hpc _ _ _ | passDone hpc _ =>
      simp only [hpc] at h
      exact fun hs => (h hs).setMaster (by simp [hpc]) _
  | sent hpc hc =>
      simp only [hpc] at h
      intro hs
      replace hs : srv.stopSignal = false := hs
      exact (h hs).allReady (hc.resolve_right (by simp [hs]))
  | callConn hpc hi hstop hrto =>
      simp only [hpc] at h
      have hsent : ¬Sent srv _ := Int.not_lt.mpr hrto
      exact ⟨hi, ((h hstop).unsent _ hi hsent).resolve_right (by simp [hpc]), hsent,
        fun hs => (h hs).setMaster (by simp [hpc]) _⟩
  | unpause hpc _ =>
      simp only [hpc] at h
      exact fun hs => .inr (h hs)
  | phaseReturn hpc =>
      simp only [hpc] at h
      exact Aligned.afterPhase h
  | startRound hpc | initSlot hpc | sumNext hpc | sumEnough hpc | sumShort hpc | pause hpc
  | scanNext hpc | scanned hpc | readSlot hpc | clearNext hpc | cleared hpc | expired hpc
  | notExpired hpc =>
      simp only [hpc] at h
      exact h

private theorem update_ne {c : RudpConn} (hij : i ≠ j) : update conn j c i = conn i := by
  simp [hij]

theorem Aligned.begWrite (h : Aligned cfg srv conn) (hpc : srv.master = .begWrite ph j)
    {p : Packet} : Aligned cfg (srv.setMaster (.collect ph (j + 1)))
      (update conn j { conn j with server := (conn j).server.begWrite p, master := .filled }) := by
  simp only [Aligned, hpc] at h
  obtain ⟨-, hready, hcollect⟩ := h
  intro hs i hi
  have hi' := hcollect hs i hi
  by_cases hij : i = j
  · subst hij
    refine ⟨fun _ => ⟨by simp, ?_⟩, by omega⟩
    simp [Rudp.begWrite, hready.2]
  · refine ⟨fun hlt => ?_, fun hle => ?_⟩
    · have := hi'.1 (by omega)
      simpa [Filled, hij] using this
    · have := hi'.2 (by omega)
      simpa [Ready, hij] using this

theorem Aligned.endWrite (h : Aligned cfg srv conn) (hpc : srv.master = .endWrite ph j) :
    Aligned cfg (srv.setMaster (.inEndWrite ph j))
      (update conn j { conn j with master := .call .entry }) := by
  simp only [Aligned, hpc] at h
  obtain ⟨hj, hfilled, hsent, hsending⟩ := h
  refine ⟨hj, ⟨.entry, by simp⟩, hsent, fun hs => ?_⟩
  have hsending := hsending hs
  refine ⟨?_, ?_, ?_, hsending.commited⟩
  · intro i hi
    by_cases hij : i = j
    · subst hij
      simpa using hsending.wrote i hi
    · simpa [hij] using hsending.wrote i hi
  · intro i hi hsi
    have hij : i ≠ j := fun hij => hsent (hij ▸ hsi)
    rw [update_ne hij]
    exact hsending.sent i hi hsi
  · intro i hi hsi
    by_cases hij : i = j
    · subst hij
      exact .inr rfl
    · rw [update_ne hij]
      exact .inl ((hsending.unsent i hi hsi).resolve_right (by simp [hpc]))

private theorem Sending.wrote_update {c : RudpConn} (h : Sending cfg srv conn ph)
    (hwrote : c.server.wrote = (conn j).server.wrote) (hi : i < cfg.clientCount) :
    (update conn j c i).server.wrote.length = srv.stage ph + 1 := by
  by_cases hij : i = j
  · subst hij
    rw [Function.update_self, hwrote]
    exact h.wrote i hi
  · rw [update_ne hij]
    exact h.wrote i hi

private theorem Sending.retry {c : RudpConn} (h : Sending cfg srv conn ph)
    (hpc : srv.master = .inEndWrite ph j) (hsent : ¬Sent srv j)
    (hwrote : c.server.wrote = (conn j).server.wrote) (hfilled : c.master = .filled)
    (hstage : t.stage ph = srv.stage ph) (hcommited : t.commited = srv.commited)
    (hiff : ∀ i, Sent t i ↔ Sent srv i) : Sending cfg t (update conn j c) ph where
  wrote := by
    intro i hi
    rw [hstage]
    exact h.wrote_update hwrote hi
  sent := by
    intro i hi hs
    rw [hiff] at hs
    have hij : i ≠ j := fun hij => hsent (hij ▸ hs)
    rw [update_ne hij]
    exact h.sent i hi hs
  unsent := by
    intro i hi hs
    rw [hiff] at hs
    by_cases hij : i = j
    · subst hij
      exact .inl (by rw [Function.update_self, hfilled])
    · rw [update_ne hij]
      exact .inl ((h.unsent i hi hs).resolve_right (by simp [hpc, Ne.symm hij]))
  commited := by
    rw [hcommited, h.commited]
    congr 1
    exact Finset.filter_congr fun i _ => (hiff i).symm

private theorem Sending.acked {c : RudpConn} (h : Sending cfg srv conn ph)
    (hpc : srv.master = .inEndWrite ph j) (hj : j < cfg.clientCount) (hsent : ¬Sent srv j)
    (hwrote : c.server.wrote = (conn j).server.wrote) (hidle : c.master = .idle)
    (hstage : t.stage ph = srv.stage ph) (hcommited : t.commited = srv.commited + 1)
    (hiff : ∀ i, Sent t i ↔ i = j ∨ Sent srv i) : Sending cfg t (update conn j c) ph where
  wrote := by
    intro i hi
    rw [hstage]
    exact h.wrote_update hwrote hi
  sent := by
    intro i hi hs
    by_cases hij : i = j
    · subst hij
      rw [Function.update_self, hidle]
    · rw [update_ne hij]
      exact h.sent i hi (((hiff i).mp hs).resolve_left hij)
  unsent := by
    intro i hi hs
    rw [hiff, not_or] at hs
    rw [update_ne hs.1]
    exact .inl ((h.unsent i hi hs.2).resolve_right (by simp [hpc, Ne.symm hs.1]))
  commited := by
    have hfilter : (Finset.range cfg.clientCount).filter (Sent t) =
        insert j ((Finset.range cfg.clientCount).filter (Sent srv)) := by
      ext i
      simp only [Finset.mem_filter, Finset.mem_range, Finset.mem_insert, hiff]
      constructor
      · rintro ⟨hi, rfl | hs⟩
        · exact .inl rfl
        · exact .inr ⟨hi, hs⟩
      · rintro (rfl | ⟨hi, hs⟩)
        · exact ⟨hj, .inl rfl⟩
        · exact ⟨hi, .inr hs⟩
    rw [hfilter, Finset.card_insert_of_notMem (by simp [hsent]), hcommited, h.commited]

theorem Aligned.endWriteRet (h : Aligned cfg srv conn) (hqj : cfg.transType ≠ .udpQj)
    (hpc : srv.master = .inEndWrite ph j) (r : Ret) :
    Aligned cfg (srv.endWriteRet cfg ph j r)
      (update conn j { conn j with master := .afterRet r }) := by
  simp only [Aligned, hpc] at h
  obtain ⟨hj, -, hsent, hsending⟩ := h
  simp only [Server.endWriteRet, if_neg hqj]
  cases r with
  | efin => trivial
  | eagain => exact fun hs => (hsending hs).retry hpc hsent rfl rfl rfl rfl fun _ => Iff.rfl
  | rtofired =>
      dsimp only
      split
      · trivial
      · refine fun hs => (hsending hs).retry hpc hsent rfl rfl rfl rfl fun i => ?_
        by_cases hij : i = j
        · subst hij
          simp only [Sent, Function.update_self] at hsent ⊢
          omega
        · simp [Sent, hij]
  | enone =>
      refine fun hs => (hsending hs).acked hpc hj hsent rfl rfl rfl rfl fun i => ?_
      by_cases hij : i = j
      · subst hij
        simp [Sent]
      · simp [Sent, hij]

end Q2pc
