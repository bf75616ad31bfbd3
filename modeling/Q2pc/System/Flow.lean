import Mathlib.Algebra.BigOperators.Intervals
import Q2pc.System.Regular

namespace Q2pc

open Function (update)

variable {C : Cluster} {s : System} {t : Server} {e : Event} {b m : Nat → Nat}
  {c c' : Client} {l : List Packet} {n i w : Nat}

-- The steps of a run in which no client quits, no stream ends, no timeout fires and no worker
-- fills the last of its records.
def System.undisturbed (C : Cluster) (s : System) : SysEvent → Prop
  | .server (.clock expired) => expired = false
  | .server (.begRead _ _ r) => r ≠ .efin
  | .server (.endWriteRet _ r) => r ≠ .efin
  | .server (.timeEnd w _) => ((s.srv.workers w).stats.length : Int) + 1 < C.cfg.statsLen
  | .server _ | .receive _ | .respond _ => True
  | .quit _ | .faultToClient _ _ | .faultToServer _ _ => False

instance (C : Cluster) (s : System) (e : SysEvent) : Decidable (s.undisturbed C e) := by
  unfold System.undisturbed
  split <;> infer_instance

theorem System.undisturbed.reliable {e : SysEvent} (h : s.undisturbed C e) : e.reliable := by
  cases e <;> trivial

def Client.holding (c : Client) : List Packet :=
  match c.pc with
  | .respond old => [old]
  | _ => []

def MasterPc.passes (connRtofiredCount : Nat → Int) (i : Nat) : MasterPc → Nat
  | .requests | .initScoreboard _ _ | .collect _ _ | .begWrite _ _ => 0
  | .sendAll _ | .sendConn _ _ | .endWrite _ _ => if connRtofiredCount i < 0 then 1 else 0
  | .inEndWrite _ j => if i = j ∨ connRtofiredCount i < 0 then 1 else 0
  | _ => 1

def Server.sent (s : Server) (i : Nat) : Nat :=
  s.stageNow + s.master.passes s.connRtofiredCount i

theorem Server.stageNow_congr {sv : Server} {p : Phase} (hphase : t.master.phase = p)
    (hphase' : sv.master.phase = p) (hreq : t.requests = sv.requests) :
    t.stageNow = sv.stageNow := by
  cases p <;> simp only [Server.stageNow, Server.stage, hphase, hphase', hreq]

-- Of `n` messages passed to its connection the client has responded to the first, and the
-- others are on their way in order.
structure Downstream (c : Client) (toClient : List Packet) (n : Nat) : Prop where
  running : c.pc ≠ .terminated
  le : c.stage ≤ n
  stages : (c.holding ++ toClient).map Packet.stage = List.range' c.stage (n - c.stage)

theorem Downstream.pass (h : Downstream c l n) {p : Packet} (hp : p.stage = n) :
    Downstream c (l ++ [p]) (n + 1) where
  running := h.running
  le := Nat.le_succ_of_le h.le
  stages := by
    have hle := h.le
    rw [← List.append_assoc, List.map_append, h.stages, show n + 1 - c.stage = n - c.stage + 1 by
      omega, List.range'_1_concat, List.map_singleton, hp, Nat.add_sub_cancel' hle]

theorem Downstream.receive {p : Packet} (h : Downstream c (p :: l) n)
    (hr : c.receive p = some c') :
    Downstream c' l n ∧ c'.stage = c.stage := by
  have hpc : c.pc = .getMessage := by
    unfold Client.receive at hr
    split at hr
    · assumption
    · contradiction
  have hstages := h.stages
  have hle := h.le
  have hstage : c'.stage = c.stage := by
    unfold Client.receive at hr
    rw [hpc] at hr
    dsimp only at hr
    split at hr <;> cases hr <;> rfl
  have hpc' : c'.pc = .respond p := by
    unfold Client.receive at hr
    rw [hpc] at hr
    dsimp only at hr
    split at hr <;> cases hr <;> rfl
  refine ⟨⟨by simp [hpc'], by rwa [hstage], ?_⟩, hstage⟩
  rw [hstage]
  simpa [Client.holding, hpc, hpc'] using hstages

theorem Downstream.head {old : Packet} (h : Downstream c l n) (hpc : c.pc = .respond old) :
    old.stage = c.stage ∧ c.stage < n ∧
      l.map Packet.stage = List.range' (c.stage + 1) (n - (c.stage + 1)) := by
  have hstages := h.stages
  have hle := h.le
  rw [Client.holding, hpc] at hstages
  obtain ⟨k, hk⟩ : ∃ k, n - c.stage = k + 1 := by
    cases hk : n - c.stage with
    | zero => simp [hk] at hstages
    | succ k => exact ⟨k, rfl⟩
  rw [hk, List.range'_succ] at hstages
  simp only [List.singleton_append, List.map_cons, List.cons.injEq] at hstages
  exact ⟨hstages.1, by omega, by rw [hstages.2, show n - (c.stage + 1) = k by omega]⟩

theorem Client.stage_even (c : Client) (hlogs : c.Logs) : c.phase = .phase1 ↔ c.stage % 2 = 0 := by
  cases hphase : c.phase with
  | phase1 => simp [Client.stage, hphase]
  | phase2 =>
      have := hlogs.phase2 hphase
      simp only [Client.stage, hphase, reduceCtorEq, false_iff]
      omega

theorem Downstream.respond {response : Option Packet} {old : Packet} (h : Downstream c l n)
    (hlogs : c.Logs) (hpc : c.pc = .respond old)
    (hrequest : old.stage % 2 = 0 → old.msg.type = .request)
    (hdecision : old.stage % 2 = 1 → old.msg.type = .commit ∨ old.msg.type = .cancel)
    (hr : c.respond = some (c', response)) :
    Downstream c' l n ∧ c'.stage = c.stage + 1 ∧ ∃ p, response = some p := by
  obtain ⟨hold, hlt, hrest⟩ := h.head hpc
  have hparity := c.stage_even hlogs
  have hanswer : c.answer old ≠ none := by
    unfold Client.answer
    by_cases hphase : c.phase = .phase1
    · rw [hphase, hrequest (by rw [hold]; exact hparity.mp hphase)]
      simp
    · have hphase2 : c.phase = .phase2 := by
        cases hp : c.phase <;> simp_all
      have hodd : old.stage % 2 = 1 := by
        rw [hold]
        have := mt hparity.mpr hphase
        omega
      rw [hphase2]
      rcases hdecision hodd with htype | htype <;> simp [htype]
  have hstage : ∀ c'' : Client, c''.stage = c.stage + 1 → c''.pc = .getMessage →
      Downstream c'' l n := by
    intro c'' hstage hpc''
    refine ⟨by simp [hpc''], by omega, ?_⟩
    simpa [Client.holding, hpc'', hstage] using hrest
  rcases respond_cases hpc hr with ⟨rfl, rfl⟩ | ⟨hphase, -, rfl, rfl⟩ | ⟨hphase, -, rfl, rfl⟩
  · simp only [Client.respond, hpc] at hr
    split at hr
    · contradiction
    · split at hr <;> simp at hr
  · have hnext : (2 * (c.votes ++ [voteType c.voteCount]).length - 1) = c.stage + 1 := by
      simp only [Client.stage, hphase, List.length_append, List.length_singleton]
      omega
    exact ⟨hstage _ hnext rfl, hnext, _, rfl⟩
  · have hnext : 2 * c.votes.length = c.stage + 1 := by
      have := hlogs.phase2 hphase
      simp only [Client.stage, hphase]
      omega
    exact ⟨hstage _ hnext rfl, hnext, _, rfl⟩

theorem Regular.startPhase {cfg : Config} {sv : Server} {ph : Phase} {j : Nat}
    (h : Regular cfg sv) (hqj : cfg.transType ≠ .udpQj)
    (hpc : sv.master = .initScoreboard ph j) :
    sv.startPhase cfg ph = sv.setMaster (.collect ph 0) := by
  have hsend : sv.sendRequest cfg ph = sv.setMaster (.collect ph 0) := if_neg hqj
  cases ph with
  | phase1 => exact hsend
  | phase2 st => rcases h.phase st (by rw [hpc]; rfl) with rfl | rfl <;> exact hsend

-- The scans terminate on no slot, and the verdict of the scan is one a phase returns for.
theorem Counters.scanSlot {ph : Phase} {j : Nat} {r : CommitStatus} (h : Counters C s.srv m)
    (hpc : s.srv.master = .readSlot ph j r) (hj : j < C.cfg.clientCount) :
    ∃ r', Q2pc.scanSlot ph r (s.srv.votesScoreboard j) = some r' := by
  obtain ⟨hvote, hack⟩ := h.slot hpc hj
  cases ph with
  | phase1 => rcases hvote rfl with hslot | hslot <;> exact ⟨_, by rw [hslot]; rfl⟩
  | phase2 st => exact ⟨r, by rw [hack (by simp)]; rfl⟩

theorem Regular.phaseStatus {cfg : Config} {sv : Server} {ph : Phase} {r : CommitStatus}
    (h : Regular cfg sv) (hpc : sv.master = .unpauseAll ph r) :
    ∃ st, Q2pc.phaseStatus ph r = some st := by
  cases ph with
  | phase1 => exact ⟨r, rfl⟩
  | phase2 st =>
      rcases h.phase st (by rw [hpc]; rfl) with rfl | rfl <;> cases r <;> exact ⟨_, rfl⟩

private theorem sent_move {sv : Server} {pc : MasterPc} (hpc : sv.master = pc)
    (hstop : sv.stopSignal = false) (hstop' : t.stopSignal = sv.stopSignal)
    (hreq : t.requests = sv.requests) (hphase : t.master.phase = pc.phase)
    (hpasses : ∀ i < n, t.master.passes t.connRtofiredCount i = pc.passes sv.connRtofiredCount i)
    (he : ∀ i, e ≠ .endWrite i) :
    t.stopSignal = false ∧
      ∀ i < n, t.sent i = sv.sent i + if e = .endWrite i then 1 else 0 := by
  refine ⟨hstop'.trans hstop, fun i hi => ?_⟩
  rw [Server.sent, Server.sent, Server.stageNow_congr hphase (by rw [hpc]) hreq, hpasses i hi, hpc,
    if_neg (he i), Nat.add_zero]

-- A step of the master in an undisturbed run: it does not fail, and passes a message where
-- it calls `end_write`.
theorem sent_of_masterStep (hs : MasterStep C.cfg s.srv e t) (hinv : Inv C s b m)
    (hcounters : Counters C s.srv m) (hreg : Regular C.cfg s.srv)
    (hqj : C.cfg.transType ≠ .udpQj) (hstop : s.srv.stopSignal = false)
    (hclock : e ≠ .clock true) (hret : ∀ i r, e = .endWriteRet i r → r = .enone) :
    t.stopSignal = false ∧
      ∀ i < C.cfg.clientCount, t.sent i = s.srv.sent i + if e = .endWrite i then 1 else 0 := by
  cases hs with
  | finish _ hf => simp [hf] at hstop
  | expired _ => exact absurd rfl hclock
  | startRound hpc | collectNext hpc | sendPass hpc | skipConn hpc | callConn hpc | passDone hpc
  | sumNext hpc | sumEnough hpc | sumShort hpc | scanNext hpc | scanned hpc | readSlot hpc
  | cleared hpc | notExpired hpc | begWrite hpc | initSlot hpc | pause hpc | clearNext hpc
  | unpause hpc | collected hpc =>
      exact sent_move hpc hstop rfl rfl rfl (fun _ _ => rfl) (by simp)
  | broadcastBegWrite _ hbroadcast => exact absurd hbroadcast hqj
  | @startPhase ph j hpc _ =>
      rw [hreg.startPhase hqj hpc]
      exact sent_move hpc hstop rfl rfl rfl (fun _ _ => rfl) (by simp)
  | @sent ph hpc hall =>
      refine sent_move hpc hstop rfl rfl rfl (fun i hi => ?_) (by simp)
      have hneg := (hreg.commited ph hpc).mp (hall.resolve_right (by simp [hstop])) i hi
      exact (if_pos hneg).symm
  | badSlot hpc hscan =>
      have hat := hinv.master.position
      simp only [MasterAt, hpc] at hat
      obtain ⟨_, hr⟩ := hcounters.scanSlot hpc hat.2.1
      simp [hr] at hscan
  | badStatus hpc hnone =>
      obtain ⟨_, hst⟩ := hreg.phaseStatus hpc
      simp [hst] at hnone
  | @phaseReturn ph status hpc =>
      have hend : ∀ u : Server, u.stageNow = s.srv.stageNow + 1 → u.stopSignal = false →
          (∀ i, u.master.passes u.connRtofiredCount i = 0) → u.stopSignal = false ∧
            ∀ i < C.cfg.clientCount, u.sent i = s.srv.sent i + 0 := by
        intro u hnow hu hpasses
        refine ⟨hu, fun i _ => ?_⟩
        rw [Server.sent, Server.sent, hnow, hpasses, hpc]
        rfl
      have hnow : s.srv.stageNow = s.srv.stage ph := by
        simp [Server.stageNow, hpc, MasterPc.phase]
      cases ph with
      | phase1 =>
          refine hend _ ?_ hstop fun _ => rfl
          rw [hnow]
          rfl
      | phase2 st =>
          rcases hreg.phase2 st status hpc with rfl | rfl <;>
            refine hend _ ?_ hstop fun _ => rfl <;>
            rw [hnow] <;>
            rfl
  | @endWrite ph j hpc =>
      have hat := hinv.master.position
      simp only [MasterAt, hpc] at hat
      have hunsent : 0 ≤ s.srv.connRtofiredCount j := hat.2.2.2.1
      have hnow : (s.srv.setMaster (.inEndWrite ph j)).stageNow = s.srv.stageNow :=
        Server.stageNow_congr (p := ph) rfl (by rw [hpc]; rfl) rfl
      refine ⟨hstop, fun i _ => ?_⟩
      rw [Server.sent, Server.sent, hnow, hpc, Nat.add_assoc]
      by_cases hij : i = j
      · have hpos := not_lt.mpr hunsent
        simp [MasterPc.passes, Server.setMaster, hij, hpos]
      · simp [MasterPc.passes, Server.setMaster, hij, Ne.symm hij]
  | @endWriteRet ph j r hpc =>
      obtain rfl := hret j r rfl
      have hgo : s.srv.endWriteRet C.cfg ph j .enone = { s.srv with
          connRtofiredCount := update s.srv.connRtofiredCount j (-1)
          commited := s.srv.commited + 1
          master := .sendConn ph (j + 1) } := if_neg hqj
      rw [hgo]
      refine sent_move hpc hstop rfl rfl rfl (fun i _ => ?_) (by simp)
      by_cases hij : i = j
      · simp [MasterPc.passes, hij]
      · simp [MasterPc.passes, hij]

end Q2pc
