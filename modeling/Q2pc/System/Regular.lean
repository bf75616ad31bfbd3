import Q2pc.Server.Sending
import Q2pc.System.FaultFree
import Q2pc.System.Report

namespace Q2pc

open Function (update)

variable {C : Cluster} {cfg : Config} {s : System} {sv t : Server} {e : Event} {m : Nat → Nat}
  {ok : System → SysEvent → Prop}

theorem srv_reachable (h : (systemMachine C).Reachable ok s) :
    (serverMachine C.cfg).Reachable Machine.always s.srv := by
  apply h.invariant (P := fun s => (serverMachine C.cfg).Reachable Machine.always s.srv)
  · exact .init
  · intro s e t _ ih _ hs
    cases e with
    | server x =>
        obtain ⟨srv, net, hsrv, -, rfl⟩ := server_step hs
        exact ih.step trivial hsrv
    | _ =>
        rw [srv_of_step hs (by simp)]
        exact ih

theorem phase1_status {slots : List MsgType} {r : CommitStatus}
    (h : verdict .phase1 slots = some r) :
    r = .requestSuccess ∨ r = .requestFail ∨ r = .clusterFail := by
  induction slots using List.reverseRecOn generalizing r with
  | nil =>
      simp only [verdict_nil, Phase.startStatus, Option.some.injEq] at h
      exact .inl h.symm
  | append_singleton slots slot ih =>
      rw [verdict_snoc] at h
      obtain ⟨r', hr', hscan⟩ := Option.bind_eq_some_iff.mp h
      have hprev := ih hr'
      unfold scanSlot at hscan
      split at hscan <;> simp_all

-- The server has not failed: its statuses are those of completed phases, and the counter of
-- the connections it has sent on is right.
structure Regular (cfg : Config) (sv : Server) : Prop where
  phase : ∀ st, sv.master.phase = .phase2 st → st = .requestSuccess ∨ st = .requestFail
  phase1 : ∀ st, sv.master = .phaseReturn .phase1 st → st = .requestSuccess ∨ st = .requestFail
  phase2 : ∀ st₁ st, sv.master = .phaseReturn (.phase2 st₁) st →
    st = .commitSuccess ∨ st = .commitFail
  commited : ∀ ph, sv.master = .sendAll ph →
    (cfg.clientCount ≤ sv.commited ↔ ∀ i < cfg.clientCount, sv.connRtofiredCount i < 0)

private theorem phaseStatus_valid {st r status : CommitStatus}
    (hst : st = .requestSuccess ∨ st = .requestFail) (hne : status ≠ .clusterFail)
    (h : phaseStatus (.phase2 st) r = some status) :
    status = .commitSuccess ∨ status = .commitFail := by
  rcases hst with rfl | rfl <;> cases r <;> simp_all [phaseStatus, eq_comm]

private theorem commited_iff {l : SendLog} (h : l.Linked cfg sv) :
    cfg.clientCount ≤ sv.commited ↔ ∀ i < cfg.clientCount, sv.connRtofiredCount i < 0 := by
  have hsent : ∀ i < cfg.clientCount, l.count .enone i = 1 ↔ sv.connRtofiredCount i < 0 := by
    intro i hi
    have := h.counts i hi
    unfold SendLog.Counts at this
    omega
  rw [h.commited]
  constructor
  · intro hcard i hi
    have hall : (Finset.range cfg.clientCount).filter (fun i => l.count .enone i = 1) =
        Finset.range cfg.clientCount :=
      Finset.eq_of_subset_of_card_le (Finset.filter_subset _ _) (by rwa [Finset.card_range])
    have hmem := hall ▸ Finset.mem_range.mpr hi
    exact (hsent i hi).mp (Finset.mem_filter.mp hmem).2
  · intro hall
    rw [Finset.filter_true_of_mem fun i hi =>
      (hsent i (Finset.mem_range.mp hi)).mpr (hall i (Finset.mem_range.mp hi)), Finset.card_range]

theorem regular_of_reachable (hqj : C.cfg.transType ≠ .udpQj)
    (h : (systemMachine C).Reachable ok s) (hcounters : Counters C s.srv m) :
    Regular C.cfg s.srv := by
  have hsrv := srv_reachable h
  obtain ⟨l, hl⟩ := reachable_iff_roundLog.mp hsrv
  have hround := roundOk_of_reachable hl
  have hphase : ∀ st, s.srv.master.phase = .phase2 st →
      st = .requestSuccess ∨ st = .requestFail := by
    intro st hst
    rcases phase1_status (hround.phase1 st hst).1 with rfl | rfl | rfl
    · exact .inl rfl
    · exact .inr rfl
    · exact absurd hst hcounters.phase
  refine ⟨hphase, ?_, ?_, ?_⟩
  · intro st hpc
    have hne := hcounters.verdict st (by simp [hpc, MasterPc.verdict])
    have hscan := hround.scan
    simp only [hpc, MasterPc.ScanOk, reduceCtorEq, false_and, false_or] at hscan
    obtain ⟨r, hgives, hr⟩ := hscan
    obtain rfl := Option.some.inj hr
    rcases phase1_status hgives.1 with rfl | rfl | rfl
    · exact .inl rfl
    · exact .inr rfl
    · exact absurd rfl hne
  · intro st₁ st hpc
    have hne := hcounters.verdict st (by simp [hpc, MasterPc.verdict])
    have hscan := hround.scan
    simp only [hpc, MasterPc.ScanOk] at hscan
    rcases hscan with ⟨-, rfl⟩ | ⟨r, -, hr⟩
    · exact absurd rfl hne
    · exact phaseStatus_valid (hphase st₁ (by rw [hpc]; rfl)) hne hr
  · intro ph hpc
    obtain ⟨l', hl'⟩ := reachable_iff_sendLog.mp hsrv
    have hplace := (sendOk_of_reachable hqj hl').place
    rw [hpc] at hplace
    exact commited_iff hplace

end Q2pc
