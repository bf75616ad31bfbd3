import Q2pc.Lib.Progress
import Q2pc.System.Balance

namespace Q2pc

open Function (update)

variable {C : Cluster} {s t : System} {sv : Server} {net : Net} {e : Event} {b m : Nat → Nat}
  {i k n w : Nat} {ph : Phase}

theorem step_of_server (hsrv : s.srv.step C.cfg e = some sv)
    (hnet : s.net.step C.cfg e = some net) :
    (systemMachine C).step s (.server e) = some { s with srv := sv, net := net } := by
  simp [systemMachine, System.step, hsrv, hnet]

-- A pass of send_request has left out one of the connections before `i`: another follows.
def nextPass (cfg : Config) (connRtofiredCount : Nat → Int) (i : Nat) : Nat :=
  if ∃ j < i, 0 ≤ connRtofiredCount j then 3 * cfg.clientCount + 3 else 0

-- How far the master is from its next wait for votes, or from the end of one.
def Server.sendRank (cfg : Config) (s : Server) : Nat :=
  match s.master with
  | .requests => 6 * cfg.clientCount + 8
  | .initScoreboard _ i => (cfg.clientCount - i) + 5 * cfg.clientCount + 7
  | .collect _ i => 2 * (cfg.clientCount - i) + 3 * cfg.clientCount + 6
  | .begWrite _ i => 2 * (cfg.clientCount - (i + 1)) + 3 * cfg.clientCount + 7
  | .sendAll _ => nextPass cfg s.connRtofiredCount cfg.clientCount + 1
  | .sendConn _ i => 3 * (cfg.clientCount - i) + 2 + nextPass cfg s.connRtofiredCount i
  | .endWrite _ i => 3 * (cfg.clientCount - (i + 1)) + 4 + nextPass cfg s.connRtofiredCount i
  | .inEndWrite _ i => 3 * (cfg.clientCount - (i + 1)) + 3 + nextPass cfg s.connRtofiredCount i
  | .sumVotes _ i _ => (cfg.threadCount - i) + 1
  | _ => 0

section

variable (cfg : Config) {rto rto' : Nat → Int}

theorem nextPass_le (rto : Nat → Int) (i : Nat) : nextPass cfg rto i ≤ 3 * cfg.clientCount + 3 := by
  unfold nextPass
  split <;> omega

theorem nextPass_zero (rto : Nat → Int) : nextPass cfg rto 0 = 0 :=
  if_neg fun ⟨_, h, _⟩ => Nat.not_lt_zero _ h

theorem nextPass_mono (rto : Nat → Int) {i j : Nat} (hij : i ≤ j) :
    nextPass cfg rto i ≤ nextPass cfg rto j := by
  unfold nextPass
  split
  · rename_i h
    obtain ⟨l, hl, hpos⟩ := h
    rw [if_pos ⟨l, by omega, hpos⟩]
  · exact Nat.zero_le _

theorem nextPass_succ {i : Nat} (hother : ∀ j < i, rto' j = rto j) (hsent : rto' i < 0) :
    nextPass cfg rto' (i + 1) = nextPass cfg rto i := by
  unfold nextPass
  congr 1
  simp only [eq_iff_iff]
  constructor
  · rintro ⟨j, hj, hpos⟩
    have hji : j ≠ i := by
      rintro rfl
      omega
    exact ⟨j, by omega, by rwa [← hother j (by omega)]⟩
  · rintro ⟨j, hj, hpos⟩
    exact ⟨j, by omega, by rwa [hother j hj]⟩

end

-- The clock is an i64, and a worker finds the message that is there.
def System.prompt (s : System) : SysEvent → Prop
  | .server (.begWrite _ p) => -2 ^ 63 ≤ p.msg.ts ∧ p.msg.ts < 2 ^ 63
  | .server (.begRead _ i .eagain) => s.net.toServer i = []
  | _ => True

-- A step of the server within the exchange, to a state of a lower rank.
def Advances (C : Cluster) (s : System) (rank : Server → Nat) : Prop :=
  ∃ e sv net, s.undisturbed C (.server e) ∧ s.prompt (.server e) ∧ s.srv.step C.cfg e = some sv ∧
    s.net.step C.cfg e = some net ∧ sv.stageNow = s.srv.stageNow ∧ rank sv < rank s.srv

theorem Advances.master {rank : Server → Nat} {pc : MasterPc} {v : Server}
    (hpc : s.srv.master = pc) (hs : s.srv.masterStep C.cfg = some v)
    (hphase : v.master.phase = pc.phase) (hreq : v.requests = s.srv.requests)
    (hlt : rank v < rank s.srv) : Advances C s rank :=
  ⟨.master, v, s.net, trivial, trivial, hs, rfl,
    Server.stageNow_congr hphase (by rw [hpc]) hreq, hlt⟩

theorem Advances.leads (rank : Server → Nat) {Q : System → Prop} {k : Nat}
    (h : ∀ s, (systemMachine C).Reachable (System.undisturbed C) s → s.srv.stageNow = k →
      Q s ∨ Advances C s rank) :
    (systemMachine C).Leads (System.undisturbed C) System.prompt
      (fun s => s.srv.stageNow = k) Q := by
  refine .of_rank (fun s => rank s.srv) fun s hr hk => ?_
  rcases h s hr hk with hq | ⟨e, sv, net, hok, hfit, hsrv, hnet, hnow, hlt⟩
  · exact .inl hq
  · exact .inr ⟨.server e, _, hok, hfit, step_of_server hsrv hnet, hnow.trans hk, hlt⟩

private theorem reportDue_defined (requests : Nat) {reportInt : Int} (h : reportInt ≠ 0) :
    ∃ due, reportDue requests reportInt = some due := by
  unfold reportDue
  split
  · exact ⟨_, rfl⟩
  · exact ⟨_, rfl⟩

private theorem advances_setup (hqj : C.cfg.transType ≠ .udpQj) (hreport : C.cfg.reportInt ≠ 0)
    (hreg : Regular C.cfg s.srv) (hstop : s.srv.stopSignal = false)
    (h : s.srv.master = .requests ∨ (∃ ph i, s.srv.master = .initScoreboard ph i) ∨
      (∃ ph i, s.srv.master = .collect ph i) ∨ ∃ ph i, s.srv.master = .begWrite ph i) :
    Advances C s (Server.sendRank C.cfg) := by
  rcases h with hpc | ⟨ph, i, hpc⟩ | ⟨ph, i, hpc⟩ | ⟨ph, i, hpc⟩
  · obtain ⟨due, hdue⟩ := reportDue_defined s.srv.requests hreport
    refine .master (v := s.srv.setMaster (.initScoreboard .phase1 0)) hpc ?_ rfl rfl ?_
    · simp [Server.masterStep, hpc, hstop, hdue]
    · simp only [Server.sendRank, Server.setMaster, hpc]
      omega
  · by_cases hi : i < C.cfg.clientCount
    · refine .master (v := { s.srv with
        votesScoreboard := update s.srv.votesScoreboard i .lost
        master := .initScoreboard ph (i + 1) }) hpc ?_ rfl rfl ?_
      · simp [Server.masterStep, hpc, hi]
      · simp only [Server.sendRank, hpc]
        omega
    · refine .master (v := s.srv.setMaster (.collect ph 0)) hpc ?_ rfl rfl ?_
      · simp [Server.masterStep, hpc, hi, hreg.startPhase hqj hpc]
      · simp only [Server.sendRank, Server.setMaster, hpc]
        omega
  · by_cases hi : i < C.cfg.clientCount
    · refine .master (v := s.srv.setMaster (.begWrite ph i)) hpc ?_ rfl rfl ?_
      · simp [Server.masterStep, hpc, hi, hstop]
      · simp only [Server.sendRank, Server.setMaster, hpc]
        omega
    · refine .master (v := { s.srv with
        commited := 0, connRtofiredCount := fun _ => 0, master := .sendAll ph }) hpc ?_ rfl rfl ?_
      · simp [Server.masterStep, hpc, hi]
      · have := nextPass_le C.cfg (fun _ => 0) C.cfg.clientCount
        simp only [Server.sendRank, hpc]
        omega
  · refine ⟨.begWrite i ⟨requestMsg ph.msgType 0, s.srv.stage ph⟩,
      s.srv.setMaster (.collect ph (i + 1)), _, trivial, by simp [System.prompt, requestMsg], ?_,
      rfl, Server.stageNow_congr (p := ph) rfl (by rw [hpc]; rfl) rfl, ?_⟩
    · simp [Server.step, hpc, hqj, requestMsg]
    · simp only [Server.sendRank, Server.setMaster, hpc]
      omega

private theorem advances_send (hqj : C.cfg.transType ≠ .udpQj) (hreg : Regular C.cfg s.srv)
    (hstop : s.srv.stopSignal = false)
    (h : (∃ ph, s.srv.master = .sendAll ph) ∨ (∃ ph i, s.srv.master = .sendConn ph i) ∨
      (∃ ph i, s.srv.master = .endWrite ph i) ∨ ∃ ph i, s.srv.master = .inEndWrite ph i) :
    Advances C s (Server.sendRank C.cfg) := by
  rcases h with ⟨ph, hpc⟩ | ⟨ph, i, hpc⟩ | ⟨ph, i, hpc⟩ | ⟨ph, i, hpc⟩
  · by_cases hleft : C.cfg.clientCount ≤ s.srv.commited
    · refine .master (v := s.srv.setMaster (.poll ph)) hpc ?_ rfl rfl ?_
      · simp [Server.masterStep, hpc, not_lt.mpr hleft]
      · simp only [Server.sendRank, Server.setMaster, hpc]
        omega
    · have hunsent : ∃ j < C.cfg.clientCount, 0 ≤ s.srv.connRtofiredCount j := by
        simpa using mt (hreg.commited ph hpc).mpr hleft
      refine .master (v := s.srv.setMaster (.sendConn ph 0)) hpc ?_ rfl rfl ?_
      · simp [Server.masterStep, hpc, not_le.mp hleft, hstop]
      · simp only [Server.sendRank, Server.setMaster, hpc, nextPass_zero]
        rw [nextPass, if_pos hunsent]
        omega
  · by_cases hi : i < C.cfg.clientCount
    · by_cases hsent : s.srv.connRtofiredCount i < 0
      · refine .master (v := s.srv.setMaster (.sendConn ph (i + 1))) hpc ?_ rfl rfl ?_
        · simp [Server.masterStep, hpc, hi, hstop, hsent]
        · simp only [Server.sendRank, Server.setMaster, hpc,
            nextPass_succ C.cfg (fun _ _ => rfl) hsent]
          omega
      · refine .master (v := s.srv.setMaster (.endWrite ph i)) hpc ?_ rfl rfl ?_
        · simp [Server.masterStep, hpc, hi, hstop, hsent]
        · simp only [Server.sendRank, Server.setMaster, hpc]
          omega
    · refine .master (v := s.srv.setMaster (.sendAll ph)) hpc ?_ rfl rfl ?_
      · simp [Server.masterStep, hpc, hi]
      · have := nextPass_mono C.cfg s.srv.connRtofiredCount (not_lt.mp hi)
        simp only [Server.sendRank, Server.setMaster, hpc]
        omega
  · refine ⟨.endWrite i, s.srv.setMaster (.inEndWrite ph i), _, trivial, trivial, ?_, rfl,
      Server.stageNow_congr (p := ph) rfl (by rw [hpc]; rfl) rfl, ?_⟩
    · simp [Server.step, hpc]
    · simp only [Server.sendRank, Server.setMaster, hpc]
      omega
  · refine ⟨.endWriteRet i .enone, { s.srv with
      connRtofiredCount := update s.srv.connRtofiredCount i (-1)
      commited := s.srv.commited + 1
      master := .sendConn ph (i + 1) }, s.net, by simp [System.undisturbed], trivial, ?_,
      by simp [Net.step], Server.stageNow_congr (p := ph) rfl (by rw [hpc]; rfl) rfl, ?_⟩
    · simp [Server.step, hpc, Server.endWriteRet, hqj]
    · have hnext : nextPass C.cfg (update s.srv.connRtofiredCount i (-1)) (i + 1) =
          nextPass C.cfg s.srv.connRtofiredCount i :=
        nextPass_succ C.cfg (fun j hj => Function.update_of_ne (by omega) _ _) (by simp)
      simp only [Server.sendRank, hpc, hnext]
      omega

-- The master gets to a wait for votes of the exchange, or is past it.
theorem leads_wait (hqj : C.cfg.transType ≠ .udpQj) (hreport : C.cfg.reportInt ≠ 0) (k : Nat) :
    (systemMachine C).Leads (System.undisturbed C) System.prompt (fun s => s.srv.stageNow = k)
      (fun s => s.srv.stageNow = k ∧
        ((∃ ph, s.srv.master = .poll ph) ∨ s.srv.master.Closed)) := by
  refine Advances.leads (Server.sendRank C.cfg) fun s hr hk => ?_
  obtain ⟨b, m, hinv, hcounters, hreg, hbalance⟩ := exists_balance hqj hr
  have hstop := hbalance.running
  obtain ⟨pc, hpc⟩ : ∃ pc, s.srv.master = pc := ⟨_, rfl⟩
  cases pc with
  | terminated => exact absurd hpc hcounters.running
  | poll ph => exact .inl ⟨hk, .inl ⟨ph, hpc⟩⟩
  | dopauseAll ph | scan ph i r | readSlot ph i r | clearCount ph i r | unpauseAll ph r
  | phaseReturn ph st =>
      exact .inl ⟨hk, .inr (by simp [hpc, MasterPc.Closed])⟩
  | requests => exact .inr (advances_setup hqj hreport hreg hstop (.inl hpc))
  | initScoreboard ph i =>
      exact .inr (advances_setup hqj hreport hreg hstop (.inr (.inl ⟨ph, i, hpc⟩)))
  | collect ph i =>
      exact .inr (advances_setup hqj hreport hreg hstop (.inr (.inr (.inl ⟨ph, i, hpc⟩))))
  | begWrite ph i =>
      exact .inr (advances_setup hqj hreport hreg hstop (.inr (.inr (.inr ⟨ph, i, hpc⟩))))
  | sendAll ph => exact .inr (advances_send hqj hreg hstop (.inl ⟨ph, hpc⟩))
  | sendConn ph i => exact .inr (advances_send hqj hreg hstop (.inr (.inl ⟨ph, i, hpc⟩)))
  | endWrite ph i => exact .inr (advances_send hqj hreg hstop (.inr (.inr (.inl ⟨ph, i, hpc⟩))))
  | inEndWrite ph i =>
      exact .inr (advances_send hqj hreg hstop (.inr (.inr (.inr ⟨ph, i, hpc⟩))))
  | sumVotes ph i v =>
      by_cases hi : i < C.cfg.threadCount
      · refine .inr (.master (v := s.srv.setMaster (.sumVotes ph (i + 1) (v + s.srv.votesCount i)))
          hpc ?_ rfl rfl ?_)
        · simp [Server.masterStep, hpc, hi]
        · simp only [Server.sendRank, Server.setMaster, hpc]
          omega
      · by_cases hv : C.cfg.clientCount ≤ v
        · refine .inr (.master (v := s.srv.setMaster (.dopauseAll ph)) hpc ?_ rfl rfl ?_)
          · simp [Server.masterStep, hpc, hi, hv]
          · simp [Server.sendRank, Server.setMaster, hpc]
        · refine .inr (.master (v := s.srv.setMaster (.poll ph)) hpc ?_ rfl rfl ?_)
          · simp [Server.masterStep, hpc, hi, hv]
          · simp [Server.sendRank, Server.setMaster, hpc]

def System.toAnswer (C : Cluster) (s : System) : Nat :=
  ∑ i ∈ Finset.range C.cfg.clientCount,
    (2 * (s.net.toClient i).length + (s.client i).holding.length)

def System.Answered (C : Cluster) (s : System) : Prop :=
  ∀ i < C.cfg.clientCount, s.net.toClient i = [] ∧ (s.client i).holding = []

theorem toAnswer_lt {t : System} (hi : i < C.cfg.clientCount)
    (hother : ∀ j, j ≠ i → t.net.toClient j = s.net.toClient j ∧ t.client j = s.client j)
    (hlt : 2 * (t.net.toClient i).length + (t.client i).holding.length <
      2 * (s.net.toClient i).length + (s.client i).holding.length) :
    t.toAnswer C < s.toAnswer C := by
  refine Finset.sum_lt_sum (fun j _ => ?_) ⟨i, Finset.mem_range.mpr hi, hlt⟩
  by_cases hji : j = i
  · rw [hji]
    exact hlt.le
  · rw [(hother j hji).1, (hother j hji).2]

private theorem client_step (hbalance : Balance C s m) (hi : i < C.cfg.clientCount)
    (h : ¬(s.net.toClient i = [] ∧ (s.client i).holding = [])) :
    ∃ e t, s.undisturbed C e ∧ s.prompt e ∧ (systemMachine C).step s e = some t ∧ t.srv = s.srv ∧
      t.toAnswer C < s.toAnswer C := by
  cases hpc : (s.client i).pc with
  | terminated => exact absurd hpc (hbalance.sent i hi).running
  | respond old =>
      obtain ⟨c, response, hc⟩ : ∃ c response, (s.client i).respond = some (c, response) := by
        simp only [Client.respond, hpc]
        split
        · exact ⟨_, _, rfl⟩
        · split <;> exact ⟨_, _, rfl⟩
      have hfree : c.holding = [] := by
        rcases respond_cases hpc hc with ⟨rfl, -⟩ | ⟨-, -, rfl, -⟩ | ⟨-, -, rfl, -⟩ <;> rfl
      refine ⟨.respond i, { s with
        net := { s.net with
          toServer := update s.net.toServer i (s.net.toServer i ++ response.toList) }
        client := update s.client i c }, trivial, trivial, ?_, rfl, ?_⟩
      · simp [systemMachine, System.step, hi, hc]
      · refine toAnswer_lt hi (fun j hj => ?_) ?_
        · simp [hj]
        · have hheld : (s.client i).holding = [old] := by simp [Client.holding, hpc]
          simp [hfree, hheld]
  | getMessage =>
      have hfree : (s.client i).holding = [] := by simp [Client.holding, hpc]
      obtain ⟨p, rest, hto⟩ : ∃ p rest, s.net.toClient i = p :: rest := by
        cases hto : s.net.toClient i with
        | nil => exact absurd ⟨hto, hfree⟩ h
        | cons p rest => exact ⟨p, rest, rfl⟩
      obtain ⟨c, hc⟩ : ∃ c, (s.client i).receive p = some c := by
        simp only [Client.receive, hpc]
        split <;> exact ⟨_, rfl⟩
      have hheld : c.holding = [p] := by
        simp only [Client.receive, hpc] at hc
        split at hc <;> cases hc <;> rfl
      refine ⟨.receive i, { s with
        net := { s.net with toClient := update s.net.toClient i rest }
        client := update s.client i c }, trivial, trivial, ?_, rfl, ?_⟩
      · simp [systemMachine, System.step, hto, hi, hc]
      · refine toAnswer_lt hi (fun j hj => ?_) ?_
        · simp [hj]
        · simp only [Function.update_self, hheld, hto, hfree, List.length_cons, List.length_nil]
          omega

-- While the master waits, the clients answer.
theorem leads_answered (hqj : C.cfg.transType ≠ .udpQj) (k : Nat) (ph : Phase) :
    (systemMachine C).Leads (System.undisturbed C) System.prompt
      (fun s => s.srv.stageNow = k ∧ s.srv.master = .poll ph)
      (fun s => s.srv.stageNow = k ∧ s.srv.master = .poll ph ∧ s.Answered C) := by
  refine .of_rank (System.toAnswer C) fun s hr ⟨hk, hpc⟩ => ?_
  obtain ⟨b, m, -, -, -, hbalance⟩ := exists_balance hqj hr
  by_cases hall : s.Answered C
  · exact .inl ⟨hk, hpc, hall⟩
  · obtain ⟨i, hi, hleft⟩ : ∃ i < C.cfg.clientCount,
        ¬(s.net.toClient i = [] ∧ (s.client i).holding = []) := by
      simpa only [System.Answered, not_forall, exists_prop] using hall
    obtain ⟨e, t, hok, hfit, hs, hsrv, hlt⟩ := client_step hbalance hi hleft
    exact .inr ⟨e, t, hok, hfit, hs, ⟨by rw [hsrv]; exact hk, by rw [hsrv]; exact hpc⟩, hlt⟩

end Q2pc
