import Q2pc.System.MasterSteps
import Q2pc.Lib.AtomicCommit

namespace Q2pc

open Function (update)

variable {C : Cluster} {s t : System}

theorem nextMark_of_masterStep {cfg : Config} {srv t : Server} {e : Event}
    {m : Nat → Nat} (hs : MasterStep cfg srv e t) : srv.nextMark m e = m := by
  cases hs <;> rfl

theorem Inv.step {b m : Nat → Nat} {e : SysEvent} (h : Inv C s b m)
    (hqj : C.cfg.transType ≠ .udpQj) (he : e.lossy) (hs : s.step C e = some t) :
    ∃ b', Inv C t b' (s.nextMark m e) := by
  cases e with
  | server e =>
      obtain ⟨srv, net, hsrv, hnet, rfl⟩ := server_step hs
      rcases step_cases hsrv with hm | ⟨w, hw, hm⟩
      · have hmark := nextMark_of_masterStep (m := m) hm
        simp only [System.nextMark, hmark]
        exact h.masterStep hqj hm hnet
      · exact ⟨b, h.workerStep hw hm hnet⟩
  | receive i => exact ⟨b, h.receive hs⟩
  | respond i => exact ⟨b, h.respond hs⟩
  | quit i => exact ⟨b, h.quit hs⟩
  | faultToClient i f => exact ⟨b, h.fault he (.inl ⟨i, f, rfl⟩) hs⟩
  | faultToServer i f => exact ⟨b, h.fault he (.inr ⟨i, f, rfl⟩) hs⟩

-- Over connections that lose messages but neither repeat nor reorder them the
-- invariant holds in every reachable state.
theorem exists_inv (hqj : C.cfg.transType ≠ .udpQj)
    (h : (systemMachine C).Reachable (fun _ e => e.lossy) s) : ∃ b m, Inv C s b m := by
  apply h.invariant (P := fun s => ∃ b m, Inv C s b m)
  · exact ⟨_, _, Inv.init C⟩
  · rintro s e t - ⟨b, m, hinv⟩ he hs
    obtain ⟨b', hinv'⟩ := hinv.step hqj he hs
    exact ⟨b', _, hinv'⟩

-- The decision of round `r` among the messages passed to `end_write`.
def Net.decision (n : Net) (r : Nat) : Option Packet :=
  (n.passed.find? fun x => x.2.stage == 2 * r + 1).map Prod.snd

-- What a run means for atomic commitment: the votes of the clients, the decisions
-- the master has sent, the outcomes the clients have received.
def System.abstract (s : System) : AtomicCommit.State Nat where
  vote := fun r i => (s.client i).votes[r]?.map (· == .voteYes)
  decision := fun r => (s.net.decision r).map (·.msg.type == .commit)
  outcome := fun r i => (s.client i).decisions[r]?.map (· == .commit)

def Cluster.participants (C : Cluster) : Set Nat := {i | i < C.cfg.clientCount}

theorem Net.decision_eq {n : Net} {i r : Nat} {p : Packet} (hp : (i, p) ∈ n.passed)
    (hstage : p.stage = 2 * r + 1) :
    ∃ j q, (j, q) ∈ n.passed ∧ q.stage = 2 * r + 1 ∧ n.decision r = some q := by
  cases hfind : n.passed.find? fun x => x.2.stage == 2 * r + 1 with
  | none =>
      have := List.find?_eq_none.mp hfind _ hp
      simp [hstage] at this
  | some x =>
      have hx := List.find?_some hfind
      exact ⟨x.1, x.2, List.mem_of_find?_eq_some hfind, by simpa using hx,
        by simp [Net.decision, hfind]⟩

theorem Inv.abstract_decision {b m : Nat → Nat} (h : Inv C s b m) {i r : Nat} {p : Packet}
    (hp : (i, p) ∈ s.net.passed) (hstage : p.stage = 2 * r + 1) :
    s.abstract.decision r = some (p.msg.type == .commit) := by
  obtain ⟨j, q, hq, hqs, hdec⟩ := Net.decision_eq hp hstage
  have hagree := h.history.agree j i q p hq hp (by omega) (by omega)
  simp [System.abstract, hdec, hagree]

private theorem passed_cases {n n' : Net} {e : Event} (h : n.step C.cfg e = some n') :
    n'.passed = n.passed ∨ ∃ i p, n'.passed = n.passed ++ [(i, p)] := by
  cases e with
  | endWrite i =>
      cases h
      exact .inr ⟨i, n.writeBuffer i, rfl⟩
  | endWriteRet i r =>
      simp only [Net.step, Option.ite_none_right_eq_some, Option.some.injEq] at h
      exact .inl (by rw [h.2])
  | begRead w i r =>
      simp only [Net.step, Net.begRead] at h
      split at h
      · simp only [Option.ite_none_right_eq_some, Option.some.injEq] at h
        exact .inl (by rw [h.2])
      · split at h <;> simp_all
        simp [← h.2]
  | _ =>
      cases h
      exact .inl rfl

private theorem abstract_pass {i : Nat} {p : Packet} (h : HistoryOk C t)
    (hclient : t.client = s.client) (hpassed : t.net.passed = s.net.passed ++ [(i, p)]) :
    t.abstract = s.abstract ∨ ∃ f, Machine.always s.abstract f ∧
      (AtomicCommit.machine C.participants).step s.abstract f = some t.abstract := by
  have hvote : t.abstract.vote = s.abstract.vote := by simp only [System.abstract, hclient]
  have houtcome : t.abstract.outcome = s.abstract.outcome := by
    simp only [System.abstract, hclient]
  by_cases hnew : ∃ r, p.stage = 2 * r + 1 ∧ s.net.decision r = none
  · obtain ⟨r, hstage, hnone⟩ := hnew
    refine .inr ⟨.decide r (p.msg.type == .commit), trivial, ?_⟩
    have hyes : (p.msg.type == .commit) = true →
        ∀ j ∈ C.participants, s.abstract.vote r j = some true := by
      intro hc j hj
      have hall := h.commit i p (by simp [hpassed]) (by simpa using hc)
      have hround : p.stage / 2 = r := by omega
      rw [hround] at hall
      rw [← hvote]
      simp [System.abstract, hall j hj]
    have hdecision : t.abstract.decision =
        update s.abstract.decision r (some (p.msg.type == .commit)) := by
      funext r'
      by_cases hr : r' = r
      · subst hr
        simp only [Net.decision, Option.map_eq_none_iff] at hnone
        simp [System.abstract, Net.decision, hpassed, hnone, hstage]
      · have hne : ¬r = r' := Ne.symm hr
        simp [System.abstract, Net.decision, hpassed, hstage, hr, hne]
    have hundecided : s.abstract.decision r = none := by simp [System.abstract, hnone]
    simp only [AtomicCommit.machine, AtomicCommit.step]
    rw [if_pos ⟨hundecided, hyes⟩, ← hdecision, ← hvote, ← houtcome]
  · refine .inl ?_
    have hdecision : t.abstract.decision = s.abstract.decision := by
      funext r
      by_cases hr : p.stage = 2 * r + 1
      · have hsome : s.net.decision r ≠ none := fun hn => hnew ⟨r, hr, hn⟩
        obtain ⟨q, hq⟩ := Option.ne_none_iff_exists'.mp hsome
        obtain ⟨x, hx, -⟩ := Option.map_eq_some_iff.mp hq
        simp [System.abstract, Net.decision, hpassed, hx]
      · simp [System.abstract, Net.decision, hpassed, hr]
    calc t.abstract = ⟨t.abstract.vote, t.abstract.decision, t.abstract.outcome⟩ := rfl
      _ = s.abstract := by rw [hvote, hdecision, houtcome]

private theorem log_append {α : Type} (f : α → Bool) (logs : Nat → List α) (i : Nat) (v : α) :
    (fun r j => ((update logs i (logs i ++ [v])) j)[r]?.map f) =
      update (fun r j => (logs j)[r]?.map f) (logs i).length
        (update (fun j => (logs j)[(logs i).length]?.map f) i (some (f v))) := by
  funext r j
  by_cases hj : j = i
  · subst hj
    by_cases hr : r = (logs j).length
    · subst hr
      simp
    · simp only [Function.update_self, ne_eq, hr, not_false_eq_true, Function.update_of_ne]
      rw [List.getElem?_append]
      split
      · rfl
      · rw [List.getElem?_eq_none (by simp; omega), List.getElem?_eq_none (by omega)]
  · by_cases hr : r = (logs i).length
    · subst hr
      simp [hj]
    · simp [hj, hr]

private theorem log_update {α : Type} (f : Client → α) (client : Nat → Client) (i j : Nat)
    (c : Client) : f (update client i c j) = update (fun j => f (client j)) i (f c) j :=
  Function.apply_update (fun _ => f) client i c j

private theorem log_same {α : Type} (f : Client → α) {client : Nat → Client} {i : Nat} {c : Client}
    (h : f c = f (client i)) (j : Nat) : f (update client i c j) = f (client j) := by
  have hself := Function.update_eq_self i fun j => f (client j)
  rw [← h] at hself
  exact (log_update f client i j c).trans (congrFun hself j)

private theorem abstract_respond {i : Nat} (hs : s.step C (.respond i) = some t) :
    t.abstract = s.abstract ∨ ∃ f, Machine.always s.abstract f ∧
      (AtomicCommit.machine C.participants).step s.abstract f = some t.abstract := by
  simp only [System.step] at hs
  split at hs <;> try contradiction
  obtain ⟨⟨c, response⟩, hc, rfl⟩ := Option.map_eq_some_iff.mp hs
  obtain ⟨hvotes, hdec⟩ := respond_logs hc
  have hdecisions := log_same (·.decisions) hdec
  rcases hvotes with hv | ⟨v, hv⟩
  · have hsame := log_same (·.votes) hv
    exact .inl (by simp [System.abstract, Net.decision, hdecisions, hsame])
  · refine .inr ⟨.vote (s.client i).votes.length i (v == .voteYes), trivial, ?_⟩
    have hnone : s.abstract.vote (s.client i).votes.length i = none := by
      simp [System.abstract]
    have hnew := fun j => hv ▸ log_update (·.votes) s.client i j c
    have hlog := log_append (· == .voteYes) (fun j => (s.client j).votes) i v
    simp only [AtomicCommit.machine, AtomicCommit.step]
    rw [if_pos hnone]
    simp only [System.abstract, Net.decision, hdecisions, hnew, hlog]

private theorem abstract_receive {b m : Nat → Nat} {i : Nat} (h : Inv C s b m)
    (hs : s.step C (.receive i) = some t) :
    t.abstract = s.abstract ∨ ∃ f, Machine.always s.abstract f ∧
      (AtomicCommit.machine C.participants).step s.abstract f = some t.abstract := by
  obtain ⟨p, rest, c, htc, hi, hc, rfl⟩ := System.receive_cases hs
  obtain ⟨hvotes, hdec⟩ := receive_logs hc
  have hsame := log_same (·.votes) hvotes
  rcases hdec with hdec | ⟨hphase, hpc, hdec⟩
  · have hdecisions := log_same (·.decisions) hdec
    exact .inl (by simp [System.abstract, Net.decision, hdecisions, hsame])
  · refine .inr ⟨.learn (s.client i).decisions.length i, trivial, ?_⟩
    have hch := h.channel i hi
    simp only [ChannelOk, htc] at hch
    have hdecision := h.abstract_decision (hch.toClient_mem p (by simp)).1
      (hch.stage_of_phase2 (by simp) hphase hpc)
    have hnew := fun j => hdec ▸ log_update (·.decisions) s.client i j c
    have hlog := log_append (· == .commit) (fun j => (s.client j).decisions) i p.msg.type
    simp only [AtomicCommit.machine, AtomicCommit.step, hdecision, Option.map_some,
      Option.some.injEq]
    simp only [System.abstract, Net.decision, hsame, hnew, hlog]

-- Over connections that neither repeat nor reorder messages the runs of the cluster
-- are runs of atomic commitment.
theorem systemMachine_refines (hqj : C.cfg.transType ≠ .udpQj) :
    (systemMachine C).Refines (fun _ e => e.lossy) (AtomicCommit.machine C.participants)
      Machine.always System.abstract where
  init := by
    simp [System.abstract, systemMachine, System.init, Net.decision, Net.init, Client.start,
      AtomicCommit.machine, AtomicCommit.init]
  step := by
    intro s e t hr he hs
    obtain ⟨b, m, hinv⟩ := exists_inv hqj hr
    obtain ⟨b', hinv'⟩ := hinv.step hqj he hs
    cases e with
    | server e =>
        obtain ⟨srv, net, -, hnet, rfl⟩ := server_step hs
        rcases passed_cases hnet with hpassed | ⟨i, p, hpassed⟩
        · exact .inl (by simp [System.abstract, Net.decision, hpassed])
        · exact abstract_pass hinv'.history rfl hpassed
    | receive i => exact abstract_receive hinv hs
    | respond i => exact abstract_respond hs
    | quit i =>
        simp only [systemMachine, System.step, Option.ite_none_right_eq_some,
          Option.some.injEq] at hs
        obtain ⟨-, rfl⟩ := hs
        refine .inl ?_
        have hvotes : ∀ j, (update s.client i { s.client i with pc := .terminated } j).votes =
            (s.client j).votes := log_same (·.votes) rfl
        have hdecisions : ∀ j, (update s.client i
            { s.client i with pc := .terminated } j).decisions = (s.client j).decisions :=
          log_same (·.decisions) rfl
        simp [System.abstract, Net.decision, hvotes, hdecisions]
    | faultToClient i f =>
        simp only [systemMachine, System.step] at hs
        split at hs <;> try contradiction
        obtain ⟨l, -, rfl⟩ := Option.map_eq_some_iff.mp hs
        exact .inl rfl
    | faultToServer i f =>
        simp only [systemMachine, System.step] at hs
        split at hs <;> try contradiction
        obtain ⟨l, -, rfl⟩ := Option.map_eq_some_iff.mp hs
        exact .inl rfl

-- A commit message of round `r` has been passed to `end_write` only if all clients
-- have sent a yes as their vote `r`.
def System.CommitValid (C : Cluster) (s : System) : Prop :=
  ∀ i p, (i, p) ∈ s.net.passed → p.msg.type = .commit → ∃ r, p.stage = 2 * r + 1 ∧
    ∀ j < C.cfg.clientCount, (s.client j).votes[r]? = some .voteYes

theorem commit_valid (hqj : C.cfg.transType ≠ .udpQj)
    (h : (systemMachine C).Reachable (fun _ e => e.lossy) s) : s.CommitValid C := by
  obtain ⟨b, m, hinv⟩ := exists_inv hqj h
  have habs := (systemMachine_refines hqj).reachable h
  intro i p hp hc
  have hodd : p.stage = 2 * (p.stage / 2) + 1 := by
    by_contra heven
    have hrequest := (hinv.channel i (hinv.history.lt i p hp)).request p hp (by omega)
    simp [hrequest] at hc
  refine ⟨p.stage / 2, hodd, fun j hj => ?_⟩
  have hdecision := hinv.abstract_decision hp hodd
  simp only [hc, beq_self_eq_true] at hdecision
  have hvote := AtomicCommit.commit_valid habs hdecision j hj
  obtain ⟨v, hv, hyes⟩ := Option.map_eq_some_iff.mp hvote
  rw [hv]
  simpa using hyes

-- Safety of two-phase commit over TCP: commits are valid, and no two clients receive
-- different decisions of a round.
theorem commit_safety (htcp : C.cfg.transType = .tcpLn)
    (h : (systemMachine C).Reachable (fun _ e => e.reliable) s) :
    s.CommitValid C ∧
    (∀ r : Nat, ∀ i < C.cfg.clientCount, ∀ j < C.cfg.clientCount,
      (s.client i).decisions[r]? = some .commit → (s.client j).decisions[r]? ≠ some .cancel) := by
  have hqj : C.cfg.transType ≠ .udpQj := by simp [htcp]
  have hlossy := h.mono (fun _ _ => SysEvent.reliable.lossy)
  refine ⟨commit_valid hqj hlossy, ?_⟩
  intro r i _ j _ hi hj
  have hagree := AtomicCommit.agreement ((systemMachine_refines hqj).reachable hlossy) (r := r)
    (i := i) (j := j) (a := true) (b := false) (by simp [System.abstract, hi])
    (by simp [System.abstract, hj])
  contradiction

-- The master from the scoreboard initialisation of a phase to the wait for votes, with
-- `n` connections that take their messages at once.
def sendEvents (n : Nat) (ph : Phase) (stage : Nat) : List SysEvent :=
  .replicate (n + 1) (.server .master) ++
  ((List.range n).flatMap fun i =>
    [.server .master, .server (.begWrite i ⟨requestMsg ph.msgType 0, stage⟩)]) ++
  .replicate 2 (.server .master) ++
  ((List.range n).flatMap fun i =>
    [.server .master, .server (.endWrite i), .server (.endWriteRet i .enone)]) ++
  .replicate 2 (.server .master)

-- The clients of these connections receive their messages and respond.
def answerEvents (is : List Nat) : List SysEvent :=
  is.flatMap fun i => [.receive i, .respond i]

-- A pass of the only worker over its connections: what it reads on each.
def passEvents (responses : List (Option (MsgType × Nat))) : List SysEvent :=
  [.server (.worker 0), .server (.worker 0)] ++
  responses.zipIdx.flatMap (fun (response, i) =>
    match response with
    | none => [.server (.begRead 0 i .eagain)]
    | some (t, stage) =>
        [.server (.begRead 0 i (.data ⟨⟨t, i + 1, 0, 0, 0⟩, stage⟩)), .server (.worker 0),
          .server (.endRead 0 i), .server (.worker 0), .server (.worker 0),
          .server (.timeEnd 0 0)]) ++
  [.server (.worker 0)]

-- The master from the wait for votes, left by the timeout or with all votes counted,
-- to the end of the phase.
def scanEvents (n : Nat) (expired : Bool) : List SysEvent :=
  .server (.clock expired) :: .replicate (2 * n + if expired then 6 else 8) (.server .master)

-- Two clients are asked for their votes, both vote yes, and the commit goes out.
def pairCommitEvents : List SysEvent :=
  .server .master :: sendEvents 2 .phase1 0 ++ answerEvents [0, 1] ++
  passEvents [some (.voteYes, 0), some (.voteYes, 0)] ++ scanEvents 2 false ++
  sendEvents 2 (.phase2 .requestSuccess) 1 ++ [.receive 0, .receive 1]

def pair (transType : TransType) : Cluster := .oneThread transType 2 100 1 (by decide) (by decide)

theorem commit_safety_pair : ∃ s : System,
    (systemMachine (pair .tcpLn)).Reachable (fun _ e => e.reliable) s ∧
    (s.net.passed.any fun x => x.2.msg.type == .commit) = true ∧
    s.CommitValid (pair .tcpLn) ∧
    (∀ r : Nat, ∀ i < 2, ∀ j < 2,
      (s.client i).decisions[r]? = some .commit → (s.client j).decisions[r]? ≠ some .cancel) := by
  obtain ⟨s, hrun, hs⟩ := Machine.exists_run_of_eval (systemMachine (pair .tcpLn))
    (fun _ e => e.reliable) pairCommitEvents
    (fun s => s.net.passed.any fun x => x.2.msg.type == .commit) (by decide +kernel)
  exact ⟨s, hrun.reachable, hs, commit_safety (C := pair .tcpLn) rfl hrun.reachable⟩

end Q2pc
