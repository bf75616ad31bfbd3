import Q2pc.Lib.Delivery
import Q2pc.System.Safety

namespace Q2pc

open Function (update)

variable {C : Cluster} {s t : System} {b m : Nat → Nat} {c c' : Client} {id r i : Nat}
  {ok : System → SysEvent → Prop}

-- The vote of the client with the id `id` in round `r`.
def roundVote (id r : Nat) : MsgType := voteType ((id + r) % 2 ^ 64)

-- The decision that the votes of the clients 1..n make of round `r`.
def outcome (n r : Nat) : MsgType :=
  if ∀ i < n, roundVote (i + 1) r = .voteYes then .commit else .cancel

-- The votes of a client, and the counter the next is taken from.
structure Client.Counts (id : Nat) (c : Client) : Prop where
  voteCount : c.voteCount = (id + c.votes.length) % 2 ^ 64
  votes : ∀ (r : Nat) v, c.votes[r]? = some v → v = roundVote id r

theorem Client.Counts.start (hid : id < 2 ^ 64) : (Client.start id).Counts id where
  voteCount := (Nat.mod_eq_of_lt hid).symm
  votes := by simp [Client.start]

theorem Client.Counts.congr (h : c.Counts id) (hcount : c'.voteCount = c.voteCount)
    (hvotes : c'.votes = c.votes) : c'.Counts id where
  voteCount := by rw [hcount, hvotes, h.voteCount]
  votes := hvotes ▸ h.votes

theorem Client.Counts.receive {p : Packet} (h : c.Counts id) (hr : c.receive p = some c') :
    c'.Counts id := by
  refine h.congr ?_ (receive_logs hr).1
  unfold Client.receive at hr
  split at hr <;> try contradiction
  split at hr <;> cases hr <;> rfl

theorem Client.Counts.respond {response : Option Packet} (h : c.Counts id)
    (hr : c.respond = some (c', response)) : c'.Counts id := by
  obtain ⟨old, hpc⟩ : ∃ old, c.pc = .respond old := by
    unfold Client.respond at hr
    split at hr
    · exact ⟨_, ‹_›⟩
    · contradiction
  rcases Q2pc.respond_cases hpc hr with ⟨rfl, -⟩ | ⟨-, -, rfl, -⟩ | ⟨-, -, rfl, -⟩
  · exact h.congr rfl rfl
  · -- the next vote
    refine ⟨?_, ?_⟩
    · simp only [List.length_append, List.length_singleton, h.voteCount]
      omega
    · intro r v hv
      rcases getElem?_snoc_cases hv with hv | ⟨rfl, rfl⟩
      · exact h.votes r v hv
      · rw [h.voteCount]
        rfl
  · exact h.congr rfl rfl

def System.Counts (C : Cluster) (s : System) : Prop :=
  ∀ i < C.cfg.clientCount, (s.client i).Counts (C.peer i + 1)

private theorem System.Counts.update (h : s.Counts C) (hclient : t.client = update s.client i c)
    (hc : (s.client i).Counts (C.peer i + 1) → c.Counts (C.peer i + 1)) : t.Counts C := by
  intro j hj
  rw [hclient]
  by_cases hji : j = i
  · subst hji
    rw [Function.update_self]
    exact hc (h j hj)
  · rw [Function.update_of_ne hji]
    exact h j hj

theorem counts_of_reachable (h : (systemMachine C).Reachable ok s) : s.Counts C := by
  apply h.invariant (P := System.Counts C)
  · intro i hi
    have := (C.peer_lt i).mpr hi
    have := C.count_le
    exact .start (by omega)
  · intro s e t _ ih _ hs
    cases e with
    | server e =>
        obtain ⟨srv, net, -, -, rfl⟩ := server_step hs
        exact ih
    | receive i =>
        obtain ⟨p, rest, c, -, -, hc, rfl⟩ := System.receive_cases hs
        exact ih.update rfl fun h => h.receive hc
    | respond i =>
        simp only [systemMachine, System.step, Option.ite_none_right_eq_some] at hs
        obtain ⟨⟨c, response⟩, hc, rfl⟩ := Option.map_eq_some_iff.mp hs.2
        exact ih.update rfl fun h => h.respond hc
    | quit i =>
        simp only [systemMachine, System.step, Option.ite_none_right_eq_some,
          Option.some.injEq] at hs
        obtain ⟨-, rfl⟩ := hs
        exact ih.update rfl fun h => h.congr rfl rfl
    | faultToClient i f | faultToServer i f =>
        simp only [systemMachine, System.step, Option.ite_none_right_eq_some] at hs
        obtain ⟨l, -, rfl⟩ := Option.map_eq_some_iff.mp hs.2
        exact ih

def MasterPc.sends : MasterPc → Option Phase
  | .collect ph _ | .begWrite ph _ | .sendAll ph | .sendConn ph _ | .endWrite ph _
  | .inEndWrite ph _ => some ph
  | _ => none

-- The master has found that the request of this round fails.
def MasterPc.Refused : MasterPc → Prop
  | .scan ph _ r | .readSlot ph _ r | .clearCount ph _ r | .unpauseAll ph r | .phaseReturn ph r =>
      ph = .phase1 ∧ r = .requestFail ∨ ph = .phase2 .requestFail
  | pc => pc.phase = .phase2 .requestFail

def SomeNo (C : Cluster) (s : System) (r : Nat) : Prop :=
  ∃ i < C.cfg.clientCount, (s.client i).votes[r]? = some .voteNo

structure Refusals (C : Cluster) (s : System) : Prop where
  sends : ∀ ph, s.srv.master.sends = some ph → ph = .phase1 ∨ ph = .phase2 .requestSuccess ∨
    ph = .phase2 .requestFail
  refused : s.srv.master.Refused → SomeNo C s s.srv.requests
  passed : ∀ i p, (i, p) ∈ s.net.passed → p.msg.type = .cancel → SomeNo C s (p.stage / 2)

private theorem SomeNo.mono (h : SomeNo C s r)
    (hvotes : ∀ i < C.cfg.clientCount, (s.client i).votes <+: (t.client i).votes) :
    SomeNo C t r := by
  obtain ⟨i, hi, hno⟩ := h
  exact ⟨i, hi, getElem?_extend (hvotes i hi) hno⟩

private theorem Refusals.mono (h : Refusals C s) (hmaster : t.srv.master = s.srv.master)
    (hreq : t.srv.requests = s.srv.requests) (hpassed : t.net.passed = s.net.passed)
    (hvotes : ∀ i < C.cfg.clientCount, (s.client i).votes <+: (t.client i).votes) :
    Refusals C t where
  sends := hmaster ▸ h.sends
  refused := by
    rw [hmaster, hreq]
    exact fun href => (h.refused href).mono hvotes
  passed := by
    rw [hpassed]
    exact fun i p hp hc => (h.passed i p hp hc).mono hvotes

private theorem Refusals.move {srv : Server} {net : Net} (h : Refusals C s)
    (hpassed : net.passed = s.net.passed)
    (hsends : ∀ ph, srv.master.sends = some ph → s.srv.master.sends = some ph ∨ ph = .phase1 ∨
      ph = .phase2 .requestSuccess ∨ ph = .phase2 .requestFail)
    (hrefused : srv.master.Refused → SomeNo C s srv.requests) :
    Refusals C { s with srv, net } where
  sends := fun ph hph => (hsends ph hph).elim (h.sends ph) id
  refused := hrefused
  passed := hpassed ▸ h.passed

private theorem Inv.scannedNo (h : Inv C s b m) {j : Nat} {r : CommitStatus}
    (hpc : s.srv.master = .readSlot .phase1 j r) (hslot : s.srv.votesScoreboard j = .voteNo) :
    SomeNo C s s.srv.requests := by
  have hactive : s.srv.Active := by simp [Server.Active, hpc]
  have hat := h.master.position
  simp only [MasterAt, hpc] at hat
  obtain ⟨-, hj, -⟩ := hat
  obtain ⟨i, rfl⟩ := C.peer.surjective j
  have hi := (C.peer_lt i).mp hj
  have hch := h.channel i hi
  simp only [ChannelOk, hslot] at hch
  obtain ⟨hodd, hvote⟩ := hch.slot.vote (.inr rfl)
  have hge := h.master.mark_ge hactive i hi
  have hle := h.master.bound_le hactive i hi
  simp only [Server.stageNow, hpc, MasterPc.phase, Server.stage] at hle
  have := hch.mark_le
  have := hch.stage_le
  refine ⟨i, hi, ?_⟩
  rwa [show m i / 2 = s.srv.requests by omega] at hvote

private theorem Refusals.readSlot (h : Refusals C s) (hinv : Inv C s b m) {ph : Phase} {j : Nat}
    {r r' : CommitStatus} (hpc : s.srv.master = .readSlot ph j r)
    (hscan : scanSlot ph r (s.srv.votesScoreboard j) = some r')
    (href : (MasterPc.scan ph (j + 1) r').Refused) : SomeNo C s s.srv.requests := by
  have hrefused := h.refused
  rw [hpc] at hrefused
  cases ph with
  | phase2 st => exact hrefused (.inr (href.resolve_left (by simp)))
  | phase1 =>
      obtain rfl : r' = .requestFail := (href.resolve_right (by simp)).2
      cases hslot : s.srv.votesScoreboard j <;> simp only [hslot, scanSlot, reduceCtorEq,
        Option.some.injEq] at hscan
      case voteYes => exact hrefused (.inl ⟨rfl, hscan⟩)
      case voteNo => exact hinv.scannedNo hpc hslot

private theorem Refusals.startPhase {net : Net} {ph : Phase} {j : Nat} (h : Refusals C s)
    (hpassed : net.passed = s.net.passed) (hpc : s.srv.master = .initScoreboard ph j) :
    Refusals C { s with srv := s.srv.startPhase C.cfg ph, net } := by
  have hrefused := h.refused
  rw [hpc] at hrefused
  have hsend : ∀ ph', ph' = .phase1 ∨ ph' = .phase2 .requestSuccess ∨ ph' = .phase2 .requestFail →
      ph' = ph → Refusals C { s with srv := s.srv.sendRequest C.cfg ph', net } := by
    rintro ph' hph' rfl
    unfold Server.sendRequest
    split
    · refine h.move hpassed (fun ph hph => .inr ?_) fun href => hrefused href
      cases hph
      exact hph'
    · refine h.move hpassed (fun ph hph => .inr ?_) fun href => hrefused href
      cases hph
      exact hph'
  have hterm : Refusals C { s with srv := s.srv.term, net } :=
    h.move hpassed (by simp [Server.term, MasterPc.sends])
      (by simp [Server.term, MasterPc.Refused, MasterPc.phase])
  cases ph with
  | phase1 => exact hsend _ (.inl rfl) rfl
  | phase2 st =>
      cases st with
      | requestSuccess => exact hsend _ (.inr (.inl rfl)) rfl
      | requestFail => exact hsend _ (.inr (.inr rfl)) rfl
      | clusterFail =>
          exact h.move hpassed (by simp [Server.startPhase, Server.setMaster, MasterPc.sends])
            (by simp [Server.startPhase, Server.setMaster, MasterPc.Refused])
      | commitSuccess | commitFail => exact hterm

private theorem Refusals.afterPhase {net : Net} {ph : Phase} {st : CommitStatus} (h : Refusals C s)
    (hpassed : net.passed = s.net.passed) (hpc : s.srv.master = .phaseReturn ph st) :
    Refusals C { s with srv := s.srv.afterPhase ph st, net } := by
  have hrefused := h.refused
  rw [hpc] at hrefused
  cases ph with
  | phase1 =>
      refine h.move hpassed (by simp [Server.afterPhase, Server.setMaster, MasterPc.sends]) ?_
      intro href
      refine hrefused (.inl ⟨rfl, ?_⟩)
      simpa [Server.afterPhase, Server.setMaster, MasterPc.Refused, MasterPc.phase] using href
  | phase2 st' =>
      cases st <;> exact h.move hpassed (by simp [Server.afterPhase, Server.term, MasterPc.sends])
        (by simp [Server.afterPhase, Server.term, MasterPc.Refused, MasterPc.phase])

private theorem Refusals.endWriteRet {net : Net} {ph : Phase} {j : Nat} {ret : Ret}
    (h : Refusals C s) (hpassed : net.passed = s.net.passed)
    (hpc : s.srv.master = .inEndWrite ph j) :
    Refusals C { s with srv := s.srv.endWriteRet C.cfg ph j ret, net } := by
  have hrefused := h.refused
  rw [hpc] at hrefused
  have hsends : s.srv.master.sends = some ph := by rw [hpc]; rfl
  have hterm : Refusals C { s with srv := s.srv.term, net } :=
    h.move hpassed (by simp [Server.term, MasterPc.sends])
      (by simp [Server.term, MasterPc.Refused, MasterPc.phase])
  unfold Server.endWriteRet
  split
  · exact h.move hpassed (by simp [Server.setMaster, MasterPc.sends]) fun href => hrefused href
  · cases ret with
    | rtofired =>
        dsimp only
        split
        · exact hterm
        · exact h.move hpassed (fun ph' hph' => .inl (hsends.trans hph')) fun href => hrefused href
    | eagain | enone =>
        exact h.move hpassed (fun ph' hph' => .inl (hsends.trans hph')) fun href => hrefused href
    | efin => exact hterm

-- The cancel that is passed now follows the refusal of its round.
private theorem Refusals.endWrite {ph : Phase} {j : Nat} (h : Refusals C s) (hinv : Inv C s b m)
    (hpc : s.srv.master = .endWrite ph j) :
    Refusals C { s with
      srv := s.srv.setMaster (.inEndWrite ph j), net := s.net.write C.cfg j } where
  sends := by
    have hsends := h.sends ph (by rw [hpc]; rfl)
    rintro ph' ⟨⟩
    exact hsends
  refused := fun href => h.refused (by rw [hpc]; exact href)
  passed := by
    intro i p hp hc
    simp only [Net.write, List.mem_append, List.mem_singleton, Prod.mk.injEq] at hp
    rcases hp with hp | ⟨-, rfl⟩
    · exact h.passed i p hp hc
    · have hat := hinv.master.position
      simp only [MasterAt, hpc] at hat
      obtain ⟨-, -, -, -, ⟨hstage, htype⟩, -⟩ := hat
      have hph : ph = .phase2 .requestFail := by
        rw [htype] at hc
        rcases h.sends ph (by rw [hpc]; rfl) with rfl | rfl | rfl
        · simp [Phase.msgType] at hc
        · simp [Phase.msgType] at hc
        · rfl
      subst hph
      have hround : (s.net.writeBuffer j).stage / 2 = s.srv.requests := by
        rw [hstage]
        simp only [Server.stage]
        omega
      rw [hround]
      exact h.refused (by rw [hpc]; rfl)

private theorem Refusals.master {e : Event} {srv : Server} {net : Net} (h : Refusals C s)
    (hinv : Inv C s b m) (hm : MasterStep C.cfg s.srv e srv)
    (hnet : s.net.step C.cfg e = some net) : Refusals C { s with srv, net } := by
  have hstay : ∀ {pc pc' : MasterPc}, s.srv.master = pc → net.passed = s.net.passed →
      srv.master = pc' → srv.requests = s.srv.requests →
      (pc'.sends = none ∨ pc'.sends = pc.sends) → (pc'.Refused → pc.Refused) →
      Refusals C { s with srv, net } := by
    intro pc pc' hpc hpassed hpc' hreq hsends hrefused
    refine h.move hpassed (fun ph hph => .inl ?_) fun href => ?_
    · rw [hpc'] at hph
      rw [hpc, ← hsends.resolve_left (by simp [hph]), hph]
    · rw [hreq]
      exact h.refused (hpc ▸ hrefused (hpc' ▸ href))
  cases hm with
  | endWrite hpc =>
      cases hnet
      exact h.endWrite hinv hpc
  | startPhase hpc =>
      cases hnet
      exact h.startPhase rfl hpc
  | phaseReturn hpc =>
      cases hnet
      exact h.afterPhase rfl hpc
  | endWriteRet hpc =>
      simp only [Net.step, Option.ite_none_right_eq_some, Option.some.injEq] at hnet
      exact h.endWriteRet (by rw [hnet.2]) hpc
  | readSlot hpc hscan =>
      cases hnet
      exact h.move rfl (by simp [Server.setMaster, MasterPc.sends])
        fun href => h.readSlot hinv hpc hscan href
  | finish hpc | badSlot hpc | badStatus hpc =>
      cases hnet
      have hdone : ∀ srv : Server, srv.term.master = .terminated := fun _ => rfl
      exact hstay hpc rfl (hdone _) rfl (.inl rfl) (by simp [MasterPc.Refused, MasterPc.phase])
  | startRound hpc =>
      cases hnet
      have hnext : (s.srv.setMaster (.initScoreboard .phase1 0)).master =
          .initScoreboard .phase1 0 := rfl
      exact hstay hpc rfl hnext rfl (.inl rfl) (by simp [MasterPc.Refused, MasterPc.phase])
  | @unpause ph r status hpc hst =>
      cases hnet
      refine hstay hpc rfl rfl rfl (.inl rfl) ?_
      cases ph with
      | phase1 =>
          cases hst
          exact id
      | phase2 st => exact fun href => .inr (href.resolve_left (by simp))
  | @pause ph hpc =>
      cases hnet
      refine hstay hpc rfl rfl rfl (.inl rfl) ?_
      cases ph with
      | phase1 => simp [Phase.startStatus, MasterPc.Refused]
      | phase2 st => exact fun href => href.resolve_left (by simp)
  | collectNext hpc | collected hpc | sendPass hpc | skipConn hpc | callConn hpc | passDone hpc
  | begWrite hpc | broadcastBegWrite hpc =>
      cases hnet
      exact hstay hpc rfl rfl rfl (.inr rfl) id
  | initSlot hpc | sent hpc | sumNext hpc | sumEnough hpc | sumShort hpc | scanNext hpc
  | scanned hpc | clearNext hpc | cleared hpc | expired hpc | notExpired hpc =>
      cases hnet
      exact hstay hpc rfl rfl rfl (.inl rfl) id

theorem votes_prefix {e : SysEvent} (hs : s.step C e = some t) (i : Nat) :
    (s.client i).votes <+: (t.client i).votes := by
  have hupdate : ∀ {j : Nat} {c : Client}, (s.client j).votes <+: c.votes →
      (s.client i).votes <+: (update s.client j c i).votes := by
    intro j c hc
    by_cases hij : i = j
    · subst hij
      rwa [Function.update_self]
    · rw [Function.update_of_ne hij]
  cases e with
  | server e =>
      obtain ⟨srv, net, -, -, rfl⟩ := server_step hs
      exact List.prefix_rfl
  | receive j =>
      obtain ⟨p, rest, c, -, -, hc, rfl⟩ := System.receive_cases hs
      exact hupdate (by rw [(receive_logs hc).1])
  | respond j =>
      simp only [System.step, Option.ite_none_right_eq_some] at hs
      obtain ⟨⟨c, response⟩, hc, rfl⟩ := Option.map_eq_some_iff.mp hs.2
      refine hupdate ?_
      rcases (respond_logs hc).1 with hv | ⟨v, hv⟩ <;> simp [hv]
  | quit j =>
      simp only [System.step, Option.ite_none_right_eq_some, Option.some.injEq] at hs
      obtain ⟨-, rfl⟩ := hs
      exact hupdate List.prefix_rfl
  | faultToClient j f | faultToServer j f =>
      simp only [System.step, Option.ite_none_right_eq_some] at hs
      obtain ⟨l, -, rfl⟩ := Option.map_eq_some_iff.mp hs.2
      exact List.prefix_rfl

private theorem WorkerStep.passed_eq {w : Nat} {e : Event} {srv : Server} {n n' : Net}
    (hm : WorkerStep C.cfg s.srv w e srv) (hnet : n.step C.cfg e = some n') :
    n'.passed = n.passed := by
  cases hm with
  | begRead =>
      simp only [Net.step, Net.begRead] at hnet
      split at hnet
      · simp only [Option.ite_none_right_eq_some, Option.some.injEq] at hnet
        rw [hnet.2]
      · split at hnet <;> simp_all
        simp [← hnet.2]
  | _ =>
      cases hnet
      rfl

private theorem Refusals.init (C : Cluster) : Refusals C (.init C) where
  sends := by simp [System.init, Server.init, MasterPc.sends]
  refused := by simp [System.init, Server.init, MasterPc.Refused, MasterPc.phase]
  passed := by simp [System.init, Net.init]

private theorem Refusals.step {e : SysEvent} (h : Refusals C s) (hinv : Inv C s b m)
    (hs : s.step C e = some t) : Refusals C t := by
  have hvotes := fun i (_ : i < C.cfg.clientCount) => votes_prefix hs i
  cases e with
  | server e =>
      obtain ⟨srv, net, hsrv, hnet, rfl⟩ := server_step hs
      rcases step_cases hsrv with hm | ⟨w, hw, hm⟩
      · exact h.master hinv hm hnet
      · obtain ⟨hmaster, hreq, -, -⟩ := hm.frame
        exact h.mono hmaster hreq (hm.passed_eq hnet) hvotes
  | receive j =>
      obtain ⟨p, rest, c, -, -, hc, rfl⟩ := System.receive_cases hs
      exact h.mono rfl rfl rfl hvotes
  | respond j =>
      simp only [System.step, Option.ite_none_right_eq_some] at hs
      obtain ⟨⟨c, response⟩, hc, rfl⟩ := Option.map_eq_some_iff.mp hs.2
      exact h.mono rfl rfl rfl hvotes
  | quit j =>
      simp only [System.step, Option.ite_none_right_eq_some, Option.some.injEq] at hs
      obtain ⟨-, rfl⟩ := hs
      exact h.mono rfl rfl rfl hvotes
  | faultToClient j f | faultToServer j f =>
      simp only [System.step, Option.ite_none_right_eq_some] at hs
      obtain ⟨l, -, rfl⟩ := Option.map_eq_some_iff.mp hs.2
      exact h.mono rfl rfl rfl hvotes

theorem refusals_of_reachable (hqj : C.cfg.transType ≠ .udpQj)
    (h : (systemMachine C).Reachable (fun _ e => e.lossy) s) : Refusals C s := by
  apply h.invariant (P := Refusals C)
  · exact .init C
  · intro s e t hr ih _ hs
    obtain ⟨b, m, hinv⟩ := exists_inv hqj hr
    exact ih.step hinv hs

-- The votes of round `r` that are no for none make a commit of it.
theorem outcome_eq_commit {n : Nat} (h : ∀ i < n, roundVote (i + 1) r = .voteYes) :
    outcome n r = .commit := if_pos h

theorem outcome_eq_cancel {n : Nat} (hi : i < n) (h : roundVote (i + 1) r = .voteNo) :
    outcome n r = .cancel :=
  if_neg fun hall => by simp [hall i hi] at h

-- Of five clients in a row one votes no, also where the counter wraps around.
theorem outcome_of_five {n : Nat} (hn : 5 ≤ n) (r : Nat) : outcome n r = .cancel := by
  obtain ⟨i, hi, hno⟩ : ∃ i < 5, (i + 1 + r) % 2 ^ 64 % 5 = 0 := by
    by_cases hwrap : (1 + r) % 2 ^ 64 + 4 < 2 ^ 64
    · -- the next multiple of five
      obtain ⟨i, hi⟩ : ∃ i, i = (5 - (1 + r) % 2 ^ 64 % 5) % 5 := ⟨_, rfl⟩
      have hsum : (i + 1 + r) % 2 ^ 64 = (1 + r) % 2 ^ 64 + i := by omega
      exact ⟨i, by omega, by omega⟩
    · -- the counter gets to zero
      have hzero : (2 ^ 64 - (1 + r) % 2 ^ 64 + 1 + r) % 2 ^ 64 = 0 := by omega
      exact ⟨2 ^ 64 - (1 + r) % 2 ^ 64, by omega, by rw [hzero]⟩
  refine outcome_eq_cancel (i := i) (Nat.lt_of_lt_of_le hi hn) ?_
  rw [roundVote, voteType, if_neg (not_not.mpr hno)]

-- What the decision of a round can be is fixed by the counters the votes are taken from.
theorem decision_eq_outcome (hqj : C.cfg.transType ≠ .udpQj)
    (h : (systemMachine C).Reachable (fun _ e => e.lossy) s) {p : Packet}
    (hp : (i, p) ∈ s.net.passed) (hstage : p.stage = 2 * r + 1) :
    p.msg.type = outcome C.cfg.clientCount r := by
  obtain ⟨b, m, hinv⟩ := exists_inv hqj h
  have hcounts := counts_of_reachable h
  have hround : p.stage / 2 = r := by omega
  have hi := hinv.history.lt i p hp
  rcases (hinv.channel i hi).decision p hp (by omega) with hc | hc
  · -- a commit rests on the votes of all
    have hall := hinv.history.commit i p hp hc
    rw [hround] at hall
    rw [hc, outcome_eq_commit]
    intro j hj
    obtain ⟨i', rfl⟩ := C.peer.surjective j
    have hi' := (C.peer_lt i').mp hj
    exact ((hcounts i' hi').votes r _ (hall i' hi')).symm
  · -- a cancel on the no of one
    obtain ⟨j, hj, hno⟩ := (refusals_of_reachable hqj h).passed i p hp hc
    rw [hround] at hno
    rw [hc, outcome_eq_cancel ((C.peer_lt j).mpr hj) ((hcounts j hj).votes r _ hno).symm]

-- A client learns of a commit only if all have voted yes.
theorem votes_of_learnt (hqj : C.cfg.transType ≠ .udpQj)
    (h : (systemMachine C).Reachable (fun _ e => e.lossy) s) (hi : i < C.cfg.clientCount)
    (hc : (s.client i).decisions[r]? = some .commit) :
    ∀ j < C.cfg.clientCount, (s.client j).votes[r]? = some .voteYes := by
  intro j hj
  obtain ⟨b, m, hinv⟩ := exists_inv hqj h
  obtain ⟨p, hp, hstage, htype⟩ := hinv.history.decisions i hi r .commit hc
  have hyes := hinv.history.commit i p hp htype j hj
  rwa [hstage, show (2 * r + 1) / 2 = r by omega] at hyes

-- No two clients learn different decisions of a round.
theorem learnt_agree (hqj : C.cfg.transType ≠ .udpQj)
    (h : (systemMachine C).Reachable (fun _ e => e.lossy) s) {j : Nat}
    (hi : i < C.cfg.clientCount) (hj : j < C.cfg.clientCount)
    (hc : (s.client i).decisions[r]? = some .commit) :
    (s.client j).decisions[r]? ≠ some .cancel := by
  intro hn
  obtain ⟨b, m, hinv⟩ := exists_inv hqj h
  obtain ⟨p, hp, hstage, htype⟩ := hinv.history.decisions i hi r .commit hc
  obtain ⟨p', hp', hstage', htype'⟩ := hinv.history.decisions j hj r .cancel hn
  have hagree := hinv.history.agree i j p p' hp hp' (by omega) (by omega)
  simp [htype, htype'] at hagree

-- Over connections that lose messages, but neither repeat nor reorder them, all runs of the
-- cluster that get as far decide a round alike: what the master sends and the clients learn
-- is the outcome of the round.
theorem decisions_determined (hqj : C.cfg.transType ≠ .udpQj)
    (h : (systemMachine C).Reachable (fun _ e => e.lossy) s) :
    (∀ i p r, (i, p) ∈ s.net.passed → p.stage = 2 * r + 1 →
      p.msg.type = outcome C.cfg.clientCount r) ∧
    (∀ i < C.cfg.clientCount, ∀ (r : Nat) d, (s.client i).decisions[r]? = some d →
      d = outcome C.cfg.clientCount r) ∧
    (∀ i < C.cfg.clientCount, ∀ (r : Nat) v, (s.client i).votes[r]? = some v →
      v = roundVote (C.peer i + 1) r) := by
  refine ⟨fun i p r hp hstage => decision_eq_outcome hqj h hp hstage, ?_, ?_⟩
  · intro i hi r d hd
    obtain ⟨b, m, hinv⟩ := exists_inv hqj h
    obtain ⟨p, hp, hstage, rfl⟩ := hinv.history.decisions i hi r d hd
    exact decision_eq_outcome hqj h hp hstage
  · exact fun i hi => (counts_of_reachable h i hi).votes

theorem decisions_determined_pair : ∃ s : System,
    (systemMachine (pair .tcpLn)).Reachable (fun _ e => e.lossy) s ∧
    ((s.client 0).decisions == [.commit]) = true ∧
    (∀ i p r, (i, p) ∈ s.net.passed → p.stage = 2 * r + 1 → p.msg.type = outcome 2 r) ∧
    (∀ i < 2, ∀ (r : Nat) d, (s.client i).decisions[r]? = some d → d = outcome 2 r) ∧
    (∀ i < 2, ∀ (r : Nat) v, (s.client i).votes[r]? = some v →
      v = roundVote ((pair .tcpLn).peer i + 1) r) := by
  obtain ⟨s, hrun, hs⟩ := Machine.exists_run_of_eval (systemMachine (pair .tcpLn))
    (fun _ e => e.lossy) pairCommitEvents (fun s => (s.client 0).decisions == [.commit])
    (by decide +kernel)
  exact ⟨s, hrun.reachable, hs, decisions_determined (C := pair .tcpLn) (by decide) hrun.reachable⟩

end Q2pc
