import Q2pc.Lib.Simulation
import Q2pc.Rudp.Plain
import Q2pc.Rudp.Cluster

namespace Q2pc

open Function (update)

variable {cfg : Config} {s t : Server} {e : Event} {len q : Nat → Nat} {v : SendView} {n i k : Nat}
  {ph : Phase} {r : Ret}

-- The last of the `len i` messages of connection `i` is not passed to `end_write` yet.
def Fresh (len q : Nat → Nat) (i : Nat) : Prop := len i = q i + 1

-- The positions of the master at connection `k` in the loop over the calls of `end_write`.
def MasterPc.AtConn (pc : MasterPc) (ph : Phase) (k : Nat) : Prop :=
  pc = .sendConn ph k ∨ pc = .endWrite ph k ∨ pc = .inEndWrite ph k

-- Over RUDP the master goes round the connections until all messages are acknowledged, over
-- connections that take each message at once it goes round them once. `Passes` relates the
-- master `s` of the first to that of the second, which has the variables `v`.
structure Outside (s : Server) (len q : Nat → Nat) (v : SendView) : Prop where
  sending : s.master.sending = none
  master : v.master = s.master
  collected : ∀ ph j, s.master = .collect ph j ∨ s.master = .begWrite ph j →
    s.stopSignal = false → ∀ i < j, Fresh len q i

-- In the first pass the two go along together. The stop signal may cut it short.
structure FirstPass (n : Nat) (s : Server) (len q : Nat → Nat) (v : SendView) (ph : Phase)
    (k : Nat) : Prop where
  position : s.master.AtConn ph k ∨ s.master = .sendAll ph ∧ (k = 0 ∨ s.stopSignal = true)
  master : v.master = s.master
  lt : k < n
  commited : v.commited = k ∧ s.commited ≤ k
  rtos : ∀ i, k ≤ i → v.connRtofiredCount i = 0 ∧ s.connRtofiredCount i = 0
  before : ∀ i < k, q i = len i
  later : s.stopSignal = false → ∀ i < n, k < i → Fresh len q i
  called : s.master = .inEndWrite ph k → q k = len k
  now : s.master = .endWrite ph k ∨ s.stopSignal = false ∧ s.master ≠ .inEndWrite ph k →
    Fresh len q k

-- From the end of the first pass on the second stays in its last call.
structure LaterPass (n : Nat) (s : Server) (len q : Nat → Nat) (v : SendView) (ph : Phase) :
    Prop where
  sending : s.master.sending = some ph
  master : v.master = .inEndWrite ph (n - 1)
  commited : v.commited + 1 = n
  passed : ∀ i < n, q i = len i

def Passes (n : Nat) (s : Server) (len q : Nat → Nat) (v : SendView) : Prop :=
  Outside s len q v ∨ ∃ ph, (∃ k, FirstPass n s len q v ph k) ∨ LaterPass n s len q v ph

-- Such a step of the server leaves the connections alone.
def Event.Still (cfg : Config) (e : Event) : Prop := ∀ n : Net, n.step cfg e = some n

theorem steps_of_still {C : Cluster} {a b : Server}
    (h : (serverMachine C.cfg).Steps (fun _ e => e.Still C.cfg) a b) (net : Net)
    (client : Nat → Client) :
    (systemMachine C).Steps (fun _ e => e.reliable) ⟨a, net, client⟩ ⟨b, net, client⟩ := by
  induction h with
  | refl => exact .refl
  | tail _ hstep ih =>
      obtain ⟨e, hstill, hs⟩ := hstep
      refine ih.tail ⟨.server e, trivial, ?_⟩
      have hs : Server.step C.cfg _ e = some _ := hs
      simp [systemMachine, System.step, hs, hstill net]

private theorem one_of_master {a b : Server} (h : a.masterStep cfg = some b) :
    (serverMachine cfg).Steps (fun _ e => e.Still cfg) a b :=
  .one (e := .master) (fun _ => rfl) h

private theorem MasterStep.collecting {j : Nat} (h : MasterStep cfg s e t) (he : e.onConn = none)
    (ht : t.master = .collect ph j ∨ t.master = .begWrite ph j) :
    j = 0 ∨ t.stopSignal = s.stopSignal ∧ s.master = .collect ph j := by
  cases h with
  | endWrite | begWrite | broadcastBegWrite | endWriteRet => simp [Event.onConn] at he
  | @startPhase ph' i hpc =>
      have hsend : ∀ ph', (s.sendRequest cfg ph').master = .collect ph j ∨
          (s.sendRequest cfg ph').master = .begWrite ph j → j = 0 := by
        intro ph' h
        unfold Server.sendRequest at h
        split at h <;> simp [Server.setMaster] at h <;> exact h.2.symm
      refine .inl ?_
      cases ph' with
      | phase1 => exact hsend _ ht
      | phase2 st =>
          cases st with
          | requestSuccess | requestFail => exact hsend _ ht
          | clusterFail | commitSuccess | commitFail =>
              simp [Server.startPhase, Server.setMaster, Server.term] at ht
  | @phaseReturn ph' st hpc =>
      cases ph' with
      | phase1 => simp [Server.afterPhase, Server.setMaster] at ht
      | phase2 => cases st <;> simp [Server.afterPhase, Server.term] at ht
  | collectNext hpc hi hstop =>
      simp only [Server.setMaster, reduceCtorEq, false_or, MasterPc.begWrite.injEq] at ht
      obtain ⟨rfl, rfl⟩ := ht
      exact .inr ⟨rfl, hpc⟩
  | finish | badSlot | badStatus => simp [Server.term] at ht
  | initSlot | collected | pause | clearNext | unpause => simp at ht
  | startRound | sendPass | sent | skipConn | callConn | passDone | sumNext | sumEnough | sumShort
  | scanNext | scanned | readSlot | cleared | expired | notExpired =>
      simp [Server.setMaster] at ht

private theorem Outside.step (h : Outside s len q v) (hpos : 0 < n) (hm : MasterStep cfg s e t)
    (hn : n = cfg.clientCount) (hs : s.step cfg e = some t) (he : e.onConn = none) :
    ∃ v', (serverMachine cfg).Steps (fun _ e => e.Still cfg) (s.view v) (t.view v') ∧
      Passes n t len q v' := by
  have hnext : t.master.sending = none →
      Outside t len q { v with master := t.master } := by
    intro hout
    refine ⟨hout, rfl, ?_⟩
    intro ph j ht hstop i hi
    rcases hm.collecting he ht with rfl | ⟨hsame, hpc⟩
    · omega
    · exact h.collected ph j (.inl hpc) (hsame ▸ hstop) i hi
  cases e with
  | master =>
      rcases Server.view_masterStep h.master h.sending hs with
        ⟨hout, hview⟩ | ⟨ph, i, hpc, hi, rfl, hview⟩
      · exact ⟨_, one_of_master hview, .inl (hnext hout)⟩
      · refine ⟨_, one_of_master hview, .inr ⟨ph, .inl ⟨0, ?_⟩⟩⟩
        have hfresh : s.stopSignal = false → ∀ i < n, Fresh len q i := fun hstop j hj =>
          h.collected ph i (.inl hpc) hstop j (by
            have := hi.resolve_right (by simp [hstop])
            omega)
        exact {
          position := .inr ⟨rfl, .inl rfl⟩
          master := rfl
          lt := hpos
          commited := ⟨rfl, Nat.le_refl _⟩
          rtos := fun _ _ => ⟨rfl, rfl⟩
          before := fun _ hlt => absurd hlt (Nat.not_lt_zero _)
          later := fun hstop j hj _ => hfresh hstop j hj
          called := by simp
          now := fun hnow => hfresh (hnow.resolve_left (by simp)).1 0 hpos }
  | clock expired =>
      have hview : (s.view v).step cfg (.clock expired) =
          some (t.view { v with master := t.master }) := by
        cases hm with
        | expired hpc | notExpired hpc =>
            simp [Server.step, show (s.view v).master = v.master from rfl, h.master, hpc]
            rfl
      refine ⟨_, .one (e := .clock expired) (fun _ => rfl) hview, .inl (hnext ?_)⟩
      cases hm <;> rfl
  | begWrite | endWrite | endWriteRet | endRead => simp [Event.onConn] at he
  | worker | begRead | timeEnd | delete => cases hm

private theorem FirstPass.step (h : FirstPass n s len q v ph k) (hm : MasterStep cfg s e t)
    (hn : n = cfg.clientCount) (he : e.onConn = none) :
    ∃ v', (serverMachine cfg).Steps (fun _ e => e.Still cfg) (s.view v) (t.view v') ∧
      Passes n t len q v' := by
  have hview : (s.view v).master = s.master := h.master
  have hstop : (s.view v).stopSignal = s.stopSignal := rfl
  have hcommited : (s.view v).commited = k := h.commited.1
  have hrto : (s.view v).connRtofiredCount k = 0 := (h.rtos k (Nat.le_refl _)).1
  have hlt := h.lt
  have hle := h.commited.2
  have hpos := h.position
  simp only [MasterPc.AtConn] at hpos
  cases hm with
  | endWrite | begWrite | broadcastBegWrite | endWriteRet => simp [Event.onConn] at he
  | @sendPass ph' hpc hc hs =>
      simp only [hpc, reduceCtorEq, false_or, MasterPc.sendAll.injEq, hs, Bool.false_eq_true,
        or_false] at hpos
      obtain ⟨rfl, rfl⟩ := hpos
      refine ⟨{ v with master := .sendConn ph' 0 }, one_of_master ?_, .inr ⟨ph', .inl ⟨0, ?_⟩⟩⟩
      · simp only [Server.masterStep, hview, hpc, hcommited, hstop]
        rw [if_pos ⟨by omega, hs⟩]
        rfl
      · exact { h with
          position := .inl (.inl rfl)
          master := rfl
          called := by simp [Server.setMaster]
          now := fun _ => h.now (.inr ⟨hs, by simp [hpc]⟩) }
  | @sent ph' hpc hc =>
      have hstopped := hc.resolve_left (by omega)
      refine ⟨{ v with master := .poll ph' }, one_of_master ?_, .inl ⟨rfl, rfl, ?_⟩⟩
      · simp only [Server.masterStep, hview, hpc, hcommited, hstop]
        rw [if_neg (by simp [hstopped])]
        rfl
      · simp [Server.setMaster]
  | @skipConn ph' i hpc hi hs hneg =>
      simp only [hpc, MasterPc.sendConn.injEq, reduceCtorEq, or_false, false_and] at hpos
      obtain ⟨rfl, rfl⟩ := hpos
      have := (h.rtos i (Nat.le_refl _)).2
      omega
  | @callConn ph' i hpc hi hs hge =>
      simp only [hpc, MasterPc.sendConn.injEq, reduceCtorEq, or_false, false_and] at hpos
      obtain ⟨rfl, rfl⟩ := hpos
      refine ⟨{ v with master := .endWrite ph' i }, one_of_master ?_, .inr ⟨ph', .inl ⟨i, ?_⟩⟩⟩
      · simp only [Server.masterStep, hview, hpc, hstop, hrto]
        rw [if_pos ⟨hi, hs⟩, if_neg (by simp)]
        rfl
      · exact { h with
          position := .inl (.inr (.inl rfl))
          master := rfl
          called := by simp [Server.setMaster]
          now := fun _ => h.now (.inr ⟨hs, by simp [hpc]⟩) }
  | @passDone ph' i hpc hi =>
      simp only [hpc, MasterPc.sendConn.injEq, reduceCtorEq, or_false, false_and] at hpos
      obtain ⟨rfl, rfl⟩ := hpos
      have hstopped := hi.resolve_left (by omega)
      refine ⟨{ v with master := .sendAll ph' }, one_of_master ?_, .inr ⟨ph', .inl ⟨i, ?_⟩⟩⟩
      · simp only [Server.masterStep, hview, hpc, hstop]
        rw [if_neg (by simp [hstopped])]
        rfl
      · exact { h with
          position := .inr ⟨rfl, .inr hstopped⟩
          master := rfl
          later := fun hs => by simp [Server.setMaster, hstopped] at hs
          called := by simp [Server.setMaster]
          now := fun hs => by simp [Server.setMaster, hstopped] at hs }
  | finish hpc | startRound hpc | initSlot hpc | startPhase hpc | collectNext hpc | collected hpc
  | sumNext hpc | sumEnough hpc | sumShort hpc | pause hpc | scanNext hpc | scanned hpc
  | readSlot hpc | badSlot hpc | clearNext hpc | cleared hpc | unpause hpc | badStatus hpc
  | phaseReturn hpc | expired hpc | notExpired hpc => simp [hpc] at hpos

private theorem LaterPass.step (h : LaterPass n s len q v ph) (hm : MasterStep cfg s e t)
    (hqj : cfg.transType ≠ .udpQj) (hn : n = cfg.clientCount) (he : e.onConn = none) :
    ∃ v', (serverMachine cfg).Steps (fun _ e => e.Still cfg) (s.view v) (t.view v') ∧
      Passes n t len q v' := by
  have hstay : t = s.setMaster t.master → t.master.sending = some ph →
      ∃ v', (serverMachine cfg).Steps (fun _ e => e.Still cfg) (s.view v) (t.view v') ∧
        Passes n t len q v' := by
    intro ht hsending
    refine ⟨v, ?_, .inr ⟨ph, .inr ⟨hsending, h.master, h.commited, h.passed⟩⟩⟩
    rw [ht, Server.view_setMaster]
    exact .refl
  have hsend := h.sending
  cases hm with
  | endWrite | begWrite | broadcastBegWrite | endWriteRet => simp [Event.onConn] at he
  | sendPass hpc | skipConn hpc | callConn hpc | passDone hpc =>
      rw [hpc] at hsend
      exact hstay rfl hsend
  | @sent ph' hpc hc =>
      rw [hpc] at hsend
      cases hsend
      -- the last call of the one pass returns only now
      have hcommited := h.commited
      let last : SendView :=
        ⟨.sendConn ph (n - 1 + 1), n, update v.connRtofiredCount (n - 1) (-1), v.totalRtos⟩
      have hret : (s.view v).step cfg (.endWriteRet (n - 1) .enone) = some (s.view last) := by
        have hview : (s.view v).master = .inEndWrite ph (n - 1) := h.master
        simp only [Server.step, hview, if_true, Server.endWriteRet, if_neg hqj]
        simp only [Server.view, hcommited]
        rfl
      have hdone : (s.view last).masterStep cfg =
          some (s.view { last with master := .sendAll ph }) := by
        have hview : (s.view last).master = .sendConn ph (n - 1 + 1) := rfl
        simp only [Server.masterStep, hview]
        rw [if_neg (by omega)]
        rfl
      have hsent : (s.view { last with master := .sendAll ph }).masterStep cfg =
          some (s.view { last with master := .poll ph }) := by
        have hview : (s.view { last with master := .sendAll ph }).master = .sendAll ph := rfl
        have hall : (s.view { last with master := .sendAll ph }).commited = n := rfl
        simp only [Server.masterStep, hview, hall]
        rw [if_neg (by omega)]
        rfl
      refine ⟨{ last with master := .poll ph }, ?_, .inl ⟨rfl, rfl, by simp [Server.setMaster]⟩⟩
      rw [Server.view_setMaster]
      exact .head (e := .endWriteRet (n - 1) .enone) (fun _ => rfl) hret
        (.head (e := .master) (fun _ => rfl) hdone (one_of_master hsent))
  | finish hpc | startRound hpc | initSlot hpc | startPhase hpc | collectNext hpc | collected hpc
  | sumNext hpc | sumEnough hpc | sumShort hpc | pause hpc | scanNext hpc | scanned hpc
  | readSlot hpc | badSlot hpc | clearNext hpc | cleared hpc | unpause hpc | badStatus hpc
  | phaseReturn hpc | expired hpc | notExpired hpc => simp [hpc, MasterPc.sending] at hsend

theorem Passes.step (h : Passes n s len q v) (hm : MasterStep cfg s e t)
    (hs : s.step cfg e = some t) (hqj : cfg.transType ≠ .udpQj) (hn : n = cfg.clientCount)
    (hpos : 0 < n) (he : e.onConn = none) :
    ∃ v', (serverMachine cfg).Steps (fun _ e => e.Still cfg) (s.view v) (t.view v') ∧
      Passes n t len q v' := by
  rcases h with h | ⟨ph, ⟨k, h⟩ | h⟩
  · exact h.step hpos hm hn hs he
  · exact h.step hm hn he
  · exact h.step hm hqj hn he

theorem Passes.congr (h : Passes n s len q v) (hmaster : t.master = s.master)
    (hcommited : t.commited = s.commited) (hrto : t.connRtofiredCount = s.connRtofiredCount)
    (hstop : s.stopSignal = true → t.stopSignal = true) : Passes n t len q v := by
  have hstop' : t.stopSignal = false → s.stopSignal = false := by
    intro ht
    cases hs : s.stopSignal with
    | true => simp [hstop hs] at ht
    | false => rfl
  rcases h with h | ⟨ph, ⟨k, h⟩ | h⟩
  · refine .inl ⟨hmaster ▸ h.sending, hmaster ▸ h.master, ?_⟩
    intro ph j ht hs
    rw [hmaster] at ht
    exact h.collected ph j ht (hstop' hs)
  · refine .inr ⟨ph, .inl ⟨k, ?_, hmaster ▸ h.master, h.lt, ?_, ?_, h.before, ?_, ?_, ?_⟩⟩
    · rw [hmaster]
      exact h.position.imp_right fun ⟨hpc, hk⟩ => ⟨hpc, hk.imp_right hstop⟩
    · rw [hcommited]
      exact h.commited
    · rw [hrto]
      exact h.rtos
    · exact fun hs => h.later (hstop' hs)
    · rw [hmaster]
      exact h.called
    · rw [hmaster]
      exact fun hnow => h.now (hnow.imp_right fun ⟨hs, hpc⟩ => ⟨hstop' hs, hpc⟩)
  · exact .inr ⟨ph, .inr ⟨hmaster ▸ h.sending, h.master, h.commited, h.passed⟩⟩

theorem Passes.begWrite {j : Nat} {p : Packet} (h : Passes n s len q v)
    (hpc : s.master = .begWrite ph j) (hqj : cfg.transType ≠ .udpQj)
    (hs : s.step cfg (.begWrite j p) = some t) (hq : q j = len j) :
    ∃ v', (s.view v).step cfg (.begWrite j p) = some (t.view v') ∧
      Passes n t (update len j (len j + 1)) q v' := by
  rcases h with h | ⟨ph, ⟨k, h⟩ | h⟩
  · have hview : (s.view v).master = s.master := h.master
    have hstage := s.view_stage v
    simp only [Server.step, hpc, true_and, if_neg hqj, Option.ite_none_right_eq_some,
      Option.some.injEq] at hs
    obtain ⟨hp, rfl⟩ := hs
    refine ⟨{ v with master := .collect ph (j + 1) }, ?_, .inl ⟨rfl, rfl, ?_⟩⟩
    · simp only [Server.step, hview, hpc, true_and, if_neg hqj, hstage]
      rw [if_pos hp]
      rfl
    · intro ph' k hk hstop i hi
      simp only [Server.setMaster, MasterPc.collect.injEq, reduceCtorEq, or_false] at hk
      obtain ⟨rfl, rfl⟩ := hk
      by_cases hij : i = j
      · subst hij
        simp [Fresh, hq]
      · have := h.collected ph j (.inr hpc) hstop i (by omega)
        simpa [Fresh, hij] using this
  · have hposition := h.position
    simp [MasterPc.AtConn, hpc] at hposition
  · have hsend := h.sending
    simp [hpc, MasterPc.sending] at hsend

-- `end_write` is called on connection `j`: the message is passed now or has been.
theorem Passes.endWrite {j : Nat} (h : Passes n s len q v) (hpc : s.master = .endWrite ph j)
    (hj : j < n) :
    (Fresh len q j ∧ ∃ v', (s.view v).step cfg (.endWrite j) =
        some ((s.setMaster (.inEndWrite ph j)).view v') ∧
      Passes n (s.setMaster (.inEndWrite ph j)) len (update q j (q j + 1)) v') ∨
    q j = len j ∧ Passes n (s.setMaster (.inEndWrite ph j)) len q v := by
  rcases h with h | ⟨ph', ⟨k, h⟩ | h⟩
  · have hsend := h.sending
    simp [hpc, MasterPc.sending] at hsend
  · have hposition := h.position
    simp only [MasterPc.AtConn, hpc, reduceCtorEq, MasterPc.endWrite.injEq, false_or, or_false,
      false_and] at hposition
    obtain ⟨rfl, rfl⟩ := hposition
    have hfresh := h.now (.inl hpc)
    have hview : (s.view v).master = .endWrite ph j := h.master.trans hpc
    refine .inl ⟨hfresh, { v with master := .inEndWrite ph j }, ?_, .inr ⟨ph, .inl ⟨j, ?_⟩⟩⟩
    · simp only [Server.step, hview, if_true]
      rfl
    · have hne : ∀ i, i ≠ j → update q j (q j + 1) i = q i := fun i hi => by simp [hi]
      exact { h with
        position := .inl (.inr (.inr rfl))
        master := rfl
        before := fun i hi => (hne i (by omega)).trans (h.before i hi)
        later := fun hs i hi hlt => by
          have := h.later hs i hi hlt
          rwa [Fresh, hne i (by omega)]
        called := fun _ => by
          rw [Function.update_self]
          exact hfresh.symm
        now := by simp [Server.setMaster] }
  · refine .inr ⟨h.passed j hj, .inr ⟨ph', .inr ⟨?_, h.master, h.commited, h.passed⟩⟩⟩
    have hsend := h.sending
    rwa [hpc] at hsend

-- What the return of `end_write` makes of the master: it terminates or goes on.
private theorem Server.endWriteRet_cases (s : Server) (hqj : cfg.transType ≠ .udpQj)
    (ph : Phase) (j : Nat) (r : Ret) : s.endWriteRet cfg ph j r = s.term ∨
      (s.endWriteRet cfg ph j r).master = .sendConn ph (j + 1) ∧
      (s.endWriteRet cfg ph j r).stopSignal = s.stopSignal ∧
      (s.endWriteRet cfg ph j r).commited ≤ s.commited + 1 ∧
      (∀ i, i ≠ j → (s.endWriteRet cfg ph j r).connRtofiredCount i = s.connRtofiredCount i) ∧
      ∀ u, (s.endWriteRet cfg ph j r).view u = s.view u := by
  simp only [Server.endWriteRet, if_neg hqj]
  cases r with
  | efin => exact .inl rfl
  | eagain => exact .inr ⟨rfl, rfl, Nat.le_succ _, fun _ _ => rfl, fun _ => rfl⟩
  | enone =>
      refine .inr ⟨rfl, rfl, Nat.le_refl _, fun i hi => ?_, fun _ => rfl⟩
      simp [hi]
  | rtofired =>
      dsimp only
      split
      · exact .inl rfl
      · refine .inr ⟨rfl, rfl, Nat.le_succ _, fun i hi => ?_, fun _ => rfl⟩
        simp [hi]

theorem Passes.endWriteRet {j : Nat} (h : Passes n s len q v)
    (hpc : s.master = .inEndWrite ph j) (hqj : cfg.transType ≠ .udpQj) (r : Ret) :
    ∃ v', (serverMachine cfg).Steps (fun _ e => e.Still cfg) (s.view v)
        ((s.endWriteRet cfg ph j r).view v') ∧
      Passes n (s.endWriteRet cfg ph j r) len q v' := by
  -- the master terminates
  have hterm : ∀ i, v.master = .inEndWrite ph i →
      ∃ v', (serverMachine cfg).Steps (fun _ e => e.Still cfg) (s.view v) (s.term.view v') ∧
        Passes n s.term len q v' := by
    intro i hv
    have hview : (s.view v).master = .inEndWrite ph i := hv
    refine ⟨{ v with master := .terminated }, .one (e := .endWriteRet i .efin) (fun _ => rfl) ?_,
      .inl ⟨rfl, rfl, by simp [Server.term]⟩⟩
    simp only [serverMachine, Server.step, hview, if_true, Server.endWriteRet, if_neg hqj]
    rfl
  rcases h with h | ⟨ph', ⟨k, h⟩ | h⟩
  · have hsend := h.sending
    simp [hpc, MasterPc.sending] at hsend
  · have hposition := h.position
    simp only [MasterPc.AtConn, hpc, reduceCtorEq, MasterPc.inEndWrite.injEq, false_or,
      false_and, or_false] at hposition
    obtain ⟨rfl, rfl⟩ := hposition
    rcases s.endWriteRet_cases hqj ph j r with hret | ⟨hmaster, hstop, hcommited, hrto, hview⟩
    · rw [hret]
      exact hterm j (h.master.trans hpc)
    · have hlt := h.lt
      have hle := h.commited.2
      have hcalled := h.called hpc
      have hpassed : ∀ i ≤ j, q i = len i := by
        intro i hi
        rcases Nat.lt_or_eq_of_le hi with hi | rfl
        · exact h.before i hi
        · exact hcalled
      by_cases hlast : j + 1 < n
      · -- the first pass goes on
        let next : SendView :=
          ⟨.sendConn ph (j + 1), j + 1, update v.connRtofiredCount j (-1), v.totalRtos⟩
        have hmv : (s.view v).master = .inEndWrite ph j := h.master.trans hpc
        have hcv : (s.view v).commited = j := h.commited.1
        refine ⟨next, .one (e := .endWriteRet j .enone) (fun _ => rfl) ?_,
          .inr ⟨ph, .inl ⟨j + 1, ?_⟩⟩⟩
        · rw [hview]
          simp only [serverMachine, Server.step, hmv, if_true, Server.endWriteRet, if_neg hqj, hcv]
          rfl
        · exact {
            position := .inl (.inl hmaster)
            master := hmaster.symm
            lt := hlast
            commited := ⟨rfl, by omega⟩
            rtos := fun i hi => by
              rw [hrto i (by omega)]
              simpa [next, show i ≠ j by omega] using h.rtos i (by omega)
            before := fun i hi => hpassed i (by omega)
            later := fun hs i hi hlt => h.later (hstop ▸ hs) i hi (by omega)
            called := by simp [hmaster]
            now := fun hs => by
              rw [hmaster, hstop] at hs
              exact h.later (by simpa using hs) (j + 1) hlast (Nat.lt_succ_self j) }
      · -- all messages are passed
        obtain rfl : n = j + 1 := by omega
        refine ⟨v, ?_, .inr ⟨ph, .inr ⟨by rw [hmaster]; rfl, h.master.trans hpc, ?_, ?_⟩⟩⟩
        · rw [hview]
          exact .refl
        · exact congrArg (· + 1) h.commited.1
        · exact fun i hi => hpassed i (by omega)
  · have hsend := h.sending
    rw [hpc] at hsend
    cases hsend
    rcases s.endWriteRet_cases hqj ph j r with hret | ⟨hmaster, -, -, -, hview⟩
    · rw [hret]
      exact hterm _ h.master
    · refine ⟨v, ?_, .inr ⟨ph, .inr ⟨by rw [hmaster]; rfl, h.master, h.commited, h.passed⟩⟩⟩
      rw [hview]
      exact .refl

end Q2pc
