import Q2pc.System.State
import Q2pc.Server.Cases

namespace Q2pc

open Function (update)

-- The program without the retransmission counters of the messages: RUDP alone counts in
-- them, and no step of the client or of the server reads them but to copy them.
def Msg.plain (m : Msg) : Msg := { m with cRto := 0, sRto := 0 }

def Packet.plain (p : Packet) : Packet := { p with msg := p.msg.plain }

theorem Packet.SameButRto.plain_eq {p p' : Packet} (h : p.SameButRto p') : p.plain = p'.plain := by
  obtain ⟨⟨htype, hsrc, hts⟩, hstage⟩ := h
  simp [Packet.plain, Msg.plain, htype, hsrc, hts, hstage]

def ClientPc.plain : ClientPc → ClientPc
  | .respond old => .respond old.plain
  | pc => pc

def Client.plain (c : Client) : Client := { c with pc := c.pc.plain }

theorem Client.plain_receive {c c' : Client} {p : Packet} (h : c.receive p = some c') :
    c.plain.receive p.plain = some c'.plain := by
  unfold Client.receive at h
  split at h <;> try contradiction
  rename_i hpc
  cases hph : c.phase <;> simp only [hph, Option.some.injEq] at h <;> subst h <;>
    simp [Client.receive, Client.plain, ClientPc.plain, hpc, hph, Packet.plain, Msg.plain]

theorem Client.plain_respond {c c' : Client} {response : Option Packet}
    (h : c.respond = some (c', response)) :
    c.plain.respond = some (c'.plain, response.map Packet.plain) := by
  unfold Client.respond at h
  split at h <;> try contradiction
  rename_i old hpc
  have hanswer : c.plain.answer old.plain = c.answer old := rfl
  have hpc' : c.plain.pc = .respond old.plain := by simp [Client.plain, ClientPc.plain, hpc]
  unfold Client.respond
  simp only [hpc', hanswer]
  cases ht : c.answer old with
  | none =>
      simp only [ht, Option.some.injEq, Prod.mk.injEq] at h
      obtain ⟨rfl, rfl⟩ := h
      rfl
  | some t =>
      simp only [ht] at h
      have hphase : c.plain.phase = c.phase := rfl
      simp only [hphase]
      cases hph : c.phase <;> simp only [hph, Option.some.injEq, Prod.mk.injEq] at h <;>
        obtain ⟨rfl, rfl⟩ := h <;> rfl

def WorkerPc.plain : WorkerPc → WorkerPc
  | .score i p => .score i p.plain
  | .endRead i p => .endRead i p.plain
  | .loadCount i p => .loadCount i p.plain
  | .storeCount i p count => .storeCount i p.plain count
  | .stats i p => .stats i p.plain
  | pc => pc

def Stat.plain (x : Stat) : Stat := { x with cRtos := 0, sRtos := 0 }

def Worker.plain (k : Worker) : Worker := ⟨k.pc.plain, k.stats.map Stat.plain⟩

def ReadResult.plain : ReadResult → ReadResult
  | .data p => .data p.plain
  | r => r

def Event.plain : Event → Event
  | .begRead w i r => .begRead w i r.plain
  | e => e

-- The variables in which `send_request` may differ between two servers.
structure SendView where
  master : MasterPc
  commited : Nat
  connRtofiredCount : Nat → Int
  totalRtos : Nat

-- A server that has got as far as `s`, with these variables of `send_request`.
def Server.view (s : Server) (v : SendView) : Server :=
  { s with
    workers := fun w => (s.workers w).plain
    master := v.master
    commited := v.commited
    connRtofiredCount := v.connRtofiredCount
    totalRtos := v.totalRtos }

variable {cfg : Config} {s t : Server} {v : SendView} {w i : Nat}

@[simp] theorem Server.view_workers : (s.view v).workers w = (s.workers w).plain := rfl

@[simp] theorem Server.view_setWorker (s : Server) (pc : WorkerPc) (v : SendView) :
    (s.setWorker w pc).view v = (s.view v).setWorker w pc.plain := by
  simp only [Server.view, Server.setWorker, Server.mk.injEq, true_and]
  funext u
  by_cases hu : u = w
  · subst hu
    simp [Worker.plain]
  · simp [hu]

@[simp] theorem Server.view_setMaster (s : Server) (pc : MasterPc) (v : SendView) :
    (s.setMaster pc).view v = s.view v := rfl

theorem Server.view_stage (s : Server) (v : SendView) (ph : Phase) :
    (s.view v).stage ph = s.stage ph := by
  cases ph <;> rfl

theorem Server.view_record (cfg : Config) (s : Server) (p : Packet) (us : Int) (v : SendView) :
    (s.record cfg w i p us).view v = (s.view v).record cfg w i p.plain us := by
  simp only [Server.view, Server.record, Server.mk.injEq, true_and]
  funext u
  by_cases hu : u = w
  · subst hu
    simp only [Function.update_self, Worker.plain, List.map_append, List.length_append,
      List.length_map, List.length_singleton, Worker.mk.injEq]
    refine ⟨?_, rfl⟩
    split <;> rfl
  · simp [hu]

theorem Server.plain_afterBegRead (r : ReadResult) :
    Server.afterBegRead i r.plain = (Server.afterBegRead i r).map WorkerPc.plain := by
  cases r <;> rfl

-- The workers only copy the counters.
theorem Server.view_workerStep {e : Event} (hw : w < cfg.threadCount)
    (h : WorkerStep cfg s w e t) : (s.view v).step cfg e.plain = some (t.view v) := by
  cases h with
  | leave hpc hstop | stay hpc hstop =>
      simp [Server.step, hw, Server.workerStep, Event.plain, Worker.plain, hpc, WorkerPc.plain,
        show (s.view v).stopSignal = s.stopSignal from rfl, hstop]
  | paused hpc hpause | startPass hpc hpause =>
      simp [Server.step, hw, Server.workerStep, Event.plain, Worker.plain, hpc, WorkerPc.plain,
        show (s.view v).pauseSignal = s.pauseSignal from rfl, hpause]
  | clearCount hpc | loadCount hpc | storeCount hpc | raiseStop hpc =>
      simp [Server.step, hw, Server.workerStep, Event.plain, Worker.plain, hpc, WorkerPc.plain]
      rfl
  | endPass hpc hi | exit hpc hi =>
      simp [Server.step, hw, Server.workerStep, Event.plain, Worker.plain, hpc, WorkerPc.plain,
        Nat.not_lt.mpr hi]
  | outOfRange hpc hrange =>
      simp only [Server.step, hw, if_true, Server.workerStep, Event.plain, Server.view_workers,
        Worker.plain, hpc, WorkerPc.plain, Packet.plain, Msg.plain]
      rw [if_pos hrange, Server.view_setWorker]
      rfl
  | score hpc hlo hhi =>
      simp only [Server.step, hw, if_true, Server.workerStep, Event.plain, Server.view_workers,
        Worker.plain, hpc, WorkerPc.plain, Packet.plain, Msg.plain]
      rw [if_neg (by omega), Server.view_setWorker]
      rfl
  | begRead hpc hi hafter =>
      simp [Server.step, hw, Event.plain, Worker.plain, hpc, WorkerPc.plain, hi,
        Server.plain_afterBegRead, hafter]
  | endRead hpc =>
      simp [Server.step, hw, Event.plain, Worker.plain, hpc, WorkerPc.plain]
  | timeEnd hpc =>
      simp [Server.step, hw, Event.plain, Worker.plain, hpc, WorkerPc.plain, Server.view_record]
  | delete hpc hi =>
      simp [Server.step, hw, Event.plain, Worker.plain, hpc, WorkerPc.plain, hi]
      rfl

-- The loop of `send_request` over the calls of `end_write`.
def MasterPc.sending : MasterPc → Option Phase
  | .sendAll ph | .sendConn ph _ | .endWrite ph _ | .inEndWrite ph _ => some ph
  | _ => none

private theorem startPhase_sending {ph : Phase} : (s.startPhase cfg ph).master.sending = none := by
  have hsend : ∀ ph, (s.sendRequest cfg ph).master.sending = none := by
    intro ph
    unfold Server.sendRequest
    split <;> rfl
  cases ph with
  | phase1 => exact hsend _
  | phase2 st => cases st <;> first | exact hsend _ | rfl

private theorem afterPhase_sending {ph : Phase} {st : CommitStatus} :
    (s.afterPhase ph st).master.sending = none := by
  cases ph with
  | phase1 => rfl
  | phase2 => cases st <;> rfl

private theorem view_startPhase (cfg : Config) (s : Server) (v : SendView) (ph : Phase) :
    (s.view v).startPhase cfg ph =
      (s.startPhase cfg ph).view { v with master := (s.startPhase cfg ph).master } := by
  have hsend : ∀ ph, (s.view v).sendRequest cfg ph =
      (s.sendRequest cfg ph).view { v with master := (s.sendRequest cfg ph).master } := by
    intro ph
    unfold Server.sendRequest
    split <;> rfl
  cases ph with
  | phase1 => exact hsend _
  | phase2 st => cases st <;> first | exact hsend _ | rfl

private theorem view_afterPhase (s : Server) (v : SendView) (ph : Phase) (st : CommitStatus) :
    (s.view v).afterPhase ph st =
      (s.afterPhase ph st).view { v with master := (s.afterPhase ph st).master } := by
  cases ph with
  | phase1 => rfl
  | phase2 => cases st <;> rfl

private theorem loop_over {n : Nat} {stop : Bool} (h : n ≤ i ∨ stop = true) :
    ¬(i < n ∧ stop = false) := by
  rintro ⟨hlt, rfl⟩
  exact absurd (h.resolve_right (by simp)) (Nat.not_le.mpr hlt)

-- Outside that loop the master reads none of the variables of `send_request`.
theorem Server.view_masterStep (hmaster : v.master = s.master) (hout : s.master.sending = none)
    (h : s.masterStep cfg = some t) :
    (t.master.sending = none ∧
      (s.view v).masterStep cfg = some (t.view { v with master := t.master })) ∨
    ∃ ph i, s.master = .collect ph i ∧ (cfg.clientCount ≤ i ∨ s.stopSignal = true) ∧
      t = { s with commited := 0, connRtofiredCount := fun _ => 0, master := .sendAll ph } ∧
      (s.view v).masterStep cfg = some (t.view ⟨.sendAll ph, 0, fun _ => 0, v.totalRtos⟩) := by
  have hview : (s.view v).master = s.master := hmaster
  have hstop : (s.view v).stopSignal = s.stopSignal := rfl
  have hslots : (s.view v).votesScoreboard = s.votesScoreboard := rfl
  have hreq : (s.view v).requests = s.requests := rfl
  cases masterStep_cases h with
  | sendPass hpc | sent hpc | skipConn hpc | callConn hpc | passDone hpc =>
      simp [hpc, MasterPc.sending] at hout
  | @collected ph i hpc hi =>
      refine .inr ⟨ph, i, hpc, hi, rfl, ?_⟩
      simp only [Server.masterStep, hview, hpc, hstop, if_neg (loop_over hi)]
      rfl
  | startRound hpc hs =>
      refine .inl ⟨rfl, ?_⟩
      simp only [Server.masterStep, hpc, hs, Bool.false_eq_true, if_false] at h
      obtain ⟨b, hb, -⟩ := Option.map_eq_some_iff.mp h
      simp only [Server.masterStep, hview, hpc, hstop, hs, hreq, hb, Bool.false_eq_true, if_false]
      rfl
  | finish hpc hs =>
      refine .inl ⟨rfl, ?_⟩
      simp only [Server.masterStep, hview, hpc, hstop, hs, if_true]
      rfl
  | startPhase hpc hi =>
      refine .inl ⟨startPhase_sending, ?_⟩
      simp only [Server.masterStep, hview, hpc, if_neg (Nat.not_lt.mpr hi), view_startPhase]
  | phaseReturn hpc =>
      refine .inl ⟨afterPhase_sending, ?_⟩
      simp only [Server.masterStep, hview, hpc, view_afterPhase]
  | initSlot hpc hi | clearNext hpc hi | sumNext hpc hi =>
      refine .inl ⟨rfl, ?_⟩
      simp only [Server.masterStep, hview, hpc, if_pos hi]
      rfl
  | cleared hpc hi =>
      refine .inl ⟨rfl, ?_⟩
      simp only [Server.masterStep, hview, hpc, if_neg (Nat.not_lt.mpr hi)]
      rfl
  | collectNext hpc hi hs | scanNext hpc hi hs =>
      refine .inl ⟨rfl, ?_⟩
      simp only [Server.masterStep, hview, hpc, hstop, if_pos (And.intro hi hs)]
      rfl
  | scanned hpc hi =>
      refine .inl ⟨rfl, ?_⟩
      simp only [Server.masterStep, hview, hpc, hstop, if_neg (loop_over hi)]
      rfl
  | sumEnough hpc hi hv =>
      refine .inl ⟨rfl, ?_⟩
      simp only [Server.masterStep, hview, hpc, if_neg (Nat.not_lt.mpr hi), if_pos hv]
      rfl
  | sumShort hpc hi hv =>
      refine .inl ⟨rfl, ?_⟩
      simp only [Server.masterStep, hview, hpc, if_neg (Nat.not_lt.mpr hi),
        if_neg (Nat.not_le.mpr hv)]
      rfl
  | pause hpc =>
      refine .inl ⟨rfl, ?_⟩
      simp only [Server.masterStep, hview, hpc]
      rfl
  | readSlot hpc hslot | badSlot hpc hslot =>
      refine .inl ⟨rfl, ?_⟩
      simp only [Server.masterStep, hview, hpc, hslots, hslot]
      rfl
  | unpause hpc hst | badStatus hpc hst =>
      refine .inl ⟨rfl, ?_⟩
      simp only [Server.masterStep, hview, hpc, hst]
      rfl

end Q2pc
