import Q2pc.System.Counters
import Q2pc.System.Polling

namespace Q2pc

open Function (update)

-- The slots that the messages in range are to set, and their types.
def votesOf (count : Nat) (msgs : List (List UInt8 × Msg)) : List (Nat × MsgType) :=
  msgs.filterMap fun m => m.2.vote count

-- The `src_hostid` of the last message that was handed out is out of range.
def Handling.Rejected (count : Nat) (h : Handling) : Prop :=
  match h.handled.getLast? with
  | some m => ¬idInRange count m.2.srcHostid
  | none => False

instance (count : Nat) (h : Handling) : Decidable (h.Rejected count) := by
  unfold Handling.Rejected
  split <;> infer_instance

-- No connection is polled after a message out of range was read from it, and the master
-- clears no counter of which a worker has loaded a value that is then lost.
def PollsReleased (cfg : Config) (s : Polling) : PollingEvent → Prop
  | .begRead _ i _ => ¬(s.history i).Rejected cfg.clientCount
  | .server .master =>
      match s.server.master with
      | .clearCount _ w _ => (s.server.workers w).pc.loaded.getD 0 = 0
      | _ => True
  | _ => True

instance (cfg : Config) (s : Polling) (e : PollingEvent) : Decidable (PollsReleased cfg s e) := by
  unfold PollsReleased
  split
  · infer_instance
  · split <;> infer_instance
  · infer_instance

-- What a worker has left to do with a message of a connection.
inductive HandlingStage
  | away
  | score (msg : Msg)
  | endRead
  | count
  | stats

def WorkerPc.handlingStage (i : Nat) : WorkerPc → HandlingStage
  | .score j p => if j = i then .score p.msg else .away
  | .endRead j _ => if j = i then .endRead else .away
  | .loadCount j _ | .storeCount j _ _ => if j = i then .count else .away
  | .stats j _ => if j = i then .stats else .away
  | _ => .away

-- The slots of `msgs` have been set; `counts` of them are not counted and `records` of them
-- not recorded.
structure Handling.Done (count : Nat) (h : Handling) (msgs : List (List UInt8 × Msg))
    (counts records : Int) : Prop where
  scored : h.scored = votesOf count msgs
  counted : h.counted + counts = (votesOf count msgs).length
  recorded : h.recorded + records = (votesOf count msgs).length

def Handling.At (count : Nat) (h : Handling) (shown : Bool) : HandlingStage → Prop
  | .away => h.Done count h.handled 0 0 ∧ (shown = true → h.Rejected count)
  | .score msg => ∃ earlier bs, h.handled = earlier ++ [(bs, msg)] ∧
      h.Done count earlier 0 0 ∧ shown = true
  | .endRead => h.Done count h.handled 1 1 ∧ shown = true
  | .count => h.Done count h.handled 1 1 ∧ shown = false
  | .stats => h.Done count h.handled 0 1 ∧ shown = false

def WorkerPc.InPlace (cfg : Config) (w : Nat) : WorkerPc → Prop
  | .poll i => cfg.lo w ≤ i
  | .score i _ | .endRead i _ | .loadCount i _ | .storeCount i _ _ | .stats i _ => cfg.Owns w i
  | _ => True

structure PollingOk (msgSize : Nat) (cfg : Config) (s : Polling) : Prop where
  conn : ∀ i, (connReads msgSize true cfg.transType).Reachable Machine.always (s.conns i)
  order : ∀ i, (s.history i).handled.map Prod.fst ++ (s.conns i).unseen msgSize =
    (s.history i).arrived
  loaded : ∀ w < cfg.threadCount, ∀ n, (s.server.workers w).pc.loaded = some n →
    s.server.votesCount w = n
  place : ∀ w < cfg.threadCount, (s.server.workers w).pc.InPlace cfg w
  stage : ∀ w < cfg.threadCount, ∀ i, cfg.Owns w i →
    (s.history i).At cfg.clientCount (s.conns i).shown ((s.server.workers w).pc.handlingStage i)

variable {msgSize : Nat} {cfg : Config} {s t : Polling} {sv : Server} {e : Event} {w i : Nat}

theorem votesOf_append (count : Nat) (msgs : List (List UInt8 × Msg)) (bs : List UInt8)
    (msg : Msg) :
    votesOf count (msgs ++ [(bs, msg)]) = votesOf count msgs ++ (msg.vote count).toList := by
  rw [votesOf, List.filterMap_append]
  cases hv : msg.vote count <;> simp [votesOf, hv]

theorem Msg.vote_of_out {count : Nat} {msg : Msg} (h : ¬idInRange count msg.srcHostid) :
    msg.vote count = none := if_neg h

theorem Msg.vote_of_in {count : Nat} {msg : Msg} (h : idInRange count msg.srcHostid) :
    msg.vote count = some ((msg.srcHostid - 1).toNat, msg.type) := if_pos h

theorem Handling.At.arrive {count : Nat} {h : Handling} {shown : Bool} {stage : HandlingStage}
    (hat : h.At count shown stage) (arrived : List (List UInt8)) :
    { h with arrived := arrived }.At count shown stage := by
  cases stage with
  | away => exact ⟨⟨hat.1.scored, hat.1.counted, hat.1.recorded⟩, hat.2⟩
  | score msg =>
      obtain ⟨earlier, bs, hhandled, hdone, hshown⟩ := hat
      exact ⟨earlier, bs, hhandled, ⟨hdone.scored, hdone.counted, hdone.recorded⟩, hshown⟩
  | endRead | count | stats => exact ⟨⟨hat.1.scored, hat.1.counted, hat.1.recorded⟩, hat.2⟩

-- The message is in range: its slot is set, and it is to be counted and recorded.
theorem Handling.At.score {count : Nat} {h : Handling} {shown : Bool} {msg : Msg}
    (hat : h.At count shown (.score msg)) (hid : idInRange count msg.srcHostid) :
    { h with scored := h.scored ++ (msg.vote count).toList }.At count shown .endRead := by
  obtain ⟨earlier, bs, hhandled, hdone, hshown⟩ := hat
  have hcounted := hdone.counted
  have hrecorded := hdone.recorded
  refine ⟨⟨?_, ?_, ?_⟩, hshown⟩
  · simp only [hhandled, votesOf_append, hdone.scored]
  · simp only [hhandled, votesOf_append, Msg.vote_of_in hid, Option.toList_some,
      List.length_append, List.length_singleton]
    omega
  · simp only [hhandled, votesOf_append, Msg.vote_of_in hid, Option.toList_some,
      List.length_append, List.length_singleton]
    omega

-- The message is out of range: nothing is left to do with it, and it is not released.
theorem Handling.At.reject {count : Nat} {h : Handling} {shown : Bool} {msg : Msg}
    (hat : h.At count shown (.score msg)) (hid : ¬idInRange count msg.srcHostid) :
    { h with scored := h.scored ++ (msg.vote count).toList }.At count shown .away := by
  obtain ⟨earlier, bs, hhandled, hdone, hshown⟩ := hat
  have hsame : votesOf count h.handled = votesOf count earlier := by
    rw [hhandled, votesOf_append, Msg.vote_of_out hid, Option.toList_none, List.append_nil]
  refine ⟨⟨?_, ?_, ?_⟩, fun _ => ?_⟩
  · rw [hsame, Msg.vote_of_out hid, Option.toList_none, List.append_nil]
    exact hdone.scored
  · rw [hsame]
    exact hdone.counted
  · rw [hsame]
    exact hdone.recorded
  · simpa [Handling.Rejected, hhandled] using hid

theorem Handling.At.count {count : Nat} {h : Handling} {shown : Bool} {n : Int}
    (hat : h.At count shown .count) (hn : n = 1) :
    { h with counted := h.counted + n }.At count shown .stats := by
  have hcounted := hat.1.counted
  exact ⟨⟨hat.1.scored, by simp only [hn, add_zero, hcounted], hat.1.recorded⟩, hat.2⟩

theorem Handling.At.record {count : Nat} {h : Handling} {shown : Bool} {n : Int}
    (hat : h.At count shown .stats) (hn : n = 1) :
    { h with recorded := h.recorded + n }.At count shown .away := by
  have hrecorded := hat.1.recorded
  refine ⟨⟨hat.1.scored, hat.1.counted, by simp only [hn, add_zero, hrecorded]⟩, fun hshown => ?_⟩
  rw [hat.2] at hshown
  simp at hshown

namespace PollingOk

theorem inv (hpos : 0 < msgSize) (h : PollingOk msgSize cfg s) (i : Nat) :
    (s.conns i).Inv msgSize := by
  obtain ⟨es, hrun⟩ := h.conn i
  exact ConnReads.inv_of_run hpos hrun

theorem showsAll (hpos : 0 < msgSize) (h : PollingOk msgSize cfg s) (i : Nat) :
    (s.conns i).ShowsAll := by
  obtain ⟨es, hrun⟩ := h.conn i
  exact ConnReads.showsAll_of_run hpos hrun

private theorem handle {pc pc' : WorkerPc} {c : ConnReads} {H : Handling}
    (h : PollingOk msgSize cfg s) (hw : w < cfg.threadCount)
    (hs : WorkerStep cfg s.server w e sv) (hpc : (s.server.workers w).pc = pc)
    (hpc' : (sv.workers w).pc = pc') (hown : cfg.Owns w i)
    (hconn : (connReads msgSize true cfg.transType).Reachable Machine.always c)
    (horder : H.handled.map Prod.fst ++ c.unseen msgSize = H.arrived)
    (hat : H.At cfg.clientCount c.shown (pc'.handlingStage i))
    (hother : ∀ j, j ≠ i → pc'.handlingStage j = pc.handlingStage j)
    (hloaded : ∀ n, pc'.loaded = some n → sv.votesCount w = n)
    (hplace : pc'.InPlace cfg w) :
    PollingOk msgSize cfg ⟨sv, update s.conns i c, update s.history i H⟩ where
  conn := by
    intro j
    by_cases hj : j = i
    · simpa [hj] using hconn
    · simpa [hj] using h.conn j
  order := by
    intro j
    by_cases hj : j = i
    · simpa [hj] using horder
    · simpa [hj] using h.order j
  loaded := by
    intro v hv n hn
    by_cases hvw : v = w
    · rw [hvw, hpc'] at hn
      rw [hvw]
      exact hloaded n hn
    · rw [hs.workers_ne hvw] at hn
      exact (hs.votesCount_ne hvw).trans (h.loaded v hv n hn)
  place := by
    intro v hv
    by_cases hvw : v = w
    · rw [hvw, hpc']
      exact hplace
    · rw [hs.workers_ne hvw]
      exact h.place v hv
  stage := by
    intro v hv j hj
    by_cases hji : j = i
    · subst hji
      obtain rfl : v = w := cfg.disjoint v hv w hw j hj.1 hj.2 hown.1 hown.2
      simpa [hpc'] using hat
    · have hsame := h.stage v hv j hj
      simp only [Function.update_of_ne hji]
      by_cases hvw : v = w
      · rw [hvw, hpc', hother j hji]
        rwa [hvw, hpc] at hsame
      · rwa [hs.workers_ne hvw]

private theorem note {pc pc' : WorkerPc} {H : Handling} (h : PollingOk msgSize cfg s)
    (hw : w < cfg.threadCount) (hs : WorkerStep cfg s.server w e sv)
    (hpc : (s.server.workers w).pc = pc) (hpc' : (sv.workers w).pc = pc')
    (hown : cfg.Owns w i) (harrived : H.arrived = (s.history i).arrived)
    (hhandled : H.handled = (s.history i).handled)
    (hat : H.At cfg.clientCount (s.conns i).shown (pc'.handlingStage i))
    (hother : ∀ j, j ≠ i → pc'.handlingStage j = pc.handlingStage j)
    (hloaded : ∀ n, pc'.loaded = some n → sv.votesCount w = n)
    (hplace : pc'.InPlace cfg w) :
    PollingOk msgSize cfg { s with server := sv, history := update s.history i H } := by
  have horder : H.handled.map Prod.fst ++ (s.conns i).unseen msgSize = H.arrived := by
    rw [hhandled, harrived]
    exact h.order i
  have hok := h.handle hw hs hpc hpc' hown (h.conn i) horder hat hother hloaded hplace
  rwa [Function.update_eq_self] at hok

private theorem move {pc pc' : WorkerPc} (h : PollingOk msgSize cfg s)
    (hs : WorkerStep cfg s.server w e sv)
    (hpc : (s.server.workers w).pc = pc) (hpc' : (sv.workers w).pc = pc')
    (hstage : ∀ i, pc'.handlingStage i = pc.handlingStage i) (hloaded : pc'.loaded = none)
    (hplace : pc'.InPlace cfg w) : PollingOk msgSize cfg { s with server := sv } where
  conn := h.conn
  order := h.order
  loaded := by
    intro v hv n hn
    by_cases hvw : v = w
    · rw [hvw, hpc', hloaded] at hn
      simp at hn
    · rw [hs.workers_ne hvw] at hn
      exact (hs.votesCount_ne hvw).trans (h.loaded v hv n hn)
  place := by
    intro v hv
    by_cases hvw : v = w
    · rw [hvw, hpc']
      exact hplace
    · rw [hs.workers_ne hvw]
      exact h.place v hv
  stage := by
    intro v hv i hown
    have hat := h.stage v hv i hown
    by_cases hvw : v = w
    · rw [hvw, hpc', hstage]
      rwa [hvw, hpc] at hat
    · rwa [hs.workers_ne hvw]

private theorem inPlace {pc : WorkerPc} (h : PollingOk msgSize cfg s) (hw : w < cfg.threadCount)
    (hpc : (s.server.workers w).pc = pc) : pc.InPlace cfg w :=
  hpc ▸ h.place w hw

private theorem handling {pc : WorkerPc} (h : PollingOk msgSize cfg s)
    (hw : w < cfg.threadCount) (hpc : (s.server.workers w).pc = pc) (hown : cfg.Owns w i) :
    (s.history i).At cfg.clientCount (s.conns i).shown (pc.handlingStage i) :=
  hpc ▸ h.stage w hw i hown

private theorem setWorker_pc (sv : Server) (w : Nat) (pc : WorkerPc) :
    ((sv.setWorker w pc).workers w).pc = pc := by
  simp [Server.setWorker]

private theorem outOfRange {p : Packet} (h : PollingOk msgSize cfg s) (hw : w < cfg.threadCount)
    (hpc : (s.server.workers w).pc = .score i p)
    (hs : WorkerStep cfg s.server w e (s.server.setWorker w (.poll (i + 1))))
    (hid : ¬idInRange cfg.clientCount p.msg.srcHostid) :
    PollingOk msgSize cfg { s with
      server := s.server.setWorker w (.poll (i + 1))
      history := update s.history i { s.history i with
        scored := (s.history i).scored ++ (p.msg.vote cfg.clientCount).toList } } := by
  have hown : cfg.Owns w i := h.inPlace hw hpc
  have hat := h.handling hw hpc hown
  rw [WorkerPc.handlingStage, if_pos rfl] at hat
  exact h.note hw hs hpc (setWorker_pc _ _ _) hown rfl rfl (hat.reject hid)
    (fun j hj => (if_neg (Ne.symm hj)).symm) (by simp [WorkerPc.loaded])
    (Nat.le_succ_of_le hown.1)

private theorem score {p : Packet} (h : PollingOk msgSize cfg s) (hw : w < cfg.threadCount)
    (hpc : (s.server.workers w).pc = .score i p) (hs : WorkerStep cfg s.server w e sv)
    (hpc' : (sv.workers w).pc = .endRead i p)
    (hid : idInRange cfg.clientCount p.msg.srcHostid) :
    PollingOk msgSize cfg { s with
      server := sv
      history := update s.history i { s.history i with
        scored := (s.history i).scored ++ (p.msg.vote cfg.clientCount).toList } } := by
  have hown : cfg.Owns w i := h.inPlace hw hpc
  have hat := h.handling hw hpc hown
  rw [WorkerPc.handlingStage, if_pos rfl] at hat
  refine h.note hw hs hpc hpc' hown rfl rfl ?_
    (fun j hj => (if_neg (Ne.symm hj)).trans (if_neg (Ne.symm hj)).symm)
    (by simp [WorkerPc.loaded]) hown
  rw [WorkerPc.handlingStage, if_pos rfl]
  exact hat.score hid

private theorem loadCount {p : Packet} (h : PollingOk msgSize cfg s) (hw : w < cfg.threadCount)
    (hpc : (s.server.workers w).pc = .loadCount i p) :
    PollingOk msgSize cfg { s with
      server := s.server.setWorker w (.storeCount i p (s.server.votesCount w)) } := by
  have hown : cfg.Owns w i := h.inPlace hw hpc
  have hat := h.handling hw hpc hown
  have hok := h.note hw (.loadCount hpc) hpc (setWorker_pc _ _ _) hown rfl rfl hat
    (fun _ _ => rfl) (by simp [WorkerPc.loaded, Server.setWorker]) hown
  rwa [Function.update_eq_self] at hok

private theorem storeCount {p : Packet} {n : Nat} (h : PollingOk msgSize cfg s)
    (hw : w < cfg.threadCount) (hpc : (s.server.workers w).pc = .storeCount i p n)
    (hs : WorkerStep cfg s.server w e sv) (hpc' : (sv.workers w).pc = .stats i p)
    (hcount : sv.votesCount w = n + 1) :
    PollingOk msgSize cfg { s with
      server := sv
      history := update s.history i { s.history i with
        counted := (s.history i).counted + (sv.votesCount w - s.server.votesCount w) } } := by
  have hown : cfg.Owns w i := h.inPlace hw hpc
  have hat := h.handling hw hpc hown
  rw [WorkerPc.handlingStage, if_pos rfl] at hat
  have hn := h.loaded w hw n (by rw [hpc]; rfl)
  refine h.note hw hs hpc hpc' hown rfl rfl ?_
    (fun j hj => (if_neg (Ne.symm hj)).trans (if_neg (Ne.symm hj)).symm)
    (by simp [WorkerPc.loaded]) hown
  rw [WorkerPc.handlingStage, if_pos rfl]
  exact hat.count (by rw [hcount, hn]; simp)

private theorem record {p : Packet} {us : Int} (h : PollingOk msgSize cfg s)
    (hw : w < cfg.threadCount) (hpc : (s.server.workers w).pc = .stats i p) :
    PollingOk msgSize cfg { s with
      server := s.server.record cfg w i p us
      history := update s.history i { s.history i with
        recorded := (s.history i).recorded +
          (((s.server.record cfg w i p us).workers w).stats.length -
            (s.server.workers w).stats.length) } } := by
  have hown : cfg.Owns w i := h.inPlace hw hpc
  have hat := h.handling hw hpc hown
  rw [WorkerPc.handlingStage, if_pos rfl] at hat
  have hdone := hat.record (n := ((s.server.record cfg w i p us).workers w).stats.length -
    (s.server.workers w).stats.length) (by simp [Server.record])
  have hs : WorkerStep cfg s.server w (.timeEnd w us) (s.server.record cfg w i p us) :=
    .timeEnd hpc
  -- the worker goes on to the next connection, or raises the stop signal
  by_cases hfull : cfg.statsLen ≤ ((s.server.workers w).stats.length : Int) + 1
  · have hpc' : ((s.server.record cfg w i p us).workers w).pc = .raiseStop := by
      simp [Server.record, hfull]
    exact h.note hw hs hpc hpc' hown rfl rfl hdone (fun j hj => (if_neg (Ne.symm hj)).symm)
      (by simp [WorkerPc.loaded]) trivial
  · have hpc' : ((s.server.record cfg w i p us).workers w).pc = .poll (i + 1) := by
      simp [Server.record, hfull]
    exact h.note hw hs hpc hpc' hown rfl rfl hdone (fun j hj => (if_neg (Ne.symm hj)).symm)
      (by simp [WorkerPc.loaded]) (Nat.le_succ_of_le hown.1)

private theorem workerStep (h : PollingOk msgSize cfg s) (hw : w < cfg.threadCount)
    (hs : WorkerStep cfg s.server w e sv) (hbeg : ∀ i r, e ≠ .begRead w i r)
    (hend : ∀ i, e ≠ .endRead w i) :
    PollingOk msgSize cfg { s with server := sv, history := s.record cfg sv e } := by
  cases hs with
  | leave hpc hstop =>
      simp only [Polling.record, hpc]
      exact h.move (.leave hpc hstop) hpc (setWorker_pc _ _ _) (fun _ => rfl) rfl trivial
  | stay hpc hstop =>
      simp only [Polling.record, hpc]
      exact h.move (.stay hpc hstop) hpc (setWorker_pc _ _ _) (fun _ => rfl) rfl trivial
  | paused hpc hpause =>
      simp only [Polling.record, hpc]
      exact h.move (.paused hpc hpause) hpc (setWorker_pc _ _ _) (fun _ => rfl) rfl trivial
  | startPass hpc hpause =>
      simp only [Polling.record, hpc]
      exact h.move (.startPass hpc hpause) hpc (setWorker_pc _ _ _) (fun _ => rfl) rfl
        (Nat.le_refl _)
  | clearCount hpc =>
      simp only [Polling.record, hpc]
      exact h.move (.clearCount hpc) hpc (setWorker_pc _ _ _) (fun _ => rfl) rfl trivial
  | endPass hpc hi =>
      simp only [Polling.record, hpc]
      exact h.move (.endPass hpc hi) hpc (setWorker_pc _ _ _) (fun _ => rfl) rfl trivial
  | raiseStop hpc =>
      simp only [Polling.record, hpc]
      exact h.move (.raiseStop hpc) hpc (setWorker_pc _ _ _) (fun _ => rfl) rfl trivial
  | exit hpc hi =>
      simp only [Polling.record, hpc]
      exact h.move (.exit hpc hi) hpc (setWorker_pc _ _ _) (fun _ => rfl) rfl trivial
  | delete hpc hi =>
      exact h.move (.delete hpc hi) hpc (setWorker_pc _ _ _) (fun _ => rfl) rfl trivial
  | outOfRange hpc hid =>
      simp only [Polling.record, hpc]
      exact h.outOfRange hw hpc (.outOfRange hpc hid)
        fun hin => by unfold idInRange at hin; omega
  | score hpc hlo hhi =>
      simp only [Polling.record, hpc]
      exact h.score hw hpc (.score hpc hlo hhi) (setWorker_pc _ _ _) ⟨hlo, hhi⟩
  | loadCount hpc =>
      simp only [Polling.record, hpc]
      exact h.loadCount hw hpc
  | storeCount hpc =>
      simp only [Polling.record, hpc]
      exact h.storeCount hw hpc (.storeCount hpc) (setWorker_pc _ _ _)
        (Function.update_self _ _ _)
  | timeEnd hpc =>
      simp only [Polling.record, hpc]
      exact h.record hw hpc
  | begRead => exact absurd rfl (hbeg _ _)
  | endRead => exact absurd rfl (hend _)

private theorem masterStep (h : PollingOk msgSize cfg s) (hs : MasterStep cfg s.server e sv)
    (hok : PollsReleased cfg s (.server e)) : PollingOk msgSize cfg { s with server := sv } where
  conn := h.conn
  order := h.order
  loaded := by
    intro w hw n hn
    rw [hs.workers_eq] at hn
    rcases hs.votesCount_eq with hcount | ⟨ph, v, r, rfl, hpc, hcount⟩
    · rw [hcount]
      exact h.loaded w hw n hn
    · rw [hcount]
      by_cases hwv : w = v
      · simp only [PollsReleased, hpc, ← hwv, hn, Option.getD_some] at hok
        rw [hwv, Function.update_self, hok]
      · rw [Function.update_of_ne hwv]
        exact h.loaded w hw n hn
  place := by
    rw [hs.workers_eq]
    exact h.place
  stage := by
    rw [hs.workers_eq]
    exact h.stage

private theorem serverStep (h : PollingOk msgSize cfg s) (hs : s.server.step cfg e = some sv)
    (hok : PollsReleased cfg s (.server e)) (hbeg : ∀ w i r, e ≠ .begRead w i r)
    (hend : ∀ w i, e ≠ .endRead w i) :
    PollingOk msgSize cfg { s with server := sv, history := s.record cfg sv e } := by
  rcases step_cases hs with hm | ⟨w, hw, hws⟩
  · have hrecord : s.record cfg sv e = s.history := by
      cases hm <;> rfl
    rw [hrecord]
    exact h.masterStep hm hok
  · exact h.workerStep hw hws (hbeg w) (hend w)

private theorem handed_of_result {r : BegRead} {m : Memory} :
    match r.result m with
    | .data p => ∃ bs, r.handed m = [(bs, p.msg)]
    | .unset => True
    | .eagain | .efin => r.handed m = [] := by
  unfold BegRead.result BegRead.handed
  cases r.ret <;> cases r.out <;> simp

private theorem begRead {x : SysRead} {d : TransConn} {r : BegRead} {c : ConnReads}
    (hpos : 0 < msgSize) (h : PollingOk msgSize cfg s)
    (hok : ¬(s.history i).Rejected cfg.clientCount)
    (hcall : (s.conns i).conn.begRead msgSize x = some (d, r))
    (hserver : s.server.step cfg (.begRead w i (r.result d.buffer)) = some sv)
    (hconn : (s.conns i).step msgSize (.begRead x) = some c) :
    PollingOk msgSize cfg ⟨sv, update s.conns i c, update s.history i { s.history i with
      arrived := (s.history i).arrived ++ (s.conns i).arrivedWith c
      handled := (s.history i).handled ++ r.handed d.buffer }⟩ := by
  rcases step_cases hserver with hm | ⟨v, hw, hs⟩
  · cases hm
  cases hs with
  | @begRead i res pc hpc hi hres =>
      have hown : cfg.Owns w i := ⟨h.inPlace hw hpc, hi⟩
      obtain ⟨hdone, hrejected⟩ := h.handling hw hpc hown
      have hshown : (s.conns i).shown = false := by
        by_contra hne
        exact hok (hrejected (by simpa using hne))
      have hset : r.result d.buffer ≠ .unset := by
        intro heq
        rw [heq] at hres
        simp [Server.afterBegRead] at hres
      obtain ⟨hunseen, hshown', -⟩ :=
        ConnReads.unseen_begRead hpos (h.inv hpos i) hshown hcall hconn hset
      have horder : ((s.history i).handled ++ r.handed d.buffer).map Prod.fst ++
          c.unseen msgSize = (s.history i).arrived ++ (s.conns i).arrivedWith c := by
        rw [← h.order i, List.map_append, List.append_assoc, List.append_assoc, hunseen]
      have hstep : WorkerStep cfg s.server w (.begRead w i (r.result d.buffer))
          (s.server.setWorker w pc) := .begRead hpc hi hres
      have hreach : (connReads msgSize true cfg.transType).Reachable Machine.always c :=
        (h.conn i).step (e := .begRead x) trivial hconn
      have haway : r.handed d.buffer = [] → { s.history i with
          arrived := (s.history i).arrived ++ (s.conns i).arrivedWith c
          handled := (s.history i).handled ++ r.handed d.buffer }.At
            cfg.clientCount c.shown .away := by
        intro hnone
        simp only [hnone, List.append_nil]
        exact ⟨⟨hdone.scored, hdone.counted, hdone.recorded⟩, by simp [hshown', hnone]⟩
      have hhanded := handed_of_result (r := r) (m := d.buffer)
      cases hr : r.result d.buffer with
      | data p =>
          rw [hr] at hres hhanded
          obtain ⟨bs, hbs⟩ := hhanded
          obtain rfl := Option.some.inj hres
          refine h.handle hw hstep hpc (setWorker_pc _ _ _) hown hreach horder ?_
            (fun j hj => if_neg (Ne.symm hj)) (by simp [WorkerPc.loaded]) hown
          rw [WorkerPc.handlingStage, if_pos rfl]
          refine ⟨(s.history i).handled, bs, ?_, ⟨hdone.scored, hdone.counted, hdone.recorded⟩, ?_⟩
          · rw [hbs]
          · simpa [hbs] using hshown'
      | unset => exact absurd hr hset
      | eagain =>
          rw [hr] at hres hhanded
          obtain rfl := Option.some.inj hres
          exact h.handle hw hstep hpc (setWorker_pc _ _ _) hown hreach horder (haway hhanded)
            (fun _ _ => rfl) (by simp [WorkerPc.loaded]) (Nat.le_succ_of_le hown.1)
      | efin =>
          rw [hr] at hres hhanded
          obtain rfl := Option.some.inj hres
          exact h.handle hw hstep hpc (setWorker_pc _ _ _) hown hreach horder (haway hhanded)
            (fun _ _ => rfl) (by simp [WorkerPc.loaded]) trivial

private theorem endRead {c : ConnReads} (hpos : 0 < msgSize) (h : PollingOk msgSize cfg s)
    (hserver : s.server.step cfg (.endRead w i) = some sv)
    (hconn : (s.conns i).step msgSize .endRead = some c) :
    PollingOk msgSize cfg ⟨sv, update s.conns i c, update s.history i { s.history i with
      arrived := (s.history i).arrived ++ (s.conns i).arrivedWith c }⟩ := by
  rcases step_cases hserver with hm | ⟨v, hw, hs⟩
  · cases hm
  cases hs with
  | @endRead i p hpc =>
      have hown : cfg.Owns w i := h.inPlace hw hpc
      have hat := h.handling hw hpc hown
      rw [WorkerPc.handlingStage, if_pos rfl] at hat
      obtain ⟨hunseen, hshown⟩ := ConnReads.unseen_endRead hpos (h.inv hpos i) hat.2 hconn
      refine h.handle hw (.endRead hpc) hpc (setWorker_pc _ _ _) hown
        ((h.conn i).step (e := .endRead) trivial hconn) ?_ ?_
        (fun j hj => (if_neg (Ne.symm hj)).trans (if_neg (Ne.symm hj)).symm)
        (by simp [WorkerPc.loaded]) hown
      · rw [← h.order i, List.append_assoc, hunseen]
      · rw [WorkerPc.handlingStage, if_pos rfl]
        exact ⟨⟨hat.1.scored, hat.1.counted, hat.1.recorded⟩, hshown⟩

private theorem write {c : ConnReads} (h : PollingOk msgSize cfg s)
    {call : ConnCall} (hconn : (s.conns i).step msgSize call = some c)
    (hunseen : (s.conns i).unseen msgSize ++ (s.conns i).arrivedWith c = c.unseen msgSize)
    (hshown : c.shown = (s.conns i).shown) :
    PollingOk msgSize cfg ⟨s.server, update s.conns i c, update s.history i { s.history i with
      arrived := (s.history i).arrived ++ (s.conns i).arrivedWith c }⟩ where
  conn := by
    intro j
    by_cases hj : j = i
    · simpa [hj] using (h.conn i).step trivial hconn
    · simpa [hj] using h.conn j
  order := by
    intro j
    by_cases hj : j = i
    · simp only [hj, Function.update_self]
      rw [← h.order i, List.append_assoc, hunseen]
    · simpa [hj] using h.order j
  loaded := h.loaded
  place := h.place
  stage := by
    intro w hw j hj
    by_cases hji : j = i
    · simp only [hji, Function.update_self, hshown]
      exact (h.stage w hw i (hji ▸ hj)).arrive _
    · simpa [hji] using h.stage w hw j hj

theorem init {start : Nat → ConnReads}
    (hstart : ∀ i, (connReads msgSize true cfg.transType).Reachable Machine.always (start i))
    (hshown : ∀ i, (start i).shown = false) : PollingOk msgSize cfg (.init msgSize start) where
  conn := hstart
  order := by simp [Polling.init, ConnReads.unseen, hshown]
  loaded := by simp [Polling.init, Server.init, WorkerPc.loaded]
  place := fun _ _ => trivial
  stage := by
    intro w hw i hown
    exact ⟨⟨rfl, rfl, rfl⟩, fun h => by simp [Polling.init, hshown] at h⟩

theorem step {f : PollingEvent} (hpos : 0 < msgSize) (h : PollingOk msgSize cfg s)
    (hok : PollsReleased cfg s f) (hs : s.step msgSize cfg f = some t) :
    PollingOk msgSize cfg t := by
  cases f with
  | server e =>
      cases e with
      | begRead | endRead => simp [Polling.step] at hs
      | _ =>
          obtain ⟨sv, hsv, rfl⟩ := Option.map_eq_some_iff.mp hs
          exact h.serverStep hsv hok (by simp) (by simp)
  | begRead w i x =>
      obtain ⟨⟨d, r⟩, hcall, hs⟩ := Option.bind_eq_some_iff.mp hs
      obtain ⟨sv, hsv, hs⟩ := Option.bind_eq_some_iff.mp hs
      obtain ⟨s', hs', rfl⟩ := Option.map_eq_some_iff.mp hs
      obtain ⟨c, hc, rfl⟩ := Option.map_eq_some_iff.mp hs'
      simpa [Polling.hand] using h.begRead hpos hok hcall hsv hc
  | endRead w i =>
      obtain ⟨sv, hsv, hs⟩ := Option.bind_eq_some_iff.mp hs
      obtain ⟨s', hs', rfl⟩ := Option.map_eq_some_iff.mp hs
      obtain ⟨c, hc, rfl⟩ := Option.map_eq_some_iff.mp hs'
      exact h.endRead hpos hsv hc
  | write i call =>
      cases call with
      | begRead | endRead => simp [Polling.step] at hs
      | begWrite bs =>
          obtain ⟨c, hc, rfl⟩ := Option.map_eq_some_iff.mp hs
          obtain ⟨hunseen, hshown⟩ := ConnReads.unseen_begWrite (h.inv hpos i) hc
          exact h.write hc hunseen hshown
      | endWrite len x =>
          obtain ⟨c, hc, rfl⟩ := Option.map_eq_some_iff.mp hs
          obtain ⟨hunseen, hshown⟩ := ConnReads.unseen_endWrite hpos (h.inv hpos i) hc
          exact h.write hc hunseen hshown

end PollingOk

-- What a worker does with the messages of its connection `i`.
structure HandledOnce (msgSize : Nat) (cfg : Config) (s : Polling) (w i : Nat) : Prop where
  -- each message is handled once, in the order of arrival
  order : (s.history i).handled.map Prod.fst <+: (s.history i).arrived
  -- a call of `beg_read` that returns hands out the next message, if one has arrived
  next : ∀ x d r, PollsReleased cfg s (.begRead w i x) → (s.server.workers w).pc = .poll i →
    x.data.length ≤ buffSize → (s.conns i).conn.begRead msgSize x = some (d, r) →
    ∃ t, s.step msgSize cfg (.begRead w i x) = some t ∧
      (t.history i).handled.map Prod.fst =
        (t.history i).arrived.take ((s.history i).handled.length + 1)
  -- the messages in range have set their slots, and each was counted and recorded once
  done : (s.server.workers w).pc.handlingStage i = .away →
    (s.history i).Done cfg.clientCount (s.history i).handled 0 0
  -- a message out of range moves the worker on and changes nothing else
  ignored : ∀ p t, (s.server.workers w).pc = .score i p →
    ¬idInRange cfg.clientCount p.msg.srcHostid →
    s.step msgSize cfg (.server (.worker w)) = some t →
    t.server = s.server.setWorker w (.poll (i + 1))
  sets : ∀ p t, (s.server.workers w).pc = .score i p →
    idInRange cfg.clientCount p.msg.srcHostid →
    s.step msgSize cfg (.server (.worker w)) = some t →
    t.server.votesScoreboard =
      update s.server.votesScoreboard (p.msg.srcHostid - 1).toNat p.msg.type
  adds : ∀ p n t, (s.server.workers w).pc = .storeCount i p n →
    s.step msgSize cfg (.server (.worker w)) = some t →
    t.server.votesCount = update s.server.votesCount w (s.server.votesCount w + 1)

private theorem handed_cases (r : BegRead) (m : Memory) :
    r.handed m = [] ∨ ∃ x, r.handed m = [x] := by
  unfold BegRead.handed
  cases r.ret <;> cases r.out <;> simp

namespace PollingOk

private theorem next {x : SysRead} {d : TransConn} {r : BegRead} (hpos : 0 < msgSize)
    (h : PollingOk msgSize cfg s) (hw : w < cfg.threadCount) (hown : cfg.Owns w i)
    (hok : ¬(s.history i).Rejected cfg.clientCount) (hpc : (s.server.workers w).pc = .poll i)
    (hx : x.data.length ≤ buffSize) (hcall : (s.conns i).conn.begRead msgSize x = some (d, r)) :
    ∃ t, s.step msgSize cfg (.begRead w i x) = some t ∧
      (t.history i).handled.map Prod.fst =
        (t.history i).arrived.take ((s.history i).handled.length + 1) := by
  have hshown : (s.conns i).shown = false := by
    by_contra hne
    exact hok ((h.handling hw hpc hown).2 (by simpa using hne))
  have hset := (h.showsAll hpos i).result_ne_unset hpos (h.inv hpos i) hshown hcall
  obtain ⟨pc, hpc'⟩ : ∃ pc, Server.afterBegRead i (r.result d.buffer) = some pc := by
    cases hr : r.result d.buffer with
    | unset => exact absurd hr hset
    | data | eagain | efin => exact ⟨_, rfl⟩
  obtain ⟨c, hc⟩ : ∃ c, (s.conns i).step msgSize (.begRead x) = some c := by
    simp only [ConnReads.step, if_pos hx, hcall, Option.map_some]
    exact ⟨_, rfl⟩
  obtain ⟨hunseen, -, hrest⟩ := ConnReads.unseen_begRead hpos (h.inv hpos i) hshown hcall hc hset
  refine ⟨{ (Polling.hand i (r.handed d.buffer) { s with
      conns := update s.conns i c
      history := update s.history i { s.history i with
        arrived := (s.history i).arrived ++ (s.conns i).arrivedWith c } }) with
      server := s.server.setWorker w pc }, ?_, ?_⟩
  · simp [Polling.step, hcall, Server.step, hw, hpc, hown.2, hpc', Polling.call, hc]
  · simp only [Polling.hand, Function.update_self]
    rw [← h.order i, List.append_assoc, hunseen, ← List.append_assoc, ← List.map_append]
    rcases handed_cases r d.buffer with hnone | ⟨m, hone⟩
    · rw [hrest hnone, hnone, List.append_nil, List.append_nil, List.take_of_length_le]
      simp
    · rw [hone, List.take_left' (by simp)]

theorem handledOnce (hpos : 0 < msgSize) (h : PollingOk msgSize cfg s)
    (hw : w < cfg.threadCount) (hown : cfg.Owns w i) : HandledOnce msgSize cfg s w i where
  order := ⟨_, h.order i⟩
  next := by
    intro x d r hok hpc hx hcall
    exact h.next hpos hw hown hok hpc hx hcall
  done := by
    intro haway
    have hat := h.stage w hw i hown
    rw [haway] at hat
    exact hat.1
  -- a message out of range moves the worker on and changes nothing else
  ignored := by
    intro p t hpc hid hs
    obtain ⟨sv, hsv, rfl⟩ := Option.map_eq_some_iff.mp hs
    have hout : p.msg.srcHostid < 1 ∨ (cfg.clientCount : Int) < p.msg.srcHostid := by
      unfold idInRange at hid
      omega
    simp only [Server.step, if_pos hw, Server.workerStep, hpc, if_pos hout] at hsv
    exact (Option.some.inj hsv).symm
  sets := by
    intro p t hpc hid hs
    obtain ⟨sv, hsv, rfl⟩ := Option.map_eq_some_iff.mp hs
    have hin : ¬(p.msg.srcHostid < 1 ∨ (cfg.clientCount : Int) < p.msg.srcHostid) := by
      unfold idInRange at hid
      omega
    simp only [Server.step, if_pos hw, Server.workerStep, hpc, if_neg hin] at hsv
    obtain rfl := Option.some.inj hsv
    rfl
  adds := by
    intro p n t hpc hs
    obtain ⟨sv, hsv, rfl⟩ := Option.map_eq_some_iff.mp hs
    simp only [Server.step, if_pos hw, Server.workerStep, hpc] at hsv
    obtain rfl := Option.some.inj hsv
    rw [h.loaded w hw n (by rw [hpc]; rfl)]
    rfl

end PollingOk

-- On every transport, whatever the messages and the schedule are: in a run that polls no
-- connection after a message of it whose `src_hostid` was out of range, and in which no
-- counter is cleared under a worker that has loaded it, the worker of a connection
-- handles the messages of the connection once and in their order.
theorem handled_once_of_polls_released {start : Nat → ConnReads} (hpos : 0 < msgSize)
    (hstart : ∀ i, (connReads msgSize true cfg.transType).Reachable Machine.always (start i) ∧
      (start i).shown = false)
    (h : (pollingMachine msgSize cfg start).Reachable (PollsReleased cfg) s)
    (hw : w < cfg.threadCount) (hown : cfg.Owns w i) : HandledOnce msgSize cfg s w i := by
  have hok : PollingOk msgSize cfg s := by
    apply h.invariant
    · exact .init (fun i => (hstart i).1) (fun i => (hstart i).2)
    · exact fun _ _ _ _ hok hcond hs => hok.step hpos hcond hs
  exact hok.handledOnce hpos hw hown

-- A server with one client, before any message has arrived.
def pollingOne (t : TransType) : Machine Polling PollingEvent :=
  pollingMachine 16 (.oneThread t 1 100 1) fun _ => .init (.new true t)

-- A vote that names a client that is not there.
def strayBytes : List UInt8 := [1, 0, 2, 0, 0, 0, 0, 0, 0, 0, 0, 0, 0, 0, 0, 0]

-- A vote of the client, and one out of range behind it in the stream
theorem handled_once_of_polls_released_vote : ∃ s,
    (pollingOne .tcpLn).Reachable (PollsReleased (.oneThread .tcpLn 1 100 1)) s ∧
    (s.history 0).handled.map Prod.fst = [voteBytes, strayBytes] ∧
    (s.history 0).scored = [(0, .voteYes)] ∧ s.server.votesCount 0 = 1 ∧
    HandledOnce 16 (.oneThread .tcpLn 1 100 1) s 0 0 := by
  obtain ⟨s, hrun, hs⟩ := Machine.exists_run_of_eval (pollingOne .tcpLn)
    (PollsReleased (.oneThread .tcpLn 1 100 1))
    [.server (.worker 0), .server (.worker 0), .begRead 0 0 (.bytes (voteBytes ++ strayBytes)),
      .server (.worker 0), .endRead 0 0, .server (.worker 0), .server (.worker 0),
      .server (.timeEnd 0 7), .server (.worker 0), .server (.worker 0), .server (.worker 0),
      .begRead 0 0 .again, .server (.worker 0)]
    (fun s => decide ((s.history 0).handled.map Prod.fst = [voteBytes, strayBytes] ∧
      (s.history 0).scored = [(0, .voteYes)] ∧ s.server.votesCount 0 = 1)) (by decide +kernel)
  obtain ⟨hhandled, hscored, hcount⟩ := of_decide_eq_true hs
  exact ⟨s, hrun.reachable, hhandled, hscored, hcount,
    handled_once_of_polls_released (by decide) (fun _ => ⟨.init, rfl⟩) hrun.reachable (by decide)
      ⟨Nat.zero_le _, Nat.one_pos⟩⟩

-- On UDP and Q-Jump a worker does not survive a poll of a message that was not released.
theorem begRead_of_unreleased (hsets : (s.conns i).conn.setsOutputs = false)
    (hp : (s.conns i).conn.pending ≠ none) (x : SysRead) :
    s.step msgSize cfg (.begRead w i x) = none := by
  obtain ⟨v, hv⟩ := Option.ne_none_iff_exists'.mp hp
  simp only [Polling.step, Option.bind_eq_none_iff, Prod.forall]
  intro d r hcall sv hsv
  obtain ⟨rfl, rfl⟩ := TransConn.begRead_pending hv hcall
  simp [BegRead.result, hsets, Server.step, Server.afterBegRead] at hsv

-- A message out of range, and behind it a vote. Over TCP the worker is given the first
-- message again, over UDP it cannot poll the connection any more.
theorem message_handled_twice :
    (∃ s, (pollingOne .tcpLn).Reachable Machine.always s ∧
      (s.history 0).arrived = [strayBytes, voteBytes] ∧
      (s.history 0).handled.map Prod.fst = [strayBytes, strayBytes] ∧
      ¬HandledOnce 16 (.oneThread .tcpLn 1 100 1) s 0 0) ∧
    ∃ s, (pollingOne .udpLn).Reachable Machine.always s ∧
      (s.server.workers 0).pc = .poll 0 ∧
      ∀ x, s.step 16 (.oneThread .udpLn 1 100 1) (.begRead 0 0 x) = none := by
  constructor
  · obtain ⟨s, hrun, hs⟩ := Machine.exists_run_of_eval (pollingOne .tcpLn) Machine.always
      [.server (.worker 0), .server (.worker 0), .begRead 0 0 (.bytes (strayBytes ++ voteBytes)),
        .server (.worker 0), .server (.worker 0), .server (.worker 0), .server (.worker 0),
        .begRead 0 0 .again]
      (fun s => decide ((s.history 0).arrived = [strayBytes, voteBytes] ∧
        (s.history 0).handled.map Prod.fst = [strayBytes, strayBytes])) (by decide +kernel)
    obtain ⟨harrived, hhandled⟩ := of_decide_eq_true hs
    refine ⟨s, hrun.reachable, harrived, hhandled, fun h => ?_⟩
    have hprefix := h.order
    rw [harrived, hhandled] at hprefix
    exact absurd hprefix (by decide)
  · obtain ⟨s, hrun, hs⟩ := Machine.exists_run_of_eval (pollingOne .udpLn) Machine.always
      [.server (.worker 0), .server (.worker 0), .begRead 0 0 (.bytes strayBytes),
        .server (.worker 0), .server (.worker 0), .server (.worker 0), .server (.worker 0)]
      (fun s => decide ((s.server.workers 0).pc = .poll 0 ∧
        (s.conns 0).conn.setsOutputs = false ∧ (s.conns 0).conn.pending ≠ none))
      (by decide +kernel)
    obtain ⟨hpc, hsets, hp⟩ := of_decide_eq_true hs
    exact ⟨s, hrun.reachable, hpc, begRead_of_unreleased hsets hp⟩

end Q2pc
