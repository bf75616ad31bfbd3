import Q2pc.Rudp.Alignment
import Q2pc.System.Counters

namespace Q2pc

open Function (update)

variable {C : Cluster} {srv t : Server} {e : Event} {conn conn' : Nat → RudpConn} {i w : Nat}
  {x : Stat} {p : Packet}

def WorkerPc.taken : WorkerPc → Option (Nat × Packet)
  | .score i p | .endRead i p | .loadCount i p | .storeCount i p _ | .stats i p => some (i, p)
  | _ => none

def Stat.Of (x : Stat) (p : Packet) : Prop :=
  x.clientId = p.msg.srcHostid ∧ x.cRtos = p.msg.cRto ∧ x.sRtos = p.msg.sRto ∧
    x.timeStart = p.msg.ts ∧ x.type = p.msg.type ∧ x.stage = p.stage

-- The messages a worker has recorded, each accepted on one of its connections and none
-- recorded twice, and the one it has taken, the last accepted and not yet recorded.
structure Records (C : Cluster) (conn : Nat → RudpConn) (w : Nat) (k : Worker) : Prop where
  poll : ∀ i, k.pc = .poll i → C.cfg.lo w ≤ i
  taken : ∀ i p, k.pc.taken = some (i, p) → C.cfg.Owns w i ∧
    (conn i).server.accepted.getLast? = some p ∧ 2 ≤ (conn i).server.accepted.length ∧
    ∀ x ∈ k.stats, x.clientId = C.peer i + 1 → x.stage + 2 < (conn i).server.accepted.length
  pending : ∀ i p, C.cfg.Owns w i → (conn i).server.readData = some p →
    k.pc = .score i p ∨ k.pc = .endRead i p
  records : ∀ x ∈ k.stats, ∃ i p, C.cfg.Owns w i ∧ x.clientId = C.peer i + 1 ∧
    (conn i).server.accepted[x.stage + 1]? = some p ∧ x.Of p
  distinct : k.stats.Pairwise fun x y => x.clientId = y.clientId → x.stage ≠ y.stage

theorem Records.init (hnone : ∀ i < C.cfg.clientCount, (conn i).server.readData = none)
    (hw : w < C.cfg.threadCount) : Records C conn w ⟨.loop, []⟩ where
  poll := by simp
  taken := by simp [WorkerPc.taken]
  pending := by
    intro i p hown hp
    simp [hnone i (lt_clientCount hw hown.2)] at hp
  records := by simp
  distinct := .nil

theorem Records.congr {k : Worker} (h : Records C conn w k)
    (hconn : ∀ i, C.cfg.Owns w i → (conn' i).server.accepted = (conn i).server.accepted ∧
      (conn' i).server.readData = (conn i).server.readData) : Records C conn' w k where
  poll := h.poll
  taken := by
    intro i p htaken
    obtain ⟨hown, hrest⟩ := h.taken i p htaken
    rw [(hconn i hown).1]
    exact ⟨hown, hrest⟩
  pending := by
    intro i p hown hp
    rw [(hconn i hown).2] at hp
    exact h.pending i p hown hp
  records := by
    intro x hx
    obtain ⟨i, p, hown, hid, hp, hof⟩ := h.records x hx
    exact ⟨i, p, hown, hid, by rw [(hconn i hown).1, hp], hof⟩
  distinct := h.distinct

theorem Records.move {k k' : Worker} (h : Records C conn w k) (hstats : k'.stats = k.stats)
    (hpoll : ∀ i, k'.pc = .poll i → C.cfg.lo w ≤ i)
    (htaken : ∀ y, k'.pc.taken = some y → k.pc.taken = some y)
    (hpending : ∀ i p, C.cfg.Owns w i → (conn i).server.readData = some p →
      k.pc = .score i p ∨ k.pc = .endRead i p → k'.pc = .score i p ∨ k'.pc = .endRead i p) :
    Records C conn w k' where
  poll := hpoll
  taken := by
    intro i p hp
    rw [hstats]
    exact h.taken i p (htaken _ hp)
  pending := fun i p hown hp => hpending i p hown hp (h.pending i p hown hp)
  records := hstats ▸ h.records
  distinct := hstats ▸ h.distinct

-- A message is taken: it is the one after all that are recorded.
theorem Records.take {k : Worker} {c : RudpConn} (h : Records C conn w k)
    (hpc : k.pc = .poll i) (hi : i < C.cfg.hi w)
    (hne : (conn i).server.accepted ≠ [])
    (haccepted : c.server.accepted = (conn i).server.accepted ++ [p])
    (hread : c.server.readData = some p) :
    Records C (update conn i c) w ⟨.score i p, k.stats⟩ where
  poll := by simp
  taken := by
    intro j q htaken
    simp only [WorkerPc.taken, Option.some.injEq, Prod.mk.injEq] at htaken
    obtain ⟨rfl, rfl⟩ := htaken
    have hpos := List.length_pos_of_ne_nil hne
    simp only [Function.update_self, haccepted]
    refine ⟨⟨h.poll i hpc, hi⟩, by simp, by simp; omega, ?_⟩
    intro x hx hid
    obtain ⟨i', q, -, hid', hq, -⟩ := h.records x hx
    have hpeer : C.peer i' = C.peer i := by omega
    obtain rfl : i' = i := C.peer.injective hpeer
    have := (List.getElem?_eq_some_iff.mp hq).1
    simp only [List.length_append, List.length_singleton]
    omega
  pending := by
    intro j q hown hq
    by_cases hji : j = i
    · subst hji
      rw [Function.update_self, hread, Option.some.injEq] at hq
      exact .inl (by rw [hq])
    · rw [Function.update_of_ne hji] at hq
      have := h.pending j q hown hq
      simp [hpc] at this
  records := by
    intro x hx
    obtain ⟨j, q, hown, hid, hq, hof⟩ := h.records x hx
    refine ⟨j, q, hown, hid, ?_, hof⟩
    by_cases hji : j = i
    · subst hji
      have hlt := (List.getElem?_eq_some_iff.mp hq).1
      rw [Function.update_self, haccepted, List.getElem?_append_left hlt, hq]
    · rw [Function.update_of_ne hji, hq]
  distinct := h.distinct

theorem Records.record {k : Worker} {pc : WorkerPc} (h : Records C conn w k)
    (hpc : k.pc = .stats i p) (hstage : p.stage + 2 = (conn i).server.accepted.length)
    (hid : p.msg.srcHostid = C.peer i + 1) (hx : x.Of p)
    (hpc' : pc = .raiseStop ∨ pc = .poll (i + 1)) :
    Records C conn w ⟨pc, k.stats ++ [x]⟩ := by
  obtain ⟨hown, hlast, hlen, hnew⟩ := h.taken i p (by simp [hpc, WorkerPc.taken])
  have hxid : x.clientId = C.peer i + 1 := hx.1.trans hid
  have hxstage : x.stage = p.stage := hx.2.2.2.2.2
  refine ⟨?_, ?_, ?_, ?_, ?_⟩
  · intro j hj
    rcases hpc' with rfl | rfl
    · simp at hj
    · obtain rfl : i + 1 = j := by simpa using hj
      exact Nat.le_succ_of_le hown.1
  · rcases hpc' with rfl | rfl <;> simp [WorkerPc.taken]
  · intro j q hj hq
    have := h.pending j q hj hq
    simp [hpc] at this
  · intro y hy
    rcases List.mem_append.mp hy with hy | hy
    · exact h.records y hy
    · obtain rfl := List.mem_singleton.mp hy
      refine ⟨i, p, hown, hxid, ?_, hx⟩
      rw [List.getLast?_eq_getElem?] at hlast
      rwa [hxstage, show p.stage + 1 = (conn i).server.accepted.length - 1 by omega]
  · refine List.pairwise_append.mpr ⟨h.distinct, List.pairwise_singleton _ _, ?_⟩
    intro y hy z hz hyz
    obtain rfl := List.mem_singleton.mp hz
    have := hnew y hy (hyz.trans hxid)
    omega

def Identified (C : Cluster) (conn : Nat → RudpConn) (i : Nat) (p : Packet) : Prop :=
  p.msg.srcHostid = C.peer i + 1 ∧ p.stage + 2 = (conn i).server.accepted.length

theorem Records.workerStep (h : Records C conn w (srv.workers w)) (hw : w < C.cfg.threadCount)
    (hid : ∀ i p, (srv.workers w).pc.taken = some (i, p) → Identified C conn i p)
    (hs : WorkerStep C.cfg srv w e t) (he : e.onConn = none) (he' : e.isBegRead = false) :
    Records C conn w (t.workers w) := by
  cases hs with
  | begRead => simp [Event.isBegRead] at he'
  | endRead => simp [Event.onConn] at he
  | @outOfRange i p hpc hrange =>
      have htaken : (srv.workers w).pc.taken = some (i, p) := by simp [hpc, WorkerPc.taken]
      have hown := (h.taken i p htaken).1
      have hsrc := (hid i p htaken).1
      have := (C.peer_lt i).mpr (lt_clientCount hw hown.2)
      omega
  | @timeEnd i p us hpc =>
      have htaken : (srv.workers w).pc.taken = some (i, p) := by simp [hpc, WorkerPc.taken]
      obtain ⟨hsrc, hstage⟩ := hid i p htaken
      simp only [Server.record, Function.update_self]
      refine h.record hpc hstage hsrc ⟨rfl, rfl, rfl, rfl, rfl, rfl⟩ ?_
      split
      · exact .inl rfl
      · exact .inr rfl
  | score hpc | loadCount hpc | storeCount hpc =>
      simp only [Server.setWorker, Function.update_self]
      exact h.move rfl (by simp) (by simp [hpc, WorkerPc.taken]) (by simp [hpc])
  | startPass hpc =>
      simp only [Server.setWorker, Function.update_self]
      exact h.move rfl (by simp) (by simp [WorkerPc.taken]) (by simp [hpc])
  | leave hpc | stay hpc | paused hpc | clearCount hpc | endPass hpc | raiseStop hpc | exit hpc
  | delete hpc =>
      simp only [Server.setWorker, Function.update_self]
      exact h.move rfl (by simp) (by simp [WorkerPc.taken]) (by simp [hpc])

theorem Records.endRead {k : Worker} {c : RudpConn} (h : Records C conn w k)
    (hpc : k.pc = .endRead i p) (hacc : c.server.accepted = (conn i).server.accepted)
    (hread : c.server.readData = none) :
    Records C (update conn i c) w { k with pc := .loadCount i p } := by
  have hacc' : ∀ j, (update conn i c j).server.accepted = (conn j).server.accepted := by
    intro j
    by_cases hji : j = i
    · subst hji
      rw [Function.update_self, hacc]
    · rw [Function.update_of_ne hji]
  refine ⟨by simp, ?_, ?_, ?_, h.distinct⟩
  · intro j q hq
    rw [hacc']
    exact h.taken j q (by simpa [hpc, WorkerPc.taken] using hq)
  · intro j q hown hq
    by_cases hji : j = i
    · subst hji
      simp [hread] at hq
    · rw [Function.update_of_ne hji] at hq
      have := h.pending j q hown hq
      simp only [hpc, reduceCtorEq, WorkerPc.endRead.injEq, false_or] at this
      exact absurd this.1.symm hji
  · intro x hx
    obtain ⟨j, q, hown, hid, hq, hof⟩ := h.records x hx
    exact ⟨j, q, hown, hid, by rw [hacc', hq], hof⟩

end Q2pc
