import Q2pc.Lib.History
import Q2pc.Server.Init
import Q2pc.System.Counters
import Q2pc.System.Deletion

namespace Q2pc

open Function (update)
open Intervals (Holds)

variable {cfg : Config} {s t : Server} {e : Event} {es : List Event} {l : Nat → List Nat}
  {w i : Nat}

-- The connections that each worker has called `beg_read` on since its pass began.
def polledBy (l : Nat → List Nat) (s : Server) : Event → Nat → List Nat
  | .worker w => if (s.workers w).pc = .pauseTest then update l w [] else l
  | .begRead w i _ => update l w (l w ++ [i])
  | _ => l

def pollMachine (cfg : Config) : Machine (Server × (Nat → List Nat)) Event :=
  (serverMachine cfg).withHistory (fun _ => []) polledBy

-- A pass polls the connections of the range one after the other. On connection `i` it has
-- polled those below it, and with a message of `i` also that one.
def WorkerPc.PassOk (lo hi : Nat) (polled : List Nat) : WorkerPc → Prop
  | .poll i => lo ≤ i ∧ i ≤ max lo hi ∧ polled = List.range' lo (i - lo)
  | .score i _ | .endRead i _ | .loadCount i _ | .storeCount i _ _ | .stats i _ =>
      lo ≤ i ∧ i < hi ∧ polled = List.range' lo (i + 1 - lo)
  | _ => True

def PassesOk (cfg : Config) (s : Server) (l : Nat → List Nat) : Prop :=
  ∀ w < cfg.threadCount, (s.workers w).pc.PassOk (cfg.lo w) (cfg.hi w) (l w)

private theorem polledBy_worker (h : (s.workers w).pc ≠ .pauseTest) :
    polledBy l s (.worker w) = l := if_neg h

private theorem polledBy_ne {v : Nat} (hs : WorkerStep cfg s w e t) (hv : v ≠ w) :
    polledBy l s e v = l v := by
  cases hs with
  | begRead => exact Function.update_of_ne hv _ _
  | endRead | timeEnd | delete => rfl
  | _ =>
      by_cases hpc : (s.workers w).pc = .pauseTest
      · rw [polledBy, if_pos hpc]
        exact Function.update_of_ne hv _ _
      · rw [polledBy_worker hpc]

private theorem passOk_next {lo hi i : Nat} (hlo : lo ≤ i) (hhi : i < hi) :
    (WorkerPc.poll (i + 1)).PassOk lo hi (List.range' lo (i + 1 - lo)) :=
  ⟨by omega, by omega, rfl⟩

private theorem passOk_step (h : (s.workers w).pc.PassOk (cfg.lo w) (cfg.hi w) (l w))
    (hs : WorkerStep cfg s w e t) :
    (t.workers w).pc.PassOk (cfg.lo w) (cfg.hi w) (polledBy l s e w) := by
  cases hs with
  | startPass hpc =>
      simp only [polledBy, hpc, if_true, Server.setWorker, Function.update_self]
      exact ⟨Nat.le_refl _, by omega, by simp⟩
  | @begRead i r pc hpc hi hr =>
      rw [hpc] at h
      obtain ⟨hlo, -, hpolled⟩ := h
      have hrange : List.range' (cfg.lo w) (i + 1 - cfg.lo w) = l w ++ [i] := by
        rw [hpolled, Nat.sub_add_comm hlo, List.range'_concat]
        congr 2
        omega
      simp only [polledBy, Server.setWorker, Function.update_self, ← hrange]
      cases r with
      | data p =>
          obtain rfl : WorkerPc.score i p = pc := Option.some.inj hr
          exact ⟨hlo, hi, rfl⟩
      | unset => simp [Server.afterBegRead] at hr
      | eagain =>
          obtain rfl : WorkerPc.poll (i + 1) = pc := Option.some.inj hr
          exact passOk_next hlo hi
      | efin =>
          obtain rfl : WorkerPc.raiseStop = pc := Option.some.inj hr
          trivial
  | outOfRange hpc =>
      rw [hpc] at h
      obtain ⟨hlo, hhi, hpolled⟩ := h
      rw [polledBy_worker (by simp [hpc]), hpolled]
      simp only [Server.setWorker, Function.update_self]
      exact passOk_next hlo hhi
  | score hpc | loadCount hpc | storeCount hpc =>
      rw [hpc] at h
      rw [polledBy_worker (by simp [hpc])]
      simp only [Server.setWorker, Function.update_self]
      exact h
  | endRead hpc =>
      rw [hpc] at h
      simp only [Server.setWorker, Function.update_self]
      exact h
  | timeEnd hpc =>
      rw [hpc] at h
      obtain ⟨hlo, hhi, hpolled⟩ := h
      simp only [Server.record, Function.update_self, polledBy]
      split
      · trivial
      · rw [hpolled]
        exact passOk_next hlo hhi
  | leave | stay | paused | clearCount | endPass | raiseStop | exit | delete =>
      simp only [Server.setWorker, Function.update_self]
      trivial

private theorem polledBy_master (hs : MasterStep cfg s e t) : polledBy l s e = l := by
  cases hs <;> rfl

theorem PassesOk.step (h : PassesOk cfg s l) (hs : s.step cfg e = some t) :
    PassesOk cfg t (polledBy l s e) := by
  intro v hv
  rcases step_cases hs with hm | ⟨w, _, hm⟩
  · rw [hm.workers_eq, polledBy_master hm]
    exact h v hv
  · by_cases hvw : v = w
    · subst hvw
      exact passOk_step (h v hv) hm
    · rw [hm.workers_ne hvw, polledBy_ne hm hvw]
      exact h v hv

theorem passesOk_of_reachable (h : (pollMachine cfg).Reachable Machine.always (s, l)) :
    PassesOk cfg s l := by
  apply h.invariant (P := fun sl => PassesOk cfg sl.1 sl.2)
  · intro w _
    trivial
  rintro ⟨s, l⟩ e ⟨t, l'⟩ _ hok _ hs
  obtain ⟨hs, rfl⟩ := Machine.step_withHistory.mp hs
  exact hok.step hs

def Event.handles : Event → Option (Nat × Nat)
  | .begRead w i _ | .delete w i => some (w, i)
  | _ => none

def Event.deletes (i : Nat) : Event → Bool
  | .delete _ j => i = j
  | _ => false

theorem passesOk_of_run (h : (serverMachine cfg).Run Machine.always es s) :
    ∃ l, PassesOk cfg s l := by
  obtain ⟨l, hrun⟩ := h.exists_history (fun _ => []) polledBy
  exact ⟨l, passesOk_of_reachable hrun.reachable⟩

theorem owns_of_handles (hpasses : PassesOk cfg s l) (hcleanup : Cleanup cfg s)
    (hs : s.step cfg e = some t) (he : e.handles = some (w, i)) :
    w < cfg.threadCount ∧ cfg.Owns w i := by
  cases e with
  | begRead v j r =>
      obtain ⟨rfl, rfl⟩ := Prod.mk.inj (Option.some.inj he)
      simp only [Server.step, Option.ite_none_right_eq_some] at hs
      obtain ⟨⟨hv, hpc, hhi⟩, _⟩ := hs
      have hpass := hpasses v hv
      rw [hpc] at hpass
      exact ⟨hv, hpass.1, hhi⟩
  | delete v j =>
      obtain ⟨rfl, rfl⟩ := Prod.mk.inj (Option.some.inj he)
      simp only [Server.step, Option.ite_none_right_eq_some] at hs
      obtain ⟨⟨hv, hpc, hhi⟩, _⟩ := hs
      exact ⟨hv, (hcleanup.position v j hpc).1, hhi⟩
  | master | clock | begWrite | endWrite | endWriteRet | worker | endRead | timeEnd =>
      simp [Event.handles] at he

theorem deleted_step (hcleanup : Cleanup cfg s) (hs : s.step cfg e = some t) :
    (t.deleted = s.deleted ∧ ∀ i, e.deletes i = false) ∨
      ∃ w i, e = .delete w i ∧ s.deleted i = false ∧ t.deleted = update s.deleted i true := by
  rcases step_cases hs with hm | ⟨w, hw, hm⟩
  · refine .inl ⟨hm.frame.2.1, fun i => ?_⟩
    cases hm <;> rfl
  · cases hm with
    | @delete i hpc hi =>
        refine .inr ⟨w, i, rfl, ?_, rfl⟩
        by_contra hdeleted
        obtain ⟨v, hv, hlo, hhi, hpast⟩ :=
          (hcleanup.deleted i).mp (by simpa using hdeleted)
        obtain rfl := cfg.disjoint v hv w hw i hlo hhi (hcleanup.position w i hpc).1 hi
        simp [hpc, WorkerPc.Past] at hpast
    | _ => exact .inl ⟨rfl, fun i => rfl⟩

theorem countP_deletes (h : (serverMachine cfg).Run Machine.always es s) :
    ∀ i, es.countP (Event.deletes i) = if s.deleted i then 1 else 0 := by
  apply h.invariant (P := fun es s => ∀ i, es.countP (Event.deletes i) =
    if s.deleted i then 1 else 0)
  · intro i
    simp [serverMachine, Server.init]
  · intro es s e t hrun ih _ hs i
    rw [List.countP_append, ih i, List.countP_singleton]
    rcases deleted_step (cleanup_of_run hrun) hs with ⟨heq, hnot⟩ | ⟨w, j, rfl, hlive, heq⟩
    · rw [heq, hnot i]
      rfl
    · rw [heq]
      by_cases hij : i = j
      · subst hij
        simp [Event.deletes, hlive]
      · simp [Event.deletes, hij]

-- What the workers have done with the connections in a run: each was polled and deleted by
-- its worker only, and deleted once, by the time that the workers are gone.
structure HandledByOne (cfg : Config) (es : List Event) (s : Server) : Prop where
  owner : ∀ e ∈ es, ∀ w i, e.handles = some (w, i) → w < cfg.threadCount ∧ cfg.Owns w i
  once : ∀ i, es.countP (Event.deletes i) ≤ 1
  exited : (∀ w < cfg.threadCount, (s.workers w).pc = .exited) →
    ∀ i < cfg.clientCount, es.countP (Event.deletes i) = 1

theorem handledByOne_of_run (h : (serverMachine cfg).Run Machine.always es s) :
    HandledByOne cfg es s where
  owner := by
    apply h.invariant (P := fun es _ => ∀ e ∈ es, ∀ w i, e.handles = some (w, i) →
      w < cfg.threadCount ∧ cfg.Owns w i)
    · intro e he
      exact absurd he List.not_mem_nil
    · intro es s e t hrun ih _ hs f hf w i hhandles
      rcases List.mem_append.mp hf with hf | hf
      · exact ih f hf w i hhandles
      · obtain rfl := List.mem_singleton.mp hf
        obtain ⟨l, hpasses⟩ := passesOk_of_run hrun
        exact owns_of_handles hpasses (cleanup_of_run hrun) hs hhandles
  once := by
    intro i
    rw [countP_deletes h i]
    split <;> omega
  exited := by
    intro hexited i hi
    obtain ⟨w, hw, hlo, hhi⟩ := cfg.cover i hi
    have hpast : (s.workers w).pc.Past i := by
      rw [hexited w hw]
      trivial
    have hdeleted := ((cleanup_of_run h).deleted i).mpr ⟨w, hw, hlo, hhi, hpast⟩
    rw [countP_deletes h i, if_pos hdeleted]

-- A pass that comes to the end of its range has polled all of it, in order.
theorem polled_of_pass (h : (pollMachine cfg).Reachable Machine.always (s, l))
    (hw : w < cfg.threadCount) (hpc : (s.workers w).pc = .poll i) (hi : cfg.hi w ≤ i) :
    l w = List.range' (cfg.lo w) (cfg.hi w - cfg.lo w) := by
  have hpass := passesOk_of_reachable h w hw
  rw [hpc] at hpass
  obtain ⟨hlo, hmax, hpolled⟩ := hpass
  have hlen : i - cfg.lo w = cfg.hi w - cfg.lo w := by omega
  rw [hpolled, hlen]

variable {array : ChArray} {a : ServerArgs} {ps : List ThreadParams}

theorem owner_unique (h : serverInit array a = some ps) {x : Int} (hlo : 0 ≤ x)
    (hhi : x < a.clientCount) : ∃! w : Nat, ∃ p, ps[w]? = some p ∧ Holds p.range x := by
  have htiles := serverInit_tiles h
  obtain ⟨w, r, hr, hholds⟩ := htiles.cover hlo hhi
  obtain ⟨p, hp, rfl⟩ := Option.map_eq_some_iff.mp (List.getElem?_map ▸ hr)
  refine ⟨w, ⟨p, hp, hholds⟩, ?_⟩
  rintro v ⟨q, hq, hholds'⟩
  refine htiles.disjoint ?_ hr hholds' hholds
  rw [List.getElem?_map, hq, Option.map_some]

-- server_init gives each connection to one thread, for all numbers of threads and
-- clients.
theorem connections_have_one_worker (array : ChArray) (a : ServerArgs)
    (ht : 1 ≤ a.threadCount) (hc : 1 ≤ a.clientCount) :
    (serverInit array a = none ↔ intMax < a.clientCount) ∧
    ∀ ps, serverInit array a = some ps →
      (ps.length : Int) = min a.threadCount a.clientCount ∧
      (∀ p ∈ ps, 0 ≤ p.lo ∧ p.lo ≤ p.hi ∧ p.hi ≤ a.clientCount) ∧
      (∀ (w v : Nat) (p q : ThreadParams), ps[w]? = some p → ps[v]? = some q → w ≠ v →
        ∀ x, Holds p.range x → ¬ Holds q.range x) ∧
      (∀ x, 0 ≤ x → x < a.clientCount → ∃! w : Nat, ∃ p, ps[w]? = some p ∧ Holds p.range x) ∧
      -- the workers that run on these parameters
      ∃ cfg, a.config array = some cfg ∧ cfg.threadCount = ps.length ∧
        (cfg.clientCount : Int) = a.clientCount ∧
        (∀ (w : Nat) p, ps[w]? = some p → (cfg.lo w : Int) = p.lo ∧ (cfg.hi w : Int) = p.hi) ∧
        (∀ es s, (serverMachine cfg).Run Machine.always es s → HandledByOne cfg es s) ∧
        ∀ s l, (pollMachine cfg).Reachable Machine.always (s, l) →
          ∀ w < cfg.threadCount, ∀ i, (s.workers w).pc = .poll i → cfg.hi w ≤ i →
            l w = List.range' (cfg.lo w) (cfg.hi w - cfg.lo w) := by
  refine ⟨serverInit_eq_none ht hc, fun ps h => ?_⟩
  have htiles := serverInit_tiles h
  have hbounds : ∀ p ∈ ps, 0 ≤ p.lo ∧ p.lo ≤ p.hi ∧ p.hi ≤ a.clientCount :=
    fun p hp => htiles.bounds (List.mem_map_of_mem hp)
  refine ⟨(serverInit_counts h).2.2.2, hbounds, ?_, fun x hlo hhi => owner_unique h hlo hhi,
    _, config_of_serverInit h, rfl, ?_, ?_, fun es s => handledByOne_of_run,
    fun s l hs w hw i hpc hi => polled_of_pass hs hw hpc hi⟩
  · intro w v p q hp hq hne x hpx hqx
    obtain ⟨hlo, _, hhi⟩ := hbounds p (List.mem_of_getElem? hp)
    obtain ⟨u, _, hunique⟩ := owner_unique h (hlo.trans hpx.1) (hpx.2.trans_le hhi)
    exact hne ((hunique w ⟨p, hp, hpx⟩).trans (hunique v ⟨q, hq, hqx⟩).symm)
  · exact Int.toNat_of_nonneg (serverInit_counts h).2.1
  · intro w p hp
    obtain ⟨hlo, hle, _⟩ := hbounds p (List.mem_of_getElem? hp)
    simp only [threadsConfig, hp, Option.elim_some]
    omega

-- Three threads for four connections: the last one gets none.
theorem connections_have_one_worker_idle :
    ∃ ps, serverInit ⟨id, fun _ _ => rfl⟩ ⟨3, 4, .udpLn, 1000, 100⟩ = some ps ∧
      ps.map ThreadParams.range = [(0, 2), (2, 4), (4, 4)] ∧
      ∀ x, 0 ≤ x → x < 4 → ∃! w : Nat, ∃ p, ps[w]? = some p ∧ Holds p.range x := by
  let array : ChArray := ⟨id, fun _ _ => rfl⟩
  have hinit : serverInit array ⟨3, 4, .udpLn, 1000, 100⟩ = some
      [⟨0, 2, 4, 0, 333⟩, ⟨2, 4, 4, 1, 333⟩, ⟨4, 4, 4, 2, 333⟩] := by decide
  obtain ⟨_, h⟩ := connections_have_one_worker array ⟨3, 4, .udpLn, 1000, 100⟩ (by decide)
    (by decide)
  exact ⟨_, hinit, rfl, (h _ hinit).2.2.2.1⟩

end Q2pc
