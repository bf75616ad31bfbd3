import Q2pc.System.Invariant

namespace Q2pc

open Function (update)

namespace WorkersOk

variable {cfg : Config} {workers : Nat → Worker} {pending : Nat → Option Packet}
  {m : Nat → Nat} {w : Nat}

-- The positions of a worker between two messages.
def Free : WorkerPc → Prop
  | .score _ _ | .endRead _ _ => False
  | _ => True

theorem eq_of_same (hw : w < cfg.threadCount) {v i : Nat} (hv : v < cfg.threadCount)
    (h : cfg.lo w ≤ i ∧ i < cfg.hi w) (h' : cfg.lo v ≤ i ∧ i < cfg.hi v) : w = v :=
  cfg.disjoint w hw v hv i h.1 h.2 h'.1 h'.2

theorem other (h : WorkersOk cfg workers pending m) (hw : w < cfg.threadCount) {i v : Nat}
    (hi : cfg.lo w ≤ i ∧ i < cfg.hi w) (hv : v < cfg.threadCount) (hvw : v ≠ w)
    {pending' : Nat → Option Packet} {m' : Nat → Nat}
    (hp : ∀ j, j ≠ i → pending' j = pending j) (hm : ∀ j, j ≠ i → m' j = m j) :
    WorkerAt cfg pending' m' v (workers v).pc := by
  have hne : ∀ j, cfg.lo v ≤ j → j < cfg.hi v → j ≠ i := by
    rintro j hlo hhi rfl
    exact hvw (eq_of_same hv hw ⟨hlo, hhi⟩ hi)
  have hat := h.position v hv
  cases hpc : (workers v).pc <;> simp only [hpc, WorkerAt] at hat ⊢ <;> try exact hat
  all_goals
    obtain ⟨hlo, hhi, hat⟩ := hat
    simp only [hp _ (hne _ hlo hhi), hm _ (hne _ hlo hhi)]
    exact ⟨hlo, hhi, hat⟩

theorem move {x : Worker} (h : WorkersOk cfg workers pending m) (hold : Free (workers w).pc)
    (hnew : WorkerAt cfg pending m w x.pc) :
    WorkersOk cfg (update workers w x) pending m where
  position := by
    intro v hv
    by_cases hvw : v = w
    · subst hvw
      simpa using hnew
    · simpa [hvw] using h.position v hv
  held := by
    intro i p hp
    obtain ⟨v, hv, hlo, hhi, hpc⟩ := h.held i p hp
    have hvw : v ≠ w := by
      rintro rfl
      rcases hpc with hpc | hpc <;> simp [hpc, Free] at hold
    exact ⟨v, hv, hlo, hhi, by simpa [hvw] using hpc⟩

theorem pending_none (h : WorkersOk cfg workers pending m) (hw : w < cfg.threadCount) {i : Nat}
    (hpc : (workers w).pc = .poll i) (hi : i < cfg.hi w) : pending i = none := by
  cases hp : pending i with
  | none => rfl
  | some p =>
      obtain ⟨v, hv, hlo, hhi, hvpc⟩ := h.held i p hp
      have hat := h.position w hw
      simp only [hpc, WorkerAt] at hat
      obtain rfl := eq_of_same hw hv ⟨hat, hi⟩ ⟨hlo, hhi⟩
      simp [hpc] at hvpc

theorem begRead (h : WorkersOk cfg workers pending m) (hw : w < cfg.threadCount) {i : Nat}
    {p : Packet} {stats : List Stat} (hpc : (workers w).pc = .poll i) (hi : i < cfg.hi w)
    (hmark : m i ≤ p.stage) (htimed : p.Timed) :
    WorkersOk cfg (update workers w ⟨.score i p, stats⟩) (update pending i (some p)) m where
  position := by
    intro v hv
    have hat := h.position w hw
    simp only [hpc, WorkerAt] at hat
    by_cases hvw : v = w
    · subst hvw
      simpa [WorkerAt] using ⟨hat, hi, hmark, htimed⟩
    · simp only [update, hvw, dite_false]
      exact h.other hw ⟨hat, hi⟩ hv hvw (fun j hj => by simp [hj]) (fun _ _ => rfl)
  held := by
    intro j q hq
    have hat := h.position w hw
    simp only [hpc, WorkerAt] at hat
    by_cases hji : j = i
    · subst hji
      simp only [Function.update_self, Option.some.injEq] at hq
      subst hq
      exact ⟨w, hw, hat, hi, by simp⟩
    · obtain ⟨v, hv, hlo, hhi, hvpc⟩ := h.held j q (by simpa [hji] using hq)
      have hvw : v ≠ w := by
        rintro rfl
        simp [hpc] at hvpc
      exact ⟨v, hv, hlo, hhi, by simpa [hvw] using hvpc⟩

theorem score (h : WorkersOk cfg workers pending m) (hw : w < cfg.threadCount) {i : Nat}
    {p : Packet} {stats : List Stat} (hpc : (workers w).pc = .score i p) :
    WorkersOk cfg (update workers w ⟨.endRead i p, stats⟩) pending
      (update m i (p.stage + 1)) where
  position := by
    intro v hv
    have hat := h.position w hw
    simp only [hpc, WorkerAt] at hat
    by_cases hvw : v = w
    · subst hvw
      simpa [WorkerAt] using ⟨hat.1, hat.2.1, hat.2.2.2⟩
    · simp only [update, hvw, dite_false]
      exact h.other hw ⟨hat.1, hat.2.1⟩ hv hvw (fun _ _ => rfl) (fun j hj => by simp [hj])
  held := by
    intro j q hq
    obtain ⟨v, hv, hlo, hhi, hvpc⟩ := h.held j q hq
    by_cases hvw : v = w
    · subst hvw
      refine ⟨v, hv, hlo, hhi, ?_⟩
      simp only [hpc, WorkerPc.score.injEq, reduceCtorEq, or_false] at hvpc
      simp [hvpc]
    · exact ⟨v, hv, hlo, hhi, by simpa [hvw] using hvpc⟩

theorem endRead (h : WorkersOk cfg workers pending m) (hw : w < cfg.threadCount) {i : Nat}
    {p : Packet} {stats : List Stat} (hpc : (workers w).pc = .endRead i p) :
    WorkersOk cfg (update workers w ⟨.loadCount i p, stats⟩) (update pending i none) m where
  position := by
    intro v hv
    have hat := h.position w hw
    simp only [hpc, WorkerAt] at hat
    by_cases hvw : v = w
    · subst hvw
      simpa [WorkerAt] using ⟨hat.1, hat.2.1, hat.2.2.1, hat.2.2.2.1⟩
    · simp only [update, hvw, dite_false]
      exact h.other hw ⟨hat.1, hat.2.1⟩ hv hvw (fun j hj => by simp [hj]) (fun _ _ => rfl)
  held := by
    intro j q hq
    have hji : j ≠ i := by
      rintro rfl
      simp at hq
    obtain ⟨v, hv, hlo, hhi, hvpc⟩ := h.held j q (by simpa [hji] using hq)
    have hvw : v ≠ w := by
      rintro rfl
      simp [hpc, Ne.symm hji] at hvpc
    exact ⟨v, hv, hlo, hhi, by simpa [hvw] using hvpc⟩

end WorkersOk

end Q2pc
