import Q2pc.Lib.Machine

-- A machine with a history variable, which every step updates and no step reads.
namespace Machine

variable {σ ε η : Type*} {M : Machine σ ε} {h₀ h : η} {record : η → σ → ε → η}
  {ok : σ → ε → Prop} {es : List ε} {s : σ}

def withHistory (M : Machine σ ε) (h₀ : η) (record : η → σ → ε → η) : Machine (σ × η) ε where
  init := (M.init, h₀)
  step := fun s e => (M.step s.1 e).map fun t => (t, record s.2 s.1 e)

theorem step_withHistory {t : σ × η} {e : ε} :
    (M.withHistory h₀ record).step (s, h) e = some t ↔
      M.step s e = some t.1 ∧ t.2 = record h s e := by
  simp only [withHistory, Option.map_eq_some_iff]
  constructor
  · rintro ⟨u, hu, rfl⟩
    exact ⟨hu, rfl⟩
  · rintro ⟨hu, hrecord⟩
    exact ⟨t.1, hu, Prod.ext rfl hrecord.symm⟩

-- The history does not restrict the runs: without it they are those of the machine,
theorem Run.forget {sh : σ × η} (hrun : (M.withHistory h₀ record).Run (fun s e => ok s.1 e) es sh) :
    M.Run ok es sh.1 := by
  induction hrun with
  | nil => exact .nil
  | snoc _ hok hs ih => exact .snoc ih hok (step_withHistory.mp hs).1

-- and each run of the machine has one.
theorem Run.exists_history (h₀ : η) (record : η → σ → ε → η) (hrun : M.Run ok es s) :
    ∃ h, (M.withHistory h₀ record).Run (fun s e => ok s.1 e) es (s, h) := by
  induction hrun with
  | nil => exact ⟨h₀, .nil⟩
  | snoc _ hok hs ih =>
      obtain ⟨h, ih⟩ := ih
      exact ⟨_, .snoc ih hok (step_withHistory.mpr ⟨hs, rfl⟩)⟩

theorem reachable_withHistory : M.Reachable ok s ↔
    ∃ h, (M.withHistory h₀ record).Reachable (fun s e => ok s.1 e) (s, h) := by
  constructor
  · rintro ⟨es, hrun⟩
    obtain ⟨h, hhistory⟩ := hrun.exists_history h₀ record
    exact ⟨h, hhistory.reachable⟩
  · rintro ⟨h, es, hhistory⟩
    exact hhistory.forget.reachable

theorem evalFrom_withHistory [∀ s e, Decidable (ok s e)]
    (hes : ∀ e ∈ es, ∀ h s, record h s e = h) :
    (M.withHistory h₀ record).evalFrom (fun s e => ok s.1 e) (s, h) es =
      (M.evalFrom ok s es).map fun t => (t, h) := by
  induction es generalizing s with
  | nil => rfl
  | cons e es ih =>
      have hstep : (M.withHistory h₀ record).step (s, h) e = (M.step s e).map fun t => (t, h) := by
        simp only [withHistory, hes e List.mem_cons_self]
      simp only [evalFrom, hstep]
      split
      · cases M.step s e with
        | none => rfl
        | some t => exact ih fun e he => hes e (List.mem_cons_of_mem _ he)
      · rfl

end Machine
