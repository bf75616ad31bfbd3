import Q2pc.Lib.Simulation

namespace Machine

variable {σ τ ε φ : Type*} {M : Machine σ ε} {ok ok' fit : σ → ε → Prop} {A : Machine τ φ}
  {okA : τ → φ → Prop} {P Q R : σ → Prop} {s t u : σ}

theorem Steps.trans (hst : M.Steps ok s t) (htu : M.Steps ok t u) : M.Steps ok s u :=
  Relation.ReflTransGen.trans hst htu

-- For each step of `A` there are steps of `M`, and so there are for many.
theorem Steps.lift {Sim : σ → τ → Prop} {a b : τ}
    (h : ∀ s a e b, Sim s a → okA a e → A.step a e = some b → ∃ t, M.Steps ok s t ∧ Sim t b)
    (hsim : Sim s a) (hab : A.Steps okA a b) : ∃ t, M.Steps ok s t ∧ Sim t b := by
  induction hab with
  | refl => exact ⟨s, .refl, hsim⟩
  | tail _ hstep ih =>
      obtain ⟨e, hok, hs⟩ := hstep
      obtain ⟨t, hst, ht⟩ := ih
      obtain ⟨u, htu, hu⟩ := h t _ e _ ht hok hs
      exact ⟨u, hst.trans htu, hu⟩

-- From every state with `P` that steps with `ok` reach, some of them that have `fit` too lead
-- to one with `Q`.
def Leads (M : Machine σ ε) (ok fit : σ → ε → Prop) (P Q : σ → Prop) : Prop :=
  ∀ s, Reachable M ok s → P s → ∃ t, M.Steps (fun s e => ok s e ∧ fit s e) s t ∧ Q t

theorem Steps.mono (hle : ∀ s e, ok s e → ok' s e) (h : M.Steps ok s t) : M.Steps ok' s t := by
  induction h with
  | refl => exact .refl
  | tail _ hstep ih =>
      obtain ⟨e, hok, hs⟩ := hstep
      exact ih.tail ⟨e, hle _ e hok, hs⟩

theorem Reachable.leads (hr : Reachable M ok s) (h : M.Steps (fun s e => ok s e ∧ fit s e) s t) :
    Reachable M ok t :=
  hr.steps (h.mono fun _ _ hok => hok.1)

theorem Leads.of_imp (h : ∀ s, Reachable M ok s → P s → Q s) : M.Leads ok fit P Q :=
  fun s hr hp => ⟨s, .refl, h s hr hp⟩

theorem Leads.trans (hpq : M.Leads ok fit P Q) (hqr : M.Leads ok fit Q R) :
    M.Leads ok fit P R := by
  intro s hr hp
  obtain ⟨t, hst, hq⟩ := hpq s hr hp
  obtain ⟨u, htu, hu⟩ := hqr t (hr.leads hst) hq
  exact ⟨u, hst.trans htu, hu⟩

-- A state that is not at its goal has a step to one of a lower rank.
theorem Leads.of_rank (rank : σ → Nat)
    (h : ∀ s, Reachable M ok s → P s → Q s ∨ ∃ e t, ok s e ∧ fit s e ∧ M.step s e = some t ∧
      P t ∧ rank t < rank s) : M.Leads ok fit P Q := by
  intro s hr hp
  induction hrank : rank s using Nat.strong_induction_on generalizing s with
  | _ k ih =>
      rcases h s hr hp with hq | ⟨e, t, hok, hfit, hs, hpt, hlt⟩
      · exact ⟨s, .refl, hq⟩
      · obtain ⟨u, htu, hu⟩ := ih (rank t) (hrank ▸ hlt) t (hr.step hok hs) hpt rfl
        exact ⟨u, .head ⟨hok, hfit⟩ hs htu, hu⟩

-- A rank that every step lowers bounds the length of a run.
theorem length_le_rank [∀ s e, Decidable (ok s e)] (rank : σ → Nat)
    (h : ∀ s e t, P s → ok s e → M.step s e = some t → P t ∧ rank t < rank s) {es : List ε}
    (hp : P s) (hs : M.evalFrom ok s es = some t) : P t ∧ es.length + rank t ≤ rank s := by
  induction es generalizing s with
  | nil =>
      obtain rfl := Option.some.inj hs
      exact ⟨hp, by simp⟩
  | cons e es ih =>
      simp only [evalFrom, Option.ite_none_right_eq_some] at hs
      obtain ⟨hok, hs⟩ := hs
      obtain ⟨u, hu, hs⟩ := Option.bind_eq_some_iff.mp hs
      obtain ⟨hpu, hlt⟩ := h s e u hp hok hu
      obtain ⟨hpt, hle⟩ := ih hpu hs
      refine ⟨hpt, ?_⟩
      rw [List.length_cons]
      omega

-- One stage after the other.
theorem Leads.iterate {P : Nat → σ → Prop} {k n : Nat}
    (h : ∀ j, k ≤ j → j < n → M.Leads ok fit (P j) (P (j + 1))) (hkn : k ≤ n) :
    M.Leads ok fit (P k) (P n) := by
  induction n, hkn using Nat.le_induction with
  | base => exact .of_imp fun _ _ hp => hp
  | succ n hkn ih =>
      exact (ih fun j hkj hjn => h j hkj (by omega)).trans (h n hkn (by omega))

end Machine
