import Q2pc.Lib.Machine
import Mathlib.Logic.Relation

namespace Machine

variable {σ τ ε φ : Type*} {M : Machine σ ε} {ok : σ → ε → Prop} {A : Machine τ φ}
  {okA : τ → φ → Prop} {s t u : σ} {e : ε}

-- Any number of steps, each of which meets the condition `ok`.
def Steps (M : Machine σ ε) (ok : σ → ε → Prop) : σ → σ → Prop :=
  Relation.ReflTransGen fun s t => ∃ e, ok s e ∧ M.step s e = some t

theorem Steps.refl : M.Steps ok s s :=
  Relation.ReflTransGen.refl

theorem Steps.one (hok : ok s e) (hs : M.step s e = some t) : M.Steps ok s t :=
  Relation.ReflTransGen.single ⟨e, hok, hs⟩

theorem Steps.head (hok : ok s e) (hs : M.step s e = some t) (h : M.Steps ok t u) :
    M.Steps ok s u :=
  Relation.ReflTransGen.head ⟨e, hok, hs⟩ h

theorem Reachable.steps (hr : Reachable M ok s) (h : M.Steps ok s t) : Reachable M ok t := by
  induction h with
  | refl => exact hr
  | tail _ hstep ih =>
      obtain ⟨e, hok, hs⟩ := hstep
      exact ih.step hok hs

theorem steps_of_evalFrom [∀ s e, Decidable (ok s e)] {es : List ε}
    (h : M.evalFrom ok s es = some t) : M.Steps ok s t := by
  induction es generalizing s with
  | nil =>
      simp only [evalFrom, Option.some.injEq] at h
      exact h ▸ .refl
  | cons e es ih =>
      simp only [evalFrom, Option.ite_none_right_eq_some] at h
      obtain ⟨hok, h⟩ := h
      obtain ⟨u, hs, h⟩ := Option.bind_eq_some_iff.mp h
      exact .head hok hs (ih h)

-- `A` follows the runs of `M` along the relation `Sim`: it answers each step of `M` with
-- steps of its own, or with none.
structure Simulates (M : Machine σ ε) (ok : σ → ε → Prop) (A : Machine τ φ)
    (okA : τ → φ → Prop) (Sim : σ → τ → Prop) : Prop where
  init : Sim M.init A.init
  step : ∀ s a e t, Reachable M ok s → Sim s a → ok s e → M.step s e = some t →
    ∃ b, A.Steps okA a b ∧ Sim t b

theorem Simulates.reachable {Sim : σ → τ → Prop} (hsim : Simulates M ok A okA Sim)
    (h : Reachable M ok s) : ∃ a, Reachable A okA a ∧ Sim s a := by
  apply h.invariant (P := fun s => ∃ a, Reachable A okA a ∧ Sim s a)
  · exact ⟨A.init, .init, hsim.init⟩
  · rintro s e t hr ⟨a, ha, hrel⟩ hok hs
    obtain ⟨b, hsteps, hrel'⟩ := hsim.step s a e t hr hrel hok hs
    exact ⟨b, ha.steps hsteps, hrel'⟩

end Machine
