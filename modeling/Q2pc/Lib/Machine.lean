import Mathlib.Data.List.Basic
import Mathlib.Data.List.Infix

-- A state machine whose nondeterminism is in its events: in a given state an
-- event leads to at most one state, and an event that cannot happen leads to none.
structure Machine (σ ε : Type*) where
  init : σ
  step : σ → ε → Option σ

namespace Machine

variable {σ τ ε φ : Type*} {M : Machine σ ε} {ok ok' : σ → ε → Prop}

-- `Run M ok es s`: from the initial state the events `es` lead to `s`, and each
-- of them meets the condition `ok` in the state it happens in.
inductive Run (M : Machine σ ε) (ok : σ → ε → Prop) : List ε → σ → Prop
  | nil : Run M ok [] M.init
  | snoc {es : List ε} {s t : σ} {e : ε} :
      Run M ok es s → ok s e → M.step s e = some t → Run M ok (es ++ [e]) t

def Reachable (M : Machine σ ε) (ok : σ → ε → Prop) (s : σ) : Prop :=
  ∃ es, Run M ok es s

-- No condition on the steps of a run.
def always : σ → ε → Prop := fun _ _ => True

instance (s : σ) (e : ε) : Decidable (always s e) := isTrue trivial

theorem Run.reachable {es : List ε} {s : σ} (h : Run M ok es s) : Reachable M ok s :=
  ⟨es, h⟩

theorem Reachable.init : Reachable M ok M.init :=
  ⟨[], .nil⟩

theorem Reachable.step {s t : σ} {e : ε} (h : Reachable M ok s) (hok : ok s e)
    (hs : M.step s e = some t) : Reachable M ok t := by
  obtain ⟨es, h⟩ := h
  exact ⟨es ++ [e], .snoc h hok hs⟩

theorem Run.mono {es : List ε} {s : σ} (hle : ∀ s e, ok s e → ok' s e) (h : Run M ok es s) :
    Run M ok' es s := by
  induction h with
  | nil => exact .nil
  | snoc _ hok hs ih => exact .snoc ih (hle _ _ hok) hs

-- The condition on the steps may be weakened with what is known of the runs so far and of
-- the step.
theorem Run.imp_run {es : List ε} {s : σ}
    (hle : ∀ es s e t, Run M ok es s → M.step s e = some t → ok s e → ok' s e)
    (h : Run M ok es s) : Run M ok' es s := by
  induction h with
  | nil => exact .nil
  | snoc h hok hs ih => exact .snoc ih (hle _ _ _ _ h hs hok) hs

theorem Run.imp_step {es : List ε} {s : σ}
    (hle : ∀ es s e t, Run M always es s → M.step s e = some t → ok s e → ok' s e)
    (h : Run M ok es s) : Run M ok' es s :=
  h.imp_run fun es s e t hrun => hle es s e t (hrun.mono fun _ _ _ => trivial)

theorem Run.imp {es : List ε} {s : σ}
    (hle : ∀ es s e, Run M always es s → ok s e → ok' s e) (h : Run M ok es s) :
    Run M ok' es s :=
  h.imp_step fun es s e _ hrun _ hok => hle es s e hrun hok

theorem Reachable.mono {s : σ} (hle : ∀ s e, ok s e → ok' s e) (h : Reachable M ok s) :
    Reachable M ok' s := by
  obtain ⟨es, h⟩ := h
  exact ⟨es, h.mono hle⟩

-- The events determine the state they lead to.
theorem Run.unique {es : List ε} {s t : σ} (hs : Run M ok es s) (ht : Run M ok' es t) :
    s = t := by
  induction hs generalizing t with
  | nil =>
      generalize hes : ([] : List ε) = es at ht
      cases ht with
      | nil => rfl
      | snoc _ _ _ => simp at hes
  | @snoc es s s' e h hok hstep ih =>
      generalize hes : es ++ [e] = es' at ht
      cases ht with
      | nil => simp at hes
      | snoc h' hok' hstep' =>
          obtain ⟨rfl, rfl⟩ := List.append_singleton_inj.mp hes
          rw [ih h', hstep'] at hstep
          exact (Option.some.inj hstep).symm

theorem Run.take {es es₁ : List ε} {s : σ} (h : Run M ok es s) (hp : es₁ <+: es) :
    ∃ s₁, Run M ok es₁ s₁ := by
  induction h with
  | nil =>
      rw [List.prefix_nil] at hp
      subst hp
      exact ⟨_, .nil⟩
  | snoc h hok hs ih =>
      rcases List.prefix_concat_iff.mp hp with rfl | hp
      · exact ⟨_, .snoc h hok hs⟩
      · exact ih hp

theorem Run.unsnoc {es : List ε} {e : ε} {t : σ} (h : Run M ok (es ++ [e]) t) :
    ∃ s, Run M ok es s ∧ ok s e ∧ M.step s e = some t := by
  generalize hes : es ++ [e] = es' at h
  cases h with
  | nil => simp at hes
  | @snoc _ s _ _ h hok hs =>
      obtain ⟨rfl, rfl⟩ := List.append_singleton_inj.mp hes
      exact ⟨s, h, hok, hs⟩

-- What holds initially and is kept by every step holds in every reachable state.
theorem Reachable.invariant {P : σ → Prop} {s : σ} (h : Reachable M ok s) (hinit : P M.init)
    (hstep : ∀ s e t, Reachable M ok s → P s → ok s e → M.step s e = some t → P t) : P s := by
  obtain ⟨es, h⟩ := h
  induction h with
  | nil => exact hinit
  | snoc h hok hs ih => exact hstep _ _ _ h.reachable ih hok hs

-- The same for properties that also speak of the events so far.
theorem Run.invariant {P : List ε → σ → Prop} {es : List ε} {s : σ} (h : Run M ok es s)
    (hinit : P [] M.init)
    (hstep : ∀ es s e t, Run M ok es s → P es s → ok s e → M.step s e = some t →
      P (es ++ [e]) t) : P es s := by
  induction h with
  | nil => exact hinit
  | snoc h hok hs ih => exact hstep _ _ _ _ h ih hok hs

section Eval

variable (M) (ok) [∀ s e, Decidable (ok s e)]

-- Runs on given events can be computed.
def evalFrom : σ → List ε → Option σ
  | s, [] => some s
  | s, e :: es => if ok s e then (M.step s e).bind fun t => evalFrom t es else none

def eval (es : List ε) : Option σ := M.evalFrom ok M.init es

variable {M} {ok}

theorem run_of_evalFrom {es es' : List ε} {s t : σ} (h : Run M ok es s)
    (ht : M.evalFrom ok s es' = some t) : Run M ok (es ++ es') t := by
  induction es' generalizing es s with
  | nil =>
      simp only [evalFrom, Option.some.injEq] at ht
      subst ht
      simpa using h
  | cons e es' ih =>
      simp only [evalFrom] at ht
      split at ht
      · rename_i hok
        obtain ⟨u, hu, ht⟩ := Option.bind_eq_some_iff.mp ht
        simpa using ih (.snoc h hok hu) ht
      · simp at ht

theorem run_of_eval {es : List ε} {t : σ} (ht : M.eval ok es = some t) : Run M ok es t := by
  simpa using run_of_evalFrom .nil ht

theorem evalFrom_append (es es' : List ε) (s : σ) :
    M.evalFrom ok s (es ++ es') = (M.evalFrom ok s es).bind fun t => M.evalFrom ok t es' := by
  induction es generalizing s with
  | nil => rfl
  | cons e es ih =>
      simp only [List.cons_append, evalFrom]
      split
      · cases M.step s e with
        | none => rfl
        | some t => exact ih t
      · rfl

theorem eval_of_run {es : List ε} {t : σ} (h : Run M ok es t) : M.eval ok es = some t := by
  induction h with
  | nil => rfl
  | snoc _ hok hs ih =>
      rw [eval] at ih
      rw [eval, evalFrom_append, ih, Option.bind_some, evalFrom, if_pos hok, hs, Option.bind_some,
        evalFrom]

-- A computed run that ends in a state satisfying a test.
theorem exists_run_of_eval (M : Machine σ ε) (ok : σ → ε → Prop) [∀ s e, Decidable (ok s e)]
    (es : List ε) (p : σ → Bool) (h : (M.eval ok es).any p = true) :
    ∃ s, Run M ok es s ∧ p s = true := by
  cases hs : M.eval ok es with
  | none => simp [hs] at h
  | some s => exact ⟨s, run_of_eval hs, by simpa [hs] using h⟩

end Eval

section Simulation

variable {A : Machine τ φ} {okA : τ → φ → Prop}

-- `abs` maps the runs of `M` to runs of `A`: each step of `M` is seen by `A` as
-- no step or as one step.
structure Refines (M : Machine σ ε) (ok : σ → ε → Prop) (A : Machine τ φ)
    (okA : τ → φ → Prop) (abs : σ → τ) : Prop where
  init : abs M.init = A.init
  step : ∀ s e t, Reachable M ok s → ok s e → M.step s e = some t →
    abs t = abs s ∨ ∃ f, okA (abs s) f ∧ A.step (abs s) f = some (abs t)

theorem Refines.reachable {abs : σ → τ} (href : Refines M ok A okA abs) {s : σ}
    (h : Reachable M ok s) : Reachable A okA (abs s) := by
  apply h.invariant (P := fun s => Reachable A okA (abs s))
  · rw [href.init]
    exact .init
  · intro s e t hr ih hok hs
    rcases href.step s e t hr hok hs with heq | ⟨f, hf, hfs⟩
    · rwa [heq]
    · exact ih.step hf hfs

end Simulation

end Machine
