import Q2pc.Lib.Machine
import Mathlib.Data.Set.Basic
import Mathlib.Logic.Function.Basic

-- Atomic commitment in rounds, as a specification: in each round every
-- participant votes at most once, at most one decision is taken, commit only on
-- a yes vote of all, and a participant learns no other outcome than the decision.
namespace AtomicCommit

open Function (update)

variable {ι : Type*}

structure State (ι : Type*) where
  vote : Nat → ι → Option Bool
  decision : Nat → Option Bool
  outcome : Nat → ι → Option Bool

inductive Event (ι : Type*)
  | vote (r : Nat) (i : ι) (yes : Bool)
  | decide (r : Nat) (commit : Bool)
  | learn (r : Nat) (i : ι)

def init : State ι where
  vote := fun _ _ => none
  decision := fun _ => none
  outcome := fun _ _ => none

variable [DecidableEq ι]

open Classical in
noncomputable def step (participants : Set ι) (s : State ι) : Event ι → Option (State ι)
  | .vote r i yes =>
      if s.vote r i = none then
        some { s with vote := update s.vote r (update (s.vote r) i (some yes)) }
      else none
  | .decide r commit =>
      if s.decision r = none ∧
          (commit = true → ∀ i ∈ participants, s.vote r i = some true) then
        some { s with decision := update s.decision r (some commit) }
      else none
  | .learn r i =>
      (s.decision r).map fun commit =>
        { s with outcome := update s.outcome r (update (s.outcome r) i (some commit)) }

noncomputable def machine (participants : Set ι) : Machine (State ι) (Event ι) where
  init := init
  step := step participants

variable {participants : Set ι} {s t : State ι}

-- Votes and decisions are final.
theorem vote_stable {e : Event ι} (h : step participants s e = some t) {r : Nat} {i : ι}
    {yes : Bool} (hv : s.vote r i = some yes) : t.vote r i = some yes := by
  cases e with
  | vote r' i' yes' =>
      simp only [step, Option.ite_none_right_eq_some, Option.some.injEq] at h
      obtain ⟨hnone, rfl⟩ := h
      by_cases hr : r = r'
      · subst hr
        by_cases hi : i = i'
        · subst hi
          simp [hnone] at hv
        · simpa [hi] using hv
      · simpa [hr] using hv
  | decide r' commit =>
      simp only [step, Option.ite_none_right_eq_some, Option.some.injEq] at h
      obtain ⟨_, rfl⟩ := h
      exact hv
  | learn r' i' =>
      obtain ⟨commit, _, rfl⟩ := Option.map_eq_some_iff.mp h
      exact hv

-- A commit decision has the yes vote of every participant.
theorem commit_valid (h : (machine participants).Reachable Machine.always s) {r : Nat}
    (hd : s.decision r = some true) : ∀ i ∈ participants, s.vote r i = some true := by
  revert r
  apply h.invariant (P := fun s => ∀ {r}, s.decision r = some true →
    ∀ i ∈ participants, s.vote r i = some true)
  · intro r hd
    simp [machine, init] at hd
  · intro s e t _ ih _ hs r hd i hi
    change step participants s e = some t at hs
    cases e with
    | vote r' i' yes =>
        have hd' : s.decision r = some true := by
          simp only [step, Option.ite_none_right_eq_some, Option.some.injEq] at hs
          obtain ⟨_, rfl⟩ := hs
          exact hd
        exact vote_stable hs (ih hd' i hi)
    | decide r' commit =>
        simp only [step, Option.ite_none_right_eq_some, Option.some.injEq] at hs
        obtain ⟨⟨_, hall⟩, rfl⟩ := hs
        by_cases hr : r = r'
        · subst hr
          simp only [Function.update_self, Option.some.injEq] at hd
          exact hall hd i hi
        · exact ih (by simpa [hr] using hd) i hi
    | learn r' i' =>
        obtain ⟨commit, _, rfl⟩ := Option.map_eq_some_iff.mp hs
        exact ih hd i hi

-- A learned outcome is the decision of its round.
theorem outcome_eq_decision (h : (machine participants).Reachable Machine.always s) {r : Nat}
    {i : ι} {commit : Bool} (ho : s.outcome r i = some commit) :
    s.decision r = some commit := by
  revert r i commit
  apply h.invariant (P := fun s => ∀ {r i commit}, s.outcome r i = some commit →
    s.decision r = some commit)
  · intro r i commit ho
    simp [machine, init] at ho
  · intro s e t _ ih _ hs r i commit ho
    cases e with
    | vote r' i' yes =>
        simp only [machine, step, Option.ite_none_right_eq_some, Option.some.injEq] at hs
        obtain ⟨_, rfl⟩ := hs
        exact ih ho
    | decide r' commit' =>
        simp only [machine, step, Option.ite_none_right_eq_some, Option.some.injEq] at hs
        obtain ⟨⟨hnone, _⟩, rfl⟩ := hs
        have hd := ih ho
        by_cases hr : r = r'
        · subst hr
          simp [hnone] at hd
        · simpa [hr] using hd
    | learn r' i' =>
        obtain ⟨d, hd, rfl⟩ := Option.map_eq_some_iff.mp hs
        by_cases hr : r = r'
        · subst hr
          by_cases hi : i = i'
          · subst hi
            simp only [Function.update_self, Option.some.injEq] at ho
            subst ho
            exact hd
          · exact ih (i := i) (by simpa [hi] using ho)
        · exact ih (i := i) (by simpa [hr] using ho)

-- No two participants learn different outcomes of a round.
theorem agreement (h : (machine participants).Reachable Machine.always s) {r : Nat}
    {i j : ι} {a b : Bool} (hi : s.outcome r i = some a) (hj : s.outcome r j = some b) :
    a = b := by
  have ha := outcome_eq_decision h hi
  have hb := outcome_eq_decision h hj
  rw [ha] at hb
  exact Option.some.inj hb

end AtomicCommit
