import Mathlib.Algebra.BigOperators.Group.Finset.Basic
import Mathlib.Algebra.Order.BigOperators.Group.Finset

-- Counting by parts: the elements of a finite set are split among parts, and each part
-- counts those of its elements that have a property.
namespace Tally

variable {ι κ : Type*} {parts : Finset κ} {elems : Finset ι} {own : κ → ι → Prop}
  {P Q : ι → Prop} {v w : κ} {i : ι}

-- Each element belongs to exactly one part.
structure Splits (parts : Finset κ) (elems : Finset ι) (own : κ → ι → Prop) : Prop where
  cover : ∀ i ∈ elems, ∃ w ∈ parts, own w i
  disjoint : ∀ w ∈ parts, ∀ v ∈ parts, ∀ i ∈ elems, own w i → own v i → w = v

open Classical in
noncomputable def tally (elems : Finset ι) (own : κ → ι → Prop) (P : ι → Prop) (w : κ) : Nat :=
  (elems.filter fun i => own w i ∧ P i).card

theorem tally_congr (h : ∀ i ∈ elems, own w i → (P i ↔ Q i)) :
    tally elems own P w = tally elems own Q w := by
  classical
  unfold tally
  congr 1
  apply Finset.filter_congr
  intro i hi
  exact and_congr_right fun hown => h i hi hown

theorem tally_mono (h : ∀ i ∈ elems, own w i → P i → Q i) :
    tally elems own P w ≤ tally elems own Q w := by
  classical
  unfold tally
  apply Finset.card_le_card
  intro i hi
  simp only [Finset.mem_filter] at hi ⊢
  exact ⟨hi.1, hi.2.1, h i hi.1 hi.2.1 hi.2.2⟩

theorem tally_eq_zero (h : ∀ i ∈ elems, own w i → ¬P i) : tally elems own P w = 0 := by
  classical
  unfold tally
  rw [Finset.card_eq_zero, Finset.filter_eq_empty_iff]
  intro i hi hp
  exact h i hi hp.1 hp.2

theorem tally_succ (hi : i ∈ elems) (hown : own w i) (hnot : ¬P i)
    (h : ∀ j ∈ elems, own w j → (Q j ↔ P j ∨ j = i)) :
    tally elems own Q w = tally elems own P w + 1 := by
  classical
  unfold tally
  have hnew : elems.filter (fun j => own w j ∧ Q j) =
      insert i (elems.filter fun j => own w j ∧ P j) := by
    ext j
    simp only [Finset.mem_filter, Finset.mem_insert]
    constructor
    · rintro ⟨hj, howns, hq⟩
      rcases (h j hj howns).mp hq with hp | rfl
      · exact .inr ⟨hj, howns, hp⟩
      · exact .inl rfl
    · rintro (rfl | ⟨hj, howns, hp⟩)
      · exact ⟨hi, hown, (h j hi hown).mpr (.inr rfl)⟩
      · exact ⟨hj, howns, (h j hj howns).mpr (.inl hp)⟩
  have hmem : i ∉ elems.filter fun j => own w j ∧ P j := by
    simp [hnot]
  have hcard := Finset.card_insert_of_notMem hmem
  convert hcard using 2

-- The counts of the parts add up to the count of the whole.
theorem sum_tally (hsplit : Splits parts elems own) (P : ι → Prop) [DecidablePred P] :
    ∑ w ∈ parts, tally elems own P w = (elems.filter P).card := by
  classical
  unfold tally
  rw [← Finset.card_biUnion]
  · congr 1
    ext i
    simp only [Finset.mem_biUnion, Finset.mem_filter]
    constructor
    · rintro ⟨w, _, hi, _, hp⟩
      exact ⟨hi, hp⟩
    · rintro ⟨hi, hp⟩
      obtain ⟨w, hw, hown⟩ := hsplit.cover i hi
      exact ⟨w, hw, hi, hown, hp⟩
  · intro w hw v hv hne
    rw [Function.onFun, Finset.disjoint_left]
    intro i hi hi'
    simp only [Finset.mem_filter] at hi hi'
    exact hne (hsplit.disjoint w hw v hv i hi.1 hi.2.1 hi'.2.1)

theorem sum_tally_le (hsplit : Splits parts elems own) :
    ∑ w ∈ parts, tally elems own P w ≤ elems.card := by
  classical
  rw [sum_tally hsplit P]
  exact Finset.card_filter_le _ _

theorem sum_tally_of_forall (hsplit : Splits parts elems own) (h : ∀ i ∈ elems, P i) :
    ∑ w ∈ parts, tally elems own P w = elems.card := by
  classical
  rw [sum_tally hsplit P, Finset.filter_true_of_mem h]

theorem forall_of_le_sum_tally (hsplit : Splits parts elems own)
    (h : elems.card ≤ ∑ w ∈ parts, tally elems own P w) : ∀ i ∈ elems, P i := by
  classical
  rw [sum_tally hsplit P] at h
  intro i hi
  have heq := Finset.eq_of_subset_of_card_le (Finset.filter_subset P elems) h
  rw [← heq, Finset.mem_filter] at hi
  exact hi.2

section Fiber

variable [DecidableEq κ] {f g : ι → Option κ}

-- How many elements a partial map sends to `w`.
def fiber (elems : Finset ι) (f : ι → Option κ) (w : κ) : Nat :=
  (elems.filter fun i => f i = some w).card

theorem fiber_congr (h : ∀ i ∈ elems, f i = some w ↔ g i = some w) :
    fiber elems f w = fiber elems g w := by
  unfold fiber
  congr 1
  exact Finset.filter_congr h

theorem fiber_update [DecidableEq ι] (hi : i ∈ elems) (hnone : f i = none) :
    fiber elems (Function.update f i (some w)) w = fiber elems f w + 1 := by
  unfold fiber
  have hnew : elems.filter (fun j => Function.update f i (some w) j = some w) =
      insert i (elems.filter fun j => f j = some w) := by
    ext j
    simp only [Finset.mem_filter, Finset.mem_insert]
    by_cases hj : j = i
    · subst hj
      simp [hi]
    · simp [hj]
  have hmem : i ∉ elems.filter fun j => f j = some w := by
    simp [hnone]
  rw [hnew, Finset.card_insert_of_notMem hmem]

theorem fiber_update_ne [DecidableEq ι] (hne : v ≠ w) (hnone : f i = none) :
    fiber elems (Function.update f i (some w)) v = fiber elems f v := by
  apply fiber_congr
  intro j _
  by_cases hj : j = i
  · subst hj
    simp [hnone, Ne.symm hne]
  · simp [hj]

-- Where there are enough elements sent to the parts, none is left over.
theorem ne_none_of_le_sum_fiber (h : elems.card ≤ ∑ w ∈ parts, fiber elems f w) :
    ∀ i ∈ elems, f i ≠ none := by
  have hsum := Finset.sum_card_fiberwise_eq_card_filter elems (parts.map .some) f
  rw [Finset.sum_map] at hsum
  have hle : elems.card ≤ (elems.filter fun i => f i ∈ parts.map .some).card := by
    rw [← hsum]
    exact h
  have heq := Finset.eq_of_subset_of_card_le (Finset.filter_subset _ elems) hle
  intro i hi hnone
  rw [← heq, Finset.mem_filter, hnone] at hi
  simp at hi

end Fiber

end Tally
