import Mathlib.Data.List.Basic
import Mathlib.Order.Lattice

-- Half-open intervals that follow each other without a gap.
namespace Intervals

variable {α : Type*} {a b c x : α} {r : α × α} {rs : List (α × α)}

-- `Tiles a rs b`: the intervals `rs` lead from `a` to `b`.
inductive Tiles [LE α] : α → List (α × α) → α → Prop
  | nil {a : α} : Tiles a [] a
  | cons {a b c : α} {rs : List (α × α)} : a ≤ b → Tiles b rs c → Tiles a ((a, b) :: rs) c

def Holds [LE α] [LT α] (r : α × α) (x : α) : Prop := r.1 ≤ x ∧ x < r.2

section Preorder

variable [Preorder α]

theorem Tiles.le (h : Tiles a rs b) : a ≤ b := by
  induction h with
  | nil => exact le_refl _
  | cons hle _ ih => exact hle.trans ih

theorem Tiles.bounds (h : Tiles a rs b) (hr : r ∈ rs) : a ≤ r.1 ∧ r.1 ≤ r.2 ∧ r.2 ≤ b := by
  induction h with
  | nil => exact absurd hr List.not_mem_nil
  | cons hle hrest ih =>
      rcases List.mem_cons.mp hr with rfl | hr
      · exact ⟨le_refl _, hle, hrest.le⟩
      · obtain ⟨hlo, hmid, hhi⟩ := ih hr
        exact ⟨hle.trans hlo, hmid, hhi⟩

end Preorder

section LinearOrder

variable [LinearOrder α]

-- Each point between the ends lies in one of the intervals,
theorem Tiles.cover (h : Tiles a rs b) (hlo : a ≤ x) (hhi : x < b) :
    ∃ (w : Nat) (r : α × α), rs[w]? = some r ∧ Holds r x := by
  induction h with
  | nil => exact absurd (hlo.trans_lt hhi) (lt_irrefl _)
  | @cons a m b rs hle _ ih =>
      by_cases hx : x < m
      · exact ⟨0, (a, m), rfl, hlo, hx⟩
      · obtain ⟨w, r, hr, hholds⟩ := ih (not_lt.mp hx) hhi
        exact ⟨w + 1, r, hr, hholds⟩

-- and in no second one.
theorem Tiles.disjoint (h : Tiles a rs b) {w v : Nat} {r q : α × α} (hw : rs[w]? = some r)
    (hv : rs[v]? = some q) (hr : Holds r x) (hq : Holds q x) : w = v := by
  induction h generalizing w v with
  | nil => simp at hw
  | @cons a m b rs hle hrest ih =>
      -- what lies in the first interval is below all others
      have hfirst : ∀ (p : α × α) (u : Nat), rs[u]? = some p → Holds (a, m) x → ¬ Holds p x := by
        intro p u hu hx hp
        have hbounds := hrest.bounds (List.mem_of_getElem? hu)
        exact absurd (hx.2.trans_le (hbounds.1.trans hp.1)) (lt_irrefl _)
      cases w with
      | zero =>
          cases v with
          | zero => rfl
          | succ v =>
              obtain rfl : (a, m) = r := Option.some.inj hw
              exact absurd hq (hfirst q v hv hr)
      | succ w =>
          cases v with
          | zero =>
              obtain rfl : (a, m) = q := Option.some.inj hv
              exact absurd hr (hfirst r w hw hq)
          | succ v => rw [ih hw hv]

end LinearOrder

end Intervals
