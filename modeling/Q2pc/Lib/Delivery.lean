import Mathlib.Data.List.Forall2
import Mathlib.Data.List.Basic
import Mathlib.Data.List.Infix

-- Delivery exactly once and in order, up to a relation between what was written and
-- what arrives.
variable {α β : Type*} {R S : α → β → Prop} {wrote wrote' : List α} {got got' : List β}

def Delivers (R : α → β → Prop) (wrote : List α) (got : List β) : Prop :=
  ∃ l, l <+: wrote ∧ List.Forall₂ R l got

theorem getElem?_snoc_cases {l : List α} {a b : α} {k : Nat} (h : (l ++ [a])[k]? = some b) :
    l[k]? = some b ∨ k = l.length ∧ b = a := by
  rcases Nat.lt_or_ge k l.length with hk | hk
  · rw [List.getElem?_append_left hk] at h
    exact .inl h
  · rw [List.getElem?_append_right hk] at h
    obtain ⟨hlt, rfl⟩ := List.getElem?_eq_some_iff.mp h
    rw [List.length_singleton] at hlt
    exact .inr ⟨by omega, List.getElem_singleton hlt⟩

namespace Delivers

theorem nil : Delivers R wrote [] := ⟨[], List.nil_prefix, .nil⟩

theorem imp (hRS : ∀ a b, R a b → S a b) (h : Delivers R wrote got) : Delivers S wrote got := by
  obtain ⟨l, hl, hR⟩ := h
  exact ⟨l, hl, hR.imp hRS⟩

theorem mono (hw : wrote <+: wrote') (h : Delivers R wrote got) : Delivers R wrote' got := by
  obtain ⟨l, hl, hR⟩ := h
  exact ⟨l, hl.trans hw, hR⟩

theorem length_le (h : Delivers R wrote got) : got.length ≤ wrote.length := by
  obtain ⟨l, hl, hR⟩ := h
  exact hR.length_eq ▸ hl.length_le

theorem of_prefix (hp : got' <+: got) (h : Delivers R wrote got) : Delivers R wrote got' := by
  obtain ⟨l, hl, hR⟩ := h
  obtain ⟨rest, rfl⟩ := hp
  exact ⟨l.take got'.length, (List.take_prefix _ _).trans hl, List.forall₂_take_append l _ _ hR⟩

-- The next element to arrive is the next one written.
theorem next {a : α} {b : β} (h : Delivers R wrote got) (ha : wrote[got.length]? = some a)
    (hab : R a b) : Delivers R wrote (got ++ [b]) := by
  obtain ⟨l, hl, hR⟩ := h
  refine ⟨l ++ [a], ?_, List.rel_append hR (.cons hab .nil)⟩
  obtain ⟨rest, rfl⟩ := hl
  rw [← hR.length_eq, List.getElem?_append_right (Nat.le_refl _), Nat.sub_self] at ha
  cases rest with
  | nil => simp at ha
  | cons c rest =>
      obtain rfl : c = a := by simpa using ha
      exact ⟨rest, by simp⟩

theorem get {k : Nat} {b : β} (h : Delivers R wrote got) (hb : got[k]? = some b) :
    ∃ a, wrote[k]? = some a ∧ R a b := by
  obtain ⟨l, hl, hR⟩ := h
  obtain ⟨hk, rfl⟩ := List.getElem?_eq_some_iff.mp hb
  have hkl : k < l.length := hR.length_eq ▸ hk
  obtain ⟨rest, rfl⟩ := hl
  exact ⟨l[k], by rw [List.getElem?_append_left hkl, List.getElem?_eq_getElem hkl], hR.get hkl hk⟩

end Delivers
