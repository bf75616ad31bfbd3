import Mathlib.Data.List.Infix

-- A sequence cut into blocks of a fixed length. What is left at its end, shorter than
-- a block, belongs to none.
section Blocks

variable {α : Type*} {n : Nat} {b l : List α} {bs : List (List α)}

def blocks (n : Nat) (l : List α) : List (List α) :=
  (List.range (l.length / n)).map fun k => (l.drop (k * n)).take n

@[simp] theorem length_blocks (n : Nat) (l : List α) : (blocks n l).length = l.length / n := by
  simp [blocks]

theorem blocks_of_length_lt (h : l.length < n) : blocks n l = [] := by
  rw [← List.length_eq_zero_iff, length_blocks, Nat.div_eq_of_lt h]

theorem blocks_append_block (hn : 0 < n) (hb : b.length = n) :
    blocks n (b ++ l) = b :: blocks n l := by
  have hlen : (b ++ l).length / n = l.length / n + 1 := by
    rw [List.length_append, hb, Nat.add_comm, Nat.add_div_right _ hn]
  rw [blocks, hlen, List.range_succ_eq_map, List.map_cons, List.map_map]
  congr 1
  · rw [Nat.zero_mul, List.drop_zero, List.take_left' hb]
  · apply List.map_congr_left
    intro k _
    have hk : (k + 1) * n = b.length + k * n := by rw [hb, Nat.succ_mul, Nat.add_comm]
    simp only [Function.comp_apply, Nat.succ_eq_add_one, hk, ← List.drop_drop, List.drop_left]

theorem blocks_flatten_append (hn : 0 < n) (hbs : ∀ b ∈ bs, b.length = n) :
    blocks n (bs.flatten ++ l) = bs ++ blocks n l := by
  induction bs with
  | nil => rfl
  | cons b bs ih =>
      rw [List.flatten_cons, List.append_assoc, blocks_append_block hn (hbs b (by simp)),
        ih fun b' hb' => hbs b' (by simp [hb']), List.cons_append]

theorem blocks_flatten (hn : 0 < n) (hbs : ∀ b ∈ bs, b.length = n) :
    blocks n bs.flatten = bs := by
  have h := blocks_flatten_append (l := []) hn hbs
  rwa [List.append_nil, blocks_of_length_lt (l := []) (by simpa using hn), List.append_nil] at h

end Blocks
