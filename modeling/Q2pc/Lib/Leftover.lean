import Q2pc.Lib.Memory

-- What is read from a buffer that is used again: bytes are written to its start, and
-- behind them it holds what was there before.
namespace Memory

variable {α β : Type*} {m : Memory} {bs : List UInt8} {f : Memory → α} {len i : Nat}

-- With `bs` in the buffer, `f` does not depend on what was there before.
def OwnBytes (bs : List UInt8) (f : Memory → α) : Prop :=
  ∀ m m' : Memory, f (m.write 0 bs) = f (m'.write 0 bs)

-- `f` looks at the first `len` bytes only.
def ReadsWithin (len : Nat) (f : Memory → α) : Prop :=
  ∀ m m' : Memory, (∀ i < len, m i = m' i) → f m = f m'

theorem ReadsWithin.mono {len' : Nat} (h : ReadsWithin len f) (hle : len ≤ len') :
    ReadsWithin len' f := by
  intro m m' hsame
  exact h m m' fun i hi => hsame i (by omega)

theorem ReadsWithin.comp (h : ReadsWithin len f) (g : α → β) :
    ReadsWithin len fun m => g (f m) := by
  intro m m' hsame
  exact congrArg g (h m m' hsame)

theorem ReadsWithin.ownBytes (h : ReadsWithin len f) (hlen : len ≤ bs.length) :
    OwnBytes bs f := by
  intro m m'
  apply h
  intro i hi
  rw [write_apply_of_lt m (by omega), write_apply_of_lt m' (by omega)]

theorem readsWithin_int (off len : Nat) : ReadsWithin (off + len) fun m => m.int off len := by
  intro m m' hsame
  exact int_eq_iff_apply.mpr fun i hi => hsame (off + i) (by omega)

-- A byte behind those that are written may have been anything.
theorem exists_leftover (h : bs.length ≤ i) (m : Memory) :
    ∃ m' : Memory, m'.write 0 bs i ≠ m.write 0 bs i ∧
      ∀ j : Nat, j ≠ i → m'.write 0 bs j = m.write 0 bs j := by
  have hat : m.write i [m i + 1] i = m i + 1 := by simp [write]
  have hother : ∀ j : Nat, j ≠ i → m.write i [m i + 1] j = m j := by
    intro j hj
    unfold write
    split
    · rw [List.getElem?_eq_none (by rw [List.length_singleton]; omega), Option.getD_none]
    · rfl
  refine ⟨m.write i [m i + 1], ?_, fun j hj => ?_⟩
  · rw [write_apply_of_le _ h, write_apply_of_le _ h, hat]
    exact fun heq => absurd heq (by simp)
  · by_cases hlt : j < bs.length
    · rw [write_apply_of_lt _ hlt, write_apply_of_lt _ hlt]
    · rw [write_apply_of_le _ (by omega), write_apply_of_le _ (by omega), hother j hj]

-- An integer that is not wholly written has another value with other leftover bytes, and
-- nothing in front of its last byte changes.
theorem exists_other_int {off : Nat} (hlen : bs.length < off + (len + 1)) (m : Memory) :
    ∃ m' : Memory, (m'.write 0 bs).int off (len + 1) ≠ (m.write 0 bs).int off (len + 1) ∧
      ∀ j < off + len, m'.write 0 bs j = m.write 0 bs j := by
  obtain ⟨m', hother, hsame⟩ := exists_leftover (show bs.length ≤ off + len by omega) m
  refine ⟨m', fun heq => hother (int_eq_iff_apply.mp heq len (Nat.lt_succ_self len)), ?_⟩
  intro j hj
  exact hsame j (by omega)

-- The bytes written and those of the integer itself make it up, if any others behind them do.
theorem exists_int_eq_iff {k : Int} : (∃ m : Memory, (m.write 0 bs).int 0 len = k) ↔
    ((ofList (intBytes len k)).write 0 bs).int 0 len = k := by
  constructor
  · rintro ⟨m, rfl⟩
    rw [int_eq_iff_apply]
    intro i hi
    rw [Nat.zero_add]
    by_cases hlt : i < bs.length
    · rw [write_apply_of_lt _ hlt, write_apply_of_lt _ hlt]
    · have hlen : i < ((m.write 0 bs).bytes 0 len).length := by simpa using hi
      rw [write_apply_of_le _ (by omega), intBytes_int, ofList,
        List.getElem?_eq_getElem hlen, Option.getD_some, getElem_bytes, Nat.zero_add]
  · exact fun h => ⟨_, h⟩

-- The bytes of the largest integer.
def maxBytes : Nat → List UInt8
  | 0 => []
  | len + 1 => List.replicate len 255 ++ [127]

private theorem ofBytes_bytes_succ (m : Memory) (len : Nat) :
    ofBytes (m.bytes 0 (len + 1)) = ofBytes (m.bytes 0 len) + 256 ^ len * (m len).toNat := by
  rw [bytes_add, ofBytes_append, length_bytes, Nat.zero_add]
  simp [bytes, ofBytes]

-- The last byte of the largest integer is 127: with a larger one the integer is negative.
private theorem bmod_le_bmod {n x y b : Nat} (hle : x ≤ y) (hlt : y < n) (hb : b < 256) :
    Int.bmod (x + n * b : Nat) (256 * n) ≤ Int.bmod (y + n * 127 : Nat) (256 * n) := by
  have hmax : y + n * 127 < 256 * n := by omega
  have hmul : n * b ≤ n * 255 := Nat.mul_le_mul_left n (by omega)
  have hsame : x + n * b < 256 * n := by omega
  rw [Int.bmod_def, Int.bmod_def, ← Int.natCast_emod, ← Int.natCast_emod,
    Nat.mod_eq_of_lt hmax, Nat.mod_eq_of_lt hsame]
  by_cases hsmall : b ≤ 127
  · have hmul := Nat.mul_le_mul_left n hsmall
    split <;> split <;> omega
  · have hmul := Nat.mul_le_mul_left n (show 128 ≤ b by omega)
    split <;> split <;> omega

private theorem int_le_int_succ (m : Memory) (bs : List UInt8) (len : Nat) :
    (m.write 0 bs).int 0 (len + 1) ≤
      ((ofList (maxBytes (len + 1))).write 0 bs).int 0 (len + 1) := by
  by_cases hlong : len < bs.length
  · refine le_of_eq (int_eq_iff_apply.mpr fun i hi => ?_)
    rw [Nat.zero_add, write_apply_of_lt _ (by omega), write_apply_of_lt _ (by omega)]
  · generalize hmax : (ofList (maxBytes (len + 1))).write 0 bs = max
    have hle : ∀ i < len, m.write 0 bs (0 + i) ≤ max (0 + i) := by
      intro i hi
      rw [Nat.zero_add, ← hmax]
      by_cases hlt : i < bs.length
      · rw [write_apply_of_lt _ hlt, write_apply_of_lt _ hlt]
        exact UInt8.le_refl _
      · rw [write_apply_of_le _ (by omega), write_apply_of_le _ (by omega), ofList, maxBytes,
          List.getElem?_append_left (by simpa using hi), List.getElem?_replicate, if_pos hi,
          Option.getD_some, UInt8.le_iff_toNat_le]
        have hbyte := (m i).toNat_lt
        simp only [UInt8.reduceToNat]
        omega
    have htop : max len = 127 := by
      rw [← hmax, write_apply_of_le _ (by omega), ofList, maxBytes,
        List.getElem?_append_right (by simp), List.length_replicate, Nat.sub_self]
      rfl
    have hlow : ofBytes ((m.write 0 bs).bytes 0 len) ≤ ofBytes (max.bytes 0 len) :=
      ofBytes_bytes_le hle
    have hbound := ofBytes_lt (max.bytes 0 len)
    have hbyte := (m.write 0 bs len).toNat_lt
    rw [length_bytes] at hbound
    rw [int, int, ofBytes_bytes_succ, ofBytes_bytes_succ, htop, Nat.pow_succ, Nat.mul_comm _ 256]
    exact bmod_le_bmod hlow hbound hbyte

-- With these behind the bytes written the integer is as large as it can be.
theorem int_le_int_maxBytes (m : Memory) (bs : List UInt8) (len : Nat) :
    (m.write 0 bs).int 0 len ≤ ((ofList (maxBytes len)).write 0 bs).int 0 len := by
  cases len with
  | zero => exact le_refl 0
  | succ len => exact int_le_int_succ m bs len

end Memory
