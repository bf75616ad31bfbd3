import Mathlib.Data.Int.ModEq
import Mathlib.Data.List.Basic
import Mathlib.Tactic.Ring

-- The contents of a buffer: a byte at each offset.
def Memory := Nat → UInt8

namespace Memory

variable {m m' : Memory} {off off' len len' : Nat} {bs : List UInt8}

-- The `len` bytes from `off` on.
def bytes (m : Memory) : Nat → Nat → List UInt8
  | _, 0 => []
  | off, len + 1 => m off :: m.bytes (off + 1) len

-- memcpy of `bs` to `off`
def write (m : Memory) (off : Nat) (bs : List UInt8) : Memory :=
  fun i => if off ≤ i then (bs[i - off]?).getD (m i) else m i

-- memmove inside the buffer
def move (m : Memory) (dst src len : Nat) : Memory := m.write dst (m.bytes src len)

@[simp] theorem bytes_zero (m : Memory) (off : Nat) : m.bytes off 0 = [] := rfl

@[simp] theorem length_bytes (m : Memory) (off len : Nat) : (m.bytes off len).length = len := by
  induction len generalizing off with
  | zero => rfl
  | succ len ih => simp only [bytes, List.length_cons, ih]

theorem bytes_add (m : Memory) (off len len' : Nat) :
    m.bytes off (len + len') = m.bytes off len ++ m.bytes (off + len) len' := by
  induction len generalizing off with
  | zero => simp
  | succ len ih =>
      rw [Nat.succ_add, bytes, bytes, ih, List.cons_append]
      congr 3
      omega

theorem take_bytes (m : Memory) (off : Nat) (h : len ≤ len') :
    (m.bytes off len').take len = m.bytes off len := by
  obtain ⟨rest, rfl⟩ := Nat.exists_eq_add_of_le h
  rw [bytes_add, List.take_left' (length_bytes m off len)]

theorem drop_bytes (m : Memory) (off : Nat) (h : len ≤ len') :
    (m.bytes off len').drop len = m.bytes (off + len) (len' - len) := by
  obtain ⟨rest, rfl⟩ := Nat.exists_eq_add_of_le h
  rw [bytes_add, List.drop_left' (length_bytes m off len), Nat.add_sub_cancel_left]

theorem bytes_congr (h : ∀ i, off ≤ i → i < off + len → m i = m' i) :
    m.bytes off len = m'.bytes off len := by
  induction len generalizing off with
  | zero => rfl
  | succ len ih =>
      rw [bytes, bytes, h off (Nat.le_refl off) (by omega)]
      rw [ih fun i hlo hhi => h i (by omega) (by omega)]

theorem bytes_write_before (bs : List UInt8) (h : off' + len ≤ off) :
    (m.write off bs).bytes off' len = m.bytes off' len := by
  apply bytes_congr
  intro i _ hi
  exact if_neg (by omega)

theorem bytes_write (m : Memory) (off : Nat) (bs : List UInt8) :
    (m.write off bs).bytes off bs.length = bs := by
  induction bs generalizing off m with
  | nil => rfl
  | cons b bs ih =>
      have hhead : m.write off (b :: bs) off = b := by simp [write]
      have htail : (m.write off (b :: bs)).bytes (off + 1) bs.length =
          (m.write (off + 1) bs).bytes (off + 1) bs.length := by
        apply bytes_congr
        intro i hlo _
        have hi : i - off = (i - (off + 1)) + 1 := by omega
        simp only [write, if_pos (show off ≤ i by omega), if_pos hlo, hi,
          List.getElem?_cons_succ]
      rw [List.length_cons, bytes, hhead, htail, ih]

theorem bytes_write_append (m : Memory) (off len : Nat) (bs : List UInt8) :
    (m.write (off + len) bs).bytes off (len + bs.length) = m.bytes off len ++ bs := by
  rw [bytes_add, bytes_write_before bs (Nat.le_refl _), bytes_write]

theorem bytes_move (m : Memory) (dst src len : Nat) :
    (m.move dst src len).bytes dst len = m.bytes src len := by
  have h := bytes_write m dst (m.bytes src len)
  rwa [length_bytes] at h

-- Integers in a buffer: `len` bytes in two's complement, the least significant first.
def ofBytes : List UInt8 → Nat
  | [] => 0
  | b :: bs => b.toNat + 256 * ofBytes bs

def toBytes : Nat → Nat → List UInt8
  | 0, _ => []
  | len + 1, n => UInt8.ofNat n :: toBytes len (n / 256)

def int (m : Memory) (off len : Nat) : Int := Int.bmod (ofBytes (m.bytes off len)) (256 ^ len)

def writeInt (m : Memory) (off len : Nat) (i : Int) : Memory :=
  m.write off (toBytes len (i % 256 ^ len).toNat)

theorem bytes_eq_iff :
    m.bytes off len = m'.bytes off' len ↔ ∀ i < len, m (off + i) = m' (off' + i) := by
  induction len generalizing off off' with
  | zero => simp
  | succ len ih =>
      rw [bytes, bytes, List.cons.injEq, ih]
      constructor
      · rintro ⟨hhead, htail⟩ i hi
        cases i with
        | zero => exact hhead
        | succ i =>
            have h := htail i (by omega)
            rwa [Nat.add_assoc, Nat.add_assoc, Nat.add_comm 1 i] at h
      · intro h
        refine ⟨h 0 (by omega), fun i hi => ?_⟩
        rw [Nat.add_assoc, Nat.add_assoc, Nat.add_comm 1 i]
        exact h (i + 1) (by omega)

theorem write_apply_of_lt (m : Memory) {i : Nat} (h : i < bs.length) : m.write 0 bs i = bs[i] := by
  simp [write, List.getElem?_eq_getElem h]

theorem write_apply_of_le (m : Memory) {i : Nat} (h : bs.length ≤ i) : m.write 0 bs i = m i := by
  simp [write, List.getElem?_eq_none h]

theorem getElem_bytes (m : Memory) (off : Nat) {i : Nat} (h : i < (m.bytes off len).length) :
    (m.bytes off len)[i] = m (off + i) := by
  induction len generalizing off i with
  | zero => simp at h
  | succ len ih =>
      cases i with
      | zero => rfl
      | succ i =>
          simp only [bytes, List.getElem_cons_succ]
          rw [ih, Nat.add_assoc, Nat.add_comm 1 i]

theorem move_zero_apply (m : Memory) (src len i : Nat) :
    m.move 0 src len i = if i < len then m (src + i) else m i := by
  by_cases hi : i < len
  · have hlt : i < (m.bytes src len).length := by simpa using hi
    rw [if_pos hi, move, write_apply_of_lt m hlt, getElem_bytes]
  · rw [if_neg hi]
    exact write_apply_of_le m (by simpa using hi)

theorem ofBytes_lt (bs : List UInt8) : ofBytes bs < 256 ^ bs.length := by
  induction bs with
  | nil => exact Nat.one_pos
  | cons b bs ih =>
      have hb := b.toNat_lt
      rw [ofBytes, List.length_cons, Nat.pow_succ]
      omega

theorem ofBytes_append (bs bs' : List UInt8) :
    ofBytes (bs ++ bs') = ofBytes bs + 256 ^ bs.length * ofBytes bs' := by
  induction bs with
  | nil => simp [ofBytes]
  | cons b bs ih =>
      rw [List.cons_append, ofBytes, ofBytes, ih, List.length_cons, Nat.pow_succ]
      ring

theorem ofBytes_bytes_le (h : ∀ i < len, m (off + i) ≤ m' (off' + i)) :
    ofBytes (m.bytes off len) ≤ ofBytes (m'.bytes off' len) := by
  induction len generalizing off off' with
  | zero => exact Nat.le_refl _
  | succ len ih =>
      have hhead : (m off).toNat ≤ (m' off').toNat := UInt8.le_iff_toNat_le.mp (h 0 (by omega))
      have hrest : ∀ i < len, m (off + 1 + i) ≤ m' (off' + 1 + i) := by
        intro i hi
        have hle := h (i + 1) (by omega)
        rwa [Nat.add_comm i 1, ← Nat.add_assoc, ← Nat.add_assoc] at hle
      have htail := ih hrest
      rw [bytes, bytes, ofBytes, ofBytes]
      omega

theorem ofBytes_inj {bs' : List UInt8} (hlen : bs.length = bs'.length)
    (h : ofBytes bs = ofBytes bs') : bs = bs' := by
  induction bs generalizing bs' with
  | nil => exact (List.length_eq_zero_iff.mp hlen.symm).symm
  | cons b bs ih =>
      cases bs' with
      | nil => simp at hlen
      | cons b' bs' =>
          have hb := b.toNat_lt
          have hb' := b'.toNat_lt
          rw [ofBytes, ofBytes] at h
          have hhead : b = b' := UInt8.toNat_inj.mp (by omega)
          rw [hhead, ih (by simpa using hlen) (by omega)]

theorem int_eq_iff : m.int off len = m'.int off' len ↔ m.bytes off len = m'.bytes off' len := by
  constructor
  · intro h
    have hmod : ∀ (m : Memory) (off : Nat),
        m.int off len % ((256 ^ len : Nat) : Int) = ofBytes (m.bytes off len) := by
      intro m off
      have hlt := ofBytes_lt (m.bytes off len)
      rw [length_bytes] at hlt
      rw [int, Int.bmod_emod]
      exact Int.emod_eq_of_lt (Int.natCast_nonneg _) (Int.ofNat_lt.mpr hlt)
    have hnat := (hmod m off).symm.trans ((congrArg (· % _) h).trans (hmod m' off'))
    exact ofBytes_inj (by simp) (Int.ofNat_inj.mp hnat)
  · intro h
    rw [int, int, h]

theorem int_eq_iff_apply :
    m.int off len = m'.int off' len ↔ ∀ i < len, m (off + i) = m' (off' + i) :=
  int_eq_iff.trans bytes_eq_iff

theorem int_two (m : Memory) (off : Nat) :
    m.int off 2 = Int.bmod ((m off).toNat + 256 * (m (off + 1)).toNat : Nat) 65536 := by
  simp [int, bytes, ofBytes]

-- The bytes that stand for an integer.
def intBytes (len : Nat) (i : Int) : List UInt8 := toBytes len (i % 256 ^ len).toNat

@[simp] theorem length_toBytes (len n : Nat) : (toBytes len n).length = len := by
  induction len generalizing n with
  | zero => rfl
  | succ len ih => rw [toBytes, List.length_cons, ih]

@[simp] theorem length_intBytes (len : Nat) (i : Int) : (intBytes len i).length = len :=
  length_toBytes len _

theorem ofBytes_toBytes (len n : Nat) : ofBytes (toBytes len n) = n % 256 ^ len := by
  induction len generalizing n with
  | zero =>
      rw [toBytes, ofBytes, Nat.pow_zero, Nat.mod_one]
  | succ len ih =>
      have hbyte : (UInt8.ofNat n).toNat = n % 256 := UInt8.toNat_ofNat'
      rw [toBytes, ofBytes, ih, hbyte, Nat.pow_succ', Nat.mod_mul]

theorem toBytes_ofBytes (bs : List UInt8) : toBytes bs.length (ofBytes bs) = bs := by
  refine ofBytes_inj (length_toBytes _ _) ?_
  rw [ofBytes_toBytes, Nat.mod_eq_of_lt (ofBytes_lt bs)]

-- An integer that is read where its bytes were written is what fits into these of it.
theorem int_of_bytes {i : Int} (h : m.bytes off len = intBytes len i) :
    m.int off len = Int.bmod i (256 ^ len) := by
  have hpow : (0 : Int) < 256 ^ len := Int.pow_pos (by decide)
  have hnonneg : 0 ≤ i % 256 ^ len := Int.emod_nonneg i (Int.ne_of_gt hpow)
  have hlt : i % 256 ^ len < 256 ^ len := Int.emod_lt_of_pos i hpow
  have hnat : (i % 256 ^ len).toNat % 256 ^ len = (i % 256 ^ len).toNat := by
    refine Nat.mod_eq_of_lt ?_
    have hcast : ((256 ^ len : Nat) : Int) = 256 ^ len := by norm_cast
    omega
  rw [int, h, intBytes, ofBytes_toBytes, hnat, Int.toNat_of_nonneg hnonneg]
  have hcast : ((256 ^ len : Nat) : Int) = 256 ^ len := by norm_cast
  rw [← hcast, Int.emod_bmod]

theorem intBytes_int : intBytes len (m.int off len) = m.bytes off len := by
  have hlt := ofBytes_lt (m.bytes off len)
  rw [length_bytes] at hlt
  have hcast : ((256 ^ len : Nat) : Int) = 256 ^ len := by norm_cast
  have hmod : m.int off len % 256 ^ len = ofBytes (m.bytes off len) := by
    rw [int, ← hcast, Int.bmod_emod]
    exact Int.emod_eq_of_lt (Int.natCast_nonneg _) (Int.ofNat_lt.mpr hlt)
  have hbytes := toBytes_ofBytes (m.bytes off len)
  rwa [length_bytes, ← Int.toNat_natCast (ofBytes (m.bytes off len)), ← hmod] at hbytes

-- The contents of a buffer that holds `bs` and zeros behind it.
def ofList (bs : List UInt8) : Memory := fun i => bs[i]?.getD 0

theorem bytes_ofList (h : len ≤ bs.length) : (ofList bs).bytes 0 len = bs.take len := by
  have hwhole : (ofList bs).bytes 0 bs.length = bs := by
    have hsame : ofList bs = Memory.write (fun _ => 0) 0 bs := by
      funext i
      simp [ofList, write]
    rw [hsame]
    exact bytes_write (fun _ => 0) 0 bs
  rw [← take_bytes _ _ h, hwhole]

end Memory
