import Mathlib.Tactic.Ring
import Q2pc.Lib.Intervals
import Q2pc.Server.Step

namespace Q2pc

open Intervals (Tiles)

-- The arithmetic of an i64, with the results that do not fit wrapped around.
def i64 (x : Int) : Int := Int.bmod x (2 ^ 64)

-- `x / y` of two i64, none where the division traps.
def divI64 (x y : Int) : Option Int :=
  if y = 0 ∨ (x = -2 ^ 63 ∧ y = -1) then none else some (x.tdiv y)

def intMax : Int := 2 ^ 31 - 1

-- The arrays of the library of the program: `size n` is `size` of CH_ARRAY_NEW(.., n, NULL).
structure ChArray where
  size : Int → Int
  size_new : ∀ n : Int, 0 < n → size n = n

-- What run_server passes to server_init, and its report_int.
structure ServerArgs where
  threadCount : Int
  clientCount : Int
  transType : TransType
  statsLen : Int
  reportInt : Int
  deriving DecidableEq, Repr

-- `thread_params_t`
structure ThreadParams where
  lo : Int
  hi : Int
  count : Int
  threadId : Int
  statsLen : Int
  deriving DecidableEq, Repr

def ThreadParams.range (p : ThreadParams) : Int × Int := (p.lo, p.hi)

-- The loop that starts the threads, with its passes that are left.
def threadLoop (size consPerThread count statsLen : Int) :
    Nat → Int → Int → Int → List ThreadParams
  | 0, _, _, _ => []
  | passes + 1, i, lo, hi =>
      { lo, hi, count, threadId := i, statsLen } ::
        threadLoop size consPerThread count statsLen passes (i + 1) hi
          (min size (i64 (hi + consPerThread)))

namespace ServerArgs

-- `real_thread_count`
def realThreadCount (a : ServerArgs) : Int := min a.threadCount a.clientCount

-- `cons_per_thread`
def consPerThread (a : ServerArgs) : Option Int :=
  (divI64 (i64 (a.clientCount + a.threadCount - 1)) a.threadCount).map fun q => max q 1

-- `params->stats_len`
def threadStatsLen (a : ServerArgs) : Int := a.statsLen.tdiv a.realThreadCount

end ServerArgs

-- server_init: the parameters of the threads. There are none where do_connectall counts
-- to more connections than an int has room for, where the division traps, and where
-- calloc is asked for a negative number of pointers.
def serverInit (array : ChArray) (a : ServerArgs) : Option (List ThreadParams) :=
  if intMax < a.clientCount then none
  else
    match a.consPerThread with
    | none => none
    | some consPerThread =>
        if a.realThreadCount < 0 then none
        else some (threadLoop (array.size a.clientCount) consPerThread a.clientCount
          a.threadStatsLen a.realThreadCount.toNat 0 0 (i64 (0 + consPerThread)))

variable {array : ChArray} {a : ServerArgs} {ps : List ThreadParams}

theorem i64_eq_self {x : Int} (hlo : -2 ^ 63 ≤ x) (hhi : x < 2 ^ 63) : i64 x = x := by
  unfold i64
  rw [Int.bmod_def]
  split <;> omega

theorem i64_le_self {x : Int} (hlo : -2 ^ 63 ≤ x) : i64 x ≤ x := by
  unfold i64
  rw [Int.bmod_def]
  split <;> omega

theorem length_threadLoop {size cpt count len : Int} (passes : Nat) (i lo hi : Int) :
    (threadLoop size cpt count len passes i lo hi).length = passes := by
  induction passes generalizing i lo hi with
  | zero => rfl
  | succ passes ih => rw [threadLoop, List.length_cons, ih]

-- A range begins where the one before it ends, and but for the end of the connections it
-- has `cpt` of them.
theorem tiles_threadLoop {cpt c len : Int} (hcpt : 1 ≤ cpt) (hle : cpt ≤ c) (hmax : c ≤ intMax)
    (passes : Nat) (i : Int) {lo hi : Int} (hlo : 0 ≤ lo) (hloc : lo ≤ c)
    (hhi : hi = min c (lo + cpt)) :
    Tiles lo ((threadLoop c cpt c len passes i lo hi).map ThreadParams.range)
      (min c (lo + passes * cpt)) := by
  induction passes generalizing i lo hi with
  | zero =>
      have hend : min c (lo + (0 : Nat) * cpt) = lo := by
        rw [Nat.cast_zero, Int.zero_mul]
        omega
      rw [hend]
      exact .nil
  | succ passes ih =>
      have hlohi : lo ≤ hi := by omega
      have hhic : hi ≤ c := by omega
      have hwrap : i64 (hi + cpt) = hi + cpt := by
        unfold intMax at hmax
        exact i64_eq_self (by omega) (by omega)
      have hpasses : 0 ≤ (passes : Int) * cpt := Int.mul_nonneg (by omega) (by omega)
      have hend : min c (lo + (passes + 1 : Nat) * cpt) = min c (hi + passes * cpt) := by
        have hsucc : ((passes + 1 : Nat) : Int) * cpt = passes * cpt + cpt := by
          push_cast
          ring
        rw [hsucc]
        omega
      rw [hend, threadLoop, List.map_cons, hwrap]
      exact .cons hlohi (ih (i + 1) (hlo.trans hlohi) hhic rfl)

theorem tdiv_le_one {x y : Int} (hy : 0 < y) (hx : x < 2 * y) : x.tdiv y ≤ 1 := by
  have hle : x.tdiv y ≤ (2 * y - 1).tdiv y := Int.tdiv_le_tdiv hy (by omega)
  have hlt : (2 * y - 1) / y < 2 := Int.ediv_lt_of_lt_mul hy (by omega)
  rw [Int.tdiv_eq_ediv_of_nonneg (by omega : 0 ≤ 2 * y - 1)] at hle
  omega

-- A rounded-up quotient leaves no connection over, and with it no range is empty but for
-- those behind the end.
theorem consPerThread_bounds {cpt : Int} (hcpt : a.consPerThread = some cpt)
    (ht : 1 ≤ a.threadCount) (hc : 1 ≤ a.clientCount) (hmax : a.clientCount ≤ intMax) :
    1 ≤ cpt ∧ cpt ≤ a.clientCount ∧ a.clientCount ≤ a.realThreadCount * cpt := by
  unfold intMax at hmax
  obtain ⟨q, hq, rfl⟩ := Option.map_eq_some_iff.mp hcpt
  simp only [divI64, Option.ite_none_left_eq_some, Option.some.injEq] at hq
  obtain ⟨_, rfl⟩ := hq
  refine ⟨le_max_right _ _, ?_⟩
  rcases lt_or_ge a.threadCount a.clientCount with hlt | hge
  · -- more connections than threads: no overflow
    have hreal : a.realThreadCount = a.threadCount := Int.min_eq_left (by omega)
    rw [hreal, i64_eq_self (by omega) (by omega), Int.tdiv_eq_ediv_of_nonneg (by omega)]
    have hceil := Int.lt_ediv_add_one_mul_self (a.clientCount + a.threadCount - 1)
      (show 0 < a.threadCount by omega)
    rw [Int.add_mul, Int.one_mul, Int.mul_comm] at hceil
    have hle : (a.clientCount + a.threadCount - 1) / a.threadCount ≤ a.clientCount := by
      have hmul : a.clientCount + a.threadCount - 1 < (a.clientCount + 1) * a.threadCount := by
        have hpos : 0 ≤ (a.clientCount - 1) * (a.threadCount - 1) :=
          Int.mul_nonneg (by omega) (by omega)
        have hexpand : (a.clientCount + 1) * a.threadCount =
            (a.clientCount - 1) * (a.threadCount - 1) + a.clientCount + 2 * a.threadCount - 1 := by
          ring
        omega
      have := Int.ediv_lt_of_lt_mul (show 0 < a.threadCount by omega) hmul
      omega
    have hpos : 1 ≤ (a.clientCount + a.threadCount - 1) / a.threadCount := by
      by_contra hnot
      have := Int.mul_nonpos_of_nonneg_of_nonpos (a := a.threadCount)
        (b := (a.clientCount + a.threadCount - 1) / a.threadCount) (by omega) (by omega)
      omega
    rw [Int.max_eq_left hpos]
    exact ⟨hle, by omega⟩
  · -- one connection for a thread, also where the sum overflows
    have hreal : a.realThreadCount = a.clientCount := Int.min_eq_right hge
    have hq : (i64 (a.clientCount + a.threadCount - 1)).tdiv a.threadCount ≤ 1 :=
      tdiv_le_one (by omega) (Int.lt_of_le_of_lt (i64_le_self (by omega)) (by omega))
    rw [hreal, Int.max_eq_right hq]
    omega

-- What server_init relies on when it comes to its loop.
theorem serverInit_counts (h : serverInit array a = some ps) :
    1 ≤ a.threadCount ∧ 0 ≤ a.clientCount ∧ a.clientCount ≤ intMax ∧
      (ps.length : Int) = a.realThreadCount := by
  simp only [serverInit, Option.ite_none_left_eq_some] at h
  obtain ⟨hmax, h⟩ := h
  cases hcpt : a.consPerThread with
  | none => simp [hcpt] at h
  | some cpt =>
      simp only [hcpt, Option.ite_none_left_eq_some, Option.some.injEq] at h
      obtain ⟨hreal, rfl⟩ := h
      rw [length_threadLoop]
      have hne : a.threadCount ≠ 0 := by
        rintro h0
        simp [ServerArgs.consPerThread, divI64, h0] at hcpt
      have hle : a.realThreadCount ≤ a.threadCount := Int.min_le_left _ _
      have hle' : a.realThreadCount ≤ a.clientCount := Int.min_le_right _ _
      omega

-- The ranges of the threads follow each other from the first connection to the last.
theorem serverInit_tiles (h : serverInit array a = some ps) :
    Tiles 0 (ps.map ThreadParams.range) a.clientCount := by
  obtain ⟨ht, hc, hmax, hlen⟩ := serverInit_counts h
  rcases lt_or_eq_of_le hc with hpos | hzero
  · simp only [serverInit, Option.ite_none_left_eq_some] at h
    obtain ⟨_, h⟩ := h
    cases hcpt : a.consPerThread with
    | none => simp [hcpt] at h
    | some cpt =>
        simp only [hcpt, Option.ite_none_left_eq_some, Option.some.injEq] at h
        obtain ⟨_, rfl⟩ := h
        obtain ⟨hone, hle, hcover⟩ := consPerThread_bounds hcpt ht hpos hmax
        have hfirst : i64 (0 + cpt) = min a.clientCount (0 + cpt) := by
          unfold intMax at hmax
          rw [i64_eq_self (by omega) (by omega)]
          omega
        rw [array.size_new _ hpos, hfirst]
        have htiles := @tiles_threadLoop _ _ a.threadStatsLen hone hle hmax
          a.realThreadCount.toNat 0 _ _ (Int.le_refl 0) hc rfl
        have hend : min a.clientCount (0 + (a.realThreadCount.toNat : Int) * cpt) =
            a.clientCount := by
          have hreal : (a.realThreadCount.toNat : Int) = a.realThreadCount := by
            rw [length_threadLoop] at hlen
            exact hlen
          rw [hreal]
          omega
        rwa [hend] at htiles
  · -- no connections and no threads
    have hnil : ps = [] := by
      have hle : a.realThreadCount ≤ a.clientCount := Int.min_le_right _ _
      exact List.length_eq_zero_iff.mp (by omega)
    rw [hnil, ← hzero]
    exact .nil

theorem serverInit_eq_none (ht : 1 ≤ a.threadCount) (hc : 1 ≤ a.clientCount) :
    serverInit array a = none ↔ intMax < a.clientCount := by
  have hreal : ¬ a.realThreadCount < 0 := by
    unfold ServerArgs.realThreadCount
    omega
  have hdiv : ¬ (a.threadCount = 0 ∨
      (i64 (a.clientCount + a.threadCount - 1) = -2 ^ 63 ∧ a.threadCount = -1)) := by omega
  rw [serverInit, ServerArgs.consPerThread, divI64, if_neg hdiv]
  simp only [Option.map_some, if_neg hreal, ite_eq_left_iff, reduceCtorEq, imp_false, not_not]

-- What the parameters are to the threads.
def threadsConfig (a : ServerArgs) (ps : List ThreadParams)
    (h : Tiles 0 (ps.map ThreadParams.range) a.clientCount) : Config where
  transType := a.transType
  clientCount := a.clientCount.toNat
  threadCount := ps.length
  lo := fun w => (ps[w]?.elim 0 ThreadParams.lo).toNat
  hi := fun w => (ps[w]?.elim 0 ThreadParams.hi).toNat
  statsLen := a.threadStatsLen
  reportInt := a.reportInt
  hi_le := by
    intro w hw
    have hbounds := h.bounds (List.mem_map_of_mem (List.getElem_mem hw))
    simp only [List.getElem?_eq_getElem hw, Option.elim_some]
    exact Int.toNat_le_toNat hbounds.2.2
  cover := by
    intro i hi
    obtain ⟨w, r, hr, hlo, hhi⟩ := h.cover (Int.natCast_nonneg i)
      (show (i : Int) < a.clientCount by omega)
    obtain ⟨p, hp, rfl⟩ := Option.map_eq_some_iff.mp (List.getElem?_map ▸ hr)
    obtain ⟨hw, _⟩ := List.getElem?_eq_some_iff.mp hp
    refine ⟨w, hw, ?_, ?_⟩
    · simp only [hp, Option.elim_some]
      exact Int.toNat_le.mpr hlo
    · simp only [hp, Option.elim_some]
      exact Int.lt_toNat.mpr hhi
  disjoint := by
    intro w hw v hv i hlo hhi hlo' hhi'
    simp only [List.getElem?_eq_getElem hw, Option.elim_some, Int.toNat_le, Int.lt_toNat] at hlo hhi
    simp only [List.getElem?_eq_getElem hv, Option.elim_some, Int.toNat_le,
      Int.lt_toNat] at hlo' hhi'
    refine h.disjoint (x := (i : Int)) (r := ps[w].range) (q := ps[v].range) ?_ ?_ ⟨hlo, hhi⟩
      ⟨hlo', hhi'⟩
    · rw [List.getElem?_map, List.getElem?_eq_getElem hw, Option.map_some]
    · rw [List.getElem?_map, List.getElem?_eq_getElem hv, Option.map_some]

-- The server that server_init starts.
def ServerArgs.config (array : ChArray) (a : ServerArgs) : Option Config :=
  match h : serverInit array a with
  | some ps => some (threadsConfig a ps (serverInit_tiles h))
  | none => none

theorem config_of_serverInit (h : serverInit array a = some ps) :
    a.config array = some (threadsConfig a ps (serverInit_tiles h)) := by
  unfold ServerArgs.config
  split
  next ps' h' =>
      obtain rfl : ps' = ps := Option.some.inj (h'.symm.trans h)
      rfl
  next h' => simp [h] at h'

end Q2pc
