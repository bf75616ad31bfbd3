import Mathlib.Data.Nat.Basic

namespace Q2pc

-- The number of an error. Zero stands for no error.
structure Errno where
  val : Nat
  pos : 0 < val
  deriving DecidableEq, Repr

def EADDRINUSE : Errno := ⟨98, by decide⟩

def EINVAL : Errno := ⟨22, by decide⟩

-- What a bind() does.
inductive BindOutcome
  | bound
  | failed (e : Errno)
  deriving DecidableEq, Repr

-- errno behind a bind(), which a successful one leaves alone. So do the logging and the
-- sleep between two of them.
def BindOutcome.errno (old : Nat) : BindOutcome → Nat
  | .bound => old
  | .failed e => e.val

inductive BindVerdict
  -- the code goes on
  | bound
  -- ch_log_fatal, with its text and the error it names
  | fatal (text : String) (errno : Nat)
  deriving DecidableEq, Repr

-- How often bind() is called, and how the code goes on.
structure BindRun where
  calls : Nat
  verdict : BindVerdict
  deriving DecidableEq, Repr

-- The loop, with the passes that are left, the number of calls so far and errno: what these
-- are behind it.
def retryBind (outcome : Nat → BindOutcome) : Nat → Nat → Nat → Nat × Nat
  | 0, calls, errno => (calls, errno)
  | left + 1, calls, errno =>
      if errno = EADDRINUSE.val then
        retryBind outcome left (calls + 1) ((outcome calls).errno errno)
      else (calls, errno)

-- bind() with its retries. `outcome i` is what call `i` does.
def bindWithRetry (text : String) (secondsPerTry secondsTotal : Nat)
    (outcome : Nat → BindOutcome) : BindRun :=
  match outcome 0 with
  | .bound => ⟨1, .bound⟩
  | .failed e =>
      let (calls, errno) := retryBind outcome (secondsTotal / secondsPerTry) 1 e.val
      ⟨calls, if errno ≠ 0 then .fatal text errno else .bound⟩

-- safe_wait_bind in q2pc_trans_udp.c
def udpSafeWaitBind : (Nat → BindOutcome) → BindRun :=
  bindWithRetry "UDP server bind failed" 5 120

-- safe_wait_bind in q2pc_trans_qj.c
def qjSafeWaitBind : (Nat → BindOutcome) → BindRun :=
  bindWithRetry "QJ server bind failed" 5 120

-- init in q2pc_trans_tcp.c
def tcpInitBind : (Nat → BindOutcome) → BindRun :=
  bindWithRetry "TCP server bind failed" 5 120

-- The first success is call `k`, and the failures before it are of the kind that is
-- waited for.
def BoundAt (outcome : Nat → BindOutcome) (k : Nat) : Prop :=
  (∀ i < k, outcome i = .failed EADDRINUSE) ∧ outcome k = .bound

-- What is expected of bind() with `retries` retries: it is successful if one of its calls
-- is, and then it is over.
structure BindRun.Recognises (retries : Nat) (outcome : Nat → BindOutcome) (r : BindRun) :
    Prop where
  verdict : r.verdict = .bound ↔ ∃ k ≤ retries, BoundAt outcome k
  stops : ∀ i j, i < j → j < r.calls → outcome i ≠ .bound

variable {outcome : Nat → BindOutcome} {text : String} {left calls errno k m : Nat}

theorem retryBind_errno_ne_zero (h : errno ≠ 0) : (retryBind outcome left calls errno).2 ≠ 0 := by
  induction left generalizing calls errno with
  | zero => exact h
  | succ left ih =>
      rw [retryBind]
      split
      · apply ih
        cases outcome calls with
        | bound => exact h
        | failed e => exact Nat.pos_iff_ne_zero.mp e.pos
      · exact h

theorem retryBind_calls_le : (retryBind outcome left calls errno).1 ≤ calls + left := by
  induction left generalizing calls errno with
  | zero => exact Nat.le_refl _
  | succ left ih =>
      rw [retryBind]
      split
      · have := @ih (calls + 1) ((outcome calls).errno errno)
        omega
      · omega

-- A call of the loop is made where all calls before it have found the address in use,
-- unless one of them was successful.
theorem retryBind_before (hm : m < (retryBind outcome left calls errno).1) (hcalls : calls ≤ m)
    (hfail : ∀ i, calls ≤ i → i < m → outcome i ≠ .bound) :
    errno = EADDRINUSE.val ∧
      ∀ i, calls ≤ i → i < m → outcome i = .failed EADDRINUSE := by
  induction left generalizing calls errno with
  | zero =>
      rw [retryBind] at hm
      omega
  | succ left ih =>
      rw [retryBind] at hm
      split at hm
      next herrno =>
          refine ⟨herrno, fun i hlo hhi => ?_⟩
          have hlt : calls < m := by omega
          obtain ⟨hnext, hrest⟩ := ih hm hlt fun i hlo hhi => hfail i (by omega) hhi
          rcases Nat.eq_or_lt_of_le hlo with rfl | hlo
          · cases hout : outcome calls with
            | bound => exact absurd hout (hfail calls (Nat.le_refl _) hlt)
            | failed e =>
                rw [hout] at hnext
                obtain ⟨val, pos⟩ := e
                obtain rfl : val = EADDRINUSE.val := hnext
                rfl
          · exact hrest i hlo hhi
      next => omega

variable {secondsPerTry secondsTotal : Nat}

-- The code goes on if the first call is successful, and only then.
theorem bindWithRetry_verdict :
    (bindWithRetry text secondsPerTry secondsTotal outcome).verdict = .bound ↔
      outcome 0 = .bound := by
  rw [bindWithRetry]
  cases outcome 0 with
  | bound => simp
  | failed e =>
      have herrno := @retryBind_errno_ne_zero outcome (secondsTotal / secondsPerTry) 1 e.val
        (Nat.pos_iff_ne_zero.mp e.pos)
      simp [herrno]

-- The calls behind the first one follow a failure each, unless one of the retries is a
-- success that the loop does not see.
theorem bindWithRetry_over
    (h : ∀ k, 1 ≤ k → k ≤ secondsTotal / secondsPerTry → ¬ BoundAt outcome k) {i j : Nat}
    (hij : i < j) (hj : j < (bindWithRetry text secondsPerTry secondsTotal outcome).calls) :
    outcome i ≠ .bound := by
  rw [bindWithRetry] at hj
  cases h0 : outcome 0 with
  | bound =>
      rw [h0] at hj
      simp only at hj
      omega
  | failed e =>
      rw [h0] at hj
      have hle := @retryBind_calls_le outcome (secondsTotal / secondsPerTry) 1 e.val
      simp only at hj
      -- on the calls before `i`
      induction i using Nat.strongRecOn with
      | ind i ih =>
          intro hbound
          cases i with
          | zero => simp [h0] at hbound
          | succ i =>
              obtain ⟨he, hbefore⟩ := retryBind_before
                (Nat.lt_trans hij hj) (Nat.succ_le_succ (Nat.zero_le i))
                fun i' _ hi' => ih i' hi' (by omega)
              refine h (i + 1) (by omega) (by omega) ⟨fun i' hi' => ?_, hbound⟩
              cases i' with
              | zero =>
                  obtain ⟨val, pos⟩ := e
                  obtain rfl : val = EADDRINUSE.val := he
                  exact h0
              | succ i' => exact hbefore (i' + 1) (by omega) hi'

theorem bindWithRetry_recognises :
    (bindWithRetry text secondsPerTry secondsTotal outcome).Recognises
        (secondsTotal / secondsPerTry) outcome ↔
      ∀ k, 1 ≤ k → k ≤ secondsTotal / secondsPerTry → ¬ BoundAt outcome k := by
  constructor
  · intro h k hpos hk hbound
    have hfirst := bindWithRetry_verdict.mp (h.verdict.mpr ⟨k, hk, hbound⟩)
    simp [hbound.1 0 hpos] at hfirst
  · intro h
    refine ⟨bindWithRetry_verdict.trans ⟨fun h0 => ?_, fun hk => ?_⟩, fun i j => ?_⟩
    · exact ⟨0, Nat.zero_le _, fun i hi => absurd hi (Nat.not_lt_zero i), h0⟩
    · obtain ⟨k, hk, hbound⟩ := hk
      cases k with
      | zero => exact hbound.2
      | succ k => exact absurd hbound (h (k + 1) (by omega) hk)
    · exact bindWithRetry_over h

-- The three servers recognise what bind() does if no retry is successful, and only then.
theorem server_bind_recognises (outcome : Nat → BindOutcome) :
    ((udpSafeWaitBind outcome).Recognises 24 outcome ↔
      ∀ k, 1 ≤ k → k ≤ 24 → ¬ BoundAt outcome k) ∧
    ((qjSafeWaitBind outcome).Recognises 24 outcome ↔
      ∀ k, 1 ≤ k → k ≤ 24 → ¬ BoundAt outcome k) ∧
    ((tcpInitBind outcome).Recognises 24 outcome ↔
      ∀ k, 1 ≤ k → k ≤ 24 → ¬ BoundAt outcome k) := by
  have hrecognises : ∀ text : String, (bindWithRetry text 5 120 outcome).Recognises 24 outcome ↔
      ∀ k, 1 ≤ k → k ≤ 24 → ¬ BoundAt outcome k :=
    fun text => @bindWithRetry_recognises outcome text 5 120
  exact ⟨hrecognises _, hrecognises _, hrecognises _⟩

-- The address is free at the first retry. The socket is bound then, and is bound again.
def freeAtRetry : Nat → BindOutcome
  | 0 => .failed EADDRINUSE
  | 1 => .bound
  | _ + 2 => .failed EINVAL

theorem server_bind_unrecognised :
    BoundAt freeAtRetry 1 ∧
    udpSafeWaitBind freeAtRetry = ⟨3, .fatal "UDP server bind failed" EINVAL.val⟩ ∧
    qjSafeWaitBind freeAtRetry = ⟨3, .fatal "QJ server bind failed" EINVAL.val⟩ ∧
    tcpInitBind freeAtRetry = ⟨3, .fatal "TCP server bind failed" EINVAL.val⟩ ∧
    ¬ (udpSafeWaitBind freeAtRetry).Recognises 24 freeAtRetry ∧
    ¬ (qjSafeWaitBind freeAtRetry).Recognises 24 freeAtRetry ∧
    ¬ (tcpInitBind freeAtRetry).Recognises 24 freeAtRetry := by
  have hbound : BoundAt freeAtRetry 1 := ⟨by decide, rfl⟩
  refine ⟨hbound, by decide, by decide, by decide, fun h => ?_, fun h => ?_, fun h => ?_⟩
  · exact absurd (h.verdict.mpr ⟨1, by decide, hbound⟩) (by decide)
  · exact absurd (h.verdict.mpr ⟨1, by decide, hbound⟩) (by decide)
  · exact absurd (h.verdict.mpr ⟨1, by decide, hbound⟩) (by decide)

end Q2pc
