import Q2pc.Server.Init
import Q2pc.System.Pause

namespace Q2pc

open Function (update)

-- The positions of the main thread of a server.
inductive MainPc
  -- server_init up to the return of do_connectall
  | connectAll
  -- the quotient in `cons_per_thread`, and the allocations behind it
  | consPerThread
  | allocVotes
  | allocStats
  | allocThreads
  -- the loop that starts the threads
  | create (i : Nat)
  -- run_server after server_init
  | running
  -- cleanup: the loop that joins the threads, open(), the loops over `stats_mem`
  | join (k : Nat)
  | openFile
  | writeStats (i j : Nat)
  -- the process is gone
  | exited
  deriving DecidableEq, Repr

-- A worker thread: not created, created, and past the allocation of its statistics.
inductive ThreadState
  | absent
  | created
  | running
  deriving DecidableEq, Repr

structure Process where
  main : MainPc
  realThreadCount : Int
  -- `threads` is not NULL
  threads : Bool
  thread : Nat → ThreadState
  -- the lengths of the arrays in `stats_mem`
  statsMem : Nat → Option Int
  -- `ts_start_us` of run_server
  tsStartUs : Int
  server : Server

inductive ProcessEvent
  -- do_connectall returns
  | connected
  -- the quotient, and an allocation that is successful
  | divide
  | alloc
  -- a pass of the loop in server_init, with the result of pthread_create, and its end
  | create (ok : Bool)
  | enter (tsStartUs : Int)
  -- a worker allocates its statistics
  | start (w : Nat)
  -- the head of the loop of run_server with the values of the clock, and all other steps
  | round (tsNowUs tsStartUs : Int)
  | server (e : Event)
  -- `term`: do_connectall calls it, or a signal comes
  | term
  | join
  | openFile
  | writeStats
  -- ch_log_fatal
  | fatal
  deriving DecidableEq, Repr

namespace Process

def init : Process where
  main := .connectAll
  realThreadCount := 0
  threads := false
  thread := fun _ => .absent
  statsMem := fun _ => none
  tsStartUs := 0
  server := .init

-- `term` and the beginning of cleanup, which is not left any more. The main thread takes
-- the signals, also in cleanup.
def term (s : Process) : Process :=
  { s with server := s.server.term, main := if s.threads then .join 0 else .openFile }

-- A worker that pthread_join waits for. For a thread that was not created it is undefined
-- what pthread_join does: here it returns.
def alive (s : Process) (w : Nat) : Bool :=
  s.thread w != .absent && (s.server.workers w).pc != .exited

variable (array : ChArray) (a : ServerArgs)

-- The other steps of run_server, and those of the workers.
def serverStep (s : Process) (e : Event) : Option Process := do
  let cfg ← a.config array
  match e.byWorker with
  | some w =>
      if s.thread w = .running then
        let server ← s.server.step cfg e
        some { s with server }
      else none
  | none =>
      if s.main = .running ∧ s.server.master ≠ .requests then
        let server ← s.server.step cfg e
        if server.master = .terminated then some (term { s with server })
        else some { s with server }
      else none

-- for(i64 requests = 0; !stop_signal; requests++), and the report. A remainder by zero
-- kills the process.
def round (s : Process) (tsStartUs : Int) : Option Process := do
  let cfg ← a.config array
  if s.main = .running ∧ s.server.master = .requests then
    if s.server.stopSignal then some s.term
    else
      match reportDue s.server.requests a.reportInt with
      | none => some { s with main := .exited }
      | some due =>
          let server ← s.server.step cfg .master
          some { s with server, tsStartUs := if due then tsStartUs else s.tsStartUs }
  else none

def step (s : Process) : ProcessEvent → Option Process
  | .connected =>
      if s.main = .connectAll ∧ a.clientCount ≤ intMax then some { s with main := .consPerThread }
      else none
  | .divide =>
      if s.main = .consPerThread then
        match a.consPerThread with
        | none => some { s with main := .exited }
        | some _ => some { s with realThreadCount := a.realThreadCount, main := .allocVotes }
      else none
  | .alloc =>
      match s.main with
      | .allocVotes => some { s with main := .allocStats }
      -- calloc fails for a negative number of pointers
      | .allocStats => if s.realThreadCount < 0 then none else some { s with main := .allocThreads }
      | .allocThreads => some { s with threads := true, main := .create 0 }
      | _ => none
  | .create ok =>
      match s.main with
      | .create i =>
          if i < s.realThreadCount then
            some { s with
              thread := if ok then update s.thread i .created else s.thread
              main := .create (i + 1) }
          else none
      | _ => none
  | .enter tsStartUs =>
      match s.main with
      | .create i =>
          if s.realThreadCount ≤ i then some { s with tsStartUs, main := .running } else none
      | _ => none
  | .start w =>
      -- calloc fails for a negative length
      if s.main ≠ .exited ∧ s.thread w = .created ∧ 0 ≤ a.threadStatsLen then
        some { s with
          thread := update s.thread w .running
          statsMem := update s.statsMem w (some a.threadStatsLen) }
      else none
  -- `ts_now_us` is only reported
  | .round _ tsStartUs => s.round array a tsStartUs
  | .server e => if s.main = .exited then none else s.serverStep array a e
  | .term => if s.main = .exited then none else some s.term
  | .join =>
      match s.main with
      | .join k =>
          if k < s.realThreadCount then
            if s.alive k then none else some { s with main := .join (k + 1) }
          else some { s with main := .openFile }
      | _ => none
  | .openFile => if s.main = .openFile then some { s with main := .writeStats 0 0 } else none
  | .writeStats =>
      match s.main with
      | .writeStats i j =>
          if i < s.realThreadCount then
            if j < a.statsLen.tdiv s.realThreadCount then
              -- `j` is an int
              if j < intMax then some { s with main := .writeStats i (j + 1) } else none
            else some { s with
              statsMem := update s.statsMem i none
              main := .writeStats (i + 1) 0 }
          else some { s with main := .exited }
      | _ => none
  | .fatal => if s.main = .exited then none else some { s with main := .exited }

end Process

variable {array : ChArray} {a : ServerArgs} {s t : Process} {e : ProcessEvent}

inductive ProcessStep (array : ChArray) (a : ServerArgs) (s : Process) :
    ProcessEvent → Process → Prop
  | connected : s.main = .connectAll → a.clientCount ≤ intMax →
      ProcessStep array a s .connected { s with main := .consPerThread }
  | trap : s.main = .consPerThread → a.consPerThread = none →
      ProcessStep array a s .divide { s with main := .exited }
  | divide : s.main = .consPerThread → a.consPerThread ≠ none →
      ProcessStep array a s .divide
        { s with realThreadCount := a.realThreadCount, main := .allocVotes }
  | allocVotes : s.main = .allocVotes →
      ProcessStep array a s .alloc { s with main := .allocStats }
  | allocStats : s.main = .allocStats → 0 ≤ s.realThreadCount →
      ProcessStep array a s .alloc { s with main := .allocThreads }
  | allocThreads : s.main = .allocThreads →
      ProcessStep array a s .alloc { s with threads := true, main := .create 0 }
  | create {i : Nat} {ok : Bool} : s.main = .create i → i < s.realThreadCount →
      ProcessStep array a s (.create ok) { s with
        thread := if ok then update s.thread i .created else s.thread
        main := .create (i + 1) }
  | enter {i : Nat} {tsStartUs : Int} : s.main = .create i → s.realThreadCount ≤ i →
      ProcessStep array a s (.enter tsStartUs) { s with tsStartUs, main := .running }
  | start {w : Nat} : s.main ≠ .exited → s.thread w = .created → 0 ≤ a.threadStatsLen →
      ProcessStep array a s (.start w) { s with
        thread := update s.thread w .running
        statsMem := update s.statsMem w (some a.threadStatsLen) }
  | stopped {now start : Int} : s.main = .running → s.server.stopSignal = true →
      ProcessStep array a s (.round now start) s.term
  | killed {now start : Int} : s.main = .running → s.server.stopSignal = false →
      reportDue s.server.requests a.reportInt = none →
      ProcessStep array a s (.round now start) { s with main := .exited }
  | round {now start ts : Int} {cfg server} : s.main = .running →
      a.config array = some cfg → s.server.step cfg .master = some server →
      ProcessStep array a s (.round now start) { s with server, tsStartUs := ts }
  | worker {w : Nat} {e cfg server} : a.config array = some cfg → e.byWorker = some w →
      s.thread w = .running → s.server.step cfg e = some server →
      ProcessStep array a s (.server e) { s with server }
  | master {e cfg server} : a.config array = some cfg → e.byWorker = none →
      s.main = .running → s.server.step cfg e = some server →
      ProcessStep array a s (.server e) { s with server }
  | masterTerm {e cfg server} : a.config array = some cfg → e.byWorker = none →
      s.main = .running → s.server.step cfg e = some server →
      ProcessStep array a s (.server e) (Process.term { s with server })
  | term : s.main ≠ .exited → ProcessStep array a s .term s.term
  | join {k : Nat} : s.main = .join k → k < s.realThreadCount → s.alive k = false →
      ProcessStep array a s .join { s with main := .join (k + 1) }
  | joined {k : Nat} : s.main = .join k → s.realThreadCount ≤ k →
      ProcessStep array a s .join { s with main := .openFile }
  | openFile : s.main = .openFile →
      ProcessStep array a s .openFile { s with main := .writeStats 0 0 }
  | writeStats {i j : Nat} : s.main = .writeStats i j → i < s.realThreadCount →
      j < a.statsLen.tdiv s.realThreadCount →
      ProcessStep array a s .writeStats { s with main := .writeStats i (j + 1) }
  | free {i j : Nat} : s.main = .writeStats i j → i < s.realThreadCount →
      a.statsLen.tdiv s.realThreadCount ≤ j →
      ProcessStep array a s .writeStats { s with
        statsMem := update s.statsMem i none
        main := .writeStats (i + 1) 0 }
  | written {i j : Nat} : s.main = .writeStats i j → s.realThreadCount ≤ i →
      ProcessStep array a s .writeStats { s with main := .exited }
  | fatal : s.main ≠ .exited → ProcessStep array a s .fatal { s with main := .exited }

private theorem round_cases {now start : Int} (h : s.round array a start = some t) :
    ProcessStep array a s (.round now start) t := by
  obtain ⟨cfg, hcfg, h⟩ := Option.bind_eq_some_iff.mp h
  split at h
  next hpc =>
      split at h
      next hstop =>
          cases h
          exact .stopped hpc.1 hstop
      next hstop =>
          split at h
          next hdue =>
              cases h
              exact .killed hpc.1 (by simpa using hstop) hdue
          next due hdue =>
              obtain ⟨server, hserver, h⟩ := Option.bind_eq_some_iff.mp h
              cases h
              exact .round hpc.1 hcfg hserver
  next => cases h

private theorem serverStep_cases {e : Event} (h : s.serverStep array a e = some t) :
    ProcessStep array a s (.server e) t := by
  obtain ⟨cfg, hcfg, h⟩ := Option.bind_eq_some_iff.mp h
  split at h
  next w hw =>
      split at h
      next hrunning =>
          obtain ⟨server, hserver, h⟩ := Option.bind_eq_some_iff.mp h
          cases h
          exact .worker hcfg hw hrunning hserver
      next => cases h
  next hmaster =>
      split at h
      next hpc =>
          obtain ⟨server, hserver, h⟩ := Option.bind_eq_some_iff.mp h
          split at h
          · cases h
            exact .masterTerm hcfg hmaster hpc.1 hserver
          · cases h
            exact .master hcfg hmaster hpc.1 hserver
      next => cases h

theorem Process.step_cases (h : s.step array a e = some t) : ProcessStep array a s e t := by
  cases e with
  | connected =>
      simp only [Process.step, Option.ite_none_right_eq_some, Option.some.injEq] at h
      obtain ⟨⟨hpc, hmax⟩, rfl⟩ := h
      exact .connected hpc hmax
  | divide =>
      simp only [Process.step, Option.ite_none_right_eq_some] at h
      obtain ⟨hpc, h⟩ := h
      split at h
      next hnone =>
          cases h
          exact .trap hpc hnone
      next cpt hcpt =>
          cases h
          exact .divide hpc (by simp [hcpt])
  | alloc =>
      simp only [Process.step] at h
      split at h
      next hpc =>
          cases h
          exact .allocVotes hpc
      next hpc =>
          simp only [Option.ite_none_left_eq_some, Option.some.injEq] at h
          obtain ⟨hreal, rfl⟩ := h
          exact .allocStats hpc (by omega)
      next hpc =>
          cases h
          exact .allocThreads hpc
      next => cases h
  | create ok =>
      simp only [Process.step] at h
      split at h
      next i hpc =>
          simp only [Option.ite_none_right_eq_some, Option.some.injEq] at h
          obtain ⟨hi, rfl⟩ := h
          exact .create hpc hi
      next => cases h
  | enter ts =>
      simp only [Process.step] at h
      split at h
      next i hpc =>
          simp only [Option.ite_none_right_eq_some, Option.some.injEq] at h
          obtain ⟨hi, rfl⟩ := h
          exact .enter hpc hi
      next => cases h
  | start w =>
      simp only [Process.step, Option.ite_none_right_eq_some, Option.some.injEq] at h
      obtain ⟨⟨hpc, hw, hlen⟩, rfl⟩ := h
      exact .start hpc hw hlen
  | round now start => exact round_cases h
  | server e =>
      simp only [Process.step, Option.ite_none_left_eq_some] at h
      exact serverStep_cases h.2
  | term =>
      simp only [Process.step, Option.ite_none_left_eq_some, Option.some.injEq] at h
      obtain ⟨hpc, rfl⟩ := h
      exact .term hpc
  | join =>
      simp only [Process.step] at h
      split at h
      next k hpc =>
          split at h
          next hk =>
              split at h
              next => cases h
              next halive =>
                  cases h
                  exact .join hpc hk (by simpa using halive)
          next hk =>
              cases h
              exact .joined hpc (by omega)
      next => cases h
  | openFile =>
      simp only [Process.step, Option.ite_none_right_eq_some, Option.some.injEq] at h
      obtain ⟨hpc, rfl⟩ := h
      exact .openFile hpc
  | writeStats =>
      simp only [Process.step] at h
      split at h
      next i j hpc =>
          split at h
          next hi =>
              split at h
              next hj =>
                  simp only [Option.ite_none_right_eq_some, Option.some.injEq] at h
                  obtain ⟨_, rfl⟩ := h
                  exact .writeStats hpc hi hj
              next hj =>
                  cases h
                  exact .free hpc hi (by omega)
          next hi =>
              cases h
              exact .written hpc (by omega)
      next => cases h
  | fatal =>
      simp only [Process.step, Option.ite_none_left_eq_some, Option.some.injEq] at h
      obtain ⟨hpc, rfl⟩ := h
      exact .fatal hpc

end Q2pc
