import Q2pc.Server.Process
import Q2pc.System.Deletion

namespace Q2pc

open Function (update)

-- No signal comes in server_init or in cleanup, and all threads can be created.
def Process.Calm (s : Process) : ProcessEvent → Prop
  | .term => s.main = .connectAll ∨ s.main = .running
  | .create ok => ok = true
  | _ => True

section Room

variable {cfg : Config} {s t : Server} {e : Event} {k : Worker} {stop stop' : Bool} {len : Int}
  {w : Nat}

-- A worker whose array is full has left its loop for good, or is about to.
def WorkerPc.Leaving (stop : Bool) : WorkerPc → Prop
  | .raiseStop => True
  | .loop | .delete _ | .exited => stop = true
  | _ => False

def Worker.Room (len : Int) (stop : Bool) (k : Worker) : Prop :=
  k.stats = [] ∨ (k.stats.length : Int) < len ∨ k.pc.Leaving stop

theorem Worker.Room.mono (h : k.Room len stop) (hstop : stop = true → stop' = true) :
    k.Room len stop' := by
  refine h.imp_right (Or.imp_right fun hleaving => ?_)
  cases hpc : k.pc <;> rw [hpc] at hleaving <;> first | exact hstop hleaving | exact hleaving

theorem Worker.Room.move {pc : WorkerPc} (h : k.Room len stop)
    (hleaving : k.pc.Leaving stop → pc.Leaving stop') :
    Worker.Room len stop' { k with pc } :=
  h.imp_right (Or.imp_right hleaving)

theorem room_workerStep (h : (s.workers w).Room cfg.statsLen s.stopSignal)
    (hs : WorkerStep cfg s w e t) : (t.workers w).Room cfg.statsLen t.stopSignal := by
  cases hs with
  | @timeEnd i p us hpc =>
      simp only [Server.record, Function.update_self]
      split
      · exact .inr (.inr trivial)
      next hroom => exact .inr (.inl (by simpa using hroom))
  | leave hpc hstop =>
      simp only [Server.setWorker, Function.update_self]
      exact h.move fun _ => hstop
  | raiseStop hpc =>
      simp only [Server.setWorker, Function.update_self]
      exact h.move fun _ => rfl
  | exit hpc _ | delete hpc _ =>
      simp only [Server.setWorker, Function.update_self]
      exact h.move fun hleaving => by rwa [hpc] at hleaving
  | stay hpc hstop =>
      simp only [Server.setWorker, Function.update_self]
      exact h.move fun hleaving => by simp [hpc, WorkerPc.Leaving, hstop] at hleaving
  | paused hpc | startPass hpc | clearCount hpc | endPass hpc | outOfRange hpc | score hpc
  | loadCount hpc | storeCount hpc | begRead hpc | endRead hpc =>
      simp only [Server.setWorker, Function.update_self]
      exact h.move fun hleaving => by simp [hpc, WorkerPc.Leaving] at hleaving

theorem room_step (h : ∀ w, (s.workers w).Room cfg.statsLen s.stopSignal)
    (hs : s.step cfg e = some t) : ∀ w, (t.workers w).Room cfg.statsLen t.stopSignal := by
  intro w
  rcases step_cases hs with hm | ⟨v, -, hm⟩
  · obtain ⟨hworkers, -, hstop⟩ := hm.frame
    rw [hworkers]
    exact (h w).mono hstop
  · by_cases hvw : w = v
    · subst hvw
      exact room_workerStep (h w) hm
    · rw [hm.workers_ne hvw]
      exact (h w).mono hm.frame.2.2.2

theorem WorkerStep.not_exited (hs : WorkerStep cfg s w e t) : (s.workers w).pc ≠ .exited := by
  cases hs <;> simp_all

theorem exited_step (hs : s.step cfg e = some t) (h : (s.workers w).pc = .exited) :
    (t.workers w).pc = .exited := by
  rcases step_cases hs with hm | ⟨v, -, hm⟩
  · rw [hm.workers_eq, h]
  · have hwv : w ≠ v := by
      rintro rfl
      exact hm.not_exited h
    rw [hm.workers_ne hwv, h]

theorem exited_of_step (hs : s.step cfg e = some t) (h : (t.workers w).pc = .exited) :
    (s.workers w).pc = .exited ∨ e.byWorker = some w := by
  rcases step_cases hs with hm | ⟨v, -, hm⟩
  · rw [hm.workers_eq] at h
    exact .inl h
  · by_cases hwv : w = v
    · subst hwv
      exact .inr (by cases hm <;> rfl)
    · rw [hm.workers_ne hwv] at h
      exact .inl h

end Room

variable {array : ChArray} {a : ServerArgs} {s t : Process} {e : ProcessEvent}
  {es : List ProcessEvent}

-- The threads that the main thread has joined are gone.
def MainPc.Joined (s : Process) : MainPc → Prop
  | .connectAll | .consPerThread | .allocVotes | .allocStats | .allocThreads => s.threads = false
  | .create _ => s.threads = true
  | .join k => ∀ w < k, s.thread w ≠ .absent → (s.server.workers w).pc = .exited
  | .openFile | .writeStats _ _ =>
      ∀ w, s.thread w ≠ .absent → (s.server.workers w).pc = .exited
  | .running | .exited => True

theorem MainPc.Joined.mono {pc : MainPc} (hthreads : t.threads = s.threads)
    (hthread : ∀ w, t.thread w ≠ .absent → s.thread w ≠ .absent)
    (hexited : ∀ w, (s.server.workers w).pc = .exited → (t.server.workers w).pc = .exited)
    (h : pc.Joined s) : pc.Joined t := by
  cases pc with
  | connectAll | consPerThread | allocVotes | allocStats | allocThreads | create =>
      exact hthreads.trans h
  | join k => exact fun w hw hpresent => hexited w (h w hw (hthread w hpresent))
  | openFile | writeStats => exact fun w hpresent => hexited w (h w (hthread w hpresent))
  | running | exited => trivial

structure Process.Inv (a : ServerArgs) (s : Process) : Prop where
  real : s.realThreadCount = 0 ∨ s.realThreadCount = a.realThreadCount
  counted : ∀ w, s.thread w ≠ .absent → (w : Int) < s.realThreadCount
  absent : s.threads = false → ∀ w, s.thread w = .absent
  length : ∀ w len, s.statsMem w = some len → len = a.threadStatsLen
  allocated : ∀ w, s.thread w = .running →
    s.statsMem w = some a.threadStatsLen ∨ (s.server.workers w).pc = .exited
  room : ∀ w, (s.server.workers w).Room a.threadStatsLen s.server.stopSignal
  joined : s.main.Joined s

theorem Process.Inv.init : Process.Inv a .init where
  real := .inl rfl
  counted := fun w h => absurd rfl h
  absent := fun _ _ => rfl
  length := by simp [Process.init]
  allocated := by simp [Process.init]
  room := fun _ => .inl rfl
  joined := rfl

theorem config_statsLen {cfg : Config} (h : a.config array = some cfg) :
    cfg.statsLen = a.threadStatsLen := by
  unfold ServerArgs.config at h
  split at h
  · cases h
    rfl
  · cases h

theorem Process.Inv.goto {pc : MainPc} (h : s.Inv a)
    (hjoined : pc.Joined s) : Process.Inv a { s with main := pc } where
  real := h.real
  counted := h.counted
  absent := h.absent
  length := h.length
  allocated := h.allocated
  room := h.room
  joined := hjoined.mono (s := s) rfl (fun _ => id) fun _ => id

theorem Process.Inv.serverStep {cfg : Config} {event : Event} {server : Server} (h : s.Inv a)
    (hcfg : a.config array = some cfg) (hs : s.server.step cfg event = some server) :
    Process.Inv a { s with server } where
  real := h.real
  counted := h.counted
  absent := h.absent
  length := h.length
  allocated := fun w hw => (h.allocated w hw).imp_right (exited_step hs)
  room := by
    have hroom := h.room
    rw [← config_statsLen hcfg] at hroom ⊢
    exact room_step hroom hs
  joined := h.joined.mono (s := s) rfl (fun _ => id) fun _ => exited_step hs

theorem Process.Inv.term (h : s.Inv a) : s.term.Inv a where
  real := h.real
  counted := h.counted
  absent := h.absent
  length := h.length
  allocated := h.allocated
  room := fun w => (h.room w).mono fun _ => rfl
  joined := by
    simp only [Process.term]
    split
    · exact fun w hw => absurd hw (Nat.not_lt_zero w)
    next hthreads =>
        intro w hw
        exact absurd (h.absent (by simpa using hthreads) w) hw

theorem Process.Inv.step (h : s.Inv a) (hs : ProcessStep array a s e t) : t.Inv a := by
  have hjoined := h.joined
  cases hs with
  | connected hpc | allocVotes hpc | allocStats hpc =>
      rw [hpc] at hjoined
      exact h.goto hjoined
  | trap | killed | written | fatal => exact h.goto trivial
  | enter => exact { h with joined := trivial }
  | divide hpc =>
      rw [hpc] at hjoined
      exact { h with
        real := .inr rfl
        counted := fun w hw => absurd (h.absent hjoined w) hw
        joined := hjoined }
  | allocThreads hpc =>
      exact { h with
        absent := by simp
        joined := rfl }
  | @create i ok hpc hi =>
      rw [hpc] at hjoined
      cases ok with
      | false => exact h.goto hjoined
      | true =>
          refine { h with counted := ?_, absent := ?_, allocated := ?_, joined := hjoined }
          · intro w hw
            by_cases hwi : w = i
            · rwa [hwi]
            · exact h.counted w (by simpa [hwi] using hw)
          · intro hno
            exact absurd (hno.symm.trans hjoined) Bool.false_ne_true
          · intro w hw
            by_cases hwi : w = i
            · simp [hwi] at hw
            · exact h.allocated w (by simpa [hwi] using hw)
  | @start v _ hcreated _ =>
      have hthread : ∀ w, update s.thread v .running w ≠ .absent → s.thread w ≠ .absent := by
        intro w hw
        by_cases hwv : w = v
        · simp [hwv, hcreated]
        · simpa [hwv] using hw
      refine { h with
        counted := fun w hw => h.counted w (hthread w hw)
        absent := ?_
        length := ?_
        allocated := ?_
        joined := h.joined.mono (s := s) rfl hthread fun _ => id }
      · exact fun hno w => absurd (h.absent hno v) (by simp [hcreated])
      · intro w len hlen
        by_cases hwv : w = v
        · simp [hwv] at hlen
          exact hlen.symm
        · exact h.length w len (by simpa [hwv] using hlen)
      · intro w hw
        by_cases hwv : w = v
        · exact .inl (by simp [hwv])
        · simpa [hwv] using h.allocated w (by simpa [hwv] using hw)
  | stopped | term => exact h.term
  | round _ hcfg hserver => exact { h.serverStep hcfg hserver with }
  | worker hcfg _ _ hserver | master hcfg _ _ hserver => exact h.serverStep hcfg hserver
  | masterTerm hcfg _ _ hserver => exact (h.serverStep hcfg hserver).term
  | @join k hpc _ halive =>
      rw [hpc] at hjoined
      refine h.goto fun w hw hthread => ?_
      rcases Nat.lt_succ_iff_lt_or_eq.mp hw with hw | rfl
      · exact hjoined w hw hthread
      · simpa [Process.alive, hthread] using halive
  | joined hpc hk =>
      rw [hpc] at hjoined
      refine h.goto fun w hthread => hjoined w ?_ hthread
      have := h.counted w hthread
      omega
  | openFile hpc | writeStats hpc =>
      rw [hpc] at hjoined
      exact h.goto hjoined
  | @free i j hpc _ _ =>
      rw [hpc] at hjoined
      refine { h with length := ?_, allocated := ?_, joined := hjoined }
      · intro w len hlen
        by_cases hwi : w = i
        · simp [hwi] at hlen
        · exact h.length w len (by simpa [hwi] using hlen)
      · intro w hw
        exact .inr (hjoined w (by simp [show s.thread w = .running from hw]))

-- In a calm run: a worker that is gone has been started, an array is there until cleanup
-- frees it, and run_server comes behind the creation of all threads.
def MainPc.Freed (w : Nat) : MainPc → Prop
  | .writeStats i _ => w < i
  | .exited => True
  | _ => False

def MainPc.Created (s : Process) : MainPc → Prop
  | .connectAll | .consPerThread => s.realThreadCount = 0
  | .create i => ∀ w, s.thread w ≠ .absent ↔ w < i
  | .running | .join _ | .openFile | .writeStats _ _ =>
      ∀ w : Nat, w < s.realThreadCount → s.thread w ≠ .absent
  | _ => True

theorem MainPc.Created.congr {pc : MainPc} (hreal : t.realThreadCount = s.realThreadCount)
    (hthread : ∀ w, t.thread w ≠ .absent ↔ s.thread w ≠ .absent) (h : pc.Created s) :
    pc.Created t := by
  cases pc with
  | connectAll | consPerThread => exact hreal.trans h
  | create i => exact fun w => (hthread w).trans (h w)
  | running | join | openFile | writeStats =>
      exact fun w hw => (hthread w).mpr (h w (hreal ▸ hw))
  | allocVotes | allocStats | allocThreads | exited => trivial

structure Process.CalmInv (s : Process) : Prop where
  started : ∀ w, (s.server.workers w).pc = .exited → s.thread w = .running
  arrays : ∀ w, s.thread w = .running → s.statsMem w ≠ none ∨ s.main.Freed w
  created : s.main.Created s

theorem Process.CalmInv.init : Process.CalmInv .init where
  started := by simp [Process.init, Server.init]
  arrays := by simp [Process.init]
  created := rfl

theorem Process.CalmInv.allocated {w : Nat} (h : s.CalmInv) (hw : s.thread w = .running)
    (hlive : ¬s.main.Freed w) : s.statsMem w ≠ none :=
  (h.arrays w hw).resolve_right hlive

theorem Process.CalmInv.goto {pc : MainPc} (h : s.CalmInv)
    (hfreed : ∀ w, s.main.Freed w → pc.Freed w) (hcreated : pc.Created s) :
    Process.CalmInv { s with main := pc } where
  started := h.started
  arrays := fun w hw => (h.arrays w hw).imp_right (hfreed w)
  created := hcreated.congr (s := s) rfl fun _ => Iff.rfl

theorem Process.CalmInv.serverStep {cfg : Config} {event : Event} {server : Server}
    (h : s.CalmInv) (hs : s.server.step cfg event = some server)
    (hw : ∀ w, event.byWorker = some w → s.thread w = .running) :
    Process.CalmInv { s with server } where
  started := fun w hexited => (exited_of_step hs hexited).elim (h.started w) (hw w)
  arrays := h.arrays
  created := h.created.congr (s := s) rfl fun _ => Iff.rfl

-- term, with the threads of all connections created or none.
theorem Process.CalmInv.term (h : s.CalmInv) (hlive : ∀ w, ¬ s.main.Freed w)
    (hcreated : ∀ w : Nat, w < s.realThreadCount → s.thread w ≠ .absent) : s.term.CalmInv where
  started := h.started
  arrays := fun w hw => .inl (h.allocated hw (hlive w))
  created := by
    simp only [Process.term]
    split <;> exact hcreated

theorem Process.CalmInv.step (hinv : s.Inv a) (h : s.CalmInv) (hcalm : s.Calm e)
    (hs : ProcessStep array a s e t) : t.CalmInv := by
  have hcreated := h.created
  cases hs with
  | connected hpc _ | openFile hpc | join hpc _ _ | joined hpc _ =>
      rw [hpc] at hcreated
      exact h.goto (fun w hw => by simp [hpc, MainPc.Freed] at hw) hcreated
  | trap | killed | written | fatal => exact h.goto (fun _ _ => trivial) trivial
  | allocVotes hpc | allocStats hpc =>
      exact h.goto (fun w hw => by simp [hpc, MainPc.Freed] at hw) trivial
  | divide hpc _ =>
      refine { h with arrays := fun w hw => .inl (h.allocated hw ?_), created := trivial }
      simp [hpc, MainPc.Freed]
  | allocThreads hpc =>
      have hjoined := hinv.joined
      rw [hpc] at hjoined
      refine { h with arrays := fun w hw => .inl (h.allocated hw ?_), created := fun w => ?_ }
      · simp [hpc, MainPc.Freed]
      · simp [hinv.absent hjoined w]
  | @create i ok hpc _ =>
      obtain rfl : ok = true := hcalm
      rw [hpc] at hcreated
      have habsent : s.thread i = .absent := not_not.mp fun hi => (hcreated i).mp hi |>.false
      refine ⟨fun w hw => ?_, fun w hw => ?_, fun w => ?_⟩
      · have hrunning := h.started w hw
        have hwi : w ≠ i := by
          rintro rfl
          simp [habsent] at hrunning
        simpa [hwi] using hrunning
      · have hwi : w ≠ i := by
          rintro rfl
          simp at hw
        exact .inl (h.allocated (by simpa [hwi] using hw) (by simp [hpc, MainPc.Freed]))
      · by_cases hwi : w = i
        · simp [hwi]
        · have hw := hcreated w
          simp only [if_true, Function.update_of_ne hwi, hw]
          omega
  | enter hpc hreal =>
      rw [hpc] at hcreated
      refine { h with
        arrays := fun w hw => .inl (h.allocated hw ?_)
        created := fun w hw => (hcreated w).mpr ?_ }
      · simp [hpc, MainPc.Freed]
      · have hw : (w : Int) < s.realThreadCount := hw
        omega
  | @start v _ hthread _ =>
      refine ⟨fun w hw => ?_, fun w hw => ?_, hcreated.congr (s := s) rfl fun w => ?_⟩
      · by_cases hwv : w = v
        · simp [hwv]
        · simpa [hwv] using h.started w hw
      · by_cases hwv : w = v
        · exact .inl (by simp [hwv])
        · simpa [hwv] using h.arrays w (by simpa [hwv] using hw)
      · by_cases hwv : w = v
        · simp [hwv, hthread]
        · simp [hwv]
  | stopped hpc _ =>
      rw [hpc] at hcreated
      exact h.term (fun w => by simp [hpc, MainPc.Freed]) hcreated
  | term =>
      rcases hcalm with hpc | hpc
      · rw [hpc] at hcreated
        have hreal : s.realThreadCount = 0 := hcreated
        exact h.term (fun w => by simp [hpc, MainPc.Freed]) fun w hw => by omega
      · rw [hpc] at hcreated
        exact h.term (fun w => by simp [hpc, MainPc.Freed]) hcreated
  | round hpc _ hserver =>
      exact { h.serverStep hserver (fun w hw => by simp [Event.byWorker] at hw) with }
  | worker _ hw hrunning hserver =>
      refine h.serverStep hserver fun v hv => ?_
      obtain rfl := Option.some.inj (hv.symm.trans hw)
      exact hrunning
  | master _ hw _ hserver => exact h.serverStep hserver (fun v hv => by simp [hw] at hv)
  | masterTerm _ hw hpc hserver =>
      rw [hpc] at hcreated
      exact (h.serverStep hserver (fun v hv => by simp [hw] at hv)).term
        (fun w => by simp [hpc, MainPc.Freed]) hcreated
  | @writeStats i j hpc _ _ =>
      rw [hpc] at hcreated
      exact h.goto (fun w hw => by simpa [hpc, MainPc.Freed] using hw) hcreated
  | @free i j hpc _ _ =>
      rw [hpc] at hcreated
      refine { h with arrays := fun w hw => ?_, created := hcreated }
      by_cases hwi : w = i
      · exact .inr (by simp [hwi, MainPc.Freed])
      · refine (h.arrays w hw).imp (fun hmem => by simpa [hwi] using hmem) fun hfreed => ?_
        rw [hpc] at hfreed
        exact Nat.lt_succ_of_lt hfreed

end Q2pc
