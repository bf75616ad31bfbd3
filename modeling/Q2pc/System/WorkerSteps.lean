import Q2pc.System.Steps

namespace Q2pc

open Function (update)

variable {C : Cluster} {s : System} {b m : Nat → Nat} {w : Nat}

private theorem Inv.workerMove {srv : Server} {x : Worker} (h : Inv C s b m)
    (hpc : srv.master = s.srv.master) (hreq : srv.requests = s.srv.requests)
    (hrto : srv.connRtofiredCount = s.srv.connRtofiredCount)
    (hstop : s.srv.stopSignal = true → srv.stopSignal = true)
    (hslots : srv.votesScoreboard = s.srv.votesScoreboard)
    (hworkers : srv.workers = update s.srv.workers w x)
    (hold : WorkersOk.Free (s.srv.workers w).pc)
    (hnew : WorkerAt C.cfg s.net.readBuffer m w x.pc) :
    Inv C { s with srv := srv } b m where
  channel := by
    intro i hi
    simpa only [ChannelOk, hslots] using h.channel i hi
  workers := by
    simpa only [hworkers] using h.workers.move hold hnew
  master := h.master.mono hpc hreq hrto hstop rfl rfl (fun _ _ => List.prefix_refl _)
    (fun _ => Nat.le_refl _) (fun i _ => .inl (by rw [hslots]))
  history := h.history.mono rfl (fun _ _ => List.prefix_refl _) (fun _ _ _ _ hd => .inl hd)

theorem Inv.held_response (h : Inv C s b m) {i : Nat} {p : Packet} (hi : i < C.cfg.clientCount)
    (hp : s.net.readBuffer i = some p) :
    Response (C.peer i + 1) (s.client i).votes (s.client i).stage p :=
  ((h.channel i hi).pending_mem p hp).1

theorem lt_clientCount (hw : w < C.cfg.threadCount) {i : Nat} (hi : i < C.cfg.hi w) :
    i < C.cfg.clientCount :=
  Nat.lt_of_lt_of_le hi (C.cfg.hi_le w hw)

theorem begRead_cases {cfg : Config} {n n' : Net} {i : Nat} {r : ReadResult}
    (hnone : n.readBuffer i = none) (h : n.begRead cfg i r = some n') :
    ((r = .eagain ∨ r = .efin) ∧ n' = n) ∨
    ∃ p rest, r = .data p ∧ n.toServer i = p :: rest ∧ n' = { n with
      toServer := update n.toServer i rest, readBuffer := update n.readBuffer i (some p) } := by
  simp only [Net.begRead, hnone] at h
  split at h
  · rename_i p q rest hto
    simp only [Option.ite_none_right_eq_some, Option.some.injEq] at h
    obtain ⟨rfl, rfl⟩ := h
    exact .inr ⟨p, rest, rfl, hto, rfl⟩
  · simp_all
  · simp_all
  · contradiction

private theorem Inv.begRead (h : Inv C s b m) (hw : w < C.cfg.threadCount) {i : Nat}
    {r : ReadResult} {pc : WorkerPc} {net : Net} (hpc : (s.srv.workers w).pc = .poll i)
    (hi : i < C.cfg.hi w) (hr : Server.afterBegRead i r = some pc)
    (hnet : s.net.begRead C.cfg i r = some net) :
    Inv C { s with srv := s.srv.setWorker w pc, net := net } b m := by
  have hnone := h.workers.pending_none hw hpc hi
  have hlo := h.workers.position w hw
  simp only [hpc, WorkerAt] at hlo
  have hic := lt_clientCount hw hi
  rcases begRead_cases hnone hnet with ⟨hr', rfl⟩ | ⟨p, rest, rfl, hto, rfl⟩
  · refine h.workerMove (w := w) rfl rfl rfl id rfl rfl ?_ ?_
    · simp [hpc, WorkersOk.Free]
    · rcases hr' with rfl | rfl <;>
        simp only [Server.afterBegRead, Option.some.injEq] at hr <;> subst hr <;> simp [WorkerAt]
      omega
  · simp only [Server.afterBegRead, Option.some.injEq] at hr
    subst hr
    have hch := h.channel i hic
    simp only [ChannelOk, hto] at hch
    have hmark := (hch.toServer_mem p (by simp)).2
    exact {
      channel := by
        intro j hj
        by_cases hji : j = i
        · subst hji
          simpa [ChannelOk, Server.setWorker] using hch.begRead
        · simpa [ChannelOk, hji, Server.setWorker] using h.channel j hj
      workers := h.workers.begRead hw hpc hi hmark (hch.toServer_mem p (by simp)).1.timed
      master := h.master.mono rfl rfl rfl id rfl rfl (fun _ _ => List.prefix_refl _)
        (fun _ => Nat.le_refl _) (fun _ _ => .inl rfl)
      history := h.history.mono rfl (fun _ _ => List.prefix_refl _) (fun _ _ _ _ hd => .inl hd) }

private theorem Inv.score (h : Inv C s b m) (hw : w < C.cfg.threadCount) {i : Nat} {p : Packet}
    (hpc : (s.srv.workers w).pc = .score i p) :
    Inv C { s with srv := ({ s.srv with
      votesScoreboard := update s.srv.votesScoreboard (p.msg.srcHostid - 1).toNat p.msg.type
      } : Server).setWorker w (.endRead i p) } b (update m i (p.stage + 1)) := by
  have hat := h.workers.position w hw
  simp only [hpc, WorkerAt] at hat
  obtain ⟨-, hhi, hmark, -, hpending⟩ := hat
  have hic := lt_clientCount hw hhi
  have hresponse := h.held_response hic hpending
  have hslot : (p.msg.srcHostid - 1).toNat = C.peer i := by
    rw [hresponse.srcHostid]
    omega
  have hle : ∀ j, m j ≤ update m i (p.stage + 1) j := by
    intro j
    by_cases hji : j = i
    · subst hji
      simp only [Function.update_self]
      omega
    · simp [hji]
  have hch := h.channel i hic
  simp only [ChannelOk, hpending] at hch
  rw [hslot]
  exact {
    channel := by
      intro j hj
      by_cases hji : j = i
      · subst hji
        simpa [ChannelOk, Server.setWorker, hpending] using hch.score hmark
      · have hne : C.peer j ≠ C.peer i := fun heq => hji (C.peer.injective heq)
        simpa [ChannelOk, hji, hne, Server.setWorker] using h.channel j hj
    workers := h.workers.score hw hpc
    master := by
      refine h.master.mono rfl rfl rfl id rfl rfl (fun _ _ => List.prefix_refl _) hle ?_
      intro j hj
      by_cases hji : j = i
      · subst hji
        refine .inr fun hactive => ?_
        have := h.master.mark_ge hactive j hj
        simp only [Function.update_self]
        omega
      · have hne : C.peer j ≠ C.peer i := fun heq => hji (C.peer.injective heq)
        exact .inl (by simp [hne, Server.setWorker])
    history := h.history.mono rfl (fun _ _ => List.prefix_refl _) (fun _ _ _ _ hd => .inl hd) }

private theorem Inv.endRead (h : Inv C s b m) (hw : w < C.cfg.threadCount) {i : Nat} {p : Packet}
    (hpc : (s.srv.workers w).pc = .endRead i p) :
    Inv C { s with
      srv := s.srv.setWorker w (.loadCount i p)
      net := { s.net with readBuffer := update s.net.readBuffer i none } } b m where
  channel := by
    intro j hj
    by_cases hji : j = i
    · subst hji
      simpa [ChannelOk, Server.setWorker] using (h.channel j hj).endRead
    · simpa [ChannelOk, hji, Server.setWorker] using h.channel j hj
  workers := h.workers.endRead hw hpc
  master := h.master.mono rfl rfl rfl id rfl rfl (fun _ _ => List.prefix_refl _)
    (fun _ => Nat.le_refl _) (fun _ _ => .inl rfl)
  history := h.history.mono rfl (fun _ _ => List.prefix_refl _) (fun _ _ _ _ hd => .inl hd)

theorem nextMark_of_score {srv : Server} {i : Nat} {p : Packet}
    (hpc : (srv.workers w).pc = .score i p) :
    srv.nextMark m (.worker w) = update m i (p.stage + 1) := by
  simp only [Server.nextMark, hpc]

theorem nextMark_of_workerStep {cfg : Config} {srv t : Server} {e : Event}
    (hs : WorkerStep cfg srv w e t) (hpc : ∀ i p, (srv.workers w).pc ≠ .score i p) :
    srv.nextMark m e = m := by
  cases hs <;> simp_all [Server.nextMark]

theorem Inv.workerStep {e : Event} {srv : Server} {net : Net} (h : Inv C s b m)
    (hw : w < C.cfg.threadCount) (hs : WorkerStep C.cfg s.srv w e srv)
    (hnet : s.net.step C.cfg e = some net) :
    Inv C { s with srv := srv, net := net } b (s.srv.nextMark m e) := by
  have hat := h.workers.position w hw
  have hmark := nextMark_of_workerStep (m := m) hs
  cases hs with
  | score hpc _ _ =>
      cases hnet
      rw [nextMark_of_score hpc]
      exact h.score hw hpc
  | @outOfRange i p hpc hout =>
      -- a client of the cluster has its id in the range
      simp only [hpc, WorkerAt] at hat
      have hic := lt_clientCount hw hat.2.1
      have hid := (h.held_response hic hat.2.2.2.2).srcHostid
      have := (C.peer_lt i).mpr hic
      omega
  | begRead hpc hi hr =>
      rw [hmark (by simp [hpc])]
      exact h.begRead hw hpc hi hr hnet
  | endRead hpc =>
      cases hnet
      rw [hmark (by simp [hpc])]
      exact h.endRead hw hpc
  | leave hpc hstop =>
      cases hnet
      rw [hmark (by simp [hpc])]
      exact h.workerMove rfl rfl rfl id rfl rfl (by simp [hpc, WorkersOk.Free]) trivial
  | stay hpc hstop =>
      cases hnet
      rw [hmark (by simp [hpc])]
      exact h.workerMove rfl rfl rfl id rfl rfl (by simp [hpc, WorkersOk.Free]) trivial
  | paused hpc hp =>
      cases hnet
      rw [hmark (by simp [hpc])]
      exact h.workerMove rfl rfl rfl id rfl rfl (by simp [hpc, WorkersOk.Free]) trivial
  | startPass hpc hp =>
      cases hnet
      rw [hmark (by simp [hpc])]
      exact h.workerMove rfl rfl rfl id rfl rfl (by simp [hpc, WorkersOk.Free]) (Nat.le_refl _)
  | clearCount hpc =>
      cases hnet
      rw [hmark (by simp [hpc])]
      exact h.workerMove rfl rfl rfl id rfl rfl (by simp [hpc, WorkersOk.Free]) trivial
  | endPass hpc hi =>
      cases hnet
      rw [hmark (by simp [hpc])]
      exact h.workerMove rfl rfl rfl id rfl rfl (by simp [hpc, WorkersOk.Free]) trivial
  | loadCount hpc =>
      cases hnet
      simp only [hpc, WorkerAt] at hat
      rw [hmark (by simp [hpc])]
      exact h.workerMove rfl rfl rfl id rfl rfl (by simp [hpc, WorkersOk.Free]) hat
  | storeCount hpc =>
      cases hnet
      simp only [hpc, WorkerAt] at hat
      rw [hmark (by simp [hpc])]
      exact h.workerMove rfl rfl rfl id rfl rfl (by simp [hpc, WorkersOk.Free]) hat.1
  | raiseStop hpc =>
      cases hnet
      rw [hmark (by simp [hpc])]
      exact h.workerMove rfl rfl rfl (fun _ => rfl) rfl rfl (by simp [hpc, WorkersOk.Free]) trivial
  | exit hpc hi =>
      cases hnet
      rw [hmark (by simp [hpc])]
      exact h.workerMove rfl rfl rfl id rfl rfl (by simp [hpc, WorkersOk.Free]) trivial
  | timeEnd hpc =>
      cases hnet
      simp only [hpc, WorkerAt] at hat
      rw [hmark (by simp [hpc])]
      refine h.workerMove rfl rfl rfl id rfl rfl (by simp [hpc, WorkersOk.Free]) ?_
      dsimp only
      split
      · trivial
      · exact Nat.le_succ_of_le hat
  | delete hpc hi =>
      cases hnet
      rw [hmark (by simp [hpc])]
      exact h.workerMove rfl rfl rfl id rfl rfl (by simp [hpc, WorkersOk.Free]) trivial

end Q2pc
