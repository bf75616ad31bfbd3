import Q2pc.System.Workers

namespace Q2pc

open Function (update)

variable {C : Cluster} {s t : System} {b m m' : Nat → Nat}

theorem server_step {e : Event} (h : s.step C (.server e) = some t) :
    ∃ srv net, s.srv.step C.cfg e = some srv ∧ s.net.step C.cfg e = some net ∧
      t = { s with srv := srv, net := net } := by
  simp only [System.step] at h
  obtain ⟨srv, hsrv, h⟩ := Option.bind_eq_some_iff.mp h
  obtain ⟨net, hnet, h⟩ := Option.bind_eq_some_iff.mp h
  exact ⟨srv, net, hsrv, hnet, (Option.some.inj h).symm⟩

theorem Server.SlotReset.active {srv : Server} {c : Nat} (h : srv.SlotReset c) : srv.Active := by
  unfold Server.SlotReset at h
  unfold Server.Active
  split at h <;> simp_all

theorem AllYes.mono {r : Nat} (h : AllYes C s r)
    (hvotes : ∀ i < C.cfg.clientCount, (s.client i).votes <+: (t.client i).votes) :
    AllYes C t r :=
  fun i hi => getElem?_extend (hvotes i hi) (h i hi)

theorem Decided.mono {ph : Phase} (h : Decided C s ph)
    (hstop : s.srv.stopSignal = true → t.srv.stopSignal = true)
    (hreq : t.srv.requests = s.srv.requests)
    (hvotes : ∀ i < C.cfg.clientCount, (s.client i).votes <+: (t.client i).votes) :
    Decided C t ph := by
  intro hph
  rw [hreq]
  exact (h hph).imp hstop (fun h => h.mono hvotes)

theorem Verdict.mono {ph : Phase} {r : CommitStatus} (h : Verdict C s m ph r)
    (hstop : s.srv.stopSignal = true → t.srv.stopSignal = true)
    (hreq : t.srv.requests = s.srv.requests)
    (hvotes : ∀ i < C.cfg.clientCount, (s.client i).votes <+: (t.client i).votes)
    (hm : ∀ i, m i ≤ m' i) : Verdict C t m' ph r := by
  cases ph with
  | phase1 =>
      intro hr
      rw [hreq]
      exact (h hr).imp hstop (fun h => h.mono hvotes)
  | phase2 st =>
      intro hr
      rw [hreq]
      exact (h hr).imp hstop (fun h i hi => Nat.le_trans (h i hi) (hm i))

theorem Scanned.mono {ph : Phase} {r : CommitStatus} {j : Nat} (h : Scanned C s m j ph r)
    (hreq : t.srv.requests = s.srv.requests)
    (hvotes : ∀ i < C.cfg.clientCount, (s.client i).votes <+: (t.client i).votes)
    (hm : ∀ i, m i ≤ m' i) : Scanned C t m' j ph r := by
  cases ph with
  | phase1 =>
      intro hr i hi hij
      rw [hreq]
      exact getElem?_extend (hvotes i hi) (h hr i hi hij)
  | phase2 st =>
      refine ⟨h.1, fun hr i hi hij => ?_⟩
      rw [hreq]
      exact Nat.le_trans (h.2 hr i hi hij) (hm i)

theorem MasterOk.mono (h : MasterOk C s b m) (hpc : t.srv.master = s.srv.master)
    (hreq : t.srv.requests = s.srv.requests)
    (hrto : t.srv.connRtofiredCount = s.srv.connRtofiredCount)
    (hstop : s.srv.stopSignal = true → t.srv.stopSignal = true)
    (hbuf : t.net.writeBuffer = s.net.writeBuffer) (hpassed : t.net.passed = s.net.passed)
    (hvotes : ∀ i < C.cfg.clientCount, (s.client i).votes <+: (t.client i).votes)
    (hm : ∀ i, m i ≤ m' i)
    (hslot : ∀ i < C.cfg.clientCount,
      t.srv.votesScoreboard (C.peer i) = s.srv.votesScoreboard (C.peer i) ∨
      (s.srv.Active → 2 * s.srv.requests + 1 ≤ m' i)) :
    MasterOk C t b m' := by
  have hactive : t.srv.Active → s.srv.Active := by
    rintro ⟨hne, hround⟩
    refine ⟨hpc ▸ hne, fun hr => ?_⟩
    by_contra hs
    have := hround (hpc.trans hr)
    simp [hstop (by simpa using hs)] at this
  have hnow : t.srv.stageNow = s.srv.stageNow := by
    simp only [Server.stageNow, Server.stage, hpc, hreq]
  refine ⟨?_, ?_, ?_, ?_, ?_, ?_⟩
  · intro ht i hi
    rw [hnow]
    exact h.bound_le (hactive ht) i hi
  · intro ht i hi
    rw [hreq]
    exact Nat.le_trans (h.mark_ge (hactive ht) i hi) (hm i)
  · intro ht i hi hun
    rw [hnow]
    refine h.unsent (hactive ht) i hi ?_
    simpa only [Server.Unsent, hpc, hrto] using hun
  · intro ht i p hp
    rw [hnow, hpc]
    exact h.passed (hactive ht) i p (hpassed ▸ hp)
  · intro i hi hreset
    have hreset' : s.srv.SlotReset (C.peer i) := by
      simpa only [Server.SlotReset, hpc] using hreset
    rw [hreq]
    rcases hslot i hi with heq | hge
    · rw [heq]
      exact (h.reset i hi hreset').imp_right (fun hle => Nat.le_trans hle (hm i))
    · exact .inr (hge hreset'.active)
  · have hat := h.position
    have hbuffer : ∀ ph i, BufferOk s ph i → BufferOk t ph i := by
      intro ph i hb
      simpa only [BufferOk, Server.stage, hbuf, hreq] using hb
    have hdecided : ∀ ph, Decided C s ph → Decided C t ph :=
      fun ph hd => hd.mono hstop hreq hvotes
    have hcollected : ∀ ph, Collected C s ph → Collected C t ph :=
      fun ph hc => hc.imp hstop (fun hall i hi => hbuffer ph i (hall i hi))
    have hverdict : ∀ ph r, Verdict C s m ph r → Verdict C t m' ph r :=
      fun ph r hv => hv.mono hstop hreq hvotes hm
    have hscanned : ∀ ph r j, Scanned C s m j ph r → Scanned C t m' j ph r :=
      fun ph r j hs => hs.mono hreq hvotes hm
    unfold MasterAt at hat ⊢
    rw [hpc]
    split at hat
    · trivial
    · trivial
    · exact hdecided _ hat
    · exact hdecided _ hat
    · exact hdecided _ hat
    · exact hdecided _ hat
    · exact ⟨hdecided _ hat.1, fun i hi => hbuffer _ i (hat.2 i hi)⟩
    · exact ⟨hdecided _ hat.1, fun i hi => hbuffer _ i (hat.2 i hi)⟩
    · exact ⟨hdecided _ hat.1, hcollected _ hat.2⟩
    · exact ⟨hdecided _ hat.1, hcollected _ hat.2⟩
    · exact ⟨hdecided _ hat.1, hcollected _ hat.2⟩
    · obtain ⟨hd, hc, hlt, hnn, hb, hyes⟩ := hat
      refine ⟨hdecided _ hd, hcollected _ hc, hlt, by rwa [hrto], hbuffer _ _ hb, ?_⟩
      intro hph
      rw [hreq]
      exact (hyes hph).mono hvotes
    · exact ⟨hdecided _ hat.1, hscanned _ _ _ hat.2⟩
    · exact ⟨hdecided _ hat.1, hat.2.1, hscanned _ _ _ hat.2.2⟩
    · exact ⟨hdecided _ hat.1, hverdict _ _ hat.2⟩
    · exact ⟨hdecided _ hat.1, hverdict _ _ hat.2⟩
    · exact ⟨hdecided _ hat.1, hverdict _ _ hat.2⟩

theorem HistoryOk.mono (h : HistoryOk C s) (hpassed : t.net.passed = s.net.passed)
    (hvotes : ∀ i < C.cfg.clientCount, (s.client i).votes <+: (t.client i).votes)
    (hdec : ∀ i < C.cfg.clientCount, ∀ r d, (t.client i).decisions[r]? = some d →
      (s.client i).decisions[r]? = some d ∨
      ∃ p, (i, p) ∈ s.net.passed ∧ p.stage = 2 * r + 1 ∧ p.msg.type = d) :
    HistoryOk C t where
  agree := by
    rw [hpassed]
    exact h.agree
  lt := by
    rw [hpassed]
    exact h.lt
  commit := by
    rw [hpassed]
    exact fun i p hp hc => (h.commit i p hp hc).mono hvotes
  decisions := by
    rw [hpassed]
    intro i hi r d hd
    rcases hdec i hi r d hd with hd | hp
    · exact h.decisions i hi r d hd
    · exact hp

end Q2pc
