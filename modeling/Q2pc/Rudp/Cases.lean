import Q2pc.Rudp.Conn

namespace Q2pc

variable {c c' : Rudp} {pc pc' : EndWritePc} {e : EndWriteEvent}

inductive Rudp.EndWriteStep (c : Rudp) : EndWritePc → EndWriteEvent → Rudp → EndWritePc → Prop
  | sentBefore : c.ackOutstanding = true → EndWriteStep c .entry .go c .probe
  | transmit : c.ackOutstanding = false → EndWriteStep c .entry (.base true) c.transmit .record
  | failed : c.ackOutstanding = false → EndWriteStep c .entry (.base false) c (.ret .efin)
  | record : EndWriteStep c .record .go
      { c with currentSeq := c.seqNo, ackOutstanding := true } .probe
  | noProbe : c.isServer = false → EndWriteStep c .probe .go c .compare
  | probe (x : BaseRead) : c.isServer = true →
      EndWriteStep c .probe (.read x) (c.begRead x).1 .compare
  | probeFin (x : BaseRead) : c.isServer = true →
      EndWriteStep c .probe (.read x) (c.begRead x).1 (.ret .efin)
  | acked : c.currentSeq ≠ c.seqNo →
      EndWriteStep c .compare .go { c with ackOutstanding := false } (.ret .enone)
  | notAcked : c.currentSeq = c.seqNo → EndWriteStep c .compare .go c .timer
  | notExpired : EndWriteStep c .timer (.clock false) c (.ret .eagain)
  | expired : EndWriteStep c .timer (.clock true) c .resend
  | resend : EndWriteStep c .resend (.base true) c.bumpRto.transmit (.ret .rtofired)
  | resendFailed : EndWriteStep c .resend (.base false) c.bumpRto (.ret .efin)

theorem Rudp.endWriteStep_cases (h : c.endWriteStep pc e = some (c', pc')) :
    c.EndWriteStep pc e c' pc' := by
  cases pc <;> cases e <;> simp only [Rudp.endWriteStep, reduceCtorEq] at h
  case entry.go =>
      split at h <;> simp_all
      rename_i hack
      obtain ⟨rfl, rfl⟩ := h
      exact .sentBefore hack
  case entry.base sent =>
      split at h <;> simp_all
      rename_i hack
      cases sent <;> simp at h <;> obtain ⟨rfl, rfl⟩ := h
      · exact .failed hack
      · exact .transmit hack
  case record.go =>
      cases h
      exact .record
  case probe.go =>
      split at h <;> simp_all
      rename_i hrole
      obtain ⟨rfl, rfl⟩ := h
      exact .noProbe hrole
  case probe.read x =>
      split at h <;> try contradiction
      rename_i hrole
      split at h <;> cases h <;> rename_i hread
      · have := Rudp.EndWriteStep.probeFin x hrole
        simpa [hread] using this
      · have := Rudp.EndWriteStep.probe x hrole
        simpa [hread] using this
  case compare.go =>
      split at h <;> cases h
      · rename_i hne
        exact .acked hne
      · rename_i heq
        exact .notAcked (not_not.mp heq)
  case timer.clock expired =>
      cases expired <;> cases h
      · exact .notExpired
      · exact .expired
  case resend.base sent =>
      cases sent <;> simp at h <;> obtain ⟨rfl, rfl⟩ := h
      · exact .resendFailed
      · exact .resend

theorem Rudp.begRead_cases (c : Rudp) (x : BaseRead) :
    ((c.begRead x).1 = c ∧ ∀ p, (c.begRead x).2 = .data p → c.readData = some p) ∨
    ∃ d, x = .data d ∧ c.readData = none ∧
      (c.isServer = true → d.seqNo = c.seqNo ∧ c.begRead x =
        (c.accept (c.seqNo + 1) d.packet, .data d.packet)) ∧
      (c.isServer = false → c.seqNo < d.seqNo ∧ c.begRead x =
        (c.accept d.seqNo d.packet, .data d.packet)) := by
  unfold Rudp.begRead
  split
  · rename_i p hp
    exact .inl ⟨rfl, fun q hq => by cases hq; exact hp⟩
  · rename_i hnone
    cases x with
    | eagain => exact .inl ⟨rfl, by simp⟩
    | efin => exact .inl ⟨rfl, by simp⟩
    | data d =>
        dsimp only
        split
        · rename_i hrole
          split
          · exact .inl ⟨rfl, by simp⟩
          · rename_i hseq
            exact .inr ⟨d, rfl, hnone, fun _ => ⟨not_not.mp hseq, rfl⟩, by simp [hrole]⟩
        · rename_i hrole
          split
          · exact .inl ⟨rfl, by simp⟩
          · rename_i hseq
            exact .inr ⟨d, rfl, hnone, fun h => absurd h hrole, fun _ => ⟨by omega, rfl⟩⟩

theorem Rudp.begRead_accept (c : Rudp) (x : BaseRead) :
    ((c.begRead x).1 = c ∧ ∀ p, (c.begRead x).2 = .data p → c.readData = some p) ∨
    ∃ d k, x = .data d ∧ c.readData = none ∧
      c.begRead x = (c.accept k d.packet, .data d.packet) := by
  rcases c.begRead_cases x with h | ⟨d, hx, hnone, hserver, hclient⟩
  · exact .inl h
  · cases hrole : c.isServer with
    | true => exact .inr ⟨d, _, hx, hnone, (hserver hrole).2⟩
    | false => exact .inr ⟨d, _, hx, hnone, (hclient hrole).2⟩

theorem Rudp.readData_of_begRead {x : BaseRead} {p : Packet} (h : (c.begRead x).2 = .data p) :
    (c.begRead x).1.readData = some p := by
  rcases c.begRead_accept x with ⟨heq, hpending⟩ | ⟨d, k, -, -, heq⟩
  · rw [heq]
    exact hpending p h
  · rw [heq] at h ⊢
    simpa [Rudp.accept] using h

inductive RudpStep (c : RudpConn) : RudpEvent → RudpConn → Prop
  | masterWrite {p} : c.master = .idle ∨ c.master = .filled →
      RudpStep c (.masterWrite p) { c with server := c.server.begWrite p, master := .filled }
  | masterCall : c.master = .idle ∨ c.master = .filled →
      RudpStep c .masterCall { c with master := .call .entry }
  | masterStep {e pc server pc'} : c.master = .call pc → c.server.EndWriteStep pc e server pc' →
      RudpStep c (.masterStep e) { c with server, master := .call pc' }
  | masterRet {r} : c.master = .call (.ret r) →
      RudpStep c (.masterRet r) { c with master := .afterRet r }
  | workerRead {x : BaseRead} : x.from c.client →
      RudpStep c (.workerRead x) { c with server := (c.server.begRead x).1 }
  | workerRelease : RudpStep c .workerRelease { c with server := c.server.endRead }
  | connect {p} : c.clientPc = .init →
      RudpStep c (.clientWrite p)
        { c with client := c.client.begWrite p, clientPc := .connect .entry }
  | respond {p} : c.clientPc = .got →
      RudpStep c (.clientWrite p)
        { c with client := c.client.begWrite p, clientPc := .respond 0 .entry }
  | clientRet {r next} : c.clientPc.call = some (.ret r, next) →
      RudpStep c (.clientStep .go) { c with clientPc := c.clientPc.afterRet r }
  | clientStep {e : EndWriteEvent} {pc next client pc'} : c.clientPc.call = some (pc, next) →
      e.from c.server → c.client.EndWriteStep pc e client pc' →
      RudpStep c (.clientStep e) { c with client, clientPc := next pc' }
  | clientGet {x : BaseRead} {p} : c.clientPc = .getMessage → x.from c.server →
      (c.client.begRead x).2 = .data p →
      RudpStep c (.clientGet x) { c with
        client := (c.client.begRead x).1.endRead
        clientPc := .got
        clientGot := c.clientGot ++ [p] }
  | clientFin {x : BaseRead} : c.clientPc = .getMessage → x.from c.server →
      (c.client.begRead x).2 = .efin →
      RudpStep c (.clientGet x)
        { c with client := (c.client.begRead x).1.endRead, clientPc := .terminated }
  | clientAgain {x : BaseRead} : c.clientPc = .getMessage → x.from c.server →
      (∀ p, (c.client.begRead x).2 ≠ .data p) →
      RudpStep c (.clientGet x) { c with client := (c.client.begRead x).1 }
  | clientQuit : RudpStep c .clientQuit { c with clientPc := .terminated }

private theorem clientGet_cases {c c' : RudpConn} {x : BaseRead} (h : c.clientGet x = some c') :
    RudpStep c (.clientGet x) c' := by
  unfold RudpConn.clientGet at h
  split at h <;> try contradiction
  rename_i hpre
  obtain ⟨hpc, hx⟩ := hpre
  split at h
  · rename_i cl p heq
    cases h
    have := RudpStep.clientGet hpc hx (p := p) (by rw [heq])
    rwa [heq] at this
  · rename_i cl heq
    cases h
    have := RudpStep.clientFin hpc hx (by rw [heq])
    rwa [heq] at this
  · rename_i cl r hdata _ heq
    cases h
    have := RudpStep.clientAgain hpc hx (by
      intro p hp
      rw [heq] at hp
      exact hdata p hp)
    rwa [heq] at this

theorem RudpConn.step_cases {c c' : RudpConn} {e : RudpEvent} (h : c.step e = some c') :
    RudpStep c e c' := by
  cases e <;> simp only [RudpConn.step] at h
  case masterWrite p =>
      split at h <;> cases h
      · exact .masterWrite (.inl ‹_›)
      · exact .masterWrite (.inr ‹_›)
  case masterCall =>
      split at h <;> cases h
      · exact .masterCall (.inl ‹_›)
      · exact .masterCall (.inr ‹_›)
  case masterStep e =>
      split at h <;> try contradiction
      rename_i pc hpc
      simp only [Option.ite_none_right_eq_some] at h
      obtain ⟨⟨server, pc'⟩, hstep, rfl⟩ := Option.map_eq_some_iff.mp h.2
      exact .masterStep hpc (Rudp.endWriteStep_cases hstep)
  case masterRet r =>
      simp only [Option.ite_none_right_eq_some, Option.some.injEq] at h
      obtain ⟨hpc, rfl⟩ := h
      exact .masterRet hpc
  case workerRead x =>
      simp only [Option.ite_none_right_eq_some, Option.some.injEq] at h
      obtain ⟨hx, rfl⟩ := h
      exact .workerRead hx
  case workerRelease =>
      cases h
      exact .workerRelease
  case clientWrite p =>
      split at h <;> cases h
      · exact .connect ‹_›
      · exact .respond ‹_›
  case clientStep e =>
      unfold RudpConn.clientStep at h
      split at h
      · rename_i r next hcall
        simp only [Option.ite_none_right_eq_some, Option.some.injEq] at h
        obtain ⟨rfl, rfl⟩ := h
        exact .clientRet hcall
      · rename_i pc next hne hcall
        simp only [Option.ite_none_right_eq_some] at h
        obtain ⟨⟨client, pc'⟩, hstep, rfl⟩ := Option.map_eq_some_iff.mp h.2
        exact .clientStep hcall h.1 (Rudp.endWriteStep_cases hstep)
      · contradiction
  case clientGet x => exact clientGet_cases h
  case clientQuit =>
      cases h
      exact .clientQuit

end Q2pc
