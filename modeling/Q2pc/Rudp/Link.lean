import Q2pc.Rudp.Cases
import Q2pc.Lib.Delivery

namespace Q2pc

variable {c c' s s' : Rudp} {pc pc' : EndWritePc} {e : EndWriteEvent} {x : BaseRead} {p : Packet}

theorem Packet.SameButOwn.refl (isServer : Bool) (p : Packet) : p.SameButOwn isServer p := by
  refine ⟨⟨⟨rfl, rfl, rfl⟩, rfl⟩, ?_⟩
  split <;> rfl

-- Each datagram, and the write buffer, is a message written, at its position.
structure Rudp.SentOk (c : Rudp) : Prop where
  sent : ∀ d ∈ c.sent, ∃ k p, d.seqNo = (k : Nat) ∧ c.wrote[k]? = some p ∧
    p.SameButOwn c.isServer d.packet
  buffer : ∀ k, c.wrote.length = k + 1 → c.writeSeq = k ∧
    ∃ p, c.wrote[k]? = some p ∧ p.SameButOwn c.isServer c.writeData

-- The two ends of a connection: the client process has accepted no more messages than
-- the server process wrote, which are no more than those it accepted, and so on round.
structure RudpLink (s c : Rudp) : Prop where
  serverRole : s.isServer = false
  clientRole : c.isServer = true
  serverSeq : s.seqNo + 1 = s.accepted.length
  clientSeq : c.seqNo = c.accepted.length
  clientHeard_le : c.accepted.length ≤ s.wrote.length
  serverWrote_le : s.wrote.length ≤ s.accepted.length
  clientWrote_le : c.wrote.length ≤ c.accepted.length + 1
  serverSent : s.SentOk
  clientSent : c.SentOk
  serverHeard : Delivers (Packet.SameButOwn true) c.wrote s.accepted
  clientHeard : Delivers (Packet.SameButOwn false) s.wrote c.accepted

theorem RudpLink.init : RudpLink (.connect false) (.connect true) where
  serverRole := rfl
  clientRole := rfl
  serverSeq := rfl
  clientSeq := rfl
  clientHeard_le := Nat.le_refl _
  serverWrote_le := Nat.le_refl _
  clientWrote_le := Nat.zero_le _
  serverSent := ⟨by simp [Rudp.connect], by simp [Rudp.connect]⟩
  clientSent := ⟨by simp [Rudp.connect], by simp [Rudp.connect]⟩
  serverHeard := .nil
  clientHeard := .nil

-- The positions at which both ends have got to the same message or the server process
-- is one behind.
theorem RudpLink.window (h : RudpLink s c) :
    c.seqNo = s.seqNo ∨ c.seqNo = s.seqNo + 1 := by
  have := h.serverSeq
  have := h.clientSeq
  have := h.clientHeard_le
  have := h.serverWrote_le
  have := h.clientWrote_le
  have := h.serverHeard.length_le
  omega

theorem RudpLink.next_of_newer (h : RudpLink s c) {d : Datagram} (hd : d ∈ c.sent)
    (hnew : s.seqNo < d.seqNo) : d.seqNo = s.seqNo + 1 := by
  obtain ⟨k, p, hk, hp, -⟩ := h.clientSent.sent d hd
  have hlt := (List.getElem?_eq_some_iff.mp hp).1
  have := h.window
  have := h.clientSeq
  have := h.clientWrote_le
  omega

theorem Rudp.SentOk.congr (h : c.SentOk) (hrole : c'.isServer = c.isServer)
    (hwrote : c'.wrote = c.wrote) (hsent : c'.sent = c.sent) (hseq : c'.writeSeq = c.writeSeq)
    (hdata : ∀ p : Packet, p.SameButOwn c.isServer c.writeData →
      p.SameButOwn c.isServer c'.writeData) : c'.SentOk := by
  constructor
  · rw [hsent, hwrote, hrole]
    exact h.sent
  · intro k hk
    rw [hwrote] at hk ⊢
    rw [hrole]
    obtain ⟨hw, p, hp, hsame⟩ := h.buffer k hk
    exact ⟨hseq ▸ hw, p, hp, hdata p hsame⟩

theorem Rudp.SentOk.transmit (h : c.SentOk) (hwrote : c.wrote ≠ []) : c.transmit.SentOk := by
  obtain ⟨k, hk⟩ : ∃ k, c.wrote.length = k + 1 :=
    Nat.exists_eq_succ_of_ne_zero (by simpa using hwrote)
  obtain ⟨hseq, p, hp, hsame⟩ := h.buffer k hk
  refine ⟨?_, h.buffer⟩
  intro d hd
  rcases List.mem_append.mp hd with hd | hd
  · exact h.sent d hd
  · obtain rfl := List.mem_singleton.mp hd
    exact ⟨k, p, hseq, hp, hsame⟩

theorem Rudp.SentOk.begWrite (h : c.SentOk) (hseq : c.seqNo = c.wrote.length) :
    (c.begWrite p).SentOk := by
  constructor
  · intro d hd
    obtain ⟨k, q, hk, hq, hsame⟩ := h.sent d hd
    refine ⟨k, q, hk, ?_, hsame⟩
    have hlt := (List.getElem?_eq_some_iff.mp hq).1
    simp only [Rudp.begWrite]
    rw [List.getElem?_append_left hlt, hq]
  · intro k hk
    obtain rfl : k = c.wrote.length := by simpa [Rudp.begWrite] using hk.symm
    exact ⟨hseq, p, by simp [Rudp.begWrite], .refl c.isServer p⟩

theorem Rudp.SentOk.bumpRto (h : c.SentOk) : c.bumpRto.SentOk := by
  refine h.congr rfl rfl rfl rfl fun p hp => ?_
  cases hrole : c.isServer <;> rw [hrole] at hp <;> simp only [Rudp.bumpRto, hrole] <;> exact hp

theorem RudpLink.congr (h : RudpLink s c)
    (hs : s'.isServer = s.isServer ∧ s'.seqNo = s.seqNo ∧ s'.wrote = s.wrote ∧
      s'.accepted = s.accepted) (hsent : s.SentOk → s'.SentOk)
    (hc : c'.isServer = c.isServer ∧ c'.seqNo = c.seqNo ∧ c'.wrote = c.wrote ∧
      c'.accepted = c.accepted) (hcsent : c.SentOk → c'.SentOk) : RudpLink s' c' := by
  obtain ⟨hs₁, hs₂, hs₃, hs₄⟩ := hs
  obtain ⟨hc₁, hc₂, hc₃, hc₄⟩ := hc
  constructor
  · rw [hs₁, h.serverRole]
  · rw [hc₁, h.clientRole]
  · rw [hs₂, hs₄, h.serverSeq]
  · rw [hc₂, hc₄, h.clientSeq]
  · rw [hc₄, hs₃]
    exact h.clientHeard_le
  · rw [hs₃, hs₄]
    exact h.serverWrote_le
  · rw [hc₃, hc₄]
    exact h.clientWrote_le
  · exact hsent h.serverSent
  · exact hcsent h.clientSent
  · rw [hc₃, hs₄]
    exact h.serverHeard
  · rw [hs₃, hc₄]
    exact h.clientHeard

theorem RudpLink.serverWrite (h : RudpLink s c) (hidle : s.accepted.length = s.wrote.length + 1) :
    RudpLink (s.begWrite p) c := by
  have hseq := h.serverSeq
  have hheard := h.clientHeard_le
  have hprefix : s.wrote <+: s.wrote ++ [p] := List.prefix_append _ _
  exact {
    serverRole := h.serverRole
    clientRole := h.clientRole
    serverSeq := hseq
    clientSeq := h.clientSeq
    clientHeard_le := by simp only [Rudp.begWrite, List.length_append]; omega
    serverWrote_le := by simp [Rudp.begWrite, hidle]
    clientWrote_le := h.clientWrote_le
    serverSent := h.serverSent.begWrite (by omega)
    clientSent := h.clientSent
    serverHeard := h.serverHeard
    clientHeard := h.clientHeard.mono hprefix }

theorem RudpLink.clientWrite (h : RudpLink s c) (hidle : c.wrote.length = c.accepted.length) :
    RudpLink s (c.begWrite p) := by
  have hseq := h.clientSeq
  have hprefix : c.wrote <+: c.wrote ++ [p] := List.prefix_append _ _
  exact {
    serverRole := h.serverRole
    clientRole := h.clientRole
    serverSeq := h.serverSeq
    clientSeq := hseq
    clientHeard_le := h.clientHeard_le
    serverWrote_le := h.serverWrote_le
    clientWrote_le := by simp [Rudp.begWrite, hidle]
    serverSent := h.serverSent
    clientSent := h.clientSent.begWrite (by omega)
    serverHeard := h.serverHeard.mono hprefix
    clientHeard := h.clientHeard }

theorem RudpLink.serverAccept (h : RudpLink s c) {d : Datagram} (hd : d ∈ c.sent)
    (hnew : s.seqNo < d.seqNo) : RudpLink (s.accept d.seqNo d.packet) c := by
  obtain ⟨k, p, hk, hp, hsame⟩ := h.clientSent.sent d hd
  have hnext := h.next_of_newer hd hnew
  have hseq := h.serverSeq
  obtain rfl : k = s.accepted.length := by omega
  have hwrote := h.serverWrote_le
  exact {
    serverRole := h.serverRole
    clientRole := h.clientRole
    serverSeq := by simp [Rudp.accept]; omega
    clientSeq := h.clientSeq
    clientHeard_le := h.clientHeard_le
    serverWrote_le := by simp only [Rudp.accept, List.length_append]; omega
    clientWrote_le := h.clientWrote_le
    serverSent := h.serverSent.congr rfl rfl rfl rfl fun _ hp => hp
    clientSent := h.clientSent
    serverHeard := h.serverHeard.next hp (h.clientRole ▸ hsame)
    clientHeard := h.clientHeard }

theorem RudpLink.clientAccept (h : RudpLink s c) {d : Datagram} (hd : d ∈ s.sent)
    (heq : d.seqNo = c.seqNo) : RudpLink s (c.accept (c.seqNo + 1) d.packet) := by
  obtain ⟨k, p, hk, hp, hsame⟩ := h.serverSent.sent d hd
  have hseq := h.clientSeq
  obtain rfl : k = c.accepted.length := by omega
  have hlt := (List.getElem?_eq_some_iff.mp hp).1
  have hwrote := h.clientWrote_le
  exact {
    serverRole := h.serverRole
    clientRole := h.clientRole
    serverSeq := h.serverSeq
    clientSeq := by simp [Rudp.accept]; omega
    clientHeard_le := by simp only [Rudp.accept, List.length_append, List.length_singleton]; omega
    serverWrote_le := h.serverWrote_le
    clientWrote_le := by simp only [Rudp.accept, List.length_append]; omega
    serverSent := h.serverSent
    clientSent := h.clientSent.congr rfl rfl rfl rfl fun _ hp => hp
    serverHeard := h.serverHeard
    clientHeard := h.clientHeard.next hp (h.serverRole ▸ hsame) }

theorem RudpLink.serverRead_cases (h : RudpLink s c) (hx : x.from c) :
    (s.begRead x).1 = s ∨
      ∃ d ∈ c.sent, d.seqNo = s.accepted.length ∧ ∃ k, (s.begRead x).1 = s.accept k d.packet := by
  rcases s.begRead_cases x with ⟨heq, -⟩ | ⟨d, rfl, -, -, hdata⟩
  · exact .inl heq
  · obtain ⟨hnew, heq⟩ := hdata h.serverRole
    have hnext := h.next_of_newer hx hnew
    have hseq := h.serverSeq
    exact .inr ⟨d, hx, by omega, d.seqNo, by rw [heq]⟩

theorem RudpLink.clientRead_cases (h : RudpLink s c) (hx : x.from s) :
    (c.begRead x).1 = c ∨
      ∃ d ∈ s.sent, d.seqNo = c.accepted.length ∧ ∃ k, (c.begRead x).1 = c.accept k d.packet := by
  rcases c.begRead_cases x with ⟨heq, -⟩ | ⟨d, rfl, -, hdata, -⟩
  · exact .inl heq
  · obtain ⟨hnext, heq⟩ := hdata h.clientRole
    have hseq := h.clientSeq
    exact .inr ⟨d, hx, by omega, c.seqNo + 1, by rw [heq]⟩

theorem RudpLink.serverRead (h : RudpLink s c) (hx : x.from c) : RudpLink (s.begRead x).1 c := by
  rcases s.begRead_cases x with ⟨heq, -⟩ | ⟨d, rfl, -, -, hdata⟩
  · rwa [heq]
  · obtain ⟨hnew, heq⟩ := hdata h.serverRole
    rw [heq]
    exact h.serverAccept hx hnew

theorem RudpLink.clientRead (h : RudpLink s c) (hx : x.from s) : RudpLink s (c.begRead x).1 := by
  rcases c.begRead_cases x with ⟨heq, -⟩ | ⟨d, rfl, -, hdata, -⟩
  · rwa [heq]
  · obtain ⟨hseq, heq⟩ := hdata h.clientRole
    rw [heq]
    exact h.clientAccept hx hseq

theorem RudpLink.serverCall (h : RudpLink s c) (hwrote : s.wrote ≠ [])
    (hs : s.EndWriteStep pc e s' pc') : RudpLink s' c := by
  have hid : c.SentOk → c.SentOk := id
  cases hs with
  | sentBefore | failed | noProbe | notAcked | notExpired | expired => exact h
  | transmit => exact h.congr ⟨rfl, rfl, rfl, rfl⟩ (·.transmit hwrote) ⟨rfl, rfl, rfl, rfl⟩ hid
  | record | acked =>
      exact h.congr ⟨rfl, rfl, rfl, rfl⟩ (·.congr rfl rfl rfl rfl fun _ hp => hp)
        ⟨rfl, rfl, rfl, rfl⟩ hid
  | probe x hrole | probeFin x hrole => simp [h.serverRole] at hrole
  | resend =>
      exact h.congr ⟨rfl, rfl, rfl, rfl⟩ (·.bumpRto.transmit hwrote) ⟨rfl, rfl, rfl, rfl⟩ hid
  | resendFailed => exact h.congr ⟨rfl, rfl, rfl, rfl⟩ (·.bumpRto) ⟨rfl, rfl, rfl, rfl⟩ hid

theorem RudpLink.clientCall (h : RudpLink s c) (hwrote : c.wrote ≠ []) (he : e.from s)
    (hs : c.EndWriteStep pc e c' pc') : RudpLink s c' := by
  have hid : s.SentOk → s.SentOk := id
  cases hs with
  | sentBefore | failed | noProbe | notAcked | notExpired | expired => exact h
  | transmit => exact h.congr ⟨rfl, rfl, rfl, rfl⟩ hid ⟨rfl, rfl, rfl, rfl⟩ (·.transmit hwrote)
  | record | acked =>
      exact h.congr ⟨rfl, rfl, rfl, rfl⟩ hid ⟨rfl, rfl, rfl, rfl⟩
        (·.congr rfl rfl rfl rfl fun _ hp => hp)
  | probe x hrole | probeFin x hrole => exact h.clientRead he
  | resend =>
      exact h.congr ⟨rfl, rfl, rfl, rfl⟩ hid ⟨rfl, rfl, rfl, rfl⟩ (·.bumpRto.transmit hwrote)
  | resendFailed => exact h.congr ⟨rfl, rfl, rfl, rfl⟩ hid ⟨rfl, rfl, rfl, rfl⟩ (·.bumpRto)

end Q2pc
