import Mathlib.Data.Finset.Card
import Mathlib.Order.Interval.Finset.Nat
import Q2pc.Lib.Simulation
import Q2pc.Tcp.Mirror

namespace Q2pc

open Function (update)

variable {C : Cluster} {msgSize i : Nat} {s s' : TcpSystem} {a : System} {c : TcpConn} {cl : Client}
  {l : TcpLink} {x : PipeRead} {r : BegRead} {id : Int}

theorem conMsg_fits (id : Int) : (conMsg id).Fits := by
  have hlo := Int.le_bmod (x := id) (m := 2 ^ 16) (by decide)
  have hhi := Int.bmod_lt (x := id) (m := 2 ^ 16) (by decide)
  refine ⟨rfl, by simp [conMsg, MsgType.code], ⟨?_, ?_⟩, by simp [conMsg], by simp [conMsg],
    by simp [conMsg]⟩
  · simp only [conMsg, i16]
    omega
  · simp only [conMsg, i16]
    omega

-- A connection before the server is up: the client has sent its connect message, or nothing.
structure TcpConn.Joining (msgSize : Nat) (id : Int) (c : TcpConn) : Prop where
  down : c.down.Carries msgSize []
  idle : c.down.shown = none
  buffer : c.buffer = ⟨requestMsg .lost 0, 0⟩
  passed : c.passed = []
  up : c.up.Carries msgSize c.sent
  shown : c.up.shown = none
  sent : c.sent = if c.joined then [⟨conMsg id, 0⟩] else []

def TcpConn.Connected (c : TcpConn) : Prop := c.up.delivered ≠ []

instance : DecidablePred TcpConn.Connected := fun _ => inferInstanceAs (Decidable (_ ≠ _))

namespace TcpConn.Joining

theorem init (msgSize : Nat) (id : Int) : Joining msgSize id ((TcpSystem.init C).conn i) where
  down := .init msgSize
  idle := rfl
  buffer := rfl
  passed := rfl
  up := .init msgSize
  shown := rfl
  sent := rfl

theorem delivered_le (h : c.Joining msgSize id) (hpos : 0 < msgSize) :
    c.up.delivered.length ≤ 1 := by
  have hle := h.up.delivered_le hpos
  rw [h.sent] at hle
  split at hle
  · exact hle
  · exact Nat.le_trans hle (Nat.zero_le 1)

theorem join (h : c.Joining msgSize id) (hmin : 16 ≤ msgSize) (hjoined : c.joined = false)
    (hs : c.up.send msgSize (conMsg id) = some l) :
    Joining msgSize id { c with up := l, joined := true, sent := c.sent ++ [⟨conMsg id, 0⟩] } ∧
      l.delivered = c.up.delivered := by
  obtain ⟨l', hbeg, hend⟩ := Option.bind_eq_some_iff.mp hs
  obtain ⟨-, hdelivered, hshown⟩ := TcpLink.writer_frame hbeg trivial
  obtain ⟨-, hdelivered', hshown'⟩ := TcpLink.writer_frame hend trivial
  obtain ⟨hup, hdecode⟩ := h.up.begWrite hmin (conMsg_fits id) hbeg
  have hempty : c.sent = [] := by simpa [hjoined] using h.sent
  refine ⟨{ h with
    up := (hup.endWrite hdecode hend).1
    shown := (hshown'.trans hshown).trans h.shown
    sent := by simp [hempty] }, hdelivered'.trans hdelivered⟩

theorem write {x : SysWrite} (h : c.Joining msgSize id)
    (hs : c.up.step msgSize (.write x) = some l) :
    Joining msgSize id { c with up := l } ∧ l.delivered = c.up.delivered := by
  obtain ⟨-, hdelivered, hshown⟩ := TcpLink.writer_frame hs trivial
  exact ⟨{ h with
    up := (h.up.write hs).1
    shown := hshown.trans h.shown }, hdelivered⟩

theorem close (h : c.Joining msgSize id) :
    Joining msgSize id { c with up := { c.up with closed := true } } :=
  { h with up := h.up.close }

theorem receive (h : c.Joining msgSize id) (hmin : 16 ≤ msgSize)
    (hs : c.down.begRead msgSize x = some (l, r)) :
    r.ret ≠ .enone ∧ Joining msgSize id { c with down := l } := by
  obtain ⟨hdown, ⟨-, off, p, -, -, -, -, hp⟩ | ⟨hret, -, hnone, -⟩⟩ := h.down.begRead hmin hs
  · simp at hp
  · refine ⟨?_, { h with
      down := hdown
      idle := hnone }⟩
    rcases hret with hret | hret <;> simp [hret]

theorem downEndRead (h : c.Joining msgSize id)
    (hs : c.down.step msgSize .endDelimit = some l) : Joining msgSize id { c with down := l } := by
  obtain ⟨hdown, -, -, hnone⟩ := h.down.endNothing h.idle hs
  exact { h with
    down := hdown
    idle := hnone }

-- Once the server is up the connection is as the other cluster has it.
theorem mirror (h : c.Joining msgSize id) (hpos : 0 < msgSize) (hconnected : c.Connected) :
    TcpMirror msgSize c .init i := by
  have hle := h.delivered_le hpos
  have hlt := List.length_pos_of_ne_nil hconnected
  have hsent := h.up.delivered_le hpos
  have hjoined : c.joined = true := by
    by_contra hnot
    have hnil := h.sent
    rw [if_neg hnot] at hnil
    rw [hnil, List.length_nil] at hsent
    omega
  have hone := congrArg List.length h.sent
  rw [if_pos hjoined, List.length_singleton] at hone
  exact {
    joined := hjoined
    down := h.passed ▸ h.down
    up := h.up
    idle := h.idle
    buffer := h.buffer.symm
    filled := fun hne => absurd (by rw [h.buffer]; rfl) hne
    passed := by simp [h.passed]
    toClient := by simp [h.passed, Net.init]
    toServer := by
      rw [List.drop_eq_nil_of_le (by omega)]
      rfl
    pending := by simp [Net.init, h.shown]
    data := fun hne => absurd h.shown hne }

theorem connect (h : c.Joining msgSize id) (hmin : 16 ≤ msgSize)
    (hs : c.up.begRead msgSize x = some (l, r)) :
    (r.ret ≠ .enone ∧ Joining msgSize id { c with up := l } ∧ l.delivered = c.up.delivered) ∨
    (r.ret = .enone ∧ ¬c.Connected ∧ ∃ data l', r.out = some data ∧ (l.message data).type = .con ∧
      l.step msgSize .endDelimit = some l' ∧ Joining msgSize id { c with up := l' } ∧
      l'.delivered ≠ []) := by
  obtain ⟨-, -, -, hdelivered⟩ := TcpLink.begRead_frame hs
  obtain ⟨hup, ⟨hret, off, p, hout, hres, hshown, hmsg, hp⟩ | ⟨hret, -, hnone, -⟩⟩ :=
    h.up.begRead hmin hs
  · obtain ⟨l', p', hend, hup', -, -, -, hlen, hnone, -⟩ := hup.endRead hmin hshown hres
    have hsent : p.msg.type = .con ∧ c.up.delivered.length = 0 := by
      rw [h.sent] at hp
      split at hp
      · obtain ⟨hk, rfl⟩ := List.getElem?_eq_some_iff.mp hp
        have hzero : c.up.delivered.length = 0 := by simpa using hk
        simp [hzero, conMsg]
      · simp at hp
    refine .inr ⟨hret, ?_, _, l', hout, ?_, hend, { h with up := hup', shown := hnone }, ?_⟩
    · simpa [TcpConn.Connected] using hsent.2
    · simp only [TcpLink.message, hmsg, hsent.1]
    · intro hnil
      simp [hnil] at hlen
  · refine .inl ⟨?_, { h with up := hup, shown := hnone }, hdelivered⟩
    rcases hret with hret | hret <;> simp [hret]

end TcpConn.Joining

-- Until `do_connectall` has returned the other cluster waits. Clients may terminate.
structure TcpConnecting (msgSize : Nat) (C : Cluster) (s : TcpSystem) (a : System) : Prop where
  up : s.up = false
  srv : s.srv = .init
  waits : a.srv = .init ∧ a.net = .init
  conn : ∀ i < C.cfg.clientCount, (s.conn i).Joining msgSize (C.peer i + 1)
  client : s.client = a.client
  clientNum : ∀ i, (s.client i).clientNum = C.peer i + 1
  unstarted : ∀ i old, (s.client i).pc ≠ .respond old
  connected : s.connected =
    ((Finset.range C.cfg.clientCount).filter fun i => (s.conn i).Connected).card

namespace TcpConnecting

theorem init (msgSize : Nat) (C : Cluster) : TcpConnecting msgSize C (.init C) (.init C) where
  up := rfl
  srv := rfl
  waits := ⟨rfl, rfl⟩
  conn := fun _ _ => .init msgSize _
  client := rfl
  clientNum := fun _ => rfl
  unstarted := by simp [TcpSystem.init, Client.start]
  connected := by simp [TcpSystem.init, TcpConn.Connected, TcpLink.init]

private theorem joinings (h : TcpConnecting msgSize C s a)
    (hc : i < C.cfg.clientCount → c.Joining msgSize (C.peer i + 1)) :
    ∀ j < C.cfg.clientCount, (update s.conn i c j).Joining msgSize (C.peer j + 1) := by
  intro j hj
  by_cases hji : j = i
  · subst hji
    rw [Function.update_self]
    exact hc hj
  · rw [Function.update_of_ne hji]
    exact h.conn j hj

private theorem change (h : TcpConnecting msgSize C s a)
    (hc : i < C.cfg.clientCount → c.Joining msgSize (C.peer i + 1))
    (hsame : c.up.delivered = (s.conn i).up.delivered) :
    TcpConnecting msgSize C { s with conn := update s.conn i c } a :=
  { h with
    conn := h.joinings hc
    connected := by
      have hfilter : (Finset.range C.cfg.clientCount).filter
          (fun j => (update s.conn i c j).Connected) =
          (Finset.range C.cfg.clientCount).filter fun j => (s.conn j).Connected := by
        refine Finset.filter_congr fun j _ => ?_
        by_cases hji : j = i
        · subst hji
          rw [Function.update_self, TcpConn.Connected, TcpConn.Connected, hsame]
        · rw [Function.update_of_ne hji]
      show s.connected = _
      rw [hfilter]
      exact h.connected }

private theorem connectNew (h : TcpConnecting msgSize C s a) (hi : i < C.cfg.clientCount)
    (hc : c.Joining msgSize (C.peer i + 1)) (hwas : ¬(s.conn i).Connected) (hnow : c.Connected) :
    TcpConnecting msgSize C
      { s with connected := s.connected + 1, conn := update s.conn i c } a :=
  { h with
    conn := h.joinings fun _ => hc
    connected := by
      have hfilter : (Finset.range C.cfg.clientCount).filter
          (fun j => (update s.conn i c j).Connected) =
          insert i ((Finset.range C.cfg.clientCount).filter fun j => (s.conn j).Connected) := by
        ext j
        simp only [Finset.mem_filter, Finset.mem_range, Finset.mem_insert]
        by_cases hji : j = i
        · subst hji
          simp [hi, hnow]
        · simp [hji]
      show s.connected + 1 = _
      rw [hfilter, Finset.card_insert_of_notMem (by simp [hwas]), h.connected] }

theorem connect (h : TcpConnecting msgSize C s a) (hmin : 16 ≤ msgSize)
    (hi : i < C.cfg.clientCount) (hs : s.connect msgSize i x = some s') :
    TcpConnecting msgSize C s' a := by
  unfold TcpSystem.connect at hs
  obtain ⟨⟨l, r⟩, hread, hs⟩ := Option.bind_eq_some_iff.mp hs
  rcases (h.conn i hi).connect hmin hread with
    ⟨hret, hc, hsame⟩ | ⟨hret, hwas, data, l', hout, htype, hend, hc, hnow⟩
  · cases hr : r.ret with
    | enone => exact absurd hr hret
    | eagain | efin | rtofired =>
        simp only [hr, Option.some.injEq] at hs
        subst hs
        exact h.change (fun _ => hc) hsame
  · simp only [hret, hout, htype, if_true, hend, Option.bind_eq_bind, Option.bind_some,
      Option.some.injEq] at hs
    subst hs
    exact h.connectNew hi hc hwas hnow

-- The server has read the connect messages of all.
theorem connected_of_start (h : TcpConnecting msgSize C s a)
    (hall : C.cfg.clientCount ≤ s.connected) : ∀ i < C.cfg.clientCount, (s.conn i).Connected := by
  have hcard : ((Finset.range C.cfg.clientCount).filter fun i => (s.conn i).Connected).card =
      (Finset.range C.cfg.clientCount).card := by
    apply Nat.le_antisymm (Finset.card_filter_le _ _)
    rwa [Finset.card_range, ← h.connected]
  exact fun i hi => Finset.filter_card_eq hcard i (Finset.mem_range.mpr hi)

theorem exists_unconnected (h : TcpConnecting msgSize C s a)
    (hmore : s.connected < C.cfg.clientCount) :
    ∃ i < C.cfg.clientCount, ¬(s.conn i).Connected := by
  by_contra hnone
  have hall : ∀ i ∈ Finset.range C.cfg.clientCount, (s.conn i).Connected := by
    intro i hi
    by_contra hnot
    exact hnone ⟨i, Finset.mem_range.mp hi, hnot⟩
  rw [h.connected, Finset.filter_true_of_mem hall, Finset.card_range] at hmore
  exact absurd hmore (Nat.lt_irrefl _)

theorem clientInit (h : TcpConnecting msgSize C s a) (hmin : 16 ≤ msgSize)
    (hi : i < C.cfg.clientCount) (hjoined : (s.conn i).joined = false)
    (hs : s.clientInit msgSize i = some s') :
    TcpConnecting msgSize C s' a := by
  unfold TcpSystem.clientInit at hs
  obtain ⟨l, hl, hs⟩ := Option.bind_eq_some_iff.mp hs
  rw [h.clientNum i] at hl hs
  cases hs
  obtain ⟨hc, hsame⟩ := (h.conn i hi).join hmin hjoined hl
  exact h.change (fun _ => hc) hsame

theorem quit (h : TcpConnecting msgSize C s a) (hi : i < C.cfg.clientCount) :
    ∃ b, (systemMachine C).step a (.quit i) = some b ∧ TcpConnecting msgSize C (s.quit i) b := by
  refine ⟨_, if_pos hi, ?_⟩
  have hchange := h.change (fun hi => (h.conn i hi).close) (i := i) rfl
  exact { hchange with
    client := by
      show update s.client i _ = update a.client i _
      rw [h.client]
    clientNum := by
      intro j
      show (update s.client i _ j).clientNum = _
      by_cases hji : j = i
      · subst hji
        rw [Function.update_self]
        exact h.clientNum j
      · rw [Function.update_of_ne hji]
        exact h.clientNum j
    unstarted := by
      intro j old
      show (update s.client i _ j).pc ≠ _
      by_cases hji : j = i
      · subst hji
        simp
      · rw [Function.update_of_ne hji]
        exact h.unstarted j old }

theorem clientWrite {x : SysWrite} (h : TcpConnecting msgSize C s a)
    (hi : i < C.cfg.clientCount) (hs : s.clientWrite msgSize i x = some s') :
    TcpConnecting msgSize C s' a ∨ x = .failed ∧
      ∃ b, (systemMachine C).step a (.quit i) = some b ∧ TcpConnecting msgSize C s' b := by
  unfold TcpSystem.clientWrite at hs
  obtain ⟨l, hl, hs⟩ := Option.bind_eq_some_iff.mp hs
  cases hs
  obtain ⟨hc, hsame⟩ := (h.conn i hi).write hl
  have hquiet := h.change (fun _ => hc) hsame
  split
  next hend => exact .inr ⟨TcpLink.write_efin hl hend, hquiet.quit hi⟩
  next => exact .inl hquiet

theorem receive (h : TcpConnecting msgSize C s a) (hmin : 16 ≤ msgSize)
    (hi : i < C.cfg.clientCount) (hs : s.receive msgSize i x = some s') :
    TcpConnecting msgSize C s' a ∨ (x = .finished ∨ x = .refused) ∧
      ∃ b, (systemMachine C).step a (.quit i) = some b ∧ TcpConnecting msgSize C s' b := by
  unfold TcpSystem.receive at hs
  obtain ⟨⟨l, r⟩, hread, hs⟩ := Option.bind_eq_some_iff.mp hs
  obtain ⟨hret, hc⟩ := (h.conn i hi).receive hmin hread
  cases hr : r.ret with
  | enone => exact absurd hr hret
  | efin =>
      simp only [hr] at hs
      obtain ⟨l', hend, hs⟩ := Option.bind_eq_some_iff.mp hs
      cases hs
      exact .inr ⟨TcpLink.begRead_efin (by omega) (h.conn i hi).down.run hread hr,
        (h.change (i := i) (fun _ => hc.downEndRead hend) rfl).quit hi⟩
  | eagain | rtofired =>
      simp only [hr, Option.some.injEq] at hs
      subst hs
      exact .inl (h.change (fun _ => hc) rfl)

end TcpConnecting

end Q2pc
