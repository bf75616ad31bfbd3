import Q2pc.Rudp.Plain
import Q2pc.Rudp.Session

namespace Q2pc

open Function (update)

variable {c c' : RudpConn} {q i j : Nat} {n n' : Net} {cfg : Config} {p : Packet} {x : BaseRead}

-- Connection `i` of a network that delivers every message once and in order, when the ends
-- of the RUDP connection are in state `c` and the first `q` messages of the server have been
-- passed to `end_write`: what is on its way is what one end has written and the other not
-- yet taken, whatever datagrams are.
structure Mirror (c : RudpConn) (q : Nat) (n : Net) (i : Nat) : Prop where
  toClient : n.toClient i = ((c.server.wrote.take q).drop c.clientGot.length).map Packet.plain
  toServer : n.toServer i = (c.client.wrote.drop c.server.accepted.length).map Packet.plain
  readBuffer : n.readBuffer i = c.server.readData.map Packet.plain
  writeBuffer : ∀ p, c.server.wrote[q]? = some p → n.writeBuffer i = p.plain
  passed : ∀ (k : Nat) p, k < q → c.server.wrote[k]? = some p → (i, p.plain) ∈ n.passed
  le : q ≤ c.server.wrote.length
  called : c.master ≠ .filled → q = c.server.wrote.length
  heard : c.client.accepted.length ≤ q
  sent : ∀ d ∈ c.server.sent, d.seqNo < q

-- The same on connection `i`, with nothing less passed.
structure Net.SameAt (n n' : Net) (i : Nat) : Prop where
  toClient : n'.toClient i = n.toClient i
  toServer : n'.toServer i = n.toServer i
  readBuffer : n'.readBuffer i = n.readBuffer i
  writeBuffer : n'.writeBuffer i = n.writeBuffer i
  passed : n.passed ⊆ n'.passed

theorem Net.SameAt.refl (n : Net) (i : Nat) : n.SameAt n i :=
  ⟨rfl, rfl, rfl, rfl, fun _ h => h⟩

theorem Mirror.congr (h : Mirror c q n i) (hn : n.SameAt n' i) : Mirror c q n' i where
  toClient := hn.toClient.trans h.toClient
  toServer := hn.toServer.trans h.toServer
  readBuffer := hn.readBuffer.trans h.readBuffer
  writeBuffer := fun p hp => hn.writeBuffer.trans (h.writeBuffer p hp)
  passed := fun k p hk hp => hn.passed (h.passed k p hk hp)
  le := h.le
  called := h.called
  heard := h.heard
  sent := h.sent

theorem Mirror.frame (h : Mirror c q n i) (hwrote : c'.server.wrote = c.server.wrote)
    (hclient : c'.client.wrote = c.client.wrote) (hgot : c'.clientGot = c.clientGot)
    (haccepted : c'.server.accepted = c.server.accepted)
    (hread : c'.server.readData = c.server.readData)
    (hcalled : c'.master ≠ .filled → q = c.server.wrote.length)
    (hheard : c'.client.accepted.length ≤ q) (hsent : ∀ d ∈ c'.server.sent, d.seqNo < q) :
    Mirror c' q n i where
  toClient := by rw [hwrote, hgot, h.toClient]
  toServer := by rw [hclient, haccepted, h.toServer]
  readBuffer := by rw [hread, h.readBuffer]
  writeBuffer := by
    rw [hwrote]
    exact h.writeBuffer
  passed := by
    rw [hwrote]
    exact h.passed
  le := hwrote ▸ h.le
  called := by
    rw [hwrote]
    exact hcalled
  heard := hheard
  sent := hsent

-- `beg_read` at the client takes over no message that has not been passed.
theorem Mirror.clientRead (h : Mirror c q n i) (hok : c.Ok) (hx : x.from c.server) :
    (c.client.begRead x).1.accepted.length ≤ q := by
  rcases hok.link.clientRead_cases hx with heq | ⟨d, hd, hseq, k, heq⟩
  · rw [heq]
    exact h.heard
  · rw [heq]
    have hlt := h.sent d hd
    simp only [Rudp.accept, List.length_append, List.length_singleton]
    omega

private theorem Mirror.sentBuffer (h : Mirror c q n i) (hok : c.Ok) (hcalled : c.master ≠ .filled)
    (hwrote : c.server.wrote ≠ []) : c.server.writeSeq < q := by
  obtain ⟨k, hk⟩ := Nat.exists_eq_succ_of_ne_zero (mt List.length_eq_zero_iff.mp hwrote)
  have hseq := (hok.link.serverSent.buffer k hk).1
  have hq := h.called hcalled
  omega

-- A step of the master inside `end_write`: what it sends has been passed.
theorem Mirror.masterStep {e : EndWriteEvent} (h : Mirror c q n i) (hok : c.Ok)
    (hs : RudpStep c (.masterStep e) c') : Mirror c' q n i := by
  cases hs with
  | @masterStep _ pc server pc' hpc hstep =>
      have hcalled : c.master ≠ .filled := by simp [hpc]
      have hmaster := hok.master
      rw [hpc] at hmaster
      have hbuffer := h.sentBuffer hok hcalled hmaster.1
      have hrole := hok.link.serverRole
      have hsend : ∀ s : Rudp, s.writeSeq = c.server.writeSeq → s.sent = c.server.sent →
          ∀ d ∈ s.transmit.sent, d.seqNo < q := by
        intro s hseq hsent d hd
        rcases List.mem_append.mp hd with hd | hd
        · exact h.sent d (hsent ▸ hd)
        · obtain rfl := List.mem_singleton.mp hd
          rw [← hseq] at hbuffer
          exact hbuffer
      have hq := fun _ : MasterWrite.call pc' ≠ .filled => h.called hcalled
      cases hstep with
      | probe x hserver | probeFin x hserver => simp [hrole] at hserver
      | transmit => exact h.frame rfl rfl rfl rfl rfl hq h.heard (hsend _ rfl rfl)
      | resend => exact h.frame rfl rfl rfl rfl rfl hq h.heard (hsend _ rfl rfl)
      | sentBefore | failed | record | noProbe | acked | notAcked | notExpired | expired
      | resendFailed => exact h.frame rfl rfl rfl rfl rfl hq h.heard h.sent

theorem Mirror.masterRet (h : Mirror c q n i) (hq : q = c.server.wrote.length) (m : MasterWrite) :
    Mirror { c with master := m } q n i :=
  h.frame rfl rfl rfl rfl rfl (fun _ => hq) h.heard h.sent

theorem Mirror.clientStep {e : EndWriteEvent} (h : Mirror c q n i) (hok : c.Ok)
    (hs : RudpStep c (.clientStep e) c') : Mirror c' q n i := by
  cases hs with
  | clientRet => exact h.frame rfl rfl rfl rfl rfl h.called h.heard h.sent
  | clientStep _ hfrom hstep =>
      have hwrote := hstep.wrote_eq
      refine h.frame rfl hwrote rfl rfl rfl h.called ?_ h.sent
      cases hstep with
      | probe x | probeFin x => exact h.clientRead hok hfrom
      | _ => exact h.heard

theorem Mirror.clientQuit (h : Mirror c q n i) : Mirror { c with clientPc := .terminated } q n i :=
  h.frame rfl rfl rfl rfl rfl h.called h.heard h.sent

theorem Mirror.clientNone (h : Mirror c q n i) (hok : c.Ok)
    (hs : RudpStep c (.clientGet x) c') (hnone : ∀ p, (c.client.begRead x).2 ≠ .data p) :
    Mirror c' q n i := by
  cases hs with
  | clientGet _ _ hp => exact absurd hp (hnone _)
  | clientFin _ hx _ =>
      exact h.frame rfl (c.client.begRead_wrote x) rfl rfl rfl h.called (h.clientRead hok hx) h.sent
  | clientAgain _ hx _ =>
      exact h.frame rfl (c.client.begRead_wrote x) rfl rfl rfl h.called (h.clientRead hok hx) h.sent

private theorem drop_of_getElem? {α : Type} {l : List α} {k : Nat} {a : α} (h : l[k]? = some a) :
    l.drop k = a :: l.drop (k + 1) := by
  obtain ⟨hlt, rfl⟩ := List.getElem?_eq_some_iff.mp h
  exact List.drop_eq_getElem_cons hlt

theorem Mirror.masterWrite (h : Mirror c q n i) (hidle : c.master = .idle)
    (hplain : p.plain = p) :
    Mirror { c with server := c.server.begWrite p, master := .filled } q
      { n with writeBuffer := update n.writeBuffer i p } i := by
  have hq := h.called (by simp [hidle])
  have hwrote : (c.server.begWrite p).wrote = c.server.wrote ++ [p] := rfl
  refine ⟨?_, h.toServer, h.readBuffer, ?_, ?_, ?_, by simp, h.heard, h.sent⟩
  · show n.toClient i = _
    rw [h.toClient, hwrote, List.take_append_of_le_length h.le]
  · intro r hr
    rw [hwrote] at hr
    rcases getElem?_snoc_cases hr with hr | ⟨-, rfl⟩
    · have := (List.getElem?_eq_some_iff.mp hr).1
      omega
    · simp [hplain]
  · intro k r hk hr
    rw [hwrote, List.getElem?_append_left (by omega)] at hr
    exact h.passed k r hk hr
  · rw [hwrote, List.length_append]
    exact Nat.le_add_right_of_le h.le

theorem Mirror.masterCall (h : Mirror c q n i) (hqj : cfg.transType ≠ .udpQj)
    (hlen : c.server.wrote.length = q + 1) (hgot : c.clientGot.length ≤ q) :
    Mirror { c with master := .call .entry } (q + 1) (n.write cfg i) i := by
  have hlast : c.server.wrote[q]? = some (c.server.wrote.get ⟨q, by omega⟩) :=
    List.getElem?_eq_getElem (by omega)
  have hbuffer := h.writeBuffer _ hlast
  refine ⟨?_, h.toServer, h.readBuffer, ?_, ?_, Nat.le_of_eq hlen.symm, fun _ => hlen.symm, ?_, ?_⟩
  · have hq : (c.server.wrote.take q).length = q := by simp; omega
    simp only [Net.write, hqj, false_or, if_true]
    rw [h.toClient, hbuffer, List.take_add_one, hlast, List.drop_append_of_le_length (by omega)]
    simp
  · intro r hr
    have := (List.getElem?_eq_some_iff.mp hr).1
    simp only at this
    omega
  · intro k r hk hr
    simp only [Net.write, List.mem_append, List.mem_singleton]
    rcases Nat.lt_succ_iff_lt_or_eq.mp hk with hk | rfl
    · exact .inl (h.passed k r hk hr)
    · simp only [hlast, Option.some.injEq] at hr
      exact .inr (by rw [hbuffer, hr])
  · exact Nat.le_succ_of_le h.heard
  · intro d hd
    have := h.sent d hd
    omega

private theorem Rudp.begRead_ne_unset (c : Rudp) (x : BaseRead) : (c.begRead x).2 ≠ .unset := by
  unfold Rudp.begRead
  split
  · simp
  · cases x with
    | eagain | efin => simp
    | data d =>
        dsimp only
        split_ifs <;> simp

-- The worker reads a connection with no message pending: it gets the next message of the
-- client or nothing.
theorem Mirror.workerRead (cfg : Config) (h : Mirror c q n i) (hok : c.Ok) (hx : x.from c.client)
    (hnone : c.server.readData = none) :
    ∃ n', n.begRead cfg i (c.server.begRead x).2.plain = some n' ∧
      Mirror { c with server := (c.server.begRead x).1 } q n' i ∧ ∀ j, j ≠ i → n.SameAt n' j := by
  have hread : n.readBuffer i = none := by simp [h.readBuffer, hnone]
  have hok' : RudpConn.Ok { c with server := (c.server.begRead x).1 } :=
    hok.step (e := .workerRead x) trivial (.workerRead hx)
  rcases c.server.begRead_accept x with ⟨heq, hpending⟩ | ⟨d, k, -, -, heq⟩
  · have hframe : Mirror { c with server := (c.server.begRead x).1 } q n i :=
      h.frame (by rw [heq]) rfl rfl (by rw [heq]) (by rw [heq]) h.called h.heard
        (by rw [heq]; exact h.sent)
    refine ⟨n, ?_, hframe, fun j _ => .refl n j⟩
    cases hr : (c.server.begRead x).2 with
    | data p => simp [hnone] at hpending; exact absurd hr (hpending p)
    | unset => exact absurd hr (c.server.begRead_ne_unset x)
    | eagain | efin => simp [Net.begRead, hread, ReadResult.plain]
  · rw [heq] at hok' ⊢
    obtain ⟨r, hr, hsame⟩ := hok'.link.serverHeard.get (k := c.server.accepted.length)
      (b := d.packet) (by simp [Rudp.accept])
    have hplain : r.plain = d.packet.plain := hsame.1.plain_eq
    have htoServer : n.toServer i = d.packet.plain ::
        (c.client.wrote.drop (c.server.accepted.length + 1)).map Packet.plain := by
      rw [h.toServer, drop_of_getElem? hr, List.map_cons, hplain]
    refine ⟨_, by simp [Net.begRead, hread, ReadResult.plain, htoServer]; rfl, ?_, ?_⟩
    · refine ⟨h.toClient, ?_, ?_, h.writeBuffer, h.passed, h.le, h.called, h.heard, h.sent⟩
      · simp [Rudp.accept]
      · simp [Rudp.accept]
    · intro j hj
      exact ⟨rfl, by simp [hj], by simp [hj], rfl, fun _ h => h⟩

theorem Mirror.workerRelease (h : Mirror c q n i) :
    Mirror { c with server := c.server.endRead } q
      { n with readBuffer := update n.readBuffer i none } i :=
  ⟨h.toClient, h.toServer, by simp [Rudp.endRead], h.writeBuffer, h.passed, h.le, h.called, h.heard,
    h.sent⟩

theorem Mirror.clientWrite {pc : RudpClientPc} (h : Mirror c q n i) (hok : c.Ok) (p : Packet) :
    Mirror { c with client := c.client.begWrite p, clientPc := pc } q
      { n with toServer := update n.toServer i (n.toServer i ++ [p.plain]) } i := by
  refine ⟨h.toClient, ?_, h.readBuffer, h.writeBuffer, h.passed, h.le, h.called, h.heard, h.sent⟩
  have hle := hok.link.serverHeard.length_le
  simp only [Function.update_self, Rudp.begWrite]
  rw [h.toServer, List.drop_append_of_le_length hle, List.map_append]
  rfl

theorem Mirror.clientGet (h : Mirror c q n i) (hok : c.Ok) (hx : x.from c.server)
    (hs : RudpStep c (.clientGet x) c') (hp : (c.client.begRead x).2 = .data p) :
    ∃ rest, n.toClient i = p.plain :: rest ∧
      Mirror c' q { n with toClient := update n.toClient i rest } i := by
  have hok' := hok.step (e := .clientGet x) trivial hs
  have hheard := h.clientRead hok hx
  cases hs with
  | clientFin _ _ hp' => simp [hp] at hp'
  | clientAgain _ _ hp' => exact absurd hp (hp' p)
  | clientGet _ _ hp' =>
      rw [hp] at hp'
      cases hp'
      obtain ⟨-, -, hgot⟩ := hok'.client
      obtain ⟨r, hr, hsame⟩ := hok'.link.clientHeard.get (k := c.clientGot.length) (b := p)
        (by rw [hgot]; simp)
      have hlt : c.clientGot.length < q := by
        have := congrArg List.length hgot
        simp only [Rudp.endRead, List.length_append, List.length_singleton] at this
        omega
      have htake : (c.server.wrote.take q)[c.clientGot.length]? = some r := by
        rw [List.getElem?_take_of_lt hlt, hr]
      refine ⟨_, by rw [h.toClient, drop_of_getElem? htake, List.map_cons, hsame.1.plain_eq], ?_⟩
      refine ⟨by simp, ?_, h.readBuffer, h.writeBuffer, h.passed, h.le, h.called, hheard, h.sent⟩
      show n.toServer i = _
      rw [h.toServer, ← c.client.begRead_wrote x]
      rfl

end Q2pc
