import Q2pc.Rudp.Session
import Mathlib.Logic.Function.Iterate

namespace Q2pc

variable {c c' peer peer' : Rudp} {pc pc' : EndWritePc} {e : EndWriteEvent} {x : BaseRead}
  {isServer : Bool} {w p : Packet} {k n : Nat}

-- The increment of `bumpRto` in the message it is about.
def Packet.bumpRto (isServer : Bool) (p : Packet) : Packet :=
  { p with msg :=
      if isServer then { p.msg with cRto := i16 (p.msg.cRto + 1) }
      else { p.msg with sRto := i16 (p.msg.sRto + 1) } }

theorem Rudp.writeData_bumpRto (c : Rudp) :
    c.bumpRto.writeData = c.writeData.bumpRto c.isServer := rfl

-- A copy that counts `k` retransmissions after the first transmission.
structure Packet.Counts (isServer : Bool) (k : Nat) (first p : Packet) : Prop where
  own : p.msg.rto isServer = first.msg.rto isServer + k
  other : p.msg.rto (!isServer) = first.msg.rto (!isServer)

theorem i16_le (x : Int) : i16 x ≤ 32767 :=
  Int.bmod_le (by decide)

theorem i16_add_one (x : Int) : i16 (i16 x + 1) = i16 (x + 1) :=
  Int.bmod_add_bmod

theorem Packet.own_iterate (hw : i16 (w.msg.rto isServer) = w.msg.rto isServer) (k : Nat) :
    ((Packet.bumpRto isServer)^[k] w).msg.rto isServer = i16 (w.msg.rto isServer + k) := by
  induction k with
  | zero => simp [hw]
  | succ k ih =>
      rw [Function.iterate_succ_apply']
      generalize (Packet.bumpRto isServer)^[k] w = p at ih
      have hbump : (p.bumpRto isServer).msg.rto isServer = i16 (p.msg.rto isServer + 1) := by
        cases isServer <;> rfl
      rw [hbump, ih, i16_add_one]
      congr 1
      push_cast
      omega

theorem Packet.own_iterate_zero (hw : w.msg.rto isServer = 0) (k : Nat) :
    ((Packet.bumpRto isServer)^[k] w).msg.rto isServer = i16 k := by
  have hi16 : i16 (w.msg.rto isServer) = w.msg.rto isServer := by
    rw [hw]
    rfl
  rw [Packet.own_iterate hi16, hw, Int.zero_add]

theorem Packet.other_iterate (isServer : Bool) (w : Packet) (k : Nat) :
    ((Packet.bumpRto isServer)^[k] w).msg.rto (!isServer) = w.msg.rto (!isServer) := by
  induction k with
  | zero => rfl
  | succ k ih =>
      rw [Function.iterate_succ_apply', ← ih]
      cases isServer <;> rfl

-- An i16 counts 32767 retransmissions and no more.
theorem Packet.counts_iff (hw : w.msg.rto isServer = 0) :
    Packet.Counts isServer k w ((Packet.bumpRto isServer)^[k] w) ↔ k ≤ 32767 := by
  have hown := Packet.own_iterate_zero hw k
  constructor
  · intro h
    have hk := h.own
    have := i16_le k
    omega
  · intro hk
    refine ⟨?_, Packet.other_iterate isServer w k⟩
    rw [hown, i16_eq_self (by omega) (by omega)]
    omega

-- What is recorded of the copy reaches the number of retransmissions as long.
theorem Packet.own_ge_iff (hw : w.msg.rto isServer = 0) (k : Nat) :
    (0 ≤ ((Packet.bumpRto isServer)^[k] w).msg.rto isServer ∧
      k ≤ ((Packet.bumpRto isServer)^[k] w).msg.rto isServer) ↔ k ≤ 32767 := by
  have hown := Packet.own_iterate_zero hw k
  have := i16_le k
  rw [hown]
  constructor
  · omega
  · intro hk
    rw [i16_eq_self (by omega) (by omega)]
    omega

def Rudp.copies (c : Rudp) (n : Int) : List Packet :=
  (c.sent.filter fun d => d.seqNo == n).map Datagram.packet

theorem Rudp.copies_congr (hsent : c'.sent = c.sent) (n : Int) : c'.copies n = c.copies n := by
  rw [Rudp.copies, Rudp.copies, hsent]

theorem Rudp.copies_transmit_self (c : Rudp) :
    c.transmit.copies c.writeSeq = c.copies c.writeSeq ++ [c.writeData] := by
  simp [Rudp.copies, Rudp.transmit]

theorem Rudp.copies_transmit_ne {n : Int} (h : n ≠ c.writeSeq) :
    c.transmit.copies n = c.copies n := by
  simp [Rudp.copies, Rudp.transmit, Ne.symm h]

-- Each copy is the message written, with its counter incremented once for each
-- retransmission.
def Rudp.SentCopies (c : Rudp) : Prop :=
  ∀ (n : Int) (j : Nat) (p : Packet), (c.copies n)[j]? = some p →
    ∃ (k : Nat) (w : Packet), n = k ∧ c.wrote[k]? = some w ∧
      p = (Packet.bumpRto c.isServer)^[j] w

-- The write buffer holds the message as it is to be sent next, or as it was sent last.
def Rudp.NextCopy (c : Rudp) : Prop :=
  ∃ (k : Nat) (w : Packet), c.writeSeq = k ∧ c.wrote[k]? = some w ∧
    c.writeData = (Packet.bumpRto c.isServer)^[(c.copies k).length] w

def Rudp.LastCopy (c : Rudp) : Prop :=
  ∃ (k j : Nat) (w : Packet), c.writeSeq = k ∧ c.wrote[k]? = some w ∧
    (c.copies k).length = j + 1 ∧ c.writeData = (Packet.bumpRto c.isServer)^[j] w

theorem Rudp.SentCopies.congr (h : c.SentCopies) (hrole : c'.isServer = c.isServer)
    (hwrote : c.wrote <+: c'.wrote) (hsent : c'.sent = c.sent) : c'.SentCopies := by
  intro n j p hp
  rw [Rudp.copies_congr hsent] at hp
  obtain ⟨k, w, hn, hw, hcopy⟩ := h n j p hp
  obtain ⟨hlt, rfl⟩ := List.getElem?_eq_some_iff.mp hw
  exact ⟨k, _, hn, List.prefix_iff_getElem?.mp hwrote k hlt, by rw [hrole, hcopy]⟩

theorem Rudp.LastCopy.congr (h : c.LastCopy) (hrole : c'.isServer = c.isServer)
    (hwrote : c'.wrote = c.wrote) (hsent : c'.sent = c.sent) (hseq : c'.writeSeq = c.writeSeq)
    (hdata : c'.writeData = c.writeData) : c'.LastCopy := by
  simpa [Rudp.LastCopy, Rudp.copies, hrole, hwrote, hsent, hseq, hdata] using h

theorem Rudp.NextCopy.congr (h : c.NextCopy) (hrole : c'.isServer = c.isServer)
    (hwrote : c'.wrote = c.wrote) (hsent : c'.sent = c.sent) (hseq : c'.writeSeq = c.writeSeq)
    (hdata : c'.writeData = c.writeData) : c'.NextCopy := by
  simpa [Rudp.NextCopy, Rudp.copies, hrole, hwrote, hsent, hseq, hdata] using h

theorem Rudp.NextCopy.transmit (h : c.NextCopy) (hsent : c.SentCopies) :
    c.transmit.LastCopy ∧ c.transmit.SentCopies := by
  obtain ⟨k, w, hseq, hw, hdata⟩ := h
  have hcopies : c.transmit.copies k = c.copies k ++ [c.writeData] := by
    rw [← hseq]
    exact c.copies_transmit_self
  refine ⟨⟨k, (c.copies k).length, w, hseq, hw, ?_, hdata⟩, ?_⟩
  · rw [hcopies, List.length_append, List.length_singleton]
  · intro n j p hp
    by_cases hn : n = c.writeSeq
    · obtain rfl : n = k := hn.trans hseq
      rw [hcopies] at hp
      rcases getElem?_snoc_cases hp with hp | ⟨rfl, rfl⟩
      · exact hsent k j p hp
      · exact ⟨k, w, rfl, hw, hdata⟩
    · rw [Rudp.copies_transmit_ne hn] at hp
      exact hsent n j p hp

theorem Rudp.LastCopy.bumpRto (h : c.LastCopy) : c.bumpRto.NextCopy := by
  obtain ⟨k, j, w, hseq, hw, hlen, hdata⟩ := h
  refine ⟨k, w, hseq, hw, ?_⟩
  have hlen' : (c.bumpRto.copies k).length = j + 1 := hlen
  rw [hlen', Function.iterate_succ_apply', Rudp.writeData_bumpRto, hdata]
  rfl

theorem Rudp.SentOk.begWrite_nextCopy (h : c.SentOk) (hseq : c.seqNo = c.wrote.length)
    (p : Packet) : (c.begWrite p).NextCopy := by
  have hnone : (c.begWrite p).copies c.wrote.length = [] := by
    rw [Rudp.copies, List.map_eq_nil_iff, List.filter_eq_nil_iff]
    intro d hd heq
    obtain ⟨k, q, hk, hq, -⟩ := h.sent d hd
    have hlt := (List.getElem?_eq_some_iff.mp hq).1
    have := eq_of_beq heq
    omega
  exact ⟨c.wrote.length, p, hseq, by simp [Rudp.begWrite], by rw [hnone]; rfl⟩

def Rudp.Overtaken (c : Rudp) : Prop := c.currentSeq < c.seqNo

-- At the beginning of a call of `end_write` for a message.
def Rudp.EntryCopy (c : Rudp) : Prop :=
  (c.ackOutstanding = false → c.NextCopy) ∧
    (c.ackOutstanding = true → c.LastCopy ∨ c.Overtaken)

theorem Rudp.EntryCopy.retry (hack : c.ackOutstanding = true) (hlast : c.LastCopy) : c.EntryCopy :=
  ⟨fun hno => absurd (hno.symm.trans hack) Bool.false_ne_true, fun _ => .inl hlast⟩

def Rudp.CallCopy (c : Rudp) : EndWritePc → Prop
  | .entry => c.EntryCopy
  | .record => c.LastCopy
  | .probe | .compare => c.ackOutstanding = true ∧ (c.LastCopy ∨ c.Overtaken)
  | .timer | .resend | .ret .eagain | .ret .rtofired => c.ackOutstanding = true ∧ c.LastCopy
  | .ret .enone => c.ackOutstanding = false
  | .ret .efin => True

theorem Rudp.begRead_seq (c : Rudp) (x : BaseRead) :
    (c.begRead x).1.currentSeq = c.currentSeq ∧ c.seqNo ≤ (c.begRead x).1.seqNo := by
  rcases c.begRead_cases x with ⟨heq, -⟩ | ⟨d, -, -, hserver, hclient⟩
  · rw [heq]
    exact ⟨rfl, le_refl _⟩
  · cases hrole : c.isServer with
    | true =>
        obtain ⟨-, heq⟩ := hserver hrole
        rw [heq]
        exact ⟨rfl, by simp only [Rudp.accept]; omega⟩
    | false =>
        obtain ⟨hlt, heq⟩ := hclient hrole
        rw [heq]
        exact ⟨rfl, hlt.le⟩

-- A `beg_read` between two steps of a write does not concern the write.
theorem Rudp.CallCopy.read (h : c.CallCopy pc) (x : BaseRead) : (c.begRead x).1.CallCopy pc := by
  obtain ⟨hsent, hseq, hdata, hack⟩ := c.begRead_buffer x
  obtain ⟨hcurrent, hle⟩ := c.begRead_seq x
  have hrole := (c.ext_begRead x).role
  have hwrote := c.begRead_wrote x
  have hlast : c.LastCopy → (c.begRead x).1.LastCopy := (·.congr hrole hwrote hsent hseq hdata)
  have hnext : c.NextCopy → (c.begRead x).1.NextCopy := (·.congr hrole hwrote hsent hseq hdata)
  have hover : c.Overtaken → (c.begRead x).1.Overtaken := by
    intro hlt
    rw [Rudp.Overtaken, hcurrent]
    exact hlt.trans_le hle
  cases pc with
  | entry => exact ⟨fun ha => hnext (h.1 (hack ▸ ha)), fun ha => (h.2 (hack ▸ ha)).imp hlast hover⟩
  | record => exact hlast h
  | probe | compare => exact ⟨hack.trans h.1, h.2.imp hlast hover⟩
  | timer | resend => exact ⟨hack.trans h.1, hlast h.2⟩
  | ret r =>
      cases r with
      | enone => exact hack.trans h
      | efin => trivial
      | eagain | rtofired => exact ⟨hack.trans h.1, hlast h.2⟩

theorem Rudp.CallCopy.step (h : c.CallCopy pc) (hsent : c.SentCopies)
    (hs : c.EndWriteStep pc e c' pc') : c'.CallCopy pc' ∧ c'.SentCopies := by
  cases hs with
  | sentBefore hack => exact ⟨⟨hack, h.2 hack⟩, hsent⟩
  | transmit hack => exact (h.1 hack).transmit hsent
  | failed => exact ⟨trivial, hsent⟩
  | record => exact ⟨⟨rfl, .inl h⟩, hsent⟩
  | noProbe | expired | notExpired => exact ⟨h, hsent⟩
  | probe x =>
      exact ⟨Rudp.CallCopy.read h x, hsent.congr (c.ext_begRead x).role (c.ext_begRead x).wrote
        (c.begRead_buffer x).1⟩
  | probeFin x =>
      exact ⟨trivial, hsent.congr (c.ext_begRead x).role (c.ext_begRead x).wrote
        (c.begRead_buffer x).1⟩
  | acked => exact ⟨rfl, hsent⟩
  | notAcked heq =>
      have hlast : c.LastCopy := by
        refine h.2.resolve_right fun hlt => ?_
        rw [Rudp.Overtaken] at hlt
        omega
      exact ⟨⟨h.1, hlast⟩, hsent⟩
  | resend =>
      have hcopies : c.bumpRto.SentCopies := hsent
      obtain ⟨hlast, hsent'⟩ := h.2.bumpRto.transmit hcopies
      exact ⟨⟨h.1, hlast⟩, hsent'⟩
  | resendFailed => exact ⟨trivial, hsent⟩

-- Each message accepted is a copy that the other end has sent, at its position.
def Rudp.HeardCopies (c peer : Rudp) : Prop :=
  ∀ (k : Nat) (p : Packet), c.accepted[k]? = some p → p ∈ peer.copies k

theorem Rudp.mem_copies {d : Datagram} (hd : d ∈ c.sent) : d.packet ∈ c.copies d.seqNo :=
  List.mem_map.mpr ⟨d, List.mem_filter.mpr ⟨hd, by simp⟩, rfl⟩

theorem Rudp.HeardCopies.mono (h : c.HeardCopies peer) (hext : peer.Ext peer') :
    c.HeardCopies peer' := by
  intro k p hp
  exact ((hext.sent.sublist.filter _).map _).subset (h k p hp)

theorem Rudp.HeardCopies.accept (h : c.HeardCopies peer) {d : Datagram} (hd : d ∈ peer.sent)
    (hseq : d.seqNo = c.accepted.length) (k : Int) : (c.accept k d.packet).HeardCopies peer := by
  intro j p hp
  rcases getElem?_snoc_cases hp with hp | ⟨rfl, rfl⟩
  · exact h j p hp
  · rw [← hseq]
    exact Rudp.mem_copies hd

theorem RudpLink.serverHeardCopies {s : Rudp} (h : RudpLink s c) (hheard : s.HeardCopies c)
    (hx : x.from c) : (s.begRead x).1.HeardCopies c := by
  rcases h.serverRead_cases hx with heq | ⟨d, hd, hseq, k, heq⟩
  · rwa [heq]
  · rw [heq]
    exact hheard.accept hd hseq k

theorem RudpLink.clientHeardCopies {s : Rudp} (h : RudpLink s c) (hheard : c.HeardCopies s)
    (hx : x.from s) : (c.begRead x).1.HeardCopies s := by
  rcases h.clientRead_cases hx with heq | ⟨d, hd, hseq, k, heq⟩
  · rwa [heq]
  · rw [heq]
    exact hheard.accept hd hseq k

def MasterWrite.Copied (m : MasterWrite) (s : Rudp) : Prop :=
  match m with
  | .idle => s.ackOutstanding = false
  | .filled => s.EntryCopy
  | .call pc => s.CallCopy pc
  | .failed => True

-- The client has only its own thread: `current_seq` is the sequence number of a message
-- it has written, also after it gave up on it.
def Rudp.Behind (c : Rudp) : Prop := c.ackOutstanding = true → c.currentSeq < c.wrote.length

def Rudp.CallBehind (c : Rudp) : EndWritePc → Prop
  | .entry => c.ackOutstanding = false → c.seqNo < c.wrote.length
  | .record => c.seqNo < c.wrote.length
  | _ => True

structure Rudp.ClientCall (c : Rudp) (pc : EndWritePc) : Prop where
  copy : c.CallCopy pc
  behind : c.Behind
  call : c.CallBehind pc

def RudpClientPc.Copied (pc : RudpClientPc) (c : Rudp) : Prop :=
  match pc with
  | .init => c.ackOutstanding = false
  | .connect pc | .respond _ pc => c.ClientCall pc
  | .getMessage | .got => c.Behind
  | .terminated => True

-- The copies on a connection, at every position of the two ends.
structure RudpConn.Copied (c : RudpConn) : Prop where
  serverSent : c.server.SentCopies
  clientSent : c.client.SentCopies
  serverHeard : c.server.HeardCopies c.client
  clientHeard : c.client.HeardCopies c.server
  master : c.master.Copied c.server
  client : c.clientPc.Copied c.client

theorem RudpConn.Copied.init : RudpConn.Copied .init where
  serverSent := by simp [RudpConn.init, Rudp.connect, Rudp.SentCopies, Rudp.copies]
  clientSent := by simp [RudpConn.init, Rudp.connect, Rudp.SentCopies, Rudp.copies]
  serverHeard := by simp [RudpConn.init, Rudp.connect, Rudp.HeardCopies]
  clientHeard := by simp [RudpConn.init, Rudp.connect, Rudp.HeardCopies]
  master := rfl
  client := rfl

theorem MasterWrite.Copied.read {m : MasterWrite} (h : m.Copied c) (x : BaseRead) :
    m.Copied (c.begRead x).1 := by
  cases m with
  | idle => exact (c.begRead_buffer x).2.2.2.trans h
  | filled => exact Rudp.CallCopy.read (show c.CallCopy .entry from h) x
  | call pc => exact Rudp.CallCopy.read h x
  | failed => trivial

theorem MasterWrite.Copied.endRead {m : MasterWrite} (h : m.Copied c) : m.Copied c.endRead := by
  cases m with
  | idle | filled | failed => exact h
  | call pc =>
      cases pc with
      | ret r => cases r <;> exact h
      | _ => exact h

theorem Rudp.Behind.read (h : c.Behind) (x : BaseRead) : (c.begRead x).1.Behind := by
  intro hack
  rw [(c.begRead_seq x).1, c.begRead_wrote x]
  exact h ((c.begRead_buffer x).2.2.2.symm.trans hack)

theorem Rudp.ClientCall.step (h : c.ClientCall pc) (hsent : c.SentCopies)
    (hs : c.EndWriteStep pc e c' pc') : c'.ClientCall pc' ∧ c'.SentCopies := by
  obtain ⟨hcopy', hsent'⟩ := h.copy.step hsent hs
  refine ⟨⟨hcopy', ?_, ?_⟩, hsent'⟩
  · cases hs with
    | record => exact fun _ => h.call
    | acked => exact fun hack => absurd hack Bool.false_ne_true
    | probe x | probeFin x => exact h.behind.read x
    | _ => exact h.behind
  · cases hs with
    | transmit hack => exact h.call hack
    | _ => trivial

theorem RudpClientPc.Copied.call {pc : RudpClientPc} {call call' : EndWritePc}
    {next : EndWritePc → RudpClientPc} (h : pc.Copied c) (hcall : pc.call = some (call, next))
    (hsent : c.SentCopies) (hs : c.EndWriteStep call e c' call') :
    (next call').Copied c' ∧ c'.SentCopies := by
  cases pc <;>
    simp only [RudpClientPc.call, reduceCtorEq, Option.some.injEq, Prod.mk.injEq] at hcall
  all_goals
    obtain ⟨rfl, rfl⟩ := hcall
    exact Rudp.ClientCall.step h hsent hs

theorem Rudp.ClientCall.retry (h : c.ClientCall pc) (hack : c.ackOutstanding = true)
    (hlast : c.LastCopy) : c.ClientCall .entry where
  copy := .retry hack hlast
  behind := h.behind
  call := fun hno => absurd (hno.symm.trans hack) Bool.false_ne_true

theorem RudpClientPc.Copied.afterRet {pc : RudpClientPc} {r : Ret}
    {next : EndWritePc → RudpClientPc} (h : pc.Copied c) (hcall : pc.call = some (.ret r, next)) :
    (pc.afterRet r).Copied c := by
  have hnext : c.ClientCall (.ret r) := by
    cases pc <;>
      simp only [RudpClientPc.call, reduceCtorEq, Option.some.injEq, Prod.mk.injEq] at hcall
    all_goals
      obtain ⟨rfl, -⟩ := hcall
      exact h
  cases r with
  | efin => cases pc <;> trivial
  | enone =>
      cases pc <;> simp only [RudpClientPc.call, reduceCtorEq] at hcall
      all_goals exact hnext.behind
  | eagain =>
      have hretry := hnext.retry hnext.copy.1 hnext.copy.2
      cases pc <;> simp only [RudpClientPc.call, reduceCtorEq] at hcall
      all_goals exact hretry
  | rtofired =>
      have hretry := hnext.retry hnext.copy.1 hnext.copy.2
      cases pc <;> simp only [RudpClientPc.call, reduceCtorEq] at hcall
      case connect => exact hretry
      case respond =>
          simp only [RudpClientPc.afterRet]
          split
          · exact hretry
          -- the client gives up on its response
          · exact hretry.behind

theorem RudpConn.Copied.step {c c' : RudpConn} {e : RudpEvent} (h : c.Copied) (hok : c.Ok)
    (hp : c.protocol e) (hs : RudpStep c e c') : c'.Copied := by
  obtain ⟨hss, hcs, hsh, hch, hm, hc⟩ := h
  obtain ⟨hsext, hcext⟩ := hs.ext
  have hlink := hok.link
  cases hs with
  | @masterWrite p _ =>
      have hidle := hok.master
      rw [hp.1] at hidle hm
      have hlen : c.server.accepted.length = c.server.wrote.length + 1 :=
        hidle.2.resolve_left hp.2
      have hseq := hlink.serverSeq
      have hnext := hlink.serverSent.begWrite_nextCopy (by omega) p
      exact ⟨hss.congr rfl hsext.wrote rfl, hcs, hsh, hch.mono hsext,
        ⟨fun _ => hnext, fun hack => absurd (hm.symm.trans hack) Bool.false_ne_true⟩, hc⟩
  | masterCall =>
      rw [show c.master = .filled from hp] at hm
      exact ⟨hss, hcs, hsh, hch, hm, hc⟩
  | masterStep hpc hstep =>
      rw [hpc] at hm
      obtain ⟨hcall, hss'⟩ := Rudp.CallCopy.step hm hss hstep
      refine ⟨hss', hcs, ?_, hch.mono hsext, hcall, hc⟩
      cases hstep with
      | probe x hrole | probeFin x hrole => simp [hlink.serverRole] at hrole
      | _ => exact hsh
  | @masterRet r hpc =>
      rw [hpc] at hm
      refine ⟨hss, hcs, hsh, hch, ?_, hc⟩
      cases r with
      | enone | efin => exact hm
      | eagain | rtofired => exact Rudp.EntryCopy.retry hm.1 hm.2
  | @workerRead x hx =>
      exact ⟨hss.congr hsext.role hsext.wrote (c.server.begRead_buffer x).1, hcs,
        hlink.serverHeardCopies hsh hx, hch.mono hsext, hm.read x, hc⟩
  | workerRelease => exact ⟨hss, hcs, hsh, hch, hm.endRead, hc⟩
  | @connect p hpc =>
      have hinit := hok.client
      rw [hpc] at hc hinit
      have hseq := hlink.clientSeq
      have hlen : c.client.wrote.length = c.client.accepted.length := by
        simp [hinit.1, hinit.2.2.2]
      have hnext := hlink.clientSent.begWrite_nextCopy (by omega) p
      have hack : c.client.ackOutstanding = false := hc
      refine ⟨hss, hcs.congr rfl hcext.wrote rfl, hsh.mono hcext, hch, hm, ⟨?_, ?_, ?_⟩⟩
      · exact ⟨fun _ => hnext, fun h => absurd (hack.symm.trans h) Bool.false_ne_true⟩
      · exact fun h => absurd (hack.symm.trans h) Bool.false_ne_true
      · intro _
        simp only [Rudp.begWrite, List.length_append, List.length_singleton]
        omega
  | @respond p hpc =>
      have hgot := hok.client
      rw [hpc] at hc hgot
      have hseq := hlink.clientSeq
      have hlen : c.client.wrote.length = c.client.accepted.length := hgot.1
      have hnext := hlink.clientSent.begWrite_nextCopy (by omega) p
      refine ⟨hss, hcs.congr rfl hcext.wrote rfl, hsh.mono hcext, hch, hm, ⟨?_, ?_, ?_⟩⟩
      · refine ⟨fun _ => hnext, fun hack => .inr ?_⟩
        have := hc hack
        show c.client.currentSeq < c.client.seqNo
        omega
      · intro hack
        have := hc hack
        simp only [Rudp.begWrite, List.length_append, List.length_singleton]
        omega
      · intro _
        simp only [Rudp.begWrite, List.length_append, List.length_singleton]
        omega
  | @clientRet r next hcall => exact ⟨hss, hcs, hsh, hch, hm, hc.afterRet hcall⟩
  | clientStep hcall he hstep =>
      obtain ⟨hc', hcs'⟩ := hc.call hcall hcs hstep
      refine ⟨hss, hcs', hsh.mono hcext, ?_, hm, hc'⟩
      cases hstep with
      | probe x | probeFin x => exact hlink.clientHeardCopies hch he
      | _ => exact hch
  | @clientGet x p hpc hx _ | @clientFin x hpc hx _ =>
      rw [hpc] at hc
      have hsent := hcs.congr (c.client.ext_begRead x).role (c.client.ext_begRead x).wrote
        (c.client.begRead_buffer x).1
      have hheard := hlink.clientHeardCopies hch hx
      exact ⟨hss, hsent, hsh.mono hcext, hheard, hm,
        by first | exact Rudp.Behind.read hc x | trivial⟩
  | @clientAgain x hpc hx _ =>
      rw [hpc] at hc
      refine ⟨hss, hcs.congr hcext.role hcext.wrote (c.client.begRead_buffer x).1, hsh.mono hcext,
        hlink.clientHeardCopies hch hx, hm, ?_⟩
      simp only [hpc]
      exact Rudp.Behind.read hc x
  | clientQuit => exact ⟨hss, hcs, hsh, hch, hm, trivial⟩

theorem RudpConn.copied_of_reachable {c : RudpConn}
    (h : rudpMachine.Reachable RudpConn.protocol c) : c.Copied := by
  apply h.invariant .init
  intro c e c' hreach ih hp hs
  exact ih.step (RudpConn.ok_of_reachable hreach) hp (RudpConn.step_cases hs)

end Q2pc
