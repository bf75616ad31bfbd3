import Q2pc.Rudp.Exchange

namespace Q2pc

variable {c c' peer peer' : Rudp} {pc pc' : EndWritePc} {e : EndWriteEvent} {x : BaseRead}

def Rudp.resent (c : Rudp) (k : Int) : Nat := c.sent.countP (fun d => d.seqNo == k) - 1

-- The counter an end increments with each retransmission.
def Msg.rto (isServer : Bool) (m : Msg) : Int := if isServer then m.cRto else m.sRto

-- The history of an end only grows.
structure Rudp.Ext (c c' : Rudp) : Prop where
  role : c'.isServer = c.isServer
  wrote : c.wrote <+: c'.wrote
  sent : c.sent <+: c'.sent
  accepted : c.accepted <+: c'.accepted

theorem Rudp.Ext.refl (c : Rudp) : c.Ext c where
  role := rfl
  wrote := List.prefix_rfl
  sent := List.prefix_rfl
  accepted := List.prefix_rfl

theorem Rudp.ext_begRead (c : Rudp) (x : BaseRead) : c.Ext (c.begRead x).1 := by
  rcases c.begRead_accept x with ⟨heq, -⟩ | ⟨d, k, -, -, heq⟩
  · rw [heq]
    exact .refl c
  · rw [heq]
    exact ⟨rfl, List.prefix_rfl, List.prefix_rfl, List.prefix_append _ _⟩

theorem Rudp.Ext.endRead (h : c.Ext c') : c.Ext c'.endRead :=
  ⟨h.role, h.wrote, h.sent, h.accepted⟩

theorem Rudp.ext_begWrite (c : Rudp) (p : Packet) : c.Ext (c.begWrite p) :=
  ⟨rfl, List.prefix_append _ _, List.prefix_rfl, List.prefix_rfl⟩

theorem Rudp.EndWriteStep.ext (hs : c.EndWriteStep pc e c' pc') : c.Ext c' := by
  cases hs with
  | transmit | resend => exact ⟨rfl, List.prefix_rfl, List.prefix_append _ _, List.prefix_rfl⟩
  | probe x | probeFin x => exact c.ext_begRead x
  | _ => exact ⟨rfl, List.prefix_rfl, List.prefix_rfl, List.prefix_rfl⟩

theorem Rudp.Ext.resent_le (h : c.Ext c') (k : Int) : c.resent k ≤ c'.resent k :=
  Nat.sub_le_sub_right h.sent.countP_le 1

theorem RudpStep.ext {c c' : RudpConn} {e : RudpEvent} (hs : RudpStep c e c') :
    c.server.Ext c'.server ∧ c.client.Ext c'.client := by
  cases hs with
  | masterWrite => exact ⟨c.server.ext_begWrite _, .refl _⟩
  | masterStep _ hstep => exact ⟨hstep.ext, .refl _⟩
  | workerRead => exact ⟨c.server.ext_begRead _, .refl _⟩
  | workerRelease => exact ⟨(Rudp.Ext.refl _).endRead, .refl _⟩
  | connect | respond => exact ⟨.refl _, c.client.ext_begWrite _⟩
  | clientStep _ _ hstep => exact ⟨.refl _, hstep.ext⟩
  | clientGet | clientFin => exact ⟨.refl _, (c.client.ext_begRead _).endRead⟩
  | clientAgain => exact ⟨.refl _, c.client.ext_begRead _⟩
  | masterCall | masterRet | clientRet | clientQuit => exact ⟨.refl _, .refl _⟩

def RudpConn.FewResends (c : RudpConn) : Prop :=
  ∀ k, c.server.resent k < 32768 ∧ c.client.resent k < 32768

theorem RudpStep.fewResends {c c' : RudpConn} {e : RudpEvent} (hs : RudpStep c e c')
    (h : c'.FewResends) : c.FewResends := by
  intro k
  obtain ⟨hserver, hclient⟩ := hs.ext
  exact ⟨(hserver.resent_le k).trans_lt (h k).1, (hclient.resent_le k).trans_lt (h k).2⟩

def Rudp.Transmitted (c : Rudp) : Prop := ∃ d ∈ c.sent, d.seqNo = c.writeSeq

theorem Rudp.transmitted_transmit (c : Rudp) : c.transmit.Transmitted :=
  ⟨⟨c.writeSeq, c.writeData⟩, by simp [Rudp.transmit], rfl⟩

theorem Rudp.Transmitted.resent_transmit (h : c.Transmitted) :
    c.transmit.resent c.writeSeq = c.resent c.writeSeq + 1 := by
  obtain ⟨d, hd, hseq⟩ := h
  have hpos : 0 < c.sent.countP fun d => d.seqNo == c.writeSeq :=
    List.countP_pos_iff.mpr ⟨d, hd, by simp [hseq]⟩
  simp only [Rudp.resent, Rudp.transmit, List.countP_append, List.countP_singleton,
    beq_self_eq_true, if_true]
  omega

-- The counter in each message sent is at most the number of its retransmissions.
def Rudp.SentRto (c : Rudp) : Prop :=
  ∀ d ∈ c.sent, 0 ≤ d.packet.msg.rto c.isServer ∧ d.packet.msg.rto c.isServer ≤ c.resent d.seqNo

def Rudp.BufferRto (c : Rudp) : Prop :=
  0 ≤ c.writeData.msg.rto c.isServer ∧ c.writeData.msg.rto c.isServer ≤ c.resent c.writeSeq

def Rudp.BetweenCalls (c : Rudp) : Prop :=
  c.BufferRto ∧ (c.ackOutstanding = true → c.Transmitted)

def Rudp.CallRto (c : Rudp) : EndWritePc → Prop
  | .entry | .ret .eagain | .ret .rtofired => c.BetweenCalls
  | .record | .probe | .compare | .timer | .resend => c.BufferRto ∧ c.Transmitted
  | .ret .enone => c.ackOutstanding = false
  | .ret .efin => True

-- The limit of `send_response` is not reached.
def Rudp.RtosOk (c : Rudp) (rtos : Nat) : EndWritePc → Prop
  | .ret .rtofired => rtos + 1 ≤ c.resent c.writeSeq
  | .ret .efin => True
  | _ => rtos ≤ c.resent c.writeSeq

-- The counters of the messages accepted are at most the numbers of retransmissions.
def Rudp.HeardRto (c peer : Rudp) : Prop :=
  ∀ (k : Nat) (p : Packet), c.accepted[k]? = some p →
    0 ≤ p.msg.rto peer.isServer ∧ p.msg.rto peer.isServer ≤ peer.resent k

theorem Rudp.SentRto.congr (h : c.SentRto) (hrole : c'.isServer = c.isServer)
    (hsent : c'.sent = c.sent) : c'.SentRto := by
  simpa [Rudp.SentRto, Rudp.resent, hrole, hsent] using h

theorem Rudp.BufferRto.congr (h : c.BufferRto) (hrole : c'.isServer = c.isServer)
    (hsent : c'.sent = c.sent) (hseq : c'.writeSeq = c.writeSeq)
    (hdata : c'.writeData = c.writeData) : c'.BufferRto := by
  simpa [Rudp.BufferRto, Rudp.resent, hrole, hsent, hseq, hdata] using h

theorem Rudp.SentRto.transmit (h : c.SentRto) (hbuf : c.BufferRto) : c.transmit.SentRto := by
  have hext : c.Ext c.transmit :=
    ⟨rfl, List.prefix_rfl, List.prefix_append _ _, List.prefix_rfl⟩
  intro d hd
  rcases List.mem_append.mp hd with hd | hd
  · obtain ⟨hlo, hhi⟩ := h d hd
    have := hext.resent_le d.seqNo
    exact ⟨hlo, hhi.trans (by exact_mod_cast this)⟩
  · obtain rfl := List.mem_singleton.mp hd
    have := hext.resent_le c.writeSeq
    exact ⟨hbuf.1, hbuf.2.trans (by exact_mod_cast this)⟩

theorem Rudp.BufferRto.transmit (h : c.BufferRto) : c.transmit.BufferRto := by
  have hext : c.Ext c.transmit :=
    ⟨rfl, List.prefix_rfl, List.prefix_append _ _, List.prefix_rfl⟩
  have := hext.resent_le c.writeSeq
  exact ⟨h.1, h.2.trans (by exact_mod_cast this)⟩

theorem Rudp.BufferRto.resend (h : c.BufferRto) (ht : c.Transmitted) (hsent : c.SentRto)
    (hfew : c.bumpRto.transmit.resent c.writeSeq < 32768) :
    c.bumpRto.transmit.BufferRto ∧ c.bumpRto.transmit.SentRto ∧
      c.bumpRto.transmit.resent c.writeSeq = c.resent c.writeSeq + 1 := by
  have hresent : c.bumpRto.transmit.resent c.writeSeq = c.resent c.writeSeq + 1 :=
    Rudp.Transmitted.resent_transmit (c := c.bumpRto) ht
  obtain ⟨hlo, hhi⟩ := h
  have hrto : c.bumpRto.writeData.msg.rto c.isServer = c.writeData.msg.rto c.isServer + 1 := by
    have hbound : i16 (c.writeData.msg.rto c.isServer + 1) = c.writeData.msg.rto c.isServer + 1 :=
      i16_eq_self (by omega) (by omega)
    cases hrole : c.isServer <;> simpa [Rudp.bumpRto, Msg.rto, hrole] using hbound
  refine ⟨⟨?_, ?_⟩, ?_, hresent⟩
  · show 0 ≤ c.bumpRto.writeData.msg.rto c.isServer
    omega
  · show c.bumpRto.writeData.msg.rto c.isServer ≤ (c.bumpRto.transmit.resent c.writeSeq : Nat)
    omega
  · intro d hd
    rcases List.mem_append.mp hd with hd | hd
    · obtain ⟨hlo, hhi⟩ := hsent d hd
      have hext : c.Ext c.bumpRto.transmit :=
        ⟨rfl, List.prefix_rfl, List.prefix_append _ _, List.prefix_rfl⟩
      have := hext.resent_le d.seqNo
      exact ⟨hlo, hhi.trans (by exact_mod_cast this)⟩
    · obtain rfl := List.mem_singleton.mp hd
      show 0 ≤ c.bumpRto.writeData.msg.rto c.isServer ∧
        c.bumpRto.writeData.msg.rto c.isServer ≤ (c.bumpRto.transmit.resent c.writeSeq : Nat)
      omega

theorem Rudp.begRead_buffer (c : Rudp) (x : BaseRead) :
    (c.begRead x).1.sent = c.sent ∧ (c.begRead x).1.writeSeq = c.writeSeq ∧
      (c.begRead x).1.writeData = c.writeData ∧
      (c.begRead x).1.ackOutstanding = c.ackOutstanding := by
  rcases c.begRead_accept x with ⟨heq, -⟩ | ⟨d, k, -, -, heq⟩
  · rw [heq]
    exact ⟨rfl, rfl, rfl, rfl⟩
  · rw [heq]
    exact ⟨rfl, rfl, rfl, rfl⟩

theorem Rudp.CallRto.read (h : c.CallRto pc) (x : BaseRead) : (c.begRead x).1.CallRto pc := by
  obtain ⟨hsent, hseq, hdata, hack⟩ := c.begRead_buffer x
  have hrole := (c.ext_begRead x).role
  have hbuf : c.BufferRto → (c.begRead x).1.BufferRto := fun hb => hb.congr hrole hsent hseq hdata
  have htrans : c.Transmitted → (c.begRead x).1.Transmitted := by
    simp [Rudp.Transmitted, hsent, hseq]
  cases pc with
  | entry => exact ⟨hbuf h.1, fun ha => htrans (h.2 (hack ▸ ha))⟩
  | record | probe | compare | timer | resend => exact ⟨hbuf h.1, htrans h.2⟩
  | ret r =>
      cases r with
      | enone => exact hack.trans h
      | efin => trivial
      | eagain | rtofired => exact ⟨hbuf h.1, fun ha => htrans (h.2 (hack ▸ ha))⟩

theorem Rudp.CallRto.step (h : c.CallRto pc) (hsent : c.SentRto)
    (hs : c.EndWriteStep pc e c' pc') (hfew : ∀ k, c'.resent k < 32768) :
    c'.CallRto pc' ∧ c'.SentRto := by
  cases hs with
  | sentBefore hack => exact ⟨⟨h.1, h.2 hack⟩, hsent⟩
  | transmit hack => exact ⟨⟨h.1.transmit, c.transmitted_transmit⟩, hsent.transmit h.1⟩
  | failed => exact ⟨trivial, hsent⟩
  | record => exact ⟨h, hsent⟩
  | noProbe | notAcked | expired => exact ⟨h, hsent⟩
  | probe x =>
      exact ⟨Rudp.CallRto.read h x,
        hsent.congr (c.ext_begRead x).role (c.begRead_buffer x).1⟩
  | probeFin x => exact ⟨trivial, hsent.congr (c.ext_begRead x).role (c.begRead_buffer x).1⟩
  | acked => exact ⟨rfl, hsent⟩
  | notExpired => exact ⟨⟨h.1, fun _ => h.2⟩, hsent⟩
  | resend =>
      obtain ⟨hbuf, hsent', -⟩ := h.1.resend h.2 hsent (hfew _)
      exact ⟨⟨hbuf, fun _ => c.bumpRto.transmitted_transmit⟩, hsent'⟩
  | resendFailed => exact ⟨trivial, hsent⟩

theorem Rudp.RtosOk.step {rtos : Nat} (h : c.RtosOk rtos pc) (hcall : c.CallRto pc)
    (hsent : c.SentRto) (hs : c.EndWriteStep pc e c' pc') (hfew : ∀ k, c'.resent k < 32768) :
    c'.RtosOk rtos pc' := by
  cases hs with
  | sentBefore | record | noProbe | acked | notAcked | notExpired | expired => exact h
  | transmit =>
      have hext : c.Ext c.transmit :=
        ⟨rfl, List.prefix_rfl, List.prefix_append _ _, List.prefix_rfl⟩
      exact Nat.le_trans h (hext.resent_le c.writeSeq)
  | probe x =>
      obtain ⟨hsent, hseq, -, -⟩ := c.begRead_buffer x
      simpa [Rudp.RtosOk, Rudp.resent, hsent, hseq] using h
  | failed | probeFin | resendFailed => trivial
  | resend =>
      obtain ⟨-, -, hresent⟩ := hcall.1.resend hcall.2 hsent (hfew _)
      exact (Nat.succ_le_succ h).trans hresent.ge

def MasterWrite.RtoOk (m : MasterWrite) (s : Rudp) : Prop :=
  match m with
  | .idle => s.ackOutstanding = false
  | .filled => s.BetweenCalls
  | .call pc => s.CallRto pc
  | .failed => True

def RudpClientPc.RtoOk (pc : RudpClientPc) (c : Rudp) : Prop :=
  match pc with
  | .init | .getMessage | .got => c.ackOutstanding = false
  | .connect pc => c.CallRto pc
  | .respond rtos pc => c.CallRto pc ∧ c.RtosOk rtos pc
  | .terminated => True

-- The counters of the messages on a connection, at every position of the two ends.
structure RudpConn.RtoOk (c : RudpConn) : Prop where
  serverSent : c.server.SentRto
  clientSent : c.client.SentRto
  serverHeard : c.server.HeardRto c.client
  clientHeard : c.client.HeardRto c.server
  master : c.master.RtoOk c.server
  client : c.clientPc.RtoOk c.client

theorem RudpConn.RtoOk.init : RudpConn.RtoOk .init where
  serverSent := by simp [RudpConn.init, Rudp.connect, Rudp.SentRto]
  clientSent := by simp [RudpConn.init, Rudp.connect, Rudp.SentRto]
  serverHeard := by simp [RudpConn.init, Rudp.connect, Rudp.HeardRto]
  clientHeard := by simp [RudpConn.init, Rudp.connect, Rudp.HeardRto]
  master := rfl
  client := rfl

theorem Rudp.HeardRto.mono (h : c.HeardRto peer) (hext : peer.Ext peer') : c.HeardRto peer' := by
  intro k p hp
  obtain ⟨hlo, hhi⟩ := h k p hp
  have := hext.resent_le k
  rw [hext.role]
  exact ⟨hlo, hhi.trans (by exact_mod_cast this)⟩

theorem Rudp.HeardRto.accept (h : c.HeardRto peer) (hsent : peer.SentRto) {d : Datagram}
    (hd : d ∈ peer.sent) (hseq : d.seqNo = c.accepted.length) (k : Int) :
    (c.accept k d.packet).HeardRto peer := by
  intro j p hp
  rcases getElem?_snoc_cases hp with hp | ⟨rfl, rfl⟩
  · exact h j p hp
  · have := hsent d hd
    rw [hseq] at this
    exact this

theorem RudpLink.serverHeardRto {s : Rudp} (h : RudpLink s c) (hrto : s.HeardRto c)
    (hsent : c.SentRto) (hx : x.from c) : (s.begRead x).1.HeardRto c := by
  rcases h.serverRead_cases hx with heq | ⟨d, hd, hseq, k, heq⟩
  · rwa [heq]
  · rw [heq]
    exact hrto.accept hsent hd hseq k

theorem RudpLink.clientHeardRto {s : Rudp} (h : RudpLink s c) (hrto : c.HeardRto s)
    (hsent : s.SentRto) (hx : x.from s) : (c.begRead x).1.HeardRto s := by
  rcases h.clientRead_cases hx with heq | ⟨d, hd, hseq, k, heq⟩
  · rwa [heq]
  · rw [heq]
    exact hrto.accept hsent hd hseq k

theorem Rudp.BetweenCalls.begWrite (c : Rudp) (hack : c.ackOutstanding = false) {p : Packet}
    (hp : p.msg.rto c.isServer = 0) : (c.begWrite p).BetweenCalls := by
  refine ⟨⟨?_, ?_⟩, fun h => absurd h (by simp [Rudp.begWrite, hack])⟩
  · exact hp.ge
  · show p.msg.rto c.isServer ≤ _
    omega

theorem MasterWrite.RtoOk.read {m : MasterWrite} (h : m.RtoOk c) (x : BaseRead) :
    m.RtoOk (c.begRead x).1 := by
  cases m with
  | idle => exact (c.begRead_buffer x).2.2.2.trans h
  | filled => exact (Rudp.CallRto.read (show c.CallRto .entry from h) x)
  | call pc => exact Rudp.CallRto.read h x
  | failed => trivial

theorem MasterWrite.RtoOk.endRead {m : MasterWrite} (h : m.RtoOk c) : m.RtoOk c.endRead := by
  cases m with
  | idle | filled | failed => exact h
  | call pc =>
      cases pc with
      | ret r => cases r <;> exact h
      | _ => exact h

-- A client is between `end_write` loops, or the limit on retransmissions is far away.
theorem RudpClientPc.RtoOk.afterRet {pc : RudpClientPc} {r : Ret}
    {next : EndWritePc → RudpClientPc} (h : pc.RtoOk c) (hcall : pc.call = some (.ret r, next))
    (hfew : ∀ k, c.resent k < 32768) : (pc.afterRet r).RtoOk c := by
  cases pc <;>
    simp only [RudpClientPc.call, reduceCtorEq, Option.some.injEq, Prod.mk.injEq] at hcall
  case connect pc =>
      obtain ⟨rfl, -⟩ := hcall
      cases r <;> exact h
  case respond rtos pc =>
      obtain ⟨rfl, -⟩ := hcall
      obtain ⟨hcall, hrtos⟩ := h
      cases r with
      | enone => exact hcall
      | efin => trivial
      | eagain => exact ⟨hcall, hrtos⟩
      | rtofired =>
          have hfew := hfew c.writeSeq
          simp only [Rudp.RtosOk] at hrtos
          have hlimit : rtos + 1 < rtosMax := by
            unfold rtosMax
            omega
          simp only [RudpClientPc.afterRet, if_pos hlimit]
          exact ⟨hcall, hrtos⟩

theorem RudpClientPc.RtoOk.call {pc : RudpClientPc} {call call' : EndWritePc}
    {next : EndWritePc → RudpClientPc} (h : pc.RtoOk c) (hcall : pc.call = some (call, next))
    (hsent : c.SentRto) (hs : c.EndWriteStep call e c' call') (hfew : ∀ k, c'.resent k < 32768) :
    (next call').RtoOk c' ∧ c'.SentRto := by
  cases pc <;>
    simp only [RudpClientPc.call, reduceCtorEq, Option.some.injEq, Prod.mk.injEq] at hcall
  case connect pc =>
      obtain ⟨rfl, rfl⟩ := hcall
      exact Rudp.CallRto.step h hsent hs hfew
  case respond rtos pc =>
      obtain ⟨rfl, rfl⟩ := hcall
      obtain ⟨hok, hsent'⟩ := h.1.step hsent hs hfew
      exact ⟨⟨hok, h.2.step h.1 hsent hs hfew⟩, hsent'⟩

theorem Rudp.acked_read (h : c.ackOutstanding = false) (x : BaseRead) :
    (c.begRead x).1.ackOutstanding = false :=
  (c.begRead_buffer x).2.2.2.trans h

theorem RudpConn.RtoOk.step {c c' : RudpConn} {e : RudpEvent} (h : c.RtoOk) (hok : c.Ok)
    (hp : c.protocol e) (hs : RudpStep c e c') (hfew : c'.FewResends)
    (hserver : ∀ p, e = .masterWrite p → p.msg.sRto = 0)
    (hclient : ∀ p, e = .clientWrite p → p.msg.cRto = 0) : c'.RtoOk := by
  obtain ⟨hss, hcs, hsh, hch, hm, hc⟩ := h
  obtain ⟨hsext, hcext⟩ := hs.ext
  have hlink := hok.link
  cases hs with
  | @masterWrite p _ =>
      rw [hp.1] at hm
      refine ⟨hss, hcs, hsh, hch.mono hsext, Rudp.BetweenCalls.begWrite _ hm ?_, hc⟩
      simpa [Msg.rto, hlink.serverRole] using hserver p rfl
  | masterCall =>
      rw [show c.master = .filled from hp] at hm
      exact ⟨hss, hcs, hsh, hch, hm, hc⟩
  | masterStep hpc hstep =>
      rw [hpc] at hm
      obtain ⟨hcall, hss'⟩ := Rudp.CallRto.step hm hss hstep fun k => (hfew k).1
      refine ⟨hss', hcs, ?_, hch.mono hsext, hcall, hc⟩
      cases hstep with
      | probe x hrole | probeFin x hrole => simp [hlink.serverRole] at hrole
      | _ => exact hsh
  | @masterRet r hpc =>
      rw [hpc] at hm
      refine ⟨hss, hcs, hsh, hch, ?_, hc⟩
      cases r <;> exact hm
  | @workerRead x hx =>
      exact ⟨hss.congr hsext.role (c.server.begRead_buffer x).1, hcs,
        hlink.serverHeardRto hsh hcs hx, hch.mono hsext, hm.read x, hc⟩
  | workerRelease => exact ⟨hss, hcs, hsh, hch, hm.endRead, hc⟩
  | @connect p hpc =>
      rw [hpc] at hc
      refine ⟨hss, hcs, hsh.mono hcext, hch, hm, Rudp.BetweenCalls.begWrite _ hc ?_⟩
      simpa [Msg.rto, hlink.clientRole] using hclient p rfl
  | @respond p hpc =>
      rw [hpc] at hc
      refine ⟨hss, hcs, hsh.mono hcext, hch, hm, Rudp.BetweenCalls.begWrite _ hc ?_, Nat.zero_le _⟩
      simpa [Msg.rto, hlink.clientRole] using hclient p rfl
  | @clientRet r next hcall =>
      exact ⟨hss, hcs, hsh, hch, hm, hc.afterRet hcall fun k => (hfew k).2⟩
  | clientStep hcall he hstep =>
      obtain ⟨hc', hcs'⟩ := hc.call hcall hcs hstep fun k => (hfew k).2
      refine ⟨hss, hcs', hsh.mono hcext, ?_, hm, hc'⟩
      cases hstep with
      | probe x | probeFin x => exact hlink.clientHeardRto hch hss he
      | _ => exact hch
  | @clientGet x p hpc hx _ | @clientFin x hpc hx _ =>
      rw [hpc] at hc
      have hsent := hcs.congr (c.client.ext_begRead x).role (c.client.begRead_buffer x).1
      have hheard := hlink.clientHeardRto hch hss hx
      exact ⟨hss, hsent, hsh.mono hcext, hheard, hm,
        by first | exact Rudp.acked_read hc x | trivial⟩
  | @clientAgain x hpc hx _ =>
      rw [hpc] at hc
      refine ⟨hss, hcs.congr hcext.role (c.client.begRead_buffer x).1, hsh.mono hcext,
        hlink.clientHeardRto hch hss hx, hm, ?_⟩
      simp only [hpc]
      exact Rudp.acked_read hc x
  | clientQuit => exact ⟨hss, hcs, hsh, hch, hm, trivial⟩

end Q2pc
