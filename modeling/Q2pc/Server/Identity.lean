import Q2pc.Client
import Q2pc.Server.ConnectAll
import Q2pc.Server.Step

namespace Q2pc

open Function (update)

variable {msgSize i : Nat} {transport : Transport} {x : SysRead}

def Transport.sendPort (client : Transport) : Option Int := client.construct.doconnect.2.peer

theorem sendPort_eq (hclient : transport.server = false) (ht : transport.type ≠ .tcpLn) :
    transport.sendPort = some (u16 (transport.port + transport.clientId)) := by
  simp only [Transport.sendPort, Trans.doconnect, Transport.construct]
  cases htype : transport.type with
  | tcpLn => exact absurd htype ht
  | udpLn | rdpLn | udpQj => simp only [hclient, Bool.false_eq_true, if_false]

-- With `k` connections the next one is bound to the port of client `k + 1`, wherever the
-- counter starts.
theorem doconnect_bound {trans : Trans} {k : Nat} (hserver : trans.transport.server = true)
    (ht : trans.transport.type ≠ .tcpLn)
    (hk : trans.connections = trans.transport.construct.connections + k) :
    trans.doconnect.2.bound = some (u16 (trans.transport.port + (k + 1))) ∧
      trans.doconnect.1.connections = trans.transport.construct.connections + (k + 1) := by
  simp only [Transport.construct] at hk
  simp only [Trans.doconnect, Transport.construct]
  cases htype : trans.transport.type with
  | tcpLn => exact absurd htype ht
  | udpLn | rdpLn =>
      simp only [htype] at hk
      simp only [hserver, if_true, hk]
      refine ⟨?_, by omega⟩
      rw [Int.add_comm 1]
  | udpQj =>
      simp only [htype] at hk
      simp only [hserver, if_true, hk]
      exact ⟨by rw [Int.zero_add], by omega⟩

namespace ConnectAll

variable {s s' : ConnectAll} {e : ConnectEvent} {k : Nat}

-- The first `k` connections are those that are connected, each to the port of its client.
structure Numbered (trans : Trans) (conns : Nat → Option Connected) (k : Nat) : Prop where
  connections : trans.connections = trans.transport.construct.connections + k
  some : ∀ j < k, conns j ≠ none
  bound : ∀ (j : Nat) (conn : Connected), conns j = .some conn →
    j < k ∧ conn.bound = .some (u16 (trans.transport.port + (j + 1)))

-- In the first pass of the for the connection that is polled is the next one to connect,
-- and afterwards all are connected.
def NextConn (count : Int) (k : Nat) : ConnectPc → Prop
  | .loop => k = 0 ∨ count ≤ k
  | .conn i => i ≤ k ∧ (k = i ∨ count ≤ k)
  | .returned | .terminated => True

theorem Numbered.setConn (h : Numbered s.trans s.conns k)
    (hserver : s.trans.transport.server = true) (ht : s.trans.transport.type ≠ .tcpLn)
    (hle : i ≤ k) (c : TransConn) :
    Numbered (s.setConn i c).trans (s.setConn i c).conns (if i < k then k else i + 1) := by
  cases hconn : s.conns i with
  | some conn =>
      obtain ⟨hlt, hbound⟩ := h.bound i conn hconn
      simp only [ConnectAll.setConn, connect, hconn, if_pos hlt]
      refine ⟨h.connections, fun j hj => ?_, fun j conn' hj => ?_⟩
      · by_cases hji : j = i
        · simp [hji]
        · rw [Function.update_of_ne hji]
          exact h.some j hj
      · by_cases hji : j = i
        · subst hji
          rw [Function.update_self, Option.some.injEq] at hj
          exact ⟨hlt, hj ▸ hbound⟩
        · rw [Function.update_of_ne hji] at hj
          exact h.bound j conn' hj
  | none =>
      have hlt : ¬i < k := fun hlt => h.some i hlt hconn
      obtain rfl : i = k := by omega
      obtain ⟨hbound, hconnections⟩ := doconnect_bound hserver ht h.connections
      have htransport := ConnectAll.doconnect_transport s.trans
      simp only [ConnectAll.setConn, connect, hconn, if_neg hlt]
      refine ⟨?_, fun j hj => ?_, fun j conn' hj => ?_⟩
      · rw [hconnections, htransport]
        omega
      · by_cases hji : j = i
        · simp [hji]
        · rw [Function.update_of_ne hji]
          exact h.some j (by omega)
      · by_cases hji : j = i
        · subst hji
          rw [Function.update_self, Option.some.injEq] at hj
          rw [htransport]
          exact ⟨Nat.lt_succ_self j, hj ▸ hbound⟩
        · rw [Function.update_of_ne hji] at hj
          obtain ⟨hj', hbound'⟩ := h.bound j conn' hj
          rw [htransport]
          exact ⟨by omega, hbound'⟩

def Ordered (transport : Transport) (s : ConnectAll) : Prop :=
  s.trans.transport = transport ∧
    ∃ k, Numbered s.trans s.conns k ∧ NextConn transport.clientCount k s.pc

theorem Ordered.step (h : s.Ordered transport) (hserver : transport.server = true)
    (ht : transport.type ≠ .tcpLn) (hs : Step msgSize s e s') : s'.Ordered transport := by
  obtain ⟨rfl, k, hk, hpc⟩ := h
  refine ⟨hs.transport, ?_⟩
  cases hs with
  | enter hloop =>
      rw [hloop] at hpc
      exact ⟨k, hk, Nat.zero_le k, hpc⟩
  | returns => exact ⟨k, hk, trivial⟩
  | again hconn hle =>
      rw [hconn] at hpc
      exact ⟨k, hk, by rcases hpc with ⟨-, rfl | hcount⟩ <;> right <;> assumption⟩
  | @pass i x _ hconn hlt hpoll =>
      rw [hconn] at hpc
      have hnext : NextConn s.trans.transport.clientCount (if i < k then k else i + 1)
          (.conn (i + 1)) := by
        have hlt' : (i : Int) < s.trans.transport.clientCount := hlt
        split
        next hik => exact ⟨hik, .inr (by rcases hpc.2 with rfl | hcount <;> omega)⟩
        next => exact ⟨Nat.le_refl _, .inl rfl⟩
      cases hpoll with
      | terminates c => exact ⟨_, hk.setConn hserver ht hpc.1 c, trivial⟩
      | silent c | counts c => exact ⟨_, hk.setConn hserver ht hpc.1 c, hnext⟩

theorem ordered_of_reachable (hserver : transport.server = true) (ht : transport.type ≠ .tcpLn)
    (h : (connectMachine msgSize transport).Reachable Machine.always s) : s.Ordered transport := by
  apply h.invariant (P := fun s => s.Ordered transport)
  · exact ⟨rfl, 0, ⟨(Int.add_zero _).symm, by simp, by simp [connectMachine, init]⟩, .inl rfl⟩
  · intro s e s' _ ho _ hs
    exact ho.step hserver ht (step_cases hs)

end ConnectAll

-- What identifies a client to the server: its port is that of the connection with the
-- index in front of its id, a port of its own, and its responses go into the slot with
-- that index and leave the others.
structure ClientIdentified (msgSize : Nat) (server client : Transport) : Prop where
  port : ∀ (s : ConnectAll) (conn : Connected),
    (connectMachine msgSize server).Reachable Machine.always s →
    s.conns (client.clientId - 1).toNat = some conn → client.sendPort = conn.bound
  nonzero : client.sendPort ≠ some 0
  distinct : ∀ id : Int, 1 ≤ id → id ≤ server.clientCount → id ≠ client.clientId →
    { client with clientId := id }.sendPort ≠ client.sendPort
  recorded : ∀ (cfg : Config) (s s' : Server) (w i : Nat) (msgType : MsgType) (old : Msg)
    (stage : Nat), cfg.clientCount = server.clientCount →
    (s.workers w).pc = .score i ⟨responseMsg msgType client.clientId old, stage⟩ →
    s.workerStep cfg w = some s' →
    s'.votesScoreboard = update s.votesScoreboard (client.clientId - 1).toNat msgType

theorem transport_eq {options : Options} (h : options.transport = some transport) :
    transport = {
      type := options.transType
      port := u16 options.port
      server := options.server ≠ 0
      clientCount := options.server
      clientId := options.clientId } := by
  unfold Options.transport at h
  split_ifs at h
  exact (Option.some.inj h).symm

theorem score_response {cfg : Config} {s s' : Server} {w : Nat} {id : Int} {msgType : MsgType}
    {old : Msg} {stage : Nat} (hlo : 1 ≤ id) (hhi : id ≤ cfg.clientCount) (hfits : id ≤ 32767)
    (hpc : (s.workers w).pc = .score i ⟨responseMsg msgType id old, stage⟩)
    (hs : s.workerStep cfg w = some s') :
    s'.votesScoreboard = update s.votesScoreboard (id - 1).toNat msgType := by
  have hid : (responseMsg msgType id old).srcHostid = id := i16_eq_self (by omega) hfits
  simp only [Server.workerStep, hpc, hid] at hs
  rw [if_neg (by omega)] at hs
  obtain rfl := Option.some.inj hs
  rfl

-- A worker that is about to score `p`, with no vote in the scoreboard.
def scoring (p : Packet) : Server :=
  { Server.init with votesScoreboard := fun _ => .lost, workers := fun _ => ⟨.score 0 p, []⟩ }

-- A longer id is cut off, and its slot stays as it is.
theorem score_truncated (cfg : Config) {id : Int} (hlong : 32767 < id) : ∃ s',
    (scoring ⟨responseMsg .voteYes id ⟨.request, -1, 0, 0, 0⟩, 0⟩).workerStep cfg 0 = some s' ∧
    s'.votesScoreboard (id - 1).toNat = .lost := by
  have hlt : i16 id ≤ 32767 := by
    have := Int.bmod_lt (x := id) (m := 2 ^ 16) (by decide)
    unfold i16
    omega
  simp only [Server.workerStep, scoring, responseMsg]
  split
  · exact ⟨_, rfl, rfl⟩
  · refine ⟨_, rfl, ?_⟩
    show update (fun _ : Nat => MsgType.lost) (i16 id - 1).toNat .voteYes (id - 1).toNat = .lost
    rw [Function.update_of_ne (by omega)]

-- In a server with any number of clients some worker may be about to score the response.
theorem ClientIdentified.fits {server client : Transport}
    (h : ClientIdentified msgSize server client) (hcount : 0 ≤ server.clientCount) :
    client.clientId ≤ 32767 := by
  by_contra hlong
  let cfg : Config := .oneThread server.type server.clientCount.toNat 1 1
  obtain ⟨s', hstep, hlost⟩ := score_truncated cfg (show 32767 < client.clientId by omega)
  have hslots := h.recorded cfg _ s' 0 0 .voteYes ⟨.request, -1, 0, 0, 0⟩ 0
    (Int.toNat_of_nonneg hcount) rfl hstep
  rw [hslots, Function.update_self] at hlost
  simp at hlost

-- A server and a client that main starts with the same port and transport, one of UDP,
-- RUDP and Q-Jump: the id of the client identifies it if and only if it fits into the wire
-- field, the port does not wrap around to 0, and no other id wraps around to the same port.
theorem client_identified_iff {server client : Options} {ts tc : Transport}
    (hserver : server.transport = some ts) (hcount : 1 ≤ server.server)
    (hclient : client.transport = some tc) (hmode : client.server = 0)
    (hport : client.port = server.port) (htype : client.transType = server.transType)
    (ht : server.transType ≠ .tcpLn) (hlo : 1 ≤ client.clientId)
    (hhi : client.clientId ≤ server.server) :
    ClientIdentified msgSize ts tc ↔ client.clientId ≤ 32767 ∧
      u16 server.port + client.clientId ≠ 65536 ∧ server.server < client.clientId + 65536 := by
  obtain rfl := transport_eq hserver
  obtain rfl := transport_eq hclient
  have hmodeServer : server.server ≠ 0 := by omega
  have hsend : ∀ id : Int, Transport.sendPort ⟨client.transType, u16 client.port,
      client.server ≠ 0, client.server, id⟩ = some (u16 (u16 server.port + id)) := by
    intro id
    rw [sendPort_eq (by simp [hmode]) (by rwa [htype]), hport]
  have hp : 0 ≤ u16 server.port ∧ u16 server.port < 65536 := by
    unfold u16
    omega
  constructor
  · intro hid
    have hnonzero := hid.nonzero
    rw [hsend] at hnonzero
    refine ⟨hid.fits (by show 0 ≤ server.server; omega),
      fun hwrap => hnonzero (by rw [hwrap]; rfl), ?_⟩
    · by_contra hle
      have hsame := hid.distinct (client.clientId + 65536) (by omega)
        (by show _ ≤ server.server; omega) (by show _ ≠ client.clientId; omega)
      rw [hsend, hsend] at hsame
      apply hsame
      unfold u16
      congr 1
      omega
  · rintro ⟨hfits, hwrap, hother⟩
    refine ⟨?_, ?_, ?_, ?_⟩
    · intro s conn hreach hconn
      obtain ⟨htransport, k, hk, -⟩ := ConnectAll.ordered_of_reachable (by simpa using hmodeServer)
        ht hreach
      obtain ⟨-, hbound⟩ := hk.bound _ conn hconn
      rw [hsend, hbound, htransport]
      have hindex : (((client.clientId - 1).toNat : Int) + 1) = client.clientId := by omega
      rw [hindex]
    · rw [hsend]
      intro hzero
      have hzero := Option.some.inj hzero
      unfold u16 at hzero hwrap hp
      omega
    · intro id hid hle hne hsame
      rw [hsend, hsend] at hsame
      have hsame := Option.some.inj hsame
      have hle : id ≤ server.server := hle
      have hne : id ≠ client.clientId := hne
      unfold u16 at hsame hp
      omega
    · intro cfg s s' w i msgType old stage hcfg hpc hs
      have hcfg : (cfg.clientCount : Int) = server.server := hcfg
      exact score_response hlo (hhi.trans hcfg.ge) hfits hpc hs

def serverOptions (clientCount port : Int) : Options := ⟨clientCount, false, -1, .udpLn, port⟩

def clientOptions (clientId port : Int) : Options := ⟨0, true, clientId, .udpLn, port⟩

-- Client 2 of two, on the default port.
theorem client_identified_iff_two : ∃ ts tc,
    (serverOptions 2 7331).transport = some ts ∧ (clientOptions 2 7331).transport = some tc ∧
    ClientIdentified 128 ts tc := by
  refine ⟨_, _, rfl, rfl, ?_⟩
  exact (@client_identified_iff 128 (serverOptions 2 7331) (clientOptions 2 7331) _ _
    rfl (by decide) rfl rfl rfl rfl (by decide) (by decide) (by decide)).mpr (by decide)

-- The port of client 1 wraps around to 0, and client 32768 does not fit into the wire field.
theorem client_not_identified :
    (∃ ts tc, (serverOptions 1 65535).transport = some ts ∧
      (clientOptions 1 65535).transport = some tc ∧ ¬ClientIdentified 128 ts tc) ∧
    ∃ ts tc, (serverOptions 40000 7331).transport = some ts ∧
      (clientOptions 32768 7331).transport = some tc ∧ ¬ClientIdentified 128 ts tc := by
  constructor
  · exact ⟨_, _, rfl, rfl, fun h => h.nonzero (by decide)⟩
  · exact ⟨_, _, rfl, rfl, fun h => absurd (h.fits (by decide)) (by decide)⟩

end Q2pc
