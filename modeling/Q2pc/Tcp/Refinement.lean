import Q2pc.System.FaultFree
import Q2pc.Tcp.Follows

namespace Q2pc

variable {C : Cluster} {msgSize : Nat} {s s' : TcpSystem} {a : System} {b m : Nat → Nat}
  {event : TcpSysEvent}

theorem TcpFollows.start (h : TcpConnecting msgSize C s a) (hmin : 16 ≤ msgSize)
    (hall : C.cfg.clientCount ≤ s.connected) :
    TcpFollows msgSize C { s with up := true } a where
  up := rfl
  srv := by
    show s.srv.Same a.srv
    rw [h.srv, h.waits.1]
    exact .refl _
  conn := by
    intro i hi
    rw [h.waits.2]
    exact (h.conn i hi).mirror (by omega) (h.connected_of_start hall i hi)
  client := by
    intro i
    rw [← h.client]
    exact .inl rfl
  fits := fun i old hpc => absurd hpc (h.unstarted i old)
  last := by
    intro i _ old hpc
    rw [← h.client] at hpc
    exact absurd hpc (h.unstarted i old)

def TcpImplements (msgSize : Nat) (C : Cluster) (s : TcpSystem) (a : System) : Prop :=
  TcpConnecting msgSize C s a ∨ TcpFollows msgSize C s a

private theorem TcpConnecting.exact (h : TcpConnecting msgSize C s a) :
    TcpExact s.srv s.client a :=
  ⟨h.srv.trans h.waits.1.symm, h.client⟩

-- The steps of the other cluster that may answer those of this one. A client terminates at
-- the end of its stream, after a write() that fails, and on an unexpected message.
inductive TcpSysEvent.Answer (s : TcpSystem) : TcpSysEvent → SysEvent → Prop
  | server (e : Event) : Answer s (.server e) (.server e)
  | begRead {w i : Nat} {x : PipeRead} {r : ReadResult}
      (h : r = .efin → x = .finished ∨ x = .refused) :
      Answer s (.begRead w i x) (.server (.begRead w i r))
  | receive (i : Nat) (x : PipeRead) : Answer s (.receive i x) (.receive i)
  | respond (i : Nat) : Answer s (.respond i) (.respond i)
  | finished {i : Nat} {x : PipeRead} (h : x = .finished ∨ x = .refused) :
      Answer s (.receive i x) (.quit i)
  | failed (i : Nat) : Answer s (.clientWrite i .failed) (.quit i)
  | unexpected {i : Nat} (h : ∃ c, (s.client i).respond = some (c, none)) :
      Answer s (.respond i) (.quit i)
  | quit (i : Nat) : Answer s (.quit i) (.quit i)

theorem TcpSysEvent.Answer.reliable {e : SysEvent} (h : event.Answer s e) : e.reliable := by
  cases h <;> trivial

theorem TcpSysEvent.Answer.clock (h : event.Answer s (.server (.clock true))) :
    event = .server (.clock true) := by
  cases h
  rfl

private theorem TcpConnecting.step (h : TcpConnecting msgSize C s a) (hmin : 16 ≤ msgSize)
    (hs : s.step msgSize C event = some s') :
    (TcpImplements msgSize C s' a ∧ TcpExact s'.srv s'.client a) ∨ ∃ e b, event.Answer s e ∧
      (systemMachine C).step a e = some b ∧ TcpConnecting msgSize C s' b := by
  have hstay : TcpConnecting msgSize C s' a →
      TcpImplements msgSize C s' a ∧ TcpExact s'.srv s'.client a :=
    fun h => ⟨.inl h, h.exact⟩
  cases event <;> simp only [TcpSystem.step, Option.ite_none_right_eq_some, h.up,
    Bool.false_eq_true, false_and] at hs
  case connect i x => exact .inl (hstay (h.connect hmin hs.1.2.2 hs.2))
  case start =>
      obtain ⟨⟨-, -, hall⟩, hs⟩ := hs
      cases hs
      exact .inl ⟨.inr (.start h hmin hall), h.exact⟩
  case clientInit i => exact .inl (hstay (h.clientInit hmin hs.1.1 hs.1.2.1 hs.2))
  case clientWrite i x =>
      rcases h.clientWrite hs.1 hs.2 with h' | ⟨rfl, b, hb, h'⟩
      · exact .inl (hstay h')
      · exact .inr ⟨_, b, .failed i, hb, h'⟩
  case receive i x =>
      rcases h.receive hmin hs.1.1 hs.2 with h' | ⟨hx, b, hb, h'⟩
      · exact .inl (hstay h')
      · exact .inr ⟨_, b, .finished hx, hb, h'⟩
  case respond i =>
      obtain ⟨r, hr, -⟩ := Option.bind_eq_some_iff.mp hs.2
      unfold Client.respond at hr
      split at hr
      next old hpc => exact absurd hpc (h.unstarted i old)
      next => contradiction
  case quit i =>
      obtain ⟨hi, hs⟩ := hs
      cases hs
      obtain ⟨b, hb, h'⟩ := h.quit hi
      exact .inr ⟨_, b, .quit i, hb, h'⟩
  case exit i =>
      -- the process of the server has not ended
      have hmaster := hs.1.2
      simp [h.srv, Server.init] at hmaster

private theorem TcpFollows.step (h : TcpFollows msgSize C s a) (hinv : Inv C a b m)
    (hmin : 16 ≤ msgSize) (htcp : C.cfg.transType = .tcpLn)
    (hs : s.step msgSize C event = some s') :
    (TcpFollows msgSize C s' a ∧ s'.srv = s.srv ∧ s'.client = s.client) ∨
      ∃ e, event.Answer s e ∧ TcpAnswers msgSize C s s' a e := by
  cases event <;> simp only [TcpSystem.step, Option.ite_none_right_eq_some, h.up,
    Bool.true_eq_false, false_and, true_and] at hs
  case server e =>
      exact .inr ⟨_, .server e, h.server hinv hmin (by simp [htcp]) hs.1 hs.2⟩
  case write i x =>
      obtain ⟨hi, hs⟩ := hs
      obtain ⟨l, hl, rfl⟩ := Option.map_eq_some_iff.mp hs
      exact .inl ⟨by simpa only [h.up] using h.write hl, rfl, rfl⟩
  case begRead w i x =>
      obtain ⟨⟨l, r⟩, hread, -⟩ := Option.bind_eq_some_iff.mp hs
      obtain ⟨hefin, hanswers⟩ := h.begRead hmin htcp hread hs
      exact .inr ⟨_, .begRead hefin, hanswers⟩
  case clientInit i =>
      -- the client has connected
      have hjoined := (h.conn i hs.1.1).joined
      simp [hs.1.2.1] at hjoined
  case clientWrite i x =>
      rcases h.clientWrite hs.1 hs.2 with h' | ⟨rfl, hquit⟩
      · exact .inl h'
      · exact .inr ⟨_, .failed i, hquit⟩
  case receive i x =>
      rcases h.receive hinv hmin hs.1.1 hs.1.2.2.2 hs.2 with h' | hreceive | ⟨hx, hquit⟩
      · exact .inl h'
      · exact .inr ⟨_, .receive i x, hreceive⟩
      · exact .inr ⟨_, .finished hx, hquit⟩
  case respond i =>
      rcases h.respond hmin hs.1 hs.2 with hrespond | ⟨hnone, hquit⟩
      · exact .inr ⟨_, .respond i, hrespond⟩
      · exact .inr ⟨_, .unexpected hnone, hquit⟩
  case quit i =>
      obtain ⟨hi, hs⟩ := hs
      cases hs
      exact .inr ⟨_, .quit i, h.quit hi⟩
  case exit i =>
      obtain ⟨-, hs⟩ := hs
      cases hs
      exact .inl ⟨by simpa only [h.up] using h.exit, rfl, rfl⟩

theorem TcpImplements.step (h : TcpImplements msgSize C s a) (hinv : Inv C a b m)
    (hmin : 16 ≤ msgSize) (htcp : C.cfg.transType = .tcpLn)
    (hs : s.step msgSize C event = some s') :
    ∃ t, (t = a ∨ ∃ e, event.Answer s e ∧ (systemMachine C).step a e = some t) ∧
      TcpImplements msgSize C s' t ∧
      (TcpExact s.srv s.client a → a.Sparse C → TcpExact s'.srv s'.client t) := by
  rcases h with h | h
  · rcases h.step hmin hs with ⟨h', hexact⟩ | ⟨e, t, he, ht, h'⟩
    · exact ⟨a, .inl rfl, h', fun _ _ => hexact⟩
    · exact ⟨t, .inr ⟨e, he, ht⟩, .inl h', fun _ _ => h'.exact⟩
  · rcases h.step hinv hmin htcp hs with ⟨h', hsrv, hclient⟩ | ⟨e, he, t, ht, h', hexact⟩
    · refine ⟨a, .inl rfl, .inr h', fun heq _ => ?_⟩
      rwa [hsrv, hclient]
    · exact ⟨t, .inr ⟨e, he, ht⟩, .inr h', hexact⟩

-- The runs of the cluster over TCP, with its streams cut anywhere, are runs of the cluster
-- over connections that deliver whole messages.
theorem tcpSystem_simulates (hmin : 16 ≤ msgSize) (htcp : C.cfg.transType = .tcpLn) :
    (tcpSystem msgSize C).Simulates Machine.always (systemMachine C) (fun _ e => e.reliable)
      (fun s a => (systemMachine C).Reachable (fun _ e => e.reliable) a ∧
        TcpImplements msgSize C s a) where
  init := ⟨.init, .inl (.init msgSize C)⟩
  step := by
    rintro s a event t - ⟨ha, h⟩ - hs
    obtain ⟨bound, mark, hinv⟩ := exists_inv (by simp [htcp])
      (ha.mono fun _ _ => SysEvent.reliable.lossy)
    obtain ⟨u, rfl | ⟨e, he, hu⟩, ht, -⟩ := h.step hinv hmin htcp hs
    · exact ⟨u, .refl, ha, ht⟩
    · exact ⟨u, .one he.reliable hu, ha.step he.reliable hu, ht⟩

-- No wait for votes has a timeout, and the stop signal stays down.
def TcpSystem.faultFree (s : TcpSystem) (e : TcpSysEvent) : Prop :=
  e ≠ .server (.clock true) ∧ s.srv.stopSignal = false

instance (s : TcpSystem) (e : TcpSysEvent) : Decidable (s.faultFree e) :=
  inferInstanceAs (Decidable (_ ∧ _))

-- The messages on their way are all of the same exchange, of which there is one message for
-- each connection.
theorem sparse_of_counters (hinv : Inv C a b m) (hcounters : Counters C a.srv m)
    (hstop : a.srv.stopSignal = false) : a.Sparse C := by
  have hactive : a.srv.Active := ⟨hcounters.running, fun _ => hstop⟩
  intro i hi
  have hchannel := hinv.channel i hi
  have hbound := hinv.master.bound_le hactive i hi
  have hmark := hcounters.mark_ge hi
  have hle := hchannel.mark_le
  have hstage := hchannel.stage_le
  refine ⟨?_, ?_⟩
  · have hall : ∀ p ∈ a.net.toClient i, p.stage = a.srv.stageNow := by
      intro p hp
      have := (hchannel.toClient_mem p hp).2
      omega
    have hsorted := hchannel.toClient_sorted
    rcases hnet : a.net.toClient i with _ | ⟨p, _ | ⟨q, rest⟩⟩
    · rfl
    · rfl
    · rw [hnet] at hall hsorted
      have hlt := (List.pairwise_cons.mp hsorted).1 q (by simp)
      rw [hall p (by simp), hall q (by simp)] at hlt
      exact absurd hlt (Nat.lt_irrefl _)
  · intro hpending
    obtain ⟨p, hp⟩ := Option.ne_none_iff_exists'.mp hpending
    by_contra hne
    obtain ⟨q, hq⟩ := List.exists_mem_of_ne_nil _ hne
    obtain ⟨hresponse, hge⟩ := hchannel.toServer_mem q hq
    have hlt := hresponse.stage_lt
    have hpq := (hchannel.pending_mem p hp).2 q hq
    obtain ⟨w, hw, -, -, hpc⟩ := hinv.workers.held i p hp
    have hat := hinv.workers.position w hw
    rcases hpc with hpc | hpc <;> simp only [hpc, WorkerAt] at hat
    · omega
    · -- the message that is scored is yet to be counted
      have hcounting : (a.srv.workers w).pc.Counting i := by simp [hpc, WorkerPc.Counting]
      rcases MasterPc.open_or_closed hcounters.running with hopen | hclosed
      · have := (hcounters.opened hopen).counting w hw i hcounting
        omega
      · exact ((hcounters.closed hclosed).counted i hi).2 w hw hcounting

-- Without timeouts the two clusters agree in the server and in the clients.
theorem tcpSystem_simulates_exact (hmin : 16 ≤ msgSize) (htcp : C.cfg.transType = .tcpLn) :
    (tcpSystem msgSize C).Simulates TcpSystem.faultFree (systemMachine C) System.faultFree
      (fun s a => (systemMachine C).Reachable System.faultFree a ∧ TcpImplements msgSize C s a ∧
        TcpExact s.srv s.client a) where
  init := ⟨.init, .inl (.init msgSize C), rfl, rfl⟩
  step := by
    rintro s a event t - ⟨ha, h, hexact⟩ ⟨hclock, hstop⟩ hs
    have hqj : C.cfg.transType ≠ .udpQj := by simp [htcp]
    obtain ⟨bound, mark, hinv, hcounters⟩ := exists_counters hqj ha
    rw [hexact.1] at hstop
    have hsparse := sparse_of_counters hinv (hcounters hstop) hstop
    obtain ⟨u, rfl | ⟨e, he, hu⟩, ht, hkeep⟩ := h.step hinv hmin htcp hs
    · exact ⟨u, .refl, ha, ht, hkeep hexact hsparse⟩
    · have hok : a.faultFree e := ⟨he.reliable, fun heq => hclock (heq ▸ he).clock, hstop⟩
      exact ⟨u, .one hok hu, ha.step hok hu, ht, hkeep hexact hsparse⟩

end Q2pc
