import Q2pc.System.Preservation

namespace Q2pc

open Function (update)

variable {C : Cluster} {s t : System} {b m m' : Nat → Nat}

theorem Inv.init (C : Cluster) : Inv C (.init C) (fun _ => 0) (fun _ => 0) where
  channel := by
    intro i _
    simp only [ChannelOk, System.init, Net.init, Server.init, Client.start]
    exact {
      clientNum := by simp
      logs := ⟨by simp, by simp, by simp, by simp⟩
      votes := by simp
      request := by simp
      decision := by simp
      toClient_sorted := .nil
      toClient_mem := by simp
      responding := by simp
      toServer_sorted := .nil
      toServer_mem := by simp
      pending_mem := by simp
      slot := ⟨by simp, by simp⟩
      mark_le := by simp
      stage_le := by simp [Client.stage]
      window := by omega }
  workers := by
    constructor
    · intro w _
      simp [System.init, Server.init, WorkerAt]
    · intro i p hp
      simp [System.init, Net.init] at hp
  master := by
    constructor
    · intro _ i _
      exact Nat.zero_le _
    · intro _ i _
      simp [System.init, Server.init]
    · intro _ i _ _
      exact Nat.zero_le _
    · intro _ i p hp
      simp [System.init, Net.init] at hp
    · intro i _ hreset
      simp [System.init, Server.init, Server.SlotReset] at hreset
    · simp [System.init, Server.init, MasterAt]
  history := by
    constructor
    · intro i j p q hp
      simp [System.init, Net.init] at hp
    · intro i p hp
      simp [System.init, Net.init] at hp
    · intro i p hp
      simp [System.init, Net.init] at hp
    · intro i _ r d hd
      simp [System.init, Client.start] at hd

private theorem Inv.client {i : Nat} (h : Inv C s b m) (hsrv : t.srv = s.srv)
    (hread : t.net.readBuffer = s.net.readBuffer) (hbuf : t.net.writeBuffer = s.net.writeBuffer)
    (hpassed : t.net.passed = s.net.passed)
    (hother : ∀ j, j ≠ i → t.client j = s.client j ∧ t.net.toClient j = s.net.toClient j ∧
      t.net.toServer j = s.net.toServer j)
    (hchannel : i < C.cfg.clientCount → ChannelOk C t b m i)
    (hvotes : (s.client i).votes <+: (t.client i).votes)
    (hdec : i < C.cfg.clientCount → ∀ r d, (t.client i).decisions[r]? = some d →
      (s.client i).decisions[r]? = some d ∨
      ∃ p, (i, p) ∈ s.net.passed ∧ p.stage = 2 * r + 1 ∧ p.msg.type = d) :
    Inv C t b m := by
  have hext : ∀ j < C.cfg.clientCount, (s.client j).votes <+: (t.client j).votes := by
    intro j _
    by_cases hji : j = i
    · subst hji
      exact hvotes
    · rw [(hother j hji).1]
  refine ⟨?_, ?_, ?_, ?_⟩
  · intro j hj
    by_cases hji : j = i
    · subst hji
      exact hchannel hj
    · obtain ⟨hc, htc, hts⟩ := hother j hji
      simpa only [ChannelOk, hc, htc, hts, hsrv, hread, hpassed] using h.channel j hj
  · simpa only [hsrv, hread] using h.workers
  · exact h.master.mono (by rw [hsrv]) (by rw [hsrv]) (by rw [hsrv]) (by rw [hsrv]; exact id)
      hbuf hpassed hext (fun _ => Nat.le_refl _) (fun j _ => .inl (by rw [hsrv]))
  · refine h.history.mono hpassed hext ?_
    intro j hj r d hd
    by_cases hji : j = i
    · subst hji
      exact hdec hj r d hd
    · rw [(hother j hji).1] at hd
      exact .inl hd

theorem receive_logs {c c' : Client} {p : Packet} (h : c.receive p = some c') :
    c'.votes = c.votes ∧ (c'.decisions = c.decisions ∨
      c.phase = .phase2 ∧ c.pc = .getMessage ∧ c'.decisions = c.decisions ++ [p.msg.type]) := by
  unfold Client.receive at h
  split at h <;> try contradiction
  split at h <;> simp only [Option.some.injEq] at h <;> subst h <;> simp_all

-- A client in phase 2 receives no other message than the decision of its round.
theorem Channel.stage_of_phase2 {id : Nat} {c : Client} {toClient toServer : List Packet}
    {pending : Option Packet} {passed : Packet → Prop} {slot : MsgType} {bound mark : Nat}
    {p : Packet} (h : Channel id c toClient toServer pending passed slot bound mark)
    (hp : p ∈ toClient) (hphase : c.phase = .phase2) (hpc : c.pc = .getMessage) :
    p.stage = 2 * c.decisions.length + 1 := by
  obtain ⟨-, hge, hlt⟩ := h.toClient_mem p hp
  have hlog := h.logs.waiting hphase hpc
  have hwindow := h.window
  have hmark := h.mark_le
  simp only [Client.stage, hphase] at hge hmark
  omega

theorem System.receive_cases {i : Nat} (hs : s.step C (.receive i) = some t) :
    ∃ p rest c, s.net.toClient i = p :: rest ∧ i < C.cfg.clientCount ∧
      (s.client i).receive p = some c ∧ t = { s with
        net := { s.net with toClient := update s.net.toClient i rest }
        client := update s.client i c } := by
  simp only [System.step] at hs
  split at hs <;> try contradiction
  rename_i p rest htc
  split at hs <;> try contradiction
  rename_i hi
  obtain ⟨c, hc, rfl⟩ := Option.map_eq_some_iff.mp hs
  exact ⟨p, rest, c, htc, hi, hc, rfl⟩

theorem Inv.receive {i : Nat} (h : Inv C s b m) (hs : s.step C (.receive i) = some t) :
    Inv C t b m := by
  obtain ⟨p, rest, c, htc, hi, hc, rfl⟩ := System.receive_cases hs
  have hch := h.channel i hi
  simp only [ChannelOk, htc] at hch
  obtain ⟨hvotes, hdec⟩ := receive_logs hc
  refine h.client (i := i) rfl rfl rfl rfl ?_ ?_ ?_ ?_
  · intro j hji
    simp [hji]
  · intro _
    simpa [ChannelOk] using hch.receive hc
  · simp [hvotes]
  · intro _ r d hd
    simp only [Function.update_self] at hd
    rcases hdec with hdec | ⟨hphase, hpc, hdec⟩
    · exact .inl (hdec ▸ hd)
    · rw [hdec, List.getElem?_append] at hd
      split at hd
      · exact .inl hd
      · have hr : r = (s.client i).decisions.length := by
          have hlt := (List.getElem?_eq_some_iff.mp hd).1
          simp only [List.length_cons, List.length_nil] at hlt
          omega
        subst hr
        simp only [Nat.sub_self, List.getElem?_cons_zero, Option.some.injEq] at hd
        exact .inr ⟨p, (hch.toClient_mem p (by simp)).1,
          hch.stage_of_phase2 (by simp) hphase hpc, hd⟩

theorem respond_logs {c c' : Client} {response : Option Packet}
    (h : c.respond = some (c', response)) :
    (c'.votes = c.votes ∨ ∃ v, c'.votes = c.votes ++ [v]) ∧ c'.decisions = c.decisions := by
  obtain ⟨old, hpc⟩ : ∃ old, c.pc = .respond old := by
    unfold Client.respond at h
    split at h
    · exact ⟨_, ‹_›⟩
    · contradiction
  rcases respond_cases hpc h with ⟨rfl, -⟩ | ⟨-, -, rfl, -⟩ | ⟨-, -, rfl, -⟩ <;> simp

theorem Inv.respond {i : Nat} (h : Inv C s b m) (hs : s.step C (.respond i) = some t) :
    Inv C t b m := by
  simp only [System.step] at hs
  split at hs <;> try contradiction
  rename_i hi
  obtain ⟨⟨c, response⟩, hc, rfl⟩ := Option.map_eq_some_iff.mp hs
  obtain ⟨hvotes, hdec⟩ := respond_logs hc
  have hext : (s.client i).votes <+: c.votes := by
    rcases hvotes with hv | ⟨v, hv⟩ <;> simp [hv]
  have hid : C.peer i + 1 ≤ 32767 := by
    have := (C.peer_lt i).mpr hi
    have := C.count_le
    omega
  refine h.client (i := i) rfl rfl rfl rfl ?_ ?_ ?_ ?_
  · intro j hji
    simp [hji]
  · intro _
    simpa [ChannelOk] using (h.channel i hi).respond hid hc
  · simpa using hext
  · intro _ r d hd
    simp only [Function.update_self, hdec] at hd
    exact .inl hd

theorem Inv.quit {i : Nat} (h : Inv C s b m) (hs : s.step C (.quit i) = some t) :
    Inv C t b m := by
  simp only [System.step, Option.ite_none_right_eq_some, Option.some.injEq] at hs
  obtain ⟨hi, rfl⟩ := hs
  refine h.client (i := i) rfl rfl rfl rfl ?_ ?_ ?_ ?_
  · intro j hji
    simp [hji]
  · intro _
    simpa [ChannelOk] using (h.channel i hi).quit
  · simp
  · intro _ r d hd
    simp only [Function.update_self] at hd
    exact .inl hd

theorem drop_sublist {α : Type} {k : Nat} {l l' : List α}
    (h : (Fault.drop k).apply l = some l') : l'.Sublist l := by
  simp only [Fault.apply, Option.ite_none_right_eq_some, Option.some.injEq] at h
  obtain ⟨_, rfl⟩ := h
  exact List.eraseIdx_sublist ..

theorem Inv.fault {e : SysEvent} (h : Inv C s b m) (hlossy : e.lossy)
    (he : (∃ i f, e = .faultToClient i f) ∨ (∃ i f, e = .faultToServer i f))
    (hs : s.step C e = some t) : Inv C t b m := by
  rcases he with ⟨i, f, rfl⟩ | ⟨i, f, rfl⟩
  · obtain ⟨k, rfl⟩ := hlossy
    simp only [System.step] at hs
    split at hs <;> try contradiction
    rename_i hi
    obtain ⟨l, hl, rfl⟩ := Option.map_eq_some_iff.mp hs
    refine h.client (i := i) rfl rfl rfl rfl ?_ ?_ ?_ ?_
    · intro j hji
      simp [hji]
    · intro _
      simpa [ChannelOk] using (h.channel i hi).dropToClient (drop_sublist hl)
    · simp
    · exact fun _ r d hd => .inl hd
  · obtain ⟨k, rfl⟩ := hlossy
    simp only [System.step] at hs
    split at hs <;> try contradiction
    rename_i hi
    obtain ⟨l, hl, rfl⟩ := Option.map_eq_some_iff.mp hs
    refine h.client (i := i) rfl rfl rfl rfl ?_ ?_ ?_ ?_
    · intro j hji
      simp [hji]
    · intro _
      simpa [ChannelOk] using (h.channel i hi).dropToServer (drop_sublist hl)
    · simp
    · exact fun _ r d hd => .inl hd

end Q2pc
