import Q2pc.System.State
import Mathlib.Data.List.Pairwise

namespace Q2pc

-- The exchange the client is in: the one it waits for or responds to.
def Client.stage (c : Client) : Nat :=
  match c.phase with
  | .phase1 => 2 * c.votes.length
  | .phase2 => 2 * c.votes.length - 1

-- What a client has logged, by where it is in its loop.
structure Client.Logs (c : Client) : Prop where
  phase1 : c.phase = .phase1 → c.decisions.length = c.votes.length
  phase2 : c.phase = .phase2 → 1 ≤ c.votes.length
  waiting : c.phase = .phase2 → c.pc = .getMessage → c.decisions.length + 1 = c.votes.length
  responding : ∀ old, c.phase = .phase2 → c.pc = .respond old →
    c.decisions.length = c.votes.length

-- Votes belong to the first exchange of a round.
def Packet.Timed (p : Packet) : Prop :=
  p.msg.type = .voteYes ∨ p.msg.type = .voteNo → p.stage % 2 = 0

-- A response of the client with the id `id`, sent before the exchange `stage`.
structure Response (id : Nat) (votes : List MsgType) (stage : Nat) (p : Packet) : Prop where
  stage_lt : p.stage < stage
  srcHostid : p.msg.srcHostid = id
  vote : p.stage % 2 = 0 → votes[p.stage / 2]? = some p.msg.type
  ack : p.stage % 2 = 1 → p.msg.type = .ack

-- A slot that holds a response says how far the messages of its client were scored.
structure SlotOk (votes : List MsgType) (slot : MsgType) (mark : Nat) : Prop where
  vote : slot = .voteYes ∨ slot = .voteNo → mark % 2 = 1 ∧ votes[mark / 2]? = some slot
  ack : slot = .ack → mark % 2 = 0

-- The invariant of one connection: the messages the master has passed to it are of
-- the exchanges below `bound`, the responses the workers have scored are those
-- below `mark`, and all that is on its way lies in order between them.
structure Channel (id : Nat) (c : Client) (toClient toServer : List Packet)
    (pending : Option Packet) (passed : Packet → Prop) (slot : MsgType)
    (bound mark : Nat) : Prop where
  clientNum : c.clientNum = id
  logs : c.Logs
  votes : ∀ v ∈ c.votes, v = .voteYes ∨ v = .voteNo
  request : ∀ p, passed p → p.stage % 2 = 0 → p.msg.type = .request
  decision : ∀ p, passed p → p.stage % 2 = 1 → p.msg.type = .commit ∨ p.msg.type = .cancel
  toClient_sorted : toClient.Pairwise (fun p q => p.stage < q.stage)
  toClient_mem : ∀ p ∈ toClient, passed p ∧ c.stage ≤ p.stage ∧ p.stage < bound
  responding : ∀ old, c.pc = .respond old →
    passed old ∧ c.stage ≤ old.stage ∧ old.stage < bound ∧ ∀ p ∈ toClient, old.stage < p.stage
  toServer_sorted : toServer.Pairwise (fun p q => p.stage < q.stage)
  toServer_mem : ∀ p ∈ toServer, Response id c.votes c.stage p ∧ mark ≤ p.stage
  pending_mem : ∀ p, pending = some p →
    Response id c.votes c.stage p ∧ ∀ q ∈ toServer, p.stage < q.stage
  slot : SlotOk c.votes slot mark
  mark_le : mark ≤ c.stage
  stage_le : c.stage ≤ bound
  window : bound ≤ 2 * (mark / 2) + 2

variable {id : Nat} {c c' : Client} {toClient toServer : List Packet}
  {pending : Option Packet} {passed passed' : Packet → Prop} {slot : MsgType}
  {bound mark : Nat}

theorem voteType_vote (voteCount : Nat) :
    voteType voteCount = .voteYes ∨ voteType voteCount = .voteNo := by
  unfold voteType
  split <;> simp

theorem respond_cases {old : Packet} {response : Option Packet} (hpc : c.pc = .respond old)
    (h : c.respond = some (c', response)) :
    (c' = { c with pc := .terminated } ∧ response = none) ∨
    (c.phase = .phase1 ∧ old.msg.type = .request ∧
      c' = { c with
        pc := .getMessage
        phase := .phase2
        voteCount := (c.voteCount + 1) % 2 ^ 64
        votes := c.votes ++ [voteType c.voteCount] } ∧
      response = some ⟨responseMsg (voteType c.voteCount) c.clientNum old.msg, old.stage⟩) ∨
    (c.phase = .phase2 ∧ (old.msg.type = .commit ∨ old.msg.type = .cancel) ∧
      c' = { c with pc := .getMessage, phase := .phase1 } ∧
      response = some ⟨responseMsg .ack c.clientNum old.msg, old.stage⟩) := by
  simp only [Client.respond, hpc] at h
  split at h
  · simp only [Option.some.injEq, Prod.mk.injEq] at h
    exact .inl ⟨h.1.symm, h.2.symm⟩
  · rename_i t ht
    unfold Client.answer at ht
    split at ht <;> try contradiction
    all_goals
      rename_i hphase htype
      simp only [Option.some.injEq] at ht
      subst ht
      simp only [hphase, Option.some.injEq, Prod.mk.injEq] at h
      obtain ⟨rfl, rfl⟩ := h
      simp [hphase, htype]

theorem getElem?_extend {α : Type*} {l l' : List α} {k : Nat} {a : α} (hp : l <+: l')
    (h : l[k]? = some a) : l'[k]? = some a := by
  obtain ⟨hk, rfl⟩ := List.getElem?_eq_some_iff.mp h
  exact List.prefix_iff_getElem?.mp hp k hk

theorem Response.timed {votes : List MsgType} {stage : Nat} {p : Packet}
    (h : Response id votes stage p) : p.Timed := by
  intro hvote
  by_contra hodd
  have := h.ack (by omega)
  simp [this] at hvote

theorem Response.mono {votes votes' : List MsgType} {stage stage' : Nat} {p : Packet}
    (h : Response id votes stage p) (hv : votes <+: votes') (hs : stage ≤ stage') :
    Response id votes' stage' p where
  stage_lt := Nat.lt_of_lt_of_le h.stage_lt hs
  srcHostid := h.srcHostid
  vote := fun heven => getElem?_extend hv (h.vote heven)
  ack := h.ack

theorem SlotOk.mono {votes votes' : List MsgType} (h : SlotOk votes slot mark)
    (hv : votes <+: votes') : SlotOk votes' slot mark where
  vote := fun hs => ⟨(h.vote hs).1, getElem?_extend hv (h.vote hs).2⟩
  ack := h.ack

namespace Channel

theorem quit (h : Channel id c toClient toServer pending passed slot bound mark) :
    Channel id { c with pc := .terminated } toClient toServer pending passed slot bound mark :=
  { h with
    logs := ⟨h.logs.phase1, h.logs.phase2, by simp, by simp⟩
    responding := by simp }

theorem pass (h : Channel id c toClient toServer pending passed slot bound mark) (p : Packet)
    {bound' : Nat} (hstage : bound ≤ p.stage) (hbound : bound' = p.stage + 1)
    (hwindow : bound' ≤ 2 * (mark / 2) + 2)
    (hrequest : p.stage % 2 = 0 → p.msg.type = .request)
    (hdecision : p.stage % 2 = 1 → p.msg.type = .commit ∨ p.msg.type = .cancel)
    (hpassed : ∀ q, passed' q ↔ passed q ∨ q = p) :
    Channel id c (toClient ++ [p]) toServer pending passed' slot bound' mark :=
  { h with
    request := by
      intro q hq
      rcases (hpassed q).mp hq with hq | rfl
      · exact h.request q hq
      · exact hrequest
    decision := by
      intro q hq
      rcases (hpassed q).mp hq with hq | rfl
      · exact h.decision q hq
      · exact hdecision
    toClient_sorted := by
      rw [List.pairwise_append]
      refine ⟨h.toClient_sorted, List.pairwise_singleton _ _, ?_⟩
      intro q hq r hr
      have hlt := (h.toClient_mem q hq).2.2
      simp only [List.mem_singleton] at hr
      subst hr
      omega
    toClient_mem := by
      intro q hq
      have hle := h.stage_le
      rcases List.mem_append.mp hq with hq | hq
      · obtain ⟨hp, hge, hlt⟩ := h.toClient_mem q hq
        exact ⟨(hpassed q).mpr (.inl hp), hge, by omega⟩
      · simp only [List.mem_singleton] at hq
        subst hq
        exact ⟨(hpassed q).mpr (.inr rfl), by omega, by omega⟩
    responding := by
      intro old hpc
      obtain ⟨hp, hge, hlt, hall⟩ := h.responding old hpc
      refine ⟨(hpassed old).mpr (.inl hp), hge, by omega, ?_⟩
      intro q hq
      rcases List.mem_append.mp hq with hq | hq
      · exact hall q hq
      · simp only [List.mem_singleton] at hq
        subst hq
        omega
    stage_le := by have := h.stage_le; omega
    window := hwindow }

theorem dropToClient {toClient' : List Packet}
    (h : Channel id c toClient toServer pending passed slot bound mark)
    (hsub : toClient'.Sublist toClient) :
    Channel id c toClient' toServer pending passed slot bound mark :=
  { h with
    toClient_sorted := h.toClient_sorted.sublist hsub
    toClient_mem := fun p hp => h.toClient_mem p (hsub.subset hp)
    responding := by
      intro old hpc
      obtain ⟨hp, hge, hlt, hall⟩ := h.responding old hpc
      exact ⟨hp, hge, hlt, fun p hp => hall p (hsub.subset hp)⟩ }

theorem dropToServer {toServer' : List Packet}
    (h : Channel id c toClient toServer pending passed slot bound mark)
    (hsub : toServer'.Sublist toServer) :
    Channel id c toClient toServer' pending passed slot bound mark :=
  { h with
    toServer_sorted := h.toServer_sorted.sublist hsub
    toServer_mem := fun p hp => h.toServer_mem p (hsub.subset hp)
    pending_mem := fun p hp =>
      ⟨(h.pending_mem p hp).1, fun q hq => (h.pending_mem p hp).2 q (hsub.subset hq)⟩ }

theorem receive {p : Packet}
    (h : Channel id c (p :: toClient) toServer pending passed slot bound mark)
    (hc : c.receive p = some c') :
    Channel id c' toClient toServer pending passed slot bound mark := by
  obtain ⟨hp, hge, hlt⟩ := h.toClient_mem p (by simp)
  have hsorted := List.pairwise_cons.mp h.toClient_sorted
  have hresponding : passed p ∧ c.stage ≤ p.stage ∧ p.stage < bound ∧
      ∀ q ∈ toClient, p.stage < q.stage := ⟨hp, hge, hlt, hsorted.1⟩
  have hmem : ∀ q ∈ toClient, passed q ∧ c.stage ≤ q.stage ∧ q.stage < bound :=
    fun q hq => h.toClient_mem q (by simp [hq])
  unfold Client.receive at hc
  split at hc <;> try contradiction
  rename_i hpc
  split at hc <;> simp only [Option.some.injEq] at hc <;> subst hc <;> rename_i hphase
  · exact { h with
      logs := ⟨h.logs.phase1, h.logs.phase2, by simp, by simp [hphase]⟩
      toClient_sorted := hsorted.2
      toClient_mem := hmem
      responding := by
        intro old hold
        simp only [ClientPc.respond.injEq] at hold
        subst hold
        exact hresponding }
  · have hlog := h.logs.waiting hphase hpc
    exact { h with
      logs := ⟨by simp [hphase], h.logs.phase2, by simp, by simpa using fun _ => hlog⟩
      toClient_sorted := hsorted.2
      toClient_mem := hmem
      responding := by
        intro old hold
        simp only [ClientPc.respond.injEq] at hold
        subst hold
        exact hresponding }

private theorem advance {old p : Packet}
    (h : Channel id c toClient toServer pending passed slot bound mark)
    (hpc : c.pc = .respond old) (hold : old.stage = c.stage) (hpc' : c'.pc = .getMessage)
    (hnum : c'.clientNum = c.clientNum) (hlogs : c'.Logs) (hext : c.votes <+: c'.votes)
    (hvotes : ∀ v ∈ c'.votes, v = .voteYes ∨ v = .voteNo) (hstage : c'.stage = c.stage + 1)
    (hp : Response id c'.votes c'.stage p) (hps : p.stage = c.stage) :
    Channel id c' toClient (toServer ++ [p]) pending passed slot bound mark := by
  obtain ⟨-, -, hlt, hall⟩ := h.responding old hpc
  have hmark := h.mark_le
  have hmono : ∀ q, Response id c.votes c.stage q → Response id c'.votes c'.stage q :=
    fun q hq => hq.mono hext (by omega)
  exact { h with
    clientNum := hnum.trans h.clientNum
    logs := hlogs
    votes := hvotes
    toClient_mem := by
      intro q hq
      obtain ⟨hpq, -, hltq⟩ := h.toClient_mem q hq
      have := hall q hq
      exact ⟨hpq, by omega, hltq⟩
    responding := by simp [hpc']
    toServer_sorted := by
      rw [List.pairwise_append]
      refine ⟨h.toServer_sorted, List.pairwise_singleton _ _, ?_⟩
      intro q hq r hr
      have hlt := (h.toServer_mem q hq).1.stage_lt
      simp only [List.mem_singleton] at hr
      subst hr
      omega
    toServer_mem := by
      intro q hq
      rcases List.mem_append.mp hq with hq | hq
      · exact ⟨hmono q (h.toServer_mem q hq).1, (h.toServer_mem q hq).2⟩
      · simp only [List.mem_singleton] at hq
        subst hq
        exact ⟨hp, by omega⟩
    pending_mem := by
      intro q hq
      obtain ⟨hr, hall⟩ := h.pending_mem q hq
      refine ⟨hmono q hr, ?_⟩
      intro r hr'
      rcases List.mem_append.mp hr' with hr' | hr'
      · exact hall r hr'
      · simp only [List.mem_singleton] at hr'
        subst hr'
        have := hr.stage_lt
        omega
    slot := h.slot.mono hext
    mark_le := by omega
    stage_le := by omega }

-- A request that is answered with a vote is that of the round of the vote.
theorem stage_of_request {old : Packet}
    (h : Channel id c toClient toServer pending passed slot bound mark)
    (hpc : c.pc = .respond old) (hphase : c.phase = .phase1) (htype : old.msg.type = .request) :
    old.stage = 2 * c.votes.length := by
  obtain ⟨hpassed, hge, hlt, -⟩ := h.responding old hpc
  have hwindow := h.window
  have hmark := h.mark_le
  have heven : old.stage % 2 = 0 := by
    by_contra hodd
    have := h.decision old hpassed (by omega)
    simp [htype] at this
  simp only [Client.stage, hphase] at hge hmark
  omega

theorem respond {response : Option Packet}
    (h : Channel id c toClient toServer pending passed slot bound mark) (hid : id ≤ 32767)
    (hc : c.respond = some (c', response)) :
    Channel id c' toClient (toServer ++ response.toList) pending passed slot bound mark := by
  obtain ⟨old, hpc⟩ : ∃ old, c.pc = .respond old := by
    unfold Client.respond at hc
    split at hc
    · exact ⟨_, ‹_›⟩
    · contradiction
  obtain ⟨hpassed, hge, hlt, -⟩ := h.responding old hpc
  have hwindow := h.window
  have hmark := h.mark_le
  have hnum : i16 c.clientNum = id := by
    rw [h.clientNum]
    exact i16_eq_self (by omega) (by omega)
  rcases respond_cases hpc hc with
    ⟨rfl, rfl⟩ | ⟨hphase, htype, rfl, rfl⟩ | ⟨hphase, htype, rfl, rfl⟩
  · simpa using h.quit
  · have hstage : c.stage = 2 * c.votes.length := by simp [Client.stage, hphase]
    have hold : old.stage = c.stage := by
      rw [hstage]
      exact h.stage_of_request hpc hphase htype
    refine advance h hpc hold rfl rfl ?_ (List.prefix_append _ _) ?_ ?_ ?_ hold
    · have hlog := h.logs.phase1 hphase
      exact ⟨by simp, by simp, by simp [hlog], by simp⟩
    · intro v hv
      rcases List.mem_append.mp hv with hv | hv
      · exact h.votes v hv
      · simp only [List.mem_singleton] at hv
        subst hv
        exact voteType_vote _
    · simp [Client.stage, hphase]
      omega
    · refine ⟨?_, hnum, ?_, ?_⟩
      · simp [Client.stage]
        omega
      · intro _
        have hidx : old.stage / 2 = c.votes.length := by omega
        simp [hidx, responseMsg]
      · intro hodd
        change old.stage % 2 = 1 at hodd
        omega
  · have hpos := h.logs.phase2 hphase
    have hstage : c.stage = 2 * c.votes.length - 1 := by simp [Client.stage, hphase]
    have hodd : old.stage % 2 = 1 := by
      by_contra heven
      have := h.request old hpassed (by omega)
      simp [this] at htype
    have hold : old.stage = c.stage := by omega
    refine advance h hpc hold rfl rfl ?_ (List.prefix_refl _) h.votes ?_ ?_ hold
    · have hlog := h.logs.responding old hphase hpc
      exact ⟨by simp [hlog], by simp, by simp, by simp⟩
    · simp [Client.stage, hphase]
      omega
    · refine ⟨?_, hnum, ?_, fun _ => rfl⟩
      · simp [Client.stage]
        omega
      · intro heven
        change old.stage % 2 = 0 at heven
        omega

theorem begRead {p : Packet}
    (h : Channel id c toClient (p :: toServer) pending passed slot bound mark) :
    Channel id c toClient toServer (some p) passed slot bound mark := by
  have hsorted := List.pairwise_cons.mp h.toServer_sorted
  exact { h with
    toServer_sorted := hsorted.2
    toServer_mem := fun q hq => h.toServer_mem q (by simp [hq])
    pending_mem := by
      intro q hq
      simp only [Option.some.injEq] at hq
      subst hq
      exact ⟨(h.toServer_mem p (by simp)).1, hsorted.1⟩ }

theorem score {p : Packet}
    (h : Channel id c toClient toServer (some p) passed slot bound mark)
    (hmark : mark ≤ p.stage) :
    Channel id c toClient toServer (some p) passed p.msg.type bound (p.stage + 1) := by
  obtain ⟨hp, hall⟩ := h.pending_mem p rfl
  have hstage := hp.stage_lt
  have hbound := h.stage_le
  have hwindow := h.window
  exact { h with
    toServer_mem := fun q hq => ⟨(h.toServer_mem q hq).1, hall q hq⟩
    slot := by
      constructor
      · intro hvote
        have heven := hp.timed hvote
        have hidx : (p.stage + 1) / 2 = p.stage / 2 := by omega
        exact ⟨by omega, by rw [hidx]; exact hp.vote heven⟩
      · intro hack
        by_contra hodd
        have hv := h.votes p.msg.type (List.mem_of_getElem? (hp.vote (by omega)))
        simp [hack] at hv
    mark_le := by omega
    window := by omega }

theorem endRead (h : Channel id c toClient toServer pending passed slot bound mark) :
    Channel id c toClient toServer none passed slot bound mark :=
  { h with pending_mem := by simp }

theorem resetSlot (h : Channel id c toClient toServer pending passed slot bound mark) :
    Channel id c toClient toServer pending passed .lost bound mark :=
  { h with slot := ⟨by simp, by simp⟩ }

end Channel

end Q2pc
