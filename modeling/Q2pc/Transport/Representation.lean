import Q2pc.Lib.Machine
import Q2pc.Transport.Delimiter

namespace Q2pc

variable {c c' : TcpPriv} {msgSize used len size off : Nat} {bs : List UInt8} {x : SysRead}

-- What a call does outside of the fields of the connection.
inductive MemOp
  -- conn_beg_read is entered
  | begRead
  -- realloc of `delim_buffer` to `delim_buffer_size`
  | realloc
  -- memcpy from `read_buffer` to `delim_buffer`
  | memcpy (dst src len : Nat)
  -- memmove in `delim_buffer`
  | memmove (dst src len : Nat)
  deriving DecidableEq, Repr

structure Access where
  priv : TcpPriv
  op : MemOp

-- The sizes that the loop of `conn_beg_delimit` passes to realloc.
def growSizes (used len : Nat) : Nat → Nat → List Nat
  | 0, _ => []
  | passes + 1, size =>
      if size < used + len then size * 2 :: growSizes used len passes (size * 2) else []

namespace TcpPriv

-- `append`, with its operations: the loop, and behind it memcpy.
def appendTraced (c : TcpPriv) (data : View) : List Access × Option TcpPriv :=
  let len := (data.bytes c.readBuffer).length
  let grown := (growSizes c.delimBufferUsed len (c.delimBufferUsed + len + 1)
    c.delimBufferSize).map fun size => ⟨{ c with delimBufferSize := size }, .realloc⟩
  match growSize c.delimBufferUsed len (c.delimBufferUsed + len + 1) c.delimBufferSize with
  | none => (grown, none)
  | some size =>
      let c := { c with delimBufferSize := size }
      (grown ++ [⟨c, .memcpy c.delimBufferUsed data.off len⟩],
        some { c with
          delimBuffer := c.delimBuffer.write c.delimBufferUsed (data.bytes c.readBuffer)
          delimBufferUsed := c.delimBufferUsed + len })

-- conn_beg_delimit with its operations
def begDelimitTraced (msgSize : Nat) (c : TcpPriv) (x : SysRead) :
    List Access × Option (TcpPriv × BegRead) :=
  match c.pending with
  | some v => ([], some (c, ⟨.enone, some v, false⟩))
  | none =>
      match if c.delimBufferUsed ≠ 0 then c.delimitBuffer msgSize else none with
      | some c => ([], some (c, ⟨.enone, some ⟨0, c.delimResultLen⟩, false⟩))
      | none =>
          let entered := [⟨c, .begRead⟩]
          match c.begRead x with
          | none => (entered, none)
          | some (c, r) =>
              if r.ret ≠ .enone then (entered, some (c, { r with out := none }))
              else
                match r.out with
                | none => (entered, none)
                | some data =>
                    let (ops, c') := c.appendTraced data
                    (entered ++ ops, c'.map fun c =>
                      let c := c.endRead
                      match c.delimitBuffer msgSize with
                      | some c => (c, ⟨.enone, some ⟨0, c.delimResultLen⟩, r.read⟩)
                      | none => (c, ⟨.eagain, none, r.read⟩))

-- The operations of `advance`: without another message the bytes are moved.
def advanceOps (msgSize : Nat) (c : TcpPriv) (next : Nat) : List Access :=
  let size := delimit msgSize c.delimBufferUsed
  if size ≠ 0 ∧ size ≤ c.delimBufferUsed then []
  else [⟨c, .memmove 0 next c.delimBufferUsed⟩]

-- conn_end_delimit with its operations
def endDelimitTraced (msgSize : Nat) (c : TcpPriv) : List Access × TcpPriv :=
  match c.delimResult with
  | none => ([], c)
  | some result =>
      let next := result + c.delimResultLen
      if c.delimResultLen ≤ c.delimBufferUsed then
        let c := { c with delimBufferUsed := c.delimBufferUsed - c.delimResultLen }
        if c.delimBufferUsed = 0 then ([], c.noResult)
        else (c.advanceOps msgSize next, c.advance msgSize next)
      else (c.advanceOps msgSize next, c.advance msgSize next)

-- The operations aside, these are the functions above.
theorem appendTraced_snd (c : TcpPriv) (data : View) :
    (c.appendTraced data).2 = c.append (data.bytes c.readBuffer) := by
  simp only [appendTraced, append]
  cases growSize c.delimBufferUsed (data.bytes c.readBuffer).length
    (c.delimBufferUsed + (data.bytes c.readBuffer).length + 1) c.delimBufferSize with
  | none => rfl
  | some size => rfl

theorem begDelimitTraced_snd (msgSize : Nat) (c : TcpPriv) (x : SysRead) :
    (c.begDelimitTraced msgSize x).2 = c.begDelimit msgSize x := by
  unfold begDelimitTraced begDelimit
  cases c.pending with
  | some v => rfl
  | none =>
      generalize (if c.delimBufferUsed ≠ 0 then c.delimitBuffer msgSize else none) = found
      cases found with
      | some c => rfl
      | none =>
          cases c.begRead x with
          | none => rfl
          | some cr =>
              obtain ⟨c, r⟩ := cr
              simp only [Option.bind_eq_bind, Option.bind_some]
              split
              · rfl
              · cases r.out with
                | none => rfl
                | some data =>
                    simp only [Option.bind_some, ← appendTraced_snd]
                    cases (c.appendTraced data).2 with
                    | none => rfl
                    | some c =>
                        simp only [Option.map_some, Option.bind_some]
                        cases c.endRead.delimitBuffer msgSize <;> rfl

theorem endDelimitTraced_snd (msgSize : Nat) (c : TcpPriv) :
    (c.endDelimitTraced msgSize).2 = c.endDelimit msgSize := by
  unfold endDelimitTraced endDelimit
  cases c.delimResult with
  | none => rfl
  | some result =>
      simp only
      split
      · split <;> rfl
      · rfl

end TcpPriv

-- An operation finds what it relies on: no bytes wait in the read buffer, realloc moves no
-- result, and what is copied lies inside of the buffers.
def Access.Ok (a : Access) : Prop :=
  match a.op with
  | .begRead => a.priv.readBufferUsed = 0
  | .realloc => a.priv.delimResult = none ∧ a.priv.delimBufferSize ≤ 2 * buffSize
  | .memcpy dst src len =>
      src + len ≤ a.priv.readBufferSize ∧ dst + len ≤ a.priv.delimBufferSize
  | .memmove dst src len =>
      src + len ≤ a.priv.delimBufferSize ∧ dst + len ≤ a.priv.delimBufferSize

-- The calls of the delimiter, with what read() answers.
inductive DelimiterCall
  | begDelimit (x : SysRead)
  | endDelimit
  deriving DecidableEq, Repr

namespace TcpPriv

-- read() answers with no more bytes than it is asked for.
def Answers (c : TcpPriv) (x : SysRead) : Prop := x.data.length ≤ c.readBufferSize

instance (c : TcpPriv) (x : SysRead) : Decidable (c.Answers x) :=
  inferInstanceAs (Decidable (_ ≤ _))

def call (msgSize : Nat) (c : TcpPriv) : DelimiterCall → Option TcpPriv
  | .begDelimit x =>
      if c.Answers x then (c.begDelimit msgSize x).map fun r => r.1 else none
  | .endDelimit => some (c.endDelimit msgSize)

def ops (msgSize : Nat) (c : TcpPriv) : DelimiterCall → List Access
  | .begDelimit x => (c.begDelimitTraced msgSize x).1
  | .endDelimit => (c.endDelimitTraced msgSize).1

end TcpPriv

-- The delimiter of a connection, from new_conn_priv on.
def tcpDelimiter (msgSize : Nat) : Machine TcpPriv DelimiterCall where
  init := .new
  step := TcpPriv.call msgSize

namespace TcpPriv

-- The buffer is doubled at most once, for less than a message is left in it when bytes
-- are added.
structure Rep (msgSize : Nat) (c : TcpPriv) : Prop where
  inv : c.Inv msgSize
  aligned : ∀ off : Nat, c.delimResult = some off → msgSize ∣ off
  readSize : c.readBufferSize = buffSize
  grown : c.delimBufferSize = buffSize ∨ c.delimBufferSize = 2 * buffSize

theorem Rep.new (h : 0 < msgSize) : Rep msgSize .new where
  inv := .new h
  aligned := by simp [TcpPriv.new]
  readSize := rfl
  grown := .inl rfl

end TcpPriv

-- What fits into the doubled buffer makes it grow once at most.
theorem growSize_once {passes : Nat} (hsize : size = buffSize ∨ size = 2 * buffSize)
    (hpasses : 1 < passes) (hfits : used + len ≤ 2 * buffSize) :
    ∃ size', growSize used len passes size = some size' ∧ used + len ≤ size' ∧
      (size' = buffSize ∨ size' = 2 * buffSize) ∧
      ∀ s ∈ growSizes used len passes size, s = 2 * buffSize := by
  obtain ⟨passes, rfl⟩ := Nat.exists_eq_add_of_le' hpasses
  by_cases hgrow : size < used + len
  · obtain rfl : size = buffSize := by omega
    have hstop : ¬ buffSize * 2 < used + len := by omega
    refine ⟨2 * buffSize, ?_, hfits, .inr rfl, fun s hs => ?_⟩
    · rw [growSize, if_pos hgrow, growSize, if_neg hstop, Nat.mul_comm]
    · rw [growSizes, if_pos hgrow, growSizes, if_neg hstop, List.mem_singleton] at hs
      omega
  · refine ⟨size, ?_, by omega, hsize, fun s hs => ?_⟩
    · rw [growSize, if_neg hgrow]
    · rw [growSizes, if_neg hgrow] at hs
      exact absurd hs List.not_mem_nil

namespace TcpPriv

private theorem begDelimitTraced_bytes (h : c.Inv msgSize) (hr : c.delimResult = none)
    (hbs : bs ≠ []) :
    c.begDelimitTraced msgSize (.bytes bs) =
      let (ops, c') := { c with
          readBuffer := c.readBuffer.write 0 bs, readBufferUsed := bs.length : TcpPriv
        }.appendTraced ⟨0, bs.length⟩
      (⟨c, .begRead⟩ :: ops, c'.map fun c =>
        match c.endRead.delimitBuffer msgSize with
        | some c => (c, ⟨.enone, some ⟨0, c.delimResultLen⟩, true⟩)
        | none => (c.endRead, ⟨.eagain, none, true⟩)) := by
  simp only [begDelimitTraced, pending_of_idle hr, no_leftover h hr, begRead,
    ConnBuffers.begRead, h.read, ne_eq, not_true_eq_false, if_false, if_neg hbs, Option.map_some]
  rfl

theorem delimitBuffer_sizes (h : c.delimitBuffer msgSize = some c') :
    c'.readBufferSize = c.readBufferSize ∧ c'.delimBufferSize = c.delimBufferSize := by
  simp only [delimitBuffer, Option.ite_none_right_eq_some, Option.some.injEq] at h
  obtain ⟨_, rfl⟩ := h
  exact ⟨rfl, rfl⟩

private theorem Rep.begDelimit_bytes (hmax : msgSize ≤ buffSize) (h : c.Rep msgSize)
    (hr : c.delimResult = none) (hbs : bs ≠ []) (hlen : bs.length ≤ c.readBufferSize) :
    (∀ a ∈ (c.begDelimitTraced msgSize (.bytes bs)).1, a.Ok) ∧
      ∀ c' r, (c.begDelimitTraced msgSize (.bytes bs)).2 = some (c', r) →
        c'.readBufferSize = buffSize ∧
          (c'.delimBufferSize = buffSize ∨ c'.delimBufferSize = 2 * buffSize) := by
  have hused := (h.inv.idle hr).2
  have hlen' : bs.length ≤ buffSize := h.readSize ▸ hlen
  have hpos : 0 < bs.length := List.length_pos_iff.mpr hbs
  have hcount : ((View.mk 0 bs.length).bytes (c.readBuffer.write 0 bs)).length = bs.length :=
    Memory.length_bytes _ _ _
  obtain ⟨size, hsize, hfits, hgrown, hsizes⟩ :=
    growSize_once h.grown (show 1 < c.delimBufferUsed + bs.length + 1 by omega)
      (show c.delimBufferUsed + bs.length ≤ 2 * buffSize by omega)
  rw [begDelimitTraced_bytes h.inv hr hbs]
  simp only [appendTraced, hcount, hsize]
  refine ⟨fun a ha => ?_, fun c' r hcall => ?_⟩
  · simp only [List.mem_cons, List.mem_append, List.mem_map, List.not_mem_nil, or_false] at ha
    rcases ha with rfl | ⟨size', hsize', rfl⟩ | rfl
    · exact h.inv.read
    · exact ⟨hr, (hsizes size' hsize').le⟩
    · exact ⟨by simpa using hlen, hfits⟩
  · simp only [Option.map_some, Option.some.injEq] at hcall
    split at hcall
    next c₁ hfound =>
        obtain ⟨hread, hdelim⟩ := delimitBuffer_sizes hfound
        obtain ⟨rfl, _⟩ := Prod.mk.inj hcall
        rw [hread, hdelim]
        exact ⟨h.readSize, hgrown⟩
    next =>
        obtain ⟨rfl, _⟩ := Prod.mk.inj hcall
        exact ⟨h.readSize, hgrown⟩

private theorem begDelimitTraced_ops (h : c.Inv msgSize) (hr : c.delimResult = none)
    (hdata : x.data = []) : (c.begDelimitTraced msgSize x).1 = [⟨c, .begRead⟩] := by
  simp only [begDelimitTraced, pending_of_idle hr, no_leftover h hr, begRead,
    ConnBuffers.begRead, h.read, ne_eq, not_true_eq_false, if_false]
  cases x with
  | bytes bs =>
      obtain rfl : bs = [] := hdata
      rfl
  | again | refused | failed => rfl

theorem Rep.ops_begDelimit (hpos : 0 < msgSize) (hmax : msgSize ≤ buffSize) (h : c.Rep msgSize)
    (hx : c.Answers x) : ∀ a ∈ c.ops msgSize (.begDelimit x), a.Ok := by
  intro a ha
  cases hr : c.delimResult with
  | some off =>
      simp only [ops, begDelimitTraced, pending_of_result hpos h.inv hr] at ha
      exact absurd ha List.not_mem_nil
  | none =>
      by_cases hdata : x.data = []
      · rw [ops, begDelimitTraced_ops h.inv hr hdata, List.mem_singleton] at ha
        rw [ha]
        exact h.inv.read
      · cases x with
        | bytes bs => exact (h.begDelimit_bytes hmax hr hdata hx).1 a ha
        | again | refused | failed => exact absurd rfl hdata

theorem Rep.begDelimit {r : BegRead} (hpos : 0 < msgSize) (hmax : msgSize ≤ buffSize)
    (h : c.Rep msgSize) (hx : c.Answers x) (hcall : c.begDelimit msgSize x = some (c', r)) :
    c'.Rep msgSize := by
  have hb := h.inv.begDelimit_cases hpos hcall
  have hsizes : c.delimResult = none → ∀ bs : List UInt8, x = .bytes bs → bs ≠ [] →
      c'.readBufferSize = buffSize ∧
        (c'.delimBufferSize = buffSize ∨ c'.delimBufferSize = 2 * buffSize) := by
    rintro hr bs rfl hbs
    rw [← begDelimitTraced_snd] at hcall
    exact (h.begDelimit_bytes hmax hr hbs hx).2 c' r hcall
  cases hb with
  | pending | again | refused | finished => exact h
  | found hr hbs _ hr' h' =>
      obtain ⟨hread, hgrown⟩ := hsizes hr _ rfl hbs
      refine ⟨h', fun off hoff => ?_, hread, hgrown⟩
      obtain rfl : 0 = off := Option.some.inj (hr'.symm.trans hoff)
      exact Nat.dvd_zero msgSize
  | short hr hbs _ hr' h' =>
      obtain ⟨hread, hgrown⟩ := hsizes hr _ rfl hbs
      exact ⟨h', fun off hoff => absurd (hr'.symm.trans hoff) (by simp), hread, hgrown⟩

theorem Rep.endDelimit (hpos : 0 < msgSize) (h : c.Rep msgSize) :
    (c.endDelimit msgSize).Rep msgSize := by
  cases hr : c.delimResult with
  | none => rwa [endDelimit_of_idle hr]
  | some off =>
      have hinv := (h.inv.endDelimit hpos hr).1
      have halign := h.aligned off hr
      rw [h.inv.endDelimit_eq hr] at hinv ⊢
      by_cases hused : c.delimBufferUsed - msgSize = 0
      · simp only [if_pos hused] at hinv ⊢
        exact ⟨hinv, fun _ hoff => absurd hoff (by simp [noResult]), h.readSize, h.grown⟩
      · simp only [if_neg hused] at hinv ⊢
        by_cases hnext : msgSize ≤ c.delimBufferUsed - msgSize
        · rw [advance_of_le hpos hnext] at hinv ⊢
          refine ⟨hinv, fun off' hoff' => ?_, h.readSize, h.grown⟩
          obtain rfl : off + msgSize = off' := Option.some.inj hoff'
          exact Nat.dvd_add_self_right.mpr halign
        · rw [advance_of_lt (Nat.lt_of_not_le hnext)] at hinv ⊢
          exact ⟨hinv, fun _ hoff => absurd hoff (by simp [noResult]), h.readSize, h.grown⟩

theorem Rep.ops_endDelimit (h : c.Rep msgSize) : ∀ a ∈ c.ops msgSize .endDelimit, a.Ok := by
  intro a ha
  cases hr : c.delimResult with
  | none =>
      simp only [ops, endDelimitTraced, hr] at ha
      exact absurd ha List.not_mem_nil
  | some off =>
      obtain ⟨hlen, hle⟩ := h.inv.result off hr
      have hfits := h.inv.fits
      rw [head, hr, Option.getD_some] at hfits
      simp only [ops, endDelimitTraced, hr, hlen, if_pos hle] at ha
      split at ha
      · exact absurd ha List.not_mem_nil
      · simp only [advanceOps] at ha
        split at ha
        · exact absurd ha List.not_mem_nil
        · rw [List.mem_singleton] at ha
          subst ha
          show off + msgSize + (c.delimBufferUsed - msgSize) ≤ c.delimBufferSize ∧
            0 + (c.delimBufferUsed - msgSize) ≤ c.delimBufferSize
          omega

theorem Rep.call {e : DelimiterCall} (hpos : 0 < msgSize) (hmax : msgSize ≤ buffSize)
    (h : c.Rep msgSize) (hs : c.call msgSize e = some c') : c'.Rep msgSize := by
  cases e with
  | begDelimit x =>
      simp only [TcpPriv.call, Option.ite_none_right_eq_some, Option.map_eq_some_iff] at hs
      obtain ⟨hx, ⟨_, r⟩, hcall, rfl⟩ := hs
      exact h.begDelimit hpos hmax hx hcall
  | endDelimit =>
      obtain rfl : c.endDelimit msgSize = c' := Option.some.inj hs
      exact h.endDelimit hpos

theorem rep_of_reachable (hpos : 0 < msgSize) (hmax : msgSize ≤ buffSize)
    (h : (tcpDelimiter msgSize).Reachable Machine.always c) : c.Rep msgSize :=
  h.invariant (.new hpos) fun _ _ _ _ hi _ hs => hi.call hpos hmax hs

-- The representation of the delimiter, for all sequences of its calls and all answers
-- of read().
theorem tcp_delimiter_representation (hmin : 16 ≤ msgSize) (hmax : msgSize ≤ buffSize)
    (h : (tcpDelimiter msgSize).Reachable Machine.always c) :
    (c.delimResult = none → c.delimResultLen = 0 ∧ c.delimBufferUsed < msgSize) ∧
    (∀ off, c.delimResult = some off →
      c.delimResultLen = msgSize ∧ msgSize ≤ c.delimBufferUsed ∧ msgSize ∣ off ∧
        off + c.delimBufferUsed ≤ c.delimBufferSize) ∧
    -- case 2) of `conn_end_delimit`
    ¬ (c.delimResult ≠ none ∧ c.delimBufferUsed < c.delimResultLen) ∧
    -- what the next call does to memory
    (∀ x, c.Answers x → ∀ a ∈ c.ops msgSize (.begDelimit x), a.Ok) ∧
    (∀ a ∈ c.ops msgSize .endDelimit, a.Ok) ∧
    -- the loop that grows the buffer
    c.delimBufferSize ≤ 2 * buffSize ∧
    ∀ x, x ≠ .failed → ∃ c' r, c.begDelimit msgSize x = some (c', r) := by
  have hpos : 0 < msgSize := by omega
  have hrep := rep_of_reachable hpos hmax h
  refine ⟨hrep.inv.idle, fun off hr => ?_, ?_, fun x hx => hrep.ops_begDelimit hpos hmax hx,
    hrep.ops_endDelimit, ?_, fun x hx => ?_⟩
  · obtain ⟨hlen, hle⟩ := hrep.inv.result off hr
    have hfits := hrep.inv.fits
    rw [head, hr, Option.getD_some] at hfits
    exact ⟨hlen, hle, hrep.aligned off hr, hfits⟩
  · rintro ⟨hr, hlt⟩
    obtain ⟨off, hoff⟩ := Option.ne_none_iff_exists'.mp hr
    obtain ⟨hlen, hle⟩ := hrep.inv.result off hoff
    omega
  · rcases hrep.grown with hsize | hsize <;> omega
  · obtain ⟨c', r, hcall, _⟩ := hrep.inv.begDelimit hpos hx
    exact ⟨c', r, hcall⟩

-- Two messages and a part of a third, of which the first is given up.
theorem tcp_delimiter_representation_second : ∃ c : TcpPriv,
    (tcpDelimiter 16).Reachable Machine.always c ∧ c.delimResult = some 16 ∧
      c.delimResultLen = 16 ∧ 16 + c.delimBufferUsed ≤ c.delimBufferSize ∧
      ∀ a ∈ c.ops 16 .endDelimit, a.Ok := by
  obtain ⟨c, hrun, hr⟩ := Machine.exists_run_of_eval (tcpDelimiter 16) Machine.always
    [.begDelimit (.bytes (List.replicate 40 7)), .endDelimit]
    (fun c => c.delimResult == some 16) (by decide)
  obtain ⟨_, hresult, _, _, hops, _⟩ :=
    tcp_delimiter_representation (le_refl 16) (by decide) hrun.reachable
  have hr : c.delimResult = some 16 := by simpa using hr
  obtain ⟨hlen, _, _, hfits⟩ := hresult 16 hr
  exact ⟨c, hrun.reachable, hr, hlen, hfits, hops⟩

end TcpPriv

end Q2pc
