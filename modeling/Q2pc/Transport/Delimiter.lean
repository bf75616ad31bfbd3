import Q2pc.Transport.Tcp

namespace Q2pc

variable {c c' : TcpPriv} {msgSize used len off : Nat} {bs : List UInt8} {x : SysRead}

theorem delimit_of_le (h : msgSize ≤ len) : delimit msgSize len = msgSize := if_pos h

theorem delimit_of_lt (h : len < msgSize) : delimit msgSize len = 0 := if_neg (by omega)

theorem growSize_fits {size : Nat} (passes : Nat) (hsize : 0 < size) (hpasses : 0 < passes)
    (hfits : used + len < size + passes) :
    ∃ size', growSize used len passes size = some size' ∧ used + len ≤ size' := by
  induction passes generalizing size with
  | zero => omega
  | succ passes ih =>
      rw [growSize]
      split
      · exact ih (by omega) (by omega) (by omega)
      · exact ⟨size, rfl, by omega⟩

namespace TcpPriv

-- Where the bytes start that the delimiter holds: at the result, if there is one.
def head (c : TcpPriv) : Nat := c.delimResult.getD 0

def held (c : TcpPriv) : List UInt8 := c.delimBuffer.bytes c.head c.delimBufferUsed

-- Between two calls: without a result the bytes held are no message yet, and a result
-- is the first message of them.
structure Inv (msgSize : Nat) (c : TcpPriv) : Prop where
  read : c.readBufferUsed = 0
  size : 0 < c.delimBufferSize
  fits : c.head + c.delimBufferUsed ≤ c.delimBufferSize
  idle : c.delimResult = none → c.delimResultLen = 0 ∧ c.delimBufferUsed < msgSize
  result : ∀ off : Nat, c.delimResult = some off →
    c.delimResultLen = msgSize ∧ msgSize ≤ c.delimBufferUsed

theorem Inv.new (h : 0 < msgSize) : Inv msgSize .new where
  read := rfl
  size := by decide
  fits := by decide
  idle := fun _ => ⟨rfl, h⟩
  result := by simp [TcpPriv.new]

@[simp] theorem length_held (c : TcpPriv) : c.held.length = c.delimBufferUsed :=
  Memory.length_bytes _ _ _

theorem held_eq_of_result (h : c.delimResult = some off) :
    c.held = c.delimBuffer.bytes off c.delimBufferUsed := by
  rw [held, head, h, Option.getD_some]

theorem held_eq_of_idle (h : c.delimResult = none) :
    c.held = c.delimBuffer.bytes 0 c.delimBufferUsed := by
  rw [held, head, h, Option.getD_none]

theorem view_bytes_of_result (h : c.Inv msgSize) (hr : c.delimResult = some off) :
    (View.mk off msgSize).bytes c.delimBuffer = c.held.take msgSize := by
  rw [held_eq_of_result hr, Memory.take_bytes _ _ (h.result off hr).2]
  rfl

theorem pending_of_result (hpos : 0 < msgSize) (h : c.Inv msgSize)
    (hr : c.delimResult = some off) : c.pending = some ⟨off, msgSize⟩ := by
  have hlen := (h.result off hr).1
  simp only [pending, hr, hlen]
  exact if_pos (by omega)

theorem pending_of_idle (hr : c.delimResult = none) : c.pending = none := by
  simp only [pending, hr]

theorem delimitBuffer_of_le (hpos : 0 < msgSize) (h : msgSize ≤ c.delimBufferUsed) :
    c.delimitBuffer msgSize = some { c with delimResult := some 0, delimResultLen := msgSize } := by
  simp only [delimitBuffer, delimit_of_le h]
  exact if_pos ⟨hpos, h⟩

theorem delimitBuffer_of_lt (h : c.delimBufferUsed < msgSize) :
    c.delimitBuffer msgSize = none := by
  simp only [delimitBuffer, delimit_of_lt h]
  exact if_neg (by omega)

-- What `conn_beg_delimit` does with an answer of the socket.
inductive BegDelimit (msgSize : Nat) (c : TcpPriv) : SysRead → TcpPriv → BegRead → Prop
  | pending {off : Nat} {x : SysRead} (hr : c.delimResult = some off) :
      BegDelimit msgSize c x c ⟨.enone, some ⟨off, msgSize⟩, false⟩
  | again (hr : c.delimResult = none) : BegDelimit msgSize c .again c ⟨.eagain, none, true⟩
  | refused (hr : c.delimResult = none) : BegDelimit msgSize c .refused c ⟨.efin, none, true⟩
  | finished (hr : c.delimResult = none) :
      BegDelimit msgSize c (.bytes []) c ⟨.efin, none, true⟩
  | found {bs : List UInt8} {c' : TcpPriv} (hr : c.delimResult = none) (hbs : bs ≠ [])
      (hheld : c'.held = c.held ++ bs) (hr' : c'.delimResult = some 0) (h' : c'.Inv msgSize) :
      BegDelimit msgSize c (.bytes bs) c' ⟨.enone, some ⟨0, msgSize⟩, true⟩
  | short {bs : List UInt8} {c' : TcpPriv} (hr : c.delimResult = none) (hbs : bs ≠ [])
      (hheld : c'.held = c.held ++ bs) (hr' : c'.delimResult = none) (h' : c'.Inv msgSize) :
      BegDelimit msgSize c (.bytes bs) c' ⟨.eagain, none, true⟩

theorem append_eq (hsize : 0 < c.delimBufferSize) (bs : List UInt8) :
    ∃ size, c.append bs = some { c with
        delimBuffer := c.delimBuffer.write c.delimBufferUsed bs
        delimBufferUsed := c.delimBufferUsed + bs.length
        delimBufferSize := size } ∧
      c.delimBufferUsed + bs.length ≤ size := by
  obtain ⟨size, hgrow, hfits⟩ := growSize_fits (c.delimBufferUsed + bs.length + 1) hsize
    (Nat.succ_pos _) (show c.delimBufferUsed + bs.length < _ by omega)
  exact ⟨size, by simp only [append, hgrow, Option.map_some], hfits⟩

-- Without a result the buffer holds no message, so that the call goes on to read().
theorem no_leftover (h : c.Inv msgSize) (hr : c.delimResult = none) :
    (if c.delimBufferUsed ≠ 0 then c.delimitBuffer msgSize else none) = none := by
  split
  · exact delimitBuffer_of_lt (h.idle hr).2
  · rfl

private theorem begDelimit_of_read_failed {r : BegRead} (h : c.Inv msgSize)
    (hr : c.delimResult = none) (hread : c.begRead x = some (c, r)) (hret : r.ret ≠ .enone) :
    c.begDelimit msgSize x = some (c, { r with out := none }) := by
  simp only [begDelimit, pending_of_idle hr, no_leftover h hr, hread, Option.bind_eq_bind,
    Option.bind_some]
  exact if_pos hret

private theorem begDelimit_of_read {c₁ c₂ : TcpPriv} {v : View} (h : c.Inv msgSize)
    (hr : c.delimResult = none) (hread : c.begRead x = some (c₁, ⟨.enone, some v, true⟩))
    (happend : c₁.append (v.bytes c₁.readBuffer) = some c₂) :
    c.begDelimit msgSize x = match c₂.endRead.delimitBuffer msgSize with
      | some c => some (c, ⟨.enone, some ⟨0, c.delimResultLen⟩, true⟩)
      | none => some (c₂.endRead, ⟨.eagain, none, true⟩) := by
  simp only [begDelimit, pending_of_idle hr, no_leftover h hr, hread, happend,
    Option.bind_eq_bind, Option.bind_some, ne_eq, not_true_eq_false, if_false]
  rfl

private theorem begDelimit_bytes (hpos : 0 < msgSize) (h : c.Inv msgSize)
    (hr : c.delimResult = none) (hbs : bs ≠ []) :
    ∃ c' r, c.begDelimit msgSize (.bytes bs) = some (c', r) ∧
      BegDelimit msgSize c (.bytes bs) c' r := by
  let c₁ : TcpPriv := { c with
    readBuffer := c.readBuffer.write 0 bs, readBufferUsed := bs.length }
  have hread : c.begRead (.bytes bs) = some (c₁, ⟨.enone, some ⟨0, bs.length⟩, true⟩) := by
    simp [begRead, ConnBuffers.begRead, h.read, hbs, c₁]
  have hdata : (View.mk 0 bs.length).bytes c₁.readBuffer = bs := c.readBuffer.bytes_write 0 bs
  obtain ⟨size, happend, hfits⟩ := append_eq (c := c₁) h.size bs
  rw [← hdata] at happend
  have hcall := begDelimit_of_read h hr hread happend
  rw [hdata] at hcall
  -- the connection behind the read
  let c₂ : TcpPriv := { c₁ with
    readBufferUsed := 0
    delimBuffer := c.delimBuffer.write c.delimBufferUsed bs
    delimBufferUsed := c.delimBufferUsed + bs.length
    delimBufferSize := size }
  change _ = match c₂.delimitBuffer msgSize with | some c => _ | none => _ at hcall
  have hfits : 0 + (c.delimBufferUsed + bs.length) ≤ size := by
    rw [Nat.zero_add]
    exact hfits
  have hbuffer : c₂.delimBuffer.bytes 0 c₂.delimBufferUsed = c.held ++ bs := by
    have happ := c.delimBuffer.bytes_write_append 0 c.delimBufferUsed bs
    rwa [Nat.zero_add, ← held_eq_of_idle hr] at happ
  have hsize : 0 < size := by
    have := List.length_pos_iff.mpr hbs
    omega
  by_cases hfound : msgSize ≤ c.delimBufferUsed + bs.length
  · rw [delimitBuffer_of_le (c := c₂) hpos hfound] at hcall
    refine ⟨_, _, hcall, .found hr hbs hbuffer rfl ?_⟩
    exact ⟨rfl, hsize, hfits, fun hnone => absurd hnone (by simp), fun off _ => ⟨rfl, hfound⟩⟩
  · have hshort : c.delimBufferUsed + bs.length < msgSize := by omega
    rw [delimitBuffer_of_lt (c := c₂) hshort] at hcall
    have hidle : c₂.delimResult = none := hr
    refine ⟨c₂, _, hcall, .short hr hbs ((held_eq_of_idle hidle).trans hbuffer) hidle ?_⟩
    refine ⟨rfl, hsize, ?_, fun _ => ⟨(h.idle hr).1, hshort⟩, fun off hoff => ?_⟩
    · rw [head, hidle]
      exact hfits
    · exact absurd (hidle.symm.trans hoff) (by simp)

-- `conn_beg_delimit` returns, and does one of these things.
theorem Inv.begDelimit (hpos : 0 < msgSize) (h : c.Inv msgSize) (hx : x ≠ .failed) :
    ∃ c' r, c.begDelimit msgSize x = some (c', r) ∧ BegDelimit msgSize c x c' r := by
  cases hr : c.delimResult with
  | some off =>
      refine ⟨c, _, ?_, .pending hr⟩
      simp only [TcpPriv.begDelimit, pending_of_result hpos h hr]
  | none =>
      have hfails := fun r => begDelimit_of_read_failed (x := x) (r := r) h hr
      cases x with
      | bytes bs =>
          by_cases hbs : bs = []
          · subst hbs
            refine ⟨c, _, hfails ⟨.efin, none, true⟩ ?_ (by simp), .finished hr⟩
            simp [begRead, ConnBuffers.begRead, h.read]
          · exact begDelimit_bytes hpos h hr hbs
      | again =>
          refine ⟨c, _, hfails ⟨.eagain, none, true⟩ ?_ (by simp), .again hr⟩
          simp [begRead, ConnBuffers.begRead, h.read]
      | refused =>
          refine ⟨c, _, hfails ⟨.efin, none, true⟩ ?_ (by simp), .refused hr⟩
          simp [begRead, ConnBuffers.begRead, h.read]
      | failed => exact absurd rfl hx

theorem Inv.begDelimit_cases {r : BegRead} (hpos : 0 < msgSize) (h : c.Inv msgSize)
    (hcall : c.begDelimit msgSize x = some (c', r)) : BegDelimit msgSize c x c' r := by
  by_cases hx : x = .failed
  · cases hr : c.delimResult with
    | some off =>
        simp only [TcpPriv.begDelimit, pending_of_result hpos h hr, Option.some.injEq,
          Prod.mk.injEq] at hcall
        obtain ⟨rfl, rfl⟩ := hcall
        exact .pending hr
    | none =>
        simp [TcpPriv.begDelimit, pending_of_idle hr, no_leftover h hr, begRead,
          ConnBuffers.begRead, h.read, hx] at hcall
  · obtain ⟨c₁, r₁, hcall₁, hb⟩ := h.begDelimit hpos hx
    obtain ⟨rfl, rfl⟩ := Prod.mk.inj (Option.some.inj (hcall₁.symm.trans hcall))
    exact hb

theorem BegDelimit.inv {r : BegRead} (hb : BegDelimit msgSize c x c' r) (h : c.Inv msgSize) :
    c'.Inv msgSize := by
  cases hb with
  | pending | again | refused | finished => exact h
  | found _ _ _ _ h' | short _ _ _ _ h' => exact h'

-- A successful call shows the first message of the bytes that are then held.
theorem BegDelimit.shown {r : BegRead} (hb : BegDelimit msgSize c x c' r) (h : c.Inv msgSize)
    (hret : r.ret = .enone) :
    ∃ off, c'.delimResult = some off ∧ r.out = some ⟨off, msgSize⟩ ∧
      (View.mk off msgSize).bytes c'.delimBuffer = c'.held.take msgSize := by
  have h' := hb.inv h
  cases hb with
  | pending hr => exact ⟨_, hr, rfl, view_bytes_of_result h hr⟩
  | found _ _ _ hr' _ => exact ⟨0, hr', rfl, view_bytes_of_result h' hr'⟩
  | again | refused | finished | short => simp at hret

theorem advance_of_le (hpos : 0 < msgSize) (h : msgSize ≤ c.delimBufferUsed) :
    c.advance msgSize off = { c with delimResult := some off, delimResultLen := msgSize } := by
  rw [advance, delimit_of_le h]
  exact if_pos ⟨by omega, h⟩

theorem advance_of_lt (h : c.delimBufferUsed < msgSize) : c.advance msgSize off =
    noResult { c with delimBuffer := c.delimBuffer.move 0 off c.delimBufferUsed } := by
  rw [advance, delimit_of_lt h]
  exact if_neg (by omega)

private theorem advance_inv (hpos : 0 < msgSize) (hread : c.readBufferUsed = 0)
    (hfits : off + c.delimBufferUsed ≤ c.delimBufferSize) (hused : 0 < c.delimBufferUsed) :
    (c.advance msgSize off).Inv msgSize ∧
      (c.advance msgSize off).held = c.delimBuffer.bytes off c.delimBufferUsed := by
  by_cases hnext : msgSize ≤ c.delimBufferUsed
  · rw [advance_of_le hpos hnext]
    refine ⟨⟨hread, ?_, hfits, fun hnone => absurd hnone (by simp), fun _ _ => ⟨rfl, hnext⟩⟩, rfl⟩
    show 0 < c.delimBufferSize
    omega
  · rw [advance_of_lt (by omega)]
    refine ⟨⟨hread, ?_, ?_, fun _ => ⟨rfl, ?_⟩, fun _ hoff => absurd hoff (by simp [noResult])⟩, ?_⟩
    · show 0 < c.delimBufferSize
      omega
    · show 0 + c.delimBufferUsed ≤ c.delimBufferSize
      omega
    · show c.delimBufferUsed < msgSize
      omega
    · exact Memory.bytes_move _ 0 off c.delimBufferUsed

-- The buffer holds what it reports, so that `conn_end_delimit` is in its case 1).
theorem Inv.endDelimit_eq (h : c.Inv msgSize) (hr : c.delimResult = some off) :
    c.endDelimit msgSize =
      let rest := { c with delimBufferUsed := c.delimBufferUsed - msgSize }
      if c.delimBufferUsed - msgSize = 0 then rest.noResult
      else rest.advance msgSize (off + msgSize) := by
  obtain ⟨hlen, hle⟩ := h.result off hr
  simp only [TcpPriv.endDelimit, hr, hlen, if_pos hle]

theorem Inv.endDelimit (hpos : 0 < msgSize) (h : c.Inv msgSize) (hr : c.delimResult = some off) :
    (c.endDelimit msgSize).Inv msgSize ∧
      (c.endDelimit msgSize).held = c.held.drop msgSize := by
  obtain ⟨hlen, hle⟩ := h.result off hr
  have hfits := h.fits
  rw [head, hr, Option.getD_some] at hfits
  have hheld : c.held.drop msgSize =
      c.delimBuffer.bytes (off + msgSize) (c.delimBufferUsed - msgSize) := by
    rw [held_eq_of_result hr, Memory.drop_bytes _ _ hle]
  rw [h.endDelimit_eq hr, hheld]
  by_cases hused : c.delimBufferUsed - msgSize = 0
  · simp only [if_pos hused]
    refine ⟨⟨h.read, h.size, ?_, fun _ => ⟨rfl, ?_⟩,
      fun _ hoff => absurd hoff (by simp [noResult])⟩, ?_⟩
    · show 0 + (c.delimBufferUsed - msgSize) ≤ c.delimBufferSize
      omega
    · show c.delimBufferUsed - msgSize < msgSize
      omega
    · rw [hused]
      rfl
  · simp only [if_neg hused]
    refine advance_inv (c := { c with delimBufferUsed := c.delimBufferUsed - msgSize }) hpos h.read
      ?_ ?_
    · show off + msgSize + (c.delimBufferUsed - msgSize) ≤ c.delimBufferSize
      omega
    · show 0 < c.delimBufferUsed - msgSize
      omega

theorem endDelimit_of_idle (hr : c.delimResult = none) : c.endDelimit msgSize = c := by
  simp only [endDelimit, hr]

end TcpPriv

end Q2pc
