import Q2pc.Transport.Rudp

namespace Q2pc

variable {x : SysRead} {r : BegRead}

-- What a call of UDP's or Q-Jump's `conn_beg_read` does that returns.
inductive ConnBuffers.ReadCall (c : ConnBuffers) (x : SysRead) : ConnBuffers → BegRead → Prop
  -- the early return, which leaves `*data_o` and `*len_o` as they are
  | silent (h : c.readBufferUsed ≠ 0) : ReadCall c x c ⟨.enone, none, false⟩
  | failed {ret : Ret} (h : c.readBufferUsed = 0) (hret : ret ≠ .enone) (hx : x.data = []) :
      ReadCall c x c ⟨ret, none, true⟩
  | found (h : c.readBufferUsed = 0) (hx : x.data ≠ []) :
      ReadCall c x
        { c with readBuffer := c.readBuffer.write 0 x.data, readBufferUsed := x.data.length }
        ⟨.enone, some ⟨0, x.data.length⟩, true⟩

theorem ConnBuffers.begRead_cases {c c' : ConnBuffers} {refused : Option Ret}
    (hrefused : refused ≠ some .enone) (h : c.begRead refused x = some (c', r)) :
    ReadCall c x c' r := by
  unfold begRead at h
  by_cases hused : c.readBufferUsed = 0
  · rw [if_neg (by simpa using hused)] at h
    cases x with
    | bytes bs =>
        by_cases hbs : bs = []
        · simp only [if_pos hbs, Option.some.injEq, Prod.mk.injEq] at h
          obtain ⟨rfl, rfl⟩ := h
          exact .failed hused (by simp) hbs
        · simp only [if_neg hbs, Option.some.injEq, Prod.mk.injEq] at h
          obtain ⟨rfl, rfl⟩ := h
          exact .found (x := .bytes bs) hused hbs
    | again =>
        simp only [Option.some.injEq, Prod.mk.injEq] at h
        obtain ⟨rfl, rfl⟩ := h
        exact .failed hused (by simp) rfl
    | refused =>
        obtain ⟨ret, hret, h⟩ := Option.map_eq_some_iff.mp h
        obtain ⟨rfl, rfl⟩ := Prod.mk.inj h
        exact .failed hused (fun heq => hrefused (hret.trans (congrArg some heq))) rfl
    | failed => simp at h
  · rw [if_pos hused] at h
    obtain ⟨rfl, rfl⟩ := Prod.mk.inj (Option.some.inj h)
    exact .silent hused

theorem ConnBuffers.begRead_ret {c c' : ConnBuffers} {refused : Option Ret}
    (hrefused : refused ≠ some .rtofired) (h : c.begRead refused x = some (c', r)) :
    r.ret ≠ .rtofired := by
  unfold begRead at h
  split at h
  · obtain ⟨rfl, rfl⟩ := Prod.mk.inj (Option.some.inj h)
    simp
  · cases x with
    | bytes bs =>
        dsimp only at h
        split at h <;> obtain ⟨rfl, rfl⟩ := Prod.mk.inj (Option.some.inj h) <;> simp
    | again =>
        obtain ⟨rfl, rfl⟩ := Prod.mk.inj (Option.some.inj h)
        simp
    | refused =>
        obtain ⟨ret, hret, heq⟩ := Option.map_eq_some_iff.mp h
        obtain ⟨rfl, rfl⟩ := Prod.mk.inj heq
        rintro rfl
        exact hrefused hret
    | failed => simp at h

theorem ConnBuffers.exists_begRead {refused : Option Ret} (c : ConnBuffers)
    (hx : x = .refused → refused ≠ none) (hfailed : x ≠ .failed) :
    ∃ c' r, c.begRead refused x = some (c', r) := by
  unfold begRead
  by_cases hused : c.readBufferUsed = 0
  · rw [if_neg (by simpa using hused)]
    cases x with
    | bytes bs =>
        by_cases hbs : bs = []
        · exact ⟨_, _, if_pos hbs⟩
        · exact ⟨_, _, if_neg hbs⟩
    | again => exact ⟨_, _, rfl⟩
    | refused =>
        obtain ⟨ret, rfl⟩ := Option.ne_none_iff_exists'.mp (hx rfl)
        exact ⟨_, _, rfl⟩
    | failed => exact absurd rfl hfailed
  · exact ⟨_, _, if_pos hused⟩

theorem ConnBuffers.pending_of_used {c : ConnBuffers} (h : c.readBufferUsed ≠ 0) :
    c.pending = some ⟨0, c.readBufferUsed⟩ := if_pos h

theorem ConnBuffers.pending_of_unused {c : ConnBuffers} (h : c.readBufferUsed = 0) :
    c.pending = none := if_neg (by simpa using h)

theorem ConnBuffers.unused_of_idle {c : ConnBuffers} (hp : c.pending = none) :
    c.readBufferUsed = 0 := by
  by_contra hused
  rw [pending_of_used hused] at hp
  simp at hp

-- A datagram is taken by RUDP as it lies in the buffer of UDP.
structure RudpPriv.Inv (c : RudpPriv) : Prop where
  idle : c.readData = none → c.base.readBufferUsed = 0
  data : ∀ data : Nat, c.readData = some data →
    data = 0 ∧ c.readDataLen = c.base.readBufferUsed ∧ c.base.readBufferUsed ≠ 0

namespace RudpPriv

variable {c c' : RudpPriv}

theorem Inv.new (server : Bool) : (new server).Inv where
  idle := fun _ => rfl
  data := by simp [RudpPriv.new]

theorem Inv.pending (h : c.Inv) :
    c.pending = if c.readData = none then none else some ⟨8, c.base.readBufferUsed - 8⟩ := by
  cases hdata : c.readData with
  | none => simp [RudpPriv.pending, hdata]
  | some data =>
      obtain ⟨rfl, hlen, hused⟩ := h.data data hdata
      simp [RudpPriv.pending, hdata, hlen, hused]

theorem Inv.readData_of_idle (h : c.Inv) (hp : c.pending = none) : c.readData = none := by
  by_contra hdata
  rw [h.pending, if_neg hdata] at hp
  simp at hp

-- The sequence number of a datagram, as the call reads it from the buffer.
def seqOf (c : RudpPriv) (bs : List UInt8) : Int := (c.base.readBuffer.write 0 bs).int 0 8

-- What a call of RUDP's `conn_beg_read` does that returns.
inductive ReadCall (c : RudpPriv) (x : SysRead) : RudpPriv → BegRead → Prop
  | pending {v : View} (h : c.pending = some v) : ReadCall c x c ⟨.enone, some v, false⟩
  | failed {c' : RudpPriv} {r : BegRead} (h : c.readData = none) (h' : c'.readData = none)
      (hinv : c'.Inv) (hx : x.data = [] ∨ c.accepts (c.seqOf x.data) = false)
      (hret : r.ret ≠ .enone) (hread : r.read = true) : ReadCall c x c' r
  | found {c' : RudpPriv} (h : c.readData = none) (h' : c'.readData = some 0) (hinv : c'.Inv)
      (hx : x.data ≠ []) (haccept : c.accepts (c.seqOf x.data) = true)
      (hbuffer : c'.base.readBuffer = c.base.readBuffer.write 0 x.data)
      (hused : c'.base.readBufferUsed = x.data.length) :
      ReadCall c x c' ⟨.enone, some ⟨8, x.data.length - 8⟩, true⟩

private theorem inv_endRead {base : UdpPriv} (hdata : c.readData = none) :
    RudpPriv.Inv { c with base := base.endRead } where
  idle := fun _ => rfl
  data := by simp [hdata]

theorem begRead_cases (hinv : c.Inv) (h : c.begRead x = some (c', r)) : c.ReadCall x c' r := by
  unfold begRead at h
  cases hp : c.pending with
  | some v =>
      simp only [hp, Option.some.injEq, Prod.mk.injEq] at h
      obtain ⟨rfl, rfl⟩ := h
      exact .pending hp
  | none =>
      have hdata := hinv.readData_of_idle hp
      simp only [hp, Option.bind_eq_bind, Option.bind_eq_some_iff, Prod.exists] at h
      obtain ⟨base, r₁, hbase, h⟩ := h
      simp only [UdpPriv.begRead, Option.map_eq_some_iff, Prod.mk.injEq, Prod.exists] at hbase
      obtain ⟨b, r₂, hb, rfl, rfl⟩ := hbase
      cases ConnBuffers.begRead_cases (by simp) hb with
      | silent hused => exact absurd (hinv.idle hdata) hused
      | failed hused hret hx =>
          simp only [if_pos hret, Option.pure_def, Option.some.injEq, Prod.mk.injEq] at h
          obtain ⟨rfl, rfl⟩ := h
          exact .failed hdata hdata (inv_endRead hdata) (.inl hx) hret rfl
      | found hused hx =>
          simp only [ne_eq, not_true_eq_false, if_false, Option.bind_some, Option.pure_def] at h
          have hseq : (c.base.readBuffer.write 0 x.data).int 0 8 = c.seqOf x.data := rfl
          rw [hseq] at h
          by_cases haccept : c.accepts (c.seqOf x.data) = true
          · rw [if_pos haccept] at h
            simp only [Option.some.injEq, Prod.mk.injEq] at h
            obtain ⟨rfl, rfl⟩ := h
            have hlen : x.data.length ≠ 0 := by simpa using hx
            exact .found hdata rfl
              ⟨by simp, fun data hdata => ⟨by simpa using hdata.symm, rfl, hlen⟩⟩ hx haccept rfl rfl
          · rw [if_neg haccept] at h
            simp only [Option.some.injEq, Prod.mk.injEq] at h
            obtain ⟨rfl, rfl⟩ := h
            exact .failed hdata hdata (inv_endRead hdata) (.inr (by simpa using haccept))
              (by simp) rfl

theorem exists_begRead (hinv : c.Inv) (hx : x ≠ .failed) :
    ∃ c' r, c.begRead x = some (c', r) := by
  unfold begRead
  cases hp : c.pending with
  | some v => exact ⟨_, _, rfl⟩
  | none =>
      have hdata := hinv.readData_of_idle hp
      obtain ⟨b, r, hb⟩ : ∃ b r, c.base.toConnBuffers.begRead (some .efin) x = some (b, r) :=
        c.base.toConnBuffers.exists_begRead (by simp) hx
      obtain ⟨base, hbase⟩ : ∃ base, c.base.begRead x = some (base, r) :=
        ⟨_, by rw [UdpPriv.begRead, hb, Option.map_some]⟩
      simp only [hbase, Option.bind_eq_bind, Option.bind_some]
      by_cases hret : r.ret = .enone
      · cases ConnBuffers.begRead_cases (by simp) hb with
        | silent hused => exact absurd (hinv.idle hdata) hused
        | failed _ hne _ => exact absurd hret hne
        | found hused hx =>
            rw [if_neg (by simp)]
            simp only [Option.bind_some, Option.pure_def]
            split
            · exact ⟨_, _, rfl⟩
            · exact ⟨_, _, rfl⟩
      · rw [if_pos hret]
        exact ⟨_, _, rfl⟩

structure SameReads (c c' : RudpPriv) : Prop where
  readBuffer : c'.base.readBuffer = c.base.readBuffer
  readBufferUsed : c'.base.readBufferUsed = c.base.readBufferUsed
  isServer : c'.isServer = c.isServer
  seqNo : c'.seqNo = c.seqNo
  readData : c'.readData = c.readData
  readDataLen : c'.readDataLen = c.readDataLen

theorem SameReads.refl (c : RudpPriv) : c.SameReads c := ⟨rfl, rfl, rfl, rfl, rfl, rfl⟩

theorem SameReads.trans {c₁ : RudpPriv} (h : c.SameReads c₁) (h' : c₁.SameReads c') :
    c.SameReads c' :=
  ⟨h'.readBuffer.trans h.readBuffer, h'.readBufferUsed.trans h.readBufferUsed,
    h'.isServer.trans h.isServer, h'.seqNo.trans h.seqNo, h'.readData.trans h.readData,
    h'.readDataLen.trans h.readDataLen⟩

theorem SameReads.inv (h : c.SameReads c') (hinv : c.Inv) : c'.Inv where
  idle := fun hdata => h.readBufferUsed.trans (hinv.idle (h.readData.symm.trans hdata))
  data := by
    rw [h.readData, h.readDataLen, h.readBufferUsed]
    exact hinv.data

theorem SameReads.pending (h : c.SameReads c') : c'.pending = c.pending := by
  rw [RudpPriv.pending, RudpPriv.pending, h.readData, h.readDataLen]

theorem SameReads.seqOf (h : c.SameReads c') (bs : List UInt8) : c'.seqOf bs = c.seqOf bs := by
  rw [RudpPriv.seqOf, RudpPriv.seqOf, h.readBuffer]

theorem SameReads.accepts (h : c.SameReads c') (seqNo : Int) :
    c'.accepts seqNo = c.accepts seqNo := by
  rw [RudpPriv.accepts, RudpPriv.accepts, h.isServer, h.seqNo]

theorem sameReads_begWrite (c : RudpPriv) : c.SameReads c.begWrite.1 :=
  ⟨rfl, rfl, rfl, rfl, rfl, rfl⟩

private theorem sameReads_firstWrite {len : Nat} {xs : List SysWrite} {ret : Ret}
    (h : c.firstWrite len xs = some (c', ret)) : c.SameReads c' := by
  unfold firstWrite at h
  split at h
  · obtain ⟨rfl, rfl⟩ := Prod.mk.inj (Option.some.inj h)
    exact .refl c
  · obtain ⟨ret₁, -, h⟩ := Option.map_eq_some_iff.mp h
    split at h
    · obtain ⟨rfl, rfl⟩ := Prod.mk.inj h
      exact .refl c
    · obtain ⟨rfl, rfl⟩ := Prod.mk.inj h
      exact ⟨rfl, rfl, rfl, rfl, rfl, rfl⟩

private theorem sameReads_checkAck {len : Nat} {x : EndWriteInput} {ret : Ret}
    (h : c.checkAck len x = some (c', ret)) : c.SameReads c' := by
  unfold checkAck at h
  split_ifs at h
  · obtain ⟨rfl, rfl⟩ := Prod.mk.inj (Option.some.inj h)
    exact ⟨rfl, rfl, rfl, rfl, rfl, rfl⟩
  · obtain ⟨rfl, rfl⟩ := Prod.mk.inj (Option.some.inj h)
    exact .refl c
  · obtain ⟨data, -, h⟩ := Option.bind_eq_some_iff.mp h
    obtain ⟨ret₁, -, h⟩ := Option.map_eq_some_iff.mp h
    obtain ⟨rfl, rfl⟩ := Prod.mk.inj h
    exact ⟨rfl, rfl, rfl, rfl, rfl, rfl⟩

-- All that `conn_end_write` does to the reader's part is a call of `conn_beg_read`.
theorem endWrite_cases {len : Nat} {x : EndWriteInput} {ret : Ret} {read : Bool}
    (h : c.endWrite len x = some (c', ret, read)) :
    read = false ∧ c.SameReads c' ∨
      ∃ c₁ c₂ r, c.SameReads c₁ ∧ c₁.begRead x.read = some (c₂, r) ∧ r.read = read ∧
        c₂.SameReads c' := by
  obtain ⟨⟨c₁, ret₁⟩, hfirst, h⟩ := Option.bind_eq_some_iff.mp h
  have hsame := sameReads_firstWrite hfirst
  by_cases hret : ret₁ = .enone
  · simp only [hret, ne_eq, not_true_eq_false, if_false] at h
    obtain ⟨⟨c₂, r⟩, hprobe, h⟩ := Option.bind_eq_some_iff.mp h
    have hend : c₂.SameReads c' ∧ r.read = read := by
      split at h
      · simp only [Option.some.injEq, Prod.mk.injEq] at h
        obtain ⟨rfl, -, rfl⟩ := h
        exact ⟨.refl c₂, rfl⟩
      · obtain ⟨⟨c₃, ret₃⟩, hcheck, h⟩ := Option.map_eq_some_iff.mp h
        simp only [Prod.mk.injEq] at h
        obtain ⟨rfl, -, rfl⟩ := h
        exact ⟨sameReads_checkAck hcheck, rfl⟩
    unfold probe at hprobe
    split at hprobe
    · exact .inr ⟨c₁, c₂, r, hsame, hprobe, hend.2, hend.1⟩
    · obtain ⟨rfl, rfl⟩ := Prod.mk.inj (Option.some.inj hprobe)
      exact .inl ⟨hend.2.symm, hsame.trans hend.1⟩
  · simp only [ne_eq, hret, not_false_eq_true, if_true, Option.some.injEq, Prod.mk.injEq] at h
    obtain ⟨rfl, -, rfl⟩ := h
    exact .inl ⟨rfl, hsame⟩

end RudpPriv

end Q2pc
