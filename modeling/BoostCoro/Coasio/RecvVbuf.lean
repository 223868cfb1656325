import BoostCoro.Buffer.Cursors
import BoostCoro.Coasio.CoSocket
/-!
# Receiving into a buffer

`recv_vbuf` of `coasio/cosocket.h` reserves space, lets `recvv` store into it and commits what
`recvv` returns. It keeps the result as a `size_t` and tests that for being positive, so a
negative result is committed too, as a number of bytes near 2^64.
-/

namespace BoostCoro.Coasio

open Buffer Linked

/-- What `recvv` returns, an `ssize_t`, and the bytes that it stored. -/
structure Received where
  ret : BitVec 64
  bytes : List UInt8
  bytes_length : bytes.length = ret.toInt.toNat

end BoostCoro.Coasio

namespace BoostCoro.Buffer.VarBuf

open Coasio Linked

variable {pageSize : Nat}

/-- `recv_vbuf(vbuf, len)`, where `recvv` returns as `os` says: the value returned. -/
def recvVbuf (b : VarBuf pageSize) (len : Nat) (os : Received) :
    Except Fault (VarBuf pageSize × BitVec 64) := do
  let b ← b.reserve len
  let vec ← b.wrIovec
  let b ← b.readv vec os.bytes
  -- `size_t retcode = recvv(&vec[0], vec.size(), timeout);`
  let retcode := os.ret.toNat
  if retcode > 0 then
    let (b, _) ← b.wrPosition retcode
    return (b, BitVec.ofNat 64 retcode)
  else return (b, BitVec.ofNat 64 retcode)

/-- The buffers that receives lead to are reached like the others. -/
theorem Reached.recvVbuf {raw : Addr → Nat → UInt8} {b b' : VarBuf pageSize} {len : Nat}
    {os : Received} {ret : BitVec 64} (h : Reached raw b)
    (hrun : b.recvVbuf len os = .ok (b', ret)) : Reached raw b' := by
  obtain ⟨b₁, hreserve, hrun⟩ := Fallible.bind_eq_ok.1 hrun
  obtain ⟨vec, hvec, hrun⟩ := Fallible.bind_eq_ok.1 hrun
  obtain ⟨b₂, hread, hrun⟩ := Fallible.bind_eq_ok.1 hrun
  have hexec : b.exec (.reserve len) = .ok (b₁, .done) := by
    rw [VarBuf.exec, hreserve]
    rfl
  have h₁ : Reached raw b₁ := h.call hexec
  have h₂ : Reached raw b₂ := h₁.readv hvec hread
  by_cases hpos : os.ret.toNat > 0
  · rw [if_pos hpos] at hrun
    obtain ⟨⟨b₃, inc⟩, hposition, hrun⟩ := Fallible.bind_eq_ok.1 hrun
    obtain ⟨rfl, -⟩ := Prod.mk.inj (Except.ok.inj hrun)
    exact h₂.wrPosition hposition
  · rw [if_neg hpos] at hrun
    obtain ⟨rfl, -⟩ := Prod.mk.inj (Except.ok.inj hrun)
    exact h₂

/-- The call returns `ret`, and the buffer shows the bytes and the length it showed before. -/
def Keeps (b : VarBuf pageSize) (call : Except Fault (VarBuf pageSize × BitVec 64))
    (ret : BitVec 64) : Prop :=
  ∃ b' s n, call = .ok (b', ret) ∧ b.toString = .ok s ∧ b.length = .ok n ∧
    b'.toString = .ok s ∧ b'.length = .ok n

/-! ## Committing what is in the free space -/

/-- The bytes in the free space of a page. -/
def freeBytes (x : Cell pageSize) : List UInt8 := x.2.data.drop x.2.offsetWr

theorem length_freeBytes {x : Cell pageSize} (hx : x.2.Ordered) :
    (freeBytes x).length = x.2.wrSize := by
  rw [freeBytes, List.length_drop, x.2.data_length, hx.wrSize_eq]

theorem pending_freeBytes {l : List (Cell pageSize)} (hl : ∀ x ∈ l, x.2.Ordered) (n : Nat) :
    Pending l ((l.flatMap freeBytes).take n) := by
  induction l generalizing n with
  | nil => trivial
  | cons x l ih =>
      have hlen := length_freeBytes (hl x (by simp))
      constructor
      · rw [List.flatMap_cons, List.take_take, List.length_take, List.length_append, hlen,
          List.take_append_of_le_length (by omega)]
        congr 1
        omega
      · rw [List.flatMap_cons, List.drop_take, List.drop_left' hlen]
        exact ih (fun y hy => hl y (List.mem_cons_of_mem x hy)) _

theorem length_flatMap_freeBytes {l : List (Cell pageSize)} (hl : ∀ x ∈ l, x.2.Ordered) :
    (l.flatMap freeBytes).length = room l := by
  induction l with
  | nil => rfl
  | cons x l ih =>
      rw [List.flatMap_cons, List.length_append, length_freeBytes (hl x (by simp)),
        ih fun y hy => hl y (List.mem_cons_of_mem x hy), room_cons]

theorem room_dropLast_le (l : List (Cell pageSize)) : room l.dropLast ≤ room l := by
  rcases List.eq_nil_or_concat' l with rfl | ⟨l, x, rfl⟩
  · exact Nat.le_refl _
  · rw [List.dropLast_concat, room_append]
    exact Nat.le_add_right _ _

/-- A commit of `n` bytes makes the buffer longer by `n`, or takes the write cursor off the
chain. -/
theorem Shape.wrPosition_length {b : VarBuf pageSize} {pre mid post : List (Cell pageSize)}
    {w : Cell pageSize} (h : b.Shape False pre mid w post) {n : Nat} (hn : n ≠ 0) :
    ∃ b' ret, b.wrPosition n = .ok (b', ret) ∧
      (b'.length = .ok ((contents (mid ++ [w])).length + n) ∨ b'.length = .error .badPointer) := by
  have hfuel := h.post_lt_walkFuel
  by_cases hfit : n ≤ room (w :: post).dropLast
  · have hordered : ∀ x ∈ w :: post, x.2.Ordered := by
      intro x hx
      rcases List.mem_cons.1 hx with rfl | hx
      · exact h.wr_ordered
      · exact (h.post_untouched x hx).ordered
    have hlen : (((w :: post).flatMap freeBytes).take n).length = n := by
      rw [List.length_take, length_flatMap_freeBytes hordered]
      exact Nat.min_eq_left (Nat.le_trans hfit (room_dropLast_le _))
    have hne : ((w :: post).flatMap freeBytes).take n ≠ [] := by
      intro hnil
      rw [hnil] at hlen
      exact hn hlen.symm
    obtain ⟨b', mid', w', post', hloop, h', hcontents⟩ :=
      h.wrPositionLoop (pending_freeBytes hordered n) hne (hlen.symm ▸ hfit)
        (Nat.lt_of_succ_lt hfuel)
    rw [hlen] at hloop
    refine ⟨b', n - 0, by rw [VarBuf.wrPosition, hloop]; rfl, Or.inl ?_⟩
    rw [h'.represents.length, hcontents, List.length_append, hlen]
  · obtain ⟨b', l, hloop, hwr, hrd, hl, hwalk⟩ :=
      h.wrPositionLoop_off (Nat.lt_of_not_le hfit) hfuel
    exact ⟨b', _, by rw [VarBuf.wrPosition, hloop]; rfl,
      Or.inr (length_off (by simp [hwr]) hrd hl hwalk)⟩

/-! ## What a receive keeps -/

/-- Up to the commit the buffer shows what it showed. -/
theorem recvVbuf_stored {b : VarBuf pageSize} {s : List UInt8}
    (hreserve : ∀ sz, ∃ b₁ pre mid w post, b.reserve sz = .ok b₁ ∧
      b₁.Shape False pre mid w post ∧ s = contents (mid ++ [w])) (len : Nat) (os : Received) :
    ∃ b₂ pre mid w post, b.recvVbuf len os =
        (if os.ret.toNat > 0 then do
          let (b, _) ← b₂.wrPosition os.ret.toNat
          return (b, BitVec.ofNat 64 os.ret.toNat)
        else return (b₂, BitVec.ofNat 64 os.ret.toNat)) ∧
      b₂.Shape False pre mid w post ∧ s = contents (mid ++ [w]) := by
  obtain ⟨b₁, pre, mid, w, post, hrun, h₁, rfl⟩ := hreserve len
  obtain ⟨b₂, w₂, post₂, hreadv, h₂, hbytes, -⟩ := h₁.readv os.bytes
  refine ⟨b₂, pre, mid, w₂, post₂, ?_, h₂, by simp [hbytes]⟩
  simp only [recvVbuf, hrun, Fallible.ok_bind, h₁.wrIovec, hreadv]

/-- `recv_vbuf` returns what `recvv` returned and keeps the content exactly if that is 0 and
`length()` was defined. -/
theorem recvVbuf_keeps_iff (hsize : 0 < pageSize) {raw : Addr → Nat → UInt8}
    {b : VarBuf pageSize} (h : Reached raw b) (len : Nat) (os : Received) :
    b.Keeps (b.recvVbuf len os) os.ret ↔ os.ret = 0 ∧ ∃ n, b.length = .ok n := by
  obtain ⟨c, hc⟩ := h.connected hsize
  constructor
  · rintro ⟨b', s, n, hcall, -, hlength, -, hlength'⟩
    obtain ⟨s₀, -, rfl, hreserve⟩ := hc.reserve_shows hsize hlength
    obtain ⟨b₂, pre, mid, w, post, hrun, h₂, rfl⟩ := recvVbuf_stored hreserve len os
    refine ⟨?_, _, hlength⟩
    by_contra hne
    have hpos : os.ret.toNat ≠ 0 := fun hzero => hne (BitVec.eq_of_toNat_eq hzero)
    obtain ⟨b₃, ret, hposition, hlength₃⟩ := h₂.wrPosition_length hpos
    rw [hrun, if_pos (Nat.pos_of_ne_zero hpos), hposition] at hcall
    obtain ⟨rfl, -⟩ := Prod.mk.inj (Except.ok.inj hcall)
    rw [hlength'] at hlength₃
    rcases hlength₃ with hlength₃ | hlength₃
    · have hlonger := Except.ok.inj hlength₃
      omega
    · cases hlength₃
  · rintro ⟨hzero, n, hlength⟩
    obtain ⟨s, hstring, rfl, hreserve⟩ := hc.reserve_shows hsize hlength
    obtain ⟨b₂, pre, mid, w, post, hrun, h₂, rfl⟩ := recvVbuf_stored hreserve len os
    have hnot : ¬ os.ret.toNat > 0 := by simp [hzero]
    rw [hrun, if_neg hnot, BitVec.ofNat_toNat, BitVec.setWidth_eq]
    exact ⟨b₂, _, _, rfl, hstring, hlength, h₂.represents.toString, h₂.represents.length⟩

/-- Four-byte pages with two bytes in them: the peer has closed the connection. -/
theorem recvVbuf_keeps_two : ∃ b : VarBuf 4,
    (new fun _ _ => 7).exec (.write [1, 2]) = .ok (b, .wrote 2) ∧
      b.Keeps (b.recvVbuf 4 ⟨0, [], rfl⟩) 0 := by
  have hexec : (new fun _ _ => 7 : VarBuf 4).exec (.write [1, 2]) = .ok (_, .wrote 2) := rfl
  refine ⟨_, hexec, ?_⟩
  exact (recvVbuf_keeps_iff (by decide : 0 < 4) (.call .new hexec) 4 ⟨0, [], rfl⟩).mpr
    ⟨rfl, 2, rfl⟩

/-- The connection was reset: -1 is committed as 2^64 - 1 bytes, and `length` follows a null
pointer. -/
theorem recvVbuf_loses_two : ∃ b b' : VarBuf 4,
    (new fun _ _ => 7).exec (.write [1, 2]) = .ok (b, .wrote 2) ∧
      recvv [2, 4] 0 .ready [.failed (.other 104)] = .returned (-1) (.failed (.other 104)) ∧
        b.length = .ok 2 ∧ b.recvVbuf 4 ⟨-1, [], rfl⟩ = .ok (b', -1) ∧
          b'.length = .error .badPointer ∧ ¬ b.Keeps (b.recvVbuf 4 ⟨-1, [], rfl⟩) (-1) := by
  refine ⟨_, _, rfl, rfl, rfl, rfl, rfl, ?_⟩
  rintro ⟨b', s, n, hcall, -, -, -, hlength⟩
  cases hcall
  cases hlength

end BoostCoro.Buffer.VarBuf
