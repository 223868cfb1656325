import BoostCoro.Buffer.Fifo
import BoostCoro.Lib.Storage
/-!
# Messages

`message_t` of `coroutine/message.h`: a flag, a union of an `int`, a `long` and a `char`, and
a paged buffer. A message may be given a value of each scalar kind, and the flag then has the
bit of each, but the values share their storage. The union is its eight bytes, the lowest
first; before the first store it holds whatever was there.
-/

namespace BoostCoro.Coroutine

open Buffer (VarBuf Op)
open Storage

def msgInt : BitVec 8 := 0x01
def msgLong : BitVec 8 := 0x02
def msgChar : BitVec 8 := 0x04
def msgVbuf : BitVec 8 := 0x08

/-- The members of `message_t::u`. -/
inductive Kind where
  | int
  | long
  | char
  deriving DecidableEq, Repr

/-- The bit of `flag` for a member. -/
def Kind.bit : Kind → BitVec 8
  | .int => msgInt
  | .long => msgLong
  | .char => msgChar

/-- A value for one of the members. -/
inductive Scalar where
  | int (v : BitVec 32)
  | long (v : BitVec 64)
  | char (v : BitVec 8)
  deriving DecidableEq, Repr

namespace Scalar

def kind : Scalar → Kind
  | int _ => .int
  | long _ => .long
  | char _ => .char

/-- The bytes that the value takes in memory. -/
def bytes : Scalar → List UInt8
  | int v => leBytes 4 v.toNat
  | long v => leBytes 8 v.toNat
  | char v => leBytes 1 v.toNat

theorem length_bytes_le (v : Scalar) : v.bytes.length ≤ 8 := by
  cases v <;> simp [bytes]

end Scalar

/-- `union u`. -/
structure MessageU where
  data : List UInt8
  length_data : data.length = 8

namespace MessageU

/-- Assigning to a member. -/
def set (u : MessageU) (v : Scalar) : MessageU where
  data := store u.data v.bytes
  length_data := by
    rw [length_store (by rw [u.length_data]; exact v.length_bytes_le), u.length_data]

/-- Reading a member. -/
def get (u : MessageU) : Kind → Scalar
  | .int => .int (BitVec.ofNat 32 (leNat (u.data.take 4)))
  | .long => .long (BitVec.ofNat 64 (leNat (u.data.take 8)))
  | .char => .char (BitVec.ofNat 8 (leNat (u.data.take 1)))

theorem ofNat_leNat_eq_iff (u : MessageU) (width : Nat) (hwidth : width ≤ 8)
    (v : BitVec (8 * width)) :
    BitVec.ofNat (8 * width) (leNat (u.data.take width)) = v ↔
      leBytes width v.toNat <+: u.data := by
  have hle : width ≤ u.data.length := by rw [u.length_data]; exact hwidth
  have hpow : 256 ^ width = 2 ^ (8 * width) := by rw [Nat.pow_mul]
  have hread := leNat_lt (u.data.take width)
  rw [List.length_take_of_le hle, hpow] at hread
  rw [← leNat_take_eq_iff hle (by rw [hpow]; exact v.isLt), ← BitVec.toNat_inj,
    BitVec.toNat_ofNat, Nat.mod_eq_of_lt hread]

/-- A member reads back a value exactly if the storage begins with its bytes. -/
theorem get_eq_iff (u : MessageU) (v : Scalar) : u.get v.kind = v ↔ v.bytes <+: u.data := by
  cases v with
  | int v => exact Scalar.int.injEq _ _ ▸ u.ofNat_leNat_eq_iff 4 (by decide) v
  | long v => exact Scalar.long.injEq _ _ ▸ u.ofNat_leNat_eq_iff 8 (by decide) v
  | char v => exact Scalar.char.injEq _ _ ▸ u.ofNat_leNat_eq_iff 1 (by decide) v

end MessageU

/-- `message_t`; nothing here uses `from`. -/
structure Message (pageSize : Nat) where
  flag : BitVec 8
  value : MessageU
  vbuf : VarBuf pageSize

/-- The constructors with their arguments. For `const char*` these are the bytes from the
pointer on. -/
inductive Construct where
  | default
  | int (v : BitVec 32)
  | long (v : BitVec 64)
  | char (v : BitVec 8)
  | cstr (s : List UInt8)
  | string (str : List UInt8)
  deriving DecidableEq, Repr

/-- The overloads of `append` with their arguments. -/
inductive Append where
  | int (v : BitVec 32)
  | long (v : BitVec 64)
  | char (v : BitVec 8)
  | bytes (s : List UInt8)
  | string (s : List UInt8)
  deriving DecidableEq, Repr

/-- The bytes before the terminator, `strlen(s)` many. -/
def cString (s : List UInt8) : List UInt8 := s.takeWhile (· ≠ 0)

namespace Message

variable {pageSize : Nat}

/-- The constructors for a scalar. -/
def ofScalar (u : MessageU) (raw : Buffer.Addr → Nat → UInt8) (v : Scalar) : Message pageSize where
  flag := v.kind.bit
  value := u.set v
  vbuf := .new raw

/-- The constructors for a byte string. -/
def ofBytes (u : MessageU) (raw : Buffer.Addr → Nat → UInt8) (s : List UInt8) :
    Except Buffer.Fault (Message pageSize) := do
  let (vbuf, _) ← (VarBuf.new raw).assign s
  return { flag := msgVbuf, value := u, vbuf := vbuf }

/-- Construct a message where the union holds `u` and the blocks of pages hold `raw`. -/
def construct (u : MessageU) (raw : Buffer.Addr → Nat → UInt8) :
    Construct → Except Buffer.Fault (Message pageSize)
  | .default => .ok { flag := 0, value := u, vbuf := .new raw }
  | .int v => .ok (ofScalar u raw (.int v))
  | .long v => .ok (ofScalar u raw (.long v))
  | .char v => .ok (ofScalar u raw (.char v))
  | .cstr s => ofBytes u raw (cString s)
  | .string str => ofBytes u raw str

/-- The overloads of `append` for a scalar: `assert(!(flag & bit))`, then both are set. -/
def appendScalar (m : Message pageSize) (v : Scalar) : Except Buffer.Fault (Message pageSize) :=
  if m.flag &&& v.kind.bit ≠ 0 then .error .assertFailed
  else .ok { m with flag := m.flag ||| v.kind.bit, value := m.value.set v }

/-- The overloads of `append` for a byte string. -/
def appendBytes (m : Message pageSize) (s : List UInt8) :
    Except Buffer.Fault (Message pageSize) := do
  let (vbuf, _) ← m.vbuf.append s
  return { m with flag := m.flag ||| msgVbuf, vbuf := vbuf }

def append (m : Message pageSize) : Append → Except Buffer.Fault (Message pageSize)
  | .int v => m.appendScalar (.int v)
  | .long v => m.appendScalar (.long v)
  | .char v => m.appendScalar (.char v)
  | .bytes s => m.appendBytes s
  | .string s => m.appendBytes s

/-- A sequence of `append` calls. -/
def appendAll (m : Message pageSize) : List Append → Except Buffer.Fault (Message pageSize)
  | [] => .ok m
  | a :: as => do
    let m ← m.append a
    m.appendAll as

/-- A constructor call and a sequence of `append` calls. -/
def build (u : MessageU) (raw : Buffer.Addr → Nat → UInt8) (c : Construct) (as : List Append) :
    Except Buffer.Fault (Message pageSize) := do
  let m ← construct u raw c
  m.appendAll as

end Message

/-! ## What a message is given -/

def Construct.scalars : Construct → List Scalar
  | .default => []
  | .int v => [.int v]
  | .long v => [.long v]
  | .char v => [.char v]
  | .cstr _ => []
  | .string _ => []

def Construct.payload : Construct → List UInt8
  | .default => []
  | .int _ => []
  | .long _ => []
  | .char _ => []
  | .cstr s => cString s
  | .string str => str

def Append.scalars : Append → List Scalar
  | .int v => [.int v]
  | .long v => [.long v]
  | .char v => [.char v]
  | .bytes _ => []
  | .string _ => []

def Append.payload : Append → List UInt8
  | .int _ => []
  | .long _ => []
  | .char _ => []
  | .bytes s => s
  | .string s => s

/-- The scalar values in the order in which they are given. -/
def scalarsGiven (c : Construct) (as : List Append) : List Scalar :=
  c.scalars ++ as.flatMap Append.scalars

/-- The byte strings in the order in which they are given. -/
def payloadGiven (c : Construct) (as : List Append) : List UInt8 :=
  c.payload ++ as.flatMap Append.payload

namespace Message

variable {pageSize : Nat}

/-- Each scalar kind whose bit is set reads back the value given for it, and `vbuf` holds the
byte strings. -/
def Keeps (m : Message pageSize) (vs : List Scalar) (s : List UInt8) : Prop :=
  (∀ k : Kind, m.flag &&& k.bit ≠ 0 → ∃ v ∈ vs, v.kind = k ∧ m.value.get k = v) ∧
    m.vbuf.toString = .ok s

/-! ## How a message comes about -/

/-- The flag has the bits of the kinds given, the union is the result of storing the values
one after the other, and `vbuf` holds the byte strings. -/
structure Composed (u : MessageU) (vs : List Scalar) (s : List UInt8) (m : Message pageSize) :
    Prop where
  flag : ∀ k : Kind, m.flag &&& k.bit ≠ 0 ↔ ∃ v ∈ vs, v.kind = k
  once : (vs.map Scalar.kind).Nodup
  value : m.value.data = (vs.map Scalar.bytes).foldl store u.data
  vbuf : m.vbuf.Represents True s

theorem bit_and_bit (k k' : Kind) : k.bit &&& k'.bit ≠ 0 ↔ k = k' := by
  cases k <;> cases k' <;> decide

theorem msgVbuf_and_bit (k : Kind) : msgVbuf &&& k.bit = 0 := by
  cases k <;> rfl

theorem or_and_bit (flag b : BitVec 8) (k : Kind) :
    (flag ||| b) &&& k.bit ≠ 0 ↔ flag &&& k.bit ≠ 0 ∨ b &&& k.bit ≠ 0 := by
  rw [BitVec.and_comm, BitVec.and_or_distrib_left, BitVec.and_comm flag, BitVec.and_comm b]
  exact (not_congr BitVec.or_eq_zero_iff).trans not_and_or

section

variable {u : MessageU} {raw : Buffer.Addr → Nat → UInt8} {vs : List Scalar} {s : List UInt8}
  {m m' : Message pageSize}

theorem Composed.appendScalar (h : Composed u vs s m) {v : Scalar}
    (hrun : m.appendScalar v = .ok m') : Composed u (vs ++ [v]) s m' := by
  by_cases hbit : m.flag &&& v.kind.bit ≠ 0
  · rw [Message.appendScalar, if_pos hbit] at hrun
    cases hrun
  · rw [Message.appendScalar, if_neg hbit] at hrun
    cases hrun
    have hnew : v.kind ∉ vs.map Scalar.kind := by
      rw [h.flag] at hbit
      simpa using hbit
    exact
      { flag := fun k => by
          rw [or_and_bit, h.flag, bit_and_bit]
          simp only [List.mem_append, List.mem_singleton, or_and_right, exists_or,
            exists_eq_left]
        once := by
          rw [List.map_append, List.map_singleton, List.nodup_append]
          exact ⟨h.once, List.nodup_singleton _, fun a ha b hb => by
            rw [List.mem_singleton.1 hb]
            rintro rfl
            exact hnew ha⟩
        value := by
          rw [List.map_append, List.foldl_append, ← h.value]
          rfl
        vbuf := h.vbuf }

theorem Composed.appendBytes (hsize : 0 < pageSize) (h : Composed u vs s m) {src : List UInt8}
    (hrun : m.appendBytes src = .ok m') : Composed u vs (s ++ src) m' := by
  obtain ⟨b, hwrite, hrep⟩ := h.vbuf.write hsize src
  rw [Message.appendBytes, VarBuf.append, hwrite] at hrun
  cases hrun
  exact
    { flag := fun k => by
        rw [or_and_bit, msgVbuf_and_bit, h.flag]
        simp
      once := h.once
      value := h.value
      vbuf := hrep }

theorem Composed.append (hsize : 0 < pageSize) (h : Composed u vs s m) {a : Append}
    (hrun : m.append a = .ok m') : Composed u (vs ++ a.scalars) (s ++ a.payload) m' := by
  cases a with
  | int v => simpa [Append.scalars, Append.payload] using h.appendScalar hrun
  | long v => simpa [Append.scalars, Append.payload] using h.appendScalar hrun
  | char v => simpa [Append.scalars, Append.payload] using h.appendScalar hrun
  | bytes src => simpa [Append.scalars, Append.payload] using h.appendBytes hsize hrun
  | string src => simpa [Append.scalars, Append.payload] using h.appendBytes hsize hrun

theorem Composed.appendAll (hsize : 0 < pageSize) (h : Composed u vs s m) {as : List Append}
    (hrun : m.appendAll as = .ok m') :
    Composed u (vs ++ as.flatMap Append.scalars) (s ++ as.flatMap Append.payload) m' := by
  induction as generalizing m vs s with
  | nil =>
      cases hrun
      simpa using h
  | cons a as ih =>
      obtain ⟨m₁, hfirst, hrest⟩ := Fallible.bind_eq_ok.1 hrun
      have hall := ih (h.append hsize hfirst) hrest
      simpa [List.append_assoc] using hall

theorem composed_ofScalar (u : MessageU) (raw : Buffer.Addr → Nat → UInt8) (v : Scalar) :
    Composed u [v] [] (ofScalar u raw v : Message pageSize) where
  flag := fun k => by
    rw [show (ofScalar u raw v : Message pageSize).flag = v.kind.bit from rfl, bit_and_bit]
    simp
  once := by simp
  value := rfl
  vbuf := VarBuf.represents_new raw

theorem composed_ofBytes (hsize : 0 < pageSize) {src : List UInt8}
    (hrun : ofBytes u raw src = .ok m) : Composed u [] src m := by
  obtain ⟨b, hassign, hrep⟩ :=
    (VarBuf.represents_new raw : (VarBuf.new raw : VarBuf pageSize).Represents True []).assign
      hsize src
  rw [ofBytes, hassign] at hrun
  cases hrun
  exact
    { flag := fun k => by
        rw [msgVbuf_and_bit]
        simp
      once := by simp
      value := rfl
      vbuf := hrep }

theorem composed_construct (hsize : 0 < pageSize) {c : Construct}
    (hrun : construct u raw c = .ok m) : Composed u c.scalars c.payload m := by
  cases c with
  | default =>
      cases hrun
      exact
        { flag := fun k => by simp [Construct.scalars]
          once := by simp [Construct.scalars]
          value := rfl
          vbuf := VarBuf.represents_new raw }
  | int v =>
      cases hrun
      exact composed_ofScalar u raw (.int v)
  | long v =>
      cases hrun
      exact composed_ofScalar u raw (.long v)
  | char v =>
      cases hrun
      exact composed_ofScalar u raw (.char v)
  | cstr src => exact composed_ofBytes hsize hrun
  | string str => exact composed_ofBytes hsize hrun

theorem composed_build (hsize : 0 < pageSize) {c : Construct} {as : List Append}
    (hrun : build u raw c as = .ok m) :
    Composed u (scalarsGiven c as) (payloadGiven c as) m := by
  obtain ⟨m₁, hfirst, hrest⟩ := Fallible.bind_eq_ok.1 hrun
  exact (composed_construct hsize hfirst).appendAll hsize hrest

/-! ## When every part is kept -/

theorem Composed.keeps_iff (h : Composed u vs s m) :
    m.Keeps vs s ↔ (vs.map Scalar.bytes).Pairwise Agree := by
  rw [← prefix_stores_iff u.data, ← h.value, List.forall_mem_map]
  constructor
  · rintro ⟨hkeep, -⟩ v hv
    obtain ⟨v', hv', hkind, hget⟩ := hkeep v.kind ((h.flag v.kind).2 ⟨v, hv, rfl⟩)
    -- no other value is of the kind of `v`
    obtain rfl : v' = v := List.inj_on_of_nodup_map h.once hv' hv hkind
    exact (m.value.get_eq_iff v').1 hget
  · intro hall
    refine ⟨fun k hk => ?_, h.vbuf.toString⟩
    obtain ⟨v, hv, rfl⟩ := (h.flag k).1 hk
    exact ⟨v, hv, rfl, (m.value.get_eq_iff v).2 (hall v hv)⟩

/-- A message that passed the assertions keeps what it was given exactly if any two of its
scalar values have the same low bytes, as many as the smaller one has. -/
theorem message_keeps_iff (hsize : 0 < pageSize) {c : Construct} {as : List Append}
    (hrun : build u raw c as = .ok m) :
    m.Keeps (scalarsGiven c as) (payloadGiven c as) ↔
      ((scalarsGiven c as).map Scalar.bytes).Pairwise Agree :=
  (composed_build hsize hrun).keeps_iff

end

/-- A `long` and an `int` of the same small value, and a text. -/
theorem message_keeps_long_int : ∃ m : Message 4,
    build ⟨List.replicate 8 7, rfl⟩ (fun _ _ => 7) (.long 5) [.bytes [104, 105], .int 5] = .ok m ∧
      m.Keeps [.long 5, .int 5] [104, 105] := by
  have hrun : build ⟨List.replicate 8 7, rfl⟩ (fun _ _ => 7) (.long 5)
      [.bytes [104, 105], .int 5] = .ok (_ : Message 4) := rfl
  refine ⟨_, hrun, (message_keeps_iff (by decide) hrun).mpr ?_⟩
  exact List.pairwise_pair.2 (Or.inr ⟨[0, 0, 0, 0], rfl⟩)

/-- An `int` and then a `char`: the low byte of the `int` is overwritten. -/
theorem message_loses_int : ∃ m : Message 4,
    build ⟨List.replicate 8 7, rfl⟩ (fun _ _ => 7) (.int 1) [.char 65] = .ok m ∧
      m.flag &&& msgInt ≠ 0 ∧ m.value.get .int = .int 65 ∧ ¬ m.Keeps [.int 1, .char 65] [] := by
  refine ⟨_, rfl, by decide, by decide, ?_⟩
  rintro ⟨hkeep, -⟩
  obtain ⟨v, hv, hkind, hget⟩ := hkeep .int (by decide)
  have hread : v = .int 65 := hget.symm.trans (by decide)
  rw [hread] at hv
  exact absurd hv (by decide)

end Message

end BoostCoro.Coroutine
