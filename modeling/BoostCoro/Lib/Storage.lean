import Mathlib.Algebra.Ring.Nat
import Mathlib.Data.List.Infix
/-!
# Values that share storage

The little-endian bytes of a number, and storing values of different sizes at
one place, as the members of a union do. The bytes of a value that was stored
are still there exactly if each value stored later agrees with it on the bytes
they share. Bytes are compared as lists, so agreement is that one of the two is
a prefix of the other.
-/

namespace Storage

/-! ## Little-endian bytes -/

/-- The `width` low bytes of `n`, the lowest first. -/
def leBytes : Nat → Nat → List UInt8
  | 0, _ => []
  | width + 1, n => UInt8.ofNat (n % 256) :: leBytes width (n / 256)

/-- The number with the given bytes, the lowest first. -/
def leNat : List UInt8 → Nat
  | [] => 0
  | b :: l => b.toNat + 256 * leNat l

@[simp] theorem length_leBytes (width n : Nat) : (leBytes width n).length = width := by
  induction width generalizing n with
  | zero => rfl
  | succ width ih => rw [leBytes, List.length_cons, ih]

theorem leNat_leBytes {width n : Nat} (h : n < 256 ^ width) : leNat (leBytes width n) = n := by
  induction width generalizing n with
  | zero =>
      rw [Nat.pow_zero] at h
      rw [leBytes, leNat]
      omega
  | succ width ih =>
      have hdiv : n / 256 < 256 ^ width := by
        rw [Nat.pow_succ] at h
        exact Nat.div_lt_of_lt_mul (Nat.mul_comm _ _ ▸ h)
      have hmod : (UInt8.ofNat (n % 256)).toNat = n % 256 :=
        UInt8.toNat_ofNat_of_lt' (Nat.mod_lt n (by decide))
      rw [leBytes, leNat, ih hdiv, hmod]
      omega

theorem leBytes_leNat (l : List UInt8) : leBytes l.length (leNat l) = l := by
  induction l with
  | nil => rfl
  | cons b l ih =>
      have hb : b.toNat < 256 := b.toNat_lt
      have hmod : (b.toNat + 256 * leNat l) % 256 = b.toNat := by omega
      have hdiv : (b.toNat + 256 * leNat l) / 256 = leNat l := by omega
      rw [List.length_cons, leNat, leBytes, hmod, hdiv, ih, UInt8.ofNat_toNat]

theorem leNat_lt (l : List UInt8) : leNat l < 256 ^ l.length := by
  induction l with
  | nil => exact Nat.one_pos
  | cons b l ih =>
      have hb : b.toNat < 256 := b.toNat_lt
      rw [leNat, List.length_cons, Nat.pow_succ]
      omega

/-- Reading back a number is finding its bytes. -/
theorem leNat_take_eq_iff {mem : List UInt8} {width n : Nat} (hwidth : width ≤ mem.length)
    (hn : n < 256 ^ width) : leNat (mem.take width) = n ↔ leBytes width n <+: mem := by
  have hlen : (mem.take width).length = width := List.length_take_of_le hwidth
  constructor
  · intro hread
    have hbytes := leBytes_leNat (mem.take width)
    rw [hlen, hread] at hbytes
    rw [hbytes]
    exact List.take_prefix width mem
  · intro hprefix
    have htake := List.prefix_iff_eq_take.1 hprefix
    rw [length_leBytes] at htake
    rw [← htake, leNat_leBytes hn]

/-! ## Overlapping stores -/

variable {α : Type*}

/-- The bytes `v` are stored at the beginning of `mem`. -/
def store (mem v : List α) : List α := v ++ mem.drop v.length

theorem length_store {mem v : List α} (h : v.length ≤ mem.length) :
    (store mem v).length = mem.length := by
  rw [store, List.length_append, List.length_drop]
  omega

/-- The bytes that two values share are the same. -/
def Agree (v w : List α) : Prop := v <+: w ∨ w <+: v

/-- A value survives the store of a value that agrees with it. -/
theorem Agree.prefix_store {mem v w : List α} (h : Agree v w) (hv : v <+: mem) :
    v <+: store mem w := by
  rcases h with hvw | ⟨v', rfl⟩
  · exact hvw.trans (List.prefix_append w _)
  · obtain ⟨rest, rfl⟩ := hv
    refine ⟨rest, ?_⟩
    rw [store, List.append_assoc, List.drop_left]

/-- After a series of stores each value can be read back exactly if any two of
them agree. -/
theorem prefix_stores_iff (mem : List α) (vs : List (List α)) :
    (∀ v ∈ vs, v <+: vs.foldl store mem) ↔ vs.Pairwise Agree := by
  constructor
  · intro h
    rw [List.pairwise_iff_forall_sublist]
    intro v w hsub
    have hv := h v (hsub.subset (by simp))
    have hw := h w (hsub.subset (by simp))
    exact List.prefix_or_prefix_of_prefix hv hw
  · induction vs using List.reverseRecOn with
    | nil => simp
    | append_singleton vs w ih =>
        intro h
        rw [List.pairwise_append] at h
        intro v hv
        rw [List.foldl_append, List.foldl_cons, List.foldl_nil]
        rcases List.mem_append.1 hv with hv | hv
        · exact (h.2.2 v hv w (by simp)).prefix_store (ih h.1 v hv)
        · rw [List.mem_singleton.1 hv]
          exact List.prefix_append w _

end Storage
