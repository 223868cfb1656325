import BoostCoro.Coasio.Addr
import Mathlib.Data.List.TakeDrop
/-!
# Local addresses

What `coasio/addr.h` makes of the path of a local socket. The text keeps the whole path; the
union keeps the first 107 bytes of it, one less than `sun_path` has, and it is the union that
`to_unix_addr`, `operator==` and `operator<` read.
-/

namespace BoostCoro.Coasio

/-! ## Comparing bytes -/

theorem memcmp_swap (s t : List UInt8) : memcmp t s = -memcmp s t := by
  induction s generalizing t with
  | nil => cases t <;> rfl
  | cons a s ih =>
      cases t with
      | nil => rfl
      | cons b t =>
          rw [memcmp, memcmp]
          by_cases hab : a = b
          · rw [if_pos hab, if_pos hab.symm, ih]
          · rw [if_neg hab, if_neg (Ne.symm hab)]
            omega

theorem memcmp_eq_zero {s t : List UInt8} (hlength : s.length = t.length) :
    memcmp s t = 0 ↔ s = t := by
  induction s generalizing t with
  | nil =>
      cases t with
      | nil => exact iff_of_true rfl rfl
      | cons b t => cases hlength
  | cons a s ih =>
      cases t with
      | nil => cases hlength
      | cons b t =>
          have hrest := ih (Nat.succ.inj hlength)
          rw [memcmp, List.cons.injEq]
          by_cases hab : a = b
          · rw [if_pos hab, hrest, and_iff_right hab]
          · have hne : (a.toNat : Int) - b.toNat ≠ 0 := fun hzero =>
              hab (UInt8.toNat_inj.mp (by omega))
            rw [if_neg hab]
            exact iff_of_false hne fun h => hab h.1

namespace Sockaddr

theorem length_bytes (s : Sockaddr) : s.bytes.length = 112 := by
  rw [bytes, List.length_cons, List.length_cons, s.data_length]

/-- The two bytes of a family. -/
theorem family_of_bytes {a b : UInt16} (hlow : a.toUInt8 = b.toUInt8)
    (hhigh : (a >>> 8).toUInt8 = (b >>> 8).toUInt8) : a = b := by
  have hlow := congrArg UInt8.toNat hlow
  have hhigh := congrArg UInt8.toNat hhigh
  have ha := a.toNat_lt
  have hb := b.toNat_lt
  simp only [UInt16.toNat_toUInt8, UInt16.toNat_shiftRight, UInt16.toNat_ofNat,
    Nat.shiftRight_eq_div_pow, Nat.reducePow, Nat.reduceMod] at hlow hhigh
  exact UInt16.toNat_inj.mp (by omega)

theorem bytes_inj {s t : Sockaddr} : s.bytes = t.bytes ↔ s = t := by
  constructor
  · intro h
    obtain ⟨family, data, _⟩ := s
    obtain ⟨family', data', _⟩ := t
    simp only [bytes, List.cons.injEq] at h
    obtain rfl := family_of_bytes h.1 h.2.1
    obtain rfl := h.2.2
    rfl
  · exact congrArg bytes

end Sockaddr

namespace SockAddr

variable {s t : SockAddr}

/-- `operator==` says what `memcmp` says. -/
theorem beq_iff_memcmp :
    s.beq t = true ↔ memcmp s.sockaddr.bytes t.sockaddr.bytes = 0 := by
  have hlength := (Sockaddr.length_bytes s.sockaddr).trans (Sockaddr.length_bytes t.sockaddr).symm
  rw [beq, decide_eq_true_eq, memcmp_eq_zero hlength, Sockaddr.bytes_inj]

/-- Of two addresses that are not equal one is less, and only one. -/
theorem lt_or_lt (h : s.beq t = false) :
    (s.lt t = true ∧ t.lt s = false) ∨ (s.lt t = false ∧ t.lt s = true) := by
  have hne : memcmp s.sockaddr.bytes t.sockaddr.bytes ≠ 0 := fun hzero => by
    rw [beq_iff_memcmp.mpr hzero] at h
    cases h
  have hswap := memcmp_swap s.sockaddr.bytes t.sockaddr.bytes
  simp only [lt, decide_eq_true_eq, decide_eq_false_iff_not]
  omega

end SockAddr

/-! ## The path in the union -/

/-- A path is what `c_str()` shows of it. -/
theorem takeWhile_of_noNul {s : CStr} (hnul : 0 ∉ s) : s.takeWhile (· ≠ 0) = s :=
  List.takeWhile_eq_self_iff.mpr fun _ hc => decide_eq_true fun hzero => hnul (hzero ▸ hc)

theorem takeWhile_append_nul {s : CStr} (hnul : 0 ∉ s) (rest : List UInt8) :
    (s ++ 0 :: rest).takeWhile (· ≠ 0) = s := by
  have hall : ∀ c ∈ s, decide (c ≠ 0) = true := fun c hc =>
    decide_eq_true fun hzero => hnul (hzero ▸ hc)
  rw [List.takeWhile_append_of_pos hall, List.takeWhile_cons_of_neg (by simp), List.append_nil]

namespace SockAddr

variable {path path' : CStr}

/-- `strncpy` leaves a NUL behind what it copies. -/
theorem data_ofUnix (hnul : 0 ∉ path) :
    ∃ rest, (ofUnix ⟨path⟩).sockaddr.data = path.take 107 ++ 0 :: rest := by
  have hlength : (path.take 107).length ≤ 107 := List.length_take_le _ _
  obtain ⟨k, hk⟩ := Nat.exists_eq_add_of_le hlength
  refine ⟨List.replicate (k + 2) 0, ?_⟩
  simp only [ofUnix, Sockaddr.ofBytes, takeWhile_of_noNul hnul]
  rw [List.take_append, List.take_of_length_le (by omega), List.take_replicate]
  congr 1
  rw [show min (110 - (path.take 107).length) 110 = k + 2 + 1 by omega, List.replicate_succ]

theorem sunPath_ofUnix (hnul : 0 ∉ path) :
    (ofUnix ⟨path⟩).sockaddr.sunPath = path.take 107 := by
  obtain ⟨rest, hdata⟩ := data_ofUnix hnul
  have hcopied : 0 ∉ path.take 107 := fun hin => hnul (List.mem_of_mem_take hin)
  rw [Sockaddr.sunPath, hdata, takeWhile_append_nul hcopied]

/-- What `to_unix_addr` gives back. -/
theorem toUnixAddr_ofUnix (hnul : 0 ∉ path) :
    (ofUnix ⟨path⟩).toUnixAddr = some ⟨path.take 107⟩ := by
  have hfamily : ¬ (ofUnix ⟨path⟩).family ≠ afLocal := fun hne => hne rfl
  rw [toUnixAddr, if_neg hfamily, UnixAddr.ofSockaddrUn, sunPath_ofUnix hnul]

/-- Two local addresses are equal if their first 107 bytes are. -/
theorem beq_ofUnix (hnul : 0 ∉ path) (hnul' : 0 ∉ path') :
    (ofUnix ⟨path⟩).beq (ofUnix ⟨path'⟩) = true ↔ path.take 107 = path'.take 107 := by
  rw [beq, decide_eq_true_eq]
  constructor
  · intro h
    rw [← sunPath_ofUnix hnul, h, sunPath_ofUnix hnul']
  · intro h
    simp only [ofUnix, takeWhile_of_noNul hnul, takeWhile_of_noNul hnul', h]

end SockAddr

/-! ## Texts -/

/-- The ways to write a local path. -/
inductive LocalScheme where
  | local
  | file
  | plain
  deriving DecidableEq

/-- The texts `local://path`, `file://path` and, unless it begins like an address, `path`. -/
structure LocalText where
  scheme : LocalScheme
  path : CStr
  noNul : 0 ∉ path
  plain : scheme = .plain → ∀ p ∈ [addrPrefixInet, addrPrefixLocal, addrPrefixFile],
    p.isPrefixOf path = false

namespace LocalText

def text (t : LocalText) : CStr :=
  match t.scheme with
  | .local => addrPrefixLocal ++ t.path
  | .file => addrPrefixFile ++ t.path
  | .plain => t.path

def parse (t : LocalText) (bindhost : Option CStr) : SockAddr := toSockAddr t.text bindhost

/-- The path of the text becomes that of the address. -/
theorem parse_eq (t : LocalText) (bindhost : Option CStr) :
    t.parse bindhost = .ofUnix ⟨t.path⟩ := by
  have hself : ∀ p : CStr, p.isPrefixOf (p ++ t.path) = true := fun p =>
    List.isPrefixOf_iff_prefix.mpr (List.prefix_append p _)
  unfold parse text toSockAddr
  cases hscheme : t.scheme with
  | «local» =>
      have hinet : addrPrefixInet.isPrefixOf (addrPrefixLocal ++ t.path) = false := rfl
      simp only [hinet, hself, Bool.false_eq_true, if_false, if_true, List.drop_left]
  | file =>
      have hinet : addrPrefixInet.isPrefixOf (addrPrefixFile ++ t.path) = false := rfl
      have hlocal : addrPrefixLocal.isPrefixOf (addrPrefixFile ++ t.path) = false := rfl
      simp only [hinet, hlocal, hself, Bool.false_eq_true, if_false, if_true, List.drop_left]
  | plain =>
      have hplain := t.plain hscheme
      simp only [List.forall_mem_cons] at hplain
      simp only [hplain.1, hplain.2.1, hplain.2.2.1, Bool.false_eq_true, if_false]

end LocalText

/-- The text of a local address is the whole path; `to_unix_addr` and the comparisons see its
first 107 bytes, which are the whole path if it has no more. -/
theorem local_addresses (t u : LocalText) (bindhost bindhost' : Option CStr) :
    (t.parse bindhost).family = afLocal ∧ (t.parse bindhost).str = t.path ∧
    (t.parse bindhost).toUnixAddr = some ⟨t.path.take 107⟩ ∧
    ((t.parse bindhost).toUnixAddr = some ⟨(t.parse bindhost).str⟩ ↔ t.path.length ≤ 107) ∧
    ((t.parse bindhost).beq (u.parse bindhost') = true ↔ t.path.take 107 = u.path.take 107) ∧
    (t.path.length ≤ 107 → u.path.length ≤ 107 →
      ((t.parse bindhost).beq (u.parse bindhost') = true ↔ t.path = u.path)) ∧
    ((t.parse bindhost).beq (u.parse bindhost') = false →
      ((t.parse bindhost).lt (u.parse bindhost') = true ∧
        (u.parse bindhost').lt (t.parse bindhost) = false) ∨
      ((t.parse bindhost).lt (u.parse bindhost') = false ∧
        (u.parse bindhost').lt (t.parse bindhost) = true)) := by
  rw [t.parse_eq, u.parse_eq]
  have hback := SockAddr.toUnixAddr_ofUnix t.noNul
  have hequal := SockAddr.beq_ofUnix t.noNul u.noNul
  refine ⟨rfl, rfl, hback, ?_, hequal, fun ht hu => ?_, SockAddr.lt_or_lt⟩
  · rw [hback, Option.some.injEq, UnixAddr.mk.injEq]
    exact List.take_eq_self_iff _
  · rw [hequal, List.take_of_length_le ht, List.take_of_length_le hu]

/-- A path of 108 bytes. -/
def longText (last : UInt8) (h : 0 ∉ List.replicate 107 97 ++ [last]) : LocalText where
  scheme := .local
  path := List.replicate 107 97 ++ [last]
  noNul := h
  plain := nofun

/-- Two paths of 108 bytes that differ in the last one. -/
theorem long_paths_equal :
    let t := longText 97 (by decide)
    let u := longText 98 (by decide)
    t.path ≠ u.path ∧ (t.parse none).beq (u.parse none) = true ∧
      (t.parse none).toUnixAddr ≠ some ⟨(t.parse none).str⟩ := by
  decide +kernel

end BoostCoro.Coasio
