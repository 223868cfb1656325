import Mathlib.Data.List.TakeWhile
/-!
# Texts of numbers and addresses

The functions of the C library that `coasio/addr.h` uses on texts: `atoi`, `inet_ntop` and
`inet_pton` for IPv4, `htons` and `ntohs`, and the decimal text that a stream writes. What is
read back from a written text is what was written.
-/

namespace BoostCoro.Coasio

/-- A C string: the bytes before its NUL. -/
abbrev CStr := List UInt8

/-- The bytes of ASCII characters. -/
def ascii (s : List Char) : CStr := s.map fun c => c.toNat.toUInt8

/-- The text that an output stream writes for a number. -/
def decimal (n : Nat) : CStr := ascii (Nat.toDigits 10 n)

def isdigit (c : UInt8) : Bool := 48 ≤ c && c ≤ 57

def isspace (c : UInt8) : Bool := c == 32 || (9 ≤ c && c ≤ 13)

/-- The value of a text of digits. -/
def digitsValue (s : CStr) : Nat := s.foldl (fun n c => 10 * n + (c.toNat - 48)) 0

/-- `atoi(str)`: blanks, a sign, and the digits up to the first other byte. -/
def atoi (str : CStr) : Int :=
  match str.dropWhile isspace with
  | 45 :: s => -digitsValue (s.takeWhile isdigit)
  | 43 :: s => digitsValue (s.takeWhile isdigit)
  | s => digitsValue (s.takeWhile isdigit)

/-- `struct in_addr`: the four bytes in network order. -/
structure InAddr where
  b0 : UInt8
  b1 : UInt8
  b2 : UInt8
  b3 : UInt8
  deriving DecidableEq, Repr

/-- `INADDR_ANY`, which is also what `memset` to zero leaves. -/
def InAddr.any : InAddr := ⟨0, 0, 0, 0⟩

/-- `inet_ntop(AF_INET, ...)`. -/
def inetNtop (a : InAddr) : CStr :=
  [46].intercalate
    [decimal a.b0.toNat, decimal a.b1.toNat, decimal a.b2.toNat, decimal a.b3.toNat]

/-- A decimal number of one to three digits between 0 and 255. -/
def octet (s : CStr) : Option UInt8 :=
  if s ≠ [] ∧ s.length ≤ 3 ∧ s.all isdigit = true ∧ digitsValue s ≤ 255 then
    some (UInt8.ofNat (digitsValue s))
  else none

/-- `inet_pton(AF_INET, ...)`; `none` when the text is not a dotted quad, and then the output
is not written. -/
def inetPton (src : CStr) : Option InAddr :=
  match src.splitOn 46 with
  | [a, b, c, d] => do return ⟨← octet a, ← octet b, ← octet c, ← octet d⟩
  | _ => none

/-- `htons`: the two bytes in network order. -/
def htons (port : UInt16) : UInt8 × UInt8 :=
  (UInt8.ofNat (port.toNat / 256), UInt8.ofNat (port.toNat % 256))

def ntohs (hi lo : UInt8) : UInt16 := UInt16.ofNat (256 * hi.toNat + lo.toNat)

/-! ## Decimal texts -/

theorem toNat_digit {c : Char} (h : c.isDigit) : c.toNat.toUInt8.toNat = c.toNat := by
  have hle : c.toNat ≤ 57 := by
    simp only [Char.isDigit, Bool.and_eq_true, decide_eq_true_eq] at h
    exact h.2
  apply UInt8.toNat_ofNat_of_lt'
  exact Nat.lt_of_le_of_lt hle (by decide)

theorem isdigit_decimal {n : Nat} {c : UInt8} (h : c ∈ decimal n) : isdigit c = true := by
  obtain ⟨d, hd, rfl⟩ := List.mem_map.mp h
  have hdigit := Nat.isDigit_of_mem_toDigits (by decide) (by decide) hd
  have hnat := toNat_digit hdigit
  simp only [Char.isDigit, Bool.and_eq_true, decide_eq_true_eq] at hdigit
  simp only [isdigit, Bool.and_eq_true, decide_eq_true_eq, UInt8.le_iff_toNat_le, hnat]
  exact hdigit

theorem decimal_ne_nil (n : Nat) : decimal n ≠ [] := by
  simp [decimal, ascii, Nat.toDigits_ne_nil]

theorem digitsValue_decimal (n : Nat) : digitsValue (decimal n) = n := by
  have hfold : ∀ (l : List Char) (m : Nat), (∀ c ∈ l, c.isDigit) →
      (ascii l).foldl (fun n c => 10 * n + (c.toNat - 48)) m = Nat.ofDigitChars 10 l m := by
    intro l
    induction l with
    | nil => exact fun m _ => (Nat.ofDigitChars_nil).symm
    | cons c l ih =>
        intro m hl
        obtain ⟨hc, hl⟩ := List.forall_mem_cons.mp hl
        rw [Nat.ofDigitChars_cons, ← ih _ hl, ascii, List.map_cons, List.foldl_cons,
          toNat_digit hc]
        rfl
  rw [digitsValue, decimal,
    hfold _ 0 fun c hc => Nat.isDigit_of_mem_toDigits (by decide) (by decide) hc]
  exact Nat.ofDigitChars_ten_toDigits

theorem takeWhile_decimal (n : Nat) : (decimal n).takeWhile isdigit = decimal n :=
  List.takeWhile_eq_self_iff.mpr fun _ hc => isdigit_decimal hc

theorem notMem_decimal {c : UInt8} (h : isdigit c = false) (n : Nat) : c ∉ decimal n := by
  intro hmem
  rw [isdigit_decimal hmem] at h
  cases h

theorem isspace_of_isdigit {c : UInt8} (h : isdigit c = true) : isspace c = false := by
  simp only [isdigit, Bool.and_eq_true, decide_eq_true_eq, UInt8.le_iff_toNat_le] at h
  have hge : 48 ≤ c.toNat := h.1
  simp only [isspace, Bool.or_eq_false_iff, beq_eq_false_iff_ne, Bool.and_eq_false_iff,
    decide_eq_false_iff_not, UInt8.le_iff_toNat_le]
  constructor
  · rintro rfl
    exact absurd hge (by decide)
  · refine .inr fun hle => ?_
    have hle : c.toNat ≤ 13 := hle
    omega

theorem atoi_decimal (n : Nat) : atoi (decimal n) = n := by
  have hdrop : (decimal n).dropWhile isspace = decimal n := by
    obtain ⟨c, s, hcs⟩ := List.exists_cons_of_ne_nil (decimal_ne_nil n)
    have hc : isdigit c = true := isdigit_decimal (by rw [hcs]; exact List.mem_cons_self)
    rw [hcs, List.dropWhile_cons_of_neg (by simp [isspace_of_isdigit hc])]
  rw [atoi, hdrop]
  split
  -- there is no sign among the digits
  next s heq =>
      exact absurd (by rw [heq]; exact List.mem_cons_self) (notMem_decimal (c := 45) rfl n)
  next s heq =>
      exact absurd (by rw [heq]; exact List.mem_cons_self) (notMem_decimal (c := 43) rfl n)
  next => rw [takeWhile_decimal, digitsValue_decimal]

/-! ## Dotted quads -/

theorem octet_decimal (b : UInt8) : octet (decimal b.toNat) = some b := by
  have hlt : b.toNat < 256 := b.toNat_lt
  have hlen : (decimal b.toNat).length ≤ 3 := by
    rw [decimal, ascii, List.length_map, Nat.length_toDigits_le_iff (by decide) (by decide)]
    omega
  have hall : (decimal b.toNat).all isdigit = true :=
    List.all_eq_true.mpr fun _ hc => isdigit_decimal hc
  rw [octet, digitsValue_decimal,
    if_pos ⟨decimal_ne_nil _, hlen, hall, Nat.le_of_lt_succ hlt⟩, UInt8.ofNat_toNat]

/-- `inet_pton` reads back what `inet_ntop` writes. -/
theorem inetPton_inetNtop (a : InAddr) : inetPton (inetNtop a) = some a := by
  have hsplit : (inetNtop a).splitOn 46 =
      [decimal a.b0.toNat, decimal a.b1.toNat, decimal a.b2.toNat, decimal a.b3.toNat] := by
    refine List.splitOn_intercalate 46 (fun l hl => ?_) (by simp)
    simp only [List.mem_cons, List.not_mem_nil, or_false] at hl
    rcases hl with rfl | rfl | rfl | rfl <;> exact notMem_decimal rfl _
  rw [inetPton, hsplit]
  simp only [octet_decimal]
  rfl

/-- There is no colon in a dotted quad. -/
theorem colon_notMem_inetNtop (a : InAddr) : (58 : UInt8) ∉ inetNtop a := by
  have hcolon : ∀ n : Nat, (58 : UInt8) ∉ decimal n := notMem_decimal rfl
  simp [inetNtop, List.intercalate, hcolon]

/-! ## Byte order -/

theorem ntohs_htons (port : UInt16) : ntohs (htons port).1 (htons port).2 = port := by
  have hlt : port.toNat < 65536 := port.toNat_lt
  have hhi : (UInt8.ofNat (port.toNat / 256)).toNat = port.toNat / 256 :=
    UInt8.toNat_ofNat_of_lt' (show port.toNat / 256 < 256 by omega)
  have hlo : (UInt8.ofNat (port.toNat % 256)).toNat = port.toNat % 256 :=
    UInt8.toNat_ofNat_of_lt' (show port.toNat % 256 < 256 by omega)
  rw [ntohs, htons, hhi, hlo, Nat.div_add_mod, UInt16.ofNat_toNat]

end BoostCoro.Coasio
