import Mathlib.Algebra.Ring.Nat
import Mathlib.Data.List.Basic
/-!
# Buffer pages

`vbuf_page_t` of `util/var_buf.h`: one block of `page_size` bytes with a read
offset, a write offset and a link to the next page. The block comes from the
page allocator with whatever it held before, so a fresh page carries arbitrary
bytes.
-/

namespace BoostCoro.Buffer

/-- Address of a page object. -/
abbrev Addr := Nat

/-- Subtraction of `size_t` values, which wraps. -/
def sizeSub (a b : Nat) : Nat := if b ≤ a then a - b else 2 ^ 64 + a - b

theorem sizeSub_of_le {a b : Nat} (h : b ≤ a) : sizeSub a b = a - b := if_pos h

/-- `vbuf_page_t<page_size, page_buffize>`. -/
structure VbufPage (pageSize : Nat) where
  next : Option Addr
  offsetRd : Nat
  offsetWr : Nat
  data : List UInt8
  data_length : data.length = pageSize

namespace VbufPage

variable {pageSize : Nat}

/-- The constructor: `raw` is what the block holds when the allocator hands it
out. -/
def construct (pageSize : Nat) (raw : Nat → UInt8) : VbufPage pageSize where
  next := none
  offsetRd := 0
  offsetWr := 0
  data := (List.range pageSize).map raw
  data_length := by simp

def wrSize (p : VbufPage pageSize) : Nat := sizeSub pageSize p.offsetWr

def rdSize (p : VbufPage pageSize) : Nat := sizeSub p.offsetWr p.offsetRd

def reset (p : VbufPage pageSize) : VbufPage pageSize :=
  { p with offsetRd := 0, offsetWr := 0 }

/-- `len` bytes from `rd_ptr()` on. -/
def rdBytes (p : VbufPage pageSize) (len : Nat) : List UInt8 :=
  (p.data.drop p.offsetRd).take len

/-- Overwrite the bytes of `data` from offset `off` on with `src`. -/
def overwrite (data : List UInt8) (off : Nat) (src : List UInt8) : List UInt8 :=
  (data.take off ++ src ++ data.drop (off + src.length)).take data.length

theorem length_overwrite (data : List UInt8) (off : Nat) (src : List UInt8) :
    (overwrite data off src).length = data.length := by
  simp only [overwrite, List.length_take, List.length_append, List.length_drop]
  omega

theorem overwrite_eq {data src : List UInt8} {off : Nat} (h : off + src.length ≤ data.length) :
    overwrite data off src = data.take off ++ (src ++ data.drop (off + src.length)) := by
  rw [overwrite, List.append_assoc, List.take_of_length_le]
  simp only [List.length_append, List.length_take, List.length_drop]
  omega

/-- `memcpy(wr_ptr(), src, len)` followed by `offset_wr += len`. -/
def store (p : VbufPage pageSize) (src : List UInt8) : VbufPage pageSize where
  next := p.next
  offsetRd := p.offsetRd
  offsetWr := p.offsetWr + src.length
  data := overwrite p.data p.offsetWr src
  data_length := (length_overwrite _ _ _).trans p.data_length

/-- `offset_rd += len`. -/
def consume (p : VbufPage pageSize) (len : Nat) : VbufPage pageSize :=
  { p with offsetRd := p.offsetRd + len }

/-- `offset_wr += len`. -/
def commit (p : VbufPage pageSize) (len : Nat) : VbufPage pageSize :=
  { p with offsetWr := p.offsetWr + len }

/-- `memcpy(data + off, src, len)`. -/
def fill (p : VbufPage pageSize) (off : Nat) (src : List UInt8) : VbufPage pageSize where
  next := p.next
  offsetRd := p.offsetRd
  offsetWr := p.offsetWr
  data := overwrite p.data off src
  data_length := (length_overwrite _ _ _).trans p.data_length

/-- `page->next = q`. -/
def setNext (p : VbufPage pageSize) (q : Option Addr) : VbufPage pageSize :=
  { p with next := q }

/-- The readable bytes of the page. -/
def bytes (p : VbufPage pageSize) : List UInt8 := p.rdBytes p.rdSize

/-- Offsets within the block and in order. -/
def Ordered (p : VbufPage pageSize) : Prop :=
  p.offsetRd ≤ p.offsetWr ∧ p.offsetWr ≤ pageSize

/-- Nothing readable and the whole block writable. -/
def Untouched (p : VbufPage pageSize) : Prop := p.offsetRd = 0 ∧ p.offsetWr = 0

theorem untouched_construct (pageSize : Nat) (raw : Nat → UInt8) :
    (construct pageSize raw).Untouched := ⟨rfl, rfl⟩

theorem untouched_reset (p : VbufPage pageSize) : p.reset.Untouched := ⟨rfl, rfl⟩

theorem Untouched.ordered {p : VbufPage pageSize} (h : p.Untouched) : p.Ordered := by
  simp [Ordered, h.1, h.2]

theorem Untouched.bytes {p : VbufPage pageSize} (h : p.Untouched) : p.bytes = [] := by
  simp [VbufPage.bytes, rdBytes, rdSize, sizeSub, h.1, h.2]

theorem Untouched.wrSize_eq {p : VbufPage pageSize} (h : p.Untouched) : p.wrSize = pageSize := by
  simp [VbufPage.wrSize, sizeSub, h.2]

theorem Ordered.rdSize_eq {p : VbufPage pageSize} (h : p.Ordered) :
    p.rdSize = p.offsetWr - p.offsetRd := sizeSub_of_le h.1

theorem Ordered.wrSize_eq {p : VbufPage pageSize} (h : p.Ordered) :
    p.wrSize = pageSize - p.offsetWr := sizeSub_of_le h.2

theorem Ordered.length_bytes {p : VbufPage pageSize} (h : p.Ordered) :
    p.bytes.length = p.rdSize := by
  have hdata := p.data_length
  have hrd := h.1
  have hwr := h.2
  simp only [VbufPage.bytes, rdBytes, List.length_take, List.length_drop, h.rdSize_eq]
  omega

theorem Ordered.store {p : VbufPage pageSize} (h : p.Ordered) {src : List UInt8}
    (hfit : src.length ≤ p.wrSize) : (p.store src).Ordered := by
  have hrd := h.1
  have hwr := h.2
  rw [h.wrSize_eq] at hfit
  simp only [Ordered, VbufPage.store]
  omega

theorem Ordered.consume {p : VbufPage pageSize} (h : p.Ordered) {len : Nat}
    (hlen : len ≤ p.rdSize) : (p.consume len).Ordered := by
  have hrd := h.1
  have hwr := h.2
  rw [h.rdSize_eq] at hlen
  simp only [Ordered, VbufPage.consume]
  omega

/-- Consuming drops the first readable bytes. -/
theorem Ordered.bytes_consume {p : VbufPage pageSize} (h : p.Ordered) {len : Nat}
    (hlen : len ≤ p.rdSize) : (p.consume len).bytes = p.bytes.drop len := by
  have hsize : (p.consume len).rdSize = p.rdSize - len := by
    rw [(h.consume hlen).rdSize_eq, h.rdSize_eq]
    simp only [VbufPage.consume]
    omega
  simp only [VbufPage.bytes, rdBytes, hsize]
  simp only [VbufPage.consume]
  rw [List.drop_take, List.drop_drop]

theorem Ordered.commit {p : VbufPage pageSize} (h : p.Ordered) {len : Nat}
    (hlen : len ≤ p.wrSize) : (p.commit len).Ordered := by
  have hrd := h.1
  have hwr := h.2
  rw [h.wrSize_eq] at hlen
  simp only [Ordered, VbufPage.commit]
  omega

/-- Committing makes the first bytes of the free space readable. -/
theorem Ordered.bytes_commit {p : VbufPage pageSize} (h : p.Ordered) {len : Nat}
    (hlen : len ≤ p.wrSize) :
    (p.commit len).bytes = p.bytes ++ (p.data.drop p.offsetWr).take len := by
  have hrd := h.1
  have hsize : (p.commit len).rdSize = p.rdSize + len := by
    rw [(h.commit hlen).rdSize_eq, h.rdSize_eq]
    simp only [VbufPage.commit]
    omega
  have hoff : p.offsetRd + p.rdSize = p.offsetWr := by
    rw [h.rdSize_eq]
    omega
  simp only [VbufPage.bytes, rdBytes, hsize]
  simp only [VbufPage.commit]
  rw [List.take_add, List.drop_drop, hoff]

/-- Filling free space changes nothing that is readable. -/
theorem Ordered.bytes_fill {p : VbufPage pageSize} (h : p.Ordered) {src : List UInt8}
    (hfit : src.length ≤ p.wrSize) : (p.fill p.offsetWr src).bytes = p.bytes := by
  have hdata := p.data_length
  have hrd := h.1
  have hwr := h.2
  rw [h.wrSize_eq] at hfit
  have hold (data : List UInt8) : (data.drop p.offsetRd).take p.rdSize =
      (data.take p.offsetWr).drop p.offsetRd := by
    rw [List.drop_take, h.rdSize_eq]
  have hbytes : (p.fill p.offsetWr src).bytes =
      ((overwrite p.data p.offsetWr src).drop p.offsetRd).take p.rdSize := rfl
  rw [hbytes, VbufPage.bytes, rdBytes, hold, hold, overwrite_eq (by omega),
    List.take_left' (by simp; omega)]

/-- What was filled in is in the free space. -/
theorem Ordered.free_fill {p : VbufPage pageSize} (h : p.Ordered) {src : List UInt8}
    (hfit : src.length ≤ p.wrSize) :
    ((p.fill p.offsetWr src).data.drop p.offsetWr).take src.length = src := by
  have hdata := p.data_length
  have hwr := h.2
  rw [h.wrSize_eq] at hfit
  have hfill : (p.fill p.offsetWr src).data = overwrite p.data p.offsetWr src := rfl
  rw [hfill, overwrite_eq (by omega), List.drop_left' (by simp; omega), List.take_left]

/-- A store that fits appends its bytes to the readable ones. -/
theorem Ordered.bytes_store {p : VbufPage pageSize} (h : p.Ordered) {src : List UInt8}
    (hfit : src.length ≤ p.wrSize) : (p.store src).bytes = p.bytes ++ src := by
  have hfill : (p.fill p.offsetWr src).Ordered := h
  have hstore : p.store src = (p.fill p.offsetWr src).commit src.length := rfl
  have hfree : ((p.fill p.offsetWr src).data.drop (p.fill p.offsetWr src).offsetWr).take
      src.length = src := h.free_fill hfit
  rw [hstore, hfill.bytes_commit hfit, h.bytes_fill hfit, hfree]

theorem rdBytes_eq_take {p : VbufPage pageSize} {len : Nat}
    (hlen : len ≤ p.rdSize) : p.rdBytes len = p.bytes.take len := by
  simp only [VbufPage.bytes, rdBytes, List.take_take, Nat.min_eq_left hlen]

end VbufPage

end BoostCoro.Buffer
