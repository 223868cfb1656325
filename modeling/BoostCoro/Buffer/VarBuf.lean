import BoostCoro.Buffer.Page
import BoostCoro.Lib.Fallible
import Mathlib.Logic.Function.Basic
/-!
# The paged byte buffer

`var_buf_t` of `util/var_buf.h`: a chain of pages with three cursors. The page
pool is a memory from addresses to pages; following a null pointer or one whose
page was destroyed is a fault, and so is a failed assertion. A loop of the
source walks the chain, so it takes fuel: the number of pages constructed so far
bounds every walk through distinct pages.

Sizes are natural numbers. A sum of page sizes is the size of memory that is
allocated at one time, so it does not reach the end of `size_t`; differences of
offsets are taken with wrap-around.
-/

namespace BoostCoro.Buffer

/-- How a call can go wrong. -/
inductive Fault where
  /-- a null pointer, or a pointer to a destroyed page, is followed -/
  | badPointer
  | assertFailed
  /-- a loop runs longer than a walk through all pages -/
  | diverges
  deriving DecidableEq, Repr

/-- `var_buf_t<page_size, page_buffize>`. `mem` holds the pages that are
constructed and not destroyed, `fresh` is the next address of the page pool,
`destroyed` lists the pages given back to it so far and `raw` is what the blocks
hold before they are written. -/
structure VarBuf (pageSize : Nat) where
  pageList : Option Addr
  pageRd : Option Addr
  pageWr : Option Addr
  mem : Addr → Option (VbufPage pageSize)
  fresh : Addr
  destroyed : List Addr
  raw : Addr → Nat → UInt8

namespace VarBuf

variable {pageSize : Nat}

/-- The default constructor. -/
def new (raw : Addr → Nat → UInt8) : VarBuf pageSize where
  pageList := none
  pageRd := none
  pageWr := none
  mem := fun _ => none
  fresh := 0
  destroyed := []
  raw := raw

/-! ## Page pool -/

/-- `_page_allocator.construct(_vbuf_allocator)`. -/
def construct (b : VarBuf pageSize) : VarBuf pageSize × Addr :=
  ({ b with
      mem := Function.update b.mem b.fresh
        (some (VbufPage.construct pageSize (b.raw b.fresh)))
      fresh := b.fresh + 1 }, b.fresh)

/-- `_page_allocator.destroy(page)`. -/
def destroy (b : VarBuf pageSize) (a : Addr) : VarBuf pageSize :=
  { b with
      mem := Function.update b.mem a none
      destroyed := b.destroyed ++ [a] }

/-- The page a pointer refers to. -/
def deref (b : VarBuf pageSize) : Option Addr → Except Fault (Addr × VbufPage pageSize)
  | none => .error .badPointer
  | some a =>
    match b.mem a with
    | none => .error .badPointer
    | some p => .ok (a, p)

def setPage (b : VarBuf pageSize) (a : Addr) (p : VbufPage pageSize) : VarBuf pageSize :=
  { b with mem := Function.update b.mem a (some p) }

/-- Iterations after which a walk through distinct pages has ended. -/
def walkFuel (b : VarBuf pageSize) : Nat := b.fresh + 1

/-! ## Walks that only read -/

/-- `while (page) { acc = f(acc, page); page = page->next; }` -/
def foldToEnd {σ : Type} (b : VarBuf pageSize) (f : σ → VbufPage pageSize → σ) :
    Nat → Option Addr → σ → Except Fault σ
  | 0, _, _ => .error .diverges
  | _ + 1, none, acc => .ok acc
  | fuel + 1, some a, acc => do
    let (_, p) ← b.deref (some a)
    foldToEnd b f fuel p.next (f acc p)

/-- `while (page != _page_wr) { acc = f(acc, page); page = page->next; }`
followed by `acc = f(acc, page)`. With `nullStops` the loop condition is
`page && page != _page_wr`; with `guarded` the last step is under `if (page)`. -/
def foldToWr {σ : Type} (b : VarBuf pageSize) (f : σ → VbufPage pageSize → σ)
    (nullStops guarded : Bool) : Nat → Option Addr → σ → Except Fault σ
  | 0, _, _ => .error .diverges
  | fuel + 1, page, acc =>
    if page = b.pageWr ∨ (nullStops = true ∧ page = none) then
      if guarded = true ∧ page = none then .ok acc
      else do
        let (_, p) ← b.deref page
        return f acc p
    else do
      let (_, p) ← b.deref page
      foldToWr b f nullStops guarded fuel p.next (f acc p)

def length (b : VarBuf pageSize) : Except Fault Nat :=
  if b.pageRd = none then .ok 0
  else b.foldToWr (fun sz p => sz + p.rdSize) false false b.walkFuel b.pageRd 0

def wrSize (b : VarBuf pageSize) : Except Fault Nat :=
  b.foldToEnd (fun sz p => sz + p.wrSize) b.walkFuel b.pageWr 0

def toString (b : VarBuf pageSize) : Except Fault (List UInt8) :=
  if b.pageRd = none then .ok []
  else b.foldToWr (fun s p => s ++ p.rdBytes p.rdSize) false true b.walkFuel b.pageRd []

def rdSize (b : VarBuf pageSize) : Except Fault Nat :=
  b.foldToEnd (fun sz p => sz + p.rdSize) b.walkFuel b.pageRd 0

def rdPages (b : VarBuf pageSize) : Except Fault Nat :=
  if b.pageRd = none then .ok 0
  else b.foldToWr (fun count _ => count + 1) false true b.walkFuel b.pageRd 0

def pages (b : VarBuf pageSize) : Except Fault Nat :=
  if b.pageList = none then .ok 0
  else b.foldToEnd (fun count _ => count + 1) b.walkFuel b.pageList 0

/-- `length() ? true : false`. -/
def empty (b : VarBuf pageSize) : Except Fault Bool := do
  let sz ← b.length
  return if sz ≠ 0 then true else false

/-- The segments that `rd_iovec` lists, each as the bytes it covers. -/
def rdIovec (b : VarBuf pageSize) : Except Fault (List (List UInt8)) :=
  b.foldToWr (fun vc p => vc ++ [p.rdBytes p.rdSize]) true true b.walkFuel b.pageRd []

/-- The last page from `_page_wr` on. -/
def pageTail (b : VarBuf pageSize) : Except Fault (Option Addr) :=
  go b.walkFuel b.pageWr
where
  go : Nat → Option Addr → Except Fault (Option Addr)
    | 0, _ => .error .diverges
    | _ + 1, none => .ok none
    | fuel + 1, some start => do
      let (_, p) ← b.deref (some start)
      if p.next = none then return some start else go fuel p.next

/-! ## Releasing and adding pages -/

/-- `while (head && head != stop)` destroying `head`: the loop of `shrink`, and
with a null `stop` the loop of `clear`. -/
def destroyUntil (stop : Option Addr) : Nat → VarBuf pageSize → Except Fault (VarBuf pageSize)
  | 0, _ => .error .diverges
  | fuel + 1, b =>
    if b.pageList = none ∨ b.pageList = stop then .ok b
    else do
      let (head, p) ← b.deref b.pageList
      destroyUntil stop fuel ({ b with pageList := p.next }.destroy head)

def shrink (b : VarBuf pageSize) : Except Fault (VarBuf pageSize) :=
  destroyUntil b.pageRd b.walkFuel b

def clear (b : VarBuf pageSize) : Except Fault (VarBuf pageSize) := do
  let b ← destroyUntil none b.walkFuel b
  return { b with pageRd := none, pageWr := none }

/-- `while (page) { page->reset(); page = page->next; }` -/
def resetPages : Nat → Option Addr → VarBuf pageSize → Except Fault (VarBuf pageSize)
  | 0, _, _ => .error .diverges
  | _ + 1, none, b => .ok b
  | fuel + 1, some a, b => do
    let (_, p) ← b.deref (some a)
    resetPages fuel p.next (b.setPage a p.reset)

def reset (b : VarBuf pageSize) : Except Fault (VarBuf pageSize) := do
  let b ← resetPages b.walkFuel b.pageList b
  return { b with pageRd := b.pageList, pageWr := b.pageList }

/-- `while (cur_sz < sz)` of `reserve`: construct a page and link it after
`tail`. A page adds `page_size ≥ 1`, so `sz` iterations are enough. -/
def extend (sz : Nat) : Nat → VarBuf pageSize → Nat → Option Addr →
    Except Fault (VarBuf pageSize)
  | fuel, b, curSz, tail =>
    if curSz < sz then
      match fuel with
      | 0 => .error .diverges
      | fuel + 1 => do
        let (b, npage) := b.construct
        if tail = none then extend sz fuel b (curSz + pageSize) (some npage)
        else do
          let (t, p) ← b.deref tail
          extend sz fuel (b.setPage t (p.setNext (some npage))) (curSz + pageSize) (some npage)
    else .ok b

def reserve (b : VarBuf pageSize) (sz : Nat) : Except Fault (VarBuf pageSize) := do
  let b ← b.shrink
  let b :=
    if b.pageWr = none ∨ (b.pageRd = none ∧ b.pageList = none) then
      let (b, page) := b.construct
      { b with pageList := some page, pageWr := some page, pageRd := some page }
    else b
  if b.pageWr = none then .error .assertFailed
  else do
    let curSz ← b.wrSize
    let tail ← b.pageTail
    extend sz sz b curSz tail

/-! ## Writing and reading -/

/-- `while (want_write)`: `src` is what is left to write. -/
def writeLoop : Nat → VarBuf pageSize → List UInt8 → Except Fault (VarBuf pageSize)
  | _, b, [] => .ok b
  | 0, _, _ :: _ => .error .diverges
  | fuel + 1, b, src@(_ :: _) =>
    if b.pageWr = none then .error .assertFailed
    else do
      let (a, p) ← b.deref b.pageWr
      let wr := if src.length > p.wrSize then p.wrSize else src.length
      let b := b.setPage a (p.store (src.take wr))
      let src := src.drop wr
      let b := if src.length ≠ 0 then { b with pageWr := p.next } else b
      if b.pageWr = none then .error .assertFailed else writeLoop fuel b src

/-- `size_t cur_sz = wr_size(); if (len > cur_sz) reserve(len);` -/
def makeRoom (b : VarBuf pageSize) (len : Nat) : Except Fault (VarBuf pageSize) := do
  let curSz ← b.wrSize
  if len > curSz then b.reserve len else return b

/-- `write(ptr, len)`: `src` are the `len` bytes at `ptr`. -/
def write (b : VarBuf pageSize) (src : List UInt8) : Except Fault (VarBuf pageSize × Nat) := do
  let b ← b.makeRoom src.length
  let b ← writeLoop b.walkFuel b src
  return (b, src.length)

def append (b : VarBuf pageSize) (src : List UInt8) : Except Fault (VarBuf pageSize × Nat) :=
  b.write src

def assign (b : VarBuf pageSize) (src : List UInt8) : Except Fault (VarBuf pageSize × Nat) := do
  let b ← b.reset
  b.write src

/-- `while (want_read)`: `out` is what has been stored into the caller's
buffer. -/
def readLoop : Nat → VarBuf pageSize → Nat → List UInt8 →
    Except Fault (VarBuf pageSize × List UInt8 × Nat)
  | _, b, 0, out => .ok (b, out, 0)
  | 0, _, _ + 1, _ => .error .diverges
  | fuel + 1, b, wantRead@(_ + 1), out =>
    if b.pageRd = none then .error .assertFailed
    else do
      let (a, p) ← b.deref b.pageRd
      let rd := if wantRead > p.rdSize then p.rdSize else wantRead
      let out := out ++ p.rdBytes rd
      let b := b.setPage a (p.consume rd)
      let wantRead := wantRead - rd
      let b := if wantRead ≠ 0 then { b with pageRd := p.next } else b
      readLoop fuel b wantRead out

/-- `read(ptr, len)`: the bytes stored at `ptr` and the value returned. -/
def read (b : VarBuf pageSize) (len : Nat) :
    Except Fault (VarBuf pageSize × List UInt8 × Nat) := do
  let curLength ← b.length
  let wantRead := if curLength < len then curLength else len
  let (b, out, wantRead) ← readLoop b.walkFuel b wantRead []
  return (b, out, len - wantRead)

def readBySize (b : VarBuf pageSize) (sz : Nat) :
    Except Fault (VarBuf pageSize × List UInt8 × Nat) :=
  b.read sz

/-- `_page_rd = _page_wr; _page_rd->offset_rd = _page_wr->offset_wr;` -/
def readed (b : VarBuf pageSize) : Except Fault (VarBuf pageSize) := do
  let (a, p) ← b.deref b.pageWr
  return { b.setPage a { p with offsetRd := p.offsetWr } with pageRd := b.pageWr }

/-! ## Scatter and gather -/

/-- `struct iovec` into a page: `len` bytes of the block of `page` from offset `base` on. -/
structure Iovec where
  page : Addr
  base : Nat
  len : Nat
  deriving DecidableEq, Repr

/-- The segments that `wr_iovec` lists. -/
def wrIovec (b : VarBuf pageSize) : Except Fault (List Iovec) := go b.walkFuel b.pageWr
where
  go : Nat → Option Addr → Except Fault (List Iovec)
    | 0, _ => .error .diverges
    | _ + 1, none => .ok []
    | fuel + 1, some page => do
      let (a, p) ← b.deref (some page)
      let vc ← go fuel p.next
      return ⟨a, p.offsetWr, p.wrSize⟩ :: vc

/-- `while (wt_pos && _page_wr)` of `wr_position`, with what is left of `wt_pos`. -/
def wrPositionLoop : Nat → VarBuf pageSize → Nat → Except Fault (VarBuf pageSize × Nat)
  | _, b, 0 => .ok (b, 0)
  | 0, _, _ + 1 => .error .diverges
  | fuel + 1, b, wtPos@(_ + 1) =>
    if b.pageWr = none then .ok (b, wtPos)
    else do
      let (a, p) ← b.deref b.pageWr
      let mvPos := if wtPos > p.wrSize then p.wrSize else wtPos
      wrPositionLoop fuel { b.setPage a (p.commit mvPos) with pageWr := p.next } (wtPos - mvPos)

def wrPosition (b : VarBuf pageSize) (inc : Nat) : Except Fault (VarBuf pageSize × Nat) := do
  let (b, wtPos) ← wrPositionLoop b.walkFuel b inc
  return (b, inc - wtPos)

/-- `while (rd_pos && _page_rd)` of `rd_position`, with what is left of `rd_pos`. -/
def rdPositionLoop : Nat → VarBuf pageSize → Nat → Except Fault (VarBuf pageSize × Nat)
  | _, b, 0 => .ok (b, 0)
  | 0, _, _ + 1 => .error .diverges
  | fuel + 1, b, rdPos@(_ + 1) =>
    if b.pageRd = none then .ok (b, rdPos)
    else do
      let (a, p) ← b.deref b.pageRd
      let mvPos := if rdPos > p.rdSize then p.rdSize else rdPos
      rdPositionLoop fuel { b.setPage a (p.consume mvPos) with pageRd := p.next } (rdPos - mvPos)

def rdPosition (b : VarBuf pageSize) (inc : Nat) : Except Fault (VarBuf pageSize × Nat) := do
  let (b, rdPos) ← rdPositionLoop b.walkFuel b inc
  return (b, inc - rdPos)

end VarBuf

end BoostCoro.Buffer
