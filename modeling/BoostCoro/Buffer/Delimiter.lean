import BoostCoro.Buffer.Fifo
import BoostCoro.Buffer.Strnstr
import BoostCoro.Lib.Occurrence
/-!
# Reading up to a delimiter

`read_by_endof_delimer` searches the pages from the read cursor on, one at a time, with
`strnstr` on the memory at `rd_ptr()`. That memory goes on behind the readable bytes, with
what earlier writes left in the block and with whatever comes after the block.
-/

namespace BoostCoro.Buffer

open Linked Occurrence

namespace VbufPage

variable {pageSize : Nat}

/-- Memory from `rd_ptr()` on; `beyond` is what comes after the block. -/
def rdMem (p : VbufPage pageSize) (beyond : Nat → UInt8) (i : Nat) : UInt8 :=
  (p.data[p.offsetRd + i]?).getD (beyond (p.offsetRd + i - pageSize))

/-- `strnstr(page->rd_ptr(), s, page->rd_size())`. -/
def search (p : VbufPage pageSize) (beyond : Nat → UInt8) (s : List UInt8) :
    Except Fault (Option Nat) :=
  strnstr (fun i => some (p.rdMem beyond i)) s p.rdSize

theorem window_rdMem {p : VbufPage pageSize} (h : p.Ordered) (beyond : Nat → UInt8) {k n : Nat}
    (hfit : k + n ≤ p.bytes.length) : window (p.rdMem beyond) k n = (p.bytes.drop k).take n := by
  have hdata := p.data_length
  have hrd := h.1
  have hwr := h.2
  rw [h.length_bytes, h.rdSize_eq] at hfit
  apply List.ext_getElem
  · rw [length_window, List.length_take, List.length_drop, h.length_bytes, h.rdSize_eq]
    omega
  · intro j hj _
    rw [length_window] at hj
    have hindex : p.offsetRd + (k + j) < p.data.length := by omega
    simp only [window, rdMem, bytes, rdBytes, List.getElem_map, List.getElem_range,
      List.getElem_take, List.getElem_drop, List.getElem?_eq_getElem hindex, Option.getD_some]

end VbufPage

namespace VarBuf

variable {pageSize : Nat}

/-- The first page in which `strnstr` finds `s`. -/
def find (b : VarBuf pageSize) (beyond : Addr → Nat → UInt8) (s : List UInt8) :
    Except Fault (Option Addr) :=
  go b.walkFuel b.pageRd
where
  go : Nat → Option Addr → Except Fault (Option Addr)
    | 0, _ => .error .diverges
    | _ + 1, none => .ok none
    | fuel + 1, some page => do
      let (a, p) ← b.deref (some page)
      let finded ← p.search (beyond a) s
      if finded ≠ none then return some a else go fuel p.next

/-- `while (_page_rd != page)` of `read_by_endof_delimer`. -/
def skipTo (page : Addr) : Nat → VarBuf pageSize → List UInt8 → Nat →
    Except Fault (VarBuf pageSize × List UInt8 × Nat)
  | 0, _, _, _ => .error .diverges
  | fuel + 1, b, s, readed =>
    if b.pageRd = some page then .ok (b, s, readed)
    else do
      let (_, p) ← b.deref b.pageRd
      skipTo page fuel { b with pageRd := p.next } (s ++ p.rdBytes p.rdSize) (readed + p.rdSize)

/-- `read_by_endof_delimer(d, s)`: the string `s` after the call and the value returned.
`beyond` is what the memory after each block holds during the call. -/
def readByEndofDelimer (b : VarBuf pageSize) (beyond : Addr → Nat → UInt8) (d s : List UInt8) :
    Except Fault (VarBuf pageSize × List UInt8 × Nat) := do
  let page ← b.find beyond d
  match page with
  | none => return (b, s, 0)
  | some page =>
    let (b, s, readed) ← skipTo page b.walkFuel b s 0
    let (a, p) ← b.deref (some page)
    let finded ← p.search (beyond a) d
    match finded with
    | none => return (b, s, 0)
    | some last =>
      let (a, p) ← b.deref b.pageRd
      return (b.setPage a (p.consume (last + d.length)), s ++ p.rdBytes last, readed + last)

/-- `read_by_line(line)`: the delimiter is `"\n"`. -/
def readByLine (b : VarBuf pageSize) (beyond : Addr → Nat → UInt8) (line : List UInt8) :
    Except Fault (VarBuf pageSize × List UInt8 × Nat) :=
  b.readByEndofDelimer beyond [10] line

/-! ## The search in one page -/

section

variable {beyond : Addr → Nat → UInt8} {d : List UInt8} {x : Cell pageSize} {k : Nat}

/-- The search in the page `x` finds `d` at `k`. -/
def Sees (beyond : Addr → Nat → UInt8) (d : List UInt8) (x : Cell pageSize) (k : Nat) : Prop :=
  Visible (x.2.rdMem (beyond x.1)) d x.2.rdSize k

/-- The search in the page `x` finds `d` where it goes on behind the readable bytes. -/
def Overruns (beyond : Addr → Nat → UInt8) (d : List UInt8) (x : Cell pageSize) : Prop :=
  ∃ k, Sees beyond d x k ∧ x.2.rdSize < k + d.length

theorem search_eq_none (hd : d ≠ []) (hnul : 0 ∉ d) (h : ∀ k, ¬ Sees beyond d x k) :
    x.2.search (beyond x.1) d = .ok none := by
  obtain ⟨r, hrun, hr⟩ := strnstr_reports hd hnul (x.2.rdMem (beyond x.1)) x.2.rdSize
  cases r with
  | none => exact hrun
  | some k => exact absurd hr.1 (h k)

theorem search_eq_some (hd : d ≠ []) (hnul : 0 ∉ d) (h : Sees beyond d x k)
    (hfirst : ∀ j < k, ¬ Sees beyond d x j) : x.2.search (beyond x.1) d = .ok (some k) := by
  obtain ⟨r, hrun, hr⟩ := strnstr_reports hd hnul (x.2.rdMem (beyond x.1)) x.2.rdSize
  cases r with
  | none => exact absurd h (hr k)
  | some j =>
      have hjk : j = k := by
        apply Nat.le_antisymm
        · exact Nat.le_of_not_lt fun hlt => hr.2 k hlt h
        · exact Nat.le_of_not_lt fun hlt => hfirst j hlt hr.1
      rw [← hjk]
      exact hrun

theorem exists_first_sees (hd : d ≠ []) (hnul : 0 ∉ d) (h : Sees beyond d x k) :
    ∃ j, Sees beyond d x j ∧ ∀ i < j, ¬ Sees beyond d x i := by
  obtain ⟨r, -, hr⟩ := strnstr_reports hd hnul (x.2.rdMem (beyond x.1)) x.2.rdSize
  cases r with
  | none => exact absurd h (hr k)
  | some j => exact ⟨j, hr⟩

/-- Within the readable bytes the search finds what stands there before any NUL. -/
theorem sees_iff (hx : x.2.Ordered) (hd : d ≠ []) (hfit : k + d.length ≤ x.2.bytes.length) :
    Sees beyond d x k ↔ 0 ∉ x.2.bytes.take k ∧ At d x.2.bytes k := by
  have hpos := List.length_pos_iff.mpr hd
  have hsize := hx.length_bytes
  have hnul : window (x.2.rdMem (beyond x.1)) 0 k = x.2.bytes.take k := by
    rw [VbufPage.window_rdMem hx _ (by omega), List.drop_zero]
  rw [at_iff_take, ← VbufPage.window_rdMem hx (beyond x.1) hfit, ← hnul]
  constructor
  · exact fun h => ⟨h.no_nul, h.match_eq⟩
  · exact fun h => ⟨by omega, h.1, h.2⟩

theorem sees_untouched (hx : x.2.Untouched) (k : Nat) : ¬ Sees beyond d x k := by
  intro h
  have hlt := h.lt
  have hsize := hx.ordered.length_bytes
  rw [hx.bytes, List.length_nil] at hsize
  omega

end

/-! ## The search in all pages -/

section

variable {b : VarBuf pageSize} {beyond : Addr → Nat → UInt8} {d s : List UInt8}
  {pre mid post l l₁ l₂ m : List (Cell pageSize)} {w x : Cell pageSize} {p : Option Addr}
  {k n fuel : Nat}

/-- The search goes on behind the pages in which nothing is seen. -/
theorem find_go_skip {q : Option Addr} (hd : d ≠ []) (hnul : 0 ∉ d)
    (hl : Segment b.mem VbufPage.next p l q) (hno : ∀ y ∈ l, ∀ k, ¬ Sees beyond d y k)
    (hfuel : l.length < fuel) :
    find.go b beyond d fuel p = find.go b beyond d (fuel - l.length) q := by
  induction l generalizing p fuel with
  | nil => rw [segment_nil.1 hl, List.length_nil, Nat.sub_zero]
  | cons y l ih =>
      obtain ⟨fuel, rfl⟩ := Nat.exists_eq_add_one.2 (Nat.zero_lt_of_lt hfuel)
      obtain ⟨rfl, hy, hl⟩ := hl
      rw [List.length_cons, Nat.add_sub_add_right]
      simp only [find.go, deref_some hy, Fallible.ok_bind,
        search_eq_none hd hnul (hno y (by simp))]
      exact ih hl (fun z hz => hno z (List.mem_cons_of_mem y hz)) (by simpa using hfuel)

theorem find_go_none (hd : d ≠ []) (hnul : 0 ∉ d) (hl : Segment b.mem VbufPage.next p l none)
    (hno : ∀ y ∈ l, ∀ k, ¬ Sees beyond d y k) (hfuel : l.length < fuel) :
    find.go b beyond d fuel p = .ok none := by
  obtain ⟨rest, hrest⟩ := Nat.exists_eq_add_one.2 (Nat.sub_pos_of_lt hfuel)
  rw [find_go_skip hd hnul hl hno hfuel, hrest]
  rfl

theorem find_go_some (hd : d ≠ []) (hnul : 0 ∉ d)
    (hl : Segment b.mem VbufPage.next p (l₁ ++ x :: l₂) none)
    (hno : ∀ y ∈ l₁, ∀ k, ¬ Sees beyond d y k) (hx : Sees beyond d x k)
    (hfirst : ∀ j < k, ¬ Sees beyond d x j) (hfuel : l₁.length < fuel) :
    find.go b beyond d fuel p = .ok (some x.1) := by
  obtain ⟨rest, hrest⟩ := Nat.exists_eq_add_one.2 (Nat.sub_pos_of_lt hfuel)
  obtain ⟨q, hl₁, rfl, hmem, -⟩ := segment_append.1 hl
  rw [find_go_skip hd hnul hl₁ hno hfuel, hrest]
  simp only [find.go, deref_some hmem, Fallible.ok_bind, search_eq_some hd hnul hx hfirst]
  rfl

theorem Shape.pageRd_eq (h : b.Shape False pre mid w post) (hx : mid ++ [w] = x :: l) :
    b.pageRd = some x.1 := by
  cases mid with
  | nil =>
      obtain ⟨rfl, -⟩ := List.cons.inj hx
      exact (segment_nil.1 h.rd_wr).trans h.pageWr_eq
  | cons y mid =>
      obtain ⟨rfl, -⟩ := List.cons.inj hx
      exact h.rd_wr.1

/-- The pages before the one that was found go to the string whole. -/
theorem Shape.skipTo (h : b.Shape False pre (l₁ ++ m) w post) (hx : m ++ [w] = x :: l₂)
    (s : List UInt8) (n : Nat) (hfuel : l₁.length < fuel) :
    VarBuf.skipTo x.1 fuel b s n =
        .ok ({ b with pageRd := some x.1 }, s ++ contents l₁, n + (contents l₁).length) ∧
      Shape { b with pageRd := some x.1 } False (pre ++ l₁) m w post := by
  induction l₁ generalizing b pre s n fuel with
  | nil =>
      obtain ⟨fuel, rfl⟩ := Nat.exists_eq_add_one.2 hfuel
      have hrd := h.pageRd_eq hx
      have hsame : { b with pageRd := some x.1 } = b := by rw [← hrd]
      rw [hsame, List.append_nil]
      exact ⟨by simp [VarBuf.skipTo, hrd], h⟩
  | cons y l₁ ih =>
      obtain ⟨fuel, rfl⟩ := Nat.exists_eq_add_one.2 (Nat.zero_lt_of_lt hfuel)
      have hne : b.pageRd ≠ some x.1 := by
        have hnodup := h.nodup
        have hmem : x ∈ l₁ ++ (m ++ w :: post) := by
          rw [List.append_cons, hx]
          simp
        rw [List.map_append, List.cons_append, List.cons_append, List.append_assoc,
          List.nodup_append, List.map_cons, List.nodup_cons] at hnodup
        rw [h.rd_wr.1]
        intro heq
        refine hnodup.2.1.1 ?_
        rw [Option.some.inj heq]
        exact List.mem_map_of_mem hmem
      have hy : b.mem y.1 = some y.2 := h.rd_wr.2.1
      have hlen := (h.mid_full y (by simp)).1.length_bytes
      obtain ⟨hrun, hshape⟩ := ih (h.advanceRd False.elim) (s ++ y.2.bytes) (n + y.2.rdSize)
        (by simpa using hfuel)
      rw [List.append_assoc, List.singleton_append] at hshape
      refine ⟨?_, hshape⟩
      rw [VarBuf.skipTo, if_neg hne, h.rd_wr.1, deref_some hy]
      refine hrun.trans ?_
      rw [contents_cons, List.length_append, hlen, List.append_assoc, Nat.add_assoc]

theorem Shape.readByEndofDelimer_none (h : b.Shape False pre mid w post) (hd : d ≠ [])
    (hnul : 0 ∉ d) (hno : ∀ y ∈ mid ++ [w], ∀ k, ¬ Sees beyond d y k) (s : List UInt8) :
    b.readByEndofDelimer beyond d s = .ok (b, s, 0) := by
  have hfind : b.find beyond d = .ok none := by
    refine find_go_none hd hnul (h.rd_wr.append h.wr_end) (fun y hy => ?_) ?_
    · rw [List.append_cons] at hy
      rcases List.mem_append.mp hy with hy | hy
      · exact hno y hy
      · exact sees_untouched (h.post_untouched y hy)
    · have hle := h.length_le_fresh
      rw [List.length_append] at hle
      exact Nat.lt_succ_of_le (Nat.le_trans (Nat.le_add_left _ _) hle)
  rw [readByEndofDelimer, hfind]
  rfl

/-- The page `x` is the first in which the search finds `d`, at `k`. -/
theorem Shape.readByEndofDelimer_some (h : b.Shape False pre mid w post) (hd : d ≠ [])
    (hnul : 0 ∉ d) (hmid : mid ++ [w] = l₁ ++ x :: l₂)
    (hno : ∀ y ∈ l₁, ∀ k, ¬ Sees beyond d y k) (hx : Sees beyond d x k)
    (hfirst : ∀ j < k, ¬ Sees beyond d x j) (s : List UInt8) :
    ∃ (b₁ : VarBuf pageSize) (m : List (Cell pageSize)),
      b₁.Shape False (pre ++ l₁) m w post ∧ m ++ [w] = x :: l₂ ∧
        b.readByEndofDelimer beyond d s =
          .ok (b₁.setPage x.1 (x.2.consume (k + d.length)), s ++ contents l₁ ++ x.2.bytes.take k,
            (contents l₁).length + k) := by
  have hlen := h.length_le_fresh
  have hcount := congrArg List.length hmid
  simp only [List.length_append, List.length_cons, List.length_nil] at hlen hcount
  have hfuel : l₁.length < b.walkFuel := by
    rw [walkFuel]
    omega
  obtain ⟨m, rfl, hm⟩ : ∃ m, mid = l₁ ++ m ∧ m ++ [w] = x :: l₂ := by
    rcases List.append_eq_append_iff.mp hmid with ⟨m, hl₁, hlast⟩ | ⟨m, hl₁, hrest⟩
    · cases m with
      | nil => exact ⟨[], by simpa using hl₁.symm, by simpa using hlast⟩
      | cons y m => simp at hlast
    · exact ⟨m, hl₁, hrest.symm⟩
  have hfind : b.find beyond d = .ok (some x.1) := by
    have hl := h.rd_wr.append h.wr_end
    rw [List.append_cons, List.append_assoc l₁, hm, List.append_assoc] at hl
    exact find_go_some hd hnul hl hno hx hfirst hfuel
  obtain ⟨hskip, hshape⟩ := h.skipTo hm s 0 hfuel
  have hmem : b.mem x.1 = some x.2 := by
    refine h.chain.cell_eq (List.mem_append_right pre ?_)
    rw [List.append_cons, List.append_assoc l₁, hm]
    simp
  refine ⟨_, m, hshape, hm, ?_⟩
  have htake : x.2.rdBytes k = x.2.bytes.take k :=
    VbufPage.rdBytes_eq_take (Nat.le_of_lt hx.lt)
  have hderef : VarBuf.deref { b with pageRd := some x.1 } (some x.1) = .ok x := deref_some hmem
  simp only [VarBuf.readByEndofDelimer, hfind, hskip, Fallible.ok_bind, hderef,
    search_eq_some hd hnul hx hfirst, htake, Nat.zero_add]
  rfl

end

/-! ## Where the content is split -/

/-- The pages from the read to the write cursor, with their addresses. -/
def rdChain (b : VarBuf pageSize) : Except Fault (List (Cell pageSize)) := go b.walkFuel b.pageRd
where
  go : Nat → Option Addr → Except Fault (List (Cell pageSize))
    | 0, _ => .error .diverges
    | _ + 1, none => .ok []
    | fuel + 1, some page => do
      let x ← b.deref (some page)
      if some page = b.pageWr then return [x]
      else do
        let l ← go fuel x.2.next
        return x :: l

/-- The first occurrence of `d` in the bytes of the pages lies in one page, and behind no NUL
of this page; and no page before it has a match that the search sees and that goes on behind
the readable bytes. If there is no occurrence, no page has such a match. -/
def SearchSafe (beyond : Addr → Nat → UInt8) (d : List UInt8) (l : List (Cell pageSize)) : Prop :=
  ((∀ i, ¬ At d (contents l) i) ∧ ∀ x ∈ l, ¬ Overruns beyond d x) ∨
    ∃ l₁ x l₂ k, l = l₁ ++ x :: l₂ ∧ First d (contents l) ((contents l₁).length + k) ∧
      At d x.2.bytes k ∧ 0 ∉ x.2.bytes.take k ∧ ∀ y ∈ l₁, ¬ Overruns beyond d y

/-- Every page of the chain has its offsets in order. -/
def InOrder (b : VarBuf pageSize) : Prop :=
  ∃ l, Segment b.mem VbufPage.next b.pageList l none ∧
    ∀ x ∈ l, x.2.offsetRd ≤ x.2.offsetWr

/-- The call splits the content `w` at the first occurrence of `d`: the string `s` grows by
what is before it, and what is after it is left; if there is none, nothing changes. -/
def Splits (d s w : List UInt8)
    (call : Except Fault (VarBuf pageSize × List UInt8 × Nat)) : Prop :=
  ∃ b' s' ret v, call = .ok (b', s', ret) ∧ b'.ActsAs v ∧ b'.InOrder ∧
    ((∃ i, First d w i ∧ s' = s ++ w.take i ∧ ret = i ∧ v = w.drop (i + d.length)) ∨
      ((∀ i, ¬ At d w i) ∧ s' = s ∧ ret = 0 ∧ v = w))

section

variable {b : VarBuf pageSize} {beyond : Addr → Nat → UInt8} {d s v : List UInt8}
  {pre mid post l l₁ l₂ : List (Cell pageSize)} {w x : Cell pageSize} {p : Option Addr}
  {k n fuel : Nat}

theorem rdChain_go_eq (hl : Segment b.mem VbufPage.next p l (some w.1))
    (hwr : b.pageWr = some w.1) (hw : b.mem w.1 = some w.2) (hnew : w.1 ∉ l.map Prod.fst)
    (hfuel : l.length < fuel) : rdChain.go b fuel p = .ok (l ++ [w]) := by
  induction l generalizing p fuel with
  | nil =>
      obtain ⟨fuel, rfl⟩ := Nat.exists_eq_add_one.2 hfuel
      rw [segment_nil.1 hl]
      simp only [rdChain.go, deref_some hw, Fallible.ok_bind, hwr, if_true]
      rfl
  | cons y l ih =>
      obtain ⟨fuel, rfl⟩ := Nat.exists_eq_add_one.2 (Nat.zero_lt_of_lt hfuel)
      obtain ⟨rfl, hy, hl⟩ := hl
      rw [List.map_cons, List.mem_cons, not_or] at hnew
      have hne : some y.1 ≠ b.pageWr := by
        rw [hwr]
        exact fun heq => hnew.1 (Option.some.inj heq).symm
      simp only [rdChain.go, deref_some hy, Fallible.ok_bind, if_neg hne,
        ih hl hnew.2 (by simpa using hfuel)]
      rfl

theorem Shape.rdChain (h : b.Shape False pre mid w post) : b.rdChain = .ok (mid ++ [w]) := by
  have hlen := h.length_le_fresh
  have hnodup := h.nodup
  rw [← List.append_assoc] at hnodup
  have hnew := (notMem_of_nodup hnodup).1
  rw [List.map_append, List.mem_append, not_or] at hnew
  refine rdChain_go_eq (h.pageWr_eq ▸ h.rd_wr) h.pageWr_eq h.mem_wr hnew.2 ?_
  simp only [List.length_append, List.length_cons, walkFuel] at hlen ⊢
  omega

theorem Blank.rdChain (h : b.Blank) : b.rdChain = .ok [] := by
  simp [VarBuf.rdChain, walkFuel, rdChain.go, h.2.1]

theorem Shape.inOrder (h : b.Shape False pre mid w post) : b.InOrder := by
  refine ⟨_, h.chain, fun x hx => ?_⟩
  rcases List.mem_append.mp hx with hx | hx
  · exact (h.pre_ordered x hx).1
  · exact (h.ordered_from_rd x hx).1

theorem Represents.inOrder (h : b.Represents False v) : b.InOrder := by
  rcases h with ⟨⟨hlist, -, -⟩, -⟩ | ⟨pre, mid, w, post, hshape, -⟩
  · exact ⟨[], by rw [hlist]; rfl, nofun⟩
  · exact hshape.inOrder

/-- What stands in a page stands in the whole, behind the pages before it. -/
theorem at_page (hfit : k + d.length ≤ x.2.bytes.length) :
    At d (contents (l₁ ++ x :: l₂)) ((contents l₁).length + k) ↔ At d x.2.bytes k := by
  rw [contents_append, at_append_right, contents_cons, at_append_left hfit]

/-- Consuming bytes of the read page drops them. -/
theorem Shape.consumeRd (h : b.Shape False pre mid w post) (hx : mid ++ [w] = x :: l)
    (hn : n ≤ x.2.rdSize) :
    ∃ mid' w', (b.setPage x.1 (x.2.consume n)).Shape False pre mid' w' post ∧
      contents (mid' ++ [w']) = (contents (mid ++ [w])).drop n := by
  cases mid with
  | nil =>
      obtain ⟨rfl, -⟩ := List.cons.inj hx
      refine ⟨[], _, h.setWr (v := w.2.consume n) rfl (h.wr_ordered.consume hn), ?_⟩
      simp [h.wr_ordered.bytes_consume hn]
  | cons y mid =>
      obtain ⟨rfl, -⟩ := List.cons.inj hx
      have hy := (h.mid_full y (by simp)).1
      refine ⟨_, w, h.setRd (v := y.2.consume n) rfl ⟨hy.consume hn, False.elim⟩, ?_⟩
      have hbytes : n ≤ y.2.bytes.length := by rwa [hy.length_bytes]
      simp [hy.bytes_consume hn, List.drop_append_of_le_length hbytes]

/-- Consuming more bytes than a page has leaves its offsets out of order. -/
theorem Shape.consume_not_inOrder (h : b.Shape False pre mid w post)
    (hx : mid ++ [w] = l₁ ++ x :: l₂) (hn : x.2.rdSize < n) :
    ¬ (b.setPage x.1 (x.2.consume n)).InOrder := by
  rintro ⟨l, hl, hall⟩
  have hchain := h.chain
  rw [List.append_cons mid, hx, List.append_assoc, ← List.append_assoc pre,
    List.cons_append] at hchain
  have hreplaced := segment_replace (v := x.2.consume n) hchain rfl
  have horder := hall _ (hl.unique hreplaced ▸ List.mem_append_right _ List.mem_cons_self)
  have hordered : x.2.Ordered := h.ordered x (by rw [hx]; simp)
  have hrd := hordered.1
  rw [hordered.rdSize_eq] at hn
  simp only [VbufPage.consume] at horder
  omega

/-- A match that stays within the readable bytes stands there. -/
theorem Sees.within (h : Sees beyond d x k) (hx : x.2.Ordered) (hd : d ≠ [])
    (hover : ¬ Overruns beyond d x) :
    k + d.length ≤ x.2.bytes.length ∧ At d x.2.bytes k := by
  have hfit : k + d.length ≤ x.2.bytes.length := by
    rw [hx.length_bytes]
    exact Nat.le_of_not_lt fun hlt => hover ⟨k, h, hlt⟩
  exact ⟨hfit, ((sees_iff hx hd hfit).mp h).2⟩

/-- A safe search splits the content at the first occurrence. -/
theorem Shape.splits (h : b.Shape False pre mid w post) (hd : d ≠ []) (hnul : 0 ∉ d)
    (hsafe : SearchSafe beyond d (mid ++ [w])) (s : List UInt8) :
    ∃ b' s' ret v, b.readByEndofDelimer beyond d s = .ok (b', s', ret) ∧ b'.Represents False v ∧
      ((∃ i, First d (contents (mid ++ [w])) i ∧ s' = s ++ (contents (mid ++ [w])).take i ∧
          ret = i ∧ v = (contents (mid ++ [w])).drop (i + d.length)) ∨
        ((∀ i, ¬ At d (contents (mid ++ [w])) i) ∧ s' = s ∧ ret = 0 ∧
          v = contents (mid ++ [w]))) := by
  have hpos := List.length_pos_iff.mpr hd
  rcases hsafe with ⟨hnone, hover⟩ | ⟨l₁, x, l₂, k, hmid, hfirst, hat, hzero, hover⟩
  · have hno : ∀ y ∈ mid ++ [w], ∀ k, ¬ Sees beyond d y k := by
      intro y hy k hsees
      obtain ⟨hend, hstands⟩ := hsees.within (h.ordered y hy) hd (hover y hy)
      obtain ⟨u, v, hsplit⟩ := List.append_of_mem hy
      refine hnone ((contents u).length + k) ?_
      rw [hsplit]
      exact (at_page hend).mpr hstands
    exact ⟨b, s, 0, _, h.readByEndofDelimer_none hd hnul hno s, h.represents,
      .inr ⟨hnone, rfl, rfl, rfl⟩⟩
  · have hordered : ∀ y ∈ l₁ ++ x :: l₂, y.2.Ordered := hmid ▸ h.ordered
    have hx : x.2.Ordered := hordered x (by simp)
    have hfit := hat.add_length_le hd
    -- anything seen earlier would be an earlier occurrence
    have hno : ∀ y ∈ l₁, ∀ k', ¬ Sees beyond d y k' := by
      intro y hy k' hsees
      obtain ⟨hend, hstands⟩ :=
        hsees.within (hordered y (List.mem_append_left _ hy)) hd (hover y hy)
      obtain ⟨u, v, rfl⟩ := List.append_of_mem hy
      refine hfirst.2 ((contents u).length + k') ?_ ?_
      · rw [contents_append, contents_cons, List.length_append, List.length_append]
        omega
      · rw [hmid, List.append_assoc]
        exact (at_page hend).mpr hstands
    have hsees : Sees beyond d x k := (sees_iff hx hd hfit).mpr ⟨hzero, hat⟩
    have hleast : ∀ j < k, ¬ Sees beyond d x j := by
      intro j hj hearlier
      have hfit' : j + d.length ≤ x.2.bytes.length := by omega
      refine hfirst.2 ((contents l₁).length + j) (by omega) ?_
      rw [hmid]
      exact (at_page hfit').mpr ((sees_iff hx hd hfit').mp hearlier).2
    obtain ⟨b₁, m, hshape, hm, hrun⟩ :=
      h.readByEndofDelimer_some hd hnul hmid hno hsees hleast s
    obtain ⟨mid', w', hshape', hcontents⟩ :=
      hshape.consumeRd (n := k + d.length) hm (by rwa [← hx.length_bytes])
    refine ⟨_, _, _, _, hrun, hshape'.represents, .inl ⟨_, hfirst, ?_, rfl, ?_⟩⟩
    · rw [hmid, contents_append, List.take_length_add_append, contents_cons,
        List.take_append_of_le_length (by omega), List.append_assoc]
    · rw [hcontents, hm, hmid, contents_append l₁, Nat.add_assoc,
        List.drop_length_add_append]

/-- Where the content is split at the first occurrence, the search was safe. -/
theorem Shape.safe_of_splits (h : b.Shape False pre mid w post) (hd : d ≠ []) (hnul : 0 ∉ d)
    (hsplits : Splits d s (contents (mid ++ [w])) (b.readByEndofDelimer beyond d s)) :
    SearchSafe beyond d (mid ++ [w]) := by
  have hpos := List.length_pos_iff.mpr hd
  obtain ⟨b', s', ret, v, hcall, hacts, horder, hcase⟩ := hsplits
  by_cases hsees : ∃ y ∈ mid ++ [w], ∃ k, Sees beyond d y k
  · obtain ⟨l₁, x, l₂, hmid, ⟨k₀, hk₀⟩, hno⟩ := exists_first_mem hsees
    obtain ⟨k, hk, hleast⟩ := exists_first_sees hd hnul hk₀
    have hno : ∀ y ∈ l₁, ∀ k, ¬ Sees beyond d y k := fun y hy k hseen => hno y hy ⟨k, hseen⟩
    have hx : x.2.Ordered := h.ordered x (by rw [hmid]; simp)
    obtain ⟨b₁, m, hshape, hm, hrun⟩ := h.readByEndofDelimer_some hd hnul hmid hno hk hleast s
    rw [hcall] at hrun
    obtain ⟨rfl, hrest⟩ := Prod.mk.inj (Except.ok.inj hrun)
    obtain ⟨-, rfl⟩ := Prod.mk.inj hrest
    have hfit : k + d.length ≤ x.2.bytes.length := by
      rw [hx.length_bytes]
      refine Nat.le_of_not_lt fun hlt => ?_
      exact hshape.consume_not_inOrder (show _ = [] ++ _ from hm) hlt horder
    obtain ⟨hzero, hat⟩ := (sees_iff hx hd hfit).mp hk
    rcases hcase with ⟨i, hfirst, -, rfl, -⟩ | ⟨hnone, -⟩
    · exact .inr ⟨l₁, x, l₂, k, hmid, hfirst, hat, hzero,
        fun y hy ⟨k', hover, _⟩ => hno y hy k' hover⟩
    · refine absurd ?_ (hnone ((contents l₁).length + k))
      rw [hmid]
      exact (at_page hfit).mpr hat
  · have hno : ∀ y ∈ mid ++ [w], ∀ k, ¬ Sees beyond d y k :=
      fun y hy k hseen => hsees ⟨y, hy, k, hseen⟩
    rw [h.readByEndofDelimer_none hd hnul hno s] at hcall
    obtain ⟨rfl, -⟩ := Prod.mk.inj (Except.ok.inj hcall)
    rcases hcase with ⟨i, hfirst, -, -, rfl⟩ | ⟨hnone, -⟩
    · -- the content did not change, but should have lost the occurrence
      have hsame := hacts.toString
      rw [h.represents.toString] at hsame
      have hlength := congrArg List.length (Except.ok.inj hsame)
      have hle := hfirst.1.add_length_le hd
      rw [List.length_drop] at hlength
      omega
    · exact .inl ⟨hnone, fun y hy ⟨k, hover, _⟩ => hno y hy k hover⟩

end

/-! ## Runs with delimiter reads -/

/-- The search for `d` is safe in the pages between the cursors. -/
def Searchable (b : VarBuf pageSize) (beyond : Addr → Nat → UInt8) (d : List UInt8) : Prop :=
  ∃ l, b.rdChain = .ok l ∧ SearchSafe beyond d l

/-- The buffers that calls and safe delimiter reads on a new buffer lead to. -/
inductive Reachable (raw : Addr → Nat → UInt8) : VarBuf pageSize → Prop
  | new : Reachable raw (new raw)
  | call {b b' : VarBuf pageSize} {op : Op} {r : Result} (h : Reachable raw b)
      (hexec : b.exec op = .ok (b', r)) : Reachable raw b'
  | delimiter {b b' : VarBuf pageSize} {beyond : Addr → Nat → UInt8} {d s s' : List UInt8}
      {ret : Nat} (h : Reachable raw b) (hd : d ≠ []) (hnul : 0 ∉ d)
      (hsafe : b.Searchable beyond d)
      (hread : b.readByEndofDelimer beyond d s = .ok (b', s', ret)) : Reachable raw b'

section

variable {b : VarBuf pageSize} {beyond : Addr → Nat → UInt8} {d v : List UInt8}

theorem Blank.readByEndofDelimer (h : b.Blank) (beyond : Addr → Nat → UInt8) (d s : List UInt8) :
    b.readByEndofDelimer beyond d s = .ok (b, s, 0) := by
  simp [VarBuf.readByEndofDelimer, find, walkFuel, find.go, h.2.1]

theorem not_at_nil (hd : d ≠ []) (i : Nat) : ¬ At d ([] : List UInt8) i := by
  intro h
  have hle := h.add_length_le hd
  have hpos := List.length_pos_iff.mpr hd
  rw [List.length_nil] at hle
  omega

theorem Represents.splits_iff (hsize : 0 < pageSize) (h : b.Represents False v) (hd : d ≠ [])
    (hnul : 0 ∉ d) (s : List UInt8) :
    Splits d s v (b.readByEndofDelimer beyond d s) ↔ b.Searchable beyond d := by
  have hrep := h
  rcases h with ⟨hblank, rfl⟩ | ⟨pre, mid, w, post, hshape, rfl⟩
  · constructor
    · exact fun _ => ⟨[], hblank.rdChain, .inl ⟨not_at_nil hd, nofun⟩⟩
    · exact fun _ => ⟨b, s, 0, [], hblank.readByEndofDelimer beyond d s, hrep.actsAs hsize,
        hrep.inOrder, .inr ⟨not_at_nil hd, rfl, rfl, rfl⟩⟩
  · constructor
    · exact fun hsplits => ⟨_, hshape.rdChain, hshape.safe_of_splits hd hnul hsplits⟩
    · rintro ⟨l, hl, hsafe⟩
      rw [hshape.rdChain] at hl
      obtain ⟨b', s', ret, v, hrun, hrep', hcase⟩ :=
        hshape.splits hd hnul (Except.ok.inj hl ▸ hsafe) s
      exact ⟨b', s', ret, v, hrun, hrep'.actsAs hsize, hrep'.inOrder, hcase⟩

theorem Reachable.represents (hsize : 0 < pageSize) {raw : Addr → Nat → UInt8}
    (h : Reachable raw b) : ∃ v, b.Represents False v := by
  induction h with
  | new => exact ⟨[], represents_new raw⟩
  | @call b b' op r _ hexec ih =>
      obtain ⟨v, hv⟩ := ih
      obtain ⟨b'', hexec', hrep⟩ := hv.exec hsize op
      rw [hexec] at hexec'
      obtain ⟨rfl, -⟩ := Prod.mk.inj (Except.ok.inj hexec')
      exact ⟨_, hrep⟩
  | @delimiter b b' beyond d s s' ret _ hd hnul hsafe hread ih =>
      obtain ⟨v, hv⟩ := ih
      have hrep := hv
      rcases hv with ⟨hblank, rfl⟩ | ⟨pre, mid, w, post, hshape, rfl⟩
      · rw [hblank.readByEndofDelimer] at hread
        obtain ⟨rfl, -⟩ := Prod.mk.inj (Except.ok.inj hread)
        exact ⟨[], hrep⟩
      · obtain ⟨l, hl, hsafe⟩ := hsafe
        rw [hshape.rdChain] at hl
        obtain ⟨b'', _, _, v, hrun, hrep', -⟩ :=
          hshape.splits hd hnul (Except.ok.inj hl ▸ hsafe) s
        rw [hread] at hrun
        obtain ⟨rfl, -⟩ := Prod.mk.inj (Except.ok.inj hrun)
        exact ⟨v, hrep'⟩

/-- In a buffer that safe delimiter reads and other calls led to, a delimiter read splits the
content at the first occurrence exactly if its search is safe. -/
theorem delimiter_splits_iff (hsize : 0 < pageSize) {raw : Addr → Nat → UInt8}
    (h : Reachable raw b) (beyond : Addr → Nat → UInt8) (hd : d ≠ []) (hnul : 0 ∉ d)
    (s : List UInt8) :
    ∃ w, b.toString = .ok w ∧
      (Splits d s w (b.readByEndofDelimer beyond d s) ↔ b.Searchable beyond d) := by
  obtain ⟨w, hrep⟩ := h.represents hsize
  exact ⟨w, hrep.toString, hrep.splits_iff hsize hd hnul s⟩

end

/-- A line of one byte, with one byte after its end. -/
theorem delimiter_splits_line : ∃ b : VarBuf 4,
    (new fun _ _ => 7).exec (.write [97, 10, 98]) = .ok (b, .wrote 3) ∧
      Splits [10] [] [97, 10, 98] (b.readByLine (fun _ _ => 0) []) := by
  have hexec : (new fun _ _ => 7 : VarBuf 4).exec (.write [97, 10, 98]) = .ok (_, .wrote 3) := rfl
  have hd : ([10] : List UInt8) ≠ [] := by decide
  have hnul : (0 : UInt8) ∉ ([10] : List UInt8) := by decide
  obtain ⟨w, hw, hiff⟩ := delimiter_splits_iff (by decide : 0 < 4) (.call .new hexec)
    (fun _ _ => 0) hd hnul []
  obtain rfl : [97, 10, 98] = w := Except.ok.inj hw
  refine ⟨_, hexec, hiff.mpr ⟨_, rfl, .inr ⟨[], _, [], 1, rfl, ?_, ?_, ?_, nofun⟩⟩⟩
  · exact ⟨by decide, by decide⟩
  · decide
  · decide

/-- Two-byte pages: a delimiter that begins in one page and ends in the next is not found. -/
theorem delimiter_straddles : ∃ b : VarBuf 2,
    (new fun _ _ => 7).exec (.write [97, 13, 10, 98]) = .ok (b, .wrote 4) ∧
      b.toString = .ok [97, 13, 10, 98] ∧ First [13, 10] [97, 13, 10, 98] 1 ∧
        b.readByEndofDelimer (fun _ _ => 0) [13, 10] [] = .ok (b, [], 0) :=
  ⟨_, rfl, rfl, ⟨by decide, by decide⟩, rfl⟩

end VarBuf

end BoostCoro.Buffer
