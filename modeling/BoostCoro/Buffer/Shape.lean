import BoostCoro.Buffer.VarBuf
import BoostCoro.Lib.Segment
/-!
# The shape of a buffer

The representation invariant of `var_buf_t`. The chain from `_page_list` falls
into the pages already read, the pages between the read and the write cursor,
the write page, and the pages after it. The bytes the buffer holds are the
readable bytes of the second and third part.
-/

namespace BoostCoro.Buffer

open Linked

namespace VarBuf

variable {pageSize : Nat} {full : Prop}

/-- A page with its address. -/
abbrev Cell (pageSize : Nat) := Addr × VbufPage pageSize

/-- The readable bytes of a run of pages. -/
def contents (l : List (Cell pageSize)) : List UInt8 := l.flatMap fun x => x.2.bytes

/-- The chain splits at the cursors into the pages before the read cursor, those
between the cursors, the write page and untouched pages. `full` says that the
cursors leave a page at its end only, as in `write` and `read`. -/
structure Shape (b : VarBuf pageSize) (full : Prop) (pre mid : List (Cell pageSize))
    (w : Cell pageSize) (post : List (Cell pageSize)) : Prop where
  list_rd : Segment b.mem VbufPage.next b.pageList pre b.pageRd
  rd_wr : Segment b.mem VbufPage.next b.pageRd mid b.pageWr
  wr_end : Segment b.mem VbufPage.next b.pageWr (w :: post) none
  pre_ordered : ∀ x ∈ pre, x.2.Ordered
  pre_used : full → ∀ x ∈ pre, x.2.offsetRd = pageSize ∧ x.2.offsetWr = pageSize
  mid_full : ∀ x ∈ mid, x.2.Ordered ∧ (full → x.2.offsetWr = pageSize)
  wr_ordered : w.2.Ordered
  post_untouched : ∀ x ∈ post, x.2.Untouched
  lt_fresh : ∀ x ∈ pre ++ (mid ++ w :: post), x.1 < b.fresh

/-- No page at all: a new buffer, or one that was cleared. -/
def Blank (b : VarBuf pageSize) : Prop :=
  b.pageList = none ∧ b.pageRd = none ∧ b.pageWr = none

/-- The buffer is well formed and holds the bytes `s`. -/
def Represents (b : VarBuf pageSize) (full : Prop) (s : List UInt8) : Prop :=
  (b.Blank ∧ s = []) ∨ ∃ pre mid w post, b.Shape full pre mid w post ∧ s = contents (mid ++ [w])

@[simp] theorem contents_nil : contents ([] : List (Cell pageSize)) = [] := rfl

@[simp] theorem contents_cons (x : Cell pageSize) (l : List (Cell pageSize)) :
    contents (x :: l) = x.2.bytes ++ contents l := rfl

@[simp] theorem contents_append (l l' : List (Cell pageSize)) :
    contents (l ++ l') = contents l ++ contents l' := List.flatMap_append

theorem contents_untouched {l : List (Cell pageSize)} (h : ∀ x ∈ l, x.2.Untouched) :
    contents l = [] := by
  rw [contents, List.flatMap_eq_nil_iff]
  exact fun x hx => (h x hx).bytes

namespace Shape

variable {b : VarBuf pageSize} {pre mid post : List (Cell pageSize)} {w : Cell pageSize}

/-- The cells of the whole chain. -/
theorem chain (h : b.Shape full pre mid w post) :
    Segment b.mem VbufPage.next b.pageList (pre ++ (mid ++ w :: post)) none :=
  h.list_rd.append (h.rd_wr.append h.wr_end)

theorem nodup (h : b.Shape full pre mid w post) :
    ((pre ++ (mid ++ w :: post)).map Prod.fst).Nodup := h.chain.nodup

theorem pageWr_eq (h : b.Shape full pre mid w post) : b.pageWr = some w.1 := h.wr_end.1

theorem mem_wr (h : b.Shape full pre mid w post) : b.mem w.1 = some w.2 := h.wr_end.2.1

theorem next_wr (h : b.Shape full pre mid w post) :
    Segment b.mem VbufPage.next w.2.next post none := h.wr_end.2.2

theorem pageRd_ne_none (h : b.Shape full pre mid w post) : b.pageRd ≠ none := by
  cases mid with
  | nil =>
      rw [segment_nil.1 h.rd_wr, h.pageWr_eq]
      simp
  | cons x mid =>
      rw [h.rd_wr.1]
      simp

theorem length_le_fresh (h : b.Shape full pre mid w post) :
    (pre ++ (mid ++ w :: post)).length ≤ b.fresh := by
  have hlt : ∀ a ∈ (pre ++ (mid ++ w :: post)).map Prod.fst, a < b.fresh := by
    intro a ha
    obtain ⟨x, hx, rfl⟩ := List.mem_map.1 ha
    exact h.lt_fresh x hx
  simpa using length_le_of_nodup_lt h.nodup hlt

theorem post_lt_walkFuel (h : b.Shape full pre mid w post) : post.length + 1 < b.walkFuel := by
  have hlen := h.length_le_fresh
  simp only [List.length_append, List.length_cons] at hlen
  simp only [walkFuel]
  omega

theorem ordered (h : b.Shape full pre mid w post) : ∀ x ∈ mid ++ [w], x.2.Ordered := by
  intro x hx
  rcases List.mem_append.1 hx with hx | hx
  · exact (h.mid_full x hx).1
  · rw [List.mem_singleton.1 hx]
    exact h.wr_ordered

/-! The pages from the read cursor to the end of the chain. -/

theorem ordered_from_rd (h : b.Shape full pre mid w post) :
    ∀ x ∈ mid ++ w :: post, x.2.Ordered := by
  intro x hx
  rw [List.append_cons] at hx
  rcases List.mem_append.1 hx with hx | hx
  · exact h.ordered x hx
  · exact (h.post_untouched x hx).ordered

theorem length_from_rd (h : b.Shape full pre mid w post) :
    (mid ++ w :: post).length < b.walkFuel := by
  have hlen := h.length_le_fresh
  rw [List.length_append] at hlen
  exact Nat.lt_succ_of_le (Nat.le_trans (Nat.le_add_left _ _) hlen)

theorem contents_from_rd (h : b.Shape full pre mid w post) :
    contents (mid ++ w :: post) = contents (mid ++ [w]) := by
  rw [List.append_cons, contents_append, contents_untouched h.post_untouched, List.append_nil]

/-- The same without what only `write` and `read` keep. -/
theorem loose (h : b.Shape full pre mid w post) : b.Shape False pre mid w post :=
  { h with
    pre_used := False.elim
    mid_full := fun x hx => ⟨(h.mid_full x hx).1, False.elim⟩ }

theorem represents (h : b.Shape full pre mid w post) : b.Represents full (contents (mid ++ [w])) :=
  Or.inr ⟨pre, mid, w, post, h, rfl⟩

end Shape

/-! ## Walks -/

theorem deref_some {b : VarBuf pageSize} {x : Cell pageSize} (h : b.mem x.1 = some x.2) :
    b.deref (some x.1) = .ok x := by
  simp [deref, h]

theorem foldToEnd_eq {σ : Type} (b : VarBuf pageSize) (f : σ → VbufPage pageSize → σ)
    {l : List (Cell pageSize)} {p : Option Addr} {fuel : Nat} (acc : σ)
    (hl : Segment b.mem VbufPage.next p l none) (hfuel : l.length < fuel) :
    b.foldToEnd f fuel p acc = .ok (l.foldl (fun acc x => f acc x.2) acc) := by
  induction l generalizing p fuel acc with
  | nil =>
      obtain ⟨fuel, rfl⟩ := Nat.exists_eq_add_one.2 hfuel
      rw [segment_nil.1 hl]
      rfl
  | cons x l ih =>
      obtain ⟨fuel, rfl⟩ := Nat.exists_eq_add_one.2 (Nat.zero_lt_of_lt hfuel)
      obtain ⟨rfl, hx, hl⟩ := hl
      simp only [foldToEnd, deref_some hx, List.foldl_cons]
      exact ih (f acc x.2) hl (by simpa using hfuel)

theorem foldToWr_eq {σ : Type} (b : VarBuf pageSize) (f : σ → VbufPage pageSize → σ)
    (nullStops guarded : Bool) {l : List (Cell pageSize)} {w : Cell pageSize} {p : Option Addr}
    {fuel : Nat} (acc : σ) (hl : Segment b.mem VbufPage.next p l (some w.1))
    (hwr : b.pageWr = some w.1) (hw : b.mem w.1 = some w.2) (hnew : w.1 ∉ l.map Prod.fst)
    (hfuel : l.length < fuel) :
    b.foldToWr f nullStops guarded fuel p acc =
      .ok ((l ++ [w]).foldl (fun acc x => f acc x.2) acc) := by
  induction l generalizing p fuel acc with
  | nil =>
      obtain ⟨fuel, rfl⟩ := Nat.exists_eq_add_one.2 hfuel
      rw [segment_nil.1 hl]
      simp only [foldToWr, hwr, deref_some hw]
      simp
  | cons x l ih =>
      obtain ⟨fuel, rfl⟩ := Nat.exists_eq_add_one.2 (Nat.zero_lt_of_lt hfuel)
      obtain ⟨rfl, hx, hl⟩ := hl
      simp only [List.map_cons, List.mem_cons, not_or] at hnew
      have hne : ¬(some x.1 = b.pageWr ∨ nullStops = true ∧ some x.1 = none) := by
        simp [hwr, Ne.symm hnew.1]
      simp only [foldToWr, if_neg hne, deref_some hx, List.cons_append, List.foldl_cons]
      exact ih (f acc x.2) hl hnew.2 (by simpa using hfuel)

/-- A walk from the read cursor to the write page meets the pages between. -/
theorem Shape.foldToWr_eq {σ : Type} {b : VarBuf pageSize} {pre mid post : List (Cell pageSize)}
    {w : Cell pageSize} (h : b.Shape full pre mid w post) (f : σ → VbufPage pageSize → σ)
    (nullStops guarded : Bool) (acc : σ) :
    b.foldToWr f nullStops guarded b.walkFuel b.pageRd acc =
      .ok ((mid ++ [w]).foldl (fun acc x => f acc x.2) acc) := by
  have hlen := h.length_le_fresh
  have hnodup := h.nodup
  rw [List.map_append, List.nodup_append] at hnodup
  have hmid := hnodup.2.1
  rw [List.map_append, List.nodup_append] at hmid
  refine VarBuf.foldToWr_eq b f nullStops guarded acc (h.pageWr_eq ▸ h.rd_wr) h.pageWr_eq
    h.mem_wr (fun hw => hmid.2.2 w.1 hw w.1 (by simp) rfl) ?_
  simp only [List.length_append, List.length_cons, walkFuel] at hlen ⊢
  omega

/-- A walk from the write page to the end of the chain. -/
theorem Shape.foldToEnd_eq {σ : Type} {b : VarBuf pageSize} {pre mid post : List (Cell pageSize)}
    {w : Cell pageSize} (h : b.Shape full pre mid w post) (f : σ → VbufPage pageSize → σ)
    (acc : σ) :
    b.foldToEnd f b.walkFuel b.pageWr acc =
      .ok ((w :: post).foldl (fun acc x => f acc x.2) acc) := by
  have hlen := h.length_le_fresh
  refine VarBuf.foldToEnd_eq b f acc h.wr_end ?_
  simp only [List.length_append, List.length_cons, walkFuel] at hlen ⊢
  omega

end VarBuf

end BoostCoro.Buffer
