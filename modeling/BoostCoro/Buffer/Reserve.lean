import BoostCoro.Buffer.Release
/-!
# Reserving space

`reserve` links fresh pages after the last one until the pages from the write
cursor on have room for the request. The pages it touches keep their bytes, so
the contents stay.
-/

namespace BoostCoro.Buffer

open Linked

namespace VarBuf

variable {pageSize : Nat} {full : Prop}

/-- Room in the write page and the pages after it. -/
def room (l : List (Cell pageSize)) : Nat := (l.map fun x => x.2.wrSize).sum

@[simp] theorem room_nil : room ([] : List (Cell pageSize)) = 0 := rfl

@[simp] theorem room_cons (x : Cell pageSize) (l : List (Cell pageSize)) :
    room (x :: l) = x.2.wrSize + room l := by
  simp [room]

theorem room_append (l l' : List (Cell pageSize)) : room (l ++ l') = room l + room l' := by
  simp [room]

theorem foldl_wrSize (l : List (Cell pageSize)) (sz : Nat) :
    l.foldl (fun sz x => sz + x.2.wrSize) sz = sz + room l := by
  induction l generalizing sz with
  | nil => rfl
  | cons x l ih =>
      rw [List.foldl_cons, ih, room_cons]
      omega

theorem Shape.wrSize {b : VarBuf pageSize} {pre mid post : List (Cell pageSize)}
    {w : Cell pageSize} (h : b.Shape full pre mid w post) : b.wrSize = .ok (room (w :: post)) := by
  rw [VarBuf.wrSize, h.foldToEnd_eq, foldl_wrSize, Nat.zero_add]

theorem Blank.wrSize {b : VarBuf pageSize} (h : b.Blank) : b.wrSize = .ok 0 := by
  simp [VarBuf.wrSize, walkFuel, foldToEnd, h.2.2]

/-! ## The last page -/

theorem pageTail_go_eq {b : VarBuf pageSize} {l : List (Cell pageSize)} {t : Cell pageSize}
    {p : Option Addr} {fuel : Nat} (hl : Segment b.mem VbufPage.next p (l ++ [t]) none)
    (hfuel : l.length + 1 < fuel) : pageTail.go b fuel p = .ok (some t.1) := by
  induction l generalizing p fuel with
  | nil =>
      obtain ⟨fuel, rfl⟩ := Nat.exists_eq_add_one.2 (Nat.zero_lt_of_lt hfuel)
      obtain ⟨rfl, ht, hnext⟩ := hl
      simp only [pageTail.go, deref_some ht]
      exact if_pos hnext
  | cons x l ih =>
      obtain ⟨fuel, rfl⟩ := Nat.exists_eq_add_one.2 (Nat.zero_lt_of_lt hfuel)
      rw [List.cons_append] at hl
      obtain ⟨rfl, hx, hl⟩ := hl
      have hnext : x.2.next ≠ none := by
        cases l with
        | nil =>
            rw [hl.1]
            simp
        | cons y l =>
            rw [hl.1]
            simp
      simp only [pageTail.go, deref_some hx]
      exact (if_neg hnext).trans (ih hl (by simpa using hfuel))

theorem Shape.pageTail {b : VarBuf pageSize} {pre mid post l : List (Cell pageSize)}
    {w t : Cell pageSize} (h : b.Shape full pre mid w post) (hlast : w :: post = l ++ [t]) :
    b.pageTail = .ok (some t.1) := by
  have hlen := h.length_le_fresh
  have hcount := congrArg List.length hlast
  refine pageTail_go_eq (l := l) (hlast ▸ h.wr_end) ?_
  simp only [List.length_append, List.length_cons, List.length_nil, walkFuel] at hlen hcount ⊢
  omega

/-! ## One more page -/

/-- Linking a fresh page after the last page `t`. -/
def grow (b : VarBuf pageSize) (t : Cell pageSize) : VarBuf pageSize :=
  b.construct.1.setPage t.1 (t.2.setNext (some b.fresh))

/-- The cell of the page that `construct` makes next. -/
def freshCell (b : VarBuf pageSize) : Cell pageSize :=
  (b.fresh, VbufPage.construct pageSize (b.raw b.fresh))

/-- The cell `t` with its link set to the fresh page. -/
def linkFresh (b : VarBuf pageSize) (t : Cell pageSize) : Cell pageSize :=
  (t.1, t.2.setNext (some b.fresh))

theorem segment_grow {b : VarBuf pageSize} {l : List (Cell pageSize)} {t : Cell pageSize}
    {p q : Option Addr} (hl : Segment b.mem VbufPage.next p l q)
    (hlt : ∀ x ∈ l, x.1 < b.fresh) (ht : t.1 ∉ l.map Prod.fst) :
    Segment (b.grow t).mem VbufPage.next p l q := by
  refine (hl.update_of_notMem (a := b.fresh) fun hmem => ?_).update_of_notMem ht
  obtain ⟨x, hx, hxa⟩ := List.mem_map.1 hmem
  exact Nat.lt_irrefl _ (hxa ▸ hlt x hx)

/-- The last page, relinked, followed by the fresh one. -/
theorem segment_grow_last {b : VarBuf pageSize} {t : Cell pageSize} (hlt : t.1 < b.fresh) :
    Segment (b.grow t).mem VbufPage.next (some t.1) [b.linkFresh t, b.freshCell] none := by
  refine ⟨rfl, Function.update_self _ _ _, rfl, ?_, rfl⟩
  have hne : b.fresh ≠ t.1 := Nat.ne_of_gt hlt
  exact (Function.update_of_ne hne _ _).trans (Function.update_self _ _ _)

theorem room_grow (b : VarBuf pageSize) (l : List (Cell pageSize)) (t : Cell pageSize) :
    room ((l ++ [b.linkFresh t]) ++ [b.freshCell]) = room (l ++ [t]) + pageSize := by
  have hfresh : b.freshCell.2.wrSize = pageSize :=
    (VbufPage.untouched_construct pageSize (b.raw b.fresh)).wrSize_eq
  have hlink : (b.linkFresh t).2.wrSize = t.2.wrSize := rfl
  simp only [room_append, room_cons, room_nil, hfresh, hlink]
  omega

theorem grow_lt_fresh {b : VarBuf pageSize} {l : List (Cell pageSize)} {t : Cell pageSize}
    (hlt : ∀ x ∈ l ++ [t], x.1 < b.fresh) :
    ∀ x ∈ (l ++ [b.linkFresh t]) ++ [b.freshCell], x.1 < (b.grow t).fresh := by
  intro x hx
  show x.1 < b.fresh + 1
  simp only [List.mem_append, List.mem_singleton] at hx
  rcases hx with (hx | rfl) | rfl
  · exact Nat.lt_succ_of_lt (hlt x (List.mem_append_left _ hx))
  · exact Nat.lt_succ_of_lt (hlt t (by simp))
  · exact Nat.lt_succ_self _

theorem Shape.grow {b : VarBuf pageSize} {pre mid post l : List (Cell pageSize)}
    {w t : Cell pageSize} (h : b.Shape full pre mid w post) (hlast : w :: post = l ++ [t]) :
    ∃ w' post', (b.grow t).Shape full pre mid w' post' ∧ w'.2.bytes = w.2.bytes ∧
      w' :: post' = (l ++ [b.linkFresh t]) ++ [b.freshCell] ∧
      room (w' :: post') = room (w :: post) + pageSize := by
  have hlt := h.lt_fresh
  have hnodup := h.nodup
  rw [hlast] at hlt hnodup
  have ht : t.1 < b.fresh := hlt t (by simp)
  have hwr := h.wr_end
  rw [hlast, segment_append] at hwr
  obtain ⟨r, hl, hr⟩ := hwr
  -- the address of the last page occurs nowhere else in the chain
  have hfirst : t.1 ∉ (pre ++ mid ++ l).map Prod.fst := by
    intro hmem
    have hsplit : (pre ++ (mid ++ (l ++ [t]))).map Prod.fst =
        (pre ++ mid ++ l).map Prod.fst ++ [t.1] := by simp
    rw [hsplit, List.nodup_append] at hnodup
    exact hnodup.2.2 t.1 hmem t.1 (by simp) rfl
  simp only [List.map_append, List.mem_append, not_or] at hfirst
  have hend : Segment (b.grow t).mem VbufPage.next b.pageWr
      ((l ++ [b.linkFresh t]) ++ [b.freshCell]) none := by
    rw [List.append_assoc]
    refine (segment_grow hl (fun x hx => hlt x (by simp [hx])) hfirst.2).append ?_
    rw [hr.1]
    exact segment_grow_last ht
  have hroom : room ((l ++ [b.linkFresh t]) ++ [b.freshCell]) = room (w :: post) + pageSize := by
    rw [hlast, room_grow]
  have hpre := segment_grow h.list_rd (fun x hx => hlt x (by simp [hx])) hfirst.1.1
  have hmid := segment_grow h.rd_wr (fun x hx => hlt x (by simp [hx])) hfirst.1.2
  have hfreshCell : b.freshCell.2.Untouched := VbufPage.untouched_construct _ _
  have hlt' : ∀ x ∈ pre ++ (mid ++ ((l ++ [b.linkFresh t]) ++ [b.freshCell])),
      x.1 < (b.grow t).fresh := by
    simp only [← List.append_assoc] at hlt ⊢
    exact grow_lt_fresh hlt
  cases l with
  | nil =>
      obtain ⟨rfl, rfl⟩ : w = t ∧ post = [] := by simpa using hlast
      exact ⟨b.linkFresh w, [b.freshCell],
        { list_rd := hpre
          rd_wr := hmid
          wr_end := hend
          pre_ordered := h.pre_ordered
          pre_used := h.pre_used
          mid_full := h.mid_full
          wr_ordered := h.wr_ordered
          post_untouched := by simpa using hfreshCell
          lt_fresh := hlt' }, rfl, rfl, hroom⟩
  | cons y l =>
      obtain ⟨rfl, rfl⟩ : w = y ∧ post = l ++ [t] := by simpa using hlast
      refine ⟨w, (l ++ [b.linkFresh t]) ++ [b.freshCell],
        { list_rd := hpre
          rd_wr := hmid
          wr_end := hend
          pre_ordered := h.pre_ordered
          pre_used := h.pre_used
          mid_full := h.mid_full
          wr_ordered := h.wr_ordered
          post_untouched := ?_
          lt_fresh := hlt' }, rfl, rfl, hroom⟩
      intro x hx
      simp only [List.mem_append, List.mem_singleton] at hx
      rcases hx with (hx | rfl) | rfl
      · exact h.post_untouched x (by simp [hx])
      · exact h.post_untouched t (by simp)
      · exact hfreshCell

/-! ## The loop of `reserve` -/

theorem Shape.extend {sz fuel : Nat} {b : VarBuf pageSize} {pre mid post l : List (Cell pageSize)}
    {w t : Cell pageSize} (hsize : 0 < pageSize) (h : b.Shape full pre mid w post)
    (hlast : w :: post = l ++ [t]) (hfuel : sz ≤ room (w :: post) + fuel) :
    ∃ b' w' post', VarBuf.extend sz fuel b (room (w :: post)) (some t.1) = .ok b' ∧
      b'.Shape full pre mid w' post' ∧ w'.2.bytes = w.2.bytes ∧ sz ≤ room (w' :: post') := by
  induction fuel generalizing b w post l t with
  | zero =>
      refine ⟨b, w, post, ?_, h, rfl, hfuel⟩
      rw [VarBuf.extend, if_neg (by omega)]
  | succ fuel ih =>
      by_cases hlt : room (w :: post) < sz
      · have ht : b.construct.1.mem t.1 = some t.2 := by
          have hmem : t ∈ w :: post := by simp [hlast]
          have hne : t.1 ≠ b.fresh :=
            Nat.ne_of_lt (h.lt_fresh t (List.mem_append_right _ (List.mem_append_right _ hmem)))
          exact (Function.update_of_ne hne _ _).trans (h.wr_end.cell_eq hmem)
        obtain ⟨w', post', hshape, hbytes, hlast', hroom⟩ := h.grow hlast
        obtain ⟨b'', w'', post'', hrun, hshape', hbytes', hsz⟩ :=
          ih hshape hlast' (by omega)
        refine ⟨b'', w'', post'', ?_, hshape', hbytes'.trans hbytes, hsz⟩
        rw [hroom] at hrun
        rw [VarBuf.extend, if_pos hlt]
        simp only [deref_some ht]
        exact hrun
      · refine ⟨b, w, post, ?_, h, rfl, by omega⟩
        rw [VarBuf.extend, if_neg hlt]

/-- After `shrink` a buffer with pages goes on to the loop of `reserve`. -/
theorem Shape.reserve_eq {b b₁ : VarBuf pageSize} {pre mid post l : List (Cell pageSize)}
    {w t : Cell pageSize} (hshrink : b.shrink = .ok b₁) (h₁ : b₁.Shape full pre mid w post)
    (hlast : w :: post = l ++ [t]) (sz : Nat) :
    b.reserve sz = VarBuf.extend sz sz b₁ (room (w :: post)) (some t.1) := by
  have hwr : b₁.pageWr ≠ none := by
    rw [h₁.pageWr_eq]
    simp
  have hkeep : ¬(b₁.pageWr = none ∨ (b₁.pageRd = none ∧ b₁.pageList = none)) := by
    simp [hwr, h₁.pageRd_ne_none]
  simp only [VarBuf.reserve, hshrink, Fallible.ok_bind, if_neg hkeep, if_neg hwr, h₁.wrSize,
    h₁.pageTail hlast]

/-- From the state after `shrink` on, `reserve` only adds pages. -/
theorem Shape.reserve {b : VarBuf pageSize} {pre mid post : List (Cell pageSize)}
    {w : Cell pageSize} (hsize : 0 < pageSize) (h : b.Shape full pre mid w post) (sz : Nat) :
    ∃ b' w' post', b.reserve sz = .ok b' ∧ b'.Shape full [] mid w' post' ∧
      w'.2.bytes = w.2.bytes ∧ sz ≤ room (w' :: post') := by
  obtain ⟨b₁, hshrink, h₁⟩ := h.shrink
  obtain ⟨l, t, hlast⟩ := (List.eq_nil_or_concat' (w :: post)).resolve_left (by simp)
  obtain ⟨b₂, w₂, post₂, hextend, h₂, hbytes, hsz⟩ :=
    h₁.extend hsize hlast (Nat.le_add_left sz _)
  exact ⟨b₂, w₂, post₂, (h₁.reserve_eq hshrink hlast sz).trans hextend, h₂, hbytes, hsz⟩

/-- The buffer after `reserve` has constructed a first page. -/
def firstPage (b : VarBuf pageSize) : VarBuf pageSize :=
  { b.construct.1 with pageList := some b.fresh, pageWr := some b.fresh, pageRd := some b.fresh }

theorem shape_firstPage (b : VarBuf pageSize) : b.firstPage.Shape full [] [] b.freshCell [] where
  list_rd := rfl
  rd_wr := rfl
  wr_end := ⟨rfl, Function.update_self _ _ _, rfl⟩
  pre_ordered := by simp
  pre_used := by simp
  mid_full := by simp
  wr_ordered := (VbufPage.untouched_construct _ _).ordered
  post_untouched := by simp
  lt_fresh := by
    intro x hx
    obtain rfl : x = b.freshCell := by simpa using hx
    exact Nat.lt_succ_self _

/-- Without a write page after `shrink`, or without any page, `reserve` constructs a first
page. -/
theorem reserve_first_eq {b b₁ : VarBuf pageSize} (hshrink : b.shrink = .ok b₁)
    (hnone : b₁.pageWr = none ∨ (b₁.pageRd = none ∧ b₁.pageList = none)) (sz : Nat) :
    b.reserve sz = VarBuf.extend sz sz b₁.firstPage (room [b₁.freshCell]) (some b₁.fresh) := by
  have h₁ : b₁.firstPage.Shape True [] [] b₁.freshCell [] := shape_firstPage b₁
  have hwr := h₁.wrSize
  have htail := h₁.pageTail (l := []) (t := b₁.freshCell) rfl
  simp only [VarBuf.reserve, hshrink, Fallible.ok_bind, if_pos hnone]
  rw [if_neg (by simp [construct])]
  simp only [firstPage, construct] at hwr htail ⊢
  simp only [hwr, htail]
  rfl

theorem Blank.reserve_eq {b : VarBuf pageSize} (h : b.Blank) (sz : Nat) :
    b.reserve sz = VarBuf.extend sz sz b.firstPage (room [b.freshCell]) (some b.fresh) :=
  reserve_first_eq h.shrink (Or.inl h.2.2) sz

theorem reserve_first {b b₁ : VarBuf pageSize} (hsize : 0 < pageSize) (hshrink : b.shrink = .ok b₁)
    (hnone : b₁.pageWr = none ∨ (b₁.pageRd = none ∧ b₁.pageList = none)) (sz : Nat) :
    ∃ b' w' post', b.reserve sz = .ok b' ∧ b'.Shape full [] [] w' post' ∧
      w'.2.bytes = [] ∧ sz ≤ room (w' :: post') := by
  have hlast : [b₁.freshCell] = [] ++ [b₁.freshCell] := rfl
  have hcell : b₁.freshCell.2.Untouched := VbufPage.untouched_construct _ _
  obtain ⟨b₂, w₂, post₂, hextend, h₂, hbytes, hsz⟩ :=
    (shape_firstPage b₁).extend hsize hlast (Nat.le_add_left sz _)
  exact ⟨b₂, w₂, post₂, (reserve_first_eq hshrink hnone sz).trans hextend, h₂,
    hbytes.trans hcell.bytes, hsz⟩

theorem Blank.reserve {b : VarBuf pageSize} (hsize : 0 < pageSize) (h : b.Blank) (sz : Nat) :
    ∃ b' w' post', b.reserve sz = .ok b' ∧ b'.Shape full [] [] w' post' ∧
      w'.2.bytes = [] ∧ sz ≤ room (w' :: post') :=
  reserve_first hsize h.shrink (Or.inl h.2.2) sz

/-- `reserve` keeps the bytes and leaves room for the request. -/
theorem Represents.reserve {b : VarBuf pageSize} {s : List UInt8} (hsize : 0 < pageSize)
    (h : b.Represents full s) (sz : Nat) :
    ∃ b' pre mid w post, b.reserve sz = .ok b' ∧ b'.Shape full pre mid w post ∧
      s = contents (mid ++ [w]) ∧ sz ≤ room (w :: post) := by
  rcases h with ⟨hblank, rfl⟩ | ⟨pre, mid, w, post, hshape, rfl⟩
  · obtain ⟨b', w', post', hrun, hshape, hbytes, hsz⟩ := hblank.reserve hsize sz
    exact ⟨b', [], [], w', post', hrun, hshape, by simp [hbytes], hsz⟩
  · obtain ⟨b', w', post', hrun, hshape', hbytes, hsz⟩ := hshape.reserve hsize sz
    exact ⟨b', [], mid, w', post', hrun, hshape', by simp [hbytes], hsz⟩

end VarBuf

end BoostCoro.Buffer
