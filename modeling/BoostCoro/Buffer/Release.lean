import BoostCoro.Buffer.Shape
/-!
# Releasing and adding pages

What `shrink`, `clear`, `reset` and `reserve` do to the shape of a buffer. The
pages before the read cursor go away, and pages are added after the last one,
so the bytes held do not change.
-/

namespace BoostCoro.Buffer

open Linked

namespace VarBuf

variable {pageSize : Nat} {full : Prop}

/-! ## Destroying a prefix of the chain -/

theorem destroyUntil_eq {stop : Option Addr} {b : VarBuf pageSize} {l : List (Cell pageSize)}
    {fuel : Nat} (hl : Segment b.mem VbufPage.next b.pageList l stop)
    (hnodup : (l.map Prod.fst).Nodup) (hstop : ∀ x ∈ l, some x.1 ≠ stop)
    (hfuel : l.length < fuel) :
    ∃ mem', destroyUntil stop fuel b = .ok { b with
        pageList := stop, mem := mem', destroyed := b.destroyed ++ l.map Prod.fst } ∧
      (∀ a, a ∉ l.map Prod.fst → mem' a = b.mem a) ∧ ∀ a ∈ l.map Prod.fst, mem' a = none := by
  induction l generalizing b fuel with
  | nil =>
      obtain ⟨fuel, rfl⟩ := Nat.exists_eq_add_one.2 hfuel
      have hp : b.pageList = stop := segment_nil.1 hl
      refine ⟨b.mem, ?_, fun a _ => rfl, by simp⟩
      rw [destroyUntil, if_pos (Or.inr hp), ← hp, List.map_nil, List.append_nil]
  | cons x l ih =>
      obtain ⟨fuel, rfl⟩ := Nat.exists_eq_add_one.2 (Nat.zero_lt_of_lt hfuel)
      obtain ⟨hp, hx, hl⟩ := hl
      rw [List.map_cons, List.nodup_cons] at hnodup
      have hgo : ¬(b.pageList = none ∨ b.pageList = stop) := by
        rw [hp]
        simpa using hstop x (by simp)
      obtain ⟨mem', hrun, hmem, hgone⟩ := ih (b := { b with pageList := x.2.next }.destroy x.1)
        (hl.update_of_notMem hnodup.1) hnodup.2 (fun y hy => hstop y (by simp [hy]))
        (by simpa using hfuel)
      refine ⟨mem', ?_, fun a ha => ?_, fun a ha => ?_⟩
      · rw [destroyUntil, if_neg hgo, hp, deref_some hx, List.map_cons, List.append_cons]
        exact hrun
      · rw [List.map_cons, List.mem_cons, not_or] at ha
        rw [hmem a ha.2]
        exact Function.update_of_ne ha.1 _ _
      · rcases List.mem_cons.1 ha with rfl | ha
        · exact (hmem x.1 hnodup.1).trans (Function.update_self _ _ _)
        · exact hgone a ha

/-- `shrink` destroys the pages before the read cursor and nothing else. -/
theorem shrink_eq {b : VarBuf pageSize} {pre l : List (Cell pageSize)}
    (hpre : Segment b.mem VbufPage.next b.pageList pre b.pageRd)
    (hl : Segment b.mem VbufPage.next b.pageRd l none) (hfuel : pre.length < b.walkFuel) :
    ∃ mem', b.shrink = .ok { b with
        pageList := b.pageRd, mem := mem', destroyed := b.destroyed ++ pre.map Prod.fst } ∧
      (∀ a, a ∉ pre.map Prod.fst → mem' a = b.mem a) ∧ ∀ a ∈ pre.map Prod.fst, mem' a = none := by
  have hnodup := (hpre.append hl).nodup
  rw [List.map_append, List.nodup_append] at hnodup
  refine destroyUntil_eq hpre hnodup.1 (fun x hx heq => ?_) hfuel
  have hhead := hl.head?_eq
  rw [← heq] at hhead
  exact hnodup.2.2 x.1 (List.mem_map_of_mem hx) x.1 (List.mem_of_mem_head? hhead.symm) rfl

theorem Shape.shrink {b : VarBuf pageSize} {pre mid post : List (Cell pageSize)}
    {w : Cell pageSize} (h : b.Shape full pre mid w post) :
    ∃ b', b.shrink = .ok b' ∧ b'.Shape full [] mid w post := by
  have hnodup := h.nodup
  rw [List.map_append, List.nodup_append] at hnodup
  have hlen := h.length_le_fresh
  have hfuel : pre.length < b.walkFuel := by
    simp only [List.length_append, List.length_cons] at hlen
    simp only [walkFuel]
    omega
  obtain ⟨mem', hrun, hmem, -⟩ := shrink_eq h.list_rd (h.rd_wr.append h.wr_end) hfuel
  have hkeep : ∀ x ∈ mid ++ w :: post, mem' x.1 = b.mem x.1 := fun x hx =>
    hmem x.1 fun hpre => hnodup.2.2 x.1 hpre x.1 (List.mem_map_of_mem hx) rfl
  refine ⟨_, hrun, ?_⟩
  exact
    { list_rd := rfl
      rd_wr := h.rd_wr.congr fun x hx => hkeep x (by simp [hx])
      wr_end := h.wr_end.congr fun x hx => hkeep x (List.mem_append_right mid hx)
      pre_ordered := by simp
      pre_used := by simp
      mid_full := h.mid_full
      wr_ordered := h.wr_ordered
      post_untouched := h.post_untouched
      lt_fresh := fun x hx => h.lt_fresh x (List.mem_append_right pre (by simpa using hx)) }

theorem Blank.shrink {b : VarBuf pageSize} (h : b.Blank) : b.shrink = .ok b := by
  obtain ⟨hlist, -, -⟩ := h
  simp [VarBuf.shrink, walkFuel, destroyUntil, hlist]

theorem Represents.shrink {b : VarBuf pageSize} {s : List UInt8} (h : b.Represents full s) :
    ∃ b', b.shrink = .ok b' ∧ b'.Represents full s := by
  rcases h with ⟨hblank, rfl⟩ | ⟨pre, mid, w, post, hshape, rfl⟩
  · exact ⟨b, hblank.shrink, Or.inl ⟨hblank, rfl⟩⟩
  · obtain ⟨b', hrun, hshape'⟩ := hshape.shrink
    exact ⟨b', hrun, hshape'.represents⟩

/-- `clear` leaves no page. -/
theorem Represents.clear {b : VarBuf pageSize} {s : List UInt8} (h : b.Represents full s) :
    ∃ b', b.clear = .ok b' ∧ b'.Blank := by
  rcases h with ⟨⟨hlist, -, -⟩, -⟩ | ⟨pre, mid, w, post, hshape, -⟩
  · refine ⟨{ b with pageRd := none, pageWr := none }, ?_, hlist, rfl, rfl⟩
    simp [VarBuf.clear, walkFuel, destroyUntil, hlist]
  · have hlen := hshape.length_le_fresh
    obtain ⟨mem', hrun, -, -⟩ := destroyUntil_eq hshape.chain hshape.nodup (by simp)
      (Nat.lt_succ_of_le hlen)
    rw [VarBuf.clear, walkFuel, hrun]
    exact ⟨_, rfl, rfl, rfl, rfl⟩

/-! ## Resetting -/

/-- A cell after `page->reset()`. -/
def resetCell (x : Cell pageSize) : Cell pageSize := (x.1, x.2.reset)

theorem resetPages_eq {b : VarBuf pageSize} {l : List (Cell pageSize)} {p : Option Addr}
    {fuel : Nat} (hl : Segment b.mem VbufPage.next p l none) (hfuel : l.length < fuel) :
    ∃ mem', resetPages fuel p b = .ok { b with mem := mem' } ∧
      Segment mem' VbufPage.next p (l.map resetCell) none ∧
      ∀ a, a ∉ l.map Prod.fst → mem' a = b.mem a := by
  induction l generalizing b p fuel with
  | nil =>
      obtain ⟨fuel, rfl⟩ := Nat.exists_eq_add_one.2 hfuel
      rw [segment_nil.1 hl]
      exact ⟨b.mem, rfl, rfl, fun a _ => rfl⟩
  | cons x l ih =>
      obtain ⟨fuel, rfl⟩ := Nat.exists_eq_add_one.2 (Nat.zero_lt_of_lt hfuel)
      have hnodup := hl.nodup
      rw [List.map_cons, List.nodup_cons] at hnodup
      obtain ⟨rfl, hx, hl⟩ := hl
      obtain ⟨mem', hrun, hseg, hmem⟩ := ih (b := b.setPage x.1 x.2.reset)
        (hl.update_of_notMem hnodup.1) (by simpa using hfuel)
      refine ⟨mem', ?_, ⟨rfl, ?_, hseg⟩, fun a ha => ?_⟩
      · rw [resetPages, deref_some hx]
        exact hrun
      · exact (hmem x.1 hnodup.1).trans (Function.update_self _ _ _)
      · rw [List.map_cons, List.mem_cons, not_or] at ha
        rw [hmem a ha.2]
        exact Function.update_of_ne ha.1 _ _

/-- After `reset` the first page is the write page and every page is
untouched. -/
theorem Represents.reset {b : VarBuf pageSize} {s : List UInt8} (h : b.Represents full s) :
    ∃ b', b.reset = .ok b' ∧ b'.Represents full [] := by
  rcases h with ⟨⟨hlist, hrd, hwr⟩, -⟩ | ⟨pre, mid, w, post, hshape, -⟩
  · refine ⟨{ b with pageRd := b.pageList, pageWr := b.pageList }, ?_, Or.inl ⟨?_, rfl⟩⟩
    · simp [VarBuf.reset, walkFuel, resetPages, hlist]
    · exact ⟨hlist, hlist, hlist⟩
  · have hlen := hshape.length_le_fresh
    obtain ⟨mem', hrun, hseg, -⟩ :=
      resetPages_eq hshape.chain (Nat.lt_succ_of_le hlen)
    obtain ⟨x, l, hxl⟩ := List.exists_cons_of_ne_nil
      (show pre ++ (mid ++ w :: post) ≠ [] by simp)
    have hlt := hshape.lt_fresh
    rw [hxl] at hseg hlt
    have huntouched : ∀ y ∈ l.map resetCell, y.2.Untouched := by
      intro y hy
      obtain ⟨z, -, rfl⟩ := List.mem_map.1 hy
      exact VbufPage.untouched_reset z.2
    have hfirst : (resetCell x).2.Untouched := VbufPage.untouched_reset x.2
    have hshape' : Shape { b with mem := mem', pageRd := b.pageList, pageWr := b.pageList }
        full [] [] (resetCell x) (l.map resetCell) :=
      { list_rd := rfl
        rd_wr := rfl
        wr_end := by simpa using hseg
        pre_ordered := by simp
        pre_used := by simp
        mid_full := by simp
        wr_ordered := hfirst.ordered
        post_untouched := huntouched
        lt_fresh := by
          intro y hy
          have hy' : y ∈ (x :: l).map resetCell := by simpa using hy
          obtain ⟨z, hz, rfl⟩ := List.mem_map.1 hy'
          exact hlt z hz }
    refine ⟨_, ?_, Or.inr ⟨[], [], resetCell x, l.map resetCell, hshape', ?_⟩⟩
    · rw [VarBuf.reset, walkFuel, hrun]
      rfl
    · simp [hfirst.bytes]

end VarBuf

end BoostCoro.Buffer
