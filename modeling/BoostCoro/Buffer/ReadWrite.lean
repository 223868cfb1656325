import BoostCoro.Buffer.Reserve
/-!
# Writing and reading

The two copy loops. `write` fills the write page and moves on only when more is
left, `read` empties the read page and moves on only when more is wanted, so
both leave the cursors on a page that the shape allows.
-/

namespace BoostCoro.Buffer

open Linked

namespace VarBuf

variable {pageSize : Nat} {full : Prop}

/-! ## Replacing one page -/

theorem segment_setPage {b : VarBuf pageSize} {l : List (Cell pageSize)} {p q : Option Addr}
    {a : Addr} {v : VbufPage pageSize} (hl : Segment b.mem VbufPage.next p l q)
    (ha : a ∉ l.map Prod.fst) : Segment (b.setPage a v).mem VbufPage.next p l q :=
  hl.update_of_notMem ha

/-- A page between two runs of pages is at none of their addresses. -/
theorem notMem_of_nodup {l₁ l₂ : List (Cell pageSize)} {x : Cell pageSize}
    (h : ((l₁ ++ x :: l₂).map Prod.fst).Nodup) :
    x.1 ∉ l₁.map Prod.fst ∧ x.1 ∉ l₂.map Prod.fst := by
  rw [List.map_append, List.map_cons, List.nodup_append, List.nodup_cons] at h
  exact ⟨fun hmem => h.2.2 x.1 hmem x.1 (by simp) rfl, h.2.1.1⟩

/-- Replacing a page by one with the same link keeps the chain. -/
theorem segment_replace {b : VarBuf pageSize} {l₁ l₂ : List (Cell pageSize)} {x : Cell pageSize}
    {p : Option Addr} {v : VbufPage pageSize}
    (hl : Segment b.mem VbufPage.next p (l₁ ++ x :: l₂) none) (hnext : v.next = x.2.next) :
    Segment (b.setPage x.1 v).mem VbufPage.next p (l₁ ++ (x.1, v) :: l₂) none := by
  obtain ⟨hbefore, hafter⟩ := notMem_of_nodup hl.nodup
  obtain ⟨r, hfirst, hr, -, hrest⟩ := segment_append.1 hl
  refine (segment_setPage hfirst hbefore).append ⟨hr, Function.update_self _ _ _, ?_⟩
  rw [hnext]
  exact segment_setPage hrest hafter

/-- The write page may be replaced by one with the same link. -/
theorem Shape.setWr {b : VarBuf pageSize} {pre mid post : List (Cell pageSize)}
    {w : Cell pageSize} (h : b.Shape full pre mid w post) {v : VbufPage pageSize}
    (hnext : v.next = w.2.next) (hv : v.Ordered) :
    (b.setPage w.1 v).Shape full pre mid (w.1, v) post := by
  have hnodup := h.nodup
  rw [← List.append_assoc] at hnodup
  obtain ⟨hbefore, hafter⟩ := notMem_of_nodup hnodup
  simp only [List.map_append, List.mem_append, not_or] at hbefore
  exact
    { list_rd := segment_setPage h.list_rd hbefore.1
      rd_wr := segment_setPage h.rd_wr hbefore.2
      wr_end := by
        refine ⟨h.pageWr_eq, Function.update_self _ _ _, ?_⟩
        rw [hnext]
        exact segment_setPage h.next_wr hafter
      pre_ordered := h.pre_ordered
      pre_used := h.pre_used
      mid_full := h.mid_full
      wr_ordered := hv
      post_untouched := h.post_untouched
      lt_fresh := by
        intro x hx
        simp only [List.mem_append, List.mem_cons] at hx
        rcases hx with hx | hx | rfl | hx
        · exact h.lt_fresh x (by simp [hx])
        · exact h.lt_fresh x (by simp [hx])
        · exact h.lt_fresh w (by simp)
        · exact h.lt_fresh x (by simp [hx]) }

/-- The first page between the cursors may be replaced by one with the same
link. -/
theorem Shape.setRd {b : VarBuf pageSize} {pre mid post : List (Cell pageSize)}
    {x w : Cell pageSize} (h : b.Shape full pre (x :: mid) w post) {v : VbufPage pageSize}
    (hnext : v.next = x.2.next) (hv : v.Ordered ∧ (full → v.offsetWr = pageSize)) :
    (b.setPage x.1 v).Shape full pre ((x.1, v) :: mid) w post := by
  have hnodup := h.nodup
  rw [List.cons_append] at hnodup
  obtain ⟨hbefore, hafter⟩ := notMem_of_nodup hnodup
  rw [List.map_append, List.mem_append, not_or] at hafter
  exact
    { list_rd := segment_setPage h.list_rd hbefore
      rd_wr := by
        refine ⟨h.rd_wr.1, Function.update_self _ _ _, ?_⟩
        rw [hnext]
        exact segment_setPage h.rd_wr.2.2 hafter.1
      wr_end := segment_setPage h.wr_end hafter.2
      pre_ordered := h.pre_ordered
      pre_used := h.pre_used
      mid_full := by
        intro y hy
        rcases List.mem_cons.1 hy with rfl | hy
        · exact hv
        · exact h.mid_full y (List.mem_cons_of_mem x hy)
      wr_ordered := h.wr_ordered
      post_untouched := h.post_untouched
      lt_fresh := by
        intro y hy
        simp only [List.cons_append, List.mem_append, List.mem_cons] at hy
        rcases hy with hy | rfl | hy
        · exact h.lt_fresh y (by simp [hy])
        · exact h.lt_fresh x (by simp)
        · exact h.lt_fresh y (by simp [hy]) }

/-- The write page passes between the cursors when the write cursor moves on. -/
theorem Shape.advanceWr {b : VarBuf pageSize} {pre mid post : List (Cell pageSize)}
    {w y : Cell pageSize} (h : b.Shape full pre mid w (y :: post))
    (hfull : full → w.2.offsetWr = pageSize) :
    Shape { b with pageWr := w.2.next } full pre (mid ++ [w]) y post :=
  { list_rd := h.list_rd
    rd_wr := h.rd_wr.append ⟨h.pageWr_eq, h.mem_wr, rfl⟩
    wr_end := h.next_wr
    pre_ordered := h.pre_ordered
    pre_used := h.pre_used
    mid_full := by
      intro x hx
      rcases List.mem_append.1 hx with hx | hx
      · exact h.mid_full x hx
      · rw [List.mem_singleton.1 hx]
        exact ⟨h.wr_ordered, hfull⟩
    wr_ordered := (h.post_untouched y (by simp)).ordered
    post_untouched := fun x hx => h.post_untouched x (by simp [hx])
    lt_fresh := fun x hx => h.lt_fresh x (by simpa using hx) }

/-- The first page between the cursors is left when the read cursor moves on. -/
theorem Shape.advanceRd {b : VarBuf pageSize} {pre mid post : List (Cell pageSize)}
    {x w : Cell pageSize} (h : b.Shape full pre (x :: mid) w post)
    (hused : full → x.2.offsetRd = pageSize) :
    Shape { b with pageRd := x.2.next } full (pre ++ [x]) mid w post :=
  { list_rd := h.list_rd.append ⟨h.rd_wr.1, h.rd_wr.2.1, rfl⟩
    rd_wr := h.rd_wr.2.2
    wr_end := h.wr_end
    pre_ordered := by
      intro y hy
      rcases List.mem_append.1 hy with hy | hy
      · exact h.pre_ordered y hy
      · rw [List.mem_singleton.1 hy]
        exact (h.mid_full x (by simp)).1
    pre_used := by
      intro htight y hy
      rcases List.mem_append.1 hy with hy | hy
      · exact h.pre_used htight y hy
      · rw [List.mem_singleton.1 hy]
        exact ⟨hused htight, (h.mid_full x (by simp)).2 htight⟩
    mid_full := fun y hy => h.mid_full y (List.mem_cons_of_mem x hy)
    wr_ordered := h.wr_ordered
    post_untouched := h.post_untouched
    lt_fresh := fun y hy => h.lt_fresh y (by simpa using hy) }

/-! ## The loop of `write` -/

@[simp] theorem writeLoop_nil (fuel : Nat) (b : VarBuf pageSize) :
    writeLoop fuel b [] = .ok b := by
  cases fuel <;> rfl

/-- The last iteration: what is left fits into the write page. -/
theorem writeLoop_fits {b : VarBuf pageSize} {w : Cell pageSize} {src : List UInt8} {fuel : Nat}
    (hwr : b.pageWr = some w.1) (hw : b.mem w.1 = some w.2) (hsrc : src ≠ [])
    (hfit : src.length ≤ w.2.wrSize) :
    writeLoop (fuel + 1) b src = .ok (b.setPage w.1 (w.2.store src)) := by
  have hwr' : (b.setPage w.1 (w.2.store src)).pageWr ≠ none := by simp [setPage, hwr]
  obtain ⟨c, src, rfl⟩ := List.exists_cons_of_ne_nil hsrc
  rw [writeLoop, if_neg (by simp [hwr]), hwr, deref_some hw]
  simp only [Fallible.ok_bind, if_neg (Nat.not_lt.2 hfit), List.take_length,
    List.drop_length, List.length_nil, ne_eq, not_true_eq_false, if_false]
  rw [if_neg hwr', writeLoop_nil]

/-- Another iteration: the write page is filled up. -/
theorem writeLoop_fill {b : VarBuf pageSize} {w : Cell pageSize} {src : List UInt8} {fuel : Nat}
    (hwr : b.pageWr = some w.1) (hw : b.mem w.1 = some w.2) (hlt : w.2.wrSize < src.length)
    (hnext : w.2.next ≠ none) :
    writeLoop (fuel + 1) b src =
      writeLoop fuel
        { b.setPage w.1 (w.2.store (src.take w.2.wrSize)) with pageWr := w.2.next }
        (src.drop w.2.wrSize) := by
  have hdrop : (src.drop w.2.wrSize).length ≠ 0 := by
    rw [List.length_drop]
    omega
  obtain ⟨c, src, rfl⟩ := List.exists_cons_of_length_pos (Nat.zero_lt_of_lt hlt)
  rw [writeLoop, if_neg (by simp [hwr]), hwr, deref_some hw]
  simp only [Fallible.ok_bind, if_pos hlt, if_pos hdrop, if_neg hnext]

theorem Shape.writeLoop {b : VarBuf pageSize} {pre mid post : List (Cell pageSize)}
    {w : Cell pageSize} (h : b.Shape full pre mid w post) {src : List UInt8}
    (hroom : src.length ≤ room (w :: post)) {fuel : Nat} (hfuel : post.length < fuel) :
    ∃ b' mid' w' post', VarBuf.writeLoop fuel b src = .ok b' ∧ b'.Shape full pre mid' w' post' ∧
      contents (mid' ++ [w']) = contents (mid ++ [w]) ++ src := by
  induction post generalizing b mid w src fuel with
  | nil =>
      obtain ⟨fuel, rfl⟩ := Nat.exists_eq_add_one.2 hfuel
      have hfit : src.length ≤ w.2.wrSize := by simpa using hroom
      by_cases hsrc : src = []
      · exact ⟨b, mid, w, [], by simp [hsrc], h, by simp [hsrc]⟩
      · exact ⟨_, mid, _, [], writeLoop_fits h.pageWr_eq h.mem_wr hsrc hfit,
          h.setWr rfl (h.wr_ordered.store hfit), by simp [h.wr_ordered.bytes_store hfit]⟩
  | cons y post ih =>
      obtain ⟨fuel, rfl⟩ := Nat.exists_eq_add_one.2 (Nat.zero_lt_of_lt hfuel)
      by_cases hsrc : src = []
      · exact ⟨b, mid, w, y :: post, by simp [hsrc], h, by simp [hsrc]⟩
      by_cases hfit : src.length ≤ w.2.wrSize
      · exact ⟨_, mid, _, y :: post, writeLoop_fits h.pageWr_eq h.mem_wr hsrc hfit,
          h.setWr rfl (h.wr_ordered.store hfit), by simp [h.wr_ordered.bytes_store hfit]⟩
      · -- the write page is filled up and the rest goes to the pages after it
        have hlt := Nat.lt_of_not_le hfit
        have htake : (src.take w.2.wrSize).length = w.2.wrSize :=
          List.length_take_of_le (Nat.le_of_lt hlt)
        have hpart : (src.take w.2.wrSize).length ≤ w.2.wrSize := Nat.le_of_eq htake
        have hfull : (w.2.store (src.take w.2.wrSize)).offsetWr = pageSize := by
          have hle := h.wr_ordered.2
          change w.2.offsetWr + (src.take w.2.wrSize).length = pageSize
          rw [htake, h.wr_ordered.wrSize_eq]
          omega
        have hshape := (h.setWr (v := w.2.store (src.take w.2.wrSize)) rfl
          (h.wr_ordered.store hpart)).advanceWr fun _ => hfull
        have hrest : (src.drop w.2.wrSize).length ≤ room (y :: post) := by
          rw [List.length_drop]
          rw [room_cons] at hroom
          omega
        obtain ⟨b', mid', w', post', hrun, hshape', hcontents⟩ :=
          ih hshape hrest (by simpa using hfuel)
        refine ⟨b', mid', w', post', ?_, hshape', ?_⟩
        · rw [writeLoop_fill h.pageWr_eq h.mem_wr hlt (by simp [h.next_wr.1])]
          exact hrun
        · rw [hcontents]
          simp only [contents_append, contents_cons, contents_nil,
            h.wr_ordered.bytes_store hpart, (h.post_untouched y (by simp)).bytes,
            List.append_nil, List.append_assoc, List.take_append_drop]

/-- After `makeRoom` the bytes fit, or there is nothing to write. -/
theorem Represents.makeRoom {b : VarBuf pageSize} {s : List UInt8} (hsize : 0 < pageSize)
    (h : b.Represents full s) (len : Nat) :
    ∃ b', b.makeRoom len = .ok b' ∧ ((b'.Represents full s ∧ len = 0) ∨
      ∃ pre mid w post, b'.Shape full pre mid w post ∧ s = contents (mid ++ [w]) ∧
        len ≤ room (w :: post)) := by
  obtain ⟨b₁, pre, mid, w, post, hrun, hshape, hs, hroom⟩ := h.reserve hsize len
  have hreserved : ∀ cur, b.wrSize = .ok cur → len > cur → b.makeRoom len = .ok b₁ := by
    intro cur hcur hlt
    rw [VarBuf.makeRoom, hcur]
    exact (if_pos hlt).trans hrun
  have hkept : ∀ cur, b.wrSize = .ok cur → ¬len > cur → b.makeRoom len = .ok b := by
    intro cur hcur hle
    rw [VarBuf.makeRoom, hcur]
    exact if_neg hle
  rcases h with ⟨hblank, rfl⟩ | ⟨pre₀, mid₀, w₀, post₀, hshape₀, rfl⟩
  · by_cases hlt : len > 0
    · exact ⟨b₁, hreserved 0 hblank.wrSize hlt, Or.inr ⟨pre, mid, w, post, hshape, hs, hroom⟩⟩
    · exact ⟨b, hkept 0 hblank.wrSize hlt, Or.inl ⟨Or.inl ⟨hblank, rfl⟩, by omega⟩⟩
  · by_cases hlt : len > room (w₀ :: post₀)
    · exact ⟨b₁, hreserved _ hshape₀.wrSize hlt,
        Or.inr ⟨pre, mid, w, post, hshape, hs, hroom⟩⟩
    · exact ⟨b, hkept _ hshape₀.wrSize hlt,
        Or.inr ⟨pre₀, mid₀, w₀, post₀, hshape₀, rfl, Nat.le_of_not_lt hlt⟩⟩

/-- `write` appends its bytes and returns their number. -/
theorem Represents.write {b : VarBuf pageSize} {s : List UInt8} (hsize : 0 < pageSize)
    (h : b.Represents full s) (src : List UInt8) :
    ∃ b', b.write src = .ok (b', src.length) ∧ b'.Represents full (s ++ src) := by
  obtain ⟨b₁, hroom, hcase⟩ := h.makeRoom hsize src.length
  rcases hcase with ⟨hrep, hlen⟩ | ⟨pre, mid, w, post, hshape, rfl, hfit⟩
  · obtain rfl : src = [] := List.length_eq_zero_iff.1 hlen
    have hroom' : b.makeRoom 0 = .ok b₁ := hroom
    refine ⟨b₁, ?_, by simpa using hrep⟩
    simp [VarBuf.write, hroom']
  · have hlen := hshape.length_le_fresh
    have hfuel : post.length < b₁.walkFuel := by
      simp only [List.length_append, List.length_cons] at hlen
      simp only [walkFuel]
      omega
    obtain ⟨b₂, mid', w', post', hrun, hshape', hcontents⟩ := hshape.writeLoop hfit hfuel
    refine ⟨b₂, ?_, ?_⟩
    · simp [VarBuf.write, hroom, hrun]
    · rw [← hcontents]
      exact hshape'.represents

/-- `assign` replaces the contents. -/
theorem Represents.assign {b : VarBuf pageSize} {s : List UInt8} (hsize : 0 < pageSize)
    (h : b.Represents full s) (src : List UInt8) :
    ∃ b', b.assign src = .ok (b', src.length) ∧ b'.Represents full src := by
  obtain ⟨b₁, hreset, h₁⟩ := h.reset
  obtain ⟨b₂, hwrite, h₂⟩ := h₁.write hsize src
  refine ⟨b₂, ?_, h₂⟩
  rw [VarBuf.assign, hreset]
  exact hwrite

/-! ## The loop of `read` -/

/-- The last iteration: the read page holds all that is wanted. -/
theorem readLoop_last {b : VarBuf pageSize} {x : Cell pageSize} {want fuel : Nat}
    {out : List UInt8} (hrd : b.pageRd = some x.1) (hx : b.mem x.1 = some x.2)
    (hwant : want ≠ 0) (hfit : want ≤ x.2.rdSize) :
    readLoop (fuel + 1) b want out =
      .ok (b.setPage x.1 (x.2.consume want), out ++ x.2.rdBytes want, 0) := by
  obtain ⟨want, rfl⟩ := Nat.exists_eq_succ_of_ne_zero hwant
  rw [readLoop, if_neg (by simp [hrd]), hrd, deref_some hx]
  simp only [Fallible.ok_bind, if_neg (Nat.not_lt.2 hfit), Nat.sub_self, ne_eq,
    not_true_eq_false, if_false]
  cases fuel <;> rfl

/-- Another iteration: the read page is emptied. -/
theorem readLoop_empty {b : VarBuf pageSize} {x : Cell pageSize} {want fuel : Nat}
    {out : List UInt8} (hrd : b.pageRd = some x.1) (hx : b.mem x.1 = some x.2)
    (hlt : x.2.rdSize < want) :
    readLoop (fuel + 1) b want out =
      readLoop fuel { b.setPage x.1 (x.2.consume x.2.rdSize) with pageRd := x.2.next }
        (want - x.2.rdSize) (out ++ x.2.bytes) := by
  obtain ⟨want, rfl⟩ := Nat.exists_eq_add_one.2 (Nat.zero_lt_of_lt hlt)
  have hmore : want + 1 - x.2.rdSize ≠ 0 := by omega
  rw [readLoop, if_neg (by simp [hrd]), hrd, deref_some hx]
  simp only [Fallible.ok_bind, if_pos hlt, if_pos hmore]
  rfl

theorem Shape.readLoop {b : VarBuf pageSize} {pre mid post : List (Cell pageSize)}
    {w : Cell pageSize} (h : b.Shape full pre mid w post) {want : Nat} (out : List UInt8)
    (hwant : want ≤ (contents (mid ++ [w])).length) {fuel : Nat} (hfuel : mid.length < fuel) :
    ∃ b' pre' mid' w', VarBuf.readLoop fuel b want out =
        .ok (b', out ++ (contents (mid ++ [w])).take want, 0) ∧
      b'.Shape full pre' mid' w' post ∧
      contents (mid' ++ [w']) = (contents (mid ++ [w])).drop want := by
  induction mid generalizing b pre want out fuel with
  | nil =>
      obtain ⟨fuel, rfl⟩ := Nat.exists_eq_add_one.2 hfuel
      by_cases hzero : want = 0
      · exact ⟨b, pre, [], w, by simp [hzero, VarBuf.readLoop], h, by simp [hzero]⟩
      · have hfit : want ≤ w.2.rdSize := by
          rw [← h.wr_ordered.length_bytes]
          simpa using hwant
        have hrd : b.pageRd = some w.1 := (segment_nil.1 h.rd_wr).trans h.pageWr_eq
        refine ⟨_, pre, [], _, ?_,
          h.setWr (v := w.2.consume want) rfl (h.wr_ordered.consume hfit), ?_⟩
        · rw [readLoop_last hrd h.mem_wr hzero hfit, VbufPage.rdBytes_eq_take hfit]
          simp
        · simp [h.wr_ordered.bytes_consume hfit]
  | cons x mid ih =>
      obtain ⟨fuel, rfl⟩ := Nat.exists_eq_add_one.2 (Nat.zero_lt_of_lt hfuel)
      have hx := h.mid_full x (by simp)
      by_cases hzero : want = 0
      · exact ⟨b, pre, x :: mid, w, by simp [hzero, VarBuf.readLoop], h, by simp [hzero]⟩
      by_cases hfit : want ≤ x.2.rdSize
      · have hbytes : want ≤ x.2.bytes.length := hx.1.length_bytes ▸ hfit
        refine ⟨_, pre, _, w, ?_, h.setRd (v := x.2.consume want) rfl
          ⟨hx.1.consume hfit, hx.2⟩, ?_⟩
        · rw [readLoop_last h.rd_wr.1 h.rd_wr.2.1 hzero hfit, VbufPage.rdBytes_eq_take hfit]
          simp [List.take_append_of_le_length hbytes]
        · simp [hx.1.bytes_consume hfit, List.drop_append_of_le_length hbytes]
      · -- the read page is emptied and the rest comes from the pages after it
        have hlt := Nat.lt_of_not_le hfit
        have hlen := hx.1.length_bytes
        have htake : x.2.bytes.take want = x.2.bytes := List.take_of_length_le (by omega)
        have hdrop : x.2.bytes.drop want = [] := List.drop_of_length_le (by omega)
        have hused : full → (x.2.consume x.2.rdSize).offsetRd = pageSize := by
          intro htight
          have hle := hx.1.1
          have hfull := hx.2 htight
          change x.2.offsetRd + x.2.rdSize = pageSize
          rw [hx.1.rdSize_eq]
          omega
        have hshape := (h.setRd (v := x.2.consume x.2.rdSize) rfl
          ⟨hx.1.consume (Nat.le_refl _), hx.2⟩).advanceRd hused
        have hrest : want - x.2.rdSize ≤ (contents (mid ++ [w])).length := by
          rw [List.cons_append, contents_cons, List.length_append] at hwant
          omega
        obtain ⟨b', pre', mid', w', hrun, hshape', hcontents⟩ :=
          ih hshape (out ++ x.2.bytes) hrest (by simpa using hfuel)
        refine ⟨b', pre', mid', w', ?_, hshape', ?_⟩
        · rw [readLoop_empty h.rd_wr.1 h.rd_wr.2.1 hlt]
          refine hrun.trans ?_
          rw [List.cons_append, contents_cons, List.take_append, htake, hlen, List.append_assoc]
        · rw [hcontents, List.cons_append, contents_cons, List.drop_append, hdrop, hlen,
            List.nil_append]

/-! ## Observers -/

theorem foldl_rdSize {l : List (Cell pageSize)} (h : ∀ x ∈ l, x.2.Ordered) (sz : Nat) :
    l.foldl (fun sz x => sz + x.2.rdSize) sz = sz + (contents l).length := by
  induction l generalizing sz with
  | nil => rfl
  | cons x l ih =>
      rw [List.foldl_cons, ih fun y hy => h y (List.mem_cons_of_mem x hy), contents_cons,
        List.length_append, (h x (by simp)).length_bytes]
      omega

theorem foldl_bytes (l : List (Cell pageSize)) (s : List UInt8) :
    l.foldl (fun s x => s ++ x.2.rdBytes x.2.rdSize) s = s ++ contents l := by
  induction l generalizing s with
  | nil => simp
  | cons x l ih =>
      rw [List.foldl_cons, ih, contents_cons, List.append_assoc]
      rfl

theorem foldl_segments (l : List (Cell pageSize)) (vc : List (List UInt8)) :
    l.foldl (fun vc x => vc ++ [x.2.rdBytes x.2.rdSize]) vc =
      vc ++ l.map fun x => x.2.bytes := by
  induction l generalizing vc with
  | nil => simp
  | cons x l ih =>
      rw [List.foldl_cons, ih, List.append_assoc]
      rfl

theorem Represents.length {b : VarBuf pageSize} {s : List UInt8} (h : b.Represents full s) :
    b.length = .ok s.length := by
  rcases h with ⟨⟨-, hrd, -⟩, rfl⟩ | ⟨pre, mid, w, post, hshape, rfl⟩
  · exact if_pos hrd
  · rw [VarBuf.length, if_neg hshape.pageRd_ne_none, hshape.foldToWr_eq,
      foldl_rdSize hshape.ordered, Nat.zero_add]

theorem Represents.toString {b : VarBuf pageSize} {s : List UInt8} (h : b.Represents full s) :
    b.toString = .ok s := by
  rcases h with ⟨⟨-, hrd, -⟩, rfl⟩ | ⟨pre, mid, w, post, hshape, rfl⟩
  · exact if_pos hrd
  · rw [VarBuf.toString, if_neg hshape.pageRd_ne_none, hshape.foldToWr_eq, foldl_bytes,
      List.nil_append]

theorem Shape.rdIovec {b : VarBuf pageSize} {pre mid post : List (Cell pageSize)}
    {w : Cell pageSize} (h : b.Shape full pre mid w post) :
    b.rdIovec = .ok ((mid ++ [w]).map fun x => x.2.bytes) := by
  rw [VarBuf.rdIovec, h.foldToWr_eq, foldl_segments, List.nil_append]

theorem Blank.rdIovec {b : VarBuf pageSize} (h : b.Blank) : b.rdIovec = .ok [] := by
  simp [VarBuf.rdIovec, walkFuel, foldToWr, h.2.1, h.2.2]

theorem Represents.rdIovec {b : VarBuf pageSize} {s : List UInt8} (h : b.Represents full s) :
    ∃ vc, b.rdIovec = .ok vc ∧ vc.flatten = s := by
  rcases h with ⟨hblank, rfl⟩ | ⟨pre, mid, w, post, hshape, rfl⟩
  · exact ⟨[], hblank.rdIovec, rfl⟩
  · exact ⟨_, hshape.rdIovec, by rw [contents, List.flatMap_def]⟩

/-- `read` takes the first bytes, as many as are wanted and there. -/
theorem Represents.read {b : VarBuf pageSize} {s : List UInt8} (h : b.Represents full s)
    (len : Nat) :
    ∃ b', b.read len = .ok (b', s.take len, len) ∧ b'.Represents full (s.drop len) := by
  have hwant : (if s.length < len then s.length else len) = min len s.length := by
    split <;> omega
  rcases h with ⟨hblank, rfl⟩ | ⟨pre, mid, w, post, hshape, rfl⟩
  · refine ⟨b, ?_, Or.inl ⟨hblank, by simp⟩⟩
    have hlength : b.length = .ok 0 := if_pos hblank.2.1
    have hzero : (if 0 < len then 0 else len) = 0 := by split <;> omega
    simp only [VarBuf.read, hlength, Fallible.ok_bind, hzero]
    simp [VarBuf.readLoop]
  · have hlen := hshape.length_le_fresh
    have hfuel : mid.length < b.walkFuel := by
      simp only [List.length_append, List.length_cons] at hlen
      simp only [walkFuel]
      omega
    obtain ⟨b', pre', mid', w', hrun, hshape', hcontents⟩ :=
      hshape.readLoop [] (Nat.min_le_right len _) hfuel
    refine ⟨b', ?_, ?_⟩
    · simp only [VarBuf.read, hshape.represents.length, Fallible.ok_bind, hwant, hrun]
      simp [List.take_eq_take_min (i := len)]
    · rw [List.drop_eq_drop_min, ← hcontents]
      exact hshape'.represents

end VarBuf

end BoostCoro.Buffer
