import BoostCoro.Buffer.Fifo
/-!
# Scatter-receive

`readv` stores into the segments that `wr_iovec` lists, and `wr_position` commits what was
stored. Its loop leaves each page it commits to, also one that is not full, and also the
last one: then the write cursor is null.
-/

namespace BoostCoro.Buffer

open Linked

namespace VarBuf

variable {pageSize : Nat} {full : Prop}

/-! ## Storing into the segments -/

/-- `readv` stores `src` into the segments in order. -/
def readv : VarBuf pageSize → List Iovec → List UInt8 → Except Fault (VarBuf pageSize)
  | b, [], _ => .ok b
  | b, iv :: vc, src => do
    let (a, p) ← b.deref (some iv.page)
    readv (b.setPage a (p.fill iv.base (src.take iv.len))) vc (src.drop iv.len)

/-- The free space of a page, as `wr_iovec` lists it. -/
def freeSegment (x : Cell pageSize) : Iovec := ⟨x.1, x.2.offsetWr, x.2.wrSize⟩

theorem wrIovec_go_eq {b : VarBuf pageSize} {l : List (Cell pageSize)} {p : Option Addr}
    {fuel : Nat} (hl : Segment b.mem VbufPage.next p l none) (hfuel : l.length < fuel) :
    wrIovec.go b fuel p = .ok (l.map freeSegment) := by
  induction l generalizing p fuel with
  | nil =>
      obtain ⟨fuel, rfl⟩ := Nat.exists_eq_add_one.2 hfuel
      rw [segment_nil.1 hl]
      rfl
  | cons x l ih =>
      obtain ⟨fuel, rfl⟩ := Nat.exists_eq_add_one.2 (Nat.zero_lt_of_lt hfuel)
      obtain ⟨rfl, hx, hl⟩ := hl
      simp only [wrIovec.go, deref_some hx, Fallible.ok_bind, ih hl (by simpa using hfuel)]
      rfl

theorem Shape.wrIovec {b : VarBuf pageSize} {pre mid post : List (Cell pageSize)}
    {w : Cell pageSize} (h : b.Shape full pre mid w post) :
    b.wrIovec = .ok ((w :: post).map freeSegment) := by
  have hlen := h.length_le_fresh
  refine wrIovec_go_eq h.wr_end ?_
  simp only [List.length_append, List.length_cons, walkFuel] at hlen ⊢
  omega

/-- The pages after `src` was stored into their free space. -/
def stored : List (Cell pageSize) → List UInt8 → List (Cell pageSize)
  | [], _ => []
  | x :: l, src =>
    (x.1, x.2.fill x.2.offsetWr (src.take x.2.wrSize)) :: stored l (src.drop x.2.wrSize)

/-- The free space of the pages begins with the bytes `src`. -/
def Pending : List (Cell pageSize) → List UInt8 → Prop
  | [], _ => True
  | x :: l, src =>
    (x.2.data.drop x.2.offsetWr).take (src.take x.2.wrSize).length = src.take x.2.wrSize ∧
      Pending l (src.drop x.2.wrSize)

theorem map_fst_stored (l : List (Cell pageSize)) (src : List UInt8) :
    (stored l src).map Prod.fst = l.map Prod.fst := by
  induction l generalizing src with
  | nil => rfl
  | cons x l ih => exact congrArg (x.1 :: ·) (ih _)

theorem map_wrSize_stored (l : List (Cell pageSize)) (src : List UInt8) :
    (stored l src).map (fun x => x.2.wrSize) = l.map fun x => x.2.wrSize := by
  induction l generalizing src with
  | nil => rfl
  | cons x l ih => exact congrArg (x.2.wrSize :: ·) (ih _)

theorem stored_untouched {l : List (Cell pageSize)} (h : ∀ x ∈ l, x.2.Untouched)
    (src : List UInt8) : ∀ x ∈ stored l src, x.2.Untouched := by
  induction l generalizing src with
  | nil => exact h
  | cons x l ih =>
      intro y hy
      rcases List.mem_cons.1 hy with rfl | hy
      · exact h x (by simp)
      · exact ih (fun z hz => h z (List.mem_cons_of_mem x hz)) _ y hy

theorem pending_stored {l : List (Cell pageSize)} (h : ∀ x ∈ l, x.2.Ordered)
    (src : List UInt8) : Pending (stored l src) src := by
  induction l generalizing src with
  | nil => trivial
  | cons x l ih =>
      have hfit : (src.take x.2.wrSize).length ≤ x.2.wrSize := by
        rw [List.length_take]
        exact Nat.min_le_left _ _
      exact ⟨(h x (by simp)).free_fill hfit,
        ih (fun y hy => h y (List.mem_cons_of_mem x hy)) _⟩

theorem readv_eq {b : VarBuf pageSize} {l : List (Cell pageSize)} {p : Option Addr}
    (hl : Segment b.mem VbufPage.next p l none) (src : List UInt8) :
    ∃ mem', b.readv (l.map freeSegment) src = .ok { b with mem := mem' } ∧
      Segment mem' VbufPage.next p (stored l src) none ∧
      ∀ a, a ∉ l.map Prod.fst → mem' a = b.mem a := by
  induction l generalizing b p src with
  | nil => exact ⟨b.mem, rfl, hl, fun a _ => rfl⟩
  | cons x l ih =>
      have hnodup := hl.nodup
      rw [List.map_cons, List.nodup_cons] at hnodup
      obtain ⟨rfl, hx, hl⟩ := hl
      obtain ⟨mem', hrun, hseg, hmem⟩ :=
        ih (b := b.setPage x.1 (x.2.fill x.2.offsetWr (src.take x.2.wrSize)))
          (hl.update_of_notMem hnodup.1) (src.drop x.2.wrSize)
      refine ⟨mem', ?_, ⟨rfl, ?_, hseg⟩, fun a ha => ?_⟩
      · rw [List.map_cons, readv, freeSegment, deref_some hx]
        exact hrun
      · exact (hmem x.1 hnodup.1).trans (Function.update_self _ _ _)
      · rw [List.map_cons, List.mem_cons, not_or] at ha
        rw [hmem a ha.2]
        exact Function.update_of_ne ha.1 _ _

/-- `readv` leaves the contents, and the bytes are in the free space. -/
theorem Shape.readv {b : VarBuf pageSize} {pre mid post : List (Cell pageSize)}
    {w : Cell pageSize} (h : b.Shape full pre mid w post) (src : List UInt8) :
    ∃ b' w' post', b.readv ((w :: post).map freeSegment) src = .ok b' ∧
      b'.Shape full pre mid w' post' ∧ w'.2.bytes = w.2.bytes ∧
      w' :: post' = stored (w :: post) src := by
  obtain ⟨mem', hrun, hseg, hmem⟩ := readv_eq h.wr_end src
  have hnodup := h.nodup
  rw [← List.append_assoc, List.map_append, List.nodup_append] at hnodup
  have hkeep : ∀ x ∈ pre ++ mid, mem' x.1 = b.mem x.1 := fun x hx =>
    hmem x.1 fun hwr => hnodup.2.2 x.1 (List.mem_map_of_mem hx) x.1 hwr rfl
  have hfit : (src.take w.2.wrSize).length ≤ w.2.wrSize := by
    rw [List.length_take]
    exact Nat.min_le_left _ _
  refine ⟨_, _, _, hrun, ?_, h.wr_ordered.bytes_fill hfit, rfl⟩
  exact
    { list_rd := h.list_rd.congr fun x hx => hkeep x (List.mem_append_left mid hx)
      rd_wr := h.rd_wr.congr fun x hx => hkeep x (List.mem_append_right pre hx)
      wr_end := hseg
      pre_ordered := h.pre_ordered
      pre_used := h.pre_used
      mid_full := h.mid_full
      wr_ordered := h.wr_ordered
      post_untouched := stored_untouched h.post_untouched _
      lt_fresh := by
        have hlt : ∀ a ∈ (pre ++ (mid ++ w :: post)).map Prod.fst, a < b.fresh := by
          intro a ha
          obtain ⟨x, hx, rfl⟩ := List.mem_map.1 ha
          exact h.lt_fresh x hx
        intro x hx
        refine hlt x.1 ?_
        have hx := List.mem_map_of_mem (f := Prod.fst) hx
        rw [List.map_append, List.map_append] at hx ⊢
        rwa [← map_fst_stored (w :: post) src] }

/-! ## The loop of `wr_position` -/

@[simp] theorem wrPositionLoop_zero (fuel : Nat) (b : VarBuf pageSize) :
    wrPositionLoop fuel b 0 = .ok (b, 0) := by
  cases fuel <;> rfl

/-- The write cursor leaves the page `w` after a commit. -/
def commitWr (b : VarBuf pageSize) (w : Cell pageSize) (n : Nat) : VarBuf pageSize :=
  { b.setPage w.1 (w.2.commit n) with pageWr := w.2.next }

theorem wrPositionLoop_page {b : VarBuf pageSize} {w : Cell pageSize} {n fuel : Nat}
    (hwr : b.pageWr = some w.1) (hw : b.mem w.1 = some w.2) (hn : n ≠ 0) :
    wrPositionLoop (fuel + 1) b n =
      wrPositionLoop fuel (b.commitWr w (min n w.2.wrSize)) (n - min n w.2.wrSize) := by
  have hmv : (if n > w.2.wrSize then w.2.wrSize else n) = min n w.2.wrSize := by
    split <;> omega
  obtain ⟨n, rfl⟩ := Nat.exists_eq_succ_of_ne_zero hn
  rw [wrPositionLoop, if_neg (by simp [hwr]), hwr, deref_some hw]
  simp only [Fallible.ok_bind, hmv, commitWr]

theorem wrPositionLoop_null {b : VarBuf pageSize} (hwr : b.pageWr = none) {fuel : Nat}
    (hfuel : 0 < fuel) (n : Nat) : wrPositionLoop fuel b n = .ok (b, n) := by
  obtain ⟨fuel, rfl⟩ := Nat.exists_eq_add_one.2 hfuel
  cases n with
  | zero => rfl
  | succ n => exact if_pos hwr

theorem Shape.commitWr {b : VarBuf pageSize} {pre mid post : List (Cell pageSize)}
    {w y : Cell pageSize} (h : b.Shape False pre mid w (y :: post)) {n : Nat}
    (hn : n ≤ w.2.wrSize) :
    (b.commitWr w n).Shape False pre (mid ++ [(w.1, w.2.commit n)]) y post :=
  (h.setWr (v := w.2.commit n) rfl (h.wr_ordered.commit hn)).advanceWr False.elim

/-- If the last page is not needed, the bytes are readable and the cursor is on a page. -/
theorem Shape.wrPositionLoop {b : VarBuf pageSize} {pre mid post : List (Cell pageSize)}
    {w : Cell pageSize} (h : b.Shape False pre mid w post) {src : List UInt8}
    (hpending : Pending (w :: post) src) (hsrc : src ≠ [])
    (hfit : src.length ≤ room (w :: post).dropLast) {fuel : Nat} (hfuel : post.length < fuel) :
    ∃ b' mid' w' post', VarBuf.wrPositionLoop fuel b src.length = .ok (b', 0) ∧
      b'.Shape False pre mid' w' post' ∧
        contents (mid' ++ [w']) = contents (mid ++ [w]) ++ src := by
  have hpos : src.length ≠ 0 := fun hzero => hsrc (List.length_eq_zero_iff.1 hzero)
  induction post generalizing b mid w src fuel with
  | nil => exact absurd (Nat.le_zero.1 hfit) hpos
  | cons y post ih =>
      obtain ⟨fuel, rfl⟩ := Nat.exists_eq_add_one.2 (Nat.zero_lt_of_lt hfuel)
      have hmin : min src.length w.2.wrSize = (src.take w.2.wrSize).length := by
        rw [List.length_take, Nat.min_comm]
      have hle : (src.take w.2.wrSize).length ≤ w.2.wrSize := by
        rw [List.length_take]
        exact Nat.min_le_left _ _
      have hrest : src.length - (src.take w.2.wrSize).length = (src.drop w.2.wrSize).length := by
        rw [List.length_take, List.length_drop]
        omega
      have hshape := h.commitWr hle
      have hbytes : contents (mid ++ [(w.1, w.2.commit (src.take w.2.wrSize).length)] ++ [y]) =
          contents (mid ++ [w]) ++ src.take w.2.wrSize := by
        have hcommit := h.wr_ordered.bytes_commit hle
        rw [hpending.1] at hcommit
        simp only [contents_append, contents_cons, contents_nil, hcommit,
          (h.post_untouched y (by simp)).bytes, List.append_nil, List.append_assoc]
      by_cases hlast : src.drop w.2.wrSize = []
      · refine ⟨_, _, y, post, ?_, hshape, ?_⟩
        · rw [wrPositionLoop_page h.pageWr_eq h.mem_wr hpos, hmin, hrest, hlast, List.length_nil,
            wrPositionLoop_zero]
        · have hall := List.take_append_drop w.2.wrSize src
          rw [hlast, List.append_nil] at hall
          rw [hbytes, hall]
      · -- the free space of the write page is used up
        have hfit' : (src.drop w.2.wrSize).length ≤ room (y :: post).dropLast := by
          rw [List.dropLast_cons_cons, room_cons] at hfit
          rw [List.length_drop]
          omega
        obtain ⟨b', mid', w', post', hrun, hshape', hcontents⟩ :=
          ih hshape hpending.2 hlast hfit' (by simpa using hfuel)
            fun hzero => hlast (List.length_eq_zero_iff.1 hzero)
        refine ⟨b', mid', w', post', ?_, hshape', ?_⟩
        · rw [wrPositionLoop_page h.pageWr_eq h.mem_wr hpos, hmin, hrest]
          exact hrun
        · rw [hcontents, hbytes, List.append_assoc, List.take_append_drop]

/-- If the last page is needed, the write cursor is null in the end. -/
theorem Shape.wrPositionLoop_off {b : VarBuf pageSize} {pre mid post : List (Cell pageSize)}
    {w : Cell pageSize} (h : b.Shape False pre mid w post) {n : Nat}
    (hlast : room (w :: post).dropLast < n) {fuel : Nat} (hfuel : post.length + 1 < fuel) :
    ∃ b' l, VarBuf.wrPositionLoop fuel b n = .ok (b', n - room (w :: post)) ∧
      b'.pageWr = none ∧ b'.pageRd ≠ none ∧ Segment b'.mem VbufPage.next b'.pageRd l none ∧
        l.length < b'.walkFuel := by
  have hpos : n ≠ 0 := Nat.ne_of_gt (Nat.zero_lt_of_lt hlast)
  induction post generalizing b mid w n fuel with
  | nil =>
      obtain ⟨fuel, rfl⟩ := Nat.exists_eq_add_one.2 (Nat.zero_lt_of_lt hfuel)
      have hshape := h.setWr (v := w.2.commit (min n w.2.wrSize)) rfl
        (h.wr_ordered.commit (Nat.min_le_right _ _))
      have hlen := hshape.length_le_fresh
      refine ⟨b.commitWr w (min n w.2.wrSize), mid ++ [(w.1, w.2.commit (min n w.2.wrSize))], ?_,
        segment_nil.1 h.next_wr, hshape.pageRd_ne_none, hshape.rd_wr.append hshape.wr_end, ?_⟩
      · rw [wrPositionLoop_page h.pageWr_eq h.mem_wr hpos,
          wrPositionLoop_null (segment_nil.1 h.next_wr) (by omega), room_cons, room_nil]
        congr 2
        omega
      · rw [List.length_append] at hlen
        exact Nat.lt_succ_of_le (Nat.le_trans (Nat.le_add_left _ _) hlen)
  | cons y post ih =>
      obtain ⟨fuel, rfl⟩ := Nat.exists_eq_add_one.2 (Nat.zero_lt_of_lt hfuel)
      rw [List.dropLast_cons_cons, room_cons] at hlast
      have hmin : min n w.2.wrSize = w.2.wrSize := by omega
      obtain ⟨b', l, hrun, hrest⟩ := ih (h.commitWr (Nat.le_refl w.2.wrSize))
        (n := n - w.2.wrSize) (by omega) (by simpa using hfuel) (by omega)
      refine ⟨b', l, ?_, hrest⟩
      rw [wrPositionLoop_page h.pageWr_eq h.mem_wr hpos, hmin, room_cons w, ← Nat.sub_sub]
      exact hrun

/-- A walk that meets no write page runs over the end of the chain. -/
theorem foldToWr_off {σ : Type} {b : VarBuf pageSize} (f : σ → VbufPage pageSize → σ)
    {l : List (Cell pageSize)} {p : Option Addr} {fuel : Nat} (acc : σ)
    (hl : Segment b.mem VbufPage.next p l none) (hoff : ∀ x ∈ l, b.pageWr ≠ some x.1)
    (hfuel : l.length < fuel) :
    b.foldToWr f false false fuel p acc = .error .badPointer := by
  induction l generalizing p fuel acc with
  | nil =>
      obtain ⟨fuel, rfl⟩ := Nat.exists_eq_add_one.2 hfuel
      rw [segment_nil.1 hl, foldToWr]
      by_cases hwr : none = b.pageWr
      · rw [← hwr]
        rfl
      · rw [if_neg (by simp [hwr])]
        rfl
  | cons x l ih =>
      obtain ⟨fuel, rfl⟩ := Nat.exists_eq_add_one.2 (Nat.zero_lt_of_lt hfuel)
      obtain ⟨rfl, hx, hl⟩ := hl
      have hne : ¬(some x.1 = b.pageWr ∨ false = true ∧ some x.1 = none) := by
        simpa using (hoff x (by simp)).symm
      simp only [foldToWr, if_neg hne, deref_some hx]
      exact ih (f acc x.2) hl (fun y hy => hoff y (List.mem_cons_of_mem x hy))
        (by simpa using hfuel)

/-- Then `length` follows the null pointer. -/
theorem length_off {b : VarBuf pageSize} {l : List (Cell pageSize)}
    (hoff : ∀ x ∈ l, b.pageWr ≠ some x.1) (hrd : b.pageRd ≠ none)
    (hl : Segment b.mem VbufPage.next b.pageRd l none) (hfuel : l.length < b.walkFuel) :
    b.length = .error .badPointer := by
  rw [VarBuf.length, if_neg hrd, foldToWr_off _ _ hl hoff hfuel]

/-! ## What a receive commits -/

/-- The number of bytes that the segments have room for. -/
def total (vc : List Iovec) : Nat := (vc.map Iovec.len).sum

theorem total_freeSegment (l : List (Cell pageSize)) : total (l.map freeSegment) = room l := by
  rw [total, room, List.map_map]
  rfl

theorem room_stored (l : List (Cell pageSize)) (src : List UInt8) :
    room (stored l src) = room l ∧ room (stored l src).dropLast = room l.dropLast := by
  simp only [room, List.map_dropLast, map_wrSize_stored, and_self]

/-- After `reserve(len)` and a `readv` of `src` into the segments, `wr_position` makes the
buffer act as the old contents followed by `src` exactly if the segments without the last one
have room for `src`. -/
theorem wrPosition_commits_iff (hsize : 0 < pageSize) (raw : Addr → Nat → UInt8)
    (ops : List Op) :
    ∃ (b : VarBuf pageSize) (w : List UInt8),
      Machine.run VarBuf.exec (new raw) ops = .ok (b, (Fifo.run ops).2) ∧ b.toString = .ok w ∧
      ∀ len, 0 < len → ∃ b₁ vc, b.reserve len = .ok b₁ ∧ b₁.wrIovec = .ok vc ∧ len ≤ total vc ∧
        ∀ src : List UInt8, src.length ≤ total vc → ∃ b₂, b₁.readv vc src = .ok b₂ ∧
          ((∃ b₃, b₂.wrPosition src.length = .ok (b₃, src.length) ∧ b₃.ActsAs (w ++ src)) ↔
            src.length ≤ total vc.dropLast) := by
  obtain ⟨b, hrun, hrep⟩ := represents_run hsize raw ops
  refine ⟨b, _, hrun, hrep.toString, fun len _ => ?_⟩
  obtain ⟨b₁, pre, mid, w, post, hreserve, h₁, hw, hlen⟩ := hrep.reserve hsize len
  refine ⟨b₁, _, hreserve, h₁.wrIovec, by rwa [total_freeSegment], fun src hsrc => ?_⟩
  obtain ⟨b₂, w₂, post₂, hreadv, h₂, hbytes, hstored⟩ := h₁.readv src
  refine ⟨b₂, hreadv, ?_⟩
  have h₂ := h₂.loose
  have hroom := room_stored (w :: post) src
  rw [← hstored] at hroom
  rw [total_freeSegment] at hsrc
  rw [← List.map_dropLast, total_freeSegment, ← hroom.2, hw]
  have hcontents : contents (mid ++ [w₂]) = contents (mid ++ [w]) := by simp [hbytes]
  have hfuel' := h₂.post_lt_walkFuel
  have hfuel : post₂.length < b₂.walkFuel := Nat.lt_of_succ_lt hfuel'
  constructor
  · rintro ⟨b₃, hcommit, hacts⟩
    by_contra hlast
    obtain ⟨b', l, hloop, hwr, hrd, hl, hwalk⟩ :=
      h₂.wrPositionLoop_off (Nat.lt_of_not_le hlast) hfuel'
    rw [VarBuf.wrPosition, hloop] at hcommit
    obtain ⟨rfl, _⟩ := Prod.mk.inj (Except.ok.inj hcommit)
    have hlength := hacts.length
    rw [length_off (by simp [hwr]) hrd hl hwalk] at hlength
    cases hlength
  · intro hfit
    by_cases hempty : src = []
    · subst hempty
      refine ⟨b₂, by simp [VarBuf.wrPosition], ?_⟩
      rw [List.append_nil, ← hcontents]
      exact h₂.represents.actsAs hsize
    · have hpending : Pending (w₂ :: post₂) src := by
        rw [hstored]
        refine pending_stored (fun x hx => ?_) src
        rcases List.mem_cons.1 hx with rfl | hx
        · exact h₁.wr_ordered
        · exact (h₁.post_untouched x hx).ordered
      obtain ⟨b₃, mid₃, w₃, post₃, hloop, h₃, hbytes₃⟩ :=
        h₂.wrPositionLoop hpending hempty hfit hfuel
      refine ⟨b₃, by simp [VarBuf.wrPosition, hloop], ?_⟩
      rw [← hcontents, ← hbytes₃]
      exact h₃.represents.actsAs hsize

/-- Two-byte pages: of two pages the received bytes fill the first. -/
theorem wrPosition_commits_two : ∃ (b₁ b₂ b₃ : VarBuf 2) (vc : List Iovec),
    (new fun _ _ => 7).reserve 3 = .ok b₁ ∧ b₁.wrIovec = .ok vc ∧
      b₁.readv vc [1, 2] = .ok b₂ ∧ b₂.wrPosition 2 = .ok (b₃, 2) ∧ b₃.ActsAs [1, 2] := by
  obtain ⟨b, w, hrun, hw, hall⟩ :=
    wrPosition_commits_iff (by decide : 0 < 2) (fun _ _ => 7) []
  obtain ⟨rfl, _⟩ := Prod.mk.inj (Except.ok.inj hrun)
  obtain rfl : [] = w := Except.ok.inj hw
  obtain ⟨b₁, vc, hreserve, hvc, hlen, hsrc⟩ := hall 3 (by decide)
  obtain ⟨b₂, hreadv, hiff⟩ := hsrc [1, 2] (Nat.le_trans (by decide) hlen)
  obtain ⟨b₃, hcommit, hacts⟩ := hiff.mpr (by
    obtain rfl := Except.ok.inj hreserve
    obtain rfl := Except.ok.inj hvc
    decide)
  exact ⟨b₁, b₂, b₃, vc, hreserve, hvc, hreadv, hcommit, hacts⟩

/-- Two-byte pages: the received bytes fill the only page, and `length` follows a null
pointer. -/
theorem wrPosition_last_page : ∃ (b₁ b₂ b₃ : VarBuf 2) (vc : List Iovec),
    (new fun _ _ => 7).reserve 2 = .ok b₁ ∧ b₁.wrIovec = .ok vc ∧ total vc = 2 ∧
      b₁.readv vc [1, 2] = .ok b₂ ∧ b₂.wrPosition 2 = .ok (b₃, 2) ∧
        b₃.length = .error .badPointer :=
  ⟨_, _, _, _, rfl, rfl, rfl, rfl, rfl, rfl⟩

end VarBuf

end BoostCoro.Buffer
