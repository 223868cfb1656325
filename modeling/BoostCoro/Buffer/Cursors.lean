import BoostCoro.Buffer.Delimiter
import BoostCoro.Buffer.Gather
import BoostCoro.Buffer.Memory
import BoostCoro.Buffer.Scatter
/-!
# The cursors under every call

`rd_position` and `wr_position` can leave a cursor null, or the read cursor behind the write
page, and then `shrink` destroys the write page. `Connected` is what every call keeps even
so: the pages form a chain, each cursor is null or points into it, only the write cursor may
dangle, and nothing was written behind the write page. Where `length()` is defined the
buffer is well formed or has no read page.
-/

namespace BoostCoro.Buffer

open Linked

namespace VarBuf

variable {pageSize : Nat}

/-- The chain is `c`, and the cursors are as any run of calls leaves them. -/
structure Connected (b : VarBuf pageSize) (c : List (Cell pageSize)) : Prop where
  chain : Segment b.mem VbufPage.next b.pageList c none
  ordered : ∀ x ∈ c, x.2.Ordered
  lt_fresh : ∀ x ∈ c, x.1 < b.fresh
  rd : ∀ a, b.pageRd = some a → a ∈ c.map Prod.fst
  wr : ∀ a, b.pageWr = some a → b.mem a = none ∨ a ∈ c.map Prod.fst
  behind : ∀ l, Segment b.mem VbufPage.next b.pageWr l none → ∀ x ∈ l.tail, x.2.Untouched

/-! ## Pages of the chain -/

section

variable {b b' : VarBuf pageSize} {c : List (Cell pageSize)} {x : Cell pageSize} {a : Addr}

theorem Connected.length_le_fresh (h : b.Connected c) : c.length ≤ b.fresh := by
  have hlt : ∀ a ∈ c.map Prod.fst, a < b.fresh := by
    intro a ha
    obtain ⟨x, hx, rfl⟩ := List.mem_map.1 ha
    exact h.lt_fresh x hx
  simpa using length_le_of_nodup_lt h.chain.nodup hlt

/-- A page whose address is in the chain is a page of the chain. -/
theorem Connected.mem_of_addr (h : b.Connected c) (hx : b.mem x.1 = some x.2)
    (ha : x.1 ∈ c.map Prod.fst) : x ∈ c := by
  obtain ⟨y, hy, hyx⟩ := List.mem_map.1 ha
  have hcell := h.chain.cell_eq hy
  rw [hyx, hx] at hcell
  have heq : y = x := Prod.ext hyx (Option.some.inj hcell).symm
  exact heq ▸ hy

/-- The chain from one of its addresses on. -/
theorem Connected.split (h : b.Connected c) (ha : a ∈ c.map Prod.fst) :
    ∃ u l, c = u ++ l ∧ Segment b.mem VbufPage.next b.pageList u (some a) ∧
      Segment b.mem VbufPage.next (some a) l none := by
  obtain ⟨x, hx, rfl⟩ := List.mem_map.1 ha
  obtain ⟨u, v, rfl⟩ := List.append_of_mem hx
  obtain ⟨r, hu, hv⟩ := segment_append.1 h.chain
  rw [hv.1] at hu
  exact ⟨u, x :: v, rfl, hu, rfl, hv.2⟩

theorem Connected.next_mem (h : b.Connected c) (hx : x ∈ c) (ha : x.2.next = some a) :
    a ∈ c.map Prod.fst := by
  obtain ⟨u, v, rfl⟩ := List.append_of_mem hx
  obtain ⟨r, -, hv⟩ := segment_append.1 h.chain
  cases v with
  | nil => exact absurd (ha.symm.trans (segment_nil.1 hv.2.2)) (by simp)
  | cons y v =>
      have hy : y.1 = a := Option.some.inj (hv.2.2.1.symm.trans ha)
      rw [← hy]
      simp

/-- A page with a live pointer to it is in the chain, if the pointer is a cursor. -/
theorem Connected.wr_mem (h : b.Connected c) (hwr : b.pageWr = some x.1)
    (hx : b.mem x.1 = some x.2) : x ∈ c := by
  refine h.mem_of_addr hx ((h.wr x.1 hwr).resolve_left fun hnone => ?_)
  rw [hx] at hnone
  cases hnone

theorem Connected.rd_mem (h : b.Connected c) (hrd : b.pageRd = some x.1)
    (hx : b.mem x.1 = some x.2) : x ∈ c :=
  h.mem_of_addr hx (h.rd x.1 hrd)

/-! ## Buffers that are well formed -/

theorem Shape.connected {full : Prop} {pre mid post : List (Cell pageSize)} {w : Cell pageSize}
    (h : b.Shape full pre mid w post) : b.Connected (pre ++ (mid ++ w :: post)) where
  chain := h.chain
  ordered := by
    intro x hx
    rcases List.mem_append.1 hx with hx | hx
    · exact h.pre_ordered x hx
    · exact h.ordered_from_rd x hx
  lt_fresh := h.lt_fresh
  rd := by
    intro a ha
    have hrest := h.rd_wr.append h.wr_end
    cases hcells : mid ++ w :: post with
    | nil => simp at hcells
    | cons y l =>
        rw [hcells] at hrest
        have hy : y.1 = a := Option.some.inj (hrest.1.symm.trans ha)
        rw [← hy]
        simp
  wr := by
    intro a ha
    have hw : w.1 = a := Option.some.inj (h.pageWr_eq.symm.trans ha)
    rw [← hw]
    simp
  behind := by
    intro l hl
    rw [hl.unique h.wr_end]
    exact h.post_untouched

theorem Blank.connected (h : b.Blank) : b.Connected [] where
  chain := h.1
  ordered := nofun
  lt_fresh := nofun
  rd := by simp [h.2.1]
  wr := by simp [h.2.2]
  behind := by
    intro l hl
    rw [h.2.2] at hl
    cases l with
    | nil => exact nofun
    | cons y l => exact absurd hl.1 (by simp)

theorem Represents.connected {full : Prop} {s : List UInt8} (h : b.Represents full s) :
    ∃ c, b.Connected c := by
  rcases h with ⟨hblank, -⟩ | ⟨pre, mid, w, post, hshape, -⟩
  · exact ⟨_, hblank.connected⟩
  · exact ⟨_, hshape.connected⟩

/-- A buffer whose write page is found from the read page on is well formed. -/
theorem Connected.shape (h : b.Connected c) {u mid post : List (Cell pageSize)}
    {w : Cell pageSize} (hc : c = u ++ (mid ++ w :: post))
    (hu : Segment b.mem VbufPage.next b.pageList u b.pageRd)
    (hl : Segment b.mem VbufPage.next b.pageRd (mid ++ w :: post) none)
    (hwr : b.pageWr = some w.1) : b.Shape False u mid w post := by
  subst hc
  obtain ⟨r, hmid, hw⟩ := segment_append.1 hl
  rw [hw.1, ← hwr] at hmid
  have hend : Segment b.mem VbufPage.next b.pageWr (w :: post) none := ⟨hwr, hw.2⟩
  exact
    { list_rd := hu
      rd_wr := hmid
      wr_end := hend
      pre_ordered := fun x hx => h.ordered x (by simp [hx])
      pre_used := False.elim
      mid_full := fun x hx => ⟨h.ordered x (by simp [hx]), False.elim⟩
      wr_ordered := h.ordered w (by simp)
      post_untouched := h.behind _ hend
      lt_fresh := h.lt_fresh }

/-- Where `length()` is defined, the buffer is well formed or has no read page. -/
theorem Connected.shape_of_length (h : b.Connected c) {n : Nat} (hlength : b.length = .ok n) :
    b.pageRd = none ∨ ∃ pre mid w post, b.Shape False pre mid w post := by
  cases hrd : b.pageRd with
  | none => exact Or.inl rfl
  | some a =>
      obtain ⟨u, l, hc, hu, hl⟩ := h.split (h.rd a hrd)
      rw [← hrd] at hu hl
      have hlen := h.length_le_fresh
      rw [hc, List.length_append] at hlen
      have hfuel : l.length < b.walkFuel :=
        Nat.lt_succ_of_le (Nat.le_trans (Nat.le_add_left _ _) hlen)
      by_cases hoff : ∀ x ∈ l, b.pageWr ≠ some x.1
      · have herror := length_off hoff (by simp [hrd]) hl hfuel
        rw [hlength] at herror
        cases herror
      · push Not at hoff
        obtain ⟨w, hw, hwr⟩ := hoff
        obtain ⟨mid, post, rfl⟩ := List.append_of_mem hw
        exact Or.inr ⟨u, mid, w, post, h.shape hc hu hl hwr⟩

end

/-! ## Pages replaced, cursors moved -/

/-- What a page says of the chain and of the bytes it holds, apart from the bytes. -/
def linkAndOffsets (p : VbufPage pageSize) : Option Addr × Nat × Nat :=
  (p.next, p.offsetRd, p.offsetWr)

section

variable {b b' : VarBuf pageSize} {c : List (Cell pageSize)} {x : Cell pageSize} {a : Addr}
  {v : VbufPage pageSize}

theorem map_fst_of_keys {κ : Type} {key : VbufPage pageSize → κ} {l l' : List (Cell pageSize)}
    (h : l.map (fun x => (x.1, key x.2)) = l'.map fun x => (x.1, key x.2)) :
    l.map Prod.fst = l'.map Prod.fst := by
  have haddrs := congrArg (List.map Prod.fst) h
  rwa [List.map_map, List.map_map] at haddrs

/-- Where the same pages are at the same addresses, a segment is found again. -/
theorem segment_of_mem_eq {l : List (Cell pageSize)} {p q : Option Addr}
    (hl : Segment b'.mem VbufPage.next p l q)
    (hmem : ∀ x : Cell pageSize, b'.mem x.1 = some x.2 → b.mem x.1 = some x.2) :
    Segment b.mem VbufPage.next p l q :=
  hl.congr fun x hx => by rw [hmem x (hl.cell_eq hx), hl.cell_eq hx]

/-- A page may be replaced by one with the same link, and behind the write page only by an
untouched one. -/
theorem Connected.setPage (h : b.Connected c) (hx : x ∈ c) (hnext : v.next = x.2.next)
    (hv : v.Ordered) (hbehind : b.pageWr = some x.1 ∨ (x.2.Untouched → v.Untouched)) :
    ∃ c', (b.setPage x.1 v).Connected c' ∧ (x.1, v) ∈ c' := by
  have hmem := h.chain.cell_eq hx
  obtain ⟨u, l, rfl⟩ := List.append_of_mem hx
  have hchain := segment_replace h.chain hnext
  have haddrs : (u ++ (x.1, v) :: l).map Prod.fst = (u ++ x :: l).map Prod.fst := by simp
  have hback : ∀ y ∈ u ++ (x.1, v) :: l, y = (x.1, v) ∨ y ∈ u ++ x :: l := by
    intro y hy
    simp only [List.mem_append, List.mem_cons] at hy ⊢
    grind
  refine ⟨u ++ (x.1, v) :: l,
    ⟨hchain, fun y hy => ?_, fun y hy => ?_, ?_, fun a ha => ?_, ?_⟩, by simp⟩
  · rcases hback y hy with rfl | hy
    · exact hv
    · exact h.ordered y hy
  · rcases hback y hy with rfl | hy
    · exact h.lt_fresh x hx
    · exact h.lt_fresh y hy
  · rw [haddrs]
    exact h.rd
  · rw [haddrs]
    rcases h.wr a ha with hnone | ha
    · have hne : a ≠ x.1 := by
        rintro rfl
        rw [hmem] at hnone
        cases hnone
      exact Or.inl ((Function.update_of_ne hne _ _).trans hnone)
    · exact Or.inr ha
  · -- the pages behind the write page are those from before, `x` among them or not
    intro l' hl' y hy
    have hsame : Same VbufPage.next (b.setPage x.1 v) b := (Same.setPage hmem hnext).symm
    obtain ⟨l, hl, hmap⟩ := hsame.segment (fun _ _ heq => heq) hl'
    have htail : l.tail.map Prod.fst = l'.tail.map Prod.fst := by
      rw [List.map_tail, List.map_tail, map_fst_of_keys hmap]
    obtain ⟨z, hz, hzy⟩ : ∃ z ∈ l.tail, z.1 = y.1 :=
      List.mem_map.1 (htail ▸ List.mem_map_of_mem hy)
    have huntouched := h.behind l hl z hz
    have hzmem := hl.cell_eq (List.mem_of_mem_tail hz)
    have hymem := hl'.cell_eq (List.mem_of_mem_tail hy)
    by_cases hyx : y.1 = x.1
    · rw [hyx] at hymem hzy
      have hself : (b.setPage x.1 v).mem x.1 = some v := Function.update_self _ _ _
      have hyv : v = y.2 := Option.some.inj (hself.symm.trans hymem)
      rw [hzy, hmem] at hzmem
      rw [← hyv]
      refine (hbehind.resolve_left fun hwr => ?_) (Option.some.inj hzmem ▸ huntouched)
      -- the write page itself is not behind the write page
      cases l with
      | nil => cases hz
      | cons w l =>
          have hnodup := hl.nodup
          rw [List.map_cons, List.nodup_cons] at hnodup
          have hw : w.1 = x.1 := Option.some.inj (hl.1.symm.trans hwr)
          rw [hw, ← hzy] at hnodup
          exact hnodup.1 (List.mem_map_of_mem hz)
    · have hyb : b.mem y.1 = some y.2 := (Function.update_of_ne hyx _ _).symm.trans hymem
      rw [hzy, hyb] at hzmem
      exact Option.some.inj hzmem ▸ huntouched

theorem Connected.setRd (h : b.Connected c) {q : Option Addr}
    (hq : ∀ a, q = some a → a ∈ c.map Prod.fst) : Connected { b with pageRd := q } c :=
  { h with rd := hq }

/-- The write cursor moves on to the next page. -/
theorem Connected.advanceWr (h : b.Connected c) (hwr : b.pageWr = some x.1)
    (hx : b.mem x.1 = some x.2) : Connected { b with pageWr := x.2.next } c :=
  { h with
    wr := fun _ ha => Or.inr (h.next_mem (h.wr_mem hwr hx) ha)
    behind := fun _ hl y hy =>
      h.behind (x :: _) ⟨hwr, hx, hl⟩ y (List.mem_of_mem_tail hy) }

/-- Pages whose links and offsets stay keep the cursors. -/
theorem Connected.same (h : b.Connected c) (hsame : Same linkAndOffsets b b')
    (hrd : b'.pageRd = b.pageRd) (hwr : b'.pageWr = b.pageWr) : ∃ c', b'.Connected c' := by
  have hnext : ∀ p p' : VbufPage pageSize, linkAndOffsets p = linkAndOffsets p' →
      p.next = p'.next := fun p p' heq => congrArg Prod.fst heq
  have hoffsets : ∀ a p', b'.mem a = some p' → ∃ p, b.mem a = some p ∧
      p'.offsetRd = p.offsetRd ∧ p'.offsetWr = p.offsetWr := by
    intro a p' hp'
    have hmem := hsame.mem a
    rw [hp', Option.map_some] at hmem
    obtain ⟨p, hp, heq⟩ := Option.map_eq_some_iff.1 hmem.symm
    simp only [linkAndOffsets, Prod.mk.injEq] at heq
    exact ⟨p, hp, heq.2.1.symm, heq.2.2.symm⟩
  obtain ⟨c', hc', hmap⟩ := hsame.segment hnext h.chain
  have haddrs := map_fst_of_keys hmap
  have hcell : ∀ x ∈ c', ∃ y ∈ c, y.1 = x.1 ∧ x.2.offsetRd = y.2.offsetRd ∧
      x.2.offsetWr = y.2.offsetWr := by
    intro x hx
    obtain ⟨p, hp, heq⟩ := hoffsets x.1 x.2 (hc'.cell_eq hx)
    have haddr : x.1 ∈ c.map Prod.fst := haddrs ▸ List.mem_map_of_mem hx
    exact ⟨(x.1, p), h.mem_of_addr hp haddr, rfl, heq⟩
  refine ⟨c', hsame.pageList ▸ hc', fun x hx => ?_, fun x hx => ?_, ?_, fun a ha => ?_, ?_⟩
  · obtain ⟨y, hy, -, hyrd, hywr⟩ := hcell x hx
    rw [VbufPage.Ordered, hyrd, hywr]
    exact h.ordered y hy
  · obtain ⟨y, hy, hyx, -⟩ := hcell x hx
    rw [← hyx, hsame.fresh]
    exact h.lt_fresh y hy
  · rw [hrd, haddrs]
    exact h.rd
  · rw [haddrs]
    rcases h.wr a (hwr ▸ ha) with hnone | ha
    · exact Or.inl (hsame.mem_none hnone)
    · exact Or.inr ha
  · intro l' hl' x hx
    obtain ⟨l, hl, hmap⟩ := hsame.symm.segment hnext hl'
    have htail : l.tail.map (fun x => (x.1, linkAndOffsets x.2)) =
        l'.tail.map fun x => (x.1, linkAndOffsets x.2) := by
      rw [List.map_tail, List.map_tail, hmap]
    obtain ⟨y, hy, heq⟩ := List.mem_map.1 (htail ▸
      List.mem_map_of_mem (f := fun x : Cell pageSize => (x.1, linkAndOffsets x.2)) hx)
    have huntouched := h.behind l (hwr ▸ hl) y hy
    simp only [linkAndOffsets, Prod.mk.injEq] at heq
    rw [VbufPage.Untouched, ← heq.2.2.1, ← heq.2.2.2]
    exact huntouched

end

/-! ## The loops -/

section

variable {b b' : VarBuf pageSize} {c : List (Cell pageSize)}

/-- The write page is replaced, and the write cursor may move on. -/
theorem Connected.replaceWr {x : Cell pageSize} {v : VbufPage pageSize} (h : b.Connected c)
    (hwr : b.pageWr = some x.1) (hx : b.mem x.1 = some x.2) (hnext : v.next = x.2.next)
    (hv : v.Ordered) (p : Prop) [Decidable p] :
    ∃ c', Connected
      (if p then { b.setPage x.1 v with pageWr := x.2.next } else b.setPage x.1 v) c' := by
  obtain ⟨c', h', -⟩ := h.setPage (h.wr_mem hwr hx) hnext hv (Or.inl hwr)
  split
  · rw [← hnext]
    exact ⟨c', h'.advanceWr (x := (x.1, v)) hwr (Function.update_self _ _ _)⟩
  · exact ⟨c', h'⟩

theorem Connected.writeLoop {fuel : Nat} {src : List UInt8} (h : b.Connected c)
    (hrun : VarBuf.writeLoop fuel b src = .ok b') : ∃ c', b'.Connected c' := by
  induction fuel generalizing b c src with
  | zero =>
      cases src with
      | nil =>
          cases hrun
          exact ⟨c, h⟩
      | cons y src => cases hrun
  | succ fuel ih =>
      cases src with
      | nil =>
          cases hrun
          exact ⟨c, h⟩
      | cons y src =>
          have hnext : ∀ (b₁ : VarBuf pageSize) src₁, (∃ c₁, b₁.Connected c₁) →
              (if b₁.pageWr = none then .error .assertFailed
                else VarBuf.writeLoop fuel b₁ src₁) = .ok b' → ∃ c', b'.Connected c' := by
            intro b₁ src₁ ⟨c₁, h₁⟩ hrun
            by_cases hwr : b₁.pageWr = none
            · rw [if_pos hwr] at hrun
              cases hrun
            · rw [if_neg hwr] at hrun
              exact ih h₁ hrun
          rw [VarBuf.writeLoop] at hrun
          by_cases hwr : b.pageWr = none
          · rw [if_pos hwr] at hrun
            cases hrun
          · rw [if_neg hwr] at hrun
            obtain ⟨x, hx, hrun⟩ := Fallible.bind_eq_ok.1 hrun
            obtain ⟨hpx, hmem⟩ := deref_eq_ok hx
            have hordered := h.ordered x (h.wr_mem hpx hmem)
            refine hnext _ _
              (h.replaceWr hpx hmem (v := x.2.store _) rfl (hordered.store ?_) _) hrun
            rw [List.length_take]
            split <;> omega

theorem Connected.wrPositionLoop {fuel n rest : Nat} (h : b.Connected c)
    (hrun : VarBuf.wrPositionLoop fuel b n = .ok (b', rest)) : ∃ c', b'.Connected c' := by
  induction fuel generalizing b c n with
  | zero =>
      cases n with
      | zero =>
          cases hrun
          exact ⟨c, h⟩
      | succ n => cases hrun
  | succ fuel ih =>
      by_cases hn : n = 0
      · subst hn
        cases hrun
        exact ⟨c, h⟩
      by_cases hwr : b.pageWr = none
      · rw [wrPositionLoop_null hwr (Nat.succ_pos fuel)] at hrun
        cases hrun
        exact ⟨c, h⟩
      · obtain ⟨a, ha⟩ := Option.ne_none_iff_exists'.1 hwr
        cases hp : b.mem a with
        | none =>
            obtain ⟨n, rfl⟩ := Nat.exists_eq_succ_of_ne_zero hn
            have hderef : b.deref b.pageWr = .error .badPointer := by rw [ha, deref, hp]
            rw [VarBuf.wrPositionLoop, if_neg hwr, hderef] at hrun
            cases hrun
        | some p =>
            rw [wrPositionLoop_page (w := (a, p)) ha hp hn] at hrun
            have hordered := h.ordered _ (h.wr_mem (x := (a, p)) ha hp)
            obtain ⟨c₁, h₁⟩ := h.replaceWr (x := (a, p)) ha hp (v := p.commit (min n p.wrSize)) rfl
              (hordered.commit (Nat.min_le_right _ _)) True
            exact ih h₁ hrun

/-- Bytes of the read page are consumed, and the read cursor may move on. -/
theorem Connected.replaceRd {x : Cell pageSize} (h : b.Connected c) (hx : x ∈ c) {n : Nat}
    (hn : n ≤ x.2.rdSize) (p : Prop) [Decidable p] :
    ∃ c', Connected
      (if p then { b.setPage x.1 (x.2.consume n) with pageRd := x.2.next }
        else b.setPage x.1 (x.2.consume n)) c' := by
  have hordered := h.ordered x hx
  have huntouched : x.2.Untouched → (x.2.consume n).Untouched := by
    intro ⟨hrd, hwr⟩
    rw [hordered.rdSize_eq] at hn
    simp only [VbufPage.Untouched, VbufPage.consume]
    omega
  obtain ⟨c', h', hx'⟩ := h.setPage hx (v := x.2.consume n) rfl (hordered.consume hn)
    (Or.inr huntouched)
  split
  · exact ⟨c', h'.setRd fun _ ha => h'.next_mem hx' ha⟩
  · exact ⟨c', h'⟩

theorem Connected.rdPositionLoop {fuel n rest : Nat} (h : b.Connected c)
    (hrun : VarBuf.rdPositionLoop fuel b n = .ok (b', rest)) : ∃ c', b'.Connected c' := by
  induction fuel generalizing b c n with
  | zero =>
      cases n with
      | zero =>
          cases hrun
          exact ⟨c, h⟩
      | succ n => cases hrun
  | succ fuel ih =>
      by_cases hn : n = 0
      · subst hn
        cases hrun
        exact ⟨c, h⟩
      by_cases hrd : b.pageRd = none
      · obtain ⟨n, rfl⟩ := Nat.exists_eq_succ_of_ne_zero hn
        rw [VarBuf.rdPositionLoop, if_pos hrd] at hrun
        cases hrun
        exact ⟨c, h⟩
      · obtain ⟨a, ha⟩ := Option.ne_none_iff_exists'.1 hrd
        obtain ⟨x, hx, rfl⟩ := List.mem_map.1 (h.rd a ha)
        rw [rdPositionLoop_page ha (h.chain.cell_eq hx) hn] at hrun
        obtain ⟨c₁, h₁⟩ := h.replaceRd hx (n := min n x.2.rdSize) (Nat.min_le_right _ _) True
        exact ih h₁ hrun

theorem Connected.readLoop {fuel want rest : Nat} {out out' : List UInt8} (h : b.Connected c)
    (hrun : VarBuf.readLoop fuel b want out = .ok (b', out', rest)) : ∃ c', b'.Connected c' := by
  induction fuel generalizing b c want out with
  | zero =>
      cases want with
      | zero =>
          cases hrun
          exact ⟨c, h⟩
      | succ want => cases hrun
  | succ fuel ih =>
      cases want with
      | zero =>
          cases hrun
          exact ⟨c, h⟩
      | succ want =>
          rw [VarBuf.readLoop] at hrun
          by_cases hrd : b.pageRd = none
          · rw [if_pos hrd] at hrun
            cases hrun
          · rw [if_neg hrd] at hrun
            obtain ⟨x, hx, hrun⟩ := Fallible.bind_eq_ok.1 hrun
            obtain ⟨hpx, hmem⟩ := deref_eq_ok hx
            have hnext : ∀ (b₁ : VarBuf pageSize) n o, (∃ c₁, b₁.Connected c₁) →
                VarBuf.readLoop fuel b₁ n o = .ok (b', out', rest) → ∃ c', b'.Connected c' := by
              rintro b₁ n o ⟨c₁, h₁⟩ hrun
              exact ih h₁ hrun
            refine hnext _ _ _ (h.replaceRd (h.rd_mem hpx hmem) ?_ _) hrun
            split <;> omega

/-- `readv` stores bytes and leaves links and offsets. -/
theorem readv_same {vc : List Iovec} {src : List UInt8} (hrun : b.readv vc src = .ok b') :
    Same linkAndOffsets b b' ∧ b'.pageRd = b.pageRd ∧ b'.pageWr = b.pageWr := by
  induction vc generalizing b src with
  | nil =>
      cases hrun
      exact ⟨Same.refl _ _, rfl, rfl⟩
  | cons iv vc ih =>
      rw [VarBuf.readv] at hrun
      obtain ⟨⟨a, p⟩, hp, hrun⟩ := Fallible.bind_eq_ok.1 hrun
      obtain ⟨hsame, hrd, hwr⟩ := ih hrun
      have hset : Same linkAndOffsets b (b.setPage a (p.fill iv.base (src.take iv.len))) :=
        Same.setPage (deref_eq_ok hp).2 rfl
      exact ⟨hset.trans hsame, hrd, hwr⟩


end

/-! ## The calls -/

section

variable {b b' : VarBuf pageSize} {c : List (Cell pageSize)}

/-- `shrink` destroys the pages before the read page, perhaps the write page with them. -/
theorem Connected.shrink (h : b.Connected c) :
    ∃ b₁ l, b.shrink = .ok b₁ ∧ b₁.Connected l ∧ b₁.pageRd = b.pageRd ∧
      b₁.pageList = b.pageRd := by
  obtain ⟨u, l, rfl, hu, hl⟩ : ∃ u l, c = u ++ l ∧
      Segment b.mem VbufPage.next b.pageList u b.pageRd ∧
      Segment b.mem VbufPage.next b.pageRd l none := by
    cases hrd : b.pageRd with
    | none => exact ⟨c, [], by simp, h.chain, rfl⟩
    | some a => exact h.split (h.rd a hrd)
  have hlen := h.length_le_fresh
  rw [List.length_append] at hlen
  obtain ⟨mem', hrun, hkeep, hgone⟩ :=
    shrink_eq hu hl (Nat.lt_succ_of_le (Nat.le_trans (Nat.le_add_right _ _) hlen))
  have hnodup := h.chain.nodup
  rw [List.map_append, List.nodup_append] at hnodup
  have hmem : ∀ x : Cell pageSize, mem' x.1 = some x.2 → b.mem x.1 = some x.2 := by
    intro x hx
    by_cases hxu : x.1 ∈ u.map Prod.fst
    · rw [hgone x.1 hxu] at hx
      cases hx
    · rwa [hkeep x.1 hxu] at hx
  refine ⟨_, l, hrun, ⟨?_, fun x hx => ?_, fun x hx => ?_, fun a ha => ?_, fun a ha => ?_, ?_⟩,
    rfl, rfl⟩
  · refine hl.congr fun x hx => hkeep x.1 fun hxu => ?_
    exact hnodup.2.2 x.1 hxu x.1 (List.mem_map_of_mem hx) rfl
  · exact h.ordered x (List.mem_append_right u hx)
  · exact h.lt_fresh x (List.mem_append_right u hx)
  · have hrd : b.pageRd = some a := ha
    have hhead := hl.head?_eq
    rw [hrd] at hhead
    exact List.mem_of_mem_head? hhead.symm
  · by_cases hau : a ∈ u.map Prod.fst
    · exact Or.inl (hgone a hau)
    · rcases h.wr a ha with hnone | hin
      · exact Or.inl ((hkeep a hau).trans hnone)
      · rw [List.map_append, List.mem_append] at hin
        exact Or.inr (hin.resolve_left hau)
  · exact fun l' hl' => h.behind l' (segment_of_mem_eq hl' hmem)

/-- A `reserve` that comes to an end leaves a well formed buffer. -/
theorem Connected.reserve (hsize : 0 < pageSize) (h : b.Connected c) {sz : Nat}
    (hrun : b.reserve sz = .ok b') : ∃ mid w post, b'.Shape False [] mid w post := by
  obtain ⟨b₁, l, hshrink, h₁, hrd, hlist⟩ := h.shrink
  by_cases hnone : b₁.pageWr = none ∨ (b₁.pageRd = none ∧ b₁.pageList = none)
  · obtain ⟨b₂, w₂, post₂, hreserve, h₂, -⟩ : ∃ b₂ w₂ post₂, b.reserve sz = .ok b₂ ∧
        b₂.Shape False [] [] w₂ post₂ ∧ _ := reserve_first hsize hshrink hnone sz
    obtain rfl := Except.ok.inj (hreserve.symm.trans hrun)
    exact ⟨[], w₂, post₂, h₂⟩
  · rw [hrd, hlist, and_self, not_or] at hnone
    obtain ⟨a, ha⟩ := Option.ne_none_iff_exists'.1 hnone.1
    have hrdlist : b₁.pageRd = b₁.pageList := hrd.trans hlist.symm
    cases hmem : b₁.mem a with
    | none =>
        -- the write page was destroyed, and `wr_size` follows the pointer to it
        have hderef : b₁.deref b₁.pageWr = .error .badPointer := by rw [ha, deref, hmem]
        have hwrSize : b₁.wrSize = .error .badPointer := by
          rw [ha] at hderef
          simp only [VarBuf.wrSize, walkFuel, ha, foldToEnd, hderef]
          rfl
        have hkeep : ¬(b₁.pageWr = none ∨ (b₁.pageRd = none ∧ b₁.pageList = none)) := by
          rw [hrd, hlist, and_self, not_or]
          exact hnone
        simp only [VarBuf.reserve, hshrink, Fallible.ok_bind, if_neg hkeep, if_neg hnone.1,
          hwrSize] at hrun
        cases hrun
    | some p =>
        have hin := h₁.wr_mem (x := (a, p)) ha hmem
        obtain ⟨mid, post, rfl⟩ := List.append_of_mem hin
        have hshape := h₁.shape (u := []) rfl hrdlist.symm (hrdlist ▸ h₁.chain) ha
        obtain ⟨l', t, hlast⟩ := (List.eq_nil_or_concat' ((a, p) :: post)).resolve_left (by simp)
        obtain ⟨b₂, w₂, post₂, hextend, h₂, -⟩ :=
          hshape.extend hsize hlast (Nat.le_add_left sz _)
        rw [hshape.reserve_eq hshrink hlast sz] at hrun
        obtain rfl := Except.ok.inj (hextend.symm.trans hrun)
        exact ⟨mid, w₂, post₂, h₂⟩

theorem Connected.write (hsize : 0 < pageSize) (h : b.Connected c) {src : List UInt8} {n : Nat}
    (hrun : b.write src = .ok (b', n)) : ∃ c', b'.Connected c' := by
  obtain ⟨b₁, hroom, hrun⟩ := Fallible.bind_eq_ok.1 hrun
  obtain ⟨b₂, hloop, hrun⟩ := Fallible.bind_eq_ok.1 hrun
  obtain ⟨curSz, -, hroom⟩ := Fallible.bind_eq_ok.1 hroom
  obtain ⟨rfl, -⟩ := Prod.mk.inj (Except.ok.inj hrun)
  by_cases hlt : src.length > curSz
  · rw [if_pos hlt] at hroom
    obtain ⟨mid, w, post, hshape⟩ := h.reserve hsize hroom
    exact hshape.connected.writeLoop hloop
  · rw [if_neg hlt] at hroom
    cases hroom
    exact h.writeLoop hloop

theorem Connected.reset (h : b.Connected c) (hrun : b.reset = .ok b') :
    ∃ c', b'.Connected c' := by
  have hlen := h.length_le_fresh
  obtain ⟨mem', hpages, hseg, -⟩ := resetPages_eq h.chain (Nat.lt_succ_of_le hlen)
  rw [VarBuf.reset, walkFuel, hpages] at hrun
  obtain rfl := Except.ok.inj hrun
  have hcells : ∀ x ∈ c.map resetCell, x.2.Untouched := by
    intro x hx
    obtain ⟨y, -, rfl⟩ := List.mem_map.1 hx
    exact VbufPage.untouched_reset y.2
  have hlist : ∀ a, b.pageList = some a → a ∈ (c.map resetCell).map Prod.fst := by
    intro a ha
    have hhead := hseg.head?_eq
    rw [ha] at hhead
    exact List.mem_of_mem_head? hhead.symm
  refine ⟨c.map resetCell, hseg, fun x hx => (hcells x hx).ordered, fun x hx => ?_, hlist,
    fun a ha => Or.inr (hlist a ha), fun l hl x hx => ?_⟩
  · obtain ⟨y, hy, rfl⟩ := List.mem_map.1 hx
    exact h.lt_fresh y hy
  · rw [hl.unique hseg] at hx
    exact hcells x (List.mem_of_mem_tail hx)

theorem Connected.clear (h : b.Connected c) (hrun : b.clear = .ok b') : b'.Connected [] := by
  obtain ⟨mem', hdestroy, -⟩ := destroyUntil_eq h.chain h.chain.nodup (by simp)
    (Nat.lt_succ_of_le h.length_le_fresh)
  rw [VarBuf.clear, walkFuel, hdestroy] at hrun
  obtain rfl := Except.ok.inj hrun
  exact Blank.connected ⟨rfl, rfl, rfl⟩

theorem Connected.readed (h : b.Connected c) (hrun : b.readed = .ok b') :
    ∃ c', b'.Connected c' := by
  obtain ⟨x, hx, hrun⟩ := Fallible.bind_eq_ok.1 hrun
  obtain ⟨hwr, hmem⟩ := deref_eq_ok hx
  obtain rfl := Except.ok.inj hrun
  have hin := h.wr_mem hwr hmem
  have hordered := h.ordered x hin
  obtain ⟨c', h', hx'⟩ := h.setPage hin (v := { x.2 with offsetRd := x.2.offsetWr }) rfl
    ⟨Nat.le_refl _, hordered.2⟩ (Or.inl hwr)
  refine ⟨c', h'.setRd fun a ha => ?_⟩
  have hin' := List.mem_map_of_mem (f := Prod.fst) hx'
  rwa [show x.1 = a from Option.some.inj (hwr.symm.trans ha)] at hin'

theorem Connected.exec (hsize : 0 < pageSize) (h : b.Connected c) {op : Op} {r : Result}
    (hrun : b.exec op = .ok (b', r)) : ∃ c', b'.Connected c' := by
  have hread : ∀ {len : Nat} {x : VarBuf pageSize × List UInt8 × Nat}, b.read len = .ok x →
      ∃ c', x.1.Connected c' := by
    intro len x hread
    obtain ⟨curLength, -, hread⟩ := Fallible.bind_eq_ok.1 hread
    obtain ⟨⟨b₁, out, rest⟩, hloop, hread⟩ := Fallible.bind_eq_ok.1 hread
    obtain rfl := Except.ok.inj hread
    exact h.readLoop hloop
  cases op with
  | write src =>
      obtain ⟨⟨b₁, n⟩, hwrite, hrun⟩ := Fallible.bind_eq_ok.1 hrun
      obtain ⟨rfl, -⟩ := Prod.mk.inj (Except.ok.inj hrun)
      exact h.write hsize hwrite
  | append src =>
      obtain ⟨⟨b₁, n⟩, hwrite, hrun⟩ := Fallible.bind_eq_ok.1 hrun
      obtain ⟨rfl, -⟩ := Prod.mk.inj (Except.ok.inj hrun)
      exact h.write hsize hwrite
  | assign src =>
      obtain ⟨⟨b₁, n⟩, hassign, hrun⟩ := Fallible.bind_eq_ok.1 hrun
      obtain ⟨rfl, -⟩ := Prod.mk.inj (Except.ok.inj hrun)
      obtain ⟨b₂, hreset, hwrite⟩ := Fallible.bind_eq_ok.1 hassign
      obtain ⟨c₂, h₂⟩ := h.reset hreset
      exact h₂.write hsize hwrite
  | read len =>
      obtain ⟨x, hx, hrun⟩ := Fallible.bind_eq_ok.1 hrun
      obtain ⟨rfl, -⟩ := Prod.mk.inj (Except.ok.inj hrun)
      exact hread hx
  | readBySize sz =>
      obtain ⟨x, hx, hrun⟩ := Fallible.bind_eq_ok.1 hrun
      obtain ⟨rfl, -⟩ := Prod.mk.inj (Except.ok.inj hrun)
      exact hread hx
  | reserve sz =>
      obtain ⟨b₁, hreserve, hrun⟩ := Fallible.bind_eq_ok.1 hrun
      obtain ⟨rfl, -⟩ := Prod.mk.inj (Except.ok.inj hrun)
      obtain ⟨mid, w, post, hshape⟩ := h.reserve hsize hreserve
      exact ⟨_, hshape.connected⟩
  | shrink =>
      obtain ⟨b₁, hshrink, hrun⟩ := Fallible.bind_eq_ok.1 hrun
      obtain ⟨rfl, -⟩ := Prod.mk.inj (Except.ok.inj hrun)
      obtain ⟨b₂, l, hshrink', h₂, -⟩ := h.shrink
      obtain rfl := Except.ok.inj (hshrink'.symm.trans hshrink)
      exact ⟨l, h₂⟩
  | reset =>
      obtain ⟨b₁, hreset, hrun⟩ := Fallible.bind_eq_ok.1 hrun
      obtain ⟨rfl, -⟩ := Prod.mk.inj (Except.ok.inj hrun)
      exact h.reset hreset
  | clear =>
      obtain ⟨b₁, hclear, hrun⟩ := Fallible.bind_eq_ok.1 hrun
      obtain ⟨rfl, -⟩ := Prod.mk.inj (Except.ok.inj hrun)
      exact ⟨[], h.clear hclear⟩

/-- The match that `find` sees ends within the readable bytes of its page. -/
def FindsWithin (b : VarBuf pageSize) (beyond : Addr → Nat → UInt8) (d : List UInt8) : Prop :=
  ∀ page x last, b.find beyond d = .ok (some page) → b.deref (some page) = .ok x →
    x.2.search (beyond x.1) d = .ok (some last) → last + d.length ≤ x.2.rdSize

/-- The read cursor goes on page by page, and no page changes. -/
theorem Connected.skipTo {page : Addr} {fuel readed n : Nat} {s s' : List UInt8}
    (h : b.Connected c) (hrun : VarBuf.skipTo page fuel b s readed = .ok (b', s', n)) :
    b'.Connected c ∧ b'.pageRd = some page ∧ b'.mem = b.mem := by
  induction fuel generalizing b s readed with
  | zero => cases hrun
  | succ fuel ih =>
      rw [VarBuf.skipTo] at hrun
      by_cases hrd : b.pageRd = some page
      · rw [if_pos hrd] at hrun
        cases hrun
        exact ⟨h, hrd, rfl⟩
      · rw [if_neg hrd] at hrun
        obtain ⟨x, hx, hrun⟩ := Fallible.bind_eq_ok.1 hrun
        obtain ⟨hpx, hmem⟩ := deref_eq_ok hx
        have hmoved := h.setRd (q := x.2.next) fun _ ha => h.next_mem (h.rd_mem hpx hmem) ha
        have hrest := ih hmoved hrun
        exact hrest

theorem Connected.readByEndofDelimer {beyond : Addr → Nat → UInt8} {d s s' : List UInt8} {n : Nat}
    (h : b.Connected c) (hwithin : b.FindsWithin beyond d)
    (hrun : b.readByEndofDelimer beyond d s = .ok (b', s', n)) : ∃ c', b'.Connected c' := by
  obtain ⟨page, hfind, hrun⟩ := Fallible.bind_eq_ok.1 hrun
  cases page with
  | none =>
      obtain ⟨rfl, -⟩ := Prod.mk.inj (Except.ok.inj hrun)
      exact ⟨c, h⟩
  | some page =>
      obtain ⟨⟨b₁, s₁, n₁⟩, hskip, hrun⟩ := Fallible.bind_eq_ok.1 hrun
      obtain ⟨h₁, hrd, hmem⟩ := h.skipTo hskip
      obtain ⟨x, hx, hrun⟩ := Fallible.bind_eq_ok.1 hrun
      obtain ⟨found, hsearch, hrun⟩ := Fallible.bind_eq_ok.1 hrun
      cases found with
      | none =>
          obtain ⟨rfl, -⟩ := Prod.mk.inj (Except.ok.inj hrun)
          exact ⟨c, h₁⟩
      | some last =>
          obtain ⟨y, hy, hrun⟩ := Fallible.bind_eq_ok.1 hrun
          obtain ⟨rfl, -⟩ := Prod.mk.inj (Except.ok.inj hrun)
          rw [hrd] at hy
          obtain rfl := Except.ok.inj (hx.symm.trans hy)
          obtain ⟨hpx, hcell⟩ := deref_eq_ok hx
          have hderef : b.deref (some page) = .ok x := by
            rw [hpx]
            exact deref_some (hmem ▸ hcell)
          exact h₁.replaceRd (h₁.rd_mem (hrd.trans hpx) hcell)
            (hwithin page x last hfind hderef hsearch) False

end

/-! ## Every run -/

/-- The buffers that calls on a new buffer lead to: also those that the socket functions make,
and what the system stores into the segments that `wr_iovec` lists. A delimiter read whose
match goes on behind the readable bytes leaves a page with the offsets out of order, which
holds nothing one could name; it is left out. -/
inductive Reached (raw : Addr → Nat → UInt8) : VarBuf pageSize → Prop
  | new : Reached raw (new raw)
  | call {b b' : VarBuf pageSize} {op : Op} {r : Result} (h : Reached raw b)
      (hexec : b.exec op = .ok (b', r)) : Reached raw b'
  | delimiter {b b' : VarBuf pageSize} {beyond : Addr → Nat → UInt8} {d s s' : List UInt8}
      {ret : Nat} (h : Reached raw b) (hwithin : b.FindsWithin beyond d)
      (hread : b.readByEndofDelimer beyond d s = .ok (b', s', ret)) : Reached raw b'
  | readed {b b' : VarBuf pageSize} (h : Reached raw b) (hreaded : b.readed = .ok b') :
      Reached raw b'
  | rdPosition {b b' : VarBuf pageSize} {inc ret : Nat} (h : Reached raw b)
      (hpos : b.rdPosition inc = .ok (b', ret)) : Reached raw b'
  | readv {b b' : VarBuf pageSize} {vc : List Iovec} {src : List UInt8} (h : Reached raw b)
      (hvc : b.wrIovec = .ok vc) (hread : b.readv vc src = .ok b') : Reached raw b'
  | wrPosition {b b' : VarBuf pageSize} {inc ret : Nat} (h : Reached raw b)
      (hpos : b.wrPosition inc = .ok (b', ret)) : Reached raw b'

theorem Reached.connected (hsize : 0 < pageSize) {raw : Addr → Nat → UInt8}
    {b : VarBuf pageSize} (h : Reached raw b) : ∃ c, b.Connected c := by
  induction h with
  | new => exact ⟨[], Blank.connected ⟨rfl, rfl, rfl⟩⟩
  | call _ hexec ih =>
      obtain ⟨c, hc⟩ := ih
      exact hc.exec hsize hexec
  | delimiter _ hwithin hread ih =>
      obtain ⟨c, hc⟩ := ih
      exact hc.readByEndofDelimer hwithin hread
  | readed _ hreaded ih =>
      obtain ⟨c, hc⟩ := ih
      exact hc.readed hreaded
  | rdPosition _ hpos ih =>
      obtain ⟨c, hc⟩ := ih
      obtain ⟨⟨b₁, rest⟩, hloop, hpos⟩ := Fallible.bind_eq_ok.1 hpos
      obtain ⟨rfl, -⟩ := Prod.mk.inj (Except.ok.inj hpos)
      exact hc.rdPositionLoop hloop
  | readv _ _ hread ih =>
      obtain ⟨c, hc⟩ := ih
      obtain ⟨hsame, hrd, hwr⟩ := readv_same hread
      exact hc.same hsame hrd hwr
  | wrPosition _ hpos ih =>
      obtain ⟨c, hc⟩ := ih
      obtain ⟨⟨b₁, rest⟩, hloop, hpos⟩ := Fallible.bind_eq_ok.1 hpos
      obtain ⟨rfl, -⟩ := Prod.mk.inj (Except.ok.inj hpos)
      exact hc.wrPositionLoop hloop

/-- Where `length()` is defined, the buffer shows some bytes, and a `reserve` leaves a well
formed buffer that shows the same. -/
theorem Connected.reserve_shows (hsize : 0 < pageSize) {b : VarBuf pageSize}
    {c : List (Cell pageSize)} (h : b.Connected c) {n : Nat} (hlength : b.length = .ok n) :
    ∃ s, b.toString = .ok s ∧ s.length = n ∧ ∀ sz, ∃ b₁ pre mid w post,
      b.reserve sz = .ok b₁ ∧ b₁.Shape False pre mid w post ∧ s = contents (mid ++ [w]) := by
  rcases h.shape_of_length hlength with hrd | ⟨pre, mid, w, post, hshape⟩
  · have hzero : b.length = .ok 0 := if_pos hrd
    refine ⟨[], if_pos hrd, Except.ok.inj (hzero.symm.trans hlength), fun sz => ?_⟩
    obtain ⟨b₁, l, hshrink, -, hrd₁, hlist⟩ := h.shrink
    obtain ⟨b₂, w₂, post₂, hreserve, h₂, hbytes, -⟩ : ∃ b₂ w₂ post₂, b.reserve sz = .ok b₂ ∧
        b₂.Shape False [] [] w₂ post₂ ∧ w₂.2.bytes = [] ∧ _ :=
      reserve_first hsize hshrink (Or.inr ⟨hrd₁.trans hrd, hlist.trans hrd⟩) sz
    exact ⟨b₂, [], [], w₂, post₂, hreserve, h₂, by simp [hbytes]⟩
  · have hrep := hshape.represents
    refine ⟨_, hrep.toString, Except.ok.inj (hrep.length.symm.trans hlength), fun sz => ?_⟩
    obtain ⟨b₁, pre₁, mid₁, w₁, post₁, hrun, h₁, hcontents, -⟩ := hrep.reserve hsize sz
    exact ⟨b₁, pre₁, mid₁, w₁, post₁, hrun, h₁, hcontents⟩

end VarBuf

end BoostCoro.Buffer
