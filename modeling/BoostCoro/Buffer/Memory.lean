import BoostCoro.Buffer.Observers
/-!
# Pages in use

Pages are constructed in `reserve` and destroyed in `shrink` and `clear`. A page that was
constructed is in the chain or was destroyed, and the memory holds the pages of the chain
alone. Along a run the largest demand is followed that a `reserve` was made for: the bytes
held plus the room asked for. A page is linked only when the pages from the write cursor on
are too small for the demand, so the chain is never longer than that demand needs.
-/

namespace BoostCoro.Buffer

open Linked

namespace VarBuf

variable {pageSize : Nat} {full : Prop}

/-! ## What a call demands -/

/-- `length()` plus the argument of `reserve`. -/
def reserveDemand (b : VarBuf pageSize) (sz : Nat) : Nat :=
  match b.length with
  | .error _ => sz
  | .ok len => len + sz

def writeDemand (b : VarBuf pageSize) (len : Nat) : Nat :=
  match b.wrSize with
  | .error _ => 0
  | .ok curSz => if len > curSz then b.reserveDemand len else 0

/-- The demand of the `reserve` made in a call, zero if there is none. -/
def demand (b : VarBuf pageSize) : Op → Nat
  | .write src => b.writeDemand src.length
  | .append src => b.writeDemand src.length
  | .assign src =>
    match b.reset with
    | .error _ => 0
    | .ok b => b.writeDemand src.length
  | .reserve sz => b.reserveDemand sz
  | .read _ => 0
  | .readBySize _ => 0
  | .shrink => 0
  | .reset => 0
  | .clear => 0

/-- One call on a buffer, with the largest demand of the calls so far. -/
def execPeak (x : VarBuf pageSize × Nat) (op : Op) :
    Except Fault ((VarBuf pageSize × Nat) × Result) := do
  let (b, r) ← x.1.exec op
  return ((b, max x.2 (x.1.demand op)), r)

/-! ## Chains with their marks -/

/-- The addresses of a run of pages, with their read offsets. -/
def marks (l : List (Cell pageSize)) : List (Addr × Nat) := l.map fun x => (x.1, x.2.offsetRd)

theorem map_fst_marks (l : List (Cell pageSize)) : (marks l).map Prod.fst = l.map Prod.fst := by
  simp [marks]

/-- `b'` has the pages of `b` with the same links, and what `key` shows of a page stays. -/
structure Same {κ : Type} (key : VbufPage pageSize → κ) (b b' : VarBuf pageSize) : Prop where
  pageList : b'.pageList = b.pageList
  fresh : b'.fresh = b.fresh
  destroyed : b'.destroyed = b.destroyed
  mem : ∀ a, (b'.mem a).map key = (b.mem a).map key

section

variable {κ : Type} {key : VbufPage pageSize → κ} {b b' b'' : VarBuf pageSize}

theorem Same.refl (key : VbufPage pageSize → κ) (b : VarBuf pageSize) : Same key b b :=
  ⟨rfl, rfl, rfl, fun _ => rfl⟩

theorem Same.trans (h : Same key b b') (h' : Same key b' b'') : Same key b b'' :=
  ⟨h'.pageList.trans h.pageList, h'.fresh.trans h.fresh, h'.destroyed.trans h.destroyed,
    fun a => (h'.mem a).trans (h.mem a)⟩

theorem Same.symm (h : Same key b b') : Same key b' b :=
  ⟨h.pageList.symm, h.fresh.symm, h.destroyed.symm, fun a => (h.mem a).symm⟩

theorem Same.setPage {a : Addr} {p p' : VbufPage pageSize} (ha : b.mem a = some p)
    (hkey : key p' = key p) : Same key b (b.setPage a p') := by
  refine ⟨rfl, rfl, rfl, fun a' => ?_⟩
  by_cases hne : a' = a
  · rw [hne, ha]
    show (Function.update b.mem a (some p') a).map key = _
    rw [Function.update_self, Option.map_some, Option.map_some, hkey]
  · show (Function.update b.mem a (some p') a').map key = _
    rw [Function.update_of_ne hne]

theorem Same.mem_none {a : Addr} (h : Same key b b') (ha : b.mem a = none) : b'.mem a = none := by
  have hmem := h.mem a
  rw [ha, Option.map_none] at hmem
  exact Option.map_eq_none_iff.1 hmem

/-- A run of pages is found again, page by page. -/
theorem Same.segment (h : Same key b b') (hnext : ∀ p p', key p = key p' → p.next = p'.next)
    {l : List (Cell pageSize)} {p q : Option Addr} (hl : Segment b.mem VbufPage.next p l q) :
    ∃ l', Segment b'.mem VbufPage.next p l' q ∧
      l'.map (fun x => (x.1, key x.2)) = l.map fun x => (x.1, key x.2) := by
  induction l generalizing p with
  | nil => exact ⟨[], hl, rfl⟩
  | cons x l ih =>
      obtain ⟨rfl, hx, hl⟩ := hl
      obtain ⟨l', hl', hmap⟩ := ih hl
      have hmem := h.mem x.1
      rw [hx, Option.map_some, Option.map_eq_some_iff] at hmem
      obtain ⟨p', hp', hkey⟩ := hmem
      refine ⟨(x.1, p') :: l', ⟨rfl, hp', ?_⟩, by simp [hkey, hmap]⟩
      rw [show VbufPage.next (x.1, p').2 = x.2.next from hnext p' x.2 hkey]
      exact hl'

end

/-- What writing leaves of a page. -/
def linkAndRd (p : VbufPage pageSize) : Option Addr × Nat := (p.next, p.offsetRd)

theorem deref_eq_ok {b : VarBuf pageSize} {p : Option Addr} {x : Cell pageSize}
    (h : b.deref p = .ok x) : p = some x.1 ∧ b.mem x.1 = some x.2 := by
  cases p with
  | none => cases h
  | some a =>
      rw [deref] at h
      cases ha : b.mem a with
      | none =>
          rw [ha] at h
          cases h
      | some p =>
          rw [ha] at h
          cases h
          exact ⟨rfl, ha⟩

/-- A page is replaced, and the write cursor may move on. -/
theorem same_setPage_wr {b : VarBuf pageSize} {a : Addr} {p v : VbufPage pageSize}
    (ha : b.mem a = some p) (hkey : linkAndRd v = linkAndRd p) (c : Prop) [Decidable c]
    (q : Option Addr) :
    Same linkAndRd b (if c then { b.setPage a v with pageWr := q } else b.setPage a v) ∧
      (if c then { b.setPage a v with pageWr := q } else b.setPage a v).pageRd = b.pageRd := by
  have hset := Same.setPage (b := b) ha hkey
  split
  · exact ⟨⟨hset.pageList, hset.fresh, hset.destroyed, hset.mem⟩, rfl⟩
  · exact ⟨hset, rfl⟩

theorem writeLoop_same {fuel : Nat} {b b' : VarBuf pageSize} {src : List UInt8}
    (h : writeLoop fuel b src = .ok b') : Same linkAndRd b b' ∧ b'.pageRd = b.pageRd := by
  induction fuel generalizing b src with
  | zero =>
      cases src with
      | nil =>
          cases h
          exact ⟨Same.refl _ _, rfl⟩
      | cons c src => cases h
  | succ fuel ih =>
      cases src with
      | nil =>
          cases h
          exact ⟨Same.refl _ _, rfl⟩
      | cons c src =>
          have hnext : ∀ b₁ src₁, Same linkAndRd b b₁ ∧ b₁.pageRd = b.pageRd →
              (if b₁.pageWr = none then .error .assertFailed else writeLoop fuel b₁ src₁) =
                .ok b' → Same linkAndRd b b' ∧ b'.pageRd = b.pageRd := by
            intro b₁ src₁ ⟨hsame, hrd⟩ h₁
            by_cases hwr : b₁.pageWr = none
            · rw [if_pos hwr] at h₁
              cases h₁
            · rw [if_neg hwr] at h₁
              obtain ⟨hsame', hrd'⟩ := ih h₁
              exact ⟨hsame.trans hsame', hrd'.trans hrd⟩
          rw [writeLoop] at h
          by_cases hwr : b.pageWr = none
          · rw [if_pos hwr] at h
            cases h
          · rw [if_neg hwr] at h
            obtain ⟨⟨a, p⟩, hp, h⟩ := Fallible.bind_eq_ok.1 h
            exact hnext _ _ (same_setPage_wr (v := p.store _) (deref_eq_ok hp).2 rfl _ _) h

/-- `read` takes pages from the front and changes the first of the rest only. -/
theorem readLoop_marks {fuel : Nat} {b b' : VarBuf pageSize} {want rest : Nat}
    {out out' : List UInt8} (h : readLoop fuel b want out = .ok (b', out', rest))
    {pre r : List (Cell pageSize)} (hpre : Segment b.mem VbufPage.next b.pageList pre b.pageRd)
    (hr : Segment b.mem VbufPage.next b.pageRd r none) :
    ∃ pre' r', Segment b'.mem VbufPage.next b'.pageList pre' b'.pageRd ∧
      Segment b'.mem VbufPage.next b'.pageRd r' none ∧ Same VbufPage.next b b' ∧
        (pre' ++ r').map Prod.fst = (pre ++ r).map Prod.fst ∧
          (marks r').tail <:+ (marks r).tail := by
  induction fuel generalizing b want out pre r with
  | zero =>
      cases want with
      | zero =>
          cases h
          exact ⟨pre, r, hpre, hr, Same.refl _ _, rfl, List.suffix_rfl⟩
      | succ want => cases h
  | succ fuel ih =>
      cases want with
      | zero =>
          cases h
          exact ⟨pre, r, hpre, hr, Same.refl _ _, rfl, List.suffix_rfl⟩
      | succ want =>
          rw [readLoop] at h
          by_cases hrd : b.pageRd = none
          · rw [if_pos hrd] at h
            cases h
          · rw [if_neg hrd] at h
            obtain ⟨⟨a, p⟩, hp, h⟩ := Fallible.bind_eq_ok.1 h
            obtain ⟨hpa, ha⟩ := deref_eq_ok hp
            cases r with
            | nil => exact absurd hr hrd
            | cons x r =>
                have hnodup := (hpre.append hr).nodup
                obtain ⟨hbefore, hafter⟩ := notMem_of_nodup hnodup
                obtain ⟨hx, hmem, hr⟩ := hr
                obtain rfl : x.1 = a := Option.some.inj (hx.symm.trans hpa)
                obtain rfl : x.2 = p := Option.some.inj (hmem.symm.trans ha)
                have hpre₁ := fun v => segment_setPage (v := v) hpre hbefore
                have hr₁ := fun v => segment_setPage (v := v) hr hafter
                have hx₁ : ∀ v, (b.setPage x.1 v).mem x.1 = some v := fun v =>
                  Function.update_self _ _ _
                have hnext : ∀ n o, readLoop fuel
                    (if want + 1 - n ≠ 0 then
                      { b.setPage x.1 (x.2.consume n) with pageRd := x.2.next }
                    else b.setPage x.1 (x.2.consume n)) (want + 1 - n) o = .ok (b', out', rest) →
                    ∃ pre' r', Segment b'.mem VbufPage.next b'.pageList pre' b'.pageRd ∧
                      Segment b'.mem VbufPage.next b'.pageRd r' none ∧
                        Same VbufPage.next b b' ∧
                        (pre' ++ r').map Prod.fst = (pre ++ x :: r).map Prod.fst ∧
                          (marks r').tail <:+ marks r := by
                  intro n o h
                  have hset : Same VbufPage.next b (b.setPage x.1 (x.2.consume n)) :=
                    Same.setPage hmem rfl
                  by_cases hmore : want + 1 - n ≠ 0
                  · -- the page is left, and what follows it is untouched
                    rw [if_pos hmore] at h
                    have hfront : Segment (b.setPage x.1 (x.2.consume n)).mem VbufPage.next
                        b.pageList (pre ++ [(x.1, x.2.consume n)]) x.2.next :=
                      (hpre₁ _).append ⟨hx, hx₁ _, rfl⟩
                    have hmoved : Same VbufPage.next b
                        { b.setPage x.1 (x.2.consume n) with pageRd := x.2.next } :=
                      ⟨hset.pageList, hset.fresh, hset.destroyed, hset.mem⟩
                    obtain ⟨pre', r', hpre', hr', hsame, haddrs, htail⟩ := ih h hfront (hr₁ _)
                    exact ⟨pre', r', hpre', hr', hmoved.trans hsame, haddrs.trans (by simp),
                      htail.trans (List.tail_suffix _)⟩
                  · rw [if_neg hmore] at h
                    obtain ⟨pre', r', hpre', hr', hsame, haddrs, htail⟩ :=
                      ih h (r := (x.1, x.2.consume n) :: r) (hpre₁ _) ⟨hx, hx₁ _, hr₁ _⟩
                    exact ⟨pre', r', hpre', hr', hset.trans hsame, haddrs.trans (by simp), htail⟩
                exact hnext _ _ h

/-! ## Pages linked -/

/-- The loop of `reserve` links the next pages of the pool, and only while room is missing. -/
theorem extend_marks {sz fuel cur : Nat} {b b' : VarBuf pageSize} {l : List (Cell pageSize)}
    {t : Cell pageSize} (hl : Segment b.mem VbufPage.next b.pageList (l ++ [t]) none)
    (hlt : ∀ x ∈ l ++ [t], x.1 < b.fresh) (h : extend sz fuel b cur (some t.1) = .ok b') :
    ∃ (k : Nat) (l' : List (Cell pageSize)),
      Segment b'.mem VbufPage.next b.pageList l' none ∧ b'.pageList = b.pageList ∧
      b'.pageRd = b.pageRd ∧ b'.fresh = b.fresh + k ∧ b'.destroyed = b.destroyed ∧
      (∀ a, a ∉ l'.map Prod.fst → b'.mem a = b.mem a) ∧
      marks l' = marks (l ++ [t]) ++ (List.range' b.fresh k).map (fun a => (a, 0)) ∧
      (k ≠ 0 → cur + k * pageSize < sz + pageSize) := by
  induction fuel generalizing b cur l t with
  | zero =>
      rw [extend] at h
      by_cases hcur : cur < sz
      · rw [if_pos hcur] at h
        cases h
      · rw [if_neg hcur] at h
        cases h
        exact ⟨0, _, hl, rfl, rfl, rfl, rfl, fun _ _ => rfl, by simp, fun h0 => absurd rfl h0⟩
  | succ fuel ih =>
      rw [extend] at h
      by_cases hcur : cur < sz
      · rw [if_pos hcur] at h
        have ht : t.1 < b.fresh := hlt t (by simp)
        have htmem : b.construct.1.mem t.1 = some t.2 :=
          (Function.update_of_ne (Nat.ne_of_lt ht) _ _).trans (hl.cell_eq (by simp))
        have hnodup := hl.nodup
        have hbefore : t.1 ∉ l.map Prod.fst := (notMem_of_nodup hnodup).1
        obtain ⟨r, hfirst, hr, -⟩ := segment_append.1 hl
        have hgrow : Segment (b.grow t).mem VbufPage.next (b.grow t).pageList
            ((l ++ [b.linkFresh t]) ++ [b.freshCell]) none := by
          rw [List.append_assoc]
          refine (segment_grow hfirst (fun x hx => hlt x (by simp [hx])) hbefore).append ?_
          rw [hr]
          exact segment_grow_last ht
        have hltGrow : ∀ x ∈ (l ++ [b.linkFresh t]) ++ [b.freshCell], x.1 < (b.grow t).fresh := by
          intro x hx
          show x.1 < b.fresh + 1
          simp only [List.mem_append, List.mem_singleton] at hx
          rcases hx with (hx | rfl) | rfl
          · exact Nat.lt_succ_of_lt (hlt x (by simp [hx]))
          · exact Nat.lt_succ_of_lt ht
          · exact Nat.lt_succ_self _
        simp only [reduceCtorEq, if_false, deref_some htmem] at h
        obtain ⟨k, l', hl', hlist, hrd, hfresh, hgone, hmem, hmarks, hroom⟩ :=
          ih hgrow hltGrow h
        refine ⟨k + 1, l', hl', hlist, hrd, ?_, hgone, fun a ha => ?_, ?_, fun _ => ?_⟩
        · rw [hfresh]
          exact Nat.add_right_comm b.fresh 1 k
        · -- the pages written are the old last page and the new one, and both are in `l'`
          have hin : ∀ a' ∈ [t.1, b.fresh], a' ∈ l'.map Prod.fst := by
            intro a' ha'
            rw [← map_fst_marks, hmarks, List.map_append, map_fst_marks]
            refine List.mem_append_left _ ?_
            simpa [freshCell, linkFresh] using Or.inr (List.mem_pair.1 ha')
          have hnt : a ≠ t.1 := fun heq => ha (heq ▸ hin t.1 (by simp))
          have hnf : a ≠ b.fresh := fun heq => ha (heq ▸ hin b.fresh (by simp))
          rw [hmem a ha]
          exact (Function.update_of_ne hnt _ _).trans (Function.update_of_ne hnf _ _)
        · rw [hmarks, List.range'_succ]
          simp [marks, freshCell, linkFresh, VbufPage.setNext, VbufPage.construct, grow, setPage,
            construct]
        · by_cases hk : k = 0
          · rw [hk, Nat.zero_add, Nat.one_mul]
            exact Nat.add_lt_add_right hcur pageSize
          · have hroom := hroom hk
            rw [Nat.succ_mul]
            omega
      · rw [if_neg hcur] at h
        cases h
        exact ⟨0, _, hl, rfl, rfl, rfl, rfl, fun _ _ => rfl, by simp, fun h0 => absurd rfl h0⟩

/-! ## The invariant -/

/-- The chain is `pre` up to the read cursor and `r` from there on. Each page constructed is
in the chain or was destroyed, there is no page outside the chain, only the first page to read
has been read from, and the chain has no more pages than the peak needs. -/
structure Kept (b : VarBuf pageSize) (peak : Nat) (pre r : List (Cell pageSize)) : Prop where
  list_rd : Segment b.mem VbufPage.next b.pageList pre b.pageRd
  rd_end : Segment b.mem VbufPage.next b.pageRd r none
  pool : ((pre ++ r).map Prod.fst ++ b.destroyed).Perm (List.range b.fresh)
  outside : ∀ a, a ∉ (pre ++ r).map Prod.fst → b.mem a = none
  unread : ∀ y ∈ (marks r).tail, y.2 = 0
  bounded : (pre ++ r).length ≤ peak / pageSize + 2

section

variable {b : VarBuf pageSize} {peak : Nat} {pre r : List (Cell pageSize)}

theorem Kept.chain (hkept : Kept b peak pre r) :
    Segment b.mem VbufPage.next b.pageList (pre ++ r) none :=
  hkept.list_rd.append hkept.rd_end

theorem Kept.lt_fresh (hkept : Kept b peak pre r) : ∀ x ∈ pre ++ r, x.1 < b.fresh := by
  intro x hx
  have hmem := hkept.pool.subset
    (List.mem_append_left b.destroyed (List.mem_map_of_mem (f := Prod.fst) hx))
  exact List.mem_range.1 hmem

theorem Kept.length_le (hkept : Kept b peak pre r) : (pre ++ r).length ≤ b.fresh := by
  have hlen := hkept.pool.length_eq
  rw [List.length_append, List.length_map, List.length_range] at hlen
  omega

/-- The memory holds the pages of the chain and no others. -/
theorem Kept.mem_isSome (hkept : Kept b peak pre r) (a : Addr) :
    (b.mem a).isSome = true ↔ a ∈ (pre ++ r).map Prod.fst := by
  constructor
  · intro hsome
    by_contra hout
    rw [hkept.outside a hout] at hsome
    cases hsome
  · intro hin
    obtain ⟨x, hx, rfl⟩ := List.mem_map.1 hin
    rw [hkept.chain.cell_eq hx]
    rfl

/-- A page of the chain was not destroyed. -/
theorem Kept.notMem_destroyed (hkept : Kept b peak pre r) {a : Addr}
    (ha : a ∈ (pre ++ r).map Prod.fst) : a ∉ b.destroyed := by
  have hnodup := hkept.pool.nodup_iff.2 List.nodup_range
  rw [List.nodup_append] at hnodup
  exact fun hgone => hnodup.2.2 a ha a hgone rfl

/-- The bound grows with the peak. -/
theorem Kept.raise (hkept : Kept b peak pre r) (demand : Nat) : Kept b (max peak demand) pre r where
  list_rd := hkept.list_rd
  rd_end := hkept.rd_end
  pool := hkept.pool
  outside := hkept.outside
  unread := hkept.unread
  bounded :=
    Nat.le_trans hkept.bounded
      (Nat.add_le_add_right (Nat.div_le_div_right (Nat.le_max_left _ _)) 2)

/-- After `shrink` the chain begins at the read cursor. -/
theorem Kept.shrink (hkept : Kept b peak pre r) :
    ∃ b', b.shrink = .ok b' ∧ Kept b' peak [] r := by
  have hlen := hkept.length_le
  rw [List.length_append] at hlen
  obtain ⟨mem', hrun, hmem, hgone⟩ :=
    shrink_eq hkept.list_rd hkept.rd_end (by rw [walkFuel]; omega)
  have hnodup := hkept.chain.nodup
  rw [List.map_append, List.nodup_append] at hnodup
  have hkeep : ∀ x ∈ r, mem' x.1 = b.mem x.1 := fun x hx =>
    hmem x.1 fun hpre => hnodup.2.2 x.1 hpre x.1 (List.mem_map_of_mem hx) rfl
  refine ⟨_, hrun, ?_⟩
  exact
    { list_rd := rfl
      rd_end := hkept.rd_end.congr hkeep
      pool := by
        refine List.Perm.trans ?_ hkept.pool
        show (r.map Prod.fst ++ (b.destroyed ++ pre.map Prod.fst)).Perm _
        rw [List.map_append, ← List.append_assoc]
        exact List.perm_append_comm.trans (by rw [List.append_assoc])
      outside := by
        intro a ha
        by_cases hpre : a ∈ pre.map Prod.fst
        · exact hgone a hpre
        · refine (hmem a hpre).trans (hkept.outside a ?_)
          rw [List.map_append, List.mem_append]
          exact fun hin => hin.elim hpre ha
      unread := hkept.unread
      bounded := by
        have hle := hkept.bounded
        rw [List.length_append] at hle
        rw [List.nil_append]
        omega }

/-! ## How many pages a demand needs -/

theorem room_untouched {l : List (Cell pageSize)} (hl : ∀ x ∈ l, x.2.Untouched) :
    room l = l.length * pageSize := by
  induction l with
  | nil => simp
  | cons x l ih =>
      rw [room_cons, (hl x (by simp)).wrSize_eq, ih fun y hy => hl y (List.mem_cons_of_mem x hy),
        List.length_cons, Nat.succ_mul]
      omega

/-- Pages that are full and were not read from. -/
theorem length_contents_full {l : List (Cell pageSize)}
    (hfull : ∀ x ∈ l, x.2.Ordered ∧ x.2.offsetWr = pageSize) (hrd : ∀ x ∈ l, x.2.offsetRd = 0) :
    (contents l).length = l.length * pageSize := by
  induction l with
  | nil => simp
  | cons x l ih =>
      have hx := hfull x (by simp)
      have hlen := ih (fun y hy => hfull y (List.mem_cons_of_mem x hy))
        fun y hy => hrd y (List.mem_cons_of_mem x hy)
      rw [contents_cons, List.length_append, hx.1.length_bytes, hx.1.rdSize_eq, hx.2,
        hrd x (by simp), hlen, List.length_cons, Nat.succ_mul]
      omega

/-- Up to the write cursor no more than one page holds bytes that were read. -/
theorem Shape.used_le {w : Cell pageSize} {mid post : List (Cell pageSize)}
    (hshape : b.Shape True pre mid w post)
    (hunread : ∀ y ∈ (marks (mid ++ w :: post)).tail, y.2 = 0) :
    mid.length * pageSize + w.2.offsetWr ≤ (contents (mid ++ [w])).length + pageSize := by
  have hzero : ∀ x ∈ (mid ++ w :: post).tail, x.2.offsetRd = 0 := by
    intro x hx
    rw [marks, ← List.map_tail] at hunread
    exact hunread _ (List.mem_map_of_mem hx)
  have hwr := hshape.wr_ordered
  cases mid with
  | nil =>
      have hle := hwr.2
      simp only [List.length_nil]
      omega
  | cons x mid =>
      have hmid := length_contents_full (l := mid)
        (fun y hy =>
          have hfull := hshape.mid_full y (by simp [hy])
          ⟨hfull.1, hfull.2 trivial⟩)
        fun y hy => hzero y (by simp [hy])
      have hlast : w.2.bytes.length = w.2.offsetWr := by
        rw [hwr.length_bytes, hwr.rdSize_eq, hzero w (by simp), Nat.sub_zero]
      simp only [List.cons_append, contents_cons, contents_append, contents_nil, List.append_nil,
        List.length_append, hmid, hlast, List.length_cons, Nat.succ_mul]
      omega

/-- As many pages as `reserve` links leave fewer than three beyond what the demand fills. -/
theorem Shape.grown_le {w : Cell pageSize} {mid post : List (Cell pageSize)} {k sz : Nat}
    (hsize : 0 < pageSize) (hshape : b.Shape True pre mid w post)
    (hunread : ∀ y ∈ (marks (mid ++ w :: post)).tail, y.2 = 0)
    (hroom : room (w :: post) + k * pageSize < sz + pageSize) :
    (mid ++ w :: post).length + k ≤ ((contents (mid ++ [w])).length + sz) / pageSize + 2 := by
  have hused := hshape.used_le hunread
  have hle := hshape.wr_ordered.2
  rw [room_cons, hshape.wr_ordered.wrSize_eq, room_untouched hshape.post_untouched] at hroom
  have hall : (mid.length + (post.length + 1) + k) * pageSize =
      mid.length * pageSize + (post.length * pageSize + pageSize) + k * pageSize := by
    simp only [Nat.add_mul, Nat.one_mul]
  have hdiv := (Nat.le_div_iff_mul_le hsize
    (x := mid.length + (post.length + 1) + k - 2)
    (y := (contents (mid ++ [w])).length + sz)).2 (by rw [Nat.sub_mul, hall]; omega)
  rw [List.length_append, List.length_cons]
  omega

/-! ## What the calls keep -/

theorem Kept.extend {b' : VarBuf pageSize} {mid post l : List (Cell pageSize)}
    {w t : Cell pageSize} {sz fuel : Nat} (hsize : 0 < pageSize)
    (hkept : Kept b peak [] (mid ++ w :: post)) (hshape : b.Shape True [] mid w post)
    (hlast : w :: post = l ++ [t])
    (hrun : VarBuf.extend sz fuel b (room (w :: post)) (some t.1) = .ok b') :
    ∃ r, Kept b' (max peak ((contents (mid ++ [w])).length + sz)) [] r ∧
      (mid ++ w :: post).map Prod.fst ⊆ r.map Prod.fst := by
  have hsplit : mid ++ w :: post = (mid ++ l) ++ [t] := by rw [hlast, List.append_assoc]
  have hchain := hkept.chain
  have hlt := hkept.lt_fresh
  rw [List.nil_append] at hchain hlt
  rw [hsplit] at hchain hlt
  obtain ⟨k, l', hl', hlist, hrd, hfresh, hgone, hmem, hmarks, hroom⟩ :=
    extend_marks hchain hlt hrun
  rw [← hsplit] at hmarks
  have haddrs : l'.map Prod.fst =
      (mid ++ w :: post).map Prod.fst ++ List.range' b.fresh k := by
    rw [← map_fst_marks, hmarks, List.map_append, map_fst_marks, List.map_map]
    simp [Function.comp_def]
  have hlen : l'.length = (mid ++ w :: post).length + k := by
    have hcount := congrArg List.length hmarks
    simp only [marks, List.length_append, List.length_map, List.length_range'] at hcount
    rwa [List.length_append]
  have hrd' : b'.pageList = b'.pageRd := hlist.trans ((segment_nil.1 hkept.list_rd).trans hrd.symm)
  have hsub : (mid ++ w :: post).map Prod.fst ⊆ l'.map Prod.fst := by
    rw [haddrs]
    exact List.subset_append_left _ _
  refine ⟨l', ?_, hsub⟩
  exact
    { list_rd := hrd'
      rd_end := by rwa [← hrd', hlist]
      pool := by
        have hpool := hkept.pool
        rw [List.nil_append] at hpool ⊢
        have hrange : List.range b'.fresh = List.range b.fresh ++ List.range' b.fresh k := by
          rw [hfresh, List.range_eq_range', List.range_eq_range', ← List.range'_append_1,
            Nat.zero_add]
        rw [haddrs, hrange, hgone, List.append_assoc]
        refine (List.Perm.append_left _ List.perm_append_comm).trans ?_
        rw [← List.append_assoc]
        exact hpool.append_right _
      outside := by
        intro a ha
        rw [List.nil_append] at ha
        exact (hmem a ha).trans (hkept.outside a fun hin => ha (hsub hin))
      unread := by
        intro y hy
        rw [hmarks, List.tail_append_of_ne_nil (by simp [marks]), List.mem_append] at hy
        rcases hy with hy | hy
        · exact hkept.unread y hy
        · obtain ⟨a, -, rfl⟩ := List.mem_map.1 hy
          rfl
      bounded := by
        by_cases hk : k = 0
        · have hle := (hkept.raise ((contents (mid ++ [w])).length + sz)).bounded
          rw [List.nil_append] at hle ⊢
          rwa [hlen, hk]
        · have hle := hshape.grown_le hsize hkept.unread (hroom hk)
          have hdemand : ((contents (mid ++ [w])).length + sz) / pageSize ≤
              max peak ((contents (mid ++ [w])).length + sz) / pageSize :=
            Nat.div_le_div_right (Nat.le_max_right _ _)
          rw [List.nil_append, hlen]
          omega }

/-- A buffer without pages gets its first one. -/
theorem Kept.firstPage (hblank : b.Blank) (hkept : Kept b peak pre r) :
    Kept b.firstPage peak [] [b.freshCell] := by
  have hnil : pre ++ r = [] := by
    have hchain := hkept.chain
    rw [hblank.1] at hchain
    exact hchain.unique rfl
  have hpool := hkept.pool
  have hout := hkept.outside
  rw [hnil] at hpool hout
  exact
    { list_rd := rfl
      rd_end := ⟨rfl, Function.update_self _ _ _, rfl⟩
      pool := by
        show (b.fresh :: b.destroyed).Perm (List.range (b.fresh + 1))
        rw [List.range_succ]
        exact (List.Perm.cons _ hpool).trans (List.perm_append_singleton _ _).symm
      outside := by
        intro a ha
        have hne : a ≠ b.fresh := by simpa [freshCell] using ha
        exact (Function.update_of_ne hne _ _).trans (hout a (by simp))
      unread := by simp [marks]
      bounded := by simp }

theorem Kept.reserve {s : List UInt8} (hsize : 0 < pageSize) (hrep : b.Represents True s)
    (hkept : Kept b peak pre r) (sz : Nat) :
    ∃ b' r', b.reserve sz = .ok b' ∧ b'.Represents True s ∧
      Kept b' (max peak (b.reserveDemand sz)) [] r' ∧ r.map Prod.fst ⊆ r'.map Prod.fst := by
  obtain ⟨b', _, _, _, _, hrun, hshape', hs, -⟩ := hrep.reserve hsize sz
  have hrep' : b'.Represents True s := hs ▸ hshape'.represents
  have hdemand : b.reserveDemand sz = s.length + sz := by rw [reserveDemand, hrep.length]
  obtain ⟨b₁, hshrink, hkept₁⟩ := hkept.shrink
  rw [hdemand]
  rcases hrep with ⟨hblank, rfl⟩ | ⟨pre₀, mid, w, post, hshape, rfl⟩
  · obtain rfl := Except.ok.inj (hblank.shrink.symm.trans hshrink)
    have hr : r = [] := by
      have hend := hkept.rd_end
      rw [hblank.2.1] at hend
      exact hend.unique rfl
    obtain ⟨r', hkept', -⟩ := (hkept₁.firstPage hblank).extend hsize (shape_firstPage b)
      (l := []) (t := b.freshCell) rfl ((hblank.reserve_eq sz).symm.trans hrun)
    have hcell : b.freshCell.2.Untouched := VbufPage.untouched_construct _ _
    have hbytes : (contents ([] ++ [b.freshCell])).length = 0 := by simp [hcell.bytes]
    rw [hbytes] at hkept'
    exact ⟨b', r', hrun, hrep', hkept', by simp [hr]⟩
  · obtain ⟨b₂, hshrink₂, hshape₁⟩ := hshape.shrink
    obtain rfl := Except.ok.inj (hshrink₂.symm.trans hshrink)
    obtain ⟨l, t, hlast⟩ := (List.eq_nil_or_concat' (w :: post)).resolve_left (by simp)
    have hr : r = mid ++ w :: post := by
      have hchain := hshape₁.chain
      rw [List.nil_append, segment_nil.1 hshape₁.list_rd] at hchain
      exact hkept₁.rd_end.unique hchain
    rw [hr] at hkept₁
    obtain ⟨r', hkept', hsub⟩ := hkept₁.extend hsize hshape₁ hlast
      ((hshape₁.reserve_eq hshrink hlast sz).symm.trans hrun)
    exact ⟨b', r', hrun, hrep', hkept', by rwa [hr]⟩

/-- The pages at the same addresses, with other bytes in them. -/
theorem Kept.of_same {κ : Type} {key : VbufPage pageSize → κ} {b' : VarBuf pageSize}
    {pre' r' : List (Cell pageSize)} (hkept : Kept b peak pre r) (hsame : Same key b b')
    (hpre' : Segment b'.mem VbufPage.next b'.pageList pre' b'.pageRd)
    (hr' : Segment b'.mem VbufPage.next b'.pageRd r' none)
    (haddrs : (pre' ++ r').map Prod.fst = (pre ++ r).map Prod.fst)
    (hunread : ∀ y ∈ (marks r').tail, y.2 = 0) : Kept b' peak pre' r' where
  list_rd := hpre'
  rd_end := hr'
  pool := by
    rw [haddrs, hsame.fresh, hsame.destroyed]
    exact hkept.pool
  outside := by
    intro a ha
    rw [haddrs] at ha
    exact hsame.mem_none (hkept.outside a ha)
  unread := hunread
  bounded := by
    have hlen := congrArg List.length haddrs
    rw [List.length_map, List.length_map] at hlen
    rw [hlen]
    exact hkept.bounded

/-- Writing keeps the chain and the read offsets. -/
theorem Kept.same {b' : VarBuf pageSize} (hkept : Kept b peak pre r) (hsame : Same linkAndRd b b')
    (hrd : b'.pageRd = b.pageRd) :
    ∃ pre' r', Kept b' peak pre' r' ∧ (pre' ++ r').map Prod.fst = (pre ++ r).map Prod.fst := by
  have hnext : ∀ p p' : VbufPage pageSize, linkAndRd p = linkAndRd p' → p.next = p'.next :=
    fun p p' heq => congrArg Prod.fst heq
  obtain ⟨pre', hpre', hpreKey⟩ := hsame.segment hnext hkept.list_rd
  obtain ⟨r', hr', hrKey⟩ := hsame.segment hnext hkept.rd_end
  have haddrs : (pre' ++ r').map Prod.fst = (pre ++ r).map Prod.fst := by
    have hpreFst := congrArg (List.map Prod.fst) hpreKey
    have hrFst := congrArg (List.map Prod.fst) hrKey
    simp only [List.map_map, Function.comp_def] at hpreFst hrFst
    rw [List.map_append, List.map_append]
    exact congrArg₂ _ hpreFst hrFst
  have hmarks : marks r' = marks r := by
    have hrMarks := congrArg (List.map fun x => (x.1, x.2.2)) hrKey
    simp only [List.map_map, Function.comp_def] at hrMarks
    exact hrMarks
  refine ⟨pre', r', hkept.of_same hsame ?_ ?_ haddrs ?_, haddrs⟩
  · rwa [hsame.pageList, hrd]
  · rwa [hrd]
  · rw [hmarks]
    exact hkept.unread

theorem Represents.wrSize {full : Prop} {s : List UInt8} (hrep : b.Represents full s) :
    ∃ curSz, b.wrSize = .ok curSz := by
  rcases hrep with ⟨hblank, -⟩ | ⟨_, _, _, _, hshape, -⟩
  · exact ⟨0, hblank.wrSize⟩
  · exact ⟨_, hshape.wrSize⟩

/-- A call leaves `b'` and does not destroy the pages from the read cursor on. -/
def KeepsPages (r : List (Cell pageSize)) (b' : VarBuf pageSize) (peak : Nat) : Prop :=
  ∃ pre' r', Kept b' peak pre' r' ∧ r.map Prod.fst ⊆ (pre' ++ r').map Prod.fst

theorem Kept.keepsPages (hkept : Kept b peak pre r) : KeepsPages r b peak :=
  ⟨pre, r, hkept, by simp⟩

theorem Kept.makeRoom {s : List UInt8} (hsize : 0 < pageSize) (hrep : b.Represents True s)
    (hkept : Kept b peak pre r) (len : Nat) :
    ∃ b', b.makeRoom len = .ok b' ∧ KeepsPages r b' (max peak (b.writeDemand len)) := by
  obtain ⟨curSz, hcur⟩ := hrep.wrSize
  rw [VarBuf.makeRoom, hcur, Fallible.ok_bind, writeDemand, hcur]
  by_cases hlt : len > curSz
  · obtain ⟨b', r', hrun, -, hkept', hsub⟩ := hkept.reserve hsize hrep len
    simp only [if_pos hlt]
    exact ⟨b', hrun, [], r', hkept', hsub⟩
  · simp only [if_neg hlt]
    exact ⟨b, rfl, (hkept.raise 0).keepsPages⟩

theorem Kept.write {s src : List UInt8} {n : Nat} {b' : VarBuf pageSize} (hsize : 0 < pageSize)
    (hrep : b.Represents True s) (hkept : Kept b peak pre r) (hrun : b.write src = .ok (b', n)) :
    KeepsPages r b' (max peak (b.writeDemand src.length)) := by
  obtain ⟨b₁, hroom, pre₁, r₁, hkept₁, hsub⟩ := hkept.makeRoom hsize hrep src.length
  rw [VarBuf.write, hroom, Fallible.ok_bind] at hrun
  obtain ⟨b₂, hloop, hrun⟩ := Fallible.bind_eq_ok.1 hrun
  cases hrun
  obtain ⟨hsame, hrd⟩ := writeLoop_same hloop
  obtain ⟨pre', r', hkept', haddrs⟩ := hkept₁.same hsame hrd
  exact ⟨pre', r', hkept', by rwa [haddrs]⟩

theorem Kept.read {len n : Nat} {out : List UInt8} {b' : VarBuf pageSize}
    (hkept : Kept b peak pre r) (hrun : b.read len = .ok (b', out, n)) : KeepsPages r b' peak := by
  obtain ⟨curLength, -, hrun⟩ := Fallible.bind_eq_ok.1 hrun
  obtain ⟨⟨b₁, out₁, rest⟩, hloop, hrun⟩ := Fallible.bind_eq_ok.1 hrun
  cases hrun
  obtain ⟨pre', r', hpre', hr', hsame, haddrs, htail⟩ :=
    readLoop_marks hloop hkept.list_rd hkept.rd_end
  refine ⟨pre', r', hkept.of_same hsame hpre' hr' haddrs
    fun y hy => hkept.unread y (htail.subset hy), ?_⟩
  rw [haddrs, List.map_append]
  exact List.subset_append_right _ _

/-- After `reset` the chain begins at the read cursor, and nothing in it was read. -/
theorem Kept.reset (hkept : Kept b peak pre r) :
    ∃ b' r', b.reset = .ok b' ∧ Kept b' peak [] r' ∧
      r'.map Prod.fst = (pre ++ r).map Prod.fst := by
  have hlen := hkept.length_le
  obtain ⟨mem', hrun, hseg, hmem⟩ := resetPages_eq hkept.chain (Nat.lt_succ_of_le hlen)
  have haddrs : ((pre ++ r).map resetCell).map Prod.fst = (pre ++ r).map Prod.fst := by
    simp [resetCell, Function.comp_def]
  refine ⟨{ b with mem := mem', pageRd := b.pageList, pageWr := b.pageList },
    (pre ++ r).map resetCell, ?_, ?_, haddrs⟩
  · rw [VarBuf.reset, walkFuel, hrun]
    rfl
  · exact
      { list_rd := rfl
        rd_end := hseg
        pool := by
          rw [List.nil_append, haddrs]
          exact hkept.pool
        outside := by
          intro a ha
          rw [List.nil_append, haddrs] at ha
          exact (hmem a ha).trans (hkept.outside a ha)
        unread := by
          intro y hy
          obtain ⟨x, hx, rfl⟩ := List.mem_map.1 (List.mem_of_mem_tail hy)
          obtain ⟨z, -, rfl⟩ := List.mem_map.1 hx
          rfl
        bounded := by simpa using hkept.bounded }

/-- `clear` destroys the whole chain. -/
theorem Kept.clear (hkept : Kept b peak pre r) : ∃ b', b.clear = .ok b' ∧ Kept b' peak [] [] := by
  have hlen := hkept.length_le
  obtain ⟨mem', hrun, hmem, hgone⟩ := destroyUntil_eq hkept.chain hkept.chain.nodup (by simp)
    (Nat.lt_succ_of_le hlen)
  rw [VarBuf.clear, walkFuel, hrun]
  refine ⟨_, rfl, ?_⟩
  exact
    { list_rd := rfl
      rd_end := rfl
      pool := by
        show (b.destroyed ++ (pre ++ r).map Prod.fst).Perm (List.range b.fresh)
        exact List.perm_append_comm.trans hkept.pool
      outside := by
        intro a _
        by_cases hin : a ∈ (pre ++ r).map Prod.fst
        · exact hgone a hin
        · exact (hmem a hin).trans (hkept.outside a hin)
      unread := by simp [marks]
      bounded := by simp }

end

/-! ## Runs -/

/-- The buffer holds `s` and its pages are accounted for. -/
def Accounted (x : VarBuf pageSize × Nat) (s : List UInt8) : Prop :=
  x.1.Represents True s ∧ ∃ pre r, Kept x.1 x.2 pre r

theorem accounted_new (raw : Addr → Nat → UInt8) :
    Accounted ((new raw, 0) : VarBuf pageSize × Nat) [] := by
  refine ⟨represents_new raw, [], [], ?_⟩
  exact
    { list_rd := rfl
      rd_end := rfl
      pool := List.Perm.refl []
      outside := fun _ _ => rfl
      unread := by simp [marks]
      bounded := by simp }

/-- Only `clear` takes away pages from the read cursor on. -/
theorem Kept.exec {b b' : VarBuf pageSize} {peak : Nat} {pre r : List (Cell pageSize)}
    {s : List UInt8} {op : Op} {res : Result} (hsize : 0 < pageSize)
    (hrep : b.Represents True s) (hkept : Kept b peak pre r) (hrun : b.exec op = .ok (b', res)) :
    KeepsPages (if op = .clear then [] else r) b' (max peak (b.demand op)) := by
  cases op with
  | write src =>
      obtain ⟨⟨b₁, n⟩, hwrite, hrun⟩ := Fallible.bind_eq_ok.1 hrun
      cases hrun
      exact hkept.write hsize hrep hwrite
  | append src =>
      obtain ⟨⟨b₁, n⟩, hwrite, hrun⟩ := Fallible.bind_eq_ok.1 hrun
      cases hrun
      exact hkept.write hsize hrep hwrite
  | assign src =>
      obtain ⟨⟨b₁, n⟩, hassign, hrun⟩ := Fallible.bind_eq_ok.1 hrun
      cases hrun
      obtain ⟨b₂, hreset, hrep₂⟩ := hrep.reset
      obtain ⟨b₃, r₃, hreset₃, hkept₃, haddrs⟩ := hkept.reset
      obtain rfl := Except.ok.inj (hreset₃.symm.trans hreset)
      rw [VarBuf.assign, hreset, Fallible.ok_bind] at hassign
      obtain ⟨pre', r', hkept', hsub⟩ := hkept₃.write hsize hrep₂ hassign
      refine ⟨pre', r', ?_, ?_⟩
      · simpa only [demand, hreset] using hkept'
      · rw [haddrs, List.map_append] at hsub
        exact List.Subset.trans (List.subset_append_right _ _) hsub
  | read len =>
      obtain ⟨⟨b₁, out, n⟩, hread, hrun⟩ := Fallible.bind_eq_ok.1 hrun
      cases hrun
      exact (hkept.raise 0).read hread
  | readBySize sz =>
      obtain ⟨⟨b₁, out, n⟩, hread, hrun⟩ := Fallible.bind_eq_ok.1 hrun
      cases hrun
      exact (hkept.raise 0).read hread
  | reserve sz =>
      obtain ⟨b₁, hreserve, hrun⟩ := Fallible.bind_eq_ok.1 hrun
      cases hrun
      obtain ⟨b₂, r', hreserve₂, -, hkept', hsub⟩ := hkept.reserve hsize hrep sz
      obtain rfl := Except.ok.inj (hreserve₂.symm.trans hreserve)
      exact ⟨[], r', hkept', hsub⟩
  | shrink =>
      obtain ⟨b₁, hshrink, hrun⟩ := Fallible.bind_eq_ok.1 hrun
      cases hrun
      obtain ⟨b₂, hshrink₂, hkept'⟩ := (hkept.raise 0).shrink
      obtain rfl := Except.ok.inj (hshrink₂.symm.trans hshrink)
      exact hkept'.keepsPages
  | reset =>
      obtain ⟨b₁, hreset, hrun⟩ := Fallible.bind_eq_ok.1 hrun
      cases hrun
      obtain ⟨b₂, r', hreset₂, hkept', haddrs⟩ := (hkept.raise 0).reset
      obtain rfl := Except.ok.inj (hreset₂.symm.trans hreset)
      refine ⟨[], r', hkept', ?_⟩
      rw [List.nil_append, haddrs, List.map_append]
      exact List.subset_append_right _ _
  | clear =>
      obtain ⟨b₁, hclear, hrun⟩ := Fallible.bind_eq_ok.1 hrun
      cases hrun
      obtain ⟨b₂, hclear₂, hkept'⟩ := (hkept.raise 0).clear
      obtain rfl := Except.ok.inj (hclear₂.symm.trans hclear)
      exact hkept'.keepsPages

theorem execPeak_refines (hsize : 0 < pageSize) :
    Machine.Refines (@execPeak pageSize) Fifo.step Accounted := by
  intro x s op ⟨hrep, pre, r, hkept⟩
  obtain ⟨b', hrun, hrep'⟩ := hrep.exec hsize op
  obtain ⟨pre', r', hkept', -⟩ := hkept.exec hsize hrep hrun
  refine ⟨(b', max x.2 (x.1.demand op)), ?_, hrep', pre', r', hkept'⟩
  rw [execPeak, hrun]
  rfl

/-- Forgetting the peak gives a run of the buffer. -/
theorem run_exec_of_execPeak {x y : VarBuf pageSize × Nat} {ops : List Op} {res : List Result}
    (h : Machine.run execPeak x ops = .ok (y, res)) :
    Machine.run VarBuf.exec x.1 ops = .ok (y.1, res) := by
  induction ops generalizing x res with
  | nil =>
      cases h
      rfl
  | cons op ops ih =>
      obtain ⟨⟨x₁, r₁⟩, hstep, h⟩ := Fallible.bind_eq_ok.1 h
      obtain ⟨⟨b₁, r₂⟩, hexec, hstep⟩ := Fallible.bind_eq_ok.1 hstep
      cases hstep
      obtain ⟨⟨y₁, rs⟩, hrest, h⟩ := Fallible.bind_eq_ok.1 h
      cases h
      simp [Machine.run, hexec, ih hrest]

/-- At any time of a run the number of pages is bounded by the largest demand so far, the memory
holds the pages of the chain alone, the pages constructed are those of the chain and those
destroyed, each once, and no further call but `clear` destroys a page from the read cursor on. -/
theorem pages_bounded (hsize : 0 < pageSize) (raw : Addr → Nat → UInt8) (ops : List Op) :
    ∃ (b : VarBuf pageSize) (peak : Nat) (l r : List (Cell pageSize)),
      Machine.run VarBuf.exec (new raw) ops = .ok (b, (Fifo.run ops).2) ∧
      Machine.run execPeak (new raw, 0) ops = .ok ((b, peak), (Fifo.run ops).2) ∧
      Segment b.mem VbufPage.next b.pageList l none ∧
      Segment b.mem VbufPage.next b.pageRd r none ∧
      (∀ a, (b.mem a).isSome = true ↔ a ∈ l.map Prod.fst) ∧
      (l.map Prod.fst ++ b.destroyed).Perm (List.range b.fresh) ∧
      b.pages = .ok l.length ∧ l.length ≤ peak / pageSize + 3 ∧
      ∀ op ≠ .clear, ∀ b' res, b.exec op = .ok (b', res) →
        ∀ x ∈ r, (b'.mem x.1).isSome = true ∧ x.1 ∉ b'.destroyed := by
  obtain ⟨⟨b, peak⟩, hrun, hrep, pre, r, hkept⟩ :=
    (execPeak_refines hsize).run (accounted_new raw) ops
  have hpages : b.pages = .ok (pre ++ r).length := by
    rcases hrep with ⟨hblank, -⟩ | ⟨pre₀, mid, w, post, hshape, -⟩
    · have hchain := hkept.chain
      rw [hblank.1] at hchain
      rw [show pre ++ r = [] from hchain.unique rfl]
      exact if_pos hblank.1
    · rw [hshape.pages, hshape.chain.unique hkept.chain]
  refine ⟨b, peak, pre ++ r, r, run_exec_of_execPeak hrun, hrun, hkept.chain, hkept.rd_end,
    hkept.mem_isSome, hkept.pool, hpages, Nat.le_succ_of_le hkept.bounded, ?_⟩
  intro op hop b' res hexec x hx
  have hkeeps := hkept.exec hsize hrep hexec
  rw [if_neg hop] at hkeeps
  obtain ⟨pre', r', hkept', hsub⟩ := hkeeps
  have hin := hsub (List.mem_map_of_mem hx)
  exact ⟨(hkept'.mem_isSome x.1).2 hin, hkept'.notMem_destroyed hin⟩

/-- Two-byte pages: the first page is read and goes with the second write. -/
theorem pages_bounded_two : ∃ (b : VarBuf 2) (peak : Nat) (l r : List (Cell 2)),
    Machine.run VarBuf.exec (new fun _ _ => 7) [.write [1, 2, 3], .read 3, .write [4, 5]] =
      .ok (b, [.wrote 3, .stored [1, 2, 3], .wrote 2]) ∧
    Machine.run execPeak (new fun _ _ => 7, 0) [.write [1, 2, 3], .read 3, .write [4, 5]] =
      .ok ((b, peak), [.wrote 3, .stored [1, 2, 3], .wrote 2]) ∧
    Segment b.mem VbufPage.next b.pageList l none ∧
    Segment b.mem VbufPage.next b.pageRd r none ∧
    (∀ a, (b.mem a).isSome = true ↔ a ∈ l.map Prod.fst) ∧
    (l.map Prod.fst ++ b.destroyed).Perm (List.range b.fresh) ∧
    b.pages = .ok l.length ∧ l.length ≤ peak / 2 + 3 ∧
    ∀ op ≠ .clear, ∀ b' res, b.exec op = .ok (b', res) →
      ∀ x ∈ r, (b'.mem x.1).isSome = true ∧ x.1 ∉ b'.destroyed :=
  pages_bounded (by decide : 0 < 2) (fun _ _ => 7) [.write [1, 2, 3], .read 3, .write [4, 5]]

end VarBuf

end BoostCoro.Buffer
