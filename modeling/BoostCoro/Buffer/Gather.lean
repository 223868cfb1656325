import BoostCoro.Buffer.Fifo
/-!
# Consuming what was sent

`rd_position` consumes the first bytes of the pages from the read cursor on. Its loop leaves
each page it takes bytes from, also one that has more, and it does not stop at the write page.
-/

namespace BoostCoro.Buffer

open Linked

namespace VarBuf

variable {pageSize : Nat} {full : Prop}

/-! ## The loop of `rd_position` -/

@[simp] theorem rdPositionLoop_zero (fuel : Nat) (b : VarBuf pageSize) :
    rdPositionLoop fuel b 0 = .ok (b, 0) := by
  cases fuel <;> rfl

/-- The read cursor leaves the page `x` after `n` bytes are consumed. -/
def passRd (b : VarBuf pageSize) (x : Cell pageSize) (n : Nat) : VarBuf pageSize :=
  { b.setPage x.1 (x.2.consume n) with pageRd := x.2.next }

theorem rdPositionLoop_page {b : VarBuf pageSize} {x : Cell pageSize} {n fuel : Nat}
    (hrd : b.pageRd = some x.1) (hx : b.mem x.1 = some x.2) (hn : n ≠ 0) :
    rdPositionLoop (fuel + 1) b n =
      rdPositionLoop fuel (b.passRd x (min n x.2.rdSize)) (n - min n x.2.rdSize) := by
  have hmv : (if n > x.2.rdSize then x.2.rdSize else n) = min n x.2.rdSize := by
    split <;> omega
  obtain ⟨n, rfl⟩ := Nat.exists_eq_succ_of_ne_zero hn
  rw [rdPositionLoop, if_neg (by simp [hrd]), hrd, deref_some hx]
  simp only [Fallible.ok_bind, hmv, passRd]

/-- `b'` comes from `b` by moving the read cursor over the first `k` of the pages `l`, the
fewest that hold `n` bytes if any do. -/
structure Passed (b : VarBuf pageSize) (pre l : List (Cell pageSize)) (n : Nat)
    (b' : VarBuf pageSize) (pre' : List (Cell pageSize)) (k : Nat) : Prop where
  list_rd : Segment b'.mem VbufPage.next b'.pageList pre' b'.pageRd
  rd_end : Segment b'.mem VbufPage.next b'.pageRd (l.drop k) none
  pre_ordered : ∀ x ∈ pre', x.2.Ordered
  addrs : pre'.map Prod.fst = (pre ++ l.take k).map Prod.fst
  pageWr : b'.pageWr = b.pageWr
  fresh : b'.fresh = b.fresh
  count_le : k ≤ l.length
  more : ∀ j < k, (contents (l.take j)).length < n
  enough : k < l.length → n ≤ (contents (l.take k)).length

theorem rdPositionLoop_eq {b : VarBuf pageSize} {pre l : List (Cell pageSize)} {n fuel : Nat}
    (hpre : Segment b.mem VbufPage.next b.pageList pre b.pageRd)
    (hl : Segment b.mem VbufPage.next b.pageRd l none) (hpreOrdered : ∀ x ∈ pre, x.2.Ordered)
    (hordered : ∀ x ∈ l, x.2.Ordered) (hfuel : l.length < fuel) :
    ∃ b' pre' k, rdPositionLoop fuel b n = .ok (b', n - min n (contents l).length) ∧
      Passed b pre l n b' pre' k := by
  induction l generalizing b pre n fuel with
  | nil =>
      obtain ⟨fuel, rfl⟩ := Nat.exists_eq_add_one.2 hfuel
      refine ⟨b, pre, 0, ?_, hpre, hl, hpreOrdered, by simp, rfl, rfl, Nat.le_refl _, nofun,
        nofun⟩
      cases n with
      | zero => rfl
      | succ n => exact if_pos (segment_nil.1 hl)
  | cons x l ih =>
      obtain ⟨fuel, rfl⟩ := Nat.exists_eq_add_one.2 (Nat.zero_lt_of_lt hfuel)
      by_cases hn : n = 0
      · subst hn
        exact ⟨b, pre, 0, by simp, hpre, hl, hpreOrdered, by simp, rfl, rfl, Nat.zero_le _, nofun,
          fun _ => Nat.zero_le _⟩
      · obtain ⟨hbefore, hafter⟩ := notMem_of_nodup (hpre.append hl).nodup
        have hlen := (hordered x (by simp)).length_bytes
        obtain ⟨hrd, hx, hl⟩ := hl
        have hpre₁ : Segment (b.passRd x (min n x.2.rdSize)).mem VbufPage.next b.pageList
            (pre ++ [(x.1, x.2.consume (min n x.2.rdSize))]) x.2.next :=
          (segment_setPage hpre hbefore).append ⟨hrd, Function.update_self _ _ _, rfl⟩
        have hpassOrdered : ∀ y ∈ pre ++ [(x.1, x.2.consume (min n x.2.rdSize))],
            y.2.Ordered := by
          intro y hy
          rcases List.mem_append.1 hy with hy | hy
          · exact hpreOrdered y hy
          · rw [List.mem_singleton.1 hy]
            exact (hordered x (by simp)).consume (Nat.min_le_right _ _)
        obtain ⟨b', pre', k, hrun, hpassed⟩ :=
          ih (b := b.passRd x (min n x.2.rdSize)) (n := n - min n x.2.rdSize) hpre₁
            (segment_setPage hl hafter) hpassOrdered
            (fun y hy => hordered y (List.mem_cons_of_mem x hy))
            (by simpa using hfuel)
        refine ⟨b', pre', k + 1, ?_, hpassed.list_rd, hpassed.rd_end, hpassed.pre_ordered,
          ?_, hpassed.pageWr, hpassed.fresh, Nat.succ_le_succ hpassed.count_le, fun j hj => ?_,
          fun hk => ?_⟩
        · rw [rdPositionLoop_page hrd hx hn, hrun, contents_cons, List.length_append, hlen]
          congr 2
          omega
        · rw [hpassed.addrs]
          simp
        · cases j with
          | zero => exact Nat.pos_of_ne_zero hn
          | succ j =>
              have hmore := hpassed.more j (Nat.lt_of_succ_lt_succ hj)
              rw [List.take_succ_cons, contents_cons, List.length_append, hlen]
              omega
        · have henough := hpassed.enough (Nat.lt_of_succ_lt_succ hk)
          rw [List.take_succ_cons, contents_cons, List.length_append, hlen]
          omega

/-! ## Where the read cursor is in the end -/

section

variable {b b' : VarBuf pageSize} {pre pre' mid post : List (Cell pageSize)} {w : Cell pageSize}
  {n k : Nat}

theorem contents_split (mid : List (Cell pageSize)) (w : Cell pageSize) (k : Nat) :
    contents (mid ++ [w]) = contents (mid.take k) ++ contents (mid.drop k ++ [w]) := by
  rw [← contents_append, ← List.append_assoc, List.take_append_drop]

/-- Up to the write page the pages that were not passed are what the buffer holds. -/
theorem Passed.shape (hpassed : Passed b pre (mid ++ w :: post) n b' pre' k)
    (h : b.Shape full pre mid w post) (hk : k ≤ mid.length) :
    b'.Shape False pre' (mid.drop k) w post := by
  have hrest := hpassed.rd_end
  rw [List.drop_append_of_le_length hk] at hrest
  obtain ⟨r, hmid, hwr⟩ := segment_append.1 hrest
  have hr : r = b'.pageWr := by rw [hpassed.pageWr, h.pageWr_eq, hwr.1]
  rw [hr] at hmid hwr
  have haddrs := hpassed.addrs
  rw [List.take_append_of_le_length hk] at haddrs
  exact
    { list_rd := hpassed.list_rd
      rd_wr := hmid
      wr_end := hwr
      pre_ordered := hpassed.pre_ordered
      pre_used := False.elim
      mid_full := fun x hx => ⟨(h.mid_full x (List.mem_of_mem_drop hx)).1, False.elim⟩
      wr_ordered := h.wr_ordered
      post_untouched := h.post_untouched
      lt_fresh := by
        intro x hx
        have hx := List.mem_map_of_mem (f := Prod.fst) hx
        rw [List.map_append, haddrs, ← List.map_append, List.append_assoc,
          ← List.append_assoc (mid.take k), List.take_append_drop] at hx
        obtain ⟨y, hy, hyx⟩ := List.mem_map.1 hx
        rw [hpassed.fresh, ← hyx]
        exact h.lt_fresh y hy }

theorem write_destroyed {a : Addr} (hwr : b.pageWr = some a) (hgone : b.mem a = none)
    (src : List UInt8) : b.write src = .error .badPointer := by
  have hderef : b.deref (some a) = .error .badPointer := by
    rw [deref, hgone]
  simp only [VarBuf.write, makeRoom, wrSize, walkFuel, hwr, foldToEnd, hderef]
  rfl

/-- Beyond the write page `shrink` destroys the write page, and the next write follows a
pointer to it. -/
theorem Passed.write_faults (hpassed : Passed b pre (mid ++ w :: post) n b' pre' k)
    (h : b.Shape full pre mid w post) (hk : mid.length < k) :
    ∃ b'', b'.shrink = .ok b'' ∧ b''.write [0] = .error .badPointer := by
  have hlen := congrArg List.length hpassed.addrs
  have hle := h.length_le_fresh
  simp only [List.length_map, List.length_append, List.length_take] at hlen hle
  have hfuel : pre'.length < b'.walkFuel := by
    rw [walkFuel, hpassed.fresh]
    omega
  obtain ⟨mem', hrun, -, hgone⟩ := shrink_eq hpassed.list_rd hpassed.rd_end hfuel
  have hwr : w.1 ∈ pre'.map Prod.fst := by
    rw [hpassed.addrs]
    refine List.mem_map_of_mem (List.mem_append_right _ ?_)
    have hupto : (mid ++ w :: post).take (mid.length + 1) = mid ++ [w] := by
      rw [List.append_cons, List.take_left' (by simp)]
    refine List.take_subset_take_left _ hk ?_
    rw [hupto]
    simp
  refine ⟨_, hrun, write_destroyed (a := w.1) ?_ (hgone w.1 hwr) [0]⟩
  exact hpassed.pageWr.trans h.pageWr_eq

theorem Passed.not_actsAs (hpassed : Passed b pre (mid ++ w :: post) n b' pre' k)
    (h : b.Shape full pre mid w post) (hk : mid.length < k) (s : List UInt8) : ¬ b'.ActsAs s := by
  intro hacts
  obtain ⟨b'', hshrink, hwrite⟩ := hpassed.write_faults h hk
  obtain ⟨_, hrun, _⟩ := hacts [.shrink, .write [0]]
  simp [Machine.run, VarBuf.exec, hshrink, hwrite] at hrun

/-- The buffer goes on with the rest of the bytes exactly if a number of whole pages before
the write page hold the consumed bytes. -/
theorem Passed.actsAs_iff (hpassed : Passed b pre (mid ++ w :: post) n b' pre' k)
    (h : b.Shape full pre mid w post) (hsize : 0 < pageSize) :
    b'.ActsAs ((contents (mid ++ [w])).drop n) ↔
      ∃ j < (mid ++ [w]).length, (contents ((mid ++ [w]).take j)).length = n := by
  have htake : ∀ j ≤ mid.length, (mid ++ w :: post).take j = mid.take j ∧
      (mid ++ [w]).take j = mid.take j := fun j hj =>
    ⟨List.take_append_of_le_length hj, List.take_append_of_le_length hj⟩
  have hlen : (mid ++ w :: post).length = mid.length + (post.length + 1) := by simp
  rw [List.length_append, List.length_singleton]
  constructor
  · intro hacts
    have hk : k ≤ mid.length := Nat.le_of_not_lt fun hk => hpassed.not_actsAs h hk _ hacts
    have hstring := hacts.toString
    rw [(hpassed.shape h hk).represents.toString] at hstring
    have hlength := congrArg List.length (Except.ok.inj hstring)
    have henough := hpassed.enough (by omega)
    rw [(htake k hk).1] at henough
    rw [contents_split mid w k, List.length_drop, List.length_append] at hlength
    refine ⟨k, by omega, ?_⟩
    rw [(htake k hk).2]
    omega
  · rintro ⟨j, hj, hn⟩
    have hj : j ≤ mid.length := Nat.le_of_lt_succ hj
    rw [(htake j hj).2] at hn
    have hkj : k ≤ j := by
      by_contra hlt
      have hmore := hpassed.more j (Nat.lt_of_not_le hlt)
      rw [(htake j hj).1, hn] at hmore
      exact Nat.lt_irrefl n hmore
    have hk := Nat.le_trans hkj hj
    have henough := hpassed.enough (by omega)
    rw [(htake k hk).1] at henough
    have hall : (contents (mid.take k)).length = n := by
      obtain ⟨d, rfl⟩ := Nat.exists_eq_add_of_le hkj
      rw [List.take_add, contents_append, List.length_append] at hn
      omega
    rw [contents_split mid w k, ← hall, List.drop_left]
    exact (hpassed.shape h hk).represents.actsAs hsize

end

/-! ## What a consumed count drops -/

theorem Blank.rdPosition {b : VarBuf pageSize} (h : b.Blank) (n : Nat) :
    b.rdPosition n = .ok (b, 0) := by
  cases n with
  | zero => rfl
  | succ n => simp [VarBuf.rdPosition, walkFuel, rdPositionLoop, h.2.1]

/-- `rd_position(n)` returns the number of bytes there are, up to `n`; the buffer then acts
as the rest exactly if it has no page, or `n` is what the first few pages of those that
`rd_iovec` lists hold, the last not among them. -/
theorem rdPosition_drops_iff (hsize : 0 < pageSize) (raw : Addr → Nat → UInt8)
    (ops : List Op) :
    ∃ (b : VarBuf pageSize) (w : List UInt8) (vc : List (List UInt8)),
      Machine.run VarBuf.exec (new raw) ops = .ok (b, (Fifo.run ops).2) ∧
      b.toString = .ok w ∧ b.rdIovec = .ok vc ∧
      ∀ n, ∃ b', b.rdPosition n = .ok (b', min n w.length) ∧
        (b'.ActsAs (w.drop n) ↔
          vc = [] ∨ ∃ k < vc.length, (vc.take k).flatten.length = n) := by
  obtain ⟨b, hrun, hrep⟩ := represents_run hsize raw ops
  generalize hw : (Fifo.run ops).1 = s at hrep
  rcases hrep with ⟨hblank, rfl⟩ | ⟨pre, mid, w, post, h, rfl⟩
  · have hempty : b.Represents True [] := .inl ⟨hblank, rfl⟩
    refine ⟨b, [], [], hrun, hempty.toString, hblank.rdIovec, fun n => ⟨b, ?_, ?_⟩⟩
    · simp [hblank.rdPosition]
    · simp [hempty.actsAs hsize]
  · refine ⟨b, _, _, hrun, h.represents.toString, h.rdIovec, fun n => ?_⟩
    obtain ⟨b', pre', k, hloop, hpassed⟩ :=
      rdPositionLoop_eq (n := n) h.list_rd (h.rd_wr.append h.wr_end) h.pre_ordered
        h.ordered_from_rd h.length_from_rd
    refine ⟨b', ?_, ?_⟩
    · rw [VarBuf.rdPosition, hloop, h.contents_from_rd]
      show Except.ok (b', _) = _
      congr 2
      omega
    · rw [hpassed.actsAs_iff h hsize]
      have hflat : ∀ j, (((mid ++ [w]).map fun x => x.2.bytes).take j).flatten =
          contents ((mid ++ [w]).take j) := by
        intro j
        rw [← List.map_take, contents, List.flatMap_def]
      simp only [hflat, List.length_map]
      constructor
      · exact Or.inr
      · rintro (hnil | hmany)
        · simp at hnil
        · exact hmany

/-- Two-byte pages: the first page was sent, and the buffer goes on with the other. -/
theorem rdPosition_drops_two : ∃ b b' : VarBuf 2,
    Machine.run VarBuf.exec (new fun _ _ => 7) [.write [1, 2, 3]] = .ok (b, [.wrote 3]) ∧
      b.rdPosition 2 = .ok (b', 2) ∧ b'.ActsAs [3] := by
  obtain ⟨b, w, vc, hrun, hw, hvc, hall⟩ :=
    rdPosition_drops_iff (by decide : 0 < 2) (fun _ _ => 7) [.write [1, 2, 3]]
  obtain ⟨rfl, _⟩ := Prod.mk.inj (Except.ok.inj hrun)
  obtain rfl : [1, 2, 3] = w := Except.ok.inj hw
  obtain rfl : [[1, 2], [3]] = vc := Except.ok.inj hvc
  obtain ⟨b', hpos, hiff⟩ := hall 2
  exact ⟨_, b', hrun, hpos, hiff.mpr (.inr ⟨1, by decide, by decide⟩)⟩

/-- Two-byte pages: one byte of the first page was sent, and the other is lost. -/
theorem rdPosition_loses_rest : ∃ b b' : VarBuf 2,
    Machine.run VarBuf.exec (new fun _ _ => 7) [.write [1, 2, 3]] = .ok (b, [.wrote 3]) ∧
      b.rdPosition 1 = .ok (b', 1) ∧ b'.toString = .ok [3] :=
  ⟨_, _, rfl, rfl, rfl⟩

end VarBuf

end BoostCoro.Buffer
