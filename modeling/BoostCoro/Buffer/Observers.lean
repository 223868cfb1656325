import BoostCoro.Buffer.Fifo
/-!
# What the observers and `read` report

The walks that only count. They agree on the bytes the buffer holds, since no page after the
write page has any, but `empty` has its two answers the wrong way round, and `read` reports
the number of bytes it was asked for.
-/

namespace BoostCoro.Buffer

open Linked

namespace VarBuf

variable {pageSize : Nat} {full : Prop}

/-! ## Counting pages -/

theorem foldl_count (l : List (Cell pageSize)) (count : Nat) :
    l.foldl (fun count _ => count + 1) count = count + l.length := by
  induction l generalizing count with
  | nil => rfl
  | cons x l ih =>
      rw [List.foldl_cons, ih, List.length_cons]
      omega

section

variable {b : VarBuf pageSize} {s : List UInt8} {pre mid post : List (Cell pageSize)}
  {w : Cell pageSize}

theorem Shape.rdPages (h : b.Shape full pre mid w post) : b.rdPages = .ok (mid.length + 1) := by
  rw [VarBuf.rdPages, if_neg h.pageRd_ne_none, h.foldToWr_eq, foldl_count, Nat.zero_add,
    List.length_append, List.length_singleton]

theorem Shape.pages (h : b.Shape full pre mid w post) :
    b.pages = .ok (pre ++ (mid ++ w :: post)).length := by
  have hlist : b.pageList ≠ none := by
    obtain ⟨x, l, hxl⟩ := List.exists_cons_of_ne_nil (show pre ++ (mid ++ w :: post) ≠ [] by simp)
    have hchain := h.chain
    rw [hxl] at hchain
    rw [hchain.1]
    simp
  have hfuel : (pre ++ (mid ++ w :: post)).length < b.walkFuel :=
    Nat.lt_succ_of_le h.length_le_fresh
  rw [VarBuf.pages, if_neg hlist, VarBuf.foldToEnd_eq b _ 0 h.chain hfuel, foldl_count,
    Nat.zero_add]

/-- The walk of `rd_size` goes on behind the write page, where nothing is readable. -/
theorem Shape.rdSize (h : b.Shape full pre mid w post) :
    b.rdSize = .ok (contents (mid ++ [w])).length := by
  rw [VarBuf.rdSize, VarBuf.foldToEnd_eq b _ 0 (h.rd_wr.append h.wr_end) h.length_from_rd,
    foldl_rdSize h.ordered_from_rd, Nat.zero_add, h.contents_from_rd]

/-! ## The observers together -/

theorem Represents.rdSize (h : b.Represents full s) : b.rdSize = .ok s.length := by
  rcases h with ⟨⟨-, hrd, -⟩, rfl⟩ | ⟨pre, mid, w, post, hshape, rfl⟩
  · simp [VarBuf.rdSize, walkFuel, foldToEnd, hrd]
  · exact hshape.rdSize

theorem Represents.rdPages (h : b.Represents full s) :
    ∃ vc, b.rdIovec = .ok vc ∧ vc.flatten = s ∧ b.rdPages = .ok vc.length := by
  rcases h with ⟨hblank, rfl⟩ | ⟨pre, mid, w, post, hshape, rfl⟩
  · exact ⟨[], hblank.rdIovec, rfl, if_pos hblank.2.1⟩
  · refine ⟨_, hshape.rdIovec, by rw [contents, List.flatMap_def], ?_⟩
    rw [hshape.rdPages]
    simp

theorem Represents.empty (h : b.Represents full s) : b.empty = .ok (decide (s ≠ [])) := by
  rw [VarBuf.empty, h.length]
  cases s <;> rfl

end

/-- `length`, `rd_size`, `to_string` and `rd_iovec` show the size `n`, and `rd_pages` counts
the segments. -/
structure SizesAgree (b : VarBuf pageSize) (n : Nat) : Prop where
  length : b.length = .ok n
  rdSize : b.rdSize = .ok n
  toString : ∃ s, b.toString = .ok s ∧ s.length = n
  rdIovec : ∃ vc, b.rdIovec = .ok vc ∧ (vc.map List.length).sum = n ∧ b.rdPages = .ok vc.length

/-- `empty()` is true exactly when the size is zero. -/
def TellsEmpty (b : VarBuf pageSize) (n : Nat) : Prop :=
  ∃ e, b.empty = .ok e ∧ (e = true ↔ n = 0)

theorem Represents.sizesAgree {b : VarBuf pageSize} {s : List UInt8} (h : b.Represents full s) :
    b.SizesAgree s.length := by
  obtain ⟨vc, hvc, hflat, hpages⟩ := h.rdPages
  exact
    { length := h.length
      rdSize := h.rdSize
      toString := ⟨s, h.toString, rfl⟩
      rdIovec := ⟨vc, hvc, by rw [← hflat, List.length_flatten], hpages⟩ }

theorem Represents.not_tellsEmpty {b : VarBuf pageSize} {s : List UInt8}
    (h : b.Represents full s) : ¬ b.TellsEmpty s.length := by
  rintro ⟨e, he, hiff⟩
  obtain rfl := Except.ok.inj (h.empty.symm.trans he)
  rw [decide_eq_true_iff, List.length_eq_zero_iff] at hiff
  exact not_iff_self hiff

/-- After any run of calls the sizes agree, and `empty` says the opposite. -/
theorem observers_disagree (hsize : 0 < pageSize) (raw : Addr → Nat → UInt8) (ops : List Op) :
    ∃ (b : VarBuf pageSize) (n : Nat),
      Machine.run VarBuf.exec (new raw) ops = .ok (b, (Fifo.run ops).2) ∧ b.SizesAgree n ∧
        ¬ b.TellsEmpty n := by
  obtain ⟨b, hrun, hrep⟩ := represents_run hsize raw ops
  exact ⟨b, _, hrun, hrep.sizesAgree, hrep.not_tellsEmpty⟩

/-- Two-byte pages, three bytes written. -/
theorem observers_disagree_three : ∃ (b : VarBuf 2) (n : Nat),
    Machine.run VarBuf.exec (new fun _ _ => 7) [.write [1, 2, 3]] = .ok (b, [.wrote 3]) ∧
      b.SizesAgree n ∧ ¬ b.TellsEmpty n :=
  observers_disagree (by decide : 0 < 2) (fun _ _ => 7) [.write [1, 2, 3]]

/-- A new buffer holds nothing, and `empty` is false. -/
theorem new_not_empty : ∃ b : VarBuf 2, b = new (fun _ _ => 7) ∧ b.length = .ok 0 ∧
    b.empty = .ok false ∧ ¬ b.TellsEmpty 0 := by
  refine ⟨_, rfl, rfl, rfl, ?_⟩
  rintro ⟨e, he, hiff⟩
  obtain rfl : false = e := Except.ok.inj he
  exact absurd (hiff.mpr rfl) (by decide)

/-! ## The count that `read` returns -/

/-- A read of the buffer `b` returns the number of bytes it stored, and the buffer is shorter
by as many. -/
def Reports (b : VarBuf pageSize) (read : Except Fault (VarBuf pageSize × List UInt8 × Nat)) :
    Prop :=
  ∃ b' bytes ret n n', read = .ok (b', bytes, ret) ∧ b.length = .ok n ∧ b'.length = .ok n' ∧
    ret = bytes.length ∧ bytes.length + n' = n

theorem Represents.reports_iff {b : VarBuf pageSize} {s : List UInt8} (h : b.Represents full s)
    (len : Nat) : b.Reports (b.read len) ↔ len ≤ s.length := by
  obtain ⟨b', hread, hrep⟩ := h.read len
  constructor
  · rintro ⟨_, _, _, _, _, hok, -, -, hret, -⟩
    rw [hread] at hok
    cases hok
    rw [List.length_take] at hret
    omega
  · intro hlen
    refine ⟨b', _, _, _, _, hread, h.length, hrep.length, ?_, ?_⟩
    · rw [List.length_take]
      omega
    · rw [List.length_take, List.length_drop]
      omega

/-- `read` and `read_by_size` report what they copied exactly if the buffer holds as many
bytes as they are asked for. -/
theorem read_reports_iff (hsize : 0 < pageSize) (raw : Addr → Nat → UInt8) (ops : List Op) :
    ∃ (b : VarBuf pageSize) (n : Nat),
      Machine.run VarBuf.exec (new raw) ops = .ok (b, (Fifo.run ops).2) ∧ b.length = .ok n ∧
        ∀ len, (b.Reports (b.read len) ↔ len ≤ n) ∧ (b.Reports (b.readBySize len) ↔ len ≤ n) := by
  obtain ⟨b, hrun, hrep⟩ := represents_run hsize raw ops
  exact ⟨b, _, hrun, hrep.length, fun len => ⟨hrep.reports_iff len, hrep.reports_iff len⟩⟩

/-- Two-byte pages: two of three bytes are read. -/
theorem read_reports_two : ∃ b : VarBuf 2,
    Machine.run VarBuf.exec (new fun _ _ => 7) [.write [1, 2, 3]] = .ok (b, [.wrote 3]) ∧
      b.Reports (b.read 2) := by
  obtain ⟨b, n, hrun, hn, hall⟩ := read_reports_iff (by decide : 0 < 2) (fun _ _ => 7)
    [.write [1, 2, 3]]
  obtain ⟨rfl, _⟩ := Prod.mk.inj (Except.ok.inj hrun)
  obtain rfl : 3 = n := Except.ok.inj hn
  exact ⟨_, hrun, (hall 2).1.mpr (by decide)⟩

/-- A read of five bytes stores three and returns five. -/
theorem read_reports_too_many : ∃ b b' : VarBuf 2,
    Machine.run VarBuf.exec (new fun _ _ => 7) [.write [1, 2, 3]] = .ok (b, [.wrote 3]) ∧
      b.length = .ok 3 ∧ b.read 5 = .ok (b', [1, 2, 3], 5) ∧ b'.length = .ok 0 ∧
        ¬ b.Reports (b.read 5) := by
  refine ⟨_, _, rfl, rfl, rfl, rfl, ?_⟩
  rintro ⟨_, _, _, _, _, hread, -, -, hret, -⟩
  cases hread
  exact absurd hret (by decide)

end VarBuf

end BoostCoro.Buffer
