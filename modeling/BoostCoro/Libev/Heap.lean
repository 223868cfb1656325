import BoostCoro.Lib.DHeap
/-!
# The timer heap of libev

`upheap`, `downheap`, `adjustheap` and `reheap` of `libev/ev.c` as the default
configuration compiles them: a heap in which every entry has four children, with
the time of each watcher cached beside it and the position of each entry kept in
the `active` field of its watcher.
-/

namespace BoostCoro.Libev

/-- `ANHE`: a heap entry, `at` cached from the watcher. -/
structure Anhe (κ τ : Type) where
  anheAt : τ
  anheW : κ
  deriving DecidableEq, Repr

/-- A heap array with the `active` fields that the heap functions write. -/
structure Heap (κ τ : Type) where
  heap : Nat → Anhe κ τ
  active : κ → Nat

def dheap : Nat := 4

/-- The index of the first entry; the positions before it are not used. -/
def heap0 : Nat := dheap - 1

/-- `HPARENT(k)`. -/
def hparent (k : Nat) : Nat := (k - heap0 - 1) / dheap + heap0

theorem hparent_lt {k : Nat} (h : heap0 < k) : hparent k < k := by
  unfold hparent dheap
  omega

/-- The shape of the heap. -/
def tree : DHeap.Tree := .dary dheap heap0

@[simp] theorem tree_root : tree.root = heap0 := rfl

@[simp] theorem tree_parent (k : Nat) : tree.parent k = hparent k := rfl

namespace Heap

variable {κ τ : Type} [DecidableEq κ] [LinearOrder τ]

/-- `heap [k] = he` alone. -/
def write (h : Heap κ τ) (k : Nat) (he : Anhe κ τ) : Heap κ τ :=
  { h with heap := Function.update h.heap k he }

omit [DecidableEq κ] [LinearOrder τ] in
@[simp] theorem write_self (h : Heap κ τ) (k : Nat) (he : Anhe κ τ) :
    (h.write k he).heap k = he := Function.update_self ..

omit [DecidableEq κ] [LinearOrder τ] in
theorem write_of_ne (h : Heap κ τ) {k i : Nat} (he : Anhe κ τ) (hne : i ≠ k) :
    (h.write k he).heap i = h.heap i := Function.update_of_ne hne ..

/-- `heap [k] = he; ev_active (ANHE_w (he)) = k`. -/
def place (h : Heap κ τ) (k : Nat) (he : Anhe κ τ) : Heap κ τ where
  heap := Function.update h.heap k he
  active := Function.update h.active he.anheW k

/-- The loop of `upheap`. Only the first position is its own parent, so `UPHEAP_DONE`
holds there alone. -/
def upheapFrom (he : Anhe κ τ) (h : Heap κ τ) (k : Nat) : Heap κ τ :=
  if heap0 < k ∧ ¬(h.heap (hparent k)).anheAt ≤ he.anheAt then
    upheapFrom he (h.place k (h.heap (hparent k))) (hparent k)
  else h.place k he
termination_by k
decreasing_by
  rename_i hup
  exact hparent_lt hup.1

/-- `upheap(heap, k)`. -/
def upheap (h : Heap κ τ) (k : Nat) : Heap κ τ := upheapFrom (h.heap k) h k

/-- One comparison of the search for the minimum child. -/
def lesser (heap : Nat → Anhe κ τ) (minpos pos : Nat) : Nat :=
  if (heap pos).anheAt < (heap minpos).anheAt then pos else minpos

/-- The minimum child of the entry whose children start at `pos`, in a heap that ends
before `e`. -/
def minChild (heap : Nat → Anhe κ τ) (pos e : Nat) : Option Nat :=
  if pos + dheap - 1 < e then
    -- fast path: all children are there
    let minpos := pos
    let minpos := lesser heap minpos (pos + 1)
    let minpos := lesser heap minpos (pos + 2)
    let minpos := lesser heap minpos (pos + 3)
    some minpos
  else if pos < e then
    -- slow path
    let minpos := pos
    let minpos := if pos + 1 < e then lesser heap minpos (pos + 1) else minpos
    let minpos := if pos + 2 < e then lesser heap minpos (pos + 2) else minpos
    let minpos := if pos + 3 < e then lesser heap minpos (pos + 3) else minpos
    some minpos
  else none

/-! ## The minimum child -/

section MinChild

variable {heap : Nat → Anhe κ τ} {pos e m : Nat}

/-- `m` is a least entry among those from `pos` on and before `up`. -/
def Least (heap : Nat → Anhe κ τ) (pos up m : Nat) : Prop :=
  (pos ≤ m ∧ m < up) ∧ ∀ j, pos ≤ j → j < up → (heap m).anheAt ≤ (heap j).anheAt

omit [DecidableEq κ] in
theorem Least.lesser {up : Nat} (h : Least heap pos up m) :
    Least heap pos (up + 1) (lesser heap m up) := by
  obtain ⟨⟨hle, hlt⟩, hmin⟩ := h
  unfold Heap.lesser
  split
  next hnew =>
    refine ⟨⟨hle.trans hlt.le, Nat.lt_succ_self _⟩, fun j hj hjup => ?_⟩
    rcases Nat.lt_succ_iff_lt_or_eq.mp hjup with hjlt | rfl
    · exact hnew.le.trans (hmin j hj hjlt)
    · exact le_refl _
  next hold =>
    refine ⟨⟨hle, Nat.lt_succ_of_lt hlt⟩, fun j hj hjup => ?_⟩
    rcases Nat.lt_succ_iff_lt_or_eq.mp hjup with hjlt | rfl
    · exact hmin j hj hjlt
    · exact le_of_not_gt hold

omit [DecidableEq κ] in
/-- The same for a child that may be past the end. -/
theorem Least.candidate {c : Nat} (h : Least heap pos (min (pos + c) e) m) :
    Least heap pos (min (pos + (c + 1)) e)
      (if pos + c < e then Heap.lesser heap m (pos + c) else m) := by
  split
  next hin =>
    rw [min_eq_left hin.le] at h
    rw [← Nat.add_assoc, min_eq_left hin]
    exact h.lesser
  next hout =>
    have hend : min (pos + c) e = min (pos + (c + 1)) e := by omega
    rwa [← hend]

omit [DecidableEq κ] in
/-- The fast path finds the child that the slow path would find. -/
theorem minChild_eq_slow (heap : Nat → Anhe κ τ) (pos e : Nat) :
    minChild heap pos e =
      if pos < e then
        let minpos := pos
        let minpos := if pos + 1 < e then lesser heap minpos (pos + 1) else minpos
        let minpos := if pos + 2 < e then lesser heap minpos (pos + 2) else minpos
        let minpos := if pos + 3 < e then lesser heap minpos (pos + 3) else minpos
        some minpos
      else none := by
  unfold minChild dheap
  split
  next hfast =>
    have hall : pos < e ∧ pos + 1 < e ∧ pos + 2 < e ∧ pos + 3 < e := by omega
    simp only [hall, if_true]
  next => rfl

omit [DecidableEq κ] in
theorem minChild_eq_none : minChild heap pos e = none ↔ e ≤ pos := by
  rw [minChild_eq_slow]
  split
  next hin => simp [hin]
  next hout => simp [Nat.not_lt.mp hout]

omit [DecidableEq κ] in
theorem minChild_least (h : minChild heap pos e = some m) :
    Least heap pos (min (pos + dheap) e) m := by
  rw [minChild_eq_slow] at h
  split at h
  next hin =>
    have hfirst : Least heap pos (min (pos + 1) e) pos := by
      rw [min_eq_left hin]
      refine ⟨⟨le_refl _, Nat.lt_succ_self _⟩, fun j hj hjup => ?_⟩
      rw [Nat.le_antisymm (Nat.le_of_lt_succ hjup) hj]
    rw [← Option.some.inj h]
    exact hfirst.candidate.candidate.candidate
  next => cases h

end MinChild

/-- The loop of `downheap` in a heap of `n` entries. -/
def downheapFrom (n : Nat) (he : Anhe κ τ) (h : Heap κ τ) (k : Nat) : Heap κ τ :=
  match _hmin : minChild h.heap (dheap * (k - heap0) + heap0 + 1) (n + heap0) with
  | none => h.place k he
  | some minpos =>
    if he.anheAt ≤ (h.heap minpos).anheAt then h.place k he
    else downheapFrom n he (h.place k (h.heap minpos)) minpos
termination_by n + heap0 - k
decreasing_by
  have hleast := (minChild_least _hmin).1
  have hpos : k < dheap * (k - heap0) + heap0 + 1 := by
    unfold dheap
    omega
  omega

/-- `downheap(heap, N, k)`. -/
def downheap (h : Heap κ τ) (n k : Nat) : Heap κ τ := downheapFrom n (h.heap k) h k

/-- `adjustheap(heap, N, k)`: move an element suitably so it is in a correct place. -/
def adjustheap (h : Heap κ τ) (n k : Nat) : Heap κ τ :=
  if k > heap0 ∧ (h.heap k).anheAt ≤ (h.heap (hparent k)).anheAt then h.upheap k
  else h.downheap n k

/-- `reheap(heap, N)`: `upheap` at every position in turn. -/
def reheap (h : Heap κ τ) : Nat → Heap κ τ
  | 0 => h
  | n + 1 => (h.reheap n).upheap (n + heap0)

/-! ## What the sifts do -/

/-- The positions of a heap of `n` entries. -/
def Used (n i : Nat) : Prop := heap0 ≤ i ∧ i < n + heap0

/-- Every watcher in the heap has its position in `active`. -/
def Indexed (n : Nat) (h : Heap κ τ) : Prop :=
  ∀ i, Used n i → h.active (h.heap i).anheW = i

/-- The same but for the hole at `k`, which waits for `he`. -/
structure Holed (n k : Nat) (he : Anhe κ τ) (h : Heap κ τ) : Prop where
  used : Used n k
  indexed : ∀ i, Used n i → i ≠ k → h.active (h.heap i).anheW = i
  apart : ∀ i, Used n i → i ≠ k → (h.heap i).anheW ≠ he.anheW

/-- The heap condition for the first `n` entries of an array. -/
def InOrder (n : Nat) (heap : Nat → Anhe κ τ) : Prop :=
  DHeap.Ordered tree (n + heap0) fun i => (heap i).anheAt

/-- What a sift makes of the entries `f` and of the `active` fields: the same entries in
the order of a heap, every watcher told its position, no other watcher touched. -/
structure Sifted (n : Nat) (f : Nat → Anhe κ τ) (active : κ → Nat) (h : Heap κ τ) : Prop where
  shuffle : DHeap.Shuffle heap0 (n + heap0) f h.heap
  indexed : h.Indexed n
  ordered : InOrder n h.heap
  frame : ∀ c, (∀ i, Used n i → (f i).anheW ≠ c) → h.active c = active c

section Sifts

variable {n k m : Nat} {he : Anhe κ τ} {h h' : Heap κ τ}

omit [DecidableEq κ] [LinearOrder τ] in
theorem Indexed.inj (hidx : h.Indexed n) {i j : Nat} (hi : Used n i) (hj : Used n j)
    (heq : (h.heap i).anheW = (h.heap j).anheW) : i = j := by
  rw [← hidx i hi, heq, hidx j hj]

omit [DecidableEq κ] [LinearOrder τ] in
theorem Indexed.holed (hidx : h.Indexed n) (hk : Used n k) : Holed n k (h.heap k) h where
  used := hk
  indexed i hi _ := hidx i hi
  apart _ hi hne heq := hne (hidx.inj hi hk heq)

omit [DecidableEq κ] in
theorem InOrder.congr {f g : Nat → Anhe κ τ} (hord : InOrder n f)
    (hsame : ∀ i, Used n i → g i = f i) : InOrder n g := by
  intro j hj hjn
  have hlt := tree.parent_lt hj
  have hj' : Used n j := ⟨Nat.le_of_lt hj, hjn⟩
  have hp' : Used n (tree.parent j) := ⟨tree.root_le hj, hlt.trans hjn⟩
  simp only [hsame j hj', hsame _ hp']
  exact hord j hj hjn

omit [LinearOrder τ] in
/-- The hole moves to the place of an entry that fills it. -/
theorem Holed.move (hole : Holed n k he h) (hm : Used n m) (hne : m ≠ k) :
    Holed n m he (h.place k (h.heap m)) := by
  have hsame : ∀ i, i ≠ k → (h.place k (h.heap m)).heap i = h.heap i := fun i hi =>
    Function.update_of_ne hi ..
  have hfill : (h.place k (h.heap m)).heap k = h.heap m := Function.update_self ..
  refine ⟨hm, fun i hi him => ?_, fun i hi him => ?_⟩
  · by_cases hik : i = k
    · rw [hik, hfill]
      exact Function.update_self ..
    · rw [hsame i hik]
      have hother : (h.heap i).anheW ≠ (h.heap m).anheW := by
        intro heq
        have := hole.indexed i hi hik
        rw [heq, hole.indexed m hm hne] at this
        exact him this.symm
      exact (Function.update_of_ne hother ..).trans (hole.indexed i hi hik)
  · by_cases hik : i = k
    · rw [hik, hfill]
      exact hole.apart m hm hne
    · rw [hsame i hik]
      exact hole.apart i hi hik

/-- The entry is put into the hole. -/
theorem Holed.finish (hole : Holed n k he h)
    (hord : InOrder n (Function.update h.heap k he)) :
    Sifted n (Function.update h.heap k he) h.active (h.place k he) where
  shuffle := .refl ..
  indexed := by
    intro i hi
    by_cases hik : i = k
    · rw [hik]
      simp [place]
    · have hother : (h.heap i).anheW ≠ he.anheW := hole.apart i hi hik
      simp [place, Function.update_of_ne hik, Function.update_of_ne hother,
        hole.indexed i hi hik]
  ordered := hord
  frame := by
    intro c hc
    have hne : c ≠ he.anheW := by
      have := hc k hole.used
      rwa [Function.update_self, ne_comm] at this
    exact Function.update_of_ne hne ..

/-- A watcher that is not in the heap may be told that it is not. -/
theorem Sifted.forget {f : Nat → Anhe κ τ} {active : κ → Nat} (hs : Sifted n f active h) {w : κ}
    (hw : ∀ k, Used n k → (f k).anheW ≠ w) :
    Sifted n f (Function.update active w 0)
      { h with active := Function.update h.active w 0 } := by
  refine ⟨hs.shuffle, fun i hi => ?_, hs.ordered, fun c hc => ?_⟩
  · obtain ⟨j, hj, heq⟩ := hs.shuffle.source hi
    have hne : (h.heap i).anheW ≠ w := heq ▸ hw j hj
    exact (Function.update_of_ne hne ..).trans (hs.indexed i hi)
  · by_cases hcw : c = w
    · simp [hcw]
    · simp only [Function.update_of_ne hcw]
      exact hs.frame c hc

omit [DecidableEq κ] in
/-- The watchers in the heap, where no other was told a position before. -/
theorem Sifted.active_iff {f : Nat → Anhe κ τ} {active : κ → Nat} (hs : Sifted n f active h)
    (hlisted : ∀ w, active w ≠ 0 → ∃ k, Used n k ∧ (f k).anheW = w) {w : κ} :
    h.active w ≠ 0 ↔ ∃ k, Used n k ∧ (f k).anheW = w := by
  constructor
  · intro hw
    by_contra hout
    refine hout (hlisted w ?_)
    rwa [← hs.frame w fun k hk heq => hout ⟨k, hk, heq⟩]
  · rintro ⟨k, hk, rfl⟩ hzero
    obtain ⟨j, hj, heq⟩ := hs.shuffle.symm.source hk
    have hpos := hs.indexed j hj
    rw [← heq, hzero] at hpos
    have := hj.1
    rw [← hpos] at this
    exact absurd this (by decide)

/-- What is left to do after a move does the whole. -/
theorem Sifted.of_move (hk : Used n k) (hm : Used n m) (hne : m ≠ k)
    (hrest : Sifted n (Function.update (h.place k (h.heap m)).heap m he)
      (h.place k (h.heap m)).active h') :
    Sifted n (Function.update h.heap k he) h.active h' := by
  obtain ⟨hshuffle, hindexed, hordered, hframe⟩ := hrest
  have hmove : Function.update (h.place k (h.heap m)).heap m he =
      Function.update h.heap k he ∘ Equiv.swap k m := DHeap.fill_move ..
  rw [hmove] at hshuffle hframe
  refine ⟨(DHeap.Shuffle.swap hk hm).trans hshuffle, hindexed, hordered, fun c hc => ?_⟩
  have hnot : ∀ i, Used n i →
      ((Function.update h.heap k he ∘ Equiv.swap k m) i).anheW ≠ c := by
    intro i hi
    obtain ⟨j, hj, heq⟩ :=
      (DHeap.Shuffle.swap (f := Function.update h.heap k he) hk hm).source hi
    rw [heq]
    exact hc j hj
  rw [hframe c hnot]
  have hmc := hc m hm
  rw [Function.update_of_ne hne] at hmc
  exact Function.update_of_ne hmc.symm ..

omit [DecidableEq κ] [LinearOrder τ] in
/-- The times that the sifts compare, after a move. -/
theorem move_key (f : Nat → Anhe κ τ) :
    (fun i => (Function.update (Function.update f k (f m)) m he i).anheAt) =
      (fun i => (Function.update f k he i).anheAt) ∘ Equiv.swap k m := by
  rw [DHeap.fill_move]
  rfl

theorem downheapFrom_of_none
    (hnone : minChild h.heap (dheap * (k - heap0) + heap0 + 1) (n + heap0) = none) :
    downheapFrom n he h k = h.place k he := by
  rw [downheapFrom]
  split
  next => rfl
  next hsome => rw [hnone] at hsome; cases hsome

theorem downheapFrom_of_some
    (hsome : minChild h.heap (dheap * (k - heap0) + heap0 + 1) (n + heap0) = some m) :
    downheapFrom n he h k =
      if he.anheAt ≤ (h.heap m).anheAt then h.place k he
      else downheapFrom n he (h.place k (h.heap m)) m := by
  rw [downheapFrom]
  split
  next hnone => rw [hsome] at hnone; cases hnone
  next m' hm =>
    obtain rfl := Option.some.inj (hsome.symm.trans hm)
    rfl

theorem upheapFrom_sifted (hole : Holed n k he h)
    (hup : DHeap.UpAt tree (n + heap0)
      (fun i => (Function.update h.heap k he i).anheAt) k) :
    Sifted n (Function.update h.heap k he) h.active (upheapFrom he h k) := by
  induction h, k using upheapFrom.induct he with
  | case1 h k hmore ih =>
      obtain ⟨hroot, hafter⟩ := hmore
      have hlt := hparent_lt hroot
      have hused : Used n (hparent k) :=
        ⟨tree.root_le (k := k) hroot, hlt.trans hole.used.2⟩
      rw [upheapFrom, if_pos ⟨hroot, hafter⟩]
      refine .of_move hole.used hused hlt.ne (ih (hole.move hused hlt.ne) ?_)
      have hswap := hup.swap hroot hole.used.2 (by
        simp only [tree_parent, Function.update_self, Function.update_of_ne hlt.ne]
        exact not_le.mp hafter)
      rw [tree_parent, ← move_key] at hswap
      exact hswap
  | case2 h k hstop =>
      rw [upheapFrom, if_neg hstop]
      refine hole.finish (hup.ordered fun hroot _ => ?_)
      have hlt := hparent_lt hroot
      simp only [tree_parent, Function.update_self, Function.update_of_ne hlt.ne]
      by_contra hafter
      exact hstop ⟨hroot, hafter⟩

theorem downheapFrom_sifted (hole : Holed n k he h)
    (hdown : DHeap.DownAt tree (n + heap0)
      (fun i => (Function.update h.heap k he i).anheAt) k) :
    Sifted n (Function.update h.heap k he) h.active (downheapFrom n he h k) := by
  have hkey : ∀ (h : Heap κ τ) (k j : Nat), j ≠ k →
      (Function.update h.heap k he j).anheAt = (h.heap j).anheAt := by
    intro h k j hne
    rw [Function.update_of_ne hne]
  induction h, k using downheapFrom.induct n he with
  | case1 h k hnone =>
      rw [downheapFrom_of_none hnone]
      refine hole.finish (hdown.ordered fun j hj hjn hparent => ?_)
      have hrange := (DHeap.Tree.dary_parent_eq (by decide) hole.used.1 hj).mp hparent
      have hend := minChild_eq_none.mp hnone
      omega
  | case2 h k minpos hsome hle =>
      rw [downheapFrom_of_some hsome, if_pos hle]
      refine hole.finish (hdown.ordered fun j hj hjn hparent => ?_)
      have hrange := (DHeap.Tree.dary_parent_eq (by decide) hole.used.1 hj).mp hparent
      have hleast := (minChild_least hsome).2 j hrange.1 (lt_min hrange.2 hjn)
      rw [Function.update_self, hkey h k j (hparent ▸ tree.parent_lt hj).ne']
      exact hle.trans hleast
  | case3 h k minpos hsome hgt ih =>
      have hleast := minChild_least hsome
      have hpos : minpos < dheap * (k - heap0) + heap0 + 1 + dheap ∧ minpos < n + heap0 := by
        have := hleast.1.2
        omega
      have hroot : heap0 < minpos := by
        have := hleast.1.1
        omega
      have hparent : hparent minpos = k :=
        (DHeap.Tree.dary_parent_eq (by decide) hole.used.1 hroot).mpr
          ⟨hleast.1.1, hpos.1⟩
      have hlt : k < minpos := hparent ▸ hparent_lt hroot
      have hused : Used n minpos := ⟨hroot.le, hpos.2⟩
      rw [downheapFrom_of_some hsome, if_neg hgt]
      refine .of_move hole.used hused hlt.ne' (ih (hole.move hused hlt.ne') ?_)
      have hswap := hdown.swap hroot hpos.2 hparent (by
        rw [Function.update_self, hkey h k minpos hlt.ne']
        exact not_le.mp hgt) (fun j hj hjn hsib => by
          have hrange := (DHeap.Tree.dary_parent_eq (by decide) hole.used.1 hj).mp hsib
          rw [hkey h k minpos hlt.ne', hkey h k j (hsib ▸ tree.parent_lt hj).ne']
          exact hleast.2 j hrange.1 (lt_min hrange.2 hjn))
      rw [← move_key] at hswap
      exact hswap

theorem upheap_sifted (hole : Holed n k (h.heap k) h)
    (hup : DHeap.UpAt tree (n + heap0) (fun i => (h.heap i).anheAt) k) :
    Sifted n h.heap h.active (h.upheap k) := by
  have hsifted := upheapFrom_sifted hole (by rwa [Function.update_eq_self])
  rwa [Function.update_eq_self] at hsifted

theorem downheap_sifted (hole : Holed n k (h.heap k) h)
    (hdown : DHeap.DownAt tree (n + heap0) (fun i => (h.heap i).anheAt) k) :
    Sifted n h.heap h.active (h.downheap n k) := by
  have hsifted := downheapFrom_sifted hole (by rwa [Function.update_eq_self])
  rwa [Function.update_eq_self] at hsifted

/-- A heap with another entry, or another time, at one position is put in order. -/
theorem adjustheap_sifted {key : Nat → τ} (hole : Holed n k (h.heap k) h)
    (hord : DHeap.Ordered tree (n + heap0) key)
    (hsame : ∀ j, j ≠ k → (h.heap j).anheAt = key j) :
    Sifted n h.heap h.active (h.adjustheap n k) := by
  unfold adjustheap
  split
  next hup => exact upheap_sifted hole (hord.upAt hole.used.2 hup.1 hsame hup.2)
  next hdown =>
    refine downheap_sifted hole (hord.downAt hole.used.2 hsame fun hroot => ?_)
    by_contra hafter
    exact hdown ⟨hroot, (not_le.mp hafter).le⟩

omit [DecidableEq κ] [LinearOrder τ] in
/-- The entries of an array with one more behind them. -/
theorem mem_push {f : Nat → Anhe κ τ} {p : Anhe κ τ → Prop} :
    (∃ k, Used (n + 1) k ∧ p (Function.update f (n + heap0) he k)) ↔
      p he ∨ ∃ k, Used n k ∧ p (f k) := by
  constructor
  · rintro ⟨k, hk, hp⟩
    by_cases hlast : k = n + heap0
    · rw [hlast, Function.update_self] at hp
      exact .inl hp
    · rw [Function.update_of_ne hlast] at hp
      have := hk.2
      exact .inr ⟨k, ⟨hk.1, by omega⟩, hp⟩
  · rintro (hp | ⟨k, hk, hp⟩)
    · exact ⟨n + heap0, ⟨Nat.le_add_left .., by omega⟩, by rwa [Function.update_self]⟩
    · have hlt := hk.2
      exact ⟨k, ⟨hk.1, by omega⟩, by rwa [Function.update_of_ne hlt.ne]⟩

/-- A new entry behind the others is put in order. -/
theorem push_sifted (hidx : h.Indexed n) (hord : InOrder n h.heap)
    (hout : ∀ i, Used n i → (h.heap i).anheW ≠ he.anheW) :
    Sifted (n + 1) (Function.update h.heap (n + heap0) he)
      (Function.update h.active he.anheW (n + heap0))
      ((h.place (n + heap0) he).upheap (n + heap0)) := by
  have hold : ∀ i, Used (n + 1) i → i ≠ n + heap0 → Used n i := fun i hi hne =>
    ⟨hi.1, by
      have := hi.2
      omega⟩
  have hsame : ∀ i, i ≠ n + heap0 → (h.place (n + heap0) he).heap i = h.heap i := fun i hne =>
    Function.update_of_ne hne ..
  have hself : (h.place (n + heap0) he).heap (n + heap0) = he := Function.update_self ..
  have hnew : Used (n + 1) (n + heap0) := ⟨Nat.le_add_left .., by omega⟩
  refine upheap_sifted (h := h.place (n + heap0) he)
    ⟨hnew, fun i hi hne => ?_, fun i hi hne => ?_⟩ ?_
  · rw [hsame i hne]
    exact (Function.update_of_ne (hout i (hold i hi hne)) ..).trans (hidx i (hold i hi hne))
  · rw [hsame i hne, hself]
    exact hout i (hold i hi hne)
  · rw [Nat.add_right_comm]
    exact DHeap.Ordered.grow (hord.congr fun i hi => hsame i hi.2.ne)

/-- The entries that are left when the last one takes the place of the one at `k`. -/
def pull (n k : Nat) (f : Nat → Anhe κ τ) : Nat → Anhe κ τ :=
  if k < n + heap0 then Function.update f k (f (n + heap0)) else f

omit [DecidableEq κ] [LinearOrder τ] in
/-- They are those of the other positions. -/
theorem mem_pull {f : Nat → Anhe κ τ} {p : Anhe κ τ → Prop} (hk : Used (n + 1) k) :
    (∃ i, Used n i ∧ p (pull n k f i)) ↔ ∃ i, Used (n + 1) i ∧ i ≠ k ∧ p (f i) := by
  have hkn := hk.2
  have hlast : Used (n + 1) (n + heap0) := ⟨Nat.le_add_left .., by omega⟩
  have hup : ∀ i, Used n i → Used (n + 1) i := fun i hi => ⟨hi.1, by
    have := hi.2
    omega⟩
  unfold pull
  split
  next hlt =>
    constructor
    · rintro ⟨i, hi, hp⟩
      by_cases hik : i = k
      · rw [hik, Function.update_self] at hp
        exact ⟨n + heap0, hlast, hlt.ne', hp⟩
      · rw [Function.update_of_ne hik] at hp
        exact ⟨i, hup i hi, hik, hp⟩
    · rintro ⟨i, hi, hik, hp⟩
      by_cases hil : i = n + heap0
      · exact ⟨k, ⟨hk.1, hlt⟩, by rwa [Function.update_self, ← hil]⟩
      · have := hi.2
        exact ⟨i, ⟨hi.1, by omega⟩, by rwa [Function.update_of_ne hik]⟩
  next hge =>
    constructor
    · rintro ⟨i, hi, hp⟩
      have := hi.2
      exact ⟨i, hup i hi, by omega, hp⟩
    · rintro ⟨i, hi, hik, hp⟩
      have := hi.2
      exact ⟨i, ⟨hi.1, by omega⟩, hp⟩

/-- The last entry, moved to the place of another, is put in order. -/
theorem pull_sifted (hidx : h.Indexed (n + 1)) (hord : InOrder (n + 1) h.heap)
    (hk : Used (n + 1) k) :
    Sifted n (pull n k h.heap) h.active
      (if k < n + heap0 then (h.write k (h.heap (n + heap0))).adjustheap n k else h) := by
  have hup : ∀ i, Used n i → Used (n + 1) i := fun i hi => ⟨hi.1, by
    have := hi.2
    omega⟩
  unfold pull
  split
  next hlt =>
    have hlast : Used (n + 1) (n + heap0) := ⟨Nat.le_add_left .., by omega⟩
    have hole : Holed n k (h.heap (n + heap0)) (h.write k (h.heap (n + heap0))) := by
      refine ⟨⟨hk.1, hlt⟩, fun i hi hne => ?_, fun i hi hne heq => ?_⟩
      · rw [write_of_ne _ _ hne]
        exact hidx i (hup i hi)
      · rw [write_of_ne _ _ hne] at heq
        have := hi.2
        rw [hidx.inj (hup i hi) hlast heq] at this
        exact absurd this (Nat.lt_irrefl _)
    have hshort : InOrder n h.heap := DHeap.Ordered.mono hord (by omega)
    refine adjustheap_sifted (h := h.write k (h.heap (n + heap0))) ?_ hshort fun j hne => ?_
    · rwa [write_self]
    · rw [write_of_ne _ _ hne]
  next hge =>
    exact ⟨.refl .., fun i hi => hidx i (hup i hi), DHeap.Ordered.mono hord (by omega),
      fun _ _ => rfl⟩

omit [DecidableEq κ] [LinearOrder τ] in
/-- An entry whose time changes keeps its place until it is adjusted. -/
theorem Indexed.rewrite (hidx : h.Indexed n) (hk : Used n k) (b : τ) :
    Holed n k ((h.write k ⟨b, (h.heap k).anheW⟩).heap k) (h.write k ⟨b, (h.heap k).anheW⟩) := by
  refine ⟨hk, fun i hi hne => ?_, fun i hi hne heq => ?_⟩
  · rw [write_of_ne _ _ hne]
    exact hidx i hi
  · rw [write_of_ne _ _ hne, write_self] at heq
    exact hne (hidx.inj hi hk heq)

/-- `reheap` makes a heap of any array. -/
theorem reheap_sifted (hidx : h.Indexed n) : Sifted n h.heap h.active (h.reheap n) := by
  have hsteps : ∀ m, m ≤ n → DHeap.Shuffle heap0 (m + heap0) h.heap (h.reheap m).heap ∧
      (h.reheap m).Indexed n ∧ InOrder m (h.reheap m).heap ∧
      ∀ c, (∀ i, Used n i → (h.heap i).anheW ≠ c) → (h.reheap m).active c = h.active c := by
    intro m
    induction m with
    | zero =>
        intro _
        refine ⟨.refl .., hidx, fun j hj hjn => ?_, fun _ _ => rfl⟩
        rw [tree_root] at hj
        omega
    | succ m ih =>
        intro hm
        obtain ⟨hshuffle, hindexed, hordered, hframe⟩ := ih (Nat.le_of_succ_le hm)
        have hsub : ∀ i, Used (m + 1) i → Used n i := fun i hi => ⟨hi.1, by
          have := hi.2
          omega⟩
        have hlast : Used (m + 1) (m + heap0) := ⟨Nat.le_add_left .., by omega⟩
        have hup : DHeap.UpAt tree (m + 1 + heap0)
            (fun i => ((h.reheap m).heap i).anheAt) (m + heap0) := by
          rw [Nat.add_right_comm]
          exact DHeap.Ordered.grow hordered
        have hbelow : (h.reheap m).Indexed (m + 1) := fun i hi => hindexed i (hsub i hi)
        have hstep := upheap_sifted (hbelow.holed hlast) hup
        have hall : DHeap.Shuffle heap0 (n + heap0) h.heap (h.reheap m).heap :=
          hshuffle.mono (by omega)
        refine ⟨?_, fun i hi => ?_, hstep.ordered, fun c hc => ?_⟩
        · exact (hshuffle.mono (by omega)).trans hstep.shuffle
        · by_cases hin : Used (m + 1) i
          · exact hstep.indexed i hin
          · -- the entries behind are as they were
            have hsame := hstep.shuffle.outside hin
            rw [reheap, hsame, hstep.frame _ fun j hj heq => ?_]
            · exact hindexed i hi
            · exact hin (hindexed.inj (hsub j hj) hi heq ▸ hj)
        · refine (hstep.frame c fun i hi => ?_).trans (hframe c hc)
          obtain ⟨j, hj, heq⟩ := hall.source (hsub i hi)
          rw [heq]
          exact hc j hj
  obtain ⟨hshuffle, hindexed, hordered, hframe⟩ := hsteps n (Nat.le_refl n)
  exact ⟨hshuffle, hindexed, hordered, hframe⟩

end Sifts

end Heap

end BoostCoro.Libev
