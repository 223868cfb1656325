import Mathlib.Data.List.Nodup
import Mathlib.Data.List.Perm.Subperm
import Mathlib.Logic.Function.Basic
/-!
# Linked segments

A singly linked structure in a memory of cells: `cell a` is the cell stored at
address `a`, if there is one, and `next` reads the link out of a cell.
`Segment` lists the addresses and cells met on the way from one pointer to
another, so that a list operation of the program becomes a `List` operation on
the segment. Nothing here depends on what a cell holds besides its link.
-/

namespace Linked

variable {α β : Type*}

/-- Following `next` from the pointer `p` meets exactly the cells of `l`, in
order, and arrives at the pointer `q`. -/
def Segment (cell : α → Option β) (next : β → Option α) :
    Option α → List (α × β) → Option α → Prop
  | p, [], q => p = q
  | p, x :: l, q => p = some x.1 ∧ cell x.1 = some x.2 ∧ Segment cell next (next x.2) l q

section

variable {cell : α → Option β} {next : β → Option α}
variable {p q r : Option α} {l l₁ l₂ : List (α × β)} {x : α × β}

@[simp] theorem segment_nil : Segment cell next p [] q ↔ p = q := Iff.rfl

@[simp] theorem segment_cons :
    Segment cell next p (x :: l) q ↔
      p = some x.1 ∧ cell x.1 = some x.2 ∧ Segment cell next (next x.2) l q := Iff.rfl

theorem segment_append :
    Segment cell next p (l₁ ++ l₂) q ↔
      ∃ r, Segment cell next p l₁ r ∧ Segment cell next r l₂ q := by
  induction l₁ generalizing p with
  | nil => simp
  | cons x l ih =>
      simp only [List.cons_append, segment_cons, ih]
      constructor
      · rintro ⟨hp, hx, r, hl, hr⟩
        exact ⟨r, ⟨hp, hx, hl⟩, hr⟩
      · rintro ⟨r, ⟨hp, hx, hl⟩, hr⟩
        exact ⟨hp, hx, r, hl, hr⟩

theorem Segment.append (h₁ : Segment cell next p l₁ r) (h₂ : Segment cell next r l₂ q) :
    Segment cell next p (l₁ ++ l₂) q :=
  segment_append.2 ⟨r, h₁, h₂⟩

theorem Segment.cell_eq (h : Segment cell next p l q) (hx : x ∈ l) :
    cell x.1 = some x.2 := by
  induction l generalizing p with
  | nil => simp at hx
  | cons y l ih =>
      rcases List.mem_cons.1 hx with rfl | hx
      · exact h.2.1
      · exact ih h.2.2 hx

/-- The cells of a segment are all that it depends on. -/
theorem Segment.congr {cell' : α → Option β} (h : Segment cell next p l q)
    (hcell : ∀ x ∈ l, cell' x.1 = cell x.1) : Segment cell' next p l q := by
  induction l generalizing p with
  | nil => exact h
  | cons x l ih =>
      refine ⟨h.1, (hcell x (by simp)).trans h.2.1, ih h.2.2 fun y hy => hcell y ?_⟩
      exact List.mem_cons_of_mem x hy

/-- Two segments that start together and both run to the null pointer meet the
same cells. -/
theorem Segment.unique (h₁ : Segment cell next p l₁ none)
    (h₂ : Segment cell next p l₂ none) : l₁ = l₂ := by
  induction l₁ generalizing p l₂ with
  | nil =>
      cases l₂ with
      | nil => rfl
      | cons y l₂ => exact absurd (h₁.symm.trans h₂.1) (by simp)
  | cons x l₁ ih =>
      cases l₂ with
      | nil => exact absurd (h₂.symm.trans h₁.1) (by simp)
      | cons y l₂ =>
          obtain ⟨hp, hx, h₁⟩ := h₁
          obtain ⟨hp', hy, h₂⟩ := h₂
          have hxy : x.1 = y.1 := Option.some.inj (hp.symm.trans hp')
          rw [← hxy, hx] at hy
          have hcell : x.2 = y.2 := Option.some.inj hy
          rw [← hcell] at h₂
          rw [Prod.ext hxy hcell, ih h₁ h₂]

/-- A segment that reaches the null pointer never meets an address twice. -/
theorem Segment.nodup (h : Segment cell next p l none) : (l.map Prod.fst).Nodup := by
  induction l generalizing p with
  | nil => simp
  | cons x l ih =>
      rw [List.map_cons, List.nodup_cons]
      refine ⟨fun hmem => ?_, ih h.2.2⟩
      -- a second visit of `x` would start a shorter segment from the same place
      obtain ⟨y, hy, hyx⟩ := List.mem_map.1 hmem
      obtain ⟨s, t, rfl⟩ := List.append_of_mem hy
      obtain ⟨r, -, hr⟩ := segment_append.1 h.2.2
      have hstart : Segment cell next (some x.1) (y :: t) none :=
        ⟨congrArg some hyx.symm, hr.2.1, hr.2.2⟩
      have hlong : Segment cell next (some x.1) (x :: (s ++ y :: t)) none := ⟨rfl, h.2⟩
      have hlen := congrArg List.length (hstart.unique hlong)
      simp at hlen
      omega

theorem Segment.head?_eq (h : Segment cell next p l none) :
    p = (l.map Prod.fst).head? := by
  cases l with
  | nil => exact h
  | cons x l => exact h.1

/-- Cells outside the segment may change freely. -/
theorem Segment.update_of_notMem [DecidableEq α] {a : α} {c : Option β}
    (h : Segment cell next p l q) (ha : a ∉ l.map Prod.fst) :
    Segment (Function.update cell a c) next p l q := by
  refine h.congr fun x hx => ?_
  have hne : x.1 ≠ a := fun hxa => ha (hxa ▸ List.mem_map_of_mem hx)
  rw [Function.update_of_ne hne]

theorem segment_concat :
    Segment cell next p (l ++ [x]) q ↔
      Segment cell next p l (some x.1) ∧ cell x.1 = some x.2 ∧ next x.2 = q := by
  rw [segment_append]
  constructor
  · rintro ⟨_, hl, rfl, hx, hq⟩
    exact ⟨hl, hx, hq⟩
  · rintro ⟨hl, hx, hq⟩
    exact ⟨_, hl, rfl, hx, hq⟩

/-- The cell that a segment leads to is linked on. -/
theorem Segment.link [DecidableEq α] {z : α} (h : Segment cell next p l (some z))
    (hz : z ∉ l.map Prod.fst) (c : β) :
    Segment (Function.update cell z (some c)) next p (l ++ [(z, c)]) (next c) :=
  (h.update_of_notMem hz).append ⟨rfl, Function.update_self .., rfl⟩

/-- A new cell at the end: the link of the last cell is changed to it. -/
theorem Segment.extend [DecidableEq α] {z a : α} {c d e : β}
    (h : Segment cell next p (l ++ [(z, c)]) none) (ha : a ∉ (l ++ [(z, c)]).map Prod.fst)
    (he : next e = some a) (hd : next d = none) :
    Segment (Function.update (Function.update cell a (some d)) z (some e)) next p
      (l ++ [(z, e), (a, d)]) none := by
  have hnodup := h.nodup
  rw [List.map_append, List.nodup_append] at hnodup
  rw [List.map_append, List.mem_append, not_or] at ha
  have hz : z ∉ l.map Prod.fst := fun hin => hnodup.2.2 z hin z (by simp) rfl
  have haz : a ≠ z := fun heq => ha.2 (by simp [heq])
  obtain ⟨hl, -, -⟩ := segment_concat.1 h
  refine ((hl.update_of_notMem ha.1).update_of_notMem hz).append ⟨rfl, ?_, ?_⟩
  · exact Function.update_self ..
  · refine ⟨he, ?_, hd⟩
    rw [Function.update_of_ne haz, Function.update_self]

end

/-- Distinct numbers below `n` are at most `n` many: the bound on a walk through
the cells that an allocator handed out. -/
theorem length_le_of_nodup_lt {l : List Nat} {n : Nat} (hnodup : l.Nodup)
    (hlt : ∀ a ∈ l, a < n) : l.length ≤ n := by
  have hsub : l ⊆ List.range n := fun a ha => List.mem_range.2 (hlt a ha)
  simpa using (hnodup.subperm hsub).length_le

end Linked
