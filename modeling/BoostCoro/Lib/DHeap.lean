import Mathlib.Logic.Equiv.Basic
import Mathlib.Order.Defs.LinearOrder
import Mathlib.Algebra.Group.End
import Mathlib.Logic.Function.Basic
/-!
# Implicit heaps

A heap laid out in an array by a parent function on its positions, and the two
ways to move one entry that is out of order: towards the root and away from it.
Each move exchanges two positions, so what the sifts do to the array is one
permutation of the positions in use.
-/

namespace DHeap

/-! ## Positions -/

/-- The positions of an implicit tree: everything from `root` on, each with a
parent that comes before it. -/
structure Tree where
  root : Nat
  parent : Nat → Nat
  parent_lt : ∀ {k}, root < k → parent k < k
  root_le : ∀ {k}, root < k → root ≤ parent k

/-- The complete tree in which every position has `d` children, stored from `r` on. -/
def Tree.dary (d r : Nat) : Tree where
  root := r
  parent k := (k - r - 1) / d + r
  parent_lt := by
    intro k hk
    have hle := Nat.div_le_self (k - r - 1) d
    omega
  root_le := by
    intro k _
    exact Nat.le_add_left _ _

/-- The children of `p` are the `d` positions from the first child on. -/
theorem Tree.dary_parent_eq {d r j p : Nat} (hd : 0 < d) (hp : r ≤ p) (hj : r < j) :
    (Tree.dary d r).parent j = p ↔ d * (p - r) + r + 1 ≤ j ∧ j < d * (p - r) + r + 1 + d := by
  have hparent : (Tree.dary d r).parent j = p ↔ (j - r - 1) / d = p - r := by
    simp only [Tree.dary]
    omega
  rw [hparent, Nat.div_eq_iff hd, Nat.mul_comm (p - r) d]
  omega

/-! ## Exchanges -/

/-- `g` is `f` after a permutation of the positions from `lo` on and below `up`. -/
def Shuffle {β : Type} (lo up : Nat) (f g : Nat → β) : Prop :=
  ∃ σ : Equiv.Perm Nat, (∀ i, ¬(lo ≤ i ∧ i < up) → σ i = i) ∧ g = f ∘ σ

namespace Shuffle

variable {β : Type} {lo up : Nat} {f g h : Nat → β}

theorem refl (lo up : Nat) (f : Nat → β) : Shuffle lo up f f :=
  ⟨1, fun _ _ => rfl, rfl⟩

theorem trans (h₁ : Shuffle lo up f g) (h₂ : Shuffle lo up g h) : Shuffle lo up f h := by
  obtain ⟨σ, hσ, rfl⟩ := h₁
  obtain ⟨ρ, hρ, rfl⟩ := h₂
  refine ⟨σ * ρ, fun i hi => ?_, rfl⟩
  rw [Equiv.Perm.mul_apply, hρ i hi, hσ i hi]

theorem swap {i j : Nat} (hi : lo ≤ i ∧ i < up) (hj : lo ≤ j ∧ j < up) :
    Shuffle lo up f (f ∘ Equiv.swap i j) := by
  refine ⟨Equiv.swap i j, fun x hx => ?_, rfl⟩
  apply Equiv.swap_apply_of_ne_of_ne
  · rintro rfl
    exact hx hi
  · rintro rfl
    exact hx hj

theorem mono {up' : Nat} (h : Shuffle lo up f g) (hup : up ≤ up') : Shuffle lo up' f g := by
  obtain ⟨σ, hσ, rfl⟩ := h
  refine ⟨σ, fun i hi => hσ i fun hin => hi ⟨hin.1, Nat.lt_of_lt_of_le hin.2 hup⟩, rfl⟩

theorem outside (h : Shuffle lo up f g) {i : Nat} (hi : ¬(lo ≤ i ∧ i < up)) : g i = f i := by
  obtain ⟨σ, hσ, rfl⟩ := h
  rw [Function.comp_apply, hσ i hi]

/-- Every position of the shuffled array holds what a position of the first one held. -/
theorem source (h : Shuffle lo up f g) {i : Nat} (hi : lo ≤ i ∧ i < up) :
    ∃ j, (lo ≤ j ∧ j < up) ∧ g i = f j := by
  obtain ⟨σ, hσ, rfl⟩ := h
  refine ⟨σ i, ?_, rfl⟩
  by_contra hout
  have hfix : σ i = i := σ.injective (hσ _ hout)
  rw [hfix] at hout
  exact hout hi

theorem symm (h : Shuffle lo up f g) : Shuffle lo up g f := by
  obtain ⟨σ, hσ, rfl⟩ := h
  refine ⟨σ⁻¹, fun i hi => ?_, ?_⟩
  · rw [Equiv.Perm.inv_eq_iff_eq, hσ i hi]
  · funext i
    simp

end Shuffle

/-- Moving the entry of `m` into the hole at `k` exchanges the two, where the hole stands
for the entry that is to be placed. -/
theorem fill_move {β : Type} (f : Nat → β) (x : β) {k m : Nat} :
    Function.update (Function.update f k (f m)) m x =
      Function.update f k x ∘ Equiv.swap k m := by
  funext i
  rw [Function.comp_apply]
  by_cases him : i = m
  · rw [him, Function.update_self, Equiv.swap_apply_right, Function.update_self]
  · rw [Function.update_of_ne him]
    by_cases hik : i = k
    · rw [hik, Function.update_self, Equiv.swap_apply_left,
        Function.update_of_ne (fun h => him (hik.trans h.symm))]
    · rw [Function.update_of_ne hik, Equiv.swap_apply_of_ne_of_ne hik him,
        Function.update_of_ne hik]

/-! ## Order -/

section Order

variable {τ : Type} [LinearOrder τ] {t : Tree} {n k : Nat} {key key' : Nat → τ}

/-- The heap condition for the positions below `n`. -/
def Ordered (t : Tree) (n : Nat) (key : Nat → τ) : Prop :=
  ∀ j, t.root < j → j < n → key (t.parent j) ≤ key j

/-- The children of `k` are in order with its parent. -/
def Bridged (t : Tree) (n : Nat) (key : Nat → τ) (k : Nat) : Prop :=
  ∀ j, t.root < j → j < n → t.parent j = k → t.root < k → key (t.parent k) ≤ key j

/-- Only `k` may come before its parent. -/
structure UpAt (t : Tree) (n : Nat) (key : Nat → τ) (k : Nat) : Prop where
  others : ∀ j, t.root < j → j < n → j ≠ k → key (t.parent j) ≤ key j
  bridged : Bridged t n key k

/-- Only `k` may come after a child. -/
structure DownAt (t : Tree) (n : Nat) (key : Nat → τ) (k : Nat) : Prop where
  others : ∀ j, t.root < j → j < n → t.parent j ≠ k → key (t.parent j) ≤ key j
  bridged : Bridged t n key k

theorem Ordered.mono {n' : Nat} (h : Ordered t n key) (hn : n' ≤ n) : Ordered t n' key :=
  fun j hj hlt => h j hj (Nat.lt_of_lt_of_le hlt hn)

/-- The root holds a least key. -/
theorem Ordered.root_le (h : Ordered t n key) {j : Nat} (hj : t.root ≤ j) (hlt : j < n) :
    key t.root ≤ key j := by
  induction j using Nat.strong_induction_on with
  | _ j ih =>
      rcases Nat.eq_or_lt_of_le hj with rfl | hroot
      · exact le_refl _
      · have hparent := t.parent_lt hroot
        exact (ih _ hparent (t.root_le hroot) (hparent.trans hlt)).trans (h j hroot hlt)

theorem Ordered.bridged (h : Ordered t n key) (hk : k < n) : Bridged t n key k := by
  intro j hj hlt hparent hroot
  exact (h k hroot hk).trans (hparent ▸ h j hj hlt)

/-- Another key at one position of a heap, not after the parent's. -/
theorem Ordered.upAt (h : Ordered t n key) (hk : k < n) (hroot : t.root < k)
    (hsame : ∀ j, j ≠ k → key' j = key j) (hle : key' k ≤ key' (t.parent k)) :
    UpAt t n key' k := by
  have hup : key' (t.parent k) = key (t.parent k) := hsame _ (t.parent_lt hroot).ne
  constructor
  · intro j hj hlt hne
    rw [hsame j hne]
    by_cases hparent : t.parent j = k
    · rw [hparent]
      exact (hup ▸ hle).trans (h.bridged hk j hj hlt hparent hroot)
    · rw [hsame _ hparent]
      exact h j hj hlt
  · intro j hj hlt hparent _
    have hne : j ≠ k := (hparent ▸ t.parent_lt hj).ne'
    rw [hup, hsame j hne]
    exact h.bridged hk j hj hlt hparent hroot

/-- Another key at one position of a heap, not before the parent's. -/
theorem Ordered.downAt (h : Ordered t n key) (hk : k < n)
    (hsame : ∀ j, j ≠ k → key' j = key j)
    (hle : t.root < k → key' (t.parent k) ≤ key' k) : DownAt t n key' k := by
  constructor
  · intro j hj hlt hparent
    by_cases hne : j = k
    · subst hne
      exact hle hj
    · rw [hsame j hne, hsame _ hparent]
      exact h j hj hlt
  · intro j hj hlt hparent hroot
    have hne : j ≠ k := (hparent ▸ t.parent_lt hj).ne'
    rw [hsame _ (t.parent_lt hroot).ne, hsame j hne]
    exact h.bridged hk j hj hlt hparent hroot

/-- A heap with one more entry behind it. -/
theorem Ordered.grow (h : Ordered t n key) : UpAt t (n + 1) key n := by
  constructor
  · intro j hj hlt hne
    exact h j hj (Nat.lt_of_le_of_ne (Nat.le_of_lt_succ hlt) hne)
  · intro j hj hlt hparent _
    have := t.parent_lt hj
    omega

theorem UpAt.ordered (h : UpAt t n key k)
    (hdone : t.root < k → k < n → key (t.parent k) ≤ key k) : Ordered t n key := by
  intro j hj hlt
  by_cases hne : j = k
  · subst hne
    exact hdone hj hlt
  · exact h.others j hj hlt hne

theorem DownAt.ordered (h : DownAt t n key k)
    (hdone : ∀ j, t.root < j → j < n → t.parent j = k → key k ≤ key j) : Ordered t n key := by
  intro j hj hlt
  by_cases hparent : t.parent j = k
  · rw [hparent]
    exact hdone j hj hlt hparent
  · exact h.others j hj hlt hparent

/-- One turn of a sift towards the root. -/
theorem UpAt.swap (h : UpAt t n key k) (hroot : t.root < k) (hk : k < n)
    (hlt : key k < key (t.parent k)) :
    UpAt t n (key ∘ Equiv.swap k (t.parent k)) (t.parent k) := by
  have hpk := t.parent_lt hroot
  have hup : ∀ j, t.root < j → j < n → t.parent j = t.parent k → j ≠ k →
      key (t.parent k) ≤ key j := fun j hj hjn hsib hne => hsib ▸ h.others j hj hjn hne
  constructor
  · intro j hj hjn hne
    simp only [Function.comp_apply]
    by_cases hjk : j = k
    · -- the entry that came down is after the one that goes up
      rw [hjk, Equiv.swap_apply_left, Equiv.swap_apply_right]
      exact hlt.le
    · rw [Equiv.swap_apply_of_ne_of_ne hjk hne]
      by_cases hparent : t.parent j = k
      · rw [hparent, Equiv.swap_apply_left]
        exact h.bridged j hj hjn hparent hroot
      · by_cases hsib : t.parent j = t.parent k
        · rw [hsib, Equiv.swap_apply_right]
          exact hlt.le.trans (hup j hj hjn hsib hjk)
        · rw [Equiv.swap_apply_of_ne_of_ne hparent hsib]
          exact h.others j hj hjn hjk
  · intro j hj hjn hparent hpr
    have hgrand := t.parent_lt hpr
    have hover : key (t.parent (t.parent k)) ≤ key (t.parent k) :=
      h.others _ hpr (hpk.trans hk) hpk.ne
    simp only [Function.comp_apply]
    rw [Equiv.swap_apply_of_ne_of_ne (hgrand.trans hpk).ne hgrand.ne]
    by_cases hjk : j = k
    · rwa [hjk, Equiv.swap_apply_left]
    · have hne : j ≠ t.parent k := (hparent ▸ t.parent_lt hj).ne'
      rw [Equiv.swap_apply_of_ne_of_ne hjk hne]
      exact hover.trans (hup j hj hjn hparent hjk)

/-- One turn of a sift away from the root, to a least child. -/
theorem DownAt.swap {m : Nat} (h : DownAt t n key k) (hm : t.root < m) (hmn : m < n)
    (hparent : t.parent m = k) (hlt : key m < key k)
    (hleast : ∀ j, t.root < j → j < n → t.parent j = k → key m ≤ key j) :
    DownAt t n (key ∘ Equiv.swap k m) m := by
  have hkm : k < m := hparent ▸ t.parent_lt hm
  constructor
  · intro j hj hjn hne
    simp only [Function.comp_apply]
    by_cases hjm : j = m
    · rw [hjm, hparent, Equiv.swap_apply_left, Equiv.swap_apply_right]
      exact hlt.le
    · by_cases hjk : j = k
      · subst hjk
        rw [Equiv.swap_apply_left, Equiv.swap_apply_of_ne_of_ne (t.parent_lt hj).ne hne]
        exact h.bridged m hm hmn hparent hj
      · rw [Equiv.swap_apply_of_ne_of_ne hjk hjm]
        by_cases hsib : t.parent j = k
        · rw [hsib, Equiv.swap_apply_left]
          exact hleast j hj hjn hsib
        · rw [Equiv.swap_apply_of_ne_of_ne hsib hne]
          exact h.others j hj hjn hsib
  · intro j hj hjn hbelow _
    have hmj : m < j := hbelow ▸ t.parent_lt hj
    simp only [Function.comp_apply]
    rw [hparent, Equiv.swap_apply_left,
      Equiv.swap_apply_of_ne_of_ne (hkm.trans hmj).ne' hmj.ne', ← hbelow]
    exact h.others j hj hjn (by rw [hbelow]; exact hkm.ne')

end Order

end DHeap
