import Mathlib.Data.List.Nodup
import Mathlib.Logic.Relation
/-!
# Walks along a pointer

Following a pointer `next` from an element until it is null. A walk that ends
visits nothing twice, so the number of elements bounds it, and changing the
pointers of elements off the walk does not change it.
-/

namespace Walk

variable {α : Type} {next next' : α → Option α} {x : Option α} {a : α} {l l' : List α}

/-- `Chain next x l`: following `next` from `x` visits `l` and ends. -/
inductive Chain (next : α → Option α) : Option α → List α → Prop
  | nil : Chain next none []
  | cons {a : α} {l : List α} : Chain next (next a) l → Chain next (some a) (a :: l)

namespace Chain

theorem unique (h : Chain next x l) (h' : Chain next x l') : l = l' := by
  induction h generalizing l' with
  | nil =>
      cases h'
      rfl
  | cons _ ih =>
      cases h' with
      | cons h' => rw [ih h']

/-- The walk goes on in the same way from every element it visits. -/
theorem suffix {l₁ l₂ : List α} (h : Chain next x (l₁ ++ a :: l₂)) :
    Chain next (some a) (a :: l₂) := by
  induction l₁ generalizing x with
  | nil =>
      cases h with
      | cons h => exact .cons h
  | cons b l₁ ih =>
      cases h with
      | cons h => exact ih h

theorem nodup (h : Chain next x l) : l.Nodup := by
  induction h with
  | nil => exact List.nodup_nil
  | @cons a l h ih =>
      refine List.nodup_cons.mpr ⟨fun hmem => ?_, ih⟩
      -- from a second visit of `a` the walk would be as long as from the first
      obtain ⟨l₁, l₂, rfl⟩ := List.append_of_mem hmem
      have hagain := h.suffix.unique (.cons h)
      have hlen := congrArg List.length hagain
      simp only [List.length_cons, List.length_append] at hlen
      omega

theorem mem_start (h : Chain next (some a) l) : a ∈ l := by
  cases h with
  | cons _ => exact List.mem_cons_self

/-- What a walk visits later it visits from any point on its way. -/
theorem subset_of_mem (h : Chain next x l) (ha : a ∈ l) (h' : Chain next (some a) l') :
    l' ⊆ l := by
  obtain ⟨l₁, l₂, rfl⟩ := List.append_of_mem ha
  rw [h'.unique h.suffix]
  exact List.subset_append_right l₁ _

theorem next_mem {b : α} (h : Chain next x l) (ha : a ∈ l) (hb : next a = some b) : b ∈ l := by
  obtain ⟨l₁, l₂, rfl⟩ := List.append_of_mem ha
  have hsuffix := h.suffix
  cases hsuffix with
  | cons hsuffix =>
      rw [hb] at hsuffix
      exact List.mem_append_right _ (List.mem_cons_of_mem _ hsuffix.mem_start)

/-- Every element but the first is reached from another. -/
theorem prev_mem {b : α} (h : Chain next (some a) l) (hb : b ∈ l) (hne : b ≠ a) :
    ∃ d ∈ l, next d = some b := by
  generalize hx : some a = x at h
  induction h generalizing a with
  | nil => cases hb
  | @cons d l h ih =>
      cases hx
      have hb := (List.mem_cons.mp hb).resolve_left hne
      cases hd : next d with
      | none =>
          rw [hd] at h
          cases h
          cases hb
      | some e =>
          by_cases hbe : b = e
          · exact ⟨d, List.mem_cons_self, by rw [hd, hbe]⟩
          · obtain ⟨f, hf, hfb⟩ := ih hb hbe hd.symm
            exact ⟨f, List.mem_cons_of_mem _ hf, hfb⟩

/-- The elements after the first are those that pointers lead to. -/
theorem transGen {b : α} (h : Chain next (some a) l) (hb : b ∈ l) (hne : b ≠ a) :
    Relation.TransGen (fun x y => next x = some y) a b := by
  generalize hx : some a = x at h
  induction h generalizing a with
  | nil => cases hx
  | @cons d l h ih =>
      obtain rfl := Option.some.inj hx
      have hb := (List.mem_cons.mp hb).resolve_left hne
      cases hd : next a with
      | none =>
          rw [hd] at h
          cases h
          cases hb
      | some e =>
          by_cases hbe : b = e
          · exact .single (hbe ▸ hd)
          · exact .head hd (ih hb hbe hd.symm)

/-- A walk ends at an element with a null pointer. -/
theorem exists_last (h : Chain next (some a) l) : ∃ b ∈ l, next b = none := by
  generalize hx : some a = x at h
  induction h generalizing a with
  | nil => cases hx
  | @cons d l h ih =>
      cases hd : next d with
      | none => exact ⟨d, List.mem_cons_self, hd⟩
      | some e =>
          obtain ⟨b, hb, hnone⟩ := ih hd.symm
          exact ⟨b, List.mem_cons_of_mem _ hb, hnone⟩

/-- Of two elements one is visited after the other. -/
theorem after_or_after {b : α} (h : Chain next x l) (ha : a ∈ l) (hb : b ∈ l) :
    a = b ∨ (∃ l', Chain next (next a) l' ∧ b ∈ l') ∨ ∃ l', Chain next (next b) l' ∧ a ∈ l' := by
  have htail : ∀ {d : α} {l₁ l₂ : List α}, l = l₁ ++ d :: l₂ → Chain next (next d) l₂ := by
    intro d l₁ l₂ hl
    have hsuffix := (hl ▸ h : Chain next x (l₁ ++ d :: l₂)).suffix
    cases hsuffix with
    | cons hsuffix => exact hsuffix
  obtain ⟨l₁, l₂, hl⟩ := List.append_of_mem ha
  rw [hl] at hb
  rcases List.mem_append.mp hb with hb | hb
  · obtain ⟨l₃, l₄, rfl⟩ := List.append_of_mem hb
    have hl' : l = l₃ ++ b :: (l₄ ++ a :: l₂) := by simp [hl]
    exact .inr (.inr ⟨_, htail hl', List.mem_append_right _ List.mem_cons_self⟩)
  · rcases List.mem_cons.mp hb with rfl | hb
    · exact .inl rfl
    · exact .inr (.inl ⟨l₂, htail hl, hb⟩)

/-- A walk does not come back to where it started. -/
theorem next_ne_start (h : Chain next x l) (ha : a ∈ l) : next a ≠ x := by
  intro heq
  obtain ⟨l₁, l₂, rfl⟩ := List.append_of_mem ha
  have hagain : Chain next x l₂ := by
    have hsuffix := h.suffix
    cases hsuffix with
    | cons hsuffix => rwa [heq] at hsuffix
  have hlen := congrArg List.length (hagain.unique h)
  simp only [List.length_append, List.length_cons] at hlen
  omega

theorem congr (h : Chain next x l) (hnext : ∀ a ∈ l, next' a = next a) :
    Chain next' x l := by
  induction h with
  | nil => exact .nil
  | @cons a l h ih =>
      have ha := hnext a List.mem_cons_self
      refine .cons (ha ▸ ih fun b hb => hnext b (List.mem_cons_of_mem _ hb))

end Chain

/-- At most `n` links of the walk. -/
def walk (next : α → Option α) : Nat → Option α → List α
  | 0, _ => []
  | _ + 1, none => []
  | n + 1, some a => a :: walk next n (next a)

theorem Chain.walk_eq (h : Chain next x l) {n : Nat} (hn : l.length ≤ n) :
    walk next n x = l := by
  induction h generalizing n with
  | nil => cases n <;> rfl
  | @cons a l h ih =>
      cases n with
      | zero => simp at hn
      | succ n => rw [walk, ih (Nat.le_of_succ_le_succ hn)]

end Walk
