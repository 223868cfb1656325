import BoostCoro.Lib.Walk
import Mathlib.Data.List.Infix
import Mathlib.Logic.Function.Basic
/-!
# Tours of a forest

Nested passes over the nodes of a forest. A pass goes over the children of one
node: it takes the first child of the list, visits it and puts it back at the end.
A node that was notified is visited by a pass over its own list first; then, unless
the node waits, control goes into it, and it makes a pass over its list before it
gives control back. Between two moves of the tour the nodes may change their flags
and add children.
-/

/-- How far the visit of a node has come. -/
inductive Tour.Phase where
  | entry
  /-- past the pass over its list -/
  | passed
  /-- control went into the node -/
  | entered
  deriving DecidableEq

/-- The visit of a node, or a turn of the pass over the list of `owner`, with
`left` turns left and a child in hand. -/
inductive Tour.Level (α : Type) where
  | visit (node : α) (phase : Phase)
  | turn (owner : Option α) (left : Nat) (held : Option α)

/-- What a tour depends on. `levels` are the passes in progress, innermost first,
and `path` the nodes they hold; a node is `inside` when control went into it and
did not come back, and `yielding` when it is in its last pass before that. -/
structure Tour (α : Type) where
  levels : List (Tour.Level α)
  path : List α
  inside : α → Prop
  yielding : α → Prop
  childs : Option α → List α
  parent : α → Option α
  finished : α → Prop
  waiting : α → Prop
  notified : α → Prop

namespace Tour

open Walk (Chain)

variable {α : Type} {parent : α → Option α} {ls : List (Level α)} {path : List α} {a b c d : α}
  {phase phase' : Phase} {o x : Option α} {n : Nat} {h? : Option α}

/-! ## The shape of the levels -/

/-- Every visit is a turn of the pass over the list of the next node held. -/
inductive Nested (parent : α → Option α) : List (Level α) → List α → Prop
  | nil : Nested parent [] []
  | visit {d : α} {phase : Phase} {n : Nat} {ls : List (Level α)} {path : List α}
      (hparent : parent d = path.head?) (hrest : Nested parent ls path) :
      Nested parent (.visit d phase :: .turn path.head? n (some d) :: ls) (d :: path)

namespace Nested

theorem parents (h : Nested parent ls path) : Chain parent path.head? path := by
  induction h with
  | nil => exact .nil
  | visit hparent _ ih => exact .cons (hparent ▸ ih)

theorem eq_nil (h : Nested parent ls []) : ls = [] := by
  cases h
  rfl

theorem visit_mem (h : Nested parent ls path) (hd : .visit d phase ∈ ls) : d ∈ path := by
  induction h with
  | nil => cases hd
  | visit _ _ ih =>
      rcases List.mem_cons.mp hd with heq | hd
      · cases heq
        exact List.mem_cons_self
      · rcases List.mem_cons.mp hd with heq | hd
        · cases heq
        · exact List.mem_cons_of_mem _ (ih hd)

/-- A pass in progress holds a child of its owner. -/
theorem turn_mem (h : Nested parent ls path) (ho : .turn o n h? ∈ ls) :
    ∃ d ∈ path, parent d = o := by
  induction h with
  | nil => cases ho
  | visit hparent _ ih =>
      rcases List.mem_cons.mp ho with heq | ho
      · cases heq
      · rcases List.mem_cons.mp ho with heq | ho
        · cases heq
          exact ⟨_, List.mem_cons_self, hparent⟩
        · obtain ⟨d, hd, hdo⟩ := ih ho
          exact ⟨d, List.mem_cons_of_mem _ hd, hdo⟩

theorem visit_cons (h : Nested parent (.visit c phase' :: .turn o n h? :: ls) path)
    (hd : .visit d phase ∈ .visit c phase' :: .turn o n h? :: ls) :
    d = c ∧ phase = phase' ∨ d ≠ c ∧ .visit d phase ∈ ls := by
  have hnodup := h.parents.nodup
  cases h with
  | visit _ hrest =>
      rcases List.mem_cons.mp hd with heq | htail
      · cases heq
        exact .inl ⟨rfl, rfl⟩
      · have hmem := (List.mem_cons.mp htail).resolve_left nofun
        refine .inr ⟨?_, hmem⟩
        rintro rfl
        exact (List.nodup_cons.mp hnodup).1 (hrest.visit_mem hmem)

theorem phase_unique (h : Nested parent ls path) (hd : .visit d phase ∈ ls)
    (hd' : .visit d phase' ∈ ls) : phase = phase' := by
  induction h with
  | nil => cases hd
  | visit hparent hrest ih =>
      rcases (hrest.visit hparent).visit_cons hd with ⟨rfl, rfl⟩ | ⟨hne, hmem⟩
      · rcases (hrest.visit hparent).visit_cons hd' with ⟨_, rfl⟩ | ⟨hne, _⟩
        · rfl
        · exact absurd rfl hne
      · rcases (hrest.visit hparent).visit_cons hd' with ⟨rfl, _⟩ | ⟨_, hmem'⟩
        · exact absurd rfl hne
        · exact ih hmem hmem'

/-- No pass in progress is over the list of the innermost node held. -/
theorem owner_ne (h : Nested parent ls path) (ho : .turn o n h? ∈ ls) : o ≠ path.head? := by
  obtain ⟨d, hd, rfl⟩ := h.turn_mem ho
  exact h.parents.next_ne_start hd

end Nested

/-- The levels as they are in between: a visit or code of a node, a turn about to
begin, or a turn with its child in hand. -/
inductive Shape (parent : α → Option α) : List (Level α) → List α → Prop
  | nested {ls : List (Level α)} {path : List α} (h : Nested parent ls path) :
      Shape parent ls path
  | turn {ls : List (Level α)} {path : List α} {n : Nat} (h : Nested parent ls path) :
      Shape parent (.turn path.head? n none :: ls) path
  | back {ls : List (Level α)} {path : List α} {n : Nat} {d : α}
      (hparent : parent d = path.head?) (h : Nested parent ls path) :
      Shape parent (.turn path.head? n (some d) :: ls) (d :: path)

namespace Shape

theorem parents (h : Shape parent ls path) : Chain parent path.head? path := by
  cases h with
  | nested h => exact h.parents
  | turn h => exact h.parents
  | back hparent h => exact .cons (hparent ▸ h.parents)

theorem of_visit (h : Shape parent (.visit d phase :: ls) path) :
    Nested parent (.visit d phase :: ls) path ∧ ∃ rest, path = d :: rest := by
  cases h with
  | nested h =>
      refine ⟨h, ?_⟩
      cases h with
      | visit => exact ⟨_, rfl⟩

theorem of_turn (h : Shape parent (.turn o n none :: ls) path) :
    o = path.head? ∧ Nested parent ls path := by
  cases h with
  | nested h => cases h
  | turn h => exact ⟨rfl, h⟩

theorem of_back (h : Shape parent (.turn o n (some d) :: ls) path) :
    ∃ rest, path = d :: rest ∧ o = rest.head? ∧ parent d = o ∧ Nested parent ls rest := by
  cases h with
  | nested h => cases h
  | back hparent h => exact ⟨_, rfl, rfl, hparent, h⟩

theorem visit_mem (h : Shape parent ls path) (hd : .visit d phase ∈ ls) : d ∈ path := by
  cases h with
  | nested h => exact h.visit_mem hd
  | turn h =>
      rcases List.mem_cons.mp hd with heq | hd
      · cases heq
      · exact h.visit_mem hd
  | back _ h =>
      rcases List.mem_cons.mp hd with heq | hd
      · cases heq
      · exact List.mem_cons_of_mem _ (h.visit_mem hd)

theorem phase_unique (h : Shape parent ls path) (hd : .visit d phase ∈ ls)
    (hd' : .visit d phase' ∈ ls) : phase = phase' := by
  cases h with
  | nested h => exact h.phase_unique hd hd'
  | turn h =>
      exact h.phase_unique ((List.mem_cons.mp hd).resolve_left nofun)
        ((List.mem_cons.mp hd').resolve_left nofun)
  | back _ h =>
      exact h.phase_unique ((List.mem_cons.mp hd).resolve_left nofun)
        ((List.mem_cons.mp hd').resolve_left nofun)

end Shape

/-- A tour in order. -/
structure Ok (t : Tour α) : Prop where
  shape : Shape t.parent t.levels t.path
  inside : ∀ d, t.inside d → .visit d .entered ∈ t.levels
  listed : ∀ o, ∀ d ∈ t.childs o, t.parent d = o ∧ d ∉ t.path

/-! ## Moves -/

inductive Label (α : Type) where
  | visits (node : α)
  | begins (owner : Option α)
  | ends (owner : Option α)

/-- Who is inside, and in which pass, when control stays but for the node in
`left`. -/
structure Flow (left : Option α) (es : List (Label α)) (t t' : Tour α) : Prop where
  inside : ∀ d, some d ≠ left → t.inside d → t'.inside d
  yielding : ∀ d, some d ≠ left → t.inside d → t'.yielding d → t.yielding d
  enters : ∀ d, t'.inside d → t.inside d ∨ .visits d ∈ es

/-- The moves of a tour. -/
inductive Move (t t' : Tour α) : List (Label α) → Prop
  | calm (hflow : Flow none [] t t') (hlevels : t'.levels = t.levels)
      (hpath : t'.path = t.path) (hchilds : ∀ o, t.childs o <+: t'.childs o) : Move t t' []
  /-- control comes back from `q` -/
  | leave {q : α} (hflow : Flow (some q) [] t t') (hlevels : t'.levels = t.levels)
      (hpath : t'.path = t.path) (hchilds : ∀ o, t.childs o <+: t'.childs o)
      (hq : t.yielding q ∨ t.childs (some q) = []) : Move t t' []
  /-- a visit ends -/
  | skip {d : α} {phase : Phase} (hflow : Flow none [] t t')
      (hlevels : t.levels = .visit d phase :: t'.levels) (hpath : t'.path = t.path)
      (hchilds : ∀ o, t.childs o <+: t'.childs o) (hoff : ¬ t.inside d)
      (hwhy : phase = .entry ∧ t.finished d ∨ phase = .passed ∧ t.waiting d ∨ phase = .entered) :
      Move t t' []
  | straight {d : α} {ls : List (Level α)} (hflow : Flow none [] t t')
      (hlevels : t.levels = .visit d .entry :: ls)
      (hlevels' : t'.levels = .visit d .passed :: ls) (hpath : t'.path = t.path)
      (hchilds : ∀ o, t.childs o <+: t'.childs o) (hoff : ¬ t.inside d)
      (hno : ¬ t.notified d) : Move t t' []
  | visitPass {d : α} {ls : List (Level α)} (hflow : Flow none [.begins (some d)] t t')
      (hlevels : t.levels = .visit d .entry :: ls)
      (hlevels' : t'.levels = .turn (some d) (t'.childs (some d)).length none ::
        .visit d .passed :: ls) (hpath : t'.path = t.path)
      (hchilds : ∀ o, t.childs o <+: t'.childs o) (hoff : ¬ t.inside d) :
      Move t t' [.begins (some d)]
  | enter {d : α} {ls : List (Level α)} (hflow : Flow none [.visits d] t t')
      (hlevels : t.levels = .visit d .passed :: ls)
      (hlevels' : t'.levels = .visit d .entered :: ls) (hpath : t'.path = t.path)
      (hchilds : ∀ o, t.childs o <+: t'.childs o) (hoff : ¬ t.inside d)
      (hinside : t'.inside d) (hyielding : ¬ t'.yielding d) : Move t t' [.visits d]
  /-- the innermost node held, or whoever holds none, makes a pass of its own -/
  | ownPass {x : Option α} (hflow : Flow x [.begins x] t t')
      (hlevels' : t'.levels = .turn x (t'.childs x).length none :: t.levels)
      (hx : t.path.head? = x) (hinside : ∀ q, x = some q → t.inside q) (hpath : t'.path = t.path)
      (hchilds : ∀ o, t.childs o <+: t'.childs o) : Move t t' [.begins x]
  | passEnd {o : Option α} (hflow : Flow none [.ends o] t t')
      (hlevels : t.levels = .turn o 0 none :: t'.levels) (hpath : t'.path = t.path)
      (hchilds : ∀ o, t.childs o <+: t'.childs o) : Move t t' [.ends o]
  | destroy {o : Option α} {n : Nat} {d : α} {l : List α} {ls : List (Level α)}
      (hflow : Flow none [] t t') (hlevels : t.levels = .turn o (n + 1) none :: ls)
      (hlevels' : t'.levels = .turn o n none :: ls) (hpath : t'.path = t.path)
      (hd : t.childs o = d :: l) (ho : t'.childs o = l)
      (hchilds : ∀ o', o' ≠ o → t.childs o' <+: t'.childs o') (hfinished : t.finished d) :
      Move t t' []
  | hold {o : Option α} {n : Nat} {d : α} {l : List α} {ls : List (Level α)}
      (hflow : Flow none [] t t') (hlevels : t.levels = .turn o (n + 1) none :: ls)
      (hlevels' : t'.levels = .visit d .entry :: .turn o n (some d) :: ls)
      (hpath : t'.path = d :: t.path) (hd : t.childs o = d :: l) (ho : t'.childs o = l)
      (hchilds : ∀ o', o' ≠ o → t.childs o' <+: t'.childs o') : Move t t' []
  | keep {o : Option α} {n : Nat} {d : α} {ls : List (Level α)} (hflow : Flow none [] t t')
      (hlevels : t.levels = .turn o n (some d) :: ls)
      (hlevels' : t'.levels = .turn o n none :: ls) (hpath : t.path = d :: t'.path)
      (hchilds : ∀ o, t.childs o <+: t'.childs o) : Move t t' []
  | drop {o : Option α} {n : Nat} {d : α} {ls : List (Level α)} (hflow : Flow none [] t t')
      (hlevels : t.levels = .turn o n (some d) :: ls)
      (hlevels' : t'.levels = .turn o n none :: ls) (hpath : t.path = d :: t'.path)
      (hchilds : ∀ o, t.childs o <+: t'.childs o) (hfinished : t.finished d) : Move t t' []

end Tour
