import BoostCoro.Lib.Tour
import Mathlib.Data.List.Infix
/-!
# What a tour still comes to

A node is ahead of the passes in progress when they come to it before they end. The
node stays ahead until control goes into it, as long as its ancestors that wait
were told: that is what every move of a tour keeps.
-/

namespace Tour

open Walk (Chain)

variable {α : Type} {t t' : Tour α} {c a b d : α} {line : List α} {o : Option α}
  {es : List (Label α)}

/-! ## The line of a node -/

/-- `line` leads from `c` to a root, and each of its nodes is in the list of its
parent unless a pass holds it. -/
structure Line (t : Tour α) (c : α) (line : List α) : Prop where
  chain : Chain t.parent (some c) line
  alive : ∀ d ∈ line, ¬ t.finished d
  placed : ∀ d ∈ line, d ∈ t.path ∨ d ∈ t.childs (t.parent d)

/-- `b` is the first node of the line that no pass holds, from the root. -/
structure Border (t : Tour α) (line : List α) (b : α) : Prop where
  mem : b ∈ line
  off : b ∉ t.path
  next : ∀ a, t.parent b = some a → a ∈ t.path

theorem Line.mem_start (h : Line t c line) : c ∈ line := h.chain.mem_start

/-- The nodes of a path go on to the root. -/
theorem Ok.parent_mem (hok : t.Ok) (hd : d ∈ t.path) (ha : t.parent d = some a) : a ∈ t.path :=
  hok.shape.parents.next_mem hd ha

theorem Ok.subset_path {l : List α} (hok : t.Ok) (hd : d ∈ t.path)
    (hl : Chain t.parent (some d) l) : l ⊆ t.path :=
  hok.shape.parents.subset_of_mem hd hl

theorem Ok.after_mem {l : List α} (hok : t.Ok) (hb : Border t line b)
    (hl : Chain t.parent (t.parent b) l) : l ⊆ t.path := by
  cases ha : t.parent b with
  | none =>
      rw [ha] at hl
      cases hl
      exact List.nil_subset _
  | some a =>
      rw [ha] at hl
      exact hok.subset_path (hb.next a ha) hl

theorem Border.unique (hok : t.Ok) (hline : Line t c line) (hb : Border t line b)
    (hd : Border t line d) : b = d := by
  rcases hline.chain.after_or_after hb.mem hd.mem with heq | ⟨l, hl, hmem⟩ | ⟨l, hl, hmem⟩
  · exact heq
  · exact absurd (hok.after_mem hb hl hmem) hd.off
  · exact absurd (hok.after_mem hd hl hmem) hb.off

/-- Between a node of the line and `c` there is a child of that node. -/
theorem Line.border_below (hok : t.Ok) (hline : Line t c line) (hd : d ∈ line) (hne : d ≠ c)
    (hhead : t.path.head? = some d) : ∃ b, Border t line b ∧ t.parent b = some d := by
  obtain ⟨b, hb, hparent⟩ := hline.chain.prev_mem hd hne
  refine ⟨b, ⟨hb, fun hin => ?_, fun a ha => ?_⟩, hparent⟩
  · exact hok.shape.parents.next_ne_start hin (hparent.trans hhead.symm)
  · obtain rfl : d = a := Option.some.inj (hparent.symm.trans ha)
    exact List.mem_of_mem_head? hhead

/-- If the innermost node held is on the line of `c`, the border is a child of it. -/
theorem Border.parent_eq (hok : t.Ok) (hline : Line t c line) (hb : Border t line b)
    (hd : d ∈ line) (hhead : t.path.head? = some d) : t.parent b = some d := by
  have hne : d ≠ c := by
    rintro rfl
    exact hb.off (hok.subset_path (List.mem_of_mem_head? hhead) hline.chain hb.mem)
  obtain ⟨b', hb', hparent⟩ := hline.border_below hok hd hne hhead
  rw [hb.unique hok hline hb', hparent]

/-- If `c` itself is held, no other node of its line is the innermost. -/
theorem Line.eq_of_head (hok : t.Ok) (hline : Line t c line) (hc : c ∈ t.path)
    (hd : d ∈ line) (hhead : t.path.head? = some d) : d = c := by
  by_contra hne
  obtain ⟨b, hb, _⟩ := hline.border_below hok hd hne hhead
  exact hb.off (hok.subset_path hc hline.chain hb.mem)

/-! ## What is ahead -/

/-- The pass in progress over the list of `o` comes to `b`. -/
def Reaches (t : Tour α) (b : α) (o : Option α) : Prop :=
  ∃ n h?, .turn o n h? ∈ t.levels ∧ b ∈ (t.childs o).take n

/-- A pass over the list of `o` that comes to `b` is in progress or sure to come. -/
inductive Serves (t : Tour α) (b : α) : Option α → Prop
  | reaches {o : Option α} (h : t.Reaches b o) : Serves t b o
  | entry {a : α} (hvisit : .visit a .entry ∈ t.levels)
      (hheard : t.waiting a → t.notified a) : Serves t b (some a)
  | passed {a : α} (hvisit : .visit a .passed ∈ t.levels) (hwait : ¬ t.waiting a) :
      Serves t b (some a)
  | inside {a : α} (hinside : t.inside a) (hyielding : ¬ t.yielding a) : Serves t b (some a)

/-- The passes in progress come to `c`. -/
inductive Ahead (t : Tour α) (c : α) (line : List α) : Prop
  | visit {phase : Phase} (hvisit : .visit c phase ∈ t.levels) (hphase : phase ≠ .entered) :
      Ahead t c line
  | pass {b : α} (hb : Border t line b) (hserves : Serves t b (t.parent b)) : Ahead t c line

theorem Ahead.passed_visit (hvisit : .visit c .passed ∈ t.levels) : Ahead t c line :=
  .visit hvisit (by nofun)

/-- The ancestors that no pass holds were told if they wait. -/
def Heard (t : Tour α) (c : α) (line : List α) : Prop :=
  ∀ a ∈ line, a ≠ c → a ∉ t.path → t.waiting a → t.notified a

/-- The ancestors that a pass holds were told. -/
def Told (t : Tour α) (c : α) (line : List α) : Prop :=
  ∀ a ∈ line, a ≠ c → a ∈ t.path → t.notified a

/-- The flags of the nodes of a line, from one state to the next: a wait begins
only in a node that has control, and a notice is lost only to a pass. -/
structure Heeds (es : List (Label α)) (line : List α) (t t' : Tour α) : Prop where
  parent : ∀ a ∈ line, t'.parent a = t.parent a
  waiting : ∀ a ∈ line, ¬ t.inside a → t'.waiting a → t.waiting a
  notified : ∀ a ∈ line, t.notified a → t'.notified a ∨ .begins (some a) ∈ es

theorem Ok.inside_mem (hok : t.Ok) (hd : t.inside d) : d ∈ t.path :=
  hok.shape.visit_mem (hok.inside d hd)

/-- The visit that is on top is sure to reach the next node of the line only at
its start. -/
theorem Ahead.of_top {phase : Phase} {ls : List (Level α)} (hok : t.Ok) (hline : Line t c line)
    (h : Ahead t c line) (htop : t.levels = .visit d phase :: ls) (hoff : ¬ t.inside d)
    (hd : d ∈ line) :
    d = c ∧ phase ≠ .entered ∨ d ≠ c ∧
      (phase = .entry ∧ (t.waiting d → t.notified d) ∨ phase = .passed ∧ ¬ t.waiting d) := by
  have hshape := hok.shape
  rw [htop] at hshape
  obtain ⟨hnested, rest, hpath⟩ := hshape.of_visit
  have hhead : t.path.head? = some d := by rw [hpath]; rfl
  have hmem : .visit d phase ∈ t.levels := htop ▸ List.mem_cons_self
  cases h with
  | visit hvisit hphase =>
      obtain rfl := hline.eq_of_head hok (hok.shape.visit_mem hvisit) hd hhead
      rw [hok.shape.phase_unique hmem hvisit]
      exact .inl ⟨rfl, hphase⟩
  | @pass b hb hserves =>
      have hne : d ≠ c := by
        rintro rfl
        exact hb.off (hok.subset_path (hok.shape.visit_mem hmem) hline.chain hb.mem)
      rw [hb.parent_eq hok hline hd hhead] at hserves
      refine .inr ⟨hne, ?_⟩
      cases hserves with
      | reaches hreaches =>
          obtain ⟨n, h?, hturn, _⟩ := hreaches
          rw [htop] at hturn
          exact absurd hhead.symm (hnested.owner_ne hturn)
      | entry hvisit hheard =>
          exact .inl ⟨hok.shape.phase_unique hmem hvisit, hheard⟩
      | passed hvisit hwait =>
          exact .inr ⟨hok.shape.phase_unique hmem hvisit, hwait⟩
      | inside hinside => exact absurd hinside hoff

/-- What is ahead stays ahead when the passes go on elsewhere. -/
theorem Ahead.mono (hok : t.Ok) (hline : Line t c line) (hheeds : Heeds es line t t')
    (h : Ahead t c line) (hpath : ∀ a ∈ line, a ∈ t'.path ↔ a ∈ t.path)
    (hreaches : ∀ b ∈ line, ∀ o, t.Reaches b o → t'.Reaches b o)
    (hvisit : ∀ a ∈ line, ∀ phase, phase ≠ .entered → .visit a phase ∈ t.levels →
      .visit a phase ∈ t'.levels)
    (hinside : ∀ b, Border t line b → ∀ a, t.parent b = some a → t.inside a → ¬ t.yielding a →
      Serves t' b (some a))
    (hquiet : ∀ a ∈ line, .visit a .entry ∈ t.levels → .begins (some a) ∉ es) :
    Ahead t' c line := by
  cases h with
  | visit hv hphase => exact .visit (hvisit c hline.mem_start _ hphase hv) hphase
  | @pass b hb hserves =>
      have hparent := hheeds.parent b hb.mem
      have hline' : ∀ a, t.parent b = some a → a ∈ line := fun a ha =>
        hline.chain.next_mem hb.mem ha
      refine .pass (b := b) ⟨hb.mem, fun hin => hb.off ((hpath b hb.mem).mp hin), ?_⟩ ?_
      · intro a ha
        rw [hparent] at ha
        exact (hpath a (hline' a ha)).mpr (hb.next a ha)
      · rw [hparent]
        -- a node visited, but not entered, has no control
        have hfree : ∀ a phase, .visit a phase ∈ t.levels → phase ≠ .entered → ¬ t.inside a :=
          fun a phase hv hphase hin => hphase (hok.shape.phase_unique hv (hok.inside a hin))
        generalize ho : t.parent b = o at hserves
        cases hserves with
        | reaches h => exact .reaches (hreaches b hb.mem _ h)
        | @entry a hv hheard =>
            refine .entry (hvisit a (hline' a ho) _ nofun hv) fun hwait => ?_
            have hold := hheeds.waiting a (hline' a ho) (hfree a _ hv nofun) hwait
            exact (hheeds.notified a (hline' a ho) (hheard hold)).resolve_right
              (hquiet a (hline' a ho) hv)
        | @passed a hv hwait =>
            refine .passed (hvisit a (hline' a ho) _ nofun hv) fun hwait' => hwait ?_
            exact hheeds.waiting a (hline' a ho) (hfree a _ hv nofun) hwait'
        | @inside a hin hy => exact hinside b hb a ho hin hy

/-- A pass keeps its turns when its list grows at the end. -/
theorem Reaches.mono (h : t.Reaches b o)
    (hturn : ∀ n h?, .turn o n h? ∈ t.levels → b ∈ (t.childs o).take n →
      ∃ h?', .turn o n h?' ∈ t'.levels)
    (hchilds : t.childs o <+: t'.childs o) : t'.Reaches b o := by
  obtain ⟨n, h?, hmem, hb⟩ := h
  obtain ⟨h?', hmem'⟩ := hturn n h? hmem hb
  exact ⟨n, h?', hmem', (List.IsPrefix.take hchilds n).subset hb⟩

/-- A pass over the whole list of its owner comes to every child in it. -/
theorem Reaches.of_begin (hmem : .turn o (t'.childs o).length none ∈ t'.levels)
    (hb : b ∈ t.childs o) (hchilds : t.childs o <+: t'.childs o) : t'.Reaches b o := by
  refine ⟨_, none, hmem, ?_⟩
  rw [List.take_length]
  exact hchilds.subset hb

/-! ### Moves that leave the path as it is -/

section SamePath

variable (hok : t.Ok) (hline : Line t c line) (hheeds : Heeds es line t t')
  (hpath : t'.path = t.path)
include hok hline hheeds hpath

/-- The innermost node held starts a pass over its list, or control goes into it. -/
theorem Ahead.of_serves (hd : d ∈ line) (hne : d ≠ c) (hhead : t.path.head? = some d)
    (h : ∀ b ∈ t.childs (some d), Serves t' b (some d)) : Ahead t' c line := by
  obtain ⟨b, hb, hparent⟩ := hline.border_below hok hd hne hhead
  have hlist : b ∈ t.childs (some d) := by
    rw [← hparent]
    exact (hline.placed b hb.mem).resolve_left hb.off
  refine .pass (b := b) ⟨hb.mem, hpath ▸ hb.off, fun a ha => ?_⟩ ?_
  · rw [hheeds.parent b hb.mem] at ha
    rw [hpath]
    exact hb.next a ha
  · rw [hheeds.parent b hb.mem, hparent]
    exact h b hlist

variable (hchilds : ∀ o, t.childs o <+: t'.childs o)
include hchilds

/-- No level is lost but for a visit off the line. -/
theorem Ahead.same (h : Ahead t c line)
    (hturn : ∀ o n h?, 0 < n → .turn o n h? ∈ t.levels → .turn o n h? ∈ t'.levels)
    (hvisit : ∀ a ∈ line, ∀ phase, .visit a phase ∈ t.levels → .visit a phase ∈ t'.levels)
    (hinside : ∀ b, Border t line b → ∀ a, t.parent b = some a → t.inside a → ¬ t.yielding a →
      Serves t' b (some a))
    (hquiet : ∀ a ∈ line, .visit a .entry ∈ t.levels → .begins (some a) ∉ es) :
    Ahead t' c line := by
  refine h.mono hok hline hheeds (fun a _ => by rw [hpath]) (fun b _ o hreach => ?_)
    (fun a ha phase _ => hvisit a ha phase) hinside hquiet
  refine hreach.mono (fun n h? hmem hb => ⟨h?, hturn o n h? ?_ hmem⟩) (hchilds o)
  cases n with
  | zero => cases hb
  | succ n => exact Nat.succ_pos n

/-- The visit on top goes on, or ends off the line. -/
theorem Ahead.goesOn {phase : Phase} {ls : List (Level α)} (h : Ahead t c line)
    (hlevels : t.levels = .visit d phase :: ls) (hkeep : ls ⊆ t'.levels)
    (hflow : Flow none es t t') (hoff : ¬ t.inside d) (hquiet : ∀ a ≠ d, .begins (some a) ∉ es)
    (hself : d = c → phase ≠ .entered → Ahead t' c line)
    (hserves : d ≠ c → d ∈ line →
      phase = .entry ∧ (t.waiting d → t.notified d) ∨ phase = .passed ∧ ¬ t.waiting d →
      ∀ b ∈ t.childs (some d), Serves t' b (some d)) : Ahead t' c line := by
  by_cases hd : d ∈ line
  · rcases h.of_top hok hline hlevels hoff hd with ⟨rfl, hphase⟩ | ⟨hne, hphase⟩
    · exact hself rfl hphase
    · have hhead : t.path.head? = some d := by
        have hshape := hok.shape
        rw [hlevels] at hshape
        obtain ⟨_, rest, hrest⟩ := hshape.of_visit
        rw [hrest]
        rfl
      exact Ahead.of_serves hok hline hheeds hpath hd hne hhead (hserves hne hd hphase)
  · have hother : ∀ l, l ≠ .visit d phase → l ∈ t.levels → l ∈ t'.levels := by
      intro l hl hmem
      rw [hlevels] at hmem
      exact hkeep ((List.mem_cons.mp hmem).resolve_left hl)
    refine h.same hok hline hheeds hpath hchilds (fun o n h? _ => hother _ nofun)
      (fun a ha p hv => hother _ ?_ hv) (fun b hb a ha hin hy => ?_) fun a ha _ => ?_
    · rintro heq
      cases heq
      exact hd ha
    · exact .inside (hflow.inside a nofun hin) fun hy' => hy (hflow.yielding a nofun hin hy')
    · exact hquiet a fun had => hd (had ▸ ha)

end SamePath

/-! ### Turns of a pass -/

/-- A turn of the pass on top that does not serve the line. -/
theorem Ahead.turn {n m : Nat} {h? k : Option α} {ls : List (Level α)} (hok : t.Ok)
    (hline : Line t c line) (hheeds : Heeds [] line t t') (h : Ahead t c line)
    (hlevels : t.levels = .turn o n h? :: ls) (hmem : .turn o m k ∈ t'.levels)
    (hkeep : ls ⊆ t'.levels) (hflow : Flow none [] t t')
    (hpath : ∀ a ∈ line, a ∈ t'.path ↔ a ∈ t.path)
    (honce : ∀ m h?, .turn o m h? ∉ ls)
    (htop : ∀ b ∈ line, b ∈ (t.childs o).take n → b ∈ (t'.childs o).take m)
    (hchilds : ∀ o', o' ≠ o → t.childs o' <+: t'.childs o') : Ahead t' c line := by
  refine h.mono hok hline hheeds hpath (fun b hb o' hreach => ?_) (fun a _ phase _ hv => ?_)
    (fun b hb a ha hin hy => ?_) fun _ _ _ => List.not_mem_nil
  · obtain ⟨i, g?, hi, hbi⟩ := hreach
    rw [hlevels] at hi
    rcases List.mem_cons.mp hi with heq | hi'
    · cases heq
      exact ⟨m, k, hmem, htop b hb hbi⟩
    · have hne : o' ≠ o := fun heq => honce i g? (heq ▸ hi')
      exact ⟨i, g?, hkeep hi', (List.IsPrefix.take (hchilds o' hne) i).subset hbi⟩
  · rw [hlevels] at hv
    exact hkeep ((List.mem_cons.mp hv).resolve_left nofun)
  · exact .inside (hflow.inside a nofun hin) fun hy' => hy (hflow.yielding a nofun hin hy')

/-- The front of the list that a turn takes is not of the line. -/
theorem Ahead.frontGone {n : Nat} {k : Option α} {l : List α} {ls : List (Level α)} (hok : t.Ok)
    (hline : Line t c line) (hheeds : Heeds [] line t t') (h : Ahead t c line)
    (hlevels : t.levels = .turn o (n + 1) none :: ls) (hmem : .turn o n k ∈ t'.levels)
    (hkeep : ls ⊆ t'.levels) (hflow : Flow none [] t t')
    (hpath : ∀ a ∈ line, a ∈ t'.path ↔ a ∈ t.path) (hd : t.childs o = d :: l)
    (ho : t'.childs o = l) (hoff : d ∉ line)
    (hchilds : ∀ o', o' ≠ o → t.childs o' <+: t'.childs o') : Ahead t' c line := by
  have hshape := hok.shape
  rw [hlevels] at hshape
  obtain ⟨hhead, hnested⟩ := hshape.of_turn
  refine h.turn hok hline hheeds hlevels hmem hkeep hflow hpath
    (fun m h? hm => hnested.owner_ne hm hhead) (fun b hb hin => ?_) hchilds
  have hbd : b ≠ d := fun heq => hoff (heq ▸ hb)
  rw [hd, List.take_succ_cons] at hin
  rw [ho]
  exact (List.mem_cons.mp hin).resolve_left hbd

/-- When the pass takes a node of the line, it comes to the next one or to `c`. -/
theorem Ahead.of_hold {l : List α} (hok : t.Ok) (hline : Line t c line)
    (hheeds : Heeds [] line t t') (hheard : Heard t c line) (hd : d ∈ line)
    (hlist : t.childs o = d :: l) (ho : o = t.path.head?) (hpath : t'.path = d :: t.path)
    (hvisit : .visit d .entry ∈ t'.levels) : Ahead t' c line := by
  obtain ⟨hparent, hoff⟩ := hok.listed o d (hlist ▸ List.mem_cons_self)
  by_cases hdc : d = c
  · have hvisit : .visit c .entry ∈ t'.levels := hdc ▸ hvisit
    exact .visit hvisit (by nofun)
  · obtain ⟨b, hb, hbd⟩ := hline.chain.prev_mem hd hdc
    have hself : b ≠ d := by
      rintro rfl
      rw [hparent, ho] at hbd
      exact hoff (List.mem_of_mem_head? hbd)
    refine .pass (b := b) ⟨hb, ?_, fun a ha => ?_⟩ ?_
    · rw [hpath]
      exact List.not_mem_cons_of_ne_of_not_mem hself fun hin => hoff (hok.parent_mem hin hbd)
    · rw [hheeds.parent b hb, hbd] at ha
      rw [hpath, ← Option.some.inj ha]
      exact List.mem_cons_self
    · rw [hheeds.parent b hb, hbd]
      refine .entry hvisit fun hwait => ?_
      have hfree : ¬ t.inside d := fun hin => hoff (hok.inside_mem hin)
      have htold := hheard d hd hdc hoff (hheeds.waiting d hd hfree hwait)
      exact (hheeds.notified d hd htold).resolve_right List.not_mem_nil

/-- A node whose visit is over is not on the line of what is ahead. -/
theorem Ahead.off_back {n : Nat} {ls : List (Level α)} (hok : t.Ok) (hline : Line t c line)
    (h : Ahead t c line) (hlevels : t.levels = .turn o n (some d) :: ls) : d ∉ line := by
  intro hd
  have hshape := hok.shape
  rw [hlevels] at hshape
  obtain ⟨rest, hpath, ho, _, hnested⟩ := hshape.of_back
  have hhead : t.path.head? = some d := by rw [hpath]; rfl
  have hnodup := hok.shape.parents.nodup
  rw [hpath] at hnodup
  have hrest := (List.nodup_cons.mp hnodup).1
  have hlast : ∀ phase, .visit d phase ∉ t.levels := by
    intro phase hv
    rw [hlevels] at hv
    exact hrest (hnested.visit_mem ((List.mem_cons.mp hv).resolve_left nofun))
  cases h with
  | visit hvisit _ =>
      obtain rfl := hline.eq_of_head hok (hok.shape.visit_mem hvisit) hd hhead
      exact hlast _ hvisit
  | @pass b hb hserves =>
      rw [hb.parent_eq hok hline hd hhead] at hserves
      cases hserves with
      | reaches hreaches =>
          obtain ⟨m, h?, hturn, _⟩ := hreaches
          rw [hlevels] at hturn
          rcases List.mem_cons.mp hturn with heq | hturn
          · cases heq
            exact hrest (List.mem_of_mem_head? ho.symm)
          · obtain ⟨e, he, hed⟩ := hnested.turn_mem hturn
            have hin : e ∈ t.path := hpath ▸ List.mem_cons_of_mem _ he
            exact hok.shape.parents.next_ne_start hin (hed.trans hhead.symm)
      | entry hvisit => exact hlast _ hvisit
      | passed hvisit => exact hlast _ hvisit
      | inside hinside => exact hlast _ (hok.inside d hinside)

/-- The turn that served a node off the line is over. -/
theorem Ahead.turnBack {n : Nat} {ls : List (Level α)} (hok : t.Ok) (hline : Line t c line)
    (hheeds : Heeds [] line t t') (h : Ahead t c line)
    (hlevels : t.levels = .turn o n (some d) :: ls) (hlevels' : t'.levels = .turn o n none :: ls)
    (hpath : t.path = d :: t'.path) (hflow : Flow none [] t t')
    (hchilds : ∀ o, t.childs o <+: t'.childs o) : Ahead t' c line := by
  have hd := h.off_back hok hline hlevels
  have hshape := hok.shape
  rw [hlevels] at hshape
  obtain ⟨rest, hrest, ho, _, hnested⟩ := hshape.of_back
  refine h.turn hok hline hheeds hlevels (hlevels' ▸ List.mem_cons_self) ?_ hflow
    (fun a ha => ?_) (fun m h? hm => hnested.owner_ne hm ho)
    (fun b _ hmem => (List.IsPrefix.take (hchilds o) n).subset hmem) fun o' _ => hchilds o'
  · rw [hlevels']
    exact List.subset_cons_self _ _
  · rw [hpath, List.mem_cons]
    exact (or_iff_right fun had : a = d => hd (had ▸ ha)).symm

/-! ## Every move -/

/-- What is ahead stays ahead until control goes into it. -/
theorem Ahead.move (hok : t.Ok) (hline : Line t c line) (hheeds : Heeds es line t t')
    (hmove : Move t t' es) (hnot : .visits c ∉ es) (hwait : ¬ t.waiting c)
    (hheard : Heard t c line) (h : Ahead t c line) : Ahead t' c line := by
  have hcontrol : ∀ {left : Option α}, Flow left es t t' → ∀ b a, some a ≠ left →
      t.inside a → ¬ t.yielding a → Serves t' b (some a) := fun hflow b a hne hin hy =>
    .inside (hflow.inside a hne hin) fun hy' => hy (hflow.yielding a hne hin hy')
  cases hmove with
  | calm hflow hlevels hpath hchilds =>
      exact h.same hok hline hheeds hpath hchilds (fun _ _ _ _ hv => hlevels ▸ hv)
        (fun _ _ _ hv => hlevels ▸ hv) (fun b _ a _ => hcontrol hflow b a nofun)
        fun _ _ _ => List.not_mem_nil
  | @leave q hflow hlevels hpath hchilds hq =>
      refine h.same hok hline hheeds hpath hchilds (fun _ _ _ _ hv => hlevels ▸ hv)
        (fun _ _ _ hv => hlevels ▸ hv) (fun b hb a ha hin hy => ?_)
        fun _ _ _ => List.not_mem_nil
      refine hcontrol hflow b a (fun haq => ?_) hin hy
      obtain rfl := Option.some.inj haq
      rcases hq with hq | hq
      · exact hy hq
      · have hlist := (hline.placed b hb.mem).resolve_left hb.off
        rw [ha, hq] at hlist
        cases hlist
  | @skip d phase hflow hlevels hpath hchilds hoff hwhy =>
      refine h.goesOn hok hline hheeds hpath hchilds hlevels (List.Subset.refl _) hflow hoff
        (fun _ _ => List.not_mem_nil) (fun hdc hphase => ?_) fun _ hd hphase => ?_
      · subst hdc
        rcases hwhy with ⟨_, hfinished⟩ | ⟨_, hw⟩ | hphase'
        · exact absurd hfinished (hline.alive d hline.mem_start)
        · exact absurd hw hwait
        · exact absurd hphase' hphase
      · rcases hwhy with ⟨_, hfinished⟩ | ⟨rfl, hw⟩ | rfl
        · exact absurd hfinished (hline.alive d hd)
        · rcases hphase with ⟨hphase, _⟩ | ⟨_, hnw⟩
          · cases hphase
          · exact absurd hw hnw
        · rcases hphase with ⟨hphase, _⟩ | ⟨hphase, _⟩ <;> cases hphase
  | @straight d ls hflow hlevels hlevels' hpath hchilds hoff hno =>
      have hmem : .visit d .passed ∈ t'.levels := hlevels' ▸ List.mem_cons_self
      have hself : d = c → Ahead t' c line := fun hdc => .passed_visit (hdc ▸ hmem)
      refine h.goesOn hok hline hheeds hpath hchilds hlevels ?_ hflow hoff
        (fun _ _ => List.not_mem_nil) (fun hdc _ => hself hdc)
        fun _ hd hphase b _ => .passed hmem fun hw => ?_
      · rw [hlevels']
        exact List.subset_cons_self _ _
      · have hw := hheeds.waiting d hd hoff hw
        rcases hphase with ⟨_, hphase⟩ | ⟨hphase, _⟩
        · exact hno (hphase hw)
        · cases hphase
  | @visitPass d ls hflow hlevels hlevels' hpath hchilds hoff =>
      have hmem : .visit d .passed ∈ t'.levels := by rw [hlevels']; simp
      have hself : d = c → Ahead t' c line := fun hdc => .passed_visit (hdc ▸ hmem)
      refine h.goesOn hok hline hheeds hpath hchilds hlevels ?_ hflow hoff
        (fun a had hin => ?_) (fun hdc _ => hself hdc)
        fun _ _ _ b hb => .reaches (.of_begin ?_ hb (hchilds _))
      · rw [hlevels']
        exact fun l hl => List.mem_cons_of_mem _ (List.mem_cons_of_mem _ hl)
      · cases List.mem_singleton.mp hin
        exact had rfl
      · rw [hlevels']
        exact List.mem_cons_self
  | @enter d ls hflow hlevels hlevels' hpath hchilds hoff hinside hyielding =>
      refine h.goesOn hok hline hheeds hpath hchilds hlevels ?_ hflow hoff
        (fun a _ hin => ?_) (fun hdc _ => ?_) fun _ _ _ b _ => .inside hinside hyielding
      · rw [hlevels']
        exact List.subset_cons_self _ _
      · cases List.mem_singleton.mp hin
      · exact absurd (hdc ▸ List.mem_cons_self) hnot
  | @ownPass x hflow hlevels' hx hinside hpath hchilds =>
      have hkeep : t.levels ⊆ t'.levels := by
        rw [hlevels']
        exact List.subset_cons_self _ _
      refine h.same hok hline hheeds hpath hchilds (fun _ _ _ _ hv => hkeep hv)
        (fun _ _ _ hv => hkeep hv) (fun b hb a ha hin hy => ?_) fun a _ hv hin => ?_
      · by_cases hax : some a = x
        · have hlist := (hline.placed b hb.mem).resolve_left hb.off
          rw [ha] at hlist
          refine .reaches (.of_begin ?_ hlist (hchilds _))
          rw [hlevels', hax]
          exact List.mem_cons_self
        · exact hcontrol hflow b a hax hin hy
      · cases List.mem_singleton.mp hin
        have hphase := hok.shape.phase_unique hv (hok.inside a (hinside a rfl))
        cases hphase
  | @passEnd o hflow hlevels hpath hchilds =>
      have hother : ∀ l, l ≠ .turn o 0 none → l ∈ t.levels → l ∈ t'.levels := by
        intro l hl hmem
        rw [hlevels] at hmem
        exact (List.mem_cons.mp hmem).resolve_left hl
      refine h.same hok hline hheeds hpath hchilds (fun o' n h? hn hv => hother _ ?_ hv)
        (fun _ _ _ hv => hother _ nofun hv) (fun b _ a _ => hcontrol hflow b a nofun)
        fun a _ _ hin => ?_
      · rintro heq
        cases heq
        exact Nat.lt_irrefl 0 hn
      · cases List.mem_singleton.mp hin
  | @destroy o n d l ls hflow hlevels hlevels' hpath hd ho hchilds hfinished =>
      refine h.frontGone hok hline hheeds hlevels (hlevels' ▸ List.mem_cons_self) ?_ hflow
        (fun a _ => by rw [hpath]) hd ho (fun hin => hline.alive d hin hfinished) hchilds
      rw [hlevels']
      exact List.subset_cons_self _ _
  | @hold o n d l ls hflow hlevels hlevels' hpath hd ho hchilds =>
      by_cases hdl : d ∈ line
      · have hshape := hok.shape
        rw [hlevels] at hshape
        exact Ahead.of_hold hok hline hheeds hheard hdl hd hshape.of_turn.1 hpath
          (hlevels' ▸ List.mem_cons_self)
      · have hmem : .turn o n (some d) ∈ t'.levels := by rw [hlevels']; simp
        refine h.frontGone hok hline hheeds hlevels hmem ?_ hflow (fun a ha => ?_) hd ho hdl
          hchilds
        · rw [hlevels']
          exact fun l hl => List.mem_cons_of_mem _ (List.mem_cons_of_mem _ hl)
        · rw [hpath, List.mem_cons]
          exact or_iff_right fun had : a = d => hdl (had ▸ ha)
  | @keep o n d ls hflow hlevels hlevels' hpath hchilds =>
      exact h.turnBack hok hline hheeds hlevels hlevels' hpath hflow hchilds
  | @drop o n d ls hflow hlevels hlevels' hpath hchilds hfinished =>
      exact h.turnBack hok hline hheeds hlevels hlevels' hpath hflow hchilds

/-- What begins is a pass over the list of the innermost node held. -/
theorem Move.begins (hok : t.Ok) (hmove : Move t t' es) (ho : .begins o ∈ es) :
    t.path.head? = o ∧ t'.path = t.path ∧ (∀ o', t.childs o' <+: t'.childs o') ∧
      .turn o (t'.childs o).length none ∈ t'.levels := by
  cases hmove with
  | @visitPass d ls hflow hlevels hlevels' hpath hchilds =>
      cases List.mem_singleton.mp ho
      have hshape := hok.shape
      rw [hlevels] at hshape
      obtain ⟨_, rest, hrest⟩ := hshape.of_visit
      exact ⟨by rw [hrest]; rfl, hpath, hchilds, hlevels' ▸ List.mem_cons_self⟩
  | ownPass hflow hlevels' hx _ hpath hchilds =>
      cases List.mem_singleton.mp ho
      exact ⟨hx, hpath, hchilds, hlevels' ▸ List.mem_cons_self⟩
  | _ => simp at ho

/-- The pass over the list of a node of the line comes to what is below it. -/
theorem Ahead.of_begins (hok : t.Ok) (hline : Line t c line) (hheeds : Heeds es line t t')
    (hmove : Move t t' es) (hd : d ∈ line) (hne : d ≠ c) (hbegins : .begins (some d) ∈ es) :
    Ahead t' c line := by
  obtain ⟨hhead, hpath, hchilds, hmem⟩ := hmove.begins hok hbegins
  exact Ahead.of_serves hok hline hheeds hpath hd hne hhead fun b hb =>
    .reaches (.of_begin hmem hb (hchilds _))

/-- A pass over the roots comes to every node that is not over. -/
theorem Ahead.of_begins_none (hok : t.Ok) (hline : Line t c line) (hheeds : Heeds es line t t')
    (hmove : Move t t' es) (hbegins : .begins none ∈ es) : Ahead t' c line := by
  obtain ⟨hhead, hpath, hchilds, hmem⟩ := hmove.begins hok hbegins
  have hnil : t.path = [] := List.head?_eq_none_iff.mp hhead
  obtain ⟨b, hb, hroot⟩ := hline.chain.exists_last
  have hlist : b ∈ t.childs none := by
    have hplaced := hline.placed b hb
    rw [hnil, hroot] at hplaced
    exact hplaced.resolve_left List.not_mem_nil
  have hparent : t'.parent b = none := (hheeds.parent b hb).trans hroot
  refine .pass (b := b) ⟨hb, by simp [hpath, hnil], fun a ha => ?_⟩ ?_
  · rw [hparent] at ha
    cases ha
  · rw [hparent]
    exact .reaches (.of_begin hmem hlist (hchilds _))

/-- The pass over the roots does not end while something is ahead. -/
theorem Ahead.not_ends_none (hok : t.Ok) (hmove : Move t t' es) (h : Ahead t c line) :
    .ends none ∉ es := by
  intro hends
  cases hmove with
  | @passEnd o hflow hlevels hpath hchilds =>
      cases List.mem_singleton.mp hends
      have hshape := hok.shape
      rw [hlevels] at hshape
      obtain ⟨hhead, hnested⟩ := hshape.of_turn
      have hnil : t.path = [] := List.head?_eq_none_iff.mp hhead.symm
      rw [hnil] at hnested
      rw [hnested.eq_nil] at hlevels
      have hvisit : ∀ a phase, .visit a phase ∉ t.levels := by
        intro a phase hv
        rw [hlevels] at hv
        simp at hv
      cases h with
      | visit hv => exact hvisit _ _ hv
      | @pass b hb hserves =>
          have hroot : t.parent b = none := by
            cases ha : t.parent b with
            | none => rfl
            | some a =>
                have hin := hb.next a ha
                rw [hnil] at hin
                cases hin
          rw [hroot] at hserves
          cases hserves with
          | reaches hreaches =>
              obtain ⟨n, h?, hmem, hin⟩ := hreaches
              rw [hlevels] at hmem
              cases List.mem_singleton.mp hmem
              cases hin
  | _ => simp at hends

/-- A node that control did not come to since it was woken: whoever may have to lead
a pass to it was told, unless a pass comes to it anyway. -/
structure Due (t : Tour α) (c : α) (line : List α) : Prop where
  heard : Heard t c line
  sure : Told t c line ∨ Ahead t c line

theorem Heard.move (hok : t.Ok) (hline : Line t c line) (hheeds : Heeds es line t t')
    (hmove : Move t t' es) (h : Due t c line) : Heard t' c line := by
  intro a ha hac hoff hwait
  by_cases hin : a ∈ t.path
  · -- the visit of `a` is over
    have hback : ∀ {o : Option α} {n : Nat} {d : α} {ls : List (Level α)},
        t.levels = .turn o n (some d) :: ls → t.path = d :: t'.path → a = d ∧ t.notified a := by
      intro o n d ls hlevels hpath
      rw [hpath] at hin
      have had := (List.mem_cons.mp hin).resolve_right hoff
      refine ⟨had, ?_⟩
      rcases h.sure with htold | hahead
      · exact htold a ha hac (hpath ▸ hin)
      · exact absurd (had ▸ ha) (hahead.off_back hok hline hlevels)
    cases hmove with
    | hold _ _ _ hpath =>
        rw [hpath] at hoff
        exact absurd (List.mem_cons_of_mem _ hin) hoff
    | keep _ hlevels _ hpath =>
        obtain ⟨_, htold⟩ := hback hlevels hpath
        exact (hheeds.notified a ha htold).resolve_right List.not_mem_nil
    | drop _ hlevels _ hpath _ hfinished =>
        obtain ⟨had, _⟩ := hback hlevels hpath
        exact absurd (had ▸ hfinished) (hline.alive a ha)
    | calm _ _ hpath => exact absurd (hpath ▸ hin) hoff
    | leave _ _ hpath => exact absurd (hpath ▸ hin) hoff
    | skip _ _ hpath => exact absurd (hpath ▸ hin) hoff
    | straight _ _ _ hpath => exact absurd (hpath ▸ hin) hoff
    | visitPass _ _ _ hpath => exact absurd (hpath ▸ hin) hoff
    | enter _ _ _ hpath => exact absurd (hpath ▸ hin) hoff
    | ownPass _ _ _ _ hpath => exact absurd (hpath ▸ hin) hoff
    | passEnd _ _ hpath => exact absurd (hpath ▸ hin) hoff
    | destroy _ _ _ hpath => exact absurd (hpath ▸ hin) hoff
  · have hfree : ¬ t.inside a := fun hi => hin (hok.inside_mem hi)
    have htold := h.heard a ha hac hin (hheeds.waiting a ha hfree hwait)
    refine (hheeds.notified a ha htold).resolve_right fun hbegins => hin ?_
    exact List.mem_of_mem_head? (hmove.begins hok hbegins).1

theorem Told.move (hok : t.Ok) (hline : Line t c line) (hheeds : Heeds es line t t')
    (hmove : Move t t' es) (hheard : Heard t c line) (h : Told t c line) :
    Told t' c line ∨ Ahead t' c line := by
  by_cases hbegins : ∃ d ∈ line, d ≠ c ∧ .begins (some d) ∈ es
  · obtain ⟨d, hd, hne, hbegins⟩ := hbegins
    exact .inr (Ahead.of_begins hok hline hheeds hmove hd hne hbegins)
  · have hkeep : (∀ a ∈ line, a ≠ c → a ∈ t'.path → a ∈ t.path) → Told t' c line := by
      intro hpath a ha hac hin
      refine (hheeds.notified a ha (h a ha hac (hpath a ha hac hin))).resolve_right ?_
      exact fun hb => hbegins ⟨a, ha, hac, hb⟩
    cases hmove with
    | @hold o n d l ls hflow hlevels hlevels' hpath hd ho hchilds =>
        have hshape := hok.shape
        rw [hlevels] at hshape
        by_cases hdl : d ∈ line
        · exact .inr (Ahead.of_hold hok hline hheeds hheard hdl hd hshape.of_turn.1 hpath
            (hlevels' ▸ List.mem_cons_self))
        · refine .inl (hkeep fun a ha _ hin => ?_)
          rw [hpath] at hin
          exact (List.mem_cons.mp hin).resolve_left fun had => hdl (had ▸ ha)
    | keep _ _ _ hpath =>
        exact .inl (hkeep fun a _ _ hin => hpath ▸ List.mem_cons_of_mem _ hin)
    | drop _ _ _ hpath =>
        exact .inl (hkeep fun a _ _ hin => hpath ▸ List.mem_cons_of_mem _ hin)
    | calm _ _ hpath => exact .inl (hkeep fun a _ _ hin => hpath ▸ hin)
    | leave _ _ hpath => exact .inl (hkeep fun a _ _ hin => hpath ▸ hin)
    | skip _ _ hpath => exact .inl (hkeep fun a _ _ hin => hpath ▸ hin)
    | straight _ _ _ hpath => exact .inl (hkeep fun a _ _ hin => hpath ▸ hin)
    | visitPass _ _ _ hpath => exact .inl (hkeep fun a _ _ hin => hpath ▸ hin)
    | enter _ _ _ hpath => exact .inl (hkeep fun a _ _ hin => hpath ▸ hin)
    | ownPass _ _ _ _ hpath => exact .inl (hkeep fun a _ _ hin => hpath ▸ hin)
    | passEnd _ _ hpath => exact .inl (hkeep fun a _ _ hin => hpath ▸ hin)
    | destroy _ _ _ hpath => exact .inl (hkeep fun a _ _ hin => hpath ▸ hin)

theorem Due.move (hok : t.Ok) (hline : Line t c line) (hheeds : Heeds es line t t')
    (hmove : Move t t' es) (hnot : .visits c ∉ es) (hwait : ¬ t.waiting c)
    (h : Due t c line) : Due t' c line where
  heard := Heard.move hok hline hheeds hmove h
  sure := by
    rcases h.sure with htold | hahead
    · exact htold.move hok hline hheeds hmove h.heard
    · exact .inr (hahead.move hok hline hheeds hmove hnot hwait h.heard)

end Tour
