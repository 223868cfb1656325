import BoostCoro.Lib.Transition
import Mathlib.Logic.Function.Basic
/-!
# The pending queue of libev

`ev_feed_event`, `clear_pending`, `ev_clear_pending` and `ev_invoke_pending` of
`libev/ev.c`: one array of slots for each priority and in every watcher the index
of its slot. A watcher that is stopped leaves the dummy watcher in its slot. The
queue is a map from watchers to the events they have been fed since their last
callback, whatever the callbacks do in between and however the calls are nested.
-/

namespace BoostCoro.Libev

/-- The event sets that libev hands to a watcher. -/
abbrev Revents := BitVec 32

/-- `NUMPRI`. -/
def numpri : Nat := 5

/-- `ABSPRI` of the priority 0, which `ev_init` sets. -/
def defaultPri : Fin numpri := ⟨2, by decide⟩

/-- `ANPENDING`; the watcher is `none` where it points to `pending_w`. -/
structure Anpending (ω : Type) where
  w : Option ω
  events : Revents
  deriving DecidableEq, Repr

/-- The pending queue: `ABSPRI (w)` and `w->pending` of every watcher, and the slots of
each priority. -/
structure Pendings (ω : Type) where
  abspri : ω → Fin numpri
  pending : ω → Nat
  pendings : Fin numpri → List (Anpending ω)

namespace Pendings

variable {ω : Type} [DecidableEq ω]

def new (abspri : ω → Fin numpri) : Pendings ω where
  abspri := abspri
  pending _ := 0
  pendings _ := []

/-- Write to `pendings [ABSPRI (w)][w->pending - 1]`. -/
def setSlot (p : Pendings ω) (w : ω) (f : Anpending ω → Anpending ω) : Pendings ω :=
  { p with
    pendings := Function.update p.pendings (p.abspri w)
      ((p.pendings (p.abspri w)).modify (p.pending w - 1) f) }

/-- `ev_feed_event`. -/
def evFeedEvent (p : Pendings ω) (w : ω) (revents : Revents) : Pendings ω :=
  if p.pending w ≠ 0 then p.setSlot w fun a => { a with events := a.events ||| revents }
  else
    { p with
      pending := Function.update p.pending w ((p.pendings (p.abspri w)).length + 1)
      pendings := Function.update p.pendings (p.abspri w)
        (p.pendings (p.abspri w) ++ [⟨some w, revents⟩]) }

/-- `clear_pending`. -/
def clearPending (p : Pendings ω) (w : ω) : Pendings ω :=
  if p.pending w ≠ 0 then
    { p.setSlot w fun a => { a with w := none } with pending := Function.update p.pending w 0 }
  else p

/-- `ev_clear_pending`: the same, returning the events of the slot. -/
def evClearPending (p : Pendings ω) (w : ω) : Revents × Pendings ω :=
  if p.pending w ≠ 0 then
    ((((p.pendings (p.abspri w))[p.pending w - 1]?).map Anpending.events).getD 0, p.clearPending w)
  else (0, p)

/-- The head of the inner loop of `ev_invoke_pending`: the last slot of a priority is
taken and its watcher is no longer pending. -/
def takeLast (p : Pendings ω) (pri : Fin numpri) : Option (Anpending ω × Pendings ω) :=
  match (p.pendings pri).getLast? with
  | none => none
  | some a =>
    some (a, { p with
      pending := match a.w with
        | some w => Function.update p.pending w 0
        | none => p.pending
      pendings := Function.update p.pendings pri (p.pendings pri).dropLast })

/-- `ev_set_priority`, with `pri_adjust` when the watcher is started. -/
def evSetPriority (p : Pendings ω) (w : ω) (pri : Fin numpri) : Pendings ω :=
  { p with abspri := Function.update p.abspri w pri }

/-! ## The slots and the watchers agree -/

/-- The watcher of a slot, the dummy being `some none`. -/
def slotOf (p : Pendings ω) (pri : Fin numpri) (n : Nat) : Option (Option ω) :=
  ((p.pendings pri)[n]?).map Anpending.w

/-- `verify_watcher`: a pending watcher has its slot, and a slot that holds a watcher is
the one the watcher has. -/
def Sound (p : Pendings ω) : Prop :=
  ∀ pri n w, p.slotOf pri n = some (some w) ↔ p.abspri w = pri ∧ p.pending w = n + 1

/-- The events a watcher waits to be called back with. -/
def told (p : Pendings ω) (w : ω) : Option Revents :=
  if p.pending w = 0 then none
  else ((p.pendings (p.abspri w))[p.pending w - 1]?).map Anpending.events

section Operations

variable {p p' : Pendings ω} {w x : ω} {pri : Fin numpri} {n : Nat} {revents : Revents}
variable {a : Anpending ω}

omit [DecidableEq ω] in
theorem new_sound (abspri : ω → Fin numpri) : (new abspri).Sound := by
  intro pri n w
  simp [slotOf, new]

omit [DecidableEq ω] in
/-- The slot of a pending watcher. -/
theorem Sound.slot (h : p.Sound) (hw : p.pending w ≠ 0) :
    ∃ ev, (p.pendings (p.abspri w))[p.pending w - 1]? = some ⟨some w, ev⟩ ∧
      p.told w = some ev := by
  have hslot : p.slotOf (p.abspri w) (p.pending w - 1) = some (some w) :=
    (h _ _ _).mpr ⟨rfl, by omega⟩
  obtain ⟨⟨w', ev⟩, hget, hw'⟩ := Option.map_eq_some_iff.mp hslot
  obtain rfl : w' = some w := hw'
  refine ⟨ev, hget, ?_⟩
  rw [told, if_neg hw, hget]
  rfl

omit [DecidableEq ω] in
theorem told_eq_none (h : p.Sound) : p.told w = none ↔ p.pending w = 0 := by
  constructor
  · intro hnone
    by_contra hw
    obtain ⟨ev, -, htold⟩ := h.slot hw
    rw [htold] at hnone
    cases hnone
  · intro hw
    rw [told, if_pos hw]

omit [DecidableEq ω] in
/-- A slot that holds a watcher has the events it was told. -/
theorem Sound.told_slot (h : p.Sound) (hget : (p.pendings pri)[n]? = some ⟨some w, revents⟩) :
    p.abspri w = pri ∧ p.pending w = n + 1 ∧ p.told w = some revents := by
  obtain ⟨hpri, hpending⟩ := (h pri n w).mp (by rw [slotOf, hget]; rfl)
  refine ⟨hpri, hpending, ?_⟩
  rw [told, if_neg (by omega), hpri, hpending, Nat.add_sub_cancel, hget]
  rfl

omit [DecidableEq ω] in
theorem setSlot_get (f : Anpending ω → Anpending ω) :
    ((p.setSlot w f).pendings pri)[n]? =
      if p.abspri w = pri ∧ p.pending w - 1 = n then ((p.pendings pri)[n]?).map f
      else (p.pendings pri)[n]? := by
  by_cases hpri : pri = p.abspri w
  · subst hpri
    simp only [setSlot, Function.update_self, List.getElem?_modify]
    by_cases hn : p.pending w - 1 = n <;> simp [hn]
  · simp only [setSlot, Function.update_of_ne hpri]
    rw [if_neg fun h => hpri h.1.symm]

omit [DecidableEq ω] in
/-- Two pending watchers do not share a slot. -/
theorem Sound.setSlot_get_of_ne (h : p.Sound) (hw : p.pending w ≠ 0) (hx : p.pending x ≠ 0)
    (hne : x ≠ w) (f : Anpending ω → Anpending ω) :
    ((p.setSlot w f).pendings (p.abspri x))[p.pending x - 1]? =
      (p.pendings (p.abspri x))[p.pending x - 1]? := by
  obtain ⟨ev, hget, -⟩ := h.slot hw
  obtain ⟨ev', hget', -⟩ := h.slot hx
  rw [setSlot_get, if_neg]
  rintro ⟨hpri, hn⟩
  rw [← hpri, ← hn, hget] at hget'
  simp [Ne.symm hne] at hget'

omit [DecidableEq ω] in
/-- A slot is put behind those of a priority. -/
theorem push_get (l : Fin numpri → List (Anpending ω)) (i : Fin numpri) :
    (Function.update l i (l i ++ [a]) pri)[n]? =
      if pri = i ∧ n = (l i).length then some a else (l pri)[n]? := by
  by_cases hpri : pri = i
  · subst hpri
    rw [Function.update_self, List.getElem?_append, List.getElem?_singleton]
    by_cases hn : n < (l pri).length
    · rw [if_pos hn, if_neg (by omega)]
    · by_cases heq : n = (l pri).length
      · simp [heq]
      · rw [if_neg hn, if_neg (by omega), if_neg (by omega),
          List.getElem?_eq_none (Nat.not_lt.mp hn)]
  · rw [Function.update_of_ne hpri, if_neg fun h => hpri h.1]

@[simp] theorem evFeedEvent_abspri : (p.evFeedEvent w revents).abspri = p.abspri := by
  unfold evFeedEvent
  split <;> rfl

@[simp] theorem clearPending_abspri : (p.clearPending w).abspri = p.abspri := by
  unfold clearPending
  split <;> rfl

theorem Sound.evFeedEvent (h : p.Sound) : (p.evFeedEvent w revents).Sound := by
  unfold Pendings.evFeedEvent
  split
  next hw =>
    intro pri n x
    have hsame : (p.setSlot w fun a => { a with events := a.events ||| revents }).slotOf pri n =
        p.slotOf pri n := by
      rw [slotOf, setSlot_get]
      split
      · rw [Option.map_map]
        rfl
      · rfl
    rw [hsame]
    exact h pri n x
  next hw =>
    rw [not_not] at hw
    intro pri n x
    simp only [slotOf, push_get]
    split
    next hnew =>
      obtain ⟨rfl, rfl⟩ := hnew
      by_cases hx : x = w
      · simp [hx]
      · -- no other watcher had the slot behind the last one
        have hnone := h (p.abspri w) (p.pendings (p.abspri w)).length x
        rw [slotOf, List.getElem?_eq_none (Nat.le_refl _)] at hnone
        simpa [Function.update_of_ne hx, Ne.symm hx] using hnone
    next hold =>
      have hsame := h pri n x
      rw [slotOf] at hsame
      rw [hsame]
      by_cases hx : x = w
      · subst hx
        rw [Function.update_self, hw]
        constructor
        · rintro ⟨-, hzero⟩
          cases hzero
        · rintro ⟨hpri, hn⟩
          exact absurd ⟨hpri.symm, (Nat.succ.inj hn).symm⟩ hold
      · rw [Function.update_of_ne hx]

theorem Sound.clearPending (h : p.Sound) : (p.clearPending w).Sound := by
  unfold Pendings.clearPending
  split
  next hw =>
    intro pri n x
    have hold := h pri n x
    have hslot : (p.setSlot w fun a => { a with w := none }).slotOf pri n =
        if p.abspri w = pri ∧ p.pending w - 1 = n then (p.slotOf pri n).map fun _ => none
        else p.slotOf pri n := by
      rw [slotOf, setSlot_get]
      split
      · simp [slotOf, Function.comp_def]
      · rfl
    change (p.setSlot w fun a => { a with w := none }).slotOf pri n = _ ↔
      p.abspri x = pri ∧ Function.update p.pending w 0 x = n + 1
    rw [hslot]
    by_cases hx : x = w
    · subst hx
      rw [Function.update_self]
      split
      next => simp
      next hout =>
        rw [hold]
        constructor
        · rintro ⟨hpri, hn⟩
          exact absurd ⟨hpri, by omega⟩ hout
        · rintro ⟨-, hzero⟩
          cases hzero
    · rw [Function.update_of_ne hx]
      split
      next hin =>
        -- the cleared slot was that of `w`, so `x` does not have it
        have hcleared := (h pri n w).mpr ⟨hin.1, by omega⟩
        rw [hcleared] at hold
        rw [← hold]
        simp [Ne.symm hx]
      next => exact hold
  next => exact h

/-- A watcher that is fed is told the events beside those it waits for. -/
theorem Sound.told_evFeedEvent (h : p.Sound) :
    (p.evFeedEvent w revents).told =
      Function.update p.told w (some ((p.told w).getD 0 ||| revents)) := by
  funext x
  unfold Pendings.evFeedEvent
  split
  next hw =>
    obtain ⟨ev, hget, htold⟩ := h.slot hw
    by_cases hx : x = w
    · subst hx
      rw [Function.update_self, htold]
      change (if p.pending x = 0 then none else _) = _
      rw [if_neg hw]
      change Option.map _ (((p.setSlot x _).pendings (p.abspri x))[p.pending x - 1]?) = _
      rw [setSlot_get, if_pos ⟨rfl, rfl⟩, hget]
      rfl
    · rw [Function.update_of_ne hx]
      change (if p.pending x = 0 then none else _) = if p.pending x = 0 then none else _
      split
      · rfl
      next hpending => exact congrArg _ (h.setSlot_get_of_ne hw hpending hx _)
  next hw =>
    rw [not_not] at hw
    by_cases hx : x = w
    · subst hx
      rw [Function.update_self, (told_eq_none h).mpr hw]
      simp [told]
    · rw [Function.update_of_ne hx]
      simp only [told, Function.update_of_ne hx, push_get]
      split
      · rfl
      next hpending =>
        obtain ⟨ev, hget, -⟩ := h.slot hpending
        rw [if_neg]
        rintro ⟨hpri, hn⟩
        rw [hn, hpri, List.getElem?_eq_none (Nat.le_refl _)] at hget
        cases hget

/-- A watcher whose pending event is cleared waits for nothing. -/
theorem Sound.told_clearPending (h : p.Sound) :
    (p.clearPending w).told = Function.update p.told w none := by
  funext x
  by_cases hx : x = w
  · subst hx
    rw [Function.update_self, told_eq_none h.clearPending]
    unfold Pendings.clearPending
    split
    · exact Function.update_self ..
    next hw => exact not_not.mp hw
  · rw [Function.update_of_ne hx]
    unfold Pendings.clearPending
    split
    next hw =>
      simp only [told, Function.update_of_ne hx]
      split
      · rfl
      next hpending => exact congrArg _ (h.setSlot_get_of_ne hw hpending hx _)
    next => rfl

theorem evClearPending_snd : (p.evClearPending w).2 = p.clearPending w := by
  unfold evClearPending
  split
  next => rfl
  next hw => rw [clearPending, if_neg hw]

/-- `ev_clear_pending` returns what the watcher was told. -/
theorem Sound.evClearPending_fst (h : p.Sound) :
    (p.evClearPending w).1 = (p.told w).getD 0 := by
  unfold evClearPending
  split
  next hw =>
    obtain ⟨ev, hget, htold⟩ := h.slot hw
    rw [hget, htold]
    rfl
  next hw => rw [(told_eq_none h).mpr (not_not.mp hw), Option.getD_none]

omit [DecidableEq ω] in
/-- The last slot of a priority is taken away. -/
theorem dropLast_get (l : Fin numpri → List (Anpending ω)) {i : Fin numpri}
    {rest : List (Anpending ω)} (hl : l i = rest ++ [a]) :
    (Function.update l i (l i).dropLast pri)[n]? =
      if pri = i ∧ n = rest.length then none else (l pri)[n]? := by
  by_cases hpri : pri = i
  · subst hpri
    rw [Function.update_self, hl, List.dropLast_concat, List.getElem?_append,
      List.getElem?_singleton]
    by_cases hn : n < rest.length
    · rw [if_neg (by omega), if_pos hn]
    · by_cases heq : n = rest.length
      · simp [heq]
      · rw [if_neg (by omega), if_neg hn, if_neg (by omega),
          List.getElem?_eq_none (Nat.not_lt.mp hn)]
  · rw [Function.update_of_ne hpri, if_neg fun h => hpri h.1]

theorem takeLast_eq_none : p.takeLast pri = none ↔ p.pendings pri = [] := by
  unfold takeLast
  split
  next h => simpa using h
  next a h =>
    have hne : p.pendings pri ≠ [] := by
      rintro hnil
      rw [hnil] at h
      cases h
    simp [hne]

omit [DecidableEq ω] in
/-- When a priority has no slot, none of its watchers is pending. -/
theorem Sound.told_of_empty (h : p.Sound) (hnil : p.pendings (p.abspri w) = []) :
    p.told w = none := by
  by_contra hsome
  obtain ⟨ev, hget, -⟩ := h.slot fun hzero => hsome ((told_eq_none h).mpr hzero)
  rw [hnil] at hget
  cases hget

theorem takeLast_some (ht : p.takeLast pri = some (a, p')) :
    ∃ rest, p.pendings pri = rest ++ [a] ∧ p' = { p with
      pending := match a.w with
        | some w => Function.update p.pending w 0
        | none => p.pending
      pendings := Function.update p.pendings pri (p.pendings pri).dropLast } := by
  unfold takeLast at ht
  split at ht
  next => cases ht
  next b hlast =>
    obtain ⟨rfl, rfl⟩ := Prod.mk.inj (Option.some.inj ht)
    obtain ⟨rest, hrest⟩ := List.getLast?_eq_some_iff.mp hlast
    exact ⟨rest, hrest, rfl⟩

/-- The dummy is taken: nothing else changes. -/
theorem Sound.takeLast_dummy (h : p.Sound) (ht : p.takeLast pri = some (⟨none, revents⟩, p')) :
    p'.Sound ∧ p'.abspri = p.abspri ∧ p'.told = p.told := by
  obtain ⟨rest, hrest, rfl⟩ := takeLast_some ht
  have hlast : (p.pendings pri)[rest.length]? = some ⟨none, revents⟩ := by
    rw [hrest]
    simp
  refine ⟨fun i n x => ?_, rfl, ?_⟩
  · have hold := h i n x
    simp only [slotOf] at hold ⊢
    rw [dropLast_get _ hrest]
    split
    next hin =>
      rw [hin.1, hin.2, hlast] at hold
      simpa [hin.1, hin.2] using hold
    next => exact hold
  · funext x
    simp only [told]
    split
    · rfl
    next hx =>
      rw [dropLast_get _ hrest, if_neg]
      rintro ⟨hpri, hn⟩
      obtain ⟨ev, hget, -⟩ := h.slot hx
      rw [hpri, hn, hlast] at hget
      cases hget

/-- A watcher is taken: it was told the events of its slot, and waits for nothing. -/
theorem Sound.takeLast_watcher (h : p.Sound)
    (ht : p.takeLast pri = some (⟨some w, revents⟩, p')) :
    p'.Sound ∧ p'.abspri = p.abspri ∧ p.abspri w = pri ∧ p.told w = some revents ∧
      p'.told = Function.update p.told w none := by
  obtain ⟨rest, hrest, rfl⟩ := takeLast_some ht
  have hlast : (p.pendings pri)[rest.length]? = some ⟨some w, revents⟩ := by
    rw [hrest]
    simp
  obtain ⟨rfl, hpending, htold⟩ := h.told_slot hlast
  refine ⟨fun i n x => ?_, rfl, rfl, htold, ?_⟩
  · have hold := h i n x
    simp only [slotOf] at hold ⊢
    rw [dropLast_get _ hrest]
    by_cases hx : x = w
    · subst hx
      rw [Function.update_self]
      split
      next => simp
      next hout =>
        rw [hold, hpending]
        constructor
        · rintro ⟨hpri, hn⟩
          exact absurd ⟨hpri.symm, (Nat.succ.inj hn).symm⟩ hout
        · rintro ⟨-, hzero⟩
          cases hzero
    · rw [Function.update_of_ne hx]
      split
      next hin =>
        rw [hin.1, hin.2, hlast] at hold
        simpa [hin.1, hin.2, Ne.symm hx] using hold
      next => exact hold
  · funext x
    by_cases hx : x = w
    · subst hx
      rw [Function.update_self, told]
      exact if_pos (Function.update_self ..)
    · rw [Function.update_of_ne hx]
      simp only [told, Function.update_of_ne hx]
      split
      · rfl
      next hpending' =>
        rw [dropLast_get _ hrest, if_neg]
        rintro ⟨hpri, hn⟩
        obtain ⟨ev, hget, -⟩ := h.slot hpending'
        rw [hpri, hn, hlast] at hget
        simp [Ne.symm hx] at hget

theorem evFeedEvent_pending (hw : p.pending w ≠ 0) :
    (p.evFeedEvent x revents).pending w = p.pending w := by
  unfold Pendings.evFeedEvent
  split
  next => rfl
  next hx =>
    have hne : w ≠ x := by
      rintro rfl
      exact hx hw
    exact Function.update_of_ne hne ..

theorem clearPending_pending (hne : w ≠ x) :
    (p.clearPending x).pending w = p.pending w := by
  unfold Pendings.clearPending
  split
  next => exact Function.update_of_ne hne ..
  next => rfl

theorem clearPending_idem : (p.clearPending w).clearPending w = p.clearPending w := by
  have hzero : (p.clearPending w).pending w = 0 := by
    unfold Pendings.clearPending
    split
    next => exact Function.update_self ..
    next hw => exact not_not.mp hw
  exact if_neg (not_not.mpr hzero)

theorem takeLast_pending (h : p.takeLast pri = some (a, p')) (hne : a.w ≠ some w) :
    p'.abspri = p.abspri ∧ p'.pending w = p.pending w := by
  obtain ⟨rest, -, rfl⟩ := takeLast_some h
  refine ⟨rfl, ?_⟩
  cases hw : a.w with
  | none => rfl
  | some x =>
      have hx : w ≠ x := by
        rintro rfl
        exact hne hw
      simp [Function.update_of_ne hx]

/-- The slot that is taken is behind those of all others of its priority. -/
theorem Sound.takeLast_isLast (hs : p.Sound)
    (h : p.takeLast pri = some (⟨some x, revents⟩, p')) (hw : p.pending w ≠ 0)
    (hpri : p.abspri w = pri) : p.pending w ≤ p.pending x := by
  obtain ⟨rest, hrest, -⟩ := takeLast_some h
  have hlast : (p.pendings pri)[rest.length]? = some ⟨some x, revents⟩ := by
    rw [hrest]
    simp
  obtain ⟨-, hv, -⟩ := hs.told_slot hlast
  obtain ⟨ev, hget, -⟩ := hs.slot hw
  have hlt := (List.getElem?_eq_some_iff.mp hget).1
  rw [hpri, hrest, List.length_append, List.length_singleton] at hlt
  omega

/-- A watcher that is not pending may get another priority. -/
theorem Sound.evSetPriority (h : p.Sound) (hw : p.pending w = 0) (pri : Fin numpri) :
    (p.evSetPriority w pri).Sound ∧ (p.evSetPriority w pri).told = p.told := by
  refine ⟨fun i n x => ?_, ?_⟩
  · refine (h i n x).trans ?_
    by_cases hx : x = w
    · simp [Pendings.evSetPriority, hx, hw]
    · simp [Pendings.evSetPriority, hx]
  · funext x
    by_cases hx : x = w
    · simp [told, Pendings.evSetPriority, hx, hw]
    · simp [told, Pendings.evSetPriority, hx]

/-! ### Several watchers in turn -/

/-- Feed the same events to several watchers, the last of the list first. -/
def feedAll (p : Pendings ω) (ws : List ω) (revents : Revents) : Pendings ω :=
  ws.foldr (fun w p => p.evFeedEvent w revents) p

/-- Clear several watchers. -/
def clearAll (p : Pendings ω) (ws : List ω) : Pendings ω :=
  ws.foldl (fun p w => p.clearPending w) p

theorem Sound.feedAll (hs : p.Sound) (revents : Revents) (ws : List ω) :
    (p.feedAll ws revents).Sound ∧ (p.feedAll ws revents).abspri = p.abspri ∧
      ∀ x, (p.feedAll ws revents).told x =
        if x ∈ ws then some ((p.told x).getD 0 ||| revents) else p.told x := by
  induction ws with
  | nil => exact ⟨hs, rfl, fun x => by simp [Pendings.feedAll]⟩
  | cons w ws ih =>
      obtain ⟨hsound, habspri, htold⟩ := ih
      refine ⟨hsound.evFeedEvent, ?_, fun x => ?_⟩
      · exact evFeedEvent_abspri.trans habspri
      · change ((p.feedAll ws revents).evFeedEvent w revents).told x = _
        rw [hsound.told_evFeedEvent]
        by_cases hxw : x = w
        · rw [hxw, Function.update_self, htold, if_pos List.mem_cons_self]
          split
          · rw [Option.getD_some, BitVec.or_assoc, BitVec.or_self]
          · rfl
        · rw [Function.update_of_ne hxw, htold]
          simp [hxw]

theorem Sound.clearAll (hs : p.Sound) (ws : List ω) :
    (p.clearAll ws).Sound ∧ (p.clearAll ws).abspri = p.abspri ∧
      ∀ x, (p.clearAll ws).told x = if x ∈ ws then none else p.told x := by
  induction ws generalizing p with
  | nil => exact ⟨hs, rfl, fun x => by simp [Pendings.clearAll]⟩
  | cons w ws ih =>
      obtain ⟨hsound, habspri, htold⟩ := ih (hs.clearPending (w := w))
      refine ⟨hsound, habspri.trans clearPending_abspri, fun x => ?_⟩
      change ((p.clearPending w).clearAll ws).told x = _
      rw [htold, hs.told_clearPending]
      by_cases hxw : x = w
      · simp [hxw]
      · simp [hxw]

omit [DecidableEq ω] in
/-- A watcher is not pending in a slot behind the last. -/
theorem Sound.pending_le (hs : p.Sound) (w : ω) :
    p.pending w ≤ (p.pendings (p.abspri w)).length := by
  by_cases hw : p.pending w = 0
  · omega
  · obtain ⟨ev, hget, -⟩ := hs.slot hw
    have hlt := (List.getElem?_eq_some_iff.mp hget).1
    omega

theorem evFeedEvent_pending_of_ne (hne : w ≠ x) :
    (p.evFeedEvent x revents).pending w = p.pending w := by
  unfold Pendings.evFeedEvent
  split
  next => rfl
  next => exact Function.update_of_ne hne ..

theorem feedAll_pending_of_notMem {ws : List ω} (hw : w ∉ ws) :
    (p.feedAll ws revents).pending w = p.pending w := by
  induction ws with
  | nil => rfl
  | cons x ws ih =>
      rw [List.mem_cons, not_or] at hw
      exact (evFeedEvent_pending_of_ne hw.1).trans (ih hw.2)

/-- Of watchers that were not pending, the first of the list has the last slot of its
priority. -/
theorem Sound.feedAll_later (hs : p.Sound) (revents : Revents) {ws : List ω}
    (hnodup : ws.Nodup) :
    ws.Pairwise fun w v => p.pending w = 0 → p.abspri v = p.abspri w →
      (p.feedAll ws revents).pending v < (p.feedAll ws revents).pending w := by
  induction ws with
  | nil => exact .nil
  | cons w ws ih =>
      obtain ⟨hw, hnodup⟩ := List.nodup_cons.mp hnodup
      obtain ⟨hsound, habspri, htold⟩ := hs.feedAll revents ws
      have hfed : ∀ v ∈ ws, (p.feedAll ws revents).pending v ≠ 0 := by
        intro v hv hzero
        have hnone := (told_eq_none hsound).mpr hzero
        rw [htold, if_pos hv] at hnone
        cases hnone
      refine List.pairwise_cons.mpr ⟨fun v hv hzero hpri => ?_, ?_⟩
      · change ((p.feedAll ws revents).evFeedEvent w revents).pending v <
          ((p.feedAll ws revents).evFeedEvent w revents).pending w
        rw [evFeedEvent_pending (hfed v hv)]
        have hle := hsound.pending_le v
        have hzero' : (p.feedAll ws revents).pending w = 0 := by
          rw [feedAll_pending_of_notMem hw, hzero]
        rw [habspri, hpri, ← habspri] at hle
        rw [Pendings.evFeedEvent, if_neg (not_not.mpr hzero')]
        simp only [Function.update_self]
        omega
      · refine (ih hnodup).imp_of_mem fun {x y} hx hy hlt hzero hpri => ?_
        change ((p.feedAll ws revents).evFeedEvent w revents).pending y <
          ((p.feedAll ws revents).evFeedEvent w revents).pending x
        rw [evFeedEvent_pending (hfed x hx), evFeedEvent_pending (hfed y hy)]
        exact hlt hzero hpri

/-- Feed each of several watchers the events it comes with, if there are any. -/
def feedSome (p : Pendings ω) (ws : List (ω × Revents)) : Pendings ω :=
  ws.foldl (fun p w => if w.2 ≠ 0 then p.evFeedEvent w.1 w.2 else p) p

theorem Sound.feedSome {ws : List (ω × Revents)} (hs : p.Sound)
    (hnodup : (ws.map Prod.fst).Nodup) :
    (p.feedSome ws).Sound ∧ (p.feedSome ws).abspri = p.abspri ∧
      (∀ w revents, (w, revents) ∈ ws → revents ≠ 0 →
        (p.feedSome ws).told w = some ((p.told w).getD 0 ||| revents)) ∧
      ∀ x, (∀ revents, (x, revents) ∈ ws → revents = 0) →
        (p.feedSome ws).told x = p.told x := by
  induction ws generalizing p with
  | nil => exact ⟨hs, rfl, (fun _ _ h => by cases h), fun _ _ => rfl⟩
  | cons e ws ih =>
      obtain ⟨w, r⟩ := e
      obtain ⟨hw, hnodup⟩ := List.nodup_cons.mp hnodup
      have hout : ∀ e, (w, e) ∉ ws := fun e he => hw (List.mem_map.mpr ⟨_, he, rfl⟩)
      by_cases hr : r = 0
      · obtain ⟨hsound, habspri, htold, hsame⟩ := ih hs hnodup
        have hskip : p.feedSome ((w, r) :: ws) = p.feedSome ws := by
          simp [Pendings.feedSome, hr]
        rw [hskip]
        refine ⟨hsound, habspri, fun x e he hne => ?_, fun x hx => ?_⟩
        · rcases List.mem_cons.mp he with heq | he
          · exact absurd ((Prod.mk.inj heq).2.trans hr) hne
          · exact htold x e he hne
        · exact hsame x fun e he => hx e (List.mem_cons_of_mem _ he)
      · obtain ⟨hsound, habspri, htold, hsame⟩ := ih (p := p.evFeedEvent w r) hs.evFeedEvent hnodup
        have hfeed : p.feedSome ((w, r) :: ws) = (p.evFeedEvent w r).feedSome ws := by
          rw [Pendings.feedSome, List.foldl_cons, if_pos hr]
          rfl
        rw [hfeed]
        rw [evFeedEvent_abspri] at habspri
        refine ⟨hsound, habspri, fun x e he hne => ?_, fun x hx => ?_⟩
        · rcases List.mem_cons.mp he with heq | htail
          · obtain ⟨rfl, rfl⟩ := Prod.mk.inj heq
            rw [hsame x fun e he => absurd he (hout e), hs.told_evFeedEvent,
              Function.update_self]
          · have hxw : x ≠ w := by
              rintro rfl
              exact hout e htail
            rw [htold x e htail hne, hs.told_evFeedEvent, Function.update_of_ne hxw]
        · have hxw : x ≠ w := by
            rintro rfl
            exact hr (hx r List.mem_cons_self)
          rw [hsame x fun e he => hx e (List.mem_cons_of_mem _ he), hs.told_evFeedEvent,
            Function.update_of_ne hxw]

end Operations

end Pendings

end BoostCoro.Libev
