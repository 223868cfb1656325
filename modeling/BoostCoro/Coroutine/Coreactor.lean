import BoostCoro.Coroutine.Types
import BoostCoro.Lib.Fallible
import Mathlib.Logic.Function.Basic
/-!
# Event blocks and the trigger table

The members of `coreactor_t`: the block allocator of `util/linked_allocator.h`,
the events that `libev/event.c` keeps in the blocks, and the map from coroutines
to their event blocks.
-/

namespace BoostCoro.Coroutine

/-- What a table holds after one of its entries was removed. -/
theorem update_none_eq_some {α β : Type} [DecidableEq α] {f : α → Option β} {a x : α} {y : β} :
    Function.update f a none x = some y ↔ x ≠ a ∧ f x = some y := by
  by_cases h : x = a
  · simp [h]
  · simp [h]

/-! ## `linked_allocator_t` -/

/-- `linked_allocator_t<sizeof(event_t)>` with its default chunk size, the free
list as a list of blocks. `fresh` is the next block of the system heap and `held`
collects the blocks that are handed out. -/
structure LinkedAllocator where
  freeBlocks : Nat
  freeList : List Block
  fresh : Block
  held : List Block

namespace LinkedAllocator

def expandBlocks : Nat := 8

def new : LinkedAllocator where
  freeBlocks := 0
  freeList := []
  fresh := 0
  held := []

/-- `expand_free_list`: one block and then one for each turn of the loop. -/
def expandFreeList (a : LinkedAllocator) : LinkedAllocator :=
  { a with
    freeList := List.range' a.fresh (expandBlocks + 1)
    freeBlocks := a.freeBlocks + (expandBlocks + 1)
    fresh := a.fresh + (expandBlocks + 1) }

def ready (a : LinkedAllocator) : LinkedAllocator :=
  if a.freeList = [] then a.expandFreeList else a

def malloc (a : LinkedAllocator) : Block × LinkedAllocator :=
  let a := a.ready
  let head := a.freeList.headD 0
  (head, { a with
    freeList := a.freeList.tail
    freeBlocks := a.freeBlocks - 1
    held := head :: a.held })

/-- `free` of a block that is handed out. -/
def free (a : LinkedAllocator) (b : Block) : LinkedAllocator :=
  if a.freeBlocks ≥ expandBlocks * 2 then { a with held := a.held.erase b }
  else { a with
    freeList := b :: a.freeList
    freeBlocks := a.freeBlocks + 1
    held := a.held.erase b }

/-- The free list and the handed out blocks are disjoint and below `fresh`. -/
structure WellFormed (a : LinkedAllocator) : Prop where
  nodup : (a.freeList ++ a.held).Nodup
  below : ∀ b ∈ a.freeList ++ a.held, b < a.fresh

theorem new_wellFormed : new.WellFormed where
  nodup := List.nodup_nil
  below := fun _ h => absurd h List.not_mem_nil

theorem ready_freeList_ne_nil (a : LinkedAllocator) : a.ready.freeList ≠ [] := by
  unfold ready
  by_cases hnil : a.freeList = []
  · rw [if_pos hnil]
    simp [expandFreeList, List.range'_succ]
  · rwa [if_neg hnil]

@[simp] theorem ready_held (a : LinkedAllocator) : a.ready.held = a.held := by
  unfold ready
  split <;> rfl

theorem WellFormed.ready {a : LinkedAllocator} (h : a.WellFormed) : a.ready.WellFormed := by
  unfold LinkedAllocator.ready
  by_cases hnil : a.freeList = []
  · have hheld : ∀ b ∈ a.held, b < a.fresh := fun b hb =>
      h.below b (List.mem_append_right _ hb)
    rw [if_pos hnil]
    constructor
    · refine List.nodup_append.mpr ⟨List.nodup_range', (List.nodup_append.mp h.nodup).2.1, ?_⟩
      intro x hx y hy hxy
      have hle := (List.mem_range'_1.mp hx).1
      exact absurd (hheld y hy) (Nat.not_lt.mpr (hxy ▸ hle))
    · intro b hb
      rcases List.mem_append.mp hb with hb | hb
      · exact (List.mem_range'_1.mp hb).2
      · exact Nat.lt_of_lt_of_le (hheld b hb) (Nat.le_add_right _ _)
  · rwa [if_neg hnil]

theorem malloc_held (a : LinkedAllocator) : a.malloc.2.held = a.malloc.1 :: a.held := by
  simp [malloc]

/-- The block that `malloc` gives was not handed out. -/
theorem WellFormed.malloc_fresh {a : LinkedAllocator} (h : a.WellFormed) :
    a.malloc.1 ∉ a.held := by
  have hdisj := (List.nodup_append.mp h.ready.nodup).2.2
  obtain ⟨b, rest, hlist⟩ := List.exists_cons_of_ne_nil a.ready_freeList_ne_nil
  intro hmem
  have hb : a.malloc.1 = b := by simp [malloc, hlist]
  rw [hb, ← a.ready_held] at hmem
  exact hdisj b (hlist ▸ List.mem_cons_self) b hmem rfl

theorem WellFormed.malloc {a : LinkedAllocator} (h : a.WellFormed) :
    a.malloc.2.WellFormed := by
  obtain ⟨b, rest, hlist⟩ := List.exists_cons_of_ne_nil a.ready_freeList_ne_nil
  have hperm : (rest ++ b :: a.ready.held).Perm (a.ready.freeList ++ a.ready.held) := by
    rw [hlist]
    exact List.perm_middle
  constructor
  · have hnodup := hperm.nodup_iff.mpr h.ready.nodup
    simpa [LinkedAllocator.malloc, hlist] using hnodup
  · intro x hx
    refine h.ready.below x (hperm.mem_iff.mp ?_)
    simpa [LinkedAllocator.malloc, hlist] using hx

theorem free_held (a : LinkedAllocator) (b : Block) : (a.free b).held = a.held.erase b := by
  unfold free
  split <;> rfl

theorem WellFormed.free {a : LinkedAllocator} {b : Block} (h : a.WellFormed)
    (hb : b ∈ a.held) : (a.free b).WellFormed := by
  have hperm : (b :: (a.freeList ++ a.held.erase b)).Perm (a.freeList ++ a.held) :=
    List.perm_middle.symm.trans ((List.perm_cons_erase hb).symm.append_left _)
  have hnodup := hperm.nodup_iff.mpr h.nodup
  have hbelow : ∀ x ∈ b :: (a.freeList ++ a.held.erase b), x < a.fresh := fun x hx =>
    h.below x (hperm.mem_iff.mp hx)
  unfold LinkedAllocator.free
  split
  · exact ⟨(List.nodup_cons.mp hnodup).2, fun x hx => hbelow x (List.mem_cons_of_mem _ hx)⟩
  · exact ⟨hnodup, hbelow⟩

end LinkedAllocator

/-! ## libev events -/

/-- `struct event`, with whether its signal or I/O watcher and its timer are
active. The callback is always `_cb_evt`. -/
structure Event where
  evFd : Int
  evEvents : EventMask
  evArg : CoroId
  iosigActive : Bool
  toActive : Bool
  /-- `EVLIST_ACTIVE` of `ev_flags`: the event is registered -/
  active : Bool
  deriving DecidableEq, Repr

/-- The watcher whose callback libev runs. -/
inductive Watcher where
  | iosig
  | «to»
  deriving DecidableEq, Repr

namespace Event

/-- `event_set`. -/
def set (fd : Int) (events : EventMask) (arg : CoroId) : Event where
  evFd := fd
  evEvents := events
  evArg := arg
  iosigActive := false
  toActive := false
  active := false

/-- Whether `event_add` and `event_del` find a signal or I/O watcher to start or
stop. -/
def watches (e : Event) : Bool :=
  hasBit e.evEvents evSignal || hasBit e.evEvents (evRead ||| evWrite)

/-- `event_add(ev, tv)`; `timed` is whether `tv` is not null. -/
def add (e : Event) (timed : Bool) : Event :=
  { e with iosigActive := e.iosigActive || e.watches, toActive := timed, active := true }

/-- `event_del`. -/
def del (e : Event) : Event :=
  { e with iosigActive := e.iosigActive && !e.watches, toActive := false, active := false }

/-- Whether libev may call back for a watcher with these `revents`: the watcher
is active and what it watches for occurred. -/
def mayFire (e : Event) (revents : EventMask) : Watcher → Bool
  | .iosig =>
    e.iosigActive &&
      if hasBit e.evEvents evSignal then revents == evSignal
      else revents != 0 && revents &&& (e.evEvents &&& (evRead ||| evWrite)) == revents
  | .to => e.toActive && revents == evTimeout

/-- What `ev_x_cb_sig`, `ev_x_cb_io` and `ev_x_cb_to` do to the event before they
call back. -/
def fire (e : Event) : Watcher → Event
  | .iosig =>
    if hasBit e.evEvents evSignal then e
    else if hasBit e.evEvents evPersist then e
    else e.del
  | .to => e.del

@[simp] theorem fire_evArg (e : Event) (w : Watcher) : (e.fire w).evArg = e.evArg := by
  cases w with
  | iosig =>
      simp only [fire]
      split
      · rfl
      · split <;> rfl
  | «to» => rfl

end Event

/-! ## `coreactor_t` -/

/-- The members of `coreactor_t`. A null pointer in `_triggers` is `some none`;
`event b` is what `event_set` and `event_add` made of the block `b` since it was
handed out. -/
structure Coreactor where
  triggers : CoroId → Option (Option Block)
  eventAllocator : LinkedAllocator
  event : Block → Option Event

namespace Coreactor

def new : Coreactor where
  triggers := fun _ => none
  eventAllocator := .new
  event := fun _ => none

/-- `_event_allocator.malloc(sizeof(event_t))`; the block holds no event yet. -/
def malloc (r : Coreactor) : Block × Coreactor :=
  (r.eventAllocator.malloc.1,
    { r with
      eventAllocator := r.eventAllocator.malloc.2
      event := Function.update r.event r.eventAllocator.malloc.1 none })

/-- `_event_allocator.free(ptr)`; the allocator links the block into its list,
so it no longer holds an event. -/
def free (r : Coreactor) : Option Block → Except Fault Coreactor
  | none => .ok r
  | some b =>
    if b ∈ r.eventAllocator.held then
      .ok { r with
        eventAllocator := r.eventAllocator.free b
        event := Function.update r.event b none }
    else .error .doubleFree

/-- `event_base_set`, `event_set` and `event_add` on a block just handed out. -/
def register (r : Coreactor) (b : Block) (e : Event) (timed : Bool) : Coreactor :=
  { r with event := Function.update r.event b (some (e.add timed)) }

/-- `event_del(ptr)`. -/
def eventDel (r : Coreactor) : Option Block → Except Fault Coreactor
  | none => .error .nullPointer
  | some b =>
    match r.event b with
    | none => .error .badEvent
    | some e => .ok { r with event := Function.update r.event b (some e.del) }

/-- `_triggers.insert(std::make_pair(c, event))`, which keeps an entry that is
there. -/
def insert (r : Coreactor) (c : CoroId) (b : Block) : Coreactor :=
  match r.triggers c with
  | none => { r with triggers := Function.update r.triggers c (some (some b)) }
  | some _ => r

/-- `_triggers.erase(c)`. -/
def erase (r : Coreactor) (c : CoroId) : Coreactor :=
  { r with triggers := Function.update r.triggers c none }

variable {r r' : Coreactor} {b : Block}

theorem eventDel_ok {ptr : Option Block} (h : r.eventDel ptr = .ok r') :
    ∃ b e, ptr = some b ∧ r.event b = some e ∧
      r' = { r with event := Function.update r.event b (some e.del) } := by
  cases ptr with
  | none => cases h
  | some b =>
      simp only [eventDel] at h
      split at h
      · cases h
      next e he => exact ⟨b, e, rfl, he, (Except.ok.inj h).symm⟩

theorem free_ok (h : r.free (some b) = .ok r') :
    b ∈ r.eventAllocator.held ∧
      r' = { r with
        eventAllocator := r.eventAllocator.free b
        event := Function.update r.event b none } := by
  simp only [free] at h
  split at h
  next hheld => exact ⟨hheld, (Except.ok.inj h).symm⟩
  next => cases h

end Coreactor

end BoostCoro.Coroutine
