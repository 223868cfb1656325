import BoostCoro.Libev.Heap
import BoostCoro.Libev.Pending
import Mathlib.Data.Finset.Card
import Mathlib.Data.List.Nodup
/-!
# The event loop of libev

The members of `struct ev_loop` and the fields of the watchers that the loop
writes, for I/O, signal and timer watchers. Time stamps are any linear order with
addition and subtraction about which nothing else is known, so that what is
proved holds for doubles that round.
-/

namespace BoostCoro.Libev

/-- The watchers of a loop, by the kind of the watcher and its name. -/
inductive Watcher (ι : Type) where
  | io (w : ι)
  | sig (w : ι)
  | timer (w : ι)
  deriving DecidableEq, Repr

/-- The assertions of `libev/ev.c` that can end the program. -/
inductive Fault where
  | negativeFd
  | illegalEventMask
  | illegalSignal
  | negativeRepeat
  | heapCorruption
  /-- the model's bound on the turns of a loop was too small -/
  | spins
  deriving DecidableEq, Repr

def evRead : Revents := 0x01
def evWrite : Revents := 0x02
def evTimer : Revents := 0x100
def evSignal : Revents := 0x400
def evError : Revents := 0x80000000

/-- `EV__IOFDSET`: set by `ev_io_set`, the descriptor may be another one. -/
def evIofdset : Revents := 0x80

/-- The timer watchers and the heap of those that are active. -/
structure Timers (ι τ : Type) where
  timers : Heap ι τ
  timercnt : Nat
  evAt : ι → τ
  evRepeat : ι → τ
  mnNow : τ

/-- `ANFD`; the list of watchers from `head` along `next`. -/
structure Anfd (ι : Type) where
  head : List ι
  events : BitVec 8
  reify : BitVec 8
  deriving DecidableEq, Repr

/-- The I/O watchers and the file descriptors they are for. `interest` is what the backend
was told last about each descriptor. -/
structure Fds (ι : Type) where
  active : ι → Nat
  fd : ι → Int
  events : ι → Revents
  anfds : Nat → Anfd ι
  fdchanges : List Nat
  interest : Nat → BitVec 8

/-- The signal watchers, and of each signal, counted from 0, the `head` and the `pending`
field of its `ANSIG` and whether `ev_sighandler` is installed for it. `ANSIG` names the loop
as long as the list is not empty. -/
structure Signals (ι : Type) where
  active : ι → Nat
  signum : ι → Int
  head : Nat → List ι
  pending : Nat → Bool
  handled : Nat → Bool
  sigPending : Bool

structure Loop (ι τ : Type) where
  queue : Pendings (Watcher ι)
  timers : Timers ι τ
  fds : Fds ι
  signals : Signals ι
  activecnt : Int

namespace Loop

variable {ι τ : Type} [DecidableEq ι]

/-- `ev_is_active` is whether this is not 0. -/
def active (l : Loop ι τ) : Watcher ι → Nat
  | .io w => l.fds.active w
  | .sig w => l.signals.active w
  | .timer w => l.timers.timers.active w

def clearPending (l : Loop ι τ) (w : Watcher ι) : Loop ι τ :=
  { l with queue := l.queue.clearPending w }

def evFeedEvent (l : Loop ι τ) (w : Watcher ι) (revents : Revents) : Loop ι τ :=
  { l with queue := l.queue.evFeedEvent w revents }

/-- `ev_ref` and `ev_unref`. -/
def evRef (l : Loop ι τ) : Loop ι τ := { l with activecnt := l.activecnt + 1 }

def evUnref (l : Loop ι τ) : Loop ι τ := { l with activecnt := l.activecnt - 1 }

/-- `feed_reverse_done`: feed what was queued by `feed_reverse`, the last first. -/
def feedReverseDone (l : Loop ι τ) (rfeeds : List (Watcher ι)) (revents : Revents) : Loop ι τ :=
  rfeeds.foldr (fun w l => l.evFeedEvent w revents) l

theorem feedReverseDone_eq (l : Loop ι τ) (rfeeds : List (Watcher ι)) (revents : Revents) :
    l.feedReverseDone rfeeds revents = { l with queue := l.queue.feedAll rfeeds revents } := by
  unfold feedReverseDone Pendings.feedAll
  induction rfeeds with
  | nil => rfl
  | cons w rfeeds ih =>
      rw [List.foldr_cons, ih]
      rfl

/-- `activecnt` counts the active watchers. -/
def Counted (l : Loop ι τ) : Prop :=
  ∃ s : Finset (Watcher ι), (∀ w, w ∈ s ↔ l.active w ≠ 0) ∧ l.activecnt = s.card

section Counted

variable {l l' : Loop ι τ} {w : Watcher ι}

omit [DecidableEq ι] in
theorem Counted.same (h : l.Counted) (hactive : ∀ x, l'.active x ≠ 0 ↔ l.active x ≠ 0)
    (hcount : l'.activecnt = l.activecnt) : l'.Counted := by
  obtain ⟨s, hs, hcard⟩ := h
  exact ⟨s, fun x => (hs x).trans (hactive x).symm, hcount.trans hcard⟩

theorem Counted.start (h : l.Counted) (hw : l.active w = 0)
    (hactive : ∀ x, l'.active x ≠ 0 ↔ x = w ∨ l.active x ≠ 0)
    (hcount : l'.activecnt = l.activecnt + 1) : l'.Counted := by
  obtain ⟨s, hs, hcard⟩ := h
  have hout : w ∉ s := fun hmem => (hs w).mp hmem hw
  refine ⟨insert w s, fun x => ?_, ?_⟩
  · rw [Finset.mem_insert, hs, hactive]
  · rw [Finset.card_insert_of_notMem hout, hcount, hcard]
    rfl

/-- Several watchers stop. -/
theorem Counted.stopAll {ws : List (Watcher ι)} (h : l.Counted) (hws : ws.Nodup)
    (hon : ∀ w ∈ ws, l.active w ≠ 0)
    (hactive : ∀ x, l'.active x ≠ 0 ↔ x ∉ ws ∧ l.active x ≠ 0)
    (hcount : l'.activecnt = l.activecnt - ws.length) : l'.Counted := by
  obtain ⟨s, hs, hcard⟩ := h
  have hsub : ws.toFinset ⊆ s := fun w hw => (hs w).mpr (hon w (List.mem_toFinset.mp hw))
  refine ⟨s \ ws.toFinset, fun x => ?_, ?_⟩
  · rw [Finset.mem_sdiff, List.mem_toFinset, hs, hactive, and_comm]
  · have hle := Finset.card_le_card hsub
    rw [Finset.card_sdiff_of_subset hsub, List.toFinset_card_of_nodup hws, hcount, hcard]
    rw [List.toFinset_card_of_nodup hws] at hle
    omega

theorem Counted.stop (h : l.Counted) (hw : l.active w ≠ 0)
    (hactive : ∀ x, l'.active x ≠ 0 ↔ x ≠ w ∧ l.active x ≠ 0)
    (hcount : l'.activecnt = l.activecnt - 1) : l'.Counted := by
  refine h.stopAll (List.nodup_singleton w) ?_ (fun x => ?_) hcount
  · rintro x hx
    exact List.mem_singleton.mp hx ▸ hw
  · rw [List.mem_singleton, hactive]

end Counted

end Loop

end BoostCoro.Libev
