import BoostCoro.Libev.Faces
import BoostCoro.Coroutine.Coreactor
/-!
# Events over the event loop

`event_set`, `event_add`, `event_del` and the three callbacks of `libev/event.c`,
which make a `struct event` of an I/O or signal watcher and a timer. Whatever the
loop, the backend and the callbacks do, an event base behaves as the events do that
the reactor of the coroutines is built on: each of its steps is one of theirs, or
none.
-/

namespace BoostCoro.Libev

open Coroutine (hasBit EventMask CoroId)

variable {ι τ : Type}

/-- The members of `struct event` besides its watchers. -/
structure EventFields where
  evFd : Int
  evEvents : EventMask
  evArg : CoroId
  evFlags : BitVec 32
  evRes : Revents
  deriving DecidableEq, Repr

def evlistTimeout : BitVec 32 := 0x01
def evlistInserted : BitVec 32 := 0x02
def evlistSignal : BitVec 32 := 0x04
def evlistActive : BitVec 32 := 0x08
def evlistInit : BitVec 32 := 0x80

/-- A loop whose watchers all belong to events. -/
structure EventBase (ι τ : Type) where
  loop : Loop ι τ
  event : ι → Option EventFields

/-- A call of `ev_callback`, with the watcher it was made for. -/
structure Fired (ι : Type) where
  event : ι
  watcher : Coroutine.Watcher
  fd : Int
  revents : EventMask
  arg : CoroId
  deriving DecidableEq, Repr

/-- `ev_tv_get` of a time that is not null; `usec` is the constant `1e-6`. -/
def evTvGet [Zero τ] [DecidableEq τ] (usec after : τ) : τ := if after ≠ 0 then after else usec

/-- The mask that `ev_x_cb` lets through. -/
def evXMask : Revents := evRead ||| evWrite ||| evTimer ||| evSignal

namespace EventBase

variable [DecidableEq ι]

/-- `ev_init`. -/
def evInit (l : Loop ι τ) (w : Watcher ι) : Loop ι τ :=
  let l := { l with queue := { l.queue with
    pending := Function.update l.queue.pending w 0
    abspri := Function.update l.queue.abspri w defaultPri } }
  match w with
  | .io e => { l with fds := { l.fds with active := Function.update l.fds.active e 0 } }
  | .sig e =>
    { l with signals := { l.signals with active := Function.update l.signals.active e 0 } }
  | .timer e => { l with timers := { l.timers with timers := { l.timers.timers with
      active := Function.update l.timers.timers.active e 0 } } }

/-- `event_set`. -/
def eventSet (s : EventBase ι τ) (e : ι) (fd : Int) (events : EventMask) (arg : CoroId) :
    EventBase ι τ where
  loop := evInit (evInit s.loop (if hasBit events Coroutine.evSignal then .sig e else .io e))
    (.timer e)
  event := Function.update s.event e (some
    { evFd := fd, evEvents := events, evArg := arg, evFlags := evlistInit, evRes := 0 })

variable [LinearOrder τ] [Add τ] [Sub τ] [Zero τ]

/-- The first part of `event_add`: the watcher for the descriptor or the signal. -/
def addIosig (l : Loop ι τ) (e : ι) (f : EventFields) :
    Except Fault (Loop ι τ × EventFields) :=
  if hasBit f.evEvents Coroutine.evSignal then
    if l.signals.active e = 0 then do
      let l ← (l.evSignalSet e f.evFd).evSignalStart e
      .ok (l, { f with evFlags := f.evFlags ||| evlistSignal })
    else .ok (l, f)
  else if hasBit f.evEvents (Coroutine.evRead ||| Coroutine.evWrite) then
    if l.fds.active e = 0 then do
      let l ← (l.evIoSet e f.evFd
        ((f.evEvents &&& (Coroutine.evRead ||| Coroutine.evWrite)).setWidth 32)).evIoStart e
      .ok (l, { f with evFlags := f.evFlags ||| evlistInserted })
    else .ok (l, f)
  else .ok (l, f)

/-- The second part: the timer, for a `tv` that is not null. -/
def addTimeout (usec : τ) (l : Loop ι τ) (e : ι) (f : EventFields) :
    Option τ → Except Fault (Loop ι τ × EventFields)
  | some tv => do
    let l ← (l.setRepeat e (evTvGet usec tv)).evTimerAgain e
    .ok (l, { f with evFlags := f.evFlags ||| evlistTimeout })
  | none => do
    let l ← l.evTimerStop e
    .ok (l, { f with evFlags := f.evFlags &&& ~~~evlistTimeout })

/-- `event_add`. -/
def eventAdd (usec : τ) (s : EventBase ι τ) (e : ι) (f : EventFields) (tv : Option τ) :
    Except Fault (EventBase ι τ) := do
  let (l, f) ← addIosig s.loop e f
  let (loop, f) ← addTimeout usec l e f tv
  let f := { f with evFlags := f.evFlags ||| evlistActive }
  .ok { loop, event := Function.update s.event e (some f) }

/-- The first part of `event_del`. -/
def delIosig (l : Loop ι τ) (e : ι) (f : EventFields) : Except Fault (Loop ι τ) :=
  if hasBit f.evEvents Coroutine.evSignal then .ok (l.evSignalStop e)
  else if hasBit f.evEvents (Coroutine.evRead ||| Coroutine.evWrite) then l.evIoStop e
  else .ok l

/-- The second part. -/
def delTimeout (l : Loop ι τ) (e : ι) : Except Fault (Loop ι τ) :=
  if l.timers.timers.active e ≠ 0 then l.evTimerStop e else .ok l

/-- `event_del`. -/
def eventDel (s : EventBase ι τ) (e : ι) (f : EventFields) : Except Fault (EventBase ι τ) := do
  let l ← delIosig s.loop e f
  let loop ← delTimeout l e
  .ok { loop, event := Function.update s.event e (some { f with evFlags := evlistInit }) }

/-- `ev_x_cb`. -/
def evXCb (s : EventBase ι τ) (e : ι) (watcher : Coroutine.Watcher) (revents : Revents) :
    Option (EventBase ι τ × List (Fired ι)) :=
  match s.event e with
  | none => none
  | some f =>
    let revents := revents &&& evXMask
    some ({ s with event := Function.update s.event e (some { f with evRes := revents }) },
      [⟨e, watcher, f.evFd, revents.setWidth 16, f.evArg⟩])

/-- `ev_x_cb_sig`, `ev_x_cb_io` and `ev_x_cb_to`: whether the event is deleted before its
callback is called. -/
def deletes (f : EventFields) (revents : Revents) : Watcher ι → Bool
  | .sig _ => revents &&& evError != 0
  | .io _ => revents &&& evError != 0 || !hasBit f.evEvents Coroutine.evPersist
  | .timer _ => true

/-- The event of a watcher, and which of its watchers it is. -/
def owner : Watcher ι → ι × Coroutine.Watcher
  | .sig e => (e, .iosig)
  | .io e => (e, .iosig)
  | .timer e => (e, .to)

/-- `ev_invoke_pending` takes a slot and calls `ev_x_cb_sig`, `ev_x_cb_io` or `ev_x_cb_to`. -/
def invoke (s : EventBase ι τ) (pri : Fin numpri) :
    Option (Except Fault (EventBase ι τ × List (Fired ι))) :=
  match s.loop.queue.takeLast pri with
  | none => none
  | some (⟨none, _⟩, queue) => some (.ok ({ s with loop := { s.loop with queue } }, []))
  | some (⟨some w, revents⟩, queue) =>
    let s := { s with loop := { s.loop with queue } }
    match s.event (owner w).1 with
    | none => none
    | some f =>
      match if deletes f revents w then s.eventDel (owner w).1 f else .ok s with
      | .error fault => some (.error fault)
      | .ok s => (s.evXCb (owner w).1 (owner w).2 revents).map .ok

end EventBase

/-- The calls of `event.c`, and the steps of `ev_run`. -/
inductive EventAct (ι τ : Type) where
  | eventSet (e : ι) (fd : Int) (events : EventMask) (arg : CoroId)
  | eventAdd (e : ι) (tv : Option τ)
  | eventDel (e : ι)
  | evRun (i : LoopAct ι τ)
  | invoke (pri : Fin numpri)
  deriving DecidableEq

namespace EventAct

/-- The backend finds a descriptor unusable. -/
def kills : EventAct ι τ → Bool
  | .evRun (.fdKill _) => true
  | _ => false

/-- The call adds the event. -/
def adds [DecidableEq ι] (e : ι) : EventAct ι τ → Bool
  | .eventAdd e' _ => e' = e
  | _ => false

/-- The call deletes the event. -/
def dels [DecidableEq ι] (e : ι) : EventAct ι τ → Bool
  | .eventDel e' => e' = e
  | _ => false

/-- The monotonic clock does not go back. -/
def forward [LinearOrder τ] (mnNow : τ) : EventAct ι τ → Bool
  | .evRun (.timeUpdate mnNow') => mnNow ≤ mnNow'
  | _ => true

end EventAct

namespace EventBase

/-- None of the watchers of the name is active or pending. -/
def Idle (l : Loop ι τ) (e : ι) : Prop :=
  (l.fds.active e = 0 ∧ l.queue.pending (.io e) = 0) ∧
    (l.signals.active e = 0 ∧ l.queue.pending (.sig e) = 0) ∧
    l.timers.timers.active e = 0 ∧ l.queue.pending (.timer e) = 0

instance (l : Loop ι τ) (e : ι) : Decidable (Idle l e) :=
  inferInstanceAs (Decidable (_ ∧ _ ∧ _))

variable [DecidableEq ι] [LinearOrder τ] [Add τ] [Sub τ] [Zero τ]

def init (mnNow : τ) (heap : Nat → Anhe ι τ) : EventBase ι τ where
  loop := .init (fun _ => defaultPri) mnNow heap
  event _ := none

/-- The steps of an event base. An event is set only in memory that no watcher uses. -/
def step (usec : τ) : Transition.StepFn (EventBase ι τ) (EventAct ι τ) Fault (Fired ι) :=
  fun s i =>
    match i with
    | .eventSet e fd events arg =>
      if Idle s.loop e then some (.ok (s.eventSet e fd events arg, [])) else none
    | .eventAdd e tv =>
      match s.event e with
      | none => none
      | some f => some ((s.eventAdd usec e f tv).map (·, []))
    | .eventDel e =>
      match s.event e with
      | none => none
      | some f => some ((s.eventDel e f).map (·, []))
    | .evRun i =>
      if i.IsBackend then
        match s.loop.step i with
        | none => none
        | some r => some (r.map fun q => ({ s with loop := q.1 }, []))
      else none
    | .invoke pri => s.invoke pri

end EventBase

end BoostCoro.Libev
