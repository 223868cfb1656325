import BoostCoro.Lib.Transition
import Mathlib.Logic.Function.Basic
/-!
# Cothreads

`cothread_base_t` and the functions of `this_cothread`, with the threads that run
`execute`. A step is taken by one thread: a call of the API by the code of the
user, or what comes next inside such a call or inside `execute`. A join is in
progress between its test of `_joined`, its `pthread_join` and its return, so that
other threads can run between them. The channel of a cothread is left out.
-/

namespace BoostCoro.Cothread

/-- A `cothread_base_t*`. An address is not used again. -/
abbrev CothreadId := Nat

/-- A `pthread_t`. -/
abbrev Pid := Nat

/-- `none` is the main thread. -/
abbrev ThreadId := Option Pid

/-- `cothread_option_t`: its own flag and the detach state in `_pthread_attr`. -/
structure CothreadOption where
  detached : Bool
  attrDetached : Bool
  attrDetached_of_detached : detached = true → attrDetached = true
  deriving DecidableEq, Repr

namespace CothreadOption

/-- The default constructor. -/
def new : CothreadOption := ⟨false, false, fun h => h⟩

/-- `option.detachable(flag)`. A false flag leaves the attribute as it is. -/
def detachable (option : CothreadOption) (flag : Bool) : CothreadOption where
  detached := flag
  attrDetached := flag || option.attrDetached
  attrDetached_of_detached := fun h => by rw [h, Bool.true_or]

/-- Every option is made by the constructor and calls of `detachable`. -/
theorem eq_detachable (option : CothreadOption) :
    option = new ∨ option = new.detachable true ∨
      option = (new.detachable true).detachable false := by
  obtain ⟨detached, attrDetached, h⟩ := option
  cases detached with
  | true =>
      have hattr : attrDetached = true := h rfl
      subst hattr
      exact Or.inr (Or.inl rfl)
  | false =>
      cases attrDetached with
      | true => exact Or.inr (Or.inr rfl)
      | false => exact Or.inl rfl

end CothreadOption

structure CothreadBase where
  runned : Bool
  joined : Bool
  pid : Option Pid
  /-- whether there is a `_cothread_function` -/
  cothreadFunction : Bool
  cothreadChilds : List CothreadId
  deriving DecidableEq, Repr

/-- `this_cothread_core_data_t`, which each thread has for itself. -/
structure CoreData where
  currentCothread : Option CothreadId
  mainCothreadChilds : List CothreadId
  deriving DecidableEq, Repr

/-- What the system knows of a thread: the argument of its `execute`, whether it was
created detached and whether `pthread_join` was called on it. -/
structure Pthread where
  ctx : CothreadId
  detached : Bool
  joined : Bool
  deriving DecidableEq, Repr

/-- A loop over the children: of `this_cothread::join()`, or at the end of `execute`. -/
inductive Loop where
  | join
  | execute (cothread : CothreadId)
  deriving DecidableEq, Repr

/-- Where a thread is. `records` says whether the join sets `_joined` when it returns,
and `loop` in which loop it was called. -/
inductive Control where
  /-- before the first step of `execute` -/
  | start
  /-- in code of the user -/
  | user
  /-- past the test of `_joined` -/
  | calling (c : CothreadId) (records : Bool) (loop : Option Loop)
  /-- in `pthread_join` -/
  | joining (c : CothreadId) (pid : Pid) (records : Bool) (loop : Option Loop)
  | draining (loop : Loop)
  | exited
  deriving DecidableEq, Repr

inductive JoinError where
  | noThread
  | detached
  | joined
  | deadlock
  deriving DecidableEq, Repr

inductive Fault where
  | useAfterFree
  /-- `assert(!pthread_join(..))` -/
  | assertJoin (e : JoinError)
  deriving DecidableEq, Repr

inductive Obs where
  /-- `pthread_create` for `c` -/
  | created (c : CothreadId)
  /-- a thread of `c` is in `execute` -/
  | began (c : CothreadId)
  /-- `pthread_join` on the thread of `c` -/
  | joined (c : CothreadId) (records : Bool)
  deriving DecidableEq, Repr

structure State where
  cothread : CothreadId → Option CothreadBase
  nextCothread : CothreadId
  pthread : Pid → Option Pthread
  nextPid : Pid
  coreData : ThreadId → CoreData
  control : ThreadId → Option Control

abbrev Outcome := Except Fault (State × List Obs)

/-- What a table holds after one of its entries was set. -/
theorem update_eq_some {α β : Type} [DecidableEq α] {f : α → Option β} {a x : α} {b y : β} :
    Function.update f a (some b) x = some y ↔ x = a ∧ b = y ∨ x ≠ a ∧ f x = some y := by
  by_cases h : x = a
  · simp [h]
  · simp [h]

namespace State

/-- The main thread in `main`. -/
def init : State where
  cothread := fun _ => none
  nextCothread := 0
  pthread := fun _ => none
  nextPid := 0
  coreData := fun _ => ⟨none, []⟩
  control := fun t => if t = none then some .user else none

def find (s : State) (c : CothreadId) : Except Fault CothreadBase :=
  match s.cothread c with
  | some o => .ok o
  | none => .error .useAfterFree

def setCothread (s : State) (c : CothreadId) (o : CothreadBase) : State :=
  { s with cothread := Function.update s.cothread c (some o) }

def setControl (s : State) (t : ThreadId) (k : Control) : State :=
  { s with control := Function.update s.control t (some k) }

def setCoreData (s : State) (t : ThreadId) (d : CoreData) : State :=
  { s with coreData := Function.update s.coreData t d }

@[simp] theorem control_setControl (s : State) (t : ThreadId) (k : Control) :
    (s.setControl t k).control = Function.update s.control t (some k) := rfl

/-- `create_cothread`. -/
def createCothread (s : State) (function : Bool) : State :=
  { s with
    cothread := Function.update s.cothread s.nextCothread
      (some ⟨false, false, none, function, []⟩)
    nextCothread := s.nextCothread + 1 }

/-- `destroy_cothread`. -/
def destroyCothread (s : State) (c : CothreadId) : Except Fault State := do
  let _ ← s.find c
  .ok { s with cothread := Function.update s.cothread c none }

/-- The cothread that a thread was created for. -/
def ctx (s : State) (p : Pid) : Option CothreadId := (s.pthread p).map Pthread.ctx

/-! ## `this_cothread` and the lists of children -/

def get (s : State) (t : ThreadId) : Option CothreadId := (s.coreData t).currentCothread

def set (s : State) (t : ThreadId) (cothread : Option CothreadId) : State :=
  s.setCoreData t { s.coreData t with currentCothread := cothread }

/-- `self->child(c)`. -/
def child (s : State) (self c : CothreadId) : Except Fault State := do
  let o ← s.find self
  .ok (s.setCothread self { o with cothreadChilds := o.cothreadChilds ++ [c] })

/-- `self->child()`. -/
def popChild (s : State) (self : CothreadId) : Except Fault (Option CothreadId × State) := do
  let o ← s.find self
  .ok (o.cothreadChilds.head?,
    s.setCothread self { o with cothreadChilds := o.cothreadChilds.tail })

/-- `this_cothread::child(c)`. -/
def thisChild (s : State) (t : ThreadId) (c : CothreadId) : Except Fault State :=
  match s.get t with
  | some self => s.child self c
  | none =>
    let d := s.coreData t
    .ok (s.setCoreData t { d with mainCothreadChilds := d.mainCothreadChilds ++ [c] })

/-- `this_cothread::child()`. -/
def thisPopChild (s : State) (t : ThreadId) : Except Fault (Option CothreadId × State) :=
  match s.get t with
  | some self => s.popChild self
  | none =>
    let d := s.coreData t
    .ok (d.mainCothreadChilds.head?,
      s.setCoreData t { d with mainCothreadChilds := d.mainCothreadChilds.tail })

/-! ## `resume` and `execute` -/

/-- `pthread_create(&_pid, attr, &execute, this)`, with the detach state in `attr`. -/
def pthreadCreate (s : State) (c : CothreadId) (o : CothreadBase) (detached : Bool) : State :=
  { s with
    cothread := Function.update s.cothread c (some { o with pid := some s.nextPid })
    pthread := Function.update s.pthread s.nextPid (some ⟨c, detached, false⟩)
    nextPid := s.nextPid + 1
    control := Function.update s.control (some s.nextPid) (some .start) }

@[simp] theorem control_pthreadCreate (s : State) (c : CothreadId) (o : CothreadBase)
    (detached : Bool) : (s.pthreadCreate c o detached).control =
      Function.update s.control (some s.nextPid) (some .start) := rfl

/-- `c->resume(option)`. -/
def resume (s : State) (c : CothreadId) (option : CothreadOption) : Outcome := do
  let o ← s.find c
  if o.runned then .ok (s, [])
  else
    let o := if option.detached then { o with joined := true } else o
    .ok (s.pthreadCreate c o option.attrDetached, [.created c])

/-- `execute(c)` up to the call of `_cothread_function`. -/
def begin (s : State) (t : ThreadId) (c : CothreadId) : Outcome := do
  let o ← s.find c
  let s := (s.set t (some c)).setCothread c { o with runned := true }
  .ok (s.setControl t (if o.cothreadFunction then .user else .draining (.execute c)),
    [.began c])

/-! ## Joins -/

/-- `pthread_join(pid)`, called by `t`. -/
def pthreadJoin (s : State) (t : ThreadId) (pid : Option Pid) :
    Except JoinError (Pid × State) :=
  match pid with
  | none => .error .noThread
  | some p =>
    match s.pthread p with
    | none => .error .noThread
    | some th =>
      if th.detached then .error .detached
      else if th.joined then .error .joined
      else if t = some p then .error .deadlock
      else .ok (p, { s with
        pthread := Function.update s.pthread p (some { th with joined := true }) })

/-- What follows a join: the code of the user, or `destroy_cothread` and the next turn. -/
def joinReturns (s : State) (t : ThreadId) (c : CothreadId) :
    Option Loop → Except Fault State
  | none => .ok (s.setControl t .user)
  | some loop => do
    let s ← s.destroyCothread c
    .ok (s.setControl t (.draining loop))

/-- `if(!c->_joined)`. -/
def testJoined (s : State) (t : ThreadId) (c : CothreadId) (records : Bool)
    (loop : Option Loop) : Except Fault State := do
  let o ← s.find c
  if o.joined then s.joinReturns t c loop
  else .ok (s.setControl t (.calling c records loop))

/-- `assert(!pthread_join(c->_pid, &retcode))`. -/
def callJoin (s : State) (t : ThreadId) (c : CothreadId) (records : Bool)
    (loop : Option Loop) : Outcome := do
  let o ← s.find c
  match s.pthreadJoin t o.pid with
  | .error e => .error (.assertJoin e)
  | .ok (p, s) => .ok (s.setControl t (.joining c p records loop), [.joined c records])

/-- `c->_joined = true` after `pthread_join`, on the paths that have it. -/
def recordJoined (s : State) (c : CothreadId) : Bool → Except Fault State
  | false => .ok s
  | true => do
    let o ← s.find c
    .ok (s.setCothread c { o with joined := true })

/-- `self->join(child)`. -/
def join (s : State) (t : ThreadId) (self : CothreadId) :
    Option CothreadId → Except Fault State
  | none => s.testJoined t self false none
  | some child => s.testJoined t child true none

/-- `this_cothread::join(child)`. -/
def thisJoin (s : State) (t : ThreadId) : Option CothreadId → Except Fault State
  | none => .ok (s.setControl t (.draining .join))
  | some child =>
    match s.get t with
    | some self => s.join t self (some child)
    | none => s.join t child none

/-- One turn of a loop over the children. -/
def drain (s : State) (t : ThreadId) : Loop → Except Fault State
  | .join => do
    let (co, s) ← s.thisPopChild t
    match co with
    | none => .ok (s.setControl t .user)
    | some co => s.testJoined t co false (some .join)
  | .execute cothread => do
    let (child, s) ← s.popChild cothread
    match child with
    | none => .ok ((s.set t none).setControl t .exited)
    | some child => s.testJoined t child true (some (.execute cothread))

end State

/-! ## Steps -/

/-- The calls that code of the user can make. -/
inductive UserAct where
  | create (function : Bool)
  | destroy (c : CothreadId)
  | resume (c : CothreadId) (option : CothreadOption)
  | child (self c : CothreadId)
  | popChild (self : CothreadId)
  | thisChild (c : CothreadId)
  | thisPopChild
  | join (self : CothreadId) (child : Option CothreadId)
  | thisJoin (child : Option CothreadId)
  /-- the end of a `_cothread_function` -/
  | return (cothread : CothreadId)
  deriving DecidableEq, Repr

inductive Act where
  | user (u : UserAct)
  | lib
  deriving DecidableEq, Repr

namespace State

def silent (x : Except Fault State) : Outcome := do
  let s ← x
  .ok (s, [])

def call (s : State) (t : ThreadId) : UserAct → Outcome
  | .create function => .ok (s.createCothread function, [])
  | .destroy c => silent (s.destroyCothread c)
  | .resume c option => s.resume c option
  | .child self c => silent (s.child self c)
  | .popChild self => silent ((s.popChild self).map Prod.snd)
  | .thisChild c => silent (s.thisChild t c)
  | .thisPopChild => silent ((s.thisPopChild t).map Prod.snd)
  | .join self child => silent (s.join t self child)
  | .thisJoin child => silent (s.thisJoin t child)
  | .return cothread => .ok (s.setControl t (.draining (.execute cothread)), [])

/-- What comes next in `execute` or in a join; `none` while `pthread_join` waits. -/
def proceed (s : State) (t : ThreadId) : Control → Option Outcome
  | .start => (t.bind s.ctx).map (s.begin t)
  | .user => none
  | .calling c records loop => some (s.callJoin t c records loop)
  | .joining c p records loop =>
    if s.control (some p) = some .exited then
      some (silent do
        let s ← s.recordJoined c records
        s.joinReturns t c loop)
    else none
  | .draining loop => some (silent (s.drain t loop))
  | .exited => none

/-- One step of the thread `i.1`. A `_cothread_function` returns to the `execute` that
called it. -/
def step (s : State) (i : ThreadId × Act) : Option Outcome :=
  match s.control i.1, i.2 with
  | some .user, .user (.return cothread) =>
    if s.get i.1 = some cothread then some (s.call i.1 (.return cothread)) else none
  | some .user, .user u => some (s.call i.1 u)
  | some k, .lib => s.proceed i.1 k
  | _, _ => none

end State

/-- The runs of the cothreads of a program whose steps all obey `ok`. -/
abbrev RunOf (ok : State → ThreadId × Act → Prop) (tr : List Obs) (s : State) : Prop :=
  Transition.Run State.step ok State.init tr s

end BoostCoro.Cothread
