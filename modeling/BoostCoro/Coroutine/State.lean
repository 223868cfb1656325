import BoostCoro.Coroutine.Coreactor
/-!
# The state of a thread of coroutines

`this_cothread_data_t` and the members of every `coroutine_base_t`. Each context
has a stack of the calls that are in progress in it; a call is a frame with the
place it has reached, so that any other code can run between two steps of it.
-/

namespace BoostCoro.Coroutine

/-! ## Frames -/

inductive ResumePc where
  | entry
  /-- past the pass over the children of `coro` -/
  | transfer
  /-- in `coro->transfer` -/
  | back
  deriving DecidableEq, Repr

inductive YieldPc where
  | childs
  /-- in `transfer_pre` -/
  | back
  deriving DecidableEq, Repr

inductive ExecutePc where
  | entry
  /-- in `_coro_function` -/
  | body
  | childs
  | back
  deriving DecidableEq, Repr

/-- A call in progress. `self` is the object of a member function, or `none` for
the function of `this_coroutine` when there is no current coroutine. -/
inductive Frame where
  | resume (self : Ctx) (coro : CoroId) (pc : ResumePc)
  /-- `loop` turns are left; `child` was popped and is being resumed -/
  | resumeChilds (self : Ctx) (cur : Ctx) (loop : Nat) (child : Option CoroId)
  /-- `while (!_main_childs.empty()) resume_childs();` -/
  | resumeAll
  | yield (self : CoroId) (pc : YieldPc)
  | execute (self : CoroId) (pc : ExecutePc)
  /-- the loop of a blocking `mget` -/
  | mget (self : CoroId)
  /-- `set_io`, `set_timeout` or `set_signal` of `coro`, past its `yield` -/
  | wait (coro : CoroId) (spec : WaitSpec) (event : Block)
  deriving DecidableEq, Repr

/-! ## Scheduling state -/

/-- The part of the state that decides who runs. `pool` lists the objects that
are constructed and not destroyed; `attached` remembers which of them were given
to `child`. -/
structure Sched where
  pool : List CoroId
  stat : CoroId → StatT
  coroPre : CoroId → Ctx
  coroParent : CoroId → Option CoroId
  coroChilds : Ctx → List CoroId
  currentCoroutine : Ctx
  running : Ctx
  stack : Ctx → List Frame
  attached : CoroId → Bool

namespace Sched

def init : Sched where
  pool := []
  stat := fun _ => 0
  coroPre := fun _ => none
  coroParent := fun _ => none
  coroChilds := fun _ => []
  currentCoroutine := none
  running := none
  stack := fun _ => []
  attached := fun _ => false

def checkLive (s : Sched) (c : CoroId) : Except Fault Unit :=
  if c ∈ s.pool then .ok () else .error .destroyed

def setStat (s : Sched) (c : CoroId) (v : StatT) : Sched :=
  { s with stat := Function.update s.stat c v }

/-- Replace the stack of the running context. -/
def setStack (s : Sched) (fs : List Frame) : Sched :=
  { s with stack := Function.update s.stack s.running fs }

/-- Call a function in the running context. -/
def push (s : Sched) (f : Frame) : Sched := s.setStack (f :: s.stack s.running)

def setChilds (s : Sched) (owner : Ctx) (l : List CoroId) : Sched :=
  { s with coroChilds := Function.update s.coroChilds owner l }

/-- The constructor, in memory of the object pool. -/
def construct (s : Sched) (c : CoroId) : Sched :=
  { s with
    pool := c :: s.pool
    stat := Function.update s.stat c coroStatInit
    coroPre := Function.update s.coroPre c none
    coroParent := Function.update s.coroParent c none
    coroChilds := Function.update s.coroChilds (some c) []
    stack := Function.update s.stack (some c) []
    attached := Function.update s.attached c false }

/-- `destroy_coroutine`. -/
def destroy (s : Sched) (c : CoroId) : Sched :=
  { s with pool := s.pool.erase c }

/-- `coro_context()`: on first use a context that will call `execute`. -/
def coroContext (s : Sched) (c : CoroId) : Sched :=
  if s.stack (some c) = [] then
    { s with stack := Function.update s.stack (some c) [.execute c .entry] }
  else s

/-- `coro_transfer(prev, next)`: what runs is saved in `prev`. -/
def coroTransfer (s : Sched) (prev next : Ctx) : Sched :=
  { s with
    stack := Function.update s.stack prev (s.stack s.running)
    running := next }

/-- INIT => WAIT. -/
def initToWait (s : Sched) (c : CoroId) : Sched :=
  if s.stat c = coroStatInit then s.setStat c (s.stat c <<< 1) else s

/-- `coro->transfer(coro_pre)`. -/
def transfer (s : Sched) (c : CoroId) (coroPre : Ctx) : Except Fault Sched := do
  s.checkLive c
  let s := s.initToWait c
  if s.stat c ≠ coroStatWait then .error .assertTransfer
  else
    let s := s.setStat c (s.stat c <<< 1)
    let s := { s with
      currentCoroutine := some c
      coroPre := Function.update s.coroPre c coroPre }
    match coroPre with
    | none => .ok ((s.coroContext c).coroTransfer none (some c))
    | some p => do
      s.checkLive p
      let s := s.setStat p (s.stat p >>> 1)
      .ok (((s.coroContext p).coroContext c).coroTransfer (some p) (some c))

/-- BUSY => WAIT. -/
def busyToWait (s : Sched) (c : CoroId) : Sched :=
  if s.stat c = coroStatBusy then s.setStat c (s.stat c >>> 1) else s

/-- `self->transfer_pre()`. -/
def transferPre (s : Sched) (self : CoroId) : Except Fault Sched := do
  s.checkLive self
  let s := s.busyToWait self
  match s.coroPre self with
  | none =>
    let s := { s with currentCoroutine := none }
    .ok ((s.coroContext self).coroTransfer (some self) none)
  | some p => do
    let s := { s with currentCoroutine := some p }
    s.checkLive p
    if s.stat p ≠ coroStatWait then .error .assertTransferPre
    else
      let s := s.setStat p (s.stat p <<< 1)
      .ok (((s.coroContext self).coroContext p).coroTransfer (some self) (some p))

end Sched

/-! ## Flags and messages -/

/-- The two flag words of a coroutine, `_evet` and `_msg`. -/
inductive FlagWord where
  | evet
  | msg
  deriving DecidableEq, Repr

namespace FlagWord

def wait : FlagWord → StatT
  | evet => coroEvetWait
  | msg => coroMesgWait

def chld : FlagWord → StatT
  | evet => coroEvetChld
  | msg => coroMesgChld

end FlagWord

structure State extends Sched where
  flags : FlagWord → CoroId → StatT
  coroMessages : CoroId → List MessagePtr
  reactor : Coreactor

namespace State

def init : State where
  toSched := .init
  flags := fun _ _ => 0
  coroMessages := fun _ => []
  reactor := .new

def setStack (s : State) (fs : List Frame) : State :=
  { s with toSched := s.toSched.setStack fs }

def push (s : State) (f : Frame) : State := { s with toSched := s.toSched.push f }

def setChilds (s : State) (owner : Ctx) (l : List CoroId) : State :=
  { s with toSched := s.toSched.setChilds owner l }

def destroy (s : State) (c : CoroId) : State :=
  { s with toSched := s.toSched.destroy c }

def setFlags (s : State) (w : FlagWord) (c : CoroId) (v : StatT) : State :=
  { s with flags := Function.update s.flags w (Function.update (s.flags w) c v) }

/-- `event_chk`, `msg_chk`. -/
def chk (s : State) (w : FlagWord) (c : CoroId) (m : StatT) : Bool :=
  hasBit (s.flags w c) m

/-- Neither `event_chk(CORO_EVET_WAIT)` nor `msg_chk(CORO_MESG_WAIT)`. -/
def waiting (s : State) (c : CoroId) : Bool :=
  s.chk .evet c coroEvetWait || s.chk .msg c coroMesgWait

/-- `event_add`, `msg_add`. The first argument bounds the length of the chain of
parents that the call climbs. -/
def addFlag (w : FlagWord) : Nat → State → CoroId → StatT → Except Fault State
  | 0, _, _, _ => .error .stackOverflow
  | n + 1, s, c, m => do
    s.checkLive c
    let s := s.setFlags w c (s.flags w c ||| m)
    match s.coroParent c with
    | none => .ok s
    | some p => if m = w.wait then .ok s else addFlag w n s p w.chld

/-- More than the length of any chain of distinct parents. -/
def climbFuel (s : State) : Nat := s.pool.length + 1

/-- `_coro_parent->event_add(CORO_EVET_CHLD)` under `if (_coro_parent && ..)`. -/
def notifyParent (s : State) (w : FlagWord) (c : CoroId) : Except Fault State :=
  match s.coroParent c with
  | none => .ok s
  | some p => addFlag w s.climbFuel s p w.chld

/-- `event_set`, `msg_set`. -/
def setFlag (w : FlagWord) (s : State) (c : CoroId) (m : StatT) : Except Fault State := do
  s.checkLive c
  let s := s.setFlags w c (s.flags w c &&& ~~~w.wait ||| m)
  if m = w.wait then .ok s else s.notifyParent w c

/-- The parent is told only of the end of a wait; `tested` is the mask that
shows it. -/
def notifyEnd (s : State) (w : FlagWord) (tested : StatT) (c : CoroId) (m : StatT) :
    Except Fault State :=
  if s.chk w c tested = true ∧ m = w.wait then s.notifyParent w c else .ok s

/-- `event_del`, `msg_del`. -/
def delFlag (w : FlagWord) (tested : StatT) (s : State) (c : CoroId) (m : StatT) :
    Except Fault State := do
  s.checkLive c
  let s ← s.notifyEnd w tested c m
  .ok (s.setFlags w c (s.flags w c &&& ~~~m))

def eventSet (s : State) := setFlag .evet s
def eventAdd (s : State) := addFlag .evet s.climbFuel s
def eventDel (s : State) (c : CoroId) (event : StatT) := delFlag .evet event s c event
def msgSet (s : State) := setFlag .msg s
def msgAdd (s : State) := addFlag .msg s.climbFuel s
def msgDel (s : State) := delFlag .msg coroMesgWait s

/-- The event of clearing a wait flag of `c` in the state `s`. -/
def wokenBy (s : State) (w : FlagWord) (c : CoroId) : List Obs :=
  if s.chk w c w.wait then [.woken c] else []

/-- `c->mput(msg)`. -/
def mput (s : State) (c : CoroId) (m : MessagePtr) : Except Fault (State × List Obs) := do
  let s' ← s.msgDel c coroMesgWait
  .ok ({ s' with coroMessages :=
      Function.update s'.coroMessages c (s'.coroMessages c ++ [m]) },
    s.wokenBy .msg c ++ [.delivered c m])

/-- The loop of `p->mbroadcast(msg)`. -/
def broadcastLoop (p : CoroId) (m : MessagePtr) :
    Nat → State → Except Fault (State × List Obs)
  | 0, s => .ok (s, [])
  | n + 1, s =>
    match s.coroChilds (some p) with
    | [] => .error .nullPointer
    | child :: rest => do
      let s := s.setChilds (some p) rest
      let (s, evs) ← s.mput child m
      let s := s.setChilds (some p) (s.coroChilds (some p) ++ [child])
      let (s, evs') ← broadcastLoop p m n s
      .ok (s, evs ++ evs')

def mbroadcast (s : State) (p : CoroId) (m : MessagePtr) :
    Except Fault (State × List Obs) := do
  s.checkLive p
  broadcastLoop p m (s.coroChilds (some p)).length s

end State

end BoostCoro.Coroutine
