import BoostCoro.Coroutine.State
import BoostCoro.Lib.Transition
/-!
# The coroutine machine

One step of the machine runs the innermost call of the running context up to its
next call or switch of context, or, when that context is in user code, makes one
call of the API on behalf of the user. A callback of libev is such a call, as the
event loop is run from user code.
-/

namespace BoostCoro.Coroutine

/-- The outcome of a call: the state after it and the events it emits. -/
abbrev Outcome := Except Fault (State × List Obs)

namespace State

/-! ## `resume_childs` -/

/-- The object whose member function a function of `this_coroutine` calls. -/
def dispatch (s : State) : Ctx → Ctx
  | some q => some q
  | none => s.currentCoroutine

def checkOwner (s : State) : Ctx → Except Fault Unit
  | none => .ok ()
  | some d => s.checkLive d

/-- Enter the loop of `resume_childs` over the list of `cur`. -/
def enterPass (s : State) (self cur : Ctx) : State × List Obs :=
  (s.push (.resumeChilds self cur (s.coroChilds cur).length none), [.passBegin cur])

/-- `q->resume_childs(coro)`. -/
def callResumeChildsOf (s : State) (q : CoroId) (coro : Option CoroId) : Outcome :=
  let cur := coro.getD q
  if coro = some q ∧ s.chk .evet cur coroEvetChld = false ∧
      s.chk .msg cur coroEvetChld = false then .ok (s, [])
  else do
    let s ← s.eventDel cur coroEvetChld
    let s ← s.msgDel cur coroMesgChld
    .ok (s.enterPass (some q) (some cur))

/-- `resume_childs(coro)`, of `self` or of `this_coroutine`. -/
def callResumeChilds (s : State) (self : Ctx) (coro : Option CoroId) : Outcome :=
  match self with
  | some q => s.callResumeChildsOf q coro
  | none => do
    s.checkOwner coro
    .ok (s.enterPass none coro)

/-- The loop condition and the first half of the body. -/
def passTurn (s : State) (self cur : Ctx) (loop : Nat) (rest : List Frame) : Outcome :=
  match loop with
  | 0 => .ok (s.setStack rest, [.passEnd cur])
  | loop + 1 => do
    s.checkOwner cur
    match s.coroChilds cur with
    | [] => .error .nullPointer
    | child :: childs => do
      let s := s.setChilds cur childs
      s.checkLive child
      if s.stat child = coroStatDone then
        .ok ((s.destroy child).setStack (.resumeChilds self cur loop none :: rest),
          [.destroyed child])
      else
        .ok (s.setStack (.resume (s.dispatch self) child .entry ::
          .resumeChilds self cur loop (some child) :: rest), [])

/-- The second half of the body, after `resume(child)`. -/
def passBack (s : State) (self cur : Ctx) (loop : Nat) (child : CoroId)
    (rest : List Frame) : Outcome := do
  s.checkLive child
  let s := s.setStack (.resumeChilds self cur loop none :: rest)
  if s.stat child = coroStatDone then .ok (s.destroy child, [.destroyed child])
  else do
    s.checkOwner cur
    .ok (s.setChilds cur (s.coroChilds cur ++ [child]), [])

/-! ## `resume`, `yield` and `execute` -/

def resumeEntry (s : State) (self : Ctx) (coro : CoroId) (rest : List Frame) : Outcome := do
  s.checkLive coro
  if s.stat coro = coroStatDone then .ok (s.setStack rest, [])
  else if hasBit (s.stat coro) (coroStatInit ||| coroStatWait) then
    let s := s.setStack (.resume self coro .transfer :: rest)
    if s.chk .evet coro coroEvetChld || s.chk .msg coro coroMesgChld then
      s.callResumeChilds (s.dispatch self) (some coro)
    else .ok (s, [])
  else .ok (s.setStack rest, [])

def resumeTransfer (s : State) (self : Ctx) (coro : CoroId) (rest : List Frame) :
    Outcome := do
  s.checkLive coro
  if s.waiting coro then .ok (s.setStack rest, [])
  else do
    let sched ← (s.setStack (.resume self coro .back :: rest)).transfer coro self
    .ok ({ s with toSched := sched }, [.transferred coro])

/-- `transfer_pre`, after which the top frame of `self` has become `top`. -/
def handBack (s : State) (self : CoroId) (fs : List Frame) : Outcome := do
  let sched ← (s.setStack fs).transferPre self
  .ok ({ s with toSched := sched }, [.handedBack (s.coroPre self)])

/-- `q->yield()`. -/
def callYieldOf (s : State) (q : CoroId) : Outcome :=
  (s.push (.yield q .childs)).callResumeChildsOf q none

/-- `this_coroutine::yield()`. -/
def callYield (s : State) : Outcome :=
  match s.currentCoroutine with
  | none => .ok (s, [])
  | some q => s.callYieldOf q

/-- `while (!_coro_childs.empty()) resume_childs();` and the end of `execute`. -/
def executeChilds (s : State) (c : CoroId) (rest : List Frame) : Outcome := do
  s.checkLive c
  if s.coroChilds (some c) = [] then do
    let (s, evs) ← handBack { s with toSched := s.setStat c coroStatDone } c
      (.execute c .back :: rest)
    .ok (s, .finished c :: evs)
  else s.callResumeChildsOf c none

/-- `while (!_main_childs.empty()) resume_childs();` -/
def resumeAllTurn (s : State) (rest : List Frame) : Outcome :=
  if s.coroChilds none = [] then .ok (s.setStack rest, [])
  else s.callResumeChilds s.currentCoroutine none

/-! ## `mget` and the end of a wait -/

def mgetTurn (s : State) (q : CoroId) (rest : List Frame) : Outcome := do
  s.checkLive q
  match s.coroMessages q with
  | [] => do
    let s ← s.msgSet q coroMesgWait
    s.callYieldOf q
  | m :: ms =>
    .ok ({ s.setStack rest with coroMessages := Function.update s.coroMessages q ms },
      [.received q m])

end State

/-- `mask & EV_PERSIST` of a `set_io`. -/
def WaitSpec.persists : WaitSpec → Bool
  | io _ mask _ => hasBit mask evPersist
  | timeout _ => false
  | signal _ => false

namespace Coreactor

/-- `_triggers.erase(c); event_del(event); _event_allocator.free(event);` -/
def release (r : Coreactor) (c : CoroId) (b : Block) : Except Fault Coreactor := do
  let r ← (r.erase c).eventDel (some b)
  r.free (some b)

end Coreactor

namespace State

def waitEnd (s : State) (c : CoroId) (spec : WaitSpec) (b : Block) (rest : List Frame) :
    Outcome :=
  if spec.persists then .ok (s.setStack rest, [.waitEnded c spec b])
  else do
    let r ← s.reactor.release c b
    .ok ({ s.setStack rest with reactor := r }, [.waitEnded c spec b])

/-- One step of the innermost call. -/
def stepFrame (s : State) (rest : List Frame) : Frame → Outcome
  | .resume self coro .entry => s.resumeEntry self coro rest
  | .resume self coro .transfer => s.resumeTransfer self coro rest
  | .resume _ _ .back => .ok (s.setStack rest, [])
  | .resumeChilds self cur loop none => s.passTurn self cur loop rest
  | .resumeChilds self cur loop (some child) => s.passBack self cur loop child rest
  | .resumeAll => s.resumeAllTurn rest
  | .yield q .childs => s.handBack q (.yield q .back :: rest)
  | .yield _ .back => .ok (s.setStack rest, [])
  | .execute c .entry =>
    .ok ({ s.setStack (.execute c .body :: rest) with currentCoroutine := some c }, [])
  | .execute _ .body => .ok (s, [])
  | .execute c .childs => s.executeChilds c rest
  | .execute _ .back => .error .abort
  | .mget q => s.mgetTurn q rest
  | .wait c spec b => s.waitEnd c spec b rest

end State

/-! ## Calls of the user -/

inductive Setter where
  | set
  | add
  | del
  deriving DecidableEq, Repr

/-- What user code does. A `coro` that may be left out is an `Option`. -/
inductive User where
  /-- `create_coroutine`, in memory whose `_msg` holds `raw` -/
  | create (c : CoroId) (raw : StatT)
  | child (coro : CoroId)
  | resume (coro : Option CoroId)
  | resumeChilds (coro : Option CoroId)
  | yield
  /-- the coroutine function returns -/
  | return
  | mput (coro : CoroId) (msg : MessagePtr)
  | mbroadcast (coro : CoroId) (msg : MessagePtr)
  | mget (yieldEnable : Bool)
  | setIo (fd : Int) (mask : EventMask) (timeout : Int) (coro : Option CoroId)
  | setTimeout (timeout : Int) (coro : Option CoroId)
  | setSignal (signal : Int) (coro : Option CoroId)
  | cancel (coro : Option CoroId)
  /-- libev runs a callback -/
  | fire (event : Block) (watcher : Watcher) (revents : EventMask)
  /-- `event_set` .. `msg_del` -/
  | flag (setter : Setter) (word : FlagWord) (coro : CoroId) (m : StatT)
  deriving DecidableEq, Repr

inductive Act where
  | lib
  | user (u : User)
  deriving DecidableEq, Repr

namespace Coreactor

/-- What `set_io` does before its `yield`; the block is its local `event`. -/
def setIo (r : Coreactor) (c : CoroId) (fd : Int) (mask : EventMask) (timeout : Int) :
    Except Fault (Block × Coreactor) :=
  let (b, r) := r.malloc
  match r.triggers c with
  | some _ => do
    let r ← r.free (some b)
    .ok (b, r)
  | none => .ok (b, (r.register b (.set fd mask c) (timeout > 0)).insert c b)

/-- What `set_timeout` and `set_signal` do before their `yield`. -/
def setEvent (r : Coreactor) (c : CoroId) (e : Event) (timed : Bool) : Block × Coreactor :=
  let (b, r) := r.malloc
  (b, (r.register b e timed).insert c b)

end Coreactor

/-- `timeout_set(event, cb, c)`. -/
def Event.timeoutSet (c : CoroId) : Event := .set (-1) 0 c

/-- `signal_set(event, signal, cb, c)`. -/
def Event.signalSet (signal : Int) (c : CoroId) : Event :=
  .set signal (evSignal ||| evPersist) c

namespace State

/-- The `yield` of a wait of `c`. -/
def callWait (s : State) (c : CoroId) (spec : WaitSpec) (b : Block) (r : Coreactor) :
    Outcome := do
  let (s, evs) ← ({ s.push (.wait c spec b) with reactor := r }).callYield
  .ok (s, .waitBegan c spec b :: evs)

/-- The coroutine that a wait is for. -/
def target (s : State) (coro : Option CoroId) : Except Fault CoroId :=
  match coro.or s.currentCoroutine with
  | none => .error .nullPointer
  | some c => .ok c

def setIo (s : State) (fd : Int) (mask : EventMask) (timeout : Int)
    (coro : Option CoroId) : Outcome := do
  let c ← s.target coro
  let s ← s.eventSet c coroEvetWait
  let (b, r) ← s.reactor.setIo c fd mask timeout
  s.callWait c (.io fd mask timeout) b r

def setTimeout (s : State) (timeout : Int) (coro : Option CoroId) : Outcome :=
  if timeout ≤ 0 then .ok (s, [])
  else do
    let c ← s.target coro
    let s ← s.eventSet c coroEvetWait
    let (b, r) := s.reactor.setEvent c (.timeoutSet c) true
    s.callWait c (.timeout timeout) b r

def setSignal (s : State) (signal : Int) (coro : Option CoroId) : Outcome := do
  let c ← s.target coro
  let s ← s.eventSet c coroEvetWait
  let (b, r) := s.reactor.setEvent c (.signalSet signal c) false
  s.callWait c (.signal signal) b r

/-- `cancel`: `_triggers[c]` after the `erase` makes a new entry with a null
pointer. -/
def cancel (s : State) (coro : Option CoroId) : Outcome :=
  match coro.or s.currentCoroutine with
  | none => .ok (s, [])
  | some c =>
    match s.reactor.triggers c with
    | none => .ok (s, [])
    | some event => do
      let woken := s.wokenBy .evet c
      let s ← s.eventDel c coroEvetWait
      let s ← s.eventAdd c coroEvetCancel
      let r ← s.reactor.eventDel event
      let r := { r with triggers := Function.update r.triggers c (some none) }
      .ok ({ s with reactor := r }, woken ++ [.cancelled c])

/-- `_cb_evt(fd, events, arg)`. -/
def cbEvt (s : State) (events : EventMask) (c : CoroId) : Except Fault State := do
  let s ← s.eventDel c coroEvetWait
  if hasBit events evTimeout then s.eventAdd c coroEvetTime else .ok s

def fire (s : State) (b : Block) (w : Watcher) (revents : EventMask) : Option Outcome :=
  match s.reactor.event b with
  | none => none
  | some e =>
    if e.mayFire revents w then some (do
      let r := { s.reactor with event := Function.update s.reactor.event b (some (e.fire w)) }
      let s' ← ({ s with reactor := r }).cbEvt revents e.evArg
      .ok (s', .fired b e.evFd revents e.evArg :: s.wokenBy .evet e.evArg))
    else none

/-- `create_coroutine`; the constructor does not set `_msg`. -/
def create (s : State) (c : CoroId) (raw : StatT) : Option Outcome :=
  if c ∈ s.pool then none
  else
    let s := { s with
      toSched := s.construct c
      coroMessages := Function.update s.coroMessages c [] }
    some (.ok ((s.setFlags .evet c 0).setFlags .msg c raw, [.constructed c]))

/-- `this_coroutine::child(coro)`. -/
def child (s : State) (c : CoroId) : Outcome :=
  match s.currentCoroutine with
  | some p => do
    s.checkLive c
    let s := { s with
      coroParent := Function.update s.coroParent c (some p)
      attached := Function.update s.attached c true }
    .ok (s.setChilds (some p) (s.coroChilds (some p) ++ [c]), [.attached c (some p)])
  | none =>
    let s := { s with attached := Function.update s.attached c true }
    .ok (s.setChilds none (s.coroChilds none ++ [c]), [.attached c none])

/-- `this_coroutine::resume(coro)`. -/
def callResume (s : State) (coro : Option CoroId) : Outcome :=
  match coro with
  | some c => .ok (s.push (.resume s.currentCoroutine c .entry), [])
  | none =>
    match s.currentCoroutine with
    | some _ => .ok (s, [])
    | none => .ok (s.push .resumeAll, [])

/-- The coroutine function returns to `execute`. -/
def bodyReturn (s : State) : Option Outcome :=
  match s.stack s.running with
  | .execute c .body :: rest =>
    if s.stat c = coroStatBusy then some (.ok (s.setStack (.execute c .childs :: rest), []))
    else some (.error .assertExecute)
  | _ => none

/-- `this_coroutine::mget(msg, yield_enable)`. -/
def callMget (s : State) (yieldEnable : Bool) : Outcome :=
  match s.currentCoroutine with
  | none => .ok (s, [])
  | some q =>
    if yieldEnable then .ok (s.push (.mget q), [])
    else
      match s.coroMessages q with
      | [] => .ok (s, [])
      | m :: ms =>
        .ok ({ s with coroMessages := Function.update s.coroMessages q ms },
          [.received q m])

def setter (s : State) (op : Setter) (w : FlagWord) (c : CoroId) (m : StatT) :
    Except Fault State :=
  match op, w with
  | .set, .evet => s.eventSet c m
  | .add, .evet => s.eventAdd c m
  | .del, .evet => s.eventDel c m
  | .set, .msg => s.msgSet c m
  | .add, .msg => s.msgAdd c m
  | .del, .msg => s.msgDel c m

/-- One call of the user. -/
def stepUser (s : State) : User → Option Outcome
  | .create c raw => s.create c raw
  | .child c => some (s.child c)
  | .resume coro => some (s.callResume coro)
  | .resumeChilds coro => some (s.callResumeChilds s.currentCoroutine coro)
  | .yield => some s.callYield
  | .return => s.bodyReturn
  | .mput c m => some (s.mput c m)
  | .mbroadcast c m => some (s.mbroadcast c m)
  | .mget yieldEnable => some (s.callMget yieldEnable)
  | .setIo fd mask timeout coro => some (s.setIo fd mask timeout coro)
  | .setTimeout timeout coro => some (s.setTimeout timeout coro)
  | .setSignal signal coro => some (s.setSignal signal coro)
  | .cancel coro => some (s.cancel coro)
  | .fire b w revents => s.fire b w revents
  | .flag op w c m => some ((s.setter op w c m).map fun s => (s, []))

/-- The running context is in user code: main outside the API, or the coroutine
function of `execute`. -/
def inUserCode (s : State) : Bool :=
  match s.running, s.stack s.running with
  | none, [] => true
  | some _, .execute _ .body :: _ => true
  | _, _ => false

/-- One step of the machine. -/
def step (s : State) : Act → Option Outcome
  | .lib =>
    match s.inUserCode, s.stack s.running with
    | false, top :: rest => some (s.stepFrame rest top)
    | _, _ => none
  | .user u => if s.inUserCode then s.stepUser u else none

/-! ## Whose step it is -/

section

variable {s : State} {x : Outcome}

theorem step_user_inv {u : User} (h : s.step (.user u) = some x) :
    s.inUserCode = true ∧ s.stepUser u = some x := by
  simp only [step] at h
  split at h
  next huser => exact ⟨huser, h⟩
  next => cases h

/-- The innermost call of the running context takes the steps of the library. -/
theorem step_lib_inv (h : s.step .lib = some x) : s.inUserCode = false ∧
    ∃ top rest, s.stack s.running = top :: rest ∧ s.stepFrame rest top = x := by
  simp only [step] at h
  split at h
  next top rest huser htop => exact ⟨huser, top, rest, htop, Option.some.inj h⟩
  next => cases h

variable {f : Frame} {rest : List Frame} (htop : s.stack s.running = f :: rest)
  (hf : ∀ c, f ≠ .execute c .body)

include htop hf

theorem inUserCode_eq_false : s.inUserCode = false := by
  unfold inUserCode
  rw [htop]
  split
  next heq => cases heq
  next heq => exact absurd (List.cons.inj heq).1 (hf _)
  next => rfl

theorem step_lib_eq : s.step .lib = some (s.stepFrame rest f) := by
  simp only [step, inUserCode_eq_false htop hf, htop]

/-- While a call is in progress, only the library takes steps. -/
theorem act_eq_lib {a : Act} (h : s.step a = some x) : a = .lib := by
  cases a with
  | lib => rfl
  | user u =>
      have huser := (step_user_inv h).1
      rw [inUserCode_eq_false htop hf] at huser
      cases huser

end

end State

end BoostCoro.Coroutine
