/-!
# Coroutine types and constants

The words, bits and identifiers of `coroutine/coroutine.h` and of the part of
`libev/event.h` that the reactor uses, the ways a call can go wrong, and the
events of a run that the specifications speak about.
-/

namespace BoostCoro.Coroutine

/-- The address of a `coroutine_base_t`; the object pool hands an address out
again after the object was destroyed. -/
abbrev CoroId := Nat

/-- A context of execution; `none` is the main context. As an owner of child
lists, `none` stands for `_main_childs`. -/
abbrev Ctx := Option CoroId

/-- `typedef unsigned short stat_t`. -/
abbrev StatT := BitVec 16

/-- What a `message_ptr_t` points to. -/
abbrev MessagePtr := Nat

/-- The address of a block of the event allocator. -/
abbrev Block := Nat

/-- The `short` event masks of libev. -/
abbrev EventMask := BitVec 16

def coroStatInit : StatT := 0x01
def coroStatWait : StatT := 0x02
def coroStatBusy : StatT := 0x04
def coroStatDone : StatT := 0x08

def coroEvetWait : StatT := 0x01
def coroEvetTime : StatT := 0x04
def coroEvetCancel : StatT := 0x10
def coroEvetChld : StatT := 0x80

def coroMesgWait : StatT := 0x01
def coroMesgChld : StatT := 0x80

def evRead : EventMask := 0x0001
def evWrite : EventMask := 0x0002
def evPersist : EventMask := 0x0010
def evTimeout : EventMask := 0x0100
def evSignal : EventMask := 0x0400

/-- `mask & bits`, as a condition. -/
def hasBit (mask bits : BitVec 16) : Bool := mask &&& bits != 0

/-- How a call can go wrong. -/
inductive Fault where
  | nullPointer
  /-- an object that was destroyed is used -/
  | destroyed
  /-- `assert(_stat == CORO_STAT_WAIT)` in `transfer` -/
  | assertTransfer
  /-- `assert(_coro_pre->_stat == CORO_STAT_WAIT)` in `transfer_pre` -/
  | assertTransferPre
  /-- `assert(CORO_STAT_BUSY == coroutine->_stat)` in `execute` -/
  | assertExecute
  /-- the flags are passed up a chain of parents that does not end -/
  | stackOverflow
  /-- `execute` returns to `coro_init` -/
  | abort
  /-- a block that was freed, or never set up, is passed to `event_del` -/
  | badEvent
  /-- a block that is not handed out is passed to `free` -/
  | doubleFree
  deriving DecidableEq, Repr

/-- The wait a coroutine asks of the reactor. -/
inductive WaitSpec where
  | io (fd : Int) (mask : EventMask) (timeout : Int)
  | timeout (timeout : Int)
  | signal (signal : Int)
  deriving DecidableEq, Repr

/-- The events of a run. -/
inductive Obs where
  | constructed (c : CoroId)
  | destroyed (c : CoroId)
  /-- `child` put `c` on the list of `owner` -/
  | attached (c : CoroId) (owner : Ctx)
  /-- a `resume_childs` pass over the list of `owner` starts, ends -/
  | passBegin (owner : Ctx)
  | passEnd (owner : Ctx)
  /-- `transfer` to `c`, `transfer_pre` to `c` -/
  | transferred (c : CoroId)
  | handedBack (c : Ctx)
  /-- the state of `c` became DONE -/
  | finished (c : CoroId)
  /-- a wait flag of `c` went from set to clear -/
  | woken (c : CoroId)
  | delivered (c : CoroId) (m : MessagePtr)
  | received (c : CoroId) (m : MessagePtr)
  | waitBegan (c : CoroId) (spec : WaitSpec) (event : Block)
  | waitEnded (c : CoroId) (spec : WaitSpec) (event : Block)
  /-- `_cb_evt(fd, revents, arg)` was called for the event in a block -/
  | fired (event : Block) (fd : Int) (revents : EventMask) (arg : CoroId)
  | cancelled (c : CoroId)
  deriving DecidableEq, Repr

end BoostCoro.Coroutine
