import Mathlib.Algebra.Ring.Nat
import Mathlib.Data.List.Basic
/-!
# Connecting and receiving with a timeout

`connect`, `recv` and `recvv` of `coasio/cosocket.h`. Each makes a system call, waits in
`set_event` if the call would block, and goes on with what the system says then. A wait ends
when the descriptor is ready or when its timer expires; `_cb_evt` notes the second in the
event flags of the coroutine, and none of these functions looks there.
-/

namespace BoostCoro.Coasio

/-- `errno` after a system call that failed. -/
inductive Errno where
  | eintr
  | eagain
  | einprogress
  | other (e : Nat)
  deriving DecidableEq, Repr

/-- A system call returns a count, or -1 with `errno` set. -/
inductive SysResult where
  | count (n : Nat)
  | failed (errno : Errno)
  deriving DecidableEq, Repr

def SysResult.retcode : SysResult → Int
  | count n => n
  | failed _ => -1

/-- How a wait ends; there is a timer only if `timeout > 0`. -/
inductive Wait (timeout : Int) where
  | ready
  | expired (h : 0 < timeout)

def Wait.isExpired {timeout : Int} : Wait timeout → Bool
  | ready => false
  | expired _ => true

/-! ## The loop around a system call -/

/-- What `SILLY_NONBLOCK_SOCK_ERR(retcode)` does in a loop. -/
inductive Verdict where
  | returns (e : Int)
  | continues
  | passes
  deriving DecidableEq, Repr

def sillyNonblockSockErr : SysResult → Verdict
  | .count n => .returns n
  | .failed .eintr => .continues
  | .failed .eagain => .passes
  | .failed _ => .returns (-1)

/-- How `while(true)` around a system call ends, with the last result or with the results that
are left. -/
inductive Attempt where
  | unfinished
  | returned (e : Int) (last : SysResult)
  | passed (os : List SysResult)
  deriving DecidableEq, Repr

/-- `while(true) { retcode = ...; SILLY_NONBLOCK_SOCK_ERR(retcode) ... }`: the list is what the
system calls return one after the other. -/
def attempt : List SysResult → Attempt
  | [] => .unfinished
  | r :: os =>
    match sillyNonblockSockErr r with
    | .returns e => .returned e r
    | .continues => attempt os
    | .passes => .passed os

/-! ## The calls -/

/-- How a call ends: it is still in a loop, or it returns; `last` is the result of the last
system call it made. -/
inductive Outcome where
  | unfinished
  | returned (ret : Int) (last : SysResult)
  deriving DecidableEq, Repr

/-- One attempt, a wait, and another attempt. -/
def attemptTwice (os : List SysResult) : Outcome :=
  match attempt os with
  | .unfinished => .unfinished
  | .returned e r => .returned e r
  | .passed os =>
    -- `set_event(EV_READ, timeout)`
    match attempt os with
    | .unfinished => .unfinished
    | .returned e r => .returned e r
    | .passed _ => .returned 0 (.failed .eagain)

/-- `recv(buf, len, timeout)`. -/
def recv (_len : Nat) (timeout : Int) (_wait : Wait timeout) (os : List SysResult) : Outcome :=
  attemptTwice os

/-- `recvv(vec, count, timeout)`, where `vec` lists the lengths of the segments. -/
def recvv (_vec : List Nat) (timeout : Int) (_wait : Wait timeout) (os : List SysResult) :
    Outcome :=
  attemptTwice os

/-- The state of the connection attempt when the wait is over. -/
inductive Connection where
  | established
  | pending
  | refused (error : Nat) (h : error ≠ 0)

/-- What `getsockopt(SO_ERROR)` yields. -/
def Connection.soError : Connection → Nat
  | established => 0
  | pending => 0
  | refused error _ => error

/-- `connect(sock_addr, timeout)`: `first` is what `::connect` returns. -/
def connect (timeout : Int) (_wait : Wait timeout) (first : SysResult) (conn : Connection) : Int :=
  match first with
  | .count _ => 0
  | .failed .einprogress => if conn.soError ≠ 0 then -1 else 0
  | .failed _ => -1

/-! ## What a call should say -/

/-- A call with what the system answers. -/
inductive Call where
  | connect (timeout : Int) (wait : Wait timeout) (first : SysResult) (conn : Connection)
  | recv (len : Nat) (timeout : Int) (wait : Wait timeout) (os : List SysResult)
  | recvv (vec : List Nat) (timeout : Int) (wait : Wait timeout) (os : List SysResult)

/-- There is a connection when `connect` returns. -/
def Established (first : SysResult) (conn : Connection) : Prop :=
  (∃ n, first = .count n) ∨ (first = .failed .einprogress ∧ conn = .established)

/-- A receive of a non-zero request returns 0 only at the end of file, and a negative value if
the timer expired with nothing to read. -/
def Outcome.Honest (out : Outcome) (request : Nat) (expired : Bool) : Prop :=
  ∀ ret last, out = .returned ret last →
    (request ≠ 0 → ret = 0 → last = .count 0) ∧
      (expired = true → last = .failed .eagain → ret < 0)

/-- A wait that its timer ended is not reported as success or end of file. -/
def Call.Honest : Call → Prop
  | .connect timeout wait first conn =>
    (Coasio.connect timeout wait first conn = 0 → Established first conn) ∧
      (wait.isExpired = true → first = .failed .einprogress → conn = .pending →
        Coasio.connect timeout wait first conn < 0)
  | .recv len timeout wait os => (Coasio.recv len timeout wait os).Honest len wait.isExpired
  | .recvv vec timeout wait os => (Coasio.recvv vec timeout wait os).Honest vec.sum wait.isExpired

/-- Apart from interrupted calls the first two results are both EAGAIN. -/
def WouldBlockTwice (os : List SysResult) : Prop :=
  (os.filter (· ≠ .failed .eintr)).take 2 = [.failed .eagain, .failed .eagain]

/-- The operation is still pending after the wait. -/
def Call.StillPending : Call → Prop
  | .connect _ _ first conn => first = .failed .einprogress ∧ conn = .pending
  | .recv len _ wait os => WouldBlockTwice os ∧ (len ≠ 0 ∨ wait.isExpired = true)
  | .recvv vec _ wait os => WouldBlockTwice os ∧ (vec.sum ≠ 0 ∨ wait.isExpired = true)

/-! ## The attempts -/

/-- An attempt ends with the first result that is not EINTR. -/
theorem attempt_cases (os : List SysResult) :
    (attempt os = .unfinished ∧ os.filter (· ≠ .failed .eintr) = []) ∨
    (∃ r rest, attempt os = .returned r.retcode r ∧ r ≠ .failed .eagain ∧
      os.filter (· ≠ .failed .eintr) = r :: rest) ∨
    ∃ rest, attempt os = .passed rest ∧
      os.filter (· ≠ .failed .eintr) = .failed .eagain :: rest.filter (· ≠ .failed .eintr) := by
  induction os with
  | nil => exact Or.inl ⟨rfl, rfl⟩
  | cons r os ih =>
      cases r with
      | count n => exact Or.inr (Or.inl ⟨.count n, _, rfl, nofun, rfl⟩)
      | failed e =>
          cases e with
          | eintr => exact ih
          | eagain => exact Or.inr (Or.inr ⟨os, rfl, rfl⟩)
          | einprogress => exact Or.inr (Or.inl ⟨.failed .einprogress, _, rfl, nofun, rfl⟩)
          | other n => exact Or.inr (Or.inl ⟨.failed (.other n), _, rfl, nofun, rfl⟩)

theorem retcode_eq_zero {r : SysResult} (h : r.retcode = 0) : r = .count 0 := by
  cases r with
  | count n =>
      have hn : n = 0 := Int.ofNat_eq_zero.1 h
      rw [hn]
  | failed e => exact absurd h (by decide : (-1 : Int) ≠ 0)

/-- A result that a loop returns is the result of a system call. -/
theorem honest_retcode {r : SysResult} (hr : r ≠ .failed .eagain) (request : Nat)
    (expired : Bool) : (Outcome.returned r.retcode r).Honest request expired := by
  intro ret last hout
  cases hout
  exact ⟨fun _ => retcode_eq_zero, fun _ hlast => absurd hlast hr⟩

theorem attemptTwice_honest_iff (os : List SysResult) (request : Nat) (expired : Bool) :
    (attemptTwice os).Honest request expired ↔
      ¬(WouldBlockTwice os ∧ (request ≠ 0 ∨ expired = true)) := by
  rw [WouldBlockTwice, attemptTwice]
  rcases attempt_cases os with ⟨hos, hnil⟩ | ⟨r, rest, hos, hr, hcons⟩ | ⟨os', hos, hfirst⟩
  · rw [hos, hnil]
    exact iff_of_true nofun (by simp)
  · rw [hos, hcons]
    exact iff_of_true (honest_retcode hr request expired) (by simp [hr])
  · -- the first attempt found nothing, so the second decides
    rw [hos, hfirst]
    rcases attempt_cases os' with ⟨hos', hnil⟩ | ⟨r, rest, hos', hr, hcons⟩ | ⟨_, hos', hsecond⟩
    · rw [hnil]
      simp only [hos']
      exact iff_of_true nofun (by simp)
    · rw [hcons]
      simp only [hos']
      exact iff_of_true (honest_retcode hr request expired) (by simp [hr])
    · rw [hsecond]
      simp only [hos', List.take_succ_cons, List.take_zero, true_and]
      constructor
      · rintro hhonest (hrequest | hexpired)
        · exact absurd ((hhonest 0 _ rfl).1 hrequest rfl) nofun
        · exact absurd ((hhonest 0 _ rfl).2 hexpired rfl) (Int.lt_irrefl 0)
      · intro hnot ret last hout
        cases hout
        exact ⟨fun hrequest => absurd (Or.inl hrequest) hnot,
          fun hexpired => absurd (Or.inr hexpired) hnot⟩

theorem connect_honest_iff (timeout : Int) (wait : Wait timeout) (first : SysResult)
    (conn : Connection) :
    (Call.connect timeout wait first conn).Honest ↔
      ¬(first = .failed .einprogress ∧ conn = .pending) := by
  cases first with
  | count n => exact iff_of_true ⟨fun _ => Or.inl ⟨n, rfl⟩, nofun⟩ nofun
  | failed e =>
      cases e with
      | eintr => exact iff_of_true ⟨nofun, nofun⟩ nofun
      | eagain => exact iff_of_true ⟨nofun, nofun⟩ nofun
      | other n => exact iff_of_true ⟨nofun, nofun⟩ nofun
      | einprogress =>
          cases conn with
          | established => exact iff_of_true ⟨fun _ => Or.inr ⟨rfl, rfl⟩, nofun⟩ nofun
          | pending =>
              refine iff_of_false (fun hhonest => ?_) (fun hnot => hnot ⟨rfl, rfl⟩)
              obtain ⟨n, hn⟩ | ⟨-, hconn⟩ := hhonest.1 rfl
              · cases hn
              · cases hconn
          | refused error h =>
              have hret : connect timeout wait (.failed .einprogress) (.refused error h) = -1 :=
                if_pos h
              refine iff_of_true ⟨fun hzero => ?_, nofun⟩ nofun
              rw [hret] at hzero
              exact absurd hzero (by decide)

/-- A wait that ends by its timer is reported as such exactly if the operation is not still
pending then. -/
theorem timer_reported_iff (c : Call) : c.Honest ↔ ¬ c.StillPending := by
  cases c with
  | connect timeout wait first conn => exact connect_honest_iff timeout wait first conn
  | recv len timeout wait os => exact attemptTwice_honest_iff os len wait.isExpired
  | recvv vec timeout wait os => exact attemptTwice_honest_iff os vec.sum wait.isExpired

/-- After a second without an answer `connect` returns 0. -/
theorem connect_expired : Coasio.connect 1000 (.expired (by decide)) (.failed .einprogress)
      .pending = 0 ∧
    ¬ (Call.connect 1000 (.expired (by decide)) (.failed .einprogress) .pending).Honest := by
  refine ⟨rfl, fun hhonest => ?_⟩
  exact absurd (hhonest.2 rfl rfl rfl) (by decide)

/-- After a second without data `recv` returns 0. -/
example : recv 16 1000 (.expired (by decide)) [.failed .eagain, .failed .eintr, .failed .eagain] =
    .returned 0 (.failed .eagain) := rfl

end BoostCoro.Coasio
