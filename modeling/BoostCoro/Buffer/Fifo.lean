import BoostCoro.Buffer.ReadWrite
import BoostCoro.Lib.Refinement
/-!
# The buffer is a byte queue

The calls of `var_buf_t` against a plain byte string. Whatever the page size and
whatever the fresh blocks hold, a run of calls never fails, stores the bytes the
queue gives, and leaves a buffer whose observers show exactly the queue.
-/

namespace BoostCoro.Buffer

/-- A call that changes the buffer, with the bytes or the size it is given. -/
inductive Op where
  | write (src : List UInt8)
  | append (src : List UInt8)
  | assign (src : List UInt8)
  | read (len : Nat)
  | readBySize (sz : Nat)
  | reserve (sz : Nat)
  | shrink
  | reset
  | clear
  deriving DecidableEq, Repr

/-- What a call gives back: the count returned by a write, the bytes that a read
stores at `ptr`. -/
inductive Result where
  | wrote (ret : Nat)
  | stored (bytes : List UInt8)
  | done
  deriving DecidableEq, Repr

/-- One call on the buffer. -/
def VarBuf.exec {pageSize : Nat} (b : VarBuf pageSize) :
    Op → Except Fault (VarBuf pageSize × Result)
  | .write src => do
    let (b, ret) ← b.write src
    return (b, .wrote ret)
  | .append src => do
    let (b, ret) ← b.append src
    return (b, .wrote ret)
  | .assign src => do
    let (b, ret) ← b.assign src
    return (b, .wrote ret)
  | .read len => do
    let (b, bytes, _) ← b.read len
    return (b, .stored bytes)
  | .readBySize sz => do
    let (b, bytes, _) ← b.readBySize sz
    return (b, .stored bytes)
  | .reserve sz => return (← b.reserve sz, .done)
  | .shrink => return (← b.shrink, .done)
  | .reset => return (← b.reset, .done)
  | .clear => return (← b.clear, .done)

/-- The same call on a byte string: the purpose of the buffer. -/
def Fifo.step (s : List UInt8) : Op → List UInt8 × Result
  | .write src => (s ++ src, .wrote src.length)
  | .append src => (s ++ src, .wrote src.length)
  | .assign src => (src, .wrote src.length)
  | .read len => (s.drop len, .stored (s.take len))
  | .readBySize sz => (s.drop sz, .stored (s.take sz))
  | .reserve _ => (s, .done)
  | .shrink => (s, .done)
  | .reset => ([], .done)
  | .clear => ([], .done)

/-- The byte string after a run of calls, and what the calls gave back. -/
def Fifo.run (ops : List Op) : List UInt8 × List Result := Machine.runSpec Fifo.step [] ops

namespace VarBuf

variable {pageSize : Nat} {full : Prop}

/-- Every further run of calls gives back what the byte string `s` gives back, and leaves
a buffer that shows the byte string after the run. -/
def ActsAs (b : VarBuf pageSize) (s : List UInt8) : Prop :=
  ∀ ops : List Op, ∃ b', Machine.run exec b ops = .ok (b', (Machine.runSpec Fifo.step s ops).2) ∧
    b'.toString = .ok (Machine.runSpec Fifo.step s ops).1 ∧
      b'.length = .ok (Machine.runSpec Fifo.step s ops).1.length

theorem ActsAs.toString {b : VarBuf pageSize} {s : List UInt8} (h : b.ActsAs s) :
    b.toString = .ok s := by
  obtain ⟨_, hrun, hstring, _⟩ := h []
  obtain ⟨rfl, _⟩ := Prod.mk.inj (Except.ok.inj hrun)
  exact hstring

theorem ActsAs.length {b : VarBuf pageSize} {s : List UInt8} (h : b.ActsAs s) :
    b.length = .ok s.length := by
  obtain ⟨_, hrun, _, hlength⟩ := h []
  obtain ⟨rfl, _⟩ := Prod.mk.inj (Except.ok.inj hrun)
  exact hlength

theorem represents_new (raw : Addr → Nat → UInt8) :
    (new raw : VarBuf pageSize).Represents full [] :=
  Or.inl ⟨⟨rfl, rfl, rfl⟩, rfl⟩

theorem Represents.exec {b : VarBuf pageSize} {s : List UInt8} (hsize : 0 < pageSize)
    (h : b.Represents full s) (op : Op) :
    ∃ b', b.exec op = .ok (b', (Fifo.step s op).2) ∧ b'.Represents full (Fifo.step s op).1 := by
  cases op with
  | write src =>
      obtain ⟨b', hrun, hrep⟩ := h.write hsize src
      exact ⟨b', by simp [VarBuf.exec, hrun, Fifo.step], hrep⟩
  | append src =>
      obtain ⟨b', hrun, hrep⟩ := h.write hsize src
      exact ⟨b', by simp [VarBuf.exec, append, hrun,
        Fifo.step], hrep⟩
  | assign src =>
      obtain ⟨b', hrun, hrep⟩ := h.assign hsize src
      exact ⟨b', by simp [VarBuf.exec, hrun, Fifo.step], hrep⟩
  | read len =>
      obtain ⟨b', hrun, hrep⟩ := h.read len
      exact ⟨b', by simp [VarBuf.exec, hrun, Fifo.step], hrep⟩
  | readBySize sz =>
      obtain ⟨b', hrun, hrep⟩ := h.read sz
      exact ⟨b', by simp [VarBuf.exec, readBySize, hrun,
        Fifo.step], hrep⟩
  | reserve sz =>
      obtain ⟨b', pre, mid, w, post, hrun, hshape, rfl, -⟩ := h.reserve hsize sz
      exact ⟨b', by simp [VarBuf.exec, hrun, Fifo.step],
        hshape.represents⟩
  | shrink =>
      obtain ⟨b', hrun, hrep⟩ := h.shrink
      exact ⟨b', by simp [VarBuf.exec, hrun, Fifo.step], hrep⟩
  | reset =>
      obtain ⟨b', hrun, hrep⟩ := h.reset
      exact ⟨b', by simp [VarBuf.exec, hrun, Fifo.step], hrep⟩
  | clear =>
      obtain ⟨b', hrun, hblank⟩ := h.clear
      exact ⟨b', by simp [VarBuf.exec, hrun, Fifo.step],
        Or.inl ⟨hblank, rfl⟩⟩

theorem exec_refines (hsize : 0 < pageSize) :
    Machine.Refines (@VarBuf.exec pageSize) Fifo.step (Represents · full) :=
  fun _ _ op h => h.exec hsize op

theorem Represents.run {b : VarBuf pageSize} {s : List UInt8} (hsize : 0 < pageSize)
    (h : b.Represents full s) (ops : List Op) :
    ∃ b', Machine.run VarBuf.exec b ops = .ok (b', (Machine.runSpec Fifo.step s ops).2) ∧
      b'.Represents full (Machine.runSpec Fifo.step s ops).1 :=
  (exec_refines hsize).run h ops

theorem Represents.actsAs {b : VarBuf pageSize} {s : List UInt8} (hsize : 0 < pageSize)
    (h : b.Represents full s) : b.ActsAs s := fun ops => by
  obtain ⟨b', hrun, hrep⟩ := h.run hsize ops
  exact ⟨b', hrun, hrep.toString, hrep.length⟩

/-- The buffers that calls on a new buffer lead to leave a page only at its end. -/
theorem represents_run (hsize : 0 < pageSize) (raw : Addr → Nat → UInt8) (ops : List Op) :
    ∃ b : VarBuf pageSize, Machine.run VarBuf.exec (new raw) ops = .ok (b, (Fifo.run ops).2) ∧
      b.Represents True (Fifo.run ops).1 :=
  (represents_new raw).run hsize ops

/-- A run of calls on a new buffer succeeds, gives back what the byte queue
gives back, and every observer then shows the queue. -/
theorem run_eq_fifo (hsize : 0 < pageSize) (raw : Addr → Nat → UInt8) (ops : List Op) :
    ∃ b : VarBuf pageSize,
      Machine.run VarBuf.exec (new raw) ops = .ok (b, (Fifo.run ops).2) ∧
      b.toString = .ok (Fifo.run ops).1 ∧
      b.length = .ok (Fifo.run ops).1.length ∧
      (∃ vc, b.rdIovec = .ok vc ∧ vc.flatten = (Fifo.run ops).1) ∧
      ∀ sz, ∃ b' room, b.reserve sz = .ok b' ∧ b'.wrSize = .ok room ∧ sz ≤ room := by
  obtain ⟨b, hrun, hrep⟩ := represents_run hsize raw ops
  refine ⟨b, hrun, hrep.toString, hrep.length, hrep.rdIovec, fun sz => ?_⟩
  obtain ⟨b', pre, mid, w, post, hreserve, hshape, -, hroom⟩ := hrep.reserve hsize sz
  exact ⟨b', _, hreserve, hshape.wrSize, hroom⟩

/-- Two-byte pages: the write fills one page and half of the next, the read
takes one byte more than the first page holds. -/
theorem run_eq_fifo_two :
    ∃ b : VarBuf 2,
      Machine.run VarBuf.exec (new fun _ _ => 7) [.write [1, 2, 3, 4, 5], .read 3, .append [6]] =
        .ok (b, [.wrote 5, .stored [1, 2, 3], .wrote 1]) ∧
      b.toString = .ok [4, 5, 6] := by
  obtain ⟨b, hrun, hstring, -⟩ := run_eq_fifo (by decide : 0 < 2) (fun _ _ => 7)
    [.write [1, 2, 3, 4, 5], .read 3, .append [6]]
  exact ⟨b, hrun, hstring⟩

end VarBuf

end BoostCoro.Buffer
