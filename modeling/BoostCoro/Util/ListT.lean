import BoostCoro.Lib.Segment
import BoostCoro.Lib.Transition
/-!
# The list of `util/list.h`

`list_t`: a singly linked list with pointers to its first and its last node, whose nodes come
from an object pool. The pool says with each `construct` where the node is; it gives an
address again after the node there was destroyed.
-/

namespace BoostCoro.Util

open Linked (Segment)

/-- The address of a node. -/
abbrev Addr := Nat

/-- `list_node_t`. -/
structure ListNode (T : Type) where
  next : Option Addr
  data : T

/-- How a call can go wrong. -/
inductive ListFault where
  /-- a null pointer, or one to no node, is followed -/
  | badPointer
  /-- `destroy` of what is no node -/
  | badDestroy
  /-- `assert(node)` -/
  | assertNode
  /-- the loop of `clear` goes on after as many nodes as `_size` says -/
  | endless
  deriving DecidableEq, Repr

/-- What happens to the nodes. -/
inductive NodeEvent where
  | constructed (node : Addr)
  | destroyed (node : Addr)
  deriving DecidableEq, Repr

/-- The nodes constructed, in their order. -/
def constructed (evs : List NodeEvent) : List Addr :=
  evs.filterMap fun
    | .constructed node => some node
    | .destroyed _ => none

/-- The nodes destroyed. -/
def destroyed (evs : List NodeEvent) : List Addr :=
  evs.filterMap fun
    | .constructed _ => none
    | .destroyed node => some node

/-- `list_t<T>`; the pool as the nodes that are in it. -/
structure ListT (T : Type) where
  head : Option Addr
  tail : Option Addr
  size : Nat
  listNodeObjpool : Addr → Option (ListNode T)

variable {T : Type}

namespace ListT

def new : ListT T where
  head := none
  tail := none
  size := 0
  listNodeObjpool := fun _ => none

/-! ## Nodes -/

/-- `*p`. -/
def load (l : ListT T) (p : Option Addr) : Except ListFault (ListNode T) :=
  match p.bind l.listNodeObjpool with
  | none => .error .badPointer
  | some n => .ok n

def store (l : ListT T) (node : Addr) (n : ListNode T) : ListT T :=
  { l with listNodeObjpool := Function.update l.listNodeObjpool node (some n) }

theorem store_eq_some {l : ListT T} {node a : Addr} {n n' : ListNode T} :
    (l.store node n').listNodeObjpool a = some n ↔
      (a = node ∧ n = n') ∨ (a ≠ node ∧ l.listNodeObjpool a = some n) := by
  unfold store
  by_cases ha : a = node
  · subst ha
    simp [eq_comm]
  · simp [ha]

/-- `_list_node_objpool.construct()`, with the address that it returns, and the node's first
values. -/
def construct (l : ListT T) (node : Option Addr) (data : T) :
    Except ListFault (Addr × ListT T) :=
  match node with
  | none => .error .assertNode
  | some node => .ok (node, l.store node ⟨none, data⟩)

/-- `_list_node_objpool.destroy(node)`. -/
def destroy (l : ListT T) (node : Addr) : Except ListFault (ListT T) :=
  match l.listNodeObjpool node with
  | none => .error .badDestroy
  | some _ => .ok { l with listNodeObjpool := Function.update l.listNodeObjpool node none }

/-- `_head = _head->next`, with what `pop_front` and `clear` do to the old head. -/
def dropHead (l : ListT T) (node : Addr) : Except ListFault (ListT T) := do
  let n ← l.load (some node)
  let l ← { l with head := n.next }.destroy node
  .ok { l with size := l.size - 1 }

/-! ## The calls -/

def front [Zero T] (l : ListT T) : Except ListFault T :=
  match l.head with
  | none => .ok 0
  | some node => do
    let n ← l.load (some node)
    .ok n.data

def popFront (l : ListT T) : Except ListFault (ListT T × List NodeEvent) :=
  match l.head with
  | none => .ok (l, [])
  | some node => do
    let l := { l with tail := if l.head = l.tail then none else l.tail }
    let l ← l.dropHead node
    .ok (l, [.destroyed node])

def pushFront (l : ListT T) (node : Option Addr) (data : T) :
    Except ListFault (ListT T × List NodeEvent) := do
  let (node, l) ← l.construct node data
  match l.head with
  | none => .ok ({ l with head := some node, tail := some node, size := l.size + 1 },
      [.constructed node])
  | some _ =>
    let l := l.store node ⟨l.head, data⟩
    .ok ({ l with head := some node, size := l.size + 1 }, [.constructed node])

def pushBack (l : ListT T) (node : Option Addr) (data : T) :
    Except ListFault (ListT T × List NodeEvent) := do
  let (node, l) ← l.construct node data
  match l.head with
  | none => .ok ({ l with head := some node, tail := some node, size := l.size + 1 },
      [.constructed node])
  | some _ =>
    match l.tail with
    | none => .error .badPointer
    | some tail => do
      let n ← l.load (some tail)
      let l := l.store tail { n with next := some node }
      let n ← l.load (some tail)
      .ok ({ l with tail := n.next, size := l.size + 1 }, [.constructed node])

def empty (l : ListT T) : Bool := l.head.isNone

/-- `while(_head)`, for at most `n` looks at `_head`. -/
def clearLoop : Nat → ListT T → Except ListFault (ListT T × List NodeEvent)
  | 0, _ => .error .endless
  | n + 1, l =>
    match l.head with
    | none => .ok (l, [])
    | some p => do
      let l ← l.dropHead p
      let (l, evs) ← clearLoop n l
      .ok (l, .destroyed p :: evs)

def clear (l : ListT T) : Except ListFault (ListT T × List NodeEvent) := do
  let (l, evs) ← clearLoop (l.size + 1) l
  .ok ({ l with tail := l.head }, evs)

end ListT

/-- The calls that change a list, with the answers of the pool. -/
inductive ListCall (T : Type) where
  | pushFront (node : Option Addr) (data : T)
  | pushBack (node : Option Addr) (data : T)
  | popFront
  | clear

namespace ListCall

/-- What the call does to the sequence that the list stands for. -/
def apply (q : List T) : ListCall T → List T
  | pushFront _ data => data :: q
  | pushBack _ data => q ++ [data]
  | popFront => q.tail
  | clear => []

end ListCall

namespace ListT

def step (l : ListT T) : ListCall T → Option (Except ListFault (ListT T × List NodeEvent))
  | .pushFront node data => some (l.pushFront node data)
  | .pushBack node data => some (l.pushBack node data)
  | .popFront => some l.popFront
  | .clear => some l.clear

/-- The pool gives a node that is not in use. -/
def PoolGives (l : ListT T) : ListCall T → Prop
  | .pushFront node _ => (node.any fun a => (l.listNodeObjpool a).isNone) = true
  | .pushBack node _ => (node.any fun a => (l.listNodeObjpool a).isNone) = true
  | _ => True

instance (l : ListT T) (call : ListCall T) : Decidable (l.PoolGives call) := by
  cases call <;> unfold PoolGives <;> infer_instance

/-! ## The chain of nodes -/

/-- `cells` are the nodes from the head on; there are no others. -/
structure Chained (l : ListT T) (cells : List (Addr × ListNode T)) : Prop where
  chain : Segment l.listNodeObjpool ListNode.next l.head cells none
  live : ∀ a n, l.listNodeObjpool a = some n → (a, n) ∈ cells
  size : l.size = cells.length

/-- The list stands for the data of `cells`. -/
structure Represents (l : ListT T) (cells : List (Addr × ListNode T)) : Prop
    extends Chained l cells where
  tail : l.tail = (cells.map Prod.fst).getLast?

variable {l : ListT T} {cells : List (Addr × ListNode T)} {x : Addr × ListNode T} {a : Addr}

theorem new_represents : Represents (new : ListT T) [] where
  chain := rfl
  live := nofun
  size := rfl
  tail := rfl

namespace Chained

theorem mem_iff (h : Chained l cells) :
    (∃ n, l.listNodeObjpool a = some n) ↔ a ∈ cells.map Prod.fst := by
  constructor
  · rintro ⟨n, hn⟩
    exact List.mem_map_of_mem (h.live a n hn)
  · intro ha
    obtain ⟨x, hx, rfl⟩ := List.mem_map.mp ha
    exact ⟨x.2, h.chain.cell_eq hx⟩

theorem notMem (h : Chained l cells) (ha : l.listNodeObjpool a = none) :
    a ∉ cells.map Prod.fst := fun hin => by
  obtain ⟨n, hn⟩ := h.mem_iff.mpr hin
  rw [ha] at hn
  cases hn

theorem head_eq (h : Chained l (x :: cells)) : l.head = some x.1 := h.chain.1

theorem load_eq (h : Chained l cells) (hx : x ∈ cells) : l.load (some x.1) = .ok x.2 := by
  have hnode : (some x.1).bind l.listNodeObjpool = some x.2 := h.chain.cell_eq hx
  rw [load, hnode]

theorem nodup (h : Chained l cells) : (cells.map Prod.fst).Nodup := h.chain.nodup

/-- Without its first node the chain is that of the others. -/
theorem dropHead (h : Chained l (x :: cells)) :
    ∃ l', l.dropHead x.1 = .ok l' ∧ Chained l' cells ∧ l'.tail = l.tail := by
  have hnode := h.chain.cell_eq List.mem_cons_self
  have hnodup := List.nodup_cons.mp h.nodup
  have hchained : Chained { l with
      head := x.2.next
      size := l.size - 1
      listNodeObjpool := Function.update l.listNodeObjpool x.1 none } cells := by
    refine ⟨h.chain.2.2.update_of_notMem hnodup.1, fun a n ha => ?_, ?_⟩
    · dsimp only at ha
      have hax : a ≠ x.1 := by
        rintro rfl
        rw [Function.update_self] at ha
        cases ha
      rw [Function.update_of_ne hax] at ha
      refine (List.mem_cons.mp (h.live a n ha)).resolve_left fun heq => hax ?_
      rw [← heq]
    · dsimp only
      rw [h.size, List.length_cons, Nat.add_sub_cancel]
  refine ⟨_, ?_, hchained, rfl⟩
  rw [ListT.dropHead, h.load_eq List.mem_cons_self, Fallible.ok_bind, destroy]
  simp only [hnode, Fallible.ok_bind]

/-- `clear` destroys the nodes in their order. -/
theorem clearLoop (h : Chained l cells) {n : Nat} (hn : cells.length < n) :
    ∃ l', clearLoop n l = .ok (l', (cells.map Prod.fst).map .destroyed) ∧ Chained l' [] := by
  induction n generalizing l cells with
  | zero => cases hn
  | succ n ih =>
      rw [ListT.clearLoop]
      cases cells with
      | nil =>
          have hhead : l.head = none := h.chain
          rw [hhead]
          exact ⟨l, rfl, h⟩
      | cons x cells =>
          obtain ⟨l₁, hdrop, h₁, -⟩ := h.dropHead
          obtain ⟨l', hrest, h'⟩ := ih h₁ (Nat.lt_of_succ_lt_succ hn)
          rw [h.head_eq]
          simp only [hdrop, hrest, Fallible.ok_bind]
          exact ⟨l', rfl, h'⟩

end Chained

/-! ## What a call does -/

/-- The call makes `l'` and `cells'` of `l` and `cells`. -/
structure Performs (l : ListT T) (cells : List (Addr × ListNode T)) (call : ListCall T)
    (l' : ListT T) (evs : List NodeEvent) (cells' : List (Addr × ListNode T)) : Prop where
  step_eq : l.step call = some (.ok (l', evs))
  represents : Represents l' cells'
  data : cells'.map (fun x => x.2.data) = call.apply (cells.map fun x => x.2.data)
  nodes : (cells.map Prod.fst ++ constructed evs).Perm (cells'.map Prod.fst ++ destroyed evs)

theorem performs_popFront (h : Represents l cells) :
    ∃ l' evs cells', Performs l cells .popFront l' evs cells' := by
  cases cells with
  | nil =>
      have hhead : l.head = none := h.chain
      refine ⟨l, [], [], ?_, h, rfl, .refl _⟩
      rw [step, popFront, hhead]
  | cons x rest =>
      have hhead := h.head_eq
      have hnodup := List.nodup_cons.mp h.nodup
      have hchained : Chained { l with tail := if l.head = l.tail then none else l.tail }
          (x :: rest) := ⟨h.chain, h.live, h.size⟩
      obtain ⟨l', hdrop, hrest, htail⟩ := hchained.dropHead
      have hlast : l'.tail = (rest.map Prod.fst).getLast? := by
        rw [htail]
        dsimp only
        rw [hhead, h.tail]
        cases rest with
        | nil => exact if_pos rfl
        | cons y rest =>
            -- the last node is not the first
            rw [List.map_cons, List.map_cons, List.getLast?_cons_cons]
            refine if_neg fun heq => hnodup.1 ?_
            exact List.mem_of_getLast? heq.symm
      refine ⟨l', [.destroyed x.1], rest, ?_, ⟨hrest, hlast⟩, rfl, ?_⟩
      · rw [step, popFront]
        simp only [hhead] at hdrop ⊢
        rw [hdrop]
        rfl
      · have hlast : (rest.map Prod.fst ++ [x.1]).Perm (x.1 :: rest.map Prod.fst) :=
          List.perm_append_singleton ..
        simpa [constructed, destroyed] using hlast.symm

theorem constructed_map_destroyed (nodes : List Addr) :
    constructed (nodes.map .destroyed) = [] := by
  simp [constructed, List.filterMap_map]

theorem destroyed_map_destroyed (nodes : List Addr) :
    destroyed (nodes.map .destroyed) = nodes := by
  simp [destroyed, List.filterMap_map]

theorem performs_clear (h : Represents l cells) :
    ∃ l' evs cells', Performs l cells .clear l' evs cells' := by
  have hfuel : cells.length < l.size + 1 := by
    rw [h.size]
    exact Nat.lt_succ_self _
  obtain ⟨l', hloop, hempty⟩ := h.clearLoop hfuel
  have hhead : l'.head = none := hempty.chain
  have hrepresents : Represents { l' with tail := l'.head } [] :=
    ⟨⟨hempty.chain, hempty.live, hempty.size⟩, hhead⟩
  refine ⟨_, (cells.map Prod.fst).map .destroyed, [], ?_, hrepresents, rfl, ?_⟩
  · rw [step, clear, hloop]
    rfl
  · rw [constructed_map_destroyed, destroyed_map_destroyed, List.append_nil]
    exact .refl _

/-- The first node of an empty list. -/
theorem Represents.first (h : Represents l []) (node : Addr) (data : T) :
    Represents { l.store node ⟨none, data⟩ with
      head := some node
      tail := some node
      size := l.size + 1 } [(node, ⟨none, data⟩)] := by
  have hnone : ∀ a, l.listNodeObjpool a = none := fun a => by
    by_contra hne
    obtain ⟨n, hn⟩ := Option.ne_none_iff_exists'.mp hne
    exact List.not_mem_nil (h.live a n hn)
  refine ⟨⟨⟨rfl, Function.update_self .., rfl⟩, fun a n ha => ?_, ?_⟩, rfl⟩
  · obtain ⟨rfl, rfl⟩ | ⟨-, ha⟩ := store_eq_some.mp ha
    · exact List.mem_singleton_self _
    · rw [hnone] at ha
      cases ha
  · exact congrArg Nat.succ h.size

/-- A node in front of others. -/
theorem Represents.cons (h : Represents l (x :: cells)) (ha : l.listNodeObjpool a = none)
    (data : T) :
    Represents { (l.store a ⟨none, data⟩).store a ⟨l.head, data⟩ with
      head := some a
      size := l.size + 1 } ((a, ⟨l.head, data⟩) :: x :: cells) := by
  have hnew := h.notMem ha
  refine ⟨⟨⟨rfl, Function.update_self .., ?_⟩, fun b n hb => ?_, ?_⟩, ?_⟩
  · exact (h.chain.update_of_notMem hnew).update_of_notMem hnew
  · obtain ⟨rfl, rfl⟩ | ⟨hba, hb⟩ := store_eq_some.mp hb
    · exact List.mem_cons_self
    · obtain ⟨rfl, -⟩ | ⟨-, hb⟩ := store_eq_some.mp hb
      · exact absurd rfl hba
      · exact List.mem_cons_of_mem _ (h.live b n hb)
  · exact congrArg Nat.succ h.size
  · rw [List.map_cons, List.map_cons, List.getLast?_cons_cons]
    exact h.tail

/-- A node behind the last one. -/
theorem Represents.concat {z : Addr × ListNode T} (h : Represents l (cells ++ [z]))
    (ha : l.listNodeObjpool a = none) (data : T) :
    Represents { (l.store a ⟨none, data⟩).store z.1 { z.2 with next := some a } with
      tail := some a
      size := l.size + 1 }
      (cells ++ [(z.1, { z.2 with next := some a }), (a, ⟨none, data⟩)]) := by
  have hnew := h.notMem ha
  have hchain := h.chain.extend (e := { z.2 with next := some a }) (d := ⟨none, data⟩) hnew rfl rfl
  refine ⟨⟨hchain, fun b n hb => ?_, ?_⟩, ?_⟩
  · rw [List.mem_append]
    obtain ⟨rfl, rfl⟩ | ⟨hbz, hb⟩ := store_eq_some.mp hb
    · exact .inr List.mem_cons_self
    · obtain ⟨rfl, rfl⟩ | ⟨-, hb⟩ := store_eq_some.mp hb
      · exact .inr (List.mem_cons_of_mem _ (List.mem_singleton_self _))
      · refine .inl ((List.mem_append.mp (h.live b n hb)).resolve_right fun hin => hbz ?_)
        rw [← List.mem_singleton.mp hin]
  · dsimp only
    rw [h.size]
    simp
  · simp

theorem performs_pushFront (h : Represents l cells) (ha : l.listNodeObjpool a = none) (data : T) :
    ∃ l' evs cells', Performs l cells (.pushFront (some a) data) l' evs cells' := by
  have hnodes : ∀ n, (cells.map Prod.fst ++ constructed [.constructed a]).Perm
      (((a, n) :: cells).map Prod.fst ++ destroyed [.constructed a]) := fun n => by
    simp [constructed, destroyed]
  cases cells with
  | nil =>
      have hhead : (l.store a ⟨none, data⟩).head = none := h.chain
      refine ⟨_, [.constructed a], _, ?_, h.first a data, rfl, hnodes _⟩
      rw [step, pushFront, construct, Fallible.ok_bind]
      simp only [hhead]
      rfl
  | cons x rest =>
      have hhead : (l.store a ⟨none, data⟩).head = some x.1 := h.head_eq
      refine ⟨_, [.constructed a], _, ?_, h.cons ha data, rfl, hnodes _⟩
      rw [step, pushFront, construct, Fallible.ok_bind]
      simp only [hhead, h.head_eq]
      rfl

theorem performs_pushBack (h : Represents l cells) (ha : l.listNodeObjpool a = none) (data : T) :
    ∃ l' evs cells', Performs l cells (.pushBack (some a) data) l' evs cells' := by
  rcases cells.eq_nil_or_concat' with rfl | ⟨init, z, rfl⟩
  · have hhead : (l.store a ⟨none, data⟩).head = none := h.chain
    refine ⟨_, [.constructed a], _, ?_, h.first a data, rfl, .refl _⟩
    rw [step, pushBack, construct, Fallible.ok_bind]
    simp only [hhead]
    rfl
  · obtain ⟨p, hhead⟩ : ∃ p, (l.store a ⟨none, data⟩).head = some p := by
      have hfirst : l.head = ((init ++ [z]).map Prod.fst).head? := h.chain.head?_eq
      cases init with
      | nil => exact ⟨_, hfirst⟩
      | cons x init => exact ⟨_, hfirst⟩
    have htail : (l.store a ⟨none, data⟩).tail = some z.1 := by
      refine h.tail.trans ?_
      simp
    have hza : z.1 ≠ a := fun heq => h.notMem ha (heq ▸ by simp)
    have hload : (l.store a ⟨none, data⟩).load (some z.1) = .ok z.2 := by
      have hnode : (l.store a ⟨none, data⟩).listNodeObjpool z.1 = some z.2 :=
        store_eq_some.mpr (.inr ⟨hza, h.chain.cell_eq (by simp)⟩)
      rw [load, Option.bind_some, hnode]
    have hagain : ((l.store a ⟨none, data⟩).store z.1 { z.2 with next := some a }).load (some z.1) =
        .ok { z.2 with next := some a } := by
      rw [load, Option.bind_some, store_eq_some.mpr (.inl ⟨rfl, rfl⟩)]
    refine ⟨_, [.constructed a], _, ?_, h.concat ha data, ?_, ?_⟩
    · rw [step, pushBack, construct, Fallible.ok_bind]
      simp only [hhead, htail, hload, hagain, Fallible.ok_bind]
      rfl
    · simp [ListCall.apply]
    · simp [constructed, destroyed]

/-- Every call succeeds, if the pool gives a node where it is asked for one. -/
theorem performs {call : ListCall T} (h : Represents l cells) (hok : l.PoolGives call) :
    ∃ l' evs cells', Performs l cells call l' evs cells' := by
  cases call with
  | pushFront node data =>
      obtain ⟨a, rfl, ha⟩ := (Option.any_eq_true ..).mp hok
      exact performs_pushFront h (Option.isNone_iff_eq_none.mp ha) data
  | pushBack node data =>
      obtain ⟨a, rfl, ha⟩ := (Option.any_eq_true ..).mp hok
      exact performs_pushBack h (Option.isNone_iff_eq_none.mp ha) data
  | popFront => exact performs_popFront h
  | clear => exact performs_clear h

/-! ## Over a run -/

/-- The list stands for `q`, and every node that was constructed is in it or was destroyed. -/
def Tracks (l : ListT T) (q : List T) (past : List NodeEvent) : Prop :=
  ∃ cells, Represents l cells ∧ cells.map (fun x => x.2.data) = q ∧
    (constructed past).Perm (cells.map Prod.fst ++ destroyed past)

theorem Tracks.step {q : List T} {past evs : List NodeEvent} {l' : ListT T} {call : ListCall T}
    (h : Tracks l q past) (hok : l.PoolGives call) (hstep : l.step call = some (.ok (l', evs))) :
    Tracks l' (call.apply q) (past ++ evs) := by
  obtain ⟨cells, hrep, rfl, hpast⟩ := h
  obtain ⟨l₁, evs₁, cells', hperforms⟩ := performs hrep hok
  obtain ⟨rfl, rfl⟩ :=
    Prod.mk.inj (Except.ok.inj (Option.some.inj (hperforms.step_eq.symm.trans hstep)))
  refine ⟨cells', hperforms.represents, hperforms.data, ?_⟩
  rw [List.perm_iff_count] at hpast ⊢
  intro a
  have hbefore := hpast a
  have hnow := List.perm_iff_count.mp hperforms.nodes a
  simp only [constructed, destroyed, List.filterMap_append, List.count_append] at hbefore hnow ⊢
  omega

/-- A list that is used in any way stands for the sequence that its calls build. -/
theorem list_refines_sequence [Zero T] {calls : List (ListCall T)} {tr : List NodeEvent}
    (h : Transition.exec step PoolGives new calls = some (l, tr)) :
    ∃ cells, Segment l.listNodeObjpool ListNode.next l.head cells none ∧
      (cells.map Prod.fst).Nodup ∧
      cells.map (fun x => x.2.data) = calls.foldl ListCall.apply [] ∧
      l.size = (calls.foldl ListCall.apply []).length ∧
      (l.empty = true ↔ calls.foldl ListCall.apply [] = []) ∧
      l.front = .ok ((calls.foldl ListCall.apply []).headD 0) ∧
      l.tail = (cells.map Prod.fst).getLast? ∧
      (∀ a, (l.listNodeObjpool a).isSome = true ↔ a ∈ cells.map Prod.fst) ∧
      (constructed tr).Perm (cells.map Prod.fst ++ destroyed tr) ∧
      ∀ call, l.PoolGives call → ∃ l' evs, l.step call = some (.ok (l', evs)) := by
  have htracks : Tracks l (calls.foldl ListCall.apply []) ([] ++ tr) :=
    Transition.exec_tracks (fun _ _ _ _ _ _ => Tracks.step) ⟨[], new_represents, rfl, .refl _⟩ h
  obtain ⟨cells, hrep, hdata, hnodes⟩ := htracks
  rw [← hdata]
  refine ⟨cells, hrep.chain, hrep.nodup, rfl, ?_, ?_, ?_, hrep.tail, fun a => ?_, hnodes,
    fun call hok => ?_⟩
  · rw [hrep.size, List.length_map]
  · cases cells with
    | nil => exact iff_of_true (by rw [empty, show l.head = none from hrep.chain]; rfl) rfl
    | cons x rest => exact iff_of_false (by rw [empty, hrep.head_eq]; nofun) nofun
  · cases cells with
    | nil => rw [front, show l.head = none from hrep.chain]; rfl
    | cons x rest =>
        rw [front, hrep.head_eq]
        simp only [hrep.load_eq List.mem_cons_self, Fallible.ok_bind]
        rfl
  · rw [Option.isSome_iff_exists, hrep.mem_iff]
  · obtain ⟨l', evs, _, hperforms⟩ := performs hrep hok
    exact ⟨l', evs, hperforms.step_eq⟩

/-- A list that was emptied twice and is used again, with nodes at addresses that were in use
before. -/
def reused : List (ListCall Nat) :=
  [.pushBack (some 1) 10, .popFront, .pushBack (some 1) 20, .pushFront (some 2) 30, .clear,
    .popFront, .pushBack (some 2) 40, .pushBack (some 1) 50]

theorem list_refines_sequence_reused :
    let l := (Transition.after step PoolGives new reused).1
    ∃ cells, Segment l.listNodeObjpool ListNode.next l.head cells none ∧
      cells.map (fun x => x.2.data) = [40, 50] ∧ l.size = 2 ∧
      l.tail = (cells.map Prod.fst).getLast? := by
  have hexec : (Transition.exec step PoolGives (new : ListT Nat) reused).isSome = true := by
    decide +kernel
  obtain ⟨cells, hchain, -, hdata, hsize, -, -, htail, -⟩ :=
    list_refines_sequence (Transition.exec_after hexec)
  exact ⟨cells, hchain, hdata, hsize, htail⟩

end ListT

end BoostCoro.Util
