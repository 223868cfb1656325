import BoostCoro.Lib.Segment
import BoostCoro.Lib.Transition
import Mathlib.Algebra.Ring.Nat
/-!
# The allocator of `util/linked_allocator.h`

`linked_allocator_t` keeps blocks that were given back in a list that is threaded through the
blocks themselves: the first word of a free block is the pointer to the next. The heap is what
the allocator has obtained from the system and has not returned. Who holds a block may write
what it likes into it.
-/

namespace BoostCoro.Util

open Linked (Segment)

/-- The address of a block. -/
abbrev BlockAddr := Nat

/-- A block of the system: its length and its first word, as `free_node_t` reads it. -/
structure Block where
  bytes : Nat
  next : Option BlockAddr
  deriving DecidableEq

/-- How a call can go wrong. -/
inductive AllocatorFault where
  /-- a word that is in no block is read or written -/
  | badPointer
  /-- `::free` of what the system did not give, or not any more -/
  | badFree
  /-- `assert(size == _size)` -/
  | assertSize
  /-- `assert(runner)` -/
  | assertRunner
  /-- the loop of the destructor goes on after as many blocks as `_free_blocks` says -/
  | endless
  deriving DecidableEq, Repr

/-- What the users of the allocator see. -/
inductive BlockEvent where
  | handedOut (block : BlockAddr)
  | takenBack (block : BlockAddr)
  deriving DecidableEq, Repr

/-- `linked_allocator_t<block_size, chunk_size>` and the blocks it has of the system. -/
structure LinkedAllocator where
  size : Nat
  expandBlocks : Nat
  freeBlocks : Nat
  freeList : Option BlockAddr
  heap : BlockAddr → Option Block

/-- The answer of the system's `malloc`: null, or a block with what its first word holds. -/
abbrev Answer := Option (BlockAddr × Option BlockAddr)

namespace LinkedAllocator

def new (blockSize chunkSize : Nat) : LinkedAllocator where
  size := blockSize
  expandBlocks := chunkSize
  freeBlocks := 0
  freeList := none
  heap := fun _ => none

/-! ## The system -/

def sizeofFreeNode : Nat := 8

/-- `::malloc(size)`. -/
def sysMalloc (s : LinkedAllocator) (answer : Answer) (size : Nat) :
    Option BlockAddr × LinkedAllocator :=
  match answer with
  | none => (none, s)
  | some (p, raw) => (some p, { s with heap := Function.update s.heap p (some ⟨size, raw⟩) })

/-- `::free(p)`. -/
def sysFree (s : LinkedAllocator) (p : BlockAddr) : Except AllocatorFault LinkedAllocator :=
  match s.heap p with
  | none => .error .badFree
  | some _ => .ok { s with heap := Function.update s.heap p none }

/-- `p->next`. -/
def load (s : LinkedAllocator) (p : BlockAddr) : Except AllocatorFault (Option BlockAddr) :=
  match s.heap p with
  | none => .error .badPointer
  | some b => if sizeofFreeNode ≤ b.bytes then .ok b.next else .error .badPointer

/-- `p->next = word`. -/
def store (s : LinkedAllocator) (p : BlockAddr) (word : Option BlockAddr) :
    Except AllocatorFault LinkedAllocator :=
  match s.heap p with
  | none => .error .badPointer
  | some b =>
    if sizeofFreeNode ≤ b.bytes then
      .ok { s with heap := Function.update s.heap p (some { b with next := word }) }
    else .error .badPointer

/-! ## The calls -/

/-- `new_sz`. -/
def newSz (s : LinkedAllocator) : Nat :=
  if s.size ≥ sizeofFreeNode then s.size else sizeofFreeNode

/-- `for(size_t i = 0; i < _expand_blocks; i++)`, with the number of turns that are left. -/
def expandLoop (answers : Nat → Answer) :
    Nat → Nat → LinkedAllocator → BlockAddr → Except AllocatorFault (LinkedAllocator × BlockAddr)
  | 0, _, s, runner => .ok (s, runner)
  | turns + 1, i, s, runner => do
    let (next, s) := s.sysMalloc (answers (i + 1)) s.newSz
    let s ← s.store runner next
    match next with
    | none => expandLoop answers turns (i + 1) s runner
    | some next => expandLoop answers turns (i + 1) { s with freeBlocks := s.freeBlocks + 1 } next

/-- `expand_free_list`; the first answer of the system is for the request before the loop. -/
def expandFreeList (s : LinkedAllocator) (answers : Nat → Answer) :
    Except AllocatorFault LinkedAllocator :=
  match s.sysMalloc (answers 0) s.newSz with
  | (none, _) => .error .assertRunner
  | (some runner, s) => do
    let s := { s with freeList := some runner, freeBlocks := s.freeBlocks + 1 }
    let (s, runner) ← expandLoop answers s.expandBlocks 0 s runner
    s.store runner none

/-- `if(0 == _free_list) expand_free_list()`. -/
def ready (s : LinkedAllocator) (answers : Nat → Answer) :
    Except AllocatorFault LinkedAllocator :=
  if s.freeList = none then s.expandFreeList answers else .ok s

def malloc (s : LinkedAllocator) (size : Nat) (answers : Nat → Answer) :
    Except AllocatorFault (LinkedAllocator × BlockAddr) :=
  if size ≠ s.size then .error .assertSize
  else do
    let s ← s.ready answers
    match s.freeList with
    | none => .error .badPointer
    | some head => do
      let next ← s.load head
      .ok ({ s with freeList := next, freeBlocks := s.freeBlocks - 1 }, head)

def free (s : LinkedAllocator) (ptr : Option BlockAddr) : Except AllocatorFault LinkedAllocator :=
  match ptr with
  | none => .ok s
  | some ptr =>
    if s.freeBlocks ≥ s.expandBlocks * 2 % 2 ^ 64 then s.sysFree ptr
    else do
      let s ← s.store ptr s.freeList
      .ok { s with freeList := some ptr, freeBlocks := s.freeBlocks + 1 }

/-- `while(head)`, for at most `n` looks at `head`, with the blocks that it returns. -/
def destructLoop : Nat → LinkedAllocator → Option BlockAddr →
    Except AllocatorFault (LinkedAllocator × List BlockAddr)
  | 0, _, _ => .error .endless
  | _ + 1, s, none => .ok (s, [])
  | n + 1, s, some p => do
    let head ← s.load p
    let s ← s.sysFree p
    let (s, returned) ← destructLoop n s head
    .ok (s, p :: returned)

/-- `~linked_allocator_t()`. -/
def destruct (s : LinkedAllocator) : Except AllocatorFault (LinkedAllocator × List BlockAddr) :=
  destructLoop (s.freeBlocks + 1) s s.freeList

end LinkedAllocator

/-- A call, with the answers of the system to it, or a write of a user into a block. -/
inductive AllocatorCall where
  | malloc (size : Nat) (answers : Nat → Answer)
  | free (ptr : Option BlockAddr)
  | write (block : BlockAddr) (word : Option BlockAddr)

namespace LinkedAllocator

def step (s : LinkedAllocator) :
    AllocatorCall → Option (Except AllocatorFault (LinkedAllocator × List BlockEvent))
  | .malloc size answers => some do
    let (s, block) ← s.malloc size answers
    .ok (s, [.handedOut block])
  | .free ptr => some do
    let s ← s.free ptr
    .ok (s, ptr.toList.map .takenBack)
  | .write block word => some do
    let s ← s.store block word
    .ok (s, [])

/-- The blocks that are handed out. -/
def track (held : List BlockAddr) : BlockEvent → List BlockAddr
  | .handedOut block => block :: held
  | .takenBack block => held.erase block

/-! ## What may be asked -/

/-- Of the requests from `i` on, `n` are answered by blocks that are not in use. -/
structure Supplies (heap : BlockAddr → Option Block) (answers : Nat → Answer) (i n : Nat) :
    Prop where
  unused : ∀ k < i + n, i ≤ k → ∀ p ∈ answers k, heap p.1 = none
  distinct : ∀ k < i + n, ∀ j < k, i ≤ j → ∀ p ∈ answers k, (answers j).map Prod.fst ≠ some p.1

/-- `malloc` is called for blocks of the one size, and of a refill the first request is
answered; what is freed or written to is handed out. -/
def Proper (q : LinkedAllocator × List BlockAddr) : AllocatorCall → Prop
  | .malloc size answers => size = q.1.size ∧ (q.1.freeList = none →
      answers 0 ≠ none ∧ Supplies q.1.heap answers 0 (q.1.expandBlocks + 1))
  | .free ptr => ∀ p ∈ ptr, p ∈ q.2
  | .write block _ => block ∈ q.2

instance (heap : BlockAddr → Option Block) (answers : Nat → Answer) (i n : Nat) :
    Decidable (Supplies heap answers i n) :=
  decidable_of_iff
    ((∀ k < i + n, i ≤ k → ∀ p ∈ answers k, heap p.1 = none) ∧
      ∀ k < i + n, ∀ j < k, i ≤ j → ∀ p ∈ answers k, (answers j).map Prod.fst ≠ some p.1)
    ⟨fun h => ⟨h.1, h.2⟩, fun h => ⟨h.1, h.2⟩⟩

instance (q : LinkedAllocator × List BlockAddr) (call : AllocatorCall) :
    Decidable (Proper q call) := by
  cases call <;> unfold Proper <;> infer_instance

/-! ## What the allocator has of the system -/

/-- `blocks` are what the system gave and was not returned; a link fits into each. -/
structure Owned (heap : BlockAddr → Option Block) (blocks : List BlockAddr) : Prop where
  nodup : blocks.Nodup
  mem_iff : ∀ a, (∃ b, heap a = some b) ↔ a ∈ blocks
  room : ∀ a b, heap a = some b → sizeofFreeNode ≤ b.bytes

namespace Owned

variable {s : LinkedAllocator} {heap : BlockAddr → Option Block} {blocks blocks' : List BlockAddr}
  {a : BlockAddr} {b : Block}

theorem perm (h : Owned heap blocks) (hperm : blocks.Perm blocks') : Owned heap blocks' where
  nodup := hperm.nodup h.nodup
  mem_iff := fun a => (h.mem_iff a).trans hperm.mem_iff
  room := h.room

theorem notMem (h : Owned heap blocks) (ha : heap a = none) : a ∉ blocks := fun hin => by
  obtain ⟨b, hb⟩ := (h.mem_iff a).mpr hin
  rw [ha] at hb
  cases hb

theorem room_update (h : Owned heap blocks) (hb : sizeofFreeNode ≤ b.bytes) (x : BlockAddr)
    (b' : Block) (hx : Function.update heap a (some b) x = some b') :
    sizeofFreeNode ≤ b'.bytes := by
  by_cases hxa : x = a
  · subst hxa
    rw [Function.update_self, Option.some.injEq] at hx
    exact hx ▸ hb
  · rw [Function.update_of_ne hxa] at hx
    exact h.room x b' hx

/-- A block changes. -/
theorem update (h : Owned heap blocks) (ha : a ∈ blocks) (hb : sizeofFreeNode ≤ b.bytes) :
    Owned (Function.update heap a (some b)) blocks where
  nodup := h.nodup
  mem_iff := fun x => by
    by_cases hx : x = a
    · subst hx
      simp [ha]
    · rw [Function.update_of_ne hx]
      exact h.mem_iff x
  room := h.room_update hb

/-- The system gives a block. -/
theorem obtain (h : Owned heap blocks) (ha : heap a = none) (hb : sizeofFreeNode ≤ b.bytes) :
    Owned (Function.update heap a (some b)) (a :: blocks) where
  nodup := List.nodup_cons.mpr ⟨h.notMem ha, h.nodup⟩
  mem_iff := fun x => by
    by_cases hx : x = a
    · subst hx
      simp
    · rw [Function.update_of_ne hx, List.mem_cons, or_iff_right hx]
      exact h.mem_iff x
  room := h.room_update hb

/-- The system gets a block back. -/
theorem release (h : Owned heap (a :: blocks)) :
    Owned (Function.update heap a none) blocks where
  nodup := (List.nodup_cons.mp h.nodup).2
  mem_iff := fun x => by
    by_cases hx : x = a
    · subst hx
      simp [(List.nodup_cons.mp h.nodup).1]
    · rw [Function.update_of_ne hx, h.mem_iff, List.mem_cons, or_iff_right hx]
  room := fun x b' hx => by
    by_cases hxa : x = a
    · subst hxa
      rw [Function.update_self] at hx
      cases hx
    · rw [Function.update_of_ne hxa] at hx
      exact h.room x b' hx

theorem load_eq (h : Owned s.heap blocks) (hb : s.heap a = some b) : s.load a = .ok b.next := by
  unfold load
  rw [hb]
  exact if_pos (h.room a b hb)

theorem store_eq (h : Owned s.heap blocks) (hb : s.heap a = some b) (word : Option BlockAddr) :
    s.store a word =
      .ok { s with heap := Function.update s.heap a (some { b with next := word }) } := by
  unfold store
  rw [hb]
  exact if_pos (h.room a b hb)

theorem sysFree_eq (h : Owned s.heap blocks) (ha : a ∈ blocks) :
    s.sysFree a = .ok { s with heap := Function.update s.heap a none } := by
  obtain ⟨b, hb⟩ := (h.mem_iff a).mpr ha
  unfold sysFree
  rw [hb]

end Owned

/-! ## A refill -/

/-- The parameters of the type are what they were. -/
structure SameParams (s s' : LinkedAllocator) : Prop where
  size : s'.size = s.size
  expandBlocks : s'.expandBlocks = s.expandBlocks

theorem SameParams.trans {s s' s'' : LinkedAllocator} (h : SameParams s s')
    (h' : SameParams s' s'') : SameParams s s'' where
  size := h'.size.trans h.size
  expandBlocks := h'.expandBlocks.trans h.expandBlocks

/-- The blocks that the system gives on `n` requests from `i` on. -/
def supplied (answers : Nat → Answer) (i n : Nat) : List BlockAddr :=
  (List.range' i n).filterMap fun k => (answers k).map Prod.fst

theorem supplied_succ (answers : Nat → Answer) (i n : Nat) :
    supplied answers i (n + 1) =
      ((answers i).map Prod.fst).toList ++ supplied answers (i + 1) n := by
  unfold supplied
  rw [List.range'_succ, List.filterMap_cons]
  cases (answers i).map Prod.fst <;> rfl

theorem length_supplied_le (answers : Nat → Answer) (i n : Nat) :
    (supplied answers i n).length ≤ n := by
  have hle := List.length_filterMap_le (fun k => (answers k).map Prod.fst) (List.range' i n)
  rwa [List.length_range'] at hle

variable {s : LinkedAllocator} {held : List BlockAddr} {answers : Nat → Answer}

theorem sizeofFreeNode_le_newSz (s : LinkedAllocator) : sizeofFreeNode ≤ s.newSz := by
  unfold newSz
  split <;> omega

/-- In the loop of `expand_free_list`: the blocks before `runner` are linked up to it, and what
`runner` points to is not yet said. -/
structure Refilling (s : LinkedAllocator) (held : List BlockAddr) (l : List (BlockAddr × Block))
    (runner : BlockAddr) : Prop where
  chain : Segment s.heap Block.next s.freeList l (some runner)
  count : s.freeBlocks = l.length + 1
  owned : Owned s.heap (held ++ (l.map Prod.fst ++ [runner]))

namespace Refilling

variable {l : List (BlockAddr × Block)} {runner : BlockAddr}

theorem notMem (h : Refilling s held l runner) : runner ∉ l.map Prod.fst := fun hin => by
  have hnodup := (List.nodup_append.mp h.owned.nodup).2.1
  exact (List.nodup_append.mp hnodup).2.2 runner hin runner (List.mem_singleton_self _) rfl

theorem mem (held : List BlockAddr) (l : List (BlockAddr × Block)) (runner : BlockAddr) :
    runner ∈ held ++ (l.map Prod.fst ++ [runner]) := by simp

theorem heap_runner (h : Refilling s held l runner) : ∃ b, s.heap runner = some b :=
  (h.owned.mem_iff runner).mpr (mem held l runner)

/-- `runner->next` becomes null: for the time being, or at the end. -/
theorem stop (h : Refilling s held l runner) :
    ∃ s' b, s.store runner none = .ok s' ∧ Refilling s' held l runner ∧
      s'.heap runner = some b ∧ b.next = none ∧ SameParams s s' ∧
      ∀ a, s'.heap a = none ↔ s.heap a = none := by
  obtain ⟨b, hb⟩ := h.heap_runner
  have hchain := h.chain.update_of_notMem (c := some { b with next := none }) h.notMem
  have howned := h.owned.update (b := { b with next := none }) (mem held l runner)
    (h.owned.room runner b hb)
  refine ⟨_, _, h.owned.store_eq hb none, ⟨hchain, h.count, howned⟩, Function.update_self ..,
    rfl, ⟨rfl, rfl⟩, fun a => ?_⟩
  by_cases ha : a = runner
  · subst ha
    simp [hb]
  · simp [ha]

/-- `runner->next` becomes a new block, and that is the new `runner`. -/
theorem grow (h : Refilling s held l runner) {p : BlockAddr} (hp : s.heap p = none)
    (new : Block) (hroom : sizeofFreeNode ≤ new.bytes) :
    ∃ s' l', { s with heap := Function.update s.heap p (some new) }.store runner (some p) = .ok s' ∧
      Refilling { s' with freeBlocks := s'.freeBlocks + 1 } held l' p ∧
      l'.map Prod.fst = l.map Prod.fst ++ [runner] ∧ SameParams s s' ∧
      ∀ a, s'.heap a = none ↔ s.heap a = none ∧ a ≠ p := by
  obtain ⟨b, hb⟩ := h.heap_runner
  have hunused := h.owned.notMem hp
  have hpl : p ∉ l.map Prod.fst := fun hin => hunused (by simp [hin])
  have hne : runner ≠ p := fun heq => hunused (heq ▸ mem held l runner)
  have hb' : Function.update s.heap p (some new) runner = some b := by
    rw [Function.update_of_ne hne, hb]
  have howned := h.owned.obtain hp hroom
  have hrunner : runner ∈ p :: (held ++ (l.map Prod.fst ++ [runner])) :=
    List.mem_cons_of_mem _ (mem held l runner)
  have hperm : (p :: (held ++ (l.map Prod.fst ++ [runner]))).Perm
      (held ++ ((l ++ [(runner, { b with next := some p })]).map Prod.fst ++ [p])) := by
    have hlast := (List.perm_append_singleton p (held ++ (l.map Prod.fst ++ [runner]))).symm
    simpa using hlast
  have hchain := (h.chain.update_of_notMem (c := some new) hpl).link h.notMem
    { b with next := some p }
  have hgrown := (howned.update (b := { b with next := some p }) hrunner
    (h.owned.room runner b hb)).perm hperm
  refine ⟨_, l ++ [(runner, { b with next := some p })],
    howned.store_eq (s := { s with heap := Function.update s.heap p (some new) }) hb' _,
    ⟨hchain, ?_, hgrown⟩, by simp, ⟨rfl, rfl⟩, fun a => ?_⟩
  · simp [h.count]
  · by_cases ha : a = runner
    · subst ha
      simp [hb]
    · by_cases hap : a = p
      · subst hap
        simp [ha]
      · simp [ha, hap]

end Refilling

/-- After one request the others are answered as before. -/
theorem Supplies.next {heap heap' : BlockAddr → Option Block} {i n : Nat}
    (h : Supplies heap answers i (n + 1))
    (hheap : ∀ a, heap' a = none ↔ heap a = none ∧ (answers i).map Prod.fst ≠ some a) :
    Supplies heap' answers (i + 1) n where
  unused := fun k hk hik p hp => (hheap p.1).mpr
    ⟨h.unused k (by omega) (by omega) p hp, h.distinct k (by omega) i hik (Nat.le_refl i) p hp⟩
  distinct := fun k hk j hjk hij p hp => h.distinct k (by omega) j hjk (by omega) p hp

/-- Whatever requests fail, the loop ends with the blocks linked that were given. -/
theorem Refilling.expandLoop {l : List (BlockAddr × Block)} {runner : BlockAddr} {turns i : Nat}
    (h : Refilling s held l runner) (hsup : Supplies s.heap answers (i + 1) turns) :
    ∃ s' l' runner', expandLoop answers turns i s runner = .ok (s', runner') ∧
      Refilling s' held l' runner' ∧ SameParams s s' ∧
      l'.map Prod.fst ++ [runner'] =
        l.map Prod.fst ++ [runner] ++ supplied answers (i + 1) turns := by
  induction turns generalizing s l runner i with
  | zero => exact ⟨s, l, runner, rfl, h, ⟨rfl, rfl⟩, (List.append_nil _).symm⟩
  | succ turns ih =>
      rw [LinkedAllocator.expandLoop, supplied_succ]
      cases hanswer : answers (i + 1) with
      | none =>
          obtain ⟨s₁, _, hstore, h₁, -, -, hparams, hheap⟩ := h.stop
          have hsup₁ : Supplies s₁.heap answers (i + 1 + 1) turns :=
            hsup.next fun a => by rw [hheap, hanswer]; simp
          obtain ⟨s', l', runner', hrest, h', hparams', hblocks⟩ := ih h₁ hsup₁
          refine ⟨s', l', runner', ?_, h', hparams.trans hparams', hblocks⟩
          simp only [sysMalloc, hstore, Fallible.ok_bind]
          exact hrest
      | some answer =>
          obtain ⟨p, raw⟩ := answer
          have hp : s.heap p = none := hsup.unused (i + 1) (by omega) (Nat.le_refl _) _ hanswer
          obtain ⟨s₁, l₁, hstore, h₁, hblocks₁, hparams, hheap⟩ :=
            h.grow hp ⟨s.newSz, raw⟩ (sizeofFreeNode_le_newSz s)
          have hsup₁ : Supplies s₁.heap answers (i + 1 + 1) turns :=
            hsup.next fun a => by rw [hheap, hanswer]; simp [eq_comm]
          obtain ⟨s', l', runner', hrest, h', hparams', hblocks⟩ := ih h₁ hsup₁
          refine ⟨s', l', runner', ?_, h', hparams.trans ⟨hparams'.1, hparams'.2⟩, ?_⟩
          · simp only [sysMalloc, hstore, Fallible.ok_bind]
            exact hrest
          · rw [hblocks, hblocks₁]
            simp

/-! ## The invariant -/

/-- `held` are the blocks that are handed out, `chain` those of the free list; the allocator has
no others of the system. -/
structure Sound (s : LinkedAllocator) (held : List BlockAddr) (chain : List (BlockAddr × Block)) :
    Prop where
  links : Segment s.heap Block.next s.freeList chain none
  count : s.freeBlocks = chain.length
  bound : s.freeBlocks ≤ 2 * s.expandBlocks
  owned : Owned s.heap (held ++ chain.map Prod.fst)

variable {chain : List (BlockAddr × Block)}

theorem new_sound (blockSize chunkSize : Nat) : Sound (new blockSize chunkSize) [] [] where
  links := rfl
  count := rfl
  bound := Nat.zero_le _
  owned := ⟨List.nodup_nil, by simp [new], nofun⟩

/-- A refill ends in the list of the blocks that the system gave. -/
theorem Sound.expandFreeList (h : Sound s held []) (hfirst : answers 0 ≠ none)
    (hsup : Supplies s.heap answers 0 (s.expandBlocks + 1)) :
    ∃ s' chain, s.expandFreeList answers = .ok s' ∧
      Segment s'.heap Block.next s'.freeList chain none ∧ s'.freeBlocks = chain.length ∧
      Owned s'.heap (held ++ chain.map Prod.fst) ∧ SameParams s s' ∧
      chain.map Prod.fst = supplied answers 0 (s.expandBlocks + 1) := by
  obtain ⟨⟨p, raw⟩, hanswer⟩ := Option.ne_none_iff_exists'.mp hfirst
  have hp : s.heap p = none := hsup.unused 0 (by omega) (Nat.le_refl _) _ hanswer
  have howned : Owned s.heap held := by
    have howned := h.owned
    rwa [List.map_nil, List.append_nil] at howned
  have hstart : Refilling { s with
      heap := Function.update s.heap p (some ⟨s.newSz, raw⟩)
      freeList := some p
      freeBlocks := s.freeBlocks + 1 } held [] p := by
    refine ⟨rfl, congrArg Nat.succ h.count, ?_⟩
    exact (howned.obtain hp (sizeofFreeNode_le_newSz s)).perm
      (List.perm_append_singleton p held).symm
  have hsup₁ : Supplies (Function.update s.heap p (some ⟨s.newSz, raw⟩)) answers (0 + 1)
      s.expandBlocks := hsup.next fun a => by
    by_cases ha : a = p
    · subst ha
      simp [hanswer]
    · simp [ha, hanswer, Ne.symm ha]
  obtain ⟨s₁, l, runner, hloop, h₁, hparams, hblocks⟩ := hstart.expandLoop hsup₁
  obtain ⟨s', b, hstore, h', hb, hnone, hparams', -⟩ := h₁.stop
  have hadds : (l ++ [(runner, b)]).map Prod.fst = l.map Prod.fst ++ [runner] := List.map_append
  refine ⟨s', l ++ [(runner, b)], ?_, h'.chain.append ⟨rfl, hb, hnone⟩, ?_, ?_,
    ⟨hparams'.size.trans hparams.size, hparams'.expandBlocks.trans hparams.expandBlocks⟩, ?_⟩
  · rw [LinkedAllocator.expandFreeList, hanswer]
    simp only [sysMalloc, hloop, hstore, Fallible.ok_bind]
  · rw [List.length_append]
    exact h'.count
  · rw [hadds]
    exact h'.owned
  · rw [hadds, hblocks, supplied_succ, hanswer]
    rfl

/-! ## The calls keep it -/

/-- The free list that `malloc` takes a block from. -/
def stock (s : LinkedAllocator) (answers : Nat → Answer) (chain : List (BlockAddr × Block)) :
    List BlockAddr :=
  if chain = [] then supplied answers 0 (s.expandBlocks + 1) else chain.map Prod.fst

theorem Sound.ready (h : Sound s held chain) (hrefill : s.freeList = none →
      answers 0 ≠ none ∧ Supplies s.heap answers 0 (s.expandBlocks + 1)) :
    ∃ s' x chain', s.ready answers = .ok s' ∧
      Segment s'.heap Block.next s'.freeList (x :: chain') none ∧
      s'.freeBlocks = (x :: chain').length ∧ chain'.length ≤ 2 * s.expandBlocks ∧
      Owned s'.heap (held ++ (x :: chain').map Prod.fst) ∧ SameParams s s' ∧
      (x :: chain').map Prod.fst = s.stock answers chain := by
  cases chain with
  | nil =>
      have hnull : s.freeList = none := h.links
      obtain ⟨hfirst, hsup⟩ := hrefill hnull
      obtain ⟨s', chain', hexpand, hlinks, hcount, howned, hparams, hblocks⟩ :=
        h.expandFreeList hfirst hsup
      have hlength := congrArg List.length hblocks
      have hle := length_supplied_le answers 0 (s.expandBlocks + 1)
      cases chain' with
      | nil =>
          -- the first request was answered
          obtain ⟨answer, hanswer⟩ := Option.ne_none_iff_exists'.mp hfirst
          rw [supplied_succ, hanswer] at hblocks
          cases hblocks
      | cons x chain' =>
          simp only [List.length_map, List.length_cons] at hlength
          refine ⟨s', x, chain', ?_, hlinks, hcount, by omega, howned, hparams, ?_⟩
          · rw [LinkedAllocator.ready, if_pos hnull, hexpand]
          · rw [stock, if_pos rfl, hblocks]
  | cons x chain =>
      have hsome : s.freeList ≠ none := fun hnull => by
        rw [h.links.1] at hnull
        cases hnull
      have hbound := h.bound
      rw [h.count, List.length_cons] at hbound
      refine ⟨s, x, chain, if_neg hsome, h.links, h.count, by omega, h.owned, ⟨rfl, rfl⟩, ?_⟩
      rw [stock, if_neg (List.cons_ne_nil x chain)]

theorem Sound.malloc (h : Sound s held chain) (hrefill : s.freeList = none →
      answers 0 ≠ none ∧ Supplies s.heap answers 0 (s.expandBlocks + 1)) :
    ∃ s' block chain', s.malloc s.size answers = .ok (s', block) ∧
      Sound s' (block :: held) chain' ∧ SameParams s s' ∧
      block :: chain'.map Prod.fst = s.stock answers chain := by
  obtain ⟨s₁, x, chain', hready, hlinks, hcount, hlength, howned, hparams, hblocks⟩ :=
    h.ready hrefill
  have hload := howned.load_eq (s := s₁) (hlinks.cell_eq List.mem_cons_self)
  have hfew : s₁.freeBlocks - 1 = chain'.length := by
    rw [hcount, List.length_cons, Nat.add_sub_cancel]
  have hsound : Sound { s₁ with freeList := x.2.next, freeBlocks := s₁.freeBlocks - 1 }
      (x.1 :: held) chain' :=
    ⟨hlinks.2.2, hfew, hfew ▸ hparams.expandBlocks ▸ hlength, howned.perm List.perm_middle⟩
  refine ⟨_, x.1, chain', ?_, hsound, ⟨hparams.size, hparams.expandBlocks⟩, hblocks⟩
  rw [LinkedAllocator.malloc, if_neg (not_not_intro rfl), hready, Fallible.ok_bind]
  simp only [hlinks.1, hload, Fallible.ok_bind]

/-- A block that is handed out is not on the free list. -/
theorem Sound.notMem_chain {p : BlockAddr} (h : Sound s held chain) (hp : p ∈ held) :
    p ∉ chain.map Prod.fst :=
  fun hin => (List.nodup_append.mp h.owned.nodup).2.2 p hp p hin rfl

theorem Sound.free {p : BlockAddr} (h : Sound s held chain) (hp : p ∈ held) :
    ∃ s' chain', s.free (some p) = .ok s' ∧ Sound s' (held.erase p) chain' ∧ SameParams s s' ∧
      chain'.map Prod.fst = if s.freeBlocks ≥ s.expandBlocks * 2 % 2 ^ 64 then chain.map Prod.fst
        else p :: chain.map Prod.fst := by
  have hmem : p ∈ held ++ chain.map Prod.fst := List.mem_append_left _ hp
  have hoff := h.notMem_chain hp
  have htaken : (held ++ chain.map Prod.fst).Perm (p :: (held.erase p ++ chain.map Prod.fst)) :=
    (List.perm_cons_erase hp).append_right _
  by_cases hfull : s.freeBlocks ≥ s.expandBlocks * 2 % 2 ^ 64
  · -- the block goes back to the system
    have hsound : Sound { s with heap := Function.update s.heap p none } (held.erase p) chain :=
      ⟨h.links.update_of_notMem hoff, h.count, h.bound, (h.owned.perm htaken).release⟩
    refine ⟨_, chain, ?_, hsound, ⟨rfl, rfl⟩, (if_pos hfull).symm⟩
    rw [LinkedAllocator.free]
    simp only [if_pos hfull]
    exact h.owned.sysFree_eq hmem
  · -- the block becomes the head of the free list
    obtain ⟨b, hb⟩ := (h.owned.mem_iff p).mpr hmem
    have howned := h.owned.update (b := { b with next := s.freeList }) hmem
      (h.owned.room p b hb)
    have hle := Nat.mod_le (s.expandBlocks * 2) (2 ^ 64)
    have hsound : Sound { s with
        heap := Function.update s.heap p (some { b with next := s.freeList })
        freeList := some p
        freeBlocks := s.freeBlocks + 1 } (held.erase p)
        ((p, { b with next := s.freeList }) :: chain) := by
      refine ⟨⟨rfl, Function.update_self .., h.links.update_of_notMem hoff⟩,
        congrArg Nat.succ h.count, ?_, howned.perm (htaken.trans List.perm_middle.symm)⟩
      dsimp only
      omega
    refine ⟨_, _, ?_, hsound, ⟨rfl, rfl⟩, (if_neg hfull).symm⟩
    rw [LinkedAllocator.free]
    simp only [if_neg hfull, h.owned.store_eq hb, Fallible.ok_bind]

theorem Sound.write {p : BlockAddr} (h : Sound s held chain) (hp : p ∈ held)
    (word : Option BlockAddr) : ∃ s', s.store p word = .ok s' ∧ Sound s' held chain ∧
      SameParams s s' := by
  have hmem : p ∈ held ++ chain.map Prod.fst := List.mem_append_left _ hp
  have hoff := h.notMem_chain hp
  obtain ⟨b, hb⟩ := (h.owned.mem_iff p).mpr hmem
  have howned := h.owned.update (b := { b with next := word }) hmem (h.owned.room p b hb)
  exact ⟨_, h.owned.store_eq hb word,
    ⟨h.links.update_of_notMem hoff, h.count, h.bound, howned⟩, ⟨rfl, rfl⟩⟩

/-- The destructor returns the blocks of the free list in their order. -/
theorem destructLoop_eq {p : Option BlockAddr} {n : Nat}
    (hlinks : Segment s.heap Block.next p chain none)
    (howned : Owned s.heap (held ++ chain.map Prod.fst)) (hn : chain.length < n) :
    ∃ s', destructLoop n s p = .ok (s', chain.map Prod.fst) ∧ Owned s'.heap held := by
  induction chain generalizing s p n with
  | nil =>
      obtain ⟨n, rfl⟩ := Nat.exists_eq_add_one.mpr hn
      obtain rfl : p = none := hlinks
      rw [List.map_nil, List.append_nil] at howned
      exact ⟨s, rfl, howned⟩
  | cons x chain ih =>
      obtain ⟨n, rfl⟩ := Nat.exists_eq_add_one.mpr (Nat.zero_lt_of_lt hn)
      obtain ⟨rfl, hx, hrest⟩ := hlinks
      have hoff := (List.nodup_cons.mp (List.nodup_append.mp howned.nodup).2.1).1
      have hfreed : Owned (Function.update s.heap x.1 none) (held ++ chain.map Prod.fst) :=
        (howned.perm List.perm_middle).release
      obtain ⟨s', hloop, howned'⟩ := ih (s := { s with heap := Function.update s.heap x.1 none })
        (hrest.update_of_notMem hoff) hfreed (Nat.lt_of_succ_lt_succ hn)
      refine ⟨s', ?_, howned'⟩
      rw [destructLoop, howned.load_eq hx, Fallible.ok_bind, howned.sysFree_eq (by simp),
        Fallible.ok_bind, hloop]
      rfl

theorem Sound.destruct (h : Sound s held chain) :
    ∃ s', s.destruct = .ok (s', chain.map Prod.fst) ∧ Owned s'.heap held :=
  destructLoop_eq h.links h.owned (by rw [h.count]; exact Nat.lt_succ_self _)

/-! ## Over a run -/

/-- The system with the blocks that are handed out. -/
def tracked : Transition.StepFn (LinkedAllocator × List BlockAddr) AllocatorCall AllocatorFault
    BlockEvent := Transition.withHistory step fun _ => track

/-- The allocator is sound, and its parameters are those of its type. -/
def Kept (blockSize chunkSize : Nat) (q : LinkedAllocator × List BlockAddr) : Prop :=
  q.1.size = blockSize ∧ q.1.expandBlocks = chunkSize ∧ ∃ chain, Sound q.1 q.2 chain

variable {blockSize chunkSize : Nat} {q q' : LinkedAllocator × List BlockAddr}
  {call : AllocatorCall}

/-- Every proper call succeeds and keeps the allocator sound. -/
theorem Kept.step (h : Kept blockSize chunkSize q) (hok : Proper q call) :
    ∃ q' evs, tracked q call = some (.ok (q', evs)) ∧ Kept blockSize chunkSize q' := by
  obtain ⟨s, held⟩ := q
  obtain ⟨hsize, hexpand, chain, hsound⟩ := h
  cases call with
  | malloc size answers =>
      obtain ⟨rfl, hrefill⟩ := hok
      obtain ⟨s', block, chain', hmalloc, hsound', hparams, -⟩ := hsound.malloc hrefill
      refine ⟨(s', block :: held), [.handedOut block], ?_, hparams.size.trans hsize,
        hparams.expandBlocks.trans hexpand, chain', hsound'⟩
      refine Transition.withHistory_ok.mpr ⟨?_, rfl⟩
      rw [LinkedAllocator.step, hmalloc]
      rfl
  | free ptr =>
      cases ptr with
      | none => exact ⟨(s, held), [], rfl, hsize, hexpand, chain, hsound⟩
      | some p =>
          obtain ⟨s', chain', hfree, hsound', hparams, -⟩ := hsound.free (hok p rfl)
          refine ⟨(s', held.erase p), [.takenBack p], ?_, hparams.size.trans hsize,
            hparams.expandBlocks.trans hexpand, chain', hsound'⟩
          refine Transition.withHistory_ok.mpr ⟨?_, rfl⟩
          rw [LinkedAllocator.step, hfree]
          rfl
  | write block word =>
      obtain ⟨s', hstore, hsound', hparams⟩ := hsound.write hok word
      refine ⟨(s', held), [], ?_, hparams.size.trans hsize, hparams.expandBlocks.trans hexpand,
        chain, hsound'⟩
      refine Transition.withHistory_ok.mpr ⟨?_, rfl⟩
      rw [LinkedAllocator.step, hstore]
      rfl

theorem kept_of_run {tr : List BlockEvent}
    (h : Transition.Run tracked Proper (new blockSize chunkSize, []) tr q) :
    Kept blockSize chunkSize q := by
  refine h.invariant (fun s call s' evs hkept hok hstep => ?_)
    ⟨rfl, rfl, [], new_sound blockSize chunkSize⟩
  obtain ⟨q', evs', hstep', hkept'⟩ := hkept.step hok
  obtain ⟨rfl, rfl⟩ := Prod.mk.inj (Except.ok.inj (Option.some.inj (hstep'.symm.trans hstep)))
  exact hkept'

/-- No block is handed out twice and none is lost, whatever requests of the system fail. -/
theorem blocks_conserved {tr : List BlockEvent}
    (h : Transition.Run tracked Proper (new blockSize chunkSize, []) tr q) :
    ∃ chain, Segment q.1.heap Block.next q.1.freeList chain none ∧
      (chain.map Prod.fst).Nodup ∧ chain.length = q.1.freeBlocks ∧
      q.1.freeBlocks ≤ 2 * chunkSize ∧
      q.2.Nodup ∧ (∀ a ∈ q.2, a ∉ chain.map Prod.fst) ∧
      (∀ a, (q.1.heap a).isSome = true ↔ a ∈ q.2 ∨ a ∈ chain.map Prod.fst) ∧
      (∃ s, q.1.destruct = .ok (s, chain.map Prod.fst) ∧
        ∀ a, (s.heap a).isSome = true ↔ a ∈ q.2) ∧
      ∀ call, Proper q call → ∃ q' evs, tracked q call = some (.ok (q', evs)) := by
  have hkept := kept_of_run h
  obtain ⟨-, hexpand, chain, hsound⟩ := hkept
  have hnodup := List.nodup_append.mp hsound.owned.nodup
  refine ⟨chain, hsound.links, hnodup.2.1, hsound.count.symm, hexpand ▸ hsound.bound, hnodup.1,
    fun a ha => hsound.notMem_chain ha, fun a => ?_, ?_, fun call hok => ?_⟩
  · rw [Option.isSome_iff_exists, hsound.owned.mem_iff, List.mem_append]
  · obtain ⟨s, hdestruct, howned⟩ := hsound.destruct
    refine ⟨s, hdestruct, fun a => ?_⟩
    rw [Option.isSome_iff_exists, howned.mem_iff]
  · obtain ⟨q', evs, hstep, -⟩ := (kept_of_run h).step hok
    exact ⟨q', evs, hstep⟩

/-- Two blocks are asked for and the third request fails; one of them is written to. -/
def twoOfThree : List AllocatorCall :=
  [.malloc 4 fun i => [some (16, none), some (32, some 7)].getD i none, .write 16 (some 48),
    .malloc 4 fun _ => none, .free (some 16), .free none]

theorem blocks_conserved_twoOfThree :
    let q := (Transition.after tracked Proper (new 4 2, []) twoOfThree).1
    ∃ chain, Segment q.1.heap Block.next q.1.freeList chain none ∧ chain.length = 1 ∧
      q.2 = [32] := by
  have hexec : (Transition.exec tracked Proper (new 4 2, []) twoOfThree).isSome = true := by
    decide +kernel
  obtain ⟨chain, hlinks, -, hlength, -⟩ := blocks_conserved (Transition.run_after hexec)
  exact ⟨chain, hlinks, hlength, rfl⟩

end LinkedAllocator

end BoostCoro.Util
