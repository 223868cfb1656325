import BoostCoro.Coroutine.Triggers
import BoostCoro.Util.LinkedAllocator
/-!
# The blocks of the reactor

The reactor's allocator has its free list as a list of blocks and takes new blocks in the order
of their addresses. It is `linked_allocator_t` over a system that always has memory: each call
gives the same block, and the list threaded through the blocks is the list. What holds in every
run of the allocator so holds of the events in every run of the coroutines.
-/

namespace BoostCoro.Coroutine

open Util.LinkedAllocator (Sound Supplies supplied supplied_succ tracked Proper)

variable {u : Util.LinkedAllocator} {a : LinkedAllocator} {answers : Nat → Util.Answer} {b : Block}

/-- `a` is the allocator `u`, without the memory. -/
structure Models (u : Util.LinkedAllocator) (a : LinkedAllocator) : Prop where
  expandBlocks : u.expandBlocks = LinkedAllocator.expandBlocks
  freeBlocks : a.freeBlocks = a.freeList.length
  wellFormed : a.WellFormed
  sound : ∃ chain, Sound u a.held chain ∧ chain.map Prod.fst = a.freeList

/-- The system answers a refill with the blocks from `fresh` on. -/
def InOrder (fresh : Block) (answers : Nat → Util.Answer) : Prop :=
  ∀ k ≤ LinkedAllocator.expandBlocks, (answers k).map Prod.fst = some (fresh + k)

theorem supplied_inOrder {fresh : Block} (h : InOrder fresh answers) {i n : Nat}
    (hn : i + n ≤ LinkedAllocator.expandBlocks + 1) :
    supplied answers i n = List.range' (fresh + i) n := by
  induction n generalizing i with
  | zero => rfl
  | succ n ih =>
      rw [supplied_succ, h i (by omega), ih (by omega), List.range'_succ]
      rfl

namespace Models

theorem new (blockSize : Nat) :
    Models (.new blockSize LinkedAllocator.expandBlocks) .new where
  expandBlocks := rfl
  freeBlocks := rfl
  wellFormed := LinkedAllocator.new_wellFormed
  sound := ⟨[], Util.LinkedAllocator.new_sound .., rfl⟩

theorem count_eq (h : Models u a) : u.freeBlocks = a.freeBlocks := by
  obtain ⟨chain, hsound, hchain⟩ := h.sound
  rw [hsound.count, h.freeBlocks, ← hchain, List.length_map]

theorem heap_fresh (h : Models u a) {p : Block} (hp : a.fresh ≤ p) : u.heap p = none := by
  obtain ⟨chain, hsound, hchain⟩ := h.sound
  by_contra hne
  have hin := (hsound.owned.mem_iff p).mp (Option.ne_none_iff_exists'.mp hne)
  rw [hchain] at hin
  have hlt := h.wellFormed.below p (List.mem_append.mpr (List.mem_append.mp hin).symm)
  exact absurd hlt (Nat.not_lt.mpr hp)

theorem supplies (h : Models u a) (hanswers : InOrder a.fresh answers) :
    Supplies u.heap answers 0 (u.expandBlocks + 1) := by
  have hfst : ∀ k ≤ LinkedAllocator.expandBlocks, ∀ p ∈ answers k, p.1 = a.fresh + k := by
    intro k hk p hp
    have hanswer := hanswers k hk
    rw [Option.mem_def.mp hp] at hanswer
    exact Option.some.inj hanswer
  rw [h.expandBlocks]
  constructor
  · intro k hk _ p hp
    refine h.heap_fresh ?_
    rw [hfst k (by omega) p hp]
    exact Nat.le_add_right _ _
  · intro k hk j hjk _ p hp heq
    rw [hanswers j (by omega), hfst k (by omega) p hp] at heq
    exact Nat.ne_of_lt hjk (Nat.add_left_cancel (Option.some.inj heq))

/-- `malloc` gives the same block. -/
theorem malloc (h : Models u a) (hanswers : InOrder a.fresh answers) :
    ∃ u', u.malloc u.size answers = .ok (u', a.malloc.1) ∧ Models u' a.malloc.2 := by
  obtain ⟨chain, hsound, hchain⟩ := h.sound
  have hfirst : answers 0 ≠ none := fun hnone => by
    have hanswer := hanswers 0 (Nat.zero_le _)
    rw [hnone] at hanswer
    cases hanswer
  obtain ⟨u', block, chain', hmalloc, hsound', hparams, hblocks⟩ :=
    hsound.malloc fun _ => ⟨hfirst, h.supplies hanswers⟩
  have hready : u.stock answers chain = a.ready.freeList := by
    unfold Util.LinkedAllocator.stock LinkedAllocator.ready
    by_cases hnil : chain = []
    · have hlist : a.freeList = [] := by rw [← hchain, hnil]; rfl
      rw [if_pos hnil, if_pos hlist, h.expandBlocks, supplied_inOrder hanswers (by omega)]
      rfl
    · have hlist : a.freeList ≠ [] := fun heq => hnil (List.map_eq_nil_iff.mp (hchain.trans heq))
      rw [if_neg hnil, if_neg hlist, hchain]
  have hcount : a.ready.freeBlocks = a.ready.freeList.length := by
    unfold LinkedAllocator.ready
    by_cases hlist : a.freeList = []
    · have hzero : a.freeBlocks = 0 := by rw [h.freeBlocks, hlist]; rfl
      rw [if_pos hlist]
      simp [LinkedAllocator.expandFreeList, hzero]
    · rw [if_neg hlist]
      exact h.freeBlocks
  rw [hready] at hblocks
  have hblock : a.malloc.1 = block := by
    show a.ready.freeList.headD 0 = block
    rw [← hblocks]
    rfl
  have htail : a.malloc.2.freeList = chain'.map Prod.fst := by
    show a.ready.freeList.tail = _
    rw [← hblocks]
    rfl
  refine ⟨u', hblock ▸ hmalloc, hparams.expandBlocks.trans h.expandBlocks, ?_,
    h.wellFormed.malloc, chain', ?_, htail.symm⟩
  · show a.ready.freeBlocks - 1 = a.ready.freeList.tail.length
    rw [hcount, List.length_tail]
  · rw [LinkedAllocator.malloc_held, hblock]
    exact hsound'

/-- `free` keeps a block, or gives it back, in both. -/
theorem free (h : Models u a) (hb : b ∈ a.held) :
    ∃ u', u.free (some b) = .ok u' ∧ Models u' (a.free b) := by
  obtain ⟨chain, hsound, hchain⟩ := h.sound
  obtain ⟨u', chain', hfree, hsound', hparams, hblocks⟩ := hsound.free hb
  have htwice : LinkedAllocator.expandBlocks * 2 % 2 ^ 64 = LinkedAllocator.expandBlocks * 2 := rfl
  rw [h.count_eq, h.expandBlocks, hchain, htwice] at hblocks
  have hlist : (a.free b).freeList = chain'.map Prod.fst := by
    rw [hblocks]
    unfold LinkedAllocator.free
    split <;> rfl
  refine ⟨u', hfree, hparams.expandBlocks.trans h.expandBlocks, ?_, h.wellFormed.free hb, chain',
    ?_, hlist.symm⟩
  · unfold LinkedAllocator.free
    split
    · exact h.freeBlocks
    · exact congrArg Nat.succ h.freeBlocks
  · rw [LinkedAllocator.free_held]
    exact hsound'

end Models

/-! ## Over a run -/

/-- The calls of a step on the allocator. -/
inductive AllocatorUse (a : LinkedAllocator) : LinkedAllocator → Prop
  | unused : AllocatorUse a a
  | malloc : AllocatorUse a a.malloc.2
  /-- `set_io` of a coroutine that has a trigger gives the new block back -/
  | discard : AllocatorUse a (a.malloc.2.free a.malloc.1)
  | free {block : Block} (hblock : block ∈ a.held) : AllocatorUse a (a.free block)

theorem Reacts.allocatorUse {s s' : State} {act : Act} {evs : List Obs}
    (h : Reacts s act s' evs) :
    AllocatorUse s.reactor.eventAllocator s'.reactor.eventAllocator := by
  cases h with
  | still _ hreactor =>
      rw [hreactor]
      exact .unused
  | @begins _ w _ _ hstarts =>
      cases htrigger : s.reactor.triggers w.coro with
      | none =>
          obtain ⟨-, hreactor⟩ := hstarts.free htrigger
          rw [hreactor]
          exact .malloc
      | some ptr =>
          obtain ⟨hblock, ⟨-, hreactor⟩ | ⟨-, hreactor⟩⟩ := hstarts.taken htrigger
          · rw [hreactor, hblock]
            exact .discard
          · rw [hreactor]
            exact .malloc
  | ends _ _ _ hreactor =>
      rcases hreactor with ⟨-, hreactor⟩ | ⟨-, hrelease⟩
      · rw [hreactor]
        exact .unused
      · obtain ⟨_, _, hheld, hreactor⟩ := Coreactor.release_ok hrelease
        rw [hreactor]
        exact .free hheld
  | fires _ _ _ hreactor =>
      rw [hreactor]
      exact .unused
  | cancels _ _ _ _ hreactor =>
      rw [hreactor]
      exact .unused

theorem AllocatorUse.wellFormed {a' : LinkedAllocator} (huse : AllocatorUse a a')
    (h : a.WellFormed) : a'.WellFormed := by
  cases huse with
  | unused => exact h
  | malloc => exact h.malloc
  | discard => exact h.malloc.free (a.malloc_held ▸ List.mem_cons_self)
  | free hb => exact h.free hb

/-- A run of `linked_allocator_t` ends with the same blocks handed out and the same free list. -/
def Mirrored (blockSize : Nat) (a : LinkedAllocator) : Prop :=
  ∃ evs u, Transition.Run tracked Proper
    (.new blockSize LinkedAllocator.expandBlocks, []) evs (u, a.held) ∧ Models u a

namespace Mirrored

variable {blockSize : Nat}

theorem malloc (h : Mirrored blockSize a) : Mirrored blockSize a.malloc.2 := by
  obtain ⟨evs, u, hrun, hmodels⟩ := h
  have hanswers : InOrder a.fresh fun k => some (a.fresh + k, none) := fun _ _ => rfl
  obtain ⟨u', hmalloc, hmodels'⟩ := hmodels.malloc hanswers
  have hproper : Proper (u, a.held) (.malloc u.size fun k => some (a.fresh + k, none)) :=
    ⟨rfl, fun _ => ⟨Option.some_ne_none _, hmodels.supplies hanswers⟩⟩
  refine ⟨evs ++ [.handedOut a.malloc.1], u', hrun.snoc hproper ?_, hmodels'⟩
  refine Transition.withHistory_ok.mpr ⟨?_, a.malloc_held⟩
  rw [Util.LinkedAllocator.step, hmalloc]
  rfl

theorem free (h : Mirrored blockSize a) (hb : b ∈ a.held) : Mirrored blockSize (a.free b) := by
  obtain ⟨evs, u, hrun, hmodels⟩ := h
  obtain ⟨u', hfree, hmodels'⟩ := hmodels.free hb
  have hproper : Proper (u, a.held) (.free (some b)) := fun p hp => Option.some.inj hp ▸ hb
  refine ⟨evs ++ [.takenBack b], u', hrun.snoc hproper ?_, hmodels'⟩
  refine Transition.withHistory_ok.mpr ⟨?_, a.free_held b⟩
  rw [Util.LinkedAllocator.step, hfree]
  rfl

theorem use {a' : LinkedAllocator} (h : Mirrored blockSize a) (huse : AllocatorUse a a') :
    Mirrored blockSize a' := by
  cases huse with
  | unused => exact h
  | malloc => exact h.malloc
  | discard => exact h.malloc.free (a.malloc_held ▸ List.mem_cons_self)
  | free hb => exact h.free hb

end Mirrored

/-- In every run the blocks of the events are those of a `linked_allocator_t`. -/
theorem RunOf.mirrored {ok : State → Act → Prop} {tr : List Obs} {s : State} (h : RunOf ok tr s)
    (blockSize : Nat) : Mirrored blockSize s.reactor.eventAllocator := by
  have hnew : Mirrored blockSize .new := ⟨[], _, .refl, .new blockSize⟩
  refine (h.invariant (I := fun s => SchedInv s.toSched ∧
    Mirrored blockSize s.reactor.eventAllocator) (fun s act s' evs hinv _ hstep => ?_)
    ⟨schedInv_init, hnew⟩).2
  obtain ⟨hsched, hmirrored⟩ := hinv
  have heffect := hsched.effect hstep
  exact ⟨hsched.step heffect, hmirrored.use (hsched.reacts heffect).allocatorUse⟩

end BoostCoro.Coroutine
