import BoostCoro.Coroutine.Drain
/-!
# Main and a coroutine side by side

A pass can be made by main or by a coroutine `q`. Two states are twins when they are
the same but for who makes the pass: where main runs in the one, `q` runs in the other,
and the calls of main are calls of `q`. What takes no part in the pass may differ.
Main leaves the CHLD flags that it finds set, so those of some coroutines are stale.
-/

namespace BoostCoro.Coroutine

open Fallible (Both)

/-- Two tables agree at an entry after it, or another one, was set in both. -/
theorem update_congr {α β : Type} [DecidableEq α] {f g : α → β} {a x : α} {v w : β}
    (hself : x = a → v = w) (hother : x ≠ a → f x = g x) :
    Function.update f a v x = Function.update g a w x := by
  by_cases hx : x = a
  · rw [hx, Function.update_self, Function.update_self, hself hx]
  · rw [Function.update_of_ne hx, Function.update_of_ne hx, hother hx]

/-! ## Who stands in for main -/

/-- The context in place of `x` when `q` stands in for main. -/
def standIn (q : CoroId) (x : Ctx) : Ctx := x.or (some q)

@[simp] theorem standIn_none (q : CoroId) : standIn q none = some q := rfl

@[simp] theorem standIn_some (q c : CoroId) : standIn q (some c) = some c := rfl

/-- A call in progress, made by the context in place of its own. -/
def Frame.standIn (q : CoroId) : Frame → Frame
  | resume self coro pc => resume (Coroutine.standIn q self) coro pc
  | resumeChilds self cur loop child => resumeChilds (Coroutine.standIn q self) cur loop child
  | resumeAll => resumeAll
  | yield self pc => yield self pc
  | execute self pc => execute self pc
  | mget self => mget self
  | wait coro spec event => wait coro spec event

def Obs.standIn (q : CoroId) : Obs → Obs
  | handedBack x => handedBack (Coroutine.standIn q x)
  | o => o

/-- What `q` has below the calls that it makes in place of main. -/
def standInBase (q : CoroId) : Ctx → List Frame
  | none => [.execute q .body]
  | some _ => []

/-- The stack of `x`, in the context in its place. -/
def standInStack (q : CoroId) (x : Ctx) (fs : List Frame) : List Frame :=
  fs.map (Frame.standIn q) ++ standInBase q x

/-! ## Flags up to CHLD -/

/-- The words of a coroutine agree; if it is stale, up to CHLD. -/
structure WordsMatch (stale : List CoroId) (c : CoroId) (v v' : StatT) : Prop where
  rest : v' &&& ~~~coroEvetChld = v &&& ~~~coroEvetChld
  same : c ∉ stale → v' = v

theorem WordsMatch.refl (stale : List CoroId) (c : CoroId) (v : StatT) :
    WordsMatch stale c v v := ⟨rfl, fun _ => rfl⟩

theorem WordsMatch.hasBit_wait {stale : List CoroId} {c : CoroId} {v v' : StatT}
    (h : WordsMatch stale c v v') : hasBit v' coroEvetWait = hasBit v coroEvetWait := by
  have hkeep : ~~~coroEvetChld &&& coroEvetWait = coroEvetWait := by decide
  calc hasBit v' coroEvetWait = hasBit (v' &&& ~~~coroEvetChld) coroEvetWait := by
        rw [hasBit_and, hkeep]
    _ = hasBit v coroEvetWait := by rw [h.rest, hasBit_and, hkeep]

/-- Clearing some bits and setting others. -/
theorem WordsMatch.update {stale : List CoroId} {c : CoroId} {v v' : StatT}
    (h : WordsMatch stale c v v') (keep add : StatT) :
    WordsMatch stale c (v &&& keep ||| add) (v' &&& keep ||| add) where
  rest := by
    rw [BitVec.and_or_distrib_right, BitVec.and_or_distrib_right, BitVec.and_assoc,
      BitVec.and_assoc, BitVec.and_comm keep, ← BitVec.and_assoc, ← BitVec.and_assoc, h.rest]
  same := fun hc => by rw [h.same hc]

theorem WordsMatch.or {stale : List CoroId} {c : CoroId} {v v' : StatT}
    (h : WordsMatch stale c v v') (add : StatT) : WordsMatch stale c (v ||| add) (v' ||| add) := by
  have hall := h.update (BitVec.allOnes 16) add
  rwa [BitVec.and_allOnes, BitVec.and_allOnes] at hall

theorem WordsMatch.and {stale : List CoroId} {c : CoroId} {v v' : StatT}
    (h : WordsMatch stale c v v') (keep : StatT) :
    WordsMatch stale c (v &&& keep) (v' &&& keep) := by
  have hall := h.update keep 0#16
  rwa [BitVec.or_zero, BitVec.or_zero] at hall

/-! ## Twins -/

/-- `n` is `m` with `q` in place of main. The lists and stacks of the contexts `aside`
are not compared; their coroutines sleep. The coroutines in `since` have been resumed
since the pass began: these can hand control back to whoever makes the pass. -/
structure Twins (q : CoroId) (aside : List Ctx) (stale : List CoroId) (since : CoroId → Prop)
    (m n : State) : Prop where
  pool : n.pool = m.pool
  coroParent : n.coroParent = m.coroParent
  coroMessages : n.coroMessages = m.coroMessages
  reactor : n.reactor = m.reactor
  current : n.currentCoroutine = standIn q m.currentCoroutine
  running : n.running = standIn q m.running
  stat : ∀ c, some c ∉ aside → n.stat c = m.stat c
  childs : ∀ x, x ∉ aside → n.coroChilds x = m.coroChilds x
  stack : ∀ x, x = none ∨ x ∉ aside → n.stack (standIn q x) = standInStack q x (m.stack x)
  passing : ∀ f ∈ m.stack none, f.isPass = true
  flags : ∀ c ∈ m.pool, ∀ w, WordsMatch stale c (m.flags w c) (n.flags w c)
  pre : ∀ c, since c → n.coroPre c = standIn q (m.coroPre c)
  /-- who gets control back is in `since`, or it cannot take it -/
  preSince : ∀ c d, since c → m.coroPre c = some d →
    since d ∨ d ∉ m.pool ∨ m.stat d = coroStatInit
  runs : ∀ c, m.running = some c → since c
  apart : ∀ c, since c → some c ∉ aside
  main : none ∈ aside
  self : some q ∈ aside
  asleep : ∀ c, some c ∈ aside → c ∈ m.pool ∧ m.stat c = coroStatWait ∧
    n.stat c ≠ coroStatInit ∧ n.stat c ≠ coroStatDone

variable {q c d : CoroId} {aside : List Ctx} {stale : List CoroId} {since : CoroId → Prop}
  {m n : State} {w : FlagWord} {x cur : Ctx} {rest : List Frame}

namespace Twins

/-! ### What twins have in common -/

theorem runner (h : Twins q aside stale since m n) : m.running = none ∨ m.running ∉ aside := by
  cases hrun : m.running with
  | none => exact .inl rfl
  | some c => exact .inr (h.apart c (h.runs c hrun))

theorem runner_stack (h : Twins q aside stale since m n) :
    n.stack n.running = standInStack q m.running (m.stack m.running) := by
  rw [h.running]
  exact h.stack _ h.runner

theorem standIn_ne (h : Twins q aside stale since m n) (hx : x = none ∨ x ∉ aside)
    (hne : x ≠ m.running) : standIn q x ≠ n.running := by
  have hother : ∀ {y : Ctx}, y ∉ aside → some q ≠ y := fun hy heq => hy (heq ▸ h.self)
  rw [h.running]
  cases x with
  | none =>
      cases hrun : m.running with
      | none => exact absurd hrun.symm hne
      | some c => exact hother (h.apart c (h.runs c hrun))
  | some d =>
      cases hrun : m.running with
      | none => exact (hother (hx.resolve_left nofun)).symm
      | some c => rwa [hrun] at hne

theorem done_iff (h : Twins q aside stale since m n) (c : CoroId) :
    n.stat c = coroStatDone ↔ m.stat c = coroStatDone := by
  by_cases hc : some c ∈ aside
  · obtain ⟨-, hwait, -, hdone⟩ := h.asleep c hc
    refine iff_of_false hdone ?_
    rw [hwait]
    decide
  · rw [h.stat c hc]

/-- Who is not in DONE keeps apart. -/
theorem not_aside_of_stat (h : Twins q aside stale since m n) (hc : m.stat c ≠ coroStatWait) :
    some c ∉ aside := fun hmem => hc (h.asleep c hmem).2.1

theorem chk_wait (h : Twins q aside stale since m n) (hlive : c ∈ m.pool) (w : FlagWord) :
    n.chk w c coroEvetWait = m.chk w c coroEvetWait := (h.flags c hlive w).hasBit_wait

theorem waiting (h : Twins q aside stale since m n) (hlive : c ∈ m.pool) :
    n.waiting c = m.waiting c :=
  congrArg₂ or (h.chk_wait hlive .evet) (h.chk_wait hlive .msg)

theorem chk (h : Twins q aside stale since m n) (hlive : c ∈ m.pool) (hc : c ∉ stale)
    (w : FlagWord) (b : StatT) : n.chk w c b = m.chk w c b := by
  unfold State.chk
  rw [(h.flags c hlive w).same hc]

theorem notified (h : Twins q aside stale since m n) (hlive : c ∈ m.pool) (hc : c ∉ stale) :
    n.notified c = m.notified c :=
  congrArg₂ or (h.chk hlive hc .evet _) (h.chk hlive hc .msg _)

/-- The coroutine that makes the pass in the other state. -/
theorem self_ne (h : Twins q aside stale since m n) (hc : some c ∉ aside) : c ≠ q :=
  fun heq => hc (heq ▸ h.self)

theorem checkLive (h : Twins q aside stale since m n) (c : CoroId) :
    Both (fun _ _ => c ∈ m.pool) (m.checkLive c) (n.checkLive c) := by
  unfold Sched.checkLive
  exact .ite (by rw [h.pool]) (fun hc => .ok hc) fun _ => .error _

theorem checkOwner (h : Twins q aside stale since m n) (cur : Ctx) :
    Both (fun _ _ => m.OwnerLive cur) (m.checkOwner cur) (n.checkOwner cur) := by
  cases cur with
  | none => exact .ok nofun
  | some d => exact (h.checkLive d).mono fun _ _ hd e he => Option.some.inj he ▸ hd

/-! ### Changes that leave them twins -/

theorem setFlags (h : Twins q aside stale since m n) (w : FlagWord) {v v' : StatT}
    (hv : WordsMatch stale c v v') :
    Twins q aside stale since (m.setFlags w c v) (n.setFlags w c v') :=
  { h with
    flags := fun d hd w' => by
      rw [State.setFlags_flags, State.setFlags_flags]
      by_cases hself : w' = w ∧ d = c
      · rw [if_pos hself, if_pos hself, hself.2]
        exact hv
      · rw [if_neg hself, if_neg hself]
        exact h.flags d hd w' }

theorem setStack (h : Twins q aside stale since m n) (fs : List Frame)
    (hfs : m.running = none → ∀ f ∈ fs, f.isPass = true) :
    Twins q aside stale since (m.setStack fs) (n.setStack (standInStack q m.running fs)) :=
  { h with
    stack := fun x hx => by
      show (n.toSched.setStack _).stack _ = standInStack q x ((m.toSched.setStack fs).stack x)
      rw [setStack_stack, setStack_stack]
      by_cases hself : x = m.running
      · rw [if_pos hself, if_pos (by rw [hself, h.running]), hself]
      · rw [if_neg hself, if_neg (h.standIn_ne hx hself)]
        exact h.stack x hx
    passing := fun f hf => by
      have hf : f ∈ (m.toSched.setStack fs).stack none := hf
      rw [setStack_stack] at hf
      split at hf
      next hnone => exact hfs hnone.symm f hf
      next => exact h.passing f hf }

theorem setChilds (h : Twins q aside stale since m n) (cur : Ctx) {l l' : List CoroId}
    (hl : cur ∉ aside → l' = l) :
    Twins q aside stale since (m.setChilds cur l) (n.setChilds cur l') :=
  { h with
    childs := fun x hx => by
      show Function.update n.coroChilds cur l' x = Function.update m.coroChilds cur l x
      exact update_congr (fun hself => hl (hself ▸ hx)) fun _ => h.childs x hx }

theorem setMessages (h : Twins q aside stale since m n) (c : CoroId) {l l' : List MessagePtr}
    (hl : l' = l) : Twins q aside stale since
      { m with coroMessages := Function.update m.coroMessages c l }
      { n with coroMessages := Function.update n.coroMessages c l' } :=
  { h with coroMessages := by rw [h.coroMessages, hl] }

theorem setReactor (h : Twins q aside stale since m n) (r : Coreactor) :
    Twins q aside stale since { m with reactor := r } { n with reactor := r } :=
  { h with reactor := rfl }

end Twins

end BoostCoro.Coroutine
