import BoostCoro.Coroutine.Reactor
import BoostCoro.Coroutine.WaitFlags
/-!
# The trigger table and the event blocks

As long as a coroutine that has a trigger starts no wait but a persistent `set_io`,
the table and the allocator agree: each block that is handed out is the trigger of
one coroutine, and every wait that has to clean up finds its own block there.
-/

namespace BoostCoro.Coroutine

open Fallible (Faults)

variable {s s' : State} {a : Act} {evs tr : List Obs} {c : CoroId} {w : Wait} {b : Block}
  {e : Event} {r r' : Coreactor}

/-! ## The table alone -/

/-- The table and the allocator agree. -/
structure Table (r : Coreactor) : Prop where
  allocator : r.eventAllocator.WellFormed
  entry : ∀ c ptr, r.triggers c = some ptr →
    ∃ b e, ptr = some b ∧ b ∈ r.eventAllocator.held ∧ r.event b = some e ∧ e.evArg = c
  held : ∀ b ∈ r.eventAllocator.held, ∃ c, r.triggers c = some (some b)
  event : ∀ b e, r.event b = some e → b ∈ r.eventAllocator.held

namespace Table

theorem new : Table .new where
  allocator := LinkedAllocator.new_wellFormed
  entry := nofun
  held := fun _ h => absurd h List.not_mem_nil
  event := nofun

/-- The event in a block is that of the coroutine whose trigger the block is. -/
theorem trigger (h : Table r) (he : r.event b = some e) : r.triggers e.evArg = some (some b) := by
  obtain ⟨c, hc⟩ := h.held b (h.event b e he)
  obtain ⟨b', e', hb, _, he', harg⟩ := h.entry c _ hc
  obtain rfl := Option.some.inj hb
  rw [he] at he'
  obtain rfl := Option.some.inj he'
  rw [harg]
  exact hc

theorem entry_block (h : Table r) (hc : r.triggers c = some (some b)) :
    b ∈ r.eventAllocator.held ∧ ∃ e, r.event b = some e ∧ e.evArg = c := by
  obtain ⟨b', e, hb, hheld, he, harg⟩ := h.entry c _ hc
  obtain rfl := Option.some.inj hb
  exact ⟨hheld, e, he, harg⟩

/-- Different coroutines have different triggers. -/
theorem injective (h : Table r) {d : CoroId} {ptr : Option Block} (hc : r.triggers c = some ptr)
    (hd : r.triggers d = some ptr) : c = d := by
  obtain ⟨b, e, rfl, _, he, harg⟩ := h.entry c ptr hc
  obtain ⟨_, e', he', harg'⟩ := h.entry_block hd
  rw [he] at he'
  obtain rfl := Option.some.inj he'
  exact harg.symm.trans harg'

/-- A wait of a coroutine without a trigger. -/
theorem enter (h : Table r) (hfree : r.triggers c = none) (harg : e.evArg = c) :
    Table { triggers := Function.update r.triggers c (some (some r.eventAllocator.malloc.1))
            eventAllocator := r.eventAllocator.malloc.2
            event := Function.update r.event r.eventAllocator.malloc.1 (some e) } := by
  have hfresh := h.allocator.malloc_fresh
  have hheld := r.eventAllocator.malloc_held
  constructor
  case allocator => exact h.allocator.malloc
  case entry =>
    intro d ptr hd
    dsimp only at hd ⊢
    rw [hheld]
    by_cases hdc : d = c
    · subst hdc
      rw [Function.update_self] at hd
      exact ⟨_, e, (Option.some.inj hd).symm, List.mem_cons_self, Function.update_self .., harg⟩
    · rw [Function.update_of_ne hdc] at hd
      obtain ⟨b, e', rfl, hb, he', harg'⟩ := h.entry d ptr hd
      have hne : b ≠ r.eventAllocator.malloc.1 := fun heq => hfresh (heq ▸ hb)
      refine ⟨b, e', rfl, List.mem_cons_of_mem _ hb, ?_, harg'⟩
      rw [Function.update_of_ne hne, he']
  case held =>
    intro b hb
    dsimp only at hb ⊢
    rw [hheld] at hb
    rcases List.mem_cons.mp hb with rfl | hb
    · exact ⟨c, Function.update_self ..⟩
    · obtain ⟨d, hd⟩ := h.held b hb
      have hdc : d ≠ c := by
        rintro rfl
        rw [hfree] at hd
        cases hd
      exact ⟨d, (Function.update_of_ne hdc ..).trans hd⟩
  case event =>
    intro b e' he'
    dsimp only at he' ⊢
    rw [hheld]
    by_cases hb : b = r.eventAllocator.malloc.1
    · rw [hb]
      exact List.mem_cons_self
    · rw [Function.update_of_ne hb] at he'
      exact List.mem_cons_of_mem _ (h.event b e' he')

/-- A block that is freed at once. -/
theorem discard (h : Table r) :
    Table { r with
      eventAllocator := r.eventAllocator.malloc.2.free r.eventAllocator.malloc.1
      event := Function.update r.event r.eventAllocator.malloc.1 none } := by
  have hfresh := h.allocator.malloc_fresh
  have hmem : r.eventAllocator.malloc.1 ∈ r.eventAllocator.malloc.2.held :=
    r.eventAllocator.malloc_held ▸ List.mem_cons_self
  have hheld : (r.eventAllocator.malloc.2.free r.eventAllocator.malloc.1).held =
      r.eventAllocator.held := by
    rw [LinkedAllocator.free_held, LinkedAllocator.malloc_held, List.erase_cons_head]
  constructor
  case allocator => exact h.allocator.malloc.free hmem
  case entry =>
    intro d ptr hd
    dsimp only
    obtain ⟨b, e', rfl, hb, he', harg'⟩ := h.entry d ptr hd
    have hne : b ≠ r.eventAllocator.malloc.1 := fun heq => hfresh (heq ▸ hb)
    exact ⟨b, e', rfl, hheld ▸ hb, (Function.update_of_ne hne ..).trans he', harg'⟩
  case held =>
    intro b hb
    dsimp only at hb
    rw [hheld] at hb
    exact h.held b hb
  case event =>
    intro b e' he'
    dsimp only at he' ⊢
    rw [hheld]
    exact h.event b e' (update_none_eq_some.mp he').2

/-- The end of a wait whose block is the trigger of its coroutine. -/
theorem release (h : Table r) (hc : r.triggers c = some (some b)) :
    Table { triggers := Function.update r.triggers c none
            eventAllocator := r.eventAllocator.free b
            event := Function.update r.event b none } := by
  obtain ⟨hb, _⟩ := h.entry_block hc
  have hnodup : r.eventAllocator.held.Nodup := (List.nodup_append.mp h.allocator.nodup).2.1
  constructor
  case allocator => exact h.allocator.free hb
  case entry =>
    intro d ptr hd
    dsimp only at hd ⊢
    have hdc : d ≠ c := by
      rintro rfl
      rw [Function.update_self] at hd
      cases hd
    rw [Function.update_of_ne hdc] at hd
    obtain ⟨b', e', rfl, hb', he', harg'⟩ := h.entry d ptr hd
    have hne : b' ≠ b := fun heq => hdc (h.injective hd (heq ▸ hc))
    refine ⟨b', e', rfl, ?_, (Function.update_of_ne hne ..).trans he', harg'⟩
    rw [LinkedAllocator.free_held]
    exact (List.mem_erase_of_ne hne).mpr hb'
  case held =>
    intro b' hb'
    dsimp only at hb' ⊢
    rw [LinkedAllocator.free_held, hnodup.mem_erase_iff] at hb'
    obtain ⟨d, hd⟩ := h.held b' hb'.2
    have hdc : d ≠ c := by
      rintro rfl
      rw [hc] at hd
      exact hb'.1 (Option.some.inj (Option.some.inj hd)).symm
    exact ⟨d, (Function.update_of_ne hdc ..).trans hd⟩
  case event =>
    intro b' e' he'
    dsimp only at he' ⊢
    obtain ⟨hne, he'⟩ := update_none_eq_some.mp he'
    rw [LinkedAllocator.free_held]
    exact (List.mem_erase_of_ne hne).mpr (h.event b' e' he')

/-- A callback changes what is active in an event, and not its argument. -/
theorem fire (h : Table r) (he : r.event b = some e) (watcher : Watcher) :
    Table { r with event := Function.update r.event b (some (e.fire watcher)) } := by
  constructor
  case allocator => exact h.allocator
  case entry =>
    intro d ptr hd
    obtain ⟨b', e', rfl, hb', he', harg'⟩ := h.entry d ptr hd
    by_cases hbb : b' = b
    · subst hbb
      rw [he] at he'
      obtain rfl := Option.some.inj he'
      exact ⟨b', _, rfl, hb', Function.update_self .., (e.fire_evArg watcher).trans harg'⟩
    · exact ⟨b', e', rfl, hb', (Function.update_of_ne hbb ..).trans he', harg'⟩
  case held => exact h.held
  case event =>
    intro b' e' he'
    dsimp only at he'
    rw [Function.update_apply] at he'
    split at he'
    next hbb => exact hbb ▸ h.event b e he
    next => exact h.event b' e' he'

end Table

/-! ## The table and the waits in progress -/

/-- Each wait in progress is made by the coroutine it is for. -/
def OwnWaits (s : State) : Prop := ∀ x w, s.waitIn x = some w → x = some w.coro

theorem ownWaits_init : OwnWaits State.init := by
  intro x w hw
  cases x with
  | none => cases hw
  | some c => cases hw

theorem OwnWaits.step (h : OwnWaits s) (hok : WaitsOwn s a) (hreacts : Reacts s a s' evs) :
    OwnWaits s' := by
  intro x w hw
  cases hreacts with
  | still hwaits => exact h x w (hwaits ▸ hw)
  | begins hstarts _ _ hwaits =>
      rw [hwaits, Function.update_apply] at hw
      split at hw
      next hx =>
        obtain rfl := Option.some.inj hw
        exact hx.trans (hstarts.self hok)
      next => exact h x w hw
  | ends _ _ hwaits =>
      rw [hwaits, Function.update_apply] at hw
      split at hw
      · cases hw
      · exact h x w hw
  | fires _ _ hwaits => exact h x w (hwaits ▸ hw)
  | cancels _ _ _ hwaits => exact h x w (hwaits ▸ hw)

/-- A wait that has to clean up has its block in the table. -/
structure Triggers (s : State) : Prop where
  table : Table s.reactor
  own : OwnWaits s
  pending : ∀ x w, s.waitIn x = some w → w.spec.persists = false →
    s.reactor.triggers w.coro = some (some w.event)

theorem triggers_init : Triggers State.init where
  table := .new
  own := ownWaits_init
  pending := by
    intro x w hw
    cases x with
    | none => cases hw
    | some c => cases hw

/-- `cancel` is not called. -/
def NoCancel (_ : State) : Act → Prop
  | .user (.cancel _) => False
  | _ => True

instance (s : State) (a : Act) : Decidable (NoCancel s a) := by
  induction a using Act.casesOn with
  | lib => exact instDecidableTrue
  | user u => induction u using User.casesOn <;> unfold NoCancel <;> infer_instance

/-- The running coroutine has no trigger. -/
def Untriggered (s : State) : Prop :=
  match s.running with
  | none => True
  | some c => s.reactor.triggers c = none

instance (s : State) : Decidable (Untriggered s) := by
  unfold Untriggered
  split <;> infer_instance

/-- A wait that cleans up behind itself is started by coroutines without a trigger. -/
def CleansOwn (s : State) : Act → Prop
  | .user (.setIo _ mask _ _) => hasBit mask evPersist = true ∨ Untriggered s
  | .user (.setTimeout timeout _) => timeout ≤ 0 ∨ Untriggered s
  | .user (.setSignal _ _) => Untriggered s
  | _ => True

instance (s : State) (a : Act) : Decidable (CleansOwn s a) := by
  induction a using Act.casesOn with
  | lib => exact instDecidableTrue
  | user u => induction u using User.casesOn <;> unfold CleansOwn <;> infer_instance

theorem StartsWait.cleansOwn {u : User} {spec : WaitSpec} (h : StartsWait s u c spec b r)
    (hok : CleansOwn s (.user u)) (hrun : s.running = some c) :
    spec.persists = true ∨ s.reactor.triggers c = none := by
  have hnone : Untriggered s → s.reactor.triggers c = none := by
    intro hfree
    unfold Untriggered at hfree
    rwa [hrun] at hfree
  cases h with
  | io => exact hok.imp id hnone
  | timeout _ hpos => exact .inr (hnone (hok.resolve_left (by omega)))
  | signal => exact .inr (hnone hok)

theorem Triggers.begins {u : User} (h : Triggers s)
    (hstarts : StartsWait s u w.coro w.spec w.event s'.reactor) (hrun : s.running = some w.coro)
    (hfree : w.spec.persists = true ∨ s.reactor.triggers w.coro = none)
    (hwaits : s'.waitIn = Function.update s.waitIn s.running (some w)) (hown : OwnWaits s') :
    Triggers s' := by
  have hold : ∀ x w', x ≠ s.running → s.waitIn x = some w' → w'.coro ≠ w.coro := by
    intro x w' hx hw' heq
    exact hx ((h.own x w' hw').trans (heq ▸ hrun.symm))
  cases htrigger : s.reactor.triggers w.coro with
  | none =>
      obtain ⟨hb, hr⟩ := hstarts.free htrigger
      refine ⟨?_, hown, ?_⟩
      · rw [hr, hb]
        exact h.table.enter htrigger (newEvent_evArg _ _)
      · intro x w' hw' hpersist
        rw [hr]
        rw [hwaits, Function.update_apply] at hw'
        split at hw'
        · obtain rfl := Option.some.inj hw'
          exact Function.update_self ..
        next hx =>
          exact (Function.update_of_ne (hold x w' hx hw') ..).trans (h.pending x w' hw' hpersist)
  | some ptr =>
      have hpersist : w.spec.persists = true := hfree.resolve_right (by rw [htrigger]; nofun)
      obtain ⟨hb, ⟨_, hr⟩ | ⟨hne, _⟩⟩ := hstarts.taken htrigger
      · refine ⟨?_, hown, ?_⟩
        · rw [hr, hb]
          exact h.table.discard
        · intro x w' hw' hpersist'
          rw [hr]
          rw [hwaits, Function.update_apply] at hw'
          split at hw'
          · obtain rfl := Option.some.inj hw'
            rw [hpersist] at hpersist'
            cases hpersist'
          · exact h.pending x w' hw' hpersist'
      · cases hspec : w.spec with
        | io fd mask timeout => exact absurd hspec (hne fd mask timeout)
        | timeout => rw [hspec] at hpersist; cases hpersist
        | signal => rw [hspec] at hpersist; cases hpersist

theorem Triggers.ends (h : Triggers s) (hwait : s.waitIn s.running = some w)
    (hwaits : s'.waitIn = Function.update s.waitIn s.running none)
    (hreactor : w.spec.persists = true ∧ s'.reactor = s.reactor ∨
      w.spec.persists = false ∧ s.reactor.release w.coro w.event = .ok s'.reactor)
    (hown : OwnWaits s') : Triggers s' := by
  have hold : ∀ x w', s'.waitIn x = some w' → s.waitIn x = some w' ∧ w'.coro ≠ w.coro := by
    intro x w' hw'
    rw [hwaits, Function.update_apply] at hw'
    split at hw'
    · cases hw'
    next hx =>
      refine ⟨hw', fun heq => hx ?_⟩
      rw [h.own x w' hw', heq, ← h.own _ w hwait]
  rcases hreactor with ⟨_, hr⟩ | ⟨hpersist, hrelease⟩
  · refine ⟨hr ▸ h.table, hown, fun x w' hw' hpersist => ?_⟩
    rw [hr]
    exact h.pending x w' (hold x w' hw').1 hpersist
  · obtain ⟨_, _, _, hr⟩ := Coreactor.release_ok hrelease
    refine ⟨?_, hown, fun x w' hw' hpersist' => ?_⟩
    · rw [hr]
      exact h.table.release (h.pending _ w hwait hpersist)
    · obtain ⟨hw', hne⟩ := hold x w' hw'
      rw [hr]
      exact (Function.update_of_ne hne ..).trans (h.pending x w' hw' hpersist')

theorem Triggers.step (h : Triggers s) (hself : WaitsOwn s a) (hcancel : NoCancel s a)
    (hfree : ∀ u c spec b r, a = .user u → StartsWait s u c spec b r → s.running = some c →
      s.waitIn s.running = none → spec.persists = true ∨ s.reactor.triggers c = none)
    (hreacts : Reacts s a s' evs) : Triggers s' := by
  have hown := h.own.step hself hreacts
  cases hreacts with
  | still hwaits hr =>
      refine ⟨hr ▸ h.table, hown, fun x w hw => ?_⟩
      rw [hr]
      exact h.pending x w (hwaits ▸ hw)
  | begins hstarts _ hidle hwaits =>
      have hrun := hstarts.self hself
      exact h.begins hstarts hrun (hfree _ _ _ _ _ rfl hstarts hrun hidle) hwaits hown
  | ends _ hwait hwaits hr => exact h.ends hwait hwaits hr hown
  | fires he _ hwaits hr =>
      refine ⟨?_, hown, fun x w hw => ?_⟩
      · rw [hr]
        exact h.table.fire he _
      · rw [hr]
        exact h.pending x w (hwaits ▸ hw)
  | cancels => exact absurd hcancel id

/-- The runs whose blocks are safe, however control moves. -/
def BlockSafe (s : State) (a : Act) : Prop := WaitsOwn s a ∧ NoCancel s a ∧ CleansOwn s a

instance (s : State) (a : Act) : Decidable (BlockSafe s a) :=
  inferInstanceAs (Decidable (_ ∧ _ ∧ _))

theorem RunOf.triggers (h : RunOf BlockSafe tr s) : SchedInv s.toSched ∧ Triggers s := by
  refine Transition.Run.invariant (I := fun s => SchedInv s.toSched ∧ Triggers s) ?_ h
    ⟨schedInv_init, triggers_init⟩
  intro s a s' evs hinv hok hstep
  obtain ⟨hsched, htriggers⟩ := hinv
  have heffect := hsched.effect hstep
  refine ⟨hsched.step heffect, htriggers.step hok.1 hok.2.1 ?_ (hsched.reacts heffect)⟩
  rintro u c spec b r rfl hstarts hrun _
  exact hstarts.cleansOwn hok.2.2 hrun

/-! ## Blocks are freed once -/

/-- No step passes a block to `event_del` that holds no event, or frees it twice. -/
theorem Triggers.step_faults (h : Triggers s) (hinv : SchedInv s.toSched) (a : Act) :
    s.step a ≠ some (.error .badEvent) ∧ s.step a ≠ some (.error .doubleFree) := by
  have hok : ∀ x, s.step a = some x → Faults (fun f => f ≠ .badEvent ∧ f ≠ .doubleFree) x := by
    intro x hx
    cases a with
    | lib =>
        obtain ⟨-, top, rest, htop, rfl⟩ := State.step_lib_inv hx
        refine State.stepFrame_faults (fun _ _ hb hf => ⟨hb, hf⟩) ?_ ?_ ?_
        · exact fun q fs _ => State.handBack_faults (fun _ => ⟨nofun, nofun⟩)
            (fun _ _ _ => ⟨nofun, nofun⟩) fun _ _ _ => ⟨nofun, nofun⟩
        · exact fun c fs _ => State.handBack_faults (fun _ => ⟨nofun, nofun⟩)
            (fun _ _ _ => ⟨nofun, nofun⟩) fun _ _ _ => ⟨nofun, nofun⟩
        · rintro c spec b rfl hpersist
          obtain ⟨hwait, _⟩ := hinv.waitIn_top (w := ⟨c, spec, b⟩) htop
          obtain ⟨hheld, e, he, _⟩ := h.table.entry_block (h.pending _ _ hwait hpersist)
          refine ⟨fun hnone => ?_, fun hno => absurd hheld hno⟩
          rw [he] at hnone
          cases hnone
    | user u =>
        obtain ⟨-, hcall⟩ := State.step_user_inv hx
        refine State.stepUser_faults (fun _ _ hb hf => ⟨hb, hf⟩) (fun c b hc hnone => ?_) hcall
        obtain ⟨_, e, he, _⟩ := h.table.entry_block hc
        rw [he] at hnone
        cases hnone
  constructor
  · exact fun hfault => (hok _ hfault _ rfl).1 rfl
  · exact fun hfault => (hok _ hfault _ rfl).2 rfl

/-- In every run in which no coroutine that has a trigger starts a wait that cleans up
behind itself, no block is freed twice or given to `event_del` without an event in it,
the events that are registered are those in the table, and a wait cleans up its own. -/
theorem blocks_freed_once (h : RunOf BlockSafe tr s) :
    (∀ a, s.step a ≠ some (.error .badEvent) ∧ s.step a ≠ some (.error .doubleFree)) ∧
    (s.reactor.eventAllocator.freeList ++ s.reactor.eventAllocator.held).Nodup ∧
    (∀ b e, s.reactor.event b = some e → e.active = true →
      s.reactor.triggers e.evArg = some (some b)) ∧
    ∀ c spec b rest, s.stack s.running = .wait c spec b :: rest → spec.persists = false →
      s.reactor.triggers c = some (some b) ∧ b ∈ s.reactor.eventAllocator.held ∧
        ∃ e, s.reactor.event b = some e ∧ e.evArg = c := by
  obtain ⟨hinv, htriggers⟩ := h.triggers
  have htable := htriggers.table
  refine ⟨htriggers.step_faults hinv, htable.allocator.nodup, fun b e he _ => htable.trigger he,
    fun c spec b rest htop hpersist => ?_⟩
  obtain ⟨hwait, _⟩ := hinv.waitIn_top (w := ⟨c, spec, b⟩) htop
  have hc := htriggers.pending _ _ hwait hpersist
  exact ⟨hc, htable.entry_block hc⟩

/-! Pieces of runs with one coroutine. -/

/-- Main creates and attaches coroutine 0 and resumes it. -/
def enterAlone : List Act :=
  [.user (.create 0 0), .user (.child 0), .user (.resumeChilds none), .lib, .lib, .lib, .lib]

/-- Coroutine 0 makes a call that yields, and main ends its pass. -/
def sleepAlone (u : User) : List Act := [.user u, .lib, .lib, .lib, .lib, .lib]

/-- Main resumes coroutine 0 in its `yield`. -/
def wakeAlone : List Act := [.user (.resumeChilds none), .lib, .lib, .lib, .lib]

/-- Coroutine 0 accepts on descriptor 3, is served, and accepts again. -/
def acceptsTwice : List Act :=
  enterAlone ++ sleepAlone (.setIo 3 (evRead ||| evPersist) (-1) none) ++
    [.user (.fire 0 .iosig evRead)] ++ wakeAlone ++ [.lib] ++
    sleepAlone (.setIo 3 (evRead ||| evPersist) (-1) none)

theorem blocks_freed_once_accepts : ∃ tr s, RunOf BlockSafe tr s ∧
    s.reactor.triggers 0 = some (some 0) ∧ s.reactor.eventAllocator.held = [0] ∧
    s.step .lib ≠ some (.error .doubleFree) := by
  have hrun : RunOf BlockSafe _ (Transition.after State.step BlockSafe State.init acceptsTwice).1 :=
    Transition.run_after (by decide +kernel)
  exact ⟨_, _, hrun, by decide +kernel, by decide +kernel, ((blocks_freed_once hrun).1 .lib).2⟩

/-- The runs in which control moves by passes and yields, and each wait is made by the
coroutine it is for. -/
def ReactorDriven (s : State) (a : Act) : Prop := TreeDriven s a ∧ WaitsOwn s a ∧ NoCancel s a

instance (s : State) (a : Act) : Decidable (ReactorDriven s a) :=
  inferInstanceAs (Decidable (_ ∧ _ ∧ _))

/-- Coroutine 0 accepts on descriptor 3, is served, and then waits once to write on
descriptor 4, until the event of the first wait fires again. -/
def acceptThenWrite : List Act :=
  enterAlone ++ sleepAlone (.setIo 3 (evRead ||| evPersist) (-1) none) ++
    [.user (.fire 0 .iosig evRead)] ++ wakeAlone ++ [.lib] ++
    sleepAlone (.setIo 4 evWrite (-1) none) ++ [.user (.fire 0 .iosig evRead)] ++ wakeAlone

/-- The end of a one-shot wait passes a block to `event_del` that `set_io` freed. -/
theorem block_used_after_free : ∃ tr s, RunOf ReactorDriven tr s ∧
    s.step .lib = some (.error .badEvent) := by
  have hfault : Transition.faultAfter State.step ReactorDriven State.init acceptThenWrite .lib =
      some .badEvent := by decide +kernel
  exact Transition.run_of_faultAfter hfault

end BoostCoro.Coroutine
