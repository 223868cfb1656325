import BoostCoro.Coroutine.Flags
/-!
# Messages, callbacks and cancellation

One specification for each call that runs to its end without giving up control.
They all stir the flags only: the scheduling state after them is that before.
-/

namespace BoostCoro.Coroutine

/-- The messages that some events deliver to `c`, in order. -/
def deliveries (c : CoroId) (evs : List Obs) : List MessagePtr :=
  evs.filterMap fun
    | .delivered d m => if d = c then some m else none
    | _ => none

/-- The messages that `mget` of `c` returns in some events, in order. -/
def receipts (c : CoroId) (evs : List Obs) : List MessagePtr :=
  evs.filterMap fun
    | .received d m => if d = c then some m else none
    | _ => none

def Obs.isDelivery : Obs → Bool
  | .delivered _ _ => true
  | _ => false

/-- The events of sending messages. -/
def Obs.sends : Obs → Bool
  | .woken _ => true
  | .delivered _ _ => true
  | _ => false

/-- The events of messages, waits and callbacks. -/
def Obs.quiet : Obs → Bool
  | .woken _ => true
  | .delivered _ _ => true
  | .received _ _ => true
  | .fired _ _ _ _ => true
  | .cancelled _ => true
  | _ => false

@[simp] theorem deliveries_append (c : CoroId) (evs evs' : List Obs) :
    deliveries c (evs ++ evs') = deliveries c evs ++ deliveries c evs' :=
  List.filterMap_append

@[simp] theorem receipts_append (c : CoroId) (evs evs' : List Obs) :
    receipts c (evs ++ evs') = receipts c evs ++ receipts c evs' :=
  List.filterMap_append

namespace State

variable {s s' : State} {w : FlagWord} {c : CoroId} {m : MessagePtr} {evs : List Obs}

/-- Every wake that is reported ends a wait. -/
def Reports (s s' : State) (evs : List Obs) : Prop :=
  ∀ c, Obs.woken c ∈ evs →
    ∃ w, s.chk w c coroEvetWait = true ∧ s'.chk w c coroEvetWait = false

theorem reports_nil (s s' : State) : Reports s s' [] :=
  fun _ h => absurd h List.not_mem_nil

theorem mem_wokenBy {d : CoroId} :
    Obs.woken d ∈ s.wokenBy w c ↔ d = c ∧ s.chk w c coroEvetWait = true := by
  unfold wokenBy
  rw [FlagWord.wait_eq]
  split
  next h => simp [h]
  next h => simp [h]

theorem Wakes.reports (h : Wakes w c s s') : Reports s s' (s.wokenBy w c) := by
  intro d hd
  obtain ⟨rfl, hwait⟩ := mem_wokenBy.mp hd
  exact ⟨w, hwait, h.cleared⟩

@[simp] theorem deliveries_wokenBy (d : CoroId) : deliveries d (s.wokenBy w c) = [] := by
  unfold wokenBy
  split <;> rfl

@[simp] theorem receipts_wokenBy (d : CoroId) : receipts d (s.wokenBy w c) = [] := by
  unfold wokenBy
  split <;> rfl

@[simp] theorem filter_wokenBy : (s.wokenBy w c).filter Obs.isDelivery = [] := by
  unfold wokenBy
  split <;> rfl

theorem Reports.concat {o : Obs} (h : Reports s s' evs) (ho : ∀ c, o ≠ .woken c) :
    Reports s s' (evs ++ [o]) := by
  intro c hc
  rcases List.mem_append.mp hc with hc | hc
  · exact h c hc
  · exact absurd (List.mem_singleton.mp hc).symm (ho c)

theorem quiet_wokenBy : ∀ o ∈ s.wokenBy w c, o.quiet = true := by
  unfold wokenBy
  split <;> simp [Obs.quiet]

theorem sends_wokenBy : ∀ o ∈ s.wokenBy w c, o.sends = true := by
  unfold wokenBy
  split <;> simp [Obs.sends]

/-- Reports add up, as no wait begins in between. -/
theorem Reports.append {s'' : State} {evs' : List Obs} (h : Reports s s' evs)
    (h' : Reports s' s'' evs')
    (hs : ∀ w x, s'.chk w x coroEvetWait = true → s.chk w x coroEvetWait = true)
    (hs' : ∀ w x, s''.chk w x coroEvetWait = true → s'.chk w x coroEvetWait = true) :
    Reports s s'' (evs ++ evs') := by
  intro c hc
  rcases List.mem_append.mp hc with hc | hc
  · obtain ⟨w, hwait, hclear⟩ := h c hc
    refine ⟨w, hwait, ?_⟩
    by_contra hne
    have hback := hs' w c (by simpa using hne)
    rw [hclear] at hback
    cases hback
  · obtain ⟨w, hwait, hclear⟩ := h' c hc
    exact ⟨w, hs w c hwait, hclear⟩

/-! ## `mput` and `mbroadcast` -/

theorem mput_ok (h : s.mput c m = .ok (s', evs)) :
    c ∈ s.pool ∧ Wakes .msg c s s' ∧ s'.reactor = s.reactor ∧
      s'.coroMessages = Function.update s.coroMessages c (s.coroMessages c ++ [m]) ∧
      evs = s.wokenBy .msg c ++ [.delivered c m] := by
  obtain ⟨s₁, hdel, h⟩ := Fallible.bind_eq_ok.mp h
  obtain ⟨rfl, rfl⟩ := Prod.mk.inj (Except.ok.inj h)
  obtain ⟨hlive, hwakes⟩ := delFlag_wait hdel
  have hframe := delFlag_frame hdel
  refine ⟨hlive, ⟨⟨hwakes.sched, hwakes.wait, hwakes.chld, hwakes.told⟩, hwakes.cleared,
    hwakes.others⟩, ?_, ?_, rfl⟩
  · rw [hframe]
  · rw [hframe]

theorem Stirs.setChilds (h : Stirs s s') (owner : Ctx) (l : List CoroId) :
    Stirs (s.setChilds owner l) (s'.setChilds owner l) where
  sched := by
    show s'.toSched.setChilds owner l = s.toSched.setChilds owner l
    rw [h.sched]
  wait := h.wait
  chld := h.chld
  told := h.told

theorem setChilds_setChilds (s : State) (owner : Ctx) (l l' : List CoroId) :
    (s.setChilds owner l).setChilds owner l' = s.setChilds owner l' := by
  simp [State.setChilds, Sched.setChilds]

theorem setChilds_self (s : State) (owner : Ctx) :
    s.setChilds owner (s.coroChilds owner) = s := by
  simp [State.setChilds, Sched.setChilds]

/-- What the deliveries of `m` to the coroutines in `l` leave behind. -/
structure Spreads (m : MessagePtr) (l : List CoroId) (s s' : State) (evs : List Obs) : Prop where
  reactor : s'.reactor = s.reactor
  evet : ∀ c, s'.chk .evet c coroEvetWait = s.chk .evet c coroEvetWait
  reports : Reports s s' evs
  messages : ∀ c, s'.coroMessages c = s.coroMessages c ++ deliveries c evs
  delivered : evs.filter Obs.isDelivery = l.map (Obs.delivered · m)
  received : ∀ c, receipts c evs = []
  sends : ∀ o ∈ evs, o.sends = true
  /-- who still waits for a message got none -/
  missed : ∀ c, s'.chk .msg c coroMesgWait = true →
    s.chk .msg c coroMesgWait = true ∧ deliveries c evs = []

theorem Spreads.quiet {l : List CoroId} (h : Spreads m l s s' evs) :
    ∀ o ∈ evs, o.quiet = true := by
  intro o ho
  have hsends := h.sends o ho
  cases o with
  | woken => rfl
  | delivered => rfl
  | _ => cases hsends

theorem spreads_nil : Spreads m [] s s [] where
  reactor := rfl
  evet := fun _ => rfl
  reports := reports_nil s s
  messages := fun c => by simp [deliveries]
  delivered := rfl
  received := fun _ => rfl
  sends := fun _ h => absurd h List.not_mem_nil
  missed := fun _ h => ⟨h, rfl⟩

theorem mput_spreads (h : s.mput c m = .ok (s', evs)) : Spreads m [c] s s' evs := by
  obtain ⟨_, hwakes, hreactor, hmessages, rfl⟩ := mput_ok h
  constructor
  case reactor => exact hreactor
  case evet => exact fun d => hwakes.others .evet d (.inl nofun)
  case reports => exact hwakes.reports.concat nofun
  case messages =>
    intro d
    rw [hmessages, deliveries_append, deliveries_wokenBy, List.nil_append]
    by_cases hd : c = d
    · subst hd
      simp [deliveries]
    · simp [deliveries, hd, Function.update_of_ne (Ne.symm hd)]
  case delivered =>
    rw [List.filter_append, filter_wokenBy]
    rfl
  case received =>
    intro d
    rw [receipts_append, receipts_wokenBy]
    rfl
  case sends =>
    simp only [List.forall_mem_append, List.forall_mem_singleton]
    exact ⟨sends_wokenBy, rfl⟩
  case missed =>
    intro d hd
    by_cases hdc : d = c
    · rw [hdc] at hd
      exact absurd (hwakes.cleared.symm.trans hd) nofun
    · refine ⟨(hwakes.others .msg d (.inr hdc)).symm.trans hd, ?_⟩
      rw [deliveries_append, deliveries_wokenBy, List.nil_append]
      simp [deliveries, Ne.symm hdc]

theorem Spreads.append {s'' : State} {l l' : List CoroId} {evs' : List Obs}
    (h : Spreads m l s s' evs) (h' : Spreads m l' s' s'' evs')
    (hs : ∀ w x, s'.chk w x coroEvetWait = true → s.chk w x coroEvetWait = true)
    (hs' : ∀ w x, s''.chk w x coroEvetWait = true → s'.chk w x coroEvetWait = true) :
    Spreads m (l ++ l') s s'' (evs ++ evs') where
  reactor := h'.reactor.trans h.reactor
  evet := fun c => (h'.evet c).trans (h.evet c)
  reports := h.reports.append h'.reports hs hs'
  messages := fun c => by
    rw [h'.messages, h.messages, deliveries_append, List.append_assoc]
  delivered := by rw [List.filter_append, h.delivered, h'.delivered, List.map_append]
  received := fun c => by rw [receipts_append, h.received, h'.received, List.append_nil]
  sends := List.forall_mem_append.mpr ⟨h.sends, h'.sends⟩
  missed := fun c hc => by
    obtain ⟨hc', hnone'⟩ := h'.missed c hc
    obtain ⟨hc'', hnone⟩ := h.missed c hc'
    exact ⟨hc'', by rw [deliveries_append, hnone, hnone', List.append_nil]⟩

/-- `n` turns of the loop rotate the list by `n` and serve those in front. -/
theorem broadcastLoop_ok {p : CoroId} {front back : List CoroId}
    (hl : s.coroChilds (some p) = front ++ back)
    (h : broadcastLoop p m front.length s = .ok (s', evs)) :
    Stirs (s.setChilds (some p) (back ++ front)) s' ∧ Spreads m front s s' evs := by
  induction front generalizing s back evs with
  | nil =>
      obtain ⟨rfl, rfl⟩ := Prod.mk.inj (Except.ok.inj h)
      have hself : s.setChilds (some p) (back ++ []) = s := by
        rw [List.append_nil, ← List.nil_append back, ← hl, setChilds_self]
      rw [hself]
      exact ⟨.of_flags_eq rfl rfl, spreads_nil⟩
  | cons child front ih =>
      simp only [List.length_cons, broadcastLoop, hl, List.cons_append] at h
      obtain ⟨⟨s₁, evs₁⟩, hput, h⟩ := Fallible.bind_eq_ok.mp h
      obtain ⟨⟨s₂, evs₂⟩, hloop, h⟩ := Fallible.bind_eq_ok.mp h
      obtain ⟨rfl, rfl⟩ := Prod.mk.inj (Except.ok.inj h)
      have hwakes := (mput_ok hput).2.1
      have hchilds : s₁.coroChilds (some p) = front ++ back := by
        rw [hwakes.sched]
        exact Function.update_self ..
      rw [hchilds] at hloop
      have hrotated : (s₁.setChilds (some p) (front ++ back ++ [child])).coroChilds (some p) =
          front ++ (back ++ [child]) := by simp [State.setChilds, Sched.setChilds]
      obtain ⟨hstirs, hspreads⟩ := ih hrotated hloop
      rw [setChilds_setChilds] at hstirs
      have hfirst := hwakes.toStirs.setChilds (some p) (back ++ [child] ++ front)
      rw [setChilds_setChilds] at hfirst
      rw [show back ++ child :: front = back ++ [child] ++ front by simp]
      -- the list of `p` matters to no field
      have hput' : Spreads m [child] s s₁ evs₁ := { mput_spreads hput with }
      have hrest : Spreads m front s₁ s₂ evs₂ := { hspreads with }
      refine ⟨hfirst.trans hstirs, ?_⟩
      exact hput'.append hrest hwakes.wait hstirs.wait

theorem mbroadcast_ok {p : CoroId} (h : s.mbroadcast p m = .ok (s', evs)) :
    Stirs s s' ∧ Spreads m (s.coroChilds (some p)) s s' evs := by
  obtain ⟨_, _, h⟩ := Fallible.bind_eq_ok.mp h
  have hwhole : s.coroChilds (some p) = s.coroChilds (some p) ++ [] := (List.append_nil _).symm
  have hloop := broadcastLoop_ok hwhole h
  rwa [List.nil_append, setChilds_self] at hloop

/-! ## Callbacks -/

theorem Wakes.raises {s'' : State} (h : Wakes w c s s') (h' : Raises s' s'') :
    Wakes w c s s'' where
  toStirs := h.toStirs.trans h'.stirs
  cleared := (h'.wait w c).trans h.cleared
  others := fun w' x hne => (h'.wait w' x).trans (h.others w' x hne)

theorem cbEvt_ok {events : EventMask} (h : s.cbEvt events c = .ok s') :
    c ∈ s.pool ∧ Wakes .evet c s s' ∧ s' = { s with flags := s'.flags } := by
  obtain ⟨s₁, hdel, h⟩ := Fallible.bind_eq_ok.mp h
  obtain ⟨hlive, hwakes⟩ := delFlag_wait hdel
  have hframe := delFlag_frame hdel
  split at h
  · obtain ⟨hraises, _⟩ := addFlag_raises (by decide) h
    refine ⟨hlive, hwakes.raises hraises, ?_⟩
    rw [hraises.frame, hframe]
  · obtain rfl := Except.ok.inj h
    exact ⟨hlive, hwakes, hframe⟩

theorem fire_ok {b : Block} {watcher : Watcher} {revents : EventMask}
    (h : s.fire b watcher revents = some (.ok (s', evs))) :
    ∃ e, s.reactor.event b = some e ∧ e.mayFire revents watcher = true ∧
      e.evArg ∈ s.pool ∧ Wakes .evet e.evArg s s' ∧ s'.coroMessages = s.coroMessages ∧
      s'.reactor = { s.reactor with
        event := Function.update s.reactor.event b (some (e.fire watcher)) } ∧
      evs = .fired b e.evFd revents e.evArg :: s.wokenBy .evet e.evArg := by
  unfold fire at h
  split at h
  · cases h
  next e he =>
    split at h
    next hmay =>
      obtain ⟨s₁, hcb, h⟩ := Fallible.bind_eq_ok.mp (Option.some.inj h)
      obtain ⟨rfl, rfl⟩ := Prod.mk.inj (Except.ok.inj h)
      obtain ⟨hlive, hwakes, hframe⟩ := cbEvt_ok hcb
      refine ⟨e, he, hmay, hlive, ⟨⟨hwakes.sched, hwakes.wait, hwakes.chld, hwakes.told⟩,
        hwakes.cleared, hwakes.others⟩, ?_, ?_, rfl⟩
      · rw [hframe]
      · rw [hframe]
    next => cases h

/-! ## `cancel` -/

/-- What `cancel` of `c` does when it finds a trigger. -/
theorem cancel_ok {coro : Option CoroId} (h : s.cancel coro = .ok (s', evs)) :
    s' = s ∧ evs = [] ∨
      ∃ c b e, coro.or s.currentCoroutine = some c ∧ s.reactor.triggers c = some (some b) ∧
        s.reactor.event b = some e ∧ Wakes .evet c s s' ∧ s'.coroMessages = s.coroMessages ∧
        s'.reactor = { s.reactor with
          triggers := Function.update s.reactor.triggers c (some none)
          event := Function.update s.reactor.event b (some e.del) } ∧
        evs = s.wokenBy .evet c ++ [.cancelled c] := by
  unfold cancel at h
  split at h
  · obtain ⟨rfl, rfl⟩ := Prod.mk.inj (Except.ok.inj h)
    exact .inl ⟨rfl, rfl⟩
  next c hc =>
    split at h
    · obtain ⟨rfl, rfl⟩ := Prod.mk.inj (Except.ok.inj h)
      exact .inl ⟨rfl, rfl⟩
    next event htrigger =>
      obtain ⟨s₁, hdel, h⟩ := Fallible.bind_eq_ok.mp h
      obtain ⟨s₂, hadd, h⟩ := Fallible.bind_eq_ok.mp h
      obtain ⟨r, hevent, h⟩ := Fallible.bind_eq_ok.mp h
      obtain ⟨rfl, rfl⟩ := Prod.mk.inj (Except.ok.inj h)
      obtain ⟨_, hwakes⟩ := delFlag_wait hdel
      obtain ⟨hraises, _⟩ := addFlag_raises (by decide) hadd
      have hframe : s₂ = { s with flags := s₂.flags } := by
        rw [hraises.frame, delFlag_frame hdel]
      rw [hframe] at hevent
      obtain ⟨b, e, rfl, he, rfl⟩ := Coreactor.eventDel_ok hevent
      have hall := hwakes.raises hraises
      refine .inr ⟨c, b, e, hc, htrigger, he,
        ⟨⟨hall.sched, hall.wait, hall.chld, hall.told⟩, hall.cleared, hall.others⟩,
        ?_, rfl, rfl⟩
      rw [hframe]

/-- A `cancel` that reports nothing finds no trigger. -/
theorem cancel_idle {coro : Option CoroId} (h : s.cancel coro = .ok (s', []))
    (hc : coro.or s.currentCoroutine = some c) : s.reactor.triggers c = none := by
  simp only [cancel, hc] at h
  split at h
  next hnone => exact hnone
  next =>
    obtain ⟨_, _, h⟩ := Fallible.bind_eq_ok.mp h
    obtain ⟨_, _, h⟩ := Fallible.bind_eq_ok.mp h
    obtain ⟨_, _, h⟩ := Fallible.bind_eq_ok.mp h
    exact absurd (Prod.mk.inj (Except.ok.inj h)).2 (by simp)

end State

end BoostCoro.Coroutine
