import BoostCoro.Libev.Loop
import BoostCoro.Lib.Fallible
import Mathlib.Data.List.Nodup
/-!
# File descriptors

`ev_io_start`, `ev_io_stop`, `fd_event`, `fd_change`, `fd_reify` and `fd_kill` of
`libev/ev.c`. A watcher that starts or stops only notes its descriptor in
`fdchanges`; `fd_reify` then brings the backend up to date, so that it waits on
every descriptor for exactly what the active watchers on it are for.
-/

namespace BoostCoro.Libev

variable {ι τ : Type} [DecidableEq ι]

namespace Fds

/-- `EV_ANFD_REIFY`. -/
def evAnfdReify : BitVec 8 := 1

/-- `fd_change`. -/
def fdChange (f : Fds ι) (fd : Nat) (flags : BitVec 8) : Fds ι :=
  let reify := (f.anfds fd).reify
  { f with
    anfds := Function.update f.anfds fd { f.anfds fd with reify := reify ||| flags }
    fdchanges := if reify = 0 then f.fdchanges ++ [fd] else f.fdchanges }

/-- The part of `ev_io_start` that is about the descriptor. -/
def start (f : Fds ι) (w : ι) (fd : Nat) : Fds ι :=
  let events := f.events w
  let f :=
    { f with
      active := Function.update f.active w 1
      anfds := Function.update f.anfds fd { f.anfds fd with head := w :: (f.anfds fd).head } }
  let f := f.fdChange fd ((events &&& evIofdset).setWidth 8 ||| evAnfdReify)
  { f with events := Function.update f.events w (events &&& ~~~evIofdset) }

/-- The part of `ev_io_stop` that is about the descriptor. -/
def stop (f : Fds ι) (w : ι) (fd : Nat) : Fds ι :=
  let f :=
    { f with
      active := Function.update f.active w 0
      anfds := Function.update f.anfds fd
        { f.anfds fd with head := (f.anfds fd).head.erase w } }
  f.fdChange fd evAnfdReify

/-- The union of the masks of some watchers. -/
def unionOf (events : ι → Revents) (ws : List ι) : BitVec 8 :=
  ws.foldl (fun mask w => mask ||| (events w).setWidth 8) 0

/-- One turn of the loop of `fd_reify`. -/
def reifyFd (f : Fds ι) (fd : Nat) : Fds ι :=
  let anfd := f.anfds fd
  let events := unionOf f.events anfd.head
  let oReify := if anfd.events ≠ events then evIofdset.setWidth 8 else anfd.reify
  { f with
    anfds := Function.update f.anfds fd { anfd with reify := 0, events }
    interest :=
      if oReify &&& evIofdset.setWidth 8 ≠ 0 then Function.update f.interest fd events
      else f.interest }

/-- `fd_reify`. -/
def fdReify (f : Fds ι) : Fds ι :=
  { f.fdchanges.foldl reifyFd f with fdchanges := [] }

end Fds

namespace Loop

/-- `ev_io_start`. -/
def evIoStart (l : Loop ι τ) (w : ι) : Except Fault (Loop ι τ) :=
  if l.fds.active w ≠ 0 then .ok l
  else if l.fds.fd w < 0 then .error .negativeFd
  else if l.fds.events w &&& ~~~(evIofdset ||| evRead ||| evWrite) ≠ 0 then
    .error .illegalEventMask
  else .ok { l.evRef with fds := l.fds.start w (l.fds.fd w).toNat }

/-- `ev_io_stop`. -/
def evIoStop (l : Loop ι τ) (w : ι) : Except Fault (Loop ι τ) :=
  let l := l.clearPending (.io w)
  if l.fds.active w = 0 then .ok l
  else if l.fds.fd w < 0 then .error .negativeFd
  else .ok { l.evUnref with fds := l.fds.stop w (l.fds.fd w).toNat }

/-- `fd_event_nocheck`. -/
def fdEventNocheck (l : Loop ι τ) (fd : Nat) (revents : Revents) : Loop ι τ :=
  (l.fds.anfds fd).head.foldl (fun l w =>
    let ev := l.fds.events w &&& revents
    if ev ≠ 0 then l.evFeedEvent (.io w) ev else l) l

/-- `fd_event`: descriptors that changed while the backend polled are left alone. -/
def fdEvent (l : Loop ι τ) (fd : Nat) (revents : Revents) : Loop ι τ :=
  if (l.fds.anfds fd).reify = 0 then l.fdEventNocheck fd revents else l

def fdReify (l : Loop ι τ) : Loop ι τ := { l with fds := l.fds.fdReify }

/-- The loop of `fd_kill`, with a bound on its turns. -/
def fdKillLoop : Nat → Loop ι τ → Nat → Except Fault (Loop ι τ)
  | n, l, fd =>
    match (l.fds.anfds fd).head with
    | [] => .ok l
    | w :: _ =>
      match n with
      | 0 => .error .spins
      | n + 1 => do
        let l ← l.evIoStop w
        fdKillLoop n (l.evFeedEvent (.io w) (evError ||| evRead ||| evWrite)) fd

/-- `fd_kill`: as many turns as there are watchers. -/
def fdKill (l : Loop ι τ) (fd : Nat) : Except Fault (Loop ι τ) :=
  fdKillLoop (l.fds.anfds fd).head.length l fd

end Loop

/-! ## Watchers and descriptors -/

namespace Fds

/-- The list of a descriptor has its active watchers, each once; `ev_verify` asserts what
it says of the watchers in the lists. -/
structure Listed (f : Fds ι) : Prop where
  head : ∀ w fd, w ∈ (f.anfds fd).head ↔ f.active w ≠ 0 ∧ f.fd w = fd
  nodup : ∀ fd, (f.anfds fd).head.Nodup
  one : ∀ w, f.active w ≠ 0 → f.active w = 1
  mask : ∀ w, f.active w ≠ 0 → f.events w &&& ~~~(evRead ||| evWrite) = 0
  nonneg : ∀ w, f.active w ≠ 0 → 0 ≤ f.fd w

/-- The descriptors that wait for `fd_reify` are in `fdchanges`, each once, and the others
have the union of the masks of their watchers; the backend knows what `ANFD` says. -/
structure Synced (f : Fds ι) : Prop where
  changes : ∀ fd, fd ∈ f.fdchanges ↔ (f.anfds fd).reify ≠ 0
  nodup : f.fdchanges.Nodup
  events : ∀ fd, (f.anfds fd).reify = 0 →
    (f.anfds fd).events = unionOf f.events (f.anfds fd).head
  interest : ∀ fd, f.interest fd = (f.anfds fd).events

variable {f : Fds ι} {w : ι} {fd : Nat} {flags : BitVec 8}

omit [DecidableEq ι] in
theorem unionOf_congr {e e' : ι → Revents} {ws : List ι} (h : ∀ w ∈ ws, e' w = e w) :
    unionOf e' ws = unionOf e ws := by
  unfold unionOf
  generalize (0 : BitVec 8) = mask
  induction ws generalizing mask with
  | nil => rfl
  | cons w ws ih =>
      rw [List.forall_mem_cons] at h
      rw [List.foldl_cons, List.foldl_cons, h.1, ih h.2]

omit [DecidableEq ι] in
/-- The bits of a union of masks. -/
theorem getLsbD_unionOf (e : ι → Revents) (ws : List ι) {b : Nat} (hb : b < 8) :
    (unionOf e ws).getLsbD b = true ↔ ∃ w ∈ ws, (e w).getLsbD b = true := by
  have hgen : ∀ mask : BitVec 8, (ws.foldl (fun mask w => mask ||| (e w).setWidth 8)
      mask).getLsbD b = true ↔ mask.getLsbD b = true ∨ ∃ w ∈ ws, (e w).getLsbD b = true := by
    induction ws with
    | nil => simp
    | cons w ws ih =>
        intro mask
        rw [List.foldl_cons, ih]
        simp [hb, or_assoc]
  rw [unionOf, hgen]
  simp

omit [DecidableEq ι] in
/-- A change of one descriptor, after which it waits for `fd_reify`. -/
theorem Synced.fdChange {g : Fds ι} (h : f.Synced) (hflags : flags ≠ 0)
    (hchanges : g.fdchanges = f.fdchanges) (hinterest : g.interest = f.interest)
    (hother : ∀ x, x ≠ fd → g.anfds x = f.anfds x ∧
      unionOf g.events (f.anfds x).head = unionOf f.events (f.anfds x).head)
    (hreify : (g.anfds fd).reify = (f.anfds fd).reify)
    (hevents : (g.anfds fd).events = (f.anfds fd).events) : (g.fdChange fd flags).Synced := by
  have hset : (g.anfds fd).reify ||| flags ≠ 0 := fun hzero =>
    hflags (BitVec.or_eq_zero_iff.mp hzero).2
  have hself : (g.fdChange fd flags).anfds fd =
      { g.anfds fd with reify := (g.anfds fd).reify ||| flags } := Function.update_self ..
  have hne : ∀ x, x ≠ fd → (g.fdChange fd flags).anfds x = f.anfds x := fun x hx =>
    (Function.update_of_ne hx ..).trans (hother x hx).1
  have hlist : (g.fdChange fd flags).fdchanges =
      if (f.anfds fd).reify = 0 then f.fdchanges ++ [fd] else f.fdchanges := by
    simp only [Fds.fdChange, hreify, hchanges]
  constructor
  · intro x
    rw [hlist]
    by_cases hx : x = fd
    · subst hx
      rw [hself]
      refine iff_of_true ?_ hset
      split
      next => simp
      next hold => exact (h.changes x).mpr hold
    · rw [hne x hx, ← h.changes]
      split <;> simp [hx]
  · rw [hlist]
    split
    next hnew =>
      refine List.nodup_append.mpr ⟨h.nodup, List.nodup_singleton fd, fun x hx y hy => ?_⟩
      rw [List.mem_singleton.mp hy]
      rintro rfl
      exact (h.changes x).mp hx hnew
    next => exact h.nodup
  · intro x hx
    by_cases hxf : x = fd
    · rw [hxf, hself] at hx
      exact absurd hx hset
    · rw [hne x hxf] at hx ⊢
      exact (h.events x hx).trans (hother x hxf).2.symm
  · intro x
    have hsame : (g.fdChange fd flags).interest x = f.interest x := congrFun hinterest x
    rw [hsame, h.interest]
    by_cases hxf : x = fd
    · rw [hxf, hself]
      exact hevents.symm
    · rw [hne x hxf]

omit [DecidableEq ι] in
theorem evIofdset_clear {events : Revents}
    (h : events &&& ~~~(evIofdset ||| evRead ||| evWrite) = 0) :
    events &&& ~~~evIofdset &&& ~~~(evRead ||| evWrite) = 0 := by
  rw [BitVec.or_assoc, BitVec.not_or, ← BitVec.and_assoc] at h
  exact h

theorem Listed.start (h : f.Listed) (hw : f.active w = 0) (hfd : f.fd w = fd)
    (hmask : f.events w &&& ~~~(evIofdset ||| evRead ||| evWrite) = 0) :
    (f.start w fd).Listed := by
  have hhead : ∀ x, ((f.start w fd).anfds x).head =
      if x = fd then w :: (f.anfds fd).head else (f.anfds x).head := by
    intro x
    by_cases hx : x = fd
    · simp [Fds.start, Fds.fdChange, hx]
    · simp [Fds.start, Fds.fdChange, hx]
  have hactive : (f.start w fd).active = Function.update f.active w 1 := rfl
  have hevents : (f.start w fd).events =
      Function.update f.events w (f.events w &&& ~~~evIofdset) := rfl
  have hsame : (f.start w fd).fd = f.fd := rfl
  have hout : ∀ x, w ∉ (f.anfds x).head := fun x hx => ((h.head w x).mp hx).1 hw
  constructor
  · intro v x
    rw [hhead, hactive, hsame]
    by_cases hv : v = w
    · subst hv
      rw [Function.update_self, hfd]
      split
      next hx => simp [hx]
      next hx =>
        refine iff_of_false (hout x) ?_
        rintro ⟨-, heq⟩
        exact hx (by exact_mod_cast heq.symm)
    · rw [Function.update_of_ne hv, ← h.head]
      split
      next hx => simp [hx, hv]
      next => rfl
  · intro x
    rw [hhead]
    split
    · exact List.nodup_cons.mpr ⟨hout fd, h.nodup fd⟩
    · exact h.nodup x
  · intro v hv
    rw [hactive] at hv ⊢
    by_cases hvw : v = w
    · rw [hvw, Function.update_self]
    · rw [Function.update_of_ne hvw] at hv ⊢
      exact h.one v hv
  · intro v hv
    rw [hactive] at hv
    rw [hevents]
    by_cases hvw : v = w
    · rw [hvw, Function.update_self]
      exact evIofdset_clear hmask
    · rw [Function.update_of_ne hvw] at hv ⊢
      exact h.mask v hv
  · intro v hv
    rw [hactive] at hv
    rw [hsame]
    by_cases hvw : v = w
    · rw [hvw, hfd]
      exact Int.natCast_nonneg fd
    · rw [Function.update_of_ne hvw] at hv
      exact h.nonneg v hv

theorem Synced.start (h : f.Synced) (hlisted : f.Listed) (hw : f.active w = 0) :
    (f.start w fd).Synced := by
  have hset : (f.events w &&& evIofdset).setWidth 8 ||| evAnfdReify ≠ 0 := fun hzero =>
    absurd (BitVec.or_eq_zero_iff.mp hzero).2 (by decide)
  have hunion : ∀ x, unionOf (Function.update f.events w (f.events w &&& ~~~evIofdset))
      (f.anfds x).head = unionOf f.events (f.anfds x).head := by
    intro x
    refine unionOf_congr fun v hv => ?_
    have hne : v ≠ w := by
      rintro rfl
      exact ((hlisted.head v x).mp hv).1 hw
    exact Function.update_of_ne hne ..
  exact h.fdChange (g := { f with
    active := Function.update f.active w 1
    events := Function.update f.events w (f.events w &&& ~~~evIofdset)
    anfds := Function.update f.anfds fd { f.anfds fd with head := w :: (f.anfds fd).head } })
    hset rfl rfl (fun x hx => ⟨Function.update_of_ne hx .., hunion x⟩) (by simp) (by simp)

theorem Listed.stop (h : f.Listed) (hfd : f.fd w = fd) : (f.stop w fd).Listed := by
  have hhead : ∀ x, ((f.stop w fd).anfds x).head =
      if x = fd then (f.anfds fd).head.erase w else (f.anfds x).head := by
    intro x
    by_cases hx : x = fd
    · simp [Fds.stop, Fds.fdChange, hx]
    · simp [Fds.stop, Fds.fdChange, hx]
  have hactive : (f.stop w fd).active = Function.update f.active w 0 := rfl
  have hsame : (f.stop w fd).fd = f.fd ∧ (f.stop w fd).events = f.events := ⟨rfl, rfl⟩
  constructor
  · intro v x
    rw [hhead, hactive, hsame.1]
    by_cases hv : v = w
    · subst hv
      rw [Function.update_self]
      refine iff_of_false ?_ fun hx => hx.1 rfl
      split
      next => exact (h.nodup fd).not_mem_erase
      next hx =>
        intro hmem
        have heq := ((h.head v x).mp hmem).2
        rw [hfd] at heq
        exact hx (by exact_mod_cast heq.symm)
    · rw [Function.update_of_ne hv, ← h.head]
      split
      next hx => rw [hx, List.mem_erase_of_ne hv]
      next => rfl
  · intro x
    rw [hhead]
    split
    · exact (h.nodup fd).erase w
    · exact h.nodup x
  · intro v hv
    rw [hactive] at hv ⊢
    by_cases hvw : v = w
    · simp [hvw] at hv
    · rw [Function.update_of_ne hvw] at hv ⊢
      exact h.one v hv
  · intro v hv
    rw [hactive] at hv
    rw [hsame.2]
    by_cases hvw : v = w
    · simp [hvw] at hv
    · rw [Function.update_of_ne hvw] at hv
      exact h.mask v hv
  · intro v hv
    rw [hactive] at hv
    rw [hsame.1]
    by_cases hvw : v = w
    · simp [hvw] at hv
    · rw [Function.update_of_ne hvw] at hv
      exact h.nonneg v hv

theorem Synced.stop (h : f.Synced) : (f.stop w fd).Synced :=
  h.fdChange (g := { f with
    active := Function.update f.active w 0
    anfds := Function.update f.anfds fd
      { f.anfds fd with head := (f.anfds fd).head.erase w } })
    (by decide) rfl rfl (fun x hx => ⟨Function.update_of_ne hx .., rfl⟩) (by simp) (by simp)

omit [DecidableEq ι] in
/-- One turn of the loop of `fd_reify`; the backend is told unless it knows. -/
theorem reifyFd_interest (h : f.interest fd = (f.anfds fd).events) :
    (f.reifyFd fd).interest =
      Function.update f.interest fd (unionOf f.events (f.anfds fd).head) := by
  by_cases heq : (f.anfds fd).events = unionOf f.events (f.anfds fd).head
  · simpa [reifyFd, heq] using fun _ => h.trans heq
  · have hset : evIofdset.setWidth 8 &&& evIofdset.setWidth 8 ≠ (0 : BitVec 8) := by decide
    simp only [reifyFd, heq, hset, ne_eq, not_false_eq_true, if_true]

omit [DecidableEq ι] in
/-- The loop of `fd_reify` over some descriptors. -/
theorem foldl_reifyFd (h : ∀ x, f.interest x = (f.anfds x).events) (fds : List Nat) :
    let g := fds.foldl reifyFd f
    g.active = f.active ∧ g.fd = f.fd ∧ g.events = f.events ∧
      (∀ x, g.anfds x = if x ∈ fds then
        { f.anfds x with reify := 0, events := unionOf f.events (f.anfds x).head }
        else f.anfds x) ∧
      ∀ x, g.interest x = (g.anfds x).events := by
  induction fds generalizing f with
  | nil => exact ⟨rfl, rfl, rfl, fun x => by simp, h⟩
  | cons fd fds ih =>
      have hnext : ∀ x, (f.reifyFd fd).interest x = ((f.reifyFd fd).anfds x).events := by
        intro x
        rw [reifyFd_interest (h fd)]
        by_cases hx : x = fd
        · simp [reifyFd, hx]
        · simp [reifyFd, hx, h]
      obtain ⟨hactive, hfd, hevents, hanfds, hinterest⟩ := ih hnext
      refine ⟨hactive, hfd, hevents, fun x => ?_, hinterest⟩
      rw [List.foldl_cons, hanfds]
      have hsame : (f.reifyFd fd).events = f.events := rfl
      by_cases hx : x = fd
      · subst hx
        simp [reifyFd]
      · simp [reifyFd, hx]

omit [DecidableEq ι] in
/-- `fd_reify` leaves the watchers and their lists alone. -/
theorem Synced.fdReify_same (h : f.Synced) :
    f.fdReify.active = f.active ∧ f.fdReify.fd = f.fd ∧ f.fdReify.events = f.events ∧
      ∀ x, (f.fdReify.anfds x).head = (f.anfds x).head := by
  obtain ⟨hactive, hfd, hevents, hanfds, -⟩ := foldl_reifyFd h.interest f.fdchanges
  refine ⟨hactive, hfd, hevents, fun x => ?_⟩
  refine (congrArg Anfd.head (hanfds x)).trans ?_
  split <;> rfl

omit [DecidableEq ι] in
theorem Listed.fdReify (h : f.Listed) (hs : f.Synced) : f.fdReify.Listed := by
  obtain ⟨hactive, hfd, hevents, hhead⟩ := hs.fdReify_same
  constructor
  · intro v x
    rw [hhead, hactive, hfd, h.head]
  · intro x
    rw [hhead]
    exact h.nodup x
  · rw [hactive]
    exact h.one
  · rw [hactive, hevents]
    exact h.mask
  · rw [hactive, hfd]
    exact h.nonneg

omit [DecidableEq ι] in
/-- After `fd_reify` no descriptor waits, and the backend waits on each for the union of the
masks of its watchers. -/
theorem Synced.fdReify (h : f.Synced) :
    f.fdReify.Synced ∧ ∀ fd, f.fdReify.interest fd =
      unionOf f.events (f.anfds fd).head := by
  obtain ⟨-, -, hevents, hanfds, hinterest⟩ := foldl_reifyFd h.interest f.fdchanges
  have hevents' : f.fdReify.events = f.events := hevents
  have hfull : ∀ x, f.fdReify.anfds x =
      { f.anfds x with reify := 0, events := unionOf f.events (f.anfds x).head } := by
    intro x
    refine (hanfds x).trans ?_
    split
    next => rfl
    next hout =>
      rw [h.changes, not_not] at hout
      rw [← h.events x hout, ← hout]
  have hinterest' : ∀ x, f.fdReify.interest x = (f.fdReify.anfds x).events := hinterest
  refine ⟨⟨fun x => ?_, List.nodup_nil, fun x _ => ?_, hinterest'⟩, fun x => ?_⟩
  · rw [hfull]
    exact iff_of_false List.not_mem_nil (not_not.mpr rfl)
  · rw [hfull, hevents']
  · rw [hinterest', hfull]

omit [DecidableEq ι] in
/-- The watchers of a descriptor are for exactly the events that the backend waits for after
`fd_reify`. -/
theorem interest_fdReify (hlisted : f.Listed) (h : f.Synced) (fd : Nat) {b : Nat} (hb : b < 8) :
    (f.fdReify.interest fd).getLsbD b = true ↔
      ∃ w, f.active w ≠ 0 ∧ f.fd w = fd ∧ (f.events w).getLsbD b = true := by
  rw [h.fdReify.2, getLsbD_unionOf _ _ hb]
  constructor
  · rintro ⟨w, hw, hbit⟩
    obtain ⟨hactive, hfd⟩ := (hlisted.head w fd).mp hw
    exact ⟨w, hactive, hfd, hbit⟩
  · rintro ⟨w, hactive, hfd, hbit⟩
    exact ⟨w, (hlisted.head w fd).mpr ⟨hactive, hfd⟩, hbit⟩

end Fds

namespace Loop

variable {l l' : Loop ι τ} {w : ι} {fd : Nat} {revents : Revents}

/-- The watchers of a descriptor are fed those of the events they are for. -/
theorem fdEventNocheck_eq (l : Loop ι τ) (fd : Nat) (revents : Revents) :
    l.fdEventNocheck fd revents = { l with
      queue := l.queue.feedSome ((l.fds.anfds fd).head.map fun w =>
        (.io w, l.fds.events w &&& revents)) } := by
  unfold fdEventNocheck Pendings.feedSome
  generalize hl : l.fds.events = events
  generalize (l.fds.anfds fd).head = ws
  induction ws generalizing l with
  | nil => rfl
  | cons w ws ih =>
      rw [List.foldl_cons, List.map_cons, List.foldl_cons]
      by_cases hev : events w &&& revents = 0
      · simp only [hl, hev, ne_eq, not_true_eq_false, if_false]
        exact ih l hl
      · simp only [hl, hev, ne_eq, not_false_eq_true, if_true]
        exact ih (l.evFeedEvent (.io w) (events w &&& revents)) hl

/-- `ev_io_stop` of an active watcher. -/
theorem evIoStop_eq (hfd : l.fds.fd w = fd) (hw : l.fds.active w ≠ 0) :
    l.evIoStop w = .ok { (l.clearPending (.io w)).evUnref with fds := l.fds.stop w fd } := by
  have hpos : ¬l.fds.fd w < 0 := by
    rw [hfd]
    exact not_lt.mpr (Int.natCast_nonneg fd)
  have hnat : (l.fds.fd w).toNat = fd := by rw [hfd, Int.toNat_natCast]
  simp only [evIoStop, clearPending, if_neg hw, if_neg hpos, hnat]

/-- What `fd_kill` leaves: the watchers of the descriptor are stopped, and each will be
called back with the error and with all events. -/
structure Killed (l l' : Loop ι τ) (fd : Nat) : Prop where
  listed : l'.fds.Listed
  synced : l'.fds.Synced
  sound : l'.queue.Sound
  abspri : l'.queue.abspri = l.queue.abspri
  empty : (l'.fds.anfds fd).head = []
  active : ∀ w, l'.fds.active w = if w ∈ (l.fds.anfds fd).head then 0 else l.fds.active w
  told : ∀ w, w ∈ (l.fds.anfds fd).head →
    l'.queue.told (.io w) = some (evError ||| evRead ||| evWrite)
  others : ∀ x, (∀ w ∈ (l.fds.anfds fd).head, x ≠ .io w) → l'.queue.told x = l.queue.told x
  timers : l'.timers = l.timers
  signals : l'.signals = l.signals
  activecnt : l'.activecnt = l.activecnt - (l.fds.anfds fd).head.length

theorem fdKillLoop_killed (n : Nat) (hlisted : l.fds.Listed) (hsynced : l.fds.Synced)
    (hq : l.queue.Sound) (hlen : (l.fds.anfds fd).head.length ≤ n) :
    ∃ l', fdKillLoop n l fd = .ok l' ∧ Killed l l' fd := by
  induction n generalizing l with
  | zero =>
      have hnil := List.eq_nil_of_length_eq_zero (Nat.le_zero.mp hlen)
      refine ⟨l, by rw [fdKillLoop, hnil], hlisted, hsynced, hq, rfl, hnil, ?_, ?_, ?_, rfl, rfl,
        ?_⟩ <;> simp [hnil]
  | succ n ih =>
      cases hhead : (l.fds.anfds fd).head with
      | nil =>
          refine ⟨l, by rw [fdKillLoop, hhead], hlisted, hsynced, hq, rfl, hhead, ?_, ?_, ?_,
            rfl, rfl, ?_⟩ <;> simp [hhead]
      | cons w ws =>
          have hmem : w ∈ (l.fds.anfds fd).head := by rw [hhead]; exact List.mem_cons_self
          obtain ⟨hactive, hfd⟩ := (hlisted.head w fd).mp hmem
          let l₁ : Loop ι τ := { (l.clearPending (.io w)).evUnref with fds := l.fds.stop w fd }
          let l₂ := l₁.evFeedEvent (.io w) (evError ||| evRead ||| evWrite)
          have hstop : l.evIoStop w = .ok l₁ := evIoStop_eq hfd hactive
          have hws : (l₂.fds.anfds fd).head = ws := by
            simp [l₂, l₁, evFeedEvent, Fds.stop, Fds.fdChange, hhead]
          have hwout : w ∉ ws := by
            have := hlisted.nodup fd
            rw [hhead] at this
            exact (List.nodup_cons.mp this).1
          have hq₁ : l₁.queue.Sound := hq.clearPending
          have htold : l₂.queue.told = Function.update l.queue.told (.io w)
              (some (evError ||| evRead ||| evWrite)) := by
            have hfeed : l₂.queue.told = Function.update l₁.queue.told (.io w)
                (some ((l₁.queue.told (.io w)).getD 0 ||| (evError ||| evRead ||| evWrite))) :=
              hq₁.told_evFeedEvent
            have hclear : l₁.queue.told = Function.update l.queue.told (.io w) none :=
              hq.told_clearPending
            rw [hclear, Function.update_self, Function.update_idem] at hfeed
            exact hfeed
          obtain ⟨l', hloop, hkilled⟩ := ih (l := l₂) (hlisted.stop hfd) hsynced.stop
            hq₁.evFeedEvent (by
              rw [hws]
              rw [hhead, List.length_cons] at hlen
              omega)
          have hpart : ∀ x, x ∈ w :: ws ↔ x = w ∨ x ∈ (l₂.fds.anfds fd).head := by
            rw [hws]
            exact fun x => List.mem_cons
          refine ⟨l', ?_, hkilled.listed, hkilled.synced, hkilled.sound, ?_, hkilled.empty,
            fun x => ?_, fun x hx => ?_, fun x hx => ?_, hkilled.timers, hkilled.signals, ?_⟩
          · rw [fdKillLoop, hhead]
            simp only [hstop, Fallible.ok_bind]
            exact hloop
          · have hpri : l₂.queue.abspri = l.queue.abspri :=
              Pendings.evFeedEvent_abspri.trans Pendings.clearPending_abspri
            rw [hkilled.abspri, hpri]
          · have hactive₂ : l₂.fds.active = Function.update l.fds.active w 0 := rfl
            rw [hkilled.active, hactive₂, hhead, hws]
            by_cases hxw : x = w
            · simp [hxw]
            · simp [hxw]
          · rw [hhead, hpart] at hx
            by_cases hmem₂ : x ∈ (l₂.fds.anfds fd).head
            · exact hkilled.told x hmem₂
            · obtain rfl : x = w := hx.resolve_right hmem₂
              have hother : ∀ v ∈ (l₂.fds.anfds fd).head, Watcher.io x ≠ .io v := by
                rintro v hv heq
                rw [← Watcher.io.inj heq] at hv
                exact hmem₂ hv
              rw [hkilled.others _ hother, htold, Function.update_self]
          · rw [hhead] at hx
            have hxw : x ≠ .io w := hx w List.mem_cons_self
            rw [hkilled.others x fun v hv => hx v ((hpart v).mpr (.inr hv)), htold,
              Function.update_of_ne hxw]
          · rw [hkilled.activecnt, hws, hhead]
            have hcount : l₂.activecnt = l.activecnt - 1 := rfl
            rw [hcount, List.length_cons]
            omega

/-- `fd_kill` returns, with no watcher left on the descriptor. -/
theorem fdKill_killed (hlisted : l.fds.Listed) (hsynced : l.fds.Synced) (hq : l.queue.Sound)
    (fd : Nat) : ∃ l', l.fdKill fd = .ok l' ∧ Killed l l' fd :=
  fdKillLoop_killed _ hlisted hsynced hq (Nat.le_refl _)

end Loop

end BoostCoro.Libev
