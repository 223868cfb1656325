import BoostCoro.Libev.Loop
import Mathlib.Data.List.Nodup
/-!
# Signals

`ev_signal_start`, `ev_signal_stop`, `ev_feed_signal`, `pipecb` and
`ev_feed_signal_event` of `libev/ev.c`, without the pipe that wakes the loop up
and without `signalfd`.
-/

namespace BoostCoro.Libev

variable {ι τ : Type} [DecidableEq ι]

/-- `EV_NSIG`. -/
def evNsig : Nat := 65

namespace Signals

/-- The part of `ev_signal_start` that is about the signal: the first watcher installs the
handler. -/
def start (s : Signals ι) (w : ι) (n : Nat) : Signals ι :=
  { s with
    active := Function.update s.active w 1
    head := Function.update s.head n (w :: s.head n)
    handled := if s.head n = [] then Function.update s.handled n true else s.handled }

/-- The part of `ev_signal_stop` that is about the signal: the last watcher resets the
disposition. -/
def stop (s : Signals ι) (w : ι) (n : Nat) : Signals ι :=
  { s with
    active := Function.update s.active w 0
    head := Function.update s.head n ((s.head n).erase w)
    handled := if (s.head n).erase w = [] then Function.update s.handled n false else s.handled }

/-- `ev_feed_signal`: a signal that no loop waits for is dropped. -/
def evFeedSignal (s : Signals ι) (n : Nat) : Signals ι :=
  if s.head n = [] then s
  else { s with pending := Function.update s.pending n true, sigPending := true }

/-- The watchers are in the list of their signal, each once, and a signal is handled while
it has watchers. -/
structure Sound (s : Signals ι) : Prop where
  head : ∀ w n, w ∈ s.head n ↔ s.active w ≠ 0 ∧ s.signum w = n + 1
  nodup : ∀ n, (s.head n).Nodup
  one : ∀ w, s.active w ≠ 0 → s.active w = 1
  range : ∀ w, s.active w ≠ 0 → 0 < s.signum w ∧ s.signum w < evNsig
  handled : ∀ n, s.handled n = true ↔ s.head n ≠ []

variable {s : Signals ι} {w : ι} {n : Nat}

theorem Sound.start (h : s.Sound) (hw : s.active w = 0) (hn : s.signum w = n + 1)
    (hrange : s.signum w < evNsig) : (s.start w n).Sound := by
  have hout : ∀ m, w ∉ s.head m := fun m hm => ((h.head w m).mp hm).1 hw
  constructor
  · intro v m
    by_cases hv : v = w
    · subst hv
      by_cases hm : m = n
      · simp [Signals.start, hm, hn]
      · refine iff_of_false ?_ ?_
        · simpa [Signals.start, hm] using hout m
        · rintro ⟨-, heq⟩
          have hsame : s.signum v = m + 1 := heq
          rw [hn] at hsame
          exact hm (by omega)
    · have hactive : (s.start w n).active v = s.active v := Function.update_of_ne hv ..
      rw [hactive]
      refine Iff.trans ?_ (h.head v m)
      by_cases hm : m = n
      · simp [Signals.start, hm, hv]
      · simp [Signals.start, hm]
  · intro m
    by_cases hm : m = n
    · rw [hm]
      simpa [Signals.start] using ⟨hout n, h.nodup n⟩
    · simpa [Signals.start, hm] using h.nodup m
  · intro v hv
    by_cases hvw : v = w
    · simp [Signals.start, hvw]
    · simp only [Signals.start, Function.update_of_ne hvw] at hv ⊢
      exact h.one v hv
  · intro v hv
    have hsame : (s.start w n).signum v = s.signum v := rfl
    rw [hsame]
    by_cases hvw : v = w
    · rw [hvw]
      exact ⟨by omega, hrange⟩
    · simp only [Signals.start, Function.update_of_ne hvw] at hv
      exact h.range v hv
  · intro m
    have hold := h.handled m
    by_cases hm : m = n
    · subst hm
      by_cases hnil : s.head m = []
      · simp [Signals.start, hnil]
      · simpa [Signals.start, hnil] using hold.mpr hnil
    · by_cases hnil : s.head n = []
      · simpa [Signals.start, hnil, hm] using hold
      · simpa [Signals.start, hnil, hm] using hold

theorem Sound.stop (h : s.Sound) (hn : s.signum w = n + 1) : (s.stop w n).Sound := by
  constructor
  · intro v m
    by_cases hv : v = w
    · subst hv
      refine iff_of_false ?_ fun hx => hx.1 (Function.update_self ..)
      by_cases hm : m = n
      · rw [hm]
        simpa [Signals.stop] using (h.nodup n).not_mem_erase
      · intro hmem
        have hmem' : v ∈ s.head m := by simpa [Signals.stop, hm] using hmem
        have heq := ((h.head v m).mp hmem').2
        rw [hn] at heq
        exact hm (by omega)
    · have hactive : (s.stop w n).active v = s.active v := Function.update_of_ne hv ..
      rw [hactive]
      refine Iff.trans ?_ (h.head v m)
      by_cases hm : m = n
      · rw [hm]
        simpa [Signals.stop] using List.mem_erase_of_ne hv
      · simp [Signals.stop, hm]
  · intro m
    by_cases hm : m = n
    · rw [hm]
      simpa [Signals.stop] using (h.nodup n).erase w
    · simpa [Signals.stop, hm] using h.nodup m
  · intro v hv
    by_cases hvw : v = w
    · simp [Signals.stop, hvw] at hv
    · simp only [Signals.stop, Function.update_of_ne hvw] at hv ⊢
      exact h.one v hv
  · intro v hv
    by_cases hvw : v = w
    · simp [Signals.stop, hvw] at hv
    · simp only [Signals.stop, Function.update_of_ne hvw] at hv
      exact h.range v hv
  · intro m
    have hold := h.handled m
    by_cases hm : m = n
    · subst hm
      by_cases hnil : (s.head m).erase w = []
      · simp [Signals.stop, hnil]
      · have hne : s.head m ≠ [] := by
          intro hempty
          rw [hempty] at hnil
          exact hnil rfl
        simpa [Signals.stop, hnil] using hold.mpr hne
    · by_cases hnil : (s.head n).erase w = []
      · simpa [Signals.stop, hnil, hm] using hold
      · simpa [Signals.stop, hnil, hm] using hold

end Signals

namespace Loop

/-- `ev_signal_start`. -/
def evSignalStart (l : Loop ι τ) (w : ι) : Except Fault (Loop ι τ) :=
  if l.signals.active w ≠ 0 then .ok l
  else if ¬(0 < l.signals.signum w ∧ l.signals.signum w < evNsig) then .error .illegalSignal
  else .ok { l.evRef with signals := l.signals.start w (l.signals.signum w - 1).toNat }

/-- `ev_signal_stop`. -/
def evSignalStop (l : Loop ι τ) (w : ι) : Loop ι τ :=
  let l := l.clearPending (.sig w)
  if l.signals.active w = 0 then l
  else { l.evUnref with signals := l.signals.stop w (l.signals.signum w - 1).toNat }

/-- `ev_feed_signal_event` for the signal `n + 1`. -/
def evFeedSignalEvent (l : Loop ι τ) (n : Nat) : Loop ι τ :=
  if l.signals.head n = [] then l
  else
    (l.signals.head n).foldl (fun l w => l.evFeedEvent (.sig w) evSignal)
      { l with signals := { l.signals with
        pending := Function.update l.signals.pending n false } }

/-- `pipecb`: the signals that were caught are fed, the highest first. -/
def pipecb (l : Loop ι τ) : Loop ι τ :=
  if l.signals.sigPending then
    (List.range (evNsig - 1)).reverse.foldl
      (fun l n => if l.signals.pending n then l.evFeedSignalEvent n else l)
      { l with signals := { l.signals with sigPending := false } }
  else l

variable {l l' l₁ : Loop ι τ} {n : Nat} {ns : List Nat}

/-- What `pipecb` leaves when it has gone through the signals `ns`: the watchers of those
that were caught are told so. -/
structure Fed (l l' : Loop ι τ) (ns : List Nat) : Prop where
  sound : l'.queue.Sound
  told : ∀ n w, n ∈ ns → l.signals.pending n = true → w ∈ l.signals.head n →
    l'.queue.told (.sig w) = some ((l.queue.told (.sig w)).getD 0 ||| evSignal)
  others : ∀ x, (∀ n w, n ∈ ns → l.signals.pending n = true → w ∈ l.signals.head n → x ≠ .sig w) →
    l'.queue.told x = l.queue.told x
  pending : ∀ n, l'.signals.pending n =
    if n ∈ ns ∧ l.signals.head n ≠ [] then false else l.signals.pending n
  rest : l' = { l with
    queue := l'.queue
    signals := { l.signals with pending := l'.signals.pending } }

omit [DecidableEq ι] in
theorem Fed.nil (hq : l.queue.Sound) : Fed l l [] :=
  ⟨hq, fun _ _ hn => absurd hn List.not_mem_nil, fun _ _ => rfl, fun _ => by simp, rfl⟩

theorem evFeedSignalEvent_eq (hn : l.signals.head n ≠ []) :
    l.evFeedSignalEvent n = { l with
      queue := l.queue.feedAll ((l.signals.head n).reverse.map .sig) evSignal
      signals := { l.signals with pending := Function.update l.signals.pending n false } } := by
  rw [evFeedSignalEvent, if_neg hn, ← List.foldr_reverse]
  generalize (l.signals.head n).reverse = ws
  induction ws with
  | nil => rfl
  | cons w ws ih =>
      rw [List.foldr_cons, ih]
      rfl

/-- One signal. -/
theorem Fed.single (hq : l.queue.Sound) (n : Nat) :
    Fed l (if l.signals.pending n then l.evFeedSignalEvent n else l) [n] := by
  by_cases hcaught : l.signals.pending n = true
  · rw [if_pos hcaught]
    by_cases hn : l.signals.head n = []
    · rw [evFeedSignalEvent, if_pos hn]
      refine ⟨hq, fun m w hm _ hw => ?_, fun _ _ => rfl, fun m => ?_, rfl⟩
      · rw [List.mem_singleton.mp hm, hn] at hw
        cases hw
      · rw [if_neg]
        rintro ⟨hm, hne⟩
        exact hne (List.mem_singleton.mp hm ▸ hn)
    · rw [evFeedSignalEvent_eq hn]
      obtain ⟨hsound, -, htold⟩ := hq.feedAll evSignal ((l.signals.head n).reverse.map .sig)
      refine ⟨hsound, fun m w hm _ hw => ?_, fun x hx => ?_, fun m => ?_, rfl⟩
      · rw [List.mem_singleton.mp hm] at hw
        refine (htold _).trans (if_pos ?_)
        exact List.mem_map.mpr ⟨w, List.mem_reverse.mpr hw, rfl⟩
      · refine (htold x).trans (if_neg fun hmem => ?_)
        obtain ⟨w, hw, rfl⟩ := List.mem_map.mp hmem
        exact hx n w (List.mem_singleton.mpr rfl) hcaught (List.mem_reverse.mp hw) rfl
      · by_cases hm : m = n
        · simp [hm, hn]
        · simp [hm]
  · rw [if_neg hcaught]
    refine ⟨hq, fun m w hm hpend => ?_, fun _ _ => rfl, fun m => ?_, rfl⟩
    · exact absurd (List.mem_singleton.mp hm ▸ hpend) hcaught
    · split
      next hm =>
        rw [List.mem_singleton.mp hm.1]
        exact Bool.eq_false_iff.mpr hcaught
      next => rfl

omit [DecidableEq ι] in
theorem Fed.cons (hs : l.signals.Sound) (hfirst : Fed l l₁ [n]) (hrest : Fed l₁ l' ns)
    (hn : n ∉ ns) : Fed l l' (n :: ns) := by
  have hhead : l₁.signals.head = l.signals.head := by rw [hfirst.rest]
  have hkept : ∀ m ∈ ns, l₁.signals.pending m = l.signals.pending m := by
    intro m hm
    rw [hfirst.pending, if_neg]
    rintro ⟨hmn, -⟩
    exact hn (List.mem_singleton.mp hmn ▸ hm)
  -- a watcher is in the list of one signal
  have hone : ∀ m w, w ∈ l.signals.head n → w ∈ l.signals.head m → m = n := by
    intro m w hw hwm
    have hsig := ((hs.head w n).mp hw).2
    rw [((hs.head w m).mp hwm).2] at hsig
    omega
  refine ⟨hrest.sound, fun m w hm hcaught hw => ?_, fun x hx => ?_, fun m => ?_, ?_⟩
  · rcases List.mem_cons.mp hm with rfl | hm
    · rw [hrest.others, hfirst.told m w (List.mem_singleton.mpr rfl) hcaught hw]
      rintro k v hk - hv heq
      rw [hhead, ← Watcher.sig.inj heq] at hv
      exact hn (hone k w hw hv ▸ hk)
    · rw [hrest.told m w hm ((hkept m hm).trans hcaught) (hhead ▸ hw), hfirst.others]
      rintro k v hk - hv heq
      rw [← Watcher.sig.inj heq, List.mem_singleton.mp hk] at hv
      exact hn (hone m w hv hw ▸ hm)
  · rw [hrest.others, hfirst.others]
    · intro k w hk hcaught hw
      exact hx k w (List.mem_singleton.mp hk ▸ List.mem_cons_self) hcaught hw
    · intro k w hk hcaught hw
      exact hx k w (List.mem_cons_of_mem n hk) ((hkept k hk).symm.trans hcaught) (hhead ▸ hw)
  · rw [hrest.pending, hfirst.pending, hhead]
    by_cases hnil : l.signals.head m = []
    · simp [hnil]
    · by_cases hm : m ∈ ns <;> simp [hnil, hm]
  · rw [hrest.rest, hfirst.rest]

/-- The loop of `pipecb`. -/
theorem fed_foldl (hq : l.queue.Sound) (hs : l.signals.Sound) (hns : ns.Nodup) :
    Fed l (ns.foldl
      (fun l n => if l.signals.pending n then l.evFeedSignalEvent n else l) l) ns := by
  induction ns generalizing l with
  | nil => exact .nil hq
  | cons n ns ih =>
      obtain ⟨hn, hns⟩ := List.nodup_cons.mp hns
      have hfirst := Fed.single hq n
      refine Fed.cons hs hfirst (ih hfirst.sound ?_ hns) hn
      rw [hfirst.rest]
      exact ⟨hs.head, hs.nodup, hs.one, hs.range, hs.handled⟩

/-- The loop of `pipecb` is about signals. -/
theorem foldl_evFeedSignalEvent_timers (l : Loop ι τ) (ns : List Nat) :
    (ns.foldl (fun l n => if l.signals.pending n then l.evFeedSignalEvent n else l) l).timers =
      l.timers := by
  induction ns generalizing l with
  | nil => rfl
  | cons n ns ih =>
      rw [List.foldl_cons, ih]
      split
      · by_cases hn : l.signals.head n = []
        · rw [evFeedSignalEvent, if_pos hn]
        · rw [evFeedSignalEvent_eq hn]
      · rfl

theorem pipecb_timers (l : Loop ι τ) : l.pipecb.timers = l.timers := by
  unfold pipecb
  split
  · exact foldl_evFeedSignalEvent_timers ..
  · rfl

/-- `pipecb` after a signal was caught. -/
theorem pipecb_fed (hq : l.queue.Sound) (hs : l.signals.Sound)
    (hcaught : l.signals.sigPending = true) :
    Fed { l with signals := { l.signals with sigPending := false } } l.pipecb
      (List.range (evNsig - 1)).reverse := by
  rw [pipecb, if_pos hcaught]
  exact fed_foldl hq ⟨hs.head, hs.nodup, hs.one, hs.range, hs.handled⟩
    (List.nodup_reverse.mpr List.nodup_range)

end Loop

end BoostCoro.Libev
