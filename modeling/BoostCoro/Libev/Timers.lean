import BoostCoro.Libev.Loop
import BoostCoro.Lib.Fallible
import Mathlib.Data.List.Nodup
/-!
# Timers

`ev_timer_start`, `ev_timer_stop`, `ev_timer_again` and `timers_reify` of
`libev/ev.c`. The heap always holds the active timers, each with the time it is
due; `timers_reify` takes those that are due in the order of their times, each
once, and leaves none that is due.
-/

namespace BoostCoro.Libev

variable {ι τ : Type} [DecidableEq ι] [LinearOrder τ]

section Functions

variable [Add τ] [Sub τ] [Zero τ]

namespace Timers

/-- The part of `ev_timer_start` that is about the heap. -/
def insert (t : Timers ι τ) (w : ι) : Timers ι τ :=
  let evAt := Function.update t.evAt w (t.evAt w + t.mnNow)
  let timercnt := t.timercnt + 1
  let active := timercnt + heap0 - 1
  { t with evAt, timercnt, timers := (t.timers.place active ⟨evAt w, w⟩).upheap active }

/-- The part of `ev_timer_stop` that is about the heap: the last entry takes the place of
the one that goes. -/
def takeOut (t : Timers ι τ) (w : ι) : Timers ι τ :=
  let active := t.timers.active w
  let timercnt := t.timercnt - 1
  let timers :=
    if active < timercnt + heap0 then
      (t.timers.write active (t.timers.heap (timercnt + heap0))).adjustheap timercnt active
    else t.timers
  { t with
    timercnt
    timers := { timers with active := Function.update timers.active w 0 }
    evAt := Function.update t.evAt w (t.evAt w - t.mnNow) }

/-- The same after the assertion that the heap is not corrupted. -/
def remove (t : Timers ι τ) (w : ι) : Except Fault (Timers ι τ) :=
  if (t.timers.heap (t.timers.active w)).anheW ≠ w then .error .heapCorruption
  else .ok (t.takeOut w)

/-- `ev_at (w) = at` and `ANHE_at_cache` of the entry of `w` at position `k`. -/
def setAt (t : Timers ι τ) (w : ι) (k : Nat) (evAt : τ) : Timers ι τ :=
  { t with
    evAt := Function.update t.evAt w evAt
    timers := t.timers.write k ⟨evAt, w⟩ }

/-- Another time for an active timer: `adjustheap` in `ev_timer_again`. -/
def reset (t : Timers ι τ) (w : ι) (evAt : τ) : Timers ι τ :=
  let t := t.setAt w (t.timers.active w) evAt
  { t with timers := t.timers.adjustheap t.timercnt (t.timers.active w) }

/-- A later time for the first timer: `downheap` in `timers_reify`. -/
def postpone (t : Timers ι τ) (w : ι) (evAt : τ) : Timers ι τ :=
  let t := t.setAt w heap0 evAt
  { t with timers := t.timers.downheap t.timercnt heap0 }

/-- The condition of the loop of `timers_reify`. -/
def IsDue (t : Timers ι τ) : Prop :=
  t.timercnt ≠ 0 ∧ (t.timers.heap heap0).anheAt < t.mnNow

instance (t : Timers ι τ) : Decidable t.IsDue :=
  inferInstanceAs (Decidable (_ ∧ _))

end Timers

namespace Loop

/-- `ev_timer_start`. -/
def evTimerStart (l : Loop ι τ) (w : ι) : Except Fault (Loop ι τ) :=
  if l.timers.timers.active w ≠ 0 then .ok l
  else if l.timers.evRepeat w < 0 then .error .negativeRepeat
  else .ok { l.evRef with timers := l.timers.insert w }

/-- `ev_timer_stop`. -/
def evTimerStop (l : Loop ι τ) (w : ι) : Except Fault (Loop ι τ) :=
  let l := l.clearPending (.timer w)
  if l.timers.timers.active w = 0 then .ok l
  else do
    let timers ← l.timers.remove w
    .ok { l.evUnref with timers }

/-- `ev_timer_again`. -/
def evTimerAgain (l : Loop ι τ) (w : ι) : Except Fault (Loop ι τ) :=
  let l := l.clearPending (.timer w)
  if l.timers.timers.active w ≠ 0 then
    if l.timers.evRepeat w ≠ 0 then
      .ok { l with timers := l.timers.reset w (l.timers.mnNow + l.timers.evRepeat w) }
    else l.evTimerStop w
  else if l.timers.evRepeat w ≠ 0 then
    { l with timers := { l.timers with
      evAt := Function.update l.timers.evAt w (l.timers.evRepeat w) } : Loop ι τ }.evTimerStart w
  else .ok l

/-- When a repeating timer that was due at `at` is due next. -/
def nextAt (t : Timers ι τ) (w : ι) : τ :=
  if t.evAt w + t.evRepeat w < t.mnNow then t.mnNow else t.evAt w + t.evRepeat w

/-- One turn of the loop of `timers_reify`: the first timer is rescheduled or stopped. It
is the one that `feed_reverse` queues. -/
def reifyTurn (l : Loop ι τ) : Except Fault (Loop ι τ × ι) :=
  let w := (l.timers.timers.heap heap0).anheW
  if l.timers.evRepeat w ≠ 0 then
    if 0 < l.timers.evRepeat w then
      .ok ({ l with timers := l.timers.postpone w (nextAt l.timers w) }, w)
    else .error .negativeRepeat
  else do
    let l ← l.evTimerStop w
    .ok (l, w)

/-- The loop of `timers_reify`, with a bound on its turns. -/
def reifyLoop : Nat → Loop ι τ → Except Fault (Loop ι τ × List ι)
  | 0, l => if l.timers.IsDue then .error .spins else .ok (l, [])
  | n + 1, l =>
    if l.timers.IsDue then do
      let (l, w) ← l.reifyTurn
      let (l, rfeeds) ← reifyLoop n l
      .ok (l, w :: rfeeds)
    else .ok (l, [])

/-- `timers_reify`; no timer is taken twice, so there are at most `timercnt` turns. -/
def timersReify (l : Loop ι τ) : Except Fault (Loop ι τ) := do
  let (l, rfeeds) ← reifyLoop l.timers.timercnt l
  .ok (l.feedReverseDone (rfeeds.map .timer) evTimer)

end Loop

end Functions

/-! ## The heap holds the active timers -/

namespace Timers

open Heap (Used Indexed InOrder)

/-- The time an active timer is due. -/
def armed (t : Timers ι τ) (w : ι) : Option τ :=
  if t.timers.active w = 0 then none else some (t.evAt w)

/-- What `verify_heap` asserts of the timers. -/
structure VerifyHeap (t : Timers ι τ) : Prop where
  indexed : ∀ k, Used t.timercnt k → t.timers.active (t.timers.heap k).anheW = k
  ordered : ∀ k, Used t.timercnt k →
    k = heap0 ∨ (t.timers.heap (hparent k)).anheAt ≤ (t.timers.heap k).anheAt
  cached : ∀ k, Used t.timercnt k → (t.timers.heap k).anheAt = t.evAt (t.timers.heap k).anheW

/-- The entries are the active timers with their times, in the order of a heap. -/
structure Sound (t : Timers ι τ) : Prop where
  indexed : t.timers.Indexed t.timercnt
  ordered : InOrder t.timercnt t.timers.heap
  contents : ∀ w a, (∃ k, Used t.timercnt k ∧ t.timers.heap k = ⟨a, w⟩) ↔ t.armed w = some a

section Operations

variable {t t' : Timers ι τ} {w x : ι} {k n : Nat} {h : Heap ι τ} {f : Nat → Anhe ι τ}
variable {active : ι → Nat} {a : τ}

omit [DecidableEq ι] [LinearOrder τ] in
theorem armed_eq_some : t.armed w = some a ↔ t.timers.active w ≠ 0 ∧ t.evAt w = a := by
  unfold armed
  split
  next hzero => simp [hzero]
  next hpos => simp [hpos]

omit [DecidableEq ι] [LinearOrder τ] in
theorem armed_eq_none : t.armed w = none ↔ t.timers.active w = 0 := by
  unfold armed
  split
  next hzero => simp [hzero]
  next hpos => simp [hpos]

omit [DecidableEq ι] in
/-- A sift of entries that are `g` gives a sound heap of them. -/
theorem sound_of_sifted {g : ι → Option τ} (hs : Heap.Sifted n f active t.timers)
    (hn : t.timercnt = n) (hlisted : ∀ x, active x ≠ 0 → g x ≠ none)
    (hcontents : ∀ w a, (∃ k, Used n k ∧ f k = ⟨a, w⟩) ↔ g w = some a)
    (hat : ∀ w a, g w = some a → t.evAt w = a) : t.Sound ∧ t.armed = g := by
  subst hn
  have hactive : ∀ w, t.timers.active w ≠ 0 ↔ g w ≠ none := by
    intro w
    rw [hs.active_iff fun x hx => ?_]
    · constructor
      · rintro ⟨k, hk, rfl⟩
        rw [(hcontents _ _).mp ⟨k, hk, rfl⟩]
        exact Option.some_ne_none _
      · intro hw
        obtain ⟨a, ha⟩ := Option.ne_none_iff_exists'.mp hw
        obtain ⟨k, hk, heq⟩ := (hcontents w a).mpr ha
        exact ⟨k, hk, by rw [heq]⟩
    · obtain ⟨a, ha⟩ := Option.ne_none_iff_exists'.mp (hlisted x hx)
      obtain ⟨k, hk, heq⟩ := (hcontents x a).mpr ha
      exact ⟨k, hk, by rw [heq]⟩
  have harmed : t.armed = g := by
    funext w
    cases hg : g w with
    | none => exact armed_eq_none.mpr (not_not.mp fun hne => (hactive w).mp hne hg)
    | some a =>
        refine armed_eq_some.mpr ⟨(hactive w).mpr ?_, hat w a hg⟩
        rw [hg]
        exact Option.some_ne_none a
  refine ⟨⟨hs.indexed, hs.ordered, fun w a => ?_⟩, harmed⟩
  rw [harmed, ← hcontents]
  constructor
  · rintro ⟨k, hk, heq⟩
    obtain ⟨j, hj, hsame⟩ := hs.shuffle.source hk
    exact ⟨j, hj, hsame ▸ heq⟩
  · rintro ⟨k, hk, heq⟩
    obtain ⟨j, hj, hsame⟩ := hs.shuffle.symm.source hk
    exact ⟨j, hj, hsame ▸ heq⟩

omit [DecidableEq ι] in
theorem Sound.armed_of_used (ht : t.Sound) (hk : Used t.timercnt k) :
    t.armed (t.timers.heap k).anheW = some (t.timers.heap k).anheAt :=
  (ht.contents _ _).mp ⟨k, hk, rfl⟩

omit [DecidableEq ι] in
/-- The position of an active timer. -/
theorem Sound.position (ht : t.Sound) (hw : t.timers.active w ≠ 0) :
    Used t.timercnt (t.timers.active w) ∧
      t.timers.heap (t.timers.active w) = ⟨t.evAt w, w⟩ := by
  obtain ⟨k, hk, heq⟩ := (ht.contents w _).mpr (armed_eq_some.mpr ⟨hw, rfl⟩)
  have hpos := ht.indexed k hk
  rw [heq] at hpos
  rw [hpos]
  exact ⟨hk, heq⟩

omit [DecidableEq ι] in
/-- A sound heap passes the assertions of `verify_heap`. -/
theorem Sound.verifyHeap (ht : t.Sound) : t.VerifyHeap where
  indexed := ht.indexed
  ordered k hk := by
    rcases Nat.eq_or_lt_of_le hk.1 with heq | hlt
    · exact .inl heq.symm
    · exact .inr (ht.ordered k hlt hk.2)
  cached k hk := (armed_eq_some.mp (ht.armed_of_used hk)).2.symm

omit [DecidableEq ι] in
/-- The times of timers that are not active do not matter. -/
theorem Sound.of_inactive (ht : t.Sound) (htimers : t'.timers = t.timers)
    (hn : t'.timercnt = t.timercnt)
    (hat : ∀ x, t.timers.active x ≠ 0 → t'.evAt x = t.evAt x) :
    t'.Sound ∧ t'.armed = t.armed := by
  have harmed : t'.armed = t.armed := by
    funext x
    unfold armed
    rw [htimers]
    split
    next => rfl
    next hx => rw [hat x hx]
  refine ⟨⟨?_, ?_, ?_⟩, harmed⟩
  · rw [htimers, hn]
    exact ht.indexed
  · rw [htimers, hn]
    exact ht.ordered
  · rw [htimers, hn, harmed]
    exact ht.contents

theorem Sound.insert [Add τ] (ht : t.Sound) (hw : t.timers.active w = 0) :
    (t.insert w).Sound ∧
      (t.insert w).armed = Function.update t.armed w (some (t.evAt w + t.mnNow)) := by
  have hlast : t.timercnt + 1 + heap0 - 1 = t.timercnt + heap0 := by omega
  have hnone : t.armed w = none := armed_eq_none.mpr hw
  have hout : ∀ k, Used t.timercnt k → (t.timers.heap k).anheW ≠ w := by
    rintro k hk rfl
    rw [ht.armed_of_used hk] at hnone
    cases hnone
  have hsifted : Heap.Sifted (t.timercnt + 1)
      (Function.update t.timers.heap (t.timercnt + heap0) ⟨t.evAt w + t.mnNow, w⟩)
      (Function.update t.timers.active w (t.timercnt + heap0)) (t.insert w).timers := by
    simp only [Timers.insert, hlast, Function.update_self]
    exact Heap.push_sifted ht.indexed ht.ordered hout
  refine sound_of_sifted hsifted rfl ?_ ?_ ?_
  · intro x hx
    by_cases hxw : x = w
    · simp [hxw]
    · rw [Function.update_of_ne hxw] at hx ⊢
      exact fun hzero => hx (armed_eq_none.mp hzero)
  · intro x a
    rw [Heap.mem_push (p := fun e => e = ⟨a, x⟩), ht.contents, Anhe.mk.injEq]
    by_cases hxw : x = w
    · simp [hxw, hnone]
    · simp [Function.update_of_ne hxw, Ne.symm hxw]
  · intro x a
    by_cases hxw : x = w
    · simp [hxw, Timers.insert]
    · rw [Function.update_of_ne hxw]
      intro hx
      exact (Function.update_of_ne hxw ..).trans (armed_eq_some.mp hx).2

/-- `ev_timer_stop` finds its timer in the heap. -/
theorem Sound.remove_eq [Sub τ] (ht : t.Sound) (hw : t.timers.active w ≠ 0) :
    t.remove w = .ok (t.takeOut w) := by
  obtain ⟨-, hentry⟩ := ht.position hw
  rw [Timers.remove, if_neg (by rw [hentry]; exact not_not.mpr rfl)]

/-- The other timers stay in the heap. -/
theorem Sound.takeOut [Sub τ] (ht : t.Sound) (hw : t.timers.active w ≠ 0) :
    (t.takeOut w).Sound ∧ (t.takeOut w).armed = Function.update t.armed w none ∧
      t.timercnt = (t.takeOut w).timercnt + 1 := by
  obtain ⟨hk, hentry⟩ := ht.position hw
  obtain ⟨n, hn⟩ : ∃ n, t.timercnt = n + 1 := by
    refine ⟨t.timercnt - 1, ?_⟩
    have hlo := hk.1
    have hhi := hk.2
    omega
  have hidx := ht.indexed
  have hord := ht.ordered
  have hcontents := ht.contents
  rw [hn] at hk hidx hord hcontents
  have hgone : ∀ i, Used n i → (Heap.pull n (t.timers.active w) t.timers.heap i).anheW ≠ w := by
    intro i hi heq
    obtain ⟨j, hj, hne, heq'⟩ := (Heap.mem_pull (p := fun e => e.anheW = w) hk).mp ⟨i, hi, heq⟩
    refine hne (hidx.inj hj hk ?_)
    rw [heq', hentry]
  have hsifted : Heap.Sifted n (Heap.pull n (t.timers.active w) t.timers.heap)
      (Function.update t.timers.active w 0) (t.takeOut w).timers := by
    simpa only [Timers.takeOut, hn, Nat.add_sub_cancel] using
      (Heap.pull_sifted hidx hord hk).forget hgone
  have hcount : (t.takeOut w).timercnt = n := by simp [Timers.takeOut, hn]
  rw [← and_assoc, hcount]
  refine ⟨sound_of_sifted hsifted hcount ?_ ?_ ?_, hn⟩
  · intro x hx
    by_cases hxw : x = w
    · simp [hxw] at hx
    · rw [Function.update_of_ne hxw] at hx ⊢
      exact fun hzero => hx (armed_eq_none.mp hzero)
  · intro x a
    rw [Heap.mem_pull (p := fun e => e = ⟨a, x⟩) hk]
    by_cases hxw : x = w
    · rw [hxw, Function.update_self]
      refine ⟨?_, fun h => by cases h⟩
      rintro ⟨i, hi, hne, heq⟩
      refine absurd (hidx.inj hi hk ?_) hne
      rw [heq, hentry]
    · rw [Function.update_of_ne hxw, ← hcontents]
      constructor
      · rintro ⟨i, hi, -, heq⟩
        exact ⟨i, hi, heq⟩
      · rintro ⟨i, hi, heq⟩
        refine ⟨i, hi, ?_, heq⟩
        rintro rfl
        rw [hentry, Anhe.mk.injEq] at heq
        exact hxw heq.2.symm
  · intro x a
    by_cases hxw : x = w
    · simp [hxw]
    · rw [Function.update_of_ne hxw]
      intro hx
      exact (Function.update_of_ne hxw ..).trans (armed_eq_some.mp hx).2

/-- The entries after another time was written to that of `w`. -/
theorem Sound.contents_setAt (ht : t.Sound) (hk : Used t.timercnt k) {b : τ} (x : ι) (a : τ) :
    (∃ i, Used t.timercnt i ∧ (t.timers.write k ⟨b, (t.timers.heap k).anheW⟩).heap i = ⟨a, x⟩) ↔
      Function.update t.armed (t.timers.heap k).anheW (some b) x = some a := by
  by_cases hxw : x = (t.timers.heap k).anheW
  · rw [hxw, Function.update_self, Option.some.injEq]
    constructor
    · rintro ⟨i, hi, heq⟩
      by_cases hik : i = k
      · rw [hik, Heap.write_self, Anhe.mk.injEq] at heq
        exact heq.1
      · rw [Heap.write_of_ne _ _ hik] at heq
        exact absurd (ht.indexed.inj hi hk (by rw [heq])) hik
    · rintro rfl
      exact ⟨k, hk, Heap.write_self ..⟩
  · rw [Function.update_of_ne hxw, ← ht.contents]
    constructor
    · rintro ⟨i, hi, heq⟩
      by_cases hik : i = k
      · rw [hik, Heap.write_self, Anhe.mk.injEq] at heq
        exact absurd heq.2.symm hxw
      · rw [Heap.write_of_ne _ _ hik] at heq
        exact ⟨i, hi, heq⟩
    · rintro ⟨i, hi, heq⟩
      refine ⟨i, hi, ?_⟩
      rw [Heap.write_of_ne _ _, heq]
      rintro rfl
      rw [heq] at hxw
      exact hxw rfl

/-- A sift after another time was written to one entry. -/
theorem Sound.of_setAt {b : τ} (ht : t.Sound) (hk : Used t.timercnt k)
    (hs : Heap.Sifted t.timercnt (t.timers.write k ⟨b, (t.timers.heap k).anheW⟩).heap
      t.timers.active t'.timers)
    (hn : t'.timercnt = t.timercnt)
    (hat : t'.evAt = Function.update t.evAt (t.timers.heap k).anheW b) :
    t'.Sound ∧ t'.armed = Function.update t.armed (t.timers.heap k).anheW (some b) := by
  refine sound_of_sifted hs hn (fun x hx => ?_) (ht.contents_setAt hk) fun x a => ?_
  · by_cases hxw : x = (t.timers.heap k).anheW
    · simp [hxw]
    · rw [Function.update_of_ne hxw]
      exact fun hzero => hx (armed_eq_none.mp hzero)
  · rw [hat]
    by_cases hxw : x = (t.timers.heap k).anheW
    · simp [hxw]
    · rw [Function.update_of_ne hxw, Function.update_of_ne hxw]
      exact fun hx => (armed_eq_some.mp hx).2

/-- An active timer gets another time. -/
theorem Sound.reset (ht : t.Sound) (hw : t.timers.active w ≠ 0) (b : τ) :
    (t.reset w b).Sound ∧ (t.reset w b).armed = Function.update t.armed w (some b) := by
  obtain ⟨hk, hentry⟩ := ht.position hw
  have hwatcher : (t.timers.heap (t.timers.active w)).anheW = w := by rw [hentry]
  have hsifted := Heap.adjustheap_sifted (ht.indexed.rewrite hk b) ht.ordered fun j hne => by
    rw [Heap.write_of_ne _ _ hne]
  have hreset : (t.reset w b).timers = (t.timers.write (t.timers.active w)
      ⟨b, (t.timers.heap (t.timers.active w)).anheW⟩).adjustheap t.timercnt
        (t.timers.active w) := by
    rw [hwatcher]
    rfl
  rw [← hreset] at hsifted
  have hresult := ht.of_setAt hk hsifted rfl (by rw [hwatcher]; rfl)
  rwa [hwatcher] at hresult

/-- The first timer gets a later time. -/
theorem Sound.postpone (ht : t.Sound) (hpos : t.timercnt ≠ 0) (b : τ) :
    let w := (t.timers.heap heap0).anheW
    (t.postpone w b).Sound ∧ (t.postpone w b).armed = Function.update t.armed w (some b) := by
  have hk : Used t.timercnt heap0 := ⟨Nat.le_refl _, by omega⟩
  have hsifted := Heap.downheap_sifted (ht.indexed.rewrite hk b)
    (ht.ordered.downAt hk.2 (fun j hne => by rw [Heap.write_of_ne _ _ hne])
      fun hroot => absurd hroot (Nat.lt_irrefl _))
  exact ht.of_setAt hk hsifted rfl rfl

end Operations

end Timers

/-! ## Which timers `timers_reify` takes -/

namespace Timers

/-- The timer `w` is active and its time has come. -/
def Due (t : Timers ι τ) (w : ι) : Prop := ∃ a, t.armed w = some a ∧ a < t.mnNow

/-- No timer that is due has a negative `repeat`. -/
def Repeats [Zero τ] (t : Timers ι τ) : Prop :=
  ∀ w, t.Due w → 0 ≤ t.evRepeat w

section

variable {t : Timers ι τ} {w : ι}

omit [DecidableEq ι] in
/-- The first entry is due before any other. -/
theorem Sound.first (ht : t.Sound) (hpos : t.timercnt ≠ 0) :
    let e := t.timers.heap heap0
    t.armed e.anheW = some e.anheAt ∧ ∀ x b, t.armed x = some b → e.anheAt ≤ b := by
  have hk : Heap.Used t.timercnt heap0 := ⟨Nat.le_refl _, by omega⟩
  refine ⟨ht.armed_of_used hk, fun x b hx => ?_⟩
  obtain ⟨k, hk, heq⟩ := (ht.contents x b).mpr hx
  have hle := DHeap.Ordered.root_le ht.ordered hk.1 hk.2
  simpa only [heq, tree_root] using hle

omit [DecidableEq ι] in
/-- The loop of `timers_reify` goes on as long as a timer is due. -/
theorem Sound.isDue_iff (ht : t.Sound) : t.IsDue ↔ ∃ w, t.Due w := by
  constructor
  · rintro ⟨hpos, hlt⟩
    exact ⟨_, _, (ht.first hpos).1, hlt⟩
  · rintro ⟨w, a, ha, hlt⟩
    obtain ⟨k, hk, -⟩ := (ht.contents w a).mpr ha
    have hpos : t.timercnt ≠ 0 := by
      have hlo := hk.1
      have hhi := hk.2
      omega
    exact ⟨hpos, ((ht.first hpos).2 w a ha).trans_lt hlt⟩

omit [DecidableEq ι] in
/-- The due timers are a list that is not longer than the heap. -/
theorem Sound.due_list (ht : t.Sound) :
    ∃ ds : List ι, ds.Nodup ∧ (∀ w, w ∈ ds ↔ t.Due w) ∧ ds.length ≤ t.timercnt := by
  classical
  let ks := (List.range' heap0 t.timercnt).filter fun k => (t.timers.heap k).anheAt < t.mnNow
  have hks : ∀ k, k ∈ ks ↔ Heap.Used t.timercnt k ∧ (t.timers.heap k).anheAt < t.mnNow := by
    intro k
    simp only [ks, List.mem_filter, List.mem_range'_1, decide_eq_true_eq, Heap.Used]
    rw [Nat.add_comm heap0]
  refine ⟨ks.map fun k => (t.timers.heap k).anheW, ?_, fun w => ?_, ?_⟩
  · refine List.Nodup.map_on (fun i hi j hj heq => ?_) (List.Nodup.filter _ List.nodup_range')
    exact ht.indexed.inj ((hks i).mp hi).1 ((hks j).mp hj).1 heq
  · rw [List.mem_map]
    constructor
    · rintro ⟨k, hk, rfl⟩
      exact ⟨_, ht.armed_of_used ((hks k).mp hk).1, ((hks k).mp hk).2⟩
    · rintro ⟨a, ha, hlt⟩
      obtain ⟨k, hk, heq⟩ := (ht.contents w a).mpr ha
      exact ⟨k, (hks k).mpr ⟨hk, by rw [heq]; exact hlt⟩, by rw [heq]⟩
  · rw [List.length_map]
    exact (List.length_filter_le _ _).trans_eq (List.length_range' ..)

end

end Timers

namespace Loop

variable [Add τ] [Zero τ] {l l' l₁ : Loop ι τ} {w : ι}

omit [LinearOrder τ] [Add τ] [Zero τ] in
/-- The count of active watchers when one timer is started, stopped or gets another time. -/
theorem Counted.rearm {g : Option τ} (hl : l.Counted) (hfds : l'.fds = l.fds)
    (hsignals : l'.signals = l.signals)
    (harmed : l'.timers.armed = Function.update l.timers.armed w g)
    (hcount : l'.activecnt =
      if l.timers.armed w = none then if g = none then l.activecnt else l.activecnt + 1
      else if g = none then l.activecnt - 1 else l.activecnt) : l'.Counted := by
  have htimer : ∀ (l : Loop ι τ) x, l.active (.timer x) ≠ 0 ↔ l.timers.armed x ≠ none :=
    fun l x => not_congr Timers.armed_eq_none.symm
  have hself : l'.active (.timer w) ≠ 0 ↔ g ≠ none := by
    rw [htimer, harmed, Function.update_self]
  have hrest : ∀ x, x ≠ .timer w → (l'.active x ≠ 0 ↔ l.active x ≠ 0) := by
    intro x hx
    cases x with
    | io x => rw [active, active, hfds]
    | sig x => rw [active, active, hsignals]
    | timer x =>
        have hxw : x ≠ w := fun heq => hx (congrArg _ heq)
        rw [htimer, htimer, harmed, Function.update_of_ne hxw]
  have hsplit : ∀ x, l'.active x ≠ 0 ↔ x = .timer w ∧ g ≠ none ∨ x ≠ .timer w ∧ l.active x ≠ 0 := by
    intro x
    by_cases hx : x = .timer w
    · simp [hx, hself]
    · simp [hx, hrest x hx]
  by_cases hw : l.timers.armed w = none
  · have hoff : l.active (.timer w) = 0 := Timers.armed_eq_none.mp hw
    have hne : ∀ x, l.active x ≠ 0 → x ≠ .timer w := fun x hx heq => hx (heq ▸ hoff)
    rw [if_pos hw] at hcount
    by_cases hg : g = none
    · rw [if_pos hg] at hcount
      refine hl.same (fun x => (hsplit x).trans ?_) hcount
      simp only [hg, ne_eq, not_true_eq_false, and_false, false_or]
      exact ⟨fun hx => hx.2, fun hx => ⟨hne x hx, hx⟩⟩
    · rw [if_neg hg] at hcount
      refine hl.start hoff (fun x => (hsplit x).trans ?_) hcount
      simp only [hg, ne_eq, not_false_eq_true, and_true]
      exact or_congr_right ⟨fun hx => hx.2, fun hx => ⟨hne x hx, hx⟩⟩
  · have hon : l.active (.timer w) ≠ 0 := (htimer l w).mpr hw
    rw [if_neg hw] at hcount
    by_cases hg : g = none
    · rw [if_pos hg] at hcount
      refine hl.stop hon (fun x => (hsplit x).trans ?_) hcount
      simp [hg]
    · rw [if_neg hg] at hcount
      refine hl.same (fun x => (hsplit x).trans ?_) hcount
      by_cases hx : x = .timer w
      · simp [hx, hg, hon]
      · simp [hx]

/-- What one turn does to the timer that it takes. -/
def rearmed (t : Timers ι τ) (w : ι) : Option τ :=
  if t.evRepeat w = 0 then none else some (nextAt t w)

omit [DecidableEq ι] in
/-- A timer that was taken is not due again. -/
theorem not_due_rearmed {t : Timers ι τ} {a : τ} (h : rearmed t w = some a) : ¬a < t.mnNow := by
  unfold rearmed at h
  split at h
  next => cases h
  next =>
    rw [← Option.some.inj h, nextAt]
    split
    next => exact lt_irrefl _
    next hlate => exact hlate

/-- What a turn of `timers_reify` leaves of the loop. -/
structure Turned (l l' : Loop ι τ) (w : ι) : Prop where
  nonneg : 0 ≤ l.timers.evRepeat w
  sound : l'.timers.Sound
  armed : l'.timers.armed = Function.update l.timers.armed w (rearmed l.timers w)
  evRepeat : l'.timers.evRepeat = l.timers.evRepeat
  mnNow : l'.timers.mnNow = l.timers.mnNow
  queue : l'.queue =
    if l.timers.evRepeat w = 0 then l.queue.clearPending (.timer w) else l.queue
  fds : l'.fds = l.fds
  signals : l'.signals = l.signals
  activecnt : l'.activecnt = if l.timers.evRepeat w = 0 then l.activecnt - 1 else l.activecnt

omit [Add τ] [Zero τ] in
/-- `ev_timer_stop` of an active timer. -/
theorem evTimerStop_eq [Sub τ] (ht : l.timers.Sound) (hw : l.timers.timers.active w ≠ 0) :
    l.evTimerStop w =
      .ok { (l.clearPending (.timer w)).evUnref with timers := l.timers.takeOut w } := by
  simp only [evTimerStop, clearPending, if_neg hw, ht.remove_eq hw, Fallible.ok_bind]

/-- One timer is armed as `g`, and the queue becomes `queue`. -/
structure Rearms (l l' : Loop ι τ) (w : ι) (g : Option τ) (queue : Pendings (Watcher ι)) :
    Prop where
  sound : l'.timers.Sound
  armed : l'.timers.armed = Function.update l.timers.armed w g
  counted : l.Counted → l'.Counted
  queue : l'.queue = queue
  fds : l'.fds = l.fds
  signals : l'.signals = l.signals
  evRepeat : l'.timers.evRepeat = l.timers.evRepeat
  mnNow : l'.timers.mnNow = l.timers.mnNow

theorem evTimerStart_cases (ht : l.timers.Sound) :
    l.timers.timers.active w ≠ 0 ∧ l.evTimerStart w = .ok l ∨
      l.timers.timers.active w = 0 ∧ l.timers.evRepeat w < 0 ∧
        l.evTimerStart w = .error .negativeRepeat ∨
      l.timers.timers.active w = 0 ∧ ∃ l', l.evTimerStart w = .ok l' ∧
        Rearms l l' w (some (l.timers.evAt w + l.timers.mnNow)) l.queue := by
  unfold evTimerStart
  by_cases hw : l.timers.timers.active w = 0
  · rw [if_neg (not_not.mpr hw)]
    by_cases hneg : l.timers.evRepeat w < 0
    · exact .inr (.inl ⟨hw, hneg, if_pos hneg⟩)
    · rw [if_neg hneg]
      obtain ⟨hsound, harmed⟩ := ht.insert hw
      refine .inr (.inr ⟨hw, _, rfl, hsound, harmed, fun hl => ?_, rfl, rfl, rfl, rfl, rfl⟩)
      refine hl.rearm rfl rfl harmed ?_
      rw [if_pos (Timers.armed_eq_none.mpr hw), if_neg (Option.some_ne_none _)]
      rfl
  · rw [if_pos hw]
    exact .inl ⟨hw, rfl⟩

omit [Add τ] [Zero τ] in
/-- `ev_timer_stop` never fails. -/
theorem evTimerStop_rearms [Sub τ] (ht : l.timers.Sound) (w : ι) :
    ∃ l', l.evTimerStop w = .ok l' ∧
      Rearms l l' w none (l.queue.clearPending (.timer w)) := by
  by_cases hw : l.timers.timers.active w = 0
  · have hnone := Timers.armed_eq_none.mpr hw
    have hstop : l.evTimerStop w = .ok (l.clearPending (.timer w)) := if_pos hw
    refine ⟨_, hstop, ht, ?_, fun hl => ?_, rfl, rfl, rfl, rfl, rfl⟩
    · rw [← hnone, Function.update_eq_self]
      rfl
    · exact hl.same (fun x => by cases x <;> rfl) rfl
  · obtain ⟨hsound, harmed, -⟩ := ht.takeOut hw
    refine ⟨_, evTimerStop_eq ht hw, hsound, harmed, fun hl => ?_, rfl, rfl, rfl, rfl, rfl⟩
    refine hl.rearm rfl rfl harmed ?_
    rw [if_neg fun hnone => hw (Timers.armed_eq_none.mp hnone), if_pos rfl]
    rfl

/-- What `ev_timer_again` arms a timer for. -/
inductive Again (t : Timers ι τ) (w : ι) : Option τ → Prop
  | stops (hrep : t.evRepeat w = 0) : Again t w none
  | restarts (hrep : t.evRepeat w ≠ 0) : Again t w (some (t.mnNow + t.evRepeat w))
  | starts (hrep : t.evRepeat w ≠ 0) : Again t w (some (t.evRepeat w + t.mnNow))

/-- `ev_timer_again` of a timer that has to be started and has a negative `repeat`. -/
theorem evTimerAgain_error [Sub τ] (hw : l.timers.timers.active w = 0)
    (hneg : l.timers.evRepeat w < 0) : l.evTimerAgain w = .error .negativeRepeat := by
  simp [evTimerAgain, clearPending, evTimerStart, hw, hneg.ne, hneg]

/-- `ev_timer_again` arms the timer if it repeats, and disarms it if it does not. -/
theorem evTimerAgain_cases [Sub τ] (ht : l.timers.Sound) (w : ι) :
    l.timers.timers.active w = 0 ∧ l.timers.evRepeat w < 0 ∧
        l.evTimerAgain w = .error .negativeRepeat ∨
      ∃ l' g, l.evTimerAgain w = .ok l' ∧ Again l.timers w g ∧
        Rearms l l' w g (l.queue.clearPending (.timer w)) := by
  let l₁ := l.clearPending (.timer w)
  have hagain : l.evTimerAgain w =
      if l.timers.timers.active w ≠ 0 then
        if l.timers.evRepeat w ≠ 0 then
          .ok { l₁ with timers := l.timers.reset w (l.timers.mnNow + l.timers.evRepeat w) }
        else l₁.evTimerStop w
      else if l.timers.evRepeat w ≠ 0 then
        { l₁ with timers := { l.timers with
          evAt := Function.update l.timers.evAt w (l.timers.evRepeat w) }
          : Loop ι τ }.evTimerStart w
      else .ok l₁ := rfl
  have hcleared : l.Counted → l₁.Counted := fun hl =>
    hl.same (fun x => by cases x <;> rfl) rfl
  rw [hagain]
  by_cases hrep : l.timers.evRepeat w = 0
  · refine .inr ?_
    rw [if_neg (not_not.mpr hrep), if_neg (not_not.mpr hrep)]
    by_cases hw : l.timers.timers.active w = 0
    · rw [if_neg (not_not.mpr hw)]
      refine ⟨_, none, rfl, .stops hrep, ht, ?_, hcleared, rfl, rfl, rfl, rfl, rfl⟩
      rw [← Timers.armed_eq_none.mpr hw, Function.update_eq_self]
      rfl
    · rw [if_pos hw]
      obtain ⟨l', hstop, hsound, harmed, hcounted, hqueue, hfds, hsig, hr, hnow⟩ :=
        evTimerStop_rearms (l := l₁) ht w
      refine ⟨l', none, hstop, .stops hrep, hsound, harmed, fun hl => hcounted (hcleared hl),
        ?_, hfds, hsig, hr, hnow⟩
      rw [hqueue]
      exact Pendings.clearPending_idem
  · rw [if_pos hrep, if_pos hrep]
    by_cases hw : l.timers.timers.active w = 0
    · rw [if_neg (not_not.mpr hw)]
      let l₂ : Loop ι τ := { l₁ with timers := { l.timers with
        evAt := Function.update l.timers.evAt w (l.timers.evRepeat w) } }
      obtain ⟨hsound₂, harmed₂⟩ : l₂.timers.Sound ∧ l₂.timers.armed = l.timers.armed :=
        ht.of_inactive rfl rfl fun x hx => by
          have hxw : x ≠ w := fun heq => hx (heq ▸ hw)
          exact Function.update_of_ne hxw ..
      have hcounted₂ : l.Counted → l₂.Counted := fun hl =>
        hl.same (fun x => by cases x <;> rfl) rfl
      rcases evTimerStart_cases (l := l₂) (w := w) hsound₂ with
        ⟨hon, -⟩ | ⟨-, hneg, herror⟩ | ⟨-, l', hstart, hre⟩
      · exact absurd hw hon
      · exact .inl ⟨hw, hneg, herror⟩
      · have harmed : l'.timers.armed = Function.update l.timers.armed w
            (some (l₂.timers.evAt w + l₂.timers.mnNow)) := by
          rw [hre.armed]
          exact congrArg (Function.update · w _) harmed₂
        have hat : l₂.timers.evAt w = l.timers.evRepeat w := Function.update_self ..
        rw [hat] at harmed
        exact .inr ⟨l', _, hstart, .starts hrep, hre.sound, harmed,
          fun hl => hre.counted (hcounted₂ hl), hre.queue, hre.fds, hre.signals, hre.evRepeat,
          hre.mnNow⟩
    · rw [if_pos hw]
      obtain ⟨hsound, harmed⟩ := ht.reset hw (l.timers.mnNow + l.timers.evRepeat w)
      refine .inr ⟨_, _, rfl, .restarts hrep, hsound, harmed,
        fun hl => ?_, rfl, rfl, rfl, rfl, rfl⟩
      refine hl.rearm rfl rfl harmed ?_
      rw [if_neg fun hnone => hw (Timers.armed_eq_none.mp hnone), if_neg (Option.some_ne_none _)]
      rfl

/-- A turn takes the first timer, or finds that its `repeat` is negative. -/
theorem reifyTurn_cases [Sub τ] (ht : l.timers.Sound) (hdue : l.timers.IsDue) :
    let w := (l.timers.timers.heap heap0).anheW
    (l.reifyTurn = .error .negativeRepeat ∧ l.timers.evRepeat w < 0) ∨
      ∃ l', l.reifyTurn = .ok (l', w) ∧ Turned l l' w := by
  intro w
  have hactive : l.timers.timers.active w ≠ 0 :=
    (Timers.armed_eq_some.mp (ht.first hdue.1).1).1
  by_cases heq : l.timers.evRepeat w = 0
  · obtain ⟨hsound, harmed, -⟩ := ht.takeOut hactive
    have hrearmed : rearmed l.timers w = none := if_pos heq
    have hturn : l.reifyTurn = .ok
        ({ (l.clearPending (.timer w)).evUnref with timers := l.timers.takeOut w }, w) := by
      rw [reifyTurn, if_neg (not_not.mpr heq), evTimerStop_eq ht hactive]
      rfl
    refine .inr ⟨_, hturn, heq.ge, hsound, ?_, rfl, rfl, (if_pos heq).symm, rfl, rfl,
      (if_pos heq).symm⟩
    rw [hrearmed]
    exact harmed
  · by_cases hpos : 0 < l.timers.evRepeat w
    · obtain ⟨hsound, harmed⟩ := ht.postpone hdue.1 (nextAt l.timers w)
      have hrearmed : rearmed l.timers w = some (nextAt l.timers w) := if_neg heq
      have hturn : l.reifyTurn =
          .ok ({ l with timers := l.timers.postpone w (nextAt l.timers w) }, w) := by
        rw [reifyTurn, if_pos heq, if_pos hpos]
      refine .inr ⟨_, hturn, hpos.le, hsound, ?_, rfl, rfl, (if_neg heq).symm, rfl, rfl,
        (if_neg heq).symm⟩
      rw [hrearmed]
      exact harmed
    · refine .inl ⟨by rw [reifyTurn, if_pos heq, if_neg hpos], ?_⟩
      exact lt_of_le_of_ne (not_lt.mp hpos) heq

theorem Turned.due_iff (h : Turned l l' w) {x : ι} :
    l'.timers.Due x ↔ x ≠ w ∧ l.timers.Due x := by
  unfold Timers.Due
  rw [h.armed, h.mnNow]
  by_cases hxw : x = w
  · rw [hxw, Function.update_self]
    constructor
    · rintro ⟨a, ha, hlt⟩
      exact absurd hlt (not_due_rearmed ha)
    · rintro ⟨hne, -⟩
      exact absurd rfl hne
  · rw [Function.update_of_ne hxw]
    exact ⟨fun hx => ⟨hxw, hx⟩, fun hx => hx.2⟩

theorem Turned.counted (h : Turned l l' w) (hw : l.timers.timers.active w ≠ 0)
    (hl : l.Counted) : l'.Counted := by
  have hsome : l.timers.armed w ≠ none := fun hnone => hw (Timers.armed_eq_none.mp hnone)
  refine hl.rearm h.fds h.signals h.armed ?_
  rw [if_neg hsome, h.activecnt, rearmed]
  by_cases hzero : l.timers.evRepeat w = 0 <;> simp [hzero]

theorem Turned.repeats_iff (h : Turned l l' w) : l'.timers.Repeats ↔ l.timers.Repeats := by
  unfold Timers.Repeats
  simp only [h.due_iff, h.evRepeat]
  constructor
  · intro hrep x hx
    by_cases hxw : x = w
    · exact hxw ▸ h.nonneg
    · exact hrep x ⟨hxw, hx⟩
  · rintro hrep x ⟨-, hx⟩
    exact hrep x hx

/-- Timers that were not taken have kept their times. -/
theorem Turned.rearmed_eq (h : Turned l l' w) {x : ι} {a : τ} (hne : x ≠ w)
    (hx : l.timers.armed x = some a) : rearmed l'.timers x = rearmed l.timers x := by
  have hx' : l'.timers.armed x = some a := by
    rw [h.armed, Function.update_of_ne hne, hx]
  have hat : l'.timers.evAt x = l.timers.evAt x := by
    rw [(Timers.armed_eq_some.mp hx).2, (Timers.armed_eq_some.mp hx').2]
  unfold rearmed nextAt
  rw [hat, h.evRepeat, h.mnNow]

/-- What the loop of `timers_reify` does: the timers in `rfeeds` are those that were due, in
the order of their times. -/
structure Reified (l l' : Loop ι τ) (rfeeds : List ι) : Prop where
  repeats : l.timers.Repeats
  nodup : rfeeds.Nodup
  due : ∀ w, w ∈ rfeeds ↔ l.timers.Due w
  sorted : rfeeds.Pairwise fun w v => ∀ a b, l.timers.armed w = some a →
    l.timers.armed v = some b → a ≤ b
  sound : l'.timers.Sound
  armed : ∀ w, l'.timers.armed w =
    if w ∈ rfeeds then rearmed l.timers w else l.timers.armed w
  evRepeat : l'.timers.evRepeat = l.timers.evRepeat
  mnNow : l'.timers.mnNow = l.timers.mnNow
  queue : l'.queue =
    l.queue.clearAll ((rfeeds.filter fun w => l.timers.evRepeat w = 0).map .timer)
  fds : l'.fds = l.fds
  signals : l'.signals = l.signals
  counted : l.Counted → l'.Counted

theorem Reified.idle (ht : l.timers.Sound) (hnone : ∀ w, ¬l.timers.Due w) :
    Reified l l [] where
  repeats w hw := absurd hw (hnone w)
  nodup := List.nodup_nil
  due w := by simp [hnone w]
  sorted := .nil
  sound := ht
  armed w := by simp
  evRepeat := rfl
  mnNow := rfl
  queue := rfl
  fds := rfl
  signals := rfl
  counted := id

theorem Turned.reified {rfeeds : List ι} (h : Turned l l₁ w) (hrest : Reified l₁ l' rfeeds)
    (hw : l.timers.Due w)
    (hfirst : ∀ a x b, l.timers.armed w = some a → l.timers.armed x = some b → a ≤ b) :
    Reified l l' (w :: rfeeds) where
  repeats := h.repeats_iff.mp hrest.repeats
  nodup := by
    refine List.nodup_cons.mpr ⟨fun hmem => ?_, hrest.nodup⟩
    exact (h.due_iff.mp ((hrest.due w).mp hmem)).1 rfl
  due x := by
    rw [List.mem_cons, hrest.due, h.due_iff]
    by_cases hxw : x = w
    · simp [hxw, hw]
    · simp [hxw]
  sorted := by
    refine List.pairwise_cons.mpr ⟨fun x _ a b ha hb => hfirst a x b ha hb, ?_⟩
    refine hrest.sorted.imp_of_mem fun {x y} hx hy hle a b ha hb => ?_
    have hxw := (h.due_iff.mp ((hrest.due x).mp hx)).1
    have hyw := (h.due_iff.mp ((hrest.due y).mp hy)).1
    refine hle a b ?_ ?_
    · rw [h.armed, Function.update_of_ne hxw, ha]
    · rw [h.armed, Function.update_of_ne hyw, hb]
  sound := hrest.sound
  armed x := by
    rw [hrest.armed]
    by_cases hmem : x ∈ rfeeds
    · obtain ⟨hxw, a, ha, -⟩ := h.due_iff.mp ((hrest.due x).mp hmem)
      rw [if_pos hmem, if_pos (List.mem_cons_of_mem _ hmem), h.rearmed_eq hxw ha]
    · rw [if_neg hmem, h.armed]
      by_cases hxw : x = w
      · rw [hxw, Function.update_self, if_pos List.mem_cons_self]
      · rw [Function.update_of_ne hxw, if_neg (by simp [hxw, hmem])]
  evRepeat := hrest.evRepeat.trans h.evRepeat
  mnNow := hrest.mnNow.trans h.mnNow
  queue := by
    rw [hrest.queue, h.evRepeat, h.queue, List.filter_cons]
    by_cases hzero : l.timers.evRepeat w = 0 <;> simp [hzero, Pendings.clearAll]
  fds := hrest.fds.trans h.fds
  signals := hrest.signals.trans h.signals
  counted hl := by
    obtain ⟨a, ha, -⟩ := hw
    exact hrest.counted (h.counted (Timers.armed_eq_some.mp ha).1 hl)

/-- The loop takes all that is due, or finds a negative `repeat`; it never needs more turns
than there are timers that are due. -/
theorem reifyLoop_cases [Sub τ] (n : Nat) (ht : l.timers.Sound) {ds : List ι} (hds : ds.Nodup)
    (hmem : ∀ w, w ∈ ds ↔ l.timers.Due w) (hlen : ds.length ≤ n) :
    (reifyLoop n l = .error .negativeRepeat ∧ ¬l.timers.Repeats) ∨
      ∃ l' rfeeds, reifyLoop n l = .ok (l', rfeeds) ∧ Reified l l' rfeeds := by
  induction n generalizing l ds with
  | zero =>
      obtain rfl := List.eq_nil_of_length_eq_zero (Nat.le_zero.mp hlen)
      have hnone : ∀ w, ¬l.timers.Due w := fun w hw => by simpa using (hmem w).mpr hw
      refine .inr ⟨l, [], ?_, .idle ht hnone⟩
      rw [reifyLoop, if_neg]
      rw [ht.isDue_iff]
      rintro ⟨w, hw⟩
      exact hnone w hw
  | succ n ih =>
      by_cases hdue : l.timers.IsDue
      · obtain ⟨harmed, hfirst⟩ := ht.first hdue.1
        have hturn := reifyTurn_cases ht hdue
        simp only at hturn
        generalize (l.timers.timers.heap heap0).anheW = w at hturn harmed
        have hw : l.timers.Due w := ⟨_, harmed, hdue.2⟩
        rcases hturn with ⟨herror, hneg⟩ | ⟨l₁, hturn, hturned⟩
        · refine .inl ⟨?_, fun hrep => absurd hneg (not_lt.mpr (hrep w hw))⟩
          rw [reifyLoop, if_pos hdue, herror]
          rfl
        have hlen' : (ds.erase w).length ≤ n := by
          rw [List.length_erase_of_mem ((hmem w).mpr hw)]
          omega
        have hstep : reifyLoop (n + 1) l =
            (reifyLoop n l₁ >>= fun q => .ok (q.1, w :: q.2)) := by
          rw [reifyLoop, if_pos hdue, hturn]
          rfl
        rcases ih hturned.sound (hds.erase w)
          (fun x => by rw [hds.mem_erase_iff, hmem, hturned.due_iff]) hlen' with
          ⟨herror, hneg⟩ | ⟨l', rfeeds, hloop, hrest⟩
        · exact .inl ⟨by rw [hstep, herror]; rfl, mt hturned.repeats_iff.mpr hneg⟩
        · refine .inr ⟨l', w :: rfeeds, by rw [hstep, hloop]; rfl,
            hturned.reified hrest hw fun a x b ha hx => ?_⟩
          rw [harmed] at ha
          exact Option.some.inj ha ▸ hfirst x b hx
      · refine .inr ⟨l, [], by rw [reifyLoop, if_neg hdue], .idle ht fun w hw => hdue ?_⟩
        exact ht.isDue_iff.mpr ⟨w, hw⟩

/-- `timers_reify` feeds the timers that were due, in the order in which `feed_reverse_done`
goes through them, or finds a negative `repeat`. -/
theorem timersReify_cases [Sub τ] (ht : l.timers.Sound) :
    (l.timersReify = .error .negativeRepeat ∧ ¬l.timers.Repeats) ∨
      ∃ l' rfeeds, l.timersReify = .ok { l' with
        queue := l'.queue.feedAll (rfeeds.map .timer) evTimer } ∧ Reified l l' rfeeds := by
  obtain ⟨ds, hds, hmem, hlen⟩ := ht.due_list
  unfold timersReify
  rcases reifyLoop_cases _ ht hds hmem hlen with ⟨herror, hneg⟩ | ⟨l', rfeeds, hloop, hrest⟩
  · exact .inl ⟨by rw [herror]; rfl, hneg⟩
  · refine .inr ⟨l', rfeeds, ?_, hrest⟩
    rw [hloop]
    simp only [Fallible.ok_bind, feedReverseDone_eq]

end Loop

end BoostCoro.Libev
