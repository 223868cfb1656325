import BoostCoro.Coroutine.Machine
import Mathlib.Logic.Relation
import Mathlib.Tactic.Tauto
/-!
# What the flag functions do

`event_add` and its siblings change flag words and nothing else. What climbs from
a coroutine to its ancestors is the CHLD flag only, and it reaches all of them.
-/

namespace BoostCoro.Coroutine

/-! ## Bits of a word -/

theorem hasBit_or (a b bits : BitVec 16) :
    hasBit (a ||| b) bits = (hasBit a bits || hasBit b bits) := by
  unfold hasBit
  rw [BitVec.and_or_distrib_right, Bool.eq_iff_iff]
  simp only [bne_iff_ne, ne_eq, BitVec.ofNat_eq_ofNat, BitVec.or_eq_zero_iff,
    Bool.or_eq_true, not_and_or]

theorem hasBit_and (a b bits : BitVec 16) :
    hasBit (a &&& b) bits = hasBit a (b &&& bits) := by
  unfold hasBit
  rw [BitVec.and_assoc]

@[simp] theorem hasBit_zero (a : BitVec 16) : hasBit a 0 = false := by
  simp [hasBit]

namespace FlagWord

@[simp] theorem wait_eq (w : FlagWord) : w.wait = coroEvetWait := by cases w <;> rfl

@[simp] theorem chld_eq (w : FlagWord) : w.chld = coroEvetChld := by cases w <;> rfl

end FlagWord

namespace State

variable {s s' : State} {w : FlagWord} {c : CoroId} {m : StatT}

theorem setFlags_flags (s : State) (w : FlagWord) (c : CoroId) (v : StatT) (w' : FlagWord)
    (x : CoroId) :
    (s.setFlags w c v).flags w' x = if w' = w ∧ x = c then v else s.flags w' x := by
  unfold setFlags
  by_cases hw : w' = w
  · subst hw
    by_cases hx : x = c
    · simp [hx]
    · simp [hx]
  · simp [hw]

/-- What a wake and a notice leave behind: no wait begins, no CHLD flag is lost,
and whoever stops waiting has told all its ancestors. -/
structure Stirs (s s' : State) : Prop where
  sched : s'.toSched = s.toSched
  wait : ∀ w x, s'.chk w x coroEvetWait = true → s.chk w x coroEvetWait = true
  chld : ∀ w x, s.chk w x coroEvetChld = true → s'.chk w x coroEvetChld = true
  told : ∀ w x, s.chk w x coroEvetWait = true → s'.chk w x coroEvetWait = false →
    ∀ p, Relation.TransGen (fun a b => s.coroParent a = some b) x p →
      s'.chk w p coroEvetChld = true

theorem Stirs.of_flags_eq (hsched : s'.toSched = s.toSched) (hflags : s'.flags = s.flags) :
    Stirs s s' where
  sched := hsched
  wait := fun w x h => by rwa [chk, hflags] at h
  chld := fun w x h => by rwa [chk, hflags]
  told := fun w x h hne => by
    rw [chk, hflags, ← chk, h] at hne
    cases hne

theorem Stirs.trans {s'' : State} (h : Stirs s s') (h' : Stirs s' s'') : Stirs s s'' where
  sched := h'.sched.trans h.sched
  wait := fun w x hx => h.wait w x (h'.wait w x hx)
  chld := fun w x hx => h'.chld w x (h.chld w x hx)
  told := fun w x hx hne p hp => by
    by_cases hmid : s'.chk w x coroEvetWait = true
    · refine h'.told w x hmid hne p ?_
      rwa [h.sched]
    · exact h'.chld w p (h.told w x hx (by simpa using hmid) p hp)

/-- A notice: flags are raised, and none of them is a wait flag. -/
structure Raises (s s' : State) : Prop where
  frame : s' = { s with flags := s'.flags }
  wait : ∀ w x, s'.chk w x coroEvetWait = s.chk w x coroEvetWait
  mono : ∀ w x b, s.chk w x b = true → s'.chk w x b = true

namespace Raises

theorem refl (s : State) : Raises s s := ⟨rfl, fun _ _ => rfl, fun _ _ _ h => h⟩

theorem trans {s'' : State} (h : Raises s s') (h' : Raises s' s'') : Raises s s'' where
  frame := by
    rw [h'.frame, h.frame]
  wait := fun w x => (h'.wait w x).trans (h.wait w x)
  mono := fun w x b hx => h'.mono w x b (h.mono w x b hx)

theorem sched (h : Raises s s') : s'.toSched = s.toSched := by rw [h.frame]

theorem stirs (h : Raises s s') : Stirs s s' where
  sched := h.sched
  wait := fun w x hx => by rwa [h.wait] at hx
  chld := fun w x hx => h.mono w x _ hx
  told := fun w x hx hne => by
    rw [h.wait, hx] at hne
    cases hne

end Raises

theorem raises_setFlags (s : State) (w : FlagWord) (c : CoroId)
    (hm : hasBit m coroEvetWait = false) :
    Raises s (s.setFlags w c (s.flags w c ||| m)) where
  frame := rfl
  wait := fun w' x => by
    unfold chk
    rw [setFlags_flags]
    split
    next h => rw [hasBit_or, hm, Bool.or_false, h.1, h.2]
    next => rfl
  mono := fun w' x b hx => by
    unfold chk at hx ⊢
    rw [setFlags_flags]
    split
    next h => rw [h.1, h.2] at hx; rw [hasBit_or, hx, Bool.true_or]
    next => exact hx

theorem chk_setFlags_or (s : State) (w : FlagWord) (c : CoroId) (m b : StatT)
    (hb : hasBit m b = true) : (s.setFlags w c (s.flags w c ||| m)).chk w c b = true := by
  unfold chk
  rw [setFlags_flags, if_pos ⟨rfl, rfl⟩, hasBit_or, hb, Bool.or_true]

/-- Adding a flag other than WAIT tells every ancestor. -/
theorem addFlag_raises {n : Nat} (hm : hasBit m coroEvetWait = false)
    (h : addFlag w n s c m = .ok s') :
    Raises s s' ∧ (∀ b, hasBit m b = true → s'.chk w c b = true) ∧
      ∀ x, Relation.TransGen (fun a b => s.coroParent a = some b) c x →
        s'.chk w x coroEvetChld = true := by
  induction n generalizing s c m with
  | zero => cases h
  | succ n ih =>
      obtain ⟨_, _, h⟩ := Fallible.bind_eq_ok.mp h
      have hset := raises_setFlags s w c hm
      have hself := chk_setFlags_or s w c m
      have hparent : (s.setFlags w c (s.flags w c ||| m)).coroParent c = s.coroParent c := rfl
      cases hp : s.coroParent c with
      | none =>
          simp only [hparent, hp] at h
          obtain rfl := Except.ok.inj h
          refine ⟨hset, hself, fun x hx => ?_⟩
          obtain ⟨y, hy, _⟩ := Relation.TransGen.head'_iff.mp hx
          rw [hp] at hy
          cases hy
      | some p =>
          have hne : m ≠ w.wait := by
            intro heq
            rw [heq, FlagWord.wait_eq] at hm
            revert hm
            decide
          simp only [hparent, hp, if_neg hne] at h
          obtain ⟨hrest, hpself, hup⟩ := ih (m := w.chld) (by rw [FlagWord.chld_eq]; decide) h
          refine ⟨hset.trans hrest, fun b hb => hrest.mono w c b (hself b hb), fun x hx => ?_⟩
          obtain ⟨y, hy, hyx⟩ := Relation.TransGen.head'_iff.mp hx
          rw [hp] at hy
          obtain rfl := Option.some.inj hy
          rcases Relation.reflTransGen_iff_eq_or_transGen.mp hyx with rfl | hyx
          · exact hpself _ (by rw [FlagWord.chld_eq]; decide)
          · exact hup x hyx

/-! ## Only flags change -/

section

variable {P : State → Prop} {tested : StatT}
  (hkeeps : ∀ (s : State) (c : CoroId) (v : StatT), P s → P (s.setFlags w c v))

include hkeeps

/-! What every write of a flag word keeps, the flag functions keep. -/

theorem addFlag_invariant {n : Nat} (h : addFlag w n s c m = .ok s') (hs : P s) : P s' := by
  induction n generalizing s c m with
  | zero => cases h
  | succ n ih =>
      obtain ⟨_, _, h⟩ := Fallible.bind_eq_ok.mp h
      dsimp only at h
      split at h
      · obtain rfl := Except.ok.inj h
        exact hkeeps _ _ _ hs
      · split at h
        · obtain rfl := Except.ok.inj h
          exact hkeeps _ _ _ hs
        · exact ih h (hkeeps _ _ _ hs)

theorem notifyParent_invariant (h : s.notifyParent w c = .ok s') (hs : P s) : P s' := by
  unfold notifyParent at h
  split at h
  · obtain rfl := Except.ok.inj h
    exact hs
  · exact addFlag_invariant hkeeps h hs

theorem setFlag_invariant (h : setFlag w s c m = .ok s') (hs : P s) : P s' := by
  obtain ⟨_, _, h⟩ := Fallible.bind_eq_ok.mp h
  dsimp only at h
  split at h
  · obtain rfl := Except.ok.inj h
    exact hkeeps _ _ _ hs
  · exact notifyParent_invariant hkeeps h (hkeeps _ _ _ hs)

theorem notifyEnd_invariant (h : s.notifyEnd w tested c m = .ok s') (hs : P s) : P s' := by
  unfold notifyEnd at h
  split at h
  · exact notifyParent_invariant hkeeps h hs
  · obtain rfl := Except.ok.inj h
    exact hs

theorem delFlag_invariant (h : delFlag w tested s c m = .ok s') (hs : P s) : P s' := by
  obtain ⟨_, _, h⟩ := Fallible.bind_eq_ok.mp h
  obtain ⟨s₁, hnotify, h⟩ := Fallible.bind_eq_ok.mp h
  obtain rfl := Except.ok.inj h
  exact hkeeps _ _ _ (notifyEnd_invariant hkeeps hnotify hs)

theorem setter_invariant {op : Setter} (h : s.setter op w c m = .ok s') (hs : P s) : P s' := by
  cases op with
  | set => cases w <;> exact setFlag_invariant hkeeps h hs
  | add => cases w <;> exact addFlag_invariant hkeeps h hs
  | del => cases w <;> exact delFlag_invariant hkeeps h hs

end

section

variable {tested : StatT}

/-- `s'` is `s` but for the flags. -/
def SameButFlags (s s' : State) : Prop := s' = { s with flags := s'.flags }

theorem SameButFlags.setFlags (s : State) (t : State) (c : CoroId) (v : StatT)
    (h : SameButFlags s t) : SameButFlags s (t.setFlags w c v) := by
  rw [h]
  rfl

theorem addFlag_frame {n : Nat} (h : addFlag w n s c m = .ok s') :
    s' = { s with flags := s'.flags } :=
  addFlag_invariant (P := s.SameButFlags) (.setFlags s) h rfl

theorem setFlag_frame (h : setFlag w s c m = .ok s') : s' = { s with flags := s'.flags } :=
  setFlag_invariant (P := s.SameButFlags) (.setFlags s) h rfl

theorem notifyEnd_frame (h : s.notifyEnd w tested c m = .ok s') :
    s' = { s with flags := s'.flags } :=
  notifyEnd_invariant (P := s.SameButFlags) (.setFlags s) h rfl

theorem delFlag_frame (h : delFlag w tested s c m = .ok s') :
    s' = { s with flags := s'.flags } :=
  delFlag_invariant (P := s.SameButFlags) (.setFlags s) h rfl

theorem setter_frame {op : Setter} (h : s.setter op w c m = .ok s') :
    s' = { s with flags := s'.flags } :=
  setter_invariant (P := s.SameButFlags) (.setFlags s) h rfl

end

/-! Of the flags, only those of one word change. -/

theorem setFlags_word {w' : FlagWord} (hne : w' ≠ w) (v : StatT) :
    (s.setFlags w c v).flags w' = s.flags w' := by
  funext x
  rw [setFlags_flags, if_neg fun h => hne h.1]

theorem setter_word {op : Setter} {w' : FlagWord} (hne : w' ≠ w)
    (h : s.setter op w c m = .ok s') : s'.flags w' = s.flags w' :=
  setter_invariant (P := fun t => t.flags w' = s.flags w')
    (fun _ _ _ ht => (setFlags_word hne _).trans ht) h rfl

/-! ## The calls of the scheduler and of the waits -/

theorem notifyParent_raises (h : s.notifyParent w c = .ok s') :
    Raises s s' ∧ ∀ x, Relation.TransGen (fun a b => s.coroParent a = some b) c x →
      s'.chk w x coroEvetChld = true := by
  unfold notifyParent at h
  split at h
  next hp =>
    obtain rfl := Except.ok.inj h
    refine ⟨.refl s, fun x hx => ?_⟩
    obtain ⟨y, hy, _⟩ := Relation.TransGen.head'_iff.mp hx
    rw [hp] at hy
    cases hy
  next p hp =>
    obtain ⟨hraises, hself, hup⟩ := addFlag_raises (by rw [FlagWord.chld_eq]; decide) h
    refine ⟨hraises, fun x hx => ?_⟩
    obtain ⟨y, hy, hyx⟩ := Relation.TransGen.head'_iff.mp hx
    rw [hp] at hy
    obtain rfl := Option.some.inj hy
    rcases Relation.reflTransGen_iff_eq_or_transGen.mp hyx with rfl | hyx
    · exact hself _ (by rw [FlagWord.chld_eq]; decide)
    · exact hup x hyx

/-- A coroutine that starts to wait tells nobody. -/
theorem setFlag_wait (h : setFlag w s c coroEvetWait = .ok s') :
    c ∈ s.pool ∧
      s' = s.setFlags w c (s.flags w c &&& ~~~coroEvetWait ||| coroEvetWait) := by
  obtain ⟨_, hlive, h⟩ := Fallible.bind_eq_ok.mp h
  rw [FlagWord.wait_eq] at h
  exact ⟨by by_contra hc; simp [Sched.checkLive, hc] at hlive, (Except.ok.inj h).symm⟩

/-- Clearing CHLD tells nobody. -/
theorem delFlag_chld {tested : StatT} (h : delFlag w tested s c coroEvetChld = .ok s') :
    c ∈ s.pool ∧ s' = s.setFlags w c (s.flags w c &&& ~~~coroEvetChld) := by
  obtain ⟨_, hlive, h⟩ := Fallible.bind_eq_ok.mp h
  have hnone : s.notifyEnd w tested c coroEvetChld = .ok s := by
    unfold notifyEnd
    rw [FlagWord.wait_eq, if_neg fun h => absurd h.2 (by decide)]
  rw [hnone] at h
  exact ⟨by by_contra hc; simp [Sched.checkLive, hc] at hlive, (Except.ok.inj h).symm⟩

theorem chk_setFlags_and (s : State) (w : FlagWord) (c : CoroId) (m : StatT) (w' : FlagWord)
    (x : CoroId) (b : StatT) :
    (s.setFlags w c (s.flags w c &&& ~~~m)).chk w' x b =
      if w' = w ∧ x = c then hasBit (s.flags w c) (~~~m &&& b) else s.chk w' x b := by
  unfold chk
  rw [setFlags_flags]
  split
  · rw [hasBit_and]
  · rfl

/-- Clearing WAIT of `c` clears no other wait flag. -/
structure Wakes (w : FlagWord) (c : CoroId) (s s' : State) : Prop extends Stirs s s' where
  cleared : s'.chk w c coroEvetWait = false
  others : ∀ w' x, w' ≠ w ∨ x ≠ c → s'.chk w' x coroEvetWait = s.chk w' x coroEvetWait

theorem delFlag_wait (h : delFlag w coroEvetWait s c coroEvetWait = .ok s') :
    c ∈ s.pool ∧ Wakes w c s s' := by
  obtain ⟨_, hlive, h⟩ := Fallible.bind_eq_ok.mp h
  obtain ⟨s₁, hnotify, h⟩ := Fallible.bind_eq_ok.mp h
  obtain rfl := Except.ok.inj h
  have hraises : Raises s s₁ ∧ (s.chk w c coroEvetWait = true →
      ∀ x, Relation.TransGen (fun a b => s.coroParent a = some b) c x →
        s₁.chk w x coroEvetChld = true) := by
    unfold notifyEnd at hnotify
    split at hnotify
    · obtain ⟨hr, hup⟩ := notifyParent_raises hnotify
      exact ⟨hr, fun _ => hup⟩
    next hno =>
      obtain rfl := Except.ok.inj hnotify
      exact ⟨.refl s, fun hchk => absurd ⟨hchk, (FlagWord.wait_eq w).symm⟩ hno⟩
  obtain ⟨hr, hup⟩ := hraises
  have hchk := fun w' x b => chk_setFlags_and s₁ w c coroEvetWait w' x b
  have hwait : ~~~coroEvetWait &&& coroEvetWait = 0 := by decide
  have hchld : ~~~coroEvetWait &&& coroEvetChld = coroEvetChld := by decide
  have hkeep : ∀ w' x, (s₁.setFlags w c (s₁.flags w c &&& ~~~coroEvetWait)).chk w' x
      coroEvetChld = s₁.chk w' x coroEvetChld := by
    intro w' x
    rw [hchk, hchld]
    split
    next h => rw [h.1, h.2]; rfl
    next => rfl
  have hcleared : (s₁.setFlags w c (s₁.flags w c &&& ~~~coroEvetWait)).chk w c
      coroEvetWait = false := by
    rw [hchk, if_pos ⟨rfl, rfl⟩, hwait, hasBit_zero]
  have hothers : ∀ w' x, w' ≠ w ∨ x ≠ c →
      (s₁.setFlags w c (s₁.flags w c &&& ~~~coroEvetWait)).chk w' x coroEvetWait =
        s.chk w' x coroEvetWait := by
    intro w' x hne
    rw [hchk, if_neg (by tauto), hr.wait]
  refine ⟨by by_contra hc; simp [Sched.checkLive, hc] at hlive, ?_⟩
  refine { sched := hr.sched, wait := ?_, chld := ?_, told := ?_, cleared := hcleared,
           others := hothers }
  · intro w' x hx
    by_cases hself : w' = w ∧ x = c
    · rw [hself.1, hself.2, hcleared] at hx
      cases hx
    · rwa [hothers w' x (by tauto)] at hx
  · intro w' x hx
    rw [hkeep]
    exact hr.mono w' x _ hx
  · intro w' x hx hne p hp
    by_cases hself : w' = w ∧ x = c
    · obtain ⟨rfl, rfl⟩ := hself
      rw [hkeep]
      exact hup hx p hp
    · rw [hothers w' x (by tauto), hx] at hne
      cases hne

/-! ## The setters of the user -/

theorem addFlag_mono {n : Nat} (h : addFlag w n s c m = .ok s') (w' : FlagWord) (x : CoroId)
    (b : StatT) (hx : s.chk w' x b = true) : s'.chk w' x b = true := by
  induction n generalizing s c m with
  | zero => cases h
  | succ n ih =>
      obtain ⟨_, _, h⟩ := Fallible.bind_eq_ok.mp h
      have hset : (s.setFlags w c (s.flags w c ||| m)).chk w' x b = true := by
        unfold chk at hx ⊢
        rw [setFlags_flags]
        split
        next hself => rw [hself.1, hself.2] at hx; rw [hasBit_or, hx, Bool.true_or]
        next => exact hx
      dsimp only at h
      split at h
      · exact Except.ok.inj h ▸ hset
      · split at h
        · exact Except.ok.inj h ▸ hset
        · exact ih h hset

theorem notifyParent_mono (h : s.notifyParent w c = .ok s') (w' : FlagWord) (x : CoroId)
    (b : StatT) (hx : s.chk w' x b = true) : s'.chk w' x b = true := by
  unfold notifyParent at h
  split at h
  · exact Except.ok.inj h ▸ hx
  · exact addFlag_mono h w' x b hx

end State

/-- Called with `m`, the setter leaves a wait flag that is set. -/
def Setter.keepsWait : Setter → StatT → Bool
  | .set, m => hasBit m coroEvetWait
  | .add, _ => true
  | .del, m => !hasBit m coroEvetWait

theorem not_and_wait {m : StatT} (h : hasBit m coroEvetWait = false) :
    ~~~m &&& coroEvetWait = coroEvetWait := by
  have hzero : m &&& coroEvetWait = 0 := by simpa [hasBit] using h
  calc ~~~m &&& coroEvetWait
      = m &&& coroEvetWait ||| ~~~m &&& coroEvetWait := by rw [hzero]; simp
    _ = (m ||| ~~~m) &&& coroEvetWait := (BitVec.and_or_distrib_right ..).symm
    _ = coroEvetWait := by rw [BitVec.or_not_self, BitVec.allOnes_and]

namespace State

variable {s s' : State} {w : FlagWord} {c : CoroId} {m : StatT}

theorem setFlag_keeps {w' : FlagWord} {x : CoroId} (h : setFlag w s c m = .ok s')
    (hm : w' = w ∧ x = c → hasBit m coroEvetWait = true)
    (hx : s.chk w' x coroEvetWait = true) : s'.chk w' x coroEvetWait = true := by
  obtain ⟨_, _, h⟩ := Fallible.bind_eq_ok.mp h
  have hset : (s.setFlags w c (s.flags w c &&& ~~~w.wait ||| m)).chk w' x coroEvetWait =
      true := by
    unfold chk at hx ⊢
    rw [setFlags_flags]
    split
    next hself => rw [hasBit_or, hm hself, Bool.or_true]
    next => exact hx
  dsimp only at h
  split at h
  · exact Except.ok.inj h ▸ hset
  · exact notifyParent_mono h w' x _ hset

theorem delFlag_keeps {w' : FlagWord} {x : CoroId} {tested : StatT}
    (h : delFlag w tested s c m = .ok s')
    (hm : w' = w ∧ x = c → hasBit m coroEvetWait = false)
    (hx : s.chk w' x coroEvetWait = true) : s'.chk w' x coroEvetWait = true := by
  obtain ⟨_, _, h⟩ := Fallible.bind_eq_ok.mp h
  obtain ⟨s₁, hnotify, h⟩ := Fallible.bind_eq_ok.mp h
  obtain rfl := Except.ok.inj h
  have hx₁ : s₁.chk w' x coroEvetWait = true := by
    unfold notifyEnd at hnotify
    split at hnotify
    · exact notifyParent_mono hnotify w' x _ hx
    · exact Except.ok.inj hnotify ▸ hx
  rw [chk_setFlags_and]
  split
  next hself =>
    rw [not_and_wait (hm hself), ← hself.1, ← hself.2]
    exact hx₁
  next => exact hx₁

theorem setter_keeps {op : Setter} {w' : FlagWord} {x : CoroId} (h : s.setter op w c m = .ok s')
    (hm : w' = w ∧ x = c → op.keepsWait m = true) (hx : s.chk w' x coroEvetWait = true) :
    s'.chk w' x coroEvetWait = true := by
  cases op with
  | set => cases w <;> exact setFlag_keeps h hm hx
  | add => cases w <;> exact addFlag_mono h w' x _ hx
  | del =>
      have hno : w' = w ∧ x = c → hasBit m coroEvetWait = false := fun hself => by
        simpa [Setter.keepsWait] using hm hself
      cases w <;> exact delFlag_keeps h hno hx

end State

end BoostCoro.Coroutine
