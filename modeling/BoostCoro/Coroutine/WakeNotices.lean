import BoostCoro.Coroutine.Wake
/-!
# Who is told of a wake

A call that clears a wait flag tells the ancestors, one by one along the chain of parents:
each gets its CHLD flag and keeps its other flags. `event_del` and `msg_del` do so only for
the mask that is WAIT and nothing else.
-/

namespace BoostCoro.Coroutine

open Walk (Chain)

variable {s s' t : State} {w : FlagWord} {c : CoroId} {m : StatT} {above : List CoroId}

/-- `above` are the ancestors of `c`, the parent first, and none of them is destroyed. -/
structure Ancestry (s : Sched) (c : CoroId) (above : List CoroId) : Prop where
  chain : Chain s.coroParent (some c) (c :: above)
  live : ∀ a ∈ c :: above, a ∈ s.pool

namespace Ancestry

theorem notMem (h : Ancestry s.toSched c above) : c ∉ above :=
  (List.nodup_cons.mp h.chain.nodup).1

theorem length_le (h : Ancestry s.toSched c above) : (c :: above).length ≤ s.climbFuel := by
  have hle := (List.subperm_of_subset h.chain.nodup h.live).length_le
  exact Nat.le_succ_of_le hle

theorem checkLive (h : Ancestry s.toSched c above) : s.checkLive c = .ok () :=
  if_pos (h.live c List.mem_cons_self)

theorem setFlags (h : Ancestry s.toSched c above) (v : StatT) :
    Ancestry (s.setFlags w c v).toSched c above := h

theorem live_above (h : Ancestry s.toSched c above) : ∀ a ∈ above, a ∈ s.pool :=
  fun a ha => h.live a (List.mem_cons_of_mem _ ha)

/-- The ancestors start with the parent. -/
theorem parent_cases (h : Ancestry s.toSched c above) :
    (s.coroParent c = none ∧ above = []) ∨
      ∃ p, s.coroParent c = some p ∧ Chain s.coroParent (some p) above := by
  cases h.chain with
  | cons htail =>
      cases hp : s.coroParent c with
      | none =>
          rw [hp] at htail
          cases htail
          exact .inl ⟨rfl, rfl⟩
      | some p => exact .inr ⟨p, rfl, hp ▸ htail⟩

end Ancestry

/-- In a tree-driven run every coroutine has its line of ancestors. -/
theorem RunOf.ancestry {tr : List Obs} (h : RunOf TreeDriven tr s) (hc : c ∈ s.pool) :
    ∃ above, Ancestry s.toSched c above := by
  obtain ⟨-, path, below, htree, hrooted⟩ := h.rooted
  obtain ⟨line, hchain⟩ := hrooted c hc
  cases hchain with
  | @cons _ above htail =>
      refine ⟨above, .cons htail, fun a ha => ?_⟩
      by_cases hac : a = c
      · exact hac ▸ hc
      · exact (htree.chain_lives hc (.cons htail) a ha hac).1

namespace State

/-! ## The climb -/

/-- CHLD is set in all of `l`. -/
def raise (s : State) (w : FlagWord) (l : List CoroId) : State :=
  { s with flags := Function.update s.flags w fun x =>
      if x ∈ l then s.flags w x ||| w.chld else s.flags w x }

theorem raise_flags (s : State) (w : FlagWord) (l : List CoroId) (x : CoroId) :
    (s.raise w l).flags w x = if x ∈ l then s.flags w x ||| w.chld else s.flags w x := by
  simp [raise]

@[simp] theorem raise_nil (s : State) (w : FlagWord) : s.raise w [] = s := by
  simp [raise]

/-- States are the same if they differ at most in the flags `w`, and do not differ there. -/
theorem eq_of_flags (w : FlagWord) (hframe : s = { t with flags := s.flags })
    (hword : ∀ w', w' ≠ w → s.flags w' = t.flags w') (hflags : ∀ x, s.flags w x = t.flags w x) :
    s = t := by
  have hall : s.flags = t.flags := by
    funext w'
    by_cases hw : w' = w
    · subst hw
      exact funext hflags
    · exact hword w' hw
  calc s = { t with flags := s.flags } := hframe
    _ = t := by rw [hall]

theorem raise_word {w' : FlagWord} (hw : w' ≠ w) (l : List CoroId) :
    (s.raise w l).flags w' = s.flags w' := Function.update_of_ne hw ..

theorem raise_cons {l : List CoroId} (hc : c ∉ l) :
    (s.setFlags w c (s.flags w c ||| w.chld)).raise w l = s.raise w (c :: l) := by
  refine eq_of_flags w rfl (fun w' hw => ?_) fun x => ?_
  · rw [raise_word hw, setFlags_word hw, raise_word hw]
  · rw [raise_flags, raise_flags, setFlags_flags]
    by_cases hx : x = c
    · subst hx
      simp [hc]
    · simp [hx]

/-- `event_add(CORO_EVET_CHLD)` climbs the whole chain. -/
theorem addFlag_chld {l : List CoroId} {n : Nat} (hchain : Chain s.coroParent (some c) l)
    (hlive : ∀ a ∈ l, a ∈ s.pool) (hn : l.length ≤ n) :
    addFlag w n s c w.chld = .ok (s.raise w l) := by
  induction n generalizing s c l with
  | zero =>
      cases hchain with
      | cons _ => simp at hn
  | succ n ih =>
      have hnodup := hchain.nodup
      cases hchain with
      | @cons _ l htail =>
          have hchecked : s.checkLive c = .ok () := if_pos (hlive c List.mem_cons_self)
          have hself := (List.nodup_cons.mp hnodup).1
          have hne : w.chld ≠ w.wait := by cases w <;> decide
          rw [addFlag, hchecked, Fallible.ok_bind, ← raise_cons hself]
          cases hp : s.coroParent c with
          | none =>
              rw [hp] at htail
              cases htail
              simp [setFlags, hp]
          | some p =>
              rw [hp] at htail
              have hrest := ih (s := s.setFlags w c (s.flags w c ||| w.chld)) htail
                (fun a ha => hlive a (List.mem_cons_of_mem _ ha)) (Nat.le_of_succ_le_succ hn)
              have hparent : (s.setFlags w c (s.flags w c ||| w.chld)).coroParent c = some p := hp
              simp only [hparent, if_neg hne, hrest]

theorem notifyParent_eq (h : Ancestry s.toSched c above) :
    s.notifyParent w c = .ok (s.raise w above) := by
  unfold notifyParent
  obtain ⟨hp, rfl⟩ | ⟨p, hp, hchain⟩ := h.parent_cases
  · rw [hp, raise_nil]
  · rw [hp]
    exact addFlag_chld hchain h.live_above (Nat.le_of_succ_le h.length_le)

/-! ## The calls -/

theorem setFlag_eq (h : Ancestry s.toSched c above) :
    setFlag w s c m =
      .ok ((s.setFlags w c (s.flags w c &&& ~~~w.wait ||| m)).raise w
        (if m = w.wait then [] else above)) := by
  rw [setFlag, h.checkLive, Fallible.ok_bind]
  split
  · rw [raise_nil]
  · exact notifyParent_eq (h.setFlags _)

theorem addFlag_eq (h : Ancestry s.toSched c above) :
    addFlag w s.climbFuel s c m =
      .ok ((s.setFlags w c (s.flags w c ||| m)).raise w (if m = w.wait then [] else above)) := by
  have hlength : above.length ≤ s.pool.length := Nat.le_of_succ_le_succ h.length_le
  have hparent : (s.setFlags w c (s.flags w c ||| m)).coroParent c = s.coroParent c := rfl
  rw [climbFuel, addFlag, h.checkLive, Fallible.ok_bind]
  obtain ⟨hp, rfl⟩ | ⟨p, hp, hchain⟩ := h.parent_cases
  · simp [hparent, hp]
  · simp only [hparent, hp]
    split
    · rw [raise_nil]
    · exact addFlag_chld (s := s.setFlags w c (s.flags w c ||| m)) hchain h.live_above hlength

theorem delFlag_eq {tested : StatT} (h : Ancestry s.toSched c above) :
    delFlag w tested s c m =
      .ok ((s.raise w (if s.chk w c tested = true ∧ m = w.wait then above else [])).setFlags w c
        (s.flags w c &&& ~~~m)) := by
  have hself : ∀ l, c ∉ l → (s.raise w l).flags w c = s.flags w c := fun l hl => by
    rw [raise_flags, if_neg hl]
  rw [delFlag, h.checkLive, Fallible.ok_bind, notifyEnd]
  split
  · rw [notifyParent_eq h, Fallible.ok_bind, hself above h.notMem]
  · rw [raise_nil, Fallible.ok_bind]

end State

/-! ## What a wake announces -/

/-- All of `above` have CHLD; their other flags are what they were, and so is everything of
the coroutines that are neither `c` nor in `above`. -/
structure Announces (w : FlagWord) (c : CoroId) (above : List CoroId) (s s' : State) : Prop where
  told : ∀ a ∈ above, s'.chk w a w.chld = true
  bits : ∀ a ∈ above, s'.flags w a &&& ~~~w.chld = s.flags w a &&& ~~~w.chld
  others : ∀ x, x ≠ c → x ∉ above → s'.flags w x = s.flags w x
  word : ∀ w', w' ≠ w → s'.flags w' = s.flags w'
  frame : s' = { s with flags := s'.flags }

theorem hasBit_not_and_wait (h : hasBit m w.wait = true) : ~~~m &&& w.wait = 0 := by
  have hone : w.wait = 1#16 := by cases w <;> rfl
  rw [hone] at h ⊢
  unfold hasBit at h
  rw [BitVec.and_one_eq_setWidth_ofBool_getLsbD] at h ⊢
  cases hbit : m.getLsbD 0 with
  | false =>
      rw [hbit] at h
      exact absurd h (by decide)
  | true =>
      rw [BitVec.getLsbD_not, hbit]
      rfl

namespace State

theorem raise_setFlags {v : StatT} {l : List CoroId} (hc : c ∉ l) :
    (s.raise w l).setFlags w c v = (s.setFlags w c v).raise w l := by
  refine eq_of_flags w rfl (fun w' hw => ?_) fun x => ?_
  · rw [setFlags_word hw, raise_word hw, raise_word hw, setFlags_word hw]
  · rw [setFlags_flags, raise_flags, raise_flags, setFlags_flags]
    by_cases hx : x = c
    · subst hx
      simp [hc]
    · simp [hx]

/-- A call that climbs announces. -/
theorem announces_raise {v : StatT} (hc : c ∉ above) :
    Announces w c above s ((s.setFlags w c v).raise w above) where
  told := fun a ha => by
    have hset : hasBit w.chld w.chld = true := by cases w <;> decide
    rw [chk, raise_flags, if_pos ha, hasBit_or, hset, Bool.or_true]
  bits := fun a ha => by
    have hne : a ≠ c := fun heq => hc (heq ▸ ha)
    rw [raise_flags, if_pos ha, setFlags_flags, if_neg fun h => hne h.2,
      BitVec.and_or_distrib_right, BitVec.and_not_self]
    exact BitVec.or_zero
  others := fun x hx hoff => by
    rw [raise_flags, if_neg hoff, setFlags_flags, if_neg fun h => hx h.2]
  word := fun w' hw => by
    rw [raise_word hw, setFlags_word hw]
  frame := rfl

/-- A call that does not climb announces if everyone had been told before. -/
theorem announces_setFlags_iff {v : StatT} (hc : c ∉ above) :
    Announces w c above s (s.setFlags w c v) ↔ ∀ a ∈ above, s.chk w a w.chld = true := by
  have hflags : ∀ x, x ≠ c → (s.setFlags w c v).flags w x = s.flags w x := fun x hx => by
    rw [setFlags_flags, if_neg fun h => hx h.2]
  have hne : ∀ a ∈ above, a ≠ c := fun a ha heq => hc (heq ▸ ha)
  constructor
  · intro h a ha
    have htold := h.told a ha
    rwa [chk, hflags a (hne a ha)] at htold
  · intro h
    exact {
      told := fun a ha => by
        rw [chk, hflags a (hne a ha)]
        exact h a ha
      bits := fun a ha => by rw [hflags a (hne a ha)]
      others := fun x hx _ => hflags x hx
      word := fun w' hw => setFlags_word hw v
      frame := rfl }

theorem setFlag_announces (h : Ancestry s.toSched c above) (m : StatT) :
    ∃ s', setFlag w s c m = .ok s' ∧
      (s.chk w c w.wait = true → s'.chk w c w.wait = false → Announces w c above s s') := by
  refine ⟨_, setFlag_eq h, fun _ hcleared => ?_⟩
  by_cases hm : m = w.wait
  · have hset : hasBit w.wait w.wait = true := by cases w <;> decide
    rw [if_pos hm, raise_nil, chk, setFlags_flags, if_pos ⟨rfl, rfl⟩, hasBit_or, hm, hset,
      Bool.or_true] at hcleared
    cases hcleared
  · rw [if_neg hm]
    exact announces_raise h.notMem

theorem addFlag_announces (h : Ancestry s.toSched c above) (m : StatT) :
    ∃ s', addFlag w s.climbFuel s c m = .ok s' ∧
      (s.chk w c w.wait = true → s'.chk w c w.wait = false → Announces w c above s s') := by
  refine ⟨_, addFlag_eq h, fun hwait hcleared => ?_⟩
  rw [addFlag_mono (addFlag_eq h) w c w.wait hwait] at hcleared
  cases hcleared

/-- `tested` is what the call looks at: WAIT, or the mask. -/
theorem delFlag_announces_iff {tested : StatT} (h : Ancestry s.toSched c above)
    (htested : tested = w.wait ∨ tested = m) :
    (∃ s', delFlag w tested s c m = .ok s' ∧
      (s.chk w c w.wait = true → s'.chk w c w.wait = false → Announces w c above s s')) ↔
      (hasBit m w.wait = true → m ≠ w.wait → s.chk w c w.wait = true →
        ∀ a ∈ above, s.chk w a w.chld = true) := by
  rw [delFlag_eq h]
  simp only [Except.ok.injEq, exists_eq_left']
  by_cases htells : s.chk w c tested = true ∧ m = w.wait
  · rw [if_pos htells, raise_setFlags h.notMem]
    exact iff_of_true (fun _ _ => announces_raise h.notMem) fun _ hm => absurd htells.2 hm
  · rw [if_neg htells, raise_nil, announces_setFlags_iff h.notMem, chk_setFlags_and,
      if_pos ⟨rfl, rfl⟩]
    by_cases hm : hasBit m w.wait = true
    · rw [hasBit_not_and_wait hm, hasBit_zero]
      have hne : s.chk w c w.wait = true → m ≠ w.wait := by
        rintro hwait rfl
        rcases htested with rfl | rfl <;> exact htells ⟨hwait, rfl⟩
      exact ⟨fun hall _ _ hwait => hall hwait rfl, fun hall hwait _ => hall hm (hne hwait) hwait⟩
    · have hkept : hasBit (s.flags w c) (~~~m &&& w.wait) = s.chk w c w.wait := by
        rw [FlagWord.wait_eq] at hm ⊢
        rw [not_and_wait (Bool.eq_false_iff.mpr hm), chk]
      rw [hkept]
      exact iff_of_true (fun hwait hno => absurd hwait (Bool.eq_false_iff.mp hno))
        fun hyes => absurd hyes hm

end State

/-- A call that ends the wait of `c` announces it, unless it is `event_del` or `msg_del` with
WAIT among other bits and some ancestor has not been told before. -/
theorem wake_announced_iff (h : Ancestry s.toSched c above) (op : Setter) (w : FlagWord)
    (m : StatT) :
    (∃ s', s.setter op w c m = .ok s' ∧
      (s.chk w c w.wait = true → s'.chk w c w.wait = false → Announces w c above s s')) ↔
      (op = .del → hasBit m w.wait = true → m ≠ w.wait → s.chk w c w.wait = true →
        ∀ a ∈ above, s.chk w a w.chld = true) := by
  cases op with
  | set =>
      refine iff_of_true ?_ nofun
      cases w <;> exact State.setFlag_announces h m
  | add =>
      refine iff_of_true ?_ nofun
      cases w <;> exact State.addFlag_announces h m
  | del =>
      rw [forall_prop_of_true rfl]
      cases w with
      | evet => exact State.delFlag_announces_iff h (.inr rfl)
      | msg => exact State.delFlag_announces_iff h (.inl rfl)

/-- Coroutine 0 attaches coroutine 1, and coroutine 1 waits. -/
def childWaits : List Act :=
  [.user (.create 0 0), .user (.create 1 0), .user (.child 0), .user (.resume none),
    .lib, .lib, .lib, .lib, .lib, .user (.child 1), .user (.flag .set .evet 1 coroEvetWait)]

theorem childWaits_ancestry :
    Ancestry (Transition.after State.step TreeDriven State.init childWaits).1.toSched 1 [0] where
  chain := .cons (.cons .nil)
  live := by decide +kernel

theorem childWaits_told :
    let s := (Transition.after State.step TreeDriven State.init childWaits).1
    ∃ s', s.setter .del .evet 1 coroEvetWait = .ok s' ∧
      (s.chk .evet 1 coroEvetWait = true → s'.chk .evet 1 coroEvetWait = false →
        Announces .evet 1 [0] s s') :=
  (wake_announced_iff childWaits_ancestry .del .evet coroEvetWait).mpr fun _ _ hne =>
    absurd rfl hne

/-- `event_del(CORO_EVET_WAIT | CORO_EVET_TIME)` wakes coroutine 1 and does not tell its
parent. -/
theorem childWaits_not_told : ∃ tr s s', RunOf TreeDriven tr s ∧ Ancestry s.toSched 1 [0] ∧
    s.chk .evet 1 coroEvetWait = true ∧
    s.setter .del .evet 1 (coroEvetWait ||| coroEvetTime) = .ok s' ∧
    s'.chk .evet 1 coroEvetWait = false ∧ s'.chk .evet 0 coroEvetChld = false := by
  have hrun : RunOf TreeDriven _
      (Transition.after State.step TreeDriven State.init childWaits).1 :=
    Transition.run_after (by decide +kernel)
  have hwait : (Transition.after State.step TreeDriven State.init childWaits).1.chk .evet 1
      coroEvetWait = true := by decide +kernel
  exact ⟨_, _, _, hrun, childWaits_ancestry, hwait, rfl, by decide +kernel, by decide +kernel⟩

end BoostCoro.Coroutine
