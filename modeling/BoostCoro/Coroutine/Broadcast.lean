import BoostCoro.Coroutine.Mailbox
import BoostCoro.Buffer.Fifo
/-!
# The payload of a broadcast

`mbroadcast` hands every child the same `message_ptr_t`, so the children share one
`vbuf`, and `var_buf_t::read` takes bytes out of it. What the readers take, one after the
other, is the payload once.
-/

namespace BoostCoro.Coroutine

open Buffer (VarBuf)

/-- `MSG_PAGE_SZ`. -/
def msgPageSz : Nat := 128

/-- `message_t(const std::string& str)`; `raw` is what the blocks of its `vbuf` hold before
they are written. -/
def newMessage (raw : Buffer.Addr → Nat → UInt8) (str : List UInt8) : VarBuf msgPageSz :=
  match (VarBuf.new raw).assign str with
  | .ok (b, _) => b
  | .error _ => VarBuf.new raw

theorem newMessage_represents (raw : Buffer.Addr → Nat → UInt8) (str : List UInt8) :
    (newMessage raw str).Represents True str := by
  obtain ⟨b, hassign, hrep⟩ := (VarBuf.represents_new raw).assign (by decide : 0 < msgPageSz) str
  rw [newMessage, hassign]
  exact hrep

/-- The coroutines and what their message pointers point to. -/
structure Mail where
  state : State
  /-- the member `vbuf` of a message -/
  vbuf : MessagePtr → VarBuf msgPageSz
  /-- the pointers that `mget` gave to a coroutine -/
  taken : CoroId → List MessagePtr

/-- A step of the coroutines, or a `read` of the message that a pointer of the running
coroutine points to. -/
inductive MailAct where
  | coro (a : Act)
  | read (m : MessagePtr) (len : Nat)
  deriving DecidableEq, Repr

inductive MailObs where
  | coro (o : Obs)
  | read (c : CoroId) (m : MessagePtr) (len : Nat) (bytes : List UInt8)
  deriving DecidableEq, Repr

inductive MailFault where
  | coro (f : Fault)
  | buffer (f : Buffer.Fault)
  deriving DecidableEq, Repr

namespace Mail

def init (vbuf : MessagePtr → VarBuf msgPageSz) : Mail where
  state := .init
  vbuf := vbuf
  taken := fun _ => []

/-- What the variables of `c` hold after a step with these events. -/
def takes (s : Mail) (evs : List Obs) (c : CoroId) : List MessagePtr :=
  (if .constructed c ∈ evs then [] else s.taken c) ++ receipts c evs

def coro (s : Mail) (a : Act) : Option (Except MailFault (Mail × List MailObs)) :=
  match s.state.step a with
  | none => none
  | some (.error f) => some (.error (.coro f))
  | some (.ok (t, evs)) =>
    some (.ok ({ s with state := t, taken := s.takes evs }, evs.map .coro))

/-- `msg->vbuf.read(ptr, len)` in the coroutine function of `c`. -/
def read (s : Mail) (c : CoroId) (m : MessagePtr) (len : Nat) :
    Except MailFault (Mail × List MailObs) :=
  match (s.vbuf m).read len with
  | .error f => .error (.buffer f)
  | .ok (b, bytes, _) =>
    .ok ({ s with vbuf := Function.update s.vbuf m b }, [.read c m len bytes])

def step (s : Mail) : MailAct → Option (Except MailFault (Mail × List MailObs))
  | .coro a => s.coro a
  | .read m len =>
    match s.state.inUserCode, s.state.running with
    | true, some c => if m ∈ s.taken c then some (s.read c m len) else none
    | _, _ => none

end Mail

/-- Nobody sends `m`. -/
def NoSend (m : MessagePtr) (_ : Mail) : MailAct → Prop
  | .coro (.user (.mput _ m')) => m' ≠ m
  | .coro (.user (.mbroadcast _ m')) => m' ≠ m
  | _ => True

instance (m : MessagePtr) (s : Mail) (a : MailAct) : Decidable (NoSend m s a) := by
  unfold NoSend
  split <;> infer_instance

/-- The bytes of `m` that `c` read, and those that anybody read, in order. -/
def obtained (c : CoroId) (m : MessagePtr) (tr : List MailObs) : List UInt8 :=
  tr.flatMap fun
    | .read d m' _ bytes => if d = c ∧ m' = m then bytes else []
    | _ => []

def drained (m : MessagePtr) (tr : List MailObs) : List UInt8 :=
  tr.flatMap fun
    | .read _ m' _ bytes => if m' = m then bytes else []
    | _ => []

/-- A `read` of `c` found less than it asked for. -/
def ReadsToEnd (c : CoroId) (m : MessagePtr) (tr : List MailObs) : Prop :=
  ∃ len bytes, .read c m len bytes ∈ tr ∧ bytes.length < len

variable {s s' s₁ s₂ s₃ : Mail} {t t' : State} {a : Act} {evs : List Obs}
  {tr tr' tr₁ tr₂ obs : List MailObs} {c d p : CoroId} {m m' : MessagePtr} {l : List CoroId}
  {w : List UInt8}

/-! ## Who gets the message -/

theorem mem_deliveries : m ∈ deliveries c evs ↔ .delivered c m ∈ evs := by
  unfold deliveries
  rw [List.mem_filterMap]
  constructor
  · rintro ⟨o, ho, hm⟩
    cases o with
    | delivered d m' =>
        dsimp only at hm
        split at hm
        next hd => rwa [← hd, ← Option.some.inj hm]
        next => cases hm
    | _ => cases hm
  · exact fun h => ⟨_, h, if_pos rfl⟩

/-- A message is delivered by `mput`, or by `mbroadcast` to the children. -/
theorem Effect.delivered (heffect : Effect t a t' evs) (h : .delivered c m ∈ evs) :
    a = .user (.mput c m) ∨
      ∃ p, a = .user (.mbroadcast p m) ∧ c ∈ t.coroChilds (some p) := by
  have hdelivery : .delivered c m ∈ evs.filter Obs.isDelivery :=
    List.mem_filter.mpr ⟨h, rfl⟩
  by_cases hput : ∃ d m', a = .user (.mput d m')
  · obtain ⟨d, m', rfl⟩ := hput
    cases heffect with
    | waitMain _ _ hstarts => cases hstarts
    | waitCoro _ _ hstarts => cases hstarts
    | quiet _ hquiet =>
        cases hquiet with
        | idle => cases h
        | mput hput =>
            rw [(State.mput_spreads hput).delivered] at hdelivery
            obtain ⟨rfl, rfl⟩ := Obs.delivered.inj (List.mem_singleton.mp hdelivery)
            exact .inl rfl
  by_cases hcast : ∃ p m', a = .user (.mbroadcast p m')
  · obtain ⟨p, m', rfl⟩ := hcast
    cases heffect with
    | waitMain _ _ hstarts => cases hstarts
    | waitCoro _ _ hstarts => cases hstarts
    | quiet _ hquiet =>
        cases hquiet with
        | idle => cases h
        | mbroadcast hcast =>
            rw [(State.mbroadcast_ok hcast).2.delivered] at hdelivery
            obtain ⟨e, he, heq⟩ := List.mem_map.mp hdelivery
            obtain ⟨rfl, rfl⟩ := Obs.delivered.inj heq
            exact .inr ⟨p, rfl, he⟩
  · rw [heffect.no_delivery (fun d m' ha => hput ⟨d, m', ha⟩)
      fun p m' ha => hcast ⟨p, m', ha⟩] at hdelivery
    cases hdelivery

theorem Mail.coro_ok (h : s.coro a = some (.ok (s', obs))) :
    ∃ t evs, s.state.step a = some (.ok (t, evs)) ∧
      s' = { s with state := t, taken := s.takes evs } ∧ obs = evs.map .coro := by
  unfold Mail.coro at h
  split at h
  · cases h
  · cases h
  next t evs hstep =>
    obtain ⟨rfl, rfl⟩ := Prod.mk.inj (Except.ok.inj (Option.some.inj h))
    exact ⟨t, evs, hstep, rfl, rfl⟩

theorem Mail.read_ok {len : Nat} (h : s.step (.read m len) = some (.ok (s', obs))) :
    ∃ c b bytes ret, m ∈ s.taken c ∧ (s.vbuf m).read len = .ok (b, bytes, ret) ∧
      s' = { s with vbuf := Function.update s.vbuf m b } ∧ obs = [.read c m len bytes] := by
  simp only [Mail.step] at h
  split at h
  next c _ _ =>
    split at h
    next hc =>
      have h := Option.some.inj h
      unfold Mail.read at h
      split at h
      · cases h
      next b bytes ret hread =>
        obtain ⟨rfl, rfl⟩ := Prod.mk.inj (Except.ok.inj h)
        exact ⟨c, b, bytes, ret, hc, hread, rfl, rfl⟩
    next => cases h
  next => cases h

/-- A coroutine that comes to hold a message was sent it. -/
theorem Mail.holds_old (heffect : Effect s.state a t' evs)
    (h : m ∈ s.takes evs c ∨ m ∈ t'.coroMessages c) :
    (m ∈ s.taken c ∨ m ∈ s.state.coroMessages c) ∨ .delivered c m ∈ evs := by
  unfold Mail.takes at h
  by_cases hnew : .constructed c ∈ evs
  · obtain ⟨rfl, hempty, _⟩ := heffect.constructed hnew
    rw [hempty] at h
    simp [receipts] at h
  · rw [if_neg hnew, List.mem_append] at h
    have hlaw := heffect.mailbox c hnew
    have hmem : m ∈ receipts c evs ++ t'.coroMessages c →
        m ∈ s.state.coroMessages c ∨ .delivered c m ∈ evs := by
      rw [hlaw, List.mem_append, mem_deliveries]
      exact id
    rcases h with (htaken | hgot) | hwaits
    · exact .inl (.inl htaken)
    · exact (hmem (List.mem_append_left _ hgot)).imp .inr id
    · exact (hmem (List.mem_append_right _ hwaits)).imp .inr id

/-! ## Reading a shared payload -/

@[simp] theorem obtained_append (c : CoroId) (m : MessagePtr) (tr tr' : List MailObs) :
    obtained c m (tr ++ tr') = obtained c m tr ++ obtained c m tr' := List.flatMap_append

@[simp] theorem drained_append (m : MessagePtr) (tr tr' : List MailObs) :
    drained m (tr ++ tr') = drained m tr ++ drained m tr' := List.flatMap_append

@[simp] theorem drained_coro (m : MessagePtr) (evs : List Obs) :
    drained m (evs.map .coro) = [] := by
  unfold drained
  rw [List.flatMap_map]
  exact List.flatMap_eq_nil_iff.mpr fun _ _ => rfl

@[simp] theorem obtained_coro (c : CoroId) (m : MessagePtr) (evs : List Obs) :
    obtained c m (evs.map .coro) = [] := by
  unfold obtained
  rw [List.flatMap_map]
  exact List.flatMap_eq_nil_iff.mpr fun _ _ => rfl

/-- What one coroutine obtained when it alone reads. -/
theorem obtained_alone (h : ∀ d len bytes, .read d m len bytes ∈ tr → d = c) :
    obtained c m tr = drained m tr := by
  induction tr with
  | nil => rfl
  | cons o tr ih =>
      have hrest := ih fun d len bytes hmem => h d len bytes (List.mem_cons_of_mem _ hmem)
      cases o with
      | coro o => exact hrest
      | read d m' len bytes =>
          show (if d = c ∧ m' = m then bytes else []) ++ obtained c m tr =
            (if m' = m then bytes else []) ++ drained m tr
          rw [hrest]
          by_cases hm : m' = m
          · subst hm
            rw [if_pos ⟨h d len bytes List.mem_cons_self, rfl⟩, if_pos rfl]
          · rw [if_neg hm, if_neg fun hboth => hm hboth.2]

/-- What two coroutines obtained comes out of the same bytes. -/
theorem obtained_add_le (hne : c ≠ d) (m : MessagePtr) (tr : List MailObs) :
    (obtained c m tr).length + (obtained d m tr).length ≤ (drained m tr).length := by
  induction tr with
  | nil => exact Nat.le_refl _
  | cons o tr ih =>
      cases o with
      | coro o => exact ih
      | read e m' len bytes =>
          have hone : (if e = c ∧ m' = m then bytes else []).length +
              (if e = d ∧ m' = m then bytes else []).length ≤
                (if m' = m then bytes else []).length := by
            by_cases hm : m' = m
            · by_cases hc : e = c
              · have hd : e ≠ d := fun hd => hne (hc.symm.trans hd)
                simp [hm, hc, hne]
              · simp only [hc, hm, and_true, if_false, if_true]
                split <;> simp
            · simp [hm]
          show ((if e = c ∧ m' = m then bytes else []) ++ obtained c m tr).length +
            ((if e = d ∧ m' = m then bytes else []) ++ obtained d m tr).length ≤
              ((if m' = m then bytes else []) ++ drained m tr).length
          simp only [List.length_append]
          omega

theorem obtained_le (c : CoroId) (m : MessagePtr) (tr : List MailObs) :
    (obtained c m tr).length ≤ (drained m tr).length :=
  Nat.le_trans (Nat.le_add_right _ _) (obtained_add_le (Nat.ne_of_lt (Nat.lt_succ_self c)) m tr)

/-- The coroutines in `l` hold the message with payload `w`: what they read of it, and then
what is left, is `w`. -/
structure Shared (m : MessagePtr) (l : List CoroId) (w : List UInt8) (tr : List MailObs)
    (s : Mail) : Prop where
  inv : SchedInv s.state.toSched
  holders : ∀ c, m ∈ s.taken c ∨ m ∈ s.state.coroMessages c → c ∈ l
  readers : ∀ c len bytes, .read c m len bytes ∈ tr → c ∈ l
  rest : ∃ v, (s.vbuf m).Represents True v ∧ drained m tr ++ v = w ∧
    ∀ c, ReadsToEnd c m tr → v = []

/-- A step of the coroutines reads nothing. -/
theorem Shared.coro (h : Shared m l w tr s) (hcoro : s.coro a = some (.ok (s', obs)))
    (hsent : ∀ c evs t, s.state.step a = some (.ok (t, evs)) → .delivered c m ∈ evs → c ∈ l) :
    Shared m l w (tr ++ obs) s' := by
  obtain ⟨t, evs, hstep, rfl, rfl⟩ := Mail.coro_ok hcoro
  have heffect := h.inv.effect hstep
  have hreads : ∀ c len bytes, .read c m len bytes ∈ tr ++ evs.map MailObs.coro →
      .read c m len bytes ∈ tr := by
    intro c len bytes hmem
    refine (List.mem_append.mp hmem).resolve_right fun hmap => ?_
    obtain ⟨_, _, heq⟩ := List.mem_map.mp hmap
    cases heq
  constructor
  case inv => exact h.inv.step heffect
  case holders =>
    intro c hc
    exact (Mail.holds_old heffect hc).elim (h.holders c) (hsent c evs t hstep)
  case readers => exact fun c len bytes hmem => h.readers c len bytes (hreads c len bytes hmem)
  case rest =>
    obtain ⟨v, hrep, hdrained, hended⟩ := h.rest
    refine ⟨v, hrep, ?_, fun c hc => ?_⟩
    · rw [drained_append, drained_coro, List.append_nil, hdrained]
    · obtain ⟨len, bytes, hmem, hshort⟩ := hc
      exact hended c ⟨len, bytes, hreads c len bytes hmem, hshort⟩

/-- A read takes bytes from the front of what is left. -/
theorem Shared.read {len : Nat} (h : Shared m l w tr s)
    (hstep : s.step (.read m' len) = some (.ok (s', obs))) : Shared m l w (tr ++ obs) s' := by
  obtain ⟨c, b, bytes, ret, hc, hread, rfl, rfl⟩ := Mail.read_ok hstep
  obtain ⟨v, hrep, hdrained, hended⟩ := h.rest
  by_cases hm : m' = m
  · subst hm
    obtain ⟨b', hread', hrep'⟩ := hrep.read len
    rw [hread] at hread'
    obtain ⟨rfl, hbytes⟩ := Prod.mk.inj (Except.ok.inj hread')
    obtain ⟨rfl, _⟩ := Prod.mk.inj hbytes
    refine ⟨h.inv, h.holders, fun d len' bytes hmem => ?_, v.drop len, ?_, ?_, ?_⟩
    · rcases List.mem_append.mp hmem with hmem | hmem
      · exact h.readers d len' bytes hmem
      · obtain ⟨rfl, _⟩ := MailObs.read.inj (List.mem_singleton.mp hmem)
        exact h.holders d (.inl hc)
    · show (Function.update s.vbuf m' b m').Represents True _
      rw [Function.update_self]
      exact hrep'
    · have hone : drained m' [.read c m' len (v.take len)] = v.take len := by simp [drained]
      rw [drained_append, hone, List.append_assoc, List.take_append_drop, hdrained]
    · rintro d ⟨len', bytes, hmem, hshort⟩
      rcases List.mem_append.mp hmem with hmem | hmem
      · rw [hended d ⟨len', bytes, hmem, hshort⟩, List.drop_nil]
      · obtain ⟨_, _, rfl, rfl⟩ := MailObs.read.inj (List.mem_singleton.mp hmem)
        rw [List.length_take] at hshort
        exact List.drop_eq_nil_of_le (by omega)
  · have hreads : ∀ d len' bytes', .read d m len' bytes' ∈ tr ++ [.read c m' len bytes] →
        .read d m len' bytes' ∈ tr := by
      intro d len' bytes' hmem
      refine (List.mem_append.mp hmem).resolve_right fun hlast => ?_
      exact hm (MailObs.read.inj (List.mem_singleton.mp hlast)).2.1.symm
    refine ⟨h.inv, h.holders, fun d len' bytes' hmem =>
      h.readers d len' bytes' (hreads d len' bytes' hmem), v, ?_, ?_, ?_⟩
    · show (Function.update s.vbuf m' b m).Represents True v
      rw [Function.update_of_ne (Ne.symm hm)]
      exact hrep
    · have hnone : drained m [.read c m' len bytes] = [] := by simp [drained, hm]
      rw [drained_append, hnone, List.append_nil, hdrained]
    · rintro d ⟨len', bytes', hmem, hshort⟩
      exact hended d ⟨len', bytes', hreads d len' bytes' hmem, hshort⟩

/-- As long as nobody sends the message, those in `l` share what is left of it. -/
theorem Shared.run (h : Shared m l w tr s)
    (hrun : Transition.Run Mail.step (NoSend m) s tr' s') : Shared m l w (tr ++ tr') s' := by
  refine Transition.Run.invariant_trace (I := fun tr' s' => Shared m l w (tr ++ tr') s') ?_ hrun
    (by rwa [List.append_nil])
  intro tr' s₁ a s₂ obs h hok hstep
  rw [← List.append_assoc]
  cases a with
  | read m' len => exact h.read hstep
  | coro a =>
      refine h.coro hstep fun c evs t hstep hmem => ?_
      -- whoever is sent `m` now is sent it against the discipline
      rcases (h.inv.effect hstep).delivered hmem with rfl | ⟨p, rfl, _⟩
      · exact absurd rfl hok
      · exact absurd rfl hok

/-- A message that nobody holds was read by nobody. -/
theorem Shared.fresh (h : Shared m [] w tr s) (l : List CoroId) : Shared m l w [] s := by
  obtain ⟨v, hrep, hdrained, _⟩ := h.rest
  have hnone : drained m tr = [] := by
    refine List.flatMap_eq_nil_iff.mpr fun o ho => ?_
    cases o with
    | coro o => rfl
    | read c m' len bytes =>
        refine if_neg ?_
        rintro rfl
        exact absurd (h.readers c len bytes ho) List.not_mem_nil
  rw [hnone, List.nil_append] at hdrained
  refine ⟨h.inv, fun c hc => absurd (h.holders c hc) List.not_mem_nil, nofun, v, hrep, ?_, ?_⟩
  · exact hdrained
  · rintro c ⟨_, _, hmem, _⟩
    cases hmem

/-- A message that nobody was sent. -/
theorem shared_init {vbuf : MessagePtr → VarBuf msgPageSz} (h : (vbuf m).Represents True w) :
    Shared m [] w [] (Mail.init vbuf) := by
  refine ⟨schedInv_init, fun c hc => ?_, nofun, w, h, rfl, ?_⟩
  · simp [Mail.init, State.init] at hc
  · rintro c ⟨_, _, hmem, _⟩
    cases hmem

/-- Those who read the message to the end all obtained the whole of it exactly if it is
empty or they are one. -/
theorem Shared.obtained_iff (h : Shared m l w tr s) (hends : ∀ c ∈ l, ReadsToEnd c m tr) :
    (∀ c ∈ l, obtained c m tr = w) ↔ w = [] ∨ ∀ c ∈ l, ∀ d ∈ l, c = d := by
  obtain ⟨v, _, hdrained, hended⟩ := h.rest
  have hle : (drained m tr).length ≤ w.length := by
    rw [← hdrained, List.length_append]
    exact Nat.le_add_right _ _
  constructor
  · intro hall
    by_contra hboth
    rw [not_or] at hboth
    obtain ⟨hne, hmany⟩ := hboth
    refine hmany fun c hc d hd => ?_
    by_contra hcd
    have htwice := obtained_add_le hcd m tr
    rw [hall c hc, hall d hd] at htwice
    have hpos : 0 < w.length := List.length_pos_iff.mpr hne
    omega
  · rintro (rfl | hone) c hc
    · have hshort := obtained_le c m tr
      exact List.eq_nil_of_length_eq_zero (Nat.le_zero.mp (Nat.le_trans hshort hle))
    · rw [obtained_alone fun d len bytes hmem => hone d (h.readers d len bytes hmem) c hc,
        ← hdrained, hended c (hends c hc), List.append_nil]

/-- After `p` broadcast a message with payload `w` and all its children read it to the end,
each has obtained the whole of `w` exactly if `w` is empty or there is only one child. -/
theorem broadcast_payload {vbuf : MessagePtr → VarBuf msgPageSz} {raw : Buffer.Addr → Nat → UInt8}
    (hmsg : vbuf m = newMessage raw w)
    (hbefore : Transition.Run Mail.step (NoSend m) (Mail.init vbuf) tr₁ s₁)
    (hcast : s₁.step (.coro (.user (.mbroadcast p m))) = some (.ok (s₂, obs)))
    (hafter : Transition.Run Mail.step (NoSend m) s₂ tr₂ s₃)
    (hends : ∀ c ∈ s₁.state.coroChilds (some p), ReadsToEnd c m tr₂) :
    (∀ c ∈ s₁.state.coroChilds (some p), obtained c m tr₂ = w) ↔
      w = [] ∨ ∀ c ∈ s₁.state.coroChilds (some p), ∀ d ∈ s₁.state.coroChilds (some p), c = d := by
  have hrep : (vbuf m).Represents True w := hmsg ▸ newMessage_represents raw w
  have hfirst := ((shared_init hrep).run hbefore).fresh (s₁.state.coroChilds (some p))
  have hsecond := hfirst.coro hcast fun c evs t hstep hmem => by
    rcases (hfirst.inv.effect hstep).delivered hmem with heq | ⟨q, heq, hc⟩
    · cases heq
    · obtain ⟨rfl, _⟩ := User.mbroadcast.inj (Act.user.inj heq)
      exact hc
  obtain ⟨_, evs, _, _, rfl⟩ := Mail.coro_ok hcast
  have hthird := hsecond.run hafter
  have hsame : ∀ c, obtained c m ([] ++ evs.map .coro ++ tr₂) = obtained c m tr₂ := by
    intro c
    rw [obtained_append, List.nil_append, obtained_coro, List.nil_append]
  have hiff := hthird.obtained_iff fun c hc => by
    obtain ⟨len, bytes, hmem, hshort⟩ := hends c hc
    exact ⟨len, bytes, List.mem_append_right _ hmem, hshort⟩
  simpa only [hsame] using hiff

/-- Every message is the two bytes `hi`. -/
def hiVbuf (_ : MessagePtr) : VarBuf msgPageSz := newMessage (fun _ _ => 0) [104, 105]

/-- Main makes coroutine 0 and those in `l`, resumes them, and coroutine 0 makes those in `l`
its children. -/
def parentOf (l : List CoroId) : List MailAct :=
  ([.user (.create 0 0)] ++ l.map (fun c => .user (.create c 0)) ++ [.user (.child 0)] ++
    [.user (.resumeChilds none)] ++ List.replicate 4 .lib ++
      l.map fun c => .user (.child c) : List Act).map .coro

/-- Each child of coroutine 0 takes message 7 when it is resumed, and reads up to 100 bytes
of it. -/
def childsRead (l : List CoroId) : List MailAct :=
  .coro (.user .yield) :: List.replicate 4 (.coro .lib) ++
    l.flatMap fun _ => [.coro (.user (.mget true)), .coro .lib, .read 7 100,
      .coro (.user .yield)] ++ List.replicate 8 (.coro .lib)

/-- The state in which coroutine 0 has the children in `l`, the one after its broadcast, and
the one after they read. -/
def parented (l : List CoroId) : Mail × List MailObs :=
  Transition.after Mail.step (NoSend 7) (Mail.init hiVbuf) (parentOf l)

def parentCast (l : List CoroId) : Mail × List MailObs :=
  Transition.after Mail.step (fun _ _ => True) (parented l).1 [.coro (.user (.mbroadcast 0 7))]

def parentRead (l : List CoroId) : Mail × List MailObs :=
  Transition.after Mail.step (NoSend 7) (parentCast l).1 (childsRead l)

/-- One child that reads to the end has the whole payload. -/
theorem broadcast_payload_one :
    (parented [1]).1.state.coroChilds (some 0) = [1] ∧
      obtained 1 7 (parentRead [1]).2 = [104, 105] := by
  have hchilds : (parented [1]).1.state.coroChilds (some 0) = [1] := by decide +kernel
  have hbefore : Transition.Run Mail.step (NoSend 7) (Mail.init hiVbuf) (parented [1]).2
      (parented [1]).1 := Transition.run_after (by decide +kernel)
  have hcast := (@Transition.step_after _ _ _ _ Mail.step (fun _ _ => True) _ (parented [1]).1
    (.coro (.user (.mbroadcast 0 7))) (by decide +kernel)).2
  have hafter : Transition.Run Mail.step (NoSend 7) (parentCast [1]).1 (parentRead [1]).2
      (parentRead [1]).1 := Transition.run_after (by decide +kernel)
  have hends : ∀ c ∈ (parented [1]).1.state.coroChilds (some 0),
      ReadsToEnd c 7 (parentRead [1]).2 := by
    rw [hchilds]
    intro c hc
    rw [List.mem_singleton.mp hc]
    exact ⟨100, [104, 105], by decide +kernel, by decide⟩
  have hmsg : hiVbuf 7 = newMessage (fun _ _ => 0) [104, 105] := rfl
  have halone : ∀ c ∈ (parented [1]).1.state.coroChilds (some 0),
      ∀ d ∈ (parented [1]).1.state.coroChilds (some 0), c = d := by
    rw [hchilds]
    intro c hc d hd
    rw [List.mem_singleton.mp hc, List.mem_singleton.mp hd]
  have hall := (broadcast_payload hmsg hbefore hcast hafter hends).mpr (.inr halone)
  rw [hchilds] at hall
  exact ⟨hchilds, hall 1 List.mem_cons_self⟩

/-- Of two children that read to the end one has the payload and the other nothing. -/
theorem broadcast_payload_two :
    ∃ tr₁ s₁ obs s₂ tr₂ s₃,
      Transition.Run Mail.step (NoSend 7) (Mail.init hiVbuf) tr₁ s₁ ∧
      s₁.step (.coro (.user (.mbroadcast 0 7))) = some (.ok (s₂, obs)) ∧
      Transition.Run Mail.step (NoSend 7) s₂ tr₂ s₃ ∧
      s₁.state.coroChilds (some 0) = [1, 2] ∧
      (∀ c ∈ [1, 2], ReadsToEnd c 7 tr₂) ∧
      obtained 1 7 tr₂ = [104, 105] ∧ obtained 2 7 tr₂ = [] := by
  have hbefore : Transition.Run Mail.step (NoSend 7) (Mail.init hiVbuf) (parented [1, 2]).2
      (parented [1, 2]).1 := Transition.run_after (by decide +kernel)
  have hcast := (@Transition.step_after _ _ _ _ Mail.step (fun _ _ => True) _
    (parented [1, 2]).1 (.coro (.user (.mbroadcast 0 7))) (by decide +kernel)).2
  have hafter : Transition.Run Mail.step (NoSend 7) (parentCast [1, 2]).1
      (parentRead [1, 2]).2 (parentRead [1, 2]).1 := Transition.run_after (by decide +kernel)
  have hends : ∀ c ∈ [1, 2], ReadsToEnd c 7 (parentRead [1, 2]).2 := by
    intro c hc
    rcases List.mem_pair.mp hc with rfl | rfl
    · exact ⟨100, [104, 105], by decide +kernel, by decide⟩
    · exact ⟨100, [], by decide +kernel, by decide⟩
  exact ⟨_, _, _, _, _, _, hbefore, hcast, hafter, by decide +kernel, hends, by decide +kernel,
    by decide +kernel⟩

end BoostCoro.Coroutine
