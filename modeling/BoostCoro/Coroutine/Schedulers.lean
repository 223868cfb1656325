import BoostCoro.Coroutine.TwinSteps
/-!
# The two schedulers

The loop of `resume_childs` and the rule of `resume` are written twice, for main and for
coroutines. Given the same acts of the users, the two resume the same coroutines in the
same order and leave the same lists, states and messages. The flags agree but for the
CHLD flags that main finds set when it begins a pass: it does not clear them.
-/

namespace BoostCoro.Coroutine

open Fallible (Both)

variable {q c d p : CoroId} {aside : List Ctx} {stale : List CoroId} {since : CoroId → Prop}
  {s m n : State} {w : FlagWord} {cur : Ctx} {rest : List Frame} {loop : Nat}

/-! ## Calls of coroutines -/

namespace Twins

theorem callYield (h : Twins q aside stale since m n) (hcur : m.currentCoroutine = m.running)
    (hrun : m.running = some c) :
    Both (TwinSteps q aside stale m) m.callYield n.callYield := by
  unfold State.callYield
  rw [h.current, hcur, hrun]
  exact h.callYieldOf hrun

theorem callWait (h : Twins q aside stale since m n) (hcur : m.currentCoroutine = m.running)
    (hrun : m.running = some c) (spec : WaitSpec) (b : Block) (r : Coreactor) :
    Both (TwinSteps q aside stale m) (m.callWait d spec b r) (n.callWait d spec b r) := by
  have hpush := h.push (f := .wait d spec b) fun hnone => nomatch hrun.symm.trans hnone
  refine ((hpush.setReactor r).callYield hcur hrun).bind fun a b' _ ⟨since', hresults⟩ =>
    .ok ⟨since', hresults.state, ?_⟩
  exact congrArg (.waitBegan d spec b :: ·) hresults.events

/-- The flag of a wait, set by the running coroutine. -/
theorem startsWait (h : Twins q aside stale since m n) (hcur : m.currentCoroutine = m.running)
    (hrun : m.running = some c) (d : CoroId) (spec : WaitSpec)
    (register : Coreactor → Except Fault (Block × Coreactor)) :
    Both (TwinSteps q aside stale m)
      (do
        let s ← m.eventSet d coroEvetWait
        let (b, r) ← register s.reactor
        s.callWait d spec b r)
      (do
        let s ← n.eventSet d coroEvetWait
        let (b, r) ← register s.reactor
        s.callWait d spec b r) := by
  refine (h.setFlag .evet d coroEvetWait).bind fun m' n' hset htwins => ?_
  have hframe := State.setFlag_frame hset
  have hrun' : m'.running = some c := by rwa [hframe]
  have hcur' : m'.currentCoroutine = m'.running := by rwa [hframe]
  rw [htwins.reactor]
  refine (Both.refl _).bind fun a _ _ ha => ?_
  subst ha
  exact (htwins.callWait hcur' hrun' _ _ _).mono fun _ _ hsteps => hsteps.of_running hrun' hrun

theorem target (h : Twins q aside stale since m n) (hcur : m.currentCoroutine = some c)
    (coro : Option CoroId) : Both Eq (m.target coro) (n.target coro) := by
  unfold State.target
  rw [h.current, hcur]
  exact .refl _

theorem setIo (h : Twins q aside stale since m n) (hcur : m.currentCoroutine = m.running)
    (hrun : m.running = some c) (fd : Int) (mask : EventMask) (timeout : Int)
    (coro : Option CoroId) :
    Both (TwinSteps q aside stale m) (m.setIo fd mask timeout coro)
      (n.setIo fd mask timeout coro) := by
  refine (h.target (hcur.trans hrun) coro).bind fun d _ _ hd => ?_
  subst hd
  exact h.startsWait hcur hrun d (.io fd mask timeout) (fun r => r.setIo d fd mask timeout)

theorem setTimeout (h : Twins q aside stale since m n) (hcur : m.currentCoroutine = m.running)
    (hrun : m.running = some c) (timeout : Int) (coro : Option CoroId) :
    Both (TwinSteps q aside stale m) (m.setTimeout timeout coro) (n.setTimeout timeout coro) := by
  refine .ite .rfl (fun _ => .ok ⟨since, h, rfl⟩) fun _ => ?_
  refine (h.target (hcur.trans hrun) coro).bind fun d _ _ hd => ?_
  subst hd
  exact h.startsWait hcur hrun d (.timeout timeout)
    (fun r => .ok (r.setEvent d (.timeoutSet d) true))

theorem setSignal (h : Twins q aside stale since m n) (hcur : m.currentCoroutine = m.running)
    (hrun : m.running = some c) (signal : Int) (coro : Option CoroId) :
    Both (TwinSteps q aside stale m) (m.setSignal signal coro) (n.setSignal signal coro) := by
  refine (h.target (hcur.trans hrun) coro).bind fun d _ _ hd => ?_
  subst hd
  exact h.startsWait hcur hrun d (.signal signal)
    (fun r => .ok (r.setEvent d (.signalSet signal d) false))

theorem child (h : Twins q aside stale since m n) (hcur : m.currentCoroutine = some c) :
    Both (TwinSteps q aside stale m) (m.child d) (n.child d) := by
  have hparent : Twins q aside stale since
      { m with coroParent := Function.update m.coroParent d (some c) }
      { n with coroParent := Function.update n.coroParent d (some c) } :=
    { h with coroParent := by rw [h.coroParent] }
  unfold State.child
  rw [h.current, hcur, standIn_some]
  refine (h.checkLive d).bind fun _ _ _ _ => .ok ⟨since, ?_, rfl⟩
  have hchilds := hparent.setChilds (some c) (l := m.coroChilds (some c) ++ [d])
    fun hc => congrArg (· ++ [d]) (h.childs _ hc)
  exact { hchilds with current := rfl }

theorem create (h : Twins q aside stale since m n) (hm : SchedInv m.toSched) (raw : StatT) :
    Option.Rel (Both (TwinSteps q aside stale m)) (m.create c raw) (n.create c raw) := by
  unfold State.create
  rw [h.pool]
  split
  · exact .none
  next hc =>
    have haside : ∀ d, some d ∈ aside → d ≠ c := fun d hd heq => hc (heq ▸ (h.asleep d hd).1)
    have hfresh : some c ∉ aside := fun hmem => haside c hmem rfl
    refine .some (.ok ⟨fun d => since d ∧ d ≠ c, ?_, rfl⟩)
    constructor
    case pool => exact congrArg (c :: ·) h.pool
    case coroParent => exact congrArg (Function.update · c none) h.coroParent
    case coroMessages => exact congrArg (Function.update · c []) h.coroMessages
    case reactor => exact h.reactor
    case current => exact h.current
    case running => exact h.running
    case stat =>
      intro d hd
      show Function.update n.stat c _ d = Function.update m.stat c _ d
      exact update_congr (fun _ => rfl) fun _ => h.stat d hd
    case childs =>
      intro x hx
      show Function.update n.coroChilds (some c) [] x = Function.update m.coroChilds (some c) [] x
      exact update_congr (fun _ => rfl) fun _ => h.childs x hx
    case stack =>
      intro x hx
      show Function.update n.stack (some c) [] _ =
        standInStack q x (Function.update m.stack (some c) [] x)
      by_cases hxc : x = some c
      · rw [hxc, standIn_some, Function.update_self, Function.update_self]
        rfl
      · rw [Function.update_of_ne hxc,
          Function.update_of_ne fun heq => hxc ((h.standIn_eq_some hfresh).mp heq)]
        exact h.stack x hx
    case passing => exact h.passing
    case flags =>
      intro d hd w
      show WordsMatch stale d (((State.setFlags _ .evet c 0).setFlags .msg c raw).flags w d)
        (((State.setFlags _ .evet c 0).setFlags .msg c raw).flags w d)
      simp only [State.setFlags_flags]
      by_cases hdc : d = c
      · have hsame : ∀ t : State, (if w = .msg ∧ d = c then raw
            else if w = .evet ∧ d = c then 0 else t.flags w d) =
            if w = .msg then raw else 0 := fun t => by cases w <;> simp [hdc]
        exact (hsame m).symm ▸ (hsame n).symm ▸ .refl ..
      · simp only [hdc, and_false, if_false]
        exact h.flags d ((List.mem_cons.mp hd).resolve_left hdc) w
    case pre =>
      intro d hd
      show Function.update n.coroPre c none d = standIn q (Function.update m.coroPre c none d)
      rw [Function.update_of_ne hd.2, Function.update_of_ne hd.2]
      exact h.pre d hd.1
    case preSince =>
      intro d e hd he
      have he : Function.update m.coroPre c none d = some e := he
      show (since e ∧ e ≠ c) ∨ e ∉ c :: m.pool ∨ Function.update m.stat c _ e = coroStatInit
      rw [Function.update_of_ne hd.2] at he
      by_cases hec : e = c
      · rw [hec, Function.update_self]
        exact .inr (.inr rfl)
      · rw [Function.update_of_ne hec]
        refine (h.preSince d e hd.1 he).imp (fun hsince => ⟨hsince, hec⟩)
          (.imp_left fun hdead => ?_)
        exact fun hmem => hdead ((List.mem_cons.mp hmem).resolve_left hec)
    case runs => exact fun d hd => ⟨h.runs d hd, fun heq => hc (heq ▸ hm.live d hd)⟩
    case apart => exact fun d hd => h.apart d hd.1
    case main => exact h.main
    case self => exact h.self
    case asleep =>
      intro d hd
      obtain ⟨hlive, hrest⟩ := h.asleep d hd
      show d ∈ c :: m.pool ∧ Function.update m.stat c _ d = coroStatWait ∧
        Function.update n.stat c _ d ≠ coroStatInit ∧ Function.update n.stat c _ d ≠ coroStatDone
      rw [Function.update_of_ne (haside d hd), Function.update_of_ne (haside d hd)]
      exact ⟨List.mem_cons_of_mem _ hlive, hrest⟩

theorem callResume (h : Twins q aside stale since m n) (hcur : m.currentCoroutine = some c)
    (hrun : m.running = some c) (coro : Option CoroId) :
    Both (TwinSteps q aside stale m) (m.callResume coro) (n.callResume coro) := by
  unfold State.callResume
  rw [h.current, hcur, standIn_some]
  cases coro with
  | none => exact .ok ⟨since, h, rfl⟩
  | some d =>
      have hpush := h.push (f := .resume (some c) d .entry) fun hnone =>
        nomatch hrun.symm.trans hnone
      exact .ok ⟨since, hpush, rfl⟩

theorem bodyReturn (h : Twins q aside stale since m n) (hrun : m.running = some c)
    (htop : m.stack m.running = [.execute c .body]) :
    Option.Rel (Both (TwinSteps q aside stale m)) m.bodyReturn n.bodyReturn := by
  have hset := h.setStack [.execute c .childs] fun hnone => nomatch hrun.symm.trans hnone
  have htop' : n.stack n.running = [.execute c .body] := by
    rw [h.runner_stack, htop, hrun]
    rfl
  unfold State.bodyReturn
  rw [htop', htop]
  dsimp only
  rw [h.stat c (h.apart c (h.runs c hrun))]
  split
  · rw [hrun] at hset
    exact .some (.ok ⟨since, hset, rfl⟩)
  · exact .some (.error _)

theorem callMget (h : Twins q aside stale since m n) (hcur : m.currentCoroutine = some c)
    (hrun : m.running = some c) (yieldEnable : Bool) :
    Both (TwinSteps q aside stale m) (m.callMget yieldEnable) (n.callMget yieldEnable) := by
  unfold State.callMget
  rw [h.current, hcur, standIn_some]
  cases yieldEnable with
  | true =>
      have hpush := h.push (f := .mget c) fun hnone => nomatch hrun.symm.trans hnone
      exact .ok ⟨since, hpush, rfl⟩
  | false =>
      dsimp only
      rw [h.coroMessages]
      cases m.coroMessages c with
      | nil => exact .ok ⟨since, h, rfl⟩
      | cons msg msgs => exact .ok ⟨since, { h with coroMessages := rfl }, rfl⟩

end Twins

/-! ## Every step -/

/-- The next call does not resume a coroutine of `aside` nor go over the list of one, and
tests no CHLD flag that is stale. -/
def Frame.KeepsApart (aside : List Ctx) (stale : List CoroId) : Frame → Prop
  | resume _ c .entry => some c ∉ aside ∧ c ∉ stale
  | resume _ c .transfer => some c ∉ aside
  | resumeChilds _ cur _ _ => cur ∉ aside
  | _ => True

/-- The same of a call of the user. Main only begins passes. -/
def User.KeepsApart (aside : List Ctx) (stale : List CoroId) (x : Ctx) : User → Prop
  | resumeChilds coro => coro.or x ∉ aside ∧ (x = coro → ∀ d ∈ coro, d ∉ stale)
  | mbroadcast p _ => x ≠ none ∧ some p ∉ aside
  | _ => x ≠ none

/-- A step of a pass of main, after which some coroutines are stale, that a pass of a
coroutine can follow. -/
def KeepsApart (aside : List Ctx) (s : State × List CoroId) : Act → Prop
  | .lib => ∀ f ∈ (s.1.stack s.1.running).head?, f.KeepsApart aside s.2
  | .user u => u.KeepsApart aside s.2 s.1.running

instance (aside : List Ctx) (stale : List CoroId) (f : Frame) :
    Decidable (f.KeepsApart aside stale) := by
  unfold Frame.KeepsApart
  split <;> infer_instance

instance (aside : List Ctx) (stale : List CoroId) (x : Ctx) (u : User) :
    Decidable (u.KeepsApart aside stale x) := by
  induction u using User.casesOn <;> unfold User.KeepsApart <;> infer_instance

instance (aside : List Ctx) (s : State × List CoroId) (a : Act) :
    Decidable (KeepsApart aside s a) := by
  induction a using Act.casesOn <;> unfold KeepsApart <;> infer_instance

namespace Twins

theorem stepFrame (h : Twins q aside stale since m n) (hm : SchedInv m.toSched)
    (hn : SchedInv n.toSched) {f : Frame} (htop : m.stack m.running = f :: rest)
    (hf : f.KeepsApart aside stale) :
    Both (TwinSteps q aside stale m) (m.stepFrame rest f)
      (n.stepFrame (standInStack q m.running rest) (f.standIn q)) := by
  have hst : Stacked m.running (f :: rest) := htop ▸ hm.stacked m.running
  have hown : f.ownedBy m.running := hst.owned
  have hpassing : m.running = none → f.isPass = true ∧ ∀ g ∈ rest, g.isPass = true := by
    intro hrun
    have hall := h.passing
    rw [← hrun, htop] at hall
    exact List.forall_mem_cons.mp hall
  have hrest := fun hrun => (hpassing hrun).2
  have hset := h.setStack rest hrest
  cases f with
  | resume self d pc =>
      obtain rfl : self = m.running := hown
      rw [Frame.standIn, ← h.running]
      cases pc with
      | entry => exact h.resumeEntry hm hn hrest hf.1 hf.2
      | transfer => exact h.resumeTransfer hm hn hrest hf
      | back => exact .ok ⟨since, hset, rfl⟩
  | resumeChilds self cur loop child =>
      obtain rfl : self = m.running := hown
      rw [Frame.standIn, ← h.running]
      cases child with
      | none => exact h.passTurn hm hn hrest hf
      | some child => exact h.passBack hm hrest
  | resumeAll =>
      have hrun : m.running = none := hown
      exact nomatch (hpassing hrun).1
  | yield d pc =>
      have hrun : m.running = some d := hown
      cases pc with
      | childs =>
          have hback := h.yieldOut hm hn hrun (.yield d .back :: rest)
            (List.cons_ne_nil _ _)
          rw [← hrun] at hback
          exact hback
      | back => exact .ok ⟨since, hset, rfl⟩
  | execute d pc =>
      have hrun : m.running = some d := hown
      cases pc with
      | entry =>
          have hbody := h.setStack (.execute d .body :: rest) fun hnone =>
            nomatch hrun.symm.trans hnone
          exact .ok ⟨since, { hbody with current := rfl }, rfl⟩
      | body => exact .ok ⟨since, h, rfl⟩
      | childs => exact h.executeChilds hm hn hrun
      | back => exact .error _
  | mget d =>
      have hrun : m.running = some d := hown
      exact h.mgetTurn hrun
  | wait d spec b =>
      cases hrun : m.running with
      | none => exact nomatch (hpassing hrun).1
      | some c =>
          have hend := h.waitEnd hrun d spec b rest
          rwa [hrun] at hend

theorem of_quiet {u : User} {x x' : Outcome}
    (hx : Both (TwinResults q aside stale since) x x')
    (hquiet : ∀ s' evs, x = .ok (s', evs) → Quiet m u s' evs) :
    Both (TwinSteps q aside stale m) x x' := by
  cases hx with
  | error e => exact .error e
  | ok hresults => exact .ok (hresults.quiet (hquiet _ _ rfl).events)

theorem stepUser (h : Twins q aside stale since m n) (hm : SchedInv m.toSched)
    (huser : m.inUserCode = true) {u : User} (hu : u.KeepsApart aside stale m.running) :
    Option.Rel (Both (TwinSteps q aside stale m)) (m.stepUser u) (n.stepUser u) := by
  have hcur : m.currentCoroutine = m.running := hm.current
  by_cases hpass : ∃ coro, u = .resumeChilds coro
  · obtain ⟨coro, rfl⟩ := hpass
    have hcur' : n.currentCoroutine = n.running := by rw [h.current, hcur, h.running]
    show Option.Rel _ (some (m.callResumeChilds m.currentCoroutine coro))
      (some (n.callResumeChilds n.currentCoroutine coro))
    rw [hcur, hcur']
    cases hd : coro.or m.running with
    | none => exact absurd h.main (hd ▸ hu.1)
    | some d =>
        refine .some (h.callResumeChilds coro hd (hd ▸ hu.1) fun hself => ?_)
        obtain rfl : coro = some d := by rwa [hself, Option.or_self] at hd
        exact ⟨hm.live d hself, hu.2 hself d rfl⟩
  · have hne : m.running ≠ none := by
      cases u with
      | resumeChilds coro => exact absurd ⟨coro, rfl⟩ hpass
      | mbroadcast p msg => exact hu.1
      | _ => exact hu
    obtain ⟨c, hrun⟩ := Option.ne_none_iff_exists'.mp hne
    have hcur' := hcur.trans hrun
    cases u with
    | create d raw => exact h.create hm raw
    | child d => exact .some (h.child hcur')
    | resume coro => exact .some (h.callResume hcur' hrun coro)
    | resumeChilds coro => exact absurd ⟨coro, rfl⟩ hpass
    | yield => exact .some (h.callYield hcur hrun)
    | «return» =>
        rcases hm.userCode huser with ⟨hnone, -⟩ | ⟨d, hd, htop⟩
        · exact absurd hnone hne
        · exact h.bodyReturn hd htop
    | mput d msg => exact .some (of_quiet (h.mput d msg) fun _ _ hput => .mput hput)
    | mbroadcast p msg =>
        exact .some (of_quiet (h.mbroadcast hu.2 msg) fun _ _ hcast => .mbroadcast hcast)
    | mget yieldEnable => exact .some (h.callMget hcur' hrun yieldEnable)
    | setIo fd mask timeout coro => exact .some (h.setIo hcur hrun fd mask timeout coro)
    | setTimeout timeout coro => exact .some (h.setTimeout hcur hrun timeout coro)
    | setSignal signal coro => exact .some (h.setSignal hcur hrun signal coro)
    | cancel coro =>
        have hcoro : coro.or n.currentCoroutine = coro.or m.currentCoroutine := by
          rw [h.current, hcur', standIn_some]
        exact .some (of_quiet (h.cancel hcoro) fun _ _ hcancel => .cancel hcancel)
    | fire b watcher revents =>
        have hrel := h.fire b watcher revents
        show Option.Rel _ (m.fire b watcher revents) (n.fire b watcher revents)
        generalize hx : m.fire b watcher revents = x at hrel
        generalize n.fire b watcher revents = x' at hrel
        cases hrel with
        | none => exact .none
        | some hboth => exact .some (of_quiet hboth fun _ _ hok => .fire (hx.trans (hok ▸ rfl)))
    | flag op w d v => exact .some ((h.setter op w d v).map fun _ _ htwins => ⟨since, htwins, rfl⟩)

theorem inUserCode (h : Twins q aside stale since m n) : n.inUserCode = m.inUserCode := by
  unfold State.inUserCode
  rw [h.runner_stack, h.running]
  cases hrun : m.running with
  | none =>
      have hpassing := h.passing
      cases hstack : m.stack none with
      | nil => rfl
      | cons f rest =>
          have hf := hpassing f (by rw [hstack]; exact List.mem_cons_self)
          cases f <;> first | rfl | cases hf
  | some c =>
      cases m.stack (some c) with
      | nil => rfl
      | cons f rest =>
          cases f with
          | execute d pc => cases pc <;> rfl
          | _ => rfl

theorem step (h : Twins q aside stale since m n) (hm : SchedInv m.toSched)
    (hn : SchedInv n.toSched) {a : Act} (ha : KeepsApart aside (m, stale) a) :
    Option.Rel (Both (TwinSteps q aside stale m)) (m.step a) (n.step a) := by
  have hcode := h.inUserCode
  cases a with
  | user u =>
      simp only [State.step, hcode]
      split
      next huser => exact h.stepUser hm huser ha
      next => exact .none
  | lib =>
      simp only [State.step, hcode]
      cases huser : m.inUserCode with
      | true => exact .none
      | false =>
          cases htop : m.stack m.running with
          | nil =>
              have htop' : n.stack n.running = [] := by
                rw [h.runner_stack, htop]
                cases hrun : m.running with
                | none =>
                    rw [State.inUserCode, htop, hrun] at huser
                    cases huser
                | some c => rfl
              rw [htop']
              exact .none
          | cons f rest =>
              have htop' : n.stack n.running = f.standIn q :: standInStack q m.running rest := by
                rw [h.runner_stack, htop]
                rfl
              rw [htop']
              refine .some (h.stepFrame hm hn htop (ha f ?_))
              rw [htop]
              rfl

end Twins

/-! ## Two passes -/

/-- What is alike in two states: all about the coroutines that are not in `aside`, but
for the CHLD flags of those in `stale`. -/
structure Agree (aside : List Ctx) (stale : List CoroId) (m n : State) : Prop where
  pool : n.pool = m.pool
  coroParent : n.coroParent = m.coroParent
  coroMessages : n.coroMessages = m.coroMessages
  reactor : n.reactor = m.reactor
  stat : ∀ c, some c ∉ aside → n.stat c = m.stat c
  childs : ∀ x, x ∉ aside → n.coroChilds x = m.coroChilds x
  stack : ∀ c, some c ∉ aside → n.stack (some c) = m.stack (some c)
  flags : ∀ c ∈ m.pool, ∀ w, WordsMatch stale c (m.flags w c) (n.flags w c)

/-- The user is about to make a pass, in main in `m` and in `q` in `n`. The contexts
`aside` are these two and those in which the resume of `q` is in progress. -/
structure Poised (q : CoroId) (aside : List Ctx) (m n : State) : Prop
    extends Agree aside [] m n where
  main : none ∈ aside ∧ m.running = none ∧ m.stack none = []
  self : some q ∈ aside ∧ n.running = some q ∧ n.stack (some q) = [.execute q .body]
  asleep : ∀ c, some c ∈ aside → c ∈ m.pool ∧ m.stat c = coroStatWait ∧
    (n.stat c = coroStatWait ∨ c = q)

theorem standInStack_of_stacked {fs : List Frame} (h : Stacked (some c) fs) :
    standInStack q (some c) fs = fs := by
  induction fs with
  | nil => rfl
  | cons f fs ih =>
      have hown : f.ownedBy (some c) := h.owned
      have hf : f.standIn q = f := by
        cases f with
        | resume self d pc =>
            obtain rfl : self = some c := hown
            rfl
        | resumeChilds self cur loop child =>
            obtain rfl : self = some c := hown
            rfl
        | _ => rfl
      show f.standIn q :: standInStack q (some c) fs = f :: fs
      rw [hf, ih h.tail]

theorem Twins.agree (h : Twins q aside stale since m n) (hm : SchedInv m.toSched) :
    Agree aside stale m n where
  pool := h.pool
  coroParent := h.coroParent
  coroMessages := h.coroMessages
  reactor := h.reactor
  stat := h.stat
  childs := h.childs
  stack := fun c hc => by
    have hstack := h.stack (some c) (.inr hc)
    rwa [standInStack_of_stacked (hm.stacked _)] at hstack
  flags := h.flags

theorem Poised.twins (h : Poised q aside m n) (hm : SchedInv m.toSched)
    (hn : SchedInv n.toSched) : Twins q aside [] (fun _ => False) m n where
  pool := h.pool
  coroParent := h.coroParent
  coroMessages := h.coroMessages
  reactor := h.reactor
  current := by rw [hm.current, hn.current, h.main.2.1, h.self.2.1, standIn_none]
  running := by rw [h.main.2.1, h.self.2.1, standIn_none]
  stat := h.stat
  childs := h.childs
  stack := fun x hx => by
    cases x with
    | none =>
        rw [standIn_none, h.self.2.2, h.main.2.2]
        rfl
    | some c =>
        rw [standIn_some, standInStack_of_stacked (hm.stacked _)]
        exact h.stack c (hx.resolve_left nofun)
  passing := fun f hf => by
    rw [h.main.2.2] at hf
    exact absurd hf List.not_mem_nil
  flags := h.flags
  pre := fun _ hc => hc.elim
  preSince := fun _ _ hc => hc.elim
  runs := fun c hrun => nomatch h.main.2.1.symm.trans hrun
  apart := fun _ hc => hc.elim
  main := h.main.1
  self := h.self.1
  asleep := fun c hc => by
    obtain ⟨hlive, hwait, hstat⟩ := h.asleep c hc
    refine ⟨hlive, hwait, ?_⟩
    rcases hstat with hstat | rfl
    · rw [hstat]
      decide
    · rw [hn.running_busy h.self.2.1]
      decide

/-! ### States that are poised -/

theorem setStack_setStack (s : State) (fs gs : List Frame) :
    (s.setStack fs).setStack gs = s.setStack gs := by
  simp [State.setStack, Sched.setStack]

theorem setStack_top (s : State) (fs : List Frame) :
    (s.setStack fs).stack (s.setStack fs).running = fs := Function.update_self ..

/-- Main has resumed `q`, which was in `yield`. -/
def State.resumed (s : State) (q : CoroId) : State :=
  State.setStack { s with toSched := (s.toSched.setStack [.resume none q .back]).switchTo q }
    [.execute q .body]

/-- The acts by which main resumes a coroutine. -/
def resumeActs (q : CoroId) : List Act := [.user (.resume (some q)), .lib, .lib, .lib]

/-- Main can resume `q`, which is in `yield` outside any other call. -/
structure Yielded (q : CoroId) (s : State) : Prop where
  running : s.running = none
  idle : s.stack none = []
  live : q ∈ s.pool
  stat : s.stat q = coroStatWait
  stack : s.stack (some q) = [.yield q .back, .execute q .body]
  notified : s.notified q = false
  waiting : s.waiting q = false

namespace Yielded

/-- In a state that can be computed, one evaluation shows it. -/
theorem of_checks (h : m.running = none ∧ m.stack none = [] ∧ q ∈ m.pool ∧
    m.stat q = coroStatWait ∧ m.stack (some q) = [.yield q .back, .execute q .body] ∧
      m.notified q = false ∧ m.waiting q = false) : Yielded q m where
  running := h.1
  idle := h.2.1
  live := h.2.2.1
  stat := h.2.2.2.1
  stack := h.2.2.2.2.1
  notified := h.2.2.2.2.2.1
  waiting := h.2.2.2.2.2.2

theorem exec_resumeActs (h : Yielded q m) (hm : SchedInv m.toSched) :
    Transition.exec State.step AnyUse m (resumeActs q) =
      some (m.resumed q, [.transferred q]) := by
  have hcheck : ∀ fs, (m.setStack fs).checkLive q = .ok () := fun _ => if_pos h.live
  have hcall : m.step (.user (.resume (some q))) =
      some (.ok (m.setStack [.resume none q .entry], [])) := by
    have hcode : m.inUserCode = true := by
      unfold State.inUserCode
      rw [h.running, h.idle]
    have hpush : m.push (.resume none q .entry) = m.setStack [.resume none q .entry] := by
      unfold State.push Sched.push State.setStack
      rw [h.running, h.idle]
    simp only [State.step, hcode, if_true, State.stepUser, State.callResume, hm.current, h.running,
      hpush]
  have hentry : (m.setStack [.resume none q .entry]).step .lib =
      some (.ok (m.setStack [.resume none q .transfer], [])) := by
    have hdone : ¬ m.stat q = coroStatDone := by
      rw [h.stat]
      decide
    have hready : hasBit (m.stat q) (coroStatInit ||| coroStatWait) = true := by
      rw [h.stat]
      decide
    rw [step_lib_of_pass (setStack_top m _) rfl]
    simp only [State.stepFrame, State.resumeEntry, hcheck, Fallible.ok_bind, setStack_setStack]
    rw [if_neg (by exact hdone), if_pos (by exact hready),
      if_neg (by exact Bool.eq_false_iff.mp h.notified)]
  have htransfer : (m.setStack [.resume none q .transfer]).step .lib =
      some (.ok ({ m with toSched := (m.toSched.setStack [.resume none q .back]).switchTo q },
        [.transferred q])) := by
    have hswitch := hm.transfer_eq q (List.cons_ne_nil (.resume none q .back) [])
    rw [if_pos h.live, if_pos (.inr h.stat), h.running] at hswitch
    rw [step_lib_of_pass (setStack_top m _) rfl]
    simp only [State.stepFrame, State.resumeTransfer, hcheck, Fallible.ok_bind, setStack_setStack]
    rw [if_neg (by exact Bool.eq_false_iff.mp h.waiting), hswitch]
    rfl
  have hback : State.step { m with toSched :=
      (m.toSched.setStack [.resume none q .back]).switchTo q } .lib =
        some (.ok (m.resumed q, [])) := by
    have hstack : ((m.toSched.setStack [.resume none q .back]).switchTo q).stack (some q) =
        [.yield q .back, .execute q .body] := by
      have hyield : (m.toSched.setStack [.resume none q .back]).stack (some q) =
          [.yield q .back, .execute q .body] := by
        have hne : some q ≠ none := Option.some_ne_none q
        rw [setStack_stack, h.running, if_neg hne, h.stack]
      rw [SchedInv.switchTo_stack, hyield, if_neg fun heq => List.cons_ne_nil _ _ heq.2]
    exact State.step_lib_eq (f := .yield q .back) hstack (by rintro _ ⟨⟩)
  simp only [resumeActs, Transition.exec, AnyUse, if_true, hcall, hentry, htransfer, hback,
    List.nil_append, List.append_nil]

theorem poised (h : Yielded q m) :
    Poised q [none, some q] m (m.resumed q) := by
  have hother : ∀ {x : Ctx}, x ∉ [none, some q] → x ≠ none ∧ x ≠ some q := by
    intro x hx
    simpa using hx
  constructor
  case toAgree =>
    constructor
    case stat =>
      intro c hc
      obtain ⟨-, hcq⟩ := hother hc
      show (Sched.switchTo _ q).stat c = m.stat c
      rw [SchedInv.switchTo_stat, if_neg (by exact fun heq => nomatch h.running.symm.trans heq),
        if_neg fun heq => hcq (congrArg some heq)]
      rfl
    case stack =>
      intro c hc
      obtain ⟨hnone, hcq⟩ := hother hc
      show (Sched.setStack _ _).stack (some c) = m.stack (some c)
      rw [setStack_stack, if_neg (by exact hcq)]
      show (Sched.switchTo _ q).stack (some c) = m.stack (some c)
      rw [SchedInv.switchTo_stack, if_neg fun heq => hcq heq.1, setStack_stack, h.running,
        if_neg hnone]
    case flags => exact fun c _ w => .refl _ c _
    all_goals intros; rfl
  case main => exact ⟨List.mem_cons_self, h.running, h.idle⟩
  case self =>
    refine ⟨by simp, rfl, ?_⟩
    exact setStack_top _ _
  case asleep =>
    intro c hc
    obtain rfl : c = q := by simpa using hc
    exact ⟨h.live, h.stat, .inr rfl⟩

end Yielded

/-- Both put the same message. -/
theorem Poised.mput {m' n' : State} {evs evs' : List Obs} {msg : MessagePtr}
    (h : Poised q aside m n) (hm : SchedInv m.toSched) (hn : SchedInv n.toSched)
    (hstepm : m.step (.user (.mput c msg)) = some (.ok (m', evs)))
    (hstepn : n.step (.user (.mput c msg)) = some (.ok (n', evs'))) : Poised q aside m' n' := by
  have hputm : m.mput c msg = .ok (m', evs) := Option.some.inj (State.step_user_inv hstepm).2
  have hputn : n.mput c msg = .ok (n', evs') := Option.some.inj (State.step_user_inv hstepn).2
  have hsched := (State.mput_ok hputm).2.1.sched
  have hsched' := (State.mput_ok hputn).2.1.sched
  obtain ⟨b, hb, hresults⟩ := ((h.twins hm hn).mput c msg).ok_left hputm
  obtain rfl : (n', evs') = b := Except.ok.inj (hputn.symm.trans hb)
  have hagree := hresults.state.agree (hsched ▸ hm)
  refine { hagree with main := ?_, self := ?_, asleep := ?_ }
  · rw [hsched]
    exact h.main
  · rw [hsched']
    exact h.self
  · rw [hsched, hsched']
    exact h.asleep

/-- Twins in which the scheduling invariant holds. -/
def Paired (q : CoroId) (aside : List Ctx) (s : State × List CoroId) (n : State) : Prop :=
  SchedInv s.1.toSched ∧ SchedInv n.toSched ∧ ∃ since, Twins q aside s.2 since s.1 n

theorem Paired.step {s s' : State × List CoroId} {evs : List Obs} {a : Act}
    (h : Paired q aside s n) (ha : KeepsApart aside s a)
    (hstep : Transition.withHistory State.step State.markStale s a = some (.ok (s', evs))) :
    ∃ n', n.step a = some (.ok (n', evs.map (Obs.standIn q))) ∧ Paired q aside s' n' := by
  obtain ⟨hm, hn, since, htwins⟩ := h
  obtain ⟨hfirst, hstale⟩ := Transition.withHistory_ok.mp hstep
  have hrel := htwins.step hm hn ha
  rw [hfirst] at hrel
  generalize hn' : n.step a = y at hrel
  cases hrel with
  | some hboth =>
      cases hboth with
      | @ok _ b hsteps =>
          obtain ⟨since', hstate, hevents⟩ := hsteps
          obtain ⟨n', evs'⟩ := b
          obtain rfl : evs' = evs.map (Obs.standIn q) := hevents
          refine ⟨n', rfl, hm.step (hm.effect hfirst), hn.step (hn.effect hn'), since', ?_⟩
          rwa [hstale]

/-- As long as nobody resumes a coroutine of `aside` or uses its list, and no CHLD flag is
tested that main should have cleared, the pass of main and the pass of `q` go on alike. -/
theorem schedulers_agree {m₀ n₀ : State} {tr₀ tr₀' tr : List Obs} {acts : List Act}
    (hm : RunOf AnyUse tr₀ m₀) (hn : RunOf AnyUse tr₀' n₀) (hpoised : Poised q aside m₀ n₀)
    (hrun : Transition.exec (Transition.withHistory State.step State.markStale)
      (KeepsApart aside) (m₀, []) (.user (.resumeChilds (some p)) :: acts) =
        some ((m, stale), tr)) :
    ∃ n, Transition.exec State.step AnyUse n₀ (.user (.resumeChilds (some p)) :: acts) =
        some (n, tr.map (Obs.standIn q)) ∧
      Agree aside stale m n ∧ n.running = standIn q m.running ∧ n.inUserCode = m.inUserCode := by
  have hstart : Paired q aside (m₀, []) n₀ :=
    ⟨hm.schedInv, hn.schedInv, _, hpoised.twins hm.schedInv hn.schedInv⟩
  obtain ⟨n, hexec, hm', -, since, htwins⟩ := Transition.exec_follows (fun _ _ => trivial)
    (fun _ _ _ _ _ hpaired ha hstep => hpaired.step ha hstep) hstart hrun
  exact ⟨n, hexec, htwins.agree hm', htwins.running, htwins.inUserCode⟩

/-- Coroutine 1 is a child of 0 and waits for a message, as does its child 2. -/
def asleepActs : List Act :=
  [Act.user (.create 0 0), Act.user (.create 1 0), Act.user (.create 2 0),
    Act.user (.resume (some 0)), Act.lib, Act.lib, Act.lib, Act.user (.child 1),
    Act.user (.resume (some 1)), Act.lib, Act.lib, Act.lib, Act.user (.child 2),
    Act.user (.resume (some 2)), Act.lib, Act.lib, Act.lib, Act.user (.mget true)] ++
  List.replicate 4 Act.lib ++ [Act.user (.mget true)] ++ List.replicate 8 Act.lib ++
  [Act.user .yield] ++ List.replicate 7 Act.lib

def asleepState : State := (Transition.after State.step AnyUse State.init asleepActs).1

/-- Main sends 2 a message. -/
def mainSends : State := (Transition.after State.step AnyUse asleepState [.user (.mput 2 7)]).1

/-- Main resumes 0, which sends 2 the message. -/
def coroSends : State :=
  (Transition.after State.step AnyUse (asleepState.resumed 0) [.user (.mput 2 7)]).1

theorem sends_poised : (∃ tr, RunOf AnyUse tr mainSends) ∧ (∃ tr, RunOf AnyUse tr coroSends) ∧
    Poised 0 [none, some 0] mainSends coroSends := by
  have hrun : RunOf AnyUse _ asleepState := Transition.run_after (by decide +kernel)
  have hyielded : Yielded 0 asleepState := .of_checks (by decide +kernel)
  have hresumed : RunOf AnyUse _ (asleepState.resumed 0) :=
    hrun.trans (Transition.run_of_exec (hyielded.exec_resumeActs hrun.schedInv))
  have hm := @Transition.step_after _ _ _ _ State.step AnyUse _ asleepState (.user (.mput 2 7))
    (by decide +kernel)
  have hn := @Transition.step_after _ _ _ _ State.step AnyUse _ (asleepState.resumed 0)
    (.user (.mput 2 7)) (by decide +kernel)
  refine ⟨⟨_, hrun.snoc hm.1 hm.2⟩, ⟨_, hresumed.snoc hn.1 hn.2⟩, ?_⟩
  exact hyielded.poised.mput hrun.schedInv hresumed.schedInv hm.2 hn.2

/-- In the pass over the children of 1, 2 receives the message and yields. -/
def sendsActs : List Act := List.replicate 5 .lib ++ [.user .yield] ++ List.replicate 5 .lib

theorem schedulers_agree_sends : ∃ (m n : State) (stale : List CoroId) (tr : List Obs),
    Transition.exec State.step AnyUse coroSends (.user (.resumeChilds (some 1)) :: sendsActs) =
        some (n, tr.map (Obs.standIn 0)) ∧
      Agree [none, some 0] stale m n ∧ n.running = standIn 0 m.running ∧
        n.inUserCode = m.inUserCode := by
  obtain ⟨⟨_, hm⟩, ⟨_, hn⟩, hpoised⟩ := sends_poised
  have hruns : (Transition.exec (Transition.withHistory State.step State.markStale)
      (KeepsApart [none, some 0]) (mainSends, [])
      (.user (.resumeChilds (some 1)) :: sendsActs)).isSome = true := by decide +kernel
  obtain ⟨⟨⟨m, stale⟩, tr⟩, hrun⟩ := Option.isSome_iff_exists.mp hruns
  obtain ⟨n, hpass⟩ := schedulers_agree hm hn hpoised hrun
  exact ⟨m, n, stale, tr, hpass⟩

/-- Coroutine 1 sleeps and is a child of 0. After the pass of main its CHLD flag is set,
after the pass of 0 it is not. -/
theorem main_keeps_chld : ∃ (tr₀ tr₀' tr : List Obs) (m₀ n₀ m n : State),
    RunOf AnyUse tr₀ m₀ ∧ RunOf AnyUse tr₀' n₀ ∧
    Poised 0 [none, some 0] m₀ n₀ ∧ m₀.stat 1 = coroStatWait ∧ m₀.coroParent 1 = some 0 ∧
    Transition.exec State.step AnyUse m₀ (.user (.resumeChilds (some 1)) :: sendsActs) =
      some (m, tr) ∧
    Transition.exec State.step AnyUse n₀ (.user (.resumeChilds (some 1)) :: sendsActs) =
      some (n, tr.map (Obs.standIn 0)) ∧
    m.running = none ∧ m.stack none = [] ∧
    n.running = some 0 ∧ n.stack (some 0) = [.execute 0 .body] ∧
    m.chk .msg 1 coroMesgChld = true ∧ n.chk .msg 1 coroMesgChld = false := by
  obtain ⟨⟨tr₀, hm⟩, ⟨tr₀', hn⟩, hpoised⟩ := sends_poised
  have hmain := @Transition.exec_after _ _ _ _ State.step AnyUse _ mainSends
    (.user (.resumeChilds (some 1)) :: sendsActs) (by decide +kernel)
  have hcoro := @Transition.exec_after _ _ _ _ State.step AnyUse _ coroSends
    (.user (.resumeChilds (some 1)) :: sendsActs) (by decide +kernel)
  have hevents : (Transition.after State.step AnyUse coroSends
      (.user (.resumeChilds (some 1)) :: sendsActs)).2 =
    (Transition.after State.step AnyUse mainSends
      (.user (.resumeChilds (some 1)) :: sendsActs)).2.map (Obs.standIn 0) := by decide +kernel
  rw [hevents] at hcoro
  refine ⟨tr₀, tr₀', _, mainSends, coroSends, _, _, hm, hn, hpoised, ?_, ?_, hmain, hcoro, ?_⟩
  · decide +kernel
  · decide +kernel
  · decide +kernel

/-! ## Passes that find the flags clear -/

/-- The next call begins no pass over the list of a coroutine that has a CHLD flag set. -/
def Frame.OpensClear (s : State) : Frame → Prop
  | resume _ c .entry => s.stat c = coroStatInit ∨ s.stat c = coroStatWait → s.notified c = false
  | _ => True

/-- The same of a call of the user. -/
def User.OpensClear (s : State) : User → Prop
  | resumeChilds coro => ∀ c ∈ coro, s.notified c = false
  | _ => True

/-- When main begins a pass over the list of a coroutine, its CHLD flags are clear. -/
def OpensClear (s : State) : Act → Prop
  | .lib => s.running = none → ∀ f ∈ (s.stack s.running).head?, f.OpensClear s
  | .user u => s.running = none → u.OpensClear s

instance (s : State) (f : Frame) : Decidable (f.OpensClear s) := by
  unfold Frame.OpensClear
  split <;> infer_instance

instance (s : State) (u : User) : Decidable (u.OpensClear s) := by
  induction u using User.casesOn <;> unfold User.OpensClear <;> infer_instance

instance (s : State) (a : Act) : Decidable (OpensClear s a) := by
  induction a using Act.casesOn <;> unfold OpensClear <;> infer_instance

/-- A step that keeps apart while no coroutine is stale, and makes none stale. -/
def KeepsClear (aside : List Ctx) (s : State) (a : Act) : Prop :=
  KeepsApart aside (s, []) a ∧ OpensClear s a

instance (aside : List Ctx) (s : State) (a : Act) : Decidable (KeepsClear aside s a) :=
  inferInstanceAs (Decidable (_ ∧ _))

/-- A pass of main that begins is called by the user or by a `resume`. -/
theorem Effect.opens_clear {s' : State} {a : Act} {evs : List Obs} (heffect : Effect s a s' evs)
    (hclear : OpensClear s a) (hrun : s.running = none) (hc : .passBegin (some c) ∈ evs) :
    s.notified c = false := by
  have howner : ∀ {t t' : State} {coro : Option CoroId}, EnterPass t coro t' evs →
      t.running = none → coro = some c := by
    intro t t' coro hpass ht
    cases hpass with
    | skip => exact absurd hc List.not_mem_nil
    | enter hcur =>
        obtain rfl := Obs.passBegin.inj (List.mem_singleton.mp hc)
        rwa [ht, Option.or_none] at hcur
  cases heffect with
  | @resumePass d rest _ _ htop _ hstat _ hpass =>
      obtain rfl : d = c := Option.some.inj (howner hpass hrun)
      exact hclear hrun (.resume s.running d .entry) (by rw [htop]; rfl) hstat
  | allPass _ _ _ hpass => cases howner hpass hrun
  | executePass hcoro => cases hrun.symm.trans hcoro
  | mgetSleep hcoro => cases hrun.symm.trans hcoro
  | callPass _ hpass =>
      obtain rfl := howner hpass hrun
      exact hclear hrun c rfl
  | callYield _ hcoro => cases hrun.symm.trans hcoro
  | waitCoro _ hcoro => cases hrun.symm.trans hcoro
  | quiet _ hquiet => exact absurd (hquiet.events _ hc) Bool.false_ne_true
  | _ => simp at hc

/-- Events that leave no coroutine stale. -/
theorem State.foldl_markStale {evs : List Obs}
    (hclear : ∀ c, s.running = none → .passBegin (some c) ∈ evs → s.notified c = false) :
    evs.foldl s.markStale [] = [] := by
  induction evs with
  | nil => rfl
  | cons o evs ih =>
      have hmark : s.markStale [] o = [] := by
        cases o with
        | passBegin owner =>
            cases owner with
            | none => rfl
            | some c =>
                have hnot : ¬(s.running = none ∧ s.notified c = true) := by
                  rintro ⟨hrun, hyes⟩
                  rw [hclear c hrun List.mem_cons_self] at hyes
                  cases hyes
                exact if_neg hnot
        | _ => rfl
      rw [List.foldl_cons, hmark]
      exact ih fun c hrun hmem => hclear c hrun (List.mem_cons_of_mem o hmem)

theorem Paired.step_clear {m m' : State} {evs : List Obs} {a : Act}
    (h : Paired q aside (m, []) n) (ha : KeepsClear aside m a)
    (hstep : m.step a = some (.ok (m', evs))) :
    ∃ n', n.step a = some (.ok (n', evs.map (Obs.standIn q))) ∧ Paired q aside (m', []) n' := by
  refine h.step ha.1 (Transition.withHistory_ok.mpr ⟨hstep, ?_⟩)
  exact (State.foldl_markStale fun c hrun hc =>
    (h.1.effect hstep).opens_clear ha.2 hrun hc).symm

/-- When main begins each pass with the CHLD flags of the owner clear, the two passes leave
the same flags as well. -/
theorem schedulers_agree_clear {m₀ n₀ : State} {tr₀ tr₀' tr : List Obs} {acts : List Act}
    (hm : RunOf AnyUse tr₀ m₀) (hn : RunOf AnyUse tr₀' n₀) (hpoised : Poised q aside m₀ n₀)
    (hrun : Transition.exec State.step (KeepsClear aside) m₀
      (.user (.resumeChilds (some p)) :: acts) = some (m, tr)) :
    ∃ n, Transition.exec State.step AnyUse n₀ (.user (.resumeChilds (some p)) :: acts) =
        some (n, tr.map (Obs.standIn q)) ∧
      Agree aside [] m n ∧ (∀ c ∈ m.pool, ∀ w, n.flags w c = m.flags w c) ∧
        n.running = standIn q m.running ∧ n.inUserCode = m.inUserCode := by
  have hstart : Paired q aside (m₀, []) n₀ :=
    ⟨hm.schedInv, hn.schedInv, _, hpoised.twins hm.schedInv hn.schedInv⟩
  have hstep : ∀ m n a m' evs, Paired q aside (m, []) n → KeepsClear aside m a →
      m.step a = some (.ok (m', evs)) → ∃ n', n.step a = some (.ok (n', evs.map (Obs.standIn q))) ∧
        Paired q aside (m', []) n' :=
    fun _ _ _ _ _ hpaired ha hstep => hpaired.step_clear ha hstep
  obtain ⟨n, hexec, hm', -, since, htwins⟩ :=
    Transition.exec_follows (fun _ _ => trivial) hstep hstart hrun
  have hflags : ∀ c ∈ m.pool, ∀ w, n.flags w c = m.flags w c := fun c hc w =>
    (htwins.flags c hc w).same List.not_mem_nil
  exact ⟨n, hexec, htwins.agree hm', hflags, htwins.running, htwins.inUserCode⟩

/-- Coroutine 1 is a child of 0, 2 is a child of 1, and all have yielded. -/
def yieldedActs : List Act :=
  [Act.user (.create 0 0), Act.user (.create 1 0), Act.user (.create 2 0),
    Act.user (.resume (some 0)), Act.lib, Act.lib, Act.lib, Act.user (.child 1),
    Act.user (.resume (some 1)), Act.lib, Act.lib, Act.lib, Act.user (.child 2),
    Act.user .yield] ++
  List.replicate 4 Act.lib ++ [Act.user .yield] ++ List.replicate 7 Act.lib ++
  [Act.user .yield] ++ List.replicate 4 Act.lib ++ [Act.user .yield] ++
  List.replicate 4 Act.lib ++ [Act.user .yield] ++ List.replicate 11 Act.lib

def yieldedState : State := (Transition.after State.step AnyUse State.init yieldedActs).1

/-- In the pass over the children of 1, 2 begins to wait for a message. -/
def waitsActs : List Act :=
  List.replicate 4 .lib ++ [.user (.mget true)] ++ List.replicate 6 .lib

theorem schedulers_agree_clear_waits : ∃ (m n : State) (tr : List Obs),
    Transition.exec State.step AnyUse (yieldedState.resumed 0)
        (.user (.resumeChilds (some 1)) :: waitsActs) = some (n, tr.map (Obs.standIn 0)) ∧
      Agree [none, some 0] [] m n ∧ (∀ c ∈ m.pool, ∀ w, n.flags w c = m.flags w c) ∧
        n.running = standIn 0 m.running ∧ n.inUserCode = m.inUserCode := by
  have hm : RunOf AnyUse _ yieldedState := Transition.run_after (by decide +kernel)
  have hyielded : Yielded 0 yieldedState := Yielded.of_checks (by decide +kernel)
  have hn : RunOf AnyUse _ (yieldedState.resumed 0) :=
    hm.trans (Transition.run_of_exec (hyielded.exec_resumeActs hm.schedInv))
  have hpass := @Transition.exec_after _ _ _ _ State.step (KeepsClear [none, some 0]) _
    yieldedState (.user (.resumeChilds (some 1)) :: waitsActs) (by decide +kernel)
  obtain ⟨n, hagree⟩ := schedulers_agree_clear hm hn hyielded.poised hpass
  exact ⟨_, n, _, hagree⟩

end BoostCoro.Coroutine
