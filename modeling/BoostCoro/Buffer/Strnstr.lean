import BoostCoro.Buffer.VarBuf
import Mathlib.Data.List.Basic
/-!
# The bundled `strnstr`

The string search of `util/var_buf.h`, on memory that may end: a read of a byte that is not
there is a fault. `n` bounds where a match may start; nothing bounds where it ends.
-/

namespace BoostCoro.Buffer

/-- `*(str1 + i)`. -/
def load (mem : Nat → Option UInt8) (i : Nat) : Except Fault UInt8 :=
  match mem i with
  | none => .error .badPointer
  | some c => .ok c

/-- `while (*s1 && *s2 && !(*s1 - *s2)) s1++, s2++;` and then `!*s2`. The list is what the
string `s2` has before its NUL. -/
def matchesFrom (mem : Nat → Option UInt8) : List UInt8 → Nat → Except Fault Bool
  | [], s1 => do
    let _ ← load mem s1
    return true
  | c :: s2, s1 => do
    let c1 ← load mem s1
    if c1 ≠ 0 ∧ c1 = c then matchesFrom mem s2 (s1 + 1) else return false

/-- `strnstr(str1, str2, n)`, as the offset into `str1` of the pointer it returns. -/
def strnstr (mem : Nat → Option UInt8) (str2 : List UInt8) (n : Nat) :
    Except Fault (Option Nat) :=
  if str2 = [] then .ok (some 0) else go n 0
where
  /-- `while (*cp && left)` -/
  go : Nat → Nat → Except Fault (Option Nat)
    | 0, cp => do
      let _ ← load mem cp
      return none
    | left + 1, cp => do
      let c ← load mem cp
      if c = 0 then return none
      else do
        let found ← matchesFrom mem str2 cp
        if found then return some cp else go left (cp + 1)

/-! ## Memory that does not end -/

/-- `n` bytes from position `i` on. -/
def window (mem : Nat → UInt8) (i n : Nat) : List UInt8 := (List.range n).map fun j => mem (i + j)

/-- The search finds `d` at `k`: the match starts among the first `n` bytes and before any
NUL. -/
structure Visible (mem : Nat → UInt8) (d : List UInt8) (n k : Nat) : Prop where
  lt : k < n
  no_nul : 0 ∉ window mem 0 k
  match_eq : window mem k d.length = d

/-- What the search returns: the first position that it finds. -/
def Reports (mem : Nat → UInt8) (d : List UInt8) (n : Nat) : Option Nat → Prop
  | some k => Visible mem d n k ∧ ∀ j < k, ¬ Visible mem d n j
  | none => ∀ k, ¬ Visible mem d n k

variable {mem : Nat → UInt8} {d : List UInt8} {n k : Nat}

@[simp] theorem length_window (mem : Nat → UInt8) (i n : Nat) :
    (window mem i n).length = n := by
  simp [window]

theorem window_succ (mem : Nat → UInt8) (i n : Nat) :
    window mem i (n + 1) = mem i :: window mem (i + 1) n := by
  simp only [window, List.range_succ_eq_map, List.map_cons, List.map_map, Nat.add_zero]
  congr 1
  apply List.map_congr_left
  intro j _
  simp only [Function.comp_apply]
  congr 1
  omega

theorem notMem_window : 0 ∉ window mem 0 n ↔ ∀ j < n, mem j ≠ 0 := by
  simp [window]

theorem matchesFrom_eq (hnul : 0 ∉ d) (k : Nat) :
    matchesFrom (fun i => some (mem i)) d k = .ok (decide (window mem k d.length = d)) := by
  induction d generalizing k with
  | nil => rfl
  | cons c d ih =>
      rw [List.mem_cons, not_or] at hnul
      rw [matchesFrom, List.length_cons, window_succ]
      simp only [load, Fallible.ok_bind, List.cons.injEq]
      by_cases hc : mem k = c
      · have hne : mem k ≠ 0 := fun hzero => hnul.1 (hzero.symm.trans hc)
        rw [if_pos ⟨hne, hc⟩, ih hnul.2]
        simp [hc]
      · rw [if_neg fun h => hc h.2]
        simp [hc]

/-- A match does not start at a NUL. -/
theorem Visible.ne_zero (h : Visible mem d n k) (hd : d ≠ []) (hnul : 0 ∉ d) : mem k ≠ 0 := by
  obtain ⟨c, d, rfl⟩ := List.exists_cons_of_ne_nil hd
  have hmatch := h.match_eq
  rw [List.length_cons, window_succ, List.cons.injEq] at hmatch
  rw [hmatch.1]
  rintro rfl
  exact hnul List.mem_cons_self

theorem strnstr_go_reports (hd : d ≠ []) (hnul : 0 ∉ d) {left cp : Nat} (hn : cp + left = n)
    (hbefore : ∀ j < cp, mem j ≠ 0 ∧ ¬ Visible mem d n j) :
    ∃ r, strnstr.go (fun i => some (mem i)) d left cp = .ok r ∧ Reports mem d n r := by
  induction left generalizing cp with
  | zero =>
      refine ⟨none, rfl, fun k hk => ?_⟩
      have hlt := hk.lt
      exact (hbefore k (by omega)).2 hk
  | succ left ih =>
      rw [strnstr.go]
      simp only [load, Fallible.ok_bind]
      by_cases hzero : mem cp = 0
      · refine ⟨none, if_pos hzero, fun k hk => ?_⟩
        rcases Nat.lt_trichotomy k cp with hlt | rfl | hgt
        · exact (hbefore k hlt).2 hk
        · exact hk.ne_zero hd hnul hzero
        · exact notMem_window.mp hk.no_nul cp hgt hzero
      · rw [if_neg hzero, matchesFrom_eq hnul]
        simp only [Fallible.ok_bind, decide_eq_true_eq]
        by_cases hmatch : window mem cp d.length = d
        · refine ⟨some cp, if_pos hmatch, ⟨by omega, ?_, hmatch⟩, fun j hj => (hbefore j hj).2⟩
          exact notMem_window.mpr fun j hj => (hbefore j hj).1
        · rw [if_neg hmatch]
          refine ih (by omega) fun j hj => ?_
          rcases Nat.lt_succ_iff_lt_or_eq.mp hj with hlt | rfl
          · exact hbefore j hlt
          · exact ⟨hzero, fun hvisible => hmatch hvisible.match_eq⟩

/-- The search returns the first position it finds. -/
theorem strnstr_reports (hd : d ≠ []) (hnul : 0 ∉ d) (mem : Nat → UInt8) (n : Nat) :
    ∃ r, strnstr (fun i => some (mem i)) d n = .ok r ∧ Reports mem d n r := by
  rw [strnstr, if_neg hd]
  exact strnstr_go_reports hd hnul (Nat.zero_add n) nofun

/-! ## The `strnstr` it stands in for -/

/-- `d` stands at `k` within the first `n` bytes and before any NUL. -/
structure Occurs (mem : Nat → UInt8) (d : List UInt8) (n k : Nat) : Prop where
  within : k + d.length ≤ n
  no_nul : 0 ∉ window mem 0 (k + d.length)
  match_eq : window mem k d.length = d

instance (mem : Nat → UInt8) (d : List UInt8) (n k : Nat) : Decidable (Occurs mem d n k) :=
  decidable_of_iff (k + d.length ≤ n ∧ 0 ∉ window mem 0 (k + d.length) ∧
    window mem k d.length = d) ⟨fun h => ⟨h.1, h.2.1, h.2.2⟩, fun h => ⟨h.1, h.2, h.3⟩⟩

/-- The BSD function: the first position at which `d` occurs. -/
def bsdStrnstr (mem : Nat → UInt8) (d : List UInt8) (n : Nat) : Option Nat :=
  (List.range (n + 1)).find? fun k => decide (Occurs mem d n k)

/-- Memory that ends after `n` bytes. -/
def cut (mem : Nat → UInt8) (n i : Nat) : Option UInt8 := if i < n then some (mem i) else none

theorem bsdStrnstr_eq {r : Option Nat}
    (hsome : ∀ k, r = some k → Occurs mem d n k ∧ ∀ j < k, ¬ Occurs mem d n j)
    (hnone : r = none → ∀ k, ¬ Occurs mem d n k) : bsdStrnstr mem d n = r := by
  unfold bsdStrnstr
  cases r with
  | none =>
      rw [List.find?_range_eq_none]
      intro k _
      simpa using hnone rfl k
  | some k =>
      obtain ⟨hoccurs, hfirst⟩ := hsome k rfl
      have hlt : k < n + 1 := Nat.lt_succ_of_le (Nat.le_trans (Nat.le_add_right _ _) hoccurs.within)
      rw [List.find?_range_eq_some]
      refine ⟨by simpa using hoccurs, List.mem_range.mpr hlt, fun j hj => ?_⟩
      simpa using hfirst j hj

/-- What occurs is visible to the search. -/
theorem Occurs.visible (h : Occurs mem d n k) (hd : d ≠ []) : Visible mem d n k where
  lt := by
    have hpos := List.length_pos_iff.mpr hd
    have hwithin := h.within
    omega
  no_nul := by
    have hall := notMem_window.mp h.no_nul
    exact notMem_window.mpr fun j hj => hall j (Nat.lt_add_right _ hj)
  match_eq := h.match_eq

/-- A match has no NUL, so the first NUL is behind it. -/
theorem Visible.no_nul_through (h : Visible mem d n k) (hnul : 0 ∉ d) :
    0 ∉ window mem 0 (k + d.length) := by
  have hmatch : 0 ∉ window mem k d.length := by rwa [h.match_eq]
  rw [notMem_window]
  intro j hj hzero
  by_cases hjk : j < k
  · exact notMem_window.mp h.no_nul j hjk hzero
  · refine hmatch (List.mem_map.mpr ⟨j - k, List.mem_range.mpr (by omega), ?_⟩)
    rw [Nat.add_sub_cancel' (by omega), hzero]

/-! ### The bytes that the search reads -/

/-- A comparison that ends before the end of the memory. -/
theorem matchesFrom_cut (hnul : 0 ∉ d) (h : k + d.length < n ∨ ∃ z, k ≤ z ∧ z < n ∧ mem z = 0) :
    matchesFrom (cut mem n) d k = .ok (decide (window mem k d.length = d)) := by
  have hk : k < n := by omega
  induction d generalizing k with
  | nil => simp [matchesFrom, load, cut, hk, window]
  | cons c d ih =>
      rw [List.mem_cons, not_or] at hnul
      rw [matchesFrom, List.length_cons, window_succ]
      simp only [load, cut, if_pos hk, Fallible.ok_bind, List.cons.injEq]
      by_cases hc : mem k = c
      · have hne : mem k ≠ 0 := fun hzero => hnul.1 (hzero.symm.trans hc)
        have hnext : k + 1 + d.length < n ∨ ∃ z, k + 1 ≤ z ∧ z < n ∧ mem z = 0 := by
          refine h.imp (fun hlt => ?_) fun ⟨z, hz, hzn, hzero⟩ => ⟨z, ?_, hzn, hzero⟩
          · rw [List.length_cons] at hlt
            omega
          · have hzk : z ≠ k := fun heq => hne (heq ▸ hzero)
            omega
        rw [if_pos ⟨hne, hc⟩, ih hnul.2 hnext (by omega)]
        simp [hc]
      · rw [if_neg fun h => hc h.2]
        simp [hc]

/-- A comparison that does not fail is right, and if it succeeds it has read one byte more. -/
theorem matchesFrom_cut_ok {b : Bool} (hnul : 0 ∉ d)
    (h : matchesFrom (cut mem n) d k = .ok b) :
    b = decide (window mem k d.length = d) ∧ (b = true → k + d.length < n) := by
  induction d generalizing k with
  | nil =>
      by_cases hk : k < n
      · simp only [matchesFrom, load, cut, if_pos hk, Fallible.ok_bind, Fallible.pure_eq_ok] at h
        obtain rfl := Except.ok.inj h
        exact ⟨by simp [window], fun _ => hk⟩
      · simp [matchesFrom, load, cut, hk] at h
  | cons c d ih =>
      rw [List.mem_cons, not_or] at hnul
      rw [matchesFrom] at h
      by_cases hk : k < n
      · simp only [load, cut, if_pos hk, Fallible.ok_bind] at h
        simp only [List.length_cons, window_succ, List.cons.injEq]
        split at h
        next hc =>
          obtain ⟨hb, hlt⟩ := ih hnul.2 h
          refine ⟨by simp [hb, hc.2], fun htrue => ?_⟩
          have hlt := hlt htrue
          omega
        next hc =>
          obtain rfl := Except.ok.inj h
          have hne : mem k ≠ c := fun heq => hc ⟨fun hzero => hnul.1 (hzero.symm.trans heq), heq⟩
          exact ⟨by simp [hne], nofun⟩
      · simp [load, cut, hk] at h

/-- The search stays within its limit if a NUL or a match stops it before. -/
theorem strnstr_go_cut (hd : d ≠ []) (hnul : 0 ∉ d) {left cp : Nat} (hn : cp + left = n) :
    (∃ r, strnstr.go (cut mem n) d left cp = .ok r) ↔
      (∃ z, cp ≤ z ∧ z < n ∧ mem z = 0) ∨
        ∃ k, cp ≤ k ∧ k + d.length < n ∧ window mem k d.length = d := by
  have hpos := List.length_pos_iff.mpr hd
  induction left generalizing cp with
  | zero =>
      have hcp : ¬ cp < n := by omega
      refine iff_of_false ?_ ?_
      · rintro ⟨r, hr⟩
        simp [strnstr.go, load, cut, hcp] at hr
      · rintro (⟨z, hz, hzn, -⟩ | ⟨k, hk, hkn, -⟩) <;> omega
  | succ left ih =>
      have hcp : cp < n := by omega
      have hnext : cp + 1 + left = n := by omega
      have ih := ih hnext
      simp only [strnstr.go, load, cut, if_pos hcp, Fallible.ok_bind]
      by_cases hzero : mem cp = 0
      · rw [if_pos hzero]
        exact iff_of_true ⟨none, rfl⟩ (.inl ⟨cp, Nat.le_refl _, hcp, hzero⟩)
      · rw [if_neg hzero]
        constructor
        · rintro ⟨r, hr⟩
          obtain ⟨found, hmatch, hr⟩ := Fallible.bind_eq_ok.mp hr
          obtain ⟨hfound, hlt⟩ := matchesFrom_cut_ok hnul hmatch
          split at hr
          next htrue =>
            rw [htrue, eq_comm, decide_eq_true_eq] at hfound
            exact .inr ⟨cp, Nat.le_refl _, hlt htrue, hfound⟩
          next =>
            refine (ih.mp ⟨r, hr⟩).imp ?_ ?_
            · exact fun ⟨z, hz, hrest⟩ => ⟨z, Nat.le_of_succ_le hz, hrest⟩
            · exact fun ⟨k, hk, hrest⟩ => ⟨k, Nat.le_of_succ_le hk, hrest⟩
        · intro hstops
          have hcompares : cp + d.length < n ∨ ∃ z, cp ≤ z ∧ z < n ∧ mem z = 0 := by
            rcases hstops with hnul | ⟨k, hk, hkn, -⟩
            · exact .inr hnul
            · exact .inl (by omega)
          rw [matchesFrom_cut hnul hcompares]
          simp only [Fallible.ok_bind, decide_eq_true_eq]
          by_cases hmatch : window mem cp d.length = d
          · exact ⟨some cp, if_pos hmatch⟩
          · rw [if_neg hmatch]
            refine ih.mpr (hstops.imp ?_ ?_)
            · rintro ⟨z, hz, hzn, hz0⟩
              have hne : z ≠ cp := fun heq => hzero (heq ▸ hz0)
              exact ⟨z, by omega, hzn, hz0⟩
            · rintro ⟨k, hk, hkn, hkm⟩
              have hne : k ≠ cp := fun heq => hmatch (heq ▸ hkm)
              exact ⟨k, by omega, hkn, hkm⟩

theorem mem_window : 0 ∈ window mem 0 n ↔ ∃ z < n, mem z = 0 := by
  simp [window]

/-- The two functions agree, and no byte from `n` on is read, exactly if `d` is empty or the
search is stopped before the last of the `n` bytes, by a NUL or by a match. -/
theorem strnstr_is_bsd_iff (hnul : 0 ∉ d) (mem : Nat → UInt8) (n : Nat) :
    (strnstr (fun i => some (mem i)) d n = .ok (bsdStrnstr mem d n) ∧
        ∃ r, strnstr (cut mem n) d n = .ok r) ↔
      d = [] ∨ 0 ∈ window mem 0 n ∨ ∃ k, k + d.length < n ∧ window mem k d.length = d := by
  by_cases hd : d = []
  · subst hd
    have hbsd : bsdStrnstr mem [] n = some 0 := by
      refine bsdStrnstr_eq (fun k hk => ?_) nofun
      obtain rfl := Option.some.inj hk
      exact ⟨⟨Nat.zero_le _, by simp [window], rfl⟩, fun j hj => absurd hj (Nat.not_lt_zero j)⟩
    rw [hbsd]
    exact iff_of_true ⟨rfl, some 0, rfl⟩ (.inl rfl)
  · have hreads : (∃ r, strnstr.go (cut mem n) d n 0 = .ok r) ↔ _ :=
      strnstr_go_cut hd hnul (Nat.zero_add n)
    have hstops : ((∃ z, 0 ≤ z ∧ z < n ∧ mem z = 0) ∨
        ∃ k, 0 ≤ k ∧ k + d.length < n ∧ window mem k d.length = d) ↔
          0 ∈ window mem 0 n ∨ ∃ k, k + d.length < n ∧ window mem k d.length = d := by
      simp only [Nat.zero_le, true_and, mem_window]
    rw [strnstr, strnstr, if_neg hd, if_neg hd, hreads, hstops, or_iff_right hd]
    refine and_iff_right_of_imp fun hstop => ?_
    obtain ⟨r, hrun, hreports⟩ : ∃ r, strnstr.go (fun i => some (mem i)) d n 0 = .ok r ∧
        Reports mem d n r := strnstr_go_reports hd hnul (Nat.zero_add n) nofun
    rw [hrun]
    refine congrArg _ (bsdStrnstr_eq (fun k hk => ?_) fun hr k hk => ?_).symm
    · subst hk
      obtain ⟨hvisible, hfirst⟩ := hreports
      have hclean := hvisible.no_nul_through hnul
      have hwithin : k + d.length ≤ n := by
        rcases hstop with hzero | ⟨j, hj, hmatch⟩
        · -- the match ends before the NUL
          obtain ⟨z, hz, hz0⟩ := mem_window.mp hzero
          by_contra hlt
          exact notMem_window.mp hclean z (by omega) hz0
        · by_contra hlt
          -- no NUL stops the search before `j`, so it does not find `k` behind it
          refine hfirst j (by omega) ⟨by omega, ?_, hmatch⟩
          exact notMem_window.mpr fun i hi => notMem_window.mp hclean i (by omega)
      exact ⟨⟨hwithin, hclean, hvisible.match_eq⟩, fun j hj hoccurs =>
        hfirst j hj (hoccurs.visible hd)⟩
    · subst hr
      exact hreports k (hk.visible hd)

/-- `strnstr("xab", "ab", 4)` is `1`. -/
theorem strnstr_is_bsd_text :
    strnstr (fun i => some ([120, 97, 98].getD i 0)) [97, 98] 4 =
        .ok (bsdStrnstr (fun i => [120, 97, 98].getD i 0) [97, 98] 4) ∧
      ∃ r, strnstr (cut (fun i => [120, 97, 98].getD i 0) 4) [97, 98] 4 = .ok r :=
  (strnstr_is_bsd_iff (by decide) _ _).mpr (.inr (.inl (by decide)))

/-- `strnstr("abc", "abc", 2)` is `0`, although only two bytes may be searched. -/
theorem strnstr_exceeds_limit :
    strnstr (fun i => some ([97, 98, 99].getD i 0)) [97, 98, 99] 2 = .ok (some 0) ∧
      bsdStrnstr (fun i => [97, 98, 99].getD i 0) [97, 98, 99] 2 = none ∧
        strnstr (cut (fun i => [97, 98, 99].getD i 0) 2) [97, 98, 99] 2 = .error .badPointer := by
  decide +kernel

end BoostCoro.Buffer
