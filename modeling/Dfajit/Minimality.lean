-- When the table that minimization leaves is minimal: each state must be as some
-- reachable one, since states that are not reachable are never dropped.
import Mathlib.Order.Interval.Set.Nat
import Dfajit.Codec
import Dfajit.Outcomes

namespace dfajit.minimality

open error table numbering partition alike quotient moore outcomes

/-! ## How many states minimization leaves -/

/-- What the states of the table put out after the strings of classes. -/
def behaviours (t : TransitionTable) (c : Nat) : Set (List (Fin c) → Option UInt32) :=
  outcome t '' {s | s < t.state_count}

section

variable {t : TransitionTable} {q : List UInt32} {c : Nat} {w : Width}

theorem states_finite (t : TransitionTable) : {s | s < t.state_count}.Finite :=
  Set.finite_Iio t.state_count

theorem states_ncard (t : TransitionTable) : {s | s < t.state_count}.ncard = t.state_count :=
  Set.ncard_Iio_nat t.state_count

theorem behaviours_finite (t : TransitionTable) (c : Nat) : (behaviours t c).Finite :=
  (states_finite t).image _

/-- There are as many classes as behaviours. -/
theorem count_exact (h : Exact t c q) : count q = (behaviours t c).ncard := by
  have hexists : ∀ k : Nat, ∃ s, k < count q → s < t.state_count ∧ (class_at q s).toNat = k := by
    intro k
    by_cases hk : k < count q
    · obtain ⟨s, hs, hclass⟩ := exists_class h.numbered hk
      exact ⟨s, fun _ => ⟨hs, hclass⟩⟩
    · exact ⟨0, fun h => absurd h hk⟩
  choose state hstate using hexists
  have himage : behaviours t c = (fun k => outcome t (state k)) '' {k | k < count q} := by
    apply Set.Subset.antisymm
    · rintro _ ⟨s, hs, rfl⟩
      have hlt := class_lt h.numbered hs
      obtain ⟨hs', hclass⟩ := hstate _ hlt
      exact ⟨_, hlt, (h.same _ hs' s hs).mp (UInt32.toNat_inj.mp hclass)⟩
    · rintro _ ⟨k, hk, rfl⟩
      exact ⟨_, (hstate k hk).1, rfl⟩
  have hinj : Set.InjOn (fun k => (outcome t (state k) : List (Fin c) → _)) {k | k < count q} := by
    intro k hk k' hk' he
    obtain ⟨hs, hclass⟩ := hstate k hk
    obtain ⟨hs', hclass'⟩ := hstate k' hk'
    rw [← hclass, ← hclass', (h.same _ hs _ hs').mpr he]
  have hcard := Set.ncard_Iio_nat (count q)
  rw [himage, hinj.ncard_image]
  exact hcard.symm

theorem new_of_large {k : Nat} (hk : k ≤ MAX_STATES) (hc : 0 < c)
    (hmax : MAX_TOTAL_TRANSITIONS < k * c) : ∃ e, TransitionTable.new w k c = .error e := by
  unfold TransitionTable.new
  rw [dif_neg (Nat.not_lt.mpr hk), dif_neg (by omega)]
  cases hmul : checked_mul w k c with
  | none => exact ⟨_, rfl⟩
  | some total =>
    obtain rfl := checked_mul_eq hmul
    simp only
    rw [if_pos hmax]
    exact ⟨_, rfl⟩

/-- Minimization leaves one state for each behaviour, or the table as it is: if no
two states behave alike, or if the new table would have too many transitions. -/
theorem minimize_states (hv : t.Valid) (hplain : Plain t) (hc : t.class_count = c)
    (hfit : t.state_count * c ≤ w.max) (hsome : 0 < t.state_count) :
    ∃ r, t.minimize w = .ok r ∧ (r.getD t).state_count =
      if (behaviours t c).ncard < t.state_count ∧
        (behaviours t c).ncard * c ≤ MAX_TOTAL_TRANSITIONS then (behaviours t c).ncard
      else t.state_count := by
  by_cases hmany : t.state_count ≤ 1
  · refine ⟨none, minimize_small hmany w, ?_⟩
    have hne : behaviours t c ≠ ∅ := (Set.Nonempty.image _ ⟨0, hsome⟩).ne_empty
    have hpos := (Set.ncard_pos (behaviours_finite t c)).mpr (Set.nonempty_iff_ne_empty.mpr hne)
    rw [if_neg (by omega)]
    rfl
  obtain ⟨num_classes, hgroup⟩ := initial_partition_eq t
  obtain ⟨q, hloop, hq⟩ := refine_loop_exact hv hplain hc num_classes
  have hle := count_le hq.numbered.len
  have hstates := t.states_le
  have hpos := t.class_pos
  obtain ⟨hfull, hless⟩ := minimize_of_rounds (by omega) hgroup hloop hq.numbered.len w
  rw [← count_exact hq]
  by_cases hge : t.state_count ≤ count q
  · rw [hfull hge, if_neg (by omega)]
    exact ⟨none, rfl, rfl⟩
  obtain ⟨hfails, hbuilds⟩ := hless (by omega)
  rw [hc] at hfails hbuilds
  by_cases hmax : count q * c ≤ MAX_TOTAL_TRANSITIONS
  · have hsmall : count q * c ≤ t.state_count * c := Nat.mul_le_mul_right c hle
    obtain ⟨m, hnew⟩ := TransitionTable.new_of_fit (w := w) (n := count q) (c := c) (by omega)
      (by omega) (by omega) hmax
    obtain ⟨h1, h2, h3, h4, _⟩ := TransitionTable.new_ok hnew
    obtain ⟨m', hrun, hm'⟩ := rebuild_eq hq.numbered hv.len hv.accepts h1 (h2.trans hc.symm)
      (by rw [h3, List.length_replicate, hc]) h4
    rw [if_pos ⟨by omega, hmax⟩, hbuilds m hnew, hrun]
    exact ⟨some m', rfl, hm'.states⟩
  · obtain ⟨e, hnew⟩ := new_of_large (w := w) (k := count q) (c := c) (by omega) (by omega)
      (by omega)
    rw [if_neg (by omega), hfails e hnew]
    exact ⟨none, rfl, rfl⟩

end

/-! ## A table for a machine whose states are numbers -/

section

variable {t : TransitionTable} {c n : Nat}

theorem accept_of_mem (hv : t.Valid) {a : UInt32 × UInt32} (ha : a ∈ t.accept_states) :
    accept_of t a.1.toNat = some a.2 := by
  rw [accept_of_eq hv (hv.accepts a ha)]
  exact pid_at_of_mem hv ha

/-- The accept entries of the numbers below `n`. -/
def entries (out : Nat → Option UInt32) (n : Nat) : List (UInt32 × UInt32) :=
  (List.range n).filterMap fun i => (out i).map (UInt32.ofNat i, ·)

theorem mem_entries {out : Nat → Option UInt32} {a : UInt32 × UInt32} :
    a ∈ entries out n ↔ ∃ i < n, out i = some a.2 ∧ a.1 = UInt32.ofNat i := by
  unfold entries
  rw [List.mem_filterMap]
  constructor
  · rintro ⟨i, hi, h⟩
    cases hout : out i with
    | none => rw [hout] at h; cases h
    | some pid =>
      rw [hout] at h
      obtain rfl := Option.some.inj h
      exact ⟨i, List.mem_range.mp hi, hout, rfl⟩
  · rintro ⟨i, hi, hout, hstate⟩
    refine ⟨i, List.mem_range.mpr hi, ?_⟩
    rw [hout, ← hstate]
    rfl

theorem entries_nodup (out : Nat → Option UInt32) (hn : n ≤ MAX_STATES) :
    ((entries out n).map (·.1)).Nodup := by
  unfold MAX_STATES at hn
  have hsub : ∀ l : List Nat,
      ((l.filterMap fun i => (out i).map (UInt32.ofNat i, ·)).map (·.1)).Sublist
        (l.map UInt32.ofNat) := by
    intro l
    induction l with
    | nil => exact List.Sublist.refl _
    | cons i l ih =>
      rw [List.filterMap_cons]
      cases out i with
      | none => exact ih.cons _
      | some pid => exact ih.cons_cons _
  refine (hsub (List.range n)).nodup (List.Nodup.map_on ?_ List.nodup_range)
  intro i hi j hj he
  have hi := List.mem_range.mp hi
  have hj := List.mem_range.mp hj
  exact (u32_inj (by omega) (by omega)).mp he

/-- The transitions of the machine, row by row. -/
def cells (next : Nat → Fin c → Nat) (hc : 0 < c) (n : Nat) : List UInt32 :=
  (List.range (n * c)).map fun k => .ofNat (next (k / c) ⟨k % c, Nat.mod_lt k hc⟩)

/-- The table of a machine whose states are the numbers below `n`. -/
def table_of (next : Nat → Fin c → Nat) (out : Nat → Option UInt32) (lens : List UInt32)
    (hn : n ≤ MAX_STATES) (hc : 0 < c) : TransitionTable where
  state_count := n
  class_count := c
  transitions := cells next hc n
  accept_states := entries out n
  pattern_lengths := lens
  states_le := hn
  class_pos := hc

theorem state_toNat (hn : n ≤ MAX_STATES) {i : Nat} (hi : i < n) : (UInt32.ofNat i).toNat = i := by
  unfold MAX_STATES at hn
  rw [u32_toNat (by omega)]

theorem clean_state (hn : n ≤ MAX_STATES) {i : Nat} (hi : i < n) :
    (clean (UInt32.ofNat i)).toNat = i := by
  have hid := state_toNat hn hi
  unfold MAX_STATES at hn
  rw [clean_of_lt (by omega), hid]

section

variable {next : Nat → Fin c → Nat} {out : Nat → Option UInt32} {lens : List UInt32}
  {hn : n ≤ MAX_STATES} {hc : 0 < c}

theorem table_of_valid (hnext : ∀ i b, next i b < n)
    (hout : ∀ i pid, out i = some pid → pid.toNat < lens.length) :
    (table_of next out lens hn hc).Valid := by
  refine ⟨?_, ?_, ?_, entries_nodup out hn, ?_⟩
  · unfold table_of cells
    rw [List.length_map, List.length_range]
  · intro x hx
    obtain ⟨k, _, rfl⟩ := List.mem_map.mp hx
    have hlt := hnext (k / c) ⟨k % c, Nat.mod_lt k hc⟩
    rw [clean_state hn hlt]
    exact hlt
  · intro a ha
    obtain ⟨i, hi, _, hstate⟩ := mem_entries.mp ha
    rw [hstate, state_toNat hn hi]
    exact hi
  · intro a ha
    obtain ⟨i, _, hpid, _⟩ := mem_entries.mp ha
    exact hout i a.2 hpid

theorem table_of_next (hnext : ∀ i b, next i b < n) {i : Nat} (hi : i < n) (b : Fin c) :
    next_state (table_of next out lens hn hc) i b = next i b := by
  have hplace : i * c + b < n * c := place_lt hi b.isLt
  have hdiv : (i * c + b) / c = i := by
    rw [Nat.mul_comm, Nat.mul_add_div hc, Nat.div_eq_of_lt b.isLt, Nat.add_zero]
  have hmod : (i * c + b) % c = b := by
    rw [Nat.mul_comm, Nat.mul_add_mod, Nat.mod_eq_of_lt b.isLt]
  have hcell : (cells next hc n)[i * c + b]? = some (.ofNat (next i b)) := by
    unfold cells
    rw [List.getElem?_map, List.getElem?_range hplace, Option.map_some]
    simp only [hdiv, hmod]
  unfold next_state target table_of
  rw [hcell, Option.getD_some, clean_state hn (hnext i b)]

theorem table_of_accept (hv : (table_of next out lens hn hc).Valid) {i : Nat} (hi : i < n) :
    accept_of (table_of next out lens hn hc) i = out i := by
  cases hpid : out i with
  | some pid =>
    have hmem : (UInt32.ofNat i, pid) ∈ entries out n := mem_entries.mpr ⟨i, hi, hpid, rfl⟩
    have h := accept_of_mem hv hmem
    rwa [state_toNat hn hi] at h
  | none =>
    unfold accept_of
    rw [Option.map_eq_none_iff, List.find?_eq_none]
    intro a ha hstate
    obtain ⟨j, hj, hsome, hj'⟩ := mem_entries.mp ha
    have he : a.1.toNat = i := by simpa using hstate
    rw [hj', state_toNat hn hj] at he
    rw [he, hpid] at hsome
    cases hsome

/-- The table does what the machine does. -/
theorem table_of_outcome (hnext : ∀ i b, next i b < n)
    (hv : (table_of next out lens hn hc).Valid) (v : List (Fin c)) {i : Nat} (hi : i < n) :
    outcome (table_of next out lens hn hc) i v = after next out i v := by
  induction v generalizing i with
  | nil => exact table_of_accept hv hi
  | cons b v ih =>
    have h := ih (hnext i b)
    unfold outcome at h ⊢
    rw [after_cons, after_cons, ← h]
    exact congrArg (fun j => after _ _ j v) (table_of_next hnext hi b)

end

/-- A machine whose states are the numbers below `n` is that of a table. -/
theorem exists_table (hn : n ≤ MAX_STATES) (hsome : 0 < n) (hc : 0 < c)
    (next : Nat → Fin c → Nat) (hnext : ∀ i b, next i b < n) (out : Nat → Option UInt32)
    (lens : List UInt32) (hout : ∀ i pid, out i = some pid → pid.toNat < lens.length) :
    ∃ u : TransitionTable, u.Valid ∧ u.class_count = c ∧ u.state_count = n ∧
      outcome u 0 = after next out 0 := by
  have hv : (table_of next out lens hn hc).Valid := table_of_valid hnext hout
  exact ⟨_, hv, rfl, rfl, funext fun v => table_of_outcome hnext hv v hsome⟩

end

/-! ## The lower bound -/

/-- No table with `c` classes and fewer states than `m` gives each string of
classes the outcome that `t` gives it. -/
def Minimal (t m : TransitionTable) (c : Nat) : Prop :=
  ∀ u : TransitionTable, u.Valid → u.class_count = c → 0 < u.state_count →
    u.state_count < m.state_count → ∃ v : List (Fin c), outcome u 0 v ≠ outcome t 0 v

section

variable {t m : TransitionTable} {c : Nat}

theorem residuals_finite (hv : t.Valid) (hc : t.class_count = c) (hsome : 0 < t.state_count) :
    (residuals (outcome t 0 : List (Fin c) → _)).Finite :=
  (behaviours_finite t c).subset (residuals_subset _ (states_closed hv hc) hsome)

/-- There is a table with one state for each residual, and none with fewer. -/
theorem minimal_iff (hv : t.Valid) (hc : t.class_count = c) (hsome : 0 < t.state_count) :
    Minimal t m c ↔ m.state_count ≤ (residuals (outcome t 0 : List (Fin c) → _)).ncard := by
  have hfin := residuals_finite hv hc hsome
  have hle : (residuals (outcome t 0 : List (Fin c) → _)).ncard ≤ t.state_count := by
    have h := ncard_residuals_le (accept_of t) (states_finite t) (states_closed hv hc) hsome
    rwa [states_ncard] at h
  constructor
  · intro hmin
    by_contra hlt
    have hpos := (Set.ncard_pos hfin).mpr ⟨_, self_mem_residuals⟩
    have hstates := t.states_le
    obtain ⟨next, out, hafter, hnext, hrange⟩ := exists_machine hfin
    obtain ⟨u, hu, hclasses, hcount, hsame⟩ := exists_table (by omega) hpos
      (by rw [← hc]; exact t.class_pos) next hnext out t.pattern_lengths (by
        intro i pid hpid
        obtain ⟨v, hv'⟩ := hrange i
        rw [hpid] at hv'
        unfold outcome after accept_of at hv'
        obtain ⟨a, ha, rfl⟩ := Option.map_eq_some_iff.mp hv'
        exact hv.lengths a (List.mem_of_find?_eq_some ha))
    obtain ⟨v, hne⟩ := hmin u hu hclasses (by omega) (by omega)
    apply hne
    rw [hsame, hafter]
  · intro hge u hu hclasses hpos hfewer
    by_contra hall
    have hsame : (outcome u 0 : List (Fin c) → _) = outcome t 0 := by
      funext v
      by_contra hne
      exact hall ⟨v, hne⟩
    have h := ncard_residuals_le (accept_of u) (states_finite u)
      (states_closed hu hclasses) hpos
    rw [states_ncard] at h
    unfold outcome at hsame hge
    rw [hsame] at h
    omega

/-- Each state behaves as a reachable one just when there are no more behaviours
than residuals. -/
theorem reachable_iff (hv : t.Valid) (hc : t.class_count = c) (hsome : 0 < t.state_count) :
    (∀ s < t.state_count, ∃ v : List (Fin c),
        (outcome t s : List (Fin c) → _) = outcome t (v.foldl (next_state t) 0)) ↔
      (behaviours t c).ncard ≤ (residuals (outcome t 0 : List (Fin c) → _)).ncard := by
  have hsub := residuals_subset (accept_of t) (states_closed hv hc) hsome
  constructor
  · intro h
    exact Set.ncard_le_ncard (image_subset_residuals h) (residuals_finite hv hc hsome)
  · intro hle s hs
    have heq := Set.eq_of_subset_of_ncard_le hsub hle (behaviours_finite t c)
    have hmem : outcome t s ∈ residuals (outcome t 0 : List (Fin c) → _) := by
      unfold outcome at heq ⊢
      rw [heq]
      exact ⟨s, hs, rfl⟩
    obtain ⟨v, hv'⟩ := hmem
    refine ⟨v, ?_⟩
    rw [← hv']
    exact residual_after

theorem distinct_iff (t : TransitionTable) (c : Nat) :
    (∀ s < t.state_count, ∀ s' < t.state_count,
        (outcome t s : List (Fin c) → _) = outcome t s' → s = s') ↔
      t.state_count ≤ (behaviours t c).ncard := by
  have hle := Set.ncard_image_le (f := (outcome t : Nat → List (Fin c) → _)) (states_finite t)
  have hiff := Set.ncard_image_iff (f := (outcome t : Nat → List (Fin c) → _)) (states_finite t)
  rw [states_ncard] at hle hiff
  unfold behaviours
  rw [show t.state_count ≤ (outcome t '' {s | s < t.state_count} : Set (List (Fin c) → _)).ncard ↔
    (outcome t '' {s | s < t.state_count} : Set (List (Fin c) → _)).ncard = t.state_count by omega,
    hiff]
  exact ⟨fun h s hs s' hs' he => h s hs s' hs' he, fun h s hs s' hs' he => h hs hs' he⟩

end

/-! ## The law -/

theorem from_parts_fits {w : Width} {n c : Nat} {ts : List UInt32} {as : List (UInt32 × UInt32)}
    {ls : List UInt32} {t : TransitionTable}
    (h : TransitionTable.from_parts w n c ts as ls = .ok t) : n * c ≤ w.max := by
  by_contra hgt
  have hmul : checked_mul w n c = none := if_neg hgt
  unfold TransitionTable.from_parts at h
  split at h
  · cases h
  split at h
  · cases h
  rw [hmul] at h
  cases h

/-- What minimization leaves of a table is minimal just when each state behaves as
some state that can be reached, and the new table, if there is one to make, has
no more transitions than a new table may have. -/
theorem minimize_is_minimal_iff (w : Width) (n c : Nat) (ts : List UInt32)
    (as : List (UInt32 × UInt32)) (ls : List UInt32) (t : TransitionTable)
    (h : TransitionTable.from_parts w n c ts as ls = .ok t) (hsome : 1 ≤ n)
    (hplain : ∀ x ∈ ts, flagged x = false) :
    ∃ r, t.minimize w = .ok r ∧ (Minimal t (r.getD t) c ↔
      (∀ s < n, ∃ v : List (Fin c),
        (outcome t s : List (Fin c) → _) = outcome t (v.foldl (next_state t) 0)) ∧
      ((∀ s < n, ∀ s' < n, (outcome t s : List (Fin c) → _) = outcome t s' → s = s') ∨
        (behaviours t c).ncard * c ≤ MAX_TOTAL_TRANSITIONS)) := by
  have hfit := from_parts_fits h
  obtain ⟨rfl, hc, rfl, -, -, hv⟩ := TransitionTable.from_parts_ok h
  obtain ⟨r, hmin, hcount⟩ := minimize_states hv hplain hc hfit hsome
  refine ⟨r, hmin, ?_⟩
  rw [minimal_iff hv hc hsome, reachable_iff hv hc hsome, distinct_iff t c, hcount]
  have hle : (behaviours t c).ncard ≤ t.state_count := by
    have h := Set.ncard_image_le (f := (outcome t : Nat → List (Fin c) → _)) (states_finite t)
    rwa [states_ncard] at h
  have hfewer : (residuals (outcome t 0 : List (Fin c) → _)).ncard ≤ (behaviours t c).ncard :=
    Set.ncard_le_ncard (residuals_subset _ (states_closed hv hc) hsome) (behaviours_finite t c)
  split <;> omega

/-- Two states of which the second is never reached, and has the only pattern. -/
def unreached : TransitionTable := ⟨2, 1, [0, 0], [(1, 0)], [1], two_states_fit, Nat.one_pos⟩

theorem unreached_start (v : List (Fin 1)) : v.foldl (next_state unreached) 0 = 0 := by
  induction v with
  | nil => rfl
  | cons b v ih =>
    have hstep : next_state unreached 0 b = 0 := by
      obtain rfl : b = 0 := Subsingleton.elim _ _
      rfl
    rw [List.foldl_cons, hstep, ih]

/-- Its minimization is not minimal: one state would do. -/
theorem minimize_keeps_an_unreached_state :
    ¬ ∀ (w : Width) (n c : Nat) (ts : List UInt32) (as : List (UInt32 × UInt32))
      (ls : List UInt32) (t : TransitionTable),
      TransitionTable.from_parts w n c ts as ls = .ok t → 1 ≤ n →
      (∀ x ∈ ts, flagged x = false) → ∃ r, t.minimize w = .ok r ∧ Minimal t (r.getD t) c := by
  intro h
  obtain ⟨r, hmin, hminimal⟩ := h .w64 2 1 [0, 0] [(1, 0)] [1] unreached rfl (by decide)
    (List.forall_mem_cons.mpr ⟨rfl, List.forall_mem_cons.mpr ⟨rfl, fun _ h => by cases h⟩⟩)
  have hnone : unreached.minimize .w64 = .ok none := rfl
  rw [hnone] at hmin
  obtain rfl := Except.ok.inj hmin
  obtain ⟨v, hne⟩ := hminimal TransitionTable.oneState TransitionTable.oneState_valid rfl
    Nat.one_pos (by decide)
  apply hne
  unfold outcome after
  rw [unreached_start]
  rfl

/-- With its states joined by transitions it is minimal as it stands. -/
theorem minimize_of_a_cycle_is_minimal :
    ∃ t r, TransitionTable.from_parts .w64 2 1 [1, 0] [(1, 0)] [1] = .ok t ∧
      t.minimize .w64 = .ok r ∧ (Minimal t (r.getD t) 1 ↔
        (∀ s < 2, ∃ v : List (Fin 1),
          (outcome t s : List (Fin 1) → _) = outcome t (v.foldl (next_state t) 0)) ∧
        ((∀ s < 2, ∀ s' < 2, (outcome t s : List (Fin 1) → _) = outcome t s' → s = s') ∨
          (behaviours t 1).ncard * 1 ≤ MAX_TOTAL_TRANSITIONS)) := by
  obtain ⟨r, hmin, hiff⟩ := minimize_is_minimal_iff .w64 2 1 [1, 0] [(1, 0)] [1] _ rfl (by decide)
    (List.forall_mem_cons.mpr ⟨rfl, List.forall_mem_cons.mpr ⟨rfl, fun _ h => by cases h⟩⟩)
  exact ⟨_, r, rfl, hmin, hiff⟩

end dfajit.minimality
