-- What minimization leaves (table.rs): a valid table that behaves as the one it came
-- from, state for state, that a second minimization leaves as it is, and that can be
-- stored and loaded.
import Dfajit.Minimality
import Dfajit.Minimization

namespace dfajit.minimize_again

open error table dfa numbering partition alike quotient moore outcomes minimality minimization

/-! ## The table of the classes -/

section

variable {t m : TransitionTable} {q : List UInt32} {c : Nat} {w : Width}

/-- The states of a class all go to states of one class. -/
theorem class_next (hq : Exact t c q) (hv : t.Valid) (hc : t.class_count = c) {s s' : Nat}
    (hs : s < t.state_count) (hs' : s' < t.state_count) (h : class_at q s = class_at q s')
    (b : Fin c) : class_at q (next_state t s b) = class_at q (next_state t s' b) := by
  have he := (hq.same s hs s' hs').mp h
  apply (hq.same _ (next_state_lt hv hc hs b) _ (next_state_lt hv hc hs' b)).mpr
  funext v
  exact congrFun he (b :: v)

/-- The transitions of a class are those of its states. -/
theorem class_row (hm : Quotient t q m) (hq : Exact t c q) (hv : t.Valid) (hplain : Plain t)
    (hc : t.class_count = c) {s : Nat} (hs : s < t.state_count) (b : Fin c) :
    target m (class_at q s).toNat b = class_at q (next_state t s b) := by
  obtain ⟨s0, hs0, hclass, hrow⟩ := hm.rows _ (class_lt hq.numbered hs)
  have hcell := hrow b (by rw [hc]; exact b.isLt)
  rw [target_at_next hv hplain hc hs0] at hcell
  unfold target
  rw [hm.classes, hcell, Option.getD_some]
  exact class_next hq hv hc hs0 hs (UInt32.toNat_inj.mp hclass) b

theorem new_target_lt (hm : Quotient t q m) (hq : Exact t c q) (hv : t.Valid)
    (hplain : Plain t) (hc : t.class_count = c) {x : UInt32} (hx : x ∈ m.transitions) :
    x.toNat < m.state_count := by
  obtain ⟨i, hi, rfl⟩ := List.mem_iff_getElem.mp hx
  have hpos : 0 < t.class_count := t.class_pos
  have hlen := hm.len
  have hrow_lt : i / t.class_count < count q := by
    apply Nat.div_lt_of_lt_mul
    rw [Nat.mul_comm, ← hlen]
    exact hi
  obtain ⟨s, hs, _, hrow⟩ := hm.rows _ hrow_lt
  have hcol : i % t.class_count < t.class_count := Nat.mod_lt _ hpos
  have hcell := hrow _ hcol
  have hplace : i / t.class_count * t.class_count + i % t.class_count = i := by
    rw [Nat.mul_comm]
    exact Nat.div_add_mod i _
  rw [hplace, List.getElem?_eq_getElem hi] at hcell
  have hnext := target_at_next (p := q) hv hplain hc hs
    ⟨i % t.class_count, by rw [← hc]; exact hcol⟩
  rw [Option.some.inj hcell, hm.states, hnext]
  exact class_lt hq.numbered (next_state_lt hv hc hs _)

theorem new_accept_states_nodup (hm : Quotient t q m) (hq : Exact t c q) (hv : t.Valid) :
    (m.accept_states.map (·.1)).Nodup := by
  rw [hm.accepts]
  apply List.Nodup.map_on _ (firsts_nodup _)
  rintro ⟨k, pid⟩ ha ⟨k', pid'⟩ ha' (rfl : k = k')
  rw [← hm.accepts] at ha ha'
  obtain ⟨s, hs, hclass⟩ := (mem_new_accepts hm).mp ha
  obtain ⟨s', hs', hclass'⟩ := (mem_new_accepts hm).mp ha'
  have hout := (hq.same _ (hv.accepts _ hs) _ (hv.accepts _ hs')).mp (hclass.trans hclass'.symm)
  have hpid : accept_of t s.toNat = accept_of t s'.toNat := congrFun hout []
  rw [accept_of_mem hv hs, accept_of_mem hv hs'] at hpid
  obtain rfl : pid = pid' := Option.some.inj hpid
  rfl

theorem new_valid (hm : Quotient t q m) (hq : Exact t c q) (hv : t.Valid) (hplain : Plain t)
    (hc : t.class_count = c) : m.Valid := by
  refine ⟨?_, ?_, ?_, new_accept_states_nodup hm hq hv, ?_⟩
  · rw [hm.len, hm.states, hm.classes]
  · intro x hx
    have hlt := new_target_lt hm hq hv hplain hc hx
    rwa [m.clean_of_state hlt]
  · rintro ⟨k, pid⟩ ha
    obtain ⟨s, hs, rfl⟩ := (mem_new_accepts hm).mp ha
    rw [hm.states]
    exact class_lt hq.numbered (hv.accepts _ hs)
  · rintro ⟨k, pid⟩ ha
    obtain ⟨s, hs, _⟩ := (mem_new_accepts hm).mp ha
    rw [hm.lengths]
    exact hv.lengths (s, pid) hs

theorem new_plain (hm : Quotient t q m) (hq : Exact t c q) (hv : t.Valid) (hplain : Plain t)
    (hc : t.class_count = c) : Plain m :=
  fun _ hx => m.flagged_of_state (new_target_lt hm hq hv hplain hc hx)

/-- A class has the pattern of its states. -/
theorem new_accept_of (hm : Quotient t q m) (hq : Exact t c q) (hv : t.Valid)
    (hvm : m.Valid) {s : Nat} (hs : s < t.state_count) :
    accept_of m (class_at q s).toNat = accept_of t s := by
  have hclass := class_lt hq.numbered hs
  rw [← hm.states] at hclass
  have hstates := t.states_le
  unfold MAX_STATES at hstates
  have hs32 : (UInt32.ofNat s).toNat = s := u32_toNat (by omega)
  cases hp : accept_of t s with
  | some pid =>
    have hmem := hp
    rw [accept_of_eq hv hs] at hmem
    have hnew : (class_at q (UInt32.ofNat s).toNat, pid) ∈ m.accept_states :=
      (mem_new_accepts hm).mpr ⟨_, mem_of_pid_at hmem, rfl⟩
    rw [hs32] at hnew
    exact accept_of_mem hvm hnew
  | none =>
    by_contra hne
    obtain ⟨pid, hpid⟩ := Option.ne_none_iff_exists'.mp hne
    rw [accept_of_eq hvm hclass] at hpid
    have hmem := mem_of_pid_at hpid
    rw [UInt32.ofNat_toNat] at hmem
    obtain ⟨s', hs', hsame⟩ := (mem_new_accepts hm).mp hmem
    have hout := (hq.same _ (hv.accepts _ hs') _ hs).mp hsame
    have hnil : accept_of t s'.toNat = accept_of t s := congrFun hout []
    rw [accept_of_mem hv hs', hp] at hnil
    cases hnil

/-- So it behaves as they do. -/
theorem new_outcome (hm : Quotient t q m) (hq : Exact t c q) (hv : t.Valid) (hplain : Plain t)
    (hc : t.class_count = c) {s : Nat} (hs : s < t.state_count) :
    (outcome m (class_at q s).toNat : List (Fin c) → _) = outcome t s := by
  have hvm := new_valid hm hq hv hplain hc
  have hm' := m.states_le
  unfold MAX_STATES at hm'
  apply after_map (f := fun s => (class_at q s).toNat) (states_closed hv hc)
  · intro s hs
    exact new_accept_of hm hq hv hvm hs
  · intro s hs b
    have hclass := class_lt hq.numbered (next_state_lt hv hc hs b)
    rw [← hm.states] at hclass
    unfold next_state at hclass ⊢
    rw [class_row hm hq hv hplain hc hs b]
    unfold next_state
    rw [clean_of_lt (by omega)]
  · exact hs

/-- No two classes behave alike. -/
theorem new_separated (hm : Quotient t q m) (hq : Exact t c q) (hv : t.Valid)
    (hplain : Plain t) (hc : t.class_count = c) {k k' : Nat} (hk : k < m.state_count)
    (hk' : k' < m.state_count)
    (h : (outcome m k : List (Fin c) → _) = outcome m k') : k = k' := by
  rw [hm.states] at hk hk'
  obtain ⟨s, hs, rfl⟩ := exists_class hq.numbered hk
  obtain ⟨s', hs', rfl⟩ := exists_class hq.numbered hk'
  rw [new_outcome hm hq hv hplain hc hs, new_outcome hm hq hv hplain hc hs'] at h
  rw [(hq.same s hs s' hs').mpr h]

end

/-! ## Minimizing again -/

section

variable {t m : TransitionTable} {c : Nat} {w : Width}

/-- Where no two states behave alike, minimization returns no table. -/
theorem minimize_separated (hv : t.Valid) (hplain : Plain t) (hc : t.class_count = c)
    (h : ∀ s < t.state_count, ∀ s' < t.state_count,
      (outcome t s : List (Fin c) → _) = outcome t s' → s = s') :
    t.minimize w = .ok none := by
  by_cases hmany : t.state_count ≤ 1
  · exact minimize_small hmany w
  obtain ⟨num_classes, hgroup⟩ := initial_partition_eq t
  obtain ⟨q, hloop, hq⟩ := refine_loop_exact hv hplain hc num_classes
  obtain ⟨hfull, _⟩ := minimize_of_rounds (by omega) hgroup hloop hq.numbered.len w
  apply hfull
  have hcard : (behaviours t c).ncard = t.state_count := by
    rw [← states_ncard t]
    apply Set.InjOn.ncard_image
    intro s hs s' hs' he
    exact h s hs s' hs' he
  rw [count_exact hq, hcard]

/-- A table that minimization returns is that of the classes. -/
theorem quotient_of_minimize (hv : t.Valid) (hplain : Plain t) (hc : t.class_count = c)
    (h : t.minimize w = .ok (some m)) :
    ∃ q, Exact t c q ∧ Quotient t q m ∧ count q < t.state_count := by
  by_cases hmany : t.state_count ≤ 1
  · rw [minimize_small hmany w] at h
    cases Except.ok.inj h
  obtain ⟨num_classes, hgroup⟩ := initial_partition_eq t
  obtain ⟨q, hloop, hq⟩ := refine_loop_exact hv hplain hc num_classes
  obtain ⟨hfull, hless⟩ := minimize_of_rounds (by omega) hgroup hloop hq.numbered.len w
  by_cases hge : t.state_count ≤ count q
  · rw [hfull hge] at h
    cases Except.ok.inj h
  obtain ⟨hfails, hbuilds⟩ := hless (by omega)
  cases hnew : TransitionTable.new w (count q) t.class_count with
  | error e =>
    rw [hfails e hnew] at h
    cases Except.ok.inj h
  | ok m0 =>
    obtain ⟨h1, h2, h3, h4, _⟩ := TransitionTable.new_ok hnew
    obtain ⟨m', hrun, hm'⟩ := rebuild_eq hq.numbered hv.len hv.accepts h1 h2
      (by rw [h3, List.length_replicate]) h4
    rw [hbuilds m0 hnew, hrun, ok_bind] at h
    obtain rfl := Option.some.inj (Except.ok.inj h)
    exact ⟨q, hq, hm', by omega⟩

end

/-- A table that minimization returns has fewer states, no two of which behave
alike, and among them for each state of the first table one that behaves as it does.
Minimization returns no table for it. -/
theorem minimizing_again_changes_nothing (w : Width) (n c : Nat) (ts : List UInt32)
    (as : List (UInt32 × UInt32)) (ls : List UInt32) (t m : TransitionTable)
    (h : TransitionTable.from_parts w n c ts as ls = .ok t)
    (hplain : ∀ x ∈ ts, flagged x = false) (hmin : t.minimize w = .ok (some m)) :
    m.minimize w = .ok none ∧ m.Valid ∧ Plain m ∧ m.state_count < n ∧
      (∀ s < n, ∃ s' < m.state_count, (outcome m s' : List (Fin c) → _) = outcome t s) ∧
      (outcome m 0 : List (Fin c) → _) = outcome t 0 ∧
      ∀ s < m.state_count, ∀ s' < m.state_count,
        (outcome m s : List (Fin c) → _) = outcome m s' → s = s' := by
  obtain ⟨rfl, hc, rfl, -, -, hv⟩ := TransitionTable.from_parts_ok h
  obtain ⟨q, hq, hm, hless⟩ := quotient_of_minimize hv hplain hc hmin
  have hvm := new_valid hm hq hv hplain hc
  have hpm := new_plain hm hq hv hplain hc
  have hsep := fun k (hk : k < m.state_count) k' (hk' : k' < m.state_count) =>
    new_separated hm hq hv hplain hc hk hk'
  refine ⟨minimize_separated hvm hpm (hm.classes.trans hc) hsep, hvm, hpm, ?_, ?_, ?_, hsep⟩
  · rw [hm.states]
    exact hless
  · intro s hs
    refine ⟨(class_at q s).toNat, ?_, new_outcome hm hq hv hplain hc hs⟩
    rw [hm.states]
    exact class_lt hq.numbered hs
  · have hsome : 0 < t.state_count := by omega
    have hstart := new_outcome hm hq hv hplain hc hsome
    rw [hq.numbered.start hsome] at hstart
    exact hstart

/-- Two states of which neither accepts become one, and then it is the only one. -/
theorem minimizing_two_equal_states_again_changes_nothing :
    ∃ t m : TransitionTable, TransitionTable.from_parts .w64 2 1 [1, 0] [] [] = .ok t ∧
      t.minimize .w64 = .ok (some m) ∧
      m.minimize .w64 = .ok none ∧ m.Valid ∧ Plain m ∧ m.state_count < 2 ∧
      (∀ s < 2, ∃ s' < m.state_count, (outcome m s' : List (Fin 1) → _) = outcome t s) ∧
      (outcome m 0 : List (Fin 1) → _) = outcome t 0 ∧
      ∀ s < m.state_count, ∀ s' < m.state_count,
        (outcome m s : List (Fin 1) → _) = outcome m s' → s = s' := by
  refine ⟨⟨2, 1, [1, 0], [], [], two_states_fit, Nat.one_pos⟩,
    ⟨1, 1, [0], [], [], one_state_fits, Nat.one_pos⟩, rfl, rfl, ?_⟩
  apply minimizing_again_changes_nothing .w64 2 1 [1, 0] [] [] _ _ rfl ?_ rfl
  exact List.forall_mem_cons.mpr ⟨rfl, List.forall_mem_cons.mpr ⟨rfl, fun _ h => by cases h⟩⟩

/-! ## Storing a minimized table -/

/-- Each state has at most one accept entry. -/
theorem accepts_length_le {t : TransitionTable} (hv : t.Valid) :
    t.accept_states.length ≤ t.state_count := by
  have hnodup : (t.accept_states.map fun a => a.1.toNat).Nodup := by
    have h := hv.one_each.map (f := UInt32.toNat) fun a b hab => UInt32.toNat_inj.mp hab
    rwa [List.map_map] at h
  have hsub : t.accept_states.map (fun a => a.1.toNat) ⊆ List.range t.state_count := by
    intro s hs
    obtain ⟨a, ha, rfl⟩ := List.mem_map.mp hs
    exact List.mem_range.mpr (hv.accepts a ha)
  have hle := (List.subperm_of_subset hnodup hsub).length_le
  rwa [List.length_map, List.length_range] at hle

/-- A table that passes the checks of `compile` reads back from its bytes. -/
theorem reads_back {t : TransitionTable} {links : List UInt32} (h : Checked t links)
    (hls : t.pattern_lengths.length < 2 ^ 32) :
    TransitionTable.from_bytes .w64 t.to_bytes = .ok t := by
  have hv := h.valid
  have hbytes := h.bytes
  have haccepts := accepts_length_le hv
  have hstates := t.states_le
  unfold MAX_STATES at hstates
  have hwritten : t.Written := ⟨hv.len, by omega, by omega, hls⟩
  have hsize := TransitionTable.to_bytes_length t
  have hmax : Width.max .w64 = 2 ^ 64 - 1 := rfl
  have hdims := dimensions_fit .w64 t hbytes
  rw [← hv.len] at hdims
  have hread := TransitionTable.from_bytes_of_written .w64 t [] hwritten (by
    rw [List.append_nil, hsize, hv.len, hbytes, hmax]
    omega)
  rw [List.append_nil, TransitionTable.from_parts_of_valid .w64 t hv hdims] at hread
  exact hread

/-- What minimization leaves of a table can be written, read back and compiled, and
then scans as the first table does. -/
theorem a_stored_minimized_table_keeps_every_scan {os os' : Os} {t : TransitionTable} {jit : JitDfa}
    (hjit : JitDfa.compile os t = .ok jit) (hplain : ∀ x ∈ t.transitions, flagged x = false)
    (hls : t.pattern_lengths.length < 2 ^ 32) :
    ∃ r, t.minimize .w64 = .ok r ∧
      ∃ t', TransitionTable.from_bytes .w64 (r.getD t).to_bytes = .ok t' ∧
        (Grants os' t' [] → ∃ jit', JitDfa.compile os' t' = .ok jit') ∧
        ∀ jit', JitDfa.compile os' t' = .ok jit' → SameScans jit jit' := by
  have hch := (compile_with_output_links_ok hjit).1
  obtain ⟨r, hmin, hr⟩ := minimize_found hch
  have hkeeps : Checked (r.getD t) [] ∧ (r.getD t).pattern_lengths = t.pattern_lengths ∧
      ∀ input, table_scan.found t [] input = table_scan.found (r.getD t) [] input := by
    cases r with
    | none => exact ⟨hch, rfl, fun _ => rfl⟩
    | some m =>
      obtain ⟨hchm, hlens, hfound⟩ := hr m rfl
      refine ⟨hchm, hlens, ?_⟩
      intro input
      rw [as_read_plain hch.valid hplain] at hfound
      exact (hfound input).symm
  obtain ⟨hchm, hlens, hfound⟩ := hkeeps
  have hread := reads_back hchm (by rw [hlens]; exact hls)
  refine ⟨r, hmin, r.getD t, hread, fun hos => (compile_accepts hos).mpr hchm, ?_⟩
  intro jit' hjit'
  exact same_scans_of_found hjit hjit' hfound

/-- The table of two exits, stored with one exit. -/
theorem the_stored_table_of_two_exits_keeps_every_scan :
    ∃ jit, JitDfa.compile generous (two_exits 1 2) = .ok jit ∧
      ∃ r, (two_exits 1 2).minimize .w64 = .ok r ∧
        ∃ t', TransitionTable.from_bytes .w64 (r.getD (two_exits 1 2)).to_bytes = .ok t' ∧
          (Grants generous t' [] → ∃ jit', JitDfa.compile generous t' = .ok jit') ∧
          ∀ jit', JitDfa.compile generous t' = .ok jit' → SameScans jit jit' := by
  have hplain : ∀ x ∈ (two_exits 1 2).transitions, flagged x = false := by
    intro x hx
    rcases two_exits_targets hx with rfl | rfl | rfl <;> rfl
  obtain ⟨jit, hjit⟩ := (compile_accepts (two_exits_grants two_exits_checked)).mpr
    two_exits_checked
  have hlens : (two_exits 1 2).pattern_lengths.length = 1 := rfl
  exact ⟨jit, hjit, a_stored_minimized_table_keeps_every_scan hjit hplain (by omega)⟩

end dfajit.minimize_again
