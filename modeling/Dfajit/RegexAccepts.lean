-- The accept entries of a regex table. A state keeps every id that the DFA has
-- at the end of the input, and two ids are more than `compile` takes.
import Dfajit.RegexTable

namespace dfajit.regex_accepts

open error table codegen dfa regex search numbering regex_table

variable {σ : Type} [DecidableEq σ]

/-- The error of `compile` for a state with several accept entries. -/
def MultipleAccepts {α : Type} (r : Res α) : Prop :=
  ∃ state : UInt32, r = invalid s!"state {state} has multiple accept patterns, which is not supported"

/-- No state has two accept entries; the state after a text has the first id that
the DFA has if the input ends there; and `compile` finds no state with several. -/
structure FirstOnly (dfa : DFA σ) (start : σ) (t : TransitionTable) : Prop where
  one_each : (t.accept_states.map (·.1)).Nodup
  first : ∀ w : List UInt8, t.accept_states.filter (·.1 = w.foldl (clean_next t) 0) =
    ((eoi_patterns dfa (w.foldl dfa.next_state start)).take 1).map fun p =>
      (w.foldl (clean_next t) 0, as_u32 p)
  compiles : ∀ os, ¬ MultipleAccepts (JitDfa.compile os t)

/-- After each text, the ids that the DFA has if the input ends there are all the
same. -/
def OneId (dfa : DFA σ) (start : σ) : Prop :=
  ∀ w : List UInt8, ∀ p ∈ eoi_patterns dfa (w.foldl dfa.next_state start),
    (eoi_patterns dfa (w.foldl dfa.next_state start)).head? = some p

section

variable {os : Os} {dfa : DFA σ} {start s : σ} {state_ids : List σ} {t : TransitionTable}

omit [DecidableEq σ] in
theorem entries_length_le_one_iff (i : Nat) :
    (entries dfa s i).length ≤ 1 ↔ ∀ p ∈ eoi_patterns dfa s, (eoi_patterns dfa s).head? = some p := by
  unfold entries
  rw [List.length_map, firsts_length_le_one_iff, List.forall_mem_map, List.head?_map]
  constructor
  · intro h p hp
    obtain ⟨q, hq, he⟩ := Option.map_eq_some_iff.mp (h p hp)
    rw [hq, as_u32_inj.mp he]
  · intro h p hp
    rw [h p hp, Option.map_some]

/-- One entry for each state is one id for each text. -/
theorem one_each_iff (h : Flattened dfa start state_ids t) :
    (t.accept_states.map (·.1)).Nodup ↔ OneId dfa start := by
  have hcount : ∀ x, (t.accept_states.map (·.1)).count x =
      (t.accept_states.filter (·.1 = x)).length := by
    intro x
    rw [List.count_eq_countP, List.countP_map, List.countP_eq_length_filter]
    rfl
  rw [List.nodup_iff_count_le_one]
  constructor
  · intro hone w
    have hmem := h.mem_walk w
    have hle := hone (row_of state_ids (w.foldl dfa.next_state start))
    rw [hcount, h.entries_of hmem] at hle
    exact (entries_length_le_one_iff _).mp hle
  · intro hone x
    rw [hcount]
    by_cases hx : x ∈ t.accept_states.map (·.1)
    · obtain ⟨a, ha, rfl⟩ := List.mem_map.mp hx
      rw [h.accepts] at ha
      obtain ⟨i, s, hs, h1, _⟩ := mem_all_entries.mp ha
      have hmem := List.mem_of_getElem? hs
      obtain ⟨w, rfl⟩ := h.search.mem_iff.mp hmem
      have hrow : a.1 = row_of state_ids (w.foldl dfa.next_state start) := by
        have hidx := h.search.nodup.idxOf_getElem i (List.getElem?_eq_some_iff.mp hs).1
        rw [(List.getElem?_eq_some_iff.mp hs).2] at hidx
        unfold row_of
        rw [h1, hidx]
      rw [hrow, h.entries_of hmem]
      exact (entries_length_le_one_iff _).mpr (hone w)
    · have hnone : t.accept_states.filter (·.1 = x) = [] := by
        rw [List.filter_eq_nil_iff]
        intro a ha
        rw [decide_eq_true_iff]
        rintro rfl
        exact hx (List.mem_map_of_mem ha)
      rw [hnone]
      exact Nat.zero_le _

/-- The code generator has other errors. -/
theorem compile_x86_64_no_invalid (reason : String) :
    compile_x86_64 os t [] ≠ .error (.err (.InvalidTable reason)) := by
  unfold compile_x86_64 compile_interpreted_fallback
  intro h
  split at h
  · cases h
  split at h
  · split at h
    · cases h
    · split at h <;> cases h
  · simp only at h
    split at h
    · cases h
    · split at h <;> cases h

/-- `compile` finds a state with several entries if there is one, and nothing else
that it rejects. -/
theorem multiple_iff (h : Flattened dfa start state_ids t) (os : Os) :
    MultipleAccepts (JitDfa.compile os t) ↔ ¬ (t.accept_states.map (·.1)).Nodup := by
  unfold JitDfa.compile JitDfa.compile_with_output_links
  constructor
  · rintro ⟨state, herr⟩ hnodup
    rw [(check_table_ok _ _ _).mpr (h.checked_iff.mpr hnodup), ok_bind] at herr
    cases hcode : compile_x86_64 os t [] with
    | error e =>
      rw [hcode, error_bind] at herr
      rw [Except.error.inj herr] at hcode
      exact compile_x86_64_no_invalid _ hcode
    | ok code =>
      rw [hcode, ok_bind] at herr
      cases herr
  · intro hdup
    have hchecked : ¬ Checked t [] := fun hch => hdup (h.checked_iff.mp hch)
    have hcheck := mt (check_table_ok .w64 t []).mp hchecked
    have hsome := h.row_lt (h.mem_walk [])
    have htargets : check_transitions t.state_count (t.accept_states.map (·.1)) t.transitions =
        .ok () := (check_transitions_ok _ _ _).mpr h.targets
    unfold check_table at hcheck ⊢
    rw [if_neg (by omega), if_neg (by rw [h.sized.bytes]; simp),
      checked_mul_some (dimensions_fit .w64 t h.sized.bytes)] at hcheck ⊢
    have hlen : t.transitions.length = t.state_count * t.class_count := by
      rw [h.sized.len, h.sized.states, h.sized.bytes]
    simp only [hlen, ne_eq, not_true_eq_false, if_false, false_and, htargets, ok_bind] at hcheck ⊢
    rcases TransitionTable.check_accepts_multiple t.state_count t.pattern_lengths.length
        (List.replicate t.state_count false) t.accept_states List.length_replicate
        (fun a ha => ⟨h.entry_lt ha, h.room a ha⟩) with hok | ⟨state, herr⟩
    · exact absurd hok hcheck
    · refine ⟨state, ?_⟩
      rw [herr]
      rfl

/-- The row of a text has at most the first id, if all its ids are the same. -/
theorem first_of_one (h : Flattened dfa start state_ids t) (hone : OneId dfa start)
    (w : List UInt8) : t.accept_states.filter (·.1 = w.foldl (clean_next t) 0) =
      ((eoi_patterns dfa (w.foldl dfa.next_state start)).take 1).map fun p =>
        (w.foldl (clean_next t) 0, as_u32 p) := by
  have hle := (entries_length_le_one_iff (state_ids.idxOf (w.foldl dfa.next_state start))).mpr
    (hone w)
  unfold entries at hle
  rw [List.length_map] at hle
  rw [h.walk, h.entries_of (h.mem_walk w)]
  unfold entries
  rw [firsts_of_length_le_one hle, ← List.map_take, List.map_map]
  rfl

/-- Past the DFA, the table that is made of it is compiled. -/
theorem from_regex_patterns_of_dfa [Fintype σ]
    {build_many : List String → Except String (DFA σ)} {patterns : List String}
    (hne : patterns ≠ []) (hbuild : build_many patterns = .ok dfa) :
    from_regex_patterns build_many os patterns =
      (regex_table dfa patterns.length >>= fun t => JitDfa.compile os t) := by
  unfold from_regex_patterns
  rw [if_neg (by simpa using hne), hbuild]

theorem from_regex_patterns_eq [Fintype σ] {build_many : List String → Except String (DFA σ)}
    {patterns : List String} (hne : patterns ≠ []) (hbuild : build_many patterns = .ok dfa)
    (htable : regex_table dfa patterns.length = .ok t) :
    from_regex_patterns build_many os patterns = JitDfa.compile os t := by
  rw [from_regex_patterns_of_dfa hne hbuild, htable, ok_bind]

end

/-- The table that `from_regex_patterns` compiles for a DFA with no more states
than a table may have. It has at most one accept entry for each state, the first
id of the end of the input, exactly when after no text the DFA has two different
ids for the end of the input; and otherwise `compile` rejects it. -/
theorem one_accept_for_each_regex_state_exactly_when_one_id [Fintype σ]
    {build_many : List String → Except String (DFA σ)} {patterns : List String} {dfa : DFA σ}
    {start : σ} (hne : patterns ≠ []) (hbuild : build_many patterns = .ok dfa)
    (hstart : dfa.start_state_forward = .ok start)
    (hfit : {s | Reached dfa.next_state start s}.ncard ≤ MAX_STATES) :
    ∃ t, regex_table dfa patterns.length = .ok t ∧
      (∀ os, from_regex_patterns build_many os patterns = JitDfa.compile os t) ∧
      (FirstOnly dfa start t ↔ OneId dfa start) ∧
      ∀ os, MultipleAccepts (JitDfa.compile os t) ↔ ¬ OneId dfa start := by
  obtain ⟨t, state_ids, htable, h⟩ :=
    regex_table_flattened (n := patterns.length) hstart (Or.inl hfit)
  have hmultiple : ∀ os, MultipleAccepts (JitDfa.compile os t) ↔ ¬ OneId dfa start := by
    intro os
    rw [multiple_iff h, one_each_iff h]
  refine ⟨t, htable, fun _ => from_regex_patterns_eq hne hbuild htable, ?_, hmultiple⟩
  constructor
  · exact fun hfirst => (one_each_iff h).mp hfirst.one_each
  · intro hone
    refine ⟨(one_each_iff h).mpr hone, first_of_one h hone, ?_⟩
    intro os hmany
    exact (hmultiple os).mp hmany hone

/-! ## The DFA of one letter -/

theorem some_pattern_id : 0 < 2 ^ 31 - 1 := by decide

def nth_id (i : Nat) : PatternID := ⟨i % (2 ^ 31 - 1), Nat.mod_lt i some_pattern_id⟩

/-- The dense DFA of `k` patterns `a`, or of `k` patterns `a$`. A state tells
whether a match has ended before the last byte, and whether that byte is an `a`;
`none` is the dead state. -/
def letter_a (anchored : Bool) (k : Nat) : DFA (Option (Bool × Bool)) where
  start_state_forward := .ok (some (false, false))
  next_state s byte := s.map fun (_, last) => (last && !anchored, byte == 97)
  next_eoi_state s := s.bind fun (_, last) => if last then some (true, false) else none
  is_match_state s := s.any (·.1)
  match_len _ := k
  match_pattern _ i := nth_id i

theorem letter_a_fits (anchored : Bool) (k : Nat) :
    {s | Reached (letter_a anchored k).next_state (some (false, false)) s}.ncard ≤ MAX_STATES := by
  apply Nat.le_trans (Set.ncard_le_ncard (Set.subset_univ _))
  rw [Set.ncard_univ, Nat.card_eq_fintype_card]
  decide

theorem letter_a_one_id (anchored : Bool) (s : Option (Bool × Bool)) :
    OneId (letter_a anchored 1) s := by
  intro w p hp
  unfold eoi_patterns at hp ⊢
  split
  · rename_i hmatch
    rw [if_pos hmatch] at hp
    obtain ⟨i, hi, rfl⟩ := List.mem_map.mp hp
    have hzero : i = 0 := Nat.lt_one_iff.mp (List.mem_range.mp hi)
    rw [hzero]
    rfl
  · rename_i hmatch
    rw [if_neg hmatch] at hp
    cases hp

/-- The table of one such pattern is compiled. -/
theorem letter_a_compiles (anchored : Bool) (patterns : List String) (hne : patterns ≠ []) :
    ∃ jit, from_regex_patterns (fun _ => .ok (letter_a anchored 1)) generous patterns = .ok jit ∧
      jit.code.ptr = 0x10000 := by
  obtain ⟨t, state_ids, htable, h⟩ := regex_table_flattened (n := patterns.length) rfl
    (Or.inl (letter_a_fits anchored 1))
  have hch := h.checked_iff.mpr ((one_each_iff h).mpr (letter_a_one_id anchored _))
  obtain ⟨jit, hjit⟩ := compile_with_output_links_of_checked
    (generous_grants h.sized.bytes hch.valid.len h.few (Nat.zero_le _)) hch
  refine ⟨jit, ?_, generous_ptr (compile_with_output_links_ok hjit).2⟩
  exact (from_regex_patterns_eq hne rfl htable).trans hjit

/-- The law for the pattern `a` alone. -/
theorem one_accept_for_each_state_of_one_letter :
    ∃ t, regex_table (letter_a false 1) ["a"].length = .ok t ∧
      (∀ os, from_regex_patterns (fun _ => .ok (letter_a false 1)) os ["a"] =
        JitDfa.compile os t) ∧
      (FirstOnly (letter_a false 1) (some (false, false)) t ↔
        OneId (letter_a false 1) (some (false, false))) ∧
      ∀ os, MultipleAccepts (JitDfa.compile os t) ↔
        ¬ OneId (letter_a false 1) (some (false, false)) :=
  one_accept_for_each_regex_state_exactly_when_one_id (by simp) rfl rfl (letter_a_fits false 1)

/-- For `a` and `a` the state after an `a` has two entries, and the constructor
fails on every system. -/
theorem the_same_letter_two_times_is_rejected :
    ∃ t, regex_table (letter_a false 2) ["a", "a"].length = .ok t ∧
      (∃ state, t.accept_states.filter (·.1 = state) = [(state, 0), (state, 1)]) ∧
      ¬ FirstOnly (letter_a false 2) (some (false, false)) t ∧
      ∀ os, MultipleAccepts
        (from_regex_patterns (fun _ => .ok (letter_a false 2)) os ["a", "a"]) := by
  obtain ⟨t, state_ids, htable, h⟩ := regex_table_flattened (n := ["a", "a"].length) rfl
    (Or.inl (letter_a_fits false 2))
  have hafter : eoi_patterns (letter_a false 2)
      ([97].foldl (letter_a false 2).next_state (some (false, false))) = [nth_id 0, nth_id 1] := rfl
  have htwo : ¬ OneId (letter_a false 2) (some (false, false)) := by
    intro hone
    have hhead := hone [97] (nth_id 1)
    rw [hafter] at hhead
    exact absurd (hhead (by simp)) (by decide)
  have hdup := mt (one_each_iff h).mp htwo
  refine ⟨t, htable, ⟨row_of state_ids (some (false, true)), ?_⟩, ?_, ?_⟩
  · have hmem : some (false, true) ∈ state_ids := h.mem_walk [97]
    rw [h.entries_of hmem]
    unfold entries
    have hids : eoi_patterns (letter_a false 2) (some (false, true)) = [nth_id 0, nth_id 1] := hafter
    rw [hids]
    rfl
  · exact fun hfirst => hdup hfirst.one_each
  · intro os
    have hcompile := (multiple_iff h os).mpr hdup
    have heq : from_regex_patterns (fun _ => .ok (letter_a false 2)) os ["a", "a"] =
        JitDfa.compile os t := from_regex_patterns_eq (by simp) rfl htable
    rw [heq]
    exact hcompile

end dfajit.regex_accepts
