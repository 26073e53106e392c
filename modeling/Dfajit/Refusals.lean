-- What the constructors refuse (dfa.rs): each gives a DFA or one error of a few
-- kinds, each kind for a reason of its own, and none of them panics.
import Dfajit.PatternLimit
import Dfajit.RegexAccepts

namespace dfajit.refusals

open error table codegen dfa text_tree pattern_scan pattern_limit search regex regex_table
  regex_accepts

/-! ## Tables -/

/-- Why a table with its links is refused. -/
inductive Refused (os : Os) (t : TransitionTable) (links : List UInt32) : Stop → Prop
  | empty : t.state_count = 0 → Refused os t links (.err .EmptyDfa)
  | unchecked (reason : String) : 0 < t.state_count → ¬ Checked t links →
      Refused os t links (.err (.InvalidTable reason))
  | no_memory (reason : String) : Checked t links → ¬ Obtains os t links →
      Refused os t links (.err (.MemoryAllocation reason))

section

variable {os : Os} {t : TransitionTable} {links : List UInt32}

theorem check_transitions_refuses {n : Nat} {accept_set ts : List UInt32} {stop : Stop}
    (h : check_transitions n accept_set ts = .error stop) :
    ∃ reason, stop = .err (.InvalidTable reason) := by
  induction ts with
  | nil => cases h
  | cons x ts ih =>
    unfold check_transitions at h
    simp only at h
    split at h
    · cases h
      exact ⟨_, rfl⟩
    split at h
    · cases h
      exact ⟨_, rfl⟩
    · exact ih h

theorem check_accepts_refuses {n m : Nat} {seen : List Bool} {as : List (UInt32 × UInt32)}
    {stop : Stop} (hlen : seen.length = n)
    (h : TransitionTable.check_accepts n m seen as = .error stop) :
    ∃ reason, stop = .err (.InvalidTable reason) := by
  induction as generalizing seen with
  | nil => cases h
  | cons a as ih =>
    unfold TransitionTable.check_accepts at h
    split at h
    · cases h
      exact ⟨_, rfl⟩
    have hin : a.1.toNat < seen.length := by omega
    rw [index_ok (List.getElem?_eq_getElem hin), ok_bind] at h
    split at h
    · cases h
      exact ⟨_, rfl⟩
    split at h
    · cases h
      exact ⟨_, rfl⟩
    · exact ih (by simpa using hlen) h

theorem check_table_refuses {w : Width} {stop : Stop} (h : check_table w t links = .error stop) :
    stop = .err .EmptyDfa ∧ t.state_count = 0 ∨
      0 < t.state_count ∧ ∃ reason, stop = .err (.InvalidTable reason) := by
  unfold check_table at h
  split at h
  · rename_i hnone
    cases h
    exact Or.inl ⟨rfl, hnone⟩
  rename_i hsome
  refine Or.inr ⟨by omega, ?_⟩
  split at h
  · cases h
    exact ⟨_, rfl⟩
  split at h
  · cases h
    exact ⟨_, rfl⟩
  split at h
  · cases h
    exact ⟨_, rfl⟩
  split at h
  · cases h
    exact ⟨_, rfl⟩
  cases htrans : check_transitions t.state_count (t.accept_states.map (·.1)) t.transitions with
  | error e =>
    simp only [htrans, error_bind] at h
    rw [Except.error.inj h] at htrans
    exact check_transitions_refuses htrans
  | ok _ =>
    simp only [htrans, ok_bind] at h
    exact check_accepts_refuses List.length_replicate h

theorem compile_refused {stop : Stop}
    (h : JitDfa.compile_with_output_links os t links = .error stop) : Refused os t links stop := by
  by_cases hch : Checked t links
  · obtain ⟨reason, rfl⟩ := compile_with_output_links_refuses hch h
    refine .no_memory reason hch ?_
    intro hos
    obtain ⟨jit, hjit⟩ := compile_with_output_links_iff.mpr ⟨hch, hos⟩
    rw [hjit] at h
    cases h
  · cases hcheck : check_table .w64 t links with
    | ok _ => exact absurd ((check_table_ok _ _ _).mp hcheck) hch
    | error e =>
      unfold JitDfa.compile_with_output_links at h
      rw [hcheck, error_bind] at h
      rw [Except.error.inj h] at hcheck
      rcases check_table_refuses hcheck with ⟨rfl, hnone⟩ | ⟨hsome, reason, rfl⟩
      · exact .empty hnone
      · exact .unchecked reason hsome hch

/-- A table that is not compiled is refused. -/
theorem compile_refused_of_not (h : ¬ (Checked t links ∧ Obtains os t links)) :
    ∃ stop, JitDfa.compile_with_output_links os t links = .error stop ∧
      Refused os t links stop := by
  cases hjit : JitDfa.compile_with_output_links os t links with
  | ok jit => exact absurd (compile_with_output_links_iff.mp ⟨jit, hjit⟩) h
  | error stop => exact ⟨stop, rfl, compile_refused hjit⟩

theorem compile_empty_iff :
    JitDfa.compile_with_output_links os t links = .error (.err .EmptyDfa) ↔
      t.state_count = 0 := by
  constructor
  · intro h
    cases compile_refused h with
    | empty hnone => exact hnone
  · intro hnone
    have hnot : ¬ Checked t links := by
      intro hch
      have hsome := hch.some_state
      omega
    have hneither : ¬ (Checked t links ∧ Obtains os t links) := fun hboth => hnot hboth.1
    obtain ⟨stop, h, hwhy⟩ := compile_refused_of_not hneither
    cases hwhy with
    | empty _ => exact h
    | unchecked _ hsome _ => omega
    | no_memory _ hch _ => exact absurd hch hnot

theorem compile_unchecked_iff :
    (∃ reason, JitDfa.compile_with_output_links os t links =
      .error (.err (.InvalidTable reason))) ↔ 0 < t.state_count ∧ ¬ Checked t links := by
  constructor
  · rintro ⟨reason, h⟩
    cases compile_refused h with
    | unchecked _ hsome hch => exact ⟨hsome, hch⟩
  · rintro ⟨hsome, hnot⟩
    have hneither : ¬ (Checked t links ∧ Obtains os t links) := fun hboth => hnot hboth.1
    obtain ⟨stop, h, hwhy⟩ := compile_refused_of_not hneither
    cases hwhy with
    | empty hnone => omega
    | unchecked reason _ _ => exact ⟨reason, h⟩
    | no_memory _ hch _ => exact absurd hch hnot

theorem compile_no_memory_iff :
    (∃ reason, JitDfa.compile_with_output_links os t links =
      .error (.err (.MemoryAllocation reason))) ↔ Checked t links ∧ ¬ Obtains os t links := by
  constructor
  · rintro ⟨reason, h⟩
    cases compile_refused h with
    | no_memory _ hch hos => exact ⟨hch, hos⟩
  · rintro ⟨hch, hnot⟩
    have hsome := hch.some_state
    have hneither : ¬ (Checked t links ∧ Obtains os t links) := fun hboth => hnot hboth.2
    obtain ⟨stop, h, hwhy⟩ := compile_refused_of_not hneither
    cases hwhy with
    | empty hnone => omega
    | unchecked _ _ hun => exact absurd hch hun
    | no_memory reason _ _ => exact ⟨reason, h⟩

end

/-- A table is compiled exactly if it passes the checks and the system gives the
memory. It is refused with `EmptyDfa` exactly if it has no states, with
`InvalidTable` exactly if it has some and fails a check, and with `MemoryAllocation`
exactly if it passes them and the system does not give the memory. There is no other
end: no `TooManyStates`, and no panic. -/
theorem compile_refuses_for_one_of_three_reasons (os : Os) (t : TransitionTable) :
    ((∃ jit, JitDfa.compile os t = .ok jit) ↔ Checked t [] ∧ Obtains os t []) ∧
    (JitDfa.compile os t = .error (.err .EmptyDfa) ↔ t.state_count = 0) ∧
    ((∃ reason, JitDfa.compile os t = .error (.err (.InvalidTable reason))) ↔
      0 < t.state_count ∧ ¬ Checked t []) ∧
    ((∃ reason, JitDfa.compile os t = .error (.err (.MemoryAllocation reason))) ↔
      Checked t [] ∧ ¬ Obtains os t []) ∧
    ∀ stop, JitDfa.compile os t = .error stop → Refused os t [] stop :=
  ⟨compile_with_output_links_iff, compile_empty_iff, compile_unchecked_iff,
    compile_no_memory_iff, fun _ => compile_refused⟩

/-! ## Patterns -/

/-- What patterns need to be compiled, and their table with its links. -/
structure PatternsTaken (os : Os) (patterns : List (List UInt8)) (t : TransitionTable)
    (links : List UInt32) : Prop where
  some_pattern : patterns ≠ []
  few : (prefixes patterns).card ≤ 65_536
  table : pattern_table patterns = .ok (t, links)
  memory : Obtains os t links

/-- Why patterns are refused. -/
inductive PatternsRefused (os : Os) (patterns : List (List UInt8)) : Stop → Prop
  | empty : patterns = [] → PatternsRefused os patterns (.err .EmptyDfa)
  | too_many : patterns ≠ [] → 65_536 < (prefixes patterns).card →
      PatternsRefused os patterns (.err (.TooManyStates (prefixes patterns).card 65_536))
  | no_memory {t : TransitionTable} {links : List UInt32} (reason : String) :
      pattern_table patterns = .ok (t, links) → ¬ Obtains os t links →
      PatternsRefused os patterns (.err (.MemoryAllocation reason))

section

variable {os : Os} {patterns : List (List UInt8)}

/-- Past the limit, the trie and its links are made, but no table. -/
theorem pattern_table_too_many (hmany : MAX_STATES < (prefixes patterns).card)
    (hfit : (prefixes patterns).card < 2 ^ 32) :
    pattern_table patterns =
      .error (.err (.TooManyStates (prefixes patterns).card MAX_STATES)) := by
  rw [card_prefixes] at hmany hfit ⊢
  have hne : patterns ≠ [] := by
    rintro rfl
    have hone : (texts ([] : List (List UInt8))).length ≤ MAX_STATES := by decide
    omega
  obtain ⟨trie, hbuild, hgrown⟩ := trie.build_trie_grown (Or.inl hfit)
  obtain ⟨fail, accepts, links, hlinks, _⟩ :=
    output_links.build_failure_links_eq hgrown.spells (texts_cover patterns)
  rw [← hgrown.accepts] at hlinks
  unfold pattern_table
  rw [if_neg (by simpa using hne), hbuild, ok_bind]
  simp only [hlinks, ok_bind]
  unfold build_dense_table TransitionTable.new
  rw [hgrown.spells.len]
  simp only [dif_pos hmany]
  rfl

theorem from_patterns_taken_iff (hfew : patterns.length < 2 ^ 32) :
    (∃ jit, JitDfa.from_patterns os patterns = .ok jit) ↔
      ∃ t links, PatternsTaken os patterns t links := by
  rw [from_patterns_ok_iff hfew]
  constructor
  · rintro ⟨t, links, htable, hos⟩
    obtain ⟨hne, hcard⟩ := (pattern_table_iff hfew).mp ⟨_, htable⟩
    exact ⟨t, links, hne, hcard, htable, hos⟩
  · rintro ⟨t, links, h⟩
    exact ⟨t, links, h.table, h.memory⟩

theorem from_patterns_refused (hfew : patterns.length < 2 ^ 32)
    (hfit : (prefixes patterns).card < 2 ^ 32) {stop : Stop}
    (h : JitDfa.from_patterns os patterns = .error stop) : PatternsRefused os patterns stop := by
  by_cases hne : patterns = []
  · subst hne
    cases h
    exact .empty rfl
  by_cases hcard : (prefixes patterns).card ≤ MAX_STATES
  · obtain ⟨⟨t, links⟩, htable⟩ := (pattern_table_iff hfew).mpr ⟨hne, hcard⟩
    obtain ⟨reason, rfl⟩ := from_patterns_refuses hfew hne hcard h
    refine .no_memory reason htable ?_
    intro hos
    obtain ⟨jit, hjit⟩ := (from_patterns_taken_iff hfew).mpr ⟨t, links, hne, hcard, htable, hos⟩
    rw [hjit] at h
    cases h
  · have hmany := Nat.lt_of_not_le hcard
    unfold JitDfa.from_patterns at h
    rw [pattern_table_too_many hmany hfit, error_bind] at h
    cases h
    exact .too_many hne hmany

end

/-- Patterns are compiled exactly if there are some, they have no more prefixes than
a table may have states, and the system gives the memory for their table. Otherwise
they are refused: with `EmptyDfa` if there are none, with `TooManyStates` and the
number of their prefixes if that is past the limit, and with `MemoryAllocation` if
the system does not give the memory. No check of `compile` refuses them, and nothing
panics. -/
theorem from_patterns_refuses_for_one_of_three_reasons (os : Os) {patterns : List (List UInt8)}
    (hfew : patterns.length < 2 ^ 32) (hfit : (prefixes patterns).card < 2 ^ 32) :
    ((∃ jit, JitDfa.from_patterns os patterns = .ok jit) ↔
      ∃ t links, PatternsTaken os patterns t links) ∧
    ∀ stop, JitDfa.from_patterns os patterns = .error stop → PatternsRefused os patterns stop :=
  ⟨from_patterns_taken_iff hfew, fun _ => from_patterns_refused hfew hfit⟩

/-- The patterns `ab` and `abc`. -/
theorem two_patterns_are_refused_for_one_of_three_reasons :
    ((∃ jit, JitDfa.from_patterns generous [[97, 98], [97, 98, 99]] = .ok jit) ↔
      ∃ t links, PatternsTaken generous [[97, 98], [97, 98, 99]] t links) ∧
    ∀ stop, JitDfa.from_patterns generous [[97, 98], [97, 98, 99]] = .error stop →
      PatternsRefused generous [[97, 98], [97, 98, 99]] stop :=
  from_patterns_refuses_for_one_of_three_reasons generous (by decide) (by decide)

/-! ## Regex patterns -/

section

variable {σ : Type} [DecidableEq σ] [Fintype σ]

/-- What regex patterns need to be compiled, with their DFA, its start state and
their table. -/
structure RegexTaken (build_many : List String → Except String (DFA σ)) (os : Os)
    (patterns : List String) (dfa : DFA σ) (start : σ) (t : TransitionTable) : Prop where
  some_pattern : patterns ≠ []
  built : build_many patterns = .ok dfa
  started : dfa.start_state_forward = .ok start
  few : {s | Reached dfa.next_state start s}.ncard ≤ 65_536
  one_id : OneId dfa start
  table : regex_table dfa patterns.length = .ok t
  memory : Obtains os t []

/-- Why regex patterns are refused. -/
inductive RegexRefused (build_many : List String → Except String (DFA σ)) (os : Os)
    (patterns : List String) : Stop → Prop
  | empty : patterns = [] → RegexRefused build_many os patterns (.err .EmptyDfa)
  | no_dfa (error : String) : patterns ≠ [] → build_many patterns = .error error →
      RegexRefused build_many os patterns (.err (.InvalidTable
        s!"failed to compile regex patterns with regex-automata: {error}"))
  | no_start {dfa : DFA σ} (error : String) : patterns ≠ [] → build_many patterns = .ok dfa →
      dfa.start_state_forward = .error error →
      RegexRefused build_many os patterns (.err (.InvalidTable
        s!"failed to compute regex DFA start state: {error}"))
  | too_many {dfa : DFA σ} {start : σ} : patterns ≠ [] → build_many patterns = .ok dfa →
      dfa.start_state_forward = .ok start →
      65_536 < {s | Reached dfa.next_state start s}.ncard →
      RegexRefused build_many os patterns (.err (.TooManyStates
        {s | Reached dfa.next_state start s}.ncard 65_536))
  | several_ids {dfa : DFA σ} {start : σ} (state : UInt32) : patterns ≠ [] →
      build_many patterns = .ok dfa → dfa.start_state_forward = .ok start →
      {s | Reached dfa.next_state start s}.ncard ≤ 65_536 → ¬ OneId dfa start →
      RegexRefused build_many os patterns (.err (.InvalidTable
        s!"state {state} has multiple accept patterns, which is not supported"))
  | no_memory {dfa : DFA σ} {start : σ} {t : TransitionTable} (reason : String) :
      patterns ≠ [] → build_many patterns = .ok dfa → dfa.start_state_forward = .ok start →
      OneId dfa start → regex_table dfa patterns.length = .ok t → ¬ Obtains os t [] →
      RegexRefused build_many os patterns (.err (.MemoryAllocation reason))

variable {build_many : List String → Except String (DFA σ)} {os : Os} {patterns : List String}
  {dfa : DFA σ} {start : σ}

theorem regex_table_too_many {n : Nat} (hstart : dfa.start_state_forward = .ok start)
    (hmany : MAX_STATES < {s | Reached dfa.next_state start s}.ncard) :
    regex_table dfa n = .error (.err (.TooManyStates
      {s | Reached dfa.next_state start s}.ncard MAX_STATES)) := by
  obtain ⟨found, hsearch, _, hfront⟩ := search_states_spec dfa start
  unfold regex_table
  simp only [hstart, hsearch, ok_bind]
  rw [← hfront.length_eq] at hmany ⊢
  unfold TransitionTable.new
  rw [dif_pos hmany]
  rfl

theorem regex_table_no_start {n : Nat} {error : String}
    (hstart : dfa.start_state_forward = .error error) :
    regex_table dfa n = invalid s!"failed to compute regex DFA start state: {error}" := by
  unfold regex_table
  rw [hstart]

/-- A table has few states, and all of them were found from the start state. -/
theorem regex_table_ok {n : Nat} {t : TransitionTable} (h : regex_table dfa n = .ok t) :
    ∃ start state_ids, dfa.start_state_forward = .ok start ∧
      {s | Reached dfa.next_state start s}.ncard ≤ MAX_STATES ∧
      Flattened dfa start state_ids t := by
  cases hstart : dfa.start_state_forward with
  | error error =>
    rw [regex_table_no_start hstart] at h
    cases h
  | ok start =>
    have hfew : {s | Reached dfa.next_state start s}.ncard ≤ MAX_STATES := by
      by_contra hmany
      rw [regex_table_too_many hstart (Nat.lt_of_not_le hmany)] at h
      cases h
    obtain ⟨t', state_ids, htable, hflat⟩ := regex_table_flattened (n := n) hstart (Or.inl hfew)
    rw [h] at htable
    obtain rfl := Except.ok.inj htable
    exact ⟨start, state_ids, rfl, hfew, hflat⟩

theorem from_regex_patterns_no_dfa {error : String} (hne : patterns ≠ [])
    (hbuild : build_many patterns = .error error) :
    from_regex_patterns build_many os patterns =
      invalid s!"failed to compile regex patterns with regex-automata: {error}" := by
  unfold from_regex_patterns
  rw [if_neg (by simpa using hne), hbuild]

theorem from_regex_patterns_compiled {jit : JitDfa}
    (h : from_regex_patterns build_many os patterns = .ok jit) :
    patterns ≠ [] ∧ ∃ dfa t, build_many patterns = .ok dfa ∧
      regex_table dfa patterns.length = .ok t ∧ JitDfa.compile os t = .ok jit := by
  by_cases hne : patterns = []
  · subst hne
    cases h
  cases hbuild : build_many patterns with
  | error error =>
    rw [from_regex_patterns_no_dfa hne hbuild] at h
    cases h
  | ok dfa =>
    rw [from_regex_patterns_of_dfa hne hbuild] at h
    obtain ⟨t, htable, h⟩ := bind_ok.mp h
    exact ⟨hne, dfa, t, rfl, htable, h⟩

/-- One id for each text is what the checks of `compile` need of the table. -/
theorem from_regex_patterns_taken_iff :
    (∃ jit, from_regex_patterns build_many os patterns = .ok jit) ↔
      ∃ dfa start t, RegexTaken build_many os patterns dfa start t := by
  constructor
  · rintro ⟨jit, h⟩
    obtain ⟨hne, dfa, t, hbuild, htable, hjit⟩ := from_regex_patterns_compiled h
    obtain ⟨start, state_ids, hstart, hfew, hflat⟩ := regex_table_ok htable
    obtain ⟨hch, hos⟩ := compile_with_output_links_iff.mp ⟨jit, hjit⟩
    exact ⟨dfa, start, t, hne, hbuild, hstart, hfew,
      (one_each_iff hflat).mp (hflat.checked_iff.mp hch), htable, hos⟩
  · rintro ⟨dfa, start, t, h⟩
    obtain ⟨t', state_ids, htable, hflat⟩ :=
      regex_table_flattened (n := patterns.length) h.started (Or.inl h.few)
    rw [h.table] at htable
    obtain rfl := Except.ok.inj htable
    rw [from_regex_patterns_eq h.some_pattern h.built h.table]
    exact compile_with_output_links_iff.mpr
      ⟨hflat.checked_iff.mpr ((one_each_iff hflat).mpr h.one_id), h.memory⟩

theorem from_regex_patterns_refused {stop : Stop}
    (h : from_regex_patterns build_many os patterns = .error stop) :
    RegexRefused build_many os patterns stop := by
  by_cases hne : patterns = []
  · subst hne
    cases h
    exact .empty rfl
  cases hbuild : build_many patterns with
  | error error =>
    rw [from_regex_patterns_no_dfa hne hbuild] at h
    cases h
    exact .no_dfa error hne hbuild
  | ok dfa =>
    cases hstart : dfa.start_state_forward with
    | error error =>
      rw [from_regex_patterns_of_dfa hne hbuild, regex_table_no_start hstart] at h
      cases h
      exact .no_start error hne hbuild hstart
    | ok start =>
      by_cases hfew : {s | Reached dfa.next_state start s}.ncard ≤ MAX_STATES
      · obtain ⟨t, state_ids, htable, hflat⟩ :=
          regex_table_flattened (n := patterns.length) hstart (Or.inl hfew)
        rw [from_regex_patterns_eq hne hbuild htable] at h
        -- the table has a state, and its targets and flags pass the checks
        have hsome := hflat.row_lt (hflat.mem_walk [])
        cases compile_refused h with
        | empty hnone => omega
        | unchecked reason _ hch =>
          have hdup := mt hflat.checked_iff.mpr hch
          obtain ⟨state, herr⟩ := (multiple_iff hflat os).mpr hdup
          rw [herr] at h
          cases h
          exact .several_ids state hne hbuild hstart hfew (mt (one_each_iff hflat).mpr hdup)
        | no_memory reason hch hos =>
          have hone := (one_each_iff hflat).mp (hflat.checked_iff.mp hch)
          exact .no_memory reason hne hbuild hstart hone htable hos
      · have hmany := Nat.lt_of_not_le hfew
        rw [from_regex_patterns_of_dfa hne hbuild, regex_table_too_many hstart hmany,
          error_bind] at h
        cases h
        exact .too_many hne hbuild hstart hmany

/-- Regex patterns are compiled exactly if there are some, regex-automata gives a DFA
and a start state, the DFA has no more states than a table may have, no two ids end
at one of them, and the system gives the memory. Otherwise they are refused, with an
error that tells which of these fails. No transition goes to an undiscovered state,
the search comes to an end, and nothing panics. -/
theorem from_regex_patterns_refuses_for_one_of_six_reasons
    (build_many : List String → Except String (DFA σ)) (os : Os) (patterns : List String) :
    ((∃ jit, from_regex_patterns build_many os patterns = .ok jit) ↔
      ∃ dfa start t, RegexTaken build_many os patterns dfa start t) ∧
    ∀ stop, from_regex_patterns build_many os patterns = .error stop →
      RegexRefused build_many os patterns stop :=
  ⟨from_regex_patterns_taken_iff, fun _ => from_regex_patterns_refused⟩

end

end dfajit.refusals
