-- Which pattern lists `from_patterns` takes (dfa.rs): those with no more
-- prefixes than a table may have states.
import Mathlib.Data.Finset.Card
import Dfajit.Agreement

namespace dfajit.pattern_limit

open error table codegen dfa text_tree pattern_scan

/-! ## The prefixes of the patterns -/

/-- The prefixes of the patterns, and the empty text. -/
def prefixes (patterns : List (List UInt8)) : Finset (List UInt8) :=
  insert [] (patterns.flatMap List.inits).toFinset

section

variable {patterns : List (List UInt8)}

theorem mem_prefixes {v : List UInt8} :
    v ∈ prefixes patterns ↔ v = [] ∨ ∃ p ∈ patterns, v <+: p := by
  unfold prefixes
  rw [Finset.mem_insert, List.mem_toFinset, List.mem_flatMap]
  simp only [List.mem_inits]

/-- The trie has one text for each prefix. -/
theorem prefixes_eq (patterns : List (List UInt8)) :
    prefixes patterns = (texts patterns).toFinset := by
  ext v
  rw [mem_prefixes, List.mem_toFinset, mem_texts]

theorem card_prefixes (patterns : List (List UInt8)) :
    (prefixes patterns).card = (texts patterns).length := by
  rw [prefixes_eq, List.toFinset_card_of_nodup (texts_tree patterns).nodup]

end

/-! ## The limit -/

/-- `mmap` and `mprotect` succeed where the patterns are compiled. -/
def Lends (os : Os) (patterns : List (List UInt8)) : Prop :=
  ∀ t links, pattern_table patterns = .ok (t, links) → Grants os t links

section

variable {patterns : List (List UInt8)} {t : TransitionTable} {links : List UInt32} {os : Os}

theorem pattern_table_states (h : pattern_table patterns = .ok (t, links)) :
    t.state_count = (prefixes patterns).card := by
  rw [(built_of_ok h).sized.states, card_prefixes]

/-- A table is made just within the limit. -/
theorem pattern_table_iff (hfew : patterns.length < 2 ^ 32) :
    (∃ r, pattern_table patterns = .ok r) ↔
      patterns ≠ [] ∧ (prefixes patterns).card ≤ MAX_STATES := by
  constructor
  · rintro ⟨⟨t, links⟩, h⟩
    refine ⟨pattern_table_ne_nil h, ?_⟩
    rw [← pattern_table_states h]
    exact t.states_le
  · rintro ⟨hne, hcard⟩
    rw [card_prefixes] at hcard
    obtain ⟨t, links, h, _⟩ := pattern_table_automaton hfew hne (Or.inl hcard)
    exact ⟨_, h⟩

theorem pattern_table_checked (hfew : patterns.length < 2 ^ 32)
    (h : pattern_table patterns = .ok (t, links)) : Checked t links :=
  agreement.Automaton.checked (automaton_of_ok hfew h)

theorem from_patterns_ok {jit : JitDfa} (h : JitDfa.from_patterns os patterns = .ok jit) :
    ∃ t links, pattern_table patterns = .ok (t, links) ∧
      JitDfa.compile_with_output_links os t links = .ok jit := by
  obtain ⟨⟨t, links⟩, htable, hjit⟩ := bind_ok.mp h
  exact ⟨t, links, htable, hjit⟩

/-- The table of the patterns passes the checks, so that only the memory decides. -/
theorem from_patterns_ok_iff (hfew : patterns.length < 2 ^ 32) :
    (∃ jit, JitDfa.from_patterns os patterns = .ok jit) ↔
      ∃ t links, pattern_table patterns = .ok (t, links) ∧ Obtains os t links := by
  constructor
  · rintro ⟨jit, h⟩
    obtain ⟨t, links, htable, hjit⟩ := from_patterns_ok h
    exact ⟨t, links, htable, (compile_with_output_links_iff.mp ⟨jit, hjit⟩).2⟩
  · rintro ⟨t, links, htable, hos⟩
    unfold JitDfa.from_patterns
    rw [htable, ok_bind]
    exact compile_with_output_links_iff.mpr ⟨pattern_table_checked hfew htable, hos⟩

/-- Where the system has memory to give, the limit decides. -/
theorem from_patterns_iff (hfew : patterns.length < 2 ^ 32) (hos : Lends os patterns) :
    (∃ jit, JitDfa.from_patterns os patterns = .ok jit) ↔
      patterns ≠ [] ∧ (prefixes patterns).card ≤ MAX_STATES := by
  rw [← pattern_table_iff hfew, from_patterns_ok_iff hfew]
  constructor
  · rintro ⟨t, links, htable, _⟩
    exact ⟨_, htable⟩
  · rintro ⟨⟨t, links⟩, htable⟩
    exact ⟨t, links, htable, (hos t links htable).obtains⟩

/-- Within the limit patterns are refused only for want of memory. -/
theorem from_patterns_refuses (hfew : patterns.length < 2 ^ 32) (hne : patterns ≠ [])
    (hcard : (prefixes patterns).card ≤ MAX_STATES) {stop : Stop}
    (h : JitDfa.from_patterns os patterns = .error stop) :
    ∃ reason, stop = .err (.MemoryAllocation reason) := by
  obtain ⟨⟨t, links⟩, htable⟩ := (pattern_table_iff hfew).mpr ⟨hne, hcard⟩
  unfold JitDfa.from_patterns at h
  rw [htable, ok_bind] at h
  exact compile_with_output_links_refuses (pattern_table_checked hfew htable) h

theorem from_patterns_states {jit : JitDfa} (h : JitDfa.from_patterns os patterns = .ok jit) :
    jit.state_count = (prefixes patterns).card := by
  obtain ⟨t, links, htable, hjit⟩ := from_patterns_ok h
  obtain ⟨_, _, hjit⟩ := bind_ok.mp hjit
  obtain ⟨code, _, hjit⟩ := bind_ok.mp hjit
  cases hjit
  exact pattern_table_states htable

/-- Patterns are compiled exactly when there are some and they have at most
65536 prefixes. Then no check of `compile` fails, on any system, and the DFA has
one state for each prefix. -/
theorem from_patterns_succeeds_exactly_within_the_state_limit (hfew : patterns.length < 2 ^ 32)
    (hos : Lends os patterns) :
    ((∃ jit, JitDfa.from_patterns os patterns = .ok jit) ↔
      patterns ≠ [] ∧ (prefixes patterns).card ≤ 65_536) ∧
    (patterns ≠ [] → (prefixes patterns).card ≤ 65_536 →
      (∃ t links, pattern_table patterns = .ok (t, links) ∧ check_table .w64 t links = .ok ()) ∧
      ∀ os' stop, JitDfa.from_patterns os' patterns = .error stop →
        ∃ reason, stop = .err (.MemoryAllocation reason)) ∧
    ∀ jit, JitDfa.from_patterns os patterns = .ok jit →
      jit.state_count = (prefixes patterns).card := by
  refine ⟨from_patterns_iff hfew hos, ?_, ?_⟩
  · intro hne hcard
    refine ⟨?_, ?_⟩
    · obtain ⟨⟨t, links⟩, htable⟩ := (pattern_table_iff hfew).mpr ⟨hne, hcard⟩
      exact ⟨t, links, htable, (check_table_ok _ _ _).mpr (pattern_table_checked hfew htable)⟩
    · intro os' stop
      exact from_patterns_refuses hfew hne hcard
  · intro jit
    exact from_patterns_states

theorem generous_lends (hfew : patterns.length < 2 ^ 32) : Lends generous patterns := by
  intro t links htable
  exact agreement.Automaton.grants (automaton_of_ok hfew htable)

end

/-- Two patterns, `ab` and `abc`, with three prefixes and the empty one. -/
def nested : List (List UInt8) := [[97, 98], [97, 98, 99]]

/-- `nested` is within the limit. -/
theorem from_patterns_takes_nested_patterns :
    (prefixes nested).card = 4 ∧
    ((∃ jit, JitDfa.from_patterns generous nested = .ok jit) ↔
      nested ≠ [] ∧ (prefixes nested).card ≤ 65_536) ∧
    (nested ≠ [] → (prefixes nested).card ≤ 65_536 →
      (∃ t links, pattern_table nested = .ok (t, links) ∧ check_table .w64 t links = .ok ()) ∧
      ∀ os' stop, JitDfa.from_patterns os' nested = .error stop →
        ∃ reason, stop = .err (.MemoryAllocation reason)) ∧
    ∀ jit, JitDfa.from_patterns generous nested = .ok jit →
      jit.state_count = (prefixes nested).card :=
  ⟨by decide, from_patterns_succeeds_exactly_within_the_state_limit (by decide)
    (generous_lends (by decide))⟩

end dfajit.pattern_limit
