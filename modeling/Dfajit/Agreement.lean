-- The three engines agree on every table that `compile` accepts, alone or with
-- the output links that `from_patterns` makes for it.
import Dfajit.PatternScan

namespace dfajit.agreement

open error table codegen table_scan jit_run dfa engines text_tree trie output_links dense_table
  pattern_scan

/-! ## The tables that are run -/

/-- The output links that a table is run with: none, or those that
`from_patterns` made together with it. -/
def RunsWith (t : TransitionTable) (links : List UInt32) : Prop :=
  links = [] ∨ ∃ patterns, pattern_table patterns = .ok (t, links)

section

variable {t : TransitionTable} {links : List UInt32} {patterns : List (List UInt8)}

theorem RunsWith.linked (h : RunsWith t links) (hch : Checked t links) :
    Linked t links ∧ Sparse t links := by
  rcases h with rfl | ⟨patterns, h⟩
  · exact ⟨linked_of_checked hch, sparse_alone⟩
  · have hb := built_of_ok h
    exact ⟨hb.linked, hb.sparse⟩

/-- A table with fewer than 2^31 states has no flag on a transition. -/
theorem Automaton.flags (h : Automaton patterns t links) : FlagsAccept t := by
  intro x hx hflag
  rw [t.flagged_of_state (h.target_lt hx)] at hflag
  cases hflag

/-- The table of the patterns passes the checks of `compile`. -/
theorem Automaton.checked (h : Automaton patterns t links) : Checked t links := by
  have hl := h.linked
  refine ⟨hl.valid, Automaton.flags h, hl.some_state, hl.bytes, Or.inr ?_⟩
  rw [h.links, List.length_map, h.sized.states]

end

/-! ## On a system with memory to give -/

section

variable {t : TransitionTable} {links : List UInt32} {patterns : List (List UInt8)}

theorem Automaton.grants (h : Automaton patterns t links) : Grants generous t links := by
  have hch := Automaton.checked h
  have hlens : t.pattern_lengths.length ≤ 2 ^ 32 := by
    rw [h.lengths, List.length_map]
    exact Nat.le_of_lt h.few
  exact generous_grants hch.bytes hch.valid.len hlens (Checked.links_le hch)

theorem Automaton.compiles (h : Automaton patterns t links) :
    ∃ jit, JitDfa.compile_with_output_links generous t links = .ok jit ∧
      jit.code.ptr = 0x10000 := by
  obtain ⟨jit, hjit⟩ :=
    compile_with_output_links_of_checked (Automaton.grants h) (Automaton.checked h)
  exact ⟨jit, hjit, generous_ptr (compile_with_output_links_ok hjit).2⟩

theorem from_patterns_compiles (hfew : patterns.length < 2 ^ 32) (hne : patterns ≠ [])
    (hstates : (texts patterns).length ≤ MAX_STATES) :
    ∃ jit, JitDfa.from_patterns generous patterns = .ok jit ∧ jit.code.ptr = 0x10000 := by
  obtain ⟨t, links, htable, ha⟩ := pattern_table_automaton hfew hne (Or.inl hstates)
  obtain ⟨jit, hjit, hptr⟩ := Automaton.compiles ha
  refine ⟨jit, ?_, hptr⟩
  unfold JitDfa.from_patterns
  rw [htable]
  exact hjit

theorem fallback_compiles (t : TransitionTable) (links : List UInt32) :
    ∃ code, compile_interpreted_fallback generous t links = .ok code := by
  unfold compile_interpreted_fallback
  split
  · rename_i hmap
    have hroom : generous.mmap page_size = .ok 0x10000 := rfl
    rw [hroom] at hmap
    cases hmap
  · exact ⟨_, rfl⟩

theorem portable_compiles (w : Width) (h : Checked t links) :
    ∃ p, portable.JitDfa.compile_with_output_links w t links = .ok p := by
  unfold portable.JitDfa.compile_with_output_links
  rw [(check_table_ok w t links).mpr h, ok_bind]
  exact ⟨_, rfl⟩

end

/-! ## Agreement -/

theorem portable_compile_ok {w : Width} {t : TransitionTable} {links : List UInt32}
    {p : portable.JitDfa} (h : portable.JitDfa.compile_with_output_links w t links = .ok p) :
    p.table = t ∧ p.output_links = links := by
  obtain ⟨_, _, h⟩ := bind_ok.mp h
  cases h
  exact ⟨rfl, rfl⟩

/-- The emitted code, the interpreter of the code generator and the portable
interpreter return the same counts, and fill every slot alike. -/
theorem the_three_engines_agree {os os' : Os} {w : Width} {t : TransitionTable}
    {links : List UInt32} {jit : JitDfa} {fallback : ExecutableBuffer} {port : portable.JitDfa}
    (hruns : RunsWith t links) (hlens : t.pattern_lengths.length < 2 ^ 32)
    (hstates : t.state_count ≤ MAX_JIT_STATES)
    (hjit : JitDfa.compile_with_output_links os t links = .ok jit)
    (hfallback : compile_interpreted_fallback os' t links = .ok fallback)
    (hportable : portable.JitDfa.compile_with_output_links w t links = .ok port)
    (input : List UInt8) (slots : List Match) (place : Placement jit.code input slots.length) :
    jit.code.is_jit = true ∧
      (∃ count emitted interpreted ported,
        jit.code.scan_jit input slots place = .ok (count, emitted) ∧
        fallback.scan_interpreted input slots = .ok (count, interpreted) ∧
        port.scan_interpreted input slots = .ok (count, ported) ∧
        emitted.map Match.key = interpreted.map Match.key ∧
        interpreted.map Match.key = ported.map Match.key) ∧
      ∃ total,
        jit.code.scan_count_jit input place.no_matches = .ok total ∧
        fallback.scan_count_interpreted input = .ok total ∧
        port.scan_count_interpreted input = .ok total := by
  obtain ⟨hch, hcode⟩ := compile_with_output_links_ok hjit
  obtain ⟨hl, hsp⟩ := hruns.linked hch
  obtain ⟨post, hc⟩ := compile_x86_64_jit hstates hch.bytes hcode
  obtain ⟨hi, _⟩ := interprets_of_fallback hfallback
  obtain ⟨rfl, rfl⟩ := portable_compile_ok hportable
  have hle := Checked.links_le hch
  refine ⟨hc.jit, ⟨_, _, _, _, scan_jit_eq hc hl hstates hle hsp input slots place,
    scan_interpreted_eq hl hi input slots, portable_scan_eq hl input slots, ?_, rfl⟩,
    _, scan_count_jit_eq hc hl hstates hle hsp input place.no_matches,
    scan_count_interpreted_eq hl hi input, portable_scan_count_eq hl hlens input⟩
  exact fill_key _ _ _ _

/-- Three patterns, `abcd`, `bc` and `c`, with links between them. -/
def overlapping : List (List UInt8) := [[97, 98, 99, 100], [98, 99], [99]]

/-- The engines agree on `xabcd`, with room for one match. -/
theorem the_three_engines_agree_on_overlapping_patterns :
    ∃ t links jit fallback port place,
      pattern_table overlapping = .ok (t, links) ∧
      JitDfa.compile_with_output_links generous t links = .ok jit ∧
      compile_interpreted_fallback generous t links = .ok fallback ∧
      portable.JitDfa.compile_with_output_links .w32 t links = .ok port ∧
      (jit.code.is_jit = true ∧
      (∃ count emitted interpreted ported,
        jit.code.scan_jit [120, 97, 98, 99, 100] [Match.from_parts 0 0 0] place =
          .ok (count, emitted) ∧
        fallback.scan_interpreted [120, 97, 98, 99, 100] [Match.from_parts 0 0 0] =
          .ok (count, interpreted) ∧
        port.scan_interpreted [120, 97, 98, 99, 100] [Match.from_parts 0 0 0] =
          .ok (count, ported) ∧
        emitted.map Match.key = interpreted.map Match.key ∧
        interpreted.map Match.key = ported.map Match.key) ∧
      ∃ total,
        jit.code.scan_count_jit [120, 97, 98, 99, 100] place.no_matches = .ok total ∧
        fallback.scan_count_interpreted [120, 97, 98, 99, 100] = .ok total ∧
        port.scan_count_interpreted [120, 97, 98, 99, 100] = .ok total) := by
  have hfew : overlapping.length < 2 ^ 32 := by decide
  obtain ⟨t, links, htable, ha⟩ := pattern_table_automaton hfew (by decide) (Or.inl (by decide))
  obtain ⟨jit, hjit, hptr⟩ := Automaton.compiles ha
  obtain ⟨fallback, hfallback⟩ := fallback_compiles t links
  obtain ⟨port, hport⟩ := portable_compiles .w32 (Automaton.checked ha)
  have hlens : t.pattern_lengths.length < 2 ^ 32 := by
    rw [ha.lengths]
    decide
  have hstates : t.state_count ≤ MAX_JIT_STATES := by
    rw [ha.sized.states]
    decide
  exact ⟨t, links, jit, fallback, port, low_place hptr _ 1 (by decide) (by decide), htable, hjit,
    hfallback, hport, the_three_engines_agree (Or.inr ⟨_, htable⟩) hlens hstates hjit hfallback
      hport _ _ _⟩

end dfajit.agreement
