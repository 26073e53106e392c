-- Scans with regex patterns, told by the DFA of regex-automata alone: the scan looks
-- for the first place where the DFA would have a match if the input ended there,
-- and starts the DFA anew behind it.
import Dfajit.RegexMatches
import Dfajit.RegexLiterals

namespace dfajit.regex_scan

open error table codegen table_scan dfa engines reset_run regex regex_table regex_accepts
  regex_matches regex_literals literals

section

variable {σ : Type}

/-- The id that is reported after a text: the first that the DFA has if the input
ends there. -/
def first_id (dfa : DFA σ) (start : σ) (x : List UInt8) : List UInt32 :=
  ((eoi_patterns dfa (x.foldl dfa.next_state start)).head?.map as_u32).toList

/-- The matches of an input: at each restart the id of the text since the restart
before it. A match starts where it ends, and its place is counted in 32 bits. -/
def matches_of (dfa : DFA σ) (start : σ) (input : List UInt8) : List Key :=
  (cuts (first_id dfa start) input).flatMap fun c =>
    (first_id dfa start (slice input c.1 c.2)).map fun id => (id, .ofNat c.2, .ofNat c.2)

variable [DecidableEq σ] {dfa : DFA σ} {start : σ} {state_ids : List σ} {t : TransitionTable}

theorem match_at_end (hzero : ∀ x ∈ t.pattern_lengths, x = 0) (id : UInt32) {e : Nat}
    (he : 0 < e) : (match_at t.pattern_lengths id (e - 1)).key = (id, .ofNat e, .ofNat e) := by
  have hstart := match_at_zero hzero id (e - 1)
  have hplace : e - 1 + 1 = e := by omega
  have hend : (match_at t.pattern_lengths id (e - 1)).end = .ofNat e := by
    unfold match_at Match.from_parts
    simp only [hplace]
  unfold Match.key
  rw [hstart, hend]
  rfl

theorem found_eq (h : Flattened dfa start state_ids t) (hch : Checked t []) (input : List UInt8) :
    (found t [] input).map Match.key = matches_of dfa start input := by
  have hrep : reportOf (scanner t []) = first_id dfa start := funext (reportOf_eq h hch)
  unfold found matchesOf matches_of
  rw [events_eq_text, events_text, hrep, List.map_flatMap, List.map_flatMap]
  apply List.flatMap_congr
  intro c hc
  obtain ⟨_, hlt, _, _⟩ := (cuts_spec (first_id dfa start) input).mem hc
  have hpos : 0 < c.2 := by omega
  rw [List.map_map, List.map_map]
  apply List.map_congr_left
  intro id _
  exact match_at_end h.zero id hpos

end

/-- On an input of any length all four scans of a DFA of regex patterns return what a
search with the automaton of regex-automata returns. -/
theorem the_scans_of_regex_patterns_are_a_search_with_the_automaton {σ : Type} [DecidableEq σ]
    [Fintype σ] {build_many : List String → Except String (DFA σ)} {os : Os}
    {patterns : List String} {dfa : DFA σ} {start : σ} {jit : JitDfa}
    (hbuild : build_many patterns = .ok dfa) (hstart : dfa.start_state_forward = .ok start)
    (h : from_regex_patterns build_many os patterns = .ok jit) (input : List UInt8)
    (slots : List Match) (place : Placement jit.code input slots.length)
    (place_none : Placement jit.code input 0) (place_one : Placement jit.code input 1) :
    (∃ written,
      jit.scan input slots place =
        .ok (min (matches_of dfa start input).length slots.length, written) ∧
      (written.take (min (matches_of dfa start input).length slots.length)).map Match.key =
        (matches_of dfa start input).take slots.length) ∧
      jit.scan_count input place_none = .ok (matches_of dfa start input).length ∧
      (∃ first, jit.scan_first input place_one = .ok first ∧
        first.map Match.key = (matches_of dfa start input).head?) ∧
      ∃ found, jit.has_match input place_one = .ok found ∧
        (found = true ↔ ∃ u, u ≠ [] ∧ u <+: input ∧
          eoi_patterns dfa (u.foldl dfa.next_state start) ≠ []) := by
  obtain ⟨t, state_ids, hflat, hjit⟩ := from_regex_patterns_ok hbuild hstart h
  have hch := (compile_with_output_links_ok hjit).1
  have hl := linked_of_checked hch
  have hkeys := found_eq hflat hch input
  obtain ⟨hscan, hcount, hfirst, hhas⟩ :=
    scans_of_keys hjit hl sparse_alone hkeys slots place place_none place_one
  refine ⟨hscan, hcount, hfirst, _, hhas, ?_⟩
  rw [decide_eq_true_iff, ← hkeys, ne_eq, List.map_eq_nil_iff]
  exact found_ne_nil_iff hflat hch input

/-- The pattern `a` on `ba`, with room for one match. -/
theorem the_scans_of_one_letter_are_a_search_with_the_automaton :
    ∃ jit place place_none place_one,
      from_regex_patterns (fun _ => .ok (letter_a false 1)) generous ["a"] = .ok jit ∧
      (∃ written,
        jit.scan [98, 97] [Match.from_parts 0 0 0] place =
          .ok (min (matches_of (letter_a false 1) (some (false, false)) [98, 97]).length
            [Match.from_parts 0 0 0].length, written) ∧
        (written.take (min (matches_of (letter_a false 1) (some (false, false)) [98, 97]).length
            [Match.from_parts 0 0 0].length)).map Match.key =
          (matches_of (letter_a false 1) (some (false, false)) [98, 97]).take
            [Match.from_parts 0 0 0].length) ∧
      jit.scan_count [98, 97] place_none =
        .ok (matches_of (letter_a false 1) (some (false, false)) [98, 97]).length ∧
      (∃ first, jit.scan_first [98, 97] place_one = .ok first ∧
        first.map Match.key =
          (matches_of (letter_a false 1) (some (false, false)) [98, 97]).head?) ∧
      ∃ found, jit.has_match [98, 97] place_one = .ok found ∧
        (found = true ↔ ∃ u, u ≠ [] ∧ u <+: [98, 97] ∧
          eoi_patterns (letter_a false 1)
            (u.foldl (letter_a false 1).next_state (some (false, false))) ≠ []) := by
  obtain ⟨jit, hjit, hptr⟩ := letter_a_compiles false ["a"] (by simp)
  exact ⟨jit, low_place hptr _ 1 (by decide) (by decide),
    low_place hptr _ 0 (by decide) (by decide), low_place hptr _ 1 (by decide) (by decide), hjit,
    the_scans_of_regex_patterns_are_a_search_with_the_automaton rfl rfl hjit _ _ _ _ _⟩

end dfajit.regex_scan
