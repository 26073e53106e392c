-- When two compiled tables scan alike: the first matches of short inputs tell.
import Dfajit.AcceptFlags

namespace dfajit.scan_equivalence

open error table codegen table_scan dfa engines partition alike minimization accept_flags
open reset_run

/-! ## The states of a scan -/

section

variable {t t' : TransitionTable} {input : List UInt8}

theorem start_mem (h : Checked t []) : (scanner t []).start ∈ states t.state_count :=
  (mem_states t.states_le).mpr h.some_state

theorem next_mem (h : Checked t []) {s : UInt32} (hs : s ∈ states t.state_count) (b : UInt8) :
    (scanner t []).next s b ∈ states t.state_count := by
  rw [mem_states t.states_le] at hs ⊢
  exact (linked_of_checked h).next_lt hs b

theorem states_card (n : Nat) : (states n).card ≤ n := by
  unfold states
  apply Nat.le_trans Finset.card_image_le
  rw [Finset.card_range]

theorem reports_length_le (t : TransitionTable) (s : UInt32) : (reports t [] s).length ≤ 1 := by
  rw [reports_alone]
  split <;> simp

/-- The pattern of the first match is the first report. -/
theorem first_pattern_eq (t : TransitionTable) (input : List UInt8) :
    first_pattern t input = ((scanner t []).events input).head?.map (·.1) := by
  unfold first_pattern found matchesOf
  rw [List.head?_map, Option.map_map]
  rfl

/-! ## Short inputs -/

/-- The number of pairs of states bounds the inputs that one has to try. -/
theorem events_eq_of_short (h : Checked t []) (h' : Checked t' [])
    (hfirst : ∀ input : List UInt8, input.length ≤ t.state_count * t'.state_count + 1 →
      first_pattern t input = first_pattern t' input) :
    (scanner t []).events input = (scanner t' []).events input := by
  have hcard := Nat.mul_le_mul (states_card t.state_count) (states_card t'.state_count)
  refine Scanner.events_of_short (start_mem h) (start_mem h') (fun _ => next_mem h)
    (fun _ => next_mem h') (reports_length_le t) (reports_length_le t') ?_ input
  intro as has
  rw [← first_pattern_eq, ← first_pattern_eq]
  exact hfirst as (by omega)

theorem found_eq_of_short (h : Checked t []) (h' : Checked t' [])
    (hlens : t'.pattern_lengths = t.pattern_lengths)
    (hfirst : ∀ input : List UInt8, input.length ≤ t.state_count * t'.state_count + 1 →
      first_pattern t input = first_pattern t' input) :
    found t [] input = found t' [] input := by
  unfold found matchesOf
  rw [events_eq_of_short h h' hfirst, hlens]

theorem pairs_le (t t' : TransitionTable) : t.state_count * t'.state_count + 1 ≤ 2 ^ 32 + 1 := by
  have hle := Nat.mul_le_mul t.states_le t'.states_le
  unfold MAX_STATES at hle
  omega

end

/-- Two tables with the same pattern lengths scan alike just when their first matches
are of the same pattern in each input with at most one byte more than there are pairs
of states. -/
theorem scans_are_alike_exactly_when_short_first_matches_are {os os' : Os}
    {t t' : TransitionTable} {jit jit' : JitDfa} (hvec : t.pattern_lengths.length < 2 ^ 61)
    (hlens : t'.pattern_lengths = t.pattern_lengths) (hjit : JitDfa.compile os t = .ok jit)
    (hjit' : JitDfa.compile os' t' = .ok jit') :
    SameScans jit jit' ↔
      ∀ input : List UInt8, input.length ≤ t.state_count * t'.state_count + 1 →
        ∀ (place : Placement jit.code input 1) (place' : Placement jit'.code input 1),
          ∃ first first', jit.scan_first input place = .ok first ∧
            jit'.scan_first input place' = .ok first' ∧
            first.map Match.pattern_id = first'.map Match.pattern_id := by
  have hch := (compile_with_output_links_ok hjit).1
  have hch' := (compile_with_output_links_ok hjit').1
  have hl := linked_of_checked hch
  have hl' := linked_of_checked hch'
  constructor
  · intro hsame input _ place place'
    exact ⟨_, _, scan_first_eq hjit hl sparse_alone input place,
      scan_first_eq hjit' hl' sparse_alone input place',
      first_of_same_scans hjit hjit' hsame place place'⟩
  · intro hfirst
    apply same_scans_of_found hjit hjit'
    intro input
    apply found_eq_of_short hch hch' hlens
    intro short hshort
    have hfits := Nat.le_trans hshort (pairs_le t t')
    obtain ⟨place⟩ := exists_place hjit hvec short 1 hfits Nat.one_le_two_pow
    obtain ⟨place'⟩ := exists_place hjit' (by rw [hlens]; exact hvec) short 1 hfits
      Nat.one_le_two_pow
    obtain ⟨first, first', hscan, hscan', hids⟩ := hfirst short hshort place place'
    rw [scan_first_eq hjit hl sparse_alone] at hscan
    rw [scan_first_eq hjit' hl' sparse_alone] at hscan'
    obtain rfl := Except.ok.inj hscan
    obtain rfl := Except.ok.inj hscan'
    exact hids

/-- `a` and `b` lead from the start to the two accepting states, either way round. -/
theorem scans_of_two_exits_are_alike_exactly_when_short_first_matches_are :
    ∃ jit jit', JitDfa.compile generous (two_exits 1 2) = .ok jit ∧
      JitDfa.compile generous (two_exits 2 1) = .ok jit' ∧
      (SameScans jit jit' ↔
        ∀ input : List UInt8,
          input.length ≤ (two_exits 1 2).state_count * (two_exits 2 1).state_count + 1 →
          ∀ (place : Placement jit.code input 1) (place' : Placement jit'.code input 1),
            ∃ first first', jit.scan_first input place = .ok first ∧
              jit'.scan_first input place' = .ok first' ∧
              first.map Match.pattern_id = first'.map Match.pattern_id) := by
  have hch : Checked (two_exits 2 1) [] := (check_table_ok .w64 _ _).mp (by decide +kernel)
  obtain ⟨jit, hjit⟩ := (compile_accepts (two_exits_grants two_exits_checked)).mpr
    two_exits_checked
  obtain ⟨jit', hjit'⟩ := (compile_accepts (two_exits_grants hch)).mpr hch
  have hlens : (two_exits 1 2).pattern_lengths.length = 1 := rfl
  exact ⟨jit, jit', hjit, hjit',
    scans_are_alike_exactly_when_short_first_matches_are (by omega) rfl hjit hjit'⟩

end dfajit.scan_equivalence
