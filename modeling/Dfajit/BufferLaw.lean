-- What a scan does with the match buffer of its caller: the matches go into the
-- first slots, in the order in which they are found, as many as there is room
-- for, and the count is the same for every buffer.
import Dfajit.Agreement

namespace dfajit.buffer_law

open error table codegen table_scan dfa engines trie agreement pattern_scan

/-- The buffer after the matches went into its first slots: these hold the
matches in order, and the slots after them are as they were. -/
structure Buffered (ms slots written : List Match) : Prop where
  len : written.length = slots.length
  first : (written.take (min slots.length ms.length)).map Match.key =
    (ms.map Match.key).take slots.length
  rest : written.drop (min slots.length ms.length) = slots.drop (min slots.length ms.length)

theorem fill_drop (pad : UInt32 → UInt32) (slots ms : List Match) :
    (fill pad slots ms).drop (min slots.length ms.length) =
      slots.drop (min slots.length ms.length) := by
  induction slots generalizing ms with
  | nil => cases ms <;> rfl
  | cons s slots ih =>
    cases ms with
    | nil => rfl
    | cons m ms =>
      simp only [fill, List.length_cons, Nat.add_min_add_right, List.drop_succ_cons, ih]

theorem buffered_fill (pad : UInt32 → UInt32) (slots ms : List Match) :
    Buffered ms slots (fill pad slots ms) := by
  refine ⟨fill_length pad slots ms, ?_, fill_drop pad slots ms⟩
  rw [Nat.min_comm]
  exact fill_take pad slots ms

/-- In a larger buffer the first slots hold the same matches. -/
theorem Buffered.larger {ms slots written larger all : List Match} (h : Buffered ms slots written)
    (h' : Buffered ms larger all) (hle : slots.length ≤ larger.length) :
    (all.take (min slots.length ms.length)).map Match.key =
      (written.take (min slots.length ms.length)).map Match.key := by
  have hmin : min slots.length ms.length =
      min (min slots.length ms.length) (min larger.length ms.length) := by omega
  rw [h.first]
  conv_lhs => rw [hmin, ← List.take_take, List.map_take, h'.first, List.take_take]
  apply List.take_eq_take_iff.mpr
  rw [List.length_map]
  omega

/-- Each scan of a compiled DFA returns the number of matches that its buffer
holds, and fills the first slots with them; a larger buffer holds the same ones
there. The count, the first match and the question whether there is one agree
with them. -/
theorem every_buffer_holds_the_first_matches {os : Os} {t : TransitionTable} {links : List UInt32}
    {jit : JitDfa} (hruns : RunsWith t links)
    (hjit : JitDfa.compile_with_output_links os t links = .ok jit) (input : List UInt8) :
    ∃ ms : List Match,
      (∀ place, jit.scan_count input place = .ok ms.length) ∧
      (∀ slots place, ∃ written,
        jit.scan input slots place = .ok (min slots.length ms.length, written) ∧
        Buffered ms slots written ∧
        ∀ larger place', slots.length ≤ larger.length → ∃ count all,
          jit.scan input larger place' = .ok (count, all) ∧
          (all.take (min slots.length ms.length)).map Match.key =
            (written.take (min slots.length ms.length)).map Match.key) ∧
      (∀ place, jit.scan_first input place = .ok ms.head?) ∧
      ∀ place, jit.has_match input place = .ok (decide (0 < ms.length)) := by
  obtain ⟨hch, _⟩ := compile_with_output_links_ok hjit
  obtain ⟨hl, hsp⟩ := hruns.linked hch
  refine ⟨found t links input, scan_count_eq hjit hl hsp input, ?_,
    scan_first_eq hjit hl hsp input, ?_⟩
  · intro slots place
    have hslots := buffered_fill (paddingOf t) slots (found t links input)
    refine ⟨_, ?_, hslots, ?_⟩
    · rw [scan_eq hjit hl hsp input slots place, Nat.min_comm]
    · intro larger place' hle
      exact ⟨_, _, scan_eq hjit hl hsp input larger place', hslots.larger (buffered_fill _ _ _) hle⟩
  · intro place
    rw [has_match_eq hjit hl hsp input place, decide_eq_decide.mpr List.length_pos_iff.symm]

/-- The law for three linked patterns and the input `xabcd`. -/
theorem every_buffer_holds_the_first_matches_of_overlapping_patterns :
    ∃ t links jit,
      pattern_table overlapping = .ok (t, links) ∧
      JitDfa.compile_with_output_links generous t links = .ok jit ∧
      ∃ ms : List Match,
        (∀ place, jit.scan_count [120, 97, 98, 99, 100] place = .ok ms.length) ∧
        (∀ slots place, ∃ written,
          jit.scan [120, 97, 98, 99, 100] slots place =
            .ok (min slots.length ms.length, written) ∧
          Buffered ms slots written ∧
          ∀ larger place', slots.length ≤ larger.length → ∃ count all,
            jit.scan [120, 97, 98, 99, 100] larger place' = .ok (count, all) ∧
            (all.take (min slots.length ms.length)).map Match.key =
              (written.take (min slots.length ms.length)).map Match.key) ∧
        (∀ place, jit.scan_first [120, 97, 98, 99, 100] place = .ok ms.head?) ∧
        ∀ place, jit.has_match [120, 97, 98, 99, 100] place = .ok (decide (0 < ms.length)) := by
  have hfew : overlapping.length < 2 ^ 32 := by decide
  obtain ⟨t, links, htable, ha⟩ := pattern_table_automaton hfew (by decide) (Or.inl (by decide))
  obtain ⟨jit, hjit, _⟩ := Automaton.compiles ha
  exact ⟨t, links, jit, htable, hjit,
    every_buffer_holds_the_first_matches (Or.inr ⟨_, htable⟩) hjit _⟩

end dfajit.buffer_law
