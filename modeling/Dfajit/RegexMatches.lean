-- Matches of a regex table. The table accepts where the DFA would match if the
-- input ended there, while the DFA itself tells a match one byte later, or at the
-- end of the input.
import Dfajit.Lib.ShortRun
import Dfajit.Agreement
import Dfajit.RegexAccepts

namespace dfajit.regex_matches

open error table codegen table_scan dfa engines reset_run regex search numbering regex_table
  regex_accepts

variable {σ : Type} [DecidableEq σ]

/-! ## What a scan reports -/

section

variable {os : Os} {dfa : DFA σ} {start s : σ} {state_ids : List σ} {t : TransitionTable}
  {jit : JitDfa}

/-- What `from_regex_patterns` compiles. -/
theorem from_regex_patterns_ok [Fintype σ] {build_many : List String → Except String (DFA σ)}
    {patterns : List String} (hbuild : build_many patterns = .ok dfa)
    (hstart : dfa.start_state_forward = .ok start)
    (h : from_regex_patterns build_many os patterns = .ok jit) :
    ∃ t state_ids, Flattened dfa start state_ids t ∧
      JitDfa.compile_with_output_links os t [] = .ok jit := by
  by_cases hne : patterns = []
  · subst hne
    cases h
  rw [from_regex_patterns_of_dfa hne hbuild] at h
  obtain ⟨t, htable, h⟩ := bind_ok.mp h
  obtain ⟨t', state_ids, htable', hflat⟩ :=
    regex_table_flattened (n := patterns.length) hstart (Or.inr ⟨t, htable⟩)
  rw [htable] at htable'
  obtain rfl := Except.ok.inj htable'
  exact ⟨t, state_ids, hflat, h⟩

/-- The pattern of a row is the first id of the end of the input. -/
theorem pattern_of_row (h : Flattened dfa start state_ids t) (hch : Checked t [])
    (hs : s ∈ state_ids) :
    pattern_of t (row_of state_ids s) = ((eoi_patterns dfa s).head?.map as_u32).getD NONE := by
  have hentries := h.entries_of hs
  cases hids : eoi_patterns dfa s with
  | nil =>
    by_contra hpat
    have hmem := pattern_of_mem hpat
    have hin : (row_of state_ids s, pattern_of t (row_of state_ids s)) ∈
        t.accept_states.filter (·.1 = row_of state_ids s) :=
      List.mem_filter.mpr ⟨hmem, decide_eq_true rfl⟩
    rw [hentries] at hin
    unfold entries at hin
    rw [hids] at hin
    cases hin
  | cons p ps =>
    have hin : (row_of state_ids s, as_u32 p) ∈ t.accept_states := by
      have hentry : (row_of state_ids s, as_u32 p) ∈ entries dfa s (state_ids.idxOf s) := by
        unfold entries
        refine List.mem_map.mpr ⟨as_u32 p, mem_firsts.mpr ?_, rfl⟩
        rw [hids]
        exact List.mem_map_of_mem List.mem_cons_self
      rw [← hentries] at hentry
      exact (List.mem_filter.mp hentry).1
    unfold pattern_of
    rw [accept_table_of_mem hch.valid.one_each hin (h.row_lt hs)]
    rfl

/-- After a text the first id of the end of the input is reported. -/
theorem reportOf_eq (h : Flattened dfa start state_ids t) (hch : Checked t []) (w : List UInt8) :
    reportOf (scanner t []) w =
      ((eoi_patterns dfa (w.foldl dfa.next_state start)).head?.map as_u32).toList := by
  have hwalk : (scanner t []).walk 0 w = row_of state_ids (w.foldl dfa.next_state start) := h.walk w
  unfold reportOf
  rw [scanner_start, hwalk, scanner_out, reports_alone, pattern_of_row h hch (h.mem_walk w)]
  cases (eoi_patterns dfa (w.foldl dfa.next_state start)).head? with
  | none => rfl
  | some p =>
    simp only [Option.map_some, Option.getD_some, Option.toList_some]
    rw [if_neg (as_u32_ne_none p)]

/-- A scan finds a match just when the DFA has an id for the end of some beginning
of the input. -/
theorem found_ne_nil_iff (h : Flattened dfa start state_ids t) (hch : Checked t [])
    (input : List UInt8) : found t [] input ≠ [] ↔
      ∃ u, u ≠ [] ∧ u <+: input ∧ eoi_patterns dfa (u.foldl dfa.next_state start) ≠ [] := by
  have hout : ∀ u, (scanner t []).out ((scanner t []).walk (scanner t []).start u) ≠ [] ↔
      eoi_patterns dfa (u.foldl dfa.next_state start) ≠ [] := by
    intro u
    have hrep := reportOf_eq h hch u
    unfold reportOf at hrep
    rw [hrep]
    cases eoi_patterns dfa (u.foldl dfa.next_state start) <;> simp
  unfold found matchesOf
  rw [Ne, List.map_eq_nil_iff]
  unfold Scanner.events
  rw [← Ne, Scanner.eventsFrom_ne_nil_iff]
  exact exists_congr fun u => and_congr_right fun _ => and_congr_right fun _ => hout u

end

/-! ## Matches of the DFA -/

/-- A match ends with the text that led to this state, if the input does. -/
def EndsHere (dfa : DFA σ) (s : σ) : Prop := dfa.is_match_state (dfa.next_eoi_state s) = true

/-- The contract of the automaton: a match ends at `p` before the end of the input
when the state after the byte at `p` is a match state, and at the end of the input
when the end-of-input state is one. -/
def MatchEnds (dfa : DFA σ) (start : σ) (input : List UInt8) (p : Nat) : Prop :=
  (p < input.length ∧
    dfa.is_match_state ((input.take (p + 1)).foldl dfa.next_state start) = true) ∨
  (p = input.length ∧ EndsHere dfa (input.foldl dfa.next_state start))

/-- Where a match would end with a text, one more byte leaves a match in the text. -/
def EndsStay (dfa : DFA σ) (start : σ) : Prop :=
  ∀ (u : List UInt8) (b : UInt8), u ≠ [] → EndsHere dfa (u.foldl dfa.next_state start) →
    ∃ p, MatchEnds dfa start (u ++ [b]) p

/-- Where a match has ended inside a text, one would end with some beginning of it. -/
def EndsSeen (dfa : DFA σ) (start : σ) : Prop :=
  ∀ v : List UInt8, v ≠ [] → dfa.is_match_state (v.foldl dfa.next_state start) = true →
    ∃ u, u ≠ [] ∧ u <+: v ∧ EndsHere dfa (u.foldl dfa.next_state start)

section

variable {dfa : DFA σ} {start s : σ} {input : List UInt8} {t : TransitionTable}

omit [DecidableEq σ] in
theorem match_ends_iff : (∃ p, MatchEnds dfa start input p) ↔
    (∃ v, v ≠ [] ∧ v <+: input ∧ dfa.is_match_state (v.foldl dfa.next_state start) = true) ∨
      EndsHere dfa (input.foldl dfa.next_state start) := by
  constructor
  · rintro ⟨p, ⟨hp, hmatch⟩ | ⟨_, hends⟩⟩
    · refine Or.inl ⟨input.take (p + 1), ?_, List.take_prefix _ _, hmatch⟩
      apply List.ne_nil_of_length_pos
      rw [List.length_take]
      omega
    · exact Or.inr hends
  · rintro (⟨v, hv, hpre, hmatch⟩ | hends)
    · have hpos := List.length_pos_iff.mpr hv
      have hle := hpre.length_le
      refine ⟨v.length - 1, Or.inl ⟨by omega, ?_⟩⟩
      rw [Nat.sub_add_cancel hpos, ← List.prefix_iff_eq_take.mp hpre]
      exact hmatch
    · exact ⟨_, Or.inr ⟨rfl, hends⟩⟩

omit [DecidableEq σ] in
theorem eoi_patterns_ne_nil_iff
    (hmatch : ∀ s, dfa.is_match_state s = true → 0 < dfa.match_len s) :
    eoi_patterns dfa s ≠ [] ↔ EndsHere dfa s := by
  unfold eoi_patterns EndsHere
  split
  · rename_i his
    have hpos := hmatch _ his
    refine iff_of_true ?_ his
    rw [Ne, List.map_eq_nil_iff, List.range_eq_nil]
    omega
  · rename_i his
    exact iff_of_false (fun h => h rfl) his

omit [DecidableEq σ] in
/-- Under the two conditions, the DFA has a match in an input just when it would
match with some beginning of it. -/
theorem match_iff_beginning (hempty : ¬ EndsHere dfa start) (hstay : EndsStay dfa start)
    (hseen : EndsSeen dfa start) :
    (∃ p, MatchEnds dfa start input p) ↔
      ∃ u, u ≠ [] ∧ u <+: input ∧ EndsHere dfa (u.foldl dfa.next_state start) := by
  constructor
  · intro h
    rcases match_ends_iff.mp h with ⟨v, hv, hpre, hmatch⟩ | hends
    · obtain ⟨u, hu, hpre', hends⟩ := hseen v hv hmatch
      exact ⟨u, hu, hpre'.trans hpre, hends⟩
    · refine ⟨input, ?_, List.prefix_refl input, hends⟩
      rintro rfl
      exact hempty hends
  · rintro ⟨u, hu, ⟨w, rfl⟩, hends⟩
    -- the match is carried on from byte to byte
    induction w using List.reverseRecOn with
    | nil =>
      rw [List.append_nil]
      exact match_ends_iff.mpr (Or.inr hends)
    | append_singleton w b ih =>
      rw [← List.append_assoc]
      rcases match_ends_iff.mp ih with ⟨v, hv, hpre, hmatch⟩ | hnow
      · exact match_ends_iff.mpr
          (Or.inl ⟨v, hv, hpre.trans (List.prefix_append _ _), hmatch⟩)
      · exact hstay (u ++ w) b (by simp [hu]) hnow

omit [DecidableEq σ] in
/-- Where the first condition fails, it fails on a short text. -/
theorem exists_short_stray {S : Finset σ} (hS : ∀ s ∈ S, ∀ b, dfa.next_state s b ∈ S)
    (hs : start ∈ S) (hempty : ¬ EndsHere dfa start) {u : List UInt8} {b : UInt8}
    (hends : EndsHere dfa (u.foldl dfa.next_state start))
    (hnone : ¬ ∃ p, MatchEnds dfa start (u ++ [b]) p) :
    ∃ u', u'.length ≤ S.card ∧ u' ≠ [] ∧ EndsHere dfa (u'.foldl dfa.next_state start) ∧
      ¬ ∃ p, MatchEnds dfa start (u' ++ [b]) p := by
  rw [match_ends_iff, not_or] at hnone
  obtain ⟨hquiet, hnow⟩ := hnone
  obtain ⟨u', hlen, hsame, hok⟩ := short_run.exists_short_word (w := u) hS hs
    (P := fun s => dfa.is_match_state s ≠ true) (by
      intro v hv hpre hmatch
      exact hquiet ⟨v, hv, hpre.trans (List.prefix_append _ _), hmatch⟩)
  have hlast : (u' ++ [b]).foldl dfa.next_state start = (u ++ [b]).foldl dfa.next_state start := by
    rw [List.foldl_append, List.foldl_append, hsame]
  refine ⟨u', hlen, ?_, by rw [hsame]; exact hends, ?_⟩
  · rintro rfl
    rw [← hsame] at hends
    exact hempty hends
  · rw [match_ends_iff, not_or, hlast]
    refine ⟨?_, hnow⟩
    rintro ⟨v, hv, hpre, hmatch⟩
    rcases List.prefix_concat_iff.mp hpre with rfl | hpre
    · rw [hlast] at hmatch
      exact hquiet ⟨u ++ [b], by simp, List.prefix_refl _, hmatch⟩
    · exact hok v hv hpre hmatch

omit [DecidableEq σ] in
/-- Where the second condition fails, it fails on a short text. -/
theorem exists_short_late {S : Finset σ} (hS : ∀ s ∈ S, ∀ b, dfa.next_state s b ∈ S)
    (hs : start ∈ S) {v : List UInt8} (hv : v ≠ [])
    (hmatch : dfa.is_match_state (v.foldl dfa.next_state start) = true)
    (hnone : ¬ ∃ u, u ≠ [] ∧ u <+: v ∧ EndsHere dfa (u.foldl dfa.next_state start)) :
    ∃ v', v'.length ≤ S.card + 1 ∧ (∃ p, MatchEnds dfa start v' p) ∧
      ¬ ∃ u, u ≠ [] ∧ u <+: v' ∧ EndsHere dfa (u.foldl dfa.next_state start) := by
  obtain ⟨w, b, rfl⟩ : ∃ w b, v = w ++ [b] :=
    ⟨_, _, (List.dropLast_append_getLast hv).symm⟩
  obtain ⟨w', hlen, hsame, hok⟩ := short_run.exists_short_word (w := w) hS hs
    (P := fun s => ¬ EndsHere dfa s) (by
      intro u hu hpre hends
      exact hnone ⟨u, hu, hpre.trans (List.prefix_append _ _), hends⟩)
  have hlast : (w' ++ [b]).foldl dfa.next_state start = (w ++ [b]).foldl dfa.next_state start := by
    rw [List.foldl_append, List.foldl_append, hsame]
  refine ⟨w' ++ [b], ?_, ?_, ?_⟩
  · rw [List.length_append, List.length_singleton]
    omega
  · rw [match_ends_iff]
    exact Or.inl ⟨w' ++ [b], by simp, List.prefix_refl _, by rw [hlast]; exact hmatch⟩
  · rintro ⟨u, hu, hpre, hends⟩
    rcases List.prefix_concat_iff.mp hpre with rfl | hpre
    · rw [hlast] at hends
      exact hnone ⟨w ++ [b], hv, List.prefix_refl _, hends⟩
    · exact hok u hu hpre hends

/-- The two conditions hold if matches and beginnings agree on the inputs that are
not too long. -/
theorem conditions_of_agreement {state_ids : List σ} (hflat : Flattened dfa start state_ids t)
    (hempty : ¬ EndsHere dfa start)
    (hboth : ∀ input : List UInt8, input.length ≤ 2 ^ 32 →
      ((∃ u, u ≠ [] ∧ u <+: input ∧ EndsHere dfa (u.foldl dfa.next_state start)) ↔
        ∃ p, MatchEnds dfa start input p)) :
    EndsStay dfa start ∧ EndsSeen dfa start := by
  have hS : ∀ s ∈ state_ids.toFinset, ∀ b, dfa.next_state s b ∈ state_ids.toFinset := by
    intro s hs b
    rw [List.mem_toFinset] at hs ⊢
    exact hflat.mem_next hs b
  have hs : start ∈ state_ids.toFinset := List.mem_toFinset.mpr (hflat.mem_walk [])
  have hcard : state_ids.toFinset.card ≤ MAX_STATES :=
    Nat.le_trans (List.toFinset_card_le _) hflat.states
  unfold MAX_STATES at hcard
  refine ⟨?_, ?_⟩
  · intro u b hu hends
    by_contra hnone
    obtain ⟨u', hlen, hu', hends', hnone'⟩ := exists_short_stray hS hs hempty hends hnone
    apply hnone'
    rw [← hboth _ (by rw [List.length_append, List.length_singleton]; omega)]
    exact ⟨u', hu', List.prefix_append _ _, hends'⟩
  · intro v hv hmatches
    by_contra hnone
    obtain ⟨v', hlen, hmatch', hnone'⟩ := exists_short_late hS hs hv hmatches hnone
    exact hnone' ((hboth _ (by omega)).mpr hmatch')

/-- `has_match` tells whether the DFA would match with some beginning of the input. -/
theorem has_match_iff_beginning {os : Os} {state_ids : List σ} {jit : JitDfa}
    (hflat : Flattened dfa start state_ids t)
    (hmatch : ∀ s, dfa.is_match_state s = true → 0 < dfa.match_len s)
    (hjit : JitDfa.compile_with_output_links os t [] = .ok jit)
    (input : List UInt8) (place : Placement jit.code input 1) :
    ∃ found, jit.has_match input place = .ok found ∧
      (found = true ↔
        ∃ u, u ≠ [] ∧ u <+: input ∧ EndsHere dfa (u.foldl dfa.next_state start)) := by
  obtain ⟨hch, _⟩ := compile_with_output_links_ok hjit
  refine ⟨_, has_match_eq hjit (linked_of_checked hch) sparse_alone input place, ?_⟩
  rw [decide_eq_true_iff, found_ne_nil_iff hflat hch]
  simp only [eoi_patterns_ne_nil_iff hmatch]

end

/-- The constructor gave a DFA whose `has_match` tells for every input whether the
regex automaton has a match in it, exactly when a match that would end with a text
leaves a match in the text and one more byte, and a match that has ended inside a
text would end with some beginning of it. -/
theorem has_match_tells_the_matches_exactly_when_they_stay_and_are_seen [Fintype σ] {os : Os}
    {build_many : List String → Except String (DFA σ)} {patterns : List String} {dfa : DFA σ}
    {start : σ} {jit : JitDfa} (hbuild : build_many patterns = .ok dfa)
    (hstart : dfa.start_state_forward = .ok start)
    (hmatch : ∀ s, dfa.is_match_state s = true → 0 < dfa.match_len s)
    (hempty : ¬ EndsHere dfa start)
    (h : from_regex_patterns build_many os patterns = .ok jit) :
    (∀ (input : List UInt8) (place : Placement jit.code input 1), ∃ found,
      jit.has_match input place = .ok found ∧
        (found = true ↔ ∃ p, MatchEnds dfa start input p)) ↔
      EndsStay dfa start ∧ EndsSeen dfa start := by
  obtain ⟨t, state_ids, hflat, hjit⟩ := from_regex_patterns_ok hbuild hstart h
  constructor
  · intro htells
    apply conditions_of_agreement hflat hempty
    intro input hlen
    have hfew := hflat.few
    obtain ⟨place⟩ := exists_place hjit (by omega) input 1 (by omega) Nat.one_le_two_pow
    obtain ⟨found, hfound, hiff⟩ := has_match_iff_beginning hflat hmatch hjit input place
    obtain ⟨found', hfound', hiff'⟩ := htells input place
    rw [hfound] at hfound'
    obtain rfl := Except.ok.inj hfound'
    rw [← hiff, hiff']
  · rintro ⟨hstay, hseen⟩ input place
    obtain ⟨found, hfound, hiff⟩ := has_match_iff_beginning hflat hmatch hjit input place
    exact ⟨found, hfound, hiff.trans (match_iff_beginning hempty hstay hseen).symm⟩

/-- The law for the pattern `a`. -/
theorem has_match_tells_the_matches_of_one_letter :
    ∃ jit, from_regex_patterns (fun _ => .ok (letter_a false 1)) generous ["a"] = .ok jit ∧
      ((∀ (input : List UInt8) (place : Placement jit.code input 1), ∃ found,
        jit.has_match input place = .ok found ∧
          (found = true ↔ ∃ p, MatchEnds (letter_a false 1) (some (false, false)) input p)) ↔
        EndsStay (letter_a false 1) (some (false, false)) ∧
          EndsSeen (letter_a false 1) (some (false, false))) := by
  obtain ⟨jit, hjit, _⟩ := letter_a_compiles false ["a"] (by simp)
  exact ⟨jit, hjit, has_match_tells_the_matches_exactly_when_they_stay_and_are_seen rfl rfl
    (fun _ _ => Nat.one_pos) Bool.false_ne_true hjit⟩

/-- No match of `a$` has ended inside a text. -/
theorem letter_a_at_end (w : List UInt8) :
    (letter_a true 1).is_match_state
      (w.foldl (letter_a true 1).next_state (some (false, false))) ≠ true := by
  induction w using List.reverseRecOn with
  | nil => exact Bool.false_ne_true
  | append_singleton w b _ =>
    rw [List.foldl_append, List.foldl_cons, List.foldl_nil]
    cases w.foldl (letter_a true 1).next_state (some (false, false)) with
    | none => exact Bool.false_ne_true
    | some s =>
      obtain ⟨_, last⟩ := s
      cases last <;> exact Bool.false_ne_true

/-- `a$` does not match in `ab`, but `has_match` says that it does. -/
theorem has_match_finds_an_end_inside_the_input :
    ∃ jit place, from_regex_patterns (fun _ => .ok (letter_a true 1)) generous ["a$"] = .ok jit ∧
      ¬ EndsHere (letter_a true 1) (some (false, false)) ∧
      (∀ s, (letter_a true 1).is_match_state s = true → 0 < (letter_a true 1).match_len s) ∧
      jit.has_match [97, 98] place = .ok true ∧
      ¬ ∃ p, MatchEnds (letter_a true 1) (some (false, false)) [97, 98] p := by
  obtain ⟨jit, hjit, hptr⟩ := letter_a_compiles true ["a$"] (by simp)
  obtain ⟨t, state_ids, hflat, hcompile⟩ := from_regex_patterns_ok rfl rfl hjit
  obtain ⟨hch, _⟩ := compile_with_output_links_ok hcompile
  have place : Placement jit.code [97, 98] 1 := low_place hptr _ 1 (by decide) (by decide)
  refine ⟨jit, place, hjit, Bool.false_ne_true, fun _ _ => Nat.one_pos, ?_, ?_⟩
  · rw [has_match_eq hcompile (linked_of_checked hch) sparse_alone _ place, decide_eq_true]
    rw [found_ne_nil_iff hflat hch]
    exact ⟨[97], by simp, ⟨[98], rfl⟩, List.cons_ne_nil _ _⟩
  · rw [match_ends_iff, not_or]
    refine ⟨?_, Bool.false_ne_true⟩
    rintro ⟨v, _, _, hmatch⟩
    exact letter_a_at_end v hmatch

end dfajit.regex_matches
