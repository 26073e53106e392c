-- Literals through the two constructors. Where no literal is a suffix of another,
-- both tables report the same ids at the same ends; the regex table has no lengths,
-- so its matches start where they end.
import Dfajit.Literals
import Dfajit.RegexMatches

namespace dfajit.regex_literals

open error table codegen table_scan dfa engines reset_run text_tree trie output_links pattern_scan
  agreement literals regex regex_table regex_accepts regex_matches

variable {σ : Type} [DecidableEq σ]

/-- `as_bytes`. -/
def as_bytes (s : String) : List UInt8 := s.toUTF8.data.toList

/-- No pattern is a suffix of another one. -/
def NoSuffixes (patterns : List (List UInt8)) : Prop :=
  ∀ (i j : Nat) (p q : List UInt8),
    patterns[i]? = some p → patterns[j]? = some q → i ≠ j → ¬ p <:+ q

/-- After each text, the ids that the DFA has if the input ends there are those of
the patterns that end the text. -/
def EndsWithPatterns (dfa : DFA σ) (start : σ) (patterns : List (List UInt8)) : Prop :=
  ∀ (w : List UInt8) (id : PatternID), id ∈ eoi_patterns dfa (w.foldl dfa.next_state start) ↔
    ∃ p, patterns[id.val]? = some p ∧ p <:+ w

/-- Into buffers of one size the two DFAs write the same matches. -/
def SameMatches (jit jit' : JitDfa) (input : List UInt8) : Prop :=
  ∀ (slots : List Match) (place : Placement jit.code input slots.length)
    (place' : Placement jit'.code input slots.length), ∃ n written written',
    jit.scan input slots place = .ok (n, written) ∧
    jit'.scan input slots place' = .ok (n, written') ∧
    (written.take n).map Match.key = (written'.take n).map Match.key

/-! ## The literals that end a text -/

section

variable {patterns : List (List UInt8)} {x p q : List UInt8}

theorem NoSuffixes.eq_of_ends (h : NoSuffixes patterns) {i j : Nat} (hi : patterns[i]? = some p)
    (hj : patterns[j]? = some q) (hp : p <:+ x) (hq : q <:+ x) : i = j := by
  by_contra hne
  rcases Nat.le_total p.length q.length with hle | hle
  · exact h i j p q hi hj hne (List.suffix_of_suffix_length_le hp hq hle)
  · exact h j i q p hj hi (Ne.symm hne) (List.suffix_of_suffix_length_le hq hp hle)

theorem NoSuffixes.nodup (h : NoSuffixes patterns) : patterns.Nodup := by
  rw [List.nodup_iff_getElem?_ne_getElem?]
  intro i j hij hj he
  have hget := List.getElem?_eq_getElem hj
  exact h i j _ _ (he.trans hget) hget (by omega) (List.suffix_refl _)

/-- At most one pattern ends a text. -/
theorem NoSuffixes.ends_eq (h : NoSuffixes patterns) (hv : p ∈ ends patterns x) :
    ends patterns x = [p] := by
  have hone : ∀ q ∈ ends patterns x, q = p := by
    intro q hq
    obtain ⟨hpx, hp, _⟩ := mem_ends.mp hv
    obtain ⟨hqx, hq, _⟩ := mem_ends.mp hq
    obtain ⟨i, hi⟩ := List.mem_iff_getElem?.mp hp
    obtain ⟨j, hj⟩ := List.mem_iff_getElem?.mp hq
    rw [h.eq_of_ends hi hj hpx hqx, hj] at hi
    exact Option.some.inj hi
  have hnodup := ends_nodup patterns x
  cases hends : ends patterns x with
  | nil =>
    rw [hends] at hv
    cases hv
  | cons u us =>
    rw [hends] at hone hnodup
    rw [hone u List.mem_cons_self] at hnodup ⊢
    cases us with
    | nil => rfl
    | cons v vs =>
      rw [hone v (by simp)] at hnodup
      exact absurd List.mem_cons_self (List.nodup_cons.mp hnodup).1

theorem NoSuffixes.reported_eq (h : NoSuffixes patterns) (x : List UInt8) :
    reported patterns x = ends patterns x := by
  unfold reported
  split
  · rfl
  · cases hends : ends patterns x with
    | nil => rfl
    | cons p ps =>
      have hmem : p ∈ ends patterns x := by
        rw [hends]
        exact List.mem_cons_self
      rw [h.ends_eq hmem] at hends
      obtain ⟨_, rfl⟩ := List.cons.inj hends
      rfl

/-- A table has a state for each pattern, so there are few of them. -/
theorem few_patterns {t : TransitionTable} {links : List UInt32} (h : NoSuffixes patterns)
    (hb : Built patterns t links) : patterns.length ≤ MAX_STATES := by
  have hsub : patterns ⊆ texts patterns := fun p hp => mem_texts_self hp
  exact Nat.le_trans (List.subperm_of_subset h.nodup hsub).length_le hb.states

end

/-! ## The two tables -/

section

variable {os : Os} {dfa : DFA σ} {start : σ} {state_ids : List σ} {patterns : List (List UInt8)}
  {t t' : TransitionTable} {links : List UInt32} {jit jit' : JitDfa} {input : List UInt8}

/-- After each text the two tables report the same ids. -/
theorem reportOf_same (ha : Automaton patterns t links) (hflat : Flattened dfa start state_ids t')
    (hch : Checked t' []) (hne : ∀ p ∈ patterns, p ≠ []) (hsuf : NoSuffixes patterns)
    (hfew : patterns.length ≤ MAX_STATES) (hends : EndsWithPatterns dfa start patterns)
    (x : List UInt8) : reportOf (scanner t' []) x = reportOf (scanner t links) x := by
  rw [reportOf_eq hflat hch, ha.reportOf_eq, hsuf.reported_eq]
  unfold MAX_STATES at hfew
  cases hids : eoi_patterns dfa (x.foldl dfa.next_state start) with
  | nil =>
    have hnone : ends patterns x = [] := by
      rw [List.eq_nil_iff_forall_not_mem]
      intro v hv
      obtain ⟨hvx, hv, _⟩ := mem_ends.mp hv
      have hlt := List.idxOf_lt_length_of_mem hv
      have hmem := (hends x ⟨patterns.idxOf v, by omega⟩).mpr
        ⟨v, List.getElem?_idxOf hv, hvx⟩
      rw [hids] at hmem
      cases hmem
    rw [hnone]
    rfl
  | cons id ids =>
    have hid : id ∈ eoi_patterns dfa (x.foldl dfa.next_state start) := by
      rw [hids]
      exact List.mem_cons_self
    obtain ⟨p, hp, hpx⟩ := (hends x id).mp hid
    have hpat := List.mem_of_getElem? hp
    rw [hsuf.ends_eq (mem_ends.mpr ⟨hpx, hpat, hne p hpat⟩), List.map_singleton]
    have hidx : id.val = patterns.idxOf p :=
      hsuf.eq_of_ends hp (List.getElem?_idxOf hpat) hpx hpx
    unfold pid_of as_u32
    rw [← hidx]
    rfl

/-- A match of a table without lengths starts where it ends. -/
theorem match_at_zero {lengths : List UInt32} (hzero : ∀ x ∈ lengths, x = 0) (pid : UInt32)
    (pos : Nat) : (match_at lengths pid pos).start = (match_at lengths pid pos).end := by
  have hlen : (lengths[pid.toNat]?).getD 0 = 0 := by
    cases hget : lengths[pid.toNat]? with
    | none => rfl
    | some x => exact hzero x (List.mem_of_getElem? hget)
  unfold match_at Match.from_parts
  simp only [hlen]
  unfold saturating_sub
  rw [if_pos (UInt32.zero_le), UInt32.sub_zero]

/-- The matches of the regex table are those of the other one, with the ends as
their starts. -/
theorem found_same (ha : Automaton patterns t links) (hflat : Flattened dfa start state_ids t')
    (hch : Checked t' []) (hne : ∀ p ∈ patterns, p ≠ []) (hsuf : NoSuffixes patterns)
    (hfew : patterns.length ≤ MAX_STATES) (hends : EndsWithPatterns dfa start patterns)
    (input : List UInt8) :
    (found t' [] input).map Match.key =
      ((found t links input).map Match.key).map fun k => (k.1, k.2.2, k.2.2) := by
  have hsame : reportOf (scanner t' []) = reportOf (scanner t links) :=
    funext (reportOf_same ha hflat hch hne hsuf hfew hends)
  unfold found matchesOf
  rw [events_eq_text, hsame, ← events_eq_text, List.map_map, List.map_map, List.map_map]
  apply List.map_congr_left
  intro e _
  have hstart := match_at_zero hflat.zero e.1 (e.2 - 1)
  unfold Function.comp Match.key
  simp only
  rw [hstart]
  rfl

end

/-- What the two constructors make of literals. -/
theorem both_built [Fintype σ] {os os' : Os}
    {build_many : List String → Except String (DFA σ)} {literals : List String} {dfa : DFA σ}
    {start : σ} {jit jit' : JitDfa} (hne : ∀ p ∈ literals.map as_bytes, p ≠ [])
    (hsuf : NoSuffixes (literals.map as_bytes)) (hbuild : build_many literals = .ok dfa)
    (hstart : dfa.start_state_forward = .ok start)
    (hends : EndsWithPatterns dfa start (literals.map as_bytes))
    (h : JitDfa.from_patterns os (literals.map as_bytes) = .ok jit)
    (h' : from_regex_patterns build_many os' literals = .ok jit') :
    ∃ t links t', Automaton (literals.map as_bytes) t links ∧
      JitDfa.compile_with_output_links os t links = .ok jit ∧ Checked t' [] ∧
      JitDfa.compile_with_output_links os' t' [] = .ok jit' ∧ t'.pattern_lengths.length ≤ 2 ^ 32 ∧
      ∀ input, (found t' [] input).map Match.key =
        ((found t links input).map Match.key).map fun k => (k.1, k.2.2, k.2.2) := by
  obtain ⟨⟨t, links⟩, htable, hjit⟩ := bind_ok.mp h
  obtain ⟨t', state_ids, hflat, hjit'⟩ := from_regex_patterns_ok hbuild hstart h'
  obtain ⟨hch, _⟩ := compile_with_output_links_ok hjit'
  have hfew := few_patterns hsuf (built_of_ok htable)
  have hmax : MAX_STATES < 2 ^ 32 := by decide
  have ha := automaton_of_ok (by omega) htable
  exact ⟨t, links, t', ha, hjit, hch, hjit', hflat.few,
    found_same ha hflat hch hne hsuf hfew hends⟩

section

variable {literals : List String} {os os' : Os} {t t' : TransitionTable} {links : List UInt32}
  {jit jit' : JitDfa} {input : List UInt8}

/-- Both scans find as many matches; the regex scan writes each end as the start. -/
theorem both_scan (ha : Automaton (literals.map as_bytes) t links)
    (hjit : JitDfa.compile_with_output_links os t links = .ok jit) (hch : Checked t' [])
    (hjit' : JitDfa.compile_with_output_links os' t' [] = .ok jit')
    (hsame : (found t' [] input).map Match.key =
      ((found t links input).map Match.key).map fun k => (k.1, k.2.2, k.2.2))
    (slots : List Match) (place : Placement jit.code input slots.length)
    (place' : Placement jit'.code input slots.length) :
    ∃ n written written',
      jit.scan input slots place = .ok (n, written) ∧
      jit'.scan input slots place' = .ok (n, written') ∧
      n = min (found t links input).length slots.length ∧
      (written.take n).map Match.key = ((found t links input).map Match.key).take slots.length ∧
      (written'.take n).map Match.key =
        ((written.take n).map Match.key).map fun k => (k.1, k.2.2, k.2.2) := by
  have hlen : (found t' [] input).length = (found t links input).length := by
    have := congrArg List.length hsame
    rwa [List.length_map, List.length_map, List.length_map] at this
  obtain ⟨written, hscan, hkeys⟩ := scan_writes hjit ha.linked ha.sparse slots place
  obtain ⟨written', hscan', hkeys'⟩ :=
    scan_writes hjit' (linked_of_checked hch) sparse_alone slots place'
  rw [hlen] at hscan' hkeys'
  refine ⟨_, written, written', hscan, hscan', rfl, hkeys, ?_⟩
  rw [hkeys', hsame, hkeys, List.map_take]

/-- The two scans write the same exactly when they find nothing: a match of literals
starts before it ends. -/
theorem same_matches_iff (ha : Automaton (literals.map as_bytes) t links)
    (hjit : JitDfa.compile_with_output_links os t links = .ok jit) (hch : Checked t' [])
    (hjit' : JitDfa.compile_with_output_links os' t' [] = .ok jit')
    (hlengths : t'.pattern_lengths.length ≤ 2 ^ 32)
    (hsame : (found t' [] input).map Match.key =
      ((found t links input).map Match.key).map fun k => (k.1, k.2.2, k.2.2))
    (hin : input.length < 2 ^ 32) :
    SameMatches jit jit' input ↔ found t links input = [] := by
  constructor
  · intro hall
    by_contra hsome
    obtain ⟨m, ms, hms⟩ := List.exists_cons_of_ne_nil hsome
    -- one match is enough to tell the starts apart
    have hmax := ha.few
    have hvec : t.pattern_lengths.length < 2 ^ 61 := by
      rw [ha.lengths, List.length_map]
      omega
    obtain ⟨place⟩ := exists_place hjit hvec input 1 (by omega) Nat.one_le_two_pow
    obtain ⟨place'⟩ := exists_place hjit' (by omega) input 1 (by omega) Nat.one_le_two_pow
    obtain ⟨n, w, w', hw, hw', _, hkeys, hends⟩ :=
      both_scan ha hjit hch hjit' hsame [Match.from_parts 0 0 0] place place'
    obtain ⟨n', v, v', hv, hv', hequal⟩ := hall [Match.from_parts 0 0 0] place place'
    rw [hw] at hv
    rw [hw'] at hv'
    obtain ⟨rfl, rfl⟩ := Prod.mk.inj (Except.ok.inj hv)
    obtain ⟨_, rfl⟩ := Prod.mk.inj (Except.ok.inj hv')
    rw [hends, hkeys, hms] at hequal
    have hkey : m.key.2.1 = m.key.2.2 :=
      congrArg (fun k : Key => k.2.1) (List.cons.inj hequal).1
    obtain ⟨c, hc, x, hx, hle, _, hstart, hend⟩ := mem_found ha hin (k := m.key)
      (by rw [hms]; exact List.mem_map_of_mem List.mem_cons_self)
    obtain ⟨_, _, hx0⟩ := mem_ends.mp (reported_subset hx)
    have hpos := List.length_pos_iff.mpr hx0
    rw [hkey] at hstart
    omega
  · intro hnone slots place place'
    obtain ⟨n, written, written', hscan, hscan', hn, _, _⟩ :=
      both_scan ha hjit hch hjit' hsame slots place place'
    rw [hnone, List.length_nil, Nat.zero_min] at hn
    subst hn
    exact ⟨0, written, written', hscan, hscan', rfl⟩

end

/-- For literals of which none is a suffix of another, the regex scan gives the
matches of the literal scan in their order with the same ids and ends, and with
each end as the start; so the matches are the same just when there are none, which
is when no literal occurs in the input. -/
theorem the_builders_agree_on_literals_but_for_the_starts [Fintype σ] {os os' : Os}
    {build_many : List String → Except String (DFA σ)} {literals : List String} {dfa : DFA σ}
    {start : σ} {jit jit' : JitDfa} (hne : ∀ p ∈ literals.map as_bytes, p ≠ [])
    (hsuf : NoSuffixes (literals.map as_bytes)) (hbuild : build_many literals = .ok dfa)
    (hstart : dfa.start_state_forward = .ok start)
    (hends : EndsWithPatterns dfa start (literals.map as_bytes))
    (h : JitDfa.from_patterns os (literals.map as_bytes) = .ok jit)
    (h' : from_regex_patterns build_many os' literals = .ok jit')
    {input : List UInt8} (hin : input.length < 2 ^ 32) :
    (∀ (slots : List Match) (place : Placement jit.code input slots.length)
      (place' : Placement jit'.code input slots.length), ∃ n written written',
      jit.scan input slots place = .ok (n, written) ∧
      jit'.scan input slots place' = .ok (n, written') ∧
      (written'.take n).map Match.key =
        (written.take n).map fun m => (m.pattern_id, m.end, m.end)) ∧
    (SameMatches jit jit' input ↔ ∀ p ∈ literals.map as_bytes, ¬ p <:+: input) := by
  obtain ⟨t, links, t', ha, hjit, hch, hjit', hlengths, hsame⟩ :=
    both_built hne hsuf hbuild hstart hends h h'
  refine ⟨?_, ?_⟩
  · intro slots place place'
    obtain ⟨n, written, written', hscan, hscan', _, _, hends⟩ :=
      both_scan ha hjit hch hjit' (hsame input) slots place place'
    refine ⟨n, written, written', hscan, hscan', ?_⟩
    rw [hends, List.map_map]
    rfl
  · rw [same_matches_iff ha hjit hch hjit' hlengths (hsame input) hin, found_nil_iff ha hin]
    constructor
    · intro hnil p hp hin'
      exact infix_iff_restart.mp ⟨p, hp, hne p hp, hin'⟩ hnil
    · intro hnone
      by_contra hsome
      obtain ⟨p, hp, _, hin'⟩ := infix_iff_restart.mpr hsome
      exact hnone p hp hin'

/-! ## One letter -/

/-- The state of the DFA of `a` tells whether an `a` ends the text. -/
theorem letter_a_walk (w : List UInt8) : ∃ seen,
    w.foldl (letter_a false 1).next_state (some (false, false)) =
      some (seen, decide (w.getLast? = some 97)) := by
  induction w using List.reverseRecOn with
  | nil => exact ⟨false, rfl⟩
  | append_singleton w b ih =>
    obtain ⟨seen, hw⟩ := ih
    refine ⟨decide (w.getLast? = some 97), ?_⟩
    rw [List.foldl_append, hw, List.getLast?_concat]
    simp [letter_a, beq_eq_decide]

theorem letter_a_ends :
    EndsWithPatterns (letter_a false 1) (some (false, false)) (["a"].map as_bytes) := by
  have hbytes : ["a"].map as_bytes = [[97]] := rfl
  intro w id
  obtain ⟨seen, hw⟩ := letter_a_walk w
  rw [hbytes, hw]
  by_cases hlast : w.getLast? = some 97
  · have hids : eoi_patterns (letter_a false 1) (some (seen, decide (w.getLast? = some 97))) =
        [nth_id 0] := by
      rw [decide_eq_true hlast]
      rfl
    rw [hids, List.mem_singleton]
    constructor
    · rintro rfl
      exact ⟨[97], rfl, List.singleton_suffix_iff_getLast?_eq_some.mpr hlast⟩
    · rintro ⟨p, hp, _⟩
      have hzero := (List.getElem?_eq_some_iff.mp hp).1
      rw [List.length_singleton] at hzero
      exact Fin.ext (Nat.lt_one_iff.mp hzero)
  · have hids : eoi_patterns (letter_a false 1) (some (seen, decide (w.getLast? = some 97))) =
        [] := by
      rw [decide_eq_false hlast]
      rfl
    rw [hids]
    refine iff_of_false (by simp) ?_
    rintro ⟨p, hp, hsuf⟩
    have hzero := (List.getElem?_eq_some_iff.mp hp).1
    rw [List.length_singleton] at hzero
    rw [Nat.lt_one_iff.mp hzero] at hp
    rw [← Option.some.inj hp] at hsuf
    exact hlast (List.singleton_suffix_iff_getLast?_eq_some.mp hsuf)

theorem letter_a_no_suffixes : NoSuffixes (["a"].map as_bytes) := by
  intro i j p q hi hj hne
  have h1 := (List.getElem?_eq_some_iff.mp hi).1
  have h2 := (List.getElem?_eq_some_iff.mp hj).1
  rw [List.length_map, List.length_singleton] at h1 h2
  omega

/-- Both constructors take `a`. -/
theorem letter_a_both :
    ∃ jit jit', JitDfa.from_patterns generous (["a"].map as_bytes) = .ok jit ∧
      from_regex_patterns (fun _ => .ok (letter_a false 1)) generous ["a"] = .ok jit' ∧
      jit.code.ptr = 0x10000 ∧ jit'.code.ptr = 0x10000 := by
  have hfew : (["a"].map as_bytes).length < 2 ^ 32 := by decide
  obtain ⟨jit, hjit, hptr⟩ := from_patterns_compiles hfew (by decide) (by decide)
  obtain ⟨jit', hjit', hptr'⟩ := letter_a_compiles false ["a"] (by simp)
  exact ⟨jit, jit', hjit, hjit', hptr, hptr'⟩

/-- The law for the literal `a` and the input `ba`. -/
theorem the_builders_agree_on_one_letter_but_for_the_starts :
    ∃ jit jit', JitDfa.from_patterns generous (["a"].map as_bytes) = .ok jit ∧
      from_regex_patterns (fun _ => .ok (letter_a false 1)) generous ["a"] = .ok jit' ∧
      (∀ (slots : List Match) (place : Placement jit.code [98, 97] slots.length)
        (place' : Placement jit'.code [98, 97] slots.length), ∃ n written written',
        jit.scan [98, 97] slots place = .ok (n, written) ∧
        jit'.scan [98, 97] slots place' = .ok (n, written') ∧
        (written'.take n).map Match.key =
          (written.take n).map fun m => (m.pattern_id, m.end, m.end)) ∧
      (SameMatches jit jit' [98, 97] ↔ ∀ p ∈ ["a"].map as_bytes, ¬ p <:+: [98, 97]) := by
  obtain ⟨jit, jit', hjit, hjit', _, _⟩ := letter_a_both
  exact ⟨jit, jit', hjit, hjit', the_builders_agree_on_literals_but_for_the_starts (by decide)
    letter_a_no_suffixes rfl rfl letter_a_ends hjit hjit' (by decide)⟩

/-- On `a` the literal scan writes a match from 0 to 1, and the regex scan one from
1 to 1. -/
theorem the_builders_differ_on_one_letter :
    EndsWithPatterns (letter_a false 1) (some (false, false)) (["a"].map as_bytes) ∧
    NoSuffixes (["a"].map as_bytes) ∧ (∀ p ∈ ["a"].map as_bytes, p ≠ []) ∧
    ∃ jit jit' place place' written written',
      JitDfa.from_patterns generous (["a"].map as_bytes) = .ok jit ∧
      from_regex_patterns (fun _ => .ok (letter_a false 1)) generous ["a"] = .ok jit' ∧
      jit.scan [97] [Match.from_parts 0 0 0] place = .ok (1, written) ∧
      (written.take 1).map Match.key = [(0, 0, 1)] ∧
      jit'.scan [97] [Match.from_parts 0 0 0] place' = .ok (1, written') ∧
      (written'.take 1).map Match.key = [(0, 1, 1)] ∧ ¬ SameMatches jit jit' [97] := by
  obtain ⟨jit, jit', hjit, hjit', hptr, hptr'⟩ := letter_a_both
  have place : Placement jit.code [97] [Match.from_parts 0 0 0].length :=
    low_place hptr _ 1 (by decide) (by decide)
  have place' : Placement jit'.code [97] [Match.from_parts 0 0 0].length :=
    low_place hptr' _ 1 (by decide) (by decide)
  obtain ⟨t, links, t', ha, hcompile, hch, hcompile', _, hsame⟩ :=
    both_built (by decide) letter_a_no_suffixes rfl rfl letter_a_ends hjit hjit'
  have hin : [97].length < 2 ^ 32 := by decide
  have hkeys : (found t links [97]).map Match.key = [(0, 0, 1)] := by
    rw [found_keys ha hin]
    decide
  obtain ⟨n, written, written', hscan, hscan', hn, hwritten, hwritten'⟩ :=
    both_scan ha hcompile hch hcompile' (hsame _) [Match.from_parts 0 0 0] place place'
  have hone := congrArg List.length hkeys
  rw [List.length_map] at hone
  rw [hone] at hn
  subst hn
  rw [hkeys] at hwritten
  rw [hwritten] at hwritten'
  refine ⟨letter_a_ends, letter_a_no_suffixes, by decide, jit, jit', place, place', written,
    written', hjit, hjit', hscan, hwritten, hscan', hwritten', ?_⟩
  intro hboth
  obtain ⟨n, w, w', hw, hw', hequal⟩ := hboth _ place place'
  rw [hscan] at hw
  rw [hscan'] at hw'
  obtain ⟨rfl, rfl⟩ := Prod.mk.inj (Except.ok.inj hw)
  obtain ⟨_, rfl⟩ := Prod.mk.inj (Except.ok.inj hw')
  have hwrong := hwritten.symm.trans (hequal.trans hwritten')
  exact absurd hwrong (by decide)

end dfajit.regex_literals
