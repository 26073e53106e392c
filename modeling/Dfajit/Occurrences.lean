-- Scans with patterns, told by the occurrences of the patterns alone. The ends of
-- the matches stab every occurrence, so a scan finds as many occurrences that do
-- not overlap as there are.
import Mathlib.Data.Finset.Card
import Dfajit.Lib.Stabbing
import Dfajit.Literals

namespace dfajit.occurrences

open error table codegen table_scan dfa engines reset_run stabbing output_links pattern_scan
  agreement literals

/-! ## What a scan writes, told by the text alone -/

/-- The matches of an input: at each restart the patterns that are reported for
the text since the restart before it. -/
def matches_in (patterns : List (List UInt8)) (input : List UInt8) : List Key :=
  (restarts patterns input).flatMap fun c =>
    (reported patterns (slice input c.1 c.2)).map (wrapped_key patterns c.2)

theorem matches_in_nil_iff {patterns : List (List UInt8)} {input : List UInt8} :
    matches_in patterns input = [] ↔ restarts patterns input = [] := by
  unfold matches_in
  rw [List.flatMap_eq_nil_iff]
  constructor
  · intro hall
    by_contra hne
    obtain ⟨c, hc⟩ := List.exists_mem_of_ne_nil _ hne
    obtain ⟨_, _, _, hhit⟩ := (restarts_spec patterns input).mem hc
    exact reported_ne_nil.mpr (ends_ne_nil.mpr hhit) (List.map_eq_nil_iff.mp (hall c hc))
  · intro hnone c hc
    rw [hnone] at hc
    cases hc

/-- On an input of any length all four scans return what a search in the text
returns, which knows no states. -/
theorem the_scans_are_a_search_in_the_text {os : Os} {patterns : List (List UInt8)} {jit : JitDfa}
    (hfew : patterns.length < 2 ^ 32) (h : JitDfa.from_patterns os patterns = .ok jit)
    (input : List UInt8) (slots : List Match) (place : Placement jit.code input slots.length)
    (place_none : Placement jit.code input 0) (place_one : Placement jit.code input 1) :
    (∃ written,
      jit.scan input slots place =
        .ok (min (matches_in patterns input).length slots.length, written) ∧
      (written.take (min (matches_in patterns input).length slots.length)).map Match.key =
        (matches_in patterns input).take slots.length) ∧
      jit.scan_count input place_none = .ok (matches_in patterns input).length ∧
      (∃ first, jit.scan_first input place_one = .ok first ∧
        first.map Match.key = (matches_in patterns input).head?) ∧
      ∃ found, jit.has_match input place_one = .ok found ∧
        (found = true ↔ ∃ p ∈ patterns, p ≠ [] ∧ p <:+: input) := by
  obtain ⟨t, links, ha, hjit⟩ := from_patterns_scans hfew h
  have hkeys : (found t links input).map Match.key = matches_in patterns input :=
    found_wrapped ha input
  obtain ⟨hscan, hcount, hfirst, hhas⟩ :=
    scans_of_keys hjit ha.linked ha.sparse hkeys slots place place_none place_one
  refine ⟨hscan, hcount, hfirst, _, hhas, ?_⟩
  rw [infix_iff_restart, decide_eq_true_iff]
  exact not_congr matches_in_nil_iff

/-- `abcd`, `bc` and `c` on `xabcd`, with room for one match. -/
theorem the_scans_of_overlapping_patterns_are_a_search_in_the_text :
    ∃ jit place place_none place_one, JitDfa.from_patterns generous overlapping = .ok jit ∧
      (∃ written,
        jit.scan [120, 97, 98, 99, 100] [Match.from_parts 0 0 0] place =
          .ok (min (matches_in overlapping [120, 97, 98, 99, 100]).length
            [Match.from_parts 0 0 0].length, written) ∧
        (written.take (min (matches_in overlapping [120, 97, 98, 99, 100]).length
            [Match.from_parts 0 0 0].length)).map Match.key =
          (matches_in overlapping [120, 97, 98, 99, 100]).take [Match.from_parts 0 0 0].length) ∧
      jit.scan_count [120, 97, 98, 99, 100] place_none =
        .ok (matches_in overlapping [120, 97, 98, 99, 100]).length ∧
      (∃ first, jit.scan_first [120, 97, 98, 99, 100] place_one = .ok first ∧
        first.map Match.key = (matches_in overlapping [120, 97, 98, 99, 100]).head?) ∧
      ∃ found, jit.has_match [120, 97, 98, 99, 100] place_one = .ok found ∧
        (found = true ↔ ∃ p ∈ overlapping, p ≠ [] ∧ p <:+: [120, 97, 98, 99, 100]) := by
  have hfew : overlapping.length < 2 ^ 32 := by decide
  obtain ⟨jit, hjit, hptr⟩ := from_patterns_compiles hfew (by decide) (by decide)
  exact ⟨jit, low_place hptr _ 1 (by decide) (by decide),
    low_place hptr _ 0 (by decide) (by decide), low_place hptr _ 1 (by decide) (by decide), hjit,
    the_scans_are_a_search_in_the_text hfew hjit _ _ _ _ _⟩

/-! ## Occurrences -/

/-- A pattern that is not empty stands in the input from `s` to `e`. -/
def Occurs (patterns : List (List UInt8)) (input : List UInt8) (s e : Nat) : Prop :=
  s < e ∧ e ≤ input.length ∧ slice input s e ∈ patterns

section

variable {patterns : List (List UInt8)} {input x : List UInt8} {r s e : Nat}
  {cs : List (Nat × Nat)}

theorem slice_suffix (hr : r ≤ s) (hs : s ≤ e) : slice input s e <:+ slice input r e := by
  have hdrop : (slice input r e).drop (s - r) = slice input s e := by
    unfold slice
    rw [List.drop_take, List.drop_drop]
    have hfrom : r + (s - r) = s := by omega
    have hcount : e - r - (s - r) = e - s := by omega
    rw [hfrom, hcount]
  rw [← hdrop]
  exact List.drop_suffix _ _

theorem Occurs.ne_nil (h : Occurs patterns input s e) : slice input s e ≠ [] := by
  obtain ⟨hlt, hle, _⟩ := h
  have hlen := slice_length (r := s) hle
  rw [← List.length_pos_iff]
  omega

/-- A pattern that ends a slice is an occurrence in the slice. -/
theorem occurs_of_suffix {p : List UInt8} (hp : p ∈ patterns) (hne : p ≠ []) (hr : r ≤ e)
    (he : e ≤ input.length) (hsuf : p <:+ slice input r e) :
    r ≤ e - p.length ∧ Occurs patterns input (e - p.length) e := by
  have hlen := hsuf.length_le
  have hpos := List.length_pos_iff.mpr hne
  rw [slice_length he] at hlen
  refine ⟨by omega, by omega, he, ?_⟩
  rw [slice_of_suffix hr he hsuf]
  exact hp

theorem Occurs.mem_ends (h : Occurs patterns input s e) (hr : r ≤ s) :
    slice input s e ∈ ends patterns (slice input r e) :=
  literals.mem_ends.mpr ⟨slice_suffix hr (Nat.le_of_lt h.1), h.2.2, h.ne_nil⟩

theorem hit_iff (hr : r ≤ e) (he : e ≤ input.length) :
    Hit patterns (slice input r e) ↔ ∃ s, r ≤ s ∧ Occurs patterns input s e := by
  constructor
  · rintro ⟨p, hp, hne, hsuf⟩
    exact ⟨_, occurs_of_suffix hp hne hr he hsuf⟩
  · rintro ⟨s, hs, hocc⟩
    exact ⟨_, hocc.2.2, hocc.ne_nil, slice_suffix hs (Nat.le_of_lt hocc.1)⟩

/-! ## The restarts stab every occurrence -/

theorem cuts_tight (h : Cuts (Hit patterns) input r cs) :
    Tight (Occurs patterns input) r (cs.map (·.2)) := by
  induction h with
  | done _ => exact .nil
  | cut hr he hhit _ _ ih =>
    obtain ⟨s, hs, hocc⟩ := (hit_iff (Nat.le_of_lt hr) he).mp hhit
    exact .cons hs hocc.1 hocc ih

theorem cuts_stab (h : Cuts (Hit patterns) input r cs) :
    Stabs (Occurs patterns input) r (cs.map (·.2)) := by
  induction h with
  | done hnone =>
    intro s e hs hocc
    obtain ⟨hlt, he, _⟩ := id hocc
    exact absurd ((hit_iff (by omega) he).mpr ⟨s, hs, hocc⟩) (hnone e (by omega) he)
  | @cut r e cs hr he hhit hquiet _ ih =>
    intro s f hs hocc
    obtain ⟨hlt, hf, _⟩ := id hocc
    rw [List.map_cons]
    by_cases hbefore : f < e
    · exact absurd ((hit_iff (by omega) hf).mpr ⟨s, hs, hocc⟩) (hquiet f (by omega) hbefore)
    by_cases hse : s < e
    · exact ⟨e, List.mem_cons_self, hse, by omega⟩
    · obtain ⟨x, hx, hin⟩ := ih s f (by omega) hocc
      exact ⟨x, List.mem_cons_of_mem _ hx, hin⟩

theorem restarts_greatest (patterns : List (List UInt8)) (input : List UInt8) :
    IsGreatest {k | ∃ S, Packing (Occurs patterns input) S ∧ S.card = k}
      (restarts patterns input).length := by
  have hcuts := restarts_spec patterns input
  have h := (cuts_tight hcuts).isGreatest (cuts_stab hcuts)
  rw [List.length_map] at h
  exact h

end

/-! ## Matches at different places -/

section

variable {patterns : List (List UInt8)} {input x : List UInt8}

theorem card_of_ends {ks : List Key} (h : ∀ e, e ∈ ks.map (fun m => m.2.2.toNat) ↔
    ∃ c ∈ restarts patterns input, c.2 = e) :
    (ks.map fun m => m.2.2.toNat).toFinset.card = (restarts patterns input).length := by
  have hset : (ks.map fun m => m.2.2.toNat).toFinset =
      ((restarts patterns input).map (·.2)).toFinset := by
    ext e
    rw [List.mem_toFinset, List.mem_toFinset, h, List.mem_map]
  have hnodup : ((restarts patterns input).map (·.2)).Nodup := by
    apply (restarts_spec patterns input).sorted.imp
    intro a b hlt
    exact Nat.ne_of_lt hlt
  rw [hset, List.toFinset_card_of_nodup hnodup, List.length_map]

end

/-- The places where the matches of a scan end are as many as occurrences of the
patterns can be that do not overlap. -/
theorem a_scan_ends_at_as_many_places_as_occurrences_can_be_apart {os : Os}
    {patterns : List (List UInt8)} {jit : JitDfa} (hfew : patterns.length < 2 ^ 32)
    (h : JitDfa.from_patterns os patterns = .ok jit) {input : List UInt8}
    (hin : input.length < 2 ^ 32) {slots : List Match}
    (place : Placement jit.code input slots.length) {n : Nat}
    (hcount : jit.scan_count input place.no_matches = .ok n) (hroom : n ≤ slots.length) :
    ∃ written, jit.scan input slots place = .ok (n, written) ∧
      IsGreatest {k | ∃ S, Packing (Occurs patterns input) S ∧ S.card = k}
        ((written.take n).map (·.end.toNat)).toFinset.card := by
  obtain ⟨t, links, ha, hjit⟩ := from_patterns_scans hfew h
  obtain ⟨_, written, hscan, hkeys⟩ := scan_all ha hjit place hcount hroom
  refine ⟨written, hscan, ?_⟩
  have hends : (written.take n).map (·.end.toNat) =
      (keys patterns input).map fun m => m.2.2.toNat := by
    have hsame : (written.take n).map Match.key = keys patterns input :=
      hkeys.trans (found_keys ha hin)
    rw [← hsame, List.map_map]
    rfl
  rw [hends, card_of_ends fun e => mem_key_ends hin]
  exact restarts_greatest patterns input

/-- `abcd`, `bc` and `c` on `xabcd`, with room for two matches. -/
theorem a_scan_of_overlapping_patterns_ends_at_as_many_places_as_occurrences_can_be_apart :
    ∃ jit place n, JitDfa.from_patterns generous overlapping = .ok jit ∧
      jit.scan_count [120, 97, 98, 99, 100] place.no_matches = .ok n ∧
      ∃ written, jit.scan [120, 97, 98, 99, 100] [Match.from_parts 0 0 0, Match.from_parts 0 0 0]
          place = .ok (n, written) ∧
        IsGreatest {k | ∃ S, Packing (Occurs overlapping [120, 97, 98, 99, 100]) S ∧ S.card = k}
          ((written.take n).map (·.end.toNat)).toFinset.card := by
  obtain ⟨jit, hjit, hptr, n, hcount, hroom⟩ := overlapping_counts [120, 97, 98, 99, 100] 2
    (by decide) (by decide)
  exact ⟨jit, low_place hptr _ 2 (by decide) (by decide), n, hjit, hcount _,
    a_scan_ends_at_as_many_places_as_occurrences_can_be_apart (by decide) hjit (by decide) _
      (hcount _) (by exact hroom)⟩

/-! ## Patterns that end no other -/

/-- No pattern that is not empty ends another one. -/
def SuffixFree (patterns : List (List UInt8)) : Prop :=
  ∀ p ∈ patterns, ∀ q ∈ patterns, p ≠ [] → p <:+ q → p = q

instance (patterns : List (List UInt8)) : Decidable (SuffixFree patterns) :=
  inferInstanceAs (Decidable (∀ p ∈ patterns, ∀ q ∈ patterns, p ≠ [] → p <:+ q → p = q))

section

variable {patterns : List (List UInt8)} {input x : List UInt8} {t : TransitionTable}
  {links : List UInt32}

theorem SuffixFree.ends_length_le (h : SuffixFree patterns) (x : List UInt8) :
    (ends patterns x).length ≤ 1 := by
  have hnodup := ends_nodup patterns x
  cases hends : ends patterns x with
  | nil => exact Nat.zero_le _
  | cons u us =>
    cases us with
    | nil => exact Nat.le_refl _
    | cons v vs =>
      have hu := literals.mem_ends.mp (hends ▸ List.mem_cons_self : u ∈ ends patterns x)
      have hv := literals.mem_ends.mp (by rw [hends]; simp : v ∈ ends patterns x)
      have hlt : v.length < u.length := by
        have hsorted := suffix.hits_sorted (P := IsPattern patterns) x
        have hends' : suffix.hits (IsPattern patterns) x = u :: v :: vs := hends
        rw [hends', List.pairwise_cons] at hsorted
        exact hsorted.1 v List.mem_cons_self
      have hvu : v <:+ u := List.suffix_of_suffix_length_le hv.1 hu.1 (Nat.le_of_lt hlt)
      rw [h v hv.2.1 u hu.2.1 hv.2.2 hvu] at hlt
      exact absurd hlt (Nat.lt_irrefl _)

theorem SuffixFree.reported_length (h : SuffixFree patterns) (hx : Hit patterns x) :
    (reported patterns x).length = 1 := by
  have hle := h.ends_length_le x
  have hpos := List.length_pos_iff.mpr (ends_ne_nil.mpr hx)
  unfold reported
  split
  · omega
  · rw [List.length_take]
    omega

/-- Where no pattern ends another, there is one match at each restart. -/
theorem found_length_of_suffixFree (ha : Automaton patterns t links) (h : SuffixFree patterns)
    (input : List UInt8) : (found t links input).length = (restarts patterns input).length := by
  have hlen := congrArg List.length (found_wrapped ha input)
  rw [List.length_map, List.length_flatMap] at hlen
  have hone : (restarts patterns input).map (fun c =>
      ((reported patterns (slice input c.1 c.2)).map (wrapped_key patterns c.2)).length) =
      (restarts patterns input).map fun _ => 1 := by
    apply List.map_congr_left
    intro c hc
    obtain ⟨_, _, _, hhit⟩ := (restarts_spec patterns input).mem hc
    rw [List.length_map, h.reported_length hhit]
  rw [hlen, hone]
  simp

end

/-- Where no pattern ends another, a count is the number of occurrences that can
be apart, whatever the length of the input. -/
theorem a_count_is_how_many_occurrences_can_be_apart {os : Os} {patterns : List (List UInt8)}
    {jit : JitDfa} (hfew : patterns.length < 2 ^ 32) (hfree : SuffixFree patterns)
    (h : JitDfa.from_patterns os patterns = .ok jit) (input : List UInt8)
    (place : Placement jit.code input 0) :
    ∃ n, jit.scan_count input place = .ok n ∧
      IsGreatest {k | ∃ S, Packing (Occurs patterns input) S ∧ S.card = k} n := by
  obtain ⟨t, links, ha, hjit⟩ := from_patterns_scans hfew h
  refine ⟨_, scan_count_eq hjit ha.linked ha.sparse input place, ?_⟩
  rw [found_length_of_suffixFree ha hfree]
  exact restarts_greatest patterns input

/-- The pattern `aa` on `aaaaa`. -/
theorem a_count_of_aa_is_how_many_occurrences_can_be_apart :
    ∃ jit place n, JitDfa.from_patterns generous [[97, 97]] = .ok jit ∧
      jit.scan_count [97, 97, 97, 97, 97] place = .ok n ∧
      IsGreatest {k | ∃ S, Packing (Occurs [[97, 97]] [97, 97, 97, 97, 97]) S ∧ S.card = k} n := by
  obtain ⟨jit, hjit, hptr⟩ : ∃ jit, JitDfa.from_patterns generous [[97, 97]] = .ok jit ∧
      jit.code.ptr = 0x10000 := from_patterns_compiles (by decide) (by decide) (by decide)
  obtain ⟨n, hn⟩ := a_count_is_how_many_occurrences_can_be_apart (by decide) (by decide) hjit
    [97, 97, 97, 97, 97] (low_place hptr _ 0 (by decide) (by decide))
  exact ⟨jit, _, n, hjit, hn⟩

/-! ## The first match -/

/-- The first match of an input, told by the occurrences: none ends sooner, and none
that ends there is longer. -/
structure First (patterns : List (List UInt8)) (input : List UInt8) (m : Match) : Prop where
  occurs : Occurs patterns input m.start.toNat m.end.toNat
  pattern : patterns[m.pattern_id.toNat]? = some (slice input m.start.toNat m.end.toNat)
  soonest : ∀ s e, Occurs patterns input s e → m.end.toNat ≤ e
  longest : ∀ s, Occurs patterns input s m.end.toNat → m.start.toNat ≤ s

section

variable {patterns : List (List UInt8)} {input p : List UInt8} {m : Match} {e : Nat}

theorem not_occurs_of_quiet (hquiet : ∀ e', 0 < e' → e' < e → ¬ Hit patterns (slice input 0 e'))
    {s f : Nat} (hocc : Occurs patterns input s f) : e ≤ f := by
  obtain ⟨hlt, hle, _⟩ := id hocc
  by_contra hf
  apply hquiet f (by omega) (by omega)
  exact (hit_iff (Nat.zero_le _) hle).mpr ⟨s, Nat.zero_le _, hocc⟩

theorem first_of_reports (he : e ≤ input.length)
    (hquiet : ∀ e', 0 < e' → e' < e → ¬ Hit patterns (slice input 0 e'))
    (hlong : Longest patterns (slice input 0 e) p)
    (hm : Reports m.key (patterns.idxOf p) p e) : First patterns input m := by
  obtain ⟨hid, hstart, hend⟩ := hm
  have hid' : m.pattern_id.toNat = patterns.idxOf p := hid
  have hend' : m.end.toNat = e := hend
  have hstart' : m.start.toNat = e - p.length := by
    have hs : m.start.toNat + p.length = e := hstart
    omega
  obtain ⟨_, hocc⟩ := occurs_of_suffix hlong.pattern hlong.some_byte (Nat.zero_le e) he hlong.ends
  constructor
  · rw [hstart', hend']
    exact hocc
  · rw [hid', hstart', hend', slice_of_suffix (Nat.zero_le e) he hlong.ends,
      List.getElem?_idxOf hlong.pattern]
  · intro s f hf
    rw [hend']
    exact not_occurs_of_quiet hquiet hf
  · intro s hs
    rw [hend'] at hs
    obtain ⟨hlt, _, hmem⟩ := hs
    have hle := hlong.longest _ hmem (slice_suffix (Nat.zero_le s) (Nat.le_of_lt hlt))
    rw [slice_length he] at hle
    omega

end

/-- `scan_first` returns none just when no pattern occurs, and otherwise the
occurrence that ends first, the longest of them. -/
theorem scan_first_finds_the_longest_of_the_first_end {os : Os} {patterns : List (List UInt8)}
    {jit : JitDfa} (hfew : patterns.length < 2 ^ 32)
    (h : JitDfa.from_patterns os patterns = .ok jit) {input : List UInt8}
    (hin : input.length < 2 ^ 32) (place : Placement jit.code input 1) :
    ∃ first, jit.scan_first input place = .ok first ∧
      (first = none ↔ ∀ s e, ¬ Occurs patterns input s e) ∧
      ∀ m, first = some m → First patterns input m := by
  obtain ⟨t, links, ha, hjit⟩ := from_patterns_scans hfew h
  refine ⟨_, scan_first_eq hjit ha.linked ha.sparse input place, ?_⟩
  have hcuts := restarts_spec patterns input
  cases hrestarts : restarts patterns input with
  | nil =>
    have hnone : found t links input = [] := by
      have hkeys := found_wrapped ha input
      rw [hrestarts] at hkeys
      exact List.map_eq_nil_iff.mp hkeys
    rw [hrestarts] at hcuts
    rw [hnone, List.head?_nil]
    refine ⟨iff_of_true rfl ?_, by rintro m ⟨⟩⟩
    cases hcuts with
    | done hquiet =>
      intro s e hocc
      have hlt := not_occurs_of_quiet (e := input.length + 1)
        (fun e' h1 h2 => hquiet e' h1 (by omega)) hocc
      have hle := hocc.2.1
      omega
  | cons c cs =>
    obtain ⟨p, m, hhead, hlong, hm⟩ := found_head ha hin (c := c) (by rw [hrestarts]; rfl)
    rw [hrestarts] at hcuts
    rw [hhead]
    cases hcuts with
    | cut _ hle hhit hquiet _ =>
      have hfirst := first_of_reports hle hquiet hlong hm
      refine ⟨iff_of_false (by simp) fun hno => hno _ _ hfirst.occurs, ?_⟩
      rintro _ ⟨⟩
      exact hfirst

/-- `abcd`, `bc` and `c` on `xabcd`, where `bc` is found. -/
theorem scan_first_finds_the_longest_of_overlapping_patterns :
    ∃ jit place, JitDfa.from_patterns generous overlapping = .ok jit ∧
      ∃ first, jit.scan_first [120, 97, 98, 99, 100] place = .ok first ∧
        (first = none ↔ ∀ s e, ¬ Occurs overlapping [120, 97, 98, 99, 100] s e) ∧
        ∀ m, first = some m → First overlapping [120, 97, 98, 99, 100] m := by
  have hfew : overlapping.length < 2 ^ 32 := by decide
  obtain ⟨jit, hjit, hptr⟩ := from_patterns_compiles hfew (by decide) (by decide)
  exact ⟨jit, low_place hptr _ 1 (by decide) (by decide), hjit,
    scan_first_finds_the_longest_of_the_first_end hfew hjit (by decide) _⟩

end dfajit.occurrences
