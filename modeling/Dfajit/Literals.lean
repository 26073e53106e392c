-- The laws of scanning with patterns. A scan reports at the first place where a
-- pattern ends, and starts over there.
import Dfajit.Agreement

namespace dfajit.literals

open error table codegen table_scan jit_run dfa engines reset_run text_tree trie failure_links
  output_links pattern_scan agreement

/-! ## What the laws speak of -/

/-- A pattern that is not empty ends the text. -/
def Hit (patterns : List (List UInt8)) (x : List UInt8) : Prop :=
  ∃ p ∈ patterns, p ≠ [] ∧ p <:+ x

/-- The longest pattern that ends the text. -/
structure Longest (patterns : List (List UInt8)) (x p : List UInt8) : Prop where
  pattern : p ∈ patterns
  some_byte : p ≠ []
  ends : p <:+ x
  longest : ∀ q ∈ patterns, q <:+ x → q.length ≤ p.length

/-- A match as it is compared: its pattern id, its start and its end. -/
abbrev Key := UInt32 × UInt32 × UInt32

/-- The match is one of the pattern with this id, and ends at `e`. -/
def Reports (m : Key) (id : Nat) (p : List UInt8) (e : Nat) : Prop :=
  m.1.toNat = id ∧ m.2.1.toNat + p.length = e ∧ m.2.2.toNat = e

instance (m : Key) (id : Nat) (p : List UInt8) (e : Nat) : Decidable (Reports m id p e) :=
  inferInstanceAs (Decidable (_ ∧ _ ∧ _))

/-- The places where a scan starts over, each with the one before it. -/
def restarts (patterns : List (List UInt8)) (input : List UInt8) : List (Nat × Nat) :=
  cuts (ends patterns) input

/-- The match of a pattern that ends at `e`. -/
def key_at (patterns : List (List UInt8)) (e : Nat) (p : List UInt8) : Key :=
  (pid_of patterns p, .ofNat (e - p.length), .ofNat e)

/-- The same match as it is written: its place is counted in 32 bits. -/
def wrapped_key (patterns : List (List UInt8)) (e : Nat) (p : List UInt8) : Key :=
  (pid_of patterns p, saturating_sub (.ofNat e) (.ofNat p.length), .ofNat e)

/-! ## The matches of a scan -/

section

variable {patterns : List (List UInt8)} {t : TransitionTable} {links : List UInt32}
  {input x v : List UInt8}

theorem ends_ne_nil : ends patterns x ≠ [] ↔ Hit patterns x := by
  unfold ends
  rw [Ne, suffix.hits_eq_nil_iff]
  simp only [not_forall, not_not]
  constructor
  · rintro ⟨v, hsuf, hv, hne⟩
    exact ⟨v, hv, hne, hsuf⟩
  · rintro ⟨v, hv, hne, hsuf⟩
    exact ⟨v, hsuf, hv, hne⟩

theorem reported_ne_nil : reported patterns x ≠ [] ↔ ends patterns x ≠ [] := by
  unfold reported
  split
  · rfl
  · cases ends patterns x <;> simp

theorem mem_ends : v ∈ ends patterns x ↔ v <:+ x ∧ v ∈ patterns ∧ v ≠ [] := suffix.mem_hits

theorem reported_subset (hv : v ∈ reported patterns x) : v ∈ ends patterns x := by
  unfold reported at hv
  split at hv
  · exact hv
  · exact List.mem_of_mem_take hv

theorem restarts_spec (patterns : List (List UInt8)) (input : List UInt8) :
    Cuts (Hit patterns) input 0 (restarts patterns input) := by
  have hhit : (fun x => ends patterns x ≠ []) = Hit patterns :=
    funext fun x => propext ends_ne_nil
  rw [← hhit]
  exact cuts_spec _ _

theorem sub_ofNat {e n : Nat} (he : e < 2 ^ 32) (hn : n ≤ e) :
    saturating_sub (.ofNat e) (.ofNat n) = .ofNat (e - n) := by
  have h1 : (UInt32.ofNat e).toNat = e := by
    rw [u32_toNat he]
  have h2 : (UInt32.ofNat n).toNat = n := by
    rw [u32_toNat (by omega)]
  have hle : UInt32.ofNat n ≤ UInt32.ofNat e := by
    rw [UInt32.le_iff_toNat_le, h1, h2]
    exact hn
  unfold saturating_sub
  rw [if_pos hle]
  apply UInt32.toNat_inj.mp
  rw [UInt32.toNat_sub_of_le _ _ hle, h1, h2, u32_toNat (by omega)]

/-- The match of a pattern bears its id, its start and its end. -/
theorem reports_key_at (hfew : patterns.length < 2 ^ 32) {e : Nat} (hv : v ∈ patterns)
    (hlen : v.length ≤ e) (he : e < 2 ^ 32) :
    Reports (key_at patterns e v) (patterns.idxOf v) v e := by
  unfold Reports key_at
  simp only
  rw [u32_toNat (by omega), u32_toNat he]
  exact ⟨pid_of_toNat hfew hv, by omega, rfl⟩

theorem match_at_key (h : Automaton patterns t links) {e : Nat} (hv : v ∈ patterns)
    (hpos : 0 < e) :
    (match_at t.pattern_lengths (pid_of patterns v) (e - 1)).key = wrapped_key patterns e v := by
  have hget : t.pattern_lengths[(pid_of patterns v).toNat]? = some (.ofNat v.length) := by
    rw [pid_of_toNat h.few hv, h.lengths, List.getElem?_map, List.getElem?_idxOf hv,
      Option.map_some]
  unfold match_at wrapped_key Match.from_parts Match.key
  simp only [hget, Option.getD_some, Nat.sub_add_cancel hpos]

theorem wrapped_key_eq {e : Nat} (hlen : v.length ≤ e) (he : e < 2 ^ 32) :
    wrapped_key patterns e v = key_at patterns e v := by
  unfold wrapped_key key_at
  rw [sub_ofNat he hlen]

/-- A scan finds at each restart what is reported after the text since the one
before. -/
theorem found_wrapped (h : Automaton patterns t links) (input : List UInt8) :
    (found t links input).map Match.key =
      (restarts patterns input).flatMap fun c =>
        (reported patterns (slice input c.1 c.2)).map (wrapped_key patterns c.2) := by
  have hrep : reportOf (scanner t links) = fun x => (reported patterns x).map (pid_of patterns) :=
    funext h.reportOf_eq
  have hcuts : cuts (reportOf (scanner t links)) input = restarts patterns input := by
    have hhit : (fun x => reportOf (scanner t links) x ≠ []) = Hit patterns := by
      funext x
      rw [hrep]
      simp only [ne_eq, List.map_eq_nil_iff]
      exact propext (reported_ne_nil.trans ends_ne_nil)
    have hspec := cuts_spec (reportOf (scanner t links)) input
    rw [hhit] at hspec
    exact hspec.unique (restarts_spec patterns input)
  unfold found matchesOf
  rw [events_eq_text, events_text, hcuts, List.map_flatMap, List.map_flatMap]
  apply List.flatMap_congr
  intro c hc
  obtain ⟨_, hlt, _, _⟩ := (restarts_spec patterns input).mem hc
  rw [hrep, List.map_map, List.map_map, List.map_map]
  apply List.map_congr_left
  intro v hv
  obtain ⟨_, hv, _⟩ := mem_ends.mp (reported_subset hv)
  have hkey : (match_at t.pattern_lengths (pid_of patterns v) (c.2 - 1)).key =
      wrapped_key patterns c.2 v := match_at_key h hv (by omega)
  exact hkey

theorem found_keys (h : Automaton patterns t links) (hin : input.length < 2 ^ 32) :
    (found t links input).map Match.key =
      (restarts patterns input).flatMap fun c =>
        (reported patterns (slice input c.1 c.2)).map (key_at patterns c.2) := by
  rw [found_wrapped h]
  apply List.flatMap_congr
  intro c hc
  obtain ⟨_, _, hle, _⟩ := (restarts_spec patterns input).mem hc
  apply List.map_congr_left
  intro v hv
  have hlen := (mem_ends.mp (reported_subset hv)).1.length_le
  rw [slice_length hle] at hlen
  exact wrapped_key_eq (by omega) (by omega)

/-- A match that a scan finds, with its restart and its pattern. -/
theorem mem_found (h : Automaton patterns t links) (hin : input.length < 2 ^ 32) {k : Key}
    (hk : k ∈ (found t links input).map Match.key) :
    ∃ c ∈ restarts patterns input, ∃ v ∈ reported patterns (slice input c.1 c.2),
      v.length ≤ c.2 - c.1 ∧ Reports k (patterns.idxOf v) v c.2 := by
  rw [found_keys h hin] at hk
  obtain ⟨c, hc, hk⟩ := List.mem_flatMap.mp hk
  obtain ⟨v, hv, rfl⟩ := List.mem_map.mp hk
  obtain ⟨_, hlt, hle, _⟩ := (restarts_spec patterns input).mem hc
  obtain ⟨hsuf, hpat, _⟩ := mem_ends.mp (reported_subset hv)
  have hlen := hsuf.length_le
  rw [slice_length hle] at hlen
  exact ⟨c, hc, v, hv, hlen, reports_key_at h.few hpat (by omega) (by omega)⟩

end

/-- What `from_patterns` compiles, and what its scans return. -/
theorem from_patterns_scans {os : Os} {patterns : List (List UInt8)} {jit : JitDfa}
    (hfew : patterns.length < 2 ^ 32) (h : JitDfa.from_patterns os patterns = .ok jit) :
    ∃ t links, Automaton patterns t links ∧
      JitDfa.compile_with_output_links os t links = .ok jit := by
  obtain ⟨⟨t, links⟩, htable, h⟩ := bind_ok.mp h
  exact ⟨t, links, automaton_of_ok hfew htable, h⟩

/-! ## Matches are occurrences -/

/-- Each match that a scan writes is an occurrence of its pattern, and starts no
sooner than every match with an earlier end has ended. -/
theorem every_match_is_an_occurrence {os : Os} {patterns : List (List UInt8)} {jit : JitDfa}
    (hfew : patterns.length < 2 ^ 32) (h : JitDfa.from_patterns os patterns = .ok jit)
    {input : List UInt8} (hin : input.length < 2 ^ 32) (slots : List Match)
    (place : Placement jit.code input slots.length) :
    ∃ n written, jit.scan input slots place = .ok (n, written) ∧
      (∀ m ∈ written.take n, ∃ p, patterns[m.pattern_id.toNat]? = some p ∧ p ≠ [] ∧
        m.start < m.end ∧ m.end.toNat ≤ input.length ∧
        slice input m.start.toNat m.end.toNat = p) ∧
      ∀ m ∈ written.take n, ∀ m' ∈ written.take n, m'.end < m.end → m'.end ≤ m.start := by
  obtain ⟨t, links, ha, hjit⟩ := from_patterns_scans hfew h
  have hfound : ∀ m ∈ (fill (paddingOf t) slots (found t links input)).take
      (min (found t links input).length slots.length), ∃ c ∈ restarts patterns input,
      ∃ v ∈ reported patterns (slice input c.1 c.2), v.length ≤ c.2 - c.1 ∧
        Reports m.key (patterns.idxOf v) v c.2 := by
    intro m hm
    have hkey := List.mem_map_of_mem (f := Match.key) hm
    rw [fill_take] at hkey
    exact mem_found ha hin (List.mem_of_mem_take hkey)
  have hcuts := restarts_spec patterns input
  refine ⟨_, _, scan_eq hjit ha.linked ha.sparse input slots place, ?_, ?_⟩
  · intro m hm
    obtain ⟨c, hc, v, hv, hlen, hid, hstart, hend⟩ := hfound m hm
    obtain ⟨_, hlt, hle, _⟩ := hcuts.mem hc
    obtain ⟨hsuf, hpat, hne⟩ := mem_ends.mp (reported_subset hv)
    have hpos := List.length_pos_iff.mpr hne
    have hfrom : m.start.toNat = c.2 - v.length := by
      have : m.key.2.1 = m.start := rfl
      rw [this] at hstart
      omega
    have hto : m.end.toNat = c.2 := hend
    have hpid : m.pattern_id.toNat = patterns.idxOf v := hid
    refine ⟨v, ?_, hne, ?_, by omega, ?_⟩
    · rw [hpid, List.getElem?_idxOf hpat]
    · rw [UInt32.lt_iff_toNat_lt]
      omega
    · rw [hfrom, hto]
      exact slice_of_suffix (by omega) hle hsuf
  · intro m hm m' hm' hearlier
    obtain ⟨c, hc, v, _, hlen, _, hstart, hend⟩ := hfound m hm
    obtain ⟨d, hd, _, _, _, _, _, hend'⟩ := hfound m' hm'
    have hto : m.end.toNat = c.2 := hend
    have hto' : m'.end.toNat = d.2 := hend'
    have hfrom : m.start.toNat + v.length = c.2 := hstart
    rw [UInt32.lt_iff_toNat_lt] at hearlier
    have hle := hcuts.le_of_lt hd hc (by omega)
    have hmem := hcuts.mem hc
    rw [UInt32.le_iff_toNat_le]
    omega

/-- `abcd`, `bc` and `c` on `xabcd`, with room for one match. -/
theorem every_match_of_overlapping_patterns_is_an_occurrence :
    ∃ jit place, JitDfa.from_patterns generous overlapping = .ok jit ∧
    ∃ n written,
      jit.scan [120, 97, 98, 99, 100] [Match.from_parts 0 0 0] place = .ok (n, written) ∧
      (∀ m ∈ written.take n, ∃ p, overlapping[m.pattern_id.toNat]? = some p ∧ p ≠ [] ∧
        m.start < m.end ∧ m.end.toNat ≤ [120, 97, 98, 99, 100].length ∧
        slice [120, 97, 98, 99, 100] m.start.toNat m.end.toNat = p) ∧
      ∀ m ∈ written.take n, ∀ m' ∈ written.take n, m'.end < m.end → m'.end ≤ m.start := by
  have hfew : overlapping.length < 2 ^ 32 := by decide
  obtain ⟨jit, hjit, hptr⟩ := from_patterns_compiles hfew (by decide) (by decide)
  exact ⟨jit, low_place hptr _ 1 (by decide) (by decide), hjit,
    every_match_is_an_occurrence hfew hjit (by decide) _ _⟩

/-! ## Restarts -/

section

variable {patterns : List (List UInt8)} {t : TransitionTable} {links : List UInt32}
  {input x v : List UInt8}

/-- The first report after a text is the longest pattern that ends it. -/
theorem reported_head (hx : Hit patterns x) :
    ∃ p vs, reported patterns x = p :: vs ∧ Longest patterns x p := by
  have hends := ends_ne_nil.mpr hx
  cases he : ends patterns x with
  | nil => exact absurd he hends
  | cons p vs =>
    obtain ⟨hsuf, ⟨hpat, hne⟩, hmax⟩ := suffix.hits_head he
    have hlong : Longest patterns x p := by
      refine ⟨hpat, hne, hsuf, ?_⟩
      intro q hq hqx
      by_cases hnil : q = []
      · rw [hnil]
        exact Nat.zero_le _
      · exact hmax q hqx ⟨hq, hnil⟩
    unfold reported
    rw [he]
    split
    · exact ⟨p, vs, rfl, hlong⟩
    · exact ⟨p, [], rfl, hlong⟩

theorem infix_iff_restart :
    (∃ p ∈ patterns, p ≠ [] ∧ p <:+: input) ↔ restarts patterns input ≠ [] := by
  have hcuts := restarts_spec patterns input
  constructor
  · rintro ⟨p, hp, hne, pre, post, rfl⟩ hnone
    rw [hnone] at hcuts
    cases hcuts with
    | done hquiet =>
      have hpos := List.length_pos_iff.mpr hne
      apply hquiet (pre.length + p.length) (by omega) (by simp)
      refine ⟨p, hp, hne, ?_⟩
      have hslice := slice_mid [] (pre ++ p) post
      simp only [List.nil_append, List.length_nil, Nat.zero_add, List.length_append] at hslice
      rw [hslice]
      exact List.suffix_append _ _
  · intro hsome
    obtain ⟨c, hc⟩ := List.exists_mem_of_ne_nil _ hsome
    obtain ⟨_, _, _, p, hp, hne, hsuf⟩ := hcuts.mem hc
    exact ⟨p, hp, hne, hsuf.isInfix.trans (slice_inside _ _ _)⟩

/-- The first match at a restart is that of the longest pattern. -/
theorem group_head (hfew : patterns.length < 2 ^ 32) (hin : input.length < 2 ^ 32)
    {c : Nat × Nat} (hc : c ∈ restarts patterns input) :
    ∃ p k ks, Longest patterns (slice input c.1 c.2) p ∧ Reports k (patterns.idxOf p) p c.2 ∧
      (reported patterns (slice input c.1 c.2)).map (key_at patterns c.2) = k :: ks := by
  obtain ⟨_, hlt, hle, hhit⟩ := (restarts_spec patterns input).mem hc
  obtain ⟨p, vs, hrep, hlong⟩ := reported_head hhit
  have hlen := hlong.ends.length_le
  rw [slice_length hle] at hlen
  exact ⟨p, _, _, hlong, reports_key_at hfew hlong.pattern (by omega) (by omega),
    by rw [hrep, List.map_cons]⟩

end

/-- A buffer with room for every match gets every match. -/
theorem scan_all {os : Os} {t : TransitionTable} {links : List UInt32} {jit : JitDfa}
    {patterns : List (List UInt8)} (ha : Automaton patterns t links)
    (hjit : JitDfa.compile_with_output_links os t links = .ok jit) {input : List UInt8}
    {slots : List Match} (place : Placement jit.code input slots.length) {n : Nat}
    (hcount : jit.scan_count input place.no_matches = .ok n) (hroom : n ≤ slots.length) :
    n = (found t links input).length ∧
      ∃ written, jit.scan input slots place = .ok (n, written) ∧
        (written.take n).map Match.key = (found t links input).map Match.key := by
  rw [scan_count_eq hjit ha.linked ha.sparse] at hcount
  obtain rfl := Except.ok.inj hcount
  obtain ⟨written, hscan, hkeys⟩ := scan_writes hjit ha.linked ha.sparse slots place
  rw [Nat.min_eq_left hroom] at hscan hkeys
  refine ⟨rfl, written, hscan, ?_⟩
  rw [hkeys, List.take_of_length_le (by simpa using hroom)]

theorem found_nil_iff {patterns : List (List UInt8)} {t : TransitionTable} {links : List UInt32}
    (ha : Automaton patterns t links) {input : List UInt8} (hin : input.length < 2 ^ 32) :
    found t links input = [] ↔ restarts patterns input = [] := by
  rw [← List.map_eq_nil_iff (f := Match.key), found_keys ha hin, List.flatMap_eq_nil_iff]
  constructor
  · intro hall
    by_contra hne
    obtain ⟨c, hc⟩ := List.exists_mem_of_ne_nil _ hne
    obtain ⟨p, k, ks, _, _, hgroup⟩ := group_head ha.few hin hc
    rw [hall c hc] at hgroup
    cases hgroup
  · intro hnone c hc
    rw [hnone] at hc
    cases hc

/-- On a short input the three patterns are counted. -/
theorem overlapping_counts (input : List UInt8) (slots : Nat) (hi : input.length ≤ 0x1000)
    (hroom : ((restarts overlapping input).flatMap fun c =>
      reported overlapping (slice input c.1 c.2)).length ≤ slots) :
    ∃ jit, JitDfa.from_patterns generous overlapping = .ok jit ∧ jit.code.ptr = 0x10000 ∧
      ∃ n, (∀ place, jit.scan_count input place = .ok n) ∧ n ≤ slots := by
  have hfew : overlapping.length < 2 ^ 32 := by decide
  obtain ⟨jit, hjit, hptr⟩ := from_patterns_compiles hfew (by decide) (by decide)
  obtain ⟨t, links, ha, hcompile⟩ := from_patterns_scans hfew hjit
  refine ⟨jit, hjit, hptr, _, scan_count_eq hcompile ha.linked ha.sparse input, ?_⟩
  have hin : input.length < 2 ^ 32 := by omega
  have hkeys := congrArg List.length (found_keys ha hin)
  rw [List.length_map, List.length_flatMap] at hkeys
  rw [List.length_flatMap] at hroom
  simp only [List.length_map] at hkeys
  omega

theorem key_at_end {patterns : List (List UInt8)} {input : List UInt8}
    (hin : input.length < 2 ^ 32) {c : Nat × Nat} (hc : c ∈ restarts patterns input)
    (v : List UInt8) : (key_at patterns c.2 v).2.2.toNat = c.2 := by
  obtain ⟨_, _, hle, _⟩ := (restarts_spec patterns input).mem hc
  unfold key_at
  simp only
  rw [u32_toNat (by omega)]

/-- The matches at each restart: they end there, and the longest pattern is first. -/
theorem groups_at_restarts {patterns : List (List UInt8)} (hfew : patterns.length < 2 ^ 32)
    {input : List UInt8} (hin : input.length < 2 ^ 32) :
    List.Forall₂ (fun c g => (∀ k ∈ g, k.2.2.toNat = c.2) ∧
        ∃ p k ks, g = k :: ks ∧ Longest patterns (slice input c.1 c.2) p ∧
          Reports k (patterns.idxOf p) p c.2)
      (restarts patterns input)
      ((restarts patterns input).map fun c =>
        (reported patterns (slice input c.1 c.2)).map (key_at patterns c.2)) := by
  rw [List.forall₂_map_right_iff, List.forall₂_same]
  intro c hc
  obtain ⟨p, k, ks, hlong, hk, hgroup⟩ := group_head hfew hin hc
  refine ⟨?_, p, k, ks, hgroup, hlong, hk⟩
  intro k hk
  obtain ⟨v, _, rfl⟩ := List.mem_map.mp hk
  exact key_at_end hin hc v

/-- The first match of all is the first at the first restart. -/
theorem found_head {patterns : List (List UInt8)} {t : TransitionTable} {links : List UInt32}
    (ha : Automaton patterns t links) {input : List UInt8} (hin : input.length < 2 ^ 32)
    {c : Nat × Nat} (hc : c ∈ (restarts patterns input).head?) :
    ∃ p m, (found t links input).head? = some m ∧ Longest patterns (slice input c.1 c.2) p ∧
      Reports m.key (patterns.idxOf p) p c.2 := by
  have hfound := found_keys ha hin
  obtain ⟨p, k, ks, hlong, hk, hgroup⟩ := group_head ha.few hin (List.mem_of_mem_head? hc)
  obtain ⟨cs, hcs⟩ := List.head?_eq_some_iff.mp hc
  rw [hcs, List.flatMap_cons, hgroup] at hfound
  cases hms : found t links input with
  | nil =>
    rw [hms] at hfound
    cases hfound
  | cons m ms =>
    rw [hms, List.map_cons, List.cons_append] at hfound
    refine ⟨p, m, rfl, hlong, ?_⟩
    rw [(List.cons.inj hfound).1]
    exact hk

/-- A scan with room for all matches reports at the first place after each
restart where a pattern ends, and there the longest such pattern first. -/
theorem a_scan_restarts_at_each_match {os : Os} {patterns : List (List UInt8)} {jit : JitDfa}
    (hfew : patterns.length < 2 ^ 32) (h : JitDfa.from_patterns os patterns = .ok jit)
    {input : List UInt8} (hin : input.length < 2 ^ 32) {slots : List Match}
    (place : Placement jit.code input slots.length) {n : Nat}
    (hcount : jit.scan_count input place.no_matches = .ok n) (hroom : n ≤ slots.length)
    (place_one : Placement jit.code input 1) :
    ∃ cs, Cuts (Hit patterns) input 0 cs ∧
      (∃ written groups, jit.scan input slots place = .ok (n, written) ∧
        (written.take n).map Match.key = List.flatten groups ∧
        List.Forall₂ (fun c g => (∀ k ∈ g, k.2.2.toNat = c.2) ∧
          ∃ p k ks, g = k :: ks ∧ Longest patterns (slice input c.1 c.2) p ∧
            Reports k (patterns.idxOf p) p c.2) cs groups) ∧
      (∃ first, jit.scan_first input place_one = .ok first ∧ (cs = [] → first = none) ∧
        ∀ c ∈ cs.head?, ∃ p m, first = some m ∧ Longest patterns (slice input c.1 c.2) p ∧
          Reports m.key (patterns.idxOf p) p c.2) ∧
      ∃ found, jit.has_match input place_one = .ok found ∧
        (found = true ↔ ∃ p ∈ patterns, p ≠ [] ∧ p <:+: input) := by
  obtain ⟨t, links, ha, hjit⟩ := from_patterns_scans hfew h
  obtain ⟨_, written, hscan, hkeys⟩ := scan_all ha hjit place hcount hroom
  refine ⟨restarts patterns input, restarts_spec patterns input, ?_, ?_, ?_⟩
  · refine ⟨written, _, hscan, ?_, groups_at_restarts hfew hin⟩
    rw [hkeys, found_keys ha hin, List.flatMap_def]
  · refine ⟨_, scan_first_eq hjit ha.linked ha.sparse input place_one, ?_, ?_⟩
    · intro hnone
      rw [(found_nil_iff ha hin).mpr hnone]
      rfl
    · intro c hc
      exact found_head ha hin hc
  · refine ⟨_, has_match_eq hjit ha.linked ha.sparse input place_one, ?_⟩
    rw [infix_iff_restart, decide_eq_true_iff]
    exact not_congr (found_nil_iff ha hin)

/-- `abcd`, `bc` and `c` on `xabcd`, with room for two matches. -/
theorem a_scan_restarts_at_each_match_of_overlapping_patterns :
    ∃ jit place n place_one,
      JitDfa.from_patterns generous overlapping = .ok jit ∧
      jit.scan_count [120, 97, 98, 99, 100] place.no_matches = .ok n ∧
      ∃ cs, Cuts (Hit overlapping) [120, 97, 98, 99, 100] 0 cs ∧
      (∃ written groups, jit.scan [120, 97, 98, 99, 100]
          [Match.from_parts 0 0 0, Match.from_parts 0 0 0] place = .ok (n, written) ∧
        (written.take n).map Match.key = List.flatten groups ∧
        List.Forall₂ (fun c g => (∀ k ∈ g, k.2.2.toNat = c.2) ∧
          ∃ p k ks, g = k :: ks ∧
            Longest overlapping (slice [120, 97, 98, 99, 100] c.1 c.2) p ∧
            Reports k (overlapping.idxOf p) p c.2) cs groups) ∧
      (∃ first, jit.scan_first [120, 97, 98, 99, 100] place_one = .ok first ∧
        (cs = [] → first = none) ∧
        ∀ c ∈ cs.head?, ∃ p m, first = some m ∧
          Longest overlapping (slice [120, 97, 98, 99, 100] c.1 c.2) p ∧
          Reports m.key (overlapping.idxOf p) p c.2) ∧
      ∃ found, jit.has_match [120, 97, 98, 99, 100] place_one = .ok found ∧
        (found = true ↔ ∃ p ∈ overlapping, p ≠ [] ∧ p <:+: [120, 97, 98, 99, 100]) := by
  obtain ⟨jit, hjit, hptr, n, hcount, hroom⟩ := overlapping_counts [120, 97, 98, 99, 100] 2
    (by decide) (by decide)
  exact ⟨jit, low_place hptr _ 2 (by decide) (by decide), n,
    low_place hptr _ 1 (by decide) (by decide), hjit, hcount _,
    a_scan_restarts_at_each_match (by decide) hjit (by decide) _ (hcount _) (by exact hroom) _⟩

/-! ## Matches that are lost -/

/-- Where the matches before `e` end last, or 0. -/
def prev_end (ms : List Key) (e : Nat) : Nat :=
  (((ms.map fun m => m.2.2.toNat).filter (· < e)).max?).getD 0

/-- At each place where a match ends, each pattern that ends the text since the
place before it has exactly one match. -/
def NoneLost (patterns : List (List UInt8)) (input : List UInt8) (ms : List Key) : Prop :=
  ∀ m ∈ ms, ∀ (i : Nat) (p : List UInt8), patterns[i]? = some p → p ≠ [] →
    p <:+ slice input (prev_end ms m.2.2.toNat) m.2.2.toNat →
    (ms.countP fun k => Reports k i p m.2.2.toNat) = 1

/-- No two patterns are the same, unless they are empty. -/
def Distinct (patterns : List (List UInt8)) : Prop :=
  ∀ (i j : Nat) (p : List UInt8),
    patterns[i]? = some p → patterns[j]? = some p → p ≠ [] → i = j

/-- The longest suffix of the text that begins a pattern is itself a pattern, or
at most one pattern ends the text. -/
def Settled (patterns : List (List UInt8)) (x : List UInt8) : Prop :=
  IsPattern patterns (failure_links.longest (texts patterns) x) ∨ (ends patterns x).length ≤ 1

instance (patterns : List (List UInt8)) (x : List UInt8) : Decidable (Settled patterns x) :=
  inferInstanceAs (Decidable (_ ∨ _))

section

variable {patterns : List (List UInt8)} {input x : List UInt8}

theorem distinct_of_nodup (h : patterns.Nodup) : Distinct patterns := by
  intro i j p hi hj _
  exact (List.getElem?_inj (List.getElem?_eq_some_iff.mp hi).1 h).mp (hi.trans hj.symm)

theorem ends_nodup (patterns : List (List UInt8)) (x : List UInt8) : (ends patterns x).Nodup := by
  apply List.Pairwise.imp ?_ (suffix.hits_sorted x)
  rintro u v hlt rfl
  omega

/-- A text reports all its patterns just when it is settled. -/
theorem settled_iff : Settled patterns x ↔ ∀ p ∈ ends patterns x, p ∈ reported patterns x := by
  unfold Settled reported
  by_cases hp : IsPattern patterns (failure_links.longest (texts patterns) x)
  · rw [if_pos hp]
    exact iff_of_true (Or.inl hp) fun p hmem => hmem
  · rw [if_neg hp]
    have hnodup := ends_nodup patterns x
    cases hends : ends patterns x with
    | nil => simp
    | cons u us =>
      cases us with
      | nil => simp
      | cons v vs =>
        rw [hends, List.nodup_cons] at hnodup
        refine iff_of_false ?_ ?_
        · rintro (h | h)
          · exact hp h
          · simp at h
        · intro hall
          have hv := hall v (by simp)
          rw [List.take_succ_cons, List.take_zero, List.mem_singleton] at hv
          exact hnodup.1 (by simp [hv])

/-- The matches of the restarts. -/
def keys (patterns : List (List UInt8)) (input : List UInt8) : List Key :=
  (restarts patterns input).flatMap fun c =>
    (reported patterns (slice input c.1 c.2)).map (key_at patterns c.2)

/-- The matches end at the restarts, and at each restart there is one. -/
theorem mem_key_ends (hin : input.length < 2 ^ 32) {e : Nat} :
    e ∈ (keys patterns input).map (fun m => m.2.2.toNat) ↔
      ∃ c ∈ restarts patterns input, c.2 = e := by
  unfold keys
  rw [List.mem_map]
  constructor
  · rintro ⟨k, hk, rfl⟩
    obtain ⟨c, hc, hk⟩ := List.mem_flatMap.mp hk
    obtain ⟨v, _, rfl⟩ := List.mem_map.mp hk
    exact ⟨c, hc, (key_at_end hin hc v).symm⟩
  · rintro ⟨c, hc, rfl⟩
    obtain ⟨_, _, _, hhit⟩ := (restarts_spec patterns input).mem hc
    obtain ⟨p, vs, hrep, _⟩ := reported_head hhit
    refine ⟨key_at patterns c.2 p, List.mem_flatMap.mpr ⟨c, hc, ?_⟩, key_at_end hin hc p⟩
    rw [hrep]
    exact List.mem_map.mpr ⟨p, List.mem_cons_self, rfl⟩

/-- The place before a restart is where the matches before it end last. -/
theorem prev_end_eq (hin : input.length < 2 ^ 32) {c : Nat × Nat}
    (hc : c ∈ restarts patterns input) : prev_end (keys patterns input) c.2 = c.1 := by
  have hcuts := restarts_spec patterns input
  have hmem : ∀ e, e ∈ ((keys patterns input).map fun m => m.2.2.toNat).filter (· < c.2) ↔
      (∃ d ∈ restarts patterns input, d.2 = e) ∧ e < c.2 := by
    intro e
    rw [List.mem_filter, mem_key_ends hin, decide_eq_true_iff]
  have hle : ∀ e, (∃ d ∈ restarts patterns input, d.2 = e) → e < c.2 → e ≤ c.1 := by
    rintro _ ⟨d, hd, rfl⟩ hlt
    exact hcuts.le_of_lt hd hc hlt
  unfold prev_end
  rcases hcuts.follows hc with hzero | ⟨d, hd, heq, hlt⟩
  · cases hmax : (((keys patterns input).map fun m => m.2.2.toNat).filter (· < c.2)).max? with
    | none => exact hzero.symm
    | some e =>
      obtain ⟨he, hlt⟩ := (hmem e).mp (List.max?_mem hmax)
      have := hle e he hlt
      rw [Option.getD_some]
      omega
  · have hd' := (hmem c.1).mpr ⟨⟨d, hd, heq⟩, by omega⟩
    have hmax : (((keys patterns input).map fun m => m.2.2.toNat).filter (· < c.2)).max? =
        some c.1 := by
      rw [List.max?_eq_some_iff]
      refine ⟨hd', ?_⟩
      intro e he
      obtain ⟨he, hlt⟩ := (hmem e).mp he
      exact hle e he hlt
    rw [hmax]
    rfl

/-- The other restarts report nothing at the end of this one. -/
theorem count_elsewhere (hin : input.length < 2 ^ 32) {c : Nat × Nat} {p : List UInt8} {i : Nat}
    {ds : List (Nat × Nat)} (hds : ∀ d ∈ ds, d ∈ restarts patterns input ∧ d.2 ≠ c.2) :
    (ds.flatMap fun d => (reported patterns (slice input d.1 d.2)).map
      (key_at patterns d.2)).countP (fun k => Reports k i p c.2) = 0 := by
  rw [List.countP_eq_zero]
  intro k hk
  obtain ⟨d, hd, hk⟩ := List.mem_flatMap.mp hk
  obtain ⟨v, _, rfl⟩ := List.mem_map.mp hk
  rw [decide_eq_true_iff]
  rintro ⟨_, _, hend⟩
  rw [key_at_end hin (hds d hd).1] at hend
  exact (hds d hd).2 hend

/-- A restart reports a pattern as often as it is among the texts that it reports. -/
theorem count_group (hfew : patterns.length < 2 ^ 32) (hin : input.length < 2 ^ 32)
    {c : Nat × Nat} (hc : c ∈ restarts patterns input) {p : List UInt8} :
    ((reported patterns (slice input c.1 c.2)).map (key_at patterns c.2)).countP
        (fun k => Reports k (patterns.idxOf p) p c.2) =
      (reported patterns (slice input c.1 c.2)).count p := by
  obtain ⟨_, hlt, hle, _⟩ := (restarts_spec patterns input).mem hc
  rw [List.countP_map, List.count_eq_countP]
  apply List.countP_congr
  intro v hv
  obtain ⟨hsuf, hpat, _⟩ := mem_ends.mp (reported_subset hv)
  have hlen := hsuf.length_le
  rw [slice_length hle] at hlen
  simp only [Function.comp_apply, decide_eq_true_iff, beq_iff_eq]
  constructor
  · rintro ⟨hid, _⟩
    unfold key_at at hid
    rw [pid_of_toNat hfew hpat] at hid
    exact (List.idxOf_inj hpat).mp hid
  · rintro rfl
    exact reports_key_at hfew hpat (by omega) (by omega)

/-- How often a pattern is reported at a restart. -/
theorem count_key (hfew : patterns.length < 2 ^ 32) (hin : input.length < 2 ^ 32) {c : Nat × Nat}
    (hc : c ∈ restarts patterns input) {p : List UInt8} :
    (keys patterns input).countP (fun k => Reports k (patterns.idxOf p) p c.2) =
      (reported patterns (slice input c.1 c.2)).count p := by
  obtain ⟨pre, post, hsplit⟩ := List.append_of_mem hc
  have hsorted := (restarts_spec patterns input).sorted
  rw [hsplit, List.map_append, List.map_cons, List.pairwise_append, List.pairwise_cons] at hsorted
  obtain ⟨_, ⟨hafter, _⟩, hbefore⟩ := hsorted
  have hpre : ∀ d ∈ pre, d ∈ restarts patterns input ∧ d.2 ≠ c.2 := by
    intro d hd
    refine ⟨by rw [hsplit]; exact List.mem_append_left _ hd, ?_⟩
    have := hbefore d.2 (List.mem_map_of_mem hd) c.2 List.mem_cons_self
    omega
  have hpost : ∀ d ∈ post, d ∈ restarts patterns input ∧ d.2 ≠ c.2 := by
    intro d hd
    refine ⟨by rw [hsplit]; exact List.mem_append_right _ (List.mem_cons_of_mem _ hd), ?_⟩
    have := hafter d.2 (List.mem_map_of_mem hd)
    omega
  have hgroup := count_group hfew hin hc (p := p)
  unfold keys
  rw [hsplit, List.flatMap_append, List.flatMap_cons, List.countP_append, List.countP_append,
    count_elsewhere hin hpre, count_elsewhere hin hpost, hgroup, Nat.zero_add, Nat.add_zero]

theorem distinct_idxOf (hd : Distinct patterns) {i : Nat} {p : List UInt8}
    (hi : patterns[i]? = some p) (hne : p ≠ []) : patterns.idxOf p = i := by
  have hp := List.mem_of_getElem? hi
  apply hd (patterns.idxOf p) i p ?_ hi hne
  exact List.getElem?_idxOf hp

/-- No match is lost just when the text before each restart is settled. -/
theorem none_lost_iff (hfew : patterns.length < 2 ^ 32) (hd : Distinct patterns)
    (hin : input.length < 2 ^ 32) :
    NoneLost patterns input (keys patterns input) ↔
      ∀ c ∈ restarts patterns input, Settled patterns (slice input c.1 c.2) := by
  have hcuts := restarts_spec patterns input
  constructor
  · intro hnone c hc
    rw [settled_iff]
    intro p hp
    obtain ⟨hsuf, hpat, hne⟩ := mem_ends.mp hp
    obtain ⟨m, hm, hend⟩ := List.mem_map.mp ((mem_key_ends hin).mpr ⟨c, hc, rfl⟩)
    have hone := hnone m hm (patterns.idxOf p) p (List.getElem?_idxOf hpat) hne
    rw [hend, prev_end_eq hin hc, count_key hfew hin hc] at hone
    have hcount := hone hsuf
    exact List.count_pos_iff.mp (by omega)
  · intro hall m hm i p hi hne hsuf
    obtain ⟨c, hc, hend⟩ := (mem_key_ends hin).mp (List.mem_map_of_mem hm)
    rw [← hend] at hsuf ⊢
    rw [prev_end_eq hin hc] at hsuf
    have hpat := List.mem_of_getElem? hi
    have hmem := settled_iff.mp (hall c hc) p (mem_ends.mpr ⟨hsuf, hpat, hne⟩)
    rw [← distinct_idxOf hd hi hne, count_key hfew hin hc]
    have hnodup : (reported patterns (slice input c.1 c.2)).Nodup := by
      unfold reported
      split
      · exact ends_nodup _ _
      · exact (ends_nodup _ _).sublist (List.take_sublist _ _)
    exact List.count_eq_one_of_mem hnodup hmem

end

/-- A scan with room for all matches loses no match just when the text before
each restart is settled. -/
theorem no_match_is_lost_where_the_texts_are_settled {os : Os} {patterns : List (List UInt8)}
    {jit : JitDfa} (hfew : patterns.length < 2 ^ 32) (hd : Distinct patterns)
    (h : JitDfa.from_patterns os patterns = .ok jit) {input : List UInt8}
    (hin : input.length < 2 ^ 32) {slots : List Match}
    (place : Placement jit.code input slots.length) {n : Nat}
    (hcount : jit.scan_count input place.no_matches = .ok n) (hroom : n ≤ slots.length) :
    ∃ written, jit.scan input slots place = .ok (n, written) ∧
      (NoneLost patterns input ((written.take n).map Match.key) ↔
        ∀ c ∈ restarts patterns input, Settled patterns (slice input c.1 c.2)) := by
  obtain ⟨t, links, ha, hjit⟩ := from_patterns_scans hfew h
  obtain ⟨_, written, hscan, hkeys⟩ := scan_all ha hjit place hcount hroom
  refine ⟨written, hscan, ?_⟩
  rw [hkeys, found_keys ha hin]
  exact none_lost_iff hfew hd hin

/-- On `bc` the patterns `bc` and `c` are both reported. -/
theorem no_match_of_overlapping_patterns_is_lost :
    ∃ jit place n, JitDfa.from_patterns generous overlapping = .ok jit ∧
      jit.scan_count [98, 99] place.no_matches = .ok n ∧
      ∃ written, jit.scan [98, 99] [Match.from_parts 0 0 0, Match.from_parts 0 0 0] place =
          .ok (n, written) ∧
        (NoneLost overlapping [98, 99] ((written.take n).map Match.key) ↔
          ∀ c ∈ restarts overlapping [98, 99], Settled overlapping (slice [98, 99] c.1 c.2)) := by
  obtain ⟨jit, hjit, hptr, n, hcount, hroom⟩ := overlapping_counts [98, 99] 2
    (by decide) (by decide)
  exact ⟨jit, low_place hptr _ 2 (by decide) (by decide), n, hjit, hcount _,
    no_match_is_lost_where_the_texts_are_settled (by decide) (distinct_of_nodup (by decide)) hjit
      (by decide) _ (hcount _) (by exact hroom)⟩

/-- On `abc` the pattern `c` is lost: the state of `abc` begins `abcd`, is no
pattern, and reports `bc` alone. -/
theorem a_match_of_overlapping_patterns_is_lost :
    Distinct overlapping ∧ ∃ jit place n written,
      JitDfa.from_patterns generous overlapping = .ok jit ∧
      jit.scan_count [97, 98, 99] place.no_matches = .ok n ∧ n ≤ 2 ∧
      jit.scan [97, 98, 99] [Match.from_parts 0 0 0, Match.from_parts 0 0 0] place =
        .ok (n, written) ∧
      ¬ NoneLost overlapping [97, 98, 99] ((written.take n).map Match.key) := by
  have hfew : overlapping.length < 2 ^ 32 := by decide
  have hin : [97, 98, 99].length < 2 ^ 32 := by decide
  have hd : Distinct overlapping := distinct_of_nodup (by decide)
  obtain ⟨jit, hjit, hptr, n, hcount, hroom⟩ := overlapping_counts [97, 98, 99] 2
    (by decide) (by decide)
  obtain ⟨t, links, ha, hcompile⟩ := from_patterns_scans hfew hjit
  have place : Placement jit.code [97, 98, 99]
    [Match.from_parts 0 0 0, Match.from_parts 0 0 0].length :=
    low_place hptr _ 2 (by decide) (by decide)
  obtain ⟨_, written, hscan, hkeys⟩ := scan_all ha hcompile place (hcount _) hroom
  refine ⟨hd, jit, place, n, written, hjit, hcount _, hroom, hscan, ?_⟩
  rw [hkeys, found_keys ha hin]
  intro hnone
  exact absurd ((none_lost_iff hfew hd hin).mp hnone) (by decide)

end dfajit.literals
