-- What a table and a compiled DFA say about themselves (table.rs, dfa.rs): the
-- number of targets of a state, the size of the code, and the number of patterns.
import Mathlib.Data.Finset.Card
import Dfajit.Ranges
import Dfajit.Literals

namespace dfajit.table.TransitionTable

/-- How many targets a state has. -/
def transition_density (t : TransitionTable) (state : Nat) : Nat :=
  if state ≥ t.state_count then 0
  else
    let base := state * t.class_count
    ((List.range t.class_count).filterMap fun byte => t.transitions[base + byte]?).toFinset.card

def estimated_code_size (t : TransitionTable) : Nat :=
  let code := 256
  let data := t.transitions.length * 4 + t.state_count * 4 + t.pattern_lengths.length * 4
  code + data

def is_jit_eligible (t : TransitionTable) : Bool := t.state_count ≤ 4096 && t.class_count == 256

end dfajit.table.TransitionTable

namespace dfajit.inspection

open error table words run_length ranges codegen emitted table_scan jit_run dfa engines text_tree
  trie output_links dense_table pattern_scan agreement literals reset_run

/-! ## The targets of a state -/

section

variable {t : TransitionTable} {s : Nat} {w : Width}

theorem mem_row (hlen : t.transitions.length = t.state_count * t.class_count)
    (hs : s < t.state_count) {x : UInt32} :
    x ∈ row t s ↔ ∃ b < t.class_count, t.transitions[s * t.class_count + b]? = some x := by
  have hrow := row_length hlen hs
  rw [List.mem_iff_getElem?]
  constructor
  · rintro ⟨b, hb⟩
    have hlt := (List.getElem?_eq_some_iff.mp hb).1
    rw [hrow] at hlt
    exact ⟨b, hlt, (row_get hlt).symm.trans hb⟩
  · rintro ⟨b, hlt, hb⟩
    exact ⟨b, (row_get hlt).trans hb⟩

theorem density_eq (hlen : t.transitions.length = t.state_count * t.class_count)
    (hs : s < t.state_count) : t.transition_density s = (row t s).toFinset.card := by
  unfold TransitionTable.transition_density
  rw [if_neg (by omega)]
  simp only
  congr 1
  ext x
  rw [List.mem_toFinset, List.mem_toFinset, mem_row hlen hs, List.mem_filterMap]
  simp only [List.mem_range]

end

/-- Where each class is a byte, the density of a state is the number of targets of its
ranges: at most one for each range, and a single one just when there is one range.
With more classes it is at least that number. -/
theorem the_density_of_a_state_counts_the_targets_of_its_ranges (w : Width) (t : TransitionTable)
    (hlen : t.transitions.length = t.state_count * t.class_count)
    (hvec : t.transitions.length ≤ w.max) :
    ∃ rs, t.compute_ranges w = .ok rs ∧ ∀ s < t.state_count, ∃ r, rs[s]? = some r ∧
      (r.map (·.2.2)).toFinset.card ≤ t.transition_density s ∧
      (t.class_count ≤ 256 → t.transition_density s = (r.map (·.2.2)).toFinset.card ∧
        t.transition_density s ≤ r.length ∧ (t.transition_density s = 1 ↔ r.length = 1)) := by
  have hfit : t.state_count * t.class_count ≤ w.max := by omega
  have hstart : ∀ s < t.state_count, s * t.class_count ≤ t.transitions.length := by
    intro s hs
    rw [hlen]
    exact Nat.mul_le_mul_right _ (Nat.le_of_lt hs)
  obtain ⟨rs, hrs⟩ := (compute_ranges_total hfit).mpr hstart
  obtain ⟨_, hrows⟩ := (compute_ranges_iff hfit rs).mp hrs
  refine ⟨rs, hrs, ?_⟩
  intro s hs
  obtain ⟨_, r, hr, hget⟩ := hrows s hs
  have hpos := t.class_pos
  have hrow := row_length hlen hs
  obtain ⟨runs, hruns, hmax⟩ := row_ranges_eq (row t s) (by
    intro hnil
    rw [hnil, List.length_nil] at hrow
    omega)
  rw [hruns] at hr
  obtain rfl := Except.ok.inj hr
  have hvalues : (runs.map range_of).map (·.2.2) = runs.map (·.value) := by
    rw [List.map_map]
    rfl
  have htargets : (runs.map (·.value)).toFinset = ((row t s).take 256).toFinset := by
    ext x
    rw [List.mem_toFinset, List.mem_toFinset, hmax.mem_values]
  rw [density_eq hlen hs]
  refine ⟨_, hget, ?_, ?_⟩
  · rw [hvalues, htargets]
    apply Finset.card_le_card
    intro x hx
    exact List.mem_toFinset.mpr (List.mem_of_mem_take (List.mem_toFinset.mp hx))
  · intro hbytes
    rw [List.take_of_length_le (by omega)] at htargets
    rw [hvalues, List.length_map, ← htargets]
    refine ⟨rfl, ?_, ?_⟩
    · have hle := (runs.map (·.value)).toFinset_card_le
      rwa [List.length_map] at hle
    · exact hmax.length_eq_one_iff.symm

/-- Two rows with two targets each, and a class for each byte. -/
theorem the_density_of_rows_of_letters_counts_their_targets :
    ∃ rs, (letter_rows 256 (by decide)).compute_ranges .w64 = .ok rs ∧ ∀ s < 2,
      ∃ r, rs[s]? = some r ∧
        (letter_rows 256 (by decide)).transition_density s = (r.map (·.2.2)).toFinset.card ∧
        (letter_rows 256 (by decide)).transition_density s ≤ r.length ∧
        ((letter_rows 256 (by decide)).transition_density s = 1 ↔ r.length = 1) := by
  have hlen := letter_rows_len 256 (by decide)
  obtain ⟨rs, hrs, hrows⟩ := the_density_of_a_state_counts_the_targets_of_its_ranges .w64
    (letter_rows 256 (by decide)) hlen (by rw [hlen]; decide)
  refine ⟨rs, hrs, ?_⟩
  intro s hs
  obtain ⟨r, hr, _, hbytes⟩ := hrows s hs
  exact ⟨r, hr, hbytes (Nat.le_refl _)⟩

/-! ## The size of the code -/

section

variable {os : Os} {t : TransitionTable} {links : List UInt32}

theorem eligible_iff (hc : t.class_count = 256) :
    t.is_jit_eligible = true ↔ t.state_count ≤ MAX_JIT_STATES := by
  unfold TransitionTable.is_jit_eligible MAX_JIT_STATES
  simp [hc]

theorem link_table_length (h : links.length ≤ t.state_count) :
    (link_table t.state_count links).length = t.state_count := by
  unfold link_table
  split
  · unfold TransitionTable.resize
    rw [List.length_append, List.length_take, List.length_replicate]
    omega
  · omega

/-- The code before its data has 24 bytes less than the estimate allows it. The
estimate has no room for the links, nor for the length that an empty list gets. -/
theorem unpatched_length (hlinks : links.length ≤ t.state_count) :
    (unpatched 256 (sections t links)).length + 24 =
      t.estimated_code_size + 4 * t.state_count + if t.pattern_lengths = [] then 4 else 0 := by
  have hlens : (sections t links).pattern_lengths.length =
      t.pattern_lengths.length + if t.pattern_lengths = [] then 1 else 0 := by
    cases hl : t.pattern_lengths with
    | nil => simp [sections, hl]
    | cons x xs => simp [sections, hl]
  have hlinks : (sections t links).output_link.length = t.state_count :=
    link_table_length hlinks
  have hflagged : (sections t links).flagged.length = t.transitions.length := List.length_map _
  have haccept : (sections t links).accept_pattern.length = t.state_count :=
    accept_table_length _ _
  have hestimate : t.estimated_code_size = 256 +
      4 * (t.transitions.length + t.state_count + t.pattern_lengths.length) := by
    unfold TransitionTable.estimated_code_size
    simp only
    omega
  rw [unpatched, List.length_append, emit_code_length, encodeWords_length]
  simp only [Sections.words, List.length_append]
  rw [hlens, hlinks, hflagged, haccept, hestimate]
  by_cases hnil : t.pattern_lengths = []
  · rw [if_pos hnil, if_pos hnil]
    omega
  · rw [if_neg hnil, if_neg hnil]
    omega

end

/-- A DFA has native code just when its table is eligible. The code takes whole
pages, for 24 bytes less than the estimate and for the links, which the estimate
leaves out. Every other DFA takes one page. -/
theorem eligible_tables_become_code_of_the_estimated_size {os : Os} {t : TransitionTable}
    {links : List UInt32} {jit : JitDfa}
    (hjit : JitDfa.compile_with_output_links os t links = .ok jit) :
    jit.code.is_jit = t.is_jit_eligible ∧ os.mmap jit.code.len = .ok jit.code.ptr ∧
      ∃ size, size + 24 = t.estimated_code_size + 4 * t.state_count +
          (if t.pattern_lengths = [] then 4 else 0) ∧
        jit.code.len = if t.is_jit_eligible then page_align size else page_size := by
  obtain ⟨hch, hcode⟩ := compile_with_output_links_ok hjit
  obtain ⟨hmap, _, hlen⟩ := compile_x86_64_mapped hcode
  have h256 : UInt32.ofNat t.class_count = 256 := by rw [hch.bytes]; rfl
  have hsize := unpatched_length (Checked.links_le hch)
  rw [← hlen] at hmap
  rw [code_size, h256] at hlen
  by_cases hn : t.state_count ≤ MAX_JIT_STATES
  · obtain ⟨post, hc⟩ := compile_x86_64_jit hn hch.bytes hcode
    have helig := (eligible_iff hch.bytes).mpr hn
    refine ⟨?_, hmap, _, hsize, ?_⟩
    · rw [hc.jit, helig]
    · rw [hlen, if_neg (by omega), if_pos helig]
  · have helig := mt (eligible_iff hch.bytes).mp hn
    have hbuild : compile_interpreted_fallback os t links = .ok jit.code := by
      have hs := t.states_le
      unfold MAX_STATES at hs
      unfold compile_x86_64 at hcode
      rwa [if_neg (by omega), if_pos (by omega)] at hcode
    refine ⟨?_, hmap, _, hsize, ?_⟩
    · rw [(interprets_of_fallback hbuild).2, (Bool.not_eq_true _).mp helig]
    · rw [hlen, if_pos (by omega), if_neg helig]

/-- The code of three patterns with links. -/
theorem overlapping_patterns_become_code_of_the_estimated_size :
    ∃ t links jit, pattern_table overlapping = .ok (t, links) ∧
      JitDfa.compile_with_output_links generous t links = .ok jit ∧
      jit.code.is_jit = t.is_jit_eligible ∧ generous.mmap jit.code.len = .ok jit.code.ptr ∧
      ∃ size, size + 24 = t.estimated_code_size + 4 * t.state_count +
          (if t.pattern_lengths = [] then 4 else 0) ∧
        jit.code.len = if t.is_jit_eligible then page_align size else page_size := by
  have hfew : overlapping.length < 2 ^ 32 := by decide
  obtain ⟨t, links, htable, ha⟩ := pattern_table_automaton hfew (by decide) (Or.inl (by decide))
  obtain ⟨jit, hjit, _⟩ := Automaton.compiles ha
  exact ⟨t, links, jit, htable, hjit, eligible_tables_become_code_of_the_estimated_size hjit⟩

/-! ## The number of patterns -/

theorem count_patterns_le {as : List (UInt32 × UInt32)} {n : Nat} :
    count_patterns as ≤ n ↔ ∀ a ∈ as, a.2.toNat < n := by
  unfold count_patterns
  cases hmax : (as.map fun a => a.2.toNat + 1).max? with
  | none =>
    rw [List.max?_eq_none_iff, List.map_eq_nil_iff] at hmax
    simp [hmax]
  | some m =>
    rw [List.max?_eq_some_iff] at hmax
    obtain ⟨hmem, hle⟩ := hmax
    rw [Option.getD_some]
    constructor
    · intro hm a ha
      have := hle _ (List.mem_map_of_mem ha)
      omega
    · intro h
      obtain ⟨a, ha, rfl⟩ := List.mem_map.mp hmem
      exact h a ha

section

variable {os : Os} {t : TransitionTable} {links : List UInt32} {jit : JitDfa}

theorem pattern_count_eq (h : JitDfa.compile_with_output_links os t links = .ok jit) :
    jit.pattern_count = count_patterns t.accept_states := by
  obtain ⟨_, _, h⟩ := bind_ok.mp h
  obtain ⟨code, _, h⟩ := bind_ok.mp h
  cases h
  rfl

/-- What a scanner reports stands in an accept entry. -/
theorem reports_accept (hl : Linked t links) (hlens : t.pattern_lengths.length < 2 ^ 32)
    {s pid : UInt32} (h : pid ∈ reports t links s) : ∃ a ∈ t.accept_states, a.2 = pid := by
  have hs : pattern_of t s ≠ NONE := by
    intro hs
    rw [reports_nil_iff.mpr hs] at h
    cases h
  obtain ⟨l, hchain, hentered⟩ := hl.ends s hs
  rw [reports_eq hs hchain] at h
  obtain ⟨x, hx, rfl⟩ := List.mem_map.mp h
  have hlt := (hentered x hx).2
  have hne : pattern_of t x ≠ NONE := by
    intro he
    rw [he, none_toNat] at hlt
    omega
  exact ⟨_, pattern_of_mem hne, rfl⟩

theorem found_lt_count (hl : Linked t links) (hlens : t.pattern_lengths.length < 2 ^ 32)
    {input : List UInt8} {m : Match} (hm : m ∈ found t links input) :
    m.pattern_id.toNat < count_patterns t.accept_states := by
  obtain ⟨e, he, rfl⟩ := List.mem_map.mp hm
  obtain ⟨w, b, _, _, hout⟩ := Scanner.mem_events he
  obtain ⟨a, ha, hid⟩ := reports_accept hl hlens hout
  have hlt := count_patterns_le.mp (Nat.le_refl _) a ha
  rw [hid] at hlt
  exact hlt

end

/-- Each id that a scan of a compiled DFA writes is below its pattern count, and
that is no more than the table has pattern lengths. -/
theorem every_id_of_a_scan_is_below_the_pattern_count {os : Os} {t : TransitionTable}
    {links : List UInt32} {jit : JitDfa} (hruns : RunsWith t links)
    (hlens : t.pattern_lengths.length < 2 ^ 32)
    (hjit : JitDfa.compile_with_output_links os t links = .ok jit) (input : List UInt8)
    (slots : List Match) (place : Placement jit.code input slots.length) :
    jit.pattern_count ≤ t.pattern_lengths.length ∧
      ∃ n written, jit.scan input slots place = .ok (n, written) ∧
        ∀ m ∈ written.take n, m.pattern_id.toNat < jit.pattern_count := by
  obtain ⟨hch, _⟩ := compile_with_output_links_ok hjit
  obtain ⟨hl, hsp⟩ := hruns.linked hch
  rw [pattern_count_eq hjit]
  refine ⟨count_patterns_le.mpr hch.valid.lengths, _, _, scan_eq hjit hl hsp input slots place, ?_⟩
  intro m hm
  have hkey := List.mem_map_of_mem (f := Match.key) hm
  rw [fill_take] at hkey
  obtain ⟨m', hm', heq⟩ := List.mem_map.mp (List.mem_of_mem_take hkey)
  have hid : m.pattern_id = m'.pattern_id := (congrArg Prod.fst heq).symm
  rw [hid]
  exact found_lt_count hl hlens hm'

theorem every_id_of_overlapping_patterns_is_below_the_pattern_count :
    ∃ t links jit, ∃ place : Placement jit.code [120, 97, 98, 99, 100] 3,
      pattern_table overlapping = .ok (t, links) ∧
      JitDfa.compile_with_output_links generous t links = .ok jit ∧
      jit.pattern_count ≤ t.pattern_lengths.length ∧
      ∃ n written, jit.scan [120, 97, 98, 99, 100]
          (List.replicate 3 (Match.from_parts 0 0 0)) place = .ok (n, written) ∧
        ∀ m ∈ written.take n, m.pattern_id.toNat < jit.pattern_count := by
  have hfew : overlapping.length < 2 ^ 32 := by decide
  obtain ⟨t, links, htable, ha⟩ := pattern_table_automaton hfew (by decide) (Or.inl (by decide))
  obtain ⟨jit, hjit, hptr⟩ := Automaton.compiles ha
  have hlens : t.pattern_lengths.length < 2 ^ 32 := by
    rw [ha.lengths]
    decide
  exact ⟨t, links, jit, low_place hptr _ 3 (by decide) (by decide), htable, hjit,
    every_id_of_a_scan_is_below_the_pattern_count (Or.inr ⟨_, htable⟩) hlens hjit _
      (List.replicate 3 (Match.from_parts 0 0 0)) _⟩

/-- With patterns, the pattern count is the least number above the place of each
pattern that is not empty, where a pattern stands for the first time. -/
theorem the_pattern_count_is_above_each_pattern {os : Os} {patterns : List (List UInt8)}
    {jit : JitDfa} (hfew : patterns.length < 2 ^ 32)
    (h : JitDfa.from_patterns os patterns = .ok jit) (n : Nat) :
    jit.pattern_count ≤ n ↔ ∀ p ∈ patterns, p ≠ [] → patterns.idxOf p < n := by
  obtain ⟨t, links, ha, hjit⟩ := from_patterns_scans hfew h
  rw [pattern_count_eq hjit, count_patterns_le]
  constructor
  · intro hall p hp hne
    have hpat : IsPattern patterns p := ⟨hp, hne⟩
    have haccept := (ha.accepts (state_of (texts patterns) p, pid_of patterns p)).mpr
      ⟨p, ha.covered p hp, rfl, first_pid_of_pattern ha.covered hpat⟩
    have hlt := hall _ haccept
    rwa [pid_of_toNat hfew hp] at hlt
  · intro hall a hmem
    obtain ⟨v, _, _, hfirst⟩ := (ha.accepts a).mp hmem
    obtain ⟨u, us, hends, hu, hid⟩ := first_pid_mem hfirst
    have hne := (mem_ends.mp (hends ▸ List.mem_cons_self : u ∈ ends patterns v)).2.2
    rw [hid, pid_of_toNat hfew hu]
    exact hall u hu hne

theorem the_pattern_count_of_overlapping_patterns :
    ∃ jit, JitDfa.from_patterns generous overlapping = .ok jit ∧ ∀ n,
      (jit.pattern_count ≤ n ↔ ∀ p ∈ overlapping, p ≠ [] → overlapping.idxOf p < n) := by
  have hfew : overlapping.length < 2 ^ 32 := by decide
  obtain ⟨jit, h, _⟩ := from_patterns_compiles hfew (by decide) (by decide)
  exact ⟨jit, h, the_pattern_count_is_above_each_pattern hfew h⟩

end dfajit.inspection
