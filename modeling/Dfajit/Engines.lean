-- The engines agree: the emitted code, the interpreter and the portable build
-- all find what the scanner of the table reports.
import Dfajit.JitRun
import Dfajit.Dfa

namespace dfajit.engines

open error table codegen table_scan jit_run dfa reset_run

/-! ## The portable build -/

section

variable {t : TransitionTable} {links : List UInt32}

/-- The accept entries one by one, none of them past the end. -/
theorem set_accepts_eq {α : Type} (value : UInt32 → α) (xs : List α)
    (as : List (UInt32 × UInt32)) (h : ∀ a ∈ as, a.1.toNat < xs.length) :
    portable.set_accepts value xs as =
      .ok (as.foldl (fun xs a => xs.set a.1.toNat (value a.2)) xs) := by
  induction as generalizing xs with
  | nil => rfl
  | cons a as ih =>
    rw [List.forall_mem_cons] at h
    unfold portable.set_accepts set_index
    rw [if_pos h.1, ok_bind, ih _ (by simpa using h.2), List.foldl_cons]

/-- The accept table of the portable scan is that of the code generator. -/
theorem portable_accept_table (hv : t.Valid) :
    portable.set_accepts id (List.replicate t.state_count NONE) t.accept_states =
      .ok (accept_table t.state_count t.accept_states) := by
  rw [set_accepts_eq _ _ _ (by simpa using hv.accepts)]
  unfold accept_table
  congr 1
  have hlen : ∀ a ∈ t.accept_states, a.1.toNat < (List.replicate t.state_count NONE).length := by
    simpa using hv.accepts
  generalize List.replicate t.state_count NONE = xs at hlen
  generalize t.accept_states = as at hlen
  induction as generalizing xs with
  | nil => rfl
  | cons a as ih =>
    rw [List.forall_mem_cons] at hlen
    obtain ⟨state, pattern_id⟩ := a
    rw [List.foldl_cons, List.foldl_cons]
    simp only [if_pos hlen.1]
    exact ih _ (by simpa using hlen.2)

/-- The flags of the portable count are up on the states that have a pattern. -/
theorem portable_is_accept (hv : t.Valid) (hlen : t.pattern_lengths.length < 2 ^ 32) :
    ∃ flags, portable.set_accepts (fun _ => true) (List.replicate t.state_count false)
      t.accept_states = .ok flags ∧
      ∀ s : UInt32, s.toNat < t.state_count →
        flags[s.toNat]? = some (decide (pattern_of t s ≠ NONE)) := by
  refine ⟨_, set_accepts_eq _ _ _ (by simpa using hv.accepts), ?_⟩
  intro s hs
  have hmem : pattern_of t s ≠ NONE ↔ s ∈ t.accept_states.map (·.1) := by
    constructor
    · intro h
      exact List.mem_map.mpr ⟨_, pattern_of_mem h, rfl⟩
    · intro h he
      obtain ⟨a, ha, rfl⟩ := List.mem_map.mp h
      have h1 : (accept_table t.state_count t.accept_states)[a.1.toNat]? = some a.2 :=
        accept_table_of_mem hv.one_each ha hs
      rw [accept_table_get hs, he] at h1
      have h2 := hv.lengths a ha
      rw [← Option.some.inj h1] at h2
      rw [none_toNat] at h2
      omega
  have hflags : ∀ (as : List (UInt32 × UInt32)) (xs : List Bool), s.toNat < xs.length →
      (as.foldl (fun xs a => xs.set a.1.toNat true) xs)[s.toNat]? =
        some (xs[s.toNat]?.getD false || decide (s ∈ as.map (·.1))) := by
    intro as
    induction as with
    | nil =>
      intro xs hxs
      simp [List.getElem?_eq_getElem hxs]
    | cons a as ih =>
      intro xs hxs
      rw [List.foldl_cons, ih _ (by simpa using hxs), List.getElem?_set]
      by_cases ha : a.1.toNat = s.toNat
      · simp [hxs, UInt32.toNat_inj.mp ha]
      · have hne : s ≠ a.1 := fun he => ha (by rw [he])
        rw [if_neg ha, List.map_cons]
        simp only [List.mem_cons, hne, false_or]
  rw [hflags _ _ (by simpa using hs), List.getElem?_replicate, if_pos hs]
  simp only [Option.getD_some, Bool.false_or, hmem]

theorem portable_scan_loop_eq {p : portable.JitDfa} (h : Linked p.table p.output_links)
    (slots ms : List Match) (s : UInt32) (hs : s.toNat < p.table.state_count) (pos : Nat)
    (input : List UInt8) :
    p.scan_loop (accept_table p.table.state_count p.table.accept_states) s ms.length
        (fill zeroed slots ms) pos input =
      .ok (ms.length + ((scanner p.table p.output_links).eventsFrom s pos input).length,
        fill zeroed slots
          (ms ++ matchesOf p.table ((scanner p.table p.output_links).eventsFrom s pos input))) := by
  induction input generalizing s pos ms with
  | nil => simp [portable.JitDfa.scan_loop, Scanner.eventsFrom, matchesOf]
  | cons b input ih =>
    have hnext := h.next_lt hs b
    unfold portable.JitDfa.scan_loop
    rw [events_step, matchesOf_step]
    simp only [index_ok (accept_table_get hnext), ok_bind]
    by_cases hp : pattern_of p.table (clean_next p.table s b) = NONE
    · rw [if_neg (not_not.mpr hp), if_pos hp, ih _ _ hnext, reports_nil_iff.mpr hp]
      rfl
    · rw [if_pos hp, if_neg hp, follow_reports h hp (fun _ hl => hl), ok_bind]
      have h1 := ih (ms ++ (reports p.table p.output_links (clean_next p.table s b)).map
        (match_at p.table.pattern_lengths · pos)) 0 h.some_state (pos + 1)
      rw [List.length_append, List.length_map] at h1
      simp only [h1, List.length_append, List.length_map, List.append_assoc, Nat.add_assoc]

theorem portable_scan_count_loop_eq {p : portable.JitDfa} (h : Linked p.table p.output_links)
    {flags : List Bool} (hflags : ∀ s : UInt32, s.toNat < p.table.state_count →
      flags[s.toNat]? = some (decide (pattern_of p.table s ≠ NONE)))
    (s : UInt32) (hs : s.toNat < p.table.state_count) (pos count : Nat) (input : List UInt8) :
    p.scan_count_loop flags s count input =
      .ok (count + ((scanner p.table p.output_links).eventsFrom s pos input).length) := by
  induction input generalizing s pos count with
  | nil => rfl
  | cons b input ih =>
    have hnext := h.next_lt hs b
    unfold portable.JitDfa.scan_count_loop
    rw [events_step]
    simp only [index_ok (hflags _ hnext), ok_bind]
    by_cases hp : pattern_of p.table (clean_next p.table s b) = NONE
    · rw [if_neg (by simp [hp]), if_pos hp, ih _ hnext (pos + 1), reports_nil_iff.mpr hp]
      rfl
    · rw [if_pos (by simp [hp]), if_neg hp, count_reports h hp (fun _ hl => hl), ok_bind,
        ih 0 h.some_state (pos + 1), List.length_append, List.length_map, Nat.add_assoc]

/-- The portable scan finds what the scanner of the table reports. -/
theorem portable_scan_eq {p : portable.JitDfa} (h : Linked p.table p.output_links)
    (input : List UInt8) (slots : List Match) :
    p.scan_interpreted input slots =
      .ok (min (found p.table p.output_links input).length slots.length,
        fill zeroed slots (found p.table p.output_links input)) := by
  have h1 := portable_scan_loop_eq h slots [] 0 h.some_state 0 input
  rw [fill_nil, List.length_nil, Nat.zero_add, List.nil_append] at h1
  unfold portable.JitDfa.scan_interpreted
  rw [portable_accept_table h.valid, ok_bind, h1, ok_bind]
  simp only [found, Scanner.events, scanner_start, matchesOf_length]

theorem portable_scan_count_eq {p : portable.JitDfa} (h : Linked p.table p.output_links)
    (hlen : p.table.pattern_lengths.length < 2 ^ 32) (input : List UInt8) :
    p.scan_count_interpreted input = .ok (found p.table p.output_links input).length := by
  obtain ⟨flags, hset, hflags⟩ := portable_is_accept h.valid hlen
  unfold portable.JitDfa.scan_count_interpreted
  rw [hset, ok_bind, portable_scan_count_loop_eq h hflags 0 h.some_state 0 0 input, Nat.zero_add]
  simp only [found, Scanner.events, scanner_start, matchesOf_length]

end

/-! ## Tables without output links -/

section

variable {t : TransitionTable}

theorem next_output_nil (s : UInt32) : next_output [] s = NONE := rfl

theorem chain_alone {s : UInt32} (hs : s ≠ NONE) : Chain [] s [s] :=
  .cons hs (by rw [next_output_nil]; exact .nil)

/-- A table that passes the checks needs no links: each state reports its own
pattern. -/
theorem linked_of_checked (h : Checked t []) : Linked t [] := by
  refine ⟨h.valid, h.bytes, h.some_state, ?_⟩
  intro s hs
  refine ⟨[s], chain_alone (ne_none_of_pattern hs), ?_⟩
  intro x hx
  rw [List.mem_singleton.mp hx]
  exact entered_of_pattern h.valid hs

theorem reports_alone (s : UInt32) :
    reports t [] s = if pattern_of t s = NONE then [] else [pattern_of t s] := by
  by_cases hs : pattern_of t s = NONE
  · rw [if_pos hs, reports_nil_iff.mpr hs]
  · rw [if_neg hs, reports_eq hs (chain_alone (ne_none_of_pattern hs))]
    rfl

theorem sparse_alone : Sparse t [] := by
  intro input
  unfold found
  rw [matchesOf_length]
  apply events_length_le
  intro x hx
  have hlen := List.length_pos_iff.mpr hx
  unfold reportOf
  rw [scanner_out, reports_alone]
  split
  · exact Nat.zero_le _
  · exact hlen

end

/-! ## Every compiled DFA -/

section

variable {os : Os} {t : TransitionTable} {links : List UInt32} {jit : JitDfa}

theorem interprets_of_fallback {code : ExecutableBuffer}
    (h : compile_interpreted_fallback os t links = .ok code) :
    Interprets code t links ∧ code.is_jit = false := by
  unfold compile_interpreted_fallback at h
  split at h
  · cases h
  split at h
  · cases h
  cases h
  exact ⟨⟨rfl, rfl, rfl⟩, rfl⟩

theorem Checked.links_le (h : Checked t links) : links.length ≤ t.state_count := by
  rcases h.links_len with h | h
  · simp [h]
  · omega

/-- No vector is longer than `isize::MAX` bytes, so the code leaves room in the
address space. -/
theorem exists_place (h : JitDfa.compile_with_output_links os t links = .ok jit)
    (hvec : t.pattern_lengths.length < 2 ^ 61) (input : List UInt8) (slots : Nat)
    (hi : input.length ≤ 2 ^ 32 + 1) (hs : slots ≤ 2 ^ 32) :
    Nonempty (Placement jit.code input slots) := by
  obtain ⟨hch, hcode⟩ := compile_with_output_links_ok h
  obtain ⟨_, _, hlen⟩ := compile_x86_64_mapped hcode
  have hsize := code_size_le hch.bytes hch.valid.len (Checked.links_le hch)
  have hfits := jit.code.fits
  by_cases hlow : jit.code.ptr < 2 ^ 62
  · exact ⟨{
      input_ptr := 2 ^ 64 - 2 ^ 34
      match_ptr := 2 ^ 64 - 2 ^ 38
      regs := fun _ => 0
      input_len := by omega
      input_fits := by omega
      matches_fit := by omega
      code_input := by unfold Apart; omega
      code_matches := by unfold Apart; omega
      input_matches := by unfold Apart; omega }⟩
  · exact ⟨{
      input_ptr := 2 ^ 34
      match_ptr := 2 ^ 38
      regs := fun _ => 0
      input_len := by omega
      input_fits := by omega
      matches_fit := by omega
      code_input := by unfold Apart; omega
      code_matches := by unfold Apart; omega
      input_matches := by unfold Apart; omega }⟩

/-- What a scan does with the padding of a slot: the emitted code leaves it, and
the interpreter clears it. -/
def paddingOf (t : TransitionTable) : UInt32 → UInt32 :=
  if t.state_count ≤ MAX_JIT_STATES then id else zeroed

/-- The scan of a compiled DFA, on either engine. -/
theorem scan_eq (h : JitDfa.compile_with_output_links os t links = .ok jit)
    (hl : Linked t links) (hsp : Sparse t links) (input : List UInt8) (slots : List Match)
    (place : Placement jit.code input slots.length) :
    jit.scan input slots place =
      .ok (min (found t links input).length slots.length,
        fill (paddingOf t) slots (found t links input)) := by
  obtain ⟨hch, hcode⟩ := compile_with_output_links_ok h
  unfold JitDfa.scan ExecutableBuffer.scan paddingOf
  by_cases hn : t.state_count ≤ MAX_JIT_STATES
  · obtain ⟨post, hc⟩ := compile_x86_64_jit hn hch.bytes hcode
    rw [if_pos hc.jit, if_pos hn]
    exact scan_jit_eq hc hl hn (Checked.links_le hch) hsp input slots place
  · have hs := t.states_le
    unfold MAX_STATES at hs
    unfold compile_x86_64 at hcode
    rw [if_neg (by omega), if_pos (by omega)] at hcode
    obtain ⟨hi, hjit⟩ := interprets_of_fallback hcode
    rw [if_neg (by simp [hjit]), if_neg hn]
    exact scan_interpreted_eq hl hi input slots

/-- A scan writes the first matches, as many as there is room for. -/
theorem scan_writes (h : JitDfa.compile_with_output_links os t links = .ok jit)
    (hl : Linked t links) (hsp : Sparse t links) {input : List UInt8} (slots : List Match)
    (place : Placement jit.code input slots.length) :
    ∃ written, jit.scan input slots place =
        .ok (min (found t links input).length slots.length, written) ∧
      (written.take (min (found t links input).length slots.length)).map Match.key =
        ((found t links input).map Match.key).take slots.length :=
  ⟨_, scan_eq h hl hsp input slots place, fill_take _ _ _⟩

theorem scan_count_eq (h : JitDfa.compile_with_output_links os t links = .ok jit)
    (hl : Linked t links) (hsp : Sparse t links) (input : List UInt8)
    (place : Placement jit.code input 0) :
    jit.scan_count input place = .ok (found t links input).length := by
  obtain ⟨hch, hcode⟩ := compile_with_output_links_ok h
  unfold JitDfa.scan_count ExecutableBuffer.scan_count
  by_cases hn : t.state_count ≤ MAX_JIT_STATES
  · obtain ⟨post, hc⟩ := compile_x86_64_jit hn hch.bytes hcode
    rw [if_pos hc.jit]
    exact scan_count_jit_eq hc hl hn (Checked.links_le hch) hsp input place
  · have hs := t.states_le
    unfold MAX_STATES at hs
    unfold compile_x86_64 at hcode
    rw [if_neg (by omega), if_pos (by omega)] at hcode
    obtain ⟨hi, hjit⟩ := interprets_of_fallback hcode
    rw [if_neg (by simp [hjit])]
    exact scan_count_interpreted_eq hl hi input

/-- The first match that a scan finds, up to its padding. -/
theorem scan_first_eq (h : JitDfa.compile_with_output_links os t links = .ok jit)
    (hl : Linked t links) (hsp : Sparse t links) (input : List UInt8)
    (place : Placement jit.code input 1) :
    jit.scan_first input place = .ok (found t links input).head? := by
  have hscan := scan_eq h hl hsp input [Match.from_parts 0 0 0] place
  unfold JitDfa.scan_first
  rw [hscan, ok_bind]
  cases hf : found t links input with
  | nil => rfl
  | cons m ms =>
    have hm : m.padding = 0 := by
      unfold found matchesOf at hf
      cases hev : (scanner t links).events input with
      | nil => rw [hev] at hf; cases hf
      | cons e evs =>
        rw [hev, List.map_cons] at hf
        rw [← (List.cons.inj hf).1]
        rfl
    have h0 : paddingOf t 0 = 0 := by
      unfold paddingOf
      split <;> rfl
    have hslot : fill (paddingOf t) [Match.from_parts 0 0 0] (m :: ms) = [m] := by
      cases m with
      | mk a b c d => simp_all [fill, Match.from_parts]
    rw [hslot]
    simp [index]

theorem has_match_eq (h : JitDfa.compile_with_output_links os t links = .ok jit)
    (hl : Linked t links) (hsp : Sparse t links) (input : List UInt8)
    (place : Placement jit.code input 1) :
    jit.has_match input place = .ok (decide (found t links input ≠ [])) := by
  unfold JitDfa.has_match
  rw [scan_first_eq h hl hsp, ok_bind]
  cases found t links input <;> simp

/-- The four scans, told by the keys of the matches that there are. -/
theorem scans_of_keys (h : JitDfa.compile_with_output_links os t links = .ok jit)
    (hl : Linked t links) (hsp : Sparse t links) {input : List UInt8}
    {ms : List (UInt32 × UInt32 × UInt32)} (hkeys : (found t links input).map Match.key = ms)
    (slots : List Match) (place : Placement jit.code input slots.length)
    (place_none : Placement jit.code input 0) (place_one : Placement jit.code input 1) :
    (∃ written, jit.scan input slots place = .ok (min ms.length slots.length, written) ∧
      (written.take (min ms.length slots.length)).map Match.key = ms.take slots.length) ∧
      jit.scan_count input place_none = .ok ms.length ∧
      (∃ first, jit.scan_first input place_one = .ok first ∧ first.map Match.key = ms.head?) ∧
      jit.has_match input place_one = .ok (decide (ms ≠ [])) := by
  subst hkeys
  rw [List.length_map]
  refine ⟨scan_writes h hl hsp slots place, scan_count_eq h hl hsp input place_none, ?_, ?_⟩
  · refine ⟨_, scan_first_eq h hl hsp input place_one, ?_⟩
    rw [List.head?_map]
  · rw [has_match_eq h hl hsp input place_one]
    simp only [ne_eq, List.map_eq_nil_iff]

end

end dfajit.engines
