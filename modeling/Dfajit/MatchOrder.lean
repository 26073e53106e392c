-- The order of matches (match_type.rs), and how the matches of a scan with
-- patterns stand to each other: sorted, and nested where they end together. What
-- a scan does with the padding, which the order does not see.
import Dfajit.Occurrences

namespace dfajit.Match

/-! ## Matches -/

/-- The padding does not count. -/
def eq (self other : Match) : Bool :=
  self.pattern_id == other.pattern_id && self.start == other.start && self.end == other.end

def cmp (self other : Match) : Ordering :=
  ((compare self.start other.start).then (compare self.pattern_id other.pattern_id)).then
    (compare self.end other.end)

/-- The range of this match holds the range of the other one. -/
def contains (self other : Match) : Bool := self.start ≤ other.start && self.end ≥ other.end

def overlaps (self other : Match) : Bool := self.start < other.end && other.start < self.end

def len (self : Match) : UInt32 := saturating_sub self.end self.start

def is_empty (self : Match) : Bool := self.start == self.end

variable {a b : Match}

theorem eq_iff : a.eq b = true ↔ a.key = b.key := by
  unfold eq key
  simp [and_assoc]

theorem compare_lt {x y : UInt32} (h : x < y) : compare x y = .lt := by
  change compareOfLessAndEq x y = .lt
  unfold compareOfLessAndEq
  rw [if_pos h]

theorem compare_eq (x y : UInt32) : compare x y = .eq ↔ x = y := by
  change compareOfLessAndEq x y = .eq ↔ x = y
  unfold compareOfLessAndEq
  split
  · rename_i hlt
    refine iff_of_false (by simp) ?_
    rintro rfl
    exact UInt32.lt_irrefl _ hlt
  · split
    · rename_i heq
      exact iff_of_true rfl heq
    · rename_i hne
      exact iff_of_false (by simp) hne

theorem cmp_of_start_lt (h : a.start < b.start) : a.cmp b = .lt := by
  unfold cmp
  rw [compare_lt h]
  rfl

/-- Matches that the order does not tell apart are equal up to their padding. -/
theorem cmp_eq_iff : a.cmp b = .eq ↔ a.eq b = true := by
  rw [eq_iff]
  unfold cmp key
  rw [Ordering.then_eq_eq, Ordering.then_eq_eq, compare_eq, compare_eq, compare_eq,
    Prod.mk.injEq, Prod.mk.injEq]
  tauto

theorem eq_of_cmp_lt (h : a.cmp b = .lt) : a.eq b = false := by
  rw [Bool.eq_false_iff, Ne, ← cmp_eq_iff, h]
  simp

theorem contains_iff : a.contains b = true ↔ a.start ≤ b.start ∧ b.end ≤ a.end := by
  unfold contains
  simp

theorem overlaps_iff : a.overlaps b = true ↔ a.start < b.end ∧ b.start < a.end := by
  unfold overlaps
  simp

end dfajit.Match

namespace dfajit.match_order

open error table codegen table_scan dfa engines reset_run output_links pattern_scan agreement
  literals occurrences

/-! ## The matches of a scan -/

/-- The two matches end at one place and the later one lies inside, or the later
one starts where the other has ended, or behind that. -/
structure Follows (k k' : Key) : Prop where
  some_byte : k.2.1 < k.2.2
  some_byte' : k'.2.1 < k'.2.2
  starts_later : k.2.1 < k'.2.1
  together_or_apart : k.2.2 = k'.2.2 ∨ k.2.2 ≤ k'.2.1

section

variable {patterns : List (List UInt8)} {input x : List UInt8} {a b : Match}

theorem Follows.cmp (h : Follows a.key b.key) : a.cmp b = .lt :=
  Match.cmp_of_start_lt h.starts_later

/-- Matches overlap just when they end together, and then the earlier one holds the
later one. -/
theorem Follows.overlaps_iff (h : Follows a.key b.key) :
    (a.overlaps b = true ↔ a.end = b.end) ∧ (a.end = b.end → a.contains b = true) := by
  obtain ⟨hab, hbb, hlt, hends⟩ := h
  change a.start < a.end at hab
  change b.start < b.end at hbb
  change a.start < b.start at hlt
  change a.end = b.end ∨ a.end ≤ b.start at hends
  rw [Match.overlaps_iff, Match.contains_iff]
  rw [UInt32.lt_iff_toNat_lt] at hab hbb hlt
  rw [UInt32.le_iff_toNat_le] at hends
  simp only [UInt32.lt_iff_toNat_lt, UInt32.le_iff_toNat_le, ← UInt32.toNat_inj] at hends ⊢
  omega

/-- What is reported after a text gets shorter. -/
theorem reported_sorted (x : List UInt8) :
    (reported patterns x).Pairwise fun u v => v.length < u.length := by
  have hsorted : (ends patterns x).Pairwise fun u v => v.length < u.length := suffix.hits_sorted x
  unfold reported
  split
  · exact hsorted
  · exact hsorted.sublist (List.take_sublist _ _)

/-- The match of a pattern that is reported at a restart. -/
theorem key_of_restart (hin : input.length < 2 ^ 32) {c : Nat × Nat}
    (hc : c ∈ restarts patterns input) {v : List UInt8}
    (hv : v ∈ reported patterns (slice input c.1 c.2)) :
    0 < v.length ∧ c.1 + v.length ≤ c.2 ∧ c.2 ≤ input.length ∧
      (key_at patterns c.2 v).2.1.toNat = c.2 - v.length ∧
      (key_at patterns c.2 v).2.2.toNat = c.2 := by
  obtain ⟨_, hlt, hle, _⟩ := (restarts_spec patterns input).mem hc
  obtain ⟨hsuf, _, hne⟩ := mem_ends.mp (reported_subset hv)
  have hlen := hsuf.length_le
  rw [slice_length hle] at hlen
  refine ⟨List.length_pos_iff.mpr hne, by omega, hle, ?_, key_at_end hin hc v⟩
  unfold key_at
  exact u32_toNat (by omega)

theorem keys_follow (hin : input.length < 2 ^ 32) : (keys patterns input).Pairwise Follows := by
  have hcuts := restarts_spec patterns input
  unfold keys
  rw [List.pairwise_flatMap]
  constructor
  · intro c hc
    rw [List.pairwise_map]
    refine List.Pairwise.imp_of_mem ?_ (reported_sorted (slice input c.1 c.2))
    intro u v hu hv hlt
    obtain ⟨hupos, hule, _, hustart, huend⟩ := key_of_restart hin hc hu
    obtain ⟨hvpos, hvle, _, hvstart, hvend⟩ := key_of_restart hin hc hv
    refine ⟨?_, ?_, ?_, Or.inl ?_⟩
    · rw [UInt32.lt_iff_toNat_lt]
      omega
    · rw [UInt32.lt_iff_toNat_lt]
      omega
    · rw [UInt32.lt_iff_toNat_lt]
      omega
    · rw [← UInt32.toNat_inj]
      omega
  · have hsorted := hcuts.sorted
    rw [List.pairwise_map] at hsorted
    refine List.Pairwise.imp_of_mem ?_ hsorted
    intro c d hc hd hlt k hk k' hk'
    obtain ⟨u, hu, rfl⟩ := List.mem_map.mp hk
    obtain ⟨v, hv, rfl⟩ := List.mem_map.mp hk'
    obtain ⟨hupos, hule, _, hustart, huend⟩ := key_of_restart hin hc hu
    obtain ⟨hvpos, hvle, _, hvstart, hvend⟩ := key_of_restart hin hd hv
    have hapart := hcuts.le_of_lt hc hd hlt
    refine ⟨?_, ?_, ?_, Or.inr ?_⟩
    · rw [UInt32.lt_iff_toNat_lt]
      omega
    · rw [UInt32.lt_iff_toNat_lt]
      omega
    · rw [UInt32.lt_iff_toNat_lt]
      omega
    · rw [UInt32.le_iff_toNat_le]
      omega

/-- A match is as long as its pattern. -/
theorem len_of_key (hin : input.length < 2 ^ 32) (hfew : patterns.length < 2 ^ 32)
    (h : a.key ∈ keys patterns input) :
    ∃ p, patterns[a.pattern_id.toNat]? = some p ∧ a.len.toNat = p.length ∧
      a.is_empty = false := by
  obtain ⟨c, hc, h⟩ := List.mem_flatMap.mp h
  obtain ⟨v, hv, hkey⟩ := List.mem_map.mp h
  obtain ⟨hpos, hle, _, hstart, hend⟩ := key_of_restart hin hc hv
  obtain ⟨_, hpat, _⟩ := mem_ends.mp (reported_subset hv)
  rw [hkey] at hstart hend
  change a.start.toNat = _ at hstart
  change a.end.toNat = _ at hend
  have hid : a.pattern_id = pid_of patterns v := (congrArg (fun k : Key => k.1) hkey).symm
  have hstartle : a.start ≤ a.end := by
    rw [UInt32.le_iff_toNat_le]
    omega
  refine ⟨v, ?_, ?_, ?_⟩
  · rw [hid, pid_of_toNat hfew hpat, List.getElem?_idxOf hpat]
  · unfold Match.len saturating_sub
    rw [if_pos hstartle, UInt32.toNat_sub_of_le _ _ hstartle]
    omega
  · unfold Match.is_empty
    rw [beq_eq_false_iff_ne, Ne, ← UInt32.toNat_inj]
    omega

end

/-- The matches that a scan with patterns writes rise strictly in the order of
matches, so that no two are equal. Two of them overlap just when they end together, and then the earlier one
contains the later one. Each is as long as its pattern. -/
theorem the_matches_of_a_scan_are_sorted_and_nested {os : Os} {patterns : List (List UInt8)}
    {jit : JitDfa} (hfew : patterns.length < 2 ^ 32)
    (h : JitDfa.from_patterns os patterns = .ok jit) {input : List UInt8}
    (hin : input.length < 2 ^ 32) (slots : List Match)
    (place : Placement jit.code input slots.length) :
    ∃ n written, jit.scan input slots place = .ok (n, written) ∧
      ((written.take n).Pairwise fun a b => a.cmp b = .lt ∧ a.eq b = false ∧
        (a.overlaps b = true ↔ a.end = b.end) ∧ (a.end = b.end → a.contains b = true)) ∧
      ∀ a ∈ written.take n, ∃ p, patterns[a.pattern_id.toNat]? = some p ∧
        a.len.toNat = p.length ∧ a.is_empty = false := by
  obtain ⟨t, links, ha, hjit⟩ := from_patterns_scans hfew h
  obtain ⟨written, hscan, hwritten⟩ := scan_writes hjit ha.linked ha.sparse slots place
  have hfound : (found t links input).map Match.key = keys patterns input := found_keys ha hin
  rw [hfound] at hwritten
  refine ⟨_, written, hscan, ?_, ?_⟩
  · have hfollow : (keys patterns input).Pairwise Follows := keys_follow hin
    have hsorted := hfollow.sublist (List.take_sublist slots.length _)
    rw [← hwritten, List.pairwise_map] at hsorted
    exact hsorted.imp fun hab => ⟨hab.cmp, Match.eq_of_cmp_lt hab.cmp, hab.overlaps_iff⟩
  · intro a hmem
    have hkey := List.mem_map_of_mem (f := Match.key) hmem
    rw [hwritten] at hkey
    exact len_of_key hin hfew (List.mem_of_mem_take hkey)

/-- `abcd`, `bc` and `c` on `bcxbc`, with room for three matches. -/
theorem the_matches_of_overlapping_patterns_are_sorted_and_nested :
    ∃ jit place, JitDfa.from_patterns generous overlapping = .ok jit ∧
      ∃ n written, jit.scan [98, 99, 120, 98, 99]
          [Match.from_parts 0 0 0, Match.from_parts 0 0 0, Match.from_parts 0 0 0] place =
            .ok (n, written) ∧
        ((written.take n).Pairwise fun a b => a.cmp b = .lt ∧ a.eq b = false ∧
          (a.overlaps b = true ↔ a.end = b.end) ∧ (a.end = b.end → a.contains b = true)) ∧
        ∀ a ∈ written.take n, ∃ p, overlapping[a.pattern_id.toNat]? = some p ∧
          a.len.toNat = p.length ∧ a.is_empty = false := by
  have hfew : overlapping.length < 2 ^ 32 := by decide
  obtain ⟨jit, hjit, hptr⟩ := from_patterns_compiles hfew (by decide) (by decide)
  exact ⟨jit, low_place hptr _ 3 (by decide) (by decide), hjit,
    the_matches_of_a_scan_are_sorted_and_nested hfew hjit (by decide) _ _⟩

/-! ## The padding -/

theorem fill_padding (pad : UInt32 → UInt32) (slots ms : List Match) {i : Nat} {slot m : Match}
    (hslot : slots[i]? = some slot) (hm : (fill pad slots ms)[i]? = some m) :
    m.padding = if i < ms.length then pad slot.padding else slot.padding := by
  induction slots generalizing ms i with
  | nil => simp at hslot
  | cons x slots ih =>
    cases ms with
    | nil =>
      rw [fill_nil, hslot] at hm
      rw [← Option.some.inj hm, if_neg (by simp)]
    | cons y ms =>
      unfold fill at hm
      cases i with
      | zero =>
        rw [List.getElem?_cons_zero] at hslot hm
        rw [← Option.some.inj hm, ← Option.some.inj hslot, if_pos (by simp)]
      | succ i =>
        rw [List.getElem?_cons_succ] at hslot hm
        rw [ih ms hslot hm]
        simp

/-- Emitted code leaves the padding of every slot as the caller had it, and the
interpreter clears the padding of the slots that it writes. -/
theorem only_the_interpreter_clears_the_padding {os : Os} {t : TransitionTable}
    {links : List UInt32} {jit : JitDfa} (hruns : RunsWith t links)
    (hjit : JitDfa.compile_with_output_links os t links = .ok jit) (input : List UInt8)
    (slots : List Match) (place : Placement jit.code input slots.length) :
    ∃ n written, jit.scan input slots place = .ok (n, written) ∧
      written.length = slots.length ∧
      ∀ (i : Nat) (slot m : Match), slots[i]? = some slot → written[i]? = some m →
        m.padding = if i < n ∧ 4096 < t.state_count then 0 else slot.padding := by
  obtain ⟨hch, _⟩ := compile_with_output_links_ok hjit
  obtain ⟨hl, hsp⟩ := hruns.linked hch
  refine ⟨_, _, scan_eq hjit hl hsp input slots place, fill_length _ _ _, ?_⟩
  intro i slot m hslot hm
  have hlt := (List.getElem?_eq_some_iff.mp hslot).1
  rw [fill_padding _ _ _ hslot hm]
  unfold paddingOf MAX_JIT_STATES
  by_cases hwritten : i < (found t links input).length
  · rw [if_pos hwritten]
    by_cases hfew : t.state_count ≤ 4096
    · rw [if_pos hfew, if_neg (by omega)]
      rfl
    · rw [if_neg hfew, if_pos (by omega)]
      rfl
  · rw [if_neg hwritten, if_neg (by omega)]

/-- `abcd`, `bc` and `c` on `xabcd`, with a slot whose padding is 7. -/
theorem emitted_code_keeps_the_padding_with_overlapping_patterns :
    ∃ t links jit, ∃ place : Placement jit.code [120, 97, 98, 99, 100] 1,
      pattern_table overlapping = .ok (t, links) ∧
      JitDfa.compile_with_output_links generous t links = .ok jit ∧
      ∃ n written, jit.scan [120, 97, 98, 99, 100] [⟨0, 0, 0, 7⟩] place = .ok (n, written) ∧
        written.length = 1 ∧
        ∀ (i : Nat) (slot m : Match), [(⟨0, 0, 0, 7⟩ : Match)][i]? = some slot →
          written[i]? = some m →
          m.padding = if i < n ∧ 4096 < t.state_count then 0 else slot.padding := by
  have hfew : overlapping.length < 2 ^ 32 := by decide
  obtain ⟨t, links, htable, ha⟩ := pattern_table_automaton hfew (by decide) (Or.inl (by decide))
  obtain ⟨jit, hjit, hptr⟩ := Automaton.compiles ha
  exact ⟨t, links, jit, low_place hptr _ 1 (by decide) (by decide), htable, hjit,
    only_the_interpreter_clears_the_padding (Or.inr ⟨_, htable⟩) hjit _ [⟨0, 0, 0, 7⟩] _⟩

end dfajit.match_order
