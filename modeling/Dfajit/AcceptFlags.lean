-- The accept flags of a table. The scans mask them; minimization takes a
-- flagged target for one that is no state, and so for the start state.
import Dfajit.Minimization

namespace dfajit.accept_flags

open error table codegen table_scan dfa engines partition alike quotient minimization reset_run

/-! ## The table without its flags -/

def unflagged (t : TransitionTable) : TransitionTable :=
  { t with transitions := t.transitions.map clean }

section

variable {t : TransitionTable}

/-- The scans mask the flags, so they read the same table. -/
theorem scanner_unflagged (t : TransitionTable) (links : List UInt32) :
    scanner (unflagged t) links = scanner t links := by
  have hnext : clean_next (unflagged t) = clean_next t := by
    funext s b
    unfold clean_next unflagged
    simp only
    rw [List.getElem?_map]
    cases t.transitions[s.toNat * t.class_count + b.toNat]? with
    | none => rfl
    | some x =>
      rw [Option.map_some, Option.getD_some, Option.getD_some]
      exact clean_clean x
  have hout : reports (unflagged t) links = reports t links := rfl
  unfold scanner
  rw [hnext, hout]

theorem found_unflagged (t : TransitionTable) (links : List UInt32) (input : List UInt8) :
    found (unflagged t) links input = found t links input := by
  unfold found
  rw [scanner_unflagged]
  rfl

theorem unflagged_plain (t : TransitionTable) : ∀ x ∈ (unflagged t).transitions, flagged x = false := by
  intro x hx
  obtain ⟨y, _, rfl⟩ := List.mem_map.mp hx
  rw [flagged_eq]
  exact Nat.testBit_lt_two_pow (clean_lt y)

theorem unflagged_checked (h : Checked t []) : Checked (unflagged t) [] := by
  refine ⟨⟨?_, ?_, h.valid.accepts, h.valid.one_each, h.valid.lengths⟩, ?_, h.some_state, h.bytes,
    Or.inl rfl⟩
  · exact (List.length_map _).trans h.valid.len
  · intro x hx
    obtain ⟨y, hy, rfl⟩ := List.mem_map.mp hx
    rw [clean_clean]
    exact h.valid.targets y hy
  · intro x hx hf
    rw [unflagged_plain t x hx] at hf
    cases hf

end

/-! ## The flags on the way to the first report -/

/-- The states of a scan, and of a scan of the table as minimization reads it,
after a text in which neither has found a match. -/
abbrev ReadTogether (t : TransitionTable) : UInt32 → UInt32 → Prop :=
  Scanner.Together (scanner t []) (scanner (as_read t) [])

/-- It makes no difference to the first match that minimization takes flagged
targets for the start state. -/
def FlagsHarmless (t : TransitionTable) : Prop :=
  ∀ s s' : UInt32, ReadTogether t s s' → ∀ b : UInt8,
    pattern_of t (clean_next t s b) = pattern_of t (clean_next (as_read t) s' b)

/-- The states that the start leads to with no match on the way. -/
inductive Quietly (t : TransitionTable) : UInt32 → Prop
  | start : Quietly t 0
  | next {s : UInt32} {b : UInt8} : Quietly t s → pattern_of t (clean_next t s b) = NONE →
      Quietly t (clean_next t s b)

/-- Each flagged transition that a scan can take from the start, with no match
before it, leads to a state with the pattern of the start state. -/
def FlagsEndAsStart (t : TransitionTable) : Prop :=
  ∀ s : UInt32, Quietly t s → ∀ b : UInt8, flagged (target t s.toNat b.toNat) = true →
    pattern_of t (clean_next t s b) = pattern_of t 0

section

variable {t : TransitionTable} {s s' : UInt32} {b : UInt8}

theorem reports_eq_iff : reports t [] s = reports t [] s' ↔ pattern_of t s = pattern_of t s' := by
  rw [reports_alone, reports_alone]
  by_cases hs : pattern_of t s = NONE
  · by_cases hs' : pattern_of t s' = NONE
    · rw [if_pos hs, if_pos hs', hs, hs']
      exact iff_of_true rfl rfl
    · rw [if_pos hs, if_neg hs', hs]
      exact iff_of_false (by simp) (Ne.symm hs')
  · by_cases hs' : pattern_of t s' = NONE
    · rw [if_neg hs, if_pos hs', hs']
      exact iff_of_false (by simp) hs
    · rw [if_neg hs, if_neg hs', List.singleton_inj]

theorem FlagsHarmless.found (h : FlagsHarmless t) (input : List UInt8) :
    found t [] input = found (as_read t) [] input := by
  have hevents : (scanner t []).events input = (scanner (as_read t) []).events input :=
    Scanner.events_of_first (fun s s' b hs => reports_eq_iff.mpr (h s s' hs b)) input
  unfold table_scan.found
  rw [hevents]
  rfl

theorem target_mem (h : Checked t []) (hs : s.toNat < t.state_count) (b : UInt8) :
    target t s.toNat b.toNat ∈ t.transitions := by
  have hlt := (linked_of_checked h).index_lt hs b
  unfold target
  rw [List.getElem?_eq_getElem hlt]
  exact List.getElem_mem hlt

theorem clean_next_plain (h : Checked t []) (hs : s.toNat < t.state_count)
    (hf : flagged (target t s.toNat b.toNat) = false) :
    clean_next (as_read t) s b = clean_next t s b := by
  have hclean := clean_of_not_flagged hf
  have hlt := h.valid.targets _ (target_mem h hs b)
  rw [hclean] at hlt
  have hnext : clean_next t s b = clean (target t s.toNat b.toNat) := rfl
  rw [clean_next_as_read h.valid h.bytes hs, hnext, hclean]
  exact if_pos hlt

theorem clean_next_flagged (h : Checked t []) (hs : s.toNat < t.state_count)
    (hf : flagged (target t s.toNat b.toNat) = true) : clean_next (as_read t) s b = 0 := by
  rw [clean_next_as_read h.valid h.bytes hs]
  apply if_neg
  intro hlt
  rw [t.flagged_of_state hlt] at hf
  cases hf

/-- A flagged transition leads to a state with a pattern, where no entry names
the id that stands for no pattern. -/
theorem pattern_of_flagged (h : Checked t []) (hids : ∀ a ∈ t.accept_states, a.2 ≠ NONE)
    (hs : s.toNat < t.state_count) (hf : flagged (target t s.toNat b.toNat) = true) :
    pattern_of t (clean_next t s b) ≠ NONE := by
  obtain ⟨a, ha, hclean⟩ := List.mem_map.mp (h.flags _ (target_mem h hs b) hf)
  have hnext : clean_next t s b = a.1 := hclean.symm
  have htable : (accept_table t.state_count t.accept_states)[a.1.toNat]? = some a.2 :=
    accept_table_of_mem h.valid.one_each ha (h.valid.accepts a ha)
  unfold pattern_of
  rw [hnext, htable]
  exact hids a ha

theorem Quietly.lt (h : Checked t []) (hs : Quietly t s) : s.toNat < t.state_count := by
  induction hs with
  | start => exact h.some_state
  | next _ _ ih => exact (linked_of_checked h).next_lt ih _

/-- With no match yet, no flagged transition was taken either. -/
theorem quiet_plain (h : Checked t []) (hids : ∀ a ∈ t.accept_states, a.2 ≠ NONE)
    (hs : s.toNat < t.state_count) (hq : pattern_of t (clean_next t s b) = NONE) :
    clean_next (as_read t) s b = clean_next t s b := by
  apply clean_next_plain h hs
  cases hf : flagged (target t s.toNat b.toNat) with
  | false => rfl
  | true => exact absurd hq (pattern_of_flagged h hids hs hf)

theorem Quietly.together (h : Checked t []) (hids : ∀ a ∈ t.accept_states, a.2 ≠ NONE)
    (hs : Quietly t s) : ReadTogether t s s := by
  induction hs with
  | start => exact Scanner.Together.start
  | @next s b hs hq ih =>
    have hnext := quiet_plain h hids (hs.lt h) hq
    have hboth := Scanner.Together.next (a := b) ih (reports_nil_iff.mpr hq)
      (by rw [scanner_out, scanner_next, hnext]; exact reports_nil_iff.mpr hq)
    rwa [scanner_next, scanner_next, hnext] at hboth

theorem quietly_of_together (h : Checked t []) (hids : ∀ a ∈ t.accept_states, a.2 ≠ NONE)
    (hs : ReadTogether t s s') : s = s' ∧ Quietly t s := by
  induction hs with
  | start => exact ⟨rfl, .start⟩
  | @next s s' b _ hq _ ih =>
    obtain ⟨rfl, hs⟩ := ih
    have hnone := reports_nil_iff.mp hq
    exact ⟨(quiet_plain h hids (hs.lt h) hnone).symm, .next hs hnone⟩

/-- What the flags may do, told of the table alone. -/
theorem flags_harmless_iff (h : Checked t []) (hids : ∀ a ∈ t.accept_states, a.2 ≠ NONE) :
    FlagsHarmless t ↔ FlagsEndAsStart t := by
  constructor
  · intro hharm s hs b hf
    rw [hharm s s (hs.together h hids) b, clean_next_flagged h (hs.lt h) hf]
  · intro hend s s' htog b
    obtain ⟨rfl, hs⟩ := quietly_of_together h hids htog
    cases hf : flagged (target t s.toNat b.toNat) with
    | false => rw [clean_next_plain h (hs.lt h) hf]
    | true => rw [clean_next_flagged h (hs.lt h) hf, hend s hs b hf]

end

/-! ## A short text tells the difference -/

def states (n : Nat) : Finset UInt32 := (Finset.range n).image UInt32.ofNat

theorem mem_states {n : Nat} (hn : n ≤ MAX_STATES) {s : UInt32} : s ∈ states n ↔ s.toNat < n := by
  unfold MAX_STATES at hn
  unfold states
  rw [Finset.mem_image]
  constructor
  · rintro ⟨i, hi, rfl⟩
    rw [Finset.mem_range] at hi
    rwa [u32_toNat (by omega)]
  · intro hs
    exact ⟨s.toNat, Finset.mem_range.mpr hs, UInt32.ofNat_toNat⟩

theorem pairs_card {n : Nat} (hn : n ≤ MAX_STATES) : (states n ×ˢ states n).card ≤ 2 ^ 32 := by
  have hle : (states n).card ≤ MAX_STATES := by
    apply Nat.le_trans Finset.card_image_le
    rwa [Finset.card_range]
  rw [Finset.card_product]
  exact Nat.le_trans (Nat.mul_le_mul hle hle) (by decide)

/-- The pattern of the first match. -/
def first_pattern (t : TransitionTable) (input : List UInt8) : Option UInt32 :=
  (found t [] input).head?.map Match.pattern_id

section

variable {t : TransitionTable} {s s' : UInt32} {w : List UInt8}

theorem first_pattern_after {s0 : UInt32} (hevents : ∀ as : List UInt8,
      (scanner t []).events (w ++ as) = (scanner t []).eventsFrom s0 (0 + w.length) as)
    (b : UInt8) : first_pattern t (w ++ [b]) =
      if pattern_of t (clean_next t s0 b) = NONE then none
      else some (pattern_of t (clean_next t s0 b)) := by
  unfold first_pattern found
  rw [hevents, events_step, matchesOf_step, reports_alone]
  split <;> rfl

/-- A pair of states is reached by a text no longer than there are pairs. -/
theorem exists_short_text (h : Checked t []) (hs : ReadTogether t s s') :
    ∃ w, w.length ≤ 2 ^ 32 ∧
      short_run.run (Scanner.both (scanner t []) (scanner (as_read t) [])) (0, 0) w =
        some (s, s') := by
  have hn := t.states_le
  have hstart : (0 : UInt32) ∈ states t.state_count := (mem_states hn).mpr h.some_state
  have hnext : ∀ s ∈ states t.state_count, ∀ b, (scanner t []).next s b ∈ states t.state_count := by
    intro s hs b
    rw [mem_states hn] at hs ⊢
    exact (linked_of_checked h).next_lt hs b
  have hread : ∀ s ∈ states t.state_count, ∀ b,
      (scanner (as_read t) []).next s b ∈ states t.state_count := by
    intro s hs b
    rw [mem_states hn] at hs ⊢
    rw [scanner_next, clean_next_as_read h.valid h.bytes hs]
    exact read_as_lt h.some_state _
  obtain ⟨w, hlen, hw⟩ := Scanner.Together.exists_short_run hstart hstart hnext hread hs
  rw [← Finset.card_product] at hlen
  exact ⟨w, Nat.le_trans hlen (pairs_card hn), hw⟩

/-- Where the flags do harm, a text of at most 2^32 + 1 bytes has another first
match. -/
theorem flags_harmless_of_first (h : Checked t [])
    (hfirst : ∀ input : List UInt8, input.length ≤ 2 ^ 32 + 1 →
      first_pattern t input = first_pattern (as_read t) input) : FlagsHarmless t := by
  intro s s' hs b
  obtain ⟨w, hlen, hrun⟩ := exists_short_text h hs
  have hafter := Scanner.events_after_run hrun 0
  have hsame := hfirst (w ++ [b]) (by rw [List.length_append, List.length_singleton]; omega)
  rw [first_pattern_after (fun as => (hafter as).1), first_pattern_after (fun as => (hafter as).2)]
    at hsame
  have hpattern : ∀ x, pattern_of (as_read t) x = pattern_of t x := fun _ => rfl
  rw [hpattern] at hsame
  by_cases hx : pattern_of t (clean_next t s b) = NONE
  · by_cases hy : pattern_of t (clean_next (as_read t) s' b) = NONE
    · rw [hx, hy]
    · rw [if_pos hx, if_neg hy] at hsame
      cases hsame
  · by_cases hy : pattern_of t (clean_next (as_read t) s' b) = NONE
    · rw [if_neg hx, if_pos hy] at hsame
      cases hsame
    · rw [if_neg hx, if_neg hy] at hsame
      exact Option.some.inj hsame

theorem flags_harmless_iff_first (h : Checked t []) :
    FlagsHarmless t ↔ ∀ input : List UInt8, input.length ≤ 2 ^ 32 + 1 →
      first_pattern t input = first_pattern (as_read t) input := by
  constructor
  · intro hharm input _
    unfold first_pattern
    rw [hharm.found]
  · exact flags_harmless_of_first h

end

/-! ## The first match of a scan -/

section

variable {os os' : Os} {t t' : TransitionTable} {jit jit' : JitDfa} {input : List UInt8}

/-- Scans that are alike have the same first match. -/
theorem first_of_same_scans (h : JitDfa.compile os t = .ok jit)
    (h' : JitDfa.compile os' t' = .ok jit') (hsame : SameScans jit jit')
    (place : Placement jit.code input 1) (place' : Placement jit'.code input 1) :
    first_pattern t input = first_pattern t' input := by
  have hl := linked_of_checked (compile_with_output_links_ok h).1
  have hl' := linked_of_checked (compile_with_output_links_ok h').1
  obtain ⟨count, written, written', hscan, hscan', hkeys⟩ :=
    (hsame input).1 [Match.from_parts 0 0 0] place place'
  rw [scan_eq h hl sparse_alone] at hscan
  rw [scan_eq h' hl' sparse_alone] at hscan'
  obtain ⟨hcount, hwritten⟩ := Prod.mk.inj (Except.ok.inj hscan)
  obtain ⟨hcount', hwritten'⟩ := Prod.mk.inj (Except.ok.inj hscan')
  rw [← hwritten, ← hwritten'] at hkeys
  rw [← hcount'] at hcount
  unfold first_pattern
  cases hf : found t [] input with
  | nil =>
    cases hf' : found t' [] input with
    | nil => rfl
    | cons m' ms' =>
      rw [hf, hf'] at hcount
      simp at hcount
  | cons m ms =>
    cases hf' : found t' [] input with
    | nil =>
      rw [hf, hf'] at hcount
      simp at hcount
    | cons m' ms' =>
      rw [hf, hf'] at hkeys
      have hkey := (List.cons.inj hkeys).1
      exact congrArg some (Prod.mk.inj hkey).1

end

/-! ## What becomes of the flags -/

section

variable {t : TransitionTable}

/-- The table that stands for `t` after minimization passes the checks. -/
theorem minimized_checked (h : Checked t []) {r : Option TransitionTable}
    (hr : ∀ m, r = some m → Minimized t m) : Checked (r.getD t) [] := by
  cases r with
  | none => exact h
  | some m => exact (hr m rfl).checked

theorem lengths_minimized {r : Option TransitionTable} (hr : ∀ m, r = some m → Minimized t m) :
    (r.getD t).pattern_lengths = t.pattern_lengths := by
  cases r with
  | none => rfl
  | some m => exact (hr m rfl).lengths

theorem minimized_grants (h : Checked t []) {r : Option TransitionTable}
    (hmin : t.minimize .w64 = .ok r) (hlens : t.pattern_lengths.length ≤ 2 ^ 32) :
    Grants generous (r.getD t) [] := by
  obtain ⟨r', hmin', hr⟩ := minimize_found h
  rw [hmin] at hmin'
  obtain rfl := Except.ok.inj hmin'
  have hch := minimized_checked h hr
  exact generous_grants hch.bytes hch.valid.len (by rw [lengths_minimized hr]; exact hlens)
    (Nat.zero_le _)

/-- Without flags, minimization changes nothing that is found. -/
theorem found_minimized_unflagged (h : Checked t []) {r : Option TransitionTable}
    (hr : ∀ m, r = some m → Minimized (unflagged t) m) (input : List UInt8) :
    found (r.getD (unflagged t)) [] input = found t [] input := by
  rw [← found_unflagged t]
  cases r with
  | none => rfl
  | some m =>
    rw [Option.getD_some, (hr m rfl).found,
      as_read_plain (unflagged_checked h).valid (unflagged_plain t)]

/-- With flags, it changes nothing just where it makes no table or the flags do no
harm. -/
theorem found_minimized (h : Checked t []) {r : Option TransitionTable}
    (hmin : t.minimize .w64 = .ok r) (hr : ∀ m, r = some m → Minimized t m)
    (hcond : Separated t ∨ FlagsHarmless t) (input : List UInt8) :
    found (r.getD t) [] input = found t [] input := by
  cases r with
  | none => rfl
  | some m =>
    rcases hcond with hsep | hharm
    · rw [(minimize_none_iff h.valid h.bytes).mpr hsep] at hmin
      cases Except.ok.inj hmin
    · rw [Option.getD_some, (hr m rfl).found, hharm.found]

end

/-- `compile` takes the four tables, and the scans of the first two are the same.
Those of the minimized ones are the same too just where no two states are alike,
so that there is nothing to merge, or where the flags do no harm. -/
theorem minimization_keeps_flagged_scans_exactly_when_harmless {os : Os} {t : TransitionTable}
    {jit : JitDfa} (hvec : t.pattern_lengths.length < 2 ^ 61)
    (hjit : JitDfa.compile os t = .ok jit) :
    ∃ r r0, t.minimize .w64 = .ok r ∧ (unflagged t).minimize .w64 = .ok r0 ∧
      (∀ x ∈ [unflagged t, r.getD t, r0.getD (unflagged t)], ∀ os', Grants os' x [] →
        ∃ jit', JitDfa.compile os' x = .ok jit') ∧
      (∀ os0 jit0, JitDfa.compile os0 (unflagged t) = .ok jit0 → SameScans jit jit0) ∧
      (∀ os1 os2 jm jm0, JitDfa.compile os1 (r.getD t) = .ok jm →
        JitDfa.compile os2 (r0.getD (unflagged t)) = .ok jm0 →
          (SameScans jm jm0 ↔ Separated t ∨ FlagsHarmless t)) ∧
      ((∀ a ∈ t.accept_states, a.2 ≠ NONE) → (FlagsHarmless t ↔ FlagsEndAsStart t)) := by
  have hch := (compile_with_output_links_ok hjit).1
  have hch0 := unflagged_checked hch
  obtain ⟨r, hmin, hr⟩ := minimize_found hch
  obtain ⟨r0, hmin0, hr0⟩ := minimize_found hch0
  refine ⟨r, r0, hmin, hmin0, ?_, ?_, ?_, flags_harmless_iff hch⟩
  · intro x hx os' hos
    apply (compile_accepts hos).mpr
    simp only [List.mem_cons, List.not_mem_nil, or_false] at hx
    rcases hx with rfl | rfl | rfl
    · exact hch0
    · exact minimized_checked hch hr
    · exact minimized_checked hch0 hr0
  · intro os0 jit0 hjit0
    exact same_scans_of_found hjit hjit0 fun input => (found_unflagged t [] input).symm
  · intro os1 os2 jm jm0 hjm hjm0
    have hfound0 := found_minimized_unflagged hch hr0
    constructor
    · intro hsame
      cases r with
      | none => exact Or.inl ((minimize_none_iff hch.valid hch.bytes).mp hmin)
      | some m =>
        refine Or.inr ((flags_harmless_iff_first hch).mpr ?_)
        intro input hi
        obtain ⟨place⟩ := exists_place hjm (by rw [lengths_minimized hr]; exact hvec) input 1 hi
          Nat.one_le_two_pow
        obtain ⟨place0⟩ := exists_place hjm0 (by rw [lengths_minimized hr0]; exact hvec) input 1 hi
          Nat.one_le_two_pow
        have hfirst := first_of_same_scans hjm hjm0 hsame place place0
        unfold first_pattern at hfirst ⊢
        rwa [hfound0, Option.getD_some, (hr m rfl).found, eq_comm] at hfirst
    · intro hcond
      apply same_scans_of_found hjm hjm0
      intro input
      rw [hfound0, found_minimized hch hmin hr hcond]

/-- A table with two states, of which the second accepts, with flags on the
transitions to it. -/
def one_exit : TransitionTable where
  state_count := 2
  class_count := 256
  transitions := (List.range 512).map fun i => if i = 97 then 0x8000_0001 else 0
  accept_states := [(1, 0)]
  pattern_lengths := [1]
  states_le := by decide
  class_pos := some_byte

theorem one_exit_separated : Separated one_exit := by
  intro s s' hs hs' halike
  have hpid : pid_at one_exit s.toNat = pid_at one_exit s'.toNat := (halike []).own
  have hlt : s.toNat < 2 := hs
  have hlt' : s'.toNat < 2 := hs'
  have hzero : pid_at one_exit 0 = none := rfl
  have hone : pid_at one_exit 1 = some 0 := rfl
  apply UInt32.toNat_inj.mp
  by_contra hne
  rcases (by omega : s.toNat = 0 ∧ s'.toNat = 1 ∨ s.toNat = 1 ∧ s'.toNat = 0) with
    ⟨h0, h1⟩ | ⟨h1, h0⟩
  · rw [h0, h1, hzero, hone] at hpid
    cases hpid
  · rw [h0, h1, hzero, hone] at hpid
    cases hpid

/-- The flag of that table does no harm, as there is nothing to merge. -/
theorem minimization_keeps_the_flagged_scans_of_one_exit :
    ∃ r r0 jm jm0, one_exit.minimize .w64 = .ok r ∧
      (unflagged one_exit).minimize .w64 = .ok r0 ∧
      JitDfa.compile generous (r.getD one_exit) = .ok jm ∧
      JitDfa.compile generous (r0.getD (unflagged one_exit)) = .ok jm0 ∧ SameScans jm jm0 := by
  have hch : Checked one_exit [] := (check_table_ok .w64 _ _).mp (by decide +kernel)
  have hch0 := unflagged_checked hch
  obtain ⟨jit, hjit⟩ := (compile_accepts
    (generous_grants rfl hch.valid.len (by decide) (Nat.zero_le _))).mpr hch
  obtain ⟨r, r0, hmin, hmin0, hcompiles, _, hiff, _⟩ :=
    minimization_keeps_flagged_scans_exactly_when_harmless (by decide) hjit
  obtain ⟨jm, hjm⟩ := hcompiles (r.getD one_exit) (by simp) generous
    (minimized_grants hch hmin (by decide))
  obtain ⟨jm0, hjm0⟩ := hcompiles (r0.getD (unflagged one_exit)) (by simp) generous
    (minimized_grants hch0 hmin0 (by decide))
  exact ⟨r, r0, jm, jm0, hmin, hmin0, hjm, hjm0,
    (hiff _ _ jm jm0 hjm hjm0).mpr (Or.inl one_exit_separated)⟩

/-- With the two exits flagged, minimization merges them and loses the matches:
the table without flags has one in `a`, and the other none. -/
theorem minimization_loses_the_flagged_matches_of_two_exits :
    ∃ jit m r0 jm jm0 place place0,
      JitDfa.compile generous (two_exits 0x8000_0001 0x8000_0002) = .ok jit ∧
      (two_exits 0x8000_0001 0x8000_0002).minimize .w64 = .ok (some m) ∧
      (unflagged (two_exits 0x8000_0001 0x8000_0002)).minimize .w64 = .ok r0 ∧
      JitDfa.compile generous m = .ok jm ∧
      JitDfa.compile generous (r0.getD (unflagged (two_exits 0x8000_0001 0x8000_0002))) = .ok jm0 ∧
      jm.scan_count [97] place = .ok 0 ∧ jm0.scan_count [97] place0 = .ok 1 := by
  have hch : Checked (two_exits 0x8000_0001 0x8000_0002) [] :=
    (check_table_ok .w64 _ _).mp (by decide +kernel)
  have hlost : found (as_read (two_exits 0x8000_0001 0x8000_0002)) [] [97] = [] := by
    decide +kernel
  have hone : (found (two_exits 0x8000_0001 0x8000_0002) [] [97]).length = 1 := by
    decide +kernel
  obtain ⟨m, hmin, hm⟩ := two_exits_minimized hch
  have hgrants := two_exits_grants hch
  have hlens : (two_exits 0x8000_0001 0x8000_0002).pattern_lengths.length ≤ 2 ^ 32 := by decide
  generalize two_exits 0x8000_0001 0x8000_0002 = t at hch hlost hone hmin hm hgrants hlens ⊢
  have hch0 := unflagged_checked hch
  obtain ⟨r0, hmin0, hr0⟩ := minimize_found hch0
  obtain ⟨jit, hjit⟩ := (compile_accepts hgrants).mpr hch
  obtain ⟨jm, hjm⟩ := (compile_accepts (hm.grants hlens)).mpr hm.checked
  have hch1 := minimized_checked hch0 hr0
  obtain ⟨jm0, hjm0⟩ := (compile_accepts (minimized_grants hch0 hmin0 hlens)).mpr hch1
  have hptr := generous_ptr (compile_with_output_links_ok hjm).2
  have hptr0 := generous_ptr (compile_with_output_links_ok hjm0).2
  refine ⟨jit, m, r0, jm, jm0, low_place hptr [97] 0 (by decide) (by decide),
    low_place hptr0 [97] 0 (by decide) (by decide), hjit, hmin, hmin0, hjm, hjm0, ?_, ?_⟩
  · rw [scan_count_eq hjm (linked_of_checked hm.checked) sparse_alone, hm.found, hlost]
    rfl
  · rw [scan_count_eq hjm0 (linked_of_checked hch1) sparse_alone,
      found_minimized_unflagged hch hr0, hone]

end dfajit.accept_flags
