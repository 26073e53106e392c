-- Minimization keeps what a scan finds, on every table that `compile` accepts
-- and in which no transition has its accept flag set.
import Dfajit.Quotient

namespace dfajit.minimization

open error table codegen table_scan dfa engines partition alike quotient

/-! ## Two compiled DFAs with the same scans -/

/-- On every input and with every buffer the two write the same matches, up to
the padding of the slots, and return the same counts. -/
def SameScans (jit jit' : JitDfa) : Prop :=
  ∀ input : List UInt8,
    (∀ (slots : List Match) (place : Placement jit.code input slots.length)
      (place' : Placement jit'.code input slots.length), ∃ count written written',
        jit.scan input slots place = .ok (count, written) ∧
        jit'.scan input slots place' = .ok (count, written') ∧
        written.map Match.key = written'.map Match.key) ∧
    ∀ (place : Placement jit.code input 0) (place' : Placement jit'.code input 0), ∃ total,
      jit.scan_count input place = .ok total ∧ jit'.scan_count input place' = .ok total

section

variable {os os' : Os} {t t' : TransitionTable} {jit jit' : JitDfa}

theorem same_scans_of_found (h : JitDfa.compile os t = .ok jit)
    (h' : JitDfa.compile os' t' = .ok jit')
    (hfound : ∀ input, found t [] input = found t' [] input) : SameScans jit jit' := by
  have hl := linked_of_checked (compile_with_output_links_ok h).1
  have hl' := linked_of_checked (compile_with_output_links_ok h').1
  intro input
  refine ⟨?_, ?_⟩
  · intro slots place place'
    refine ⟨_, _, fill (paddingOf t') slots (found t' [] input),
      scan_eq h hl sparse_alone input slots place, ?_, ?_⟩
    · rw [hfound]
      exact scan_eq h' hl' sparse_alone input slots place'
    · rw [hfound]
      exact fill_key _ _ _ _
  · intro place place'
    refine ⟨_, scan_count_eq h hl sparse_alone input place, ?_⟩
    rw [hfound]
    exact scan_count_eq h' hl' sparse_alone input place'

end

/-! ## Tables without flags -/

/-- Minimization reads a table without flags as it stands. -/
theorem as_read_plain {t : TransitionTable} (hv : t.Valid)
    (hplain : ∀ x ∈ t.transitions, flagged x = false) : as_read t = t := by
  have hsame : t.transitions.map (read_as t) = t.transitions := by
    rw [List.map_congr_left (g := id), List.map_id]
    intro x hx
    have hlt := hv.targets x hx
    rw [clean_of_not_flagged (hplain x hx)] at hlt
    exact if_pos hlt
  unfold as_read
  rw [hsame]

/-- What minimization keeps of a table. -/
structure Minimized (t m : TransitionTable) : Prop where
  checked : Checked m []
  lengths : m.pattern_lengths = t.pattern_lengths
  found : ∀ input, found m [] input = found (as_read t) [] input

/-- `minimize` ends on every table that passes the checks. What it returns passes
them too, and finds what the table finds as minimization reads it. -/
theorem minimize_found {t : TransitionTable} (h : Checked t []) :
    ∃ r, t.minimize .w64 = .ok r ∧ ∀ m, r = some m → Minimized t m := by
  by_cases hmany : 1 < t.state_count
  · obtain ⟨q, hq, hmin⟩ := minimize_eq h.valid h.bytes hmany
    rcases hmin with ⟨_, hnone⟩ | ⟨_, m, hsome, hm⟩
    · refine ⟨none, hnone, ?_⟩
      rintro m ⟨⟩
    · refine ⟨some m, hsome, ?_⟩
      rintro _ ⟨⟩
      exact ⟨hm.checked hq h.valid h.bytes h.some_state, hm.lengths,
        hm.found_eq hq h.valid h.bytes h.some_state⟩
  · refine ⟨none, minimize_small (by omega) _, ?_⟩
    rintro m ⟨⟩

/-! ## Every scan is kept -/

/-- `minimize` returns on every table that `compile` accepts. When it returns a
table and the first one has no flags, `compile` accepts that table too, and both
scan alike, each on the engine that its size gives it. -/
theorem minimization_keeps_every_scan {os os' : Os} {t : TransitionTable} {jit : JitDfa}
    (hjit : JitDfa.compile os t = .ok jit) (hplain : ∀ x ∈ t.transitions, flagged x = false) :
    ∃ r, t.minimize .w64 = .ok r ∧ ∀ m, r = some m →
      (Grants os' m [] → ∃ jit', JitDfa.compile os' m = .ok jit') ∧
        ∀ jit', JitDfa.compile os' m = .ok jit' → SameScans jit jit' := by
  have hch := (compile_with_output_links_ok hjit).1
  obtain ⟨r, hmin, hr⟩ := minimize_found hch
  refine ⟨r, hmin, ?_⟩
  intro m hm
  refine ⟨fun hos => (compile_accepts hos).mpr (hr m hm).checked, ?_⟩
  intro jit' hjit'
  apply same_scans_of_found hjit hjit'
  intro input
  rw [(hr m hm).found, as_read_plain hch.valid hplain]

/-- A table with two ways out of the start, by `a` and by `b`. Its states 1 and 2
both accept the one pattern. -/
def two_exits (a b : UInt32) : TransitionTable where
  state_count := 3
  class_count := 256
  transitions := (List.range 768).map fun i => if i = 97 then a else if i = 98 then b else 0
  accept_states := [(1, 0), (2, 0)]
  pattern_lengths := [1]
  states_le := by decide
  class_pos := some_byte

theorem two_exits_targets {a b x : UInt32} (h : x ∈ (two_exits a b).transitions) :
    x = a ∨ x = b ∨ x = 0 := by
  unfold two_exits at h
  simp only at h
  generalize 768 = n at h
  obtain ⟨i, _, he⟩ := List.mem_map.mp h
  rw [← he]
  split
  · exact Or.inl rfl
  · split
    · exact Or.inr (Or.inl rfl)
    · exact Or.inr (Or.inr rfl)

theorem two_exits_states {a b : UInt32} : (1 : UInt32).toNat < (two_exits a b).state_count ∧
    (2 : UInt32).toNat < (two_exits a b).state_count := by
  have hstates : (two_exits a b).state_count = 3 := rfl
  rw [hstates]
  decide

theorem two_exits_alike {a b : UInt32} (h : Checked (two_exits a b) []) :
    Alike (two_exits a b) 1 2 := by
  have hpid : pid_at (two_exits a b) 1 = pid_at (two_exits a b) 2 := rfl
  apply alike_of_same_row h.valid rfl two_exits_states.1 two_exits_states.2 hpid
  intro x
  have hx := x.toNat_lt
  have hrow : ∀ i < 768, 256 ≤ i → (two_exits a b).transitions[i]? = some 0 := by
    intro i hi hge
    unfold two_exits
    rw [List.getElem?_map, List.getElem?_range hi, Option.map_some, if_neg (by omega),
      if_neg (by omega)]
  have hbytes : (two_exits a b).class_count = 256 := rfl
  have hone : (1 : UInt32).toNat = 1 := rfl
  have htwo : (2 : UInt32).toNat = 2 := rfl
  unfold target
  rw [hbytes, hone, htwo, hrow _ (by omega) (by omega), hrow _ (by omega) (by omega)]

/-- So minimization makes a table of them. -/
theorem two_exits_minimized {a b : UInt32} (h : Checked (two_exits a b) []) :
    ∃ m, (two_exits a b).minimize .w64 = .ok (some m) ∧ Minimized (two_exits a b) m := by
  obtain ⟨r, hmin, hr⟩ := minimize_found h
  cases r with
  | none =>
    have hsep := (minimize_none_iff h.valid rfl).mp hmin
    have hsame := hsep 1 2 two_exits_states.1 two_exits_states.2 (two_exits_alike h)
    exact absurd hsame (by decide)
  | some m => exact ⟨m, hmin, hr m rfl⟩

theorem two_exits_grants {a b : UInt32} (h : Checked (two_exits a b) []) :
    Grants generous (two_exits a b) [] := by
  have hlens : (two_exits a b).pattern_lengths.length = 1 := rfl
  exact generous_grants h.bytes h.valid.len (by omega) (Nat.zero_le _)

theorem Minimized.grants {t m : TransitionTable} (h : Minimized t m)
    (hlens : t.pattern_lengths.length ≤ 2 ^ 32) : Grants generous m [] :=
  generous_grants h.checked.bytes h.checked.valid.len (by rw [h.lengths]; exact hlens)
    (Nat.zero_le _)

theorem two_exits_checked : Checked (two_exits 1 2) [] :=
  (check_table_ok .w64 _ _).mp (by decide +kernel)

/-- Minimization merges the two exits, and the scans stay the same. -/
theorem minimization_keeps_every_scan_of_two_exits :
    ∃ m jit jit', (two_exits 1 2).minimize .w64 = .ok (some m) ∧
      JitDfa.compile generous (two_exits 1 2) = .ok jit ∧
      JitDfa.compile generous m = .ok jit' ∧ SameScans jit jit' := by
  have hch := two_exits_checked
  have hplain : ∀ x ∈ (two_exits 1 2).transitions, flagged x = false := by
    intro x hx
    rcases two_exits_targets hx with rfl | rfl | rfl <;> rfl
  obtain ⟨jit, hjit⟩ := (compile_accepts (two_exits_grants hch)).mpr hch
  obtain ⟨m, hmin, hm⟩ := two_exits_minimized hch
  obtain ⟨r, hr, hall⟩ := @minimization_keeps_every_scan _ generous _ _ hjit hplain
  rw [hmin] at hr
  obtain ⟨hcompiles, hscans⟩ := hall m (Except.ok.inj hr).symm
  obtain ⟨jit', hjit'⟩ := hcompiles (hm.grants (by decide))
  exact ⟨m, jit, jit', hmin, hjit, hjit', hscans jit' hjit'⟩

end dfajit.minimization
