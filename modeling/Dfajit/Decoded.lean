-- From bytes to matches (table.rs, dfa.rs): whatever bytes a table was read from,
-- nothing that is done with it afterwards panics.
import Dfajit.HostileData
import Dfajit.BuiltTables
import Dfajit.Ranges
import Dfajit.Offsets
import Dfajit.MinimizeAgain
import Dfajit.Refusals

namespace dfajit.decoded

open error table codegen ranges partition quotient splitting table_scan dfa engines agreement
  offsets minimization minimize_again refusals

section

variable {t : TransitionTable} {w : Width}

/-- On the parts that `from_parts` takes, `minimize` never panics. Where the
classes need a table that `new` refuses, it returns none. -/
theorem minimize_total (hv : t.Valid) : ∃ r, t.minimize w = .ok r := by
  by_cases hmany : t.state_count ≤ 1
  · exact ⟨none, minimize_small hmany w⟩
  obtain ⟨k, hgroup⟩ := initial_partition_eq t
  obtain ⟨q, hloop, hnumbered, _⟩ := refine_loop_splits hv.len (by omega) k
  obtain ⟨hnone, hless⟩ := minimize_of_rounds (by omega) hgroup hloop hnumbered.len w
  by_cases hge : t.state_count ≤ count q
  · exact ⟨none, hnone hge⟩
  obtain ⟨hrefused, hnew⟩ := hless (by omega)
  cases hm : TransitionTable.new w (count q) t.class_count with
  | error e => exact ⟨none, hrefused e hm⟩
  | ok m =>
    obtain ⟨h1, h2, h3, h4, _⟩ := TransitionTable.new_ok hm
    have hlen : m.transitions.length = count q * t.class_count := by
      rw [h3, List.length_replicate]
    obtain ⟨m', hrun, _⟩ := rebuild_eq hnumbered hv.len hv.accepts h1 h2 hlen h4
    rw [hnew m hm, hrun]
    exact ⟨some m', rfl⟩

theorem compute_ranges_of_len (hlen : t.transitions.length = t.state_count * t.class_count)
    (hfit : t.transitions.length ≤ w.max) : ∃ rs, t.compute_ranges w = .ok rs := by
  refine (compute_ranges_total (by omega)).mpr ?_
  intro s hs
  rw [hlen]
  exact Nat.mul_le_mul_right _ (Nat.le_of_lt hs)

end

/-- Each of the calls on the DFA returns, whatever the input and the buffer. -/
structure Scans (jit : JitDfa) : Prop where
  scan : ∀ (input : List UInt8) (slots : List Match)
    (place : Placement jit.code input slots.length), ∃ r, jit.scan input slots place = .ok r
  scan_count : ∀ (input : List UInt8) (place : Placement jit.code input 0),
    ∃ n, jit.scan_count input place = .ok n
  scan_first : ∀ (input : List UInt8) (place : Placement jit.code input 1),
    ∃ m, jit.scan_first input place = .ok m
  has_match : ∀ (input : List UInt8) (place : Placement jit.code input 1),
    ∃ b, jit.has_match input place = .ok b

theorem scans_of_compile {os : Os} {t : TransitionTable} {jit : JitDfa}
    (h : JitDfa.compile os t = .ok jit) : Scans jit := by
  have hl := linked_of_checked (compile_with_output_links_ok h).1
  constructor
  · intro input slots place
    exact ⟨_, scan_eq h hl sparse_alone input slots place⟩
  · intro input place
    exact ⟨_, scan_count_eq h hl sparse_alone input place⟩
  · intro input place
    exact ⟨_, scan_first_eq h hl sparse_alone input place⟩
  · intro input place
    exact ⟨_, has_match_eq h hl sparse_alone input place⟩

/-- A table that was read from bytes can be written and read again, gives its ranges,
and can be minimized. It and the minimized table are each compiled or refused with
an error, and what is compiled scans every input. -/
theorem a_table_read_from_bytes_never_panics {data : List UInt8} {t : TransitionTable}
    (hdata : data.length < Width.w64.size / 2)
    (h : TransitionTable.from_bytes .w64 data = .ok t) (os : Os) :
    TransitionTable.from_bytes .w64 t.to_bytes = .ok t ∧
      (∃ rs, t.compute_ranges .w64 = .ok rs) ∧
      ∃ r, t.minimize .w64 = .ok r ∧ ∀ u, u = t ∨ r = some u →
        (∃ jit, JitDfa.compile os u = .ok jit ∧ Scans jit) ∨
          ∃ e, JitDfa.compile os u = .error (.err e) := by
  obtain ⟨hfront, hw, hv⟩ := TransitionTable.from_bytes_ok h
  have hbytes := hfront.length_le
  have hlen := TransitionTable.to_bytes_length t
  have hmax : Width.w64.size / 2 ≤ Width.w64.max := by decide
  obtain ⟨r, hr⟩ := minimize_total (w := .w64) hv
  refine ⟨?_, compute_ranges_of_len hv.len (by omega), r, hr, ?_⟩
  · have hread := TransitionTable.from_bytes_of_written .w64 t [] hw (by
      rw [List.append_nil]
      omega)
    rw [List.append_nil, TransitionTable.from_parts_of_valid .w64 t hv (by omega)] at hread
    exact hread
  · intro u _
    cases hu : JitDfa.compile os u with
    | ok jit => exact Or.inl ⟨jit, rfl, scans_of_compile hu⟩
    | error stop =>
      cases compile_refused hu with
      | empty _ => exact Or.inr ⟨_, rfl⟩
      | unchecked _ _ _ => exact Or.inr ⟨_, rfl⟩
      | no_memory _ _ _ => exact Or.inr ⟨_, rfl⟩

/-- The bytes of the table of two exits, which is compiled and minimized. -/
theorem two_exits_read_from_bytes_never_panic :
    ∃ data t, TransitionTable.from_bytes .w64 data = .ok t ∧
      (∃ jit, JitDfa.compile generous t = .ok jit) ∧ (∃ m, t.minimize .w64 = .ok (some m)) ∧
      TransitionTable.from_bytes .w64 t.to_bytes = .ok t ∧
      (∃ rs, t.compute_ranges .w64 = .ok rs) ∧
      ∃ r, t.minimize .w64 = .ok r ∧ ∀ u, u = t ∨ r = some u →
        (∃ jit, JitDfa.compile generous u = .ok jit ∧ Scans jit) ∨
          ∃ e, JitDfa.compile generous u = .error (.err e) := by
  have hch := two_exits_checked
  have hlens : (two_exits 1 2).pattern_lengths.length = 1 := rfl
  have haccepts : (two_exits 1 2).accept_states.length = 2 := rfl
  have hstates : (two_exits 1 2).state_count = 3 := rfl
  have hread := reads_back hch (by omega)
  have hdata : (two_exits 1 2).to_bytes.length < Width.w64.size / 2 := by
    rw [TransitionTable.to_bytes_length, hch.valid.len, hch.bytes, hlens, haccepts, hstates]
    decide
  obtain ⟨m, hmin, _⟩ := two_exits_minimized hch
  exact ⟨_, _, hread, (compile_accepts (two_exits_grants hch)).mpr hch, ⟨m, hmin⟩,
    a_table_read_from_bytes_never_panics hdata hread generous⟩

end dfajit.decoded
