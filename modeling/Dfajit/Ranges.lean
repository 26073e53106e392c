-- The byte ranges of each state (table.rs, `compute_ranges`): the maximal runs of
-- equal targets in the first 256 entries of each row.
import Dfajit.Lib.RunLength
import Dfajit.Table

namespace dfajit.table

open error

def saturating_mul (w : Width) (a b : Nat) : Nat := min (a * b) w.max

def saturating_add (w : Width) (a b : Nat) : Nat := min (a + b) w.max

/-- `&xs[start..end]`, which panics if the bounds are not in order or go past the end. -/
def index_range {α : Type} (xs : List α) (start «end» : Nat) : Res (List α) :=
  if start ≤ «end» ∧ «end» ≤ xs.length then .ok ((xs.take «end»).drop start) else .error .panic

/-- A closed range of bytes, and the target of all of them. -/
abbrev Range := UInt8 × UInt8 × UInt32

namespace TransitionTable

/-- The variables of the loop over a row: the ranges so far, and the one that is
open, which has no end yet. -/
structure OpenRange where
  state_ranges : List Range
  start : Nat
  target : UInt32

def range_step (row : List UInt32) (work : OpenRange) (i : Nat) : Res OpenRange := do
  let next ← index row i
  if next ≠ work.target then
    .ok {
      state_ranges := work.state_ranges ++ [(.ofNat work.start, .ofNat (i - 1), work.target)]
      start := i
      target := next }
  else .ok work

/-- The ranges of one row. -/
def row_ranges (row : List UInt32) : Res (List Range) :=
  let limit := min row.length 256
  if limit = 0 then .ok []
  else do
    let target ← index row 0
    let work ← (List.range' 1 (limit - 1)).foldlM (range_step row)
      { state_ranges := [], start := 0, target }
    .ok (work.state_ranges ++ [(.ofNat work.start, .ofNat (limit - 1), work.target)])

def compute_ranges (w : Width) (t : TransitionTable) : Res (List (List Range)) :=
  if t.class_count = 0 then .ok []
  else
    (List.range t.state_count).mapM fun state => do
      let row_start := saturating_mul w state t.class_count
      let row_end := min (saturating_add w row_start t.class_count) t.transitions.length
      let row ← index_range t.transitions row_start row_end
      row_ranges row

end TransitionTable

end dfajit.table

namespace dfajit.ranges

open error table run_length

/-! ## One row -/

/-- The range of a run whose ends are bytes. -/
def range_of (r : Run UInt32) : Range := (.ofNat r.lo, .ofNat r.hi, r.value)

/-- The ranges of a row are the maximal runs of its first 256 entries. -/
theorem row_ranges_eq (row : List UInt32) (h : row ≠ []) :
    ∃ runs, TransitionTable.row_ranges row = .ok (runs.map range_of) ∧
      MaximalRuns (row.take 256) runs := by
  have hlen := List.length_pos_iff.mpr h
  obtain ⟨x, hx⟩ : ∃ x, row[0]? = some x := ⟨_, List.getElem?_eq_getElem hlen⟩
  have htake : ∀ k y, row[k]? = some y → row.take (k + 1) = row.take k ++ [y] := by
    intro k y hy
    rw [List.take_add_one, hy, Option.toList_some]
  -- the runs so far, with the open one closed, are the runs of what was read
  obtain ⟨work, hrun, runs, hranges, hmax⟩ := foldlM_range
    (fun work k => TransitionTable.range_step row work (1 + k)) (min row.length 256 - 1)
    { state_ranges := [], start := 0, target := x }
    (fun k work => ∃ runs, work.state_ranges = runs.map range_of ∧
      MaximalRuns (row.take (k + 1)) (runs ++ [⟨work.start, k, work.target⟩]))
    (by
      refine ⟨[], rfl, ?_⟩
      rw [htake 0 x hx]
      exact maximal_runs_singleton x)
    (by
      rintro k hk work ⟨runs, hranges, hmax⟩
      have hlt : k + 1 < row.length := by omega
      obtain ⟨y, hy⟩ : ∃ y, row[k + 1]? = some y := ⟨_, List.getElem?_eq_getElem hlt⟩
      unfold TransitionTable.range_step
      rw [Nat.add_comm 1 k, index_ok hy, ok_bind, htake (k + 1) y hy]
      by_cases hsame : y = work.target
      · subst hsame
        rw [if_neg (not_not_intro rfl)]
        exact ⟨_, rfl, runs, hranges, hmax.extend⟩
      · rw [if_pos hsame]
        refine ⟨_, rfl, runs ++ [⟨work.start, k, work.target⟩], ?_, ?_⟩
        · simp [hranges, range_of]
        · have hnew := hmax.start (x := y) (Ne.symm hsame)
          rwa [List.length_take, Nat.min_eq_left (Nat.le_of_lt hlt)] at hnew)
  have hlimit : min row.length 256 - 1 + 1 = min row.length 256 := by omega
  have hall : row.take (min row.length 256) = row.take 256 := by
    rw [Nat.min_comm, ← List.take_eq_take_min]
  rw [hlimit, hall] at hmax
  refine ⟨_, ?_, hmax⟩
  unfold TransitionTable.row_ranges
  simp only [List.range'_eq_map_range, List.foldlM_map]
  rw [if_neg (by omega), index_ok hx, ok_bind, hrun, ok_bind, hranges, List.map_append]
  rfl

example : TransitionTable.row_ranges [0, 0, 7, 0] = .ok [(0, 1, 0), (2, 2, 7), (3, 3, 0)] := rfl

theorem row_ranges_nil : TransitionTable.row_ranges [] = .ok [] := rfl

theorem row_ranges_total (row : List UInt32) :
    ∃ rs, TransitionTable.row_ranges row = .ok rs := by
  by_cases h : row = []
  · rw [h]
    exact ⟨[], row_ranges_nil⟩
  · obtain ⟨runs, hruns, _⟩ := row_ranges_eq row h
    exact ⟨_, hruns⟩

/-! ## The rows of a table -/

/-- What the vector holds of the row of a state. -/
def row (t : TransitionTable) (s : Nat) : List UInt32 :=
  (t.transitions.take ((s + 1) * t.class_count)).drop (s * t.class_count)

section

variable {w : Width} {t : TransitionTable} {s : Nat} {rs : List Range}

/-- A row ends where the next one starts. -/
theorem row_end (hs : s < t.state_count) :
    (s + 1) * t.class_count = s * t.class_count + t.class_count ∧
      (s + 1) * t.class_count ≤ t.state_count * t.class_count := by
  refine ⟨?_, Nat.mul_le_mul_right _ hs⟩
  rw [Nat.add_mul, Nat.one_mul]

/-- The row of a state is a slice of the vector unless it starts past the end. -/
theorem index_row (hfit : t.state_count * t.class_count ≤ w.max) (hs : s < t.state_count) :
    index_range t.transitions (saturating_mul w s t.class_count)
        (min (saturating_add w (saturating_mul w s t.class_count) t.class_count)
          t.transitions.length) =
      if s * t.class_count ≤ t.transitions.length then .ok (row t s) else .error .panic := by
  obtain ⟨hsucc, hrow⟩ := row_end hs
  have hmul : saturating_mul w s t.class_count = s * t.class_count := by
    unfold saturating_mul
    omega
  have hadd : saturating_add w (s * t.class_count) t.class_count = (s + 1) * t.class_count := by
    unfold saturating_add
    omega
  unfold index_range row
  rw [hmul, hadd]
  by_cases hle : s * t.class_count ≤ t.transitions.length
  · rw [if_pos (by omega), if_pos hle, ← List.take_eq_take_min]
  · rw [if_neg (by omega), if_neg hle]

theorem compute_ranges_iff (hfit : t.state_count * t.class_count ≤ w.max) (rs : List (List Range)) :
    t.compute_ranges w = .ok rs ↔ rs.length = t.state_count ∧ ∀ s < t.state_count,
      s * t.class_count ≤ t.transitions.length ∧
        ∃ r, TransitionTable.row_ranges (row t s) = .ok r ∧ rs[s]? = some r := by
  have hpos := t.class_pos
  unfold TransitionTable.compute_ranges
  rw [if_neg (by omega), mapM_range]
  apply and_congr_right
  intro _
  refine forall₂_congr fun s hs => ?_
  simp only [index_row hfit hs]
  split
  · rename_i hle
    simp only [ok_bind, hle, true_and]
  · rename_i hle
    simp [hle]

/-- `compute_ranges` panics exactly when a row starts past the end of the vector. -/
theorem compute_ranges_total (hfit : t.state_count * t.class_count ≤ w.max) :
    (∃ rs, t.compute_ranges w = .ok rs) ↔
      ∀ s < t.state_count, s * t.class_count ≤ t.transitions.length := by
  have hpos := t.class_pos
  unfold TransitionTable.compute_ranges
  rw [if_neg (by omega), mapM_range_total]
  refine forall₂_congr fun s hs => ?_
  simp only [index_row hfit hs]
  split
  · rename_i hle
    exact iff_of_true (row_ranges_total _) hle
  · rename_i hle
    exact iff_of_false (by simp) hle

theorem row_get {b : Nat} (hb : b < t.class_count) :
    (row t s)[b]? = t.transitions[s * t.class_count + b]? := by
  unfold row
  rw [List.getElem?_drop, List.getElem?_take_of_lt]
  rw [Nat.add_mul, Nat.one_mul]
  omega

theorem row_length (hlen : t.transitions.length = t.state_count * t.class_count)
    (hs : s < t.state_count) : (row t s).length = t.class_count := by
  obtain ⟨hsucc, hrow⟩ := row_end hs
  unfold row
  rw [List.length_drop, List.length_take]
  omega

/-! ## Full rows -/

/-- The ranges are the maximal runs of equal targets of a state: in their order,
without a gap, from byte 0 to the last byte that has a class. -/
structure ExactRanges (t : TransitionTable) (s : Nat) (rs : List Range) : Prop where
  first : rs.head?.map (·.1.toNat) = some 0
  last : rs.getLast?.map (·.2.1.toNat) = some (min t.class_count 256 - 1)
  ordered : ∀ r ∈ rs, r.1 ≤ r.2.1
  contiguous : rs.IsChain fun r r' => r'.1.toNat = r.2.1.toNat + 1
  maximal : rs.IsChain fun r r' => r.2.2 ≠ r'.2.2
  exact : ∀ r ∈ rs, ∀ b : UInt8, r.1 ≤ b → b ≤ r.2.1 →
    t.transitions[s * t.class_count + b.toNat]? = some r.2.2

theorem exact_of_runs (hlen : t.transitions.length = t.state_count * t.class_count)
    (hs : s < t.state_count) {runs : List (Run UInt32)}
    (h : MaximalRuns ((row t s).take 256) runs) : ExactRanges t s (runs.map range_of) := by
  have hrow := row_length hlen hs
  have htake : ((row t s).take 256).length = min t.class_count 256 := by
    rw [List.length_take, hrow, Nat.min_comm]
  -- both ends of a run are places of the row, so they fit into a byte
  have hends : ∀ r ∈ runs, (range_of r).1.toNat = r.lo ∧ (range_of r).2.1.toNat = r.hi := by
    intro r hr
    have hle := h.ordered r hr
    have hlt := (List.getElem?_eq_some_iff.mp (h.exact r hr r.hi hle (Nat.le_refl _))).1
    have hsize : UInt8.size = 256 := rfl
    exact ⟨UInt8.toNat_ofNat_of_lt' (by omega), UInt8.toNat_ofNat_of_lt' (by omega)⟩
  refine ⟨?_, ?_, ?_, ?_, ?_, ?_⟩
  · obtain ⟨r, hr, hlo⟩ := Option.map_eq_some_iff.mp h.first
    rw [List.head?_map, hr, Option.map_some, Option.map_some, (hends r (List.mem_of_mem_head? hr)).1,
      hlo]
  · obtain ⟨r, hr, hhi⟩ := Option.map_eq_some_iff.mp h.last
    rw [List.getLast?_map, hr, Option.map_some, Option.map_some,
      (hends r (List.mem_of_mem_getLast? hr)).2, ← htake, ← hhi, Nat.add_sub_cancel]
  · intro r hmem
    obtain ⟨r, hr, rfl⟩ := List.mem_map.mp hmem
    rw [UInt8.le_iff_toNat_le, (hends r hr).1, (hends r hr).2]
    exact h.ordered r hr
  · rw [List.isChain_map]
    refine h.meet.imp_of_mem_imp ?_
    intro r r' hr hr' hmeet
    rw [(hends r hr).2, (hends r' hr').1, hmeet]
  · rw [List.isChain_map]
    exact h.differ
  · intro r hmem b hlo hhi
    obtain ⟨r, hr, rfl⟩ := List.mem_map.mp hmem
    rw [UInt8.le_iff_toNat_le, (hends r hr).1] at hlo
    rw [UInt8.le_iff_toNat_le, (hends r hr).2] at hhi
    have hget := h.exact r hr b.toNat hlo hhi
    have hb := (List.getElem?_eq_some_iff.mp hget).1
    rw [List.getElem?_take_of_lt (by omega), row_get (by omega)] at hget
    exact hget

/-- For each table whose vector has just its cells, whose number is a `usize`,
`compute_ranges` gives the maximal runs of each state. -/
theorem compute_ranges_is_a_maximal_run_length_form (w : Width) (t : TransitionTable)
    (hlen : t.transitions.length = t.state_count * t.class_count)
    (hvec : t.transitions.length ≤ w.max) :
    ∃ rs, t.compute_ranges w = .ok rs ∧ rs.length = t.state_count ∧
      ∀ s < t.state_count, ∃ r, rs[s]? = some r ∧ ExactRanges t s r := by
  have hfit : t.state_count * t.class_count ≤ w.max := by omega
  have hstart : ∀ s < t.state_count, s * t.class_count ≤ t.transitions.length := by
    intro s hs
    rw [hlen]
    exact Nat.mul_le_mul_right _ (Nat.le_of_lt hs)
  obtain ⟨rs, hrs⟩ := (compute_ranges_total hfit).mpr hstart
  obtain ⟨hcount, hrows⟩ := (compute_ranges_iff hfit rs).mp hrs
  refine ⟨rs, hrs, hcount, ?_⟩
  intro s hs
  obtain ⟨_, r, hr, hget⟩ := hrows s hs
  have hpos := t.class_pos
  have hrow := row_length hlen hs
  obtain ⟨runs, hruns, hmax⟩ := row_ranges_eq (row t s) (by
    intro hnil
    rw [hnil, List.length_nil] at hrow
    omega)
  rw [hruns] at hr
  obtain rfl := Except.ok.inj hr
  exact ⟨_, hget, exact_of_runs hlen hs hmax⟩

/-- Two states, which the classes of the small letters lead to the second, and all
others to the first. -/
def letter_rows (c : Nat) (hc : 0 < c) : TransitionTable where
  state_count := 2
  class_count := c
  transitions := (List.range (2 * c)).map fun i => if 97 ≤ i % c ∧ i % c ≤ 122 then 1 else 0
  accept_states := [(1, 0)]
  pattern_lengths := [1]
  states_le := two_states_fit
  class_pos := hc

theorem letter_rows_len (c : Nat) (hc : 0 < c) :
    (letter_rows c hc).transitions.length = 2 * c := by
  unfold letter_rows
  rw [List.length_map, List.length_range]

theorem letter_rows_get {c i : Nat} (hc : 0 < c) (hi : i < 2 * c) :
    (letter_rows c hc).transitions[i]? = some (if 97 ≤ i % c ∧ i % c ≤ 122 then 1 else 0) := by
  unfold letter_rows
  rw [List.getElem?_map, List.getElem?_range hi]
  rfl

/-- The ranges of two rows with two targets each, which are longer than the range of a
byte. -/
theorem the_ranges_of_a_table_with_300_classes :
    (letter_rows 300 (by decide)).transitions[96]? = some 0 ∧
    (letter_rows 300 (by decide)).transitions[97]? = some 1 ∧
      ∃ rs, (letter_rows 300 (by decide)).compute_ranges .w64 = .ok rs ∧ rs.length = 2 ∧
        ∀ s < 2, ∃ r, rs[s]? = some r ∧ ExactRanges (letter_rows 300 (by decide)) s r := by
  have hlen := letter_rows_len 300 (by decide)
  refine ⟨letter_rows_get _ (by decide), letter_rows_get _ (by decide), ?_⟩
  exact compute_ranges_is_a_maximal_run_length_form .w64 _ hlen (by rw [hlen]; decide)

/-! ## Edited vectors -/

/-- `compute_ranges` gives one list for each state, and an empty one for a state
whose row is missing. -/
def ToleratesMissingRows (w : Width) (t : TransitionTable) : Prop :=
  ∃ rs, t.compute_ranges w = .ok rs ∧ rs.length = t.state_count ∧
    ∀ s < t.state_count, t.transitions.length ≤ s * t.class_count → rs[s]? = some []

theorem tolerates_iff (hfit : t.state_count * t.class_count ≤ w.max) :
    ToleratesMissingRows w t ↔ ∀ s < t.state_count, s * t.class_count ≤ t.transitions.length := by
  constructor
  · rintro ⟨rs, hrs, _⟩
    exact (compute_ranges_total hfit).mp ⟨rs, hrs⟩
  · intro hstart
    obtain ⟨rs, hrs⟩ := (compute_ranges_total hfit).mpr hstart
    obtain ⟨hcount, hrows⟩ := (compute_ranges_iff hfit rs).mp hrs
    refine ⟨rs, hrs, hcount, ?_⟩
    intro s hs hmissing
    obtain ⟨_, r, hr, hget⟩ := hrows s hs
    have hnil : row t s = [] := by
      unfold row
      rw [List.drop_eq_nil_iff, List.length_take]
      omega
    rw [hnil, row_ranges_nil] at hr
    rw [hget, Except.ok.inj hr]

/-- After an edit of the vector of a new table, `compute_ranges` tolerates what is
missing exactly when the row of the last state starts no later than the vector
ends. -/
theorem compute_ranges_tolerates_exactly_when_the_last_row_starts_inside {n c : Nat}
    {t : TransitionTable} (hnew : TransitionTable.new w n c = .ok t)
    (edit : List UInt32 → List UInt32) :
    ToleratesMissingRows w (t.transitions_mut edit) ↔
      n = 0 ∨ (n - 1) * c ≤ (edit t.transitions).length := by
  obtain ⟨rfl, rfl, _, _, _, hfit, _⟩ := TransitionTable.new_ok hnew
  rw [tolerates_iff (t := t.transitions_mut edit) hfit]
  constructor
  · intro h
    by_cases hn : t.state_count = 0
    · exact Or.inl hn
    · exact Or.inr (h (t.state_count - 1) (Nat.sub_lt (by omega) Nat.one_pos))
  · rintro (hn | hlast) s hs
    · exact absurd hs (by rw [TransitionTable.transitions_mut, hn]; omega)
    · exact Nat.le_trans (Nat.mul_le_mul_right _ (Nat.le_sub_one_of_lt hs)) hlast

end

/-- With ten entries left of three rows, the slice of the second row starts past
its end. -/
theorem a_truncated_table_makes_compute_ranges_panic :
    ¬ ∀ (w : Width) (n c : Nat) (t : TransitionTable) (edit : List UInt32 → List UInt32),
      TransitionTable.new w n c = .ok t → ToleratesMissingRows w (t.transitions_mut edit) := by
  intro h
  obtain ⟨t, hnew⟩ : ∃ t, TransitionTable.new .w64 3 256 = .ok t := ⟨_, rfl⟩
  obtain ⟨hn, hc, _, _, _, hfit, _⟩ := TransitionTable.new_ok hnew
  have hall := (tolerates_iff (t := t.transitions_mut (·.take 10)) (by rw [← hn, ← hc] at hfit; exact hfit)).mp
    (h .w64 3 256 t (·.take 10) hnew)
  have hrow : 1 * t.class_count ≤ (t.transitions.take 10).length :=
    hall 1 (by rw [TransitionTable.transitions_mut, hn]; decide)
  rw [hc, List.length_take] at hrow
  omega

/-- The law for a table that lost a part of its last row. -/
theorem compute_ranges_of_a_table_without_its_last_entries :
    ∃ t, TransitionTable.new .w64 3 256 = .ok t ∧
      (ToleratesMissingRows .w64 (t.transitions_mut (·.take 600)) ↔
        3 = 0 ∨ (3 - 1) * 256 ≤ (t.transitions.take 600).length) := by
  obtain ⟨t, hnew⟩ : ∃ t, TransitionTable.new .w64 3 256 = .ok t := ⟨_, rfl⟩
  exact ⟨t, hnew,
    compute_ranges_tolerates_exactly_when_the_last_row_starts_inside hnew (·.take 600)⟩

end dfajit.ranges
