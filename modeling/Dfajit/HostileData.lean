-- The reader of tables on data from outside, with all that the source leaves to
-- chance in the open: each unchecked addition and multiplication stops where it
-- would overflow, and each vector that is reserved is noted with its size.
import Mathlib.NumberTheory.LucasPrimality
import Mathlib.Tactic.NormNum.Prime
import Mathlib.Tactic.ReduceModChar
import Dfajit.Lib.Traced
import Dfajit.Codec

namespace dfajit.hostile

open error words table TransitionTable traced

/-! ## The reader, operation by operation -/

/-- A multiplication that the source leaves unchecked. -/
def mul (w : Width) (a b : Nat) : Res Nat :=
  if a * b ≤ w.max then .ok (a * b) else .error .panic

/-- `u32::from_le_bytes(data[off..off + 4])`, with the end of the slice. -/
def slice_u32 (w : Width) (data : List UInt8) (off : Nat) : Res UInt32 := do
  let _ ← add w off 4
  read_u32 data off

/-- `for i in 0..trans_len`, from the `i`th entry on. -/
def read_transitions (w : Width) (data : List UInt8) : Nat → Nat → Res (List UInt32)
  | _, 0 => .ok []
  | i, n + 1 => do
    let off ← add w 8 (← mul w i 4)
    let val ← slice_u32 w data off
    let rest ← read_transitions w data (i + 1) n
    .ok (val :: rest)

/-- `for _ in 0..accept_count`, with the place after the last entry. -/
def read_accept_states (w : Width) (data : List UInt8) :
    Nat → Nat → Res (List (UInt32 × UInt32) × Nat)
  | pos, 0 => .ok ([], pos)
  | pos, n + 1 => do
    let state ← slice_u32 w data pos
    let pid ← slice_u32 w data (← add w pos 4)
    let (rest, pos) ← read_accept_states w data (← add w pos 8) n
    .ok ((state, pid) :: rest, pos)

/-- `for _ in 0..pat_count`. -/
def read_pattern_lengths (w : Width) (data : List UInt8) : Nat → Nat → Res (List UInt32)
  | _, 0 => .ok []
  | pos, n + 1 => do
    let l ← slice_u32 w data pos
    let rest ← read_pattern_lengths w data (← add w pos 4) n
    .ok (l :: rest)

/-- `from_parts`, with the note of `seen_states`. -/
def from_parts (w : Width) (state_count class_count : Nat) (transitions : List UInt32)
    (accept_states : List (UInt32 × UInt32)) (pattern_lengths : List UInt32) :
    Traced Stop TransitionTable :=
  if hs : state_count > MAX_STATES then
    liftM (.error (.err (.TooManyStates state_count MAX_STATES)) : Res TransitionTable)
  else if hc : class_count = 0 then
    liftM (invalid "class_count must be greater than 0" : Res TransitionTable)
  else
    match checked_mul w state_count class_count with
    | none => liftM (invalid "state_count * class_count overflow" : Res TransitionTable)
    | some expected_len =>
      if transitions.length ≠ expected_len then
        liftM (invalid (s!"transition table has {transitions.length} entries but expected " ++
          s!"{expected_len}") : Res TransitionTable)
      else do
        check_targets state_count transitions
        Traced.note state_count
        check_accepts state_count pattern_lengths.length (List.replicate state_count false)
          accept_states
        pure {
          state_count, class_count, transitions, accept_states, pattern_lengths
          states_le := Nat.le_of_not_gt hs
          class_pos := Nat.pos_of_ne_zero hc }

def from_bytes (w : Width) (data : List UInt8) : Traced Stop TransitionTable := do
  if data.length < 8 then
    (invalid "data too short for header" : Res TransitionTable)
  else
    let state_count := (← read_u32 data 0).toNat
    let class_count := (← read_u32 data 4).toNat
    let trans_len ← ok_or (checked_mul w state_count class_count)
      "state_count * class_count overflow"
    let trans_bytes ← ok_or (checked_mul w trans_len 4) "transition table byte length overflow"
    let trans_end ← ok_or (checked_add w 8 trans_bytes) "transition table end offset overflow"
    if data.length < (← add w trans_end 4) then
      (invalid "truncated transition table" : Res TransitionTable)
    else
      Traced.note trans_len
      let transitions ← read_transitions w data 0 trans_len
      let accept_count := (← slice_u32 w data trans_end).toNat
      let accept_bytes ← ok_or (checked_mul w accept_count 8) "accept states byte length overflow"
      let pos ← add w trans_end 4
      let accept_end ← ok_or (checked_add w pos accept_bytes) "accept states end offset overflow"
      if data.length < accept_end then
        (invalid "truncated accept states" : Res TransitionTable)
      else
        Traced.note accept_count
        let (accept_states, pos) ← read_accept_states w data pos accept_count
        if (← add w pos 4) > data.length then
          (invalid "truncated pattern lengths header" : Res TransitionTable)
        else
          let pat_count := (← slice_u32 w data pos).toNat
          let pat_bytes ← ok_or (checked_mul w pat_count 4) "pattern lengths byte length overflow"
          let pos ← add w pos 4
          let pat_end ← ok_or (checked_add w pos pat_bytes) "pattern lengths end offset overflow"
          if data.length < pat_end then
            (invalid "truncated pattern lengths" : Res TransitionTable)
          else
            Traced.note pat_count
            let pattern_lengths ← read_pattern_lengths w data pos pat_count
            from_parts w state_count class_count transitions accept_states pattern_lengths

/-! ## What the reader computes -/

section

variable {w : Width} {data : List UInt8}

theorem size_eq (w : Width) : 2 ^ 32 ≤ w.size ∧ w.max = w.size - 1 ∧ w.size % 4 = 0 := by
  cases w <;> refine ⟨by decide, rfl, by decide⟩

theorem read_u32_past {off : Nat} (h : data.length < off + 4) :
    read_u32 data off = .error .panic := by
  have hword : wordAt data off = none := by
    unfold wordAt sliceAt
    rw [if_neg (by omega)]
    rfl
  unfold read_u32
  rw [hword]

theorem read_u32_lt {off : Nat} {x : UInt32} (h : read_u32 data off = .ok x) :
    off + 4 ≤ data.length := by
  by_contra hlt
  rw [read_u32_past (by omega)] at h
  cases h

/-- Where the end of a slice overflows, it is past the data as well. -/
theorem slice_u32_eq (hlen : data.length < w.size / 2) (off : Nat) :
    slice_u32 w data off = read_u32 data off := by
  obtain ⟨h32, hmax, _⟩ := size_eq w
  unfold slice_u32
  by_cases hoff : off + 4 ≤ w.max
  · rw [add_ok hoff, ok_bind]
  · have hadd : add w off 4 = .error .panic := if_neg hoff
    rw [hadd, read_u32_past (by omega)]
    rfl

/-- A read at a computed place: where the place overflows, the read panics too. -/
theorem add_read {α : Type} (hlen : data.length < w.size / 2) (a b : Nat)
    (f : Nat → UInt32 → Res α) :
    (add w a b >>= fun off => read_u32 data off >>= f off) =
      (read_u32 data (a + b) >>= f (a + b)) := by
  obtain ⟨h32, hmax, _⟩ := size_eq w
  by_cases hoff : a + b ≤ w.max
  · rw [add_ok hoff, ok_bind]
  · have hadd : add w a b = .error .panic := if_neg hoff
    rw [hadd, read_u32_past (by omega)]
    rfl

theorem read_transitions_eq (hlen : data.length < w.size / 2) (i n : Nat) :
    read_transitions w data i n = read_words data (8 + i * 4) n := by
  obtain ⟨h32, hmax, _⟩ := size_eq w
  induction n generalizing i with
  | zero => rfl
  | succ n ih =>
    unfold read_transitions read_words
    simp only [slice_u32_eq hlen]
    by_cases hmul : i * 4 ≤ w.max
    · have hm : mul w i 4 = .ok (i * 4) := if_pos hmul
      rw [hm, ok_bind, add_read hlen]
      simp only [ih, show 8 + (i + 1) * 4 = 8 + i * 4 + 4 by omega]
    · have hm : mul w i 4 = .error .panic := if_neg hmul
      rw [hm, read_u32_past (by omega)]
      rfl

theorem read_accept_states_eq (hlen : data.length < w.size / 2) (pos n : Nat) :
    read_accept_states w data pos n =
      (read_accepts data pos n >>= fun as => .ok (as, pos + 8 * n)) := by
  obtain ⟨h32, hmax, _⟩ := size_eq w
  induction n generalizing pos with
  | zero => rfl
  | succ n ih =>
    unfold read_accept_states read_accepts
    simp only [slice_u32_eq hlen, add_read hlen]
    cases hs : read_u32 data pos with
    | error e => rfl
    | ok state =>
      cases hp : read_u32 data (pos + 4) with
      | error e => rfl
      | ok pid =>
        have hlt := read_u32_lt hp
        rw [ok_bind, ok_bind, ok_bind, ok_bind, add_ok (by omega), ok_bind, ih]
        cases read_accepts data (pos + 8) n with
        | error e => rfl
        | ok rest =>
          simp only [ok_bind, show pos + 8 + 8 * n = pos + 8 * (n + 1) by omega]

theorem read_pattern_lengths_eq (hlen : data.length < w.size / 2) (pos n : Nat) :
    read_pattern_lengths w data pos n = read_words data pos n := by
  obtain ⟨h32, hmax, _⟩ := size_eq w
  induction n generalizing pos with
  | zero => rfl
  | succ n ih =>
    unfold read_pattern_lengths read_words
    rw [slice_u32_eq hlen]
    cases hs : read_u32 data pos with
    | error e => rfl
    | ok l =>
      have hlt := read_u32_lt hs
      rw [ok_bind, ok_bind, add_ok (by omega), ok_bind, ih]

theorem from_parts_result (sc cc : Nat) (ts : List UInt32) (as : List (UInt32 × UInt32))
    (ls : List UInt32) :
    (from_parts w sc cc ts as ls).result = TransitionTable.from_parts w sc cc ts as ls := by
  unfold from_parts TransitionTable.from_parts
  split
  · rfl
  split
  · rfl
  cases checked_mul w sc cc with
  | none => rfl
  | some expected_len =>
    simp only
    split
    · rfl
    cases check_targets sc ts with
    | error e => rfl
    | ok _ =>
      cases check_accepts sc ls.length (List.replicate sc false) as with
      | error e => rfl
      | ok _ => rfl

theorem bind_same {α β : Type} {m : Res α} {f g : α → Res β} (h : ∀ a, m = .ok a → f a = g a) :
    (m >>= f) = (m >>= g) := by
  cases m with
  | error e => rfl
  | ok a => exact h a rfl

/-- Operation by operation, the reader gives what it gives as a whole. -/
theorem from_bytes_result (hlen : data.length < w.size / 2) :
    (from_bytes w data).result = TransitionTable.from_bytes w data := by
  unfold from_bytes TransitionTable.from_bytes
  by_cases hshort : data.length < 8
  · rw [if_pos hshort, if_pos hshort]
    rfl
  rw [if_neg hshort, if_neg hshort]
  simp only [Traced.result_bind, Traced.result_lift]
  refine bind_same fun sc _ => ?_
  refine bind_same fun cc _ => ?_
  refine bind_same fun trans_len _ => ?_
  refine bind_same fun trans_bytes _ => ?_
  refine bind_same fun trans_end _ => ?_
  refine bind_same fun limit _ => ?_
  split
  · rfl
  simp only [Traced.result_bind, Traced.result_lift, Traced.result_note, ok_bind,
    read_transitions_eq hlen, slice_u32_eq hlen, Nat.zero_mul, Nat.add_zero]
  refine bind_same fun ts _ => ?_
  refine bind_same fun ac _ => ?_
  refine bind_same fun accept_bytes _ => ?_
  refine bind_same fun pos _ => ?_
  refine bind_same fun accept_end _ => ?_
  split
  · rfl
  simp only [Traced.result_bind, Traced.result_lift, Traced.result_note, ok_bind,
    read_accept_states_eq hlen, bind_assoc]
  refine bind_same fun as _ => ?_
  refine bind_same fun header_end hend => ?_
  split
  · rfl
  simp only [Traced.result_bind, Traced.result_lift, hend, ok_bind]
  refine bind_same fun pc _ => ?_
  refine bind_same fun pat_bytes _ => ?_
  rw [add_eq hend]
  refine bind_same fun pat_end _ => ?_
  split
  · rfl
  simp only [Traced.result_bind, Traced.result_lift, Traced.result_note, ok_bind,
    read_pattern_lengths_eq hlen, from_parts_result]

/-! ## Within the data, no operation fails -/

/-- The call returned an error, and did not panic. -/
def Returned (e : Stop) : Prop := ∃ err, e = .err err

theorem read_u32_ok_iff {off : Nat} {x : UInt32} :
    read_u32 data off = .ok x ↔ wordAt data off = some x := by
  unfold read_u32
  cases wordAt data off <;> simp

theorem read_u32_some (data : List UInt8) (off : Nat) (h : off + 4 ≤ data.length) : ∃ x, read_u32 data off = .ok x := by
  unfold read_u32 wordAt sliceAt
  rw [if_pos h]
  exact ⟨_, rfl⟩

theorem read_words_some (data : List UInt8) (pos n : Nat) (h : pos + 4 * n ≤ data.length) :
    ∃ ws, read_words data pos n = .ok ws ∧ ws.length = n := by
  induction n generalizing pos with
  | zero => exact ⟨[], rfl, rfl⟩
  | succ n ih =>
    obtain ⟨x, hx⟩ := read_u32_some data pos (by omega)
    obtain ⟨ws, hws, hlen⟩ := ih (pos + 4) (by omega)
    refine ⟨x :: ws, ?_, by rw [List.length_cons, hlen]⟩
    unfold read_words
    rw [hx, ok_bind, hws, ok_bind]

theorem read_accepts_some (data : List UInt8) (pos n : Nat) (h : pos + 8 * n ≤ data.length) :
    ∃ as, read_accepts data pos n = .ok as := by
  induction n generalizing pos with
  | zero => exact ⟨[], rfl⟩
  | succ n ih =>
    obtain ⟨state, hs⟩ := read_u32_some data pos (by omega)
    obtain ⟨pid, hp⟩ := read_u32_some data (pos + 4) (by omega)
    obtain ⟨as, has⟩ := ih (pos + 8) (by omega)
    refine ⟨(state, pid) :: as, ?_⟩
    unfold read_accepts
    rw [hs, ok_bind, hp, ok_bind, has, ok_bind]

theorem checked_safe {Within : Nat → Prop} {o : Option Nat} {reason : String} {P : Nat → Prop}
    (h : ∀ n, o = some n → P n) :
    Traced.Safe Within Returned (liftM (ok_or o reason)) P := by
  refine Traced.Safe.lift ?_ ?_
  · intro e he
    cases o with
    | some n => cases he
    | none =>
      cases he
      exact ⟨_, rfl⟩
  · intro n hn
    exact h n (ok_or_ok hn)

theorem checked_mul_le {a b n : Nat} (h : checked_mul w a b = some n) : n = a * b ∧ n ≤ w.max := by
  have hn := checked_mul_eq h
  refine ⟨hn, ?_⟩
  by_contra hgt
  unfold checked_mul at h
  rw [if_neg (by omega)] at h
  cases h

theorem checked_add_le {a b n : Nat} (h : checked_add w a b = some n) : n = a + b ∧ n ≤ w.max := by
  have hn := checked_add_eq h
  refine ⟨hn, ?_⟩
  by_contra hgt
  unfold checked_add at h
  rw [if_neg (by omega)] at h
  cases h

theorem total_safe {Within : Nat → Prop} {r : Res Unit}
    (h : r = .ok () ∨ ∃ e, r = .error (.err e)) :
    Traced.Safe Within Returned (liftM r) fun _ => True := by
  rcases h with rfl | ⟨e, rfl⟩
  · exact Traced.Safe.lift_ok rfl trivial
  · exact Traced.Safe.stop ⟨e, rfl⟩

/-- The flags of the states are no more than the transitions. -/
theorem from_parts_safe {sc cc k : Nat} {ts : List UInt32} {as : List (UInt32 × UInt32)}
    {ls : List UInt32} (hk : ts.length ≤ k) :
    Traced.Safe (· ≤ k) Returned (from_parts w sc cc ts as ls) fun _ => True := by
  unfold from_parts
  split
  · exact Traced.Safe.stop ⟨_, rfl⟩
  split
  · exact Traced.Safe.stop ⟨_, rfl⟩
  rename_i hcc
  cases hmul : checked_mul w sc cc with
  | none => exact Traced.Safe.stop ⟨_, rfl⟩
  | some expected_len =>
    simp only
    split
    · exact Traced.Safe.stop ⟨_, rfl⟩
    rename_i hlen
    have hle : sc ≤ sc * cc := Nat.le_mul_of_pos_right sc (Nat.pos_of_ne_zero hcc)
    have hmul_eq := checked_mul_eq hmul
    refine Traced.Safe.bind (total_safe (check_targets_total _ _)) fun _ _ => ?_
    refine Traced.Safe.bind (Traced.Safe.note (by omega)) fun _ _ => ?_
    refine Traced.Safe.bind (total_safe (check_accepts_total _ _ _ _ (by simp))) fun _ _ => ?_
    exact Traced.Safe.pure trivial

/-- The counts of the header, with which the end of the transitions is the last
multiple of 4 that a `usize` holds. -/
def Overflows (w : Width) (data : List UInt8) : Prop :=
  ∃ sc cc, wordAt data 0 = some sc ∧ wordAt data 4 = some cc ∧
    12 + 4 * (sc.toNat * cc.toNat) = w.size

/-- Where the header does not overflow, the reader returns, and reserves no more
than there is data for. -/
theorem from_bytes_safe (hlen : data.length < w.size / 2) (hfit : ¬ Overflows w data) :
    Traced.Safe (· ≤ data.length / 4) Returned (from_bytes w data) fun _ => True := by
  obtain ⟨h32, hmax, hfour⟩ := size_eq w
  unfold from_bytes
  by_cases hshort : data.length < 8
  · rw [if_pos hshort]
    exact Traced.Safe.stop ⟨_, rfl⟩
  rw [if_neg hshort]
  obtain ⟨sc, hsc⟩ := read_u32_some data 0 (by omega)
  obtain ⟨cc, hcc⟩ := read_u32_some data 4 (by omega)
  refine Traced.Safe.bind_ok hsc ?_
  refine Traced.Safe.bind_ok hcc ?_
  -- the transitions
  refine Traced.Safe.bind (checked_safe fun _ => checked_mul_le) ?_
  rintro trans_len ⟨hn, _⟩
  refine Traced.Safe.bind (checked_safe fun _ => checked_mul_le) ?_
  rintro trans_bytes ⟨hbytes, _⟩
  refine Traced.Safe.bind (checked_safe fun _ => checked_add_le) ?_
  rintro trans_end ⟨hend, hend_le⟩
  have hroom : trans_end + 4 ≤ w.max := by
    by_contra hgt
    refine hfit ⟨sc, cc, ?_, ?_, ?_⟩
    · exact read_u32_ok_iff.mp hsc
    · exact read_u32_ok_iff.mp hcc
    · omega
  refine Traced.Safe.bind_ok (add_ok hroom) ?_
  split
  · exact Traced.Safe.stop ⟨_, rfl⟩
  refine Traced.Safe.bind (Traced.Safe.note (by omega)) fun _ _ => ?_
  obtain ⟨ts, hts, htslen⟩ := read_words_some data 8 trans_len (by omega)
  refine Traced.Safe.bind_ok ((read_transitions_eq hlen 0 trans_len).trans hts) ?_
  -- the accept entries
  obtain ⟨ac, hac⟩ := read_u32_some data trans_end (by omega)
  refine Traced.Safe.bind_ok ((slice_u32_eq hlen trans_end).trans hac) ?_
  refine Traced.Safe.bind (checked_safe fun _ => checked_mul_le) ?_
  rintro accept_bytes ⟨habytes, _⟩
  refine Traced.Safe.bind_ok (add_ok hroom) ?_
  refine Traced.Safe.bind (checked_safe fun _ => checked_add_le) ?_
  rintro accept_end ⟨haend, _⟩
  split
  · exact Traced.Safe.stop ⟨_, rfl⟩
  refine Traced.Safe.bind (Traced.Safe.note (by omega)) fun _ _ => ?_
  obtain ⟨as, has⟩ := read_accepts_some data (trans_end + 4) ac.toNat (by omega)
  have hread := read_accept_states_eq hlen (trans_end + 4) ac.toNat
  rw [has, ok_bind] at hread
  refine Traced.Safe.bind_ok hread ?_
  simp only
  -- the pattern lengths
  have hpos : trans_end + 4 + 8 * ac.toNat + 4 ≤ w.max := by omega
  refine Traced.Safe.bind_ok (add_ok hpos) ?_
  split
  · exact Traced.Safe.stop ⟨_, rfl⟩
  obtain ⟨pc, hpc⟩ := read_u32_some data (trans_end + 4 + 8 * ac.toNat) (by omega)
  refine Traced.Safe.bind_ok ((slice_u32_eq hlen _).trans hpc) ?_
  refine Traced.Safe.bind (checked_safe fun _ => checked_mul_le) ?_
  rintro pat_bytes ⟨hpbytes, _⟩
  refine Traced.Safe.bind_ok (add_ok hpos) ?_
  refine Traced.Safe.bind (checked_safe fun _ => checked_add_le) ?_
  rintro pat_end ⟨hpend, _⟩
  split
  · exact Traced.Safe.stop ⟨_, rfl⟩
  refine Traced.Safe.bind (Traced.Safe.note (by omega)) fun _ _ => ?_
  obtain ⟨ls, hls, _⟩ := read_words_some data (trans_end + 4 + 8 * ac.toNat + 4) pc.toNat
    (by omega)
  refine Traced.Safe.bind_ok ((read_pattern_lengths_eq hlen _ _).trans hls) ?_
  exact from_parts_safe (by omega)

/-! ## The header that overflows -/

/-- The largest prime factor of `2 ^ 62 - 3`. -/
theorem prime_factor : Nat.Prime 12586817029 := by
  apply lucas_primality _ 7
  · reduce_mod_char
  · intro q hq hd
    have hfac : (12586817029 - 1 : ℕ) = 2 ^ 2 * (3 * (37 * (107 * (307 * 863)))) := by norm_num
    rw [hfac] at hd
    have hcases : q = 2 ∨ q = 3 ∨ q = 37 ∨ q = 107 ∨ q = 307 ∨ q = 863 := by
      rcases hq.dvd_mul.mp hd with hd | hd
      · exact Or.inl ((Nat.prime_dvd_prime_iff_eq hq Nat.prime_two).mp (hq.dvd_of_dvd_pow hd))
      rcases hq.dvd_mul.mp hd with hd | hd
      · exact Or.inr (Or.inl ((Nat.prime_dvd_prime_iff_eq hq (by norm_num)).mp hd))
      rcases hq.dvd_mul.mp hd with hd | hd
      · have := (Nat.prime_dvd_prime_iff_eq hq (by norm_num)).mp hd
        omega
      rcases hq.dvd_mul.mp hd with hd | hd
      · have := (Nat.prime_dvd_prime_iff_eq hq (by norm_num)).mp hd
        omega
      rcases hq.dvd_mul.mp hd with hd | hd
      · have := (Nat.prime_dvd_prime_iff_eq hq (by norm_num)).mp hd
        omega
      · have := (Nat.prime_dvd_prime_iff_eq hq (by norm_num)).mp hd
        omega
    rcases hcases with rfl | rfl | rfl | rfl | rfl | rfl <;> norm_num <;> reduce_mod_char <;> decide

/-- Two 32-bit counts never multiply to it, since its largest prime factor has
more bits. -/
theorem no_counts_of_64_bits (sc cc : UInt32) : sc.toNat * cc.toNat ≠ 2 ^ 62 - 3 := by
  intro he
  have hs := sc.toNat_lt
  have hc := cc.toNat_lt
  have hdvd : 12586817029 ∣ sc.toNat * cc.toNat := ⟨366390169, he.trans (by norm_num)⟩
  rcases prime_factor.dvd_mul.mp hdvd with ⟨k, hk⟩ | ⟨k, hk⟩
  · have hzero : sc.toNat = 0 := by omega
    rw [hzero] at he
    omega
  · have hzero : cc.toNat = 0 := by omega
    rw [hzero] at he
    omega

/-- Only a `usize` of 32 bits overflows, and only with these counts. -/
theorem overflows_iff : Overflows w data ↔ w = .w32 ∧ ∃ sc cc, wordAt data 0 = some sc ∧
    wordAt data 4 = some cc ∧ sc.toNat * cc.toNat = 2 ^ 30 - 3 := by
  unfold Overflows
  cases w with
  | w32 =>
    constructor
    · rintro ⟨sc, cc, h0, h4, hsize⟩
      have h32 : Width.w32.size = 2 ^ 32 := rfl
      exact ⟨rfl, sc, cc, h0, h4, by omega⟩
    · rintro ⟨_, sc, cc, h0, h4, hmul⟩
      have h32 : Width.w32.size = 2 ^ 32 := rfl
      exact ⟨sc, cc, h0, h4, by omega⟩
  | w64 =>
    refine iff_of_false ?_ fun h => (by cases h.1)
    rintro ⟨sc, cc, _, _, hsize⟩
    have h64 : Width.w64.size = 2 ^ 64 := rfl
    exact no_counts_of_64_bits sc cc (by omega)

theorem from_bytes_panics (hlen : data.length < w.size / 2) (h : Overflows w data) :
    (from_bytes w data).result = .error .panic := by
  obtain ⟨h32, hmax, _⟩ := size_eq w
  obtain ⟨sc, cc, h0, h4, hsize⟩ := h
  have r0 := read_u32_ok_iff.mpr h0
  have r4 := read_u32_ok_iff.mpr h4
  have hlt := read_u32_lt r4
  have hend : 8 + sc.toNat * cc.toNat * 4 ≤ w.max := by omega
  have hadd : add w (8 + sc.toNat * cc.toNat * 4) 4 = .error .panic := if_neg (by omega)
  rw [from_bytes_result hlen]
  unfold TransitionTable.from_bytes
  rw [if_neg (by omega), r0, ok_bind]
  simp only [r4, ok_bind]
  rw [checked_mul_some (by omega), ok_or_some, ok_bind, checked_mul_some (by omega), ok_or_some,
    ok_bind, checked_add_some hend, ok_or_some, ok_bind, hadd, error_bind]

/-! ## The law -/

/-- The reader returns a table or an error, and reserves no vector for more
elements than a quarter of the bytes. No unchecked operation overflows and no
slice is out of range, since each of these is a panic. -/
structure ReadsSafely (w : Width) (data : List UInt8) : Prop where
  returns : (∃ t, (from_bytes w data).result = .ok t) ∨
    ∃ e, (from_bytes w data).result = .error (.err e)
  reserves : ∀ n ∈ (from_bytes w data).log, n ≤ data.length / 4

theorem reads_safely (hlen : data.length < w.size / 2) (hfit : ¬ Overflows w data) :
    ReadsSafely w data := by
  obtain ⟨hlog, hstop, _⟩ := from_bytes_safe hlen hfit
  refine ⟨?_, hlog⟩
  cases h : (from_bytes w data).result with
  | ok t => exact Or.inl ⟨t, rfl⟩
  | error e =>
    obtain ⟨err, rfl⟩ := hstop e h
    exact Or.inr ⟨err, rfl⟩

theorem not_reads_safely (hlen : data.length < w.size / 2) (h : Overflows w data) :
    ¬ ReadsSafely w data := by
  rintro ⟨⟨t, ht⟩ | ⟨e, he⟩, _⟩
  · rw [from_bytes_panics hlen h] at ht
    cases ht
  · rw [from_bytes_panics hlen h] at he
    cases he

/-- The reader is safe on every slice of bytes, but for a `usize` of 32 bits and a
header whose counts multiply to `2 ^ 30 - 3`. -/
theorem from_bytes_reads_safely_unless_the_header_overflows (w : Width) (data : List UInt8)
    (hlen : data.length < w.size / 2) :
    ReadsSafely w data ↔ ¬ (w = .w32 ∧ ∃ sc cc, wordAt data 0 = some sc ∧
      wordAt data 4 = some cc ∧ sc.toNat * cc.toNat = 2 ^ 30 - 3) := by
  rw [← overflows_iff]
  constructor
  · intro h hover
    exact not_reads_safely hlen hover h
  · exact reads_safely hlen

/-- One state and `2 ^ 30 - 4` classes, one fewer than overflow, and nothing after the
header. -/
def almostLongRow : List UInt8 := [1, 0, 0, 0, 0xFC, 0xFF, 0xFF, 0x3F]

/-- With a `usize` of 32 bits the reader is safe on it. -/
theorem from_bytes_reads_the_header_of_an_almost_long_row :
    ReadsSafely .w32 almostLongRow := by
  refine (from_bytes_reads_safely_unless_the_header_overflows .w32 almostLongRow (by decide)).mpr ?_
  rintro ⟨_, sc, cc, h0, h4, hmul⟩
  have hsc : wordAt almostLongRow 0 = some 1 := by decide
  have hcc : wordAt almostLongRow 4 = some 0x3FFF_FFFC := by decide
  rw [← Option.some.inj (hsc.symm.trans h0), ← Option.some.inj (hcc.symm.trans h4)] at hmul
  exact absurd hmul (by decide)

/-- One state and `2 ^ 30 - 3` classes. -/
def oneLongRow : List UInt8 := [1, 0, 0, 0, 0xFD, 0xFF, 0xFF, 0x3F]

/-- With a `usize` of 32 bits the reader panics on it. -/
theorem from_bytes_panics_on_one_long_row :
    ¬ ∀ (w : Width) (data : List UInt8), data.length < w.size / 2 → ReadsSafely w data := by
  intro h
  refine not_reads_safely (by decide) ?_ (h .w32 oneLongRow (by decide))
  exact overflows_iff.mpr ⟨rfl, 1, 0x3FFF_FFFD, by decide, by decide, by decide⟩

/-! ## Truncated data -/

/-- Where the header does not overflow, the reader returns a table or an error. -/
theorem from_bytes_returns (hlen : data.length < w.size / 2) (hfit : ¬ Overflows w data) :
    (∃ t, TransitionTable.from_bytes w data = .ok t) ∨
      ∃ e, TransitionTable.from_bytes w data = .error (.err e) := by
  rw [← from_bytes_result hlen]
  exact (reads_safely hlen hfit).returns

/-- The header of a table whose bytes fit in memory does not overflow, nor does
what is left of it where the bytes are cut. -/
theorem cut_does_not_overflow {t : TransitionTable} {p : List UInt8} (hw : t.Written)
    (hp : p <+: t.to_bytes) (hfit : t.to_bytes.length < w.size / 2) : ¬ Overflows w p := by
  obtain ⟨h32, _, _⟩ := size_eq w
  rintro ⟨sc, cc, h0, h4, hsize⟩
  obtain ⟨rest, hrest⟩ := hp
  have hlt := read_u32_lt (read_u32_ok_iff.mpr h4)
  have hstates := t.states_le
  unfold MAX_STATES at hstates
  have hs : t.state_count < 2 ^ 32 := by omega
  have hdata : t.to_bytes = le32 (UInt32.ofNat t.state_count) ++
      (le32 (UInt32.ofNat t.class_count) ++ (encodeWords t.transitions ++
        (le32 (UInt32.ofNat t.accept_states.length) ++ (encodeWords (pairWords t.accept_states) ++
          (le32 (UInt32.ofNat t.pattern_lengths.length) ++ encodeWords t.pattern_lengths))))) := by
    simp [to_bytes]
  have hsc := wordAt_append_left p rest 0 (by omega)
  have hcc := wordAt_append_left p rest 4 (by omega)
  rw [hrest, h0, hdata, wordAt_le32] at hsc
  rw [hrest, h4, hdata, show 4 = (le32 (UInt32.ofNat t.state_count)).length + 0 by simp,
    wordAt_append_right, wordAt_le32] at hcc
  rw [← Option.some.inj hsc, ← Option.some.inj hcc, u32_toNat hs,
    u32_toNat hw.classes, ← hw.len] at hsize
  have hbytes := to_bytes_length t
  omega

/-- The bytes of a table, cut anywhere before their end, are refused. -/
theorem every_proper_prefix_of_a_table_is_refused (w : Width) (n c : Nat) (ts : List UInt32)
    (as : List (UInt32 × UInt32)) (ls : List UInt32) (t : TransitionTable)
    (h : TransitionTable.from_parts w n c ts as ls = .ok t) (hc : c < 2 ^ 32) (ha : as.length < 2 ^ 32)
    (hl : ls.length < 2 ^ 32) (hfit : t.to_bytes.length < w.size / 2)
    (p : List UInt8) (hp : p <+: t.to_bytes) (hcut : p ≠ t.to_bytes) :
    ∃ e, TransitionTable.from_bytes w p = .error (.err e) := by
  obtain ⟨h1, h2, h3, h4, h5, hv⟩ := from_parts_ok h
  have hw : t.Written := ⟨hv.len, by rw [h2]; exact hc, by rw [h4]; exact ha, by rw [h5]; exact hl⟩
  obtain ⟨h32, hmax, _⟩ := size_eq w
  have hle := hp.length_le
  rcases from_bytes_returns (by omega) (cut_does_not_overflow hw hp hfit) with ⟨t', ht'⟩ | he
  · -- what was read would be the front of the table's bytes, and so the table
    obtain ⟨hp', hw', hv'⟩ := from_bytes_ok ht'
    obtain ⟨rest, hrest⟩ := hp'.trans hp
    have hread' := from_bytes_of_written w t' rest hw' (by rw [hrest]; omega)
    have hread := from_bytes_of_written w t [] hw (by rw [List.append_nil]; omega)
    have hlen' := to_bytes_length t'
    have hle' := hp'.length_le
    have hlen := to_bytes_length t
    rw [hrest, from_parts_of_valid w t' hv' (by omega)] at hread'
    rw [List.append_nil, from_parts_of_valid w t hv (by omega), hread'] at hread
    rw [Except.ok.inj hread] at hp'
    exact absurd (hp.eq_of_length (by have := hp'.length_le; omega)) hcut
  · exact he

/-- Two states and two classes, cut within the second of their two lengths. -/
theorem every_proper_prefix_of_two_states_is_refused :
    ∃ t, TransitionTable.from_parts .w64 2 2 [0x8000_0001, 0, 1, 0x8000_0000] [(1, 1), (0, 0)]
        [3, 7] = .ok t ∧ t.to_bytes.length = 56 ∧
      ∃ e, TransitionTable.from_bytes .w64 (t.to_bytes.take 54) = .error (.err e) :=
  ⟨_, rfl, by decide, every_proper_prefix_of_a_table_is_refused .w64 2 2
    [0x8000_0001, 0, 1, 0x8000_0000] [(1, 1), (0, 0)] [3, 7] _ rfl (by decide) (by decide)
    (by decide) (by decide) _ (List.take_prefix _ _) (by decide)⟩

end

end dfajit.hostile
