-- The bytes of a table (`to_bytes` and `from_bytes` of table.rs): what the
-- reader takes is what the writer gives, and what the reader cannot tell.
import Dfajit.Lib.Words
import Dfajit.Table

namespace dfajit.table

open error words

namespace TransitionTable

/-! ## The writer -/

/-- The accept entries as the words that the writer puts out. -/
def pairWords (as : List (UInt32 × UInt32)) : List UInt32 := as.flatMap fun a => [a.1, a.2]

/-- `to_bytes`. A count goes out through `as u32`, so only its low 32 bits do. -/
def to_bytes (t : TransitionTable) : List UInt8 :=
  le32 (UInt32.ofNat t.state_count) ++ le32 (UInt32.ofNat t.class_count) ++
    encodeWords t.transitions ++
    le32 (UInt32.ofNat t.accept_states.length) ++ encodeWords (pairWords t.accept_states) ++
    le32 (UInt32.ofNat t.pattern_lengths.length) ++ encodeWords t.pattern_lengths

/-! ## The reader -/

/-- `u32::from_le_bytes(data[off..off + 4])`, which panics past the end. -/
def read_u32 (data : List UInt8) (off : Nat) : Res UInt32 :=
  match wordAt data off with
  | some x => .ok x
  | none => .error .panic

/-- The loop that reads `n` words from `pos` on. -/
def read_words (data : List UInt8) : Nat → Nat → Res (List UInt32)
  | _, 0 => .ok []
  | pos, n + 1 => do
    let x ← read_u32 data pos
    let xs ← read_words data (pos + 4) n
    .ok (x :: xs)

/-- The loop that reads `n` accept entries from `pos` on. -/
def read_accepts (data : List UInt8) : Nat → Nat → Res (List (UInt32 × UInt32))
  | _, 0 => .ok []
  | pos, n + 1 => do
    let state ← read_u32 data pos
    let pid ← read_u32 data (pos + 4)
    let rest ← read_accepts data (pos + 8) n
    .ok ((state, pid) :: rest)

def ok_or (o : Option Nat) (reason : String) : Res Nat :=
  match o with
  | some n => .ok n
  | none => invalid reason

/-- An addition that the source leaves unchecked. It panics on overflow, as in
a debug build. -/
def add (w : Width) (a b : Nat) : Res Nat :=
  if a + b ≤ w.max then .ok (a + b) else .error .panic

def from_bytes (w : Width) (data : List UInt8) : Res TransitionTable := do
  if data.length < 8 then
    invalid "data too short for header"
  else
    let state_count := (← read_u32 data 0).toNat
    let class_count := (← read_u32 data 4).toNat
    let trans_len ← ok_or (checked_mul w state_count class_count)
      "state_count * class_count overflow"
    let trans_bytes ← ok_or (checked_mul w trans_len 4) "transition table byte length overflow"
    let trans_end ← ok_or (checked_add w 8 trans_bytes) "transition table end offset overflow"
    if data.length < (← add w trans_end 4) then
      invalid "truncated transition table"
    else
      let transitions ← read_words data 8 trans_len
      let accept_count := (← read_u32 data trans_end).toNat
      let accept_bytes ← ok_or (checked_mul w accept_count 8) "accept states byte length overflow"
      let pos ← add w trans_end 4
      let accept_end ← ok_or (checked_add w pos accept_bytes) "accept states end offset overflow"
      if data.length < accept_end then
        invalid "truncated accept states"
      else
        let accept_states ← read_accepts data pos accept_count
        let pos := pos + 8 * accept_count
        if (← add w pos 4) > data.length then
          invalid "truncated pattern lengths header"
        else
          let pat_count := (← read_u32 data pos).toNat
          let pat_bytes ← ok_or (checked_mul w pat_count 4) "pattern lengths byte length overflow"
          let pos := pos + 4
          let pat_end ← ok_or (checked_add w pos pat_bytes) "pattern lengths end offset overflow"
          if data.length < pat_end then
            invalid "truncated pattern lengths"
          else
            let pattern_lengths ← read_words data pos pat_count
            from_parts w state_count class_count transitions accept_states pattern_lengths

/-! ## The loops read what the writer laid out -/

@[simp] theorem pairWords_length (as : List (UInt32 × UInt32)) :
    (pairWords as).length = 2 * as.length := by
  induction as with
  | nil => rfl
  | cons a as ih => simp only [pairWords, List.flatMap_cons] at *; simp [ih]; omega

theorem read_u32_of_drop {data post : List UInt8} {off : Nat} {x : UInt32}
    (h : data.drop off = le32 x ++ post) :
    read_u32 data off = .ok x ∧ data.drop (off + 4) = post := by
  refine ⟨?_, drop_of_drop_append h⟩
  unfold read_u32
  rw [wordAt_of_drop h]

theorem read_words_of_drop {data post : List UInt8} {pos : Nat} {ws : List UInt32}
    (h : data.drop pos = encodeWords ws ++ post) :
    read_words data pos ws.length = .ok ws ∧ data.drop (pos + 4 * ws.length) = post := by
  refine ⟨?_, by rw [← encodeWords_length]; exact drop_of_drop_append h⟩
  induction ws generalizing pos with
  | nil => rfl
  | cons w ws ih =>
    rw [encodeWords_cons, List.append_assoc] at h
    obtain ⟨h1, h2⟩ := read_u32_of_drop h
    simp only [List.length_cons, read_words, h1, ok_bind, ih h2]

theorem read_accepts_of_drop {data post : List UInt8} {pos : Nat} {as : List (UInt32 × UInt32)}
    (h : data.drop pos = encodeWords (pairWords as) ++ post) :
    read_accepts data pos as.length = .ok as ∧ data.drop (pos + 8 * as.length) = post := by
  constructor
  · induction as generalizing pos with
    | nil => rfl
    | cons a as ih =>
      simp only [pairWords, List.flatMap_cons, List.cons_append, List.nil_append,
        encodeWords_cons, List.append_assoc] at h
      obtain ⟨h1, h2⟩ := read_u32_of_drop h
      obtain ⟨h3, h4⟩ := read_u32_of_drop h2
      simp only [List.length_cons, read_accepts, h1, h3, ok_bind, ih h4]
  · have hlen : 8 * as.length = (encodeWords (pairWords as)).length := by simp; omega
    rw [hlen]
    exact drop_of_drop_append h

theorem drop_of_read_u32 {data : List UInt8} {off : Nat} {x : UInt32}
    (h : read_u32 data off = .ok x) : data.drop off = le32 x ++ data.drop (off + 4) := by
  unfold read_u32 at h
  split at h
  · rename_i y hy
    cases h
    exact drop_of_wordAt hy
  · cases h

theorem drop_of_read_words {data : List UInt8} {pos n : Nat} {ws : List UInt32}
    (h : read_words data pos n = .ok ws) :
    ws.length = n ∧ data.drop pos = encodeWords ws ++ data.drop (pos + 4 * n) := by
  induction n generalizing pos ws with
  | zero => cases h; simp
  | succ n ih =>
    obtain ⟨x, hx, h⟩ := bind_ok.mp h
    obtain ⟨xs, hxs, h⟩ := bind_ok.mp h
    cases h
    obtain ⟨h1, h2⟩ := ih hxs
    refine ⟨by simp [h1], ?_⟩
    rw [drop_of_read_u32 hx, h2, encodeWords_cons, List.append_assoc,
      show pos + 4 * (n + 1) = pos + 4 + 4 * n by omega]

theorem drop_of_read_accepts {data : List UInt8} {pos n : Nat} {as : List (UInt32 × UInt32)}
    (h : read_accepts data pos n = .ok as) :
    as.length = n ∧ data.drop pos = encodeWords (pairWords as) ++ data.drop (pos + 8 * n) := by
  induction n generalizing pos as with
  | zero => cases h; simp [pairWords]
  | succ n ih =>
    obtain ⟨state, hs, h⟩ := bind_ok.mp h
    obtain ⟨pid, hp, h⟩ := bind_ok.mp h
    obtain ⟨rest, hr, h⟩ := bind_ok.mp h
    cases h
    obtain ⟨h1, h2⟩ := ih hr
    refine ⟨by simp [h1], ?_⟩
    rw [drop_of_read_u32 hs, drop_of_read_u32 hp, h2,
      show pos + 8 * (n + 1) = pos + 8 + 8 * n by omega]
    simp [pairWords]

/-! ## The reader against the writer -/

/-- The counts that go out as 32-bit words lose nothing, and the vector of
transitions has the length that the reader takes it to have. -/
structure Written (t : TransitionTable) : Prop where
  len : t.transitions.length = t.state_count * t.class_count
  classes : t.class_count < 2 ^ 32
  accepts : t.accept_states.length < 2 ^ 32
  lengths : t.pattern_lengths.length < 2 ^ 32

theorem to_bytes_length (t : TransitionTable) :
    t.to_bytes.length = 16 + 4 * t.transitions.length + 8 * t.accept_states.length +
      4 * t.pattern_lengths.length := by
  simp [to_bytes]; omega

theorem ok_or_ok {o : Option Nat} {reason : String} {n : Nat} (h : ok_or o reason = .ok n) :
    o = some n := by
  cases o with
  | none => cases h
  | some m => cases h; rfl

theorem ok_or_some (n : Nat) (reason : String) : ok_or (some n) reason = .ok n := rfl

theorem add_eq {w : Width} {a b n : Nat} (h : add w a b = .ok n) : n = a + b := by
  unfold add at h
  split at h
  · cases h; rfl
  · cases h

theorem add_ok {w : Width} {a b : Nat} (h : a + b ≤ w.max) : add w a b = .ok (a + b) := if_pos h

/-- On the bytes of a written table, and whatever comes after them, the reader
gets through to `from_parts` with the parts of that table. -/
theorem from_bytes_of_written (w : Width) (t : TransitionTable) (rest : List UInt8)
    (h : t.Written) (hfit : (t.to_bytes ++ rest).length ≤ w.max) :
    from_bytes w (t.to_bytes ++ rest) =
      from_parts w t.state_count t.class_count t.transitions t.accept_states
        t.pattern_lengths := by
  obtain ⟨hlen, hc, ha, hp⟩ := h
  have hs : t.state_count < 2 ^ 32 := by
    have := t.states_le
    unfold MAX_STATES at this
    omega
  have hbytes := to_bytes_length t
  have hdata : (t.to_bytes ++ rest).drop 0 = le32 (UInt32.ofNat t.state_count) ++
      (le32 (UInt32.ofNat t.class_count) ++ (encodeWords t.transitions ++
      (le32 (UInt32.ofNat t.accept_states.length) ++ (encodeWords (pairWords t.accept_states) ++
      (le32 (UInt32.ofNat t.pattern_lengths.length) ++
      (encodeWords t.pattern_lengths ++ rest)))))) := by
    simp [to_bytes]
  have hlength : (t.to_bytes ++ rest).length = t.to_bytes.length + rest.length :=
    List.length_append
  generalize t.to_bytes ++ rest = data at *
  -- The seven reads, each where the one before it ended.
  obtain ⟨r1, d1⟩ := read_u32_of_drop hdata
  obtain ⟨r2, d2⟩ := read_u32_of_drop d1
  obtain ⟨r3, d3⟩ := read_words_of_drop d2
  obtain ⟨r4, d4⟩ := read_u32_of_drop d3
  obtain ⟨r5, d5⟩ := read_accepts_of_drop d4
  obtain ⟨r6, d6⟩ := read_u32_of_drop d5
  obtain ⟨r7, _⟩ := read_words_of_drop d6
  simp only [Nat.zero_add, Nat.reduceAdd] at r2 r3 r4 r5 r6 r7
  have hmul : checked_mul w t.state_count t.class_count = some t.transitions.length := by
    rw [hlen]
    exact checked_mul_some (by omega)
  unfold from_bytes
  rw [if_neg (by omega), r1, ok_bind]
  simp only [r2, ok_bind, u32_toNat hs, u32_toNat hc]
  rw [hmul, ok_or_some, ok_bind, checked_mul_some (by omega), ok_or_some, ok_bind,
    checked_add_some (by omega), ok_or_some, ok_bind, add_ok (by omega), ok_bind,
    if_neg (by omega), r3, ok_bind, Nat.mul_comm t.transitions.length 4]
  simp only [r4, ok_bind, u32_toNat ha]
  rw [checked_mul_some (by omega), ok_or_some, ok_bind, checked_add_some (by omega), ok_or_some,
    ok_bind, if_neg (by omega), r5, ok_bind, add_ok (by omega), ok_bind, if_neg (by omega)]
  simp only [r6, ok_bind, u32_toNat hp]
  rw [checked_mul_some (by omega), ok_or_some, ok_bind, checked_add_some (by omega), ok_or_some,
    ok_bind, if_neg (by omega), r7, ok_bind]

/-- What the reader accepts begins with the bytes of the table that it gives,
and that table is valid. -/
theorem from_bytes_ok {w : Width} {data : List UInt8} {t : TransitionTable}
    (h : from_bytes w data = .ok t) : t.to_bytes <+: data ∧ t.Written ∧ t.Valid := by
  unfold from_bytes at h
  split at h
  · cases h
  obtain ⟨sc, r1, h⟩ := bind_ok.mp h
  obtain ⟨cc, r2, h⟩ := bind_ok.mp h
  obtain ⟨n, hn, h⟩ := bind_ok.mp h
  obtain ⟨trans_bytes, htb, h⟩ := bind_ok.mp h
  obtain ⟨trans_end, hte, h⟩ := bind_ok.mp h
  obtain ⟨_, _, h⟩ := bind_ok.mp h
  split at h
  · cases h
  obtain ⟨ts, r3, h⟩ := bind_ok.mp h
  obtain ⟨ac, r4, h⟩ := bind_ok.mp h
  obtain ⟨_, _, h⟩ := bind_ok.mp h
  obtain ⟨pos, hpos, h⟩ := bind_ok.mp h
  obtain ⟨_, _, h⟩ := bind_ok.mp h
  split at h
  · cases h
  obtain ⟨as, r5, h⟩ := bind_ok.mp h
  obtain ⟨_, _, h⟩ := bind_ok.mp h
  split at h
  · cases h
  obtain ⟨pc, r6, h⟩ := bind_ok.mp h
  obtain ⟨_, _, h⟩ := bind_ok.mp h
  obtain ⟨_, _, h⟩ := bind_ok.mp h
  split at h
  · cases h
  obtain ⟨ls, r7, h⟩ := bind_ok.mp h
  obtain ⟨e1, e2, e3, e4, e5, hv⟩ := from_parts_ok h
  have hn' := checked_mul_eq (ok_or_ok hn)
  have hend : trans_end = 8 + 4 * n := by
    have h1 := checked_mul_eq (ok_or_ok htb)
    have h2 := checked_add_eq (ok_or_ok hte)
    omega
  have hpos' := add_eq hpos
  subst hend hpos'
  obtain ⟨l3, d3⟩ := drop_of_read_words r3
  obtain ⟨l5, d5⟩ := drop_of_read_accepts r5
  obtain ⟨l7, d7⟩ := drop_of_read_words r7
  have hdata : data = t.to_bytes ++ data.drop (8 + 4 * n + 4 + 8 * ac.toNat + 4 + 4 * pc.toNat) := by
    have d1 := drop_of_read_u32 r1
    rw [List.drop_zero, drop_of_read_u32 r2, d3, drop_of_read_u32 r4, d5, drop_of_read_u32 r6,
      d7] at d1
    conv => lhs; rw [d1]
    simp [to_bytes, e1, e2, e3, e4, e5, l5, l7]
  refine ⟨⟨_, hdata.symm⟩, ⟨hv.len, ?_, ?_, ?_⟩, hv⟩
  · rw [e2]; exact cc.toNat_lt
  · rw [e4, l5]; exact ac.toNat_lt
  · rw [e5, l7]; exact pc.toNat_lt

/-! ## The laws -/

/-- A table that `from_parts` made reads back from its bytes, part for part. The
counts must fit the 32-bit words that carry them, and the bytes must fit in
memory. -/
theorem a_table_reads_back_from_its_bytes (w : Width) (n c : Nat) (ts : List UInt32)
    (as : List (UInt32 × UInt32)) (ls : List UInt32) (t : TransitionTable)
    (h : from_parts w n c ts as ls = .ok t) (hc : c < 2 ^ 32) (ha : as.length < 2 ^ 32)
    (hl : ls.length < 2 ^ 32) (hfit : t.to_bytes.length ≤ w.max) :
    ∃ t', from_bytes w t.to_bytes = .ok t' ∧ t'.state_count = n ∧ t'.class_count = c ∧
      t'.transitions = ts ∧ t'.accept_states = as ∧ t'.pattern_lengths = ls := by
  obtain ⟨h1, h2, h3, h4, h5, hv⟩ := from_parts_ok h
  have hw : t.Written := ⟨hv.len, by rw [h2]; exact hc, by rw [h4]; exact ha, by rw [h5]; exact hl⟩
  refine ⟨t, ?_, h1, h2, h3, h4, h5⟩
  have hread := from_bytes_of_written w t [] hw (by simpa using hfit)
  rw [List.append_nil] at hread
  rw [hread, h1, h2, h3, h4, h5, h]

/-- Two states and two classes, with two flags, two accept entries and two lengths. -/
theorem a_table_with_flags_reads_back_from_its_bytes :
    ∃ t, from_parts .w64 2 2 [0x8000_0001, 0, 1, 0x8000_0000] [(1, 1), (0, 0)] [3, 7] = .ok t ∧
      ∃ t', from_bytes .w64 t.to_bytes = .ok t' ∧ t'.state_count = 2 ∧ t'.class_count = 2 ∧
        t'.transitions = [0x8000_0001, 0, 1, 0x8000_0000] ∧
        t'.accept_states = [(1, 1), (0, 0)] ∧ t'.pattern_lengths = [3, 7] :=
  ⟨_, rfl, a_table_reads_back_from_its_bytes .w64 2 2 [0x8000_0001, 0, 1, 0x8000_0000]
    [(1, 1), (0, 0)] [3, 7] _ rfl (by decide) (by decide) (by decide) (by decide)⟩

/-- Reading the bytes of the table gives an error, or the same table. -/
def ReadsBack (w : Width) (t : TransitionTable) : Prop :=
  (∃ e, from_bytes w t.to_bytes = .error (.err e)) ∨ from_bytes w t.to_bytes = .ok t

/-- A written table never reads back as a different one. -/
theorem a_written_table_never_reads_back_as_another (w : Width) (t : TransitionTable)
    (h : t.Written) (hfit : t.to_bytes.length ≤ w.max) : ReadsBack w t := by
  have hread := from_bytes_of_written w t [] h (by simpa using hfit)
  rw [List.append_nil] at hread
  unfold ReadsBack
  rw [hread]
  rcases from_parts_total w t.state_count t.class_count t.transitions t.accept_states
    t.pattern_lengths with ⟨t', ht⟩ | he
  · obtain ⟨h1, h2, h3, h4, h5, _⟩ := from_parts_ok ht
    have heq : t' = t := by
      cases t; cases t'
      simp_all
    exact Or.inr (by rw [ht, heq])
  · exact Or.inl he

theorem an_invalid_table_never_reads_back_as_another :
    ∃ t, TransitionTable.new .w64 1 1 = .ok t ∧ ReadsBack .w64 (t.add_accept 5 0) :=
  ⟨_, rfl, a_written_table_never_reads_back_as_another .w64 _
    ⟨by decide, by decide, by decide, by decide⟩ (by decide)⟩

/-- A table whose bytes begin with the bytes of another, valid table reads back
as that other table. -/
theorem not_readsBack_of_prefix {w : Width} {t u : TransitionTable} (hw : u.Written) (hv : u.Valid)
    (hp : u.to_bytes <+: t.to_bytes) (hne : u ≠ t) (hfit : t.to_bytes.length ≤ w.max) :
    ¬ ReadsBack w t := by
  obtain ⟨rest, hrest⟩ := hp
  have hread := from_bytes_of_written w u rest hw (by rw [hrest]; exact hfit)
  rw [hrest, from_parts_of_valid w u hv] at hread
  · rintro (⟨e, he⟩ | ht)
    · rw [hread] at he
      cases he
    · rw [hread] at ht
      cases ht
      exact hne rfl
  · have h1 := to_bytes_length u
    have h2 := congrArg List.length hrest
    rw [List.length_append] at h2
    omega

/-- Where the count of the accept entries is cut to 0, the first entry is read as the
count of the lengths. -/
theorem prefix_of_cut_accepts (u : TransitionTable) (as : List (UInt32 × UInt32)) (p : UInt32)
    (h1 : u.accept_states = []) (h2 : u.pattern_lengths = [])
    (hcut : UInt32.ofNat (as.length + 1) = 0) :
    u.to_bytes <+: (u.accept_states_mut fun _ => (0, p) :: as).to_bytes := by
  refine ⟨le32 p ++ encodeWords (pairWords as) ++ le32 0, ?_⟩
  simp [to_bytes, accept_states_mut, h1, h2, hcut, pairWords]

theorem prefix_of_cut_lengths (u : TransitionTable) (ls : List UInt32)
    (h : u.pattern_lengths = []) (hcut : UInt32.ofNat ls.length = 0) :
    u.to_bytes <+: (u.pattern_lengths_mut fun _ => ls).to_bytes := by
  refine ⟨encodeWords ls, ?_⟩
  simp [to_bytes, pattern_lengths_mut, h, hcut]

/-- The table of one state and one class. -/
def oneState : TransitionTable := ⟨1, 1, [0], [], [], one_state_fits, by decide⟩

theorem oneState_written : oneState.Written := ⟨by decide, by decide, by decide, by decide⟩

theorem oneState_valid : oneState.Valid := by
  have h : from_parts .w64 1 1 [0] [] [] = .ok oneState := rfl
  exact (from_parts_ok h).2.2.2.2.2

theorem cut_accepts_not_readsBack (w : Width) (k : Nat) (hk : 0 < k)
    (hcut : UInt32.ofNat k = 0) (hfit : 20 + 8 * k ≤ w.max) :
    ¬ ReadsBack w (oneState.accept_states_mut fun _ => List.replicate k (0, 0)) := by
  obtain ⟨n, rfl⟩ : ∃ n, k = n + 1 := ⟨k - 1, by omega⟩
  rw [List.replicate_succ]
  refine not_readsBack_of_prefix oneState_written oneState_valid
    (prefix_of_cut_accepts oneState _ 0 rfl rfl (by simpa using hcut)) ?_ ?_
  · intro he
    exact absurd (congrArg (·.accept_states) he) (by simp [oneState, accept_states_mut])
  · rw [to_bytes_length]
    simp [accept_states_mut, oneState]
    omega

theorem cut_lengths_not_readsBack (w : Width) (k : Nat) (hk : 0 < k)
    (hcut : UInt32.ofNat k = 0) (hfit : 20 + 4 * k ≤ w.max) :
    ¬ ReadsBack w (oneState.pattern_lengths_mut fun _ => List.replicate k 0) := by
  refine not_readsBack_of_prefix oneState_written oneState_valid
    (prefix_of_cut_lengths oneState _ rfl (by simpa using hcut)) ?_ ?_
  · intro he
    have hlen := congrArg (·.pattern_lengths.length) he
    simp [oneState, pattern_lengths_mut] at hlen
    omega
  · rw [to_bytes_length]
    simp [pattern_lengths_mut, oneState]
    omega

/-- The writer leaves out the number of transitions and cuts each count to 32 bits. So
edits that give the table of one state two transitions more, or `2 ^ 32` accept entries,
or `2 ^ 32` pattern lengths, and a table of no states and `2 ^ 32 + 1` classes, all read
back as different tables. -/
theorem an_edited_table_reads_back_as_another :
    (∃ t, TransitionTable.new .w64 1 1 = .ok t ∧
      ¬ ReadsBack .w64 (t.transitions_mut (· ++ [0, 0])) ∧
      ¬ ReadsBack .w64 (t.accept_states_mut fun _ => List.replicate (2 ^ 32) (0, 0)) ∧
      ¬ ReadsBack .w64 (t.pattern_lengths_mut fun _ => List.replicate (2 ^ 32) 0)) ∧
    ∃ t, TransitionTable.new .w64 0 (2 ^ 32 + 1) = .ok t ∧ ¬ ReadsBack .w64 t := by
  refine ⟨⟨oneState, rfl, ?_, ?_, ?_⟩, _, rfl, ?_⟩
  · refine not_readsBack_of_prefix oneState_written oneState_valid
      ⟨[0, 0, 0, 0, 0, 0, 0, 0], ?_⟩ ?_ ?_
    · decide
    · decide
    · decide
  · exact cut_accepts_not_readsBack .w64 _ (by decide) (by decide) (by decide)
  · exact cut_lengths_not_readsBack .w64 _ (by decide) (by decide) (by decide)
  · have hparts : from_parts .w64 0 1 [] [] [] = .ok ⟨0, 1, [], [], [], by decide, by decide⟩ := rfl
    refine not_readsBack_of_prefix ⟨by decide, by decide, by decide, by decide⟩
      (from_parts_ok hparts).2.2.2.2.2 ⟨[], ?_⟩ ?_ ?_
    · decide
    · decide
    · decide

/-- The reader takes the bytes of its table from the front of the data, and takes no
notice of what comes after them. -/
theorem from_bytes_reads_the_front_of_the_data (w : Width) (data : List UInt8)
    (t : TransitionTable) (h : from_bytes w data = .ok t) :
    t.to_bytes <+: data ∧ ∀ rest, (t.to_bytes ++ rest).length ≤ w.max →
      from_bytes w (t.to_bytes ++ rest) = .ok t := by
  obtain ⟨hp, hw, hv⟩ := from_bytes_ok h
  refine ⟨hp, fun rest hfit => ?_⟩
  rw [from_bytes_of_written w t rest hw hfit, from_parts_of_valid w t hv]
  have := to_bytes_length t
  rw [List.length_append] at hfit
  omega

/-- The bytes of the table of one state and one class, and one byte more. -/
def oneStateAndMore : List UInt8 :=
  [1, 0, 0, 0, 1, 0, 0, 0, 0, 0, 0, 0, 0, 0, 0, 0, 0, 0, 0, 0, 7]

theorem from_bytes_reads_the_front_of_one_state_and_more :
    ∃ t, from_bytes .w64 oneStateAndMore = .ok t ∧ t.to_bytes <+: oneStateAndMore ∧
      ∀ rest, (t.to_bytes ++ rest).length ≤ Width.w64.max →
        from_bytes .w64 (t.to_bytes ++ rest) = .ok t :=
  ⟨_, rfl, from_bytes_reads_the_front_of_the_data .w64 oneStateAndMore _ rfl⟩

/-- The reader accepts bytes that no table is written as. -/
theorem from_bytes_accepts_more_than_the_encodings :
    ∃ t, from_bytes .w64 oneStateAndMore = .ok t ∧ t.to_bytes ≠ oneStateAndMore :=
  ⟨_, rfl, by decide⟩

end TransitionTable

end dfajit.table
