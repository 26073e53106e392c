-- The dense table of the patterns: its entry for a state and a byte is the state
-- of the longest suffix of the text of the state and the byte.
import Dfajit.OutputLinks

namespace dfajit.dense_table

open error table codegen dfa text_tree trie failure_links output_links

/-! ## The entries of a table -/

/-- The entry of a state and a byte in a table of 256 columns. -/
def cell (t : TransitionTable) (s : Nat) (b : UInt8) : Option UInt32 :=
  t.transitions[s * 256 + b.toNat]?

/-- A table of `n` states with 256 columns. -/
structure Sized (n : Nat) (t : TransitionTable) : Prop where
  states : t.state_count = n
  bytes : t.class_count = 256
  len : t.transitions.length = n * 256

/-- The two tables differ in their transitions only. -/
structure SameButCells (t t' : TransitionTable) : Prop where
  states : t'.state_count = t.state_count
  bytes : t'.class_count = t.class_count
  accepts : t'.accept_states = t.accept_states
  lengths : t'.pattern_lengths = t.pattern_lengths

section

variable {n s : Nat} {t : TransitionTable} {b : UInt8} {x : UInt32}

theorem new_sized (h : n ≤ MAX_STATES) :
    ∃ t, TransitionTable.new .w64 n 256 = .ok t ∧ Sized n t ∧ t.accept_states = [] ∧
      t.pattern_lengths = [] := by
  have hmax : Width.w64.max = 2 ^ 64 - 1 := rfl
  have hfew := h
  unfold MAX_STATES at hfew
  obtain ⟨t, hnew⟩ := TransitionTable.new_of_fit (w := .w64) h some_byte (by omega)
    (by unfold MAX_TOTAL_TRANSITIONS; omega)
  obtain ⟨h1, h2, h3, h4, h5, _⟩ := TransitionTable.new_ok hnew
  exact ⟨t, hnew, ⟨h1, h2, by rw [h3, List.length_replicate]⟩, h4, h5⟩

theorem new_ok_le (h : TransitionTable.new .w64 n 256 = .ok t) : n ≤ MAX_STATES := by
  rw [← (TransitionTable.new_ok h).1]
  exact t.states_le

theorem Sized.index (h : Sized n t) (hn : n ≤ MAX_STATES) (hs : s < n) (b : UInt8) :
    (s * t.class_count + b.toNat) % Width.w64.size = s * 256 + b.toNat ∧
      s * 256 + b.toNat < t.transitions.length := by
  have hb := b.toNat_lt
  have hsize : Width.w64.size = 2 ^ 64 := rfl
  unfold MAX_STATES at hn
  rw [h.bytes, h.len, hsize]
  exact ⟨Nat.mod_eq_of_lt (by omega), by omega⟩

theorem Sized.set_transition (h : Sized n t) : Sized n (t.set_transition .w64 s b x) := by
  unfold TransitionTable.set_transition
  simp only
  split
  · exact ⟨h.states, h.bytes, by simpa using h.len⟩
  · exact h

theorem set_transition_same : SameButCells t (t.set_transition .w64 s b x) := by
  unfold TransitionTable.set_transition
  simp only
  split <;> exact ⟨rfl, rfl, rfl, rfl⟩

theorem Sized.cell_set (h : Sized n t) (hn : n ≤ MAX_STATES) (hs : s < n) {s' : Nat} {b' : UInt8} :
    cell (t.set_transition .w64 s b x) s' b' =
      if s = s' ∧ b = b' then some x else cell t s' b' := by
  obtain ⟨hidx, hlt⟩ := h.index hn hs b
  have hb := b.toNat_lt
  have hb' := b'.toNat_lt
  unfold cell TransitionTable.set_transition
  simp only [hidx]
  rw [if_pos hlt, List.getElem?_set]
  by_cases hsame : s = s' ∧ b = b'
  · obtain ⟨rfl, rfl⟩ := hsame
    rw [if_pos rfl, if_pos hlt, if_pos ⟨rfl, rfl⟩]
  · have hne : s * 256 + b.toNat ≠ s' * 256 + b'.toNat := by
      intro he
      exact hsame ⟨by omega, UInt8.toNat_inj.mp (by omega)⟩
    rw [if_neg hne, if_neg hsame]

/-- Each transition is the entry of a state and a byte. -/
theorem Sized.cell_of_mem (h : Sized n t) (hx : x ∈ t.transitions) :
    ∃ s < n, ∃ b, cell t s b = some x := by
  obtain ⟨i, hi⟩ := List.mem_iff_getElem?.mp hx
  have hlt := (List.getElem?_eq_some_iff.mp hi).1
  rw [h.len] at hlt
  refine ⟨i / 256, by omega, .ofNat (i % 256), ?_⟩
  have hplace : i / 256 * 256 + (UInt8.ofNat (i % 256)).toNat = i := by
    rw [UInt8.toNat_ofNat', Nat.mod_eq_of_lt (Nat.mod_lt _ (by decide))]
    omega
  unfold cell
  rw [hplace, hi]

/-- The entry of a state and a byte is where the byte leads. -/
theorem Sized.clean_next (h : Sized n t) {state : UInt32} (hx : cell t state.toNat b = some x) :
    codegen.clean_next t state b = clean x := by
  unfold cell at hx
  unfold codegen.clean_next
  simp only [h.bytes, hx, Option.getD_some]

theorem SameButCells.trans {t t' t'' : TransitionTable} (h : SameButCells t t')
    (h' : SameButCells t' t'') : SameButCells t t'' :=
  ⟨h'.states.trans h.states, h'.bytes.trans h.bytes, h'.accepts.trans h.accepts,
    h'.lengths.trans h.lengths⟩

/-- A loop that writes one entry after the other, each with its value. -/
theorem foldlM_cells (step : TransitionTable → Nat × UInt8 → Res TransitionTable)
    (value : Nat → UInt8 → UInt32) (places : List (Nat × UInt8)) (hn : n ≤ MAX_STATES)
    (hstep : ∀ p ∈ places, ∀ t, step t p = .ok (t.set_transition .w64 p.1 p.2 (value p.1 p.2)))
    (hplaces : ∀ p ∈ places, p.1 < n) (h : Sized n t) :
    ∃ t', places.foldlM step t = .ok t' ∧ Sized n t' ∧ SameButCells t t' ∧
      ∀ s b, cell t' s b = if (s, b) ∈ places then some (value s b) else cell t s b := by
  induction places generalizing t with
  | nil =>
    refine ⟨t, rfl, h, ⟨rfl, rfl, rfl, rfl⟩, ?_⟩
    intro s b
    simp
  | cons p places ih =>
    rw [List.forall_mem_cons] at hstep hplaces
    obtain ⟨t', hrun, hsized, hsame, hcell⟩ := ih hstep.2 hplaces.2
      (h.set_transition (s := p.1) (b := p.2) (x := value p.1 p.2))
    refine ⟨t', ?_, hsized, set_transition_same.trans hsame, ?_⟩
    · rw [List.foldlM_cons, hstep.1, ok_bind]
      exact hrun
    · intro s b
      rw [hcell, h.cell_set hn hplaces.1]
      by_cases hin : (s, b) ∈ places
      · rw [if_pos hin, if_pos (List.mem_cons_of_mem _ hin)]
      rw [if_neg hin]
      by_cases hp : p.1 = s ∧ p.2 = b
      · obtain ⟨rfl, rfl⟩ := hp
        rw [if_pos ⟨rfl, rfl⟩, if_pos List.mem_cons_self]
      · have hne : (s, b) ∉ p :: places := by
          intro hmem
          rcases List.mem_cons.mp hmem with he | hmem
          · exact hp ⟨by rw [← he], by rw [← he]⟩
          · exact hin hmem
        rw [if_neg hp, if_neg hne]

end

/-! ## The accept entries and the lengths -/

section

variable {t : TransitionTable}

theorem resize_length {α : Type} (xs : List α) (n : Nat) (x : α) :
    (TransitionTable.resize xs n x).length = n := by
  unfold TransitionTable.resize
  simp
  omega

/-- A place is made for an id that has none. -/
theorem resized_length (xs : List UInt32) (pid : UInt32) :
    (if xs.length ≤ pid.toNat then TransitionTable.resize xs (pid.toNat + 1) 0 else xs).length =
      max xs.length (pid.toNat + 1) := by
  split
  · rw [resize_length]
    omega
  · omega

theorem add_accept_length (state pid : UInt32) :
    (t.add_accept state pid).pattern_lengths.length =
      max t.pattern_lengths.length (pid.toNat + 1) :=
  resized_length _ _

theorem set_pattern_length_length (pid len : UInt32) :
    (t.set_pattern_length pid len).pattern_lengths.length =
      max t.pattern_lengths.length (pid.toNat + 1) := by
  unfold TransitionTable.set_pattern_length
  simp only
  rw [List.length_set, resized_length]

theorem add_accepts_eq (as : List (UInt32 × UInt32)) :
    (as.foldl (fun t a => t.add_accept a.1 a.2) t).state_count = t.state_count ∧
      (as.foldl (fun t a => t.add_accept a.1 a.2) t).class_count = t.class_count ∧
      (as.foldl (fun t a => t.add_accept a.1 a.2) t).transitions = t.transitions ∧
      (as.foldl (fun t a => t.add_accept a.1 a.2) t).accept_states = t.accept_states ++ as := by
  induction as generalizing t with
  | nil => simp
  | cons a as ih =>
    obtain ⟨h1, h2, h3, h4⟩ := ih (t := t.add_accept a.1 a.2)
    refine ⟨h1, h2, h3, ?_⟩
    rw [List.foldl_cons, h4]
    unfold TransitionTable.add_accept
    simp

theorem add_accepts_lengths {as : List (UInt32 × UInt32)} {n : Nat}
    (has : ∀ a ∈ as, a.2.toNat < n) (ht : t.pattern_lengths.length ≤ n) :
    (as.foldl (fun t a => t.add_accept a.1 a.2) t).pattern_lengths.length ≤ n := by
  induction as generalizing t with
  | nil => exact ht
  | cons a as ih =>
    rw [List.forall_mem_cons] at has
    apply ih has.2
    rw [add_accept_length]
    exact Nat.max_le.mpr ⟨ht, has.1⟩

/-- The lengths from the first pattern on. -/
def set_lengths (t : TransitionTable) (lengths : List UInt32) : TransitionTable :=
  lengths.zipIdx.foldl (fun table (len, pid) => table.set_pattern_length (.ofNat pid) len) t

theorem set_lengths_snoc (lengths : List UInt32) (x : UInt32) :
    set_lengths t (lengths ++ [x]) =
      (set_lengths t lengths).set_pattern_length (.ofNat lengths.length) x := by
  unfold set_lengths
  rw [List.zipIdx_append, List.foldl_append]
  simp

theorem set_lengths_same (lengths : List UInt32) :
    (set_lengths t lengths).state_count = t.state_count ∧
      (set_lengths t lengths).class_count = t.class_count ∧
      (set_lengths t lengths).transitions = t.transitions ∧
      (set_lengths t lengths).accept_states = t.accept_states := by
  induction lengths using List.reverseRecOn with
  | nil => exact ⟨rfl, rfl, rfl, rfl⟩
  | append_singleton lengths x ih =>
    rw [set_lengths_snoc]
    exact ih

theorem set_lengths_length {lengths : List UInt32} (hlen : lengths.length ≤ 2 ^ 32) :
    (set_lengths t lengths).pattern_lengths.length =
      max t.pattern_lengths.length lengths.length := by
  induction lengths using List.reverseRecOn with
  | nil => simp [set_lengths]
  | append_singleton lengths x ih =>
    rw [List.length_append, List.length_singleton] at hlen ⊢
    rw [set_lengths_snoc, set_pattern_length_length, ih (by omega), u32_toNat (by omega),
      Nat.max_assoc, Nat.max_eq_right (Nat.le_succ _)]

/-- Each length stands at its id, as long as there are ids. -/
theorem set_lengths_get {lengths : List UInt32} (hlen : lengths.length ≤ 2 ^ 32) :
    (set_lengths t lengths).pattern_lengths.take lengths.length = lengths := by
  induction lengths using List.reverseRecOn with
  | nil => rfl
  | append_singleton lengths x ih =>
    rw [List.length_append, List.length_singleton] at hlen ⊢
    have htake := ih (by omega)
    have hid : (UInt32.ofNat lengths.length).toNat = lengths.length := by
      rw [u32_toNat (by omega)]
    rw [set_lengths_snoc]
    generalize set_lengths t lengths = t' at htake ⊢
    obtain ⟨ys, hys⟩ : ∃ ys, t'.pattern_lengths = lengths ++ ys := by
      have hsplit := List.take_append_drop lengths.length t'.pattern_lengths
      rw [htake] at hsplit
      exact ⟨_, hsplit.symm⟩
    unfold TransitionTable.set_pattern_length
    simp only [hid]
    rw [hys]
    cases ys with
    | nil =>
      rw [List.append_nil]
      have hroom : TransitionTable.resize lengths (lengths.length + 1) 0 = lengths ++ [0] := by
        unfold TransitionTable.resize
        rw [List.take_of_length_le (by omega), Nat.add_sub_cancel_left]
        rfl
      rw [if_pos (Nat.le_refl _), hroom, List.set_append_right _ _ (Nat.le_refl _), Nat.sub_self]
      simp
    | cons y ys =>
      rw [if_neg (by simp), List.set_append_right _ _ (Nat.le_refl _), Nat.sub_self,
        List.set_cons_zero, List.take_append, List.take_of_length_le (by omega),
        Nat.add_sub_cancel_left]
      rfl

theorem set_lengths_eq {lengths : List UInt32} (hlen : lengths.length ≤ 2 ^ 32)
    (ht : t.pattern_lengths.length ≤ lengths.length) :
    (set_lengths t lengths).pattern_lengths = lengths := by
  have htake := set_lengths_get (t := t) hlen
  have hmax := set_lengths_length (t := t) hlen
  rwa [List.take_of_length_le (by omega)] at htake

theorem set_lengths_le (lengths rest : List UInt32) :
    (set_lengths t lengths).pattern_lengths.length ≤
      (set_lengths t (lengths ++ rest)).pattern_lengths.length := by
  induction rest using List.reverseRecOn with
  | nil => rw [List.append_nil]
  | append_singleton rest x ih =>
    rw [← List.append_assoc, set_lengths_snoc]
    rw [set_pattern_length_length]
    exact Nat.le_trans ih (Nat.le_max_left _ _)

/-- The table has a length for each pattern that a `u32` can number. -/
theorem set_lengths_room (lengths : List UInt32) :
    min lengths.length (2 ^ 32) ≤ (set_lengths t lengths).pattern_lengths.length := by
  have htake : (lengths.take (2 ^ 32)).length = min lengths.length (2 ^ 32) := by
    rw [List.length_take, Nat.min_comm]
  have hle := set_lengths_le (t := t) (lengths.take (2 ^ 32)) (lengths.drop (2 ^ 32))
  rw [List.take_append_drop, set_lengths_length (t := t) (by omega), htake] at hle
  omega

end

/-! ## The dense table -/

theorem mem_places {n s : Nat} {b : UInt8} :
    (s, b) ∈ (List.range n).flatMap (fun state => all_bytes.map (state, ·)) ↔ s < n := by
  simp only [List.mem_flatMap, List.mem_range, List.mem_map, Prod.mk.injEq]
  constructor
  · rintro ⟨_, hs, _, _, rfl, _⟩
    exact hs
  · intro hs
    exact ⟨s, hs, b, mem_all_bytes b, rfl, rfl⟩

/-- What the table has in its parts. -/
structure Dense (strs : List (List UInt8)) (accepts : List (UInt32 × UInt32))
    (lengths : List UInt32) (t : TransitionTable) : Prop where
  sized : Sized strs.length t
  cells : ∀ v ∈ strs, ∀ b, cell t (state_of strs v).toNat b =
    some (state_of strs (longest strs (v ++ [b])))
  accepts : t.accept_states = accepts
  room : min lengths.length (2 ^ 32) ≤ t.pattern_lengths.length
  lengths : lengths.length ≤ 2 ^ 32 → t.pattern_lengths = lengths

section

variable {strs : List (List UInt8)} {trans : List Row} {fail lengths : List UInt32}
  {accepts : List (UInt32 × UInt32)}

theorem dense_steps_eq (h : Spells strs trans) (hfail : ∀ v ∈ strs, FailsTo strs fail v)
    (hn : strs.length ≤ MAX_STATES) {t : TransitionTable} (ht : Sized strs.length t) :
    ∃ t', ((List.range strs.length).flatMap fun state => all_bytes.map (state, ·)).foldlM
        (dense_step trans fail) t = .ok t' ∧ Sized strs.length t' ∧ SameButCells t t' ∧
      ∀ v ∈ strs, ∀ b, cell t' (state_of strs v).toNat b =
        some (state_of strs (longest strs (v ++ [b]))) := by
  have hstep : ∀ p ∈ (List.range strs.length).flatMap fun state => all_bytes.map (state, ·),
      ∀ t, dense_step trans fail t p = .ok (t.set_transition .w64 p.1 p.2
        (state_of strs (longest strs ((strs[p.1]?).getD [] ++ [p.2])))) := by
    rintro ⟨s, b⟩ hp t
    have hs := mem_places.mp hp
    have hget := List.getElem?_eq_getElem hs
    have hv : strs[s] ∈ strs := List.getElem_mem hs
    generalize strs[s] = v at hget hv
    have hfuel : v.length ≤ trans.length := by
      have hlt := h.nodes.tree.length_lt hv
      rw [h.len]
      omega
    have htarget := dense_target_eq h b hv hfail hfuel
    rw [h.nodes.state_of_get hget] at htarget
    unfold dense_step
    simp only [htarget, ok_bind, hget, Option.getD_some]
  obtain ⟨t', hrun, hsized, hsame, hcells⟩ := foldlM_cells (dense_step trans fail)
    (fun s b => state_of strs (longest strs ((strs[s]?).getD [] ++ [b]))) _ hn hstep
    (fun p hp => mem_places.mp hp) ht
  refine ⟨t', hrun, hsized, hsame, ?_⟩
  intro v hv b
  rw [hcells, if_pos (mem_places.mpr (h.nodes.state_lt hv)), h.nodes.get hv]
  rfl

/-- The dense table has a place for each state, and is right there. -/
theorem build_dense_table_eq (h : Spells strs trans) (hfail : ∀ v ∈ strs, FailsTo strs fail v)
    (hn : strs.length ≤ MAX_STATES) (hacc : ∀ a ∈ accepts, a.2.toNat < lengths.length) :
    ∃ t, build_dense_table trans fail accepts lengths = .ok t ∧ Dense strs accepts lengths t := by
  obtain ⟨t0, hnew, hsized0, ha0, hl0⟩ := new_sized hn
  obtain ⟨t1, hrun, hsized, hsame, hcells⟩ := dense_steps_eq h hfail hn hsized0
  obtain ⟨a1, a2, a3, a4⟩ := add_accepts_eq (t := t1) accepts
  have hle := add_accepts_lengths (t := t1) hacc (by rw [hsame.lengths, hl0]; exact Nat.zero_le _)
  generalize ht2 : accepts.foldl (fun t a => t.add_accept a.1 a.2) t1 = t2 at a1 a2 a3 a4 hle
  obtain ⟨l1, l2, l3, l4⟩ := set_lengths_same (t := t2) lengths
  refine ⟨set_lengths t2 lengths, ?_, ⟨?_, ?_, ?_⟩, ?_, ?_, ?_, ?_⟩
  · unfold build_dense_table
    simp only [h.len, hnew, ok_bind, hrun]
    rw [← ht2]
    rfl
  · rw [l1, a1, hsized.states]
  · rw [l2, a2, hsized.bytes]
  · rw [l3, a3, hsized.len]
  · intro v hv b
    unfold cell
    rw [l3, a3]
    exact hcells v hv b
  · rw [l4, a4, hsame.accepts, ha0, List.nil_append]
  · exact set_lengths_room lengths
  · exact fun hlen => set_lengths_eq hlen hle

theorem build_dense_table_few {t : TransitionTable}
    (h : build_dense_table trans fail accepts lengths = .ok t) : trans.length ≤ MAX_STATES := by
  unfold build_dense_table at h
  obtain ⟨t0, hnew, _⟩ := bind_ok.mp h
  exact new_ok_le hnew

end

end dfajit.dense_table
