-- The table of a regex DFA: one state for each state that the DFA reaches, its
-- targets, and its accept entries, which are those of the end of the input.
import Dfajit.Lib.Numbering
import Dfajit.Lib.Search
import Dfajit.DenseTable
import Dfajit.Regex

namespace dfajit.regex_table

open error table codegen dfa failure_links dense_table regex search numbering

variable {σ : Type} [DecidableEq σ]

/-! ## The states that are found -/

/-- The map gives each state its index. -/
def Mapped (state_ids : List σ) (state_map : List (σ × Nat)) : Prop :=
  ∀ s, state_map.lookup s = if s ∈ state_ids then some (state_ids.idxOf s) else none

section

variable {dfa : DFA σ} {start state : σ} {work : regex.Search σ}

theorem Mapped.add {state_ids : List σ} {state_map : List (σ × Nat)} (h : Mapped state_ids state_map)
    {x : σ} (hx : x ∉ state_ids) :
    Mapped (state_ids ++ [x]) ((x, state_ids.length) :: state_map) := by
  intro s
  by_cases hs : s = x
  · subst hs
    rw [List.lookup_cons_self, if_pos (by simp), List.idxOf_append_of_notMem hx,
      List.idxOf_cons_self, Nat.add_zero]
  · have hne : (s == x) = false := by simpa using hs
    rw [List.lookup_cons, hne]
    simp only [h s]
    by_cases hmem : s ∈ state_ids
    · rw [if_pos hmem, if_pos (List.mem_append_left _ hmem), List.idxOf_append_of_mem hmem]
    · rw [if_neg hmem, if_neg (by simp [hmem, hs])]

/-- One state of the queue and one byte: the target of the state was seen now. -/
theorem search_step_spec (hmap : Mapped work.state_ids work.state_map)
    (hfront : Frontier dfa.next_state start work.state_ids (state :: work.queue)) (b : UInt8) :
    ∃ found, search_step dfa state work b = found ∧ Mapped found.state_ids found.state_map ∧
      Frontier dfa.next_state start found.state_ids (state :: found.queue) ∧
      work.state_ids ⊆ found.state_ids ∧ dfa.next_state state b ∈ found.state_ids ∧
      found.state_ids.length + work.queue.length = work.state_ids.length + found.queue.length := by
  refine ⟨_, rfl, ?_⟩
  unfold search_step
  simp only [hmap (dfa.next_state state b)]
  by_cases hmem : dfa.next_state state b ∈ work.state_ids
  · rw [if_pos hmem]
    exact ⟨hmap, hfront, List.Subset.refl _, hmem, rfl⟩
  · rw [if_neg hmem]
    refine ⟨hmap.add hmem, hfront.see hmem, List.subset_append_left _ _, by simp, ?_⟩
    simp only [List.length_append, List.length_singleton]
    omega

/-- All bytes of one state. -/
theorem search_steps_spec (dfa : DFA σ) (work : regex.Search σ) (bytes : List UInt8)
    (hmap : Mapped work.state_ids work.state_map)
    (hfront : Frontier dfa.next_state start work.state_ids (state :: work.queue)) :
    ∃ found, bytes.foldl (search_step dfa state) work = found ∧
      Mapped found.state_ids found.state_map ∧
      Frontier dfa.next_state start found.state_ids (state :: found.queue) ∧
      work.state_ids ⊆ found.state_ids ∧ (∀ b ∈ bytes, dfa.next_state state b ∈ found.state_ids) ∧
      found.state_ids.length + work.queue.length = work.state_ids.length + found.queue.length := by
  induction bytes generalizing work with
  | nil => exact ⟨work, rfl, hmap, hfront, List.Subset.refl _, by simp, rfl⟩
  | cons b bytes ih =>
    obtain ⟨one, hone, hmap, hfront, hsub, hb, hcount⟩ := search_step_spec hmap hfront b
    obtain ⟨found, hfound, hmap, hfront, hsub', hall, hcount'⟩ := ih one hmap hfront
    refine ⟨found, ?_, hmap, hfront, List.Subset.trans hsub hsub', ?_, by omega⟩
    · rw [List.foldl_cons, hone, hfound]
    · exact List.forall_mem_cons.mpr ⟨hsub' hb, hall⟩

/-- The search comes to an end, since each state leaves the queue once. -/
theorem search_loop_spec [Fintype σ] {fuel : Nat} (hmap : Mapped work.state_ids work.state_map)
    (hfront : Frontier dfa.next_state start work.state_ids work.queue)
    (hfuel : Fintype.card σ + work.queue.length ≤ fuel + work.state_ids.length) :
    ∃ found, search_loop dfa fuel work = .ok found ∧ Mapped found.state_ids found.state_map ∧
      Frontier dfa.next_state start found.state_ids [] := by
  induction fuel generalizing work with
  | zero =>
    have hcard := hfront.nodup.length_le_card
    unfold search_loop
    cases hq : work.queue with
    | nil => exact ⟨work, rfl, hmap, hq ▸ hfront⟩
    | cons s queue =>
      rw [hq, List.length_cons] at hfuel
      omega
  | succ fuel ih =>
    unfold search_loop
    cases hq : work.queue with
    | nil => exact ⟨work, rfl, hmap, hq ▸ hfront⟩
    | cons s queue =>
      rw [hq] at hfront hfuel
      obtain ⟨one, hone, hmap, hfront, _, hall, hcount⟩ :=
        search_steps_spec dfa { work with queue } all_bytes hmap hfront
      simp only at hcount ⊢
      rw [hone]
      apply ih hmap (hfront.pop fun b => hall b (mem_all_bytes b))
      rw [List.length_cons] at hfuel
      omega

theorem search_states_spec [Fintype σ] (dfa : DFA σ) (start : σ) :
    ∃ found, search_states dfa start = .ok found ∧ Mapped found.state_ids found.state_map ∧
      Frontier dfa.next_state start found.state_ids [] := by
  apply search_loop_spec
  · intro s
    by_cases hs : s = start
    · subst hs
      rw [List.lookup_cons_self, if_pos (by simp), List.idxOf_cons_self]
    · have hne : (s == start) = false := by simpa using hs
      rw [List.lookup_cons, hne, if_neg (by simpa using hs)]
      rfl
  · exact frontier_start _ _
  · exact Nat.le_refl _

end

/-! ## The rows of the table -/

/-- The ids of the matches that the DFA reports if the input ends in this state. -/
def eoi_patterns (dfa : DFA σ) (s : σ) : List PatternID :=
  if dfa.is_match_state (dfa.next_eoi_state s) then
    (List.range (dfa.match_len (dfa.next_eoi_state s))).map
      (dfa.match_pattern (dfa.next_eoi_state s))
  else []

/-- `as_usize() as u32`. -/
def as_u32 (pattern_id : PatternID) : UInt32 := .ofNat pattern_id.val

/-- The accept entries of a state: each id of the end of the input once. -/
def entries (dfa : DFA σ) (s : σ) (i : Nat) : List (UInt32 × UInt32) :=
  (firsts ((eoi_patterns dfa s).map as_u32)).map (UInt32.ofNat i, ·)

/-- The entries of the states with these numbers. -/
def all_entries (dfa : DFA σ) (state_ids : List σ) : List (UInt32 × UInt32) :=
  state_ids.zipIdx.flatMap fun e => entries dfa e.1 e.2

/-- The table after the rows of the first `k` states. -/
structure Rows (dfa : DFA σ) (state_ids : List σ) (k : Nat) (t : TransitionTable) : Prop where
  sized : Sized state_ids.length t
  cells : ∀ i < k, ∀ s, state_ids[i]? = some s → ∀ b,
    cell t i b = some (.ofNat (state_ids.idxOf (dfa.next_state s b)))
  accepts : t.accept_states = all_entries dfa (state_ids.take k)
  zero : ∀ x ∈ t.pattern_lengths, x = 0
  few : t.pattern_lengths.length ≤ 2 ^ 32
  room : ∀ a ∈ t.accept_states, a.2.toNat < t.pattern_lengths.length

/-- The lengths are all 0, and there is one for each accept entry. -/
structure ZeroLengths (t : TransitionTable) : Prop where
  zero : ∀ x ∈ t.pattern_lengths, x = 0
  few : t.pattern_lengths.length ≤ 2 ^ 32
  room : ∀ a ∈ t.accept_states, a.2.toNat < t.pattern_lengths.length

section

variable {dfa : DFA σ} {state_ids : List σ} {state_map : List (σ × Nat)} {t : TransitionTable}

theorem as_u32_toNat (p : PatternID) : (as_u32 p).toNat = p.val := by
  have hp := p.isLt
  unfold as_u32
  rw [u32_toNat (by omega)]

theorem as_u32_inj {p q : PatternID} : as_u32 p = as_u32 q ↔ p = q := by
  constructor
  · intro h
    apply Fin.ext
    rw [← as_u32_toNat, ← as_u32_toNat, h]
  · rintro rfl
    rfl

/-- No id is the one that stands for "no pattern". -/
theorem as_u32_ne_none (p : PatternID) : as_u32 p ≠ NONE := by
  have hp := p.isLt
  have hnat := as_u32_toNat p
  exact ne_none_of_lt (by omega)

theorem resized_zero {xs : List UInt32} (h : ∀ x ∈ xs, x = 0) (pid : UInt32) :
    ∀ x ∈ (if xs.length ≤ pid.toNat then TransitionTable.resize xs (pid.toNat + 1) 0 else xs),
      x = 0 := by
  split
  · intro x hx
    rcases List.mem_append.mp hx with hx | hx
    · exact h x (List.mem_of_mem_take hx)
    · exact List.eq_of_mem_replicate hx
  · exact h

theorem ZeroLengths.add_accept (h : ZeroLengths t) (state pid : UInt32) :
    ZeroLengths (t.add_accept state pid) := by
  have hpid := pid.toNat_lt
  refine ⟨resized_zero h.zero pid, ?_, ?_⟩
  · rw [add_accept_length]
    exact Nat.max_le.mpr ⟨h.few, hpid⟩
  · intro a ha
    rw [add_accept_length]
    rcases List.mem_append.mp ha with ha | ha
    · have hlt := h.room a ha
      omega
    · rw [List.mem_singleton.mp ha]
      exact Nat.lt_of_lt_of_le (Nat.lt_succ_self _) (Nat.le_max_right _ _)

theorem ZeroLengths.set_zero (h : ZeroLengths t) (pid : UInt32) :
    ZeroLengths (t.set_pattern_length pid 0) := by
  have hpid := pid.toNat_lt
  refine ⟨?_, ?_, ?_⟩
  · intro x hx
    rcases List.mem_or_eq_of_mem_set hx with hx | hx
    · exact resized_zero h.zero pid x hx
    · exact hx
  · rw [set_pattern_length_length]
    exact Nat.max_le.mpr ⟨h.few, hpid⟩
  · intro a ha
    rw [set_pattern_length_length]
    have hlt := h.room a ha
    omega

theorem any_entry {as : List (UInt32 × UInt32)} {i pid : UInt32} :
    (as.any fun (state, p) => state == i && p == pid) = true ↔ (i, pid) ∈ as := by
  simp only [List.any_eq_true, Bool.and_eq_true, beq_iff_eq]
  constructor
  · rintro ⟨_, ha, rfl, rfl⟩
    exact ha
  · exact fun ha => ⟨_, ha, rfl, rfl⟩

/-- Whether a state has an entry already, when only its ids were added. -/
theorem entry_seen {as : List (UInt32 × UInt32)} {i : UInt32} (hnew : ∀ a ∈ as, a.1 ≠ i)
    (seen : List UInt32) (pid : UInt32) :
    ((as ++ seen.map (i, ·)).any fun (state, p) => state == i && p == pid) = true ↔
      pid ∈ seen := by
  rw [any_entry, List.mem_append]
  constructor
  · rintro (hmem | hmem)
    · exact absurd rfl (hnew _ hmem)
    · obtain ⟨x, hx, he⟩ := List.mem_map.mp hmem
      rw [← (Prod.mk.inj he).2]
      exact hx
  · intro hmem
    exact Or.inr (List.mem_map.mpr ⟨_, hmem, rfl⟩)

/-- The targets of one state. -/
theorem target_steps_eq (hmap : Mapped state_ids state_map)
    (hclosed : ∀ s ∈ state_ids, ∀ b, dfa.next_state s b ∈ state_ids)
    (hn : state_ids.length ≤ MAX_STATES) {i : Nat} {s : σ} (hs : state_ids[i]? = some s)
    (ht : Sized state_ids.length t) :
    ∃ t', all_bytes.foldlM (target_step dfa state_map s i) t = .ok t' ∧
      Sized state_ids.length t' ∧ SameButCells t t' ∧
      ∀ i' b, cell t' i' b = if i' = i then
        some (.ofNat (state_ids.idxOf (dfa.next_state s b))) else cell t i' b := by
  have hlt := (List.getElem?_eq_some_iff.mp hs).1
  have hmem := List.mem_of_getElem? hs
  have hstep : ∀ p ∈ all_bytes.map (i, ·), ∀ t,
      target_step dfa state_map s i t p.2 = .ok (t.set_transition .w64 p.1 p.2
        (.ofNat (state_ids.idxOf (dfa.next_state s p.2)))) := by
    intro p hp t
    obtain ⟨b, _, rfl⟩ := List.mem_map.mp hp
    unfold target_step
    rw [hmap, if_pos (hclosed s hmem b)]
  obtain ⟨t', hrun, hsized, hsame, hcells⟩ := foldlM_cells
    (fun t p => target_step dfa state_map s i t p.2)
    (fun _ b => .ofNat (state_ids.idxOf (dfa.next_state s b))) (all_bytes.map (i, ·)) hn hstep
    (by
      intro p hp
      obtain ⟨b, _, rfl⟩ := List.mem_map.mp hp
      exact hlt) ht
  rw [List.foldlM_map] at hrun
  refine ⟨t', hrun, hsized, hsame, ?_⟩
  intro i' b
  rw [hcells]
  by_cases hi : i' = i
  · subst hi
    rw [if_pos (List.mem_map.mpr ⟨b, mem_all_bytes b, rfl⟩), if_pos rfl]
  · rw [if_neg hi, if_neg]
    intro hp
    obtain ⟨_, _, he⟩ := List.mem_map.mp hp
    exact hi (Prod.mk.inj he).1.symm

omit [DecidableEq σ] in
/-- The accept entries of one state: an id that was there is not added again. -/
theorem match_steps_eq (dfa : DFA σ) (eoi_state : σ) (i n : Nat)
    (hnew : ∀ a ∈ t.accept_states, a.1 ≠ .ofNat i) (hlens : ZeroLengths t) :
    ∃ t', (List.range n).foldl (match_step dfa eoi_state i) t = t' ∧
      t'.state_count = t.state_count ∧ t'.class_count = t.class_count ∧
      t'.transitions = t.transitions ∧
      t'.accept_states = t.accept_states ++
        (firsts (((List.range n).map (dfa.match_pattern eoi_state)).map as_u32)).map
          (UInt32.ofNat i, ·) ∧
      ZeroLengths t' := by
  induction n with
  | zero => exact ⟨t, rfl, rfl, rfl, rfl, (List.append_nil _).symm, hlens⟩
  | succ n ih =>
    obtain ⟨t1, hrun, h1, h2, h3, hacc, hlens⟩ := ih
    rw [List.range_succ, List.foldl_append, hrun, List.map_append, List.map_append]
    simp only [List.map_singleton, firsts_snoc]
    refine ⟨_, rfl, ?_⟩
    have hid : UInt32.ofNat (dfa.match_pattern eoi_state n).val =
        as_u32 (dfa.match_pattern eoi_state n) := rfl
    generalize hseen : firsts (((List.range n).map (dfa.match_pattern eoi_state)).map as_u32) =
      seen at hacc
    have hin := entry_seen hnew seen (as_u32 (dfa.match_pattern eoi_state n))
    rw [← hacc] at hin
    unfold match_step note
    simp only [List.foldl_cons, List.foldl_nil, hid]
    by_cases hmem : as_u32 (dfa.match_pattern eoi_state n) ∈ seen
    · rw [if_pos (hin.mpr hmem), if_pos hmem]
      exact ⟨h1, h2, h3, hacc, hlens⟩
    · rw [if_neg (fun h => hmem (hin.mp h)), if_neg hmem]
      refine ⟨h1, h2, h3, ?_, hlens.add_accept _ _⟩
      unfold TransitionTable.add_accept
      simp only [hacc, List.map_append, List.map_singleton, List.append_assoc]

omit [DecidableEq σ] in
theorem entries_filter (dfa : DFA σ) (s : σ) (i : Nat) (r : UInt32) :
    (entries dfa s i).filter (·.1 = r) = if UInt32.ofNat i = r then entries dfa s i else [] := by
  unfold entries
  by_cases hr : UInt32.ofNat i = r
  · rw [if_pos hr, List.filter_eq_self]
    intro a ha
    obtain ⟨_, _, rfl⟩ := List.mem_map.mp ha
    exact decide_eq_true hr
  · rw [if_neg hr, List.filter_eq_nil_iff]
    intro a ha
    obtain ⟨_, _, rfl⟩ := List.mem_map.mp ha
    rw [decide_eq_true_iff]
    exact hr

omit [DecidableEq σ] in
theorem all_entries_take {k : Nat} {s : σ} (hs : state_ids[k]? = some s) :
    all_entries dfa (state_ids.take (k + 1)) =
      all_entries dfa (state_ids.take k) ++ entries dfa s k := by
  have hlt := (List.getElem?_eq_some_iff.mp hs).1
  have hlen : (state_ids.take k).length = k := by
    rw [List.length_take]
    omega
  unfold all_entries
  rw [List.take_add_one, hs, Option.toList_some, List.zipIdx_append, List.flatMap_append, hlen,
    Nat.zero_add, List.zipIdx_singleton, List.flatMap_singleton]

omit [DecidableEq σ] in
theorem mem_all_entries {a : UInt32 × UInt32} :
    a ∈ all_entries dfa state_ids ↔ ∃ (i : Nat) (s : σ), state_ids[i]? = some s ∧
      a.1 = .ofNat i ∧ ∃ p ∈ eoi_patterns dfa s, a.2 = as_u32 p := by
  unfold all_entries entries
  simp only [List.mem_flatMap, List.mem_map, mem_firsts]
  constructor
  · rintro ⟨⟨s, i⟩, hsi, _, ⟨p, hp, rfl⟩, rfl⟩
    exact ⟨i, s, List.mem_zipIdx_iff_getElem?.mp hsi, rfl, p, hp, rfl⟩
  · rintro ⟨i, s, hs, h1, p, hp, h2⟩
    refine ⟨(s, i), List.mem_zipIdx_iff_getElem?.mpr hs, _, ⟨p, hp, rfl⟩, ?_⟩
    rw [← h1, ← h2]

theorem ZeroLengths.same {t' : TransitionTable} (h : ZeroLengths t) (hsame : SameButCells t t') :
    ZeroLengths t' := by
  refine ⟨?_, ?_, ?_⟩
  · rw [hsame.lengths]
    exact h.zero
  · rw [hsame.lengths]
    exact h.few
  · rw [hsame.accepts, hsame.lengths]
    exact h.room

theorem Rows.lengths {k : Nat} (h : Rows dfa state_ids k t) : ZeroLengths t :=
  ⟨h.zero, h.few, h.room⟩

/-- The state of the next row has no accept entry yet. -/
theorem Rows.fresh {k : Nat} (h : Rows dfa state_ids k t) (hn : state_ids.length ≤ MAX_STATES)
    (hk : k < state_ids.length) : ∀ a ∈ t.accept_states, a.1 ≠ .ofNat k := by
  unfold MAX_STATES at hn
  intro a ha he
  rw [h.accepts] at ha
  obtain ⟨i, x, hi, h1, _⟩ := mem_all_entries.mp ha
  have hik := (List.getElem?_eq_some_iff.mp hi).1
  rw [List.length_take] at hik
  rw [h1] at he
  have hsame := (u32_inj (by omega) (by omega)).mp he
  omega

/-- The row of one state. -/
theorem Rows.step (hmap : Mapped state_ids state_map)
    (hclosed : ∀ s ∈ state_ids, ∀ b, dfa.next_state s b ∈ state_ids)
    (hn : state_ids.length ≤ MAX_STATES) {k : Nat} {s : σ} (hs : state_ids[k]? = some s)
    (h : Rows dfa state_ids k t) :
    ∃ t', state_step dfa state_map t (s, k) = .ok t' ∧ Rows dfa state_ids (k + 1) t' := by
  obtain ⟨t1, hrun, hsized, hsame, hcells⟩ := target_steps_eq hmap hclosed hn hs h.sized
  have hlt := (List.getElem?_eq_some_iff.mp hs).1
  have hnew : ∀ a ∈ t1.accept_states, a.1 ≠ .ofNat k := by
    rw [hsame.accepts]
    exact h.fresh hn hlt
  have hcells' : ∀ i < k + 1, ∀ x, state_ids[i]? = some x → ∀ b,
      cell t1 i b = some (.ofNat (state_ids.idxOf (dfa.next_state x b))) := by
    intro i hi x hx b
    rw [hcells]
    by_cases hik : i = k
    · subst hik
      rw [hs] at hx
      rw [if_pos rfl, Option.some.inj hx]
    · rw [if_neg hik]
      exact h.cells i (by omega) x hx b
  have hlens := h.lengths.same hsame
  unfold state_step
  simp only [hrun, ok_bind]
  split
  · rename_i hmatch
    obtain ⟨t2, hfold, h1, h2, h3, hacc, hlens⟩ :=
      match_steps_eq dfa (dfa.next_eoi_state s) k (dfa.match_len (dfa.next_eoi_state s))
        hnew hlens
    refine ⟨t2, by rw [hfold], ⟨?_, ?_, ?_⟩, ?_, ?_, hlens.zero, hlens.few, hlens.room⟩
    · rw [h1, hsized.states]
    · rw [h2, hsized.bytes]
    · rw [h3, hsized.len]
    · intro i hi x hx b
      unfold cell
      rw [h3]
      exact hcells' i hi x hx b
    · rw [hacc, hsame.accepts, h.accepts, all_entries_take hs]
      unfold entries eoi_patterns
      rw [if_pos hmatch]
  · rename_i hmatch
    refine ⟨t1, rfl, hsized, hcells', ?_, hlens.zero, hlens.few, hlens.room⟩
    rw [hsame.accepts, h.accepts, all_entries_take hs]
    unfold entries eoi_patterns
    rw [if_neg hmatch]
    exact (List.append_nil _).symm

end

/-! ## The whole table -/

/-- The table of a DFA that was searched from this start state. -/
structure Flattened (dfa : DFA σ) (start : σ) (state_ids : List σ) (t : TransitionTable) :
    Prop where
  search : Frontier dfa.next_state start state_ids []
  states : state_ids.length ≤ MAX_STATES
  sized : Sized state_ids.length t
  cells : ∀ (i : Nat) (s : σ), state_ids[i]? = some s → ∀ b,
    cell t i b = some (.ofNat (state_ids.idxOf (dfa.next_state s b)))
  accepts : t.accept_states = all_entries dfa state_ids
  zero : ∀ x ∈ t.pattern_lengths, x = 0
  few : t.pattern_lengths.length ≤ 2 ^ 32
  room : ∀ a ∈ t.accept_states, a.2.toNat < t.pattern_lengths.length

section

variable {dfa : DFA σ} {start : σ} {t : TransitionTable}

/-- The lengths of all patterns are set to 0. -/
theorem zero_lengths (n : Nat) (hlens : ZeroLengths t) :
    ∃ t', (List.range n).foldl
        (fun table pattern_id => table.set_pattern_length (.ofNat pattern_id) 0) t = t' ∧
      t'.state_count = t.state_count ∧ t'.class_count = t.class_count ∧
      t'.transitions = t.transitions ∧ t'.accept_states = t.accept_states ∧ ZeroLengths t' := by
  induction n with
  | zero => exact ⟨t, rfl, rfl, rfl, rfl, rfl, hlens⟩
  | succ n ih =>
    obtain ⟨t1, hrun, h1, h2, h3, h4, hlens⟩ := ih
    rw [List.range_succ, List.foldl_append, hrun, List.foldl_cons, List.foldl_nil]
    exact ⟨_, rfl, h1, h2, h3, h4, hlens.set_zero _⟩

/-- A new table has no rows yet. -/
theorem rows_start {state_ids : List σ} (hsized : Sized state_ids.length t)
    (haccepts : t.accept_states = []) (hlengths : t.pattern_lengths = []) :
    Rows dfa state_ids 0 t := by
  refine ⟨hsized, ?_, haccepts, ?_, ?_, ?_⟩
  · intro i hi
    exact absurd hi (Nat.not_lt_zero i)
  · rw [hlengths]
    intro x hx
    cases hx
  · rw [hlengths]
    exact Nat.zero_le _
  · rw [haccepts]
    intro a ha
    cases ha

/-- The table is built if the DFA does not reach more states than a table may have.
Its states are those that the search finds, in their order. -/
theorem search_flattened [Fintype σ] {n : Nat} (hstart : dfa.start_state_forward = .ok start)
    (hfit : {s | Reached dfa.next_state start s}.ncard ≤ MAX_STATES ∨
      ∃ t, regex_table dfa n = .ok t) :
    ∃ found t, search_states dfa start = .ok found ∧ Mapped found.state_ids found.state_map ∧
      regex_table dfa n = .ok t ∧ Flattened dfa start found.state_ids t := by
  obtain ⟨found, hsearch, hmap, hfront⟩ := search_states_spec dfa start
  unfold regex_table at hfit ⊢
  simp only [hstart, hsearch, ok_bind] at hfit ⊢
  have hn : found.state_ids.length ≤ MAX_STATES := by
    rcases hfit with hfit | ⟨t, hfit⟩
    · rw [hfront.length_eq]
      exact hfit
    · obtain ⟨t0, hnew, _⟩ := bind_ok.mp hfit
      exact new_ok_le hnew
  obtain ⟨t0, hnew, hsized, ha0, hl0⟩ := new_sized hn
  have hclosed : ∀ s ∈ found.state_ids, ∀ b, dfa.next_state s b ∈ found.state_ids :=
    fun s hs b => hfront.mem_iff.mpr ((hfront.mem_iff.mp hs).step b)
  obtain ⟨t1, hrun, hrows⟩ := foldlM_zipIdx (state_step dfa found.state_map) found.state_ids t0
    (Rows dfa found.state_ids) (rows_start hsized ha0 hl0)
    (fun k s hs t h => h.step hmap hclosed hn hs)
  obtain ⟨t2, hfold, h1, h2, h3, h4, hlens⟩ :=
    zero_lengths (t := t1) n hrows.lengths
  refine ⟨found, t2, rfl, hmap, ?_, hfront, hn, ⟨?_, ?_, ?_⟩, ?_, ?_, hlens.zero, hlens.few,
    hlens.room⟩
  · rw [hnew, ok_bind, hrun, ok_bind, hfold]
  · rw [h1, hrows.sized.states]
  · rw [h2, hrows.sized.bytes]
  · rw [h3, hrows.sized.len]
  · intro i s hs b
    unfold cell
    rw [h3]
    exact hrows.cells i (List.getElem?_eq_some_iff.mp hs).1 s hs b
  · rw [h4, hrows.accepts, List.take_length]

theorem regex_table_flattened [Fintype σ] {n : Nat} (hstart : dfa.start_state_forward = .ok start)
    (hfit : {s | Reached dfa.next_state start s}.ncard ≤ MAX_STATES ∨
      ∃ t, regex_table dfa n = .ok t) :
    ∃ t state_ids, regex_table dfa n = .ok t ∧ Flattened dfa start state_ids t := by
  obtain ⟨found, t, _, _, htable, h⟩ := search_flattened hstart hfit
  exact ⟨t, found.state_ids, htable, h⟩

end

/-! ## What the table does -/

/-- The state of the table for a state of the DFA. -/
def row_of (state_ids : List σ) (s : σ) : UInt32 := .ofNat (state_ids.idxOf s)

section

variable {dfa : DFA σ} {start s : σ} {state_ids : List σ} {t : TransitionTable}

theorem Flattened.mem_next (h : Flattened dfa start state_ids t) (hs : s ∈ state_ids) (b : UInt8) :
    dfa.next_state s b ∈ state_ids :=
  h.search.mem_iff.mpr ((h.search.mem_iff.mp hs).step b)

theorem Flattened.mem_walk (h : Flattened dfa start state_ids t) (w : List UInt8) :
    w.foldl dfa.next_state start ∈ state_ids :=
  h.search.mem_iff.mpr ⟨w, rfl⟩

theorem Flattened.row_toNat (h : Flattened dfa start state_ids t) (hs : s ∈ state_ids) :
    (row_of state_ids s).toNat = state_ids.idxOf s := by
  have hlt := List.idxOf_lt_length_of_mem hs
  have hn := h.states
  unfold MAX_STATES at hn
  unfold row_of
  rw [u32_toNat (by omega)]

theorem Flattened.row_lt (h : Flattened dfa start state_ids t) (hs : s ∈ state_ids) :
    (row_of state_ids s).toNat < t.state_count := by
  rw [h.row_toNat hs, h.sized.states]
  exact List.idxOf_lt_length_of_mem hs

theorem Flattened.row_start (h : Flattened dfa start state_ids t) : row_of state_ids start = 0 := by
  have hhead := h.search.head
  cases state_ids with
  | nil => cases hhead
  | cons s rest =>
    rw [← Option.some.inj hhead]
    unfold row_of
    rw [List.idxOf_cons_self]
    rfl

/-- One byte leads to the row of the next state. -/
theorem Flattened.next (h : Flattened dfa start state_ids t) (hs : s ∈ state_ids) (b : UInt8) :
    clean_next t (row_of state_ids s) b = row_of state_ids (dfa.next_state s b) := by
  have hcell := h.cells _ s (List.getElem?_idxOf hs) b
  rw [← h.row_toNat hs] at hcell
  rw [h.sized.clean_next hcell]
  exact t.clean_of_state (h.row_lt (h.mem_next hs b))

/-- A text leads to the row of the state that it leads the DFA to. -/
theorem Flattened.walk (h : Flattened dfa start state_ids t) (w : List UInt8) :
    w.foldl (clean_next t) 0 = row_of state_ids (w.foldl dfa.next_state start) := by
  induction w using List.reverseRecOn with
  | nil => exact h.row_start.symm
  | append_singleton w b ih =>
    rw [List.foldl_append, List.foldl_append, ih]
    exact h.next (h.mem_walk w) b

theorem Flattened.row_iff (h : Flattened dfa start state_ids t) (hs : s ∈ state_ids) {k : Nat}
    (hk : k < state_ids.length) :
    UInt32.ofNat k = row_of state_ids s ↔ k = state_ids.idxOf s := by
  have hn := h.states
  unfold MAX_STATES at hn
  have hnat : (UInt32.ofNat k).toNat = k := by
    rw [u32_toNat (by omega)]
  rw [← UInt32.toNat_inj, hnat, h.row_toNat hs]

/-- The accept entries of one row. -/
theorem Flattened.entries_of (h : Flattened dfa start state_ids t) (hs : s ∈ state_ids) :
    t.accept_states.filter (·.1 = row_of state_ids s) = entries dfa s (state_ids.idxOf s) := by
  have hget := List.getElem?_idxOf hs
  have htake : ∀ k ≤ state_ids.length,
      (all_entries dfa (state_ids.take k)).filter (·.1 = row_of state_ids s) =
        if state_ids.idxOf s < k then entries dfa s (state_ids.idxOf s) else [] := by
    intro k
    induction k with
    | zero => intro _; rfl
    | succ k ih =>
      intro hk
      obtain ⟨x, hx⟩ : ∃ x, state_ids[k]? = some x := ⟨_, List.getElem?_eq_getElem (by omega)⟩
      rw [all_entries_take hx, List.filter_append, ih (by omega), entries_filter]
      have hrow := h.row_iff hs hk
      by_cases hks : k = state_ids.idxOf s
      · rw [hks, hget] at hx
        rw [if_neg (by omega), if_pos (hrow.mpr hks), if_pos (by omega), List.nil_append, hks,
          Option.some.inj hx]
      · rw [if_neg fun he => hks (hrow.mp he), List.append_nil]
        by_cases hlt : state_ids.idxOf s < k
        · rw [if_pos hlt, if_pos (by omega)]
        · rw [if_neg hlt, if_neg (by omega)]
  have hall := htake state_ids.length (Nat.le_refl _)
  rw [List.take_length, if_pos (List.idxOf_lt_length_of_mem hs)] at hall
  rw [h.accepts, hall]

/-- Each transition goes to a state, and has no flag. -/
theorem Flattened.target_lt (h : Flattened dfa start state_ids t) {x : UInt32}
    (hx : x ∈ t.transitions) : x.toNat < t.state_count := by
  obtain ⟨i, hi, b, hx⟩ := h.sized.cell_of_mem hx
  have hmem := List.getElem_mem hi
  have hget := List.getElem?_eq_getElem hi
  generalize state_ids[i] = s at hmem hget
  have hcell := h.cells _ s hget b
  rw [hx] at hcell
  rw [Option.some.inj hcell]
  exact h.row_lt (h.mem_next hmem _)

theorem Flattened.targets (h : Flattened dfa start state_ids t) :
    (∀ x ∈ t.transitions, (clean x).toNat < t.state_count) ∧ FlagsAccept t := by
  refine ⟨?_, ?_⟩
  · intro x hx
    rw [t.clean_of_state (h.target_lt hx)]
    exact h.target_lt hx
  · intro x hx hflag
    rw [t.flagged_of_state (h.target_lt hx)] at hflag
    cases hflag

theorem Flattened.entry_lt (h : Flattened dfa start state_ids t) {a : UInt32 × UInt32}
    (ha : a ∈ t.accept_states) : a.1.toNat < t.state_count := by
  rw [h.accepts] at ha
  obtain ⟨i, s, hs, h1, _⟩ := mem_all_entries.mp ha
  have hlt := (List.getElem?_eq_some_iff.mp hs).1
  rw [h1, h.sized.states, UInt32.toNat_ofNat']
  exact Nat.lt_of_le_of_lt (Nat.mod_le _ _) hlt

/-- Whether the table passes the checks of `compile` is up to its accept entries. -/
theorem Flattened.checked_iff (h : Flattened dfa start state_ids t) :
    Checked t [] ↔ (t.accept_states.map (·.1)).Nodup := by
  constructor
  · exact fun hch => hch.valid.one_each
  · intro hnodup
    obtain ⟨htargets, hflags⟩ := h.targets
    refine ⟨⟨?_, htargets, fun a ha => h.entry_lt ha, hnodup, h.room⟩, hflags, ?_, h.sized.bytes,
      Or.inl rfl⟩
    · rw [h.sized.len, h.sized.states, h.sized.bytes]
    · have hlt := h.row_lt (h.mem_walk [])
      omega

end

end dfajit.regex_table
