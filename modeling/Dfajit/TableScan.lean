-- What a table and its output links mean: a scanner over states, which
-- reports the pattern of each state on the chain of output links. The
-- interpreter computes the events of this scanner, for every input and buffer.
import Mathlib.Data.List.Induction
import Mathlib.Data.List.Nodup
import Mathlib.Data.List.Perm.Subperm
import Dfajit.Lib.ResetRun
import Dfajit.Codegen

namespace dfajit.table_scan

open error table codegen reset_run

/-! ## The accept table -/

/-- The pattern of a state, or `NONE`. -/
def pattern_of (t : TransitionTable) (s : UInt32) : UInt32 :=
  ((accept_table t.state_count t.accept_states)[s.toNat]?).getD NONE

theorem accept_table_snoc (n : Nat) (as : List (UInt32 × UInt32)) (a : UInt32 × UInt32) :
    accept_table n (as ++ [a]) =
      if a.1.toNat < n then (accept_table n as).set a.1.toNat a.2 else accept_table n as := by
  have h := accept_table_length n as
  unfold accept_table at h ⊢
  rw [List.foldl_append, List.foldl_cons, List.foldl_nil, h]

/-- A state has a pattern only by an accept entry. -/
theorem accept_table_mem {n : Nat} {as : List (UInt32 × UInt32)} {s : UInt32} {pid : UInt32}
    (h : (accept_table n as)[s.toNat]? = some pid) (hp : pid ≠ NONE) : (s, pid) ∈ as := by
  induction as using List.reverseRecOn with
  | nil =>
    rw [accept_table, List.foldl_nil, List.getElem?_replicate] at h
    split at h
    · exact absurd (Option.some.inj h).symm hp
    · cases h
  | append_singleton as a ih =>
    rw [accept_table_snoc] at h
    split at h
    · rw [List.getElem?_set] at h
      split at h
      · rename_i hs
        split at h
        · have h1 : a.1 = s := UInt32.toNat_inj.mp hs
          have h2 : a.2 = pid := Option.some.inj h
          simp [← h1, ← h2]
        · cases h
      · exact List.mem_append_left _ (ih h)
    · exact List.mem_append_left _ (ih h)

/-- Where no state has two entries, each entry stands in the accept table. -/
theorem accept_table_of_mem {n : Nat} {as : List (UInt32 × UInt32)} {s : UInt32} {pid : UInt32}
    (hn : (as.map (·.1)).Nodup) (h : (s, pid) ∈ as) (hs : s.toNat < n) :
    (accept_table n as)[s.toNat]? = some pid := by
  induction as using List.reverseRecOn with
  | nil => cases h
  | append_singleton as a ih =>
    rw [List.map_append, List.map_singleton, List.nodup_append] at hn
    obtain ⟨hn, _, hne⟩ := hn
    rw [accept_table_snoc]
    rcases List.mem_append.mp h with h | h
    · have hsa : a.1.toNat ≠ s.toNat := by
        intro he
        exact hne s (List.mem_map.mpr ⟨_, h, rfl⟩) a.1 (by simp) (UInt32.toNat_inj.mp he.symm)
      split
      · rw [List.getElem?_set_ne hsa]
        exact ih hn h
      · exact ih hn h
    · obtain rfl : (s, pid) = a := by simpa using h
      rw [if_pos hs, List.getElem?_set_self (by simpa using hs)]

/-! ## Chains of output links -/

/-- The states from `s` along the output links, up to the state with no link. -/
inductive Chain (links : List UInt32) : UInt32 → List UInt32 → Prop
  | nil : Chain links NONE []
  | cons {s : UInt32} {l : List UInt32} :
      s ≠ NONE → Chain links (next_output links s) l → Chain links s (s :: l)

theorem Chain.unique {links : List UInt32} {s : UInt32} {l m : List UInt32}
    (h : Chain links s l) (h' : Chain links s m) : l = m := by
  induction h generalizing m with
  | nil =>
    cases h' with
    | nil => rfl
    | cons hne _ => exact absurd rfl hne
  | cons hne _ ih =>
    cases h' with
    | nil => exact absurd rfl hne
    | cons _ hm => rw [ih hm]

/-- From each state on a chain the rest of it is a chain too. -/
theorem Chain.suffix {links : List UInt32} {s x : UInt32} {l : List UInt32}
    (h : Chain links s l) (hx : x ∈ l) : ∃ m, Chain links x m ∧ m.length ≤ l.length := by
  induction h with
  | nil => cases hx
  | @cons s l hne hl ih =>
    rcases List.mem_cons.mp hx with rfl | hx
    · exact ⟨_, .cons hne hl, Nat.le_refl _⟩
    · obtain ⟨m, hm, hle⟩ := ih hx
      exact ⟨m, hm, by simp only [List.length_cons]; omega⟩

/-- A chain that ends goes through no state twice. -/
theorem Chain.nodup {links : List UInt32} {s : UInt32} {l : List UInt32} (h : Chain links s l) :
    l.Nodup := by
  induction h with
  | nil => exact List.nodup_nil
  | @cons s l hne hl ih =>
    rw [List.nodup_cons]
    refine ⟨fun hmem => ?_, ih⟩
    obtain ⟨m, hm, hle⟩ := hl.suffix hmem
    have heq : s :: l = m := (Chain.cons hne hl).unique hm
    rw [← heq, List.length_cons] at hle
    omega

/-- All states of a chain but the last have a link. -/
theorem Chain.lt_of_mem {links : List UInt32} {s : UInt32} {l : List UInt32}
    (h : Chain links s l) : ∀ x ∈ l.dropLast, x.toNat < links.length := by
  induction h with
  | nil => intro x hx; cases hx
  | @cons s l hne hl ih =>
    intro x hx
    generalize hs' : next_output links s = s' at hl ih
    cases hl with
    | nil => cases hx
    | cons hne' _ =>
      rcases List.mem_cons.mp hx with rfl | hx
      · unfold next_output at hs'
        by_contra hge
        rw [List.getElem?_eq_none (by omega)] at hs'
        exact hne' hs'.symm
      · exact ih x hx

/-- So a chain has at most one state more than there are links. -/
theorem Chain.length_le {links : List UInt32} {s : UInt32} {l : List UInt32}
    (h : Chain links s l) : l.length ≤ links.length + 1 := by
  have hnodup : (l.dropLast.map UInt32.toNat).Nodup := by
    apply List.Nodup.map (fun a b hab => UInt32.toNat_inj.mp hab)
    exact h.nodup.sublist (List.dropLast_sublist l)
  have hsub : l.dropLast.map UInt32.toNat ⊆ List.range links.length := by
    intro x hx
    obtain ⟨y, hy, rfl⟩ := List.mem_map.mp hx
    exact List.mem_range.mpr (h.lt_of_mem y hy)
  have hle := (List.subperm_of_subset hnodup hsub).length_le
  rw [List.length_map, List.length_dropLast, List.length_range] at hle
  omega

/-- The states of the chain, read off in the way the scanners do. -/
def outputs (links : List UInt32) : Nat → UInt32 → List UInt32
  | 0, _ => []
  | fuel + 1, s => if s = NONE then [] else s :: outputs links fuel (next_output links s)

theorem Chain.outputs_eq {links : List UInt32} {s : UInt32} {l : List UInt32}
    (h : Chain links s l) (fuel : Nat) (hf : l.length < fuel) : outputs links fuel s = l := by
  induction h generalizing fuel with
  | nil =>
    cases fuel with
    | zero => rfl
    | succ fuel => exact if_pos rfl
  | @cons s l hne _ ih =>
    obtain ⟨k, rfl⟩ : ∃ k, fuel = k + 1 := ⟨fuel - 1, by omega⟩
    rw [outputs, if_neg hne, ih k (by simpa using hf)]

/-- A link beyond the end of the table is no link, so filling the table up with
`NONE` changes no chain. -/
theorem next_output_link_table (n : Nat) (links : List UInt32) (s : UInt32) :
    next_output (link_table n links) s = next_output links s := by
  unfold next_output link_table
  split
  · unfold TransitionTable.resize
    rw [List.take_of_length_le (by omega), List.getElem?_append]
    split
    · rfl
    · rename_i hge
      rw [List.getElem?_replicate, List.getElem?_eq_none (l := links) (by omega)]
      split <;> rfl
  · rfl

theorem chain_link_table {n : Nat} {links : List UInt32} {s : UInt32} {l : List UInt32} :
    Chain (link_table n links) s l ↔ Chain links s l := by
  constructor
  · intro h
    induction h with
    | nil => exact .nil
    | cons hne _ ih => exact .cons hne (by rwa [next_output_link_table] at ih)
  · intro h
    induction h with
    | nil => exact .nil
    | cons hne _ ih => exact .cons hne (by rwa [next_output_link_table])

/-! ## The scanner of a table -/

/-- A state of the table whose entry of the accept table is the number of a
pattern length. -/
def Entered (t : TransitionTable) (s : UInt32) : Prop :=
  s.toNat < t.state_count ∧ (pattern_of t s).toNat < t.pattern_lengths.length

/-- What the compiler promises of a table and its links: the parts agree, each
byte has its own column, and from each state with a pattern the links lead
through entered states to an end. -/
structure Linked (t : TransitionTable) (links : List UInt32) : Prop where
  valid : t.Valid
  bytes : t.class_count = 256
  some_state : 0 < t.state_count
  ends : ∀ s, pattern_of t s ≠ NONE →
    ∃ l, Chain links s l ∧ ∀ x ∈ l, Entered t x

/-- The patterns of a state: its own, and those along its chain of links. -/
def reports (t : TransitionTable) (links : List UInt32) (s : UInt32) : List UInt32 :=
  if pattern_of t s = NONE then []
  else (outputs links (links.length + 2) s).map (pattern_of t)

def scanner (t : TransitionTable) (links : List UInt32) : Scanner UInt32 UInt8 UInt32 where
  start := 0
  next := clean_next t
  out := reports t links

@[simp] theorem scanner_start (t : TransitionTable) (links : List UInt32) :
    (scanner t links).start = 0 := rfl

@[simp] theorem scanner_next (t : TransitionTable) (links : List UInt32) :
    (scanner t links).next = clean_next t := rfl

@[simp] theorem scanner_out (t : TransitionTable) (links : List UInt32) :
    (scanner t links).out = reports t links := rfl

/-- The matches of the events. -/
def matchesOf (t : TransitionTable) (evs : List (UInt32 × Nat)) : List Match :=
  evs.map fun e => match_at t.pattern_lengths e.1 (e.2 - 1)

/-- The matches that a scan finds, whatever the buffer. -/
def found (t : TransitionTable) (links : List UInt32) (input : List UInt8) : List Match :=
  matchesOf t ((scanner t links).events input)

@[simp] theorem matchesOf_length (t : TransitionTable) (evs : List (UInt32 × Nat)) :
    (matchesOf t evs).length = evs.length := List.length_map _

theorem pattern_of_lt {t : TransitionTable} {s : UInt32} (h : pattern_of t s ≠ NONE) :
    s.toNat < t.state_count := by
  by_contra hge
  apply h
  unfold pattern_of
  rw [List.getElem?_eq_none (by simpa using hge)]
  rfl

theorem accept_table_get {t : TransitionTable} {s : UInt32} (h : s.toNat < t.state_count) :
    (accept_table t.state_count t.accept_states)[s.toNat]? = some (pattern_of t s) := by
  unfold pattern_of
  rw [List.getElem?_eq_getElem (by simpa using h)]
  rfl

theorem pattern_of_mem {t : TransitionTable} {s : UInt32} (h : pattern_of t s ≠ NONE) :
    (s, pattern_of t s) ∈ t.accept_states :=
  accept_table_mem (accept_table_get (pattern_of_lt h)) h

theorem reports_eq {t : TransitionTable} {links : List UInt32} {s : UInt32} {l : List UInt32}
    (hs : pattern_of t s ≠ NONE) (hl : Chain links s l) : reports t links s = l.map (pattern_of t) := by
  have hlen := hl.length_le
  rw [reports, if_neg hs, hl.outputs_eq _ (by omega)]

theorem ne_none_of_pattern {t : TransitionTable} {s : UInt32} (h : pattern_of t s ≠ NONE) :
    s ≠ NONE :=
  t.ne_none_of_state (pattern_of_lt h)

/-- A state with a pattern reports something, and only such a state does. -/
theorem reports_nil_iff {t : TransitionTable} {links : List UInt32} {s : UInt32} :
    reports t links s = [] ↔ pattern_of t s = NONE := by
  constructor
  · intro h
    by_contra hne
    rw [reports, if_neg hne, outputs, if_neg (ne_none_of_pattern hne), List.map_cons] at h
    cases h
  · intro h
    exact if_pos h

section

variable {t : TransitionTable} {links : List UInt32}

theorem Linked.index_lt (h : Linked t links) {s : UInt32} (hs : s.toNat < t.state_count)
    (b : UInt8) : s.toNat * t.class_count + b.toNat < t.transitions.length := by
  rw [h.valid.len]
  exact place_lt hs (by rw [h.bytes]; exact b.toNat_lt)

theorem Linked.next_lt (h : Linked t links) {s : UInt32} (hs : s.toNat < t.state_count)
    (b : UInt8) : (clean_next t s b).toNat < t.state_count := by
  unfold clean_next
  simp only
  rw [List.getElem?_eq_getElem (h.index_lt hs b)]
  exact h.valid.targets _ (List.getElem_mem _)

theorem entered_of_pattern (hv : t.Valid) {s : UInt32} (hs : pattern_of t s ≠ NONE) :
    Entered t s :=
  ⟨pattern_of_lt hs, hv.lengths _ (pattern_of_mem hs)⟩

end

/-! ## Filling the match buffer -/

/-- The buffer after the matches were written into it, one slot each. `pad`
says what becomes of the padding of a slot. -/
def fill (pad : UInt32 → UInt32) : List Match → List Match → List Match
  | slot :: slots, m :: ms => { m with padding := pad slot.padding } :: fill pad slots ms
  | slots, _ => slots

@[simp] theorem fill_nil (pad : UInt32 → UInt32) (slots : List Match) : fill pad slots [] = slots := by
  cases slots <;> rfl

@[simp] theorem fill_length (pad : UInt32 → UInt32) (slots ms : List Match) :
    (fill pad slots ms).length = slots.length := by
  induction slots generalizing ms with
  | nil => cases ms <;> rfl
  | cons s slots ih =>
    cases ms with
    | nil => rfl
    | cons m ms => simp [fill, ih]

/-- One more match goes into the slot after those before it, if there is one. -/
theorem fill_snoc (pad : UInt32 → UInt32) (slots ms : List Match) (m : Match) :
    fill pad slots (ms ++ [m]) = match slots[ms.length]? with
      | some slot => (fill pad slots ms).set ms.length { m with padding := pad slot.padding }
      | none => fill pad slots ms := by
  induction slots generalizing ms with
  | nil => cases ms <;> rfl
  | cons s slots ih =>
    cases ms with
    | nil => simp [fill]
    | cons x ms =>
      simp only [List.cons_append, fill, List.length_cons, List.getElem?_cons_succ, ih]
      split <;> rfl

/-- The slots after the matches are as they were. -/
theorem fill_get_rest (pad : UInt32 → UInt32) (slots ms : List Match) :
    (fill pad slots ms)[ms.length]? = slots[ms.length]? := by
  induction slots generalizing ms with
  | nil => cases ms <;> rfl
  | cons s slots ih =>
    cases ms with
    | nil => rfl
    | cons m ms => simp only [fill, List.length_cons, List.getElem?_cons_succ, ih]

/-- What was written does not depend on the padding. -/
theorem fill_key (pad pad' : UInt32 → UInt32) (slots ms : List Match) :
    (fill pad slots ms).map Match.key = (fill pad' slots ms).map Match.key := by
  induction slots generalizing ms with
  | nil => cases ms <;> rfl
  | cons s slots ih =>
    cases ms with
    | nil => rfl
    | cons m ms => simp only [fill, List.map_cons, ih, Match.key]

/-- The slots that were written hold the matches in their order. -/
theorem fill_take (pad : UInt32 → UInt32) (slots ms : List Match) :
    ((fill pad slots ms).take (min ms.length slots.length)).map Match.key =
      (ms.map Match.key).take slots.length := by
  induction slots generalizing ms with
  | nil => cases ms <;> simp
  | cons s slots ih =>
    cases ms with
    | nil => simp
    | cons m ms =>
      simp only [fill, List.length_cons, Nat.add_min_add_right, List.take_succ_cons, List.map_cons,
        ih, Match.key]

/-- The interpreter writes whole matches, with no padding. -/
def zeroed : UInt32 → UInt32 := fun _ => 0

theorem write_match_fill (slots ms : List Match) (m : Match) (hm : m.padding = 0) :
    write_match (fill zeroed slots ms) ms.length m = fill zeroed slots (ms ++ [m]) := by
  unfold write_match
  rw [fill_snoc, fill_length]
  split
  · rename_i hlt
    rw [List.getElem?_eq_getElem hlt]
    cases m with
    | mk a b c d => simp_all [zeroed]
  · rename_i hge
    rw [List.getElem?_eq_none (by omega)]

/-! ## The loops of the interpreter -/

theorem count_outputs_eq {links l : List UInt32} {s : UInt32} (h : Chain links s l)
    (fuel count : Nat) (hf : l.length ≤ fuel) :
    count_outputs links fuel s count = .ok (count + l.length) := by
  induction h generalizing fuel count with
  | nil => cases fuel <;> simp [count_outputs]
  | @cons s l hne _ ih =>
    obtain ⟨k, rfl⟩ : ∃ k, fuel = k + 1 := ⟨fuel - 1, by simp at hf; omega⟩
    rw [count_outputs, if_neg hne, ih k _ (by simpa using hf), List.length_cons]
    congr 1
    omega

theorem follow_outputs_eq {accept links lens l : List UInt32} {s : UInt32} (pid : UInt32 → UInt32)
    (h : Chain links s l) (hp : ∀ x ∈ l, accept[x.toNat]? = some (pid x)) (pos fuel : Nat)
    (slots ms : List Match) (hf : l.length ≤ fuel) :
    follow_outputs accept links lens pos fuel s ms.length (fill zeroed slots ms) =
      .ok (ms.length + l.length,
        fill zeroed slots (ms ++ l.map fun x => match_at lens (pid x) pos)) := by
  induction h generalizing fuel ms with
  | nil => cases fuel <;> simp [follow_outputs]
  | @cons s l hne _ ih =>
    obtain ⟨k, rfl⟩ : ∃ k, fuel = k + 1 := ⟨fuel - 1, by simp at hf; omega⟩
    rw [List.forall_mem_cons] at hp
    have h1 := ih hp.2 k (ms ++ [match_at lens (pid s) pos]) (by simpa using hf)
    rw [List.length_append, List.length_singleton] at h1
    rw [follow_outputs, if_neg hne, index_ok hp.1, ok_bind]
    simp only
    rw [write_match_fill _ _ _ rfl, h1]
    simp only [List.length_cons, List.map_cons, List.append_assoc, List.singleton_append]
    congr 2
    omega

/-- The loop over a chain of states that the accept table has comes to the end of
the chain. -/
theorem follow_outputs_ends {accept links l : List UInt32} {s : UInt32} (h : Chain links s l)
    (hin : ∀ x ∈ l, x.toNat < accept.length) (lens : List UInt32) (pos fuel count : Nat)
    (slots : List Match) (hf : l.length ≤ fuel) :
    ∃ written, follow_outputs accept links lens pos fuel s count slots =
      .ok (count + l.length, written) := by
  induction h generalizing fuel count slots with
  | nil => exact ⟨slots, by cases fuel <;> simp [follow_outputs]⟩
  | @cons s l hne _ ih =>
    obtain ⟨k, rfl⟩ : ∃ k, fuel = k + 1 := ⟨fuel - 1, by simp at hf; omega⟩
    rw [List.forall_mem_cons] at hin
    have hget := List.getElem?_eq_getElem hin.1
    obtain ⟨written, hrun⟩ := ih hin.2 k (count + 1)
      (write_match slots count (match_at lens accept[s.toNat] pos)) (by simpa using hf)
    refine ⟨written, ?_⟩
    rw [follow_outputs, if_neg hne, index_ok hget, ok_bind]
    simp only
    rw [hrun, List.length_cons]
    congr 2
    omega

section

variable {t : TransitionTable} {links links' : List UInt32} {s : UInt32}

/-- The loop over the output links writes the reports of the state, also where
the links were filled up. -/
theorem follow_reports (h : Linked t links) (hs : pattern_of t s ≠ NONE)
    (hsame : ∀ l, Chain links s l → Chain links' s l) (pos : Nat) (slots ms : List Match) :
    follow_outputs (accept_table t.state_count t.accept_states) links' t.pattern_lengths pos
        (links'.length + 2) s ms.length (fill zeroed slots ms) =
      .ok (ms.length + (reports t links s).length,
        fill zeroed slots (ms ++ (reports t links s).map (match_at t.pattern_lengths · pos))) := by
  obtain ⟨l, hl, hall⟩ := h.ends _ hs
  have hlen := (hsame l hl).length_le
  rw [follow_outputs_eq (pattern_of t) (hsame l hl)
    (fun x hx => accept_table_get (hall x hx).1) pos _ slots ms (by omega),
    reports_eq hs hl, List.length_map, List.map_map]
  rfl

theorem count_reports (h : Linked t links) (hs : pattern_of t s ≠ NONE)
    (hsame : ∀ l, Chain links s l → Chain links' s l) (count : Nat) :
    count_outputs links' (links'.length + 2) s count =
      .ok (count + (reports t links s).length) := by
  obtain ⟨l, hl, _⟩ := h.ends _ hs
  have hlen := (hsame l hl).length_le
  rw [count_outputs_eq (hsame l hl) _ _ (by omega), reports_eq hs hl, List.length_map]

/-- The events after one more byte: the reports of the state it leads to, and
then the rest, from the start if there was a report. -/
theorem events_step (s : UInt32) (pos : Nat) (b : UInt8) (input : List UInt8) :
    (scanner t links).eventsFrom s pos (b :: input) =
      (reports t links (clean_next t s b)).map (·, pos + 1) ++
        (scanner t links).eventsFrom
          (if pattern_of t (clean_next t s b) = NONE then clean_next t s b else 0) (pos + 1)
          input := by
  by_cases hnone : pattern_of t (clean_next t s b) = NONE
  · have hq : reports t links (clean_next t s b) = [] := reports_nil_iff.mpr hnone
    rw [Scanner.eventsFrom_quiet hq, hq, if_pos hnone]
    rfl
  · have hhit : reports t links (clean_next t s b) ≠ [] := mt reports_nil_iff.mp hnone
    rw [Scanner.eventsFrom_hit hhit, if_neg hnone]
    rfl

theorem matchesOf_step (pids : List UInt32) (pos : Nat) (evs : List (UInt32 × Nat)) :
    matchesOf t (pids.map (·, pos + 1) ++ evs) =
      pids.map (match_at t.pattern_lengths · pos) ++ matchesOf t evs := by
  unfold matchesOf
  rw [List.map_append, List.map_map]
  rfl

end

/-- The buffer holds the table, with its accept table and links in full. -/
structure Interprets (code : ExecutableBuffer) (t : TransitionTable) (links : List UInt32) :
    Prop where
  table : code.table = some t
  accept : code.accept_pattern = accept_table t.state_count t.accept_states
  output : code.output_links = link_table t.state_count links

section

variable {code : ExecutableBuffer} {t : TransitionTable} {links : List UInt32}

theorem Interprets.pattern (hi : Interprets code t links) (s : UInt32) :
    (code.accept_pattern[s.toNat]?).getD NONE = pattern_of t s := by
  rw [hi.accept]
  rfl

theorem scan_loop_eq (h : Linked t links) (hi : Interprets code t links) (slots ms : List Match)
    (s : UInt32) (pos : Nat) (input : List UInt8) :
    code.scan_loop t s ms.length (fill zeroed slots ms) pos input =
      .ok (ms.length + ((scanner t links).eventsFrom s pos input).length,
        fill zeroed slots (ms ++ matchesOf t ((scanner t links).eventsFrom s pos input))) := by
  induction input generalizing s pos ms with
  | nil => simp [ExecutableBuffer.scan_loop, Scanner.eventsFrom, matchesOf]
  | cons b input ih =>
    unfold ExecutableBuffer.scan_loop
    simp only [hi.pattern, hi.output]
    rw [events_step, matchesOf_step]
    by_cases hs : pattern_of t (clean_next t s b) = NONE
    · rw [if_pos hs, if_pos hs, ih, reports_nil_iff.mpr hs]
      rfl
    · rw [if_neg hs, if_neg hs, hi.accept,
        follow_reports h hs (fun _ => chain_link_table.mpr), ok_bind]
      have h1 := ih (ms ++ (reports t links (clean_next t s b)).map
        (match_at t.pattern_lengths · pos)) 0 (pos + 1)
      rw [List.length_append, List.length_map] at h1
      simp only [h1, List.length_append, List.length_map, List.append_assoc, Nat.add_assoc]

theorem scan_count_loop_eq (h : Linked t links) (hi : Interprets code t links)
    (s : UInt32) (pos count : Nat) (input : List UInt8) :
    code.scan_count_loop t s count input =
      .ok (count + ((scanner t links).eventsFrom s pos input).length) := by
  induction input generalizing s pos count with
  | nil => rfl
  | cons b input ih =>
    unfold ExecutableBuffer.scan_count_loop
    simp only [hi.pattern, hi.output]
    rw [events_step]
    by_cases hs : pattern_of t (clean_next t s b) = NONE
    · rw [if_pos hs, if_pos hs, ih _ (pos + 1), reports_nil_iff.mpr hs]
      rfl
    · rw [if_neg hs, if_neg hs, count_reports h hs (fun _ => chain_link_table.mpr), ok_bind,
        ih 0 (pos + 1), List.length_append, List.length_map, Nat.add_assoc]

/-- The interpreter finds what the scanner of the table reports. -/
theorem scan_interpreted_eq (h : Linked t links) (hi : Interprets code t links)
    (input : List UInt8) (slots : List Match) :
    code.scan_interpreted input slots =
      .ok (min (found t links input).length slots.length,
        fill zeroed slots (found t links input)) := by
  have h1 := scan_loop_eq h hi slots [] 0 0 input
  rw [fill_nil, List.length_nil, Nat.zero_add, List.nil_append] at h1
  unfold ExecutableBuffer.scan_interpreted
  rw [hi.table]
  simp only
  rw [h1, ok_bind]
  simp only [found, Scanner.events, scanner_start, matchesOf_length]

theorem scan_count_interpreted_eq (h : Linked t links) (hi : Interprets code t links)
    (input : List UInt8) :
    code.scan_count_interpreted input = .ok (found t links input).length := by
  unfold ExecutableBuffer.scan_count_interpreted
  rw [hi.table]
  simp only
  rw [scan_count_loop_eq h hi 0 0 0 input, Nat.zero_add]
  simp only [found, Scanner.events, scanner_start, matchesOf_length]

end

end dfajit.table_scan
