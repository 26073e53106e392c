-- The states of a regex table are those of the DFA under new names: the search
-- numbers each state that the DFA reaches, and the table goes from number to
-- number as the DFA goes from state to state.
import Dfajit.RegexAccepts

namespace dfajit.regex_states

open error table codegen dfa regex search regex_table regex_accepts

variable {σ : Type} [DecidableEq σ]

/-- The numbers that the search gives. The list and the map of the search agree. -/
structure Numbers (dfa : DFA σ) (start : σ) (found : regex.Search σ) : Prop where
  once : found.state_ids.Nodup
  reached : ∀ s, s ∈ found.state_ids ↔ Reached dfa.next_state start s
  first : found.state_ids[0]? = some start
  agree : ∀ s i, found.state_map.lookup s = some i ↔ found.state_ids[i]? = some s

theorem lookup_iff {state_ids : List σ} {state_map : List (σ × Nat)}
    (hmap : Mapped state_ids state_map) (honce : state_ids.Nodup) (s : σ) (i : Nat) :
    state_map.lookup s = some i ↔ state_ids[i]? = some s := by
  rw [hmap]
  constructor
  · intro h
    split at h
    · rename_i hmem
      rw [← Option.some.inj h]
      exact List.getElem?_idxOf hmem
    · cases h
  · intro h
    obtain ⟨hlt, rfl⟩ := List.getElem?_eq_some_iff.mp h
    rw [if_pos (List.getElem_mem hlt), honce.idxOf_getElem]

theorem numbers_of_found {dfa : DFA σ} {start : σ} {found : regex.Search σ}
    (hmap : Mapped found.state_ids found.state_map)
    (hfront : Frontier dfa.next_state start found.state_ids []) : Numbers dfa start found := by
  refine ⟨hfront.nodup, fun s => hfront.mem_iff, ?_, lookup_iff hmap hfront.nodup⟩
  rw [← List.head?_eq_getElem?]
  exact hfront.head

/-- For each finite DFA that reaches no more states than a table may have, the
search ends with a number for each state that is reached, the table is built
without an error, and after any text the table is in the number of the state that
the DFA is in. -/
theorem the_flattening_renames_the_states_of_the_dfa [Fintype σ] {dfa : DFA σ} {start : σ}
    (pattern_count : Nat) (hstart : dfa.start_state_forward = .ok start)
    (hfit : {s | Reached dfa.next_state start s}.ncard ≤ MAX_STATES) :
    ∃ found t, search_states dfa start = .ok found ∧ Numbers dfa start found ∧
      regex_table dfa pattern_count = .ok t ∧ t.state_count = found.state_ids.length ∧
      ∀ w : List UInt8, found.state_ids[(w.foldl (clean_next t) 0).toNat]? =
        some (w.foldl dfa.next_state start) := by
  obtain ⟨found, t, hsearch, hmap, htable, h⟩ :=
    search_flattened (n := pattern_count) hstart (Or.inl hfit)
  refine ⟨found, t, hsearch, numbers_of_found hmap h.search, htable, h.sized.states, ?_⟩
  intro w
  rw [h.walk w, h.row_toNat (h.mem_walk w)]
  exact List.getElem?_idxOf (h.mem_walk w)

/-- The numbers for the pattern `a`. -/
theorem the_states_of_one_letter_are_renamed :
    ∃ found t, search_states (letter_a false 1) (some (false, false)) = .ok found ∧
      Numbers (letter_a false 1) (some (false, false)) found ∧
      regex_table (letter_a false 1) 1 = .ok t ∧ t.state_count = found.state_ids.length ∧
      ∀ w : List UInt8, found.state_ids[(w.foldl (clean_next t) 0).toNat]? =
        some (w.foldl (letter_a false 1).next_state (some (false, false))) :=
  the_flattening_renames_the_states_of_the_dfa 1 rfl (letter_a_fits false 1)

end dfajit.regex_states
