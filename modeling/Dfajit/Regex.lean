-- Regex patterns (dfa.rs, `from_regex_patterns`): the dense DFA of regex-automata
-- is walked from its start state, and each state that is found gets a row of the
-- table. What regex-automata gives is a parameter.
import Mathlib.Data.Fintype.Card
import Dfajit.Patterns

namespace dfajit.regex

open error table codegen dfa

/-- A pattern id of regex-automata is below `PatternID::LIMIT`. -/
abbrev PatternID := Fin (2 ^ 31 - 1)

/-- What the constructor asks of a dense DFA with the state ids `σ`. -/
structure DFA (σ : Type) where
  /-- The start state of an unanchored search, or the text of an error. -/
  start_state_forward : Except String σ
  next_state : σ → UInt8 → σ
  next_eoi_state : σ → σ
  is_match_state : σ → Bool
  match_len : σ → Nat
  match_pattern : σ → Nat → PatternID

variable {σ : Type} [DecidableEq σ]

/-! ## The search for the states -/

/-- The variables of the search. The index of a state in `state_ids` is its state
in the table. -/
structure Search (σ : Type) where
  state_ids : List σ
  state_map : List (σ × Nat)
  queue : List σ

/-- One byte of the state that was taken from the queue. -/
def search_step (dfa : DFA σ) (state : σ) (search : Search σ) (byte : UInt8) : Search σ :=
  let next := dfa.next_state state byte
  match search.state_map.lookup next with
  | some _ => search
  | none => {
      state_ids := search.state_ids ++ [next]
      state_map := (next, search.state_ids.length) :: search.state_map
      queue := search.queue ++ [next] }

/-- The loop over the queue. No state is put into it twice. -/
def search_loop (dfa : DFA σ) : Nat → Search σ → Res (Search σ)
  | fuel, search =>
    match search.queue with
    | [] => .ok search
    | state :: queue =>
      match fuel with
      | 0 => .error .div
      | fuel + 1 => search_loop dfa fuel (all_bytes.foldl (search_step dfa state) { search with queue })

/-- The search from the start state. A dense DFA holds its states in a table, so
there are finitely many. -/
def search_states [Fintype σ] (dfa : DFA σ) (start_state : σ) : Res (Search σ) :=
  search_loop dfa (Fintype.card σ) {
    state_ids := [start_state]
    state_map := [(start_state, 0)]
    queue := [start_state] }

/-! ## The table -/

/-- One entry of the row of a state. -/
def target_step (dfa : DFA σ) (state_map : List (σ × Nat)) (state : σ) (state_index : Nat)
    (table : TransitionTable) (byte : UInt8) : Res TransitionTable :=
  match state_map.lookup (dfa.next_state state byte) with
  | some next_index => .ok (table.set_transition .w64 state_index byte (.ofNat next_index))
  | none => invalid s!"regex DFA transition to undiscovered state on byte {byte}"

/-- One match of an end-of-input state. -/
def match_step (dfa : DFA σ) (eoi_state : σ) (state_index : Nat) (table : TransitionTable)
    (match_index : Nat) : TransitionTable :=
  let pattern_id := UInt32.ofNat (dfa.match_pattern eoi_state match_index).val
  if table.accept_states.any fun (state, pid) =>
      state == .ofNat state_index && pid == pattern_id then table
  else table.add_accept (.ofNat state_index) pattern_id

def state_step (dfa : DFA σ) (state_map : List (σ × Nat)) (table : TransitionTable)
    (entry : σ × Nat) : Res TransitionTable := do
  let (state, state_index) := entry
  let table ← all_bytes.foldlM (target_step dfa state_map state state_index) table
  let eoi_state := dfa.next_eoi_state state
  if dfa.is_match_state eoi_state then
    .ok ((List.range (dfa.match_len eoi_state)).foldl (match_step dfa eoi_state state_index) table)
  else .ok table

/-- The table of the states that the search finds, for so many patterns. -/
def regex_table [Fintype σ] (dfa : DFA σ) (pattern_count : Nat) : Res TransitionTable := do
  match dfa.start_state_forward with
  | .error error => invalid s!"failed to compute regex DFA start state: {error}"
  | .ok start_state => do
    let search ← search_states dfa start_state
    let table ← TransitionTable.new .w64 search.state_ids.length 256
    let table ← search.state_ids.zipIdx.foldlM (state_step dfa search.state_map) table
    .ok ((List.range pattern_count).foldl
      (fun table pattern_id => table.set_pattern_length (.ofNat pattern_id) 0) table)

/-! ## The constructor -/

/-- `build_many` is the builder of regex-automata, with the configuration that
the code gives it: the DFA of the patterns, or the text of an error. -/
def from_regex_patterns [Fintype σ] (build_many : List String → Except String (DFA σ))
    (os : Os) (patterns : List String) : Res JitDfa :=
  if patterns.isEmpty then .error (.err .EmptyDfa)
  else
    match build_many patterns with
    | .error error => invalid s!"failed to compile regex patterns with regex-automata: {error}"
    | .ok dfa => do
      let table ← regex_table dfa patterns.length
      JitDfa.compile os table

end dfajit.regex
