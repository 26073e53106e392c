-- Literal patterns (dfa.rs, `from_patterns`): the trie of the patterns, its
-- failure links and output links, and the table with a target for every byte.
import Dfajit.Dfa

namespace dfajit.dfa

open error table codegen

/-- The 256 targets of a state in the trie. -/
abbrev Row := UInt8 → UInt32

def no_targets : Row := fun _ => 0

/-- `trans[state][byte]`. -/
def lookup (trans : List Row) (state : UInt32) (byte : UInt8) : Res UInt32 := do
  let row ← index trans state.toNat
  .ok (row byte)

/-- `trans[state][byte] = next`. -/
def set_target (trans : List Row) (state : UInt32) (byte : UInt8) (next : UInt32) :
    Res (List Row) := do
  let row ← index trans state.toNat
  .ok (trans.set state.toNat fun b => if b = byte then next else row b)

/-- All bytes in their order, as in `0..=255u8`. -/
def all_bytes : List UInt8 := (List.range 256).map UInt8.ofNat

/-! ## The trie -/

/-- The variables of the loop over the patterns. -/
structure Trie where
  state_count : Nat
  trans : List Row
  accepts : List (UInt32 × UInt32)
  lengths : List UInt32

/-- The walk along one pattern, which adds the states that it misses. -/
def insert_bytes (state_count : Nat) (trans : List Row) (current : UInt32) :
    List UInt8 → Res (Nat × List Row × UInt32)
  | [] => .ok (state_count, trans, current)
  | byte :: rest => do
    let next ← lookup trans current byte
    if next = 0 then
      let new_state := UInt32.ofNat state_count
      let trans ← set_target (trans ++ [no_targets]) current byte new_state
      insert_bytes (state_count + 1) trans new_state rest
    else insert_bytes state_count trans next rest

def insert_pattern (trie : Trie) (pid : Nat) (pattern : List UInt8) : Res Trie :=
  if pattern.isEmpty then .ok trie
  else do
    let (state_count, rows, current) ← insert_bytes trie.state_count trie.trans 0 pattern
    let lengths ← set_index trie.lengths pid (.ofNat pattern.length)
    .ok {
      state_count
      trans := rows
      accepts := trie.accepts ++ [(current, .ofNat pid)]
      lengths }

def insert_patterns : Trie → Nat → List (List UInt8) → Res Trie
  | trie, _, [] => .ok trie
  | trie, pid, pattern :: rest => do
    let trie ← insert_pattern trie pid pattern
    insert_patterns trie (pid + 1) rest

def build_trie (patterns : List (List UInt8)) : Res Trie :=
  insert_patterns {
    state_count := 1
    trans := [no_targets]
    accepts := []
    lengths := List.replicate patterns.length 0 } 0 patterns

/-! ## Failure links -/

/-- `while f != 0 && trans[f][byte] == 0 { f = fail[f] }`. -/
def follow_fail (trans : List Row) (fail : List UInt32) (byte : UInt8) :
    Nat → UInt32 → Res UInt32
  | fuel, f =>
    if f = 0 then .ok f
    else do
      let next ← lookup trans f byte
      if next ≠ 0 then .ok f
      else
        match fuel with
        | 0 => .error .div
        | fuel + 1 => do
          let f ← index fail f.toNat
          follow_fail trans fail byte fuel f

/-- The states that follow the start state, each with the start state as its
failure link. -/
def root_step (trans : List Row) (work : List UInt32 × List UInt32) (byte : UInt8) :
    Res (List UInt32 × List UInt32) := do
  let (queue, fail) := work
  let next ← lookup trans 0 byte
  if next ≠ 0 then
    let fail ← set_index fail next.toNat 0
    .ok (queue ++ [next], fail)
  else .ok (queue, fail)

/-- One byte of the state that was taken from the queue. -/
def queue_step (trans : List Row) (state : UInt32) (work : List UInt32 × List UInt32)
    (byte : UInt8) : Res (List UInt32 × List UInt32) := do
  let (queue, fail) := work
  let next ← lookup trans state byte
  if next ≠ 0 then
    let queue := queue ++ [next]
    let f ← index fail state.toNat
    let f ← follow_fail trans fail byte trans.length f
    let n_fail ← lookup trans f byte
    let fail ← set_index fail next.toNat n_fail
    .ok (queue, fail)
  else .ok (queue, fail)

/-- The loop over the queue. No state of a trie is put into it twice. -/
def queue_loop (trans : List Row) : Nat → List UInt32 → List UInt32 → Res (List UInt32)
  | _, [], fail => .ok fail
  | 0, _ :: _, _ => .error .div
  | fuel + 1, state :: queue, fail => do
    let (queue, fail) ← all_bytes.foldlM (queue_step trans state) (queue, fail)
    queue_loop trans fuel queue fail

/-- The nearest state with a pattern on the way along the failure links. -/
def nearest (acc_state : List (List UInt32)) (fail : List UInt32) :
    Nat → UInt32 → Res (Option UInt32)
  | fuel, f =>
    if f = 0 then .ok none
    else do
      let pids ← index acc_state f.toNat
      if pids ≠ [] then .ok (some f)
      else
        match fuel with
        | 0 => .error .div
        | fuel + 1 => do
          let f ← index fail f.toNat
          nearest acc_state fail fuel f

def push_accept (acc_state : List (List UInt32)) (accept : UInt32 × UInt32) :
    Res (List (List UInt32)) := do
  let pids ← index acc_state accept.1.toNat
  set_index acc_state accept.1.toNat (pids ++ [accept.2])

/-- The output link of a state with a pattern. -/
def link_step (acc_state : List (List UInt32)) (fail : List UInt32) (output_link : List UInt32)
    (state : Nat) : Res (List UInt32) := do
  let pids ← index acc_state state
  if pids = [] then .ok output_link
  else do
    let f ← index fail state
    match ← nearest acc_state fail fail.length f with
    | some f => set_index output_link state f
    | none => .ok output_link

/-- A state without a pattern takes the first one of the nearest state. -/
def inherit_step (fail : List UInt32) (acc_state : List (List UInt32)) (state : Nat) :
    Res (List (List UInt32)) := do
  let pids ← index acc_state state
  if pids = [] then do
    let f ← index fail state
    match ← nearest acc_state fail fail.length f with
    | some f => do
      let found ← index acc_state f.toNat
      let pid ← index found 0
      set_index acc_state state (pids ++ [pid])
    | none => .ok acc_state
  else .ok acc_state

/-- The first pattern of each state that has one. -/
def final_accepts : Nat → List (List UInt32) → List (UInt32 × UInt32)
  | _, [] => []
  | state, pids :: rest =>
    match pids with
    | [] => final_accepts (state + 1) rest
    | pid :: _ => (.ofNat state, pid) :: final_accepts (state + 1) rest

def build_failure_links (trans : List Row) (accepts : List (UInt32 × UInt32)) :
    Res (List UInt32 × List (UInt32 × UInt32) × List UInt32) := do
  let state_count := trans.length
  let acc_state ← accepts.foldlM push_accept (List.replicate state_count [])
  let (queue, fail) ← all_bytes.foldlM (root_step trans) ([], List.replicate state_count 0)
  let fail ← queue_loop trans trans.length queue fail
  let output_link ← (List.range state_count).foldlM (link_step acc_state fail)
    (List.replicate state_count NONE)
  let acc_state ← (List.range state_count).foldlM (inherit_step fail) acc_state
  .ok (fail, final_accepts 0 acc_state, output_link)

/-! ## The dense table -/

/-- The target of a state on a byte, by the failure links where the trie has none. -/
def dense_target (trans : List Row) (fail : List UInt32) (byte : UInt8) :
    Nat → UInt32 → Res UInt32
  | fuel, current => do
    let next ← lookup trans current byte
    if next ≠ 0 ∨ current = 0 then .ok next
    else
      match fuel with
      | 0 => .error .div
      | fuel + 1 => do
        let current ← index fail current.toNat
        dense_target trans fail byte fuel current

def dense_step (trans : List Row) (fail : List UInt32) (table : TransitionTable)
    (place : Nat × UInt8) : Res TransitionTable := do
  let (state, byte) := place
  let next ← dense_target trans fail byte trans.length (.ofNat state)
  .ok (table.set_transition .w64 state byte next)

def build_dense_table (trans : List Row) (fail : List UInt32) (accepts : List (UInt32 × UInt32))
    (lengths : List UInt32) : Res TransitionTable := do
  let state_count := trans.length
  let table ← TransitionTable.new .w64 state_count 256
  let table ← ((List.range state_count).flatMap fun state => all_bytes.map (state, ·)).foldlM
    (dense_step trans fail) table
  let table := accepts.foldl (fun table (state, pid) => table.add_accept state pid) table
  let table := lengths.zipIdx.foldl
    (fun table (len, pid) => table.set_pattern_length (.ofNat pid) len) table
  .ok table

/-! ## The constructor -/

/-- The table and the output links that `from_patterns` compiles. -/
def pattern_table (patterns : List (List UInt8)) : Res (TransitionTable × List UInt32) :=
  if patterns.isEmpty then .error (.err .EmptyDfa)
  else do
    let trie ← build_trie patterns
    let (fail, accepts, output_links) ← build_failure_links trie.trans trie.accepts
    let table ← build_dense_table trie.trans fail accepts trie.lengths
    .ok (table, output_links)

def JitDfa.from_patterns (os : Os) (patterns : List (List UInt8)) : Res JitDfa := do
  let (table, output_links) ← pattern_table patterns
  compile_with_output_links os table output_links

end dfajit.dfa
