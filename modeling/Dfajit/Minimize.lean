-- Minimization (table.rs, `minimize`): partition refinement of the states, and
-- the table with one state for each class.
import Dfajit.Table

namespace dfajit.table

open error

/-! ## Class numbers -/

/-- A hash map that gives each new key the next number. -/
structure Classes (κ : Type) where
  entries : List (κ × UInt32)
  next_class : UInt32

/-- The class of the key, which is put into the map if it is not there. -/
def Classes.of {κ : Type} [DecidableEq κ] (map : Classes κ) (key : κ) : UInt32 × Classes κ :=
  match map.entries.lookup key with
  | some existing => (existing, map)
  | none =>
    (map.next_class, {
      entries := (key, map.next_class) :: map.entries
      next_class := map.next_class + 1 })

namespace TransitionTable

/-! ## The first partition -/

/-- The pattern of each accept state; a later entry replaces an earlier one. -/
def state_to_pattern (t : TransitionTable) : List (UInt32 × UInt32) :=
  t.accept_states.foldl (fun map entry => entry :: map) []

/-- The accept states by pattern, and all other states in class 0. -/
def group_step (t : TransitionTable) (work : List UInt32 × Classes UInt32) (i : Nat) :
    Res (List UInt32 × Classes UInt32) := do
  let (partition, pattern_class) := work
  match t.state_to_pattern.lookup (.ofNat i) with
  | some pid =>
    let (new_class, pattern_class) := pattern_class.of pid
    let partition ← set_index partition i new_class
    .ok (partition, pattern_class)
  | none => .ok (partition, pattern_class)

def initial_partition (t : TransitionTable) : Res (List UInt32 × UInt32) := do
  let (partition, pattern_class) ← (List.range t.state_count).foldlM t.group_step
    (List.replicate t.state_count 0, { entries := [], next_class := 1 })
  .ok (partition, pattern_class.next_class)

/-! ## Refinement -/

/-- The class of a target. What is no state, a flagged target among it, counts as
class 0. -/
def target_class (t : TransitionTable) (partition : List UInt32) (target : UInt32) : Res UInt32 :=
  if target.toNat < t.state_count then index partition target.toNat else .ok 0

/-- The class of a state and those of its targets. -/
def signature (t : TransitionTable) (partition : List UInt32) (state : Nat) :
    Res (List UInt32) := do
  let current_class ← index partition state
  let targets ← (List.range t.class_count).mapM fun byte => do
    let target ← index t.transitions (state * t.class_count + byte)
    t.target_class partition target
  .ok (current_class :: targets)

def refine_step (t : TransitionTable) (partition : List UInt32)
    (work : List UInt32 × Classes (List UInt32)) (state : Nat) :
    Res (List UInt32 × Classes (List UInt32)) := do
  let (new_partition, signature_map) := work
  let sig ← t.signature partition state
  let (new_class, signature_map) := signature_map.of sig
  let new_partition ← set_index new_partition state new_class
  .ok (new_partition, signature_map)

/-- One round: the new partition, and how many classes it has. -/
def refine (t : TransitionTable) (partition : List UInt32) : Res (List UInt32 × UInt32) := do
  let (new_partition, signature_map) ← (List.range t.state_count).foldlM (t.refine_step partition)
    (partition, { entries := [], next_class := 0 })
  .ok (new_partition, signature_map.next_class)

/-- `while changed`, for at most so many rounds. -/
def refine_loop (t : TransitionTable) : Nat → List UInt32 → UInt32 → Res (List UInt32 × UInt32)
  | 0, _, _ => .error .div
  | rounds + 1, partition, num_classes => do
    let (new_partition, next_class) ← t.refine partition
    if next_class ≠ num_classes ∨ new_partition ≠ partition then
      t.refine_loop rounds new_partition next_class
    else .ok (partition, num_classes)

/-! ## The new table -/

/-- For each class its last state. -/
def representatives (partition : List UInt32) (new_state_count : Nat) : Res (List Nat) :=
  partition.zipIdx.foldlM (fun reps (new_class, state) => set_index reps new_class.toNat state)
    (List.replicate new_state_count 0)

def copy_step (t : TransitionTable) (partition : List UInt32) (reps : List Nat)
    (new_transitions : List UInt32) (place : Nat × Nat) : Res (List UInt32) := do
  let (new_state, byte) := place
  let repr ← index reps new_state
  let old_target ← index t.transitions (repr * t.class_count + byte)
  let new_target ← t.target_class partition old_target
  set_index new_transitions (new_state * t.class_count + byte) new_target

def accept_step (partition : List UInt32) (new_table : TransitionTable)
    (entry : UInt32 × UInt32) : Res TransitionTable := do
  let (old_state, pattern_id) := entry
  let new_state ← index partition old_state.toNat
  if (new_state, pattern_id) ∈ new_table.accept_states then .ok new_table
  else .ok (new_table.add_accept new_state pattern_id)

def rebuild (t new_table : TransitionTable) (partition : List UInt32) : Res TransitionTable := do
  let reps ← representatives partition new_table.state_count
  let places := (List.range new_table.state_count).flatMap fun new_state =>
    (List.range t.class_count).map (new_state, ·)
  let transitions ← places.foldlM (t.copy_step partition reps) new_table.transitions
  let new_table := { new_table with transitions }
  let new_table ← t.accept_states.foldlM (accept_step partition) new_table
  .ok { new_table with pattern_lengths := t.pattern_lengths }

def minimize (w : Width) (t : TransitionTable) : Res (Option TransitionTable) :=
  if t.state_count ≤ 1 then .ok none
  else do
    let (partition, num_classes) ← t.initial_partition
    let (partition, num_classes) ← t.refine_loop (t.state_count + 2) partition num_classes
    let new_state_count := num_classes.toNat
    if new_state_count ≥ t.state_count then .ok none
    else
      match new w new_state_count t.class_count with
      | .error _ => .ok none
      | .ok new_table => do
        let new_table ← t.rebuild new_table partition
        .ok (some new_table)

end TransitionTable

end dfajit.table
