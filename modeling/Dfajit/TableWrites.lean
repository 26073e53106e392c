-- Sequences of calls of `set_transition` (table.rs). Only the flat index of a call
-- is checked, so a call with a byte past the classes, or with a state whose row
-- starts past the end of `usize`, can write the cell of another call.
import Dfajit.Lib.LastWrite
import Dfajit.Table

namespace dfajit.table_writes

open error table last_write

/-- The arguments of one call of `set_transition`. -/
structure Call where
  state : Nat
  byte : UInt8
  next_state : UInt32

/-- All calls, one after the other. -/
def set_transitions (w : Width) (t : TransitionTable) (calls : List Call) : TransitionTable :=
  calls.foldl (fun t call => t.set_transition w call.state call.byte call.next_state) t

/-- The flat index that a call computes. -/
def flat (w : Width) (class_count : Nat) (call : Call) : Nat :=
  (call.state * class_count + call.byte.toNat) % w.size

/-- The target of the last call made with this state and this byte, or the 0 that
`new` put there. -/
def last_target (calls : List Call) (s b : Nat) : UInt32 :=
  ((calls.findRev? fun call => (call.state, call.byte.toNat) = (s, b)).map (·.next_state)).getD 0

/-- Each cell has the target of the last call made with its state and its byte. -/
structure OwnCells (t : TransitionTable) (calls : List Call) (t' : TransitionTable) : Prop where
  len : t'.transitions.length = t.transitions.length
  cells : ∀ s < t.state_count, ∀ b < t.class_count,
    t'.transitions[s * t.class_count + b]? = some (last_target calls s b)

/-- The call names a state and a byte of the table. -/
def InBounds (t : TransitionTable) (call : Call) : Prop :=
  call.state < t.state_count ∧ call.byte.toNat < t.class_count

/-- A call that is out of bounds and still lands on a cell, where no later call
writes, writes there just what the cell should have. -/
def StraysAgree (w : Width) (t : TransitionTable) (calls : List Call) : Prop :=
  ∀ before call after, calls = before ++ call :: after → ¬ InBounds t call →
    ∀ s < t.state_count, ∀ b < t.class_count, flat w t.class_count call = s * t.class_count + b →
      (∀ later ∈ after, flat w t.class_count later ≠ s * t.class_count + b) →
      call.next_state = last_target before s b

section

variable {w : Width} {t : TransitionTable} {calls : List Call}

theorem set_transitions_eq (calls : List Call) :
    set_transitions w t calls = { t with
      transitions := write_all (flat w t.class_count) (·.next_state) t.transitions calls } := by
  induction calls using List.reverseRecOn with
  | nil => rfl
  | append_singleton calls call ih =>
    have hstep : set_transitions w t (calls ++ [call]) =
        (set_transitions w t calls).set_transition w call.state call.byte call.next_state := by
      unfold set_transitions
      rw [List.foldl_append]
      rfl
    rw [hstep, ih, write_all_snoc]
    unfold TransitionTable.set_transition
    simp only
    split
    · rfl
    · rename_i hout
      have hstay : (write_all (flat w t.class_count) Call.next_state t.transitions calls).set
          (flat w t.class_count call) call.next_state =
          write_all (flat w t.class_count) Call.next_state t.transitions calls :=
        List.set_eq_of_length_le (Nat.not_lt.mp hout)
      rw [hstay]

/-- The flat index of a call in bounds does not wrap. -/
theorem flat_of_in_bounds (hfit : t.state_count * t.class_count ≤ w.max) {call : Call}
    (h : InBounds t call) :
    flat w t.class_count call = call.state * t.class_count + call.byte.toNat := by
  have hlt := place_lt h.1 h.2
  have hmax : w.max < w.size := by cases w <;> decide
  unfold flat
  rw [Nat.mod_eq_of_lt (by omega)]

/-- Exactly when the calls out of bounds agree with the others, each cell of the
table has the target of the last call made with its state and its byte. -/
theorem set_transition_writes_its_own_cell_exactly_when_strays_agree {n c : Nat}
    (hnew : TransitionTable.new w n c = .ok t) (calls : List Call) :
    OwnCells t calls (set_transitions w t calls) ↔ StraysAgree w t calls := by
  obtain ⟨hn, hc, htransitions, _, _, hfit, _⟩ := TransitionTable.new_ok hnew
  subst hn hc
  have hcell : ∀ s < t.state_count, ∀ b < t.class_count,
      ((set_transitions w t calls).transitions[s * t.class_count + b]? =
          some (last_target calls s b) ↔
        ∀ before call after, calls = before ++ call :: after → ¬ InBounds t call →
          flat w t.class_count call = s * t.class_count + b →
          (∀ later ∈ after, flat w t.class_count later ≠ s * t.class_count + b) →
          call.next_state = last_target before s b) := by
    intro s hs b hb
    have hzero : t.transitions[s * t.class_count + b]? = some 0 := by
      rw [htransitions, List.getElem?_replicate, if_pos (place_lt hs hb)]
    have hiff := last_on_key_iff (flat w t.class_count) Call.next_state
      (fun call => (call.state, call.byte.toNat)) (fun k => k.1 * t.class_count + k.2)
      (fun k => k.1 < t.state_count ∧ k.2 < t.class_count)
      (fun call h => flat_of_in_bounds hfit h) ?_ (k := (s, b)) ⟨hs, hb⟩ ?_ 0 calls
    · rw [set_transitions_eq, write_all_get hzero, Option.some_inj]
      exact hiff
    · intro k k' hk hk' he
      exact Prod.ext (place_inj hk.2 hk'.2 he).1 (place_inj hk.2 hk'.2 he).2
    · intro call he
      obtain ⟨rfl, rfl⟩ := Prod.mk.inj he
      exact flat_of_in_bounds hfit ⟨hs, hb⟩
  constructor
  · intro h before call after hcalls hout s hs b hb
    exact (hcell s hs b hb).mp (h.cells s hs b hb) before call after hcalls hout
  · intro h
    refine ⟨?_, ?_⟩
    · rw [set_transitions_eq]
      exact write_all_length _ _
    · intro s hs b hb
      exact (hcell s hs b hb).mpr fun before call after hcalls hout =>
        h before call after hcalls hout s hs b hb

end

/-- In a table with two classes, byte 2 of state 0 is byte 0 of state 1. -/
theorem a_byte_past_the_classes_writes_the_next_row :
    ¬ ∀ (w : Width) (n c : Nat) (t : TransitionTable) (calls : List Call),
      TransitionTable.new w n c = .ok t → OwnCells t calls (set_transitions w t calls) := by
  intro h
  obtain ⟨t, hnew⟩ : ∃ t, TransitionTable.new .w64 2 2 = .ok t := ⟨_, rfl⟩
  obtain ⟨hn, hc, htransitions, _⟩ := TransitionTable.new_ok hnew
  have hcell := (h .w64 2 2 t [⟨0, 2, 7⟩] hnew).cells 1 (by omega) 0 (by omega)
  simp only [set_transitions_eq, htransitions, hc] at hcell
  exact absurd hcell (by decide)

/-- The law for a call in bounds and one that strays. -/
theorem one_stray_call_and_one_in_bounds :
    ∃ t, TransitionTable.new .w64 2 2 = .ok t ∧
      (OwnCells t [⟨0, 2, 7⟩, ⟨1, 0, 5⟩] (set_transitions .w64 t [⟨0, 2, 7⟩, ⟨1, 0, 5⟩]) ↔
        StraysAgree .w64 t [⟨0, 2, 7⟩, ⟨1, 0, 5⟩]) := by
  obtain ⟨t, hnew⟩ : ∃ t, TransitionTable.new .w64 2 2 = .ok t := ⟨_, rfl⟩
  exact ⟨t, hnew, set_transition_writes_its_own_cell_exactly_when_strays_agree hnew _⟩

end dfajit.table_writes
