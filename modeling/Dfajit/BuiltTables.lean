-- Tables that the builders make (table.rs), with any targets and accept entries:
-- on which of them `minimize` returns. It guards its reads of the partition at a
-- target, and does not guard those at an accept entry.
import Dfajit.Splitting
import Dfajit.Quotient

namespace dfajit.built_tables

open error table partition alike splitting quotient moore

/-- A call of one of the builders. -/
inductive Call where
  | set_transition (state : Nat) (byte : UInt8) (next_state : UInt32)
  | add_accept (state pattern_id : UInt32)
  | set_pattern_length (pattern_id length : UInt32)

def Call.run (w : Width) (t : TransitionTable) : Call → TransitionTable
  | .set_transition state byte next_state => t.set_transition w state byte next_state
  | .add_accept state pattern_id => t.add_accept state pattern_id
  | .set_pattern_length pattern_id length => t.set_pattern_length pattern_id length

/-- A call of `set_transition` names a state and a byte of the table. -/
def Call.InBounds (t : TransitionTable) : Call → Prop
  | .set_transition state byte _ => state < t.state_count ∧ byte.toNat < t.class_count
  | _ => True

/-- All calls, one after the other. -/
def build (w : Width) (t : TransitionTable) (calls : List Call) : TransitionTable :=
  calls.foldl (Call.run w) t

section

variable {w : Width} {t : TransitionTable} {calls : List Call}

theorem build_snoc (calls : List Call) (call : Call) :
    build w t (calls ++ [call]) = call.run w (build w t calls) := by
  unfold build
  rw [List.foldl_append]
  rfl

/-- No call changes the size of a table. -/
theorem Call.run_size (call : Call) :
    (call.run w t).state_count = t.state_count ∧ (call.run w t).class_count = t.class_count ∧
      (call.run w t).transitions.length = t.transitions.length := by
  cases call with
  | set_transition state byte next_state =>
    unfold Call.run TransitionTable.set_transition
    simp only
    split
    · exact ⟨rfl, rfl, List.length_set⟩
    · exact ⟨rfl, rfl, rfl⟩
  | add_accept state pattern_id => exact ⟨rfl, rfl, rfl⟩
  | set_pattern_length pattern_id length => exact ⟨rfl, rfl, rfl⟩

theorem build_size (calls : List Call) :
    (build w t calls).state_count = t.state_count ∧
      (build w t calls).class_count = t.class_count ∧
      (build w t calls).transitions.length = t.transitions.length := by
  induction calls using List.reverseRecOn with
  | nil => exact ⟨rfl, rfl, rfl⟩
  | append_singleton calls call ih =>
    obtain ⟨h1, h2, h3⟩ := call.run_size (w := w) (t := build w t calls)
    rw [build_snoc]
    exact ⟨h1.trans ih.1, h2.trans ih.2.1, h3.trans ih.2.2⟩

theorem build_fits {n c : Nat} (hnew : TransitionTable.new w n c = .ok t) (calls : List Call) :
    (build w t calls).state_count = n ∧
      (build w t calls).transitions.length =
        (build w t calls).state_count * (build w t calls).class_count ∧
      (build w t calls).state_count * (build w t calls).class_count ≤ w.max ∧
      (build w t calls).state_count * (build w t calls).class_count ≤ MAX_TOTAL_TRANSITIONS := by
  obtain ⟨hn, hc, htransitions, _, _, hfit, hmax⟩ := TransitionTable.new_ok hnew
  obtain ⟨h1, h2, h3⟩ := build_size (w := w) (t := t) calls
  rw [h1, h2, h3, htransitions, List.length_replicate, hn, hc]
  exact ⟨rfl, rfl, hfit, hmax⟩

/-- The accept entries are those that were added. -/
theorem mem_build_accepts {a : UInt32 × UInt32} (calls : List Call) :
    a ∈ (build w t calls).accept_states ↔ a ∈ t.accept_states ∨ .add_accept a.1 a.2 ∈ calls := by
  induction calls using List.reverseRecOn with
  | nil => simp [build]
  | append_singleton calls call ih =>
    rw [build_snoc]
    cases call with
    | set_transition state byte next_state =>
      have hsame : ((Call.set_transition state byte next_state).run w (build w t calls)).accept_states =
          (build w t calls).accept_states := by
        unfold Call.run TransitionTable.set_transition
        simp only
        split <;> rfl
      rw [hsame, ih]
      simp
    | add_accept state pattern_id =>
      have hadd : ((Call.add_accept state pattern_id).run w (build w t calls)).accept_states =
          (build w t calls).accept_states ++ [(state, pattern_id)] := rfl
      rw [hadd, List.mem_append, List.mem_singleton, ih, List.mem_append, List.mem_singleton,
        or_assoc, Call.add_accept.injEq, Prod.ext_iff]
    | set_pattern_length pattern_id length =>
      have hsame : ((Call.set_pattern_length pattern_id length).run w (build w t calls)).accept_states =
          (build w t calls).accept_states := rfl
      rw [hsame, ih]
      simp

/-- No two states behave the same. -/
def AllDiffer (t : TransitionTable) : Prop :=
  ∀ s < t.state_count, ∀ s' < t.state_count,
    (behaviour t s : List (Fin t.class_count) → _) = behaviour t s' → s = s'

/-- On a table of the size that `new` gave it, `minimize` panics just when states
are merged and an accept entry names no state. -/
theorem minimize_cases (hlen : t.transitions.length = t.state_count * t.class_count)
    (hfit : t.state_count * t.class_count ≤ w.max)
    (hmax : t.state_count * t.class_count ≤ MAX_TOTAL_TRANSITIONS) :
    ((∀ a ∈ t.accept_states, a.1.toNat < t.state_count) ∨ AllDiffer t) ∧
        (∃ r, t.minimize w = .ok r) ∨
      ¬ ((∀ a ∈ t.accept_states, a.1.toNat < t.state_count) ∨ AllDiffer t) ∧
        t.minimize w = .error .panic := by
  by_cases hmany : t.state_count ≤ 1
  · refine Or.inl ⟨Or.inr ?_, none, minimize_small hmany w⟩
    intro s hs s' hs' _
    omega
  obtain ⟨k, hgroup⟩ := initial_partition_eq t
  obtain ⟨q, hloop, hnumbered, hsame⟩ := refine_loop_splits hlen (by omega) k
  have hfull : t.state_count ≤ count q ↔ AllDiffer t := by
    rw [count_full_iff hnumbered.len]
    refine forall₂_congr fun s hs => forall₂_congr fun s' hs' => ?_
    rw [hsame s hs s' hs']
  obtain ⟨hnone, hless⟩ := minimize_of_rounds (by omega) hgroup hloop hnumbered.len w
  by_cases hge : t.state_count ≤ count q
  · exact Or.inl ⟨Or.inr (hfull.mp hge), none, hnone hge⟩
  have hle := count_le hnumbered.len
  have hstates := t.states_le
  have hsmall : count q * t.class_count ≤ t.state_count * t.class_count :=
    Nat.mul_le_mul_right _ hle
  obtain ⟨m, hnew⟩ := TransitionTable.new_of_fit (w := w) (n := count q) (by omega) t.class_pos
    (by omega) (by omega)
  obtain ⟨h1, h2, h3, h4, _⟩ := TransitionTable.new_ok hnew
  have hm : m.transitions.length = count q * t.class_count := by
    rw [h3, List.length_replicate]
  rw [(hless (by omega)).2 m hnew]
  by_cases has : ∀ a ∈ t.accept_states, a.1.toNat < t.state_count
  · obtain ⟨m', hrun, _⟩ := rebuild_eq hnumbered hlen has h1 h2 hm h4
    rw [hrun]
    exact Or.inl ⟨Or.inl has, _, rfl⟩
  · rw [rebuild_panic hnumbered hlen has h1 hm]
    refine Or.inr ⟨?_, rfl⟩
    rintro (h | h)
    · exact has h
    · exact hge (hfull.mpr h)

/-- After any calls of the builders on a new table, `minimize` returns exactly when
no accept entry was added for a state that the table does not have, or no two
states behave the same. Otherwise it panics. -/
theorem minimize_returns_exactly_when_accepts_are_states_or_nothing_merges {n c : Nat}
    (hnew : TransitionTable.new w n c = .ok t) (calls : List Call) :
    ((∃ r, (build w t calls).minimize w = .ok r) ↔
        (∀ state pattern_id, .add_accept state pattern_id ∈ calls → state.toNat < n) ∨
          AllDiffer (build w t calls)) ∧
      ((¬ ∃ r, (build w t calls).minimize w = .ok r) →
        (build w t calls).minimize w = .error .panic) := by
  obtain ⟨_, _, _, haccepts, _⟩ := TransitionTable.new_ok hnew
  obtain ⟨hn, hlen, hfit, hmax⟩ := build_fits hnew calls
  have hstates : (∀ a ∈ (build w t calls).accept_states,
      a.1.toNat < (build w t calls).state_count) ↔
        ∀ state pattern_id, .add_accept state pattern_id ∈ calls → state.toNat < n := by
    simp only [mem_build_accepts, haccepts, List.not_mem_nil, false_or, hn, Prod.forall]
  rw [← hstates]
  rcases minimize_cases hlen hfit hmax with ⟨hgood, hok⟩ | ⟨hbad, hpanic⟩
  · exact ⟨iff_of_true hok hgood, fun hno => absurd hok hno⟩
  · refine ⟨iff_of_false ?_ hbad, fun _ => hpanic⟩
    rintro ⟨r, hr⟩
    rw [hpanic] at hr
    cases hr

end

/-- The two states of a new table are merged, and the partition is then read at
state 5000. -/
theorem an_accept_of_no_state_makes_minimize_panic :
    ¬ ∀ (w : Width) (n c : Nat) (t : TransitionTable) (calls : List Call),
      TransitionTable.new w n c = .ok t → (∀ call ∈ calls, call.InBounds t) →
      ∃ r, (build w t calls).minimize w = .ok r := by
  intro h
  obtain ⟨t, hnew⟩ : ∃ t, TransitionTable.new .w64 2 256 = .ok t := ⟨_, rfl⟩
  obtain ⟨_, _, htransitions, haccepts, _⟩ := TransitionTable.new_ok hnew
  obtain ⟨r, hr⟩ := h .w64 2 256 t [.add_accept 5000 0] hnew
    (fun call hcall => by rw [List.mem_singleton.mp hcall]; trivial)
  obtain ⟨hn, hlen, hfit, hmax⟩ := build_fits hnew [.add_accept 5000 0]
  have hentries : (build .w64 t [.add_accept 5000 0]).accept_states = [(5000, 0)] := by
    have hsnoc : (build .w64 t [.add_accept 5000 0]).accept_states =
        t.accept_states ++ [(5000, 0)] := rfl
    rw [hsnoc, haccepts]
    rfl
  have hcells : (build .w64 t [.add_accept 5000 0]).transitions = List.replicate (2 * 256) 0 :=
    htransitions
  generalize build .w64 t [.add_accept 5000 0] = built at hr hn hlen hfit hmax hentries hcells
  have hzero : ∀ s b, target built s b = 0 := by
    intro s b
    unfold target
    rw [hcells, List.getElem?_replicate]
    split <;> rfl
  have hpid : pid_at built 0 = pid_at built 1 := by
    unfold pid_at
    rw [state_to_pattern_eq, hentries]
    rfl
  rcases minimize_cases hlen hfit hmax with ⟨hin | hdiffer, _⟩ | ⟨_, hpanic⟩
  · have hlt := hin (5000, 0) (by rw [hentries]; exact List.mem_singleton_self _)
    rw [hn] at hlt
    exact absurd hlt (by decide)
  · have hone := hdiffer 0 (by rw [hn]; decide) 1 (by rw [hn]; decide)
      (behaviour_of_same_row hpid fun b => by rw [hzero, hzero])
    exact absurd hone (by decide)
  · rw [hpanic] at hr
    cases hr

/-- The law for a table with such an accept entry. -/
theorem minimize_of_a_table_with_an_accept_of_no_state :
    ∃ t, TransitionTable.new .w64 2 256 = .ok t ∧
      (((∃ r, (build .w64 t [.set_transition 0 97 1, .add_accept 5000 0]).minimize .w64 = .ok r) ↔
          (∀ state pattern_id,
            .add_accept state pattern_id ∈ [Call.set_transition 0 97 1, .add_accept 5000 0] →
              state.toNat < 2) ∨
            AllDiffer (build .w64 t [.set_transition 0 97 1, .add_accept 5000 0])) ∧
        ((¬ ∃ r, (build .w64 t [.set_transition 0 97 1, .add_accept 5000 0]).minimize .w64 = .ok r) →
          (build .w64 t [.set_transition 0 97 1, .add_accept 5000 0]).minimize .w64 =
            .error .panic)) := by
  obtain ⟨t, hnew⟩ : ∃ t, TransitionTable.new .w64 2 256 = .ok t := ⟨_, rfl⟩
  exact ⟨t, hnew,
    minimize_returns_exactly_when_accepts_are_states_or_nothing_merges hnew
      [.set_transition 0 97 1, .add_accept 5000 0]⟩

end dfajit.built_tables
