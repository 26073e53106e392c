-- The partition at the end of the refinement for all targets, also those that are
-- no states, and all numbers of classes: two states are in one class when each
-- string of classes leads from them to states that look the same.
import Dfajit.Lib.Moore
import Dfajit.Alike

namespace dfajit.splitting

open error table numbering partition alike moore

/-- The state after one more class. What is no state is read as the start. -/
def read_next (t : TransitionTable) {c : Nat} (s : Nat) (b : Fin c) : Nat :=
  (read_as t (target t s b)).toNat

/-- What the first round sees of a state: its pattern, and those of its targets. -/
def look (t : TransitionTable) {c : Nat} (s : Nat) : Option UInt32 × (Fin c → Option UInt32) :=
  (pid_at t s, fun b => seen_at t (target t s b))

/-- What the first round sees of the state that a string of classes leads to. -/
def behaviour (t : TransitionTable) {c : Nat} (s : Nat) :
    List (Fin c) → Option UInt32 × (Fin c → Option UInt32) :=
  after (read_next t) (look t) s

section

variable {t : TransitionTable} {p q : List UInt32} {s s' c : Nat}

theorem read_next_lt (hsome : 0 < t.state_count) (s : Nat) (b : Fin c) :
    read_next t s b < t.state_count := read_as_lt hsome _

/-- States with one pattern and the same row behave the same. -/
theorem behaviour_of_same_row (hpid : pid_at t s = pid_at t s')
    (hrow : ∀ b : Fin c, target t s b = target t s' b) :
    (behaviour t s : List (Fin c) → _) = behaviour t s' := by
  funext w
  cases w with
  | nil =>
    apply Prod.ext hpid
    funext b
    exact congrArg (seen_at t) (hrow b)
  | cons b w =>
    have hnext : read_next t s b = read_next t s' b := congrArg (fun x => (read_as t x).toNat) (hrow b)
    unfold behaviour
    rw [after_cons, after_cons, hnext]

theorem sig_columns (hc : t.class_count = c) : sig t p s = sig t p s' ↔
    class_at p s = class_at p s' ∧
      ∀ b : Fin c, target_at t p (target t s b) = target_at t p (target t s' b) := by
  subst hc
  rw [sig_eq_iff]
  exact and_congr_right fun _ => ⟨fun h b => h b b.isLt, fun h b hb => h ⟨b, hb⟩⟩

/-- What holds of the partition after each round: states of one class look the
same, and states that behave the same are in one class. -/
structure Splits (t : TransitionTable) (c : Nat) (p : List UInt32) : Prop where
  start : class_at p 0 = 0
  fine : ∀ s < t.state_count, ∀ s' < t.state_count, class_at p s = class_at p s' →
    (look t s : _ × (Fin c → _)) = look t s'
  coarse : ∀ s < t.state_count, ∀ s' < t.state_count,
    (behaviour t s : List (Fin c) → _) = behaviour t s' → class_at p s = class_at p s'

theorem look_eq_iff (hs : s < t.state_count) (hs' : s' < t.state_count) (hc : t.class_count = c) :
    (look t s : _ × (Fin c → _)) = look t s' ↔ sig t (grouped t) s = sig t (grouped t) s' := by
  rw [sig_columns hc, grouped_same hs hs']
  unfold look
  rw [Prod.mk.injEq, funext_iff]
  exact and_congr_right fun _ => forall_congr' fun b => (target_at_grouped _ _).symm

theorem splits_start (hc : t.class_count = c) (hsome : 0 < t.state_count) :
    Splits t c (next t (grouped t)) := by
  refine ⟨(next_numbered t _).start hsome, ?_, ?_⟩
  · intro s hs s' hs' he
    exact (look_eq_iff hs hs' hc).mpr ((next_same _ hs hs').mp he)
  · intro s hs s' hs' he
    rw [next_same _ hs hs', ← look_eq_iff hs hs' hc]
    exact congrFun he []

theorem Splits.next (h : Splits t c p) (hc : t.class_count = c) (hsome : 0 < t.state_count) :
    Splits t c (next t p) := by
  refine ⟨(next_numbered t _).start hsome, ?_, ?_⟩
  · intro s hs s' hs' he
    exact h.fine s hs s' hs' (next_refines hs hs' he)
  · intro s hs s' hs' he
    rw [next_same _ hs hs', sig_columns hc]
    refine ⟨h.coarse s hs s' hs' he, ?_⟩
    intro b
    rw [target_at_eq h.start, target_at_eq h.start]
    apply h.coarse _ (read_next_lt hsome s b) _ (read_next_lt hsome s' b)
    funext w
    exact congrFun he (b :: w)

/-- The classes of the partition at the end are those of the behaviours. -/
theorem Splits.same_iff (h : Splits t c q) (hfixed : partition.next t q = q)
    (hc : t.class_count = c) (hs : s < t.state_count) (hs' : s' < t.state_count) :
    class_at q s = class_at q s' ↔ (behaviour t s : List (Fin c) → _) = behaviour t s' := by
  have hsome : 0 < t.state_count := by omega
  have hclosed : Closed (read_next t (c := c)) {s | s < t.state_count} :=
    fun s _ b => read_next_lt hsome s b
  refine ⟨fun he => after_eq_of_kept hclosed h.fine ?_ hs hs' he, h.coarse s hs s' hs'⟩
  intro s hs s' hs' he b
  have hsig : sig t q s = sig t q s' := by
    rw [← next_same q hs hs', hfixed]
    exact he
  have htarget := ((sig_columns hc).mp hsig).2 b
  rwa [target_at_eq h.start, target_at_eq h.start] at htarget

/-- The rounds end with the partition of the behaviours. -/
theorem refine_loop_splits (hfit : t.transitions.length = t.state_count * t.class_count)
    (hsome : 0 < t.state_count) (num_classes : UInt32) :
    ∃ q, t.refine_loop (t.state_count + 2) (grouped t) num_classes = .ok (q, .ofNat (count q)) ∧
      Numbered t q ∧ ∀ s < t.state_count, ∀ s' < t.state_count, class_at q s = class_at q s' ↔
        (behaviour t s : List (Fin t.class_count) → _) = behaviour t s' := by
  obtain ⟨q, hloop, hnumbered, hsplits, hfixed⟩ := refine_loop_eq hfit (Splits t t.class_count)
    (fun _ _ h => h.next rfl hsome) (grouped_length t) (splits_start rfl hsome) num_classes
  exact ⟨q, hloop, hnumbered, fun s hs s' hs' => hsplits.same_iff hfixed rfl hs hs'⟩

end

end dfajit.splitting
