-- What a table says of the strings of classes, from each of its states, and the
-- partition of the states at the end of the refinement: two states are in one
-- class when no string tells them apart.
import Dfajit.Lib.Moore
import Dfajit.Quotient

namespace dfajit.outcomes

open error table numbering partition alike quotient moore

/-! ## The table as a machine -/

/-- The pattern that the accept entries give a state. -/
def accept_of (t : TransitionTable) (s : Nat) : Option UInt32 :=
  (t.accept_states.find? fun a => a.1.toNat = s).map (·.2)

/-- The state after one more class, the flag apart. -/
def next_state (t : TransitionTable) {c : Nat} (s : Nat) (b : Fin c) : Nat :=
  (clean (target t s b)).toNat

/-- The pattern of the state that a string of classes leads to, if it has one. -/
def outcome (t : TransitionTable) {c : Nat} (s : Nat) : List (Fin c) → Option UInt32 :=
  after (next_state t) (accept_of t) s

/-- No transition has the accept flag. -/
def Plain (t : TransitionTable) : Prop := ∀ x ∈ t.transitions, flagged x = false

section

variable {t : TransitionTable} {p q : List UInt32} {s s' c : Nat}

theorem target_mem (hv : t.Valid) (hs : s < t.state_count) {b : Nat} (hb : b < t.class_count) :
    target t s b ∈ t.transitions := by
  have hlt : s * t.class_count + b < t.transitions.length := by
    rw [hv.len]
    exact place_lt hs hb
  unfold target
  rw [List.getElem?_eq_getElem hlt]
  exact List.getElem_mem hlt

theorem next_state_lt (hv : t.Valid) (hc : t.class_count = c) (hs : s < t.state_count)
    (b : Fin c) : next_state t s b < t.state_count :=
  hv.targets _ (target_mem hv hs (by rw [hc]; exact b.isLt))

theorem states_closed (hv : t.Valid) (hc : t.class_count = c) :
    Closed (next_state t (c := c)) {s | s < t.state_count} :=
  fun _ hs b => next_state_lt hv hc hs b

/-- With no flags, the class of a target is that of the next state. -/
theorem target_at_next (hv : t.Valid) (hplain : Plain t) (hc : t.class_count = c)
    (hs : s < t.state_count) (b : Fin c) :
    target_at t p (target t s b) = class_at p (next_state t s b) := by
  have hmem := target_mem hv hs (b := b) (by rw [hc]; exact b.isLt)
  have hclean := clean_of_not_flagged (hplain _ hmem)
  have hlt := next_state_lt hv hc hs b
  unfold next_state at hlt ⊢
  rw [hclean] at hlt ⊢
  unfold target_at
  rw [if_pos hlt]

/-- The two ways to look up the pattern of a state agree. -/
theorem accept_of_eq (hv : t.Valid) (hs : s < t.state_count) : accept_of t s = pid_at t s := by
  have hstates := t.states_le
  unfold MAX_STATES at hstates
  have hid : (UInt32.ofNat s).toNat = s := by
    rw [u32_toNat (by omega)]
  unfold accept_of
  cases hfind : t.accept_states.find? fun a => a.1.toNat = s with
  | some a =>
    have hmem := List.mem_of_find?_eq_some hfind
    have hstate : a.1.toNat = s := by simpa using List.find?_some hfind
    rw [Option.map_some, ← hstate]
    exact (pid_at_of_mem hv hmem).symm
  | none =>
    rw [Option.map_none]
    cases hp : pid_at t s with
    | none => rfl
    | some pid =>
      have hnot := List.find?_eq_none.mp hfind _ (mem_of_pid_at hp)
      simp only [hid, decide_true, not_true] at hnot

/-! ## What the rounds keep -/

/-- States of one class have one pattern, and states that no string tells apart
are in one class. -/
structure Between (t : TransitionTable) (c : Nat) (p : List UInt32) : Prop where
  fine : ∀ s < t.state_count, ∀ s' < t.state_count, class_at p s = class_at p s' →
    accept_of t s = accept_of t s'
  coarse : ∀ s < t.state_count, ∀ s' < t.state_count,
    (outcome t s : List (Fin c) → _) = outcome t s' → class_at p s = class_at p s'

theorem between_grouped (hv : t.Valid) : Between t c (grouped t) := by
  refine ⟨?_, ?_⟩
  · intro s hs s' hs' he
    rw [accept_of_eq hv hs, accept_of_eq hv hs']
    exact (grouped_same hs hs').mp he
  · intro s hs s' hs' he
    have hnil : accept_of t s = accept_of t s' := congrFun he []
    rw [accept_of_eq hv hs, accept_of_eq hv hs'] at hnil
    exact (grouped_same hs hs').mpr hnil

/-- A signature is the class of the state and those of its next states. -/
theorem sig_next (hv : t.Valid) (hplain : Plain t) (hc : t.class_count = c)
    (hs : s < t.state_count) (hs' : s' < t.state_count) :
    sig t p s = sig t p s' ↔ class_at p s = class_at p s' ∧
      ∀ b : Fin c, class_at p (next_state t s b) = class_at p (next_state t s' b) := by
  rw [sig_eq_iff, hc]
  constructor
  · rintro ⟨hown, htargets⟩
    refine ⟨hown, ?_⟩
    intro b
    rw [← target_at_next hv hplain hc hs, ← target_at_next hv hplain hc hs']
    exact htargets b b.isLt
  · rintro ⟨hown, hnext⟩
    refine ⟨hown, ?_⟩
    intro b hb
    have h := hnext ⟨b, hb⟩
    rwa [← target_at_next hv hplain hc hs, ← target_at_next hv hplain hc hs'] at h

theorem Between.next (h : Between t c p) (hv : t.Valid) (hplain : Plain t)
    (hc : t.class_count = c) : Between t c (next t p) := by
  refine ⟨?_, ?_⟩
  · intro s hs s' hs' he
    exact h.fine s hs s' hs' (next_refines hs hs' he)
  · intro s hs s' hs' he
    rw [next_same p hs hs', sig_next hv hplain hc hs hs']
    refine ⟨h.coarse s hs s' hs' he, ?_⟩
    intro b
    apply h.coarse _ (next_state_lt hv hc hs b) _ (next_state_lt hv hc hs' b)
    funext v
    exact congrFun he (b :: v)

/-! ## The partition at the end -/

/-- The classes are numbered without gaps in the order of their first states, and
are those of the states that no string tells apart. -/
structure Exact (t : TransitionTable) (c : Nat) (q : List UInt32) : Prop where
  numbered : Numbered t q
  same : ∀ s < t.state_count, ∀ s' < t.state_count,
    class_at q s = class_at q s' ↔ (outcome t s : List (Fin c) → _) = outcome t s'

/-- A partition that no round changes tells apart what some string does. -/
theorem exact_of_fixed (h : Between t c q) (hq : Numbered t q) (hfixed : partition.next t q = q)
    (hv : t.Valid) (hplain : Plain t) (hc : t.class_count = c) : Exact t c q := by
  refine ⟨hq, ?_⟩
  intro s hs s' hs'
  refine ⟨after_eq_of_kept (states_closed hv hc) h.fine ?_ hs hs', h.coarse s hs s' hs'⟩
  intro s hs s' hs' he b
  have hsig : sig t q s = sig t q s' := by
    rw [← next_same q hs hs', hfixed]
    exact he
  exact ((sig_next hv hplain hc hs hs').mp hsig).2 b

theorem refine_loop_exact (hv : t.Valid) (hplain : Plain t) (hc : t.class_count = c)
    (num_classes : UInt32) :
    ∃ q, t.refine_loop (t.state_count + 2) (grouped t) num_classes = .ok (q, .ofNat (count q)) ∧
      Exact t c q := by
  obtain ⟨q, hloop, hnumbered, hbetween, hfixed⟩ := refine_loop_eq hv.len (Between t c)
    (fun _ _ h => h.next hv hplain hc) (grouped_length t)
    ((between_grouped hv).next hv hplain hc) num_classes
  exact ⟨q, hloop, exact_of_fixed hbetween hnumbered hfixed hv hplain hc⟩

end

/-- The refinement computes the equivalence of the states: two states end up in
one class when each string of classes leads from them to the same pattern, or
from both to none. The classes are the numbers below their count, and the start
state has class 0. -/
theorem refinement_computes_the_state_equivalence (w : Width) (n c : Nat) (ts : List UInt32)
    (as : List (UInt32 × UInt32)) (ls : List UInt32) (t : TransitionTable)
    (h : TransitionTable.from_parts w n c ts as ls = .ok t) (hmany : 2 ≤ n)
    (hplain : ∀ x ∈ ts, flagged x = false) :
    ∃ p k q num_classes, t.initial_partition = .ok (p, k) ∧
      t.refine_loop (t.state_count + 2) p k = .ok (q, num_classes) ∧ q.length = n ∧
      (∀ s < n, ∀ s' < n, q[s]? = q[s']? ↔
        ∀ v : List (Fin c), outcome t s v = outcome t s' v) ∧
      (∀ x ∈ q, x < num_classes) ∧ (∀ x < num_classes, x ∈ q) ∧ q[0]? = some 0 := by
  obtain ⟨h1, h2, h3, h4, h5, hv⟩ := TransitionTable.from_parts_ok h
  obtain ⟨k, hgroup⟩ := initial_partition_eq t
  obtain ⟨q, hloop, hq⟩ := refine_loop_exact hv (by rw [← h3] at hplain; exact hplain) h2 k
  have hlen := hq.numbered.len
  have hget : ∀ s < n, q[s]? = some (class_at q s) := fun s hs => class_at_get (by omega)
  have hcount : (UInt32.ofNat (count q)).toNat = count q := by
    have hle := count_le hlen
    have hstates := t.states_le
    unfold MAX_STATES at hstates
    rw [u32_toNat (by omega)]
  refine ⟨_, k, q, _, hgroup, hloop, by omega, ?_, ?_, ?_, ?_⟩
  · intro s hs s' hs'
    rw [hget s hs, hget s' hs', Option.some.injEq, hq.same s (by omega) s' (by omega),
      funext_iff]
  · intro x hx
    obtain ⟨s, hs⟩ := List.mem_iff_getElem?.mp hx
    have hlt : s < n := by
      have := (List.getElem?_eq_some_iff.mp hs).1
      omega
    rw [hget s hlt] at hs
    rw [UInt32.lt_iff_toNat_lt, hcount, ← Option.some.inj hs]
    exact class_lt hq.numbered (by omega)
  · intro x hx
    rw [UInt32.lt_iff_toNat_lt, hcount] at hx
    obtain ⟨s, hs, hclass⟩ := exists_class hq.numbered hx
    have hmem := List.mem_of_getElem? (hget s (by omega))
    rwa [UInt32.toNat_inj.mp hclass] at hmem
  · rw [hget 0 (by omega), hq.numbered.start (by omega)]

/-- The refinement of two states that each lead to the other, one of them with a
pattern. -/
theorem refinement_computes_the_equivalence_of_two_states :
    ∃ t, TransitionTable.from_parts .w64 2 1 [1, 0] [(1, 0)] [3] = .ok t ∧
      ∃ p k q num_classes, t.initial_partition = .ok (p, k) ∧
        t.refine_loop (t.state_count + 2) p k = .ok (q, num_classes) ∧ q.length = 2 ∧
        (∀ s < 2, ∀ s' < 2, q[s]? = q[s']? ↔
          ∀ v : List (Fin 1), outcome t s v = outcome t s' v) ∧
        (∀ x ∈ q, x < num_classes) ∧ (∀ x < num_classes, x ∈ q) ∧ q[0]? = some 0 :=
  ⟨_, rfl, refinement_computes_the_state_equivalence .w64 2 1 [1, 0] [(1, 0)] [3] _ rfl
    (Nat.le_refl 2) (List.forall_mem_cons.mpr ⟨rfl, List.forall_mem_cons.mpr
      ⟨rfl, fun _ h => absurd h List.not_mem_nil⟩⟩)⟩

end dfajit.outcomes
