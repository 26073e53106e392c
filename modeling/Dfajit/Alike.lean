-- What the partition at the end tells apart: states from which some text leads
-- to different patterns, in the table as the minimization reads it.
import Dfajit.Partition
import Dfajit.TableScan

namespace dfajit.alike

open error table codegen numbering partition table_scan reset_run

/-! ## The table as minimization reads it -/

/-- A target as it is read: what is no state counts as the start. -/
def read_as (t : TransitionTable) (x : UInt32) : UInt32 :=
  if x.toNat < t.state_count then x else 0

/-- The table as it is read. -/
def as_read (t : TransitionTable) : TransitionTable :=
  { t with transitions := t.transitions.map (read_as t) }

/-- The state that a text leads to in the table as it is read. -/
def read_walk (t : TransitionTable) (s : UInt32) (w : List UInt8) : UInt32 :=
  (scanner (as_read t) []).walk s w

/-- The pattern that the first round sees at a target. It sees none at what is
no state. -/
def seen_at (t : TransitionTable) (x : UInt32) : Option UInt32 :=
  if x.toNat < t.state_count then pid_at t x.toNat else none

/-- The first round leaves the two states in one class. -/
structure LookAlike (t : TransitionTable) (s s' : UInt32) : Prop where
  own : pid_at t s.toNat = pid_at t s'.toNat
  ahead : ∀ b : UInt8,
    seen_at t (target t s.toNat b.toNat) = seen_at t (target t s'.toNat b.toNat)

/-- No text leads from the two states to states that look different. -/
def Alike (t : TransitionTable) (s s' : UInt32) : Prop :=
  ∀ w : List UInt8, LookAlike t (read_walk t s w) (read_walk t s' w)

/-- No two states are alike. -/
def Separated (t : TransitionTable) : Prop :=
  ∀ s s' : UInt32, s.toNat < t.state_count → s'.toNat < t.state_count → Alike t s s' → s = s'

section

variable {t : TransitionTable} {p q : List UInt32} {s s' : UInt32}

theorem read_as_lt (hsome : 0 < t.state_count) (x : UInt32) :
    (read_as t x).toNat < t.state_count := by
  unfold read_as
  split
  · assumption
  · exact hsome

/-- The next state, in the table as it is read. -/
theorem clean_next_as_read (hv : t.Valid) (hbytes : t.class_count = 256)
    (hs : s.toNat < t.state_count) (b : UInt8) :
    clean_next (as_read t) s b = read_as t (target t s.toNat b.toNat) := by
  have hb := b.toNat_lt
  have hlt : s.toNat * t.class_count + b.toNat < t.transitions.length := by
    rw [hv.len]
    exact place_lt hs (by rw [hbytes]; exact hb)
  have hstates := t.states_le
  unfold MAX_STATES at hstates
  have hread := read_as_lt (t := t) (by omega) (target t s.toNat b.toNat)
  unfold target at hread ⊢
  rw [List.getElem?_eq_getElem hlt, Option.getD_some] at hread ⊢
  unfold clean_next as_read
  simp only
  rw [List.getElem?_map, List.getElem?_eq_getElem hlt, Option.map_some, Option.getD_some]
  exact clean_of_lt (by omega)

theorem read_walk_cons (hv : t.Valid) (hbytes : t.class_count = 256)
    (hs : s.toNat < t.state_count) (b : UInt8) (w : List UInt8) :
    read_walk t s (b :: w) = read_walk t (read_as t (target t s.toNat b.toNat)) w := by
  unfold read_walk Scanner.walk
  rw [List.foldl_cons, scanner_next, clean_next_as_read hv hbytes hs]

/-- States that are alike have targets that are alike. -/
theorem Alike.next (h : Alike t s s') (hv : t.Valid) (hbytes : t.class_count = 256)
    (hs : s.toNat < t.state_count) (hs' : s'.toNat < t.state_count) (b : UInt8) :
    Alike t (read_as t (target t s.toNat b.toNat)) (read_as t (target t s'.toNat b.toNat)) := by
  intro w
  rw [← read_walk_cons hv hbytes hs, ← read_walk_cons hv hbytes hs']
  exact h (b :: w)

/-- States with one pattern and the same row are alike. -/
theorem alike_of_same_row (hv : t.Valid) (hbytes : t.class_count = 256)
    (hs : s.toNat < t.state_count) (hs' : s'.toNat < t.state_count)
    (hpid : pid_at t s.toNat = pid_at t s'.toNat)
    (hrow : ∀ b : UInt8, target t s.toNat b.toNat = target t s'.toNat b.toNat) : Alike t s s' := by
  intro w
  cases w with
  | nil =>
    refine ⟨hpid, ?_⟩
    intro b
    exact congrArg (seen_at t) (hrow b)
  | cons b w =>
    rw [read_walk_cons hv hbytes hs, read_walk_cons hv hbytes hs', hrow]
    exact ⟨rfl, fun _ => rfl⟩

/-! ## What the rounds keep -/

theorem target_at_eq (hstart : class_at p 0 = 0) (x : UInt32) :
    target_at t p x = class_at p (read_as t x).toNat := by
  unfold target_at read_as
  split
  · rfl
  · exact hstart.symm

theorem target_at_grouped (x y : UInt32) :
    target_at t (grouped t) x = target_at t (grouped t) y ↔ seen_at t x = seen_at t y := by
  unfold target_at seen_at
  by_cases hx : x.toNat < t.state_count
  · by_cases hy : y.toNat < t.state_count
    · rw [if_pos hx, if_pos hy, if_pos hx, if_pos hy, grouped_same hx hy]
    · rw [if_pos hx, if_neg hy, if_pos hx, if_neg hy, grouped_zero hx]
  · by_cases hy : y.toNat < t.state_count
    · rw [if_neg hx, if_pos hy, if_neg hx, if_pos hy, eq_comm, grouped_zero hy, eq_comm]
    · rw [if_neg hx, if_neg hy, if_neg hx, if_neg hy]
      exact iff_of_true rfl rfl

theorem sig_eq (hbytes : t.class_count = 256) (s s' : Nat) :
    sig t p s = sig t p s' ↔ class_at p s = class_at p s' ∧
      ∀ b : UInt8, target_at t p (target t s b.toNat) = target_at t p (target t s' b.toNat) := by
  rw [sig_eq_iff, hbytes]
  constructor
  · rintro ⟨hown, htargets⟩
    refine ⟨hown, ?_⟩
    intro b
    exact htargets b.toNat b.toNat_lt
  · rintro ⟨hown, htargets⟩
    refine ⟨hown, ?_⟩
    intro b hb
    have hb' := htargets (.ofNat b)
    rwa [UInt8.toNat_ofNat', Nat.mod_eq_of_lt hb] at hb'

/-- What holds of the partition after each round. -/
structure Refines (t : TransitionTable) (p : List UInt32) : Prop where
  start : class_at p 0 = 0
  /-- States of one class look alike. -/
  fine : ∀ s s' : UInt32, s.toNat < t.state_count → s'.toNat < t.state_count →
    class_at p s.toNat = class_at p s'.toNat → LookAlike t s s'
  /-- States that are alike stay in one class. -/
  coarse : ∀ s s' : UInt32, s.toNat < t.state_count → s'.toNat < t.state_count →
    Alike t s s' → class_at p s.toNat = class_at p s'.toNat

theorem refines_start (hbytes : t.class_count = 256) (hsome : 0 < t.state_count) :
    Refines t (next t (grouped t)) := by
  refine ⟨(next_numbered t _).start hsome, ?_, ?_⟩
  · intro s s' hs hs' he
    obtain ⟨hown, htargets⟩ := (sig_eq hbytes _ _).mp ((next_same _ hs hs').mp he)
    refine ⟨(grouped_same hs hs').mp hown, ?_⟩
    intro b
    exact (target_at_grouped _ _).mp (htargets b)
  · intro s s' hs hs' halike
    have hlook : LookAlike t s s' := halike []
    rw [next_same _ hs hs', sig_eq hbytes]
    refine ⟨(grouped_same hs hs').mpr hlook.own, ?_⟩
    intro b
    exact (target_at_grouped _ _).mpr (hlook.ahead b)

theorem Refines.next (h : Refines t p) (hv : t.Valid) (hbytes : t.class_count = 256)
    (hsome : 0 < t.state_count) : Refines t (next t p) := by
  refine ⟨(next_numbered t _).start hsome, ?_, ?_⟩
  · intro s s' hs hs' he
    exact h.fine s s' hs hs' (next_refines hs hs' he)
  · intro s s' hs hs' halike
    rw [next_same _ hs hs', sig_eq hbytes]
    refine ⟨h.coarse s s' hs hs' halike, ?_⟩
    intro b
    rw [target_at_eq h.start, target_at_eq h.start]
    exact h.coarse _ _ (read_as_lt hsome _) (read_as_lt hsome _) (halike.next hv hbytes hs hs' b)

/-! ## The partition at the end -/

/-- A partition that one more round would not change. -/
structure Stable (t : TransitionTable) (q : List UInt32) : Prop where
  numbered : Numbered t q
  refines : Refines t q
  fixed : next t q = q

/-- The rounds end with a stable partition. -/
theorem refine_loop_stable (hv : t.Valid) (hbytes : t.class_count = 256)
    (hsome : 0 < t.state_count) (num_classes : UInt32) :
    ∃ q, t.refine_loop (t.state_count + 2) (grouped t) num_classes = .ok (q, .ofNat (count q)) ∧
      Stable t q := by
  obtain ⟨q, hloop, hnumbered, hrefines, hfixed⟩ := refine_loop_eq hv.len (Refines t)
    (fun _ _ h => h.next hv hbytes hsome) (grouped_length t) (refines_start hbytes hsome) num_classes
  exact ⟨q, hloop, hnumbered, hrefines, hfixed⟩

/-- States of one class have targets of one class. -/
theorem Stable.same_targets (h : Stable t q) (hbytes : t.class_count = 256) {s s' : Nat}
    (hs : s < t.state_count) (hs' : s' < t.state_count) (he : class_at q s = class_at q s')
    (b : UInt8) :
    class_at q (read_as t (target t s b.toNat)).toNat =
      class_at q (read_as t (target t s' b.toNat)).toNat := by
  have hsig : sig t q s = sig t q s' := by
    rw [← next_same q hs hs', h.fixed]
    exact he
  have htargets := ((sig_eq hbytes s s').mp hsig).2 b
  rwa [target_at_eq h.refines.start, target_at_eq h.refines.start] at htargets

/-- The classes are those of the states that are alike. -/
theorem Stable.same_iff (h : Stable t q) (hv : t.Valid) (hbytes : t.class_count = 256)
    (hs : s.toNat < t.state_count) (hs' : s'.toNat < t.state_count) :
    class_at q s.toNat = class_at q s'.toNat ↔ Alike t s s' := by
  have hsome : 0 < t.state_count := by omega
  constructor
  · intro he w
    induction w generalizing s s' with
    | nil => exact h.refines.fine s s' hs hs' he
    | cons b w ih =>
      rw [read_walk_cons hv hbytes hs, read_walk_cons hv hbytes hs']
      exact ih (read_as_lt hsome _) (read_as_lt hsome _) (h.same_targets hbytes hs hs' he b)
  · exact h.refines.coarse s s' hs hs'

/-- There are as many classes as states just when no two states are alike. -/
theorem Stable.separated_iff (h : Stable t q) (hv : t.Valid) (hbytes : t.class_count = 256) :
    Separated t ↔ t.state_count ≤ count q := by
  have hstates := t.states_le
  unfold MAX_STATES at hstates
  rw [count_full_iff h.numbered.len]
  constructor
  · intro hsep s hs s' hs' he
    have hid : (UInt32.ofNat s).toNat = s := u32_toNat (by omega)
    have hid' : (UInt32.ofNat s').toNat = s' := u32_toNat (by omega)
    rw [← hid] at hs he
    rw [← hid'] at hs' he
    rw [← hid, ← hid', hsep _ _ hs hs' ((h.same_iff hv hbytes hs hs').mp he)]
  · intro hinj s s' hs hs' halike
    apply UInt32.toNat_inj.mp
    exact hinj _ hs _ hs' ((h.same_iff hv hbytes hs hs').mpr halike)

end

end dfajit.alike
