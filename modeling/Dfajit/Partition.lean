-- The partition that minimization refines: each round numbers the signatures of
-- the states in their order, and the rounds come to an end.
import Dfajit.Lib.Numbering
import Dfajit.Minimize

namespace dfajit.partition

open error table numbering

/-! ## Maps that number their keys -/

/-- The map knows these keys, and numbers them in their order from `base` on. -/
structure Tracks {κ : Type} [DecidableEq κ] (base : Nat) (seen : List κ) (map : Classes κ) :
    Prop where
  next : map.next_class = .ofNat (base + seen.length)
  get : ∀ k, map.entries.lookup k =
    if k ∈ seen then some (.ofNat (base + seen.idxOf k)) else none

section

variable {κ : Type} [DecidableEq κ] {base : Nat} {seen : List κ} {map : Classes κ}

theorem tracks_empty (base : Nat) :
    Tracks base ([] : List κ) { entries := [], next_class := .ofNat base } := by
  refine ⟨rfl, ?_⟩
  intro k
  simp

/-- The class of a key is its number, a new key's the next one. -/
theorem Tracks.of (h : Tracks base seen map) (k : κ) :
    (map.of k).1 = .ofNat (base + (note seen k).idxOf k) ∧
      Tracks base (note seen k) (map.of k).2 := by
  unfold Classes.of
  rw [h.get k]
  by_cases hk : k ∈ seen
  · have hsame : note seen k = seen := if_pos hk
    rw [if_pos hk, hsame]
    exact ⟨rfl, h⟩
  · have hnew : note seen k = seen ++ [k] := if_neg hk
    have hlast : (seen ++ [k]).idxOf k = seen.length := by
      rw [List.idxOf_append_of_notMem hk, List.idxOf_cons_self, Nat.add_zero]
    rw [if_neg hk, hnew, hlast]
    refine ⟨h.next, ?_, ?_⟩
    · simp only [h.next, List.length_append, List.length_singleton]
      rw [← Nat.add_assoc, UInt32.ofNat_add (base + seen.length) 1]
      rfl
    · intro x
      simp only [List.lookup_cons]
      by_cases hx : x = k
      · subst hx
        rw [beq_self_eq_true, if_pos (by simp), hlast, h.next]
      · have hne : (x == k) = false := beq_eq_false_iff_ne.mpr hx
        rw [hne]
        simp only
        rw [h.get x]
        by_cases hin : x ∈ seen
        · rw [if_pos hin, if_pos (by simp [hin]), List.idxOf_append_of_mem hin]
        · rw [if_neg hin, if_neg (by simp [hin, hx])]

end

/-! ## A loop that numbers keys -/

section

variable {κ : Type} [DecidableEq κ]

/-- The keys of the first places, each where it comes first. -/
def noted (key : Nat → Option κ) (n : Nat) : List κ := firsts ((List.range n).filterMap key)

theorem noted_succ (key : Nat → Option κ) (n : Nat) :
    noted key (n + 1) = match key n with
      | some k => note (noted key n) k
      | none => noted key n := by
  unfold noted
  rw [List.range_succ, List.filterMap_append]
  cases hk : key n with
  | some k =>
    have hlast : List.filterMap key [n] = [k] := by simp [hk]
    rw [hlast, firsts_snoc]
  | none =>
    have hlast : List.filterMap key [n] = [] := by simp [hk]
    rw [hlast, List.append_nil]

theorem mem_noted {key : Nat → Option κ} {n i : Nat} {k : κ} (hi : i < n) (hk : key i = some k) :
    k ∈ noted key n :=
  mem_firsts.mpr (List.mem_filterMap.mpr ⟨i, List.mem_range.mpr hi, hk⟩)

/-- The class of a place with a key is the number of the key. A place with no key
keeps what it had. -/
def classed (base : Nat) (old : List UInt32) (key : Nat → Option κ) (n i : Nat) : UInt32 :=
  match key i with
  | some k => .ofNat (base + (noted key n).idxOf k)
  | none => (old[i]?).getD 0

theorem classed_succ {base : Nat} {old : List UInt32} {key : Nat → Option κ} {n i : Nat}
    (hi : i < n) : classed base old key (n + 1) i = classed base old key n i := by
  unfold classed
  cases hk : key i with
  | none => rfl
  | some k =>
    simp only
    rw [noted_succ]
    split
    · rw [idxOf_note (mem_noted hi hk)]
    · rfl

/-- The loop after `k` places: those have their classes, and the others what they
had. -/
structure Classing (base : Nat) (old : List UInt32) (key : Nat → Option κ) (n k : Nat)
    (work : List UInt32 × Classes κ) : Prop where
  len : work.1.length = n
  get : ∀ i < n, work.1[i]? = some (if i < k then classed base old key k i else (old[i]?).getD 0)
  tracks : Tracks base (noted key k) work.2

section

variable {base n k : Nat} {old partition : List UInt32} {key : Nat → Option κ} {map : Classes κ}

theorem classing_start (hold : old.length = n) :
    Classing base old key n 0 (old, { entries := [], next_class := .ofNat base }) := by
  refine ⟨hold, ?_, tracks_empty base⟩
  intro i hi
  have hi' : i < old.length := by omega
  rw [if_neg (Nat.not_lt_zero i), List.getElem?_eq_getElem hi']
  rfl

/-- One place more changes no other place. -/
theorem classing_other {i : Nat} (hne : i ≠ k) :
    (if i < k + 1 then classed base old key (k + 1) i else (old[i]?).getD 0) =
      if i < k then classed base old key k i else (old[i]?).getD 0 := by
  by_cases hlt : i < k
  · rw [if_pos hlt, if_pos (by omega), classed_succ hlt]
  · rw [if_neg hlt, if_neg (by omega)]

theorem Classing.skip (h : Classing base old key n k (partition, map)) (hkey : key k = none) :
    Classing base old key n (k + 1) (partition, map) := by
  have hsucc := noted_succ key k
  rw [hkey] at hsucc
  refine ⟨h.len, ?_, by rw [hsucc]; exact h.tracks⟩
  intro i hi
  by_cases he : i = k
  · subst he
    rw [h.get i hi, if_neg (Nat.lt_irrefl i), if_pos (Nat.lt_succ_self i)]
    unfold classed
    rw [hkey]
  · rw [classing_other he]
    exact h.get i hi

theorem Classing.note (h : Classing base old key n k (partition, map)) {x : κ} (hk : k < n)
    (hkey : key k = some x) :
    Classing base old key n (k + 1) (partition.set k (map.of x).1, (map.of x).2) := by
  have hsucc := noted_succ key k
  have hlen : partition.length = n := h.len
  rw [hkey] at hsucc
  obtain ⟨hclass, hnext⟩ := h.tracks.of x
  refine ⟨by simpa using hlen, ?_, by rw [hsucc]; exact hnext⟩
  intro i hi
  by_cases he : i = k
  · subst he
    rw [List.getElem?_set_self (by omega), if_pos (Nat.lt_succ_self i), hclass]
    unfold classed
    rw [hkey]
    simp only
    rw [hsucc]
  · rw [List.getElem?_set_ne (Ne.symm he), classing_other he]
    exact h.get i hi

/-- At the end each place has its class. -/
theorem Classing.eq (h : Classing base old key n n (partition, map)) :
    partition = (List.range n).map (classed base old key n) := by
  have hlen : partition.length = n := h.len
  apply List.ext_getElem?
  intro i
  by_cases hi : i < n
  · rw [h.get i hi, if_pos hi, List.getElem?_map, List.getElem?_range hi]
    rfl
  · rw [List.getElem?_eq_none (by omega), List.getElem?_eq_none (by simp; omega)]

end

theorem number_loop (step : List UInt32 × Classes κ → Nat → Res (List UInt32 × Classes κ))
    (key : Nat → Option κ) (base n : Nat) (old : List UInt32) (hold : old.length = n)
    (hstep : ∀ i < n, ∀ partition map, partition.length = n →
      step (partition, map) i = .ok (match key i with
        | some k => (partition.set i (map.of k).1, (map.of k).2)
        | none => (partition, map))) :
    ∃ map, (List.range n).foldlM step (old, { entries := [], next_class := .ofNat base }) =
        .ok ((List.range n).map (classed base old key n), map) ∧
      map.next_class = .ofNat (base + (noted key n).length) := by
  obtain ⟨⟨partition, map⟩, hrun, hend⟩ := foldlM_range step n
    (old, { entries := [], next_class := .ofNat base }) (Classing base old key n)
    (classing_start hold)
    (by
      rintro k hk ⟨partition, map⟩ h
      rw [hstep k hk partition map h.len]
      refine ⟨_, rfl, ?_⟩
      cases hkey : key k with
      | none => exact h.skip hkey
      | some x => exact h.note hk hkey)
  refine ⟨map, ?_, hend.tracks.next⟩
  rw [hrun, hend.eq]

end

/-! ## One round -/

/-- The class of a state. -/
def class_at (p : List UInt32) (s : Nat) : UInt32 := (p[s]?).getD 0

/-- The target of a state for a byte, as it stands in the table. -/
def target (t : TransitionTable) (s b : Nat) : UInt32 :=
  (t.transitions[s * t.class_count + b]?).getD 0

/-- The class that a target counts as. -/
def target_at (t : TransitionTable) (p : List UInt32) (x : UInt32) : UInt32 :=
  if x.toNat < t.state_count then class_at p x.toNat else 0

/-- The signature of a state. -/
def sig (t : TransitionTable) (p : List UInt32) (s : Nat) : List UInt32 :=
  class_at p s :: (List.range t.class_count).map fun b => target_at t p (target t s b)

def sigs (t : TransitionTable) (p : List UInt32) : List (List UInt32) :=
  (List.range t.state_count).map (sig t p)

/-- The partition after one more round. -/
def next (t : TransitionTable) (p : List UInt32) : List UInt32 :=
  (number (sigs t p)).map UInt32.ofNat

/-- How many classes a partition has. -/
def count (p : List UInt32) : Nat := (firsts p).length

section

variable {t : TransitionTable} {p : List UInt32} {s s' : Nat}

theorem class_at_get (hs : s < p.length) : p[s]? = some (class_at p s) := by
  unfold class_at
  rw [List.getElem?_eq_getElem hs]
  rfl

theorem index_class_at (hs : s < p.length) : index p s = .ok (class_at p s) :=
  index_ok (class_at_get hs)

theorem target_class_eq (hp : p.length = t.state_count) (x : UInt32) :
    t.target_class p x = .ok (target_at t p x) := by
  unfold TransitionTable.target_class target_at
  split
  · exact index_class_at (by omega)
  · rfl

theorem index_target (hfit : t.transitions.length = t.state_count * t.class_count) {b : Nat}
    (hs : s < t.state_count) (hb : b < t.class_count) :
    index t.transitions (s * t.class_count + b) = .ok (target t s b) := by
  have hlt : s * t.class_count + b < t.transitions.length := by
    rw [hfit]
    exact place_lt hs hb
  unfold target
  rw [index_ok (List.getElem?_eq_getElem hlt), List.getElem?_eq_getElem hlt]
  rfl

theorem signature_eq (hfit : t.transitions.length = t.state_count * t.class_count)
    (hp : p.length = t.state_count) (hs : s < t.state_count) :
    t.signature p s = .ok (sig t p s) := by
  unfold TransitionTable.signature sig
  rw [index_class_at (by omega), ok_bind, mapM_ok (g := fun b => target_at t p (target t s b))]
  · rfl
  · intro b hb
    rw [index_target hfit hs (List.mem_range.mp hb), ok_bind, target_class_eq hp]

theorem noted_sigs (t : TransitionTable) (p : List UInt32) :
    noted (fun s => some (sig t p s)) t.state_count = firsts (sigs t p) := by
  unfold noted sigs
  rw [List.filterMap_eq_map']

theorem refine_eq (hfit : t.transitions.length = t.state_count * t.class_count)
    (hp : p.length = t.state_count) :
    t.refine p = .ok (next t p, .ofNat (firsts (sigs t p)).length) := by
  obtain ⟨map, hrun, hnext⟩ := number_loop (t.refine_step p)
    (fun s => some (sig t p s)) 0 t.state_count p hp (by
      intro i hi partition map hlen
      unfold TransitionTable.refine_step set_index
      simp only [signature_eq hfit hp hi, ok_bind]
      rw [if_pos (by omega), ok_bind])
  have hclassed : (List.range t.state_count).map
      (classed 0 p (fun s => some (sig t p s)) t.state_count) = next t p := by
    unfold next number classed
    rw [noted_sigs]
    unfold sigs
    rw [List.map_map, List.map_map]
    apply List.map_congr_left
    intro s _
    simp only [Nat.zero_add]
    rfl
  rw [hclassed] at hrun
  rw [noted_sigs, Nat.zero_add] at hnext
  unfold TransitionTable.refine
  rw [← hnext]
  have hzero : (0 : UInt32) = .ofNat 0 := rfl
  rw [hzero, hrun]
  rfl

/-! ## The numbers of a partition -/

theorem sigs_length (t : TransitionTable) (p : List UInt32) :
    (sigs t p).length = t.state_count := by
  unfold sigs
  rw [List.length_map, List.length_range]

theorem next_length (t : TransitionTable) (p : List UInt32) :
    (next t p).length = t.state_count := by
  unfold next
  rw [List.length_map, number_length, sigs_length]

theorem sig_mem (p : List UInt32) (hs : s < t.state_count) : sig t p s ∈ sigs t p :=
  List.mem_map_of_mem (List.mem_range.mpr hs)

theorem next_class (p : List UInt32) (hs : s < t.state_count) :
    class_at (next t p) s = .ofNat (number_of (sigs t p) (sig t p s)) := by
  have hget : (sigs t p)[s]? = some (sig t p s) := by
    unfold sigs
    rw [List.getElem?_map, List.getElem?_range hs]
    rfl
  unfold class_at next
  rw [List.getElem?_map, number_get hget, Option.map_some, Option.getD_some]

/-- Numbers of states fit into 32 bits. -/
theorem ofNat_inj {a b : Nat} (ha : a ≤ t.state_count) (hb : b ≤ t.state_count) :
    UInt32.ofNat a = UInt32.ofNat b ↔ a = b := by
  have hs := t.states_le
  unfold MAX_STATES at hs
  exact u32_inj (by omega) (by omega)

theorem number_sigs_le {c : Nat} (hc : c ∈ number (sigs t p)) : c ≤ t.state_count := by
  have h1 := number_lt hc
  have h2 := firsts_length_le (sigs t p)
  rw [sigs_length] at h2
  omega

theorem next_same (p : List UInt32) (hs : s < t.state_count) (hs' : s' < t.state_count) :
    class_at (next t p) s = class_at (next t p) s' ↔ sig t p s = sig t p s' := by
  have h1 : number_of (sigs t p) (sig t p s) ∈ number (sigs t p) :=
    List.mem_map.mpr ⟨_, sig_mem p hs, rfl⟩
  have h2 : number_of (sigs t p) (sig t p s') ∈ number (sigs t p) :=
    List.mem_map.mpr ⟨_, sig_mem p hs', rfl⟩
  rw [next_class p hs, next_class p hs', ofNat_inj (number_sigs_le h1) (number_sigs_le h2)]
  exact number_of_inj (sig_mem p hs)

/-- Two states have one signature when they have one class and their targets
have one class, column by column. -/
theorem sig_eq_iff : sig t p s = sig t p s' ↔ class_at p s = class_at p s' ∧
    ∀ b < t.class_count, target_at t p (target t s b) = target_at t p (target t s' b) := by
  unfold sig
  rw [List.cons.injEq, List.map_inj_left]
  simp only [List.mem_range]

/-- A round keeps apart what was apart. -/
theorem next_refines (hs : s < t.state_count) (hs' : s' < t.state_count)
    (h : class_at (next t p) s = class_at (next t p) s') : class_at p s = class_at p s' :=
  (List.cons.inj ((next_same p hs hs').mp h)).1

/-- A partition whose classes are numbered in their order. -/
structure Numbered (t : TransitionTable) (p : List UInt32) : Prop where
  len : p.length = t.state_count
  eq : p = (number p).map UInt32.ofNat

theorem number_next (t : TransitionTable) (p : List UInt32) :
    number (next t p) = number (sigs t p) := by
  unfold next
  rw [number_map, number_number]
  intro a ha b hb he
  exact (ofNat_inj (number_sigs_le ha) (number_sigs_le hb)).mp he

theorem next_numbered (t : TransitionTable) (p : List UInt32) : Numbered t (next t p) := by
  refine ⟨next_length t p, ?_⟩
  rw [number_next]
  rfl

/-- The start state has class 0. -/
theorem Numbered.start (h : Numbered t p) (hsome : 0 < t.state_count) : class_at p 0 = 0 := by
  have hne : p ≠ [] := by
    intro hnil
    have hlen := h.len
    rw [hnil, List.length_nil] at hlen
    omega
  unfold class_at
  rw [h.eq, List.getElem?_map, number_head hne]
  rfl

theorem count_next (t : TransitionTable) (p : List UInt32) :
    count (next t p) = (firsts (sigs t p)).length := by
  have h : firsts ((number (sigs t p)).map UInt32.ofNat) =
      (firsts (number (sigs t p))).map UInt32.ofNat :=
    firsts_map fun a ha b hb he => (ofNat_inj (number_sigs_le ha) (number_sigs_le hb)).mp he
  unfold count next
  rw [h, List.length_map, firsts_number_length]

theorem count_le (hp : p.length = t.state_count) : count p ≤ t.state_count := by
  have h := firsts_length_le p
  unfold count
  omega

/-- There are as many classes as states just when no two states are in one class. -/
theorem count_full_iff (hp : p.length = t.state_count) :
    t.state_count ≤ count p ↔ ∀ s < t.state_count, ∀ s' < t.state_count,
      class_at p s = class_at p s' → s = s' := by
  unfold count
  rw [← hp, firsts_length_eq_iff]
  constructor
  · intro hnodup s hs s' hs' he
    apply (List.getElem?_inj hs hnodup).mp
    rw [class_at_get hs, class_at_get hs', he]
  · intro hinj
    rw [List.nodup_iff_getElem?_ne_getElem?]
    intro i j hij hj he
    rw [class_at_get (by omega), class_at_get hj, Option.some.injEq] at he
    have := hinj i (by omega) j hj he
    omega

theorem sigs_heads (hp : p.length = t.state_count) :
    (sigs t p).map (fun sig => sig.headD 0) = p := by
  unfold sigs
  rw [List.map_map]
  apply List.ext_getElem?
  intro i
  by_cases hi : i < t.state_count
  · rw [List.getElem?_map, List.getElem?_range hi, List.getElem?_eq_getElem (by omega)]
    simp only [Option.map_some, Function.comp_apply, sig, List.headD_cons, class_at]
    rw [List.getElem?_eq_getElem (by omega)]
    rfl
  · rw [List.getElem?_eq_none (by simp; omega), List.getElem?_eq_none (by omega)]

/-- A round that finds no more classes changes nothing. -/
theorem next_of_count (h : Numbered t p) (hc : count (next t p) ≤ count p) : next t p = p := by
  rw [count_next] at hc
  have hheads := sigs_heads h.len
  have hnum : number p = number (sigs t p) := by
    have h1 : number ((sigs t p).map fun sig => sig.headD 0) = number (sigs t p) :=
      number_of_same_length (by rw [hheads]; exact hc)
    rwa [hheads] at h1
  have heq := h.eq
  rw [hnum] at heq
  exact heq.symm

/-! ## The rounds -/

/-- What a round keeps holds at the end. Each round but the last finds one more
class, so the rounds end before there are more classes than states. -/
theorem refine_loop_numbered (hfit : t.transitions.length = t.state_count * t.class_count)
    (inv : List UInt32 → Prop) (hinv : ∀ p, Numbered t p → inv p → inv (next t p)) {rounds : Nat}
    (hp : Numbered t p) (hi : inv p) (hr : t.state_count < rounds + count p) :
    ∃ q, t.refine_loop rounds p (.ofNat (count p)) = .ok (q, .ofNat (count q)) ∧ Numbered t q ∧
      inv q ∧ next t q = q := by
  induction rounds generalizing p with
  | zero =>
    have := count_le hp.len
    omega
  | succ rounds ih =>
    unfold TransitionTable.refine_loop
    rw [refine_eq hfit hp.len, ok_bind, ← count_next]
    simp only
    split
    · rename_i hchanged
      apply ih (next_numbered t p) (hinv p hp hi)
      have hlt : count p < count (next t p) := by
        by_contra hge
        have hsame := next_of_count hp (by omega)
        rw [hsame] at hchanged
        rcases hchanged with h | h
        · exact h rfl
        · exact h rfl
      omega
    · rename_i hsame
      have hnext : next t p = p := by
        by_contra hne
        exact hsame (Or.inr hne)
      exact ⟨p, rfl, hp, hi, hnext⟩

/-- The loop ends, from every first partition, with a partition that one more
round would not change. -/
theorem refine_loop_eq (hfit : t.transitions.length = t.state_count * t.class_count)
    (inv : List UInt32 → Prop) (hinv : ∀ p, Numbered t p → inv p → inv (next t p))
    (hp : p.length = t.state_count) (hi : inv (next t p)) (num_classes : UInt32) :
    ∃ q, t.refine_loop (t.state_count + 2) p num_classes = .ok (q, .ofNat (count q)) ∧
      Numbered t q ∧ inv q ∧ next t q = q := by
  unfold TransitionTable.refine_loop
  rw [refine_eq hfit hp, ok_bind, ← count_next]
  simp only
  split
  · exact refine_loop_numbered hfit inv hinv (next_numbered t p) hi (by omega)
  · rename_i hsame
    have hnext : next t p = p := by
      by_contra hne
      exact hsame (Or.inr hne)
    have hnum : UInt32.ofNat (count (next t p)) = num_classes := by
      by_contra hne
      exact hsame (Or.inl hne)
    rw [hnext] at hnum hi
    have hnumbered := next_numbered t p
    rw [hnext] at hnumbered
    rw [← hnum]
    exact ⟨p, rfl, hnumbered, hi, hnext⟩

end

/-! ## The first partition -/

/-- The pattern of a state, which its last accept entry names. -/
def pid_at (t : TransitionTable) (s : Nat) : Option UInt32 :=
  t.state_to_pattern.lookup (.ofNat s)

theorem state_to_pattern_eq (t : TransitionTable) : t.state_to_pattern = t.accept_states.reverse := by
  unfold TransitionTable.state_to_pattern
  simp

theorem mem_of_pid_at {t : TransitionTable} {s : Nat} {pid : UInt32} (h : pid_at t s = some pid) :
    (UInt32.ofNat s, pid) ∈ t.accept_states := by
  unfold pid_at at h
  obtain ⟨l1, l2, heq, _⟩ := List.lookup_eq_some_iff.mp h
  rw [state_to_pattern_eq] at heq
  rw [← List.mem_reverse, heq]
  simp

theorem pid_at_of_mem {t : TransitionTable} (hv : t.Valid) {s pid : UInt32} (h : (s, pid) ∈ t.accept_states) :
    pid_at t s.toNat = some pid := by
  cases hp : pid_at t s.toNat with
  | none =>
    unfold pid_at at hp
    rw [state_to_pattern_eq, UInt32.ofNat_toNat, List.lookup_eq_none_iff] at hp
    have hne := hp _ (List.mem_reverse.mpr h)
    simp at hne
  | some pid' =>
    have hmem := mem_of_pid_at hp
    rw [UInt32.ofNat_toNat] at hmem
    have heq := List.inj_on_of_nodup_map hv.one_each hmem h rfl
    rw [(Prod.mk.inj heq).2]

/-- The partition before the first round. -/
def grouped (t : TransitionTable) : List UInt32 :=
  (List.range t.state_count).map
    (classed 1 (List.replicate t.state_count 0) (pid_at t) t.state_count)

section

variable {t : TransitionTable} {s s' : Nat}

theorem initial_partition_eq (t : TransitionTable) :
    ∃ num_classes, t.initial_partition = .ok (grouped t, num_classes) := by
  obtain ⟨map, hrun, _⟩ := number_loop t.group_step (pid_at t) 1 t.state_count
    (List.replicate t.state_count 0) List.length_replicate (by
      intro i hi partition map hlen
      unfold TransitionTable.group_step set_index pid_at
      simp only
      cases t.state_to_pattern.lookup (.ofNat i) with
      | some pid =>
        simp only
        rw [if_pos (by omega), ok_bind]
      | none => rfl)
  refine ⟨map.next_class, ?_⟩
  unfold TransitionTable.initial_partition
  have hone : (1 : UInt32) = .ofNat 1 := rfl
  rw [hone, hrun]
  rfl

theorem grouped_length (t : TransitionTable) : (grouped t).length = t.state_count := by
  unfold grouped
  rw [List.length_map, List.length_range]

theorem grouped_class (hs : s < t.state_count) :
    class_at (grouped t) s = match pid_at t s with
      | some pid => .ofNat (1 + (noted (pid_at t) t.state_count).idxOf pid)
      | none => 0 := by
  unfold class_at grouped
  rw [List.getElem?_map, List.getElem?_range hs]
  simp only [Option.map_some, Option.getD_some, classed]
  cases pid_at t s with
  | some pid => rfl
  | none =>
    simp only
    rw [List.getElem?_replicate, if_pos hs]
    rfl

theorem noted_lt {pid : UInt32} (hs : s < t.state_count) (h : pid_at t s = some pid) :
    1 + (noted (pid_at t) t.state_count).idxOf pid ≤ t.state_count := by
  have h1 := List.idxOf_lt_length_of_mem (mem_noted hs h)
  have h2 : (noted (pid_at t) t.state_count).length ≤ t.state_count := by
    unfold noted
    apply Nat.le_trans (firsts_length_le _)
    apply Nat.le_trans (List.length_filterMap_le _ _)
    rw [List.length_range]
  omega

/-- The first partition tells apart what has different patterns. -/
theorem grouped_same (hs : s < t.state_count) (hs' : s' < t.state_count) :
    class_at (grouped t) s = class_at (grouped t) s' ↔ pid_at t s = pid_at t s' := by
  rw [grouped_class hs, grouped_class hs']
  have hzero : (0 : UInt32) = .ofNat 0 := rfl
  cases h : pid_at t s with
  | none =>
    cases h' : pid_at t s' with
    | none => simp
    | some pid =>
      simp only
      rw [hzero, ofNat_inj (t := t) (by omega) (noted_lt hs' h')]
      constructor
      · omega
      · rintro ⟨⟩
  | some pid =>
    cases h' : pid_at t s' with
    | none =>
      simp only
      rw [hzero, ofNat_inj (t := t) (noted_lt hs h) (by omega)]
      constructor
      · omega
      · rintro ⟨⟩
    | some pid' =>
      simp only
      rw [ofNat_inj (t := t) (noted_lt hs h) (noted_lt hs' h'), Nat.add_left_cancel_iff,
        Option.some.injEq]
      exact List.idxOf_inj (mem_noted hs h)

/-- Class 0 is that of the states with no pattern. -/
theorem grouped_zero (hs : s < t.state_count) : class_at (grouped t) s = 0 ↔ pid_at t s = none := by
  rw [grouped_class hs]
  have hzero : (0 : UInt32) = .ofNat 0 := rfl
  cases h : pid_at t s with
  | none => simp
  | some pid =>
    simp only
    rw [hzero, ofNat_inj (t := t) (noted_lt hs h) (by omega)]
    constructor
    · omega
    · rintro ⟨⟩

end

/-- For each table whose vector has just its cells, whatever its targets and its
accept entries are, `while changed` stops within `state_count + 2` rounds: the
last one gives the partition again. Then `num_classes` is the number of different
classes in the partition, and there are no more of them than states. -/
theorem the_refinement_stops_within_two_more_rounds_than_states (t : TransitionTable)
    (hlen : t.transitions.length = t.state_count * t.class_count) :
    ∃ p k q num_classes, t.initial_partition = .ok (p, k) ∧
      t.refine_loop (t.state_count + 2) p k = .ok (q, num_classes) ∧
      t.refine q = .ok (q, num_classes) ∧ q.length = t.state_count ∧
      num_classes.toNat = q.toFinset.card ∧ num_classes.toNat ≤ t.state_count := by
  obtain ⟨k, hgroup⟩ := initial_partition_eq t
  obtain ⟨q, hloop, hq, _, hfixed⟩ := refine_loop_eq hlen (fun _ => True) (fun _ _ _ => trivial)
    (grouped_length t) trivial k
  have hle := count_le hq.len
  have hstates := t.states_le
  have hcount : (UInt32.ofNat (count q)).toNat = count q := by
    unfold MAX_STATES at hstates
    rw [u32_toNat (by omega)]
  refine ⟨_, k, q, _, hgroup, hloop, ?_, hq.len, ?_, ?_⟩
  · rw [refine_eq hlen hq.len, ← count_next, hfixed]
  · rw [hcount]
    exact firsts_length q
  · rw [hcount]
    exact hle

/-- The refinement of three states with a flagged target and one that is no state. -/
theorem the_refinement_of_targets_that_are_no_states_stops :
    ∃ t, TransitionTable.new .w64 3 1 = .ok t ∧
      ∃ p k q num_classes,
        (t.transitions_mut fun _ => [0x8000_0001, 9, 1]).initial_partition = .ok (p, k) ∧
        (t.transitions_mut fun _ => [0x8000_0001, 9, 1]).refine_loop
          ((t.transitions_mut fun _ => [0x8000_0001, 9, 1]).state_count + 2) p k =
            .ok (q, num_classes) ∧
        (t.transitions_mut fun _ => [0x8000_0001, 9, 1]).refine q = .ok (q, num_classes) ∧
        q.length = (t.transitions_mut fun _ => [0x8000_0001, 9, 1]).state_count ∧
        num_classes.toNat = q.toFinset.card ∧
        num_classes.toNat ≤ (t.transitions_mut fun _ => [0x8000_0001, 9, 1]).state_count := by
  obtain ⟨t, hnew⟩ : ∃ t, TransitionTable.new .w64 3 1 = .ok t := ⟨_, rfl⟩
  obtain ⟨hn, hc, _⟩ := TransitionTable.new_ok hnew
  have hstates : (t.transitions_mut fun _ => [0x8000_0001, 9, 1]).state_count = 3 := hn
  have hclasses : (t.transitions_mut fun _ => [0x8000_0001, 9, 1]).class_count = 1 := hc
  refine ⟨t, hnew, the_refinement_stops_within_two_more_rounds_than_states _ ?_⟩
  rw [hstates, hclasses]
  rfl

end dfajit.partition
