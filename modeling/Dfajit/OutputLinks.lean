-- The patterns of each state. A state whose text is a pattern has this pattern,
-- and its output link leads to the next shorter pattern that ends the text. A
-- state whose text is no pattern has the longest pattern that ends its text, and
-- no output link.
import Dfajit.FailureLinks

namespace dfajit.output_links

open error table codegen dfa text_tree trie failure_links

/-! ## The patterns that end a text -/

/-- The empty pattern is never reported. -/
def IsPattern (patterns : List (List UInt8)) (v : List UInt8) : Prop := v ∈ patterns ∧ v ≠ []

instance (patterns : List (List UInt8)) : DecidablePred (IsPattern patterns) :=
  fun v => inferInstanceAs (Decidable (v ∈ patterns ∧ v ≠ []))

/-- The id of a pattern: where it stands first. -/
def pid_of (patterns : List (List UInt8)) (v : List UInt8) : UInt32 := .ofNat (patterns.idxOf v)

/-- The patterns that end the text, the longest first. -/
def ends (patterns : List (List UInt8)) (v : List UInt8) : List (List UInt8) :=
  suffix.hits (IsPattern patterns) v

/-- The pattern of a state by itself. -/
def own_pid (patterns : List (List UInt8)) (v : List UInt8) : Option UInt32 :=
  if IsPattern patterns v then some (pid_of patterns v) else none

/-- The pattern of a state by itself or by its failure links. -/
def first_pid (patterns : List (List UInt8)) (v : List UInt8) : Option UInt32 :=
  (ends patterns v).head?.map (pid_of patterns)

section

variable {strs patterns : List (List UInt8)} {v : List UInt8}

theorem not_pattern_nil : ¬ IsPattern patterns [] := fun h => h.2 rfl

theorem ends_nil : ends patterns [] = [] := suffix.hits_nil not_pattern_nil

theorem ends_border (hcov : ∀ p ∈ patterns, p ∈ strs) (hne : v ≠ []) :
    ends patterns v =
      (if IsPattern patterns v then [v] else []) ++ ends patterns (border strs v) :=
  suffix.hits_border (fun u hu => hcov u hu.1) hne

theorem ends_of_pattern (hcov : ∀ p ∈ patterns, p ∈ strs) (hv : IsPattern patterns v) :
    ends patterns v = v :: ends patterns (border strs v) := by
  rw [ends_border hcov hv.2, if_pos hv]
  rfl

theorem ends_of_not_pattern (hcov : ∀ p ∈ patterns, p ∈ strs) (hv : ¬ IsPattern patterns v) :
    ends patterns v = ends patterns (border strs v) := by
  by_cases hne : v = []
  · rw [hne]
    rfl
  · rw [ends_border hcov hne, if_neg hv, List.nil_append]

theorem first_pid_congr {u : List UInt8} (h : ends patterns u = ends patterns v) :
    first_pid patterns u = first_pid patterns v := by
  unfold first_pid
  rw [h]

theorem first_pid_of_pattern (hcov : ∀ p ∈ patterns, p ∈ strs) (hv : IsPattern patterns v) :
    first_pid patterns v = some (pid_of patterns v) := by
  unfold first_pid
  rw [ends_of_pattern hcov hv]
  rfl

end

/-! ## The patterns of a state by itself -/

theorem push_accepts_eq (as : List (UInt32 × UInt32)) (acc : List (List UInt32))
    (h : ∀ a ∈ as, a.1.toNat < acc.length) :
    ∃ acc', as.foldlM push_accept acc = .ok acc' ∧ acc'.length = acc.length ∧
      ∀ i pids, acc[i]? = some pids →
        acc'[i]? = some (pids ++ (as.filter fun a => a.1.toNat = i).map (·.2)) := by
  induction as generalizing acc with
  | nil =>
    refine ⟨acc, rfl, rfl, ?_⟩
    intro i pids hi
    simpa using hi
  | cons a as ih =>
    rw [List.forall_mem_cons] at h
    obtain ⟨ha, has⟩ := h
    have hget := List.getElem?_eq_getElem ha
    obtain ⟨acc', hrun, hlen, hacc⟩ := ih (acc.set a.1.toNat (acc[a.1.toNat] ++ [a.2]))
      (by simpa using has)
    refine ⟨acc', ?_, by simpa using hlen, ?_⟩
    · rw [List.foldlM_cons]
      unfold push_accept set_index at *
      rw [index_ok hget, ok_bind, if_pos ha, ok_bind]
      exact hrun
    · intro i pids hi
      rw [List.filter_cons]
      by_cases hia : a.1.toNat = i
      · subst hia
        rw [hget] at hi
        rw [hacc a.1.toNat (acc[a.1.toNat] ++ [a.2]) (List.getElem?_set_self ha),
          ← Option.some.inj hi]
        simp
      · rw [hacc i pids (by rw [List.getElem?_set_ne hia]; exact hi)]
        simp [hia]

/-- The first entry of a state is the first place of its text. -/
theorem first_entry {strs : List (List UInt8)} (h : Nodes strs) {v : List UInt8} (hv : v ∈ strs)
    {patterns : List (List UInt8)} (hcov : ∀ p ∈ patterns, p ∈ strs) (k : Nat) :
    ((((patterns.zipIdx k).filter fun p => !p.1.isEmpty).map fun p =>
      (state_of strs p.1, UInt32.ofNat p.2)).filter fun a =>
        a.1.toNat = (state_of strs v).toNat).head?.map (·.2) =
      if IsPattern patterns v then some (.ofNat (k + patterns.idxOf v)) else none := by
  induction patterns generalizing k with
  | nil => simp [IsPattern]
  | cons p ps ih =>
    rw [List.forall_mem_cons] at hcov
    have ih := ih hcov.2 (k + 1)
    rw [List.zipIdx_cons, List.filter_cons]
    by_cases hp : p = []
    · subst hp
      simp only [List.isEmpty_nil, Bool.not_true, if_false, Bool.false_eq_true]
      rw [ih]
      by_cases hne : v = []
      · simp [IsPattern, hne]
      · have hcons : ([] :: ps).idxOf v = ps.idxOf v + 1 :=
          List.idxOf_cons_ne _ (fun he => hne he.symm)
        simp [IsPattern, hne, hcons, Nat.add_comm, Nat.add_left_comm]
    · have hsome : (!p.isEmpty) = true := by simpa using hp
      simp only [hsome, if_true, List.map_cons]
      rw [List.filter_cons]
      by_cases hpv : p = v
      · subst hpv
        simp [IsPattern, hp]
      · have hstate : (state_of strs p).toNat ≠ (state_of strs v).toNat := by
          intro he
          exact hpv (h.inj hcov.1 hv he)
        have hcons : (p :: ps).idxOf v = ps.idxOf v + 1 := List.idxOf_cons_ne _ hpv
        have hmem : v ∈ p :: ps ↔ v ∈ ps := by simp [Ne.symm hpv]
        simp only [hstate, decide_false, if_false, Bool.false_eq_true]
        rw [ih]
        simp only [IsPattern, hmem, hcons]
        simp [Nat.add_comm, Nat.add_left_comm]

/-- The first entry of each list is the value of the text of the state. -/
structure Heads (strs : List (List UInt8)) (acc : List (List UInt32))
    (value : List UInt8 → Option UInt32) : Prop where
  len : acc.length = strs.length
  get : ∀ v ∈ strs, ∃ pids, acc[(state_of strs v).toNat]? = some pids ∧ pids.head? = value v

theorem push_accepts_heads {strs patterns : List (List UInt8)} (h : Nodes strs)
    (hcov : ∀ p ∈ patterns, p ∈ strs) :
    ∃ acc, (entries strs patterns).foldlM push_accept (List.replicate strs.length []) = .ok acc ∧
      Heads strs acc (own_pid patterns) := by
  have hin : ∀ a ∈ entries strs patterns,
      a.1.toNat < (List.replicate strs.length ([] : List UInt32)).length := by
    intro a ha
    obtain ⟨p, hp, rfl⟩ := List.mem_map.mp ha
    rw [List.length_replicate]
    exact h.state_lt (hcov _ (List.fst_mem_of_mem_zipIdx (List.mem_of_mem_filter hp)))
  obtain ⟨acc, hrun, hlen, hacc⟩ := push_accepts_eq _ _ hin
  rw [List.length_replicate] at hlen
  refine ⟨acc, hrun, hlen, ?_⟩
  intro v hv
  refine ⟨_, hacc _ [] ?_, ?_⟩
  · rw [List.getElem?_replicate, if_pos (h.state_lt hv)]
  · have hfirst := first_entry h hv hcov 0
    rw [Nat.zero_add] at hfirst
    rw [List.nil_append, List.head?_map]
    exact hfirst

/-! ## The nearest state with a pattern -/

section

variable {strs patterns : List (List UInt8)} {fail : List UInt32} {acc : List (List UInt32)}
  {v : List UInt8}

/-- Where the states of the patterns have one, the nearest state with a pattern
has the same patterns at its end. -/
theorem nearest_eq (h : Nodes strs) (hcov : ∀ p ∈ patterns, p ∈ strs)
    (hfail : ∀ u ∈ strs, FailsTo strs fail u)
    (hacc : ∀ u ∈ strs, ∃ pids, acc[(state_of strs u).toNat]? = some pids ∧
      (pids = [] → ¬ IsPattern patterns u))
    {fuel : Nat} (hv : v ∈ strs) (hfuel : v.length ≤ fuel) :
    (nearest acc fail fuel (state_of strs v) = .ok none ∧ ends patterns v = []) ∨
      ∃ u ∈ strs, nearest acc fail fuel (state_of strs v) = .ok (some (state_of strs u)) ∧
        acc[(state_of strs u).toNat]? ≠ some [] ∧ ends patterns u = ends patterns v := by
  induction fuel generalizing v with
  | zero =>
    refine Or.inl ?_
    rw [List.length_eq_zero_iff.mp (Nat.le_zero.mp hfuel)]
    refine ⟨?_, ends_nil⟩
    unfold nearest
    rw [if_pos h.state_of_nil]
  | succ fuel ih =>
    by_cases hnil : v = []
    · subst hnil
      refine Or.inl ⟨?_, ends_nil⟩
      unfold nearest
      rw [if_pos h.state_of_nil]
    obtain ⟨pids, hpids, hnone⟩ := hacc v hv
    have hlt : (border strs v).length < v.length := suffix.border_length_lt hnil
    unfold nearest
    rw [if_neg (h.state_ne_zero.mpr ⟨hv, hnil⟩), index_ok hpids, ok_bind]
    by_cases hp : pids = []
    · rw [if_neg (not_not.mpr hp), ends_of_not_pattern hcov (hnone hp)]
      simp only [index_ok (hfail v hv), ok_bind]
      exact ih (border_mem h.tree v) (by omega)
    · refine Or.inr ⟨v, hv, ?_, ?_, rfl⟩
      · rw [if_pos hp]
      · rw [hpids]
        intro he
        exact hp (Option.some.inj he)

end

/-! ## The output links -/

/-- A loop that sets each entry once, to the value of what stands at its index. -/
theorem foldlM_range_set {α β : Type} {step : List β → Nat → Res (List β)} {value : α → β} {x : β}
    {strs : List α}
    (hstep : ∀ k v ys, strs[k]? = some v → ys[k]? = some x → step ys k = .ok (ys.set k (value v))) :
    (List.range strs.length).foldlM step (List.replicate strs.length x) =
      .ok (strs.map value) := by
  have hstart : List.replicate strs.length x =
      (strs.take 0).map value ++ List.replicate (strs.length - 0) x := by simp
  obtain ⟨ys, hrun, hys⟩ := foldlM_range step strs.length (List.replicate strs.length x)
    (fun k ys => ys = (strs.take k).map value ++ List.replicate (strs.length - k) x) hstart (by
      rintro k hk _ rfl
      have hrest : List.replicate (strs.length - k) x =
          x :: List.replicate (strs.length - (k + 1)) x := by
        rw [← List.replicate_succ]
        congr 1
        omega
      have hdone : ((strs.take k).map value).length = k := by simp; omega
      refine ⟨_, hstep k _ _ (List.getElem?_eq_getElem hk) ?_, ?_⟩
      · rw [List.getElem?_append_right (by omega), hdone, hrest, Nat.sub_self]
        rfl
      · rw [hrest, List.take_succ_eq_append_getElem hk, List.map_append, List.append_assoc,
          List.set_append_right _ _ (by omega), hdone, Nat.sub_self]
        rfl)
  rw [hrun, hys, List.take_length, Nat.sub_self, List.replicate_zero, List.append_nil]

/-- The output link of a text: the state of the next shorter pattern that ends
it, where it is a pattern. -/
def out_link (strs patterns : List (List UInt8)) (v : List UInt8) : UInt32 :=
  if IsPattern patterns v then
    ((ends patterns (border strs v)).head?.map (state_of strs)).getD NONE
  else NONE

section

variable {strs patterns : List (List UInt8)} {fail links : List UInt32}
  {acc : List (List UInt32)} {v : List UInt8}

/-- Only the states of the patterns have entries of their own. -/
theorem own_entries (hacc : Heads strs acc (own_pid patterns)) (hv : v ∈ strs) :
    ∃ pids, acc[(state_of strs v).toNat]? = some pids ∧ (pids = [] ↔ ¬ IsPattern patterns v) := by
  obtain ⟨pids, hpids, hhead⟩ := hacc.get v hv
  refine ⟨pids, hpids, ?_⟩
  rw [← List.head?_eq_none_iff, hhead]
  unfold own_pid
  split <;> simp_all

/-- The step of a state sets its output link, which was not set before. -/
theorem link_step_eq (h : Nodes strs) (hcov : ∀ p ∈ patterns, p ∈ strs)
    (hlen : fail.length = strs.length) (hfail : ∀ u ∈ strs, FailsTo strs fail u)
    (hacc : Heads strs acc (own_pid patterns)) (hv : v ∈ strs)
    (hlinks : links[(state_of strs v).toNat]? = some NONE) :
    link_step acc fail links (state_of strs v).toNat =
      .ok (links.set (state_of strs v).toNat (out_link strs patterns v)) := by
  have hsame : links.set (state_of strs v).toNat NONE = links := by
    obtain ⟨hlt, hget⟩ := List.getElem?_eq_some_iff.mp hlinks
    rw [← hget, List.set_getElem_self]
  have hin := (List.getElem?_eq_some_iff.mp hlinks).1
  have hlt := h.tree.length_lt (border_mem h.tree v)
  have hnear := nearest_eq h hcov hfail (fun u hu => by
    obtain ⟨pids, hpids, hiff⟩ := own_entries hacc hu
    exact ⟨pids, hpids, hiff.mp⟩) (border_mem h.tree v) (Nat.le_of_lt (hlen ▸ hlt))
  obtain ⟨pids, hpids, hiff⟩ := own_entries hacc hv
  unfold link_step out_link
  rw [index_ok hpids, ok_bind]
  by_cases hp : IsPattern patterns v
  · rw [if_neg (fun he => hiff.mp he hp), index_ok (hfail v hv), ok_bind, if_pos hp]
    rcases hnear with ⟨hnear, hnone⟩ | ⟨u, hu, hnear, hsome, hends⟩
    · rw [hnear, ok_bind, hnone, List.head?_nil, Option.map_none, Option.getD_none, hsame]
    · obtain ⟨pids, hpids, hiff⟩ := own_entries hacc hu
      have hup : IsPattern patterns u := by
        by_contra hnot
        rw [hiff.mpr hnot] at hpids
        exact hsome hpids
      rw [hnear, ok_bind, ← hends, ends_of_pattern hcov hup]
      unfold set_index
      simp only [if_pos hin]
      rfl
  · rw [if_pos (hiff.mpr hp), if_neg hp, hsame]

theorem link_steps_eq (h : Nodes strs) (hcov : ∀ p ∈ patterns, p ∈ strs)
    (hlen : fail.length = strs.length) (hfail : ∀ u ∈ strs, FailsTo strs fail u)
    (hacc : Heads strs acc (own_pid patterns)) :
    (List.range strs.length).foldlM (link_step acc fail) (List.replicate strs.length NONE) =
      .ok (strs.map (out_link strs patterns)) := by
  apply foldlM_range_set
  intro k v links hget hlinks
  have hplace := h.toNat_of_get hget
  rw [← hplace] at hlinks ⊢
  exact link_step_eq h hcov hlen hfail hacc (List.mem_of_getElem? hget) hlinks

/-! ## The first pattern of each state -/

/-- The states below `k` have their patterns, and the others those of their own. -/
structure Inherits (strs patterns : List (List UInt8)) (k : Nat) (acc : List (List UInt32)) :
    Prop where
  len : acc.length = strs.length
  get : ∀ v ∈ strs, ∃ pids, acc[(state_of strs v).toNat]? = some pids ∧
    (pids = [] → ¬ IsPattern patterns v ∧ ((state_of strs v).toNat < k → ends patterns v = [])) ∧
    (pids ≠ [] → pids.head? = first_pid patterns v)

theorem Heads.inherits (hcov : ∀ p ∈ patterns, p ∈ strs) (h : Heads strs acc (own_pid patterns)) :
    Inherits strs patterns 0 acc := by
  refine ⟨h.len, ?_⟩
  intro v hv
  obtain ⟨pids, hpids, hhead⟩ := h.get v hv
  unfold own_pid at hhead
  refine ⟨pids, hpids, ?_, ?_⟩
  · rintro rfl
    refine ⟨?_, ?_⟩
    · intro hp
      rw [if_pos hp] at hhead
      cases hhead
    · intro hlt
      omega
  · intro hne
    by_cases hp : IsPattern patterns v
    · rw [if_pos hp] at hhead
      rw [hhead, first_pid_of_pattern hcov hp]
    · rw [if_neg hp, List.head?_eq_none_iff] at hhead
      exact absurd hhead hne

/-- A state with entries has the first pattern that ends its text in front. -/
theorem Inherits.first {k : Nat} (hi : Inherits strs patterns k acc) (hv : v ∈ strs)
    (hne : acc[(state_of strs v).toNat]? ≠ some []) :
    ∃ pid pids, acc[(state_of strs v).toNat]? = some (pid :: pids) ∧
      first_pid patterns v = some pid := by
  obtain ⟨pids, hget, _, hfirst⟩ := hi.get v hv
  cases pids with
  | nil => exact absurd hget hne
  | cons pid pids => exact ⟨pid, pids, hget, (hfirst (List.cons_ne_nil _ _)).symm⟩

/-- One more state is settled. Nothing else changes. -/
theorem Inherits.settle (h : Nodes strs) {acc' : List (List UInt32)}
    (hi : Inherits strs patterns (state_of strs v).toNat acc) (hv : v ∈ strs)
    (hlen : acc'.length = acc.length)
    (hother : ∀ w ∈ strs, w ≠ v → acc'[(state_of strs w).toNat]? = acc[(state_of strs w).toNat]?)
    {pids : List UInt32} (hown : acc'[(state_of strs v).toNat]? = some pids)
    (hnone : pids = [] → ¬ IsPattern patterns v ∧ ends patterns v = [])
    (hsome : pids ≠ [] → pids.head? = first_pid patterns v) :
    Inherits strs patterns ((state_of strs v).toNat + 1) acc' := by
  refine ⟨hlen.trans hi.len, ?_⟩
  intro w hw
  by_cases hwv : w = v
  · subst hwv
    exact ⟨pids, hown, fun he => ⟨(hnone he).1, fun _ => (hnone he).2⟩, hsome⟩
  · obtain ⟨pids, hpids, h1, h2⟩ := hi.get w hw
    refine ⟨pids, (hother w hw hwv).trans hpids, ?_, h2⟩
    intro he
    refine ⟨(h1 he).1, ?_⟩
    intro hlt
    apply (h1 he).2
    have hne : (state_of strs w).toNat ≠ (state_of strs v).toNat :=
      fun heq => hwv (h.inj hw hv heq)
    omega

theorem inherit_step_eq (h : Nodes strs) (hcov : ∀ p ∈ patterns, p ∈ strs)
    (hlen : fail.length = strs.length) (hfail : ∀ u ∈ strs, FailsTo strs fail u) (hv : v ∈ strs)
    (hi : Inherits strs patterns (state_of strs v).toNat acc) :
    ∃ acc', inherit_step fail acc (state_of strs v).toNat = .ok acc' ∧
      Inherits strs patterns ((state_of strs v).toNat + 1) acc' := by
  have hlt := h.tree.length_lt (border_mem h.tree v)
  have hnear := nearest_eq h hcov hfail (fun u hu => by
    obtain ⟨pids, hpids, hnone, _⟩ := hi.get u hu
    exact ⟨pids, hpids, fun he => (hnone he).1⟩) (border_mem h.tree v) (Nat.le_of_lt (hlen ▸ hlt))
  obtain ⟨pids, hpids, hnone, hsome⟩ := hi.get v hv
  unfold inherit_step
  rw [index_ok hpids, ok_bind]
  by_cases hp : pids = []
  · have hnot := (hnone hp).1
    rw [if_pos hp, index_ok (hfail v hv), ok_bind]
    rcases hnear with ⟨hnear, hno⟩ | ⟨u, hu, hnear, hfound, hends⟩
    · rw [hnear, ok_bind]
      refine ⟨acc, rfl, hi.settle h hv rfl (fun _ _ _ => rfl) hpids ?_ hsome⟩
      intro _
      exact ⟨hnot, (ends_of_not_pattern hcov hnot).trans hno⟩
    · obtain ⟨pid, found, hget, hfirst⟩ := hi.first hu hfound
      rw [first_pid_congr (hends.trans (ends_of_not_pattern hcov hnot).symm)] at hfirst
      have hin := (List.getElem?_eq_some_iff.mp hpids).1
      have hzero : index (pid :: found) 0 = .ok pid := rfl
      rw [hnear, ok_bind]
      simp only [index_ok hget, ok_bind]
      unfold set_index
      rw [hzero, ok_bind, if_pos hin]
      refine ⟨_, rfl, hi.settle h hv List.length_set ?_ (List.getElem?_set_self hin) ?_ ?_⟩
      · intro w hw hwv
        exact List.getElem?_set_ne fun he => hwv (h.inj hw hv he.symm)
      · intro he
        simp at he
      · intro _
        rw [hp, List.nil_append, hfirst]
        rfl
  · rw [if_neg hp]
    refine ⟨acc, rfl, hi.settle h hv rfl (fun _ _ _ => rfl) hpids ?_ hsome⟩
    intro he
    exact absurd he hp

theorem inherit_steps_eq (h : Nodes strs) (hcov : ∀ p ∈ patterns, p ∈ strs)
    (hlen : fail.length = strs.length) (hfail : ∀ u ∈ strs, FailsTo strs fail u)
    (hacc : Heads strs acc (own_pid patterns)) :
    ∃ acc', (List.range strs.length).foldlM (inherit_step fail) acc = .ok acc' ∧
      Heads strs acc' (first_pid patterns) := by
  obtain ⟨acc', hrun, hi⟩ := foldlM_range (inherit_step fail) strs.length acc
    (Inherits strs patterns) (hacc.inherits hcov) (by
      intro k hk acc hi
      have hget := List.getElem?_eq_getElem hk
      have hplace := h.toNat_of_get hget
      rw [← hplace] at hi ⊢
      exact inherit_step_eq h hcov hlen hfail (List.getElem_mem hk) hi)
  refine ⟨acc', hrun, hi.len, ?_⟩
  intro v hv
  obtain ⟨pids, hpids, hnone, hsome⟩ := hi.get v hv
  refine ⟨pids, hpids, ?_⟩
  by_cases hp : pids = []
  · unfold first_pid
    rw [(hnone hp).2 (h.state_lt hv), hp]
    rfl
  · exact hsome hp

end

/-! ## The accept entries -/

@[simp] theorem final_accepts_none (k : Nat) (acc : List (List UInt32)) :
    final_accepts k ([] :: acc) = final_accepts (k + 1) acc := rfl

@[simp] theorem final_accepts_cons (k : Nat) (pid : UInt32) (pids : List UInt32)
    (acc : List (List UInt32)) :
    final_accepts k ((pid :: pids) :: acc) = (.ofNat k, pid) :: final_accepts (k + 1) acc := rfl

theorem mem_final_accepts {acc : List (List UInt32)} {k : Nat} {a : UInt32 × UInt32} :
    a ∈ final_accepts k acc ↔
      ∃ i pids, acc[i]? = some pids ∧ pids.head? = some a.2 ∧ a.1 = .ofNat (k + i) := by
  induction acc generalizing k with
  | nil => simp [final_accepts]
  | cons pids acc ih =>
    have hrest : (∃ i p, acc[i]? = some p ∧ p.head? = some a.2 ∧ a.1 = .ofNat (k + 1 + i)) ↔
        ∃ i p, (pids :: acc)[i + 1]? = some p ∧ p.head? = some a.2 ∧
          a.1 = .ofNat (k + (i + 1)) := by
      simp only [List.getElem?_cons_succ, Nat.add_assoc, Nat.add_comm 1]
    have hsplit : (∃ i p, (pids :: acc)[i]? = some p ∧ p.head? = some a.2 ∧
        a.1 = .ofNat (k + i)) ↔ (pids.head? = some a.2 ∧ a.1 = .ofNat k) ∨
          ∃ i p, acc[i]? = some p ∧ p.head? = some a.2 ∧ a.1 = .ofNat (k + 1 + i) := by
      rw [hrest]
      constructor
      · rintro ⟨i, p, hget, hp⟩
        cases i with
        | zero =>
          rw [List.getElem?_cons_zero] at hget
          rw [Option.some.inj hget]
          exact Or.inl hp
        | succ i => exact Or.inr ⟨i, p, hget, hp⟩
      · rintro (hp | ⟨i, p, hget, hp⟩)
        · exact ⟨0, pids, rfl, hp⟩
        · exact ⟨i + 1, p, hget, hp⟩
    rw [hsplit, ← ih]
    cases pids with
    | nil => simp
    | cons pid pids =>
      obtain ⟨s, q⟩ := a
      simp only [final_accepts_cons, List.mem_cons, Prod.mk.injEq, List.head?_cons,
        Option.some.injEq]
      tauto

theorem final_accepts_nodup {acc : List (List UInt32)} {k : Nat} (h : k + acc.length ≤ 2 ^ 32) :
    ((final_accepts k acc).map (·.1)).Nodup := by
  induction acc generalizing k with
  | nil => simp [final_accepts]
  | cons pids acc ih =>
    rw [List.length_cons] at h
    cases pids with
    | nil => exact ih (by omega)
    | cons pid pids =>
      simp only [final_accepts_cons, List.map_cons, List.nodup_cons]
      refine ⟨?_, ih (by omega)⟩
      intro hmem
      obtain ⟨a, ha, he⟩ := List.mem_map.mp hmem
      obtain ⟨i, p, hget, _, hi⟩ := mem_final_accepts.mp ha
      have hlt := (List.getElem?_eq_some_iff.mp hget).1
      have hsame := (u32_inj (by omega) (by omega)).mp (hi.symm.trans he)
      omega

/-! ## All links -/

/-- The failure links, the accept entries and the output links of a trie. -/
structure Links (strs patterns : List (List UInt8)) (fail : List UInt32)
    (accepts : List (UInt32 × UInt32)) (links : List UInt32) : Prop where
  len : fail.length = strs.length
  fails : ∀ v ∈ strs, FailsTo strs fail v
  nodup : (accepts.map (·.1)).Nodup
  accepts : ∀ a, a ∈ accepts ↔ ∃ v ∈ strs, a.1 = state_of strs v ∧ first_pid patterns v = some a.2
  links : links = strs.map (out_link strs patterns)

theorem build_failure_links_eq {strs patterns : List (List UInt8)} {trans : List Row}
    (h : Spells strs trans) (hcov : ∀ p ∈ patterns, p ∈ strs) :
    ∃ fail accepts links,
      build_failure_links trans (entries strs patterns) = .ok (fail, accepts, links) ∧
      Links strs patterns fail accepts links := by
  obtain ⟨acc, hpush, hown⟩ := push_accepts_heads h.nodes hcov
  obtain ⟨fail1, hroot, hvis⟩ := (visited_start h.nodes).next h.nodes (root_step_expands h) []
  obtain ⟨fail, hqueue, hlen, hfail⟩ := queue_loop_eq h trans.length hvis (by simp)
    (by rw [h.len]; omega)
  have hlinks := link_steps_eq h.nodes hcov hlen hfail hown
  obtain ⟨acc', hinherit, hheads⟩ := inherit_steps_eq h.nodes hcov hlen hfail hown
  rw [List.nil_append] at hroot hqueue
  refine ⟨fail, final_accepts 0 acc', strs.map (out_link strs patterns), ?_, hlen, hfail, ?_, ?_,
    rfl⟩
  · unfold build_failure_links
    simp only [h.len] at hqueue ⊢
    simp only [hpush, hroot, hqueue, hlinks, hinherit, ok_bind]
  · apply final_accepts_nodup
    have hfew := h.nodes.few
    have hlen := hheads.len
    omega
  · intro a
    rw [mem_final_accepts]
    constructor
    · rintro ⟨i, pids, hget, hhead, ha⟩
      have hlt := (List.getElem?_eq_some_iff.mp hget).1
      rw [hheads.len] at hlt
      have hi := List.getElem?_eq_getElem hlt
      have hplace := h.nodes.toNat_of_get hi
      obtain ⟨pids', hget', hhead'⟩ := hheads.get _ (List.getElem_mem hlt)
      rw [hplace, hget] at hget'
      obtain rfl := Option.some.inj hget'
      refine ⟨strs[i], List.getElem_mem hlt, ?_, hhead'.symm.trans hhead⟩
      rw [ha, Nat.zero_add, h.nodes.state_of_get hi]
    · rintro ⟨v, hv, ha, hfirst⟩
      obtain ⟨pids, hget, hhead⟩ := hheads.get v hv
      refine ⟨_, pids, hget, hhead.trans hfirst, ?_⟩
      rw [ha, Nat.zero_add, UInt32.ofNat_toNat]

end dfajit.output_links
