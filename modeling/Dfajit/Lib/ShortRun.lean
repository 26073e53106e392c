-- Runs of a machine that may stop. Among finitely many states, what a run
-- reaches, a short run reaches.
import Mathlib.Data.Finset.Card

namespace short_run

variable {σ α : Type*}

/-- The state after the symbols, if the machine does not stop on the way. -/
def run (step : σ → α → Option σ) : σ → List α → Option σ
  | s, [] => some s
  | s, a :: w => (step s a).bind fun s' => run step s' w

variable {step : σ → α → Option σ} {s s' : σ} {v w : List α}

theorem run_append : run step s (v ++ w) = (run step s v).bind fun s' => run step s' w := by
  induction v generalizing s with
  | nil => rfl
  | cons a v ih =>
    simp only [List.cons_append, run]
    cases step s a with
    | none => rfl
    | some s1 =>
      simp only [Option.bind_some]
      exact ih

theorem run_snoc {a : α} {s1 : σ} (h : run step s w = some s1) (hstep : step s1 a = some s') :
    run step s (w ++ [a]) = some s' := by
  rw [run_append, h, Option.bind_some]
  simp only [run, hstep, Option.bind_some]

/-- A run stays in a set that no step leaves. -/
theorem run_mem {S : Finset σ} (hS : ∀ s ∈ S, ∀ a s', step s a = some s' → s' ∈ S) (hs : s ∈ S)
    (h : run step s w = some s') : s' ∈ S := by
  induction w generalizing s with
  | nil =>
    cases h
    exact hs
  | cons a w ih =>
    obtain ⟨s1, hstep, hrun⟩ := Option.bind_eq_some_iff.mp h
    exact ih (hS s hs a s1 hstep) hrun

/-- A run goes through a state after each number of symbols. -/
theorem run_take (h : run step s w = some s') (k : Nat) :
    ∃ s1, run step s (w.take k) = some s1 ∧ run step s1 (w.drop k) = some s' := by
  rw [← List.take_append_drop k w, run_append] at h
  exact Option.bind_eq_some_iff.mp h

/-- What is between two visits to one state can be left out. -/
theorem run_cut {i j : Nat} {s1 : σ} (hi : run step s (w.take i) = some s1)
    (hj : run step s1 (w.drop j) = some s') :
    run step s (w.take i ++ w.drop j) = some s' := by
  rw [run_append, hi, Option.bind_some, hj]

/-- A shortest run goes through no state twice, so it is no longer than there
are states. -/
theorem exists_short_run {S : Finset σ} (hS : ∀ s ∈ S, ∀ a s', step s a = some s' → s' ∈ S)
    (hs : s ∈ S) (h : run step s w = some s') :
    ∃ w', w'.length ≤ S.card ∧ run step s w' = some s' := by
  generalize hn : w.length = n
  induction n using Nat.strong_induction_on generalizing w with
  | _ n ih =>
    by_cases hlen : w.length ≤ S.card
    · exact ⟨w, hlen, h⟩
    choose visit hto hfrom using run_take h
    obtain ⟨i, hi, j, hj, hne, hsame⟩ :=
      Finset.exists_ne_map_eq_of_card_lt_of_maps_to (s := Finset.range w.length) (t := S)
        (by rw [Finset.card_range]; omega) (f := visit) (fun k _ => run_mem hS hs (hto k))
    have hshort : ∀ i j, i < j → j < w.length → visit i = visit j →
        ∃ w', w'.length ≤ S.card ∧ run step s w' = some s' := by
      intro i j hij hj hsame
      have hcut := run_cut (hto i) (hsame ▸ hfrom j)
      exact ih _ (by simp only [List.length_append, List.length_take, List.length_drop]; omega)
        hcut rfl
    rw [Finset.mem_range] at hi hj
    rcases Nat.lt_or_gt_of_ne hne with hlt | hlt
    · exact hshort i j hlt hj hsame
    · exact hshort j i hlt hi hsame.symm

/-! ## Texts that stay in a set of states -/

variable {next : σ → α → σ}

/-- The machine that stops where it would leave the states that are `ok`. -/
def guarded (next : σ → α → σ) (ok : σ → Prop) [DecidablePred ok] (s : σ) (a : α) : Option σ :=
  if ok (next s a) then some (next s a) else none

theorem run_guarded {ok : σ → Prop} [DecidablePred ok] :
    run (guarded next ok) s w = some s' ↔
      w.foldl next s = s' ∧ ∀ v, v ≠ [] → v <+: w → ok (v.foldl next s) := by
  induction w generalizing s with
  | nil =>
    simp only [run, List.foldl_nil, Option.some.injEq]
    refine ⟨fun h => ⟨h, fun v hv hpre => absurd (List.prefix_nil.mp hpre) hv⟩, fun h => h.1⟩
  | cons a w ih =>
    unfold run guarded
    by_cases hok : ok (next s a)
    · rw [if_pos hok, Option.bind_some]
      change run (guarded next ok) (next s a) w = some s' ↔ _
      rw [ih, List.foldl_cons]
      refine and_congr_right fun _ => ⟨fun hall v hv hpre => ?_, fun hall v hv hpre => ?_⟩
      · cases v with
        | nil => exact absurd rfl hv
        | cons b v =>
          obtain ⟨rfl, htail⟩ := List.cons_prefix_cons.mp hpre
          cases v with
          | nil => exact hok
          | cons c v => exact hall _ (List.cons_ne_nil _ _) htail
      · exact hall (a :: v) (List.cons_ne_nil _ _) (List.cons_prefix_cons.mpr ⟨rfl, hpre⟩)
    · rw [if_neg hok, Option.bind_none]
      refine iff_of_false (by simp) fun h => hok ?_
      exact h.2 [a] (List.cons_ne_nil _ _) (List.cons_prefix_cons.mpr ⟨rfl, List.nil_prefix⟩)

/-- A word that leads only through states with a property can be had short. -/
theorem exists_short_word {S : Finset σ} (hS : ∀ s ∈ S, ∀ a, next s a ∈ S) (hs : s ∈ S)
    {P : σ → Prop} (hok : ∀ v, v ≠ [] → v <+: w → P (v.foldl next s)) :
    ∃ w', w'.length ≤ S.card ∧ w'.foldl next s = w.foldl next s ∧
      ∀ v, v ≠ [] → v <+: w' → P (v.foldl next s) := by
  classical
  have hclosed : ∀ s ∈ S, ∀ a s', guarded next P s a = some s' → s' ∈ S := by
    intro s hs a s' hstep
    unfold guarded at hstep
    split at hstep
    · cases hstep
      exact hS s hs a
    · cases hstep
  obtain ⟨w', hlen, hrun⟩ := exists_short_run hclosed hs (run_guarded.mpr ⟨rfl, hok⟩)
  obtain ⟨hsame, hok'⟩ := run_guarded.mp hrun
  exact ⟨w', hlen, hsame, hok'⟩

end short_run
