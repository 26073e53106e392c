-- Machines that put something out in each state, and what is left of their
-- behaviour after a word. There is one machine with as many states as there are
-- residuals, and none with fewer.
import Mathlib.Data.Set.Card

namespace moore

variable {σ α β : Type*}

/-- What the machine puts out after a word, from a state. -/
def after (step : σ → α → σ) (out : σ → β) (s : σ) (w : List α) : β := out (w.foldl step s)

/-- What is left of a behaviour after a word. -/
def residual (L : List α → β) (w : List α) : List α → β := fun v => L (w ++ v)

def residuals (L : List α → β) : Set (List α → β) := Set.range (residual L)

/-! ## The states of a machine and the residuals -/

section

variable {step : σ → α → σ} {out : σ → β} {s : σ} {L : List α → β} {w : List α}

theorem after_cons (a : α) : after step out s (a :: w) = after step out (step s a) w := rfl

theorem residual_after : residual (after step out s) w = after step out (w.foldl step s) := by
  funext v
  unfold residual after
  rw [List.foldl_append]

theorem residual_residual (v : List α) : residual (residual L w) v = residual L (w ++ v) := by
  funext u
  unfold residual
  rw [List.append_assoc]

theorem self_mem_residuals : L ∈ residuals L := ⟨[], rfl⟩

theorem residual_mem {f : List α → β} (h : f ∈ residuals L) : residual f w ∈ residuals L := by
  obtain ⟨v, rfl⟩ := h
  exact ⟨v ++ w, (residual_residual w).symm⟩

/-- A set of states that no step leaves. -/
def Closed (step : σ → α → σ) (S : Set σ) : Prop := ∀ s ∈ S, ∀ a, step s a ∈ S

theorem Closed.walk {S : Set σ} (h : Closed step S) (hs : s ∈ S) (w : List α) :
    w.foldl step s ∈ S := by
  induction w generalizing s with
  | nil => exact hs
  | cons a w ih => exact ih (h s hs a)

/-- Classes that are kept by the steps and tell apart what is put out tell apart
what is put out after any word. -/
theorem after_eq_of_kept {κ : Type*} {cls : σ → κ} {S : Set σ} (h : Closed step S)
    (hout : ∀ s ∈ S, ∀ s' ∈ S, cls s = cls s' → out s = out s')
    (hstep : ∀ s ∈ S, ∀ s' ∈ S, cls s = cls s' → ∀ a, cls (step s a) = cls (step s' a)) {s' : σ}
    (hs : s ∈ S) (hs' : s' ∈ S) (he : cls s = cls s') : after step out s = after step out s' := by
  funext w
  induction w generalizing s s' with
  | nil => exact hout s hs s' hs' he
  | cons a w ih => exact ih (h s hs a) (h s' hs' a) (hstep s hs s' hs' he a)

/-- A map of the states that keeps the steps and what is put out keeps the behaviour. -/
theorem after_map {τ : Type*} {step' : τ → α → τ} {out' : τ → β} {f : σ → τ} {S : Set σ}
    (h : Closed step S) (hout : ∀ s ∈ S, out' (f s) = out s)
    (hstep : ∀ s ∈ S, ∀ a, step' (f s) a = f (step s a)) (hs : s ∈ S) :
    after step' out' (f s) = after step out s := by
  funext w
  induction w generalizing s with
  | nil => exact hout s hs
  | cons a w ih =>
    rw [after_cons, after_cons, hstep s hs a]
    exact ih (h s hs a)

/-- Each residual is what is put out from some state. -/
theorem residuals_subset (out : σ → β) {S : Set σ} (h : Closed step S) (hs : s ∈ S) :
    residuals (after step out s) ⊆ after step out '' S := by
  rintro _ ⟨w, rfl⟩
  exact ⟨_, h.walk hs w, residual_after.symm⟩

/-- A machine has at least as many states as its behaviour has residuals. -/
theorem ncard_residuals_le (out : σ → β) {S : Set σ} (hfin : S.Finite) (h : Closed step S) (hs : s ∈ S) :
    (residuals (after step out s)).ncard ≤ S.ncard :=
  Nat.le_trans (Set.ncard_le_ncard (residuals_subset out h hs) (hfin.image _))
    (Set.ncard_image_le hfin)

/-- From each state in the set something is put out that is a residual of what is
put out from `s`, when each of them is as a state reached from `s`. -/
theorem image_subset_residuals {S : Set σ}
    (h : ∀ s' ∈ S, ∃ w : List α, after step out s' = after step out (w.foldl step s)) :
    after step out '' S ⊆ residuals (after step out s) := by
  rintro _ ⟨s', hs', rfl⟩
  obtain ⟨w, hw⟩ := h s' hs'
  exact ⟨w, by rw [hw]; exact residual_after⟩

end

/-! ## The machine of the residuals -/

section

open Classical in
/-- The residuals in a row, the behaviour itself first. -/
noncomputable def row (L : List α → β) (hfin : (residuals L).Finite) : List (List α → β) :=
  L :: (hfin.toFinset.erase L).toList

variable {L : List α → β}

theorem mem_row (hfin : (residuals L).Finite) {f : List α → β} : f ∈ row L hfin ↔ f ∈ residuals L := by
  classical
  unfold row
  rw [List.mem_cons, Finset.mem_toList, Finset.mem_erase, Set.Finite.mem_toFinset]
  constructor
  · rintro (rfl | ⟨_, h⟩)
    · exact self_mem_residuals
    · exact h
  · intro h
    by_cases hf : f = L
    · exact Or.inl hf
    · exact Or.inr ⟨hf, h⟩

theorem row_length (hfin : (residuals L).Finite) : (row L hfin).length = (residuals L).ncard := by
  classical
  have hmem : L ∈ hfin.toFinset := hfin.mem_toFinset.mpr self_mem_residuals
  unfold row
  rw [List.length_cons, Finset.length_toList, Finset.card_erase_add_one hmem,
    Set.ncard_eq_toFinset_card _ hfin]

/-- A machine whose states are numbers, one for each residual. -/
theorem exists_machine (hfin : (residuals L).Finite) :
    ∃ (next : ℕ → α → ℕ) (out : ℕ → β), after next out 0 = L ∧
    (∀ i, ∀ a, next i a < (residuals L).ncard) ∧ ∀ i, out i ∈ Set.range L := by
  classical
  obtain ⟨at_, hat⟩ : ∃ at_ : ℕ → List α → β, ∀ i, at_ i = ((row L hfin)[i]?).getD L :=
    ⟨_, fun _ => rfl⟩
  have hmem : ∀ i, at_ i ∈ residuals L := by
    intro i
    rw [hat]
    cases h : (row L hfin)[i]? with
    | none => exact self_mem_residuals
    | some f => exact (mem_row hfin).mp (List.mem_of_getElem? h)
  have hplace : ∀ f ∈ residuals L, ∃ i < (residuals L).ncard, at_ i = f := by
    intro f hf
    obtain ⟨i, hi, hget⟩ := List.mem_iff_getElem.mp ((mem_row hfin).mpr hf)
    refine ⟨i, by rwa [row_length] at hi, ?_⟩
    rw [hat, List.getElem?_eq_getElem hi, hget]
    rfl
  choose place hlt hget using hplace
  obtain ⟨next, hnext⟩ : ∃ next : ℕ → α → ℕ,
      ∀ i a, next i a = place _ (residual_mem (w := [a]) (hmem i)) := ⟨_, fun _ _ => rfl⟩
  refine ⟨next, fun i => at_ i [], ?_, ?_, ?_⟩
  · have hafter : ∀ (w : List α) (i : ℕ), after next (fun i => at_ i []) i w = at_ i w := by
      intro w
      induction w with
      | nil => exact fun _ => rfl
      | cons a w ih =>
        intro i
        rw [after_cons, ih, hnext, hget]
        rfl
    funext w
    rw [hafter, hat]
    rfl
  · intro i a
    rw [hnext]
    exact hlt _ _
  · intro i
    obtain ⟨w, hw⟩ := hmem i
    exact ⟨w ++ [], congrFun hw []⟩

end

end moore
