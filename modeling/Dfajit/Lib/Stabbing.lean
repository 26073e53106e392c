-- Intervals on a line, and the points that stab them. Intervals that are taken
-- one after the other, and whose ends stab every interval, are as many as
-- disjoint intervals can be; and there is only one such list of ends.
import Mathlib.Data.Finset.Card
import Mathlib.Order.Bounds.Basic
import Mathlib.Tactic.Common

namespace stabbing

variable {I : Nat → Nat → Prop} {r m : Nat} {es fs : List Nat}

/-- The ends of intervals, each of which starts no sooner than the one before it
ends. -/
inductive Tight (I : Nat → Nat → Prop) : Nat → List Nat → Prop
  | nil {r : Nat} : Tight I r []
  | cons {r s e : Nat} {es : List Nat} :
      r ≤ s → s < e → I s e → Tight I e es → Tight I r (e :: es)

/-- A point in every interval that starts at `r` or later. -/
def Stabs (I : Nat → Nat → Prop) (r : Nat) (es : List Nat) : Prop :=
  ∀ s e, r ≤ s → I s e → ∃ x ∈ es, s < x ∧ x ≤ e

theorem Tight.lt (h : Tight I r es) : ∀ x ∈ es, r < x := by
  induction h with
  | nil =>
    intro x hx
    cases hx
  | cons hr hs _ _ ih =>
    intro x hx
    rcases List.mem_cons.mp hx with rfl | hx
    · omega
    · have := ih x hx
      omega

theorem Tight.sorted (h : Tight I r es) : es.Pairwise (· < ·) := by
  induction h with
  | nil => exact List.Pairwise.nil
  | cons _ _ _ hes ih => exact List.pairwise_cons.mpr ⟨hes.lt, ih⟩

theorem Tight.mono (h : Tight I r es) (hm : m ≤ r) : Tight I m es := by
  cases h with
  | nil => exact .nil
  | cons hr hs hI hes => exact .cons (by omega) hs hI hes

/-- Two lists, the second of intervals behind those of the first. -/
theorem Tight.append (h : Tight I r es) (hr : r ≤ m) (hle : ∀ x ∈ es, x ≤ m) (h' : Tight I m fs) :
    Tight I r (es ++ fs) := by
  induction h with
  | nil => exact h'.mono hr
  | cons hrs hs hI _ ih =>
    rw [List.forall_mem_cons] at hle
    exact .cons hrs hs hI (ih hle.1 hle.2)

/-- What lies behind the first end is stabbed by the other ends. -/
theorem Stabs.tail {e : Nat} (h : Stabs I r (e :: es)) (hr : r ≤ e) : Stabs I e es := by
  intro s e' hs hI
  obtain ⟨x, hx, hlt, hle⟩ := h s e' (by omega) hI
  rcases List.mem_cons.mp hx with rfl | hx
  · omega
  · exact ⟨x, hx, hlt, hle⟩

/-- No end of a tight list comes before the first end of one that stabs. -/
theorem Tight.head_le {e : Nat} (h : Tight I r fs) (hstab : Stabs I r (e :: es))
    (hes : ∀ x ∈ es, e < x) : ∀ x ∈ fs, e ≤ x := by
  cases h with
  | nil =>
    intro x hx
    cases hx
  | @cons _ s f fs hr hs hI hfs =>
    have hf : e ≤ f := by
      obtain ⟨x, hx, _, hle⟩ := hstab s f hr hI
      rcases List.mem_cons.mp hx with rfl | hx
      · exact hle
      · have := hes x hx
        omega
    intro x hx
    rcases List.mem_cons.mp hx with rfl | hx
    · exact hf
    · have := hfs.lt x hx
      omega

/-- There is one tight list that stabs every interval. -/
theorem Tight.unique (h : Tight I r es) (hstab : Stabs I r es) (h' : Tight I r fs)
    (hstab' : Stabs I r fs) : es = fs := by
  induction h generalizing fs with
  | nil =>
    cases h' with
    | nil => rfl
    | cons hr _ hI _ =>
      obtain ⟨x, hx, _⟩ := hstab _ _ hr hI
      cases hx
  | @cons r s e es hr hs hI hes ih =>
    cases h' with
    | nil =>
      obtain ⟨x, hx, _⟩ := hstab' _ _ hr hI
      cases hx
    | @cons _ s' f fs hr' hs' hI' hfs =>
      have hef : e ≤ f := (Tight.cons hr' hs' hI' hfs).head_le hstab hes.lt f List.mem_cons_self
      have hfe : f ≤ e := (Tight.cons hr hs hI hes).head_le hstab' hfs.lt e List.mem_cons_self
      obtain rfl : e = f := Nat.le_antisymm hef hfe
      rw [ih (hstab.tail (by omega)) hfs (hstab'.tail (by omega))]

/-! ## Disjoint intervals -/

/-- Intervals no two of which overlap. -/
structure Packing (I : Nat → Nat → Prop) (S : Finset (Nat × Nat)) : Prop where
  all : ∀ c ∈ S, I c.1 c.2
  apart : ∀ c ∈ S, ∀ d ∈ S, c ≠ d → c.2 ≤ d.1 ∨ d.2 ≤ c.1

/-- Each of them has a stabbing point of its own. -/
theorem Packing.card_le {S : Finset (Nat × Nat)} (h : Packing I S) (hstab : Stabs I 0 es) :
    S.card ≤ es.length := by
  have hpoint : ∀ c : Nat × Nat, ∃ x, c ∈ S → x ∈ es ∧ c.1 < x ∧ x ≤ c.2 := by
    intro c
    by_cases hc : c ∈ S
    · obtain ⟨x, hx, hin⟩ := hstab c.1 c.2 (Nat.zero_le _) (h.all c hc)
      exact ⟨x, fun _ => ⟨hx, hin⟩⟩
    · exact ⟨0, fun hin => absurd hin hc⟩
  choose point hpoint using hpoint
  calc S.card ≤ es.toFinset.card := by
        apply Finset.card_le_card_of_injOn point
        · intro c hc
          exact List.mem_toFinset.mpr (hpoint c hc).1
        · intro c hc d hd heq
          obtain ⟨_, hc1, hc2⟩ := hpoint c hc
          obtain ⟨_, hd1, hd2⟩ := hpoint d hd
          by_contra hne
          rcases h.apart c hc d hd hne with hle | hle <;> omega
    _ ≤ es.length := es.toFinset_card_le

/-- The intervals of a tight list are disjoint. -/
theorem Tight.exists_packing (h : Tight I r es) :
    ∃ S, Packing I S ∧ (∀ c ∈ S, r ≤ c.1 ∧ c.1 < c.2) ∧ S.card = es.length := by
  induction h with
  | nil => exact ⟨∅, ⟨by simp, by simp⟩, by simp, rfl⟩
  | @cons r s e es hr hs hI _ ih =>
    obtain ⟨S, hS, hbehind, hcard⟩ := ih
    have hfirst : ∀ c ∈ S, e ≤ c.1 := fun c hc => (hbehind c hc).1
    refine ⟨insert (s, e) S, ⟨?_, ?_⟩, ?_, ?_⟩
    · intro c hc
      rcases Finset.mem_insert.mp hc with rfl | hc
      · exact hI
      · exact hS.all c hc
    · intro c hc d hd hne
      rcases Finset.mem_insert.mp hc with rfl | hc <;> rcases Finset.mem_insert.mp hd with rfl | hd
      · exact absurd rfl hne
      · exact Or.inl (hfirst d hd)
      · exact Or.inr (hfirst c hc)
      · exact hS.apart c hc d hd hne
    · intro c hc
      rcases Finset.mem_insert.mp hc with rfl | hc
      · exact ⟨hr, hs⟩
      · have := hbehind c hc
        omega
    · have hnew : (s, e) ∉ S := by
        intro hin
        have := hfirst _ hin
        simp only at this
        omega
      rw [Finset.card_insert_of_notMem hnew, hcard, List.length_cons]

/-- A tight list that stabs every interval is as long as disjoint intervals can be
many. -/
theorem Tight.isGreatest (h : Tight I 0 es) (hstab : Stabs I 0 es) :
    IsGreatest {n | ∃ S, Packing I S ∧ S.card = n} es.length := by
  constructor
  · obtain ⟨S, hS, _, hcard⟩ := h.exists_packing
    exact ⟨S, hS, hcard⟩
  · rintro n ⟨S, hS, rfl⟩
    exact hS.card_le hstab

end stabbing
