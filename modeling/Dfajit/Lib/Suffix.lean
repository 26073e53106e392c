-- The longest suffix of a text that lies in a set of texts. Where the set has
-- the prefixes of its members, this suffix can be kept up symbol by symbol,
-- which is what an automaton for many patterns does.
import Mathlib.Data.List.Infix
import Mathlib.Tactic.Common

namespace suffix

variable {α : Type*}

/-! ## The longest suffix in a set -/

section

variable (T : List α → Prop) [DecidablePred T]

/-- The longest suffix of the text that is in `T`, or the empty text. -/
def longest : List α → List α
  | [] => []
  | a :: w => if T (a :: w) then a :: w else longest w

/-- The longest suffix in `T` that is not the whole text. -/
def border (w : List α) : List α := longest T w.tail

/-- `T` has the empty text, and the prefixes of its members. -/
structure PrefixClosed : Prop where
  nil : T []
  init : ∀ w a, T (w ++ [a]) → T w

variable {T}

/-- The longest suffix depends on the members of the set alone. -/
theorem longest_congr {T' : List α → Prop} [DecidablePred T'] (h : ∀ v, T v ↔ T' v) (w : List α) :
    longest T w = longest T' w := by
  induction w with
  | nil => rfl
  | cons a w ih =>
    unfold longest
    rw [ih]
    exact if_congr (h (a :: w)) rfl rfl

theorem longest_suffix (w : List α) : longest T w <:+ w := by
  induction w with
  | nil => exact List.suffix_refl _
  | cons a w ih =>
    unfold longest
    split
    · exact List.suffix_refl _
    · exact ih.trans (List.suffix_cons a w)

theorem longest_mem (h : T []) (w : List α) : T (longest T w) := by
  induction w with
  | nil => exact h
  | cons a w ih =>
    unfold longest
    split
    · assumption
    · exact ih

/-- Every suffix in `T` is a suffix of the longest one. -/
theorem suffix_longest {v w : List α} (hv : T v) (hsuf : v <:+ w) : v <:+ longest T w := by
  induction w with
  | nil => exact hsuf
  | cons a w ih =>
    unfold longest
    split
    · exact hsuf
    · rename_i hnot
      rcases List.suffix_cons_iff.mp hsuf with rfl | h
      · exact absurd hv hnot
      · exact ih h

theorem longest_of_mem {w : List α} (h : T w) : longest T w = w := by
  have h1 := suffix_longest h (List.suffix_refl w)
  exact (longest_suffix w).eq_of_length_le h1.length_le

/-- A suffix in `T` with all others as suffixes is the longest one. -/
theorem longest_unique (h : T []) {v w : List α} (hv : T v) (hsuf : v <:+ w)
    (hmax : ∀ u, T u → u <:+ w → u <:+ v) : longest T w = v := by
  have h1 := hmax _ (longest_mem h w) (longest_suffix w)
  exact h1.eq_of_length_le (suffix_longest hv hsuf).length_le

theorem suffix_snoc {v w : List α} {a : α} (h : v <:+ w ++ [a]) (hne : v ≠ []) :
    ∃ u, v = u ++ [a] ∧ u <:+ w := by
  rcases List.suffix_concat_iff.mp h with h | ⟨u, hu, hsuf⟩
  · exact absurd h hne
  · exact ⟨u, hu, hsuf⟩

/-- One more symbol: only the longest suffix so far matters. -/
theorem longest_snoc (hT : PrefixClosed T) (w : List α) (a : α) :
    longest T (w ++ [a]) = longest T (longest T w ++ [a]) := by
  have hpre : longest T w ++ [a] <:+ w ++ [a] := by
    obtain ⟨u, hu⟩ := longest_suffix (T := T) w
    exact ⟨u, by rw [← List.append_assoc, hu]⟩
  refine longest_unique hT.nil (longest_mem hT.nil _) ((longest_suffix _).trans hpre) ?_
  intro u hu hsuf
  apply suffix_longest hu
  by_cases hne : u = []
  · rw [hne]
    exact List.nil_suffix
  · obtain ⟨v, rfl, hv⟩ := suffix_snoc hsuf hne
    obtain ⟨p, hp⟩ := suffix_longest (hT.init v a hu) hv
    exact ⟨p, by rw [← List.append_assoc, hp]⟩

/-- The suffixes of the tail are the proper ones. -/
theorem suffix_tail_iff {v w : List α} (h : w ≠ []) : v <:+ w.tail ↔ v <:+ w ∧ v ≠ w := by
  cases w with
  | nil => exact absurd rfl h
  | cons a w =>
    rw [List.tail_cons, List.suffix_cons_iff]
    constructor
    · intro hsuf
      refine ⟨Or.inr hsuf, ?_⟩
      rintro rfl
      have hle := hsuf.length_le
      rw [List.length_cons] at hle
      omega
    · rintro ⟨he | hsuf, hne⟩
      · exact absurd he hne
      · exact hsuf

theorem border_length_lt {w : List α} (h : w ≠ []) : (border T w).length < w.length := by
  have hlen := (longest_suffix (T := T) w.tail).length_le
  have hpos := List.length_pos_iff.mpr h
  rw [List.length_tail] at hlen
  unfold border
  omega

theorem border_mem (h : T []) (w : List α) : T (border T w) := longest_mem h _

/-- The border after one more symbol. -/
theorem border_snoc (hT : PrefixClosed T) {w : List α} (h : w ≠ []) (a : α) :
    border T (w ++ [a]) = longest T (border T w ++ [a]) := by
  unfold border
  rw [List.tail_append_of_ne_nil h, longest_snoc hT]

/-- The longest one of the texts with `P`. -/
def IsLongest (P : List α → Prop) (v : List α) : Prop := P v ∧ ∀ u, P u → u.length ≤ v.length

theorem longest_isLongest (h : T []) (w : List α) :
    IsLongest (fun u => u <:+ w ∧ T u) (longest T w) := by
  refine ⟨⟨longest_suffix w, longest_mem h w⟩, ?_⟩
  rintro u ⟨hsuf, hu⟩
  exact (suffix_longest hu hsuf).length_le

theorem border_isLongest (h : T []) {w : List α} (hne : w ≠ []) :
    IsLongest (fun u => u <:+ w ∧ u ≠ w ∧ T u) (border T w) := by
  obtain ⟨⟨hsuf, hmem⟩, hmax⟩ := longest_isLongest h w.tail
  obtain ⟨hsuf, hproper⟩ := (suffix_tail_iff hne).mp hsuf
  refine ⟨⟨hsuf, hproper, hmem⟩, ?_⟩
  rintro u ⟨hsuf, hproper, hu⟩
  exact hmax u ⟨(suffix_tail_iff hne).mpr ⟨hsuf, hproper⟩, hu⟩

/-- Where the text with one more symbol is not in `T`, its border decides. -/
theorem longest_snoc_of_not (hT : PrefixClosed T) {w : List α} {a : α} (hne : w ≠ [])
    (hnot : ¬ T (w ++ [a])) : longest T (w ++ [a]) = longest T (border T w ++ [a]) := by
  rw [← border_snoc hT hne]
  cases w with
  | nil => exact absurd rfl hne
  | cons b w => exact if_neg hnot

end

/-! ## The hits that end a text -/

section

variable (P : List α → Prop) [DecidablePred P]

/-- The suffixes of the text with `P`, the longest first. -/
def hits (w : List α) : List (List α) := w.tails.filter fun v => decide (P v)

variable {P}

theorem mem_hits {v w : List α} : v ∈ hits P w ↔ v <:+ w ∧ P v := by
  unfold hits
  rw [List.mem_filter, List.mem_tails, decide_eq_true_iff]

/-- The hits depend on the members of the set alone. -/
theorem hits_congr {P' : List α → Prop} [DecidablePred P'] (h : ∀ v, P v ↔ P' v) (w : List α) :
    hits P w = hits P' w := by
  unfold hits
  apply List.filter_congr
  intro v _
  exact decide_eq_decide.mpr (h v)

theorem hits_nil (h : ¬ P []) : hits P [] = [] := by
  unfold hits
  simp [h]

theorem hits_cons (a : α) (w : List α) :
    hits P (a :: w) = (if P (a :: w) then [a :: w] else []) ++ hits P w := by
  unfold hits
  rw [List.tails_cons, List.filter_cons]
  by_cases h : P (a :: w)
  · rw [if_pos (decide_eq_true h), if_pos h]
    rfl
  · rw [if_neg (by simpa using h), if_neg h]
    rfl

theorem hits_eq_nil_iff {w : List α} : hits P w = [] ↔ ∀ v, v <:+ w → ¬ P v := by
  rw [List.eq_nil_iff_forall_not_mem]
  constructor
  · intro h v hsuf hv
    exact h v (mem_hits.mpr ⟨hsuf, hv⟩)
  · intro h v hv
    obtain ⟨hsuf, hv⟩ := mem_hits.mp hv
    exact h v hsuf hv

/-- Each hit is longer than those after it. -/
theorem hits_sorted (w : List α) : (hits P w).Pairwise fun u v => v.length < u.length := by
  induction w with
  | nil =>
    unfold hits
    by_cases h : P [] <;> simp [h]
  | cons a w ih =>
    rw [hits_cons]
    split
    · rw [List.singleton_append, List.pairwise_cons]
      refine ⟨fun v hv => ?_, ih⟩
      have := (mem_hits.mp hv).1.length_le
      rw [List.length_cons]
      omega
    · exact ih

/-- The first hit is the longest. -/
theorem hits_head {v w : List α} {vs : List (List α)} (h : hits P w = v :: vs) :
    v <:+ w ∧ P v ∧ ∀ u, u <:+ w → P u → u.length ≤ v.length := by
  have hv := mem_hits.mp (h ▸ List.mem_cons_self : v ∈ hits P w)
  refine ⟨hv.1, hv.2, fun u hsuf hu => ?_⟩
  have hmem := mem_hits.mpr ⟨hsuf, hu⟩
  have hsort := hits_sorted (P := P) w
  rw [h] at hmem hsort
  rcases List.mem_cons.mp hmem with rfl | hmem
  · exact Nat.le_refl _
  · exact Nat.le_of_lt ((List.pairwise_cons.mp hsort).1 u hmem)

/-- The first hit has all the hits. -/
theorem hits_of_head {v w : List α} {vs : List (List α)} (h : hits P w = v :: vs) :
    hits P v = v :: vs := by
  induction w with
  | nil =>
    have hv := (mem_hits.mp (h ▸ List.mem_cons_self : v ∈ hits P [])).1
    rw [List.suffix_nil.mp hv] at h ⊢
    exact h
  | cons a w ih =>
    rw [hits_cons] at h
    split at h
    · rename_i hp
      have hv : a :: w = v := (List.cons.inj h).1
      rw [← hv, hits_cons, if_pos hp, h, hv]
    · exact ih h

/-- A text of `n` symbols has at most `n` hits, when the empty text is none. -/
theorem hits_length_le (h : ¬ P []) (w : List α) : (hits P w).length ≤ w.length := by
  induction w with
  | nil =>
    rw [hits_nil h]
    exact Nat.le_refl _
  | cons a w ih =>
    rw [hits_cons, List.length_append, List.length_cons]
    split <;> simp <;> omega

variable {T : List α → Prop} [DecidablePred T]

/-- Hits that are all in `T` are hits of the longest suffix in `T`. -/
theorem hits_longest (hPT : ∀ v, P v → T v) (w : List α) :
    hits P (longest T w) = hits P w := by
  induction w with
  | nil => rfl
  | cons a w ih =>
    unfold longest
    split
    · rfl
    · rename_i hnot
      rw [ih, hits_cons, if_neg fun hp => hnot (hPT _ hp)]
      rfl

/-- The hits of a text: itself, if it is one, and those of its border. -/
theorem hits_border (hPT : ∀ v, P v → T v) {w : List α} (h : w ≠ []) :
    hits P w = (if P w then [w] else []) ++ hits P (border T w) := by
  unfold border
  rw [hits_longest hPT]
  cases w with
  | nil => exact absurd rfl h
  | cons a w => exact hits_cons a w

/-- The hits of the border are the hits that are shorter than the text. -/
theorem mem_hits_border (hPT : ∀ v, P v → T v) {v w : List α} (h : w ≠ []) :
    v ∈ hits P (border T w) ↔ v <:+ w ∧ v ≠ w ∧ P v := by
  unfold border
  rw [hits_longest hPT, mem_hits, suffix_tail_iff h, and_assoc]

/-- The first hit of the border is the longest of them. -/
theorem hits_border_head (hPT : ∀ v, P v → T v) {v w : List α} {vs : List (List α)} (h : w ≠ [])
    (hv : hits P (border T w) = v :: vs) : IsLongest (fun u => u <:+ w ∧ u ≠ w ∧ P u) v := by
  refine ⟨(mem_hits_border hPT h).mp (hv ▸ List.mem_cons_self), ?_⟩
  intro u hu
  obtain ⟨hsuf, hp⟩ := mem_hits.mp ((mem_hits_border hPT h).mpr hu)
  exact (hits_head hv).2.2 u hsuf hp

end

end suffix
