-- Finite sets of texts with all prefixes of their members, as lists in the
-- order in which the texts came. The place of a text in the list is its node.
import Mathlib.Data.List.Basic
import Mathlib.Data.List.Nodup
import Mathlib.Data.List.Perm.Subperm
import Dfajit.Lib.Suffix

namespace text_tree

variable {α : Type*}

/-! ## Trees -/

/-- No text twice, the empty text first, and with a text all its prefixes. -/
structure Tree (strs : List (List α)) : Prop where
  root : strs[0]? = some []
  nodup : strs.Nodup
  init : ∀ w a, w ++ [a] ∈ strs → w ∈ strs

section

variable {strs : List (List α)} {v w : List α}

theorem Tree.nil_mem (h : Tree strs) : [] ∈ strs := List.mem_of_getElem? h.root

theorem Tree.prefixClosed (h : Tree strs) : suffix.PrefixClosed (· ∈ strs) := ⟨h.nil_mem, h.init⟩

theorem tree_single : Tree ([[]] : List (List α)) := by
  refine ⟨rfl, List.nodup_singleton _, ?_⟩
  intro w a h
  exact absurd (List.mem_singleton.mp h) (by simp)

/-- The texts that a tree has without a child more. -/
theorem Tree.snoc (h : Tree strs) (hv : v ∈ strs) {a : α} (hnew : v ++ [a] ∉ strs) :
    Tree (strs ++ [v ++ [a]]) := by
  refine ⟨?_, ?_, ?_⟩
  · rw [List.getElem?_append_left (List.length_pos_of_mem hv)]
    exact h.root
  · rw [List.nodup_append]
    refine ⟨h.nodup, List.nodup_singleton _, ?_⟩
    intro x hx y hy he
    rw [List.mem_singleton.mp hy] at he
    exact hnew (he ▸ hx)
  · intro w b hw
    apply List.mem_append_left
    rcases List.mem_append.mp hw with hw | hw
    · exact h.init w b hw
    · rw [List.mem_singleton] at hw
      rw [(List.append_inj' hw rfl).1]
      exact hv

theorem Tree.mem_of_prefix (h : Tree strs) (hw : w ∈ strs) (hv : v <+: w) : v ∈ strs := by
  induction w using List.reverseRecOn with
  | nil =>
    rw [List.prefix_nil.mp hv]
    exact hw
  | append_singleton w a ih =>
    rcases List.prefix_concat_iff.mp hv with rfl | hv
    · exact hw
    · exact ih (h.init w a hw) hv

theorem inits_nodup (w : List α) : w.inits.Nodup := by
  rw [List.nodup_iff_injective_get]
  intro i j hij
  have hi : i.val < w.length + 1 := by simpa using i.isLt
  have hj : j.val < w.length + 1 := by simpa using j.isLt
  have hlen := congrArg List.length hij
  simp only [List.get_eq_getElem, List.getElem_inits, List.length_take] at hlen
  exact Fin.ext (by omega)

/-- A text has no more symbols than there are other texts in the tree. -/
theorem Tree.length_lt (h : Tree strs) (hw : w ∈ strs) : w.length < strs.length := by
  have hsub : w.inits ⊆ strs := by
    intro u hu
    exact h.mem_of_prefix hw ((List.mem_inits u w).mp hu)
  have hle := (List.subperm_of_subset (inits_nodup w) hsub).length_le
  rw [List.length_inits] at hle
  omega

end

/-! ## Growing a tree -/

section

variable [DecidableEq α] {strs : List (List α)} {v w : List α}

/-- The texts along `w` below `v`: each one that is not there yet is added. -/
def grow (strs : List (List α)) (v : List α) : List α → List (List α)
  | [] => strs
  | a :: w => grow (if v ++ [a] ∈ strs then strs else strs ++ [v ++ [a]]) (v ++ [a]) w

theorem Tree.grow (h : Tree strs) (hv : v ∈ strs) : Tree (grow strs v w) := by
  induction w generalizing strs v with
  | nil => exact h
  | cons a w ih =>
    unfold text_tree.grow
    split
    · rename_i hin
      exact ih h hin
    · rename_i hnew
      exact ih (h.snoc hv hnew) (by simp)

/-- The texts keep their nodes. -/
theorem prefix_grow : strs <+: grow strs v w := by
  induction w generalizing strs v with
  | nil => exact List.prefix_refl _
  | cons a w ih =>
    unfold grow
    split
    · exact ih
    · exact (List.prefix_append _ _).trans ih

theorem mem_grow {u : List α} (hv : v ∈ strs) :
    u ∈ grow strs v w ↔ u ∈ strs ∨ ∃ x, x <+: w ∧ u = v ++ x := by
  induction w generalizing strs v with
  | nil =>
    unfold grow
    constructor
    · exact Or.inl
    · rintro (h | ⟨x, hx, rfl⟩)
      · exact h
      · rw [List.prefix_nil.mp hx, List.append_nil]
        exact hv
  | cons a w ih =>
    have hstep : u ∈ grow strs v (a :: w) ↔
        (u ∈ strs ∨ u = v ++ [a]) ∨ ∃ x, x <+: w ∧ u = v ++ [a] ++ x := by
      unfold grow
      split
      · rename_i hin
        rw [ih hin]
        constructor
        · rintro (h | h)
          · exact Or.inl (Or.inl h)
          · exact Or.inr h
        · rintro ((h | rfl) | h)
          · exact Or.inl h
          · exact Or.inl hin
          · exact Or.inr h
      · rw [ih (by simp), List.mem_append, List.mem_singleton]
    rw [hstep]
    constructor
    · rintro ((h | rfl) | ⟨x, hx, rfl⟩)
      · exact Or.inl h
      · exact Or.inr ⟨[a], by simp, rfl⟩
      · exact Or.inr ⟨a :: x, by simpa using hx, by simp⟩
    · rintro (h | ⟨x, hx, rfl⟩)
      · exact Or.inl (Or.inl h)
      · rcases List.prefix_cons_iff.mp hx with rfl | ⟨y, rfl, hy⟩
        · rw [List.append_nil]
          exact Or.inl (Or.inl hv)
        · exact Or.inr ⟨y, hy, by simp⟩

end

/-! ## The prefixes of some texts -/

section

variable [DecidableEq α] {patterns : List (List α)}

/-- The prefixes of some texts. -/
def texts (patterns : List (List α)) : List (List α) :=
  patterns.foldl (fun strs p => grow strs [] p) [[]]

theorem texts_snoc (p : List α) : texts (patterns ++ [p]) = grow (texts patterns) [] p := by
  unfold texts
  rw [List.foldl_append, List.foldl_cons, List.foldl_nil]

theorem texts_tree (patterns : List (List α)) : Tree (texts patterns) := by
  induction patterns using List.reverseRecOn with
  | nil => exact tree_single
  | append_singleton patterns p ih =>
    rw [texts_snoc]
    exact ih.grow ih.nil_mem

theorem mem_texts {v : List α} : v ∈ texts patterns ↔ v = [] ∨ ∃ p ∈ patterns, v <+: p := by
  induction patterns using List.reverseRecOn with
  | nil => simp [texts]
  | append_singleton patterns p ih =>
    rw [texts_snoc, mem_grow (texts_tree patterns).nil_mem, ih]
    constructor
    · rintro ((h | ⟨q, hq, hv⟩) | ⟨x, hx, rfl⟩)
      · exact Or.inl h
      · exact Or.inr ⟨q, List.mem_append_left _ hq, hv⟩
      · exact Or.inr ⟨p, by simp, by simpa using hx⟩
    · rintro (h | ⟨q, hq, hv⟩)
      · exact Or.inl (Or.inl h)
      · rcases List.mem_append.mp hq with hq | hq
        · exact Or.inl (Or.inr ⟨q, hq, hv⟩)
        · rw [List.mem_singleton.mp hq] at hv
          exact Or.inr ⟨v, hv, rfl⟩

theorem mem_texts_self {p : List α} (hp : p ∈ patterns) : p ∈ texts patterns :=
  mem_texts.mpr (Or.inr ⟨p, hp, List.prefix_refl _⟩)

theorem texts_cover (patterns : List (List α)) : ∀ p ∈ patterns, p ∈ texts patterns :=
  fun _ hp => mem_texts_self hp

end

end text_tree
