-- Writes to the places of a list, one after the other. Each place keeps what the
-- last write to it left; if the places stand for keys, that is the last write to
-- the key unless a write that has no key of its own landed there later.
import Mathlib.Data.List.Basic
import Mathlib.Data.List.Induction

namespace last_write

variable {γ κ α : Type*}

/-! ## The last one -/

/-- The last member with a property stands before members without it. -/
theorem last_eq_some {p : γ → Bool} {xs : List γ} {x : γ} :
    xs.findRev? p = some x ↔
      p x = true ∧ ∃ before after, xs = before ++ x :: after ∧ ∀ y ∈ after, p y = false := by
  rw [List.findRev?_eq_find?_reverse, List.find?_eq_some_iff_append]
  apply and_congr_right
  intro _
  constructor
  · rintro ⟨as, bs, hxs, has⟩
    refine ⟨bs.reverse, as.reverse, ?_, ?_⟩
    · rw [← List.reverse_reverse xs, hxs]
      simp
    · simpa using has
  · rintro ⟨before, after, rfl, hafter⟩
    refine ⟨after.reverse, before.reverse, by simp, ?_⟩
    simpa using hafter

theorem last_eq_none {p : γ → Bool} {xs : List γ} :
    xs.findRev? p = none ↔ ∀ x ∈ xs, p x = false := by
  simp [List.findRev?_eq_find?_reverse]

/-- Members without the property at the end do not count. -/
theorem last_append {p : γ → Bool} {before after : List γ} (h : ∀ y ∈ after, p y = false) :
    (before ++ after).findRev? p = before.findRev? p := by
  have hnone : after.reverse.find? p = none := by simpa using h
  rw [List.findRev?_eq_find?_reverse, List.findRev?_eq_find?_reverse, List.reverse_append,
    List.find?_append, hnone, Option.none_or]

/-! ## Writes -/

variable {place : γ → Nat} {value : γ → α}

/-- All writes, one after the other. A write past the end does nothing. -/
def write_all (place : γ → Nat) (value : γ → α) (xs : List α) (ops : List γ) : List α :=
  ops.foldl (fun xs op => xs.set (place op) (value op)) xs

theorem write_all_snoc (xs : List α) (ops : List γ) (op : γ) :
    write_all place value xs (ops ++ [op]) =
      (write_all place value xs ops).set (place op) (value op) := by
  unfold write_all
  rw [List.foldl_append]
  rfl

theorem write_all_length (xs : List α) (ops : List γ) :
    (write_all place value xs ops).length = xs.length := by
  induction ops using List.reverseRecOn with
  | nil => rfl
  | append_singleton ops op ih => rw [write_all_snoc, List.length_set, ih]

theorem write_all_get {xs : List α} {i : Nat} {d : α} (h : xs[i]? = some d) (ops : List γ) :
    (write_all place value xs ops)[i]? =
      some (((ops.findRev? (place · = i)).map value).getD d) := by
  have hi := (List.getElem?_eq_some_iff.mp h).1
  induction ops using List.reverseRecOn with
  | nil => exact h
  | append_singleton ops op ih =>
    rw [write_all_snoc, List.getElem?_set, write_all_length]
    by_cases hop : place op = i
    · have hlast : (ops ++ [op]).findRev? (place · = i) = some op :=
        last_eq_some.mpr ⟨by simpa using hop, ops, [], by simp, by simp⟩
      rw [if_pos hop, if_pos (by omega), hlast]
      rfl
    · rw [if_neg hop, ih, last_append (by simpa using hop)]

/-! ## Places that stand for keys -/

/-- Where each write with a proper key goes to the cell of its key, and no two
proper keys share a cell, a cell holds the last write to its key exactly when no
write without a proper key landed there later and left another value. -/
theorem last_on_key_iff [DecidableEq κ] (place : γ → Nat) (value : γ → α) (key : γ → κ)
    (cell : κ → Nat) (Proper : κ → Prop)
    (hplace : ∀ op, Proper (key op) → place op = cell (key op))
    (hinj : ∀ k k', Proper k → Proper k' → cell k = cell k' → k = k') {k : κ} (hk : Proper k)
    (hcell : ∀ op, key op = k → place op = cell k) (d : α) (ops : List γ) :
    ((ops.findRev? (place · = cell k)).map value).getD d =
        ((ops.findRev? (key · = k)).map value).getD d ↔
      ∀ before op after, ops = before ++ op :: after → ¬ Proper (key op) → place op = cell k →
        (∀ later ∈ after, place later ≠ cell k) →
        value op = ((before.findRev? (key · = k)).map value).getD d := by
  have hmiss : ∀ {after : List γ}, (∀ later ∈ after, place later ≠ cell k) →
      ∀ later ∈ after, decide (key later = k) = false := by
    intro after hafter later hlater
    exact decide_eq_false fun he => hafter later hlater (hcell later he)
  -- a write without a proper key hides the writes to the key before it
  have hskip : ∀ before op after, ops = before ++ op :: after → ¬ Proper (key op) →
      (∀ later ∈ after, place later ≠ cell k) →
      ops.findRev? (key · = k) = before.findRev? (key · = k) := by
    rintro before op after rfl hop hafter
    apply last_append
    rw [List.forall_mem_cons]
    exact ⟨decide_eq_false fun he => hop (he ▸ hk), hmiss hafter⟩
  have hlands : ∀ before op after, ops = before ++ op :: after → place op = cell k →
      (∀ later ∈ after, place later ≠ cell k) → ops.findRev? (place · = cell k) = some op := by
    intro before op after hops hop hafter
    exact last_eq_some.mpr ⟨by simpa using hop, before, after, hops, by simpa using hafter⟩
  constructor
  · intro hown before op after hops hop hplace' hafter
    rw [hlands before op after hops hplace' hafter, hskip before op after hops hop hafter] at hown
    exact hown
  · intro hall
    cases hlast : ops.findRev? (place · = cell k) with
    | none =>
      have hnone : ∀ op ∈ ops, place op ≠ cell k := by simpa using last_eq_none.mp hlast
      rw [last_eq_none.mpr (hmiss hnone)]
    | some x =>
      obtain ⟨hx, before, after, hops, hafter⟩ := last_eq_some.mp hlast
      have hx : place x = cell k := by simpa using hx
      have hafter : ∀ later ∈ after, place later ≠ cell k := by simpa using hafter
      by_cases hproper : Proper (key x)
      · have hkey : key x = k := hinj _ _ hproper hk (by rw [← hplace x hproper, hx])
        have hsome : ops.findRev? (key · = k) = some x :=
          last_eq_some.mpr ⟨by simpa using hkey, before, after, hops, hmiss hafter⟩
        rw [hsome]
      · rw [hskip before x after hops hproper hafter]
        exact hall before x after hops hproper hx hafter

end last_write
