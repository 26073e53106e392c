-- Numbers for the members of a list, in the order in which each member comes
-- first. Equal members have equal numbers, so the numbers of a list are the
-- classes of a partition of its places.
import Mathlib.Data.Finset.Card
import Mathlib.Data.List.Induction

namespace numbering

variable {κ ι : Type*} [DecidableEq κ] [DecidableEq ι]

/-! ## The members in the order in which they come first -/

/-- One more member is put at the end, if it is not there yet. -/
def note (seen : List κ) (k : κ) : List κ := if k ∈ seen then seen else seen ++ [k]

def firsts (ks : List κ) : List κ := ks.foldl note []

/-- The number of a member. -/
def number_of (ks : List κ) (k : κ) : Nat := (firsts ks).idxOf k

def number (ks : List κ) : List Nat := ks.map (number_of ks)

section

variable {ks seen : List κ} {k : κ}

theorem mem_note {x : κ} : x ∈ note seen k ↔ x ∈ seen ∨ x = k := by
  unfold note
  split
  · rename_i hk
    constructor
    · exact Or.inl
    · rintro (h | rfl)
      · exact h
      · exact hk
  · simp

theorem note_nodup (h : seen.Nodup) : (note seen k).Nodup := by
  unfold note
  split
  · exact h
  · rename_i hk
    rw [List.nodup_append]
    refine ⟨h, List.nodup_singleton k, ?_⟩
    rintro x hx y hy rfl
    rw [List.mem_singleton.mp hy] at hx
    exact hk hx

/-- A member that was seen keeps its number. -/
theorem idxOf_note {x : κ} (hx : x ∈ seen) : (note seen k).idxOf x = seen.idxOf x := by
  unfold note
  split
  · rfl
  · exact List.idxOf_append_of_mem hx

@[simp] theorem firsts_snoc (ks : List κ) (k : κ) : firsts (ks ++ [k]) = note (firsts ks) k := by
  unfold firsts
  rw [List.foldl_append, List.foldl_cons, List.foldl_nil]

theorem mem_firsts {x : κ} : x ∈ firsts ks ↔ x ∈ ks := by
  induction ks using List.reverseRecOn with
  | nil => rfl
  | append_singleton ks k ih =>
    rw [firsts_snoc, mem_note, ih, List.mem_append, List.mem_singleton]

theorem firsts_nodup (ks : List κ) : (firsts ks).Nodup := by
  induction ks using List.reverseRecOn with
  | nil => exact List.nodup_nil
  | append_singleton ks k ih =>
    rw [firsts_snoc]
    exact note_nodup ih

/-- There are as many of them as there are members. -/
theorem firsts_length (ks : List κ) : (firsts ks).length = ks.toFinset.card := by
  rw [← List.toFinset_card_of_nodup (firsts_nodup ks)]
  congr 1
  ext x
  rw [List.mem_toFinset, List.mem_toFinset, mem_firsts]

theorem firsts_length_le (ks : List κ) : (firsts ks).length ≤ ks.length := by
  rw [firsts_length]
  exact List.toFinset_card_le ks

/-- There are as many of them as there are places just when no member comes twice. -/
theorem firsts_length_eq_iff : ks.length ≤ (firsts ks).length ↔ ks.Nodup := by
  rw [firsts_length, List.card_toFinset]
  constructor
  · intro h
    rw [← (List.dedup_sublist ks).eq_of_length_le h]
    exact List.nodup_dedup ks
  · intro h
    rw [h.dedup]

/-! ## The numbers -/

@[simp] theorem number_length (ks : List κ) : (number ks).length = ks.length := List.length_map _

theorem number_get {i : Nat} (h : ks[i]? = some k) : (number ks)[i]? = some (number_of ks k) := by
  unfold number
  rw [List.getElem?_map, h]
  rfl

theorem number_lt {c : Nat} (hc : c ∈ number ks) : c < (firsts ks).length := by
  obtain ⟨k, hk, rfl⟩ := List.mem_map.mp hc
  exact List.idxOf_lt_length_of_mem (mem_firsts.mpr hk)

/-- Equal numbers stand for equal members. -/
theorem number_of_inj {x y : κ} (hx : x ∈ ks) : number_of ks x = number_of ks y ↔ x = y :=
  List.idxOf_inj (mem_firsts.mpr hx)

/-- Each number below the count is the number of a member. -/
theorem exists_number {c : Nat} (hc : c < (firsts ks).length) : c ∈ number ks := by
  refine List.mem_map.mpr ⟨(firsts ks)[c], mem_firsts.mp (List.getElem_mem hc), ?_⟩
  exact (firsts_nodup ks).idxOf_getElem c hc

theorem firsts_cons_head (k : κ) (ks : List κ) : ∃ rest, firsts (k :: ks) = k :: rest := by
  induction ks using List.reverseRecOn with
  | nil => exact ⟨[], rfl⟩
  | append_singleton ks x ih =>
    obtain ⟨rest, hrest⟩ := ih
    rw [← List.cons_append, firsts_snoc, hrest]
    unfold note
    split
    · exact ⟨rest, rfl⟩
    · exact ⟨rest ++ [x], rfl⟩

/-- There is at most one of them just when all members are the first one. -/
theorem firsts_length_le_one_iff :
    (firsts ks).length ≤ 1 ↔ ∀ x ∈ ks, ks.head? = some x := by
  cases ks with
  | nil => simp [firsts]
  | cons k ks =>
    obtain ⟨rest, hrest⟩ := firsts_cons_head k ks
    have hnodup := firsts_nodup (k :: ks)
    rw [hrest] at hnodup ⊢
    rw [List.length_cons, List.head?_cons]
    constructor
    · intro hle x hx
      have hnil : rest = [] := List.length_eq_zero_iff.mp (by omega)
      rw [← mem_firsts, hrest, hnil, List.mem_singleton] at hx
      rw [hx]
    · intro hall
      cases rest with
      | nil => exact Nat.le_refl _
      | cons y rest =>
        have hy : y ∈ k :: ks := by
          rw [← mem_firsts, hrest]
          exact List.mem_cons_of_mem _ List.mem_cons_self
        have hky := Option.some.inj (hall y hy)
        rw [hky] at hnodup
        exact absurd List.mem_cons_self (List.nodup_cons.mp hnodup).1

theorem firsts_of_length_le_one (h : (firsts ks).length ≤ 1) : firsts ks = ks.take 1 := by
  cases ks with
  | nil => rfl
  | cons k ks =>
    obtain ⟨rest, hrest⟩ := firsts_cons_head k ks
    rw [hrest, List.length_cons] at h
    have hnil : rest = [] := List.length_eq_zero_iff.mp (by omega)
    rw [hrest, hnil]
    rfl

/-- The first member has the number 0. -/
theorem number_head (h : ks ≠ []) : (number ks)[0]? = some 0 := by
  cases ks with
  | nil => exact absurd rfl h
  | cons k ks =>
    obtain ⟨rest, hrest⟩ := firsts_cons_head k ks
    rw [number_get (k := k) rfl]
    unfold number_of
    rw [hrest, List.idxOf_cons_self]

end

/-! ## Numbers of numbers -/

section

variable {ks : List κ}

/-- A function that keeps the members apart keeps their order. -/
theorem firsts_map {f : κ → ι} (hf : ∀ x ∈ ks, ∀ y ∈ ks, f x = f y → x = y) :
    firsts (ks.map f) = (firsts ks).map f := by
  induction ks using List.reverseRecOn with
  | nil => rfl
  | append_singleton ks k ih =>
    have ih := ih fun x hx y hy => hf x (List.mem_append_left _ hx) y (List.mem_append_left _ hy)
    rw [List.map_append, List.map_singleton, firsts_snoc, firsts_snoc, ih]
    unfold note
    by_cases hk : k ∈ firsts ks
    · rw [if_pos hk, if_pos (List.mem_map_of_mem hk)]
    · have hnot : f k ∉ (firsts ks).map f := by
        intro hmem
        obtain ⟨x, hx, he⟩ := List.mem_map.mp hmem
        have hxk := hf x (List.mem_append_left _ (mem_firsts.mp hx)) k (by simp) he
        exact hk (hxk ▸ hx)
      rw [if_neg hk, if_neg hnot, List.map_append, List.map_singleton]

theorem idxOf_map {f : κ → ι} {xs : List κ} {x : κ} (hf : ∀ y ∈ xs, f y = f x → y = x) :
    (xs.map f).idxOf (f x) = xs.idxOf x := by
  induction xs with
  | nil => rfl
  | cons y xs ih =>
    rw [List.forall_mem_cons] at hf
    rw [List.map_cons]
    by_cases he : y = x
    · rw [he, List.idxOf_cons_self, List.idxOf_cons_self]
    · have hne : f y ≠ f x := fun h => he (hf.1 h)
      rw [List.idxOf_cons_ne _ hne, List.idxOf_cons_ne _ he, ih hf.2]

/-- Two lists with the same members alike have the same numbers. -/
theorem number_map {f : κ → ι} (hf : ∀ x ∈ ks, ∀ y ∈ ks, f x = f y → x = y) :
    number (ks.map f) = number ks := by
  unfold number
  rw [List.map_map]
  apply List.map_congr_left
  intro k hk
  unfold Function.comp number_of
  rw [firsts_map hf]
  exact idxOf_map fun y hy he => hf y (mem_firsts.mp hy) k hk he

/-- The numbers of numbers are the same. -/
theorem number_number (ks : List κ) : number (number ks) = number ks := by
  have h : number (ks.map (number_of ks)) = number ks :=
    number_map fun x hx y _ he => (number_of_inj hx).mp he
  exact h

theorem firsts_number_length (ks : List κ) :
    (firsts (number ks)).length = (firsts ks).length := by
  have h : firsts (ks.map (number_of ks)) = (firsts ks).map (number_of ks) :=
    firsts_map fun x hx y _ he => (number_of_inj hx).mp he
  have h' : firsts (number ks) = (firsts ks).map (number_of ks) := h
  rw [h', List.length_map]

/-! ## Refinement -/

theorem toFinset_map (f : κ → ι) (ks : List κ) : (ks.map f).toFinset = ks.toFinset.image f := by
  ext x
  simp

theorem number_of_same_length {f : κ → ι}
    (h : (firsts ks).length ≤ (firsts (ks.map f)).length) : number (ks.map f) = number ks := by
  apply number_map
  rw [firsts_length, firsts_length, toFinset_map] at h
  have hinj := Finset.card_image_iff.mp (Nat.le_antisymm Finset.card_image_le h)
  intro x hx y hy he
  exact hinj (by simpa using hx) (by simpa using hy) he

end

end numbering
