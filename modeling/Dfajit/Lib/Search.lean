-- The search for the states that a machine reaches. A state that was seen waits
-- in a queue until all its targets have been seen.
import Mathlib.Data.Fintype.Card
import Mathlib.Data.Set.Card

namespace search

variable {σ α : Type*} {next : σ → α → σ} {start s : σ} {seen queue : List σ}

/-- Some word leads to the state. -/
def Reached (next : σ → α → σ) (start s : σ) : Prop := ∃ w : List α, w.foldl next start = s

theorem reached_start : Reached next start start := ⟨[], rfl⟩

theorem Reached.step (h : Reached next start s) (a : α) : Reached next start (next s a) := by
  obtain ⟨w, rfl⟩ := h
  refine ⟨w ++ [a], ?_⟩
  rw [List.foldl_append]
  rfl

/-- The states that were seen: first those whose targets were all seen, and then
the queue. -/
structure Frontier (next : σ → α → σ) (start : σ) (seen queue : List σ) : Prop where
  nodup : seen.Nodup
  head : seen.head? = some start
  reached : ∀ s ∈ seen, Reached next start s
  split : ∃ done, seen = done ++ queue ∧ ∀ s ∈ done, ∀ a, next s a ∈ seen

theorem frontier_start (next : σ → α → σ) (start : σ) : Frontier next start [start] [start] := by
  refine ⟨List.nodup_singleton start, rfl, ?_, [], rfl, ?_⟩
  · intro s hs
    rw [List.mem_singleton.mp hs]
    exact reached_start
  · intro s hs
    cases hs

/-- A new target of the first state in the queue. -/
theorem Frontier.see (h : Frontier next start seen (s :: queue)) {a : α} (hnew : next s a ∉ seen) :
    Frontier next start (seen ++ [next s a]) (s :: (queue ++ [next s a])) := by
  obtain ⟨done, hsplit, hdone⟩ := h.split
  have hs : s ∈ seen := by
    rw [hsplit]
    exact List.mem_append_right _ List.mem_cons_self
  refine ⟨?_, ?_, ?_, done, ?_, ?_⟩
  · rw [List.nodup_append]
    refine ⟨h.nodup, List.nodup_singleton _, ?_⟩
    rintro x hx y hy rfl
    rw [List.mem_singleton.mp hy] at hx
    exact hnew hx
  · rw [List.head?_append, h.head]
    rfl
  · intro x hx
    rcases List.mem_append.mp hx with hx | hx
    · exact h.reached x hx
    · rw [List.mem_singleton.mp hx]
      exact (h.reached s hs).step a
  · rw [hsplit, List.append_assoc, List.cons_append]
  · intro x hx b
    exact List.mem_append_left _ (hdone x hx b)

/-- The first state leaves the queue when all its targets were seen. -/
theorem Frontier.pop (h : Frontier next start seen (s :: queue)) (hall : ∀ a, next s a ∈ seen) :
    Frontier next start seen queue := by
  obtain ⟨done, hsplit, hdone⟩ := h.split
  refine ⟨h.nodup, h.head, h.reached, done ++ [s], ?_, ?_⟩
  · rw [hsplit, List.append_assoc, List.singleton_append]
  · intro x hx
    rcases List.mem_append.mp hx with hx | hx
    · exact hdone x hx
    · rw [List.mem_singleton.mp hx]
      exact hall

/-- At the end of the queue just the states that the machine reaches were seen. -/
theorem Frontier.mem_iff (h : Frontier next start seen []) : s ∈ seen ↔ Reached next start s := by
  obtain ⟨done, hsplit, hdone⟩ := h.split
  rw [List.append_nil] at hsplit
  subst hsplit
  refine ⟨h.reached s, ?_⟩
  rintro ⟨w, rfl⟩
  induction w using List.reverseRecOn with
  | nil => exact List.mem_of_mem_head? h.head
  | append_singleton w a ih =>
    rw [List.foldl_append]
    exact hdone _ ih a

theorem Frontier.length_eq (h : Frontier next start seen []) :
    seen.length = {s | Reached next start s}.ncard := by
  classical
  have hset : {s | Reached next start s} = (seen.toFinset : Set σ) := by
    ext s
    rw [Set.mem_ofPred_eq, ← h.mem_iff, Finset.mem_coe, List.mem_toFinset]
  rw [hset, Set.ncard_coe_finset, List.toFinset_card_of_nodup h.nodup]

end search
