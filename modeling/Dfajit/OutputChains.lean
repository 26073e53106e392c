-- The chains of output links. The link of a pattern goes to the longest shorter
-- one that ends it, so the links lead through ever shorter patterns to an end,
-- in a trie of any size that 32 bits can number.
import Dfajit.OutputLinks
import Dfajit.TableScan

namespace dfajit.output_chains

open error table codegen table_scan dfa text_tree trie failure_links output_links suffix

section

variable {strs patterns : List (List UInt8)} {v : List UInt8}

/-! ## The link of a pattern -/

/-- A pattern has no link just where no shorter one ends it, and else the link to
the longest of these. -/
theorem out_link_cases (hcov : ∀ p ∈ patterns, p ∈ strs) (hv : IsPattern patterns v) :
    (out_link strs patterns v = NONE ∧ ∀ u, u <:+ v → u ≠ v → ¬ IsPattern patterns u) ∨
      ∃ u, IsLongest (fun u => u <:+ v ∧ u ≠ v ∧ IsPattern patterns u) u ∧
        out_link strs patterns v = state_of strs u := by
  have hmem : ∀ u, u ∈ ends patterns (border strs v) ↔ u <:+ v ∧ u ≠ v ∧ IsPattern patterns u :=
    fun u => mem_hits_border (fun p hp => hcov p hp.1) hv.2
  unfold out_link
  rw [if_pos hv]
  cases hends : ends patterns (border strs v) with
  | nil =>
    refine Or.inl ⟨rfl, ?_⟩
    intro u hsuf hne hu
    have hin := (hmem u).mpr ⟨hsuf, hne, hu⟩
    rw [hends] at hin
    cases hin
  | cons u us =>
    exact Or.inr ⟨u, hits_border_head (fun p hp => hcov p hp.1) hv.2 hends, rfl⟩

/-- A link goes to a state or nowhere. -/
theorem out_link_lt (h : Nodes strs) (hcov : ∀ p ∈ patterns, p ∈ strs)
    (hne : out_link strs patterns v ≠ NONE) :
    (out_link strs patterns v).toNat < strs.length := by
  by_cases hv : IsPattern patterns v
  · rcases out_link_cases hcov hv with ⟨hnone, _⟩ | ⟨u, ⟨⟨_, _, hu⟩, _⟩, hlink⟩
    · exact absurd hnone hne
    · rw [hlink]
      exact h.state_lt (hcov u hu.1)
  · exact absurd (if_neg hv) hne

theorem next_out_link (h : Nodes strs) (hv : v ∈ strs) :
    next_output (strs.map (out_link strs patterns)) (state_of strs v) =
      out_link strs patterns v := by
  unfold next_output
  rw [List.getElem?_map, h.get hv]
  rfl

/-! ## The chains -/

/-- From a pattern the links lead through the patterns that end it. -/
theorem chain_pattern (h : Nodes strs) (hcov : ∀ p ∈ patterns, p ∈ strs)
    {vs : List (List UInt8)} (hp : IsPattern patterns v) (hends : ends patterns v = v :: vs) :
    Chain (strs.map (out_link strs patterns)) (state_of strs v)
      ((v :: vs).map (state_of strs)) := by
  induction vs generalizing v with
  | nil =>
    have hv := hcov v hp.1
    refine .cons (h.state_ne_none hv) ?_
    rw [next_out_link h hv]
    rw [ends_of_pattern hcov hp] at hends
    unfold out_link
    rw [if_pos hp, (List.cons.inj hends).2]
    exact .nil
  | cons u us ih =>
    have hv := hcov v hp.1
    refine .cons (h.state_ne_none hv) ?_
    rw [next_out_link h hv]
    rw [ends_of_pattern hcov hp] at hends
    have hrest := (List.cons.inj hends).2
    have hu : IsPattern patterns u :=
      (mem_hits.mp (hrest ▸ List.mem_cons_self : u ∈ ends patterns _)).2
    unfold out_link
    rw [if_pos hp, hrest]
    exact ih hu (hits_of_head hrest)

/-- From any other state the links lead nowhere. -/
theorem chain_other (h : Nodes strs) (hv : v ∈ strs) (hp : ¬ IsPattern patterns v) :
    Chain (strs.map (out_link strs patterns)) (state_of strs v) [state_of strs v] := by
  refine .cons (h.state_ne_none hv) ?_
  rw [next_out_link h hv]
  unfold out_link
  rw [if_neg hp]
  exact .nil

/-- From each state with an id the links lead to an end, through states with an
id whose texts get shorter. -/
theorem exists_chain (h : Nodes strs) (hcov : ∀ p ∈ patterns, p ∈ strs) (hv : v ∈ strs)
    (hfirst : first_pid patterns v ≠ none) :
    ∃ us : List (List UInt8),
      Chain (strs.map (out_link strs patterns)) (state_of strs v) (us.map (state_of strs)) ∧
      (∀ u ∈ us, u ∈ strs ∧ first_pid patterns u ≠ none) ∧
      us.Pairwise fun u w => w.length < u.length := by
  by_cases hp : IsPattern patterns v
  · have hends := ends_of_pattern hcov hp
    refine ⟨_, chain_pattern h hcov hp hends, ?_, ?_⟩
    · intro u hu
      rw [← hends] at hu
      have hu := (mem_hits.mp hu).2
      refine ⟨hcov u hu.1, ?_⟩
      rw [first_pid_of_pattern hcov hu]
      exact Option.some_ne_none _
    · rw [← hends]
      exact hits_sorted v
  · refine ⟨[v], chain_other h hv hp, ?_, List.pairwise_singleton _ _⟩
    intro u hu
    rw [List.mem_singleton.mp hu]
    exact ⟨hv, hfirst⟩

end

end dfajit.output_chains
