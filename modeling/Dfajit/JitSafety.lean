-- The emitted code stays in bounds: it reads the input, the sections of its data
-- and the match slots of the caller, each where the instruction may, and nothing
-- else, in every run.
import Dfajit.Agreement

namespace dfajit.jit_safety

open error table codegen emitted table_scan jit_run dfa engines trie agreement pattern_scan x64

/-- The pattern length that the sentinel would number is outside its section. -/
theorem no_sentinel_length {t : TransitionTable} {links : List UInt32}
    (hlens : t.pattern_lengths.length < 2 ^ 32) {base ip len mp slots : Nat} {a : Access}
    (h : InBounds t links base ip len mp slots 139 a) :
    a ≠ .read (patlenAt (sections t links) base + 4 * NONE.toNat) 4 := by
  obtain ⟨i, hi, rfl⟩ := h
  intro he
  have hplace := (Access.read.inj he).1
  rw [none_toNat] at hplace
  omega

/-- In every run of the emitted code, each access is in bounds, and the length of
the sentinel is not read. No run comes to a fault. -/
theorem emitted_code_stays_in_bounds {os : Os} {t : TransitionTable} {links : List UInt32}
    {jit : JitDfa} (hruns : RunsWith t links) (hlens : t.pattern_lengths.length < 2 ^ 32)
    (hstates : t.state_count ≤ MAX_JIT_STATES)
    (hjit : JitDfa.compile_with_output_links os t links = .ok jit)
    (input : List UInt8) (slots : List Match) (place : Placement jit.code input slots.length)
    (n : Nat) :
    run jit.code.image n (jit.code.entry input slots place) ≠ .fault ∧
      ∀ σ, run jit.code.image n (jit.code.entry input slots place) = .next σ →
        ∀ a, access jit.code.image σ = some a →
          InBounds t links jit.code.ptr place.input_ptr input.length place.match_ptr slots.length
            σ.pc a ∧
          (σ.pc = 139 → a ≠ .read (patlenAt (sections t links) jit.code.ptr + 4 * NONE.toNat) 4) := by
  obtain ⟨hch, hcode⟩ := compile_with_output_links_ok hjit
  obtain ⟨hl, hsp⟩ := hruns.linked hch
  obtain ⟨post, hc⟩ := compile_x86_64_jit hstates hch.bytes hcode
  obtain ⟨m, τ, _, hsteps, hret, hacc, _⟩ :=
    call_leads hc hl hstates (Checked.links_le hch) hsp input slots place
  obtain ⟨hfault, hin⟩ := hsteps.run_within hret hacc n
  refine ⟨hfault, ?_⟩
  intro σ hrun a ha
  have hbound := hin σ hrun a ha
  refine ⟨hbound, ?_⟩
  intro hpc
  rw [hpc] at hbound
  exact no_sentinel_length hlens hbound

/-- The call for `xabcd` with one slot, step after step, with links between the
patterns. -/
theorem emitted_code_stays_in_bounds_on_overlapping_patterns :
    ∃ t links jit, ∃ place : Placement jit.code [120, 97, 98, 99, 100] 1,
      pattern_table overlapping = .ok (t, links) ∧
      JitDfa.compile_with_output_links generous t links = .ok jit ∧
      ∀ n, run jit.code.image n
          (jit.code.entry [120, 97, 98, 99, 100] [Match.from_parts 0 0 0] place) ≠ .fault ∧
        ∀ σ, run jit.code.image n
            (jit.code.entry [120, 97, 98, 99, 100] [Match.from_parts 0 0 0] place) = .next σ →
          ∀ a, access jit.code.image σ = some a →
            InBounds t links jit.code.ptr place.input_ptr 5 place.match_ptr 1 σ.pc a ∧
            (σ.pc = 139 →
              a ≠ .read (patlenAt (sections t links) jit.code.ptr + 4 * NONE.toNat) 4) := by
  have hfew : overlapping.length < 2 ^ 32 := by decide
  obtain ⟨t, links, htable, ha⟩ := pattern_table_automaton hfew (by decide) (Or.inl (by decide))
  obtain ⟨jit, hjit, hptr⟩ := Automaton.compiles ha
  have hlens : t.pattern_lengths.length < 2 ^ 32 := by
    rw [ha.lengths]
    decide
  have hstates : t.state_count ≤ MAX_JIT_STATES := by
    rw [ha.sized.states]
    decide
  exact ⟨t, links, jit, low_place hptr _ 1 (by decide) (by decide), htable, hjit,
    fun n => emitted_code_stays_in_bounds (Or.inr ⟨_, htable⟩) hlens hstates hjit _ _ _ n⟩

end dfajit.jit_safety
