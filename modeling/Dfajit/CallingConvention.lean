-- The calling convention of the emitted code (codegen.rs, `scan_jit` and
-- `scan_count_jit`): what its caller relies on when a call is over.
import Dfajit.Agreement

namespace dfajit.calling_convention

open error table codegen emitted table_scan jit_run dfa engines trie agreement pattern_scan x64

/-- The registers that a `sysv64` function gives back as it got them, beside the
stack pointer. -/
def preserved : List Reg := [.rbx, .rbp, .r12, .r13, .r14, .r15]

/-- What the `sysv64` convention promises the caller: the stack is as it was, and
so is each preserved register. The result is in `rax`. The callee wrote
to no memory but the match buffer. -/
structure Conforms (code : ExecutableBuffer) (input : List UInt8) {slots : Nat}
    (place : Placement code input slots) (count : Nat) (written : List Match) (τ : State) :
    Prop where
  stack : τ.stack = []
  regs : ∀ r ∈ preserved, τ.regs r = place.regs r
  result : (τ.regs .rax).toNat = count
  memory : τ.mem = [⟨code.ptr, code.image, false⟩, ⟨place.input_ptr, input, false⟩,
    ⟨place.match_ptr, matchBytes written, true⟩]

section

variable {code : ExecutableBuffer} {t : TransitionTable} {links : List UInt32} {post : List UInt8}

/-- The code saves each preserved register, and no argument stands in one. -/
theorem preserved_saved (regs : Reg → UInt64) (ip len mp slots : Nat) {r : Reg}
    (hr : r ∈ preserved) : r ∈ Frame.calleeSaved ∧
      ExecutableBuffer.entry_regs regs ip len mp slots r = regs r := by
  unfold preserved at hr
  simp only [List.mem_cons, List.not_mem_nil, or_false] at hr
  rcases hr with rfl | rfl | rfl | rfl | rfl | rfl <;> exact ⟨by decide, rfl⟩

theorem call_conforms (hc : Compiled code t links post) (hl : Linked t links)
    (hn : t.state_count ≤ MAX_JIT_STATES) (hlinks : links.length ≤ t.state_count)
    (hsp : Sparse t links) (input : List UInt8) (slots : List Match)
    (place : Placement code input slots.length) :
    ∃ τ, Conforms code input place (found t links input).length
        (fill id slots (found t links input)) τ ∧
      ∀ fuel, 22 + 16 * input.length + 23 * (found t links input).length < fuel →
        run code.image fuel (code.entry input slots place) = .done τ := by
  have hlen := place.input_len
  have hfew := hsp input
  obtain ⟨f, hf⟩ : ∃ f, f = hc.frame hl hn hlinks place := ⟨_, rfl⟩
  have himage : f.image = code.image := by rw [hf, hc.image]; rfl
  have hfinds : f.finds = found t links input := by rw [hf]; rfl
  have hinput : f.input.length = input.length := by rw [hf]; rfl
  have hmem : ∀ bytes, f.mem bytes = [⟨code.ptr, code.image, false⟩,
      ⟨place.input_ptr, input, false⟩, ⟨place.match_ptr, bytes, true⟩] := by
    intro bytes
    unfold Frame.mem
    rw [himage, hf]
    rfl
  have hcall := f.whole_call (σ := code.entry input slots place) (by rw [hf]; rfl) rfl
    (by rw [hf]; rfl) (by rw [hf]; rfl) (by rw [hf]; rfl) (by rw [hf]; rfl) rfl
    (hmem (matchBytes slots)).symm (by rw [hfinds]; omega)
  unfold Frame.Leads at hcall
  rw [himage, hfinds, hinput] at hcall
  obtain ⟨n, τ, hbound, hrun, hpc, hstack, hτ, hax, hsaved⟩ := hcall
  have hret := f.returns hpc hstack
  rw [himage] at hret
  refine ⟨τ, ⟨hstack, ?_, ?_, ?_⟩, ?_⟩
  · intro r hr
    obtain ⟨hmem, hentry⟩ := preserved_saved place.regs place.input_ptr input.length
      place.match_ptr slots.length hr
    exact (hsaved r hmem).trans hentry
  · rw [hax, u64_toNat (by omega)]
  · rw [hτ, hmem]
  · intro fuel hfuel
    exact hrun.run_done hret fuel (by omega)

end

/-- A call of the emitted code conforms to the convention of its type, and is over
after a number of steps that grows with the input and the matches alone. -/
theorem the_emitted_code_conforms_to_its_calling_convention {os : Os} {t : TransitionTable}
    {links : List UInt32} {jit : JitDfa} (hruns : RunsWith t links)
    (hstates : t.state_count ≤ MAX_JIT_STATES)
    (hjit : JitDfa.compile_with_output_links os t links = .ok jit)
    (input : List UInt8) (slots : List Match) (place : Placement jit.code input slots.length) :
    ∃ τ count written, Conforms jit.code input place count written τ ∧
      jit.scan input slots place = .ok (min count slots.length, written) ∧
      ∀ fuel, 22 + 16 * input.length + 23 * count < fuel →
        run jit.code.image fuel (jit.code.entry input slots place) = .done τ := by
  obtain ⟨hch, hcode⟩ := compile_with_output_links_ok hjit
  obtain ⟨hl, hsp⟩ := hruns.linked hch
  obtain ⟨post, hc⟩ := compile_x86_64_jit hstates hch.bytes hcode
  obtain ⟨τ, hconforms, hrun⟩ :=
    call_conforms hc hl hstates (Checked.links_le hch) hsp input slots place
  refine ⟨τ, _, _, hconforms, ?_, hrun⟩
  have hscan := scan_eq hjit hl hsp input slots place
  unfold paddingOf at hscan
  rwa [if_pos hstates] at hscan

/-- The call for `xabcd` with one slot, with links between the patterns. -/
theorem the_emitted_code_of_overlapping_patterns_conforms :
    ∃ t links jit, ∃ place : Placement jit.code [120, 97, 98, 99, 100] 1,
      pattern_table overlapping = .ok (t, links) ∧
      JitDfa.compile_with_output_links generous t links = .ok jit ∧
      ∃ τ count written, Conforms jit.code [120, 97, 98, 99, 100] place count written τ ∧
        jit.scan [120, 97, 98, 99, 100] [Match.from_parts 0 0 0] place =
          .ok (min count 1, written) ∧
        ∀ fuel, 22 + 16 * 5 + 23 * count < fuel →
          run jit.code.image fuel
            (jit.code.entry [120, 97, 98, 99, 100] [Match.from_parts 0 0 0] place) = .done τ := by
  have hfew : overlapping.length < 2 ^ 32 := by decide
  obtain ⟨t, links, htable, ha⟩ := pattern_table_automaton hfew (by decide) (Or.inl (by decide))
  obtain ⟨jit, hjit, hptr⟩ := Automaton.compiles ha
  have hstates : t.state_count ≤ MAX_JIT_STATES := by
    rw [ha.sized.states]
    decide
  exact ⟨t, links, jit, low_place hptr _ 1 (by decide) (by decide), htable, hjit,
    the_emitted_code_conforms_to_its_calling_convention (Or.inr ⟨_, htable⟩) hstates hjit _
      [Match.from_parts 0 0 0] _⟩

end dfajit.calling_convention
