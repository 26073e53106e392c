-- Every run of a process that compiles, scans and drops: no crash, no mapping
-- that is written and executed, none that is lost, and scans that find what they
-- find alone.
import Dfajit.Process

namespace dfajit.process_runs

open error table codegen table_scan jit_run dfa agreement words x64 mapping build_steps process

/-! ## Runs -/

section

variable {ι κ : Type} {jobs : ι → Job} {p q : Process ι κ}

theorem setThread_self [DecidableEq κ] (p : Process ι κ) (k : κ) (t : Thread ι) :
    (p.setThread k t).thread k = t := Function.update_self _ _ _

theorem setBuild_self [DecidableEq ι] (p : Process ι κ) (i : ι) (b : Status) :
    (p.setBuild i b).build i = b := Function.update_self _ _ _

theorem instruction_build [DecidableEq κ] (p : Process ι κ) (k : κ) (c : Call ι) (n : Nat)
    (s : State) : (p.instruction k c n s).build = p.build := by
  unfold Process.instruction
  split
  · rfl
  split <;> rfl

theorem inv_start {heap : Memory} (h : heap.Separate) :
    Inv jobs (fun _ => .empty) (start jobs heap : Process ι κ) := by
  refine ⟨⟨?_, ?_, ?_⟩, ?_, ?_, ?_, ?_, ?_, ?_, ?_⟩
  · rw [show (start jobs heap : Process ι κ).maps.mem = [] from rfl, List.append_nil]
    exact h
  · intro r hr
    cases hr
  · intro b hb
    cases hb
  · intro i
    exact .empty _
  · intro i j _
    exact disjoint_empty _
  · intro r hr
    cases hr
  · intro i
    exact Given.empty _
  · intro i
    exact compile_x86_64_wp (jobs i).checked.bytes
  · intro k
    exact trivial
  · intro k l c d m n s u _ hk
    cases hk

variable [DecidableEq ι] [DecidableEq κ]

/-- Whatever happens next keeps the invariant. -/
theorem inv_next {own : ι → Space} (h : Inv jobs own p) (hn : Next p q) :
    ∃ own', Inv jobs own' q := by
  cases hn with
  | build_call hi hstep =>
    obtain ⟨own', hmoves, hwp, hgiven⟩ := wp_step h.ok (h.owns _) (h.kept hi) hstep
    exact ⟨_, h.moves hmoves hgiven hwp (h.not_running hi nofun)⟩
  | build_crash hi hcrash => exact absurd hcrash (wp_no_crash h.ok (h.owns _) (h.kept hi))
  | built hi =>
    have hkept := h.kept hi
    exact ⟨_, h.keeps hkept (h.not_running hi nofun)⟩
  | refused hi =>
    have hkept := h.kept hi
    exact ⟨_, h.keeps hkept (h.not_running hi nofun)⟩
  | drop hi hfree => exact ⟨_, h.keeps (keeps_drop (h.kept hi)) hfree⟩
  | drop_call hi hstep =>
    obtain ⟨own', hmoves, hwp, hgiven⟩ := wp_step h.ok (h.owns _) (h.kept hi) hstep
    exact ⟨_, h.moves hmoves hgiven hwp (h.not_running hi nofun)⟩
  | drop_crash hi hcrash => exact absurd hcrash (wp_no_crash h.ok (h.owns _) (h.kept hi))
  | dropped hi =>
    have hkept := h.kept hi
    exact ⟨_, h.keeps hkept (h.not_running hi nofun)⟩
  | call _ hlive hjit hfunc hb =>
    refine ⟨own, h.setThread (h.call hlive hjit hfunc hb) ?_⟩
    rintro c' m s ⟨⟩ l d n u _ hl
    exact hb.others l d n u hl
  | instruction hk => exact ⟨own, h.instruction hk⟩
  | elsewhere hl => exact ⟨own, h.elsewhere hl⟩

theorem reachable_inv (h : Reachable jobs p) : ∃ own, Inv jobs own p := by
  induction h with
  | start hsep => exact ⟨_, inv_start hsep⟩
  | next _ hn ih =>
    obtain ⟨own, hinv⟩ := ih
    exact inv_next hinv hn

/-- The next instruction of a running call is one more of it, or its return. -/
theorem goes_on (h : Reachable jobs p) {k : κ} {c : Call ι} {n : Nat} {s : State}
    (hk : p.thread k = .running c n s) :
    (∃ u, (p.instruction k c n s).thread k = .running c (n + 1) u) ∨
      ∃ count written, (p.instruction k c n s).thread k = .returned c count written := by
  obtain ⟨own, hinv⟩ := reachable_inv (h.next (.instruction hk))
  have hfits := hinv.thread k
  unfold Process.instruction at hfits ⊢
  split at hfits
  · rw [setThread_self] at hfits
    exact hfits.elim
  split at hfits
  · exact Or.inl ⟨_, setThread_self _ _ _⟩
  · exact Or.inr ⟨_, _, setThread_self _ _ _⟩
  · rw [setThread_self] at hfits
    exact hfits.elim

/-! ## A whole run -/

/-- A reachable process in which the build has come so far, with the memory of the
program and the threads as they were. -/
structure Ahead (jobs : ι → Job) (p : Process ι κ) (i : ι) (prog : Prog (Res Buffer))
    (q : Process ι κ) : Prop where
  reachable : Reachable jobs q
  build : q.build i = .building prog
  heap : q.heap = p.heap
  thread : q.thread = p.thread

section

variable {i : ι}

theorem Ahead.step {prog prog' : Prog (Res Buffer)} {answers : List Answer} {maps : Space}
    (h : Ahead jobs p i prog q) (hs : Step q.heap q.maps prog answers maps prog') :
    Ahead jobs p i prog' (({ q with maps }.note i answers).setBuild i (.building prog')) :=
  ⟨h.reachable.next (.build_call h.build hs), setBuild_self _ _ _, h.heap, h.thread⟩

theorem Ahead.copy {dst : Nat} {bytes : List UInt8} {rest : Prog (Res Buffer)}
    (h : Ahead jobs p i (.copy dst bytes rest) q) : ∃ q', Ahead jobs p i rest q' := by
  obtain ⟨own, hinv⟩ := reachable_inv h.reachable
  obtain ⟨hbytes, own', hcopy, _⟩ := hinv.kept h.build
  obtain ⟨maps, hmaps, _⟩ := copy_in_part hinv.ok (hinv.owns i) hbytes hcopy
  exact ⟨_, h.step (.copied hmaps)⟩

theorem Ahead.protect {ptr size : Nat} {rest : Except String Unit → Prog (Res Buffer)}
    (h : Ahead jobs p i (.mprotect ptr size rest) q) : ∃ q', Ahead jobs p i (rest (.ok ())) q' := by
  obtain ⟨own, hinv⟩ := reachable_inv h.reachable
  obtain ⟨_, own', hprot, _⟩ := hinv.kept h.build
  obtain ⟨maps, hmaps, _⟩ := protect_in_part hinv.ok (hinv.owns i) hprot
  exact ⟨_, h.step (.protected_ hmaps)⟩

/-- Where there is room, a build of emitted code can end with a live buffer there. -/
theorem build_can_end (h : Reachable jobs p)
    (hi : p.build i = .building (build_steps.compile_x86_64 (jobs i).table (jobs i).output_links))
    (hfew : (jobs i).table.state_count ≤ MAX_JIT_STATES) {base : Nat}
    (hfree : Free (p.heap ++ p.maps.mem) base (alloc_size (jobs i).table (jobs i).output_links)) :
    ∃ q buffer, Reachable jobs q ∧ q.build i = .live buffer ∧ buffer.is_jit = true ∧
      buffer.ptr = base ∧ q.heap = p.heap ∧ q.thread = p.thread := by
  unfold MAX_JIT_STATES at hfew
  unfold build_steps.compile_x86_64 at hi
  rw [if_neg (by omega), if_neg (by unfold MAX_JIT_STATES; omega)] at hi
  have h0 : Ahead jobs p i _ p := ⟨h, hi, rfl, rfl⟩
  have h1 := h0.step (.mapped hfree)
  obtain ⟨_, h2⟩ := h1.copy
  obtain ⟨_, h3⟩ := h2.copy
  obtain ⟨_, h4⟩ := h3.copy
  obtain ⟨_, h5⟩ := h4.copy
  obtain ⟨_, h6⟩ := h5.copy
  obtain ⟨q, h7⟩ := h6.protect
  exact ⟨_, _, h7.reachable.next (.built h7.build), setBuild_self _ _ _, rfl, rfl, h7.heap,
    h7.thread⟩

end

/-- A running call can go on to its return. -/
theorem call_can_return (h : Reachable jobs p) {k : κ} {c : Call ι} {n : Nat} {s : State}
    (hk : p.thread k = .running c n s) : ∃ q count written, Reachable jobs q ∧
      q.thread k = .returned c count written ∧ q.build = p.build := by
  obtain ⟨left, hleft⟩ : ∃ left, left = bound (jobs c.buffer) c.input + 1 - n := ⟨_, rfl⟩
  induction left generalizing p n s with
  | zero =>
    obtain ⟨own, hinv⟩ := reachable_inv h
    have hfits := hinv.thread k
    rw [hk] at hfits
    obtain ⟨os, code, place, v, bytes, hcode, hjit, _, _, _, _, hrun, _⟩ := hfits.alone
    have hle := (solo_runs hcode hjit hrun).1
    omega
  | succ left ih =>
    rcases goes_on h hk with ⟨u, hu⟩ | ⟨count, written, hret⟩
    · obtain ⟨q, count, written, hq, hret, hbuild⟩ := ih (h.next (.instruction hk)) hu (by omega)
      exact ⟨q, count, written, hq, hret, hbuild.trans (instruction_build p k c n s)⟩
    · exact ⟨_, count, written, h.next (.instruction hk), hret, instruction_build p k c n s⟩

end

/-- A call with its slices at two places below the code. -/
def low_call (input : List UInt8) (slots : List Match) : Call Unit where
  buffer := ()
  func := 0x10000
  input_ptr := 0x1000
  input
  match_ptr := 0x4000
  slots
  regs := fun _ => 0

/-- One build and one call of its code, to the return. -/
theorem one_call_can_return {job : Job} (hfew : job.table.state_count ≤ MAX_JIT_STATES)
    (hsize : alloc_size job.table job.output_links ≤ 2 ^ 32) (input : List UInt8)
    (slots : List Match) (hi : input.length ≤ 0x1000) (hs : slots.length ≤ 0x400) :
    ∃ (p : Process Unit Unit) (buffer : Buffer) (count : Nat) (written : List Match),
      Reachable (fun _ => job) p ∧ p.build () = .live buffer ∧
      p.thread () = .returned (low_call input slots) count written := by
  obtain ⟨heap, hheap⟩ : ∃ heap : Memory, heap =
      [(low_call input slots).input_region, (low_call input slots).match_region] := ⟨_, rfl⟩
  have hlen := matchBytes_length slots
  have hap : (low_call input slots).match_region.Apart (low_call input slots).input_region := by
    unfold Region.Apart Region.Avoids Call.match_region Call.input_region low_call
    simp only
    omega
  have hsep : heap.Separate := by
    rw [hheap]
    refine List.pairwise_cons.mpr ⟨?_, List.pairwise_singleton _ _⟩
    intro r hr
    rw [List.mem_singleton.mp hr]
    exact hap.symm
  have h0 : Reachable (fun _ => job) (start (fun _ => job) heap : Process Unit Unit) := .start hsep
  have hfree : Free (heap ++ Space.empty.mem) 0x10000
      (alloc_size job.table job.output_links) := by
    refine ⟨by omega, by omega, ?_⟩
    rw [hheap]
    intro r hr
    simp only [Space.empty, List.append_nil, List.mem_cons, List.not_mem_nil, or_false] at hr
    rcases hr with rfl | rfl
    · unfold Region.Avoids Call.input_region low_call
      simp only
      omega
    · unfold Region.Avoids Call.match_region low_call
      simp only
      omega
  obtain ⟨q, buffer, hq, hlive, hjit, hptr, hqheap, hqthread⟩ :=
    build_can_end (i := ()) h0 rfl hfew hfree
  have hidle : q.thread () = .idle := by rw [hqthread]; rfl
  have hb : q.Borrows (low_call input slots) := by
    have hmem : q.heap = heap := by rw [hqheap]; rfl
    refine ⟨?_, ?_, ?_, ?_, ?_, hap, ?_⟩
    · unfold low_call
      simp only
      omega
    · unfold low_call
      simp only
      omega
    · unfold low_call
      simp only
      omega
    · rw [hmem, hheap]
      exact Memory.shows_of_mem List.mem_cons_self
    · rw [hmem, hheap]
      exact Memory.shows_of_mem (List.mem_cons_of_mem _ List.mem_cons_self)
    · intro k d n s hk
      rw [hidle] at hk
      cases hk
  have hcall := hq.next (.call (k := ()) (c := low_call input slots)
    (by intro d n s hk; rw [hidle] at hk; cases hk) hlive hjit hptr.symm hb)
  obtain ⟨p, count, written, hp, hret, hbuild⟩ := call_can_return hcall (setThread_self q () _)
  exact ⟨p, buffer, count, written, hp, by rw [hbuild]; exact hlive, hret⟩

/-- The job of the patterns `abcd`, `bc` and `c`. -/
theorem overlapping_job :
    ∃ job : Job, pattern_table overlapping = .ok (job.table, job.output_links) ∧
      job.table.state_count ≤ MAX_JIT_STATES ∧
      alloc_size job.table job.output_links ≤ 2 ^ 32 := by
  have hfew : overlapping.length < 2 ^ 32 := by decide
  obtain ⟨t, links, htable, ha⟩ :=
    pattern_scan.pattern_table_automaton hfew (by decide) (Or.inl (by decide))
  have hch := Automaton.checked ha
  have hstates : t.state_count ≤ MAX_JIT_STATES := by
    rw [ha.sized.states]
    decide
  have hsize := code_size_le hch.bytes hch.valid.len (engines.Checked.links_le hch)
  have hlens : t.pattern_lengths.length = 3 := by
    rw [ha.lengths]
    rfl
  unfold code_size at hsize
  rw [if_neg (by omega)] at hsize
  have hroom : alloc_size t links ≤ 2 ^ 32 := by
    unfold alloc_size
    omega
  exact ⟨⟨t, links, hch, Or.inr ⟨_, htable⟩⟩, htable, hstates, hroom⟩

/-- The buffer of the patterns is built, and a call with one slot has returned. -/
def OneCall (job : Job) (p : Process Unit Unit) (count : Nat) (written : List Match) : Prop :=
  pattern_table overlapping = .ok (job.table, job.output_links) ∧
    (∃ buffer, p.build () = .live buffer) ∧
    p.thread () = .returned (low_call [120, 97, 98, 99, 100] [Match.from_parts 0 0 0]) count written

theorem one_call : ∃ job p count written, OneCall job p count written ∧
    Reachable (fun _ => job) p := by
  obtain ⟨job, hjob, hfew, hsize⟩ := overlapping_job
  obtain ⟨p, buffer, count, written, hp, hlive, hret⟩ :=
    one_call_can_return hfew hsize [120, 97, 98, 99, 100] [Match.from_parts 0 0 0] (by decide)
      (by decide)
  exact ⟨job, p, count, written, ⟨hjob, ⟨buffer, hlive⟩, hret⟩, hp⟩

/-! ## What holds in every run -/

section

variable {ι κ : Type} [DecidableEq ι] [DecidableEq κ] {jobs : ι → Job} {p : Process ι κ}

/-- No build and no call comes to a fault, and no mapping can be both written and
executed. -/
theorem no_crash_in_any_run (h : Reachable jobs p) :
    (∀ i, p.build i ≠ .crashed) ∧ (∀ k, p.thread k ≠ .crashed) ∧
      ∀ r ∈ p.maps.mem, r.base ∈ p.maps.executable → r.writable = false := by
  obtain ⟨own, hinv⟩ := reachable_inv h
  refine ⟨?_, ?_, fun r hr hx => hinv.ok.write_xor_execute hr hx⟩
  · intro i hi
    have hkeeps := hinv.build i
    rw [hi] at hkeeps
    exact hkeeps
  · intro k hk
    have hfits := hinv.thread k
    rw [hk] at hfits
    exact hfits

theorem no_crash_in_a_run_with_one_call : ∃ (job : Job) (p : Process Unit Unit) (count : Nat)
    (written : List Match), OneCall job p count written ∧ (∀ i, p.build i ≠ .crashed) ∧
      (∀ k, p.thread k ≠ .crashed) ∧
      ∀ r ∈ p.maps.mem, r.base ∈ p.maps.executable → r.writable = false := by
  obtain ⟨job, p, count, written, hone, hp⟩ := one_call
  exact ⟨job, p, count, written, hone, no_crash_in_any_run hp⟩

/-- Who owns which mapping. A build has only mappings that the kernel gave for its own
calls. What is left of a build ends with the buffer of `compile_x86_64` in its only
mapping, or with an error and none, and what is left of a drop ends with none. -/
structure Owners (jobs : ι → Job) (p : Process ι κ) (own : ι → Space) : Prop where
  all : ∀ r, r ∈ p.maps.mem ↔ ∃ i, r ∈ (own i).mem
  apart : ∀ i j, i ≠ j → Disjoint (own i) (own j)
  given : ∀ i, Given (p.answers i) (own i)
  building : ∀ i prog, p.build i = .building prog →
    wp (Built (jobs i).table (jobs i).output_links) (p.answers i) (own i) prog
  live : ∀ i buffer, p.build i = .live buffer → ∃ image,
    own i = one_locked buffer.ptr image ∧ image.length = buffer.len ∧ 0 < buffer.len
  dropping : ∀ i prog, p.build i = .dropping prog →
    wp (fun _ _ left => left = .empty) (p.answers i) (own i) prog
  ended : ∀ i, (p.build i = .dropped ∨ ∃ stop, p.build i = .failed stop) → own i = .empty

omit [DecidableEq ι] [DecidableEq κ] in
theorem inv_owners {own : ι → Space} (h : Inv jobs own p) : Owners jobs p own := by
  refine ⟨?_, h.disjoint, h.given, fun i prog hi => h.kept hi, ?_, fun i prog hi => h.kept hi, ?_⟩
  · exact fun r => ⟨h.all r, fun ⟨i, hr⟩ => (h.owns i).mem r hr⟩
  · intro i buffer hi
    have hkept : Built _ _ (.ok buffer) _ (own i) := h.kept hi
    obtain ⟨o, ho⟩ : ∃ o, o = own i := ⟨_, rfl⟩
    rw [← ho] at hkept ⊢
    cases hkept with
    | @ok _ code _ _ hlen => exact ⟨code.image, rfl, code.image_len, hlen⟩
  · rintro i (hi | ⟨stop, hi⟩)
    · exact h.kept hi
    · have hkept : Built _ _ (.error stop) _ (own i) := h.kept hi
      obtain ⟨o, ho⟩ : ∃ o, o = own i := ⟨_, rfl⟩
      rw [← ho] at hkept ⊢
      cases hkept
      rfl

omit [DecidableEq ι] [DecidableEq κ] in
/-- The owner of a mapping is at work, has it in a live buffer, or drops it. -/
theorem Owners.status {own : ι → Space} (h : Owners jobs p own) (hno : ∀ i, p.build i ≠ .crashed)
    {i : ι} {r : Region} (hr : r ∈ (own i).mem) : (∃ prog, p.build i = .building prog) ∨
      (∃ buffer, p.build i = .live buffer ∧ r.base = buffer.ptr ∧ r.bytes.length = buffer.len) ∨
      ∃ prog, p.build i = .dropping prog := by
  have hnone : ¬ (p.build i = .dropped ∨ ∃ stop, p.build i = .failed stop) := by
    intro hi
    rw [h.ended i hi] at hr
    cases hr
  cases hi : p.build i with
  | building prog => exact Or.inl ⟨prog, rfl⟩
  | live buffer =>
    obtain ⟨image, he, hlen, _⟩ := h.live i buffer hi
    rw [he] at hr
    rw [List.mem_singleton.mp hr]
    exact Or.inr (Or.inl ⟨buffer, rfl, rfl, hlen⟩)
  | dropping prog => exact Or.inr (Or.inr ⟨prog, rfl⟩)
  | failed stop => exact absurd (Or.inr ⟨stop, hi⟩) hnone
  | dropped => exact absurd (Or.inl hi) hnone
  | crashed => exact absurd hi (hno i)

/-- Each mapping belongs to the build that the kernel gave it to, which is at work, has
it in a live buffer, or drops it. Live buffers share none, and once all builds have
failed or were dropped none is left. -/
theorem no_mapping_is_lost (h : Reachable jobs p) :
    ∃ own : ι → Space, Owners jobs p own ∧
    (∀ r ∈ p.maps.mem, ∃ i, r ∈ (own i).mem ∧ ((∃ prog, p.build i = .building prog) ∨
      (∃ buffer, p.build i = .live buffer ∧ r.base = buffer.ptr ∧ r.bytes.length = buffer.len) ∨
      ∃ prog, p.build i = .dropping prog)) ∧
    (∀ i j b c, i ≠ j → p.build i = .live b → p.build j = .live c →
      b.ptr + b.len ≤ c.ptr ∨ c.ptr + c.len ≤ b.ptr) ∧
    ((∀ i, p.build i = .dropped ∨ ∃ stop, p.build i = .failed stop) →
      p.maps.mem = [] ∧ p.maps.executable = []) := by
  obtain ⟨own, hinv⟩ := reachable_inv h
  have howners := inv_owners hinv
  have hno : ∀ i, p.build i ≠ .crashed := fun i hi => hinv.kept hi
  refine ⟨own, howners, ?_, ?_, ?_⟩
  · intro r hr
    obtain ⟨i, hown⟩ := hinv.all r hr
    exact ⟨i, hown, howners.status hno hown⟩
  · intro i j b c hij hi hj
    obtain ⟨image, hb, hlen, hpos⟩ := howners.live i b hi
    obtain ⟨image', hc, hlen', hpos'⟩ := howners.live j c hj
    have hd := hinv.disjoint i j hij ⟨b.ptr, image, false⟩
      (by rw [hb]; exact List.mem_singleton.mpr rfl)
      ⟨c.ptr, image', false⟩ (by rw [hc]; exact List.mem_singleton.mpr rfl)
    unfold Region.Apart Region.Avoids at hd
    simp only at hd
    omega
  · intro hall
    have hmem : p.maps.mem = [] := by
      apply List.eq_nil_iff_forall_not_mem.mpr
      intro r hr
      obtain ⟨i, hown⟩ := hinv.all r hr
      rw [howners.ended i (hall i)] at hown
      cases hown
    refine ⟨hmem, ?_⟩
    apply List.eq_nil_iff_forall_not_mem.mpr
    intro b hb
    obtain ⟨r, hr, _⟩ := hinv.ok.locked b hb
    rw [hmem] at hr
    cases hr

theorem no_mapping_is_lost_with_one_call : ∃ (job : Job) (p : Process Unit Unit) (count : Nat)
    (written : List Match), OneCall job p count written ∧
    ∃ own : Unit → Space, Owners (fun _ => job) p own ∧
    (∀ r ∈ p.maps.mem, ∃ i, r ∈ (own i).mem ∧ ((∃ prog, p.build i = .building prog) ∨
      (∃ buffer, p.build i = .live buffer ∧ r.base = buffer.ptr ∧ r.bytes.length = buffer.len) ∨
      ∃ prog, p.build i = .dropping prog)) ∧
    (∀ i j b c, i ≠ j → p.build i = .live b → p.build j = .live c →
      b.ptr + b.len ≤ c.ptr ∨ c.ptr + c.len ≤ b.ptr) ∧
    ((∀ i, p.build i = .dropped ∨ ∃ stop, p.build i = .failed stop) →
      p.maps.mem = [] ∧ p.maps.executable = []) := by
  obtain ⟨job, p, count, written, hone, hp⟩ := one_call
  exact ⟨job, p, count, written, hone, no_mapping_is_lost hp⟩

/-- A build that ended has the buffer that `compile_x86_64` returns on each system that
answers as the kernel did, with the code in its mapping until it is dropped, or has
the error that `compile_x86_64` returns there. -/
theorem builds_refine_compile_x86_64 (h : Reachable jobs p) :
    (∀ i buffer, p.build i = .live buffer → ∃ code,
      Decides (jobs i).table (jobs i).output_links (p.answers i) (.ok code) ∧
      buffer = .of code ∧ ⟨code.ptr, code.image, false⟩ ∈ p.maps.mem ∧
      code.ptr ∈ p.maps.executable) ∧
    ∀ i stop, p.build i = .failed stop →
      Decides (jobs i).table (jobs i).output_links (p.answers i) (.error stop) := by
  obtain ⟨own, hinv⟩ := reachable_inv h
  refine ⟨?_, ?_⟩
  · intro i buffer hi
    have hkept : Built _ _ (.ok buffer) _ (own i) := hinv.kept hi
    have howns := hinv.owns i
    obtain ⟨o, ho⟩ : ∃ o, o = own i := ⟨_, rfl⟩
    rw [← ho] at hkept howns
    cases hkept with
    | @ok _ code hcode _ _ =>
      exact ⟨code, hcode, rfl, howns.mem _ (List.mem_singleton.mpr rfl),
        (howns.executable _ (List.mem_singleton.mpr rfl)).1⟩
  · intro i stop hi
    have hkept : Built _ _ (.error stop) _ (own i) := hinv.kept hi
    obtain ⟨o, ho⟩ : ∃ o, o = own i := ⟨_, rfl⟩
    rw [← ho] at hkept
    cases hkept with
    | error hcode => exact hcode

theorem one_build_refines_compile_x86_64 : ∃ (job : Job) (p : Process Unit Unit) (count : Nat)
    (written : List Match), OneCall job p count written ∧
    (∀ i buffer, p.build i = .live buffer → ∃ code,
      Decides job.table job.output_links (p.answers i) (.ok code) ∧
      buffer = .of code ∧ ⟨code.ptr, code.image, false⟩ ∈ p.maps.mem ∧
      code.ptr ∈ p.maps.executable) ∧
    ∀ i stop, p.build i = .failed stop →
      Decides job.table job.output_links (p.answers i) (.error stop) := by
  obtain ⟨job, p, count, written, hone, hp⟩ := one_call
  exact ⟨job, p, count, written, hone, builds_refine_compile_x86_64 hp⟩

/-- Beside whatever else goes on, a call returns what it would find alone, after no
more instructions of its own than the bound. -/
theorem calls_return_what_they_find (h : Reachable jobs p) (k : κ) (c : Call ι) :
    (∀ n s, p.thread k = .running c n s → n ≤ bound (jobs c.buffer) c.input ∧
      ((∃ u, (p.instruction k c n s).thread k = .running c (n + 1) u) ∨
        ∃ count written, (p.instruction k c n s).thread k = .returned c count written)) ∧
    ∀ count written, p.thread k = .returned c count written →
      count = ((jobs c.buffer).found c.input).length ∧
        written = fill id c.slots ((jobs c.buffer).found c.input) := by
  obtain ⟨own, hinv⟩ := reachable_inv h
  have hfits := hinv.thread k
  refine ⟨?_, ?_⟩
  · intro n s hk
    refine ⟨?_, goes_on h hk⟩
    rw [hk] at hfits
    obtain ⟨os, code, place, v, bytes, hcode, hjit, _, _, _, _, hrun, _⟩ := hfits.alone
    exact (solo_runs hcode hjit hrun).1
  · intro count written hk
    rw [hk] at hfits
    exact hfits

theorem one_call_returns_what_it_finds : ∃ (job : Job) (p : Process Unit Unit) (count : Nat)
    (written : List Match), OneCall job p count written ∧ ∀ (k : Unit) (c : Call Unit),
    (∀ n s, p.thread k = .running c n s → n ≤ bound job c.input ∧
      ((∃ u, (p.instruction k c n s).thread k = .running c (n + 1) u) ∨
        ∃ count written, (p.instruction k c n s).thread k = .returned c count written)) ∧
    ∀ count written, p.thread k = .returned c count written →
      count = (job.found c.input).length ∧ written = fill id c.slots (job.found c.input) := by
  obtain ⟨job, p, count, written, hone, hp⟩ := one_call
  exact ⟨job, p, count, written, hone, fun k c => calls_return_what_they_find hp k c⟩

end

end dfajit.process_runs
