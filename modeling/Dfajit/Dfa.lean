-- The compiled DFA (dfa.rs): the checks of `compile`, the scans, and the
-- portable build, which scans with the table alone.
import Dfajit.EmittedCode

namespace dfajit.dfa

open error table codegen

/-! ## The checks of `compile` -/

/-- The second check of the transitions: each target is a state, and a target
with the accept flag is an accept state. -/
def check_transitions (state_count : Nat) (accept_set : List UInt32) : List UInt32 → Res Unit
  | [] => .ok ()
  | t :: ts =>
    let state := clean t
    if state.toNat ≥ state_count then
      invalid s!"transition target state {state} exceeds state count {state_count}"
    else if flagged t ∧ state ∉ accept_set then
      invalid s!"transition target state {state} has bit 31 set but is not an accept state"
    else check_transitions state_count accept_set ts

def check_table (w : Width) (table : TransitionTable) (output_links : List UInt32) : Res Unit :=
  if table.state_count = 0 then .error (.err .EmptyDfa)
  else if table.class_count ≠ 256 then
    invalid s!"class_count must be 256 for JIT, got {table.class_count}"
  else
    match checked_mul w table.state_count table.class_count with
    | none =>
      invalid s!"state_count={table.state_count} * class_count={table.class_count} overflows"
    | some expected_len =>
      if table.transitions.length ≠ expected_len then
        invalid (s!"transition table has {table.transitions.length} entries but " ++
          s!"state_count={table.state_count} * class_count={table.class_count} = {expected_len}")
      else if output_links ≠ [] ∧ output_links.length ≠ table.state_count then
        invalid (s!"output_links has {output_links.length} entries but " ++
          s!"state_count is {table.state_count}")
      else do
        let accept_set := table.accept_states.map (·.1)
        check_transitions table.state_count accept_set table.transitions
        TransitionTable.check_accepts table.state_count table.pattern_lengths.length
          (List.replicate table.state_count false) table.accept_states

/-- The largest pattern id and one. -/
def count_patterns (accept_states : List (UInt32 × UInt32)) : Nat :=
  ((accept_states.map fun a => a.2.toNat + 1).max?).getD 0

/-! ## The DFA of the x86_64 build -/

structure JitDfa where
  code : ExecutableBuffer
  state_count : Nat
  pattern_count : Nat
  output_links : List UInt32

namespace JitDfa

def compile_with_output_links (os : Os) (table : TransitionTable) (output_links : List UInt32) :
    Res JitDfa := do
  check_table .w64 table output_links
  let code ← compile_x86_64 os table output_links
  .ok {
    code
    state_count := table.state_count
    pattern_count := count_patterns table.accept_states
    output_links }

def compile (os : Os) (table : TransitionTable) : Res JitDfa :=
  compile_with_output_links os table []

def scan (self : JitDfa) (input : List UInt8) (matches_ : List Match)
    (place : Placement self.code input matches_.length) : Res (Nat × List Match) :=
  self.code.scan input matches_ place

def scan_count (self : JitDfa) (input : List UInt8) (place : Placement self.code input 0) :
    Res Nat :=
  self.code.scan_count input place

def scan_first (self : JitDfa) (input : List UInt8) (place : Placement self.code input 1) :
    Res (Option Match) := do
  let (count, found) ← self.scan input [Match.from_parts 0 0 0] place
  if count > 0 then
    let m ← index found 0
    .ok (some m)
  else .ok none

def has_match (self : JitDfa) (input : List UInt8) (place : Placement self.code input 1) :
    Res Bool := do
  let first ← self.scan_first input place
  .ok first.isSome

end JitDfa

/-! ## The portable build -/

namespace portable

structure JitDfa where
  table : TransitionTable
  state_count : Nat
  pattern_count : Nat
  output_links : List UInt32

/-- The accept table that a scan builds, and the flags that a count builds. -/
def set_accepts {α : Type} (value : UInt32 → α) :
    List α → List (UInt32 × UInt32) → Res (List α)
  | xs, [] => .ok xs
  | xs, (s, pid) :: rest => do
    let xs ← set_index xs s.toNat (value pid)
    set_accepts value xs rest

namespace JitDfa

def compile_with_output_links (w : Width) (table : TransitionTable)
    (output_links : List UInt32) : Res JitDfa := do
  check_table w table output_links
  .ok {
    table
    state_count := table.state_count
    pattern_count := count_patterns table.accept_states
    output_links }

def scan_loop (self : JitDfa) (accept_pattern : List UInt32) :
    UInt32 → Nat → List Match → Nat → List UInt8 → Res (Nat × List Match)
  | _, count, matches_, _, [] => .ok (count, matches_)
  | state, count, matches_, pos, byte :: input => do
    let clean_next := clean_next self.table state byte
    let pattern ← index accept_pattern clean_next.toNat
    if pattern ≠ NONE then
      let (count, matches_) ← follow_outputs accept_pattern self.output_links
        self.table.pattern_lengths pos (self.output_links.length + 2) clean_next count matches_
      self.scan_loop accept_pattern 0 count matches_ (pos + 1) input
    else self.scan_loop accept_pattern clean_next count matches_ (pos + 1) input

def scan_interpreted (self : JitDfa) (input : List UInt8) (matches_ : List Match) :
    Res (Nat × List Match) := do
  let accept_pattern ← set_accepts id (List.replicate self.table.state_count NONE)
    self.table.accept_states
  let (count, written) ← self.scan_loop accept_pattern 0 0 matches_ 0 input
  .ok (min count matches_.length, written)

def scan_count_loop (self : JitDfa) (is_accept : List Bool) :
    UInt32 → Nat → List UInt8 → Res Nat
  | _, count, [] => .ok count
  | state, count, byte :: input => do
    let clean_next := clean_next self.table state byte
    if ← index is_accept clean_next.toNat then
      let count ← count_outputs self.output_links (self.output_links.length + 2) clean_next count
      self.scan_count_loop is_accept 0 count input
    else self.scan_count_loop is_accept clean_next count input

def scan_count_interpreted (self : JitDfa) (input : List UInt8) : Res Nat := do
  let is_accept ← set_accepts (fun _ => true) (List.replicate self.table.state_count false)
    self.table.accept_states
  self.scan_count_loop is_accept 0 0 input

end JitDfa

end portable

/-! ## What the checks decide -/

/-- The accept flag stands only on transitions into accept states. -/
def FlagsAccept (t : TransitionTable) : Prop :=
  ∀ x ∈ t.transitions, flagged x = true → clean x ∈ t.accept_states.map (·.1)

/-- What `compile` checks of a table and its output links. -/
structure Checked (t : TransitionTable) (links : List UInt32) : Prop where
  valid : t.Valid
  flags : FlagsAccept t
  some_state : 0 < t.state_count
  bytes : t.class_count = 256
  links_len : links = [] ∨ links.length = t.state_count

theorem check_transitions_ok (n : Nat) (accept_set ts : List UInt32) :
    check_transitions n accept_set ts = .ok () ↔
      (∀ x ∈ ts, (clean x).toNat < n) ∧ ∀ x ∈ ts, flagged x = true → clean x ∈ accept_set := by
  induction ts with
  | nil => simp [check_transitions]
  | cons t ts ih =>
    simp only [check_transitions, List.forall_mem_cons, invalid]
    split
    · refine iff_of_false (by simp) ?_
      rintro ⟨⟨h, _⟩, _⟩
      omega
    split
    · rename_i hflag
      refine iff_of_false (by simp) ?_
      rintro ⟨_, h, _⟩
      exact hflag.2 (h hflag.1)
    · rename_i hlt hflag
      rw [ih]
      constructor
      · rintro ⟨h1, h2⟩
        exact ⟨⟨by omega, h1⟩, fun hf => by by_contra hin; exact hflag ⟨hf, hin⟩, h2⟩
      · rintro ⟨⟨_, h1⟩, _, h2⟩
        exact ⟨h1, h2⟩

/-- The product of the dimensions is far below the largest `usize`. -/
theorem dimensions_fit (w : Width) (t : TransitionTable) (hc : t.class_count = 256) :
    t.state_count * t.class_count ≤ w.max := by
  have hs := t.states_le
  have hw : 2 ^ 24 ≤ w.max := by cases w <;> decide
  unfold MAX_STATES at hs
  rw [hc]
  omega

theorem check_table_ok (w : Width) (t : TransitionTable) (links : List UInt32) :
    check_table w t links = .ok () ↔ Checked t links := by
  unfold check_table
  split
  · rename_i h
    refine iff_of_false (by simp) fun hch => ?_
    have := hch.some_state
    omega
  split
  · rename_i h
    exact iff_of_false (by simp [invalid]) fun hch => h hch.bytes
  rename_i hn hc
  have hc : t.class_count = 256 := by omega
  rw [checked_mul_some (dimensions_fit w t hc)]
  simp only
  split
  · rename_i h
    exact iff_of_false (by simp [invalid]) fun hch => h hch.valid.len
  split
  · rename_i h
    refine iff_of_false (by simp [invalid]) fun hch => ?_
    rcases hch.links_len with h1 | h1
    · exact h.1 h1
    · exact h.2 h1
  rename_i hlen hlinks
  constructor
  · intro h
    obtain ⟨_, h1, h2⟩ := bind_ok.mp h
    obtain ⟨g1, g2⟩ := (check_transitions_ok _ _ _).mp h1
    obtain ⟨g3, g4, g5⟩ := (TransitionTable.check_accepts_ok _ _ _).mp h2
    refine ⟨⟨by omega, g1, g3, g4, g5⟩, g2, by omega, hc, ?_⟩
    by_contra hne
    exact hlinks ⟨fun h => hne (Or.inl h), fun h => hne (Or.inr h)⟩
  · intro h
    rw [(check_transitions_ok _ _ _).mpr ⟨h.valid.targets, h.flags⟩, ok_bind]
    exact (TransitionTable.check_accepts_ok _ _ _).mpr
      ⟨h.valid.accepts, h.valid.one_each, h.valid.lengths⟩

/-! ## Compilation -/

/-- How much memory the code of a table takes. -/
def code_size (t : TransitionTable) (links : List UInt32) : Nat :=
  if t.state_count > MAX_JIT_STATES then page_size
  else page_align (unpatched (.ofNat t.class_count) (sections t links)).length

/-- The system gives the memory for the code of this table. -/
structure Grants (os : Os) (t : TransitionTable) (links : List UInt32) : Prop where
  maps : ∃ base, os.mmap (code_size t links) = .ok base
  protects : ∀ base, os.mprotect base (code_size t links) = .ok ()

section

variable {os : Os} {t : TransitionTable} {links : List UInt32}

/-- The system gives the memory that it is asked for, where it maps it. -/
def Obtains (os : Os) (t : TransitionTable) (links : List UInt32) : Prop :=
  ∃ base, os.mmap (code_size t links) = .ok base ∧ os.mprotect base (code_size t links) = .ok ()

theorem Grants.obtains (h : Grants os t links) : Obtains os t links := by
  obtain ⟨⟨base, hbase⟩, hprot⟩ := h
  exact ⟨base, hbase, hprot base⟩

theorem compile_x86_64_ok (h : Obtains os t links) :
    ∃ code, compile_x86_64 os t links = .ok code := by
  obtain ⟨base, hbase, hprot⟩ := h
  have hs := t.states_le
  unfold MAX_STATES at hs
  unfold code_size at hbase hprot
  unfold compile_x86_64
  rw [if_neg (by omega)]
  split at hbase
  · rename_i hbig
    rw [if_pos hbig] at hprot ⊢
    unfold compile_interpreted_fallback
    split
    · rename_i heq
      rw [hbase] at heq
      cases heq
    · rename_i heq
      rw [hbase] at heq
      cases heq
      rw [hprot]
      exact ⟨_, rfl⟩
  · rename_i hsmall
    rw [if_neg hsmall] at hprot ⊢
    simp only
    split
    · rename_i heq
      rw [hbase] at heq
      cases heq
    · rename_i heq
      rw [hbase] at heq
      cases heq
      rw [hprot]
      exact ⟨_, rfl⟩

/-- The code stands where the system mapped its memory, and takes all of that. -/
theorem compile_x86_64_mapped {code : ExecutableBuffer} (h : compile_x86_64 os t links = .ok code) :
    os.mmap (code_size t links) = .ok code.ptr ∧
      os.mprotect code.ptr (code_size t links) = .ok () ∧ code.len = code_size t links := by
  unfold compile_x86_64 compile_interpreted_fallback at h
  unfold code_size
  split at h
  · cases h
  split at h
  · rename_i hbig
    rw [if_pos hbig]
    split at h
    · cases h
    rename_i hmap
    split at h
    · cases h
    · rename_i hprot
      cases h
      exact ⟨hmap, hprot, rfl⟩
  · rename_i hsmall
    rw [if_neg hsmall]
    simp only at h
    split at h
    · cases h
    rename_i hmap
    split at h
    · cases h
    · rename_i hprot
      cases h
      exact ⟨hmap, hprot, rfl⟩

/-- Code is made just where the system gives the memory. -/
theorem compile_x86_64_iff :
    (∃ code, compile_x86_64 os t links = .ok code) ↔ Obtains os t links := by
  constructor
  · rintro ⟨code, h⟩
    obtain ⟨hmap, hprot, _⟩ := compile_x86_64_mapped h
    exact ⟨code.ptr, hmap, hprot⟩
  · exact compile_x86_64_ok

/-- Code is refused only for want of memory. -/
theorem compile_x86_64_refuses {stop : Stop} (h : compile_x86_64 os t links = .error stop) :
    ∃ reason, stop = .err (.MemoryAllocation reason) := by
  have hs := t.states_le
  unfold MAX_STATES at hs
  unfold compile_x86_64 compile_interpreted_fallback at h
  rw [if_neg (by omega)] at h
  split at h
  · split at h
    · cases h
      exact ⟨_, rfl⟩
    split at h
    · cases h
      exact ⟨_, rfl⟩
    · cases h
  · simp only at h
    split at h
    · cases h
      exact ⟨_, rfl⟩
    split at h
    · cases h
      exact ⟨_, rfl⟩
    · cases h

/-- What a compiled DFA is: its table passed the checks, and the code generator
made its code. -/
theorem compile_with_output_links_ok {jit : JitDfa}
    (h : JitDfa.compile_with_output_links os t links = .ok jit) :
    Checked t links ∧ compile_x86_64 os t links = .ok jit.code := by
  obtain ⟨_, h1, h⟩ := bind_ok.mp h
  obtain ⟨code, h2, h⟩ := bind_ok.mp h
  cases h
  exact ⟨(check_table_ok _ _ _).mp h1, h2⟩

/-- A DFA is compiled just when its table passes the checks and the system gives the
memory. -/
theorem compile_with_output_links_iff :
    (∃ jit, JitDfa.compile_with_output_links os t links = .ok jit) ↔
      Checked t links ∧ Obtains os t links := by
  constructor
  · rintro ⟨jit, h⟩
    obtain ⟨hch, hcode⟩ := compile_with_output_links_ok h
    exact ⟨hch, compile_x86_64_iff.mp ⟨_, hcode⟩⟩
  · rintro ⟨hch, hos⟩
    obtain ⟨code, hcode⟩ := compile_x86_64_iff.mpr hos
    unfold JitDfa.compile_with_output_links
    rw [(check_table_ok _ _ _).mpr hch, ok_bind, hcode, ok_bind]
    exact ⟨_, rfl⟩

theorem compile_with_output_links_of_checked (hos : Grants os t links) (h : Checked t links) :
    ∃ jit, JitDfa.compile_with_output_links os t links = .ok jit :=
  compile_with_output_links_iff.mpr ⟨h, hos.obtains⟩

/-- A table that passes the checks is refused only for want of memory. -/
theorem compile_with_output_links_refuses {stop : Stop} (h : Checked t links)
    (hstop : JitDfa.compile_with_output_links os t links = .error stop) :
    ∃ reason, stop = .err (.MemoryAllocation reason) := by
  unfold JitDfa.compile_with_output_links at hstop
  rw [(check_table_ok _ _ _).mpr h, ok_bind] at hstop
  cases hcode : compile_x86_64 os t links with
  | error stop' =>
    rw [hcode] at hstop
    cases hstop
    exact compile_x86_64_refuses hcode
  | ok code =>
    rw [hcode, ok_bind] at hstop
    cases hstop

/-- Where the system has memory to give, `compile` takes just the tables that
pass its checks. -/
theorem compile_accepts (hos : Grants os t []) :
    (∃ jit, JitDfa.compile os t = .ok jit) ↔ Checked t [] := by
  constructor
  · rintro ⟨jit, h⟩
    exact (compile_with_output_links_ok h).1
  · intro h
    exact compile_with_output_links_of_checked hos h

end

/-- A system that maps whatever fits behind one address. -/
def generous : Os where
  mmap size := if 0x10000 + size ≤ 2 ^ 64 then .ok 0x10000 else .error "Cannot allocate memory"
  mprotect _ _ := .ok ()
  mmap_fits size base h := by
    split at h
    · cases h
      omega
    · cases h

/-- The code takes four bytes for each length, and a bounded rest. -/
theorem code_size_le {t : TransitionTable} {links : List UInt32} (hc : t.class_count = 256)
    (hts : t.transitions.length = t.state_count * t.class_count)
    (hlinks : links.length ≤ t.state_count) :
    code_size t links ≤ 4 * t.pattern_lengths.length + 2 ^ 27 := by
  have hs := t.states_le
  unfold MAX_STATES at hs
  have h256 : UInt32.ofNat t.class_count = 256 := by rw [hc]; rfl
  have hacc : (accept_table t.state_count t.accept_states).length = t.state_count :=
    accept_table_length _ _
  have hlink : (link_table t.state_count links).length = t.state_count ∨
      (link_table t.state_count links).length = links.length := by
    unfold link_table TransitionTable.resize
    split
    · refine Or.inl ?_
      simp only [List.length_append, List.length_take, List.length_replicate]
      omega
    · exact Or.inr rfl
  have hlens : (sections t links).pattern_lengths.length ≤ t.pattern_lengths.length + 1 := by
    unfold sections
    simp only
    split
    · simp
    · omega
  have hwords : (sections t links).words.length = t.transitions.length + t.state_count +
      (sections t links).pattern_lengths.length + (link_table t.state_count links).length := by
    unfold Sections.words
    rw [List.length_append, List.length_append, List.length_append]
    unfold sections
    simp only [List.length_map, hacc]
  rw [hts, hc] at hwords
  unfold code_size
  split
  · unfold page_size
    omega
  · unfold unpatched page_align page_size
    rw [h256, List.length_append, emitted.emit_code_length, words.encodeWords_length, hwords]
    omega

theorem generous_grants {t : TransitionTable} {links : List UInt32} (hc : t.class_count = 256)
    (hts : t.transitions.length = t.state_count * t.class_count)
    (hls : t.pattern_lengths.length ≤ 2 ^ 32) (hlinks : links.length ≤ t.state_count) :
    Grants generous t links := by
  have hsize := code_size_le hc hts hlinks
  refine ⟨⟨0x10000, ?_⟩, fun _ => rfl⟩
  unfold generous
  simp only
  rw [if_pos (by omega)]

theorem generous_ptr {t : TransitionTable} {links : List UInt32} {code : ExecutableBuffer}
    (h : compile_x86_64 generous t links = .ok code) : code.ptr = 0x10000 := by
  obtain ⟨hmap, _⟩ := compile_x86_64_mapped h
  unfold generous at hmap
  simp only at hmap
  split at hmap
  · exact (Except.ok.inj hmap).symm
  · cases hmap

/-- A short input and a short buffer have room in front of the code. -/
def low_place {code : ExecutableBuffer} (hptr : code.ptr = 0x10000) (input : List UInt8)
    (slots : Nat) (hi : input.length ≤ 0x1000) (hs : slots ≤ 0x400) :
    Placement code input slots where
  input_ptr := 0x1000
  match_ptr := 0x4000
  regs := fun _ => 0
  input_len := by omega
  input_fits := by omega
  matches_fit := by omega
  code_input := by unfold Apart; omega
  code_matches := by unfold Apart; omega
  input_matches := by unfold Apart; omega

/-! ## The two validators -/

/-- The parts of the table, given to `from_parts`. -/
def PartsAccepted (t : TransitionTable) : Prop :=
  ∃ t', TransitionTable.from_parts .w64 t.state_count t.class_count t.transitions t.accept_states
    t.pattern_lengths = .ok t'

theorem partsAccepted_iff {t : TransitionTable} (hc : t.class_count = 256) :
    PartsAccepted t ↔ t.Valid := by
  constructor
  · rintro ⟨t', h⟩
    obtain ⟨h1, h2, h3, h4, h5, hv⟩ := TransitionTable.from_parts_ok h
    exact ⟨by rw [← h1, ← h2, ← h3]; exact hv.len, by rw [← h1, ← h3]; exact hv.targets,
      by rw [← h1, ← h4]; exact hv.accepts, by rw [← h4]; exact hv.one_each,
      by rw [← h4, ← h5]; exact hv.lengths⟩
  · intro h
    exact ⟨t, TransitionTable.from_parts_of_valid .w64 t h
      (by rw [h.len]; exact dimensions_fit .w64 t hc)⟩

/-- `compile` looks at the accept flags and `from_parts` does not, so they agree
on a table unless its parts fit and a flag points to a state that accepts
nothing. -/
theorem the_validators_agree_when_flags_tell_the_truth (os : Os) (t : TransitionTable)
    (hos : Grants os t []) (hc : t.class_count = 256) (hn : 0 < t.state_count) :
    (PartsAccepted t ↔ ∃ jit, JitDfa.compile os t = .ok jit) ↔ (t.Valid → FlagsAccept t) := by
  rw [partsAccepted_iff hc, compile_accepts hos]
  constructor
  · intro h hv
    exact (h.mp hv).flags
  · intro h
    constructor
    · intro hv
      exact ⟨hv, h hv, hn, hc, Or.inl rfl⟩
    · intro hch
      exact hch.valid

/-- A table of one state, with the same transition on every byte. -/
def one_state (x : UInt32) : TransitionTable where
  state_count := 1
  class_count := 256
  transitions := List.replicate 256 x
  accept_states := []
  pattern_lengths := []
  states_le := one_state_fits
  class_pos := some_byte

theorem one_state_len (x : UInt32) :
    (one_state x).transitions.length = (one_state x).state_count * (one_state x).class_count := by
  have h1 : (one_state x).state_count = 1 := rfl
  have h2 : (one_state x).class_count = 256 := rfl
  rw [h1, h2, Nat.one_mul]
  exact List.length_replicate

theorem one_state_valid {x : UInt32} (hx : clean x = 0) : (one_state x).Valid := by
  refine ⟨one_state_len x, ?_, ?_, List.nodup_nil, ?_⟩
  · intro y hy
    rw [List.eq_of_mem_replicate hy, hx]
    exact Nat.one_pos
  · intro a ha
    cases ha
  · intro a ha
    cases ha

theorem one_state_grants (x : UInt32) : Grants generous (one_state x) [] := by
  have hls : (one_state x).pattern_lengths.length ≤ 2 ^ 32 := by
    change 0 ≤ 2 ^ 32
    exact Nat.zero_le _
  exact generous_grants rfl (one_state_len x) hls (Nat.zero_le _)

/-- The table of one state that accepts, with the accept flag on every byte. -/
def flagged_state : TransitionTable :=
  { one_state 0x8000_0000 with accept_states := [(0, 0)], pattern_lengths := [1] }

theorem flagged_state_valid : flagged_state.Valid := by
  refine ⟨one_state_len _, (one_state_valid (by decide)).targets, ?_, ?_, ?_⟩
  · intro a ha
    rw [List.mem_singleton.mp ha]
    exact Nat.one_pos
  · exact List.pairwise_singleton _ _
  · intro a ha
    rw [List.mem_singleton.mp ha]
    exact Nat.one_pos

/-- Both take a table whose flags all point to a state that accepts. -/
theorem the_validators_agree_on_a_flagged_state_that_accepts :
    flagged_state.Valid ∧ flagged 0x8000_0000 = true ∧ 0x8000_0000 ∈ flagged_state.transitions ∧
      (flagged_state.Valid → FlagsAccept flagged_state) ∧
      (PartsAccepted flagged_state ↔
        ∃ jit, JitDfa.compile generous flagged_state = .ok jit) := by
  have hflags : flagged_state.Valid → FlagsAccept flagged_state := by
    intro _ x hx _
    rw [List.eq_of_mem_replicate hx]
    exact List.mem_singleton.mpr (by decide)
  have hgrants : Grants generous flagged_state [] :=
    generous_grants rfl (one_state_len _) (by decide) (Nat.zero_le _)
  exact ⟨flagged_state_valid, by decide, List.mem_replicate.mpr ⟨by decide, rfl⟩, hflags,
    (the_validators_agree_when_flags_tell_the_truth generous flagged_state hgrants rfl
      (by decide)).mpr hflags⟩

/-- `from_parts` takes a flag that points to a state which accepts nothing, and
`compile` does not. -/
theorem the_validators_disagree_on_a_stray_flag :
    Grants generous (one_state 0x8000_0000) [] ∧ PartsAccepted (one_state 0x8000_0000) ∧
      ¬ ∃ jit, JitDfa.compile generous (one_state 0x8000_0000) = .ok jit := by
  refine ⟨one_state_grants _, (partsAccepted_iff rfl).mpr (one_state_valid (by decide)), ?_⟩
  intro h
  have hflags := ((compile_accepts (one_state_grants _)).mp h).flags
  have hmem := hflags 0x8000_0000 (List.mem_replicate.mpr ⟨by decide, rfl⟩) (by decide)
  cases hmem

end dfajit.dfa
