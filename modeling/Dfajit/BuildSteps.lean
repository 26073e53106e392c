-- How a buffer of emitted code comes to be and goes, call by call: what
-- `compile_x86_64` asks of the kernel, what it writes into its mapping, and what
-- dropping the buffer does. Whatever the kernel answers, a build ends with the
-- buffer of `compile_x86_64` in its only mapping, or with its error and no mapping.
import Dfajit.Lib.Mapping
import Dfajit.EmittedCode

namespace dfajit.build_steps

open error table codegen emitted words x64 mapping

/-! ## The calls of the source -/

/-- The buffer as the source has it, without the bytes at `ptr`. -/
structure Buffer where
  ptr : Nat
  len : Nat
  table : Option TransitionTable
  is_jit : Bool
  accept_pattern : List UInt32
  output_links : List UInt32

/-- What the source has of a buffer. -/
def Buffer.of (code : ExecutableBuffer) : Buffer :=
  { ptr := code.ptr
    len := code.len
    table := code.table
    is_jit := code.is_jit
    accept_pattern := code.accept_pattern
    output_links := code.output_links }

def patch_imm64 {α : Type} (buf offset : Nat) (value : UInt64) (rest : Prog α) : Prog α :=
  .copy (buf + offset) (le64 value) rest

def compile_interpreted_fallback (table : TransitionTable) (output_links : List UInt32) :
    Prog (Res Buffer) :=
  .mmap page_size fun
    | .error e => .ret (.error (.err (.MemoryAllocation s!"mmap failed: {e}")))
    | .ok ptr =>
      .copy ptr [0xC3] <|
      .mprotect ptr page_size fun
        | .error e =>
          .munmap ptr page_size <|
          .ret (.error (.err (.MemoryAllocation s!"mprotect failed: {e}")))
        | .ok () => .ret (.ok {
            ptr
            len := page_size
            table := some table
            is_jit := false
            accept_pattern := accept_table table.state_count table.accept_states
            output_links := link_table table.state_count output_links })

def compile_x86_64 (table : TransitionTable) (output_links : List UInt32) : Prog (Res Buffer) :=
  if table.state_count > 65_536 then
    .ret (.error (.err (.TooManyStates table.state_count 65_536)))
  else if table.state_count > MAX_JIT_STATES then
    compile_interpreted_fallback table output_links
  else
    let d := sections table output_links
    let class_count := UInt32.ofNat table.class_count
    let e := emit_code class_count
    let c := unpatched class_count d
    let trans_offset := e.c.length
    let accept_offset := trans_offset + 4 * d.flagged.length
    let patlen_offset := accept_offset + 4 * d.accept_pattern.length
    let output_offset := patlen_offset + 4 * d.pattern_lengths.length
    let alloc_size := page_align c.length
    .mmap alloc_size fun
      | .error e =>
        .ret (.error (.err (.MemoryAllocation s!"mmap(RW, {alloc_size}) failed: {e}")))
      | .ok base =>
        .copy base c <|
        patch_imm64 base (e.trans_patch + 2) (.ofNat (base + trans_offset)) <|
        patch_imm64 base (e.accept_patch + 2) (.ofNat (base + accept_offset)) <|
        patch_imm64 base (e.patlen_patch + 2) (.ofNat (base + patlen_offset)) <|
        patch_imm64 base (e.output_patch + 2) (.ofNat (base + output_offset)) <|
        .mprotect base alloc_size fun
          | .error e =>
            .munmap base alloc_size <|
            .ret (.error (.err (.MemoryAllocation s!"mprotect(RX) failed: {e}")))
          | .ok () => .ret (.ok {
              ptr := base
              len := alloc_size
              table := none
              is_jit := true
              accept_pattern := d.accept_pattern
              output_links := d.output_link })

/-- `Drop::drop`: the buffer gives its mapping back. -/
def drop (self : Buffer) : Prog Unit :=
  if self.ptr ≠ 0 ∧ self.len > 0 then .munmap self.ptr self.len (.ret ()) else .ret ()

/-! ## One mapping -/

/-- The space with one mapping. -/
def one (base : Nat) (bytes : List UInt8) : Space := ⟨[⟨base, bytes, true⟩], []⟩

/-- The space with one mapping that is executable. -/
def one_locked (base : Nat) (bytes : List UInt8) : Space := ⟨[⟨base, bytes, false⟩], [base]⟩

theorem copy_one (base off : Nat) (bytes new : List UInt8)
    (h : off + new.length ≤ bytes.length) :
    (one base bytes).copy (base + off) new = some (one base (overwrite bytes off new)) := by
  unfold Space.copy one
  rw [Memory.write_head (by simp only; omega) (by simp only; omega) rfl]
  simp only [Option.map_some, Nat.add_sub_cancel_left]

theorem protect_one (base : Nat) (bytes : List UInt8) :
    (one base bytes).protect base bytes.length = some (one_locked base bytes) := by
  have h : isAt base bytes.length ⟨base, bytes, true⟩ = true := isAt_iff.mpr ⟨rfl, rfl⟩
  simp [Space.protect, one, one_locked, h, Space.lock]

theorem unmap_one (base : Nat) (bytes : List UInt8) :
    (one base bytes).unmap base bytes.length = some .empty := by
  have h : isAt base bytes.length ⟨base, bytes, true⟩ = true := isAt_iff.mpr ⟨rfl, rfl⟩
  simp [Space.unmap, one, h, Space.empty]

theorem unmap_one_locked (base : Nat) (bytes : List UInt8) :
    (one_locked base bytes).unmap base bytes.length = some .empty := by
  have h : isAt base bytes.length ⟨base, bytes, false⟩ = true := isAt_iff.mpr ⟨rfl, rfl⟩
  simp [Space.unmap, one_locked, h, Space.empty]

/-- Code that is copied to the front of fresh pages. -/
theorem overwrite_fresh {c : List UInt8} {len : Nat} (h : c.length ≤ len) :
    overwrite (List.replicate len 0) 0 c = mapped c len := by
  unfold overwrite mapped TransitionTable.resize
  rw [List.take_zero, List.nil_append, Nat.zero_add, List.drop_replicate, List.take_of_length_le h]

/-- A patch in the mapping is one in the code. -/
theorem overwrite_mapped {c new : List UInt8} {len off : Nat} (h : c.length ≤ len)
    (hoff : off + new.length ≤ c.length) :
    overwrite (mapped c len) off new = mapped (overwrite c off new) len := by
  have hlen := overwrite_length c new off hoff
  unfold mapped TransitionTable.resize
  rw [List.take_of_length_le h, List.take_of_length_le (by omega),
    overwrite_append_left _ _ _ _ hoff, hlen]

/-! ## What a build leaves -/

/-- The system answers this call so. -/
def gives (os : Os) : Answer → Prop
  | .mmap size answer => os.mmap size = answer
  | .mprotect ptr size answer => os.mprotect ptr size = answer

/-- A system can answer as the kernel did, and with each that does so `compile_x86_64`
returns `r`. -/
structure Decides (table : TransitionTable) (output_links : List UInt32) (log : List Answer)
    (r : Res ExecutableBuffer) : Prop where
  possible : ∃ os : Os, ∀ a ∈ log, gives os a
  returns : ∀ os : Os, (∀ a ∈ log, gives os a) → codegen.compile_x86_64 os table output_links = r

/-- What a build leaves: the buffer that `compile_x86_64` returns for the answers of
the kernel, with its code in the only mapping, or the error and no mapping. -/
inductive Built (table : TransitionTable) (output_links : List UInt32) :
    Res Buffer → List Answer → Space → Prop
  | ok {log : List Answer} {code : ExecutableBuffer} :
      Decides table output_links log (.ok code) → 0 < code.ptr → 0 < code.len →
      Built table output_links (.ok (.of code)) log (one_locked code.ptr code.image)
  | error {log : List Answer} {stop : Stop} :
      Decides table output_links log (.error stop) →
      Built table output_links (.error stop) log .empty

/-- A system that answers every call for memory with this address. -/
def answers (base : Nat) (prot : Except String Unit) : Os where
  mmap size := if base + size ≤ 2 ^ 64 then .ok base else .error ""
  mprotect _ _ := prot
  mmap_fits := by
    intro size b h
    split at h
    · cases h
      assumption
    · cases h

/-- A system that has no memory. -/
def refuses (e : String) : Os where
  mmap _ := .error e
  mprotect _ _ := .error e
  mmap_fits := by
    intro size b h
    cases h

section

variable {table : TransitionTable} {output_links : List UInt32}

theorem mmap_answers {base size : Nat} {prot : Except String Unit} (h : base + size ≤ 2 ^ 64) :
    (answers base prot).mmap size = .ok base := if_pos h

/-- The source's fields and the bytes make up a buffer. -/
theorem code_eq {code code' : ExecutableBuffer} (hof : Buffer.of code = .of code')
    (himage : code.image = code'.image) : code = code' := by
  cases code
  cases code'
  cases hof
  cases himage
  rfl

/-- Where each system that answers so has one buffer, the answers decide. -/
theorem built_of_answers {log : List Answer} {buffer : Buffer} {image : List UInt8}
    (hsome : ∃ os : Os, ∀ a ∈ log, gives os a)
    (hall : ∀ os : Os, (∀ a ∈ log, gives os a) → ∃ code,
      codegen.compile_x86_64 os table output_links = .ok code ∧ .of code = buffer ∧
        code.image = image)
    (hptr : 0 < buffer.ptr) (hlen : 0 < buffer.len) :
    Built table output_links (.ok buffer) log (one_locked buffer.ptr image) := by
  obtain ⟨os, hos⟩ := hsome
  obtain ⟨code, _, rfl, rfl⟩ := hall os hos
  refine .ok ⟨⟨os, hos⟩, ?_⟩ hptr hlen
  intro os' hos'
  obtain ⟨code', hcode, hof, himage⟩ := hall os' hos'
  rw [hcode, code_eq hof himage]

theorem fallback_code {base : Nat} {os : Os}
    (hcodegen : codegen.compile_x86_64 os table output_links =
      codegen.compile_interpreted_fallback os table output_links)
    (hmap : os.mmap page_size = .ok base) (hprot : os.mprotect base page_size = .ok ()) :
    ∃ code, codegen.compile_x86_64 os table output_links = .ok code ∧ .of code =
      { ptr := base
        len := page_size
        table := some table
        is_jit := false
        accept_pattern := accept_table table.state_count table.accept_states
        output_links := link_table table.state_count output_links : Buffer } ∧
      code.image = mapped [0xC3] page_size := by
  rw [hcodegen]
  unfold codegen.compile_interpreted_fallback
  split
  · rename_i heq
    rw [hmap] at heq
    cases heq
  · rename_i ptr heq
    obtain rfl : base = ptr := by rw [hmap] at heq; exact Except.ok.inj heq
    rw [hprot]
    exact ⟨_, rfl, rfl, rfl⟩

theorem fallback_not_mapped {os : Os} {e : String} (hmap : os.mmap page_size = .error e) :
    codegen.compile_interpreted_fallback os table output_links =
      .error (.err (.MemoryAllocation s!"mmap failed: {e}")) := by
  unfold codegen.compile_interpreted_fallback
  split
  · rename_i heq
    rw [hmap] at heq
    rw [Except.error.inj heq]
  · rename_i heq
    rw [hmap] at heq
    cases heq

theorem fallback_not_protected {base : Nat} {os : Os} {e : String}
    (hmap : os.mmap page_size = .ok base) (hprot : os.mprotect base page_size = .error e) :
    codegen.compile_interpreted_fallback os table output_links =
      .error (.err (.MemoryAllocation s!"mprotect failed: {e}")) := by
  unfold codegen.compile_interpreted_fallback
  split
  · rename_i heq
    rw [hmap] at heq
    cases heq
  · rename_i ptr heq
    obtain rfl : base = ptr := by rw [hmap] at heq; exact Except.ok.inj heq
    rw [hprot]

/-- What two answers in a log say of a system. -/
theorem gives_both {os : Os} {size base ptr len : Nat} {prot : Except String Unit}
    (h : ∀ a ∈ [Answer.mmap size (.ok base), .mprotect ptr len prot], gives os a) :
    os.mmap size = .ok base ∧ os.mprotect ptr len = prot :=
  ⟨h _ List.mem_cons_self, h _ (List.mem_cons_of_mem _ List.mem_cons_self)⟩

theorem answers_gives {size base ptr len : Nat} {prot : Except String Unit}
    (h : base + size ≤ 2 ^ 64) :
    ∀ a ∈ [Answer.mmap size (.ok base), .mprotect ptr len prot], gives (answers base prot) a := by
  intro a ha
  simp only [List.mem_cons, List.not_mem_nil, or_false] at ha
  rcases ha with rfl | rfl
  · exact mmap_answers h
  · rfl

theorem refuses_gives {size : Nat} {e : String} :
    ∀ a ∈ [Answer.mmap size (.error e)], gives (refuses e) a := by
  intro a ha
  rw [List.mem_singleton.mp ha]
  rfl

theorem page_size_pos : 0 < page_size := by
  unfold page_size
  omega

theorem fallback_wp (hsmall : ¬ table.state_count > 65_536)
    (hfall : table.state_count > MAX_JIT_STATES) :
    wp (Built table output_links) [] .empty (compile_interpreted_fallback table output_links) := by
  have hcodegen : ∀ os, codegen.compile_x86_64 os table output_links =
      codegen.compile_interpreted_fallback os table output_links := by
    intro os
    unfold codegen.compile_x86_64
    rw [if_neg hsmall, if_pos hfall]
  refine ⟨by decide, ?_, ?_⟩
  · intro e
    refine .error ⟨⟨refuses e, refuses_gives⟩, ?_⟩
    intro os hos
    rw [hcodegen]
    exact fallback_not_mapped (hos _ List.mem_cons_self)
  intro base hfree
  obtain ⟨hpos, hfits, _⟩ := hfree
  have hbytes : (mapped [0xC3] page_size).length = page_size := mapped_length _ _
  have hcopy : (Space.empty.map base page_size).copy base [0xC3] =
      some (one base (mapped [0xC3] page_size)) := by
    have h := copy_one base 0 (List.replicate page_size 0) [0xC3]
      (by rw [List.length_replicate]; decide)
    rw [overwrite_fresh (by decide)] at h
    exact h
  have hprot := protect_one base (mapped [0xC3] page_size)
  have hun := unmap_one base (mapped [0xC3] page_size)
  rw [hbytes] at hprot hun
  refine ⟨Nat.one_pos, _, hcopy, ?_, _, hprot, ?_⟩
  · intro e
    refine ⟨_, hun, .error ⟨⟨answers base (.error e), answers_gives hfits⟩, ?_⟩⟩
    intro os hos
    obtain ⟨hmap, hprot⟩ := gives_both hos
    rw [hcodegen]
    exact fallback_not_protected hmap hprot
  · refine built_of_answers ⟨answers base (.ok ()), answers_gives hfits⟩ ?_ hpos page_size_pos
    intro os hos
    obtain ⟨hmap, hprot⟩ := gives_both hos
    exact fallback_code (hcodegen os) hmap hprot

/-! ### The emitted code -/

/-- The four patches in the mapping are those in the code. -/
theorem patch_one {base len off : Nat} {c : List UInt8} {value : UInt64} (h : c.length ≤ len)
    (hoff : off + 8 ≤ c.length) :
    (one base (mapped c len)).copy (base + off) (le64 value) =
      some (one base (mapped (codegen.patch_imm64 c off value) len)) := by
  have hnew : off + (le64 value).length ≤ c.length := by rw [le64_length]; exact hoff
  rw [copy_one _ _ _ _ (by rw [mapped_length]; omega), overwrite_mapped h hnew]
  rfl

theorem wp_patch {base len off : Nat} {c : List UInt8} {value : UInt64} {α : Type}
    {Q : α → List Answer → Space → Prop} {log : List Answer} {rest : Prog α}
    (h : c.length ≤ len) (hoff : off + 8 ≤ c.length)
    (hrest : wp Q log (one base (mapped (codegen.patch_imm64 c off value) len)) rest) :
    wp Q log (one base (mapped c len)) (patch_imm64 base off value rest) :=
  ⟨by rw [le64_length]; omega, _, patch_one h hoff, hrest⟩

theorem unpatched_length (d : Sections) : 232 ≤ (unpatched 256 d).length := by
  rw [unpatched, List.length_append, emit_code_length]
  omega

/-- How much memory the emitted code of a table takes. -/
def alloc_size (table : TransitionTable) (output_links : List UInt32) : Nat :=
  page_align (unpatched (.ofNat table.class_count) (sections table output_links)).length

theorem jit_code {base : Nat} {os : Os} (hsmall : ¬ table.state_count > 65_536)
    (hjit : ¬ table.state_count > MAX_JIT_STATES)
    (hmap : os.mmap (alloc_size table output_links) = .ok base)
    (hprot : os.mprotect base (alloc_size table output_links) = .ok ()) :
    ∃ code, codegen.compile_x86_64 os table output_links = .ok code ∧ .of code =
      { ptr := base
        len := alloc_size table output_links
        table := none
        is_jit := true
        accept_pattern := (sections table output_links).accept_pattern
        output_links := (sections table output_links).output_link : Buffer } ∧
      code.image = mapped
        (patched (.ofNat table.class_count) (sections table output_links) base)
        (alloc_size table output_links) := by
  unfold alloc_size at hmap hprot
  unfold codegen.compile_x86_64
  rw [if_neg hsmall, if_neg hjit]
  simp only
  split
  · rename_i heq
    rw [hmap] at heq
    cases heq
  · rename_i ptr heq
    obtain rfl : base = ptr := by rw [hmap] at heq; exact Except.ok.inj heq
    rw [hprot]
    exact ⟨_, rfl, rfl, rfl⟩

theorem jit_not_mapped {os : Os} {e : String} (hsmall : ¬ table.state_count > 65_536)
    (hjit : ¬ table.state_count > MAX_JIT_STATES)
    (hmap : os.mmap (alloc_size table output_links) = .error e) :
    codegen.compile_x86_64 os table output_links =
      .error (.err (.MemoryAllocation
        s!"mmap(RW, {alloc_size table output_links}) failed: {e}")) := by
  unfold alloc_size at hmap ⊢
  unfold codegen.compile_x86_64
  rw [if_neg hsmall, if_neg hjit]
  simp only
  split
  · rename_i heq
    rw [hmap] at heq
    rw [Except.error.inj heq]
  · rename_i heq
    rw [hmap] at heq
    cases heq

theorem jit_not_protected {base : Nat} {os : Os} {e : String}
    (hsmall : ¬ table.state_count > 65_536) (hjit : ¬ table.state_count > MAX_JIT_STATES)
    (hmap : os.mmap (alloc_size table output_links) = .ok base)
    (hprot : os.mprotect base (alloc_size table output_links) = .error e) :
    codegen.compile_x86_64 os table output_links =
      .error (.err (.MemoryAllocation s!"mprotect(RX) failed: {e}")) := by
  unfold alloc_size at hmap hprot
  unfold codegen.compile_x86_64
  rw [if_neg hsmall, if_neg hjit]
  simp only
  split
  · rename_i heq
    rw [hmap] at heq
    cases heq
  · rename_i ptr heq
    obtain rfl : base = ptr := by rw [hmap] at heq; exact Except.ok.inj heq
    rw [hprot]

/-- Where the four addresses stand in the code. -/
theorem patch_sites :
    (emit_code 256).trans_patch + 2 = 56 ∧ (emit_code 256).accept_patch + 2 = 103 ∧
      (emit_code 256).patlen_patch + 2 = 131 ∧ (emit_code 256).output_patch + 2 = 165 :=
  ⟨rfl, rfl, rfl, rfl⟩

/-- The code with its four addresses patched in, one after the other. -/
theorem wp_patches {d : Sections} {base len : Nat} {α : Type}
    {Q : α → List Answer → Space → Prop} {log : List Answer} {rest : Prog α}
    (hle : (unpatched 256 d).length ≤ len)
    (hrest : wp Q log (one base (mapped (patched 256 d base) len)) rest) :
    wp Q log (one base (mapped (unpatched 256 d) len))
      (patch_imm64 base 56 (.ofNat (base + 232)) <|
      patch_imm64 base 103 (.ofNat (base + (232 + 4 * d.flagged.length))) <|
      patch_imm64 base 131
        (.ofNat (base + (232 + 4 * d.flagged.length + 4 * d.accept_pattern.length))) <|
      patch_imm64 base 165 (.ofNat (base + (232 + 4 * d.flagged.length +
        4 * d.accept_pattern.length + 4 * d.pattern_lengths.length))) rest) := by
  have hc := unpatched_length d
  have h1 := patch_imm64_length (unpatched 256 d) 56 (.ofNat (base + 232)) (by omega)
  have h2 := patch_imm64_length _ 103 (.ofNat (base + (232 + 4 * d.flagged.length)))
    (by rw [h1]; omega)
  have h3 := patch_imm64_length _ 131
    (.ofNat (base + (232 + 4 * d.flagged.length + 4 * d.accept_pattern.length)))
    (by rw [h2, h1]; omega)
  refine wp_patch hle (by omega) ?_
  refine wp_patch (by rw [h1]; exact hle) (by rw [h1]; omega) ?_
  refine wp_patch (by rw [h2, h1]; exact hle) (by rw [h2, h1]; omega) ?_
  refine wp_patch (by rw [h3, h2, h1]; exact hle) (by rw [h3, h2, h1]; omega) ?_
  obtain ⟨e1, e2, e3, e4⟩ := patch_sites
  unfold patched at hrest
  simp only [e1, e2, e3, e4, emit_code_length] at hrest
  exact hrest

theorem jit_wp (hcc : table.class_count = 256) (hsmall : ¬ table.state_count > 65_536)
    (hjit : ¬ table.state_count > MAX_JIT_STATES) :
    wp (Built table output_links) [] .empty (compile_x86_64 table output_links) := by
  have h256 : UInt32.ofNat table.class_count = 256 := by rw [hcc]; rfl
  obtain ⟨d, hd⟩ : ∃ d, d = sections table output_links := ⟨_, rfl⟩
  obtain ⟨len, hlen⟩ : ∃ len, len = alloc_size table output_links := ⟨_, rfl⟩
  have hsize : page_align (unpatched 256 d).length = len := by
    rw [hlen, alloc_size, h256, hd]
  have hle : (unpatched 256 d).length ≤ len := by rw [← hsize]; exact le_page_align _
  have hc := unpatched_length d
  obtain ⟨e1, e2, e3, e4⟩ := patch_sites
  unfold compile_x86_64
  rw [if_neg hsmall, if_neg hjit]
  simp only [h256, ← hd, hsize, e1, e2, e3, e4, emit_code_length]
  refine ⟨by omega, ?_, ?_⟩
  · intro e
    refine .error ⟨⟨refuses e, refuses_gives⟩, ?_⟩
    intro os hos
    have hmap : os.mmap len = .error e := hos _ List.mem_cons_self
    rw [hlen] at hmap ⊢
    exact jit_not_mapped hsmall hjit hmap
  intro base hfree
  obtain ⟨hpos, hfits, _⟩ := hfree
  have hcopy : (Space.empty.map base len).copy base (unpatched 256 d) =
      some (one base (mapped (unpatched 256 d) len)) := by
    have h := copy_one base 0 (List.replicate len 0) (unpatched 256 d)
      (by rw [List.length_replicate]; omega)
    rw [overwrite_fresh hle] at h
    exact h
  have hbytes := mapped_length (patched 256 d base) len
  have hprot := protect_one base (mapped (patched 256 d base) len)
  have hun := unmap_one base (mapped (patched 256 d base) len)
  rw [hbytes] at hprot hun
  refine ⟨by omega, _, hcopy, wp_patches hle ⟨?_, _, hprot, ?_⟩⟩
  · intro e
    refine ⟨_, hun, .error ⟨⟨answers base (.error e), answers_gives hfits⟩, ?_⟩⟩
    intro os hos
    obtain ⟨hmap, hprot⟩ := gives_both hos
    rw [hlen] at hmap hprot
    exact jit_not_protected hsmall hjit hmap hprot
  · refine built_of_answers ⟨answers base (.ok ()), answers_gives hfits⟩ ?_ hpos
      (by simp only; omega)
    intro os hos
    obtain ⟨hmap, hprot⟩ := gives_both hos
    rw [hlen] at hmap hprot
    have hcode := jit_code hsmall hjit hmap hprot
    rw [h256, ← hd, ← hlen] at hcode
    exact hcode

/-- Whatever the kernel answers, a build ends as `compile_x86_64` does. -/
theorem compile_x86_64_wp (hcc : table.class_count = 256) :
    wp (Built table output_links) [] .empty (compile_x86_64 table output_links) := by
  by_cases hsmall : table.state_count > 65_536
  · unfold compile_x86_64
    rw [if_pos hsmall]
    refine .error ⟨⟨refuses "", fun _ h => nomatch h⟩, ?_⟩
    intro os _
    unfold codegen.compile_x86_64
    rw [if_pos hsmall]
  by_cases hjit : table.state_count > MAX_JIT_STATES
  · unfold compile_x86_64
    rw [if_neg hsmall, if_pos hjit]
    exact fallback_wp hsmall hjit
  · exact jit_wp hcc hsmall hjit

/-- Dropping a buffer gives its mapping back. -/
theorem drop_wp {code : ExecutableBuffer} (hptr : 0 < code.ptr) (hlen : 0 < code.len)
    (log : List Answer) :
    wp (fun _ _ left => left = .empty) log (one_locked code.ptr code.image) (drop (.of code)) := by
  have hun := unmap_one_locked code.ptr code.image
  rw [code.image_len] at hun
  unfold drop
  rw [if_pos ⟨Nat.pos_iff_ne_zero.mp hptr, hlen⟩]
  exact ⟨_, hun, rfl⟩

end

end dfajit.build_steps
