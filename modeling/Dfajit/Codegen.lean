-- The code generator (codegen.rs): the emitted scan loop and its data, the
-- call of the emitted code, and the interpreted scan of a large table.
import Dfajit.Lib.X64
import Dfajit.Table

namespace dfajit

open error table words

/-! ## Matches -/

/-- A match of `matchkit`, taken to be that of match_type.rs: four 32-bit words. -/
structure Match where
  pattern_id : UInt32
  start : UInt32
  «end» : UInt32
  padding : UInt32
deriving DecidableEq, Repr

namespace Match

def from_parts (pattern_id start «end» : UInt32) : Match := ⟨pattern_id, start, «end», 0⟩

/-- What the equality of matches compares: everything but the padding. -/
def key (m : Match) : UInt32 × UInt32 × UInt32 := (m.pattern_id, m.start, m.end)

def toWords (m : Match) : List UInt32 := [m.pattern_id, m.start, m.end, m.padding]

end Match

/-- The bytes of a match buffer. -/
def matchBytes (ms : List Match) : List UInt8 := encodeWords (ms.flatMap Match.toWords)

/-- The matches in a buffer of `n` slots. -/
def readMatches (bytes : List UInt8) (n : Nat) : List Match :=
  (List.range n).map fun i =>
    let word := fun k => (wordAt bytes (16 * i + 4 * k)).getD 0
    ⟨word 0, word 1, word 2, word 3⟩

/-- `u32::saturating_sub`. -/
def saturating_sub (a b : UInt32) : UInt32 := if b ≤ a then a - b else 0

/-- The operating system, as far as the compiler asks it for memory. A mapping
lies inside the address space. -/
structure Os where
  mmap : Nat → Except String Nat
  mprotect : Nat → Nat → Except String Unit
  mmap_fits : ∀ size base, mmap size = .ok base → base + size ≤ 2 ^ 64

namespace codegen

/-- The mapped code, with its bytes, and what the interpreter needs. -/
structure ExecutableBuffer where
  ptr : Nat
  len : Nat
  image : List UInt8
  table : Option TransitionTable
  is_jit : Bool
  accept_pattern : List UInt32
  output_links : List UInt32
  image_len : image.length = len
  fits : ptr + len ≤ 2 ^ 64

/-! ## The emitted code -/

def MAX_JIT_STATES : Nat := 4096

/-- The distance from the end of the four bytes at `site` to `target`, put into
those four bytes. A distance that 32 bits do not hold is put in as 0. -/
def patch_rel32 (code : List UInt8) (site target : Nat) : List UInt8 :=
  let rel : Int := (target : Int) - (site + 4 : Nat)
  let rel := if -2 ^ 31 ≤ rel ∧ rel < 2 ^ 31 then rel else 0
  overwrite code site (le32 (UInt32.ofInt rel))

def patch_imm64 (code : List UInt8) (offset : Nat) (value : UInt64) : List UInt8 :=
  overwrite code offset (le64 value)

/-- The code before its data, and the places of the four addresses in it. -/
structure Emitted where
  c : List UInt8
  trans_patch : Nat
  accept_patch : Nat
  patlen_patch : Nat
  output_patch : Nat

def emit_code (class_count : UInt32) : Emitted := Id.run do
  let mut c : List UInt8 := []
  -- Prologue: save the callee-saved registers.
  c := c ++ [0x53] -- push rbx
  c := c ++ [0x55] -- push rbp
  c := c ++ [0x41, 0x54] -- push r12
  c := c ++ [0x41, 0x55] -- push r13
  c := c ++ [0x41, 0x56] -- push r14
  c := c ++ [0x41, 0x57] -- push r15
  c := c ++ [0x49, 0x89, 0xFC] -- mov r12, rdi
  c := c ++ [0x48, 0x89, 0xF5] -- mov rbp, rsi
  c := c ++ [0x49, 0x89, 0xD6] -- mov r14, rdx
  c := c ++ [0x48, 0x89, 0xCB] -- mov rbx, rcx
  c := c ++ [0x45, 0x31, 0xED] -- xor r13d, r13d
  c := c ++ [0x45, 0x31, 0xFF] -- xor r15d, r15d
  c := c ++ [0x45, 0x31, 0xDB] -- xor r11d, r11d
  c := c ++ [0x49, 0x39, 0xED] -- cmp r13, rbp
  c := c ++ [0x0F, 0x83] -- jae epilogue
  let empty_patch := c.length
  c := c ++ [0, 0, 0, 0]
  let scan_top := c.length
  c := c ++ [0x43, 0x0F, 0xB6, 0x04, 0x2C] -- movzx eax, byte [r12 + r13]
  c := c ++ [0x41, 0x69, 0xD3] -- imul edx, r11d, class_count
  c := c ++ le32 class_count
  c := c ++ [0x01, 0xC2] -- add edx, eax
  let trans_patch := c.length
  c := c ++ [0x48] ++ [0xBF] -- mov rdi, transition table
  c := c ++ [0, 0, 0, 0, 0, 0, 0, 0]
  c := c ++ [0x8B, 0x04, 0x97] -- mov eax, [rdi + rdx*4]
  c := c ++ [0x89, 0xC1] -- mov ecx, eax
  c := c ++ [0x25] -- and eax, 0x7FFFFFFF
  c := c ++ le32 0x7FFF_FFFF
  c := c ++ [0x41, 0x89, 0xC3] -- mov r11d, eax
  c := c ++ [0xF7, 0xC1] -- test ecx, 0x80000000
  c := c ++ le32 0x8000_0000
  c := c ++ [0x0F, 0x84] -- jz skip_match
  let skip_match_patch := c.length
  c := c ++ [0, 0, 0, 0]
  c := c ++ [0x45, 0x89, 0xD8] -- mov r8d, r11d
  let accept_loop := c.length
  c := c ++ [0x49, 0x39, 0xDF] -- cmp r15, rbx
  c := c ++ [0x0F, 0x83] -- jae skip_write_match
  let skip_write_match_patch := c.length
  c := c ++ [0, 0, 0, 0]
  let accept_patch := c.length
  c := c ++ [0x48] ++ [0xBF] -- mov rdi, accept table
  c := c ++ [0, 0, 0, 0, 0, 0, 0, 0]
  c := c ++ [0x42, 0x8B, 0x04, 0x87] -- mov eax, [rdi + r8*4]
  c := c ++ [0x4C, 0x89, 0xFF] -- mov rdi, r15
  c := c ++ [0x48, 0x6B, 0xFF, 0x10] -- imul rdi, rdi, 16
  c := c ++ [0x4C, 0x01, 0xF7] -- add rdi, r14
  c := c ++ [0x89, 0x07] -- mov [rdi], eax
  c := c ++ [0x89, 0xC1] -- mov ecx, eax
  let patlen_patch := c.length
  c := c ++ [0x48] ++ [0xBA] -- mov rdx, pattern lengths
  c := c ++ [0, 0, 0, 0, 0, 0, 0, 0]
  c := c ++ [0x8B, 0x0C, 0x8A] -- mov ecx, [rdx + rcx*4]
  c := c ++ [0x44, 0x89, 0xEA] -- mov edx, r13d
  c := c ++ [0x83, 0xC2, 0x01] -- add edx, 1
  c := c ++ [0x89, 0x57, 0x08] -- mov [rdi+8], edx
  c := c ++ [0x29, 0xCA] -- sub edx, ecx
  c := c ++ [0x73, 0x02] -- jnc past the xor
  c := c ++ [0x31, 0xD2] -- xor edx, edx
  c := c ++ [0x89, 0x57, 0x04] -- mov [rdi+4], edx
  let skip_write_match_target := c.length
  c := patch_rel32 c skip_write_match_patch skip_write_match_target
  c := c ++ [0x49, 0xFF, 0xC7] -- inc r15
  let output_patch := c.length
  c := c ++ [0x48] ++ [0xBF] -- mov rdi, output links
  c := c ++ [0, 0, 0, 0, 0, 0, 0, 0]
  c := c ++ [0x46, 0x8B, 0x04, 0x87] -- mov r8d, [rdi + r8*4]
  c := c ++ [0x41, 0x81, 0xF8] -- cmp r8d, 0xFFFFFFFF
  c := c ++ le32 0xFFFF_FFFF
  c := c ++ [0x0F, 0x85] -- jne accept_loop
  let accept_loop_patch := c.length
  c := c ++ [0, 0, 0, 0]
  c := patch_rel32 c accept_loop_patch accept_loop
  c := c ++ [0x45, 0x31, 0xDB] -- xor r11d, r11d
  let skip_match_target := c.length
  c := patch_rel32 c skip_match_patch skip_match_target
  c := c ++ [0x49, 0xFF, 0xC5] -- inc r13
  c := c ++ [0x43, 0x0F, 0x18, 0x44, 0x2C, 0x40] -- prefetchnta [r12 + r13 + 64]
  c := c ++ [0x49, 0x39, 0xED] -- cmp r13, rbp
  c := c ++ [0x0F, 0x82] -- jb scan_top
  let loop_patch := c.length
  c := c ++ [0, 0, 0, 0]
  c := patch_rel32 c loop_patch scan_top
  let epilogue := c.length
  c := patch_rel32 c empty_patch epilogue
  c := c ++ [0x4C, 0x89, 0xF8] -- mov rax, r15
  c := c ++ [0x41, 0x5F] -- pop r15
  c := c ++ [0x41, 0x5E] -- pop r14
  c := c ++ [0x41, 0x5D] -- pop r13
  c := c ++ [0x41, 0x5C] -- pop r12
  c := c ++ [0x5D] -- pop rbp
  c := c ++ [0x5B] -- pop rbx
  c := c ++ [0xC3] -- ret
  -- The data section starts at a multiple of 8.
  c := c ++ List.replicate ((8 - c.length % 8) % 8) 0xCC
  return { c, trans_patch, accept_patch, patlen_patch, output_patch }

/-! ## The data of the code -/

/-- The pattern of each state: the one that its last accept entry names. -/
def accept_table (state_count : Nat) (accept_states : List (UInt32 × UInt32)) : List UInt32 :=
  accept_states.foldl (fun accept_pattern (state, pattern_id) =>
    if state.toNat < accept_pattern.length then accept_pattern.set state.toNat pattern_id
    else accept_pattern) (List.replicate state_count NONE)

@[simp] theorem accept_table_length (n : Nat) (as : List (UInt32 × UInt32)) :
    (accept_table n as).length = n := by
  have h : ∀ acc : List UInt32, (as.foldl (fun acc (a : UInt32 × UInt32) =>
      if a.1.toNat < acc.length then acc.set a.1.toNat a.2 else acc) acc).length = acc.length := by
    induction as with
    | nil => intro acc; rfl
    | cons a as ih =>
      intro acc
      rw [List.foldl_cons, ih]
      split
      · exact List.length_set
      · rfl
  exact (h _).trans (by simp)

/-- A transition as the emitted code reads it: the flag is set anew, from the
accept table alone. -/
def flag (accept_pattern : List UInt32) (t : UInt32) : UInt32 :=
  let target := clean t
  if target.toNat < accept_pattern.length ∧ accept_pattern[target.toNat]? ≠ some NONE then
    target ||| 0x8000_0000
  else target

/-- The link of each state. States that have none in `output_links` get `NONE`. -/
def link_table (state_count : Nat) (output_links : List UInt32) : List UInt32 :=
  if output_links.length < state_count then TransitionTable.resize output_links state_count NONE
  else output_links

def page_size : Nat := 4096

/-- The size rounded up to whole pages. -/
def page_align (n : Nat) : Nat := (n + page_size - 1) / page_size * page_size

theorem le_page_align (n : Nat) : n ≤ page_align n := by
  unfold page_align page_size
  omega

/-- The four sections of the data, in their order. -/
structure Sections where
  flagged : List UInt32
  accept_pattern : List UInt32
  pattern_lengths : List UInt32
  output_link : List UInt32

def Sections.words (d : Sections) : List UInt32 :=
  d.flagged ++ d.accept_pattern ++ d.pattern_lengths ++ d.output_link

def sections (table : TransitionTable) (output_links : List UInt32) : Sections :=
  let accept_pattern := accept_table table.state_count table.accept_states
  { flagged := table.transitions.map (flag accept_pattern)
    accept_pattern
    pattern_lengths := if table.pattern_lengths.isEmpty then [0] else table.pattern_lengths
    output_link := link_table table.state_count output_links }

/-- The code and its data, before the addresses are known. -/
def unpatched (class_count : UInt32) (d : Sections) : List UInt8 :=
  (emit_code class_count).c ++ encodeWords d.words

/-- The code and its data at the address `base`. -/
def patched (class_count : UInt32) (d : Sections) (base : Nat) : List UInt8 :=
  let e := emit_code class_count
  let trans_offset := e.c.length
  let accept_offset := trans_offset + 4 * d.flagged.length
  let patlen_offset := accept_offset + 4 * d.accept_pattern.length
  let output_offset := patlen_offset + 4 * d.pattern_lengths.length
  let c := unpatched class_count d
  let c := patch_imm64 c (e.trans_patch + 2) (.ofNat (base + trans_offset))
  let c := patch_imm64 c (e.accept_patch + 2) (.ofNat (base + accept_offset))
  let c := patch_imm64 c (e.patlen_patch + 2) (.ofNat (base + patlen_offset))
  patch_imm64 c (e.output_patch + 2) (.ofNat (base + output_offset))

/-- The mapping of `len` bytes that starts with `c`. Fresh pages are zero. -/
def mapped (c : List UInt8) (len : Nat) : List UInt8 := TransitionTable.resize c len 0

theorem mapped_length (c : List UInt8) (len : Nat) : (mapped c len).length = len := by
  simp only [mapped, TransitionTable.resize, List.length_append, List.length_take,
    List.length_replicate]
  omega

/-! ## Compilation -/

def compile_interpreted_fallback (os : Os) (table : TransitionTable) (output_links : List UInt32) :
    Res ExecutableBuffer :=
  match hmap : os.mmap page_size with
  | .error e => .error (.err (.MemoryAllocation s!"mmap failed: {e}"))
  | .ok ptr =>
    match os.mprotect ptr page_size with
    | .error e => .error (.err (.MemoryAllocation s!"mprotect failed: {e}"))
    | .ok () =>
      .ok {
        ptr
        len := page_size
        image := mapped [0xC3] page_size
        table := some table
        is_jit := false
        accept_pattern := accept_table table.state_count table.accept_states
        output_links := link_table table.state_count output_links
        image_len := mapped_length _ _
        fits := os.mmap_fits _ _ hmap }

def compile_x86_64 (os : Os) (table : TransitionTable) (output_links : List UInt32) :
    Res ExecutableBuffer :=
  if table.state_count > 65_536 then
    .error (.err (.TooManyStates table.state_count 65_536))
  else if table.state_count > MAX_JIT_STATES then
    compile_interpreted_fallback os table output_links
  else
    let d := sections table output_links
    let class_count := UInt32.ofNat table.class_count
    let alloc_size := page_align (unpatched class_count d).length
    match hmap : os.mmap alloc_size with
    | .error e => .error (.err (.MemoryAllocation s!"mmap(RW, {alloc_size}) failed: {e}"))
    | .ok base =>
      match os.mprotect base alloc_size with
      | .error e => .error (.err (.MemoryAllocation s!"mprotect(RX) failed: {e}"))
      | .ok () =>
        .ok {
          ptr := base
          len := alloc_size
          image := mapped (patched class_count d base) alloc_size
          table := none
          is_jit := true
          accept_pattern := d.accept_pattern
          output_links := d.output_link
          image_len := mapped_length _ _
          fits := os.mmap_fits _ _ hmap }

/-! ## The interpreted scan -/

/-- The state after one byte, without its flag. -/
def clean_next (table : TransitionTable) (state : UInt32) (byte : UInt8) : UInt32 :=
  let idx := state.toNat * table.class_count + byte.toNat
  let next := (table.transitions[idx]?).getD 0
  clean next

def next_output (output_links : List UInt32) (output_state : UInt32) : UInt32 :=
  (output_links[output_state.toNat]?).getD NONE

/-- The match that the scanners write for a pattern at byte `pos`. -/
def match_at (pattern_lengths : List UInt32) (pid : UInt32) (pos : Nat) : Match :=
  let «end» := UInt32.ofNat (pos + 1)
  let pat_len := (pattern_lengths[pid.toNat]?).getD 0
  let start := saturating_sub «end» pat_len
  Match.from_parts pid start «end»

def write_match (matches_ : List Match) (count : Nat) (m : Match) : List Match :=
  if count < matches_.length then matches_.set count m else matches_

/-- The loop over the output links of one state, which writes a match for each.
A walk of more links than there are never ends. -/
def follow_outputs (accept_pattern output_links pattern_lengths : List UInt32) (pos : Nat) :
    Nat → UInt32 → Nat → List Match → Res (Nat × List Match)
  | 0, output_state, count, matches_ =>
    if output_state = NONE then .ok (count, matches_) else .error .div
  | fuel + 1, output_state, count, matches_ =>
    if output_state = NONE then .ok (count, matches_)
    else do
      let pid ← index accept_pattern output_state.toNat
      let matches_ := write_match matches_ count (match_at pattern_lengths pid pos)
      follow_outputs accept_pattern output_links pattern_lengths pos fuel
        (next_output output_links output_state) (count + 1) matches_

/-- The same loop where it only counts. -/
def count_outputs (output_links : List UInt32) : Nat → UInt32 → Nat → Res Nat
  | 0, output_state, count => if output_state = NONE then .ok count else .error .div
  | fuel + 1, output_state, count =>
    if output_state = NONE then .ok count
    else count_outputs output_links fuel (next_output output_links output_state) (count + 1)

namespace ExecutableBuffer

def scan_count_loop (self : ExecutableBuffer) (table : TransitionTable) :
    UInt32 → Nat → List UInt8 → Res Nat
  | _, count, [] => .ok count
  | state, count, byte :: input =>
    let clean_next := clean_next table state byte
    if (self.accept_pattern[clean_next.toNat]?).getD NONE = NONE then
      self.scan_count_loop table clean_next count input
    else do
      let count ← count_outputs self.output_links (self.output_links.length + 2) clean_next count
      self.scan_count_loop table 0 count input

def scan_count_interpreted (self : ExecutableBuffer) (input : List UInt8) : Res Nat :=
  match self.table with
  | none => .ok 0
  | some table => self.scan_count_loop table 0 0 input

def scan_loop (self : ExecutableBuffer) (table : TransitionTable) :
    UInt32 → Nat → List Match → Nat → List UInt8 → Res (Nat × List Match)
  | _, count, matches_, _, [] => .ok (count, matches_)
  | state, count, matches_, pos, byte :: input =>
    let clean_next := clean_next table state byte
    if (self.accept_pattern[clean_next.toNat]?).getD NONE = NONE then
      self.scan_loop table clean_next count matches_ (pos + 1) input
    else do
      let (count, matches_) ← follow_outputs self.accept_pattern self.output_links
        table.pattern_lengths pos (self.output_links.length + 2) clean_next count matches_
      self.scan_loop table 0 count matches_ (pos + 1) input

/-- The count that `scan` returns, and the slots after it. -/
def scan_interpreted (self : ExecutableBuffer) (input : List UInt8) (matches_ : List Match) :
    Res (Nat × List Match) :=
  match self.table with
  | none => .ok (0, matches_)
  | some table => do
    let (count, written) ← self.scan_loop table 0 0 matches_ 0 input
    .ok (min count matches_.length, written)

end ExecutableBuffer

/-! ## The call of the emitted code -/

/-- Two ranges of addresses have none in common. -/
def Apart (a n b m : Nat) : Prop := n = 0 ∨ m = 0 ∨ a + n ≤ b ∨ b + m ≤ a

/-- Where the input and the match buffer of a call stand, and what the caller
left in the other registers. No slice is longer than `isize::MAX`. -/
structure Placement (code : ExecutableBuffer) (input : List UInt8) (slots : Nat) where
  input_ptr : Nat
  match_ptr : Nat
  regs : x64.Reg → UInt64
  input_len : input.length < 2 ^ 63
  input_fits : input_ptr + input.length ≤ 2 ^ 64
  matches_fit : match_ptr + 16 * slots ≤ 2 ^ 64
  code_input : Apart code.ptr code.len input_ptr input.length
  code_matches : Apart code.ptr code.len match_ptr (16 * slots)
  input_matches : Apart input_ptr input.length match_ptr (16 * slots)

/-- The match buffer away, and a null pointer in its place. -/
def Placement.no_matches {code : ExecutableBuffer} {input : List UInt8} {slots : Nat}
    (p : Placement code input slots) : Placement code input 0 where
  input_ptr := p.input_ptr
  match_ptr := 0
  regs := p.regs
  input_len := p.input_len
  input_fits := p.input_fits
  matches_fit := by omega
  code_input := p.code_input
  code_matches := Or.inr (Or.inl rfl)
  input_matches := Or.inr (Or.inl rfl)

namespace ExecutableBuffer

open x64

/-- The registers at the call: the four arguments, and what the caller left. -/
def entry_regs (regs : Reg → UInt64) (input_ptr input_len match_ptr max_matches : Nat) :
    Reg → UInt64
  | .rdi => .ofNat input_ptr
  | .rsi => .ofNat input_len
  | .rdx => .ofNat match_ptr
  | .rcx => .ofNat max_matches
  | r => regs r

/-- The machine at the call: the code and the input can be read, and the match
buffer can be written too. -/
def entry (self : ExecutableBuffer) (input : List UInt8) (matches_ : List Match)
    (place : Placement self input matches_.length) : State where
  regs := entry_regs place.regs place.input_ptr input.length place.match_ptr matches_.length
  cf := none
  zf := none
  pc := 0
  stack := []
  mem := [⟨self.ptr, self.image, false⟩, ⟨place.input_ptr, input, false⟩,
    ⟨place.match_ptr, matchBytes matches_, true⟩]

/-- More steps than a call takes that ever returns: a walk over output links
that does not end goes through no more links than there are. -/
def call_fuel (self : ExecutableBuffer) (input : List UInt8) : Nat :=
  64 + input.length * (64 + 32 * (self.output_links.length + 1))

def call (self : ExecutableBuffer) (input : List UInt8) (matches_ : List Match)
    (place : Placement self input matches_.length) : Res (Nat × List Match) :=
  match x64.run self.image (self.call_fuel input) (self.entry input matches_ place) with
  | .done s =>
    let bytes := (s.mem.read place.match_ptr (16 * matches_.length)).getD []
    .ok ((s.regs .rax).toNat, readMatches bytes matches_.length)
  | .fault => .error .fault
  | .next _ => .error .div

def scan_jit (self : ExecutableBuffer) (input : List UInt8) (matches_ : List Match)
    (place : Placement self input matches_.length) : Res (Nat × List Match) :=
  if input.isEmpty then .ok (0, matches_)
  else do
    let (count, written) ← self.call input matches_ place
    .ok (min count matches_.length, written)

def scan_count_jit (self : ExecutableBuffer) (input : List UInt8)
    (place : Placement self input 0) : Res Nat :=
  if input.isEmpty then .ok 0
  else do
    let (count, _) ← self.call input [] place.no_matches
    .ok count

/-! ## The two scans -/

def scan (self : ExecutableBuffer) (input : List UInt8) (matches_ : List Match)
    (place : Placement self input matches_.length) : Res (Nat × List Match) :=
  if self.is_jit then self.scan_jit input matches_ place
  else self.scan_interpreted input matches_

def scan_count (self : ExecutableBuffer) (input : List UInt8) (place : Placement self input 0) :
    Res Nat :=
  if self.is_jit then self.scan_count_jit input place
  else self.scan_count_interpreted input

end ExecutableBuffer

end codegen

end dfajit
