-- The emitted code as a listing: where each instruction stands and what it
-- does. The bytes that the code generator emits, with the four addresses
-- patched in, are the bytes of this listing followed by the data.
import Dfajit.Codegen

namespace dfajit.emitted

open codegen table words x64

/-! ## The listing -/

/-- The emitted code for tables with 256 classes, at the four addresses of its
data. -/
def listing (trans accept patlen output : UInt64) : List Line :=
  [⟨0, 1, .push .rbx, [0x53]⟩,
   ⟨1, 1, .push .rbp, [0x55]⟩,
   ⟨2, 2, .push .r12, [0x41, 0x54]⟩,
   ⟨4, 2, .push .r13, [0x41, 0x55]⟩,
   ⟨6, 2, .push .r14, [0x41, 0x56]⟩,
   ⟨8, 2, .push .r15, [0x41, 0x57]⟩,
   ⟨10, 3, .mov .b64 .r12 .rdi, [0x49, 0x89, 0xFC]⟩,
   ⟨13, 3, .mov .b64 .rbp .rsi, [0x48, 0x89, 0xF5]⟩,
   ⟨16, 3, .mov .b64 .r14 .rdx, [0x49, 0x89, 0xD6]⟩,
   ⟨19, 3, .mov .b64 .rbx .rcx, [0x48, 0x89, 0xCB]⟩,
   ⟨22, 3, .alu .xor .b32 .r13 (.reg .r13), [0x45, 0x31, 0xED]⟩,
   ⟨25, 3, .alu .xor .b32 .r15 (.reg .r15), [0x45, 0x31, 0xFF]⟩,
   ⟨28, 3, .alu .xor .b32 .r11 (.reg .r11), [0x45, 0x31, 0xDB]⟩,
   ⟨31, 3, .alu .cmp .b64 .r13 (.reg .rbp), [0x49, 0x39, 0xED]⟩,
   ⟨34, 6, .jcc .ae 171, [0x0F, 0x83, 0xAB, 0x00, 0x00, 0x00]⟩,
   ⟨40, 5, .loadByte .rax ⟨.r12, some (.r13, 1), 0⟩, [0x43, 0x0F, 0xB6, 0x04, 0x2C]⟩,
   ⟨45, 7, .imul .b32 .rdx .r11 256, [0x41, 0x69, 0xD3, 0x00, 0x01, 0x00, 0x00]⟩,
   ⟨52, 2, .alu .add .b32 .rdx (.reg .rax), [0x01, 0xC2]⟩,
   ⟨54, 10, .movImm .rdi trans, 0x48 :: 0xBF :: le64 trans⟩,
   ⟨64, 3, .load .rax ⟨.rdi, some (.rdx, 4), 0⟩, [0x8B, 0x04, 0x97]⟩,
   ⟨67, 2, .mov .b32 .rcx .rax, [0x89, 0xC1]⟩,
   ⟨69, 5, .alu .and .b32 .rax (.imm 2147483647), [0x25, 0xFF, 0xFF, 0xFF, 0x7F]⟩,
   ⟨74, 3, .mov .b32 .r11 .rax, [0x41, 0x89, 0xC3]⟩,
   ⟨77, 6, .alu .test .b32 .rcx (.imm (-2147483648)), [0xF7, 0xC1, 0x00, 0x00, 0x00, 0x80]⟩,
   ⟨83, 6, .jcc .e 104, [0x0F, 0x84, 0x68, 0x00, 0x00, 0x00]⟩,
   ⟨89, 3, .mov .b32 .r8 .r11, [0x45, 0x89, 0xD8]⟩,
   ⟨92, 3, .alu .cmp .b64 .r15 (.reg .rbx), [0x49, 0x39, 0xDF]⟩,
   ⟨95, 6, .jcc .ae 59, [0x0F, 0x83, 0x3B, 0x00, 0x00, 0x00]⟩,
   ⟨101, 10, .movImm .rdi accept, 0x48 :: 0xBF :: le64 accept⟩,
   ⟨111, 4, .load .rax ⟨.rdi, some (.r8, 4), 0⟩, [0x42, 0x8B, 0x04, 0x87]⟩,
   ⟨115, 3, .mov .b64 .rdi .r15, [0x4C, 0x89, 0xFF]⟩,
   ⟨118, 4, .imul .b64 .rdi .rdi 16, [0x48, 0x6B, 0xFF, 0x10]⟩,
   ⟨122, 3, .alu .add .b64 .rdi (.reg .r14), [0x4C, 0x01, 0xF7]⟩,
   ⟨125, 2, .store ⟨.rdi, none, 0⟩ .rax, [0x89, 0x07]⟩,
   ⟨127, 2, .mov .b32 .rcx .rax, [0x89, 0xC1]⟩,
   ⟨129, 10, .movImm .rdx patlen, 0x48 :: 0xBA :: le64 patlen⟩,
   ⟨139, 3, .load .rcx ⟨.rdx, some (.rcx, 4), 0⟩, [0x8B, 0x0C, 0x8A]⟩,
   ⟨142, 3, .mov .b32 .rdx .r13, [0x44, 0x89, 0xEA]⟩,
   ⟨145, 3, .alu .add .b32 .rdx (.imm 1), [0x83, 0xC2, 0x01]⟩,
   ⟨148, 3, .store ⟨.rdi, none, 8⟩ .rdx, [0x89, 0x57, 0x08]⟩,
   ⟨151, 2, .alu .sub .b32 .rdx (.reg .rcx), [0x29, 0xCA]⟩,
   ⟨153, 2, .jcc .ae 2, [0x73, 0x02]⟩,
   ⟨155, 2, .alu .xor .b32 .rdx (.reg .rdx), [0x31, 0xD2]⟩,
   ⟨157, 3, .store ⟨.rdi, none, 4⟩ .rdx, [0x89, 0x57, 0x04]⟩,
   ⟨160, 3, .inc .b64 .r15, [0x49, 0xFF, 0xC7]⟩,
   ⟨163, 10, .movImm .rdi output, 0x48 :: 0xBF :: le64 output⟩,
   ⟨173, 4, .load .r8 ⟨.rdi, some (.r8, 4), 0⟩, [0x46, 0x8B, 0x04, 0x87]⟩,
   ⟨177, 7, .alu .cmp .b32 .r8 (.imm (-1)), [0x41, 0x81, 0xF8, 0xFF, 0xFF, 0xFF, 0xFF]⟩,
   ⟨184, 6, .jcc .ne (-98), [0x0F, 0x85, 0x9E, 0xFF, 0xFF, 0xFF]⟩,
   ⟨190, 3, .alu .xor .b32 .r11 (.reg .r11), [0x45, 0x31, 0xDB]⟩,
   ⟨193, 3, .inc .b64 .r13, [0x49, 0xFF, 0xC5]⟩,
   ⟨196, 6, .prefetch ⟨.r12, some (.r13, 1), 64⟩, [0x43, 0x0F, 0x18, 0x44, 0x2C, 0x40]⟩,
   ⟨202, 3, .alu .cmp .b64 .r13 (.reg .rbp), [0x49, 0x39, 0xED]⟩,
   ⟨205, 6, .jcc .b (-171), [0x0F, 0x82, 0x55, 0xFF, 0xFF, 0xFF]⟩,
   ⟨211, 3, .mov .b64 .rax .r15, [0x4C, 0x89, 0xF8]⟩,
   ⟨214, 2, .pop .r15, [0x41, 0x5F]⟩,
   ⟨216, 2, .pop .r14, [0x41, 0x5E]⟩,
   ⟨218, 2, .pop .r13, [0x41, 0x5D]⟩,
   ⟨220, 2, .pop .r12, [0x41, 0x5C]⟩,
   ⟨222, 1, .pop .rbp, [0x5D]⟩,
   ⟨223, 1, .pop .rbx, [0x5B]⟩,
   ⟨224, 1, .ret, [0xC3]⟩]

theorem decode_movImm_rdi (v : UInt64) (rest : List UInt8) :
    decode (0x48 :: 0xBF :: le64 v ++ rest) = some (.movImm .rdi v, 10) := by
  have h : decode (0x48 :: 0xBF :: le64 v ++ rest) =
      some (.movImm .rdi (.ofNat (ofLeBytes (le64 v))), 10) := rfl
  rw [h, ofLeBytes_le64, UInt64.ofNat_toNat]

theorem decode_movImm_rdx (v : UInt64) (rest : List UInt8) :
    decode (0x48 :: 0xBA :: le64 v ++ rest) = some (.movImm .rdx v, 10) := by
  have h : decode (0x48 :: 0xBA :: le64 v ++ rest) =
      some (.movImm .rdx (.ofNat (ofLeBytes (le64 v))), 10) := rfl
  rw [h, ofLeBytes_le64, UInt64.ofNat_toNat]

theorem listing_listed (trans accept patlen output : UInt64) :
    Listed 0 (listing trans accept patlen output) := by
  unfold listing
  iterate 18 refine ⟨rfl, rfl, fun _ => rfl, ?_⟩
  refine ⟨rfl, rfl, decode_movImm_rdi _, ?_⟩
  iterate 9 refine ⟨rfl, rfl, fun _ => rfl, ?_⟩
  refine ⟨rfl, rfl, decode_movImm_rdi _, ?_⟩
  iterate 6 refine ⟨rfl, rfl, fun _ => rfl, ?_⟩
  refine ⟨rfl, rfl, decode_movImm_rdx _, ?_⟩
  iterate 9 refine ⟨rfl, rfl, fun _ => rfl, ?_⟩
  refine ⟨rfl, rfl, decode_movImm_rdi _, ?_⟩
  iterate 16 refine ⟨rfl, rfl, fun _ => rfl, ?_⟩
  exact trivial

/-- The bytes of the listing, filled up to a multiple of 8. -/
def text (trans accept patlen output : UInt64) : List UInt8 :=
  (listing trans accept patlen output).flatMap Line.bytes ++ List.replicate 7 0xCC

theorem text_length (trans accept patlen output : UInt64) :
    (text trans accept patlen output).length = 232 := by
  rfl

/-! ## The bytes that are emitted -/

/-- The code generator emits the listing, once the addresses are patched in. -/
theorem emit_code_patched (trans accept patlen output : UInt64) :
    patch_imm64 (patch_imm64 (patch_imm64 (patch_imm64 (emit_code 256).c 56 trans) 103 accept)
      131 patlen) 165 output = text trans accept patlen output := by
  set_option maxRecDepth 4000 in
  rfl

theorem emit_code_length : (emit_code 256).c.length = 232 := by
  set_option maxRecDepth 4000 in
  rfl

theorem patch_imm64_append (c post : List UInt8) (offset : Nat) (value : UInt64)
    (h : offset + 8 ≤ c.length) :
    patch_imm64 (c ++ post) offset value = patch_imm64 c offset value ++ post := by
  unfold patch_imm64
  exact overwrite_append_left _ _ _ _ (by simpa using h)

theorem patch_imm64_length (c : List UInt8) (offset : Nat) (value : UInt64)
    (h : offset + 8 ≤ c.length) : (patch_imm64 c offset value).length = c.length := by
  unfold patch_imm64
  exact overwrite_length _ _ _ (by simpa using h)

/-- The addresses of the four sections of the data at `base`. -/
def transAt (base : Nat) : Nat := base + 232
def acceptAt (d : Sections) (base : Nat) : Nat := transAt base + 4 * d.flagged.length
def patlenAt (d : Sections) (base : Nat) : Nat := acceptAt d base + 4 * d.accept_pattern.length
def outputAt (d : Sections) (base : Nat) : Nat := patlenAt d base + 4 * d.pattern_lengths.length

/-- The code with the addresses of its data at `base`. -/
def textAt (d : Sections) (base : Nat) : List UInt8 :=
  text (.ofNat (transAt base)) (.ofNat (acceptAt d base)) (.ofNat (patlenAt d base))
    (.ofNat (outputAt d base))

theorem emit_code_patched_append (post : List UInt8) (trans accept patlen output : UInt64) :
    patch_imm64 (patch_imm64 (patch_imm64 (patch_imm64 ((emit_code 256).c ++ post) 56 trans) 103
      accept) 131 patlen) 165 output = text trans accept patlen output ++ post := by
  have hlen := emit_code_length
  have h1 := patch_imm64_length (emit_code 256).c 56 trans (by omega)
  have h2 := patch_imm64_length _ 103 accept (by rw [h1]; omega)
  have h3 := patch_imm64_length _ 131 patlen (by rw [h2]; omega)
  rw [patch_imm64_append _ _ _ _ (by omega), patch_imm64_append _ _ _ _ (by omega),
    patch_imm64_append _ _ _ _ (by rw [h2]; omega),
    patch_imm64_append _ _ _ _ (by rw [h3, h2]; omega), emit_code_patched]

theorem patched_eq (d : Sections) (base : Nat) :
    patched 256 d base = textAt d base ++ encodeWords d.words := by
  have e1 : (emit_code 256).trans_patch + 2 = 56 := rfl
  have e2 : (emit_code 256).accept_patch + 2 = 103 := rfl
  have e3 : (emit_code 256).patlen_patch + 2 = 131 := rfl
  have e4 : (emit_code 256).output_patch + 2 = 165 := rfl
  unfold patched unpatched textAt
  simp only [e1, e2, e3, e4, emit_code_length]
  rw [emit_code_patched_append]
  simp only [outputAt, patlenAt, acceptAt, transAt, Nat.add_assoc]

/-- What stands at line `k` of the listing, in the code with its data. -/
theorem decode_textAt (d : Sections) (base : Nat) (post : List UInt8) {k : Nat} {l : Line}
    (h : (listing (.ofNat (transAt base)) (.ofNat (acceptAt d base)) (.ofNat (patlenAt d base))
      (.ofNat (outputAt d base)))[k]? = some l) :
    decode ((textAt d base ++ post).drop l.pc) = some (l.instr, l.size) := by
  have h1 := ((listing_listed _ _ _ _).decode_line h (List.replicate 7 0xCC ++ post)).2
  rw [Nat.sub_zero, ← List.append_assoc] at h1
  exact h1

/-! ## The data behind the code -/

/-- The words of the data, section by section. -/
theorem words_flagged {d : Sections} {i : Nat} {w : UInt32} (h : d.flagged[i]? = some w) :
    d.words[i]? = some w := by
  unfold Sections.words
  rw [List.append_assoc, List.append_assoc, List.getElem?_append_left (List.getElem?_eq_some_iff.mp h).1, h]

theorem words_accept {d : Sections} {i : Nat} {w : UInt32} (h : d.accept_pattern[i]? = some w) :
    d.words[d.flagged.length + i]? = some w := by
  unfold Sections.words
  rw [List.append_assoc, List.append_assoc, List.getElem?_append_right (by omega),
    Nat.add_sub_cancel_left, List.getElem?_append_left (List.getElem?_eq_some_iff.mp h).1, h]

theorem words_patlen {d : Sections} {i : Nat} {w : UInt32} (h : d.pattern_lengths[i]? = some w) :
    d.words[d.flagged.length + d.accept_pattern.length + i]? = some w := by
  unfold Sections.words
  rw [List.append_assoc, List.getElem?_append_right (by simp), List.length_append,
    Nat.add_sub_cancel_left, List.getElem?_append_left (List.getElem?_eq_some_iff.mp h).1, h]

theorem words_output {d : Sections} {i : Nat} {w : UInt32} (h : d.output_link[i]? = some w) :
    d.words[d.flagged.length + d.accept_pattern.length + d.pattern_lengths.length + i]? =
      some w := by
  unfold Sections.words
  rw [List.getElem?_append_right (by simp only [List.length_append]; omega), List.length_append,
    List.length_append, Nat.add_sub_cancel_left, h]

end dfajit.emitted
