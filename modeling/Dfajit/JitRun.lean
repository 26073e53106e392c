-- A call of the emitted code, step by step. The frame of a call is what it
-- finds in memory; each block of the listing has a lemma that says where it
-- leads; and the loops follow by induction on the input and on the chain of
-- output links.
import Dfajit.TableScan
import Dfajit.EmittedCode

namespace dfajit.jit_run

open error table codegen table_scan emitted words x64 reset_run

/-! ## Numbers in registers -/

theorem u64_toNat {n : Nat} (h : n < 2 ^ 64) : (UInt64.ofNat n).toNat = n :=
  UInt64.toNat_ofNat_of_lt' h

theorem u64_ofNat_lt {a b : Nat} (ha : a < 2 ^ 64) (hb : b < 2 ^ 64) :
    UInt64.ofNat a < UInt64.ofNat b ↔ a < b := by
  rw [UInt64.lt_iff_toNat_lt, u64_toNat ha, u64_toNat hb]

theorem u64_succ (n : Nat) : UInt64.ofNat n + 1 = UInt64.ofNat (n + 1) := by
  rw [UInt64.ofNat_add]
  rfl

theorem u32_succ (n : Nat) : UInt32.ofNat n + UInt32.ofInt 1 = UInt32.ofNat (n + 1) := by
  rw [UInt32.ofNat_add]
  rfl

theorem u64_low {n : Nat} : (UInt64.ofNat n).toUInt32 = UInt32.ofNat n := by
  apply UInt32.toNat_inj.mp
  simp only [UInt64.toNat_toUInt32, UInt64.toNat_ofNat', UInt32.toNat_ofNat']
  omega

theorem imm_mask : UInt32.ofInt 2147483647 = 0x7FFF_FFFF := by decide

theorem imm_top : UInt32.ofInt (-2147483648) = 0x8000_0000 := by decide

theorem imm_none : UInt32.ofInt (-1) = NONE := by decide

/-- The address of slot `c`, as the code computes it. -/
theorem u64_slot (c a : Nat) :
    UInt64.ofNat c * UInt64.ofInt 16 + UInt64.ofNat a = UInt64.ofNat (a + 16 * c) := by
  have h : UInt64.ofInt 16 = UInt64.ofNat 16 := by decide
  rw [h, ← UInt64.ofNat_mul, ← UInt64.ofNat_add, Nat.add_comm, Nat.mul_comm]

/-- The address `[r + q * 4]` with a 32-bit index in `q`. -/
theorem ea_word {σ : State} {r q : Reg} {a : Nat} {i : UInt32} (hr : σ.regs r = .ofNat a)
    (hq : σ.regs q = i.toUInt64) (h : a + 4 * i.toNat < 2 ^ 64) :
    (ea σ ⟨r, some (q, 4), 0⟩).toNat = a + 4 * i.toNat := by
  have hi := i.toNat_lt
  have h0 : UInt64.ofInt 0 = 0 := rfl
  unfold ea
  simp only
  rw [hr, hq, h0, UInt64.add_zero, UInt64.toNat_add, UInt64.toNat_mul, UInt32.toNat_toUInt64,
    u64_toNat (by omega), u64_toNat (by omega)]
  omega

/-- The address `[r + q]`. -/
theorem ea_byte {σ : State} {r q : Reg} {a i : Nat} (hr : σ.regs r = .ofNat a)
    (hq : σ.regs q = .ofNat i) (h : a + i < 2 ^ 64) :
    (ea σ ⟨r, some (q, 1), 0⟩).toNat = a + i := by
  have h0 : UInt64.ofInt 0 = 0 := rfl
  have h1 : UInt64.ofNat 1 = 1 := rfl
  unfold ea
  simp only
  rw [hr, hq, h0, h1, UInt64.add_zero, UInt64.mul_one, ← UInt64.ofNat_add, u64_toNat h]

/-- The address `[r + off]`. -/
theorem ea_off {σ : State} {r : Reg} {a off : Nat} (hr : σ.regs r = .ofNat a)
    (h : a + off < 2 ^ 64) : (ea σ ⟨r, none, off⟩).toNat = a + off := by
  have hoff : ((off : Int) % 2 ^ 64).toNat = off := by omega
  have h0 : UInt64.ofInt (off : Int) = UInt64.ofNat off := by
    unfold UInt64.ofInt
    rw [hoff]
  unfold ea
  simp only
  rw [hr, h0, UInt64.add_zero, ← UInt64.ofNat_add, u64_toNat h]

theorem and_or_distrib_right (x y z : UInt32) : (x ||| y) &&& z = x &&& z ||| y &&& z :=
  UInt32.toBitVec_inj.mp BitVec.and_or_distrib_right

/-- The flag is the upper bit alone, and clearing it gives the target back. -/
theorem flag_mask (accept : List UInt32) (t : UInt32) :
    flag accept t &&& 0x7FFF_FFFF = clean t := by
  have h : clean t &&& 0x7FFF_FFFF = clean t := clean_clean t
  unfold flag
  simp only
  split
  · rw [and_or_distrib_right, h]
    exact UInt32.or_zero
  · exact h

theorem flag_bit (accept : List UInt32) (t : UInt32) :
    (flag accept t &&& 0x8000_0000 == 0) =
      decide ((accept[(clean t).toNat]?).getD NONE = NONE) := by
  have h0 : clean t &&& 0x8000_0000 = 0 := by
    unfold clean
    rw [UInt32.and_assoc]
    exact UInt32.and_zero
  unfold flag
  simp only
  split
  · rename_i hif
    rw [and_or_distrib_right, h0]
    have hne : ¬ (accept[(clean t).toNat]?).getD NONE = NONE := by
      rw [List.getElem?_eq_getElem hif.1] at hif ⊢
      exact fun he => hif.2 (congrArg some he)
    rw [decide_eq_false hne]
    decide
  · rename_i hif
    rw [h0]
    have he : (accept[(clean t).toNat]?).getD NONE = NONE := by
      by_cases hlt : (clean t).toNat < accept.length
      · rw [List.getElem?_eq_getElem hlt] at hif ⊢
        by_contra hne
        exact hif ⟨hlt, fun hx => hne (Option.some.inj hx)⟩
      · rw [List.getElem?_eq_none (by omega)]
        rfl
    rw [decide_eq_true he]
    rfl

/-! ## The bytes of the match buffer -/

@[simp] theorem matchBytes_length (ms : List Match) : (matchBytes ms).length = 16 * ms.length := by
  unfold matchBytes
  rw [encodeWords_length]
  induction ms with
  | nil => rfl
  | cons m ms ih =>
    simp only [List.flatMap_cons, List.length_append, List.length_cons, Match.toWords,
      List.length_nil] at ih ⊢
    omega

theorem matchBytes_append (ms ns : List Match) :
    matchBytes (ms ++ ns) = matchBytes ms ++ matchBytes ns := by
  unfold matchBytes
  rw [List.flatMap_append, encodeWords_append]

theorem words_of_slot {ms : List Match} {i : Nat} {m : Match} (h : ms[i]? = some m) {k : Nat}
    (hk : k < 4) : (ms.flatMap Match.toWords)[4 * i + k]? = m.toWords[k]? := by
  induction ms generalizing i with
  | nil => simp at h
  | cons x ms ih =>
    rw [List.flatMap_cons]
    cases i with
    | zero =>
      obtain rfl : x = m := by simpa using h
      rw [Nat.mul_zero, Nat.zero_add, List.getElem?_append_left hk]
    | succ i =>
      rw [List.getElem?_append_right (by simp [Match.toWords]; omega), ← ih (by simpa using h)]
      congr 1
      simp only [Match.toWords, List.length_cons, List.length_nil]
      omega

/-- What is read back from the bytes of a buffer is the buffer. -/
theorem readMatches_matchBytes (ms : List Match) : readMatches (matchBytes ms) ms.length = ms := by
  apply List.ext_getElem?
  intro i
  unfold readMatches
  rw [List.getElem?_map]
  by_cases hi : i < ms.length
  · have hm := List.getElem?_eq_getElem hi
    have hword : ∀ k, k < 4 → (wordAt (matchBytes ms) (16 * i + 4 * k)) = (ms[i].toWords)[k]? := by
      intro k hk
      have hw := words_of_slot hm hk
      have hsome : k < ms[i].toWords.length := hk
      rw [List.getElem?_eq_getElem hsome] at hw ⊢
      have h1 := wordAt_encodeWords _ [] _ _ hw
      rw [List.append_nil, show 4 * (4 * i + k) = 16 * i + 4 * k by omega] at h1
      exact h1
    rw [List.getElem?_range hi, hm, Option.map_some]
    simp only
    rw [hword 0 (by omega), hword 1 (by omega), hword 2 (by omega), hword 3 (by omega)]
    rfl
  · rw [List.getElem?_eq_none (by simpa using hi), List.getElem?_eq_none (by omega)]
    rfl

/-- The bytes of the buffer once the three words of a match stand in slot `c`. -/
def slotBytes (bytes : List UInt8) (c : Nat) (m : Match) : List UInt8 :=
  overwrite (overwrite (overwrite bytes (16 * c) (le32 m.pattern_id)) (16 * c + 8) (le32 m.end))
    (16 * c + 4) (le32 m.start)

/-- A write into one slot, which stands between the others. -/
theorem overwrite_mid (pre mid post : List UInt8) (off : Nat) (x : UInt32)
    (h : off + 4 ≤ mid.length) :
    overwrite (pre ++ (mid ++ post)) (pre.length + off) (le32 x) =
      pre ++ (overwrite mid off (le32 x) ++ post) := by
  rw [overwrite_append_right, overwrite_append_left _ _ _ _ (by simpa using h)]

/-- The three words replace the match in the slot, all but its padding. -/
theorem slotBytes_set {ms : List Match} {c : Nat} {slot : Match} (h : ms[c]? = some slot)
    (m : Match) :
    slotBytes (matchBytes ms) c m = matchBytes (ms.set c { m with padding := slot.padding }) := by
  obtain ⟨hc, hslot⟩ := List.getElem?_eq_some_iff.mp h
  have hpre : (matchBytes (ms.take c)).length = 16 * c := by
    rw [matchBytes_length, List.length_take, Nat.min_eq_left (by omega)]
  have hms : matchBytes ms =
      matchBytes (ms.take c) ++ (matchBytes [slot] ++ matchBytes (ms.drop (c + 1))) := by
    rw [← matchBytes_append, ← matchBytes_append, List.singleton_append, ← hslot,
      ← List.drop_eq_getElem_cons hc, List.take_append_drop]
  rw [List.set_eq_take_append_cons_drop, if_pos hc, matchBytes_append,
    ← List.singleton_append, matchBytes_append, hms]
  unfold slotBytes
  rw [show 16 * c = (matchBytes (ms.take c)).length + 0 by omega,
    overwrite_mid _ _ _ _ _ (by simp), show (matchBytes (ms.take c)).length + 0 =
      (matchBytes (ms.take c)).length by omega,
    overwrite_mid _ _ _ _ _ (by rw [overwrite_length] <;> simp),
    overwrite_mid _ _ _ _ _ (by rw [overwrite_length, overwrite_length] <;> simp [overwrite_length])]
  rfl

/-! ## The frame of a call -/

/-- The accesses that the instruction at place `pc` may make, with the code at
`base`, `len` bytes of input at `ip` and `slots` match slots at `mp`: a byte of
the input, a word of the section that it is for, or a word of a match slot. -/
def InBounds (t : TransitionTable) (links : List UInt32) (base ip len mp slots pc : Nat)
    (a : Access) : Prop :=
  let d := sections t links
  match pc with
  | 40 => ∃ i < len, a = .read (ip + i) 1
  | 64 => ∃ i < d.flagged.length, a = .read (transAt base + 4 * i) 4
  | 111 => ∃ i < d.accept_pattern.length, a = .read (acceptAt d base + 4 * i) 4
  | 125 => ∃ i < slots, a = .write (mp + 16 * i) 4
  | 139 => ∃ i < t.pattern_lengths.length, a = .read (patlenAt d base + 4 * i) 4
  | 148 => ∃ i < slots, a = .write (mp + 16 * i + 8) 4
  | 157 => ∃ i < slots, a = .write (mp + 16 * i + 4) 4
  | 173 => ∃ i < d.output_link.length, a = .read (outputAt d base + 4 * i) 4
  | _ => False

/-- A table with its links, and the places in memory of its code and data, of
the input and of the match buffer. -/
structure Frame where
  t : TransitionTable
  links : List UInt32
  base : Nat
  post : List UInt8
  ip : Nat
  input : List UInt8
  mp : Nat
  slots : Nat
  linked : Linked t links
  few_states : t.state_count ≤ MAX_JIT_STATES
  links_len : links.length ≤ t.state_count
  input_len : input.length < 2 ^ 63
  input_fits : ip + input.length ≤ 2 ^ 64
  matches_fit : mp + 16 * slots ≤ 2 ^ 64
  code_fits : base + (232 + 4 * (sections t links).words.length + post.length) ≤ 2 ^ 64
  code_input :
    Apart base (232 + 4 * (sections t links).words.length + post.length) ip input.length
  code_matches :
    Apart base (232 + 4 * (sections t links).words.length + post.length) mp (16 * slots)
  input_matches : Apart ip input.length mp (16 * slots)

namespace Frame

variable (f : Frame)

def d : Sections := sections f.t f.links

def image : List UInt8 := textAt f.d f.base ++ (encodeWords f.d.words ++ f.post)

theorem image_length : f.image.length = 232 + 4 * f.d.words.length + f.post.length := by
  simp only [image, textAt, List.length_append, text_length, encodeWords_length]
  omega

/-- The memory with these bytes in the match buffer. -/
def mem (bytes : List UInt8) : Memory :=
  [⟨f.base, f.image, false⟩, ⟨f.ip, f.input, false⟩, ⟨f.mp, bytes, true⟩]

/-- The accesses that the instruction at this place may make in the call. -/
def InBounds (pc : Nat) (a : Access) : Prop :=
  jit_run.InBounds f.t f.links f.base f.ip f.input.length f.mp f.slots pc a

/-! ## Reading and writing -/

variable {f}

theorem read_data {i : Nat} {w : UInt32} (h : f.d.words[i]? = some w) (bytes : List UInt8) :
    (f.mem bytes).read32 (transAt f.base + 4 * i) = some w := by
  have hi : i < f.d.words.length := (List.getElem?_eq_some_iff.mp h).1
  have hlen := f.image_length
  unfold Memory.read32 mem transAt
  rw [Memory.read_head (by simp only; omega) (by simp only; omega)]
  simp only [show f.base + 232 + 4 * i - f.base = 232 + 4 * i by omega]
  have hw := wordAt_encodeWords f.d.words f.post i w h
  have htext : (textAt f.d f.base).length = 232 := text_length _ _ _ _
  have h1 := wordAt_append_right (textAt f.d f.base) (encodeWords f.d.words ++ f.post) (4 * i)
  rw [htext, hw] at h1
  exact h1

theorem read_input {pos : Nat} {b : UInt8} (h : f.input[pos]? = some b) (bytes : List UInt8) :
    (f.mem bytes).read8 (f.ip + pos) = some b := by
  obtain ⟨hpos, hb⟩ := List.getElem?_eq_some_iff.mp h
  have hlen := f.image_length
  have hapart : f.ip + pos < f.base ∨ f.base + f.image.length < f.ip + pos + 1 := by
    have h1 := f.code_input
    unfold Apart at h1
    rw [hlen]
    unfold d
    omega
  unfold Memory.read8 mem
  rw [Memory.read_tail (by simpa only using hapart), Memory.read_head (by simp only; omega)
    (by simp only; omega)]
  simp only [Nat.add_sub_cancel_left, sliceAt]
  rw [if_pos (by omega), Option.map_some, List.drop_eq_getElem_cons hpos, List.take_succ_cons,
    List.take_zero, hb]
  simp [ofLeBytes]

/-- A word written into slot `c` of the match buffer. -/
theorem write_slot {bytes : List UInt8} (hbytes : bytes.length = 16 * f.slots) {c : Nat}
    (hc : c < f.slots) {off : Nat} (hoff : off + 4 ≤ 16) (x : UInt32) :
    (f.mem bytes).write (f.mp + 16 * c + off) (le32 x) =
      some (f.mem (overwrite bytes (16 * c + off) (le32 x))) := by
  have hlen := f.image_length
  have h1 := f.code_matches
  have h2 := f.input_matches
  unfold Apart at h1 h2
  have hd : f.d = sections f.t f.links := rfl
  rw [← hd] at h1
  unfold mem
  rw [Memory.write_tail (by simp only [le32_length]; omega),
    Memory.write_tail (by simp only [le32_length]; omega),
    Memory.write_head (by simp only; omega) (by simp only [le32_length]; omega) rfl]
  simp only [Option.map_some, show f.mp + 16 * c + off - f.mp = 16 * c + off by omega]

/-! ## One instruction -/

variable (f)

def lines : List Line :=
  listing (.ofNat (transAt f.base)) (.ofNat (acceptAt f.d f.base)) (.ofNat (patlenAt f.d f.base))
    (.ofNat (outputAt f.d f.base))

/-- Within `bound` steps of the emitted code, all of them in bounds. -/
def Leads (bound : Nat) (σ : State) (P : State → Prop) : Prop :=
  Reaches f.image f.InBounds bound σ P

variable {f}

/-- The instruction at line `k` of the listing, where it makes no access. -/
theorem plain (k : Nat) {l : Line} (hk : f.lines[k]? = some l) {σ u : State} (hpc : σ.pc = l.pc)
    (ha : accessOf σ l.instr = none) (he : exec l.instr (σ.goto (l.pc + l.size)) = some u)
    {bound : Nat} {P : State → Prop} (h : f.Leads bound u P) : f.Leads (bound + 1) σ P := by
  rw [← hpc] at he
  refine Reaches.step (k := l.size) (i := l.instr) ?_ ?_ he h
  · rw [hpc]
    exact decode_textAt f.d f.base _ hk
  · intro a hacc
    rw [ha] at hacc
    cases hacc

/-- The instruction at line `k` of the listing, with an access in bounds. -/
theorem touch (k : Nat) {l : Line} (hk : f.lines[k]? = some l) {σ u : State} (hpc : σ.pc = l.pc)
    {a : Access} (ha : accessOf σ l.instr = some a) (hin : f.InBounds l.pc a)
    (he : exec l.instr (σ.goto (l.pc + l.size)) = some u)
    {bound : Nat} {P : State → Prop} (h : f.Leads bound u P) : f.Leads (bound + 1) σ P := by
  rw [← hpc] at he
  refine Reaches.step (k := l.size) (i := l.instr) ?_ ?_ he h
  · rw [hpc]
    exact decode_textAt f.d f.base _ hk
  · intro b hacc
    rw [ha] at hacc
    rw [hpc, ← Option.some.inj hacc]
    exact hin

/-- A line that loads a word of the data, the `i`th one from the `j`th on. -/
theorem load_word (k : Nat) {pc n : Nat} {dst r q : Reg} {code : List UInt8}
    (hk : f.lines[k]? = some ⟨pc, n, .load dst ⟨r, some (q, 4), 0⟩, code⟩) {σ : State}
    (hpc : σ.pc = pc) {bytes : List UInt8} (hmem : σ.mem = f.mem bytes) {j : Nat} {i w : UInt32}
    (hr : σ.regs r = .ofNat (transAt f.base + 4 * j)) (hq : σ.regs q = i.toUInt64)
    (hw : f.d.words[j + i.toNat]? = some w)
    (hin : f.InBounds pc (.read (transAt f.base + 4 * (j + i.toNat)) 4))
    {bound : Nat} {P : State → Prop}
    (h : f.Leads bound ((σ.goto (pc + n)).set32 dst w) P) : f.Leads (bound + 1) σ P := by
  obtain ⟨hlt, _⟩ := List.getElem?_eq_some_iff.mp hw
  have hfit := f.code_fits
  have hea : (ea σ ⟨r, some (q, 4), 0⟩).toNat = transAt f.base + 4 * (j + i.toNat) := by
    rw [ea_word hr hq]
    · omega
    · change j + i.toNat < (sections f.t f.links).words.length at hlt
      unfold transAt
      omega
  refine touch k hk hpc (congrArg (fun a => some (Access.read a 4)) hea) hin ?_ h
  apply exec_load
  change σ.mem.read32 (ea σ ⟨r, some (q, 4), 0⟩).toNat = some w
  rw [hea, hmem]
  exact read_data hw bytes

/-- A line that writes a word of slot `c`. -/
theorem store_word (k off : Nat) {pc n : Nat} {r src : Reg} {code : List UInt8}
    (hk : f.lines[k]? = some ⟨pc, n, .store ⟨r, none, off⟩ src, code⟩) {σ : State}
    (hpc : σ.pc = pc) {bytes : List UInt8} (hbytes : bytes.length = 16 * f.slots)
    (hmem : σ.mem = f.mem bytes) {c : Nat} (hc : c < f.slots) (hoff : off + 4 ≤ 16)
    (hr : σ.regs r = .ofNat (f.mp + 16 * c))
    (hin : f.InBounds pc (.write (f.mp + 16 * c + off) 4))
    {bound : Nat} {P : State → Prop}
    (h : f.Leads bound ((σ.goto (pc + n)).withMem
      (f.mem (overwrite bytes (16 * c + off) (le32 (σ.get32 src))))) P) :
    f.Leads (bound + 1) σ P := by
  have hfit := f.matches_fit
  have hea : (ea σ ⟨r, none, off⟩).toNat = f.mp + 16 * c + off := ea_off hr (by omega)
  refine touch k hk hpc (congrArg (fun a => some (Access.write a 4)) hea) hin ?_ h
  apply exec_store
  change σ.mem.write (ea σ ⟨r, none, off⟩).toNat (le32 (σ.get32 src)) = _
  rw [hea, hmem]
  exact write_slot hbytes hc hoff _

/-! ## The blocks of the listing -/

variable (f)

/-- What the registers hold all through the scan loop, with `pos` bytes read,
`count` matches found, and the match buffer and the saved registers as given. -/
structure Held (saved : List UInt64) (pos count : Nat) (bytes : List UInt8) (σ : State) :
    Prop where
  r12 : σ.regs .r12 = .ofNat f.ip
  rbp : σ.regs .rbp = .ofNat f.input.length
  r14 : σ.regs .r14 = .ofNat f.mp
  rbx : σ.regs .rbx = .ofNat f.slots
  r13 : σ.regs .r13 = .ofNat pos
  r15 : σ.regs .r15 = .ofNat count
  stack : σ.stack = saved
  mem : σ.mem = f.mem bytes

variable {f} {saved : List UInt64} {pos count : Nat} {bytes : List UInt8}

/-- The registers that the scan loop keeps. -/
def kept : List Reg := [.r12, .rbp, .r14, .rbx, .r13, .r15]

/-- Steps that leave the kept registers and the stack alone. -/
theorem Held.same {σ τ : State} (hσ : f.Held saved pos count bytes σ) {bytes' : List UInt8}
    (hregs : ∀ r ∈ kept, τ.regs r = σ.regs r) (hstack : τ.stack = σ.stack)
    (hmem : τ.mem = f.mem bytes') : f.Held saved pos count bytes' τ := by
  simp only [kept, List.forall_mem_cons] at hregs
  obtain ⟨h12, hbp, h14, hbx, h13, h15, _⟩ := hregs
  exact ⟨h12.trans hσ.r12, hbp.trans hσ.rbp, h14.trans hσ.r14, hbx.trans hσ.rbx, h13.trans hσ.r13,
    h15.trans hσ.r15, hstack.trans hσ.stack, hmem⟩

theorem index_mul {s : UInt32} (hs : s.toNat < f.t.state_count)
    (b : UInt8) : (s * UInt32.ofInt 256 + b.toUInt32).toNat = s.toNat * 256 + b.toNat := by
  have hb := b.toNat_lt
  have hn := f.few_states
  unfold MAX_JIT_STATES at hn
  have h256 : UInt32.ofInt 256 = 256 := rfl
  rw [h256, UInt32.toNat_add, UInt32.toNat_mul, UInt8.toNat_toUInt32]
  have : (256 : UInt32).toNat = 256 := rfl
  rw [this]
  omega

/-- The transition of a state on a byte, as the data holds it. -/
theorem flagged_get {s : UInt32} (hs : s.toNat < f.t.state_count) (b : UInt8) :
    ∃ w, f.d.flagged[s.toNat * 256 + b.toNat]? = some w ∧ w &&& 0x7FFF_FFFF = clean_next f.t s b ∧
      (w &&& 0x8000_0000 == 0) = decide (pattern_of f.t (clean_next f.t s b) = NONE) := by
  have hlt := f.linked.index_lt hs b
  have hw : clean_next f.t s b = clean (f.t.transitions[s.toNat * f.t.class_count + b.toNat]) := by
    unfold clean_next
    simp only
    rw [List.getElem?_eq_getElem hlt]
    rfl
  rw [hw]
  rw [f.linked.bytes] at hlt
  refine ⟨flag (accept_table f.t.state_count f.t.accept_states)
    (f.t.transitions[s.toNat * 256 + b.toNat]), ?_, ?_, ?_⟩
  · unfold d sections
    simp only [List.getElem?_map, List.getElem?_eq_getElem hlt, Option.map_some]
  · rw [flag_mask]
    simp only [f.linked.bytes]
  · rw [flag_bit]
    simp only [f.linked.bytes]
    rfl

/-- The head of the scan loop: the next byte, and the transition on it. -/
theorem lookup {σ : State} (hpc : σ.pc = 40) (hσ : f.Held saved pos count bytes σ) {s : UInt32}
    (hs : s.toNat < f.t.state_count) (hr : σ.regs .r11 = s.toUInt64) {b : UInt8}
    (hb : f.input[pos]? = some b) :
    f.Leads 9 σ fun τ => τ.pc = 83 ∧ f.Held saved pos count bytes τ ∧
      τ.regs .r11 = (clean_next f.t s b).toUInt64 ∧
      τ.zf = some (decide (pattern_of f.t (clean_next f.t s b) = NONE)) := by
  obtain ⟨w, hw, hclean, hbit⟩ := f.flagged_get hs b
  obtain ⟨hpos, _⟩ := List.getElem?_eq_some_iff.mp hb
  obtain ⟨hidx, _⟩ := List.getElem?_eq_some_iff.mp hw
  have hin := f.input_fits
  have hidx_eq := f.index_mul hs b
  have hea : (ea σ ⟨.r12, some (.r13, 1), 0⟩).toNat = f.ip + pos :=
    ea_byte hσ.r12 hσ.r13 (by omega)
  -- the byte
  refine touch 15 rfl hpc rfl ⟨pos, hpos, by rw [hea]⟩ (exec_loadByte (b := b) ?_) ?_
  · change σ.mem.read8 (ea σ ⟨.r12, some (.r13, 1), 0⟩).toNat = some b
    rw [hea, hσ.mem]
    exact read_input hb bytes
  -- its place in the table
  refine plain 16 rfl rfl rfl rfl ?_
  refine plain 17 rfl rfl rfl rfl ?_
  refine plain 18 rfl rfl rfl rfl ?_
  refine load_word 19 rfl rfl (by exact hσ.mem) (j := 0)
    (i := s * UInt32.ofInt 256 + b.toUInt32) (w := w) rfl ?_ ?_ ?_ ?_
  · simp [alu32, src32, State.get32_eq hr, -UInt32.toUInt64_add, -UInt32.toUInt64_mul]
  · rw [hidx_eq, Nat.zero_add]
    exact words_flagged hw
  · exact ⟨_, hidx, by rw [hidx_eq, Nat.zero_add]⟩
  -- the flag apart from the state
  refine plain 20 rfl rfl rfl rfl ?_
  refine plain 21 rfl rfl rfl rfl ?_
  refine plain 22 rfl rfl rfl rfl ?_
  refine plain 23 rfl rfl rfl rfl ?_
  refine Reaches.here ⟨rfl, ?_, ?_, ?_⟩ _
  · exact hσ.same (by simp [kept, alu32]) rfl hσ.mem
  · simp [alu32, src32, imm_mask, ← hclean]
  · rw [← hbit, ← imm_top]
    simp only [alu32, src32, State.flags_zf, State.get32_flags, State.get32_goto,
      State.get32_set32, reduceCtorEq, if_true, if_false]

/-- A state without a pattern: straight to the end of the loop. -/
theorem no_match {σ : State} (hpc : σ.pc = 83) (hσ : f.Held saved pos count bytes σ) {s : UInt32}
    (hr : σ.regs .r11 = s.toUInt64) (hz : σ.zf = some true) :
    f.Leads 1 σ fun τ => τ.pc = 193 ∧ f.Held saved pos count bytes τ ∧
      τ.regs .r11 = s.toUInt64 := by
  refine plain 24 rfl hpc rfl (exec_jcc_taken hz) ?_
  refine Reaches.here ⟨rfl, ?_, hr⟩ _
  exact hσ.same (fun _ _ => rfl) rfl hσ.mem

/-- A state with a pattern: into the loop over its chain. -/
theorem some_match {σ : State} (hpc : σ.pc = 83) (hσ : f.Held saved pos count bytes σ) {s : UInt32}
    (hr : σ.regs .r11 = s.toUInt64) (hz : σ.zf = some false) :
    f.Leads 2 σ fun τ => τ.pc = 92 ∧ f.Held saved pos count bytes τ ∧
      τ.regs .r8 = s.toUInt64 := by
  refine plain 24 rfl hpc rfl (exec_jcc_passed hz) ?_
  refine plain 25 rfl rfl rfl rfl ?_
  refine Reaches.here ⟨rfl, ?_, ?_⟩ _
  · exact hσ.same (by simp [kept]) rfl hσ.mem
  · simp [State.get32_eq hr]

/-- The match that the code writes for state `s` after `pos + 1` bytes. -/
def matchOf (f : Frame) (s : UInt32) (pos : Nat) : Match :=
  match_at f.t.pattern_lengths (pattern_of f.t s) pos

theorem accept_get {s : UInt32} (hs : Entered f.t s) :
    f.d.accept_pattern[s.toNat]? = some (pattern_of f.t s) :=
  accept_table_get hs.1

theorem patlen_get {s : UInt32} (hs : Entered f.t s) :
    f.d.pattern_lengths[(pattern_of f.t s).toNat]? =
      some ((f.t.pattern_lengths[(pattern_of f.t s).toNat]?).getD 0) := by
  have hlt := hs.2
  have hne : f.t.pattern_lengths.isEmpty = false := by
    cases h : f.t.pattern_lengths with
    | nil => rw [h] at hlt; exact absurd hlt (by simp)
    | cons _ _ => rfl
  unfold d sections
  simp only [hne, Bool.false_eq_true, if_false]
  rw [List.getElem?_eq_getElem hlt]
  rfl

/-- The buffer is full: past the write. -/
theorem skip_write {σ : State} (hpc : σ.pc = 92) (hσ : f.Held saved pos count bytes σ)
    {s : UInt32} (hr : σ.regs .r8 = s.toUInt64) (hcount : count < 2 ^ 64)
    (hfull : f.slots ≤ count) :
    f.Leads 2 σ fun τ => τ.pc = 160 ∧ f.Held saved pos count bytes τ ∧
      τ.regs .r8 = s.toUInt64 := by
  have hfit := f.matches_fit
  refine plain 26 rfl hpc rfl rfl ?_
  refine plain 27 rfl rfl rfl (exec_jcc_taken ?_) ?_
  · simp only [holds, alu64, src64, State.goto_cf, State.flags_cf, State.goto_regs, hσ.r15, hσ.rbx,
      u64_ofNat_lt hcount (show f.slots < 2 ^ 64 by omega), Option.map_some]
    rw [decide_eq_false (by omega)]
    rfl
  refine Reaches.here ⟨rfl, ?_, ?_⟩ _
  · exact hσ.same (fun _ _ => rfl) rfl hσ.mem
  · simp [alu64, hr]

/-- A free slot: its address, and the pattern of the state. -/
theorem find_slot {σ : State} (hpc : σ.pc = 92) (hσ : f.Held saved pos count bytes σ)
    {s : UInt32} (hr : σ.regs .r8 = s.toUInt64) (hs : Entered f.t s)
    (hfree : count < f.slots) :
    f.Leads 7 σ fun τ => τ.pc = 125 ∧ f.Held saved pos count bytes τ ∧
      τ.regs .r8 = s.toUInt64 ∧ τ.regs .rax = (pattern_of f.t s).toUInt64 ∧
      τ.regs .rdi = .ofNat (f.mp + 16 * count) := by
  have hfit := f.matches_fit
  have hacc := f.accept_get hs
  refine plain 26 rfl hpc rfl rfl ?_
  refine plain 27 rfl rfl rfl (exec_jcc_passed ?_) ?_
  · simp only [holds, alu64, src64, State.goto_cf, State.flags_cf, State.goto_regs, hσ.r15,
      hσ.rbx, u64_ofNat_lt (show count < 2 ^ 64 by omega) (show f.slots < 2 ^ 64 by omega),
      Option.map_some]
    rw [decide_eq_true hfree]
    rfl
  refine plain 28 rfl rfl rfl rfl ?_
  refine load_word 29 rfl rfl (by exact hσ.mem) (j := f.d.flagged.length) (i := s) ?_ ?_
    (words_accept hacc) ⟨s.toNat, (List.getElem?_eq_some_iff.mp hacc).1, ?_⟩ ?_
  · rfl
  · simp [alu64, hr]
  · unfold acceptAt
    rw [Nat.mul_add, Nat.add_assoc]
    rfl
  refine plain 30 rfl rfl rfl rfl ?_
  refine plain 31 rfl rfl rfl rfl ?_
  refine plain 32 rfl rfl rfl rfl ?_
  refine Reaches.here ⟨rfl, ?_, ?_, ?_, ?_⟩ _
  · exact hσ.same (by simp [kept, alu64]) rfl hσ.mem
  · simp [alu64, hr]
  · simp [alu64]
  · simp only [alu64, src64, State.flags_regs, State.goto_regs, State.set_regs, State.set32_regs,
      reduceCtorEq, if_true, if_false, hσ.r14, hσ.r15, u64_slot]

/-- The first word of the slot, and the length of the pattern. -/
theorem write_pattern {σ : State} (hpc : σ.pc = 125) (hσ : f.Held saved pos count bytes σ)
    {s : UInt32} (hs : Entered f.t s) (hr : σ.regs .r8 = s.toUInt64)
    (hax : σ.regs .rax = (pattern_of f.t s).toUInt64)
    (hdi : σ.regs .rdi = .ofNat (f.mp + 16 * count)) (hfree : count < f.slots)
    (hbytes : bytes.length = 16 * f.slots) :
    f.Leads 4 σ fun τ => τ.pc = 142 ∧
      f.Held saved pos count (overwrite bytes (16 * count) (le32 (pattern_of f.t s))) τ ∧
      τ.regs .r8 = s.toUInt64 ∧ τ.regs .rdi = .ofNat (f.mp + 16 * count) ∧
      τ.regs .rcx =
        ((f.t.pattern_lengths[(pattern_of f.t s).toNat]?).getD 0).toUInt64 := by
  have hlen := f.patlen_get hs
  refine store_word 33 0 rfl hpc hbytes hσ.mem hfree (by omega) hdi
    ⟨count, hfree, rfl⟩ ?_
  rw [State.get32_eq hax, Nat.add_zero]
  refine plain 34 rfl rfl rfl rfl ?_
  refine plain 35 rfl rfl rfl rfl ?_
  refine load_word 36 rfl rfl rfl (j := f.d.flagged.length + f.d.accept_pattern.length)
    (i := pattern_of f.t s) ?_ ?_ (words_patlen hlen) ⟨_, hs.2, ?_⟩ ?_
  · simp [patlenAt, acceptAt, transAt, Nat.mul_add, Nat.add_assoc]
  · simp [State.get32_eq hax]
  · unfold patlenAt acceptAt
    simp only [Nat.mul_add, Nat.add_assoc]
    rfl
  refine Reaches.here ⟨rfl, ?_, ?_, ?_, ?_⟩ _
  · exact hσ.same (by simp [kept]) rfl rfl
  · simp [hr]
  · simp [hdi]
  · simp

/-- The last word of the slot that is written: the end of the match. -/
theorem write_end {σ : State} (hpc : σ.pc = 142) (hσ : f.Held saved pos count bytes σ)
    {s plen : UInt32} (hr : σ.regs .r8 = s.toUInt64) (hcx : σ.regs .rcx = plen.toUInt64)
    (hdi : σ.regs .rdi = .ofNat (f.mp + 16 * count)) (hfree : count < f.slots)
    (hbytes : bytes.length = 16 * f.slots) :
    f.Leads 3 σ fun τ => τ.pc = 151 ∧
      f.Held saved pos count (overwrite bytes (16 * count + 8) (le32 (.ofNat (pos + 1)))) τ ∧
      τ.regs .r8 = s.toUInt64 ∧ τ.regs .rcx = plen.toUInt64 ∧
      τ.regs .rdi = .ofNat (f.mp + 16 * count) ∧
      τ.regs .rdx = (UInt32.ofNat (pos + 1)).toUInt64 := by
  have h13 : σ.get32 .r13 = .ofNat pos := by rw [State.get32, hσ.r13, u64_low]
  refine plain 37 rfl hpc rfl rfl ?_
  refine plain 38 rfl rfl rfl rfl ?_
  refine store_word 39 8 rfl rfl hbytes (by exact hσ.mem) hfree (by omega) ?_
    ⟨count, hfree, rfl⟩ ?_
  · simp [alu32, hdi]
  refine Reaches.here ⟨rfl, ?_, ?_, ?_, ?_, ?_⟩ _
  · exact hσ.same (by simp [kept, alu32]) rfl (by simp [alu32, src32, h13])
  · simp [alu32, hr]
  · simp [alu32, hcx]
  · simp [alu32, hdi]
  · simp only [alu32, src32, State.withMem_regs, State.goto_regs, State.flags_regs,
      State.set32_regs, State.get32_set32, State.get32_goto, if_true, h13, u32_succ]

/-- The start of the match, or 0 where the pattern is longer than all that was
read. -/
theorem write_start {σ : State} (hpc : σ.pc = 151) (hσ : f.Held saved pos count bytes σ)
    {s plen stop : UInt32} (hr : σ.regs .r8 = s.toUInt64) (hcx : σ.regs .rcx = plen.toUInt64)
    (hdi : σ.regs .rdi = .ofNat (f.mp + 16 * count)) (hdx : σ.regs .rdx = stop.toUInt64)
    (hfree : count < f.slots) (hbytes : bytes.length = 16 * f.slots) :
    f.Leads 4 σ fun τ => τ.pc = 160 ∧
      f.Held saved pos count
        (overwrite bytes (16 * count + 4) (le32 (saturating_sub stop plen))) τ ∧
      τ.regs .r8 = s.toUInt64 := by
  have hd := State.get32_eq hdx
  have hc := State.get32_eq hcx
  refine plain 40 rfl hpc rfl rfl ?_
  by_cases hlt : stop < plen
  · have hsub : saturating_sub stop plen = 0 := if_neg (UInt32.not_le.mpr hlt)
    refine plain 41 rfl rfl rfl (exec_jcc_passed ?_) ?_
    · simp [holds, alu32, src32, hd, hc, hlt]
    refine plain 42 rfl rfl rfl rfl ?_
    refine store_word 43 4 rfl rfl hbytes (by exact hσ.mem) hfree (by omega) ?_
      ⟨count, hfree, rfl⟩ ?_
    · simp [alu32, hdi]
    refine Reaches.here ⟨rfl, ?_, ?_⟩ _
    · exact hσ.same (by simp [kept, alu32]) rfl (by simp [alu32, src32, hsub])
    · simp [alu32, hr]
  · have hsub : saturating_sub stop plen = stop - plen := if_pos (UInt32.not_lt.mp hlt)
    refine plain 41 rfl rfl rfl (exec_jcc_taken ?_) ?_
    · simp [holds, alu32, src32, hd, hc, hlt]
    refine Reaches.mono ?_ (show 1 ≤ 2 by omega) fun _ h => h
    refine store_word 43 4 rfl rfl hbytes (by exact hσ.mem) hfree (by omega) ?_
      ⟨count, hfree, rfl⟩ ?_
    · simp [alu32, hdi]
    refine Reaches.here ⟨rfl, ?_, ?_⟩ _
    · exact hσ.same (by simp [kept, alu32]) rfl (by simp [alu32, src32, hsub, hd, hc])
    · simp [alu32, hr]

/-- A free slot: the match goes into it. -/
theorem write_one {σ : State} (hpc : σ.pc = 92) {slots : List Match}
    (hlen : slots.length = f.slots) (hσ : f.Held saved pos count (matchBytes slots) σ)
    {s : UInt32} (hr : σ.regs .r8 = s.toUInt64) (hs : Entered f.t s) {slot : Match}
    (hslot : slots[count]? = some slot) :
    f.Leads 18 σ fun τ => τ.pc = 160 ∧
      f.Held saved pos count
        (matchBytes (slots.set count { f.matchOf s pos with padding := slot.padding })) τ ∧
      τ.regs .r8 = s.toUInt64 := by
  obtain ⟨hc, _⟩ := List.getElem?_eq_some_iff.mp hslot
  rw [hlen] at hc
  have hbytes : (matchBytes slots).length = 16 * f.slots := by rw [matchBytes_length, hlen]
  rw [← slotBytes_set hslot]
  refine Reaches.bind (m := 7) (n := 11) (find_slot hpc hσ hr hs hc) ?_
  rintro τ ⟨hτpc, hτ, h8, hax, hdi⟩
  refine Reaches.bind (m := 4) (n := 7) (write_pattern hτpc hτ hs h8 hax hdi hc hbytes) ?_
  rintro τ ⟨hτpc, hτ, h8, hdi, hcx⟩
  have hbytes1 := overwrite_length (matchBytes slots) (le32 (pattern_of f.t s)) (16 * count)
    (by simp only [le32_length]; omega)
  refine Reaches.bind (m := 3) (n := 4)
    (write_end hτpc hτ h8 hcx hdi hc (hbytes1.trans hbytes)) ?_
  rintro τ ⟨hτpc, hτ, h8, hcx, hdi, hdx⟩
  have hbytes2 := overwrite_length _ (le32 (.ofNat (pos + 1))) (16 * count + 8)
    (show _ ≤ (overwrite (matchBytes slots) (16 * count) (le32 (pattern_of f.t s))).length by
      simp only [le32_length]; omega)
  exact write_start hτpc hτ h8 hcx hdi hdx hc (hbytes2.trans (hbytes1.trans hbytes))

theorem output_get {s : UInt32} (hs : s.toNat < f.t.state_count) :
    f.d.output_link[s.toNat]? = some (next_output f.links s) := by
  have hlen : s.toNat < (link_table f.t.state_count f.links).length := by
    unfold link_table TransitionTable.resize
    split
    · simp only [List.length_append, List.length_take, List.length_replicate]
      omega
    · omega
  have h := next_output_link_table f.t.state_count f.links s
  unfold next_output at h ⊢
  rw [List.getElem?_eq_getElem hlen] at h
  unfold d sections
  simp only
  rw [List.getElem?_eq_getElem hlen, ← h]
  rfl

/-- One more match is counted, and the link of the state is followed. -/
theorem next_link {σ : State} (hpc : σ.pc = 160) (hσ : f.Held saved pos count bytes σ)
    {s : UInt32} (hr : σ.regs .r8 = s.toUInt64) (hs : s.toNat < f.t.state_count) :
    f.Leads 5 σ fun τ =>
      τ.pc = (if next_output f.links s = NONE then 190 else 92) ∧
      f.Held saved pos (count + 1) bytes τ ∧
      τ.regs .r8 = (next_output f.links s).toUInt64 := by
  have hout := f.output_get hs
  refine plain 44 rfl hpc rfl rfl ?_
  refine plain 45 rfl rfl rfl rfl ?_
  refine load_word 46 rfl rfl (by exact hσ.mem)
    (j := f.d.flagged.length + f.d.accept_pattern.length + f.d.pattern_lengths.length) (i := s)
    ?_ ?_ (words_output hout) ⟨s.toNat, (List.getElem?_eq_some_iff.mp hout).1, ?_⟩ ?_
  · simp [outputAt, patlenAt, acceptAt, transAt, Nat.mul_add, Nat.add_assoc]
  · simp [hr]
  · unfold outputAt patlenAt acceptAt
    simp only [Nat.mul_add, Nat.add_assoc]
    rfl
  refine plain 47 rfl rfl rfl rfl ?_
  have hheld : ∀ τ : State, τ.regs .r12 = σ.regs .r12 → τ.regs .rbp = σ.regs .rbp →
      τ.regs .r14 = σ.regs .r14 → τ.regs .rbx = σ.regs .rbx → τ.regs .r13 = σ.regs .r13 →
      τ.regs .r15 = σ.regs .r15 + 1 → τ.stack = σ.stack → τ.mem = σ.mem →
      f.Held saved pos (count + 1) bytes τ := by
    intro τ h12 hbp h14 hbx h13 h15 hst hmem
    exact ⟨h12.trans hσ.r12, hbp.trans hσ.rbp, h14.trans hσ.r14, hbx.trans hσ.rbx,
      h13.trans hσ.r13, by rw [h15, hσ.r15, u64_succ], hst.trans hσ.stack, hmem.trans hσ.mem⟩
  by_cases hnone : next_output f.links s = NONE
  · refine plain 48 rfl rfl rfl (exec_jcc_passed ?_) ?_
    · simp only [holds, alu32, src32, State.goto_zf, State.flags_zf,
        State.get32_goto, State.get32_set32, if_true, hnone, imm_none]
      rfl
    refine Reaches.here ⟨?_, ?_, ?_⟩ _
    · rw [if_pos hnone]
      rfl
    · exact hheld _ (by simp [alu32]) (by simp [alu32]) (by simp [alu32]) (by simp [alu32])
        (by simp [alu32]) (by simp [alu32]) rfl rfl
    · simp [alu32]
  · refine plain 48 rfl rfl rfl (exec_jcc_taken ?_) ?_
    · simp only [holds, alu32, src32, State.goto_zf, State.flags_zf,
        State.get32_goto, State.get32_set32, if_true, imm_none, Option.map_some,
        beq_eq_false_iff_ne.mpr hnone, Bool.not_false]
    refine Reaches.here ⟨?_, ?_, ?_⟩ _
    · rw [if_neg hnone]
      rfl
    · exact hheld _ (by simp [alu32]) (by simp [alu32]) (by simp [alu32]) (by simp [alu32])
        (by simp [alu32]) (by simp [alu32]) rfl rfl
    · simp [alu32]

/-! ## The loop over a chain -/

/-- The match of state `s`, written if there is a slot for it, and its link. -/
theorem chain_step {σ : State} (hpc : σ.pc = 92) {slots ms : List Match}
    (hslots : slots.length = f.slots)
    (hσ : f.Held saved pos ms.length (matchBytes (fill id slots ms)) σ)
    {s : UInt32} (hr : σ.regs .r8 = s.toUInt64) (hs : Entered f.t s)
    (hcount : ms.length < 2 ^ 64) :
    f.Leads 23 σ fun τ =>
      τ.pc = (if next_output f.links s = NONE then 190 else 92) ∧
      f.Held saved pos (ms.length + 1) (matchBytes (fill id slots (ms ++ [f.matchOf s pos]))) τ ∧
      τ.regs .r8 = (next_output f.links s).toUInt64 := by
  have hlen : (fill id slots ms).length = f.slots := by rw [fill_length, hslots]
  have hrest := fill_get_rest id slots ms
  rw [fill_snoc]
  cases hslot : slots[ms.length]? with
  | some slot =>
    rw [hslot] at hrest
    refine Reaches.bind (m := 18) (n := 5) (write_one hpc hlen hσ hr hs hrest) ?_
    rintro τ ⟨hτpc, hτ, h8⟩
    exact next_link hτpc hτ h8 hs.1
  | none =>
    have hfull : f.slots ≤ ms.length := by
      rw [← hslots]
      exact List.getElem?_eq_none_iff.mp hslot
    refine Reaches.mono (Reaches.bind (m := 2) (n := 5)
      (skip_write hpc hσ hr hcount hfull) ?_) (by omega) fun _ h => h
    rintro τ ⟨hτpc, hτ, h8⟩
    exact next_link hτpc hτ h8 hs.1

/-- The whole chain of a state: a match for each of its states. -/
theorem chain_loop {s : UInt32} {l : List UInt32} (hl : Chain f.links s l) (hne : s ≠ NONE)
    (hall : ∀ x ∈ l, Entered f.t x) {σ : State} (hpc : σ.pc = 92)
    {slots ms : List Match} (hslots : slots.length = f.slots)
    (hσ : f.Held saved pos ms.length (matchBytes (fill id slots ms)) σ)
    (hr : σ.regs .r8 = s.toUInt64) (hcount : ms.length + l.length ≤ 2 ^ 64) :
    f.Leads (23 * l.length) σ fun τ => τ.pc = 190 ∧
      f.Held saved pos (ms ++ l.map (f.matchOf · pos)).length
        (matchBytes (fill id slots (ms ++ l.map (f.matchOf · pos)))) τ := by
  induction hl generalizing ms σ with
  | nil => exact absurd rfl hne
  | @cons s l _ hl ih =>
    rw [List.forall_mem_cons] at hall
    rw [List.length_cons] at hcount
    have hstep := chain_step hpc hslots hσ hr hall.1 (by omega)
    rw [List.length_cons, show 23 * (l.length + 1) = 23 + 23 * l.length by omega]
    refine Reaches.bind hstep ?_
    rintro τ ⟨hτpc, hτ, h8⟩
    have hlen : ms.length + 1 = (ms ++ [f.matchOf s pos]).length := by simp
    rw [hlen] at hτ
    by_cases hnone : next_output f.links s = NONE
    · rw [if_pos hnone] at hτpc
      rw [hnone] at hl
      cases hl with
      | nil => exact Reaches.here ⟨hτpc, hτ⟩ _
      | cons h _ => exact absurd rfl h
    · rw [if_neg hnone] at hτpc
      have h1 := ih hnone hall.2 hτpc hτ h8 (by simp; omega)
      rwa [List.append_assoc, List.singleton_append] at h1

/-! ## The loop over the input -/

/-- The state goes back to the start. -/
theorem reset_state {σ : State} (hpc : σ.pc = 190) (hσ : f.Held saved pos count bytes σ) :
    f.Leads 1 σ fun τ => τ.pc = 193 ∧ f.Held saved pos count bytes τ ∧
      τ.regs .r11 = (0 : UInt32).toUInt64 := by
  refine plain 49 rfl hpc rfl rfl ?_
  refine Reaches.here ⟨rfl, ?_, ?_⟩ _
  · exact hσ.same (by simp [kept, alu32]) rfl hσ.mem
  · simp [alu32, src32]

/-- The end of the scan loop: the next position, and back if bytes are left. -/
theorem advance {σ : State} (hpc : σ.pc = 193) (hσ : f.Held saved pos count bytes σ) {s : UInt32}
    (hr : σ.regs .r11 = s.toUInt64) (hpos : pos < f.input.length) :
    f.Leads 4 σ fun τ => τ.pc = (if pos + 1 < f.input.length then 40 else 211) ∧
      f.Held saved (pos + 1) count bytes τ ∧ τ.regs .r11 = s.toUInt64 := by
  have hfit := f.input_len
  refine plain 50 rfl hpc rfl rfl ?_
  refine plain 51 rfl rfl rfl rfl ?_
  refine plain 52 rfl rfl rfl rfl ?_
  have hheld : ∀ τ : State, τ.regs .r12 = σ.regs .r12 → τ.regs .rbp = σ.regs .rbp →
      τ.regs .r14 = σ.regs .r14 → τ.regs .rbx = σ.regs .rbx → τ.regs .r15 = σ.regs .r15 →
      τ.regs .r13 = σ.regs .r13 + 1 → τ.stack = σ.stack → τ.mem = σ.mem →
      f.Held saved (pos + 1) count bytes τ := by
    intro τ h12 hbp h14 hbx h15 h13 hst hmem
    exact ⟨h12.trans hσ.r12, hbp.trans hσ.rbp, h14.trans hσ.r14, hbx.trans hσ.rbx,
      by rw [h13, hσ.r13, u64_succ], h15.trans hσ.r15, hst.trans hσ.stack, hmem.trans hσ.mem⟩
  have hlt := u64_ofNat_lt (show pos + 1 < 2 ^ 64 by omega) (show f.input.length < 2 ^ 64 by omega)
  by_cases hmore : pos + 1 < f.input.length
  · refine plain 53 rfl rfl rfl (exec_jcc_taken ?_) ?_
    · simp only [holds, alu64, src64, State.goto_cf, State.flags_cf, State.goto_regs,
        State.flags_regs, State.set_regs, reduceCtorEq, if_true, if_false, hσ.r13, hσ.rbp,
        u64_succ, hlt, hmore, decide_true]
    refine Reaches.here ⟨?_, ?_, ?_⟩ _
    · rw [if_pos hmore]
      exact (show ((205 + 6 : Nat) + (-171 : Int)).toNat = 40 by decide)
    · exact hheld _ (by simp [alu64]) (by simp [alu64]) (by simp [alu64]) (by simp [alu64])
        (by simp [alu64]) (by simp [alu64]) rfl rfl
    · simp [alu64, hr]
  · refine plain 53 rfl rfl rfl (exec_jcc_passed ?_) ?_
    · simp only [holds, alu64, src64, State.goto_cf, State.flags_cf, State.goto_regs,
        State.flags_regs, State.set_regs, reduceCtorEq, if_true, if_false, hσ.r13, hσ.rbp,
        u64_succ, hlt, hmore, decide_false]
    refine Reaches.here ⟨?_, ?_, ?_⟩ _
    · rw [if_neg hmore]
      rfl
    · exact hheld _ (by simp [alu64]) (by simp [alu64]) (by simp [alu64]) (by simp [alu64])
        (by simp [alu64]) (by simp [alu64]) rfl rfl
    · simp [alu64, hr]

/-- The state after a byte, with the restart that a report brings. -/
def restarted (f : Frame) (s : UInt32) : UInt32 :=
  if pattern_of f.t s = NONE then s else 0

/-- One round of the scan loop: the reports of the state that byte `b` leads to. -/
theorem byte_step {σ : State} (hpc : σ.pc = 40) {slots ms : List Match}
    (hslots : slots.length = f.slots)
    (hσ : f.Held saved pos ms.length (matchBytes (fill id slots ms)) σ) {s : UInt32}
    (hs : s.toNat < f.t.state_count) (hr : σ.regs .r11 = s.toUInt64) {b : UInt8}
    (hb : f.input[pos]? = some b) {found : List Match}
    (hfound : found = (reports f.t f.links (clean_next f.t s b)).map
      (match_at f.t.pattern_lengths · pos))
    (hcount : ms.length + found.length ≤ 2 ^ 64) :
    f.Leads (16 + 23 * found.length) σ fun τ =>
      τ.pc = (if pos + 1 < f.input.length then 40 else 211) ∧
      f.Held saved (pos + 1) (ms ++ found).length (matchBytes (fill id slots (ms ++ found))) τ ∧
      τ.regs .r11 = (f.restarted (clean_next f.t s b)).toUInt64 := by
  obtain ⟨hpos, _⟩ := List.getElem?_eq_some_iff.mp hb
  have hlook := lookup hpc hσ hs hr hb
  unfold restarted
  by_cases hnone : pattern_of f.t (clean_next f.t s b) = NONE
  · obtain rfl : found = [] := by rw [hfound, reports_nil_iff.mpr hnone]; rfl
    rw [List.append_nil, if_pos hnone]
    refine Reaches.mono (Reaches.bind (m := 9) (n := 5) hlook ?_) (by simp) fun _ h => h
    rintro τ ⟨hτpc, hτ, h11, hz⟩
    rw [decide_eq_true hnone] at hz
    refine Reaches.bind (m := 1) (n := 4) (no_match hτpc hτ h11 hz) ?_
    rintro τ ⟨hτpc, hτ, h11⟩
    exact advance hτpc hτ h11 hpos
  · obtain ⟨l, hl, hall⟩ := f.linked.ends _ hnone
    have hlen : found.length = l.length := by rw [hfound, reports_eq hnone hl]; simp
    have hmatch : found = l.map (f.matchOf · pos) := by
      rw [hfound, reports_eq hnone hl, List.map_map]
      rfl
    have hne : clean_next f.t s b ≠ NONE := clean_ne_none _
    rw [if_neg hnone, show 16 + 23 * found.length = 9 + (2 + (23 * l.length + (1 + 4))) by omega]
    refine Reaches.bind hlook ?_
    rintro τ ⟨hτpc, hτ, h11, hz⟩
    rw [decide_eq_false hnone] at hz
    refine Reaches.bind (some_match hτpc hτ h11 hz) ?_
    rintro τ ⟨hτpc, hτ, h8⟩
    refine Reaches.bind (chain_loop hl hne hall hτpc hslots hτ h8 (by omega)) ?_
    rintro τ ⟨hτpc, hτ⟩
    rw [← hmatch] at hτ
    refine Reaches.bind (reset_state hτpc hτ) ?_
    rintro τ ⟨hτpc, hτ, h11⟩
    exact advance hτpc hτ h11 hpos

theorem restarted_lt {s : UInt32} (hs : s.toNat < f.t.state_count) :
    (f.restarted s).toNat < f.t.state_count := by
  unfold restarted
  split
  · exact hs
  · exact f.linked.some_state

/-- The scan loop from its head to its end. -/
theorem scan_loop {rest : List UInt8} (hsome : rest ≠ []) (hrest : f.input.drop pos = rest)
    {σ : State} (hpc : σ.pc = 40) {slots ms : List Match} (hslots : slots.length = f.slots)
    (hσ : f.Held saved pos ms.length (matchBytes (fill id slots ms)) σ) {s : UInt32}
    (hs : s.toNat < f.t.state_count) (hr : σ.regs .r11 = s.toUInt64) {found : List Match}
    (hfound : found = matchesOf f.t ((scanner f.t f.links).eventsFrom s pos rest))
    (hcount : ms.length + found.length ≤ 2 ^ 64) :
    f.Leads (16 * rest.length + 23 * found.length) σ fun τ => τ.pc = 211 ∧
      f.Held saved (pos + rest.length) (ms ++ found).length
        (matchBytes (fill id slots (ms ++ found))) τ := by
  induction rest generalizing pos σ ms s found with
  | nil => exact absurd rfl hsome
  | cons b rest ih =>
    have hlen : f.input.length = pos + rest.length + 1 := by
      have h1 := congrArg List.length hrest
      simp only [List.length_drop, List.length_cons] at h1
      omega
    have hb : f.input[pos]? = some b := by
      have h1 := congrArg (·[0]?) hrest
      simpa [List.getElem?_drop] using h1
    have hdrop : f.input.drop (pos + 1) = rest := by
      rw [← List.drop_drop, hrest]
      rfl
    rw [events_step, matchesOf_step] at hfound
    obtain ⟨first, hfirst⟩ : ∃ first, first = (reports f.t f.links (clean_next f.t s b)).map
        (match_at f.t.pattern_lengths · pos) := ⟨_, rfl⟩
    obtain ⟨later, hlater⟩ : ∃ later, later = matchesOf f.t ((scanner f.t f.links).eventsFrom
        (f.restarted (clean_next f.t s b)) (pos + 1) rest) := ⟨_, rfl⟩
    have hsplit : found = first ++ later := by rw [hfound, hfirst, hlater]; rfl
    subst hsplit
    rw [List.length_append] at hcount
    have hbound : 16 * (b :: rest).length + 23 * (first ++ later).length =
        (16 + 23 * first.length) + (16 * rest.length + 23 * later.length) := by
      simp only [List.length_cons, List.length_append]
      omega
    rw [hbound]
    refine Reaches.bind (byte_step hpc hslots hσ hs hr hb hfirst (by omega)) ?_
    rintro τ ⟨hτpc, hτ, h11⟩
    have hs' := restarted_lt (f.linked.next_lt hs b)
    cases rest with
    | nil =>
      obtain rfl : later = [] := hlater
      rw [if_neg (by simp at hlen; omega)] at hτpc
      rw [List.append_nil]
      exact Reaches.here ⟨hτpc, hτ⟩ _
    | cons b' rest =>
      rw [if_pos (by simp at hlen; omega)] at hτpc
      have h1 := ih (by simp) hdrop hτpc hτ hs' h11 hlater
        (by rw [List.length_append]; omega)
      rw [List.append_assoc] at h1
      rw [show pos + (b :: b' :: rest).length = pos + 1 + (b' :: rest).length by simp; omega]
      exact h1

/-! ## The whole call -/

/-- The registers that a function gives back as it found them. -/
def calleeSaved : List Reg := [.r15, .r14, .r13, .r12, .rbp, .rbx]

/-- From the entry to the head of the scan loop, where there is input. -/
theorem prologue {σ : State} (hpc : σ.pc = 0) (hdi : σ.regs .rdi = .ofNat f.ip)
    (hsi : σ.regs .rsi = .ofNat f.input.length) (hdx : σ.regs .rdx = .ofNat f.mp)
    (hcx : σ.regs .rcx = .ofNat f.slots) (hstack : σ.stack = []) (hmem : σ.mem = f.mem bytes)
    (hsome : 0 < f.input.length) :
    f.Leads 15 σ fun τ => τ.pc = 40 ∧ f.Held (calleeSaved.map σ.regs) 0 0 bytes τ ∧
      τ.regs .r11 = (0 : UInt32).toUInt64 := by
  have hfit := f.input_len
  refine plain 0 rfl hpc rfl rfl ?_
  refine plain 1 rfl rfl rfl rfl ?_
  refine plain 2 rfl rfl rfl rfl ?_
  refine plain 3 rfl rfl rfl rfl ?_
  refine plain 4 rfl rfl rfl rfl ?_
  refine plain 5 rfl rfl rfl rfl ?_
  refine plain 6 rfl rfl rfl rfl ?_
  refine plain 7 rfl rfl rfl rfl ?_
  refine plain 8 rfl rfl rfl rfl ?_
  refine plain 9 rfl rfl rfl rfl ?_
  refine plain 10 rfl rfl rfl rfl ?_
  refine plain 11 rfl rfl rfl rfl ?_
  refine plain 12 rfl rfl rfl rfl ?_
  refine plain 13 rfl rfl rfl rfl ?_
  refine plain 14 rfl rfl rfl (exec_jcc_passed ?_) ?_
  · have hlt : (0 : UInt64) < UInt64.ofNat f.input.length := by
      rw [UInt64.lt_iff_toNat_lt, u64_toNat (by omega)]
      exact hsome
    simp [holds, alu64, src64, alu32, src32, hsi, hlt]
  refine Reaches.here ⟨rfl, ?_, ?_⟩ _
  · constructor
    · simp [alu32, alu64, hdi]
    · simp [alu32, alu64, hsi]
    · simp [alu32, alu64, hdx]
    · simp [alu32, alu64, hcx]
    · simp [alu32, alu64, src32]
    · simp [alu32, alu64, src32]
    · simp [alu32, alu64, calleeSaved, hstack]
    · simp [alu32, alu64, hmem]
  · simp [alu32, alu64, src32]

/-- From the entry past the scan loop, where there is no input. -/
theorem prologue_empty {σ : State} (hpc : σ.pc = 0) (hdi : σ.regs .rdi = .ofNat f.ip)
    (hsi : σ.regs .rsi = .ofNat f.input.length) (hdx : σ.regs .rdx = .ofNat f.mp)
    (hcx : σ.regs .rcx = .ofNat f.slots) (hstack : σ.stack = []) (hmem : σ.mem = f.mem bytes)
    (hnone : f.input.length = 0) :
    f.Leads 15 σ fun τ => τ.pc = 211 ∧ f.Held (calleeSaved.map σ.regs) 0 0 bytes τ := by
  rw [hnone] at hsi
  refine plain 0 rfl hpc rfl rfl ?_
  refine plain 1 rfl rfl rfl rfl ?_
  refine plain 2 rfl rfl rfl rfl ?_
  refine plain 3 rfl rfl rfl rfl ?_
  refine plain 4 rfl rfl rfl rfl ?_
  refine plain 5 rfl rfl rfl rfl ?_
  refine plain 6 rfl rfl rfl rfl ?_
  refine plain 7 rfl rfl rfl rfl ?_
  refine plain 8 rfl rfl rfl rfl ?_
  refine plain 9 rfl rfl rfl rfl ?_
  refine plain 10 rfl rfl rfl rfl ?_
  refine plain 11 rfl rfl rfl rfl ?_
  refine plain 12 rfl rfl rfl rfl ?_
  refine plain 13 rfl rfl rfl rfl ?_
  refine plain 14 rfl rfl rfl (exec_jcc_taken ?_) ?_
  · simp [holds, alu64, src64, alu32, src32, hsi]
  refine Reaches.here ⟨rfl, ?_⟩ _
  constructor
  · simp [alu32, alu64, hdi]
  · simp [alu32, alu64, hsi, hnone]
  · simp [alu32, alu64, hdx]
  · simp [alu32, alu64, hcx]
  · simp [alu32, alu64, src32]
  · simp [alu32, alu64, src32]
  · simp [alu32, alu64, calleeSaved, hstack]
  · simp [alu32, alu64, hmem]

/-- From the end of the scan loop to the return: the count is the result, and
the saved registers are back. -/
theorem epilogue {σ : State} (hpc : σ.pc = 211) {regs : Reg → UInt64}
    (hσ : f.Held (calleeSaved.map regs) pos count bytes σ) :
    f.Leads 7 σ fun τ => τ.pc = 224 ∧ τ.stack = [] ∧ τ.mem = f.mem bytes ∧
      τ.regs .rax = .ofNat count ∧ ∀ r ∈ calleeSaved, τ.regs r = regs r := by
  have hpop : ∀ (τ : State) (r : Reg) (v : UInt64) (rest : List UInt64), τ.stack = v :: rest →
      exec (.pop r) τ = some ((τ.set r v).withStack rest) := by
    intro τ r v rest h
    simp only [exec, h]
  have hst : σ.stack = calleeSaved.map regs := hσ.stack
  refine plain 54 rfl hpc rfl rfl ?_
  refine plain 55 rfl rfl rfl (hpop _ _ _ _ (by exact hst)) ?_
  refine plain 56 rfl rfl rfl (hpop _ _ _ _ rfl) ?_
  refine plain 57 rfl rfl rfl (hpop _ _ _ _ rfl) ?_
  refine plain 58 rfl rfl rfl (hpop _ _ _ _ rfl) ?_
  refine plain 59 rfl rfl rfl (hpop _ _ _ _ rfl) ?_
  refine plain 60 rfl rfl rfl (hpop _ _ _ _ rfl) ?_
  refine Reaches.here ⟨rfl, rfl, hσ.mem, ?_, ?_⟩ _
  · simp [hσ.r15]
  · simp [calleeSaved]

/-- The state at the `ret`, when all that was pushed is popped. -/
theorem returns {σ : State} (hpc : σ.pc = 224) (hstack : σ.stack = []) :
    step f.image σ = .done σ := by
  have h := decode_textAt f.d f.base (encodeWords f.d.words ++ f.post) (k := 61) rfl
  have hd : decode (f.image.drop σ.pc) = some (.ret, 1) := by
    rw [hpc]
    exact h
  simp only [step, hd, hstack, if_true]

theorem returns_access {σ : State} (hpc : σ.pc = 224) : access f.image σ = none := by
  have h := decode_textAt f.d f.base (encodeWords f.d.words ++ f.post) (k := 61) rfl
  have hd : decode (f.image.drop σ.pc) = some (.ret, 1) := by
    rw [hpc]
    exact h
  simp only [access, hd, Option.bind_some, accessOf]

/-- The matches that the call finds. -/
def finds (f : Frame) : List Match := table_scan.found f.t f.links f.input

/-- The call: from the entry to the return, in bounds all the way. -/
theorem whole_call {σ : State} {slots : List Match} (hslots : slots.length = f.slots)
    (hpc : σ.pc = 0) (hdi : σ.regs .rdi = .ofNat f.ip)
    (hsi : σ.regs .rsi = .ofNat f.input.length) (hdx : σ.regs .rdx = .ofNat f.mp)
    (hcx : σ.regs .rcx = .ofNat f.slots) (hstack : σ.stack = [])
    (hmem : σ.mem = f.mem (matchBytes slots)) (hcount : f.finds.length ≤ 2 ^ 64) :
    f.Leads (22 + 16 * f.input.length + 23 * f.finds.length) σ fun τ => τ.pc = 224 ∧
      τ.stack = [] ∧ τ.mem = f.mem (matchBytes (fill id slots f.finds)) ∧
      τ.regs .rax = .ofNat f.finds.length ∧ ∀ r ∈ calleeSaved, τ.regs r = σ.regs r := by
  have hbound : 22 + 16 * f.input.length + 23 * f.finds.length =
      15 + (16 * f.input.length + 23 * f.finds.length + 7) := by omega
  have hstart : ∀ τ, f.Held (calleeSaved.map σ.regs) 0 0 (matchBytes slots) τ →
      f.Held (calleeSaved.map σ.regs) 0 ([] : List Match).length
        (matchBytes (fill id slots [])) τ := by
    intro τ hτ
    rw [fill_nil]
    exact hτ
  rw [hbound]
  by_cases hsome : f.input = []
  · have hfinds : f.finds = [] := by
      unfold finds table_scan.found
      rw [hsome]
      rfl
    rw [hsome, hfinds]
    refine Reaches.bind (n := 16 * 0 + 23 * 0 + 7)
      (prologue_empty hpc hdi hsi hdx hcx hstack hmem (by rw [hsome]; rfl)) ?_
    rintro τ ⟨hτpc, hτ⟩
    exact epilogue hτpc (hstart τ hτ)
  · refine Reaches.bind
      (prologue hpc hdi hsi hdx hcx hstack hmem (List.length_pos_iff.mpr hsome)) ?_
    rintro τ ⟨hτpc, hτ, h11⟩
    have hloop := scan_loop hsome List.drop_zero hτpc hslots (hstart τ hτ) (s := 0)
      f.linked.some_state h11 (show f.finds = _ from rfl) (by simpa using hcount)
    refine Reaches.bind hloop ?_
    rintro τ ⟨hτpc, hτ⟩
    exact epilogue hτpc hτ

end Frame

/-! ## The call of a compiled buffer -/

/-- No run over an input has more reports than bytes. -/
def Sparse (t : TransitionTable) (links : List UInt32) : Prop :=
  ∀ input, (found t links input).length ≤ input.length

/-- The buffer holds the emitted code and the data of the table. -/
structure Compiled (code : ExecutableBuffer) (t : TransitionTable) (links : List UInt32)
    (post : List UInt8) : Prop where
  jit : code.is_jit = true
  image : code.image = textAt (sections t links) code.ptr ++
    (encodeWords (sections t links).words ++ post)
  output : code.output_links = link_table t.state_count links

section

variable {code : ExecutableBuffer} {t : TransitionTable} {links : List UInt32} {post : List UInt8}

theorem patched_length (d : Sections) (base : Nat) :
    (patched 256 d base).length = (unpatched 256 d).length := by
  rw [patched_eq, unpatched, List.length_append, List.length_append, emit_code_length, textAt,
    text_length]

theorem mapped_eq {c : List UInt8} {len : Nat} (h : c.length ≤ len) :
    mapped c len = c ++ List.replicate (len - c.length) 0 := by
  unfold mapped TransitionTable.resize
  rw [List.take_of_length_le h]

/-- A table with few states becomes emitted code. -/
theorem compile_x86_64_jit {os : Os} (hn : t.state_count ≤ MAX_JIT_STATES)
    (hc : t.class_count = 256) (h : compile_x86_64 os t links = .ok code) :
    ∃ post, Compiled code t links post := by
  have h256 : UInt32.ofNat t.class_count = 256 := by rw [hc]; rfl
  have himage : ∀ base, ∃ post, mapped (patched (.ofNat t.class_count) (sections t links) base)
      (page_align (unpatched (.ofNat t.class_count) (sections t links)).length) =
        textAt (sections t links) base ++ (encodeWords (sections t links).words ++ post) := by
    intro base
    rw [h256, mapped_eq (by rw [patched_length]; exact le_page_align _), patched_eq,
      List.append_assoc]
    exact ⟨_, rfl⟩
  unfold MAX_JIT_STATES at hn
  unfold compile_x86_64 at h
  rw [if_neg (by omega), if_neg (by unfold MAX_JIT_STATES; omega)] at h
  simp only at h
  split at h
  · cases h
  split at h
  · cases h
  rename_i base _ _ _
  cases h
  obtain ⟨post, hpost⟩ := himage base
  exact ⟨post, rfl, hpost, rfl⟩

/-- The frame of a call at the given places. -/
def Compiled.frame (hc : Compiled code t links post) (hl : Linked t links)
    (hn : t.state_count ≤ MAX_JIT_STATES) (hlinks : links.length ≤ t.state_count)
    {input : List UInt8} {slots : Nat} (place : Placement code input slots) : Frame :=
  have hlen : code.len = 232 + 4 * (sections t links).words.length + post.length := by
    rw [← code.image_len, hc.image, List.length_append, List.length_append, textAt, text_length,
      encodeWords_length]
    omega
  { t, links, post, input, slots
    base := code.ptr
    ip := place.input_ptr
    mp := place.match_ptr
    linked := hl
    few_states := hn
    links_len := hlinks
    input_len := place.input_len
    input_fits := place.input_fits
    matches_fit := place.matches_fit
    code_fits := by rw [← hlen]; exact code.fits
    code_input := by rw [← hlen]; exact place.code_input
    code_matches := by rw [← hlen]; exact place.code_matches
    input_matches := place.input_matches }

/-- The match buffer, read back from the memory of a frame. -/
theorem Frame.read_matches (f : Frame) {ms : List Match} (hms : ms.length = f.slots) :
    readMatches (((f.mem (matchBytes ms)).read f.mp (16 * f.slots)).getD []) f.slots = ms := by
  by_cases hzero : f.slots = 0
  · rw [hzero] at hms ⊢
    rw [List.length_eq_zero_iff.mp hms]
    rfl
  have hlen := f.image_length
  have h1 := f.code_matches
  have h2 := f.input_matches
  have hd : f.d = sections f.t f.links := rfl
  have hbytes : (matchBytes ms).length = 16 * f.slots := by rw [matchBytes_length, hms]
  unfold Apart at h1 h2
  rw [← hd] at h1
  unfold Frame.mem
  rw [Memory.read_tail (by simp only; omega), Memory.read_tail (by simp only; omega),
    Memory.read_head (by simp only; omega) (by simp only; omega)]
  simp only [Nat.sub_self, sliceAt]
  rw [if_pos (by omega), List.drop_zero, List.take_of_length_le (by omega), ← hms]
  exact readMatches_matchBytes ms

/-- A call comes in bounds to its return, with what the scanner reports in the
match buffer, and the padding of each slot as it was. -/
theorem call_leads (hc : Compiled code t links post) (hl : Linked t links)
    (hn : t.state_count ≤ MAX_JIT_STATES) (hlinks : links.length ≤ t.state_count)
    (hsp : Sparse t links) (input : List UInt8) (slots : List Match)
    (place : Placement code input slots.length) :
    Reaches code.image
      (InBounds t links code.ptr place.input_ptr input.length place.match_ptr slots.length)
      (22 + 16 * input.length + 23 * (found t links input).length) (code.entry input slots place)
      fun τ => step code.image τ = .done τ ∧ access code.image τ = none ∧
        τ.mem = (hc.frame hl hn hlinks place).mem
          (matchBytes (fill id slots (found t links input))) ∧
        τ.regs .rax = .ofNat (found t links input).length := by
  have hlen := place.input_len
  have hfew := hsp input
  obtain ⟨f, hf⟩ : ∃ f, f = hc.frame hl hn hlinks place := ⟨_, rfl⟩
  have himage : f.image = code.image := by rw [hf, hc.image]; rfl
  have hfinds : f.finds = found t links input := by rw [hf]; rfl
  have hmem : (code.entry input slots place).mem = f.mem (matchBytes slots) := by
    unfold Frame.mem
    rw [himage, hf]
    rfl
  have hcall := f.whole_call (σ := code.entry input slots place) (by rw [hf]; rfl) rfl
    (by rw [hf]; rfl) (by rw [hf]; rfl) (by rw [hf]; rfl) (by rw [hf]; rfl) rfl hmem
    (by rw [hfinds]; omega)
  unfold Frame.Leads at hcall
  rw [himage, hfinds] at hcall
  have hin : f.InBounds =
      InBounds t links code.ptr place.input_ptr input.length place.match_ptr slots.length := by
    rw [hf]
    rfl
  have hbound : f.input.length = input.length := by rw [hf]; rfl
  rw [hin, hbound] at hcall
  refine hcall.mono (Nat.le_refl _) ?_
  rintro τ ⟨hpc, hstack, hτ, hax, _⟩
  have hret := f.returns hpc hstack
  have hacc := f.returns_access hpc
  rw [himage] at hret hacc
  rw [hf] at hτ
  exact ⟨hret, hacc, hτ, hax⟩

/-- A call finds what the scanner of the table reports, and leaves the padding
of each slot as it is. -/
theorem call_eq (hc : Compiled code t links post) (hl : Linked t links)
    (hn : t.state_count ≤ MAX_JIT_STATES) (hlinks : links.length ≤ t.state_count)
    (hsp : Sparse t links) (input : List UInt8) (slots : List Match)
    (place : Placement code input slots.length) :
    code.call input slots place =
      .ok ((found t links input).length, fill id slots (found t links input)) := by
  have hlen := place.input_len
  have hfew := hsp input
  obtain ⟨n, τ, hsteps, hrun, hret, _, hτ, hax⟩ := call_leads hc hl hn hlinks hsp input slots place
  obtain ⟨f, hf⟩ : ∃ f, f = hc.frame hl hn hlinks place := ⟨_, rfl⟩
  rw [← hf] at hτ
  have hfuel : n < code.call_fuel input := by
    unfold ExecutableBuffer.call_fuel
    rw [Nat.mul_add]
    omega
  unfold ExecutableBuffer.call
  rw [hrun.run_done hret _ hfuel]
  simp only
  rw [hτ, hax, u64_toNat (by omega)]
  have hkept : (fill id slots (found t links input)).length = f.slots := by
    rw [fill_length, hf]
    rfl
  have hback := f.read_matches hkept
  have hmp : f.mp = place.match_ptr := by rw [hf]; rfl
  have hslots : f.slots = slots.length := by rw [hf]; rfl
  rw [hmp, hslots] at hback
  rw [hback]

/-- The scan of a buffer with emitted code. -/
theorem scan_jit_eq (hc : Compiled code t links post) (hl : Linked t links)
    (hn : t.state_count ≤ MAX_JIT_STATES) (hlinks : links.length ≤ t.state_count)
    (hsp : Sparse t links) (input : List UInt8) (slots : List Match)
    (place : Placement code input slots.length) :
    code.scan_jit input slots place =
      .ok (min (found t links input).length slots.length, fill id slots (found t links input)) := by
  unfold ExecutableBuffer.scan_jit
  cases input with
  | nil => simp [found, matchesOf, Scanner.events, Scanner.eventsFrom]
  | cons b input =>
    rw [call_eq hc hl hn hlinks hsp _ slots place]
    rfl

theorem scan_count_jit_eq (hc : Compiled code t links post) (hl : Linked t links)
    (hn : t.state_count ≤ MAX_JIT_STATES) (hlinks : links.length ≤ t.state_count)
    (hsp : Sparse t links) (input : List UInt8) (place : Placement code input 0) :
    code.scan_count_jit input place = .ok (found t links input).length := by
  unfold ExecutableBuffer.scan_count_jit
  cases input with
  | nil => rfl
  | cons b input =>
    rw [call_eq hc hl hn hlinks hsp _ [] place.no_matches]
    rfl

end

end dfajit.jit_run
