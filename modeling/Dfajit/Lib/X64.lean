-- A part of x86-64: its registers, two flags, memory made of regions, the
-- decoding of the instruction bytes, and the effect of each instruction. A
-- byte sequence that the decoder does not know, an access outside the regions
-- and a jump on a flag that the processor leaves undefined all end in a fault.
import Dfajit.Lib.Words

namespace x64

open words

/-! ## Registers, flags and memory -/

inductive Reg where
  | rax | rcx | rdx | rbx | rsp | rbp | rsi | rdi
  | r8 | r9 | r10 | r11 | r12 | r13 | r14 | r15
deriving DecidableEq, Repr

/-- The register with this number in an instruction. -/
def Reg.ofCode : Nat → Reg
  | 0 => .rax | 1 => .rcx | 2 => .rdx | 3 => .rbx | 4 => .rsp | 5 => .rbp | 6 => .rsi | 7 => .rdi
  | 8 => .r8 | 9 => .r9 | 10 => .r10 | 11 => .r11 | 12 => .r12 | 13 => .r13 | 14 => .r14
  | _ => .r15

/-- A mapped range of addresses. -/
structure Region where
  base : Nat
  bytes : List UInt8
  writable : Bool
deriving DecidableEq

namespace Region

/-- All of `a .. a + k` lies in the region. -/
def covers (r : Region) (a k : Nat) : Bool := r.base ≤ a && a + k ≤ r.base + r.bytes.length

end Region

abbrev Memory := List Region

namespace Memory

/-- The `k` bytes at `a`. They must lie in one region. -/
def read : Memory → Nat → Nat → Option (List UInt8)
  | [], _, _ => none
  | r :: rs, a, k => if r.covers a k then sliceAt r.bytes (a - r.base) k else read rs a k

/-- The memory with `new` at `a`. The bytes must lie in one region, which must
be writable. -/
def write : Memory → Nat → List UInt8 → Option Memory
  | [], _, _ => none
  | r :: rs, a, new =>
    if r.covers a new.length then
      if r.writable then some ({ r with bytes := overwrite r.bytes (a - r.base) new } :: rs)
      else none
    else (write rs a new).map (r :: ·)

def read32 (m : Memory) (a : Nat) : Option UInt32 :=
  (m.read a 4).map fun bs => UInt32.ofNat (ofLeBytes bs)

def read8 (m : Memory) (a : Nat) : Option UInt8 :=
  (m.read a 1).map fun bs => UInt8.ofNat (ofLeBytes bs)

end Memory

structure State where
  regs : Reg → UInt64
  /-- The carry flag, or `none` where the processor leaves it undefined. -/
  cf : Option Bool
  /-- The zero flag, or `none` where the processor leaves it undefined. -/
  zf : Option Bool
  /-- The place of the next instruction, counted from the start of the code. -/
  pc : Nat
  /-- What was pushed since the call. -/
  stack : List UInt64
  mem : Memory

namespace State

def get32 (s : State) (r : Reg) : UInt32 := (s.regs r).toUInt32

def set (s : State) (r : Reg) (v : UInt64) : State :=
  { s with regs := fun q => if q = r then v else s.regs q }

/-- A 32-bit write clears the upper half of the register. -/
def set32 (s : State) (r : Reg) (v : UInt32) : State := s.set r v.toUInt64

def flags (s : State) (cf zf : Option Bool) : State := { s with cf, zf }

def goto (s : State) (pc : Nat) : State := { s with pc }

def withStack (s : State) (stack : List UInt64) : State := { s with stack }

def withMem (s : State) (mem : Memory) : State := { s with mem }

section

variable (s : State) (r q : Reg) (v : UInt64) (w : UInt32) (c z : Option Bool) (n : Nat)
  (st : List UInt64) (m : Memory)

@[simp] theorem set_regs : (s.set r v).regs q = if q = r then v else s.regs q := rfl
@[simp] theorem set32_regs : (s.set32 r w).regs q = if q = r then w.toUInt64 else s.regs q := rfl
@[simp] theorem flags_regs : (s.flags c z).regs = s.regs := rfl
@[simp] theorem goto_regs : (s.goto n).regs = s.regs := rfl
@[simp] theorem withStack_regs : (s.withStack st).regs = s.regs := rfl
@[simp] theorem withMem_regs : (s.withMem m).regs = s.regs := rfl
@[simp] theorem flags_cf : (s.flags c z).cf = c := rfl
@[simp] theorem flags_zf : (s.flags c z).zf = z := rfl
@[simp] theorem goto_pc : (s.goto n).pc = n := rfl
@[simp] theorem withStack_stack : (s.withStack st).stack = st := rfl
@[simp] theorem withMem_mem : (s.withMem m).mem = m := rfl
@[simp] theorem set_cf : (s.set r v).cf = s.cf := rfl
@[simp] theorem set_zf : (s.set r v).zf = s.zf := rfl
@[simp] theorem set_pc : (s.set r v).pc = s.pc := rfl
@[simp] theorem set_stack : (s.set r v).stack = s.stack := rfl
@[simp] theorem set_mem : (s.set r v).mem = s.mem := rfl
@[simp] theorem set32_cf : (s.set32 r w).cf = s.cf := rfl
@[simp] theorem set32_zf : (s.set32 r w).zf = s.zf := rfl
@[simp] theorem set32_pc : (s.set32 r w).pc = s.pc := rfl
@[simp] theorem set32_stack : (s.set32 r w).stack = s.stack := rfl
@[simp] theorem set32_mem : (s.set32 r w).mem = s.mem := rfl
@[simp] theorem flags_pc : (s.flags c z).pc = s.pc := rfl
@[simp] theorem flags_stack : (s.flags c z).stack = s.stack := rfl
@[simp] theorem flags_mem : (s.flags c z).mem = s.mem := rfl
@[simp] theorem goto_cf : (s.goto n).cf = s.cf := rfl
@[simp] theorem goto_zf : (s.goto n).zf = s.zf := rfl
@[simp] theorem goto_stack : (s.goto n).stack = s.stack := rfl
@[simp] theorem goto_mem : (s.goto n).mem = s.mem := rfl
@[simp] theorem withStack_cf : (s.withStack st).cf = s.cf := rfl
@[simp] theorem withStack_zf : (s.withStack st).zf = s.zf := rfl
@[simp] theorem withStack_pc : (s.withStack st).pc = s.pc := rfl
@[simp] theorem withStack_mem : (s.withStack st).mem = s.mem := rfl
@[simp] theorem withMem_cf : (s.withMem m).cf = s.cf := rfl
@[simp] theorem withMem_zf : (s.withMem m).zf = s.zf := rfl
@[simp] theorem withMem_pc : (s.withMem m).pc = s.pc := rfl
@[simp] theorem withMem_stack : (s.withMem m).stack = s.stack := rfl

@[simp] theorem get32_set32 : (s.set32 r w).get32 q = if q = r then w else s.get32 q := by
  unfold get32
  rw [set32_regs]
  split
  · exact UInt32.toUInt32_toUInt64 w
  · rfl

@[simp] theorem get32_set :
    (s.set r v).get32 q = if q = r then v.toUInt32 else s.get32 q := by
  unfold get32
  rw [set_regs]
  split <;> rfl

@[simp] theorem get32_flags : (s.flags c z).get32 q = s.get32 q := rfl
@[simp] theorem get32_goto : (s.goto n).get32 q = s.get32 q := rfl
@[simp] theorem get32_withStack : (s.withStack st).get32 q = s.get32 q := rfl
@[simp] theorem get32_withMem : (s.withMem m).get32 q = s.get32 q := rfl

theorem get32_eq {s : State} {r : Reg} {w : UInt32} (h : s.regs r = w.toUInt64) :
    s.get32 r = w := by
  rw [get32, h, UInt32.toUInt32_toUInt64]

end

end State

/-! ## Instructions -/

inductive Size where
  | b32
  | b64
deriving DecidableEq, Repr

/-- `[base + index * scale + disp]`. -/
structure Addr where
  base : Reg
  index : Option (Reg × Nat)
  disp : Int
deriving DecidableEq, Repr

inductive AluOp where
  | add | sub | cmp | xor | and | test
deriving DecidableEq, Repr

inductive Src where
  | reg (r : Reg)
  | imm (v : Int)
deriving DecidableEq, Repr

inductive Cond where
  | b | ae | e | ne
deriving DecidableEq, Repr

inductive Instr where
  | push (r : Reg)
  | pop (r : Reg)
  | ret
  | mov (sz : Size) (dst src : Reg)
  | movImm (dst : Reg) (v : UInt64)
  | load (dst : Reg) (a : Addr)
  | loadByte (dst : Reg) (a : Addr)
  | store (a : Addr) (src : Reg)
  | alu (op : AluOp) (sz : Size) (dst : Reg) (src : Src)
  | imul (sz : Size) (dst src : Reg) (v : Int)
  | inc (sz : Size) (r : Reg)
  | jcc (c : Cond) (rel : Int)
  | prefetch (a : Addr)
deriving DecidableEq, Repr

/-! ## Decoding -/

/-- The bits of a REX prefix. -/
structure Rex where
  w : Nat
  r : Nat
  x : Nat
  b : Nat

def Rex.none : Rex := ⟨0, 0, 0, 0⟩

def Rex.ofByte (v : Nat) : Rex := ⟨v / 8 % 2, v / 4 % 2, v / 2 % 2, v % 2⟩

def Rex.size (rex : Rex) : Size := if rex.w = 1 then .b64 else .b32

/-- The operand that the mod and rm fields name. -/
inductive Operand where
  | reg (r : Reg)
  | mem (a : Addr)

/-- A little-endian number in two's complement: the last byte has the sign. -/
def signed : List UInt8 → Int
  | [] => 0
  | [b] => if b.toNat < 128 then b.toNat else b.toNat - 256
  | b :: bs => b.toNat + 256 * signed bs

/-- The `k` bytes at the front, as a signed immediate. -/
def immediate (bs : List UInt8) (k : Nat) : Option Int := (sliceAt bs 0 k).map signed

/-- The mod-reg-rm byte and what belongs to it: the number in its reg field,
its operand, and how many bytes they take. Of the memory operands it knows a
base register with or without an index, and no displacement or an 8-bit one. -/
def modrm (rex : Rex) : List UInt8 → Option (Nat × Operand × Nat)
  | [] => none
  | m :: rest =>
    let mode := m.toNat / 64
    let reg := m.toNat / 8 % 8
    let rm := m.toNat % 8
    if mode = 3 then some (reg, .reg (.ofCode (rm + 8 * rex.b)), 1)
    else if mode = 2 then none
    else if rm = 4 then
      match rest with
      | [] => none
      | s :: rest =>
        let base := s.toNat % 8
        let index := s.toNat / 8 % 8 + 8 * rex.x
        if mode = 0 ∧ base = 5 then none
        else do
          let disp ← if mode = 1 then immediate rest 1 else some 0
          let ix := if index = 4 then none else some (Reg.ofCode index, 2 ^ (s.toNat / 64))
          some (reg, .mem ⟨.ofCode (base + 8 * rex.b), ix, disp⟩, 2 + mode)
    else if mode = 0 ∧ rm = 5 then none
    else do
      let disp ← if mode = 1 then immediate rest 1 else some 0
      some (reg, .mem ⟨.ofCode (rm + 8 * rex.b), none, disp⟩, 1 + mode)

/-- `op r/m, r` on a register operand. -/
def decodeAlu (op : AluOp) (rex : Rex) (rest : List UInt8) : Option (Instr × Nat) := do
  match ← modrm rex rest with
  | (reg, .reg dst, n) => some (.alu op rex.size dst (.reg (.ofCode (reg + 8 * rex.r))), 1 + n)
  | (_, .mem _, _) => none

/-- The operation in the reg field of the opcodes 81 and 83. -/
def groupOp : Nat → Option AluOp
  | 0 => some .add
  | 4 => some .and
  | 5 => some .sub
  | 6 => some .xor
  | 7 => some .cmp
  | _ => none

/-- `op r/m, imm` on a register operand, with an immediate of `k` bytes. -/
def decodeGroup (rex : Rex) (rest : List UInt8) (k : Nat) : Option (Instr × Nat) := do
  match ← modrm rex rest with
  | (reg, .reg dst, n) =>
    let op ← groupOp reg
    let v ← immediate (rest.drop n) k
    some (.alu op rex.size dst (.imm v), 1 + n + k)
  | (_, .mem _, _) => none

/-- `imul r, r/m, imm` on a register operand, with an immediate of `k` bytes. -/
def decodeImul (rex : Rex) (rest : List UInt8) (k : Nat) : Option (Instr × Nat) := do
  match ← modrm rex rest with
  | (reg, .reg src, n) =>
    let v ← immediate (rest.drop n) k
    some (.imul rex.size (.ofCode (reg + 8 * rex.r)) src v, 1 + n + k)
  | (_, .mem _, _) => none

def condOf : Nat → Option Cond
  | 2 => some .b
  | 3 => some .ae
  | 4 => some .e
  | 5 => some .ne
  | _ => none

/-- The opcodes that follow the escape byte 0F. -/
def decodeEscape (rex : Rex) : List UInt8 → Option (Instr × Nat)
  | [] => none
  | op :: rest =>
    if op.toNat / 16 = 8 then do
      let c ← condOf (op.toNat % 16)
      let rel ← immediate rest 4
      some (.jcc c rel, 6)
    else do
      match op.toNat, ← modrm rex rest with
      | 0xB6, (reg, .mem a, n) => some (.loadByte (.ofCode (reg + 8 * rex.r)) a, 2 + n)
      | 0x18, (0, .mem a, n) => some (.prefetch a, 2 + n)
      | _, _ => none

/-- The instruction after its REX prefix, and how many bytes it takes. -/
def decodeOp (rex : Rex) : List UInt8 → Option (Instr × Nat)
  | [] => none
  | op :: rest =>
    let reg8 := Reg.ofCode (op.toNat % 8 + 8 * rex.b)
    match op.toNat with
    | 0x0F => decodeEscape rex rest
    | 0x01 => decodeAlu .add rex rest
    | 0x29 => decodeAlu .sub rex rest
    | 0x31 => decodeAlu .xor rex rest
    | 0x39 => decodeAlu .cmp rex rest
    | 0x25 => do
      let v ← immediate rest 4
      some (.alu .and rex.size .rax (.imm v), 5)
    | 0xF7 => do
      match ← modrm rex rest with
      | (0, .reg dst, n) =>
        let v ← immediate (rest.drop n) 4
        some (.alu .test rex.size dst (.imm v), 5 + n)
      | _ => none
    | 0x81 => decodeGroup rex rest 4
    | 0x83 => decodeGroup rex rest 1
    | 0x69 => decodeImul rex rest 4
    | 0x6B => decodeImul rex rest 1
    | 0x89 => do
      match ← modrm rex rest, rex.size with
      | (reg, .reg dst, n), sz => some (.mov sz dst (.ofCode (reg + 8 * rex.r)), 1 + n)
      | (reg, .mem a, n), .b32 => some (.store a (.ofCode (reg + 8 * rex.r)), 1 + n)
      | (_, .mem _, _), .b64 => none
    | 0x8B => do
      match ← modrm rex rest, rex.size with
      | (reg, .reg src, n), sz => some (.mov sz (.ofCode (reg + 8 * rex.r)) src, 1 + n)
      | (reg, .mem a, n), .b32 => some (.load (.ofCode (reg + 8 * rex.r)) a, 1 + n)
      | (_, .mem _, _), .b64 => none
    | 0xFF => do
      match ← modrm rex rest with
      | (0, .reg dst, n) => some (.inc rex.size dst, 1 + n)
      | _ => none
    | 0xC3 => some (.ret, 1)
    | n =>
      if n / 8 = 10 then some (.push reg8, 1)
      else if n / 8 = 11 then some (.pop reg8, 1)
      else if n / 8 = 23 ∧ rex.w = 1 then do
        let bs ← sliceAt rest 0 8
        some (.movImm reg8 (UInt64.ofNat (ofLeBytes bs)), 9)
      else if n / 16 = 7 then do
        let c ← condOf (n % 16)
        let rel ← immediate rest 1
        some (.jcc c rel, 2)
      else none

/-- The instruction at the front of the bytes, and how many bytes it takes. -/
def decode : List UInt8 → Option (Instr × Nat)
  | [] => none
  | b :: rest =>
    if b.toNat / 16 = 4 then
      (decodeOp (Rex.ofByte (b.toNat % 16)) rest).map fun (i, n) => (i, n + 1)
    else decodeOp Rex.none (b :: rest)

/-! ## The effect of an instruction -/

/-- The address that an operand names in a state. -/
def ea (s : State) (a : Addr) : UInt64 :=
  s.regs a.base + (match a.index with
    | some (r, scale) => s.regs r * UInt64.ofNat scale
    | none => 0) + UInt64.ofInt a.disp

def src32 (s : State) : Src → UInt32
  | .reg r => s.get32 r
  | .imm v => UInt32.ofInt v

def src64 (s : State) : Src → UInt64
  | .reg r => s.regs r
  | .imm v => UInt64.ofInt v

def alu32 (op : AluOp) (s : State) (dst : Reg) (y : UInt32) : State :=
  let x := s.get32 dst
  match op with
  | .add => (s.set32 dst (x + y)).flags (some (decide (x + y < x))) (some (x + y == 0))
  | .sub => (s.set32 dst (x - y)).flags (some (decide (x < y))) (some (x == y))
  | .cmp => s.flags (some (decide (x < y))) (some (x == y))
  | .xor => (s.set32 dst (x ^^^ y)).flags (some false) (some (x ^^^ y == 0))
  | .and => (s.set32 dst (x &&& y)).flags (some false) (some (x &&& y == 0))
  | .test => s.flags (some false) (some (x &&& y == 0))

def alu64 (op : AluOp) (s : State) (dst : Reg) (y : UInt64) : State :=
  let x := s.regs dst
  match op with
  | .add => (s.set dst (x + y)).flags (some (decide (x + y < x))) (some (x + y == 0))
  | .sub => (s.set dst (x - y)).flags (some (decide (x < y))) (some (x == y))
  | .cmp => s.flags (some (decide (x < y))) (some (x == y))
  | .xor => (s.set dst (x ^^^ y)).flags (some false) (some (x ^^^ y == 0))
  | .and => (s.set dst (x &&& y)).flags (some false) (some (x &&& y == 0))
  | .test => s.flags (some false) (some (x &&& y == 0))

/-- Whether the jump is taken, where the flag it reads is defined. -/
def holds (s : State) : Cond → Option Bool
  | .b => s.cf
  | .ae => s.cf.map (!·)
  | .e => s.zf
  | .ne => s.zf.map (!·)

/-- The effect of an instruction on a state whose `pc` is already past it. A
multiplication leaves the two flags undefined, and `inc` keeps the carry. -/
def exec : Instr → State → Option State
  | .push r, s => some (s.withStack (s.regs r :: s.stack))
  | .pop r, s =>
    match s.stack with
    | [] => none
    | v :: rest => some ((s.set r v).withStack rest)
  | .ret, _ => none
  | .mov .b32 dst src, s => some (s.set32 dst (s.get32 src))
  | .mov .b64 dst src, s => some (s.set dst (s.regs src))
  | .movImm dst v, s => some (s.set dst v)
  | .load dst a, s => (s.mem.read32 (ea s a).toNat).map (s.set32 dst)
  | .loadByte dst a, s => (s.mem.read8 (ea s a).toNat).map fun b => s.set32 dst b.toUInt32
  | .store a src, s =>
    (s.mem.write (ea s a).toNat (le32 (s.get32 src))).map s.withMem
  | .alu op .b32 dst src, s => some (alu32 op s dst (src32 s src))
  | .alu op .b64 dst src, s => some (alu64 op s dst (src64 s src))
  | .imul .b32 dst src v, s => some ((s.set32 dst (s.get32 src * UInt32.ofInt v)).flags none none)
  | .imul .b64 dst src v, s => some ((s.set dst (s.regs src * UInt64.ofInt v)).flags none none)
  | .inc .b32 r, s => some ((s.set32 r (s.get32 r + 1)).flags s.cf (some (s.get32 r + 1 == 0)))
  | .inc .b64 r, s => some ((s.set r (s.regs r + 1)).flags s.cf (some (s.regs r + 1 == 0)))
  | .jcc c rel, s =>
    match holds s c with
    | none => none
    | some true => some (s.goto ((s.pc : Int) + rel).toNat)
    | some false => some s
  | .prefetch _, s => some s

/-! ## Runs -/

inductive Outcome where
  | next (s : State)
  /-- The code returned to its caller. -/
  | done (s : State)
  | fault

/-- One step. A `ret` goes back to the caller when all that was pushed is popped. -/
def step (code : List UInt8) (s : State) : Outcome :=
  match decode (code.drop s.pc) with
  | none => .fault
  | some (.ret, _) => if s.stack = [] then .done s else .fault
  | some (i, n) =>
    match exec i (s.goto (s.pc + n)) with
    | some s' => .next s'
    | none => .fault

/-- At most `fuel` steps. -/
def run (code : List UInt8) : Nat → State → Outcome
  | 0, s => .next s
  | fuel + 1, s =>
    match step code s with
    | .next s' => run code fuel s'
    | o => o

/-- The memory that an instruction reads or writes. A prefetch touches none. -/
inductive Access where
  | read (a k : Nat)
  | write (a k : Nat)
deriving DecidableEq, Repr

def accessOf (s : State) : Instr → Option Access
  | .load _ a => some (.read (ea s a).toNat 4)
  | .loadByte _ a => some (.read (ea s a).toNat 1)
  | .store a _ => some (.write (ea s a).toNat 4)
  | _ => none

/-- The access that the next step from the state makes. -/
def access (code : List UInt8) (s : State) : Option Access :=
  (decode (code.drop s.pc)).bind fun i => accessOf s i.1

/-- `n` steps lead from `s` to `t`, and each access on the way is one that the
instruction at its place may make. -/
inductive Steps (code : List UInt8) (Allowed : Nat → Access → Prop) : Nat → State → State → Prop
  | refl (s : State) : Steps code Allowed 0 s s
  | head {n : Nat} {s u t : State} :
      (∀ a, access code s = some a → Allowed s.pc a) → step code s = .next u →
      Steps code Allowed n u t → Steps code Allowed (n + 1) s t

section

variable {code : List UInt8} {Allowed : Nat → Access → Prop}

theorem Steps.trans {m n : Nat} {s u t : State} (h1 : Steps code Allowed m s u)
    (h2 : Steps code Allowed n u t) : Steps code Allowed (m + n) s t := by
  induction h1 with
  | refl s => rw [Nat.zero_add]; exact h2
  | head ha hs _ ih => rw [Nat.succ_add]; exact .head ha hs (ih h2)

/-- Steps that lead to a return are a run that is done, with any fuel to spare. -/
theorem Steps.run_done {n : Nat} {s t : State} (h : Steps code Allowed n s t)
    (hd : step code t = .done t) (fuel : Nat) (hf : n < fuel) : run code fuel s = .done t := by
  induction h generalizing fuel with
  | refl s =>
    obtain ⟨k, rfl⟩ : ∃ k, fuel = k + 1 := ⟨fuel - 1, by omega⟩
    simp only [run, hd]
  | head _ hs _ ih =>
    obtain ⟨k, rfl⟩ : ∃ k, fuel = k + 1 := ⟨fuel - 1, by omega⟩
    simp only [run, hs]
    exact ih hd k (by omega)

/-- A run that ends in a return goes through no other states than these: each of
them makes an access that it may make, and none is a fault. -/
theorem Steps.run_within {n : Nat} {s t : State} (h : Steps code Allowed n s t)
    (hd : step code t = .done t) (ht : access code t = none) (k : Nat) :
    run code k s ≠ .fault ∧
      ∀ u, run code k s = .next u → ∀ a, access code u = some a → Allowed u.pc a := by
  induction h generalizing k with
  | refl s =>
    cases k with
    | zero =>
      refine ⟨fun h => (by cases h), ?_⟩
      rintro _ ⟨⟩ a ha
      rw [ht] at ha
      cases ha
    | succ k =>
      have hrun : run code (k + 1) s = .done s := by simp only [run, hd]
      rw [hrun]
      exact ⟨fun h => (by cases h), fun _ h => (by cases h)⟩
  | @head n s u t ha hs _ ih =>
    cases k with
    | zero =>
      refine ⟨fun h => (by cases h), ?_⟩
      rintro _ ⟨⟩
      exact ha
    | succ k =>
      have hrun : run code (k + 1) s = run code k u := by simp only [run, hs]
      rw [hrun]
      exact ih hd ht k

/-- Within `bound` steps the code comes from `s` to a state with `P`. -/
def Reaches (code : List UInt8) (Allowed : Nat → Access → Prop) (bound : Nat) (s : State)
    (P : State → Prop) : Prop :=
  ∃ n t, n ≤ bound ∧ Steps code Allowed n s t ∧ P t

theorem Reaches.here {P : State → Prop} {s : State} (h : P s) (bound : Nat) :
    Reaches code Allowed bound s P :=
  ⟨0, s, Nat.zero_le _, .refl s, h⟩

theorem Reaches.bind {P Q : State → Prop} {s : State} {m n : Nat}
    (h : Reaches code Allowed m s P) (hq : ∀ t, P t → Reaches code Allowed n t Q) :
    Reaches code Allowed (m + n) s Q := by
  obtain ⟨i, t, hi, h1, hp⟩ := h
  obtain ⟨j, u, hj, h2, hu⟩ := hq t hp
  exact ⟨i + j, u, by omega, h1.trans h2, hu⟩

theorem Reaches.mono {P Q : State → Prop} {s : State} {m n : Nat}
    (h : Reaches code Allowed m s P) (hle : m ≤ n) (hq : ∀ t, P t → Q t) :
    Reaches code Allowed n s Q := by
  obtain ⟨i, t, hi, h1, hp⟩ := h
  exact ⟨i, t, by omega, h1, hq t hp⟩

/-- One instruction in front. -/
theorem Reaches.step {P : State → Prop} {s u : State} {bound k : Nat} {i : Instr}
    (hd : decode (code.drop s.pc) = some (i, k)) (ha : ∀ a, accessOf s i = some a → Allowed s.pc a)
    (he : exec i (s.goto (s.pc + k)) = some u) (h : Reaches code Allowed bound u P) :
    Reaches code Allowed (bound + 1) s P := by
  obtain ⟨n, t, hn, hst, hp⟩ := h
  refine ⟨n + 1, t, by omega, .head ?_ ?_ hst, hp⟩
  · intro a hacc
    simp only [access, hd, Option.bind_some] at hacc
    exact ha a hacc
  · simp only [x64.step, hd]
    cases i with
    | ret => cases he
    | _ => simp only [he]

end

/-! ## What single instructions do -/

theorem exec_load {s : State} {dst : Reg} {a : Addr} {w : UInt32}
    (h : s.mem.read32 (ea s a).toNat = some w) : exec (.load dst a) s = some (s.set32 dst w) := by
  simp only [exec, h, Option.map_some]

theorem exec_loadByte {s : State} {dst : Reg} {a : Addr} {b : UInt8}
    (h : s.mem.read8 (ea s a).toNat = some b) :
    exec (.loadByte dst a) s = some (s.set32 dst b.toUInt32) := by
  simp only [exec, h, Option.map_some]

theorem exec_store {s : State} {src : Reg} {a : Addr} {m : Memory}
    (h : s.mem.write (ea s a).toNat (le32 (s.get32 src)) = some m) :
    exec (.store a src) s = some (s.withMem m) := by
  simp only [exec, h, Option.map_some]

theorem exec_jcc_taken {s : State} {c : Cond} {rel : Int} (h : holds s c = some true) :
    exec (.jcc c rel) s = some (s.goto ((s.pc : Int) + rel).toNat) := by
  simp only [exec, h]

theorem exec_jcc_passed {s : State} {c : Cond} {rel : Int} (h : holds s c = some false) :
    exec (.jcc c rel) s = some s := by
  simp only [exec, h]

namespace Memory

theorem read_head {r : Region} {rs : Memory} {a k : Nat} (h1 : r.base ≤ a)
    (h2 : a + k ≤ r.base + r.bytes.length) : read (r :: rs) a k = sliceAt r.bytes (a - r.base) k :=
  if_pos (by simp [Region.covers, h1, h2])

theorem read_tail {r : Region} {rs : Memory} {a k : Nat}
    (h : a < r.base ∨ r.base + r.bytes.length < a + k) : read (r :: rs) a k = read rs a k :=
  if_neg (by simp [Region.covers]; omega)

theorem write_head {r : Region} {rs : Memory} {a : Nat} {new : List UInt8} (h1 : r.base ≤ a)
    (h2 : a + new.length ≤ r.base + r.bytes.length) (hw : r.writable = true) :
    write (r :: rs) a new = some ({ r with bytes := overwrite r.bytes (a - r.base) new } :: rs) := by
  rw [write, if_pos (by simp [Region.covers, h1, h2]), if_pos hw]

theorem write_tail {r : Region} {rs : Memory} {a : Nat} {new : List UInt8}
    (h : a < r.base ∨ r.base + r.bytes.length < a + new.length) :
    write (r :: rs) a new = (write rs a new).map (r :: ·) := by
  rw [write, if_neg (by simp [Region.covers]; omega)]

end Memory

/-! ## Listings -/

/-- One line of a listing: where the instruction stands, how many bytes it
takes, what it does, and its bytes. -/
structure Line where
  pc : Nat
  size : Nat
  instr : Instr
  bytes : List UInt8

/-- The lines stand one after the other from `pc` on, and each decodes to what
it says, whatever follows it. -/
def Listed : Nat → List Line → Prop
  | _, [] => True
  | pc, l :: ls => l.pc = pc ∧ l.bytes.length = l.size ∧
      (∀ rest, decode (l.bytes ++ rest) = some (l.instr, l.size)) ∧ Listed (pc + l.size) ls

theorem Listed.decode_line {pc : Nat} {ls : List Line} (h : Listed pc ls) {k : Nat} {l : Line}
    (hl : ls[k]? = some l) (post : List UInt8) :
    pc ≤ l.pc ∧ decode ((ls.flatMap Line.bytes ++ post).drop (l.pc - pc)) =
      some (l.instr, l.size) := by
  induction ls generalizing pc k with
  | nil => simp at hl
  | cons m ls ih =>
    obtain ⟨h1, h2, h3, h4⟩ := h
    rw [List.flatMap_cons, List.append_assoc]
    cases k with
    | zero =>
      obtain rfl : m = l := by simpa using hl
      rw [h1, Nat.sub_self, List.drop_zero]
      exact ⟨Nat.le_refl _, h3 _⟩
    | succ k =>
      obtain ⟨g1, g2⟩ := ih h4 (by simpa using hl)
      refine ⟨by omega, ?_⟩
      rw [show l.pc - pc = m.bytes.length + (l.pc - (pc + m.size)) by omega,
        List.drop_length_add_append]
      exact g2

end x64
