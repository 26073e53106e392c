-- A process that compiles, scans and drops in any order, with any number of
-- threads: builds go call by call, scans instruction by instruction, and the
-- kernel and the rest of the program do what they like in between.
import Mathlib.Logic.Function.Basic
import Dfajit.BuildSteps
import Dfajit.Agreement

namespace dfajit.process

open error table codegen table_scan jit_run dfa agreement words x64 mapping build_steps

/-! ## The process -/

/-- What a build is given: a table that passes the checks of the compiler, without
links or with those that `from_patterns` made for it. -/
structure Job where
  table : TransitionTable
  output_links : List UInt32
  checked : Checked table output_links
  runs : RunsWith table output_links

/-- What a scan finds with the table of a job. -/
def Job.found (job : Job) (input : List UInt8) : List Match :=
  table_scan.found job.table job.output_links input

/-- Where a build stands, and the buffer that it made. -/
inductive Status where
  | building (prog : Prog (Res Buffer))
  | live (buffer : Buffer)
  | failed (stop : Stop)
  | dropping (prog : Prog Unit)
  | dropped
  | crashed

/-- A call of emitted code, as `scan_jit` and `scan_count_jit` make it: which
buffer, the address of its code, the two slices, and what the caller left in the
other registers. -/
structure Call (ι : Type) where
  buffer : ι
  func : Nat
  input_ptr : Nat
  input : List UInt8
  match_ptr : Nat
  slots : List Match
  regs : Reg → UInt64

/-- What a thread that scans does. A running call has the steps that it took, and
its registers, flags and stack. -/
inductive Thread (ι : Type) where
  | idle
  | running (c : Call ι) (steps : Nat) (s : State)
  | returned (c : Call ι) (count : Nat) (written : List Match)
  | crashed

structure Process (ι κ : Type) where
  /-- The memory of the rest of the program. -/
  heap : Memory
  maps : Space
  build : ι → Status
  /-- What the kernel has answered to each build. -/
  answers : ι → List Answer
  thread : κ → Thread ι

namespace Call

variable {ι : Type}

def input_region (c : Call ι) : Region := ⟨c.input_ptr, c.input, false⟩

def match_region (c : Call ι) : Region := ⟨c.match_ptr, matchBytes c.slots, true⟩

/-- The registers at the call. -/
def entry (c : Call ι) : State where
  regs := ExecutableBuffer.entry_regs c.regs c.input_ptr c.input.length c.match_ptr c.slots.length
  cf := none
  zf := none
  pc := 0
  stack := []
  mem := []

/-- What the call writes to is apart from all that another call borrows. -/
def Exclusive (c d : Call ι) : Prop :=
  c.match_region.Apart d.input_region ∧ c.match_region.Apart d.match_region

end Call

/-- The code at an address, if that may be executed. -/
def fetch (maps : Space) (func : Nat) : Option (List UInt8) :=
  if func ∈ maps.executable then (maps.mem.find? (·.base == func)).map (·.bytes) else none

namespace Process

variable {ι κ : Type} [DecidableEq ι] [DecidableEq κ]

def setBuild (p : Process ι κ) (i : ι) (b : Status) : Process ι κ :=
  { p with build := Function.update p.build i b }

/-- The kernel has answered this too. -/
def note (p : Process ι κ) (i : ι) (answers : List Answer) : Process ι κ :=
  { p with answers := Function.update p.answers i (p.answers i ++ answers) }

def setThread (p : Process ι κ) (k : κ) (t : Thread ι) : Process ι κ :=
  { p with thread := Function.update p.thread k t }

/-- All memory of the process. -/
def mem (p : Process ι κ) : Memory := p.heap ++ p.maps.mem

/-- The memory after a step of a thread. -/
def withMem (p : Process ι κ) (m : Memory) : Process ι κ :=
  { p with heap := m.take p.heap.length, maps := { p.maps with mem := m.drop p.heap.length } }

/-- One instruction of a running call. -/
def instruction (p : Process ι κ) (k : κ) (c : Call ι) (steps : Nat) (s : State) : Process ι κ :=
  match fetch p.maps c.func with
  | none => p.setThread k .crashed
  | some code =>
    match x64.step code (s.withMem p.mem) with
    | .next u => (p.withMem u.mem).setThread k (.running c (steps + 1) (u.withMem []))
    | .done u =>
      let bytes := (u.mem.read c.match_ptr (16 * c.slots.length)).getD []
      p.setThread k (.returned c (u.regs .rax).toNat (readMatches bytes c.slots.length))
    | .fault => p.setThread k .crashed

/-- What the types of the source promise of a call: the slices are memory of the
program, none is longer than `isize::MAX`, and nobody else uses the match slots. -/
structure Borrows (p : Process ι κ) (c : Call ι) : Prop where
  input_len : c.input.length < 2 ^ 63
  input_fits : c.input_ptr + c.input.length ≤ 2 ^ 64
  matches_fit : c.match_ptr + 16 * c.slots.length ≤ 2 ^ 64
  reads : p.heap.Shows c.input_region
  writes : p.heap.Shows c.match_region
  own : c.match_region.Apart c.input_region
  others : ∀ k d n s, p.thread k = .running d n s → c.Exclusive d ∧ d.Exclusive c

/-- What the rest of the program may do to its memory while calls run: all that
the calls borrow stays. -/
structure Leaves (p : Process ι κ) (heap : Memory) : Prop where
  separate : (heap ++ p.maps.mem).Separate
  inputs : ∀ k c n s, p.thread k = .running c n s → heap.Shows c.input_region
  slots : ∀ k c n s, p.thread k = .running c n s → ∀ bytes,
    p.heap.Shows ⟨c.match_ptr, bytes, true⟩ → bytes.length = 16 * c.slots.length →
    heap.Shows ⟨c.match_ptr, bytes, true⟩

end Process

section

variable {ι κ : Type} [DecidableEq ι] [DecidableEq κ]

/-- What can happen next. -/
inductive Next (p : Process ι κ) : Process ι κ → Prop
  | build_call {i : ι} {prog prog' : Prog (Res Buffer)} {answers : List Answer} {maps : Space} :
      p.build i = .building prog → Step p.heap p.maps prog answers maps prog' →
      Next p (({ p with maps }.note i answers).setBuild i (.building prog'))
  | build_crash {i : ι} {prog : Prog (Res Buffer)} :
      p.build i = .building prog → Crashes p.maps prog → Next p (p.setBuild i .crashed)
  | built {i : ι} {buffer : Buffer} :
      p.build i = .building (.ret (.ok buffer)) → Next p (p.setBuild i (.live buffer))
  | refused {i : ι} {stop : Stop} :
      p.build i = .building (.ret (.error stop)) → Next p (p.setBuild i (.failed stop))
  /-- A buffer is dropped when no call borrows it. -/
  | drop {i : ι} {buffer : Buffer} :
      p.build i = .live buffer → (∀ k c n s, p.thread k = .running c n s → c.buffer ≠ i) →
      Next p (p.setBuild i (.dropping (drop buffer)))
  | drop_call {i : ι} {prog prog' : Prog Unit} {answers : List Answer} {maps : Space} :
      p.build i = .dropping prog → Step p.heap p.maps prog answers maps prog' →
      Next p (({ p with maps }.note i answers).setBuild i (.dropping prog'))
  | drop_crash {i : ι} {prog : Prog Unit} :
      p.build i = .dropping prog → Crashes p.maps prog → Next p (p.setBuild i .crashed)
  | dropped {i : ι} :
      p.build i = .dropping (.ret ()) → Next p (p.setBuild i .dropped)
  | call {k : κ} {c : Call ι} {buffer : Buffer} :
      (∀ d n s, p.thread k ≠ .running d n s) → p.build c.buffer = .live buffer →
      buffer.is_jit = true → c.func = buffer.ptr → p.Borrows c →
      Next p (p.setThread k (.running c 0 c.entry))
  | instruction {k : κ} {c : Call ι} {n : Nat} {s : State} :
      p.thread k = .running c n s → Next p (p.instruction k c n s)
  | elsewhere {heap : Memory} : p.Leaves heap → Next p { p with heap }

/-- The process before the first call: the builds of these tables are to come. -/
def start (jobs : ι → Job) (heap : Memory) : Process ι κ where
  heap
  maps := .empty
  build i := .building (build_steps.compile_x86_64 (jobs i).table (jobs i).output_links)
  answers _ := []
  thread _ := .idle

inductive Reachable (jobs : ι → Job) : Process ι κ → Prop
  | start {heap : Memory} : heap.Separate → Reachable jobs (start jobs heap)
  | next {p q : Process ι κ} : Reachable jobs p → Next p q → Reachable jobs q

end

/-! ## A call alone -/

/-- The instructions that a call takes at most. -/
def bound (job : Job) (input : List UInt8) : Nat :=
  22 + 16 * input.length + 23 * (job.found input).length

section

variable {job : Job} {os : Os} {code : ExecutableBuffer}
  {input : List UInt8} {slots : List Match} {place : Placement code input slots.length} {n : Nat}
  {u v : State}

theorem few_states (h : codegen.compile_x86_64 os job.table job.output_links = .ok code)
    (hjit : code.is_jit = true) : job.table.state_count ≤ MAX_JIT_STATES := by
  by_contra hbig
  have hs := job.table.states_le
  unfold MAX_STATES at hs
  unfold codegen.compile_x86_64 at h
  rw [if_neg (by omega), if_pos (by omega)] at h
  rw [(engines.interprets_of_fallback h).2] at hjit
  cases hjit

/-- A call alone does not come to a fault, and takes no more instructions than the
bound. -/
theorem solo_runs (h : codegen.compile_x86_64 os job.table job.output_links = .ok code)
    (hjit : code.is_jit = true) (hrun : run code.image n (code.entry input slots place) = .next v) :
    n ≤ bound job input ∧ x64.step code.image v ≠ .fault := by
  have hfew := few_states h hjit
  obtain ⟨hl, hsp⟩ := job.runs.linked job.checked
  obtain ⟨post, hc⟩ := compile_x86_64_jit hfew job.checked.bytes h
  obtain ⟨m, τ, hm, hsteps, hret, hacc, _⟩ :=
    call_leads hc hl hfew (engines.Checked.links_le job.checked) hsp input slots place
  refine ⟨?_, ?_⟩
  · by_contra hlong
    unfold bound Job.found at hlong
    rw [hsteps.run_done hret n (by omega)] at hrun
    cases hrun
  · have hnext := (hsteps.run_within hret hacc (n + 1)).1
    rw [run_succ hrun] at hnext
    exact hnext

/-- A call alone returns what the scanner of the table finds. -/
theorem solo_returns (h : codegen.compile_x86_64 os job.table job.output_links = .ok code)
    (hjit : code.is_jit = true) (hrun : run code.image n (code.entry input slots place) = .next v)
    (hdone : x64.step code.image v = .done u) :
    (u.regs .rax).toNat = (job.found input).length ∧
      readMatches ((u.mem.read place.match_ptr (16 * slots.length)).getD []) slots.length =
        fill id slots (job.found input) := by
  have hfew := few_states h hjit
  obtain ⟨hl, hsp⟩ := job.runs.linked job.checked
  have hshort := hsp input
  have hlen := place.input_len
  obtain ⟨post, hc⟩ := compile_x86_64_jit hfew job.checked.bytes h
  obtain ⟨m, τ, _, hsteps, hret, _, hmem, hax⟩ :=
    call_leads hc hl hfew (engines.Checked.links_le job.checked) hsp input slots place
  have hend : run code.image (n + 1) (code.entry input slots place) = .done u := by
    rw [run_succ hrun, hdone]
  have h1 := run_done_mono hend (Nat.le_max_left (n + 1) (m + 1))
  have h2 := hsteps.run_done hret (max (n + 1) (m + 1)) (by omega)
  obtain rfl : u = τ := Outcome.done.inj (h1.symm.trans h2)
  unfold Job.found
  refine ⟨?_, ?_⟩
  · rw [hax, u64_toNat (by omega)]
  · obtain ⟨f, hf⟩ : ∃ f, f = hc.frame hl hfew (engines.Checked.links_le job.checked) place :=
      ⟨_, rfl⟩
    have hkept : (fill id slots (table_scan.found job.table job.output_links input)).length =
        f.slots := by
      rw [fill_length, hf]
      rfl
    have hback := f.read_matches hkept
    have hmp : f.mp = place.match_ptr := by rw [hf]; rfl
    have hslots : f.slots = slots.length := by rw [hf]; rfl
    rw [hmem, ← hf]
    rw [hmp, hslots] at hback
    exact hback

end

/-! ## The invariant -/

section

variable {ι κ : Type}

/-- What a build has done fits what it owns. -/
def Keeps (job : Job) (log : List Answer) (own : Space) : Status → Prop
  | .building prog => wp (Built job.table job.output_links) log own prog
  | .live buffer => Built job.table job.output_links (.ok buffer) log own
  | .failed stop => Built job.table job.output_links (.error stop) log own
  | .dropping prog => wp (fun _ _ left => left = .empty) log own prog
  | .dropped => own = .empty
  | .crashed => False

/-- The view of a running call: the code, the input and the match slots. -/
def view (c : Call ι) (code : ExecutableBuffer) (bytes : List UInt8) : Memory :=
  [⟨code.ptr, code.image, false⟩, c.input_region, ⟨c.match_ptr, bytes, true⟩]

/-- A running call is where it would be alone, and its view is part of the memory. -/
structure InFlight (jobs : ι → Job) (heap : Memory) (own : ι → Space)
    (build : ι → Status) (c : Call ι) (n : Nat) (s : State) : Prop where
  alone : ∃ (os : Os) (code : ExecutableBuffer) (place : Placement code c.input c.slots.length)
      (v : State) (bytes : List UInt8),
    codegen.compile_x86_64 os (jobs c.buffer).table (jobs c.buffer).output_links = .ok code ∧
    code.is_jit = true ∧ build c.buffer = .live (.of code) ∧ c.func = code.ptr ∧
    own c.buffer = one_locked code.ptr code.image ∧ place.match_ptr = c.match_ptr ∧
    run code.image n (code.entry c.input c.slots place) = .next v ∧ s = v.withMem [] ∧
    v.mem = view c code bytes ∧ bytes.length = 16 * c.slots.length ∧
    heap.Shows ⟨c.match_ptr, bytes, true⟩
  input : heap.Shows c.input_region
  apart : c.match_region.Apart c.input_region

/-- What a thread does fits the memory and the builds. -/
def Fits (jobs : ι → Job) (heap : Memory) (own : ι → Space)
    (build : ι → Status) : Thread ι → Prop
  | .idle => True
  | .running c n s => InFlight jobs heap own build c n s
  | .returned c count written =>
    count = ((jobs c.buffer).found c.input).length ∧
      written = fill id c.slots ((jobs c.buffer).found c.input)
  | .crashed => False

structure Inv (jobs : ι → Job) (own : ι → Space) (p : Process ι κ) :
    Prop where
  ok : Ok p.heap p.maps
  owns : ∀ i, Owns p.maps (own i)
  disjoint : ∀ i j, i ≠ j → Disjoint (own i) (own j)
  all : ∀ r ∈ p.maps.mem, ∃ i, r ∈ (own i).mem
  given : ∀ i, Given (p.answers i) (own i)
  build : ∀ i, Keeps (jobs i) (p.answers i) (own i) (p.build i)
  thread : ∀ k, Fits jobs p.heap own p.build (p.thread k)
  exclusive : ∀ k l c d m n s u, k ≠ l → p.thread k = .running c m s →
    p.thread l = .running d n u → c.Exclusive d

/-! ## Steps of a build -/

section

variable {jobs : ι → Job} {own : ι → Space} {p : Process ι κ} {i : ι} {k : κ} {c : Call ι}
  {n : Nat} {s : State}

theorem Inv.kept (h : Inv jobs own p) {b : Status} (hi : p.build i = b) :
    Keeps (jobs i) (p.answers i) (own i) b := by
  rw [← hi]
  exact h.build i

/-- A build without a live buffer has no call that runs. -/
theorem Inv.not_running (h : Inv jobs own p) {b : Status} (hi : p.build i = b)
    (hb : ∀ buffer, b ≠ .live buffer) : ∀ k c n s, p.thread k = .running c n s → c.buffer ≠ i := by
  rintro k c n s hk rfl
  have hfits := h.thread k
  rw [hk] at hfits
  obtain ⟨_, _, _, _, _, _, _, hlive, _⟩ := hfits.alone
  rw [hi] at hlive
  exact hb _ hlive

/-- What one build does leaves the other builds and the running calls alone. -/
theorem Inv.moves [DecidableEq ι] (h : Inv jobs own p) {maps own' : Space} {b : Status}
    {answers : List Answer} (hm : Moves p.heap p.maps (own i) maps own')
    (hg : Given (p.answers i) (own i) → Given (p.answers i ++ answers) own')
    (hb : Keeps (jobs i) (p.answers i ++ answers) own' b)
    (hfree : ∀ k c n s, p.thread k = .running c n s → c.buffer ≠ i) :
    Inv jobs (Function.update own i own')
      (({ p with maps }.note i answers).setBuild i b) := by
  have hother : ∀ j, j ≠ i → Owns maps (own j) ∧ Disjoint own' (own j) :=
    fun j hj => hm.others (own j) (h.owns j) (h.disjoint i j hj.symm)
  refine ⟨hm.ok, ?_, ?_, ?_, ?_, ?_, ?_, h.exclusive⟩
  · intro j
    by_cases hj : j = i
    · subst hj
      rw [Function.update_self]
      exact hm.owns
    · rw [Function.update_of_ne hj]
      exact (hother j hj).1
  · intro j l hjl
    by_cases hj : j = i
    · subst hj
      rw [Function.update_self, Function.update_of_ne hjl.symm]
      exact (hother l hjl.symm).2
    · rw [Function.update_of_ne hj]
      by_cases hl : l = i
      · subst hl
        rw [Function.update_self]
        exact (hother j hj).2.symm
      · rw [Function.update_of_ne hl]
        exact h.disjoint j l hjl
  · intro r hr
    rcases hm.rest r hr with hr | ⟨hr, hnot⟩
    · exact ⟨i, by rw [Function.update_self]; exact hr⟩
    · obtain ⟨j, hj⟩ := h.all r hr
      refine ⟨j, ?_⟩
      rw [Function.update_of_ne]
      · exact hj
      · rintro rfl
        exact hnot hj
  · intro j
    simp only [Process.setBuild, Process.note]
    by_cases hj : j = i
    · subst hj
      rw [Function.update_self, Function.update_self]
      exact hg (h.given j)
    · rw [Function.update_of_ne hj, Function.update_of_ne hj]
      exact h.given j
  · intro j
    simp only [Process.setBuild, Process.note]
    by_cases hj : j = i
    · subst hj
      rw [Function.update_self, Function.update_self, Function.update_self]
      exact hb
    · rw [Function.update_of_ne hj, Function.update_of_ne hj, Function.update_of_ne hj]
      exact h.build j
  · intro k
    have hfits := h.thread k
    simp only [Process.setBuild, Process.note]
    cases hk : p.thread k with
    | running c n s =>
      have hne := hfree k c n s hk
      rw [hk] at hfits
      refine ⟨?_, hfits.input, hfits.apart⟩
      rw [Function.update_of_ne hne, Function.update_of_ne hne]
      exact hfits.alone
    | _ =>
      rw [hk] at hfits
      exact hfits

theorem note_nil [DecidableEq ι] (p : Process ι κ) (i : ι) : p.note i [] = p := by
  unfold Process.note
  rw [List.append_nil, Function.update_eq_self]

/-- A build that only changes its own state. -/
theorem Inv.keeps [DecidableEq ι] (h : Inv jobs own p) {b : Status}
    (hb : Keeps (jobs i) (p.answers i) (own i) b)
    (hfree : ∀ k c n s, p.thread k = .running c n s → c.buffer ≠ i) :
    Inv jobs (Function.update own i (own i)) (p.setBuild i b) := by
  have hmoves : Inv jobs (Function.update own i (own i)) ((p.note i []).setBuild i b) :=
    h.moves (.refl h.ok (h.owns i)) Given.mono (by rw [List.append_nil]; exact hb) hfree
  rw [note_nil] at hmoves
  exact hmoves

/-- A buffer that a build made can be dropped. -/
theorem keeps_drop {job : Job} {log : List Answer} {own : Space} {buffer : Buffer}
    (h : Built job.table job.output_links (.ok buffer) log own) :
    Keeps job log own (.dropping (drop buffer)) := by
  cases h with
  | ok _ hptr hlen => exact drop_wp hptr hlen log

/-! ## Steps of a call -/

/-- What the rest of the program does to its memory. -/
theorem Inv.elsewhere (h : Inv jobs own p) {heap : Memory} (hl : p.Leaves heap) :
    Inv jobs own { p with heap } := by
  refine ⟨⟨hl.separate, h.ok.sized, h.ok.locked⟩, h.owns, h.disjoint, h.all, h.given, h.build,
    ?_, h.exclusive⟩
  intro k
  have hfits := h.thread k
  simp only
  cases hk : p.thread k with
  | running c n s =>
    rw [hk] at hfits
    obtain ⟨os, code, place, v, bytes, h1, h2, h3, h4, h5, h6, h7, h8, h9, hlen, hshows⟩ :=
      hfits.alone
    exact ⟨⟨os, code, place, v, bytes, h1, h2, h3, h4, h5, h6, h7, h8, h9, hlen,
      hl.slots k c n s hk bytes hshows hlen⟩, hl.inputs k c n s hk, hfits.apart⟩
  | _ =>
    rw [hk] at hfits
    exact hfits

/-- A thread that begins or ends a call. -/
theorem Inv.setThread [DecidableEq κ] (h : Inv jobs own p) {t : Thread ι}
    (ht : Fits jobs p.heap own p.build t)
    (hex : ∀ c m s, t = .running c m s → ∀ l d n u, l ≠ k → p.thread l = .running d n u →
      c.Exclusive d ∧ d.Exclusive c) :
    Inv jobs own (p.setThread k t) := by
  refine ⟨h.ok, h.owns, h.disjoint, h.all, h.given, h.build, ?_, ?_⟩
  · intro l
    simp only [Process.setThread]
    by_cases hl : l = k
    · subst hl
      rw [Function.update_self]
      exact ht
    · rw [Function.update_of_ne hl]
      exact h.thread l
  · intro l j c d m n s u hlj hl hj
    simp only [Process.setThread] at hl hj
    by_cases hlk : l = k
    · subst hlk
      rw [Function.update_self] at hl
      rw [Function.update_of_ne hlj.symm] at hj
      exact (hex c m s hl j d n u hlj.symm hj).1
    · rw [Function.update_of_ne hlk] at hl
      by_cases hjk : j = k
      · subst hjk
        rw [Function.update_self] at hj
        exact (hex d n u hj l c m s hlk hl).2
      · rw [Function.update_of_ne hjk] at hj
        exact h.exclusive l j c d m n s u hlj hl hj

/-- The call of a live buffer, with the slices where the types say. -/
def Process.Borrows.place (hb : p.Borrows c) {code : ExecutableBuffer}
    (hok : Ok p.heap p.maps) (hmem : ⟨code.ptr, code.image, false⟩ ∈ p.maps.mem) :
    Placement code c.input c.slots.length where
  input_ptr := c.input_ptr
  match_ptr := c.match_ptr
  regs := c.regs
  input_len := hb.input_len
  input_fits := hb.input_fits
  matches_fit := hb.matches_fit
  code_input := by
    have h := hb.reads.apart hok.separate hmem
    unfold Region.Apart Region.Avoids Call.input_region at h
    rw [code.image_len] at h
    unfold Apart
    simp only at h
    omega
  code_matches := by
    have h := hb.writes.apart hok.separate hmem
    unfold Region.Apart Region.Avoids Call.match_region at h
    rw [code.image_len, matchBytes_length] at h
    unfold Apart
    simp only at h
    omega
  input_matches := by
    have h := hb.own
    unfold Region.Apart Region.Avoids Call.match_region Call.input_region at h
    rw [matchBytes_length] at h
    unfold Apart
    simp only at h
    omega

theorem Inv.call (h : Inv jobs own p) {buffer : Buffer} (hlive : p.build c.buffer = .live buffer)
    (hjit : buffer.is_jit = true) (hfunc : c.func = buffer.ptr) (hb : p.Borrows c) :
    Fits jobs p.heap own p.build (.running c 0 c.entry) := by
  have hkeeps := h.build c.buffer
  rw [hlive] at hkeeps
  obtain ⟨o, ho⟩ : ∃ o, o = own c.buffer := ⟨_, rfl⟩
  rw [← ho] at hkeeps
  cases hkeeps with
  | @ok _ code hcode hptr hlen =>
    obtain ⟨os, hos⟩ := hcode.possible
    have hmem : ⟨code.ptr, code.image, false⟩ ∈ p.maps.mem := by
      refine (h.owns c.buffer).mem _ ?_
      rw [← ho]
      exact List.mem_singleton.mpr rfl
    refine ⟨⟨os, code, hb.place h.ok hmem, code.entry c.input c.slots (hb.place h.ok hmem),
      matchBytes c.slots, hcode.returns os hos, hjit, hlive, hfunc, ho.symm, rfl, rfl, rfl, rfl,
      matchBytes_length _, hb.writes⟩, hb.reads, hb.own⟩

theorem fetch_eq {maps : Space} {busy : Memory} (h : Ok busy maps) {base : Nat}
    {bytes : List UInt8} {w : Bool} (hr : ⟨base, bytes, w⟩ ∈ maps.mem)
    (hx : base ∈ maps.executable) : fetch maps base = some bytes := by
  have hsome : (maps.mem.find? (·.base == base)).isSome := by
    rw [List.find?_isSome]
    exact ⟨_, hr, beq_self_eq_true base⟩
  obtain ⟨q, hq⟩ := Option.isSome_iff_exists.mp hsome
  have hqmem := List.mem_of_find?_eq_some hq
  have hqbase : q.base = base := by simpa using List.find?_some hq
  have hone := eq_of_base h.mem_separate hr hqmem (h.sized _ hr) (h.sized q hqmem) hqbase
  unfold fetch
  rw [if_pos hx, hq, hone]
  rfl

/-- What one instruction of a call does to the memory of the program. -/
structure Writes (heap : Memory) (c : Call ι) (code : ExecutableBuffer) (heap' w : Memory) :
    Prop where
  view : ∃ bytes, w = view c code bytes ∧ bytes.length = 16 * c.slots.length ∧
    heap'.Shows ⟨c.match_ptr, bytes, true⟩
  places : heap'.places = heap.places
  others : ∀ r : Region, r.Apart c.match_region → heap.Shows r → heap'.Shows r

theorem apart_slots {r : Region} {bytes : List UInt8} (hlen : bytes.length = 16 * c.slots.length)
    (h : r.Apart c.match_region) : r.Apart ⟨c.match_ptr, bytes, true⟩ := by
  unfold Region.Apart Region.Avoids Call.match_region at h
  unfold Region.Apart Region.Avoids
  rw [matchBytes_length] at h
  simp only [hlen] at h ⊢
  exact h

/-- An instruction writes to the match slots and to nothing else. -/
theorem writes_of_same {heap m M w : Memory} {code : ExecutableBuffer} {bytes : List UInt8}
    (hsep : Memory.Separate (heap ++ m)) (hlen : bytes.length = 16 * c.slots.length)
    (hshows : heap.Shows ⟨c.match_ptr, bytes, true⟩)
    (h : SameWrite (heap ++ m) (view c code bytes) M w) :
    ∃ heap', M = heap' ++ m ∧ Writes heap c code heap' w := by
  cases h with
  | kept => exact ⟨heap, rfl, ⟨bytes, rfl, hlen, hshows⟩, rfl, fun _ _ hr => hr⟩
  | @wrote a new _ _ hnew hw hM =>
    obtain ⟨pre, r, post, hsplit, hc, hwr, rfl⟩ := Memory.write_some hw
    have hlast : pre = [⟨code.ptr, code.image, false⟩, c.input_region] ∧
        r = ⟨c.match_ptr, bytes, true⟩ ∧ post = [] := by
      unfold view at hsplit
      rcases pre with _ | ⟨x, _ | ⟨y, _ | ⟨z, pre⟩⟩⟩
      · obtain ⟨rfl, _⟩ := List.cons.inj hsplit
        cases hwr
      · obtain ⟨_, hsplit⟩ := List.cons.inj hsplit
        obtain ⟨rfl, _⟩ := List.cons.inj hsplit
        cases hwr
      · simp only [List.cons_append, List.nil_append, List.cons.injEq] at hsplit
        obtain ⟨rfl, rfl, rfl, rfl⟩ := hsplit
        exact ⟨rfl, rfl, rfl⟩
      · simp at hsplit
    obtain ⟨rfl, rfl, rfl⟩ := hlast
    have hheap := (List.pairwise_append.mp hsep).1
    have hone : Memory.write [⟨c.match_ptr, bytes, true⟩] a new =
        some [Region.patch ⟨c.match_ptr, bytes, true⟩ a new] := by
      rw [Memory.write, if_pos hc, if_pos rfl]
      rfl
    have hsees : heap.Sees [⟨c.match_ptr, bytes, true⟩] := by
      intro q hq
      rw [List.mem_singleton.mp hq]
      exact hshows
    obtain ⟨heap', hwrite, hsees'⟩ := hsees.write hheap (List.pairwise_singleton _ _) hnew hone
    have hall := Memory.write_append (n := m) hwrite
    rw [hM, Option.some.injEq] at hall
    refine ⟨heap', hall, ⟨_, rfl, ?_, hsees' _ (List.mem_singleton.mpr rfl)⟩,
      Memory.write_places hwrite, ?_⟩
    · exact (Region.patch_length hc).trans hlen
    · intro r hr hs
      refine hs.write hwrite ?_
      have hap := apart_slots hlen hr
      rw [Region.covers_iff] at hc
      unfold Region.Apart at hap
      unfold Region.Avoids at hap ⊢
      simp only at hc hap
      omega

theorem places_length {m n : Memory} (h : m.places = n.places) : m.length = n.length := by
  have hlen := congrArg List.length h
  simpa [Memory.places] using hlen

/-- A running call goes on, and no other call sees it. -/
theorem Inv.goes_on [DecidableEq κ] (h : Inv jobs own p) {heap w : Memory} {code : ExecutableBuffer}
    (hk : p.thread k = .running c n s) (hw : Writes p.heap c code heap w) {u : State}
    (hfits : InFlight jobs heap own p.build c (n + 1) u) :
    Inv jobs own (({ p with heap } : Process ι κ).setThread k (.running c (n + 1) u)) := by
  have hplaces : Memory.places (heap ++ p.maps.mem) = Memory.places (p.heap ++ p.maps.mem) := by
    have hp := hw.places
    unfold Memory.places at hp ⊢
    rw [List.map_append, hp, List.map_append]
  refine ⟨⟨Memory.separate_of_places hplaces h.ok.separate, h.ok.sized, h.ok.locked⟩, h.owns,
    h.disjoint, h.all, h.given, h.build, ?_, ?_⟩
  · intro l
    simp only [Process.setThread]
    by_cases hl : l = k
    · subst hl
      rw [Function.update_self]
      exact hfits
    rw [Function.update_of_ne hl]
    have hfl := h.thread l
    cases hd : p.thread l with
    | running d m v =>
      rw [hd] at hfl
      obtain ⟨hinput, hmatch⟩ := h.exclusive k l c d n m s v (Ne.symm hl) hk hd
      obtain ⟨os, code', place, v', bytes, h1, h2, h3, h4, h5, h6, h7, h8, h9, hlen, hshows⟩ :=
        hfl.alone
      refine ⟨⟨os, code', place, v', bytes, h1, h2, h3, h4, h5, h6, h7, h8, h9, hlen, ?_⟩, ?_,
        hfl.apart⟩
      · exact hw.others _ (apart_slots hlen hmatch).symm hshows
      · exact hw.others _ hinput.symm hfl.input
    | _ =>
      rw [hd] at hfl
      exact hfl
  · intro l j c' d m m' v v' hlj hl hj
    have hold : ∀ x c₁ m₁ v₁, Function.update p.thread k (.running c (n + 1) u) x =
        .running c₁ m₁ v₁ → ∃ m₂ v₂, p.thread x = .running c₁ m₂ v₂ := by
      intro x c₁ m₁ v₁ hx
      by_cases hxk : x = k
      · subst hxk
        rw [Function.update_self] at hx
        cases hx
        exact ⟨n, s, hk⟩
      · rw [Function.update_of_ne hxk] at hx
        exact ⟨m₁, v₁, hx⟩
    obtain ⟨m₁, v₁, hl⟩ := hold l c' m v hl
    obtain ⟨m₂, v₂, hj⟩ := hold j d m' v' hj
    exact h.exclusive l j c' d m₁ m₂ v₁ v₂ hlj hl hj

/-- The memory of the process after a step that changed the part of the program. -/
theorem withMem_append (p : Process ι κ) {heap : Memory} (h : heap.places = p.heap.places) :
    p.withMem (heap ++ p.maps.mem) = { p with heap } := by
  have hlen := places_length h
  unfold Process.withMem
  rw [← hlen, List.take_left, List.drop_left]

theorem view_separate {heap m : Memory} {code : ExecutableBuffer} {bytes : List UInt8}
    (hsep : Memory.Separate (heap ++ m)) (hcode : ⟨code.ptr, code.image, false⟩ ∈ m)
    (hinput : heap.Shows c.input_region) (hlen : bytes.length = 16 * c.slots.length)
    (hshows : heap.Shows ⟨c.match_ptr, bytes, true⟩) (hap : c.match_region.Apart c.input_region) :
    (view c code bytes).Separate := by
  refine List.pairwise_cons.mpr ⟨?_, List.pairwise_cons.mpr ⟨?_, List.pairwise_singleton _ _⟩⟩
  · intro r hr
    simp only [List.mem_cons, List.not_mem_nil, or_false] at hr
    rcases hr with rfl | rfl
    · exact (hinput.apart hsep hcode).symm
    · exact (hshows.apart hsep hcode).symm
  · intro r hr
    rw [List.mem_singleton.mp hr]
    exact apart_slots hlen hap.symm

/-- One instruction of a running call. -/
theorem Inv.instruction [DecidableEq κ] (h : Inv jobs own p) (hk : p.thread k = .running c n s) :
    Inv jobs own (p.instruction k c n s) := by
  have hfits := h.thread k
  rw [hk] at hfits
  obtain ⟨os, code, place, v, bytes, hcode, hjit, hlive, hfunc, hown, hmp, hrun, rfl, hmem, hlen,
    hshows⟩ := hfits.alone
  obtain ⟨_, hsafe⟩ := solo_runs hcode hjit hrun
  have hin : (⟨code.ptr, code.image, false⟩ : Region) ∈ p.maps.mem := by
    refine (h.owns c.buffer).mem _ ?_
    rw [hown]
    exact List.mem_singleton.mpr rfl
  have hx : code.ptr ∈ p.maps.executable := by
    refine ((h.owns c.buffer).executable _ ?_).1
    rw [hown]
    exact List.mem_singleton.mpr rfl
  have hsees : p.mem.Sees v.mem := by
    rw [hmem]
    intro r hr
    simp only [view, List.mem_cons, List.not_mem_nil, or_false] at hr
    rcases hr with rfl | rfl | rfl
    · exact Memory.shows_of_mem (List.mem_append_right _ hin)
    · exact hfits.input.append_right _
    · exact hshows.append_right _
  have hvsep : v.mem.Separate := by
    rw [hmem]
    exact view_separate h.ok.separate hin hfits.input hlen hshows hfits.apart
  unfold Process.instruction
  rw [hfunc, fetch_eq h.ok hin hx]
  simp only [withMem_withMem]
  cases hstep : x64.step code.image v with
  | fault => exact absurd hstep hsafe
  | next u =>
    obtain ⟨U, hU, M, rfl, hsame, _⟩ := step_matched hsees h.ok.separate hvsep hstep
    rw [hU]
    simp only [State.withMem_mem, withMem_withMem]
    rw [hmem] at hsame
    obtain ⟨heap, rfl, hw⟩ := writes_of_same h.ok.separate hlen hshows hsame
    rw [withMem_append p hw.places]
    refine h.goes_on hk hw ?_
    obtain ⟨bytes', hview, hlen', hshows'⟩ := hw.view
    refine ⟨⟨os, code, place, u, bytes', hcode, hjit, hlive, hfunc, hown, hmp, ?_, rfl, hview,
      hlen', hshows'⟩, hw.others _ hfits.apart.symm hfits.input, hfits.apart⟩
    rw [run_succ hrun, hstep]
  | done u =>
    obtain ⟨rfl, hU⟩ := step_done_matched (m := p.mem) hstep
    rw [hU]
    simp only [State.withMem_mem, State.withMem_regs]
    refine h.setThread ?_ (fun _ _ _ he => nomatch he)
    obtain ⟨hcount, hwritten⟩ := solo_returns hcode hjit hrun hstep
    refine ⟨hcount, ?_⟩
    rw [← hwritten, hmp]
    by_cases hzero : c.slots.length = 0
    · rw [hzero]
      rfl
    have hread : u.mem.read c.match_ptr (16 * c.slots.length) = some bytes := by
      rw [Memory.read_of_mem (r := ⟨c.match_ptr, bytes, true⟩) hvsep (by rw [hmem]; simp [view])
        (by rw [Region.covers_iff]; simp only; omega) (by omega)]
      simp only [Nat.sub_self, sliceAt]
      rw [if_pos (by omega), List.drop_zero, List.take_of_length_le (by omega)]
    rw [hread, hsees.read h.ok.separate (by omega) hread]

end

end

end dfajit.process
