-- Programs that get memory from the kernel, fill it, make it executable and give
-- it back, one call after the other. Several of them share one address space. A
-- program that is correct on the mappings of its own, whatever the kernel
-- answers, is so beside the others.
import Mathlib.Data.List.Pairwise
import Dfajit.Lib.Views

namespace mapping

open words x64

/-! ## Address spaces -/

/-- The mappings of a process. -/
structure Space where
  mem : Memory
  /-- Where the mappings stand that may be executed. -/
  executable : List Nat

/-- No mapping has an address in `base .. base + size`, which the address space
has room for. -/
def Free (m : Memory) (base size : Nat) : Prop :=
  0 < base ∧ base + size ≤ 2 ^ 64 ∧ ∀ r ∈ m, r.Avoids base size

/-- The region is the mapping `ptr .. ptr + size`. -/
def isAt (ptr size : Nat) (r : Region) : Bool := r.base == ptr && r.bytes.length == size

namespace Space

def empty : Space := ⟨[], []⟩

/-- Fresh pages are zero, to read and write. -/
def map (sp : Space) (base size : Nat) : Space :=
  { sp with mem := ⟨base, List.replicate size 0, true⟩ :: sp.mem }

def copy (sp : Space) (dst : Nat) (bytes : List UInt8) : Option Space :=
  (sp.mem.write dst bytes).map fun mem => { sp with mem }

def lock (ptr size : Nat) (r : Region) : Region :=
  if isAt ptr size r then { r with writable := false } else r

/-- The mapping is from now on to read and execute. It must be a whole one. -/
def protect (sp : Space) (ptr size : Nat) : Option Space :=
  if sp.mem.any (isAt ptr size) then
    some ⟨sp.mem.map (lock ptr size), ptr :: sp.executable⟩
  else none

/-- The mapping is gone. It must be a whole one. -/
def unmap (sp : Space) (ptr size : Nat) : Option Space :=
  if sp.mem.any (isAt ptr size) then
    some ⟨sp.mem.filter (!isAt ptr size ·), sp.executable.filter (· != ptr)⟩
  else none

end Space

/-! ## Programs -/

/-- A program of memory calls. After a call that the kernel may refuse comes the
rest of the program for each answer. -/
inductive Prog (α : Type) where
  | ret (a : α)
  | mmap (size : Nat) (rest : Except String Nat → Prog α)
  | copy (dst : Nat) (bytes : List UInt8) (rest : Prog α)
  | mprotect (ptr size : Nat) (rest : Except String Unit → Prog α)
  | munmap (ptr size : Nat) (rest : Prog α)

/-- A call that the kernel may refuse, with its answer. -/
inductive Answer where
  | mmap (size : Nat) (answer : Except String Nat)
  | mprotect (ptr size : Nat) (answer : Except String Unit)

/-- One call, with what the kernel answered. `busy` is the memory that is in use for
other things. -/
inductive Step {α : Type} (busy : Memory) :
    Space → Prog α → List Answer → Space → Prog α → Prop
  | mapped {sp : Space} {size base : Nat} {rest : Except String Nat → Prog α} :
      Free (busy ++ sp.mem) base size →
      Step busy sp (.mmap size rest) [.mmap size (.ok base)] (sp.map base size) (rest (.ok base))
  | not_mapped {sp : Space} {size : Nat} {rest : Except String Nat → Prog α} {e : String} :
      Step busy sp (.mmap size rest) [.mmap size (.error e)] sp (rest (.error e))
  | copied {sp sp' : Space} {dst : Nat} {bytes : List UInt8} {rest : Prog α} :
      sp.copy dst bytes = some sp' → Step busy sp (.copy dst bytes rest) [] sp' rest
  | protected_ {sp sp' : Space} {ptr size : Nat} {rest : Except String Unit → Prog α} :
      sp.protect ptr size = some sp' →
      Step busy sp (.mprotect ptr size rest) [.mprotect ptr size (.ok ())] sp' (rest (.ok ()))
  | not_protected {sp : Space} {ptr size : Nat} {rest : Except String Unit → Prog α} {e : String} :
      Step busy sp (.mprotect ptr size rest) [.mprotect ptr size (.error e)] sp (rest (.error e))
  | unmapped {sp sp' : Space} {ptr size : Nat} {rest : Prog α} :
      sp.unmap ptr size = some sp' → Step busy sp (.munmap ptr size rest) [] sp' rest

/-- The next call is one that the mappings do not allow: a write to memory that is
not mapped or not writable, or a call on what is no mapping. -/
def Crashes {α : Type} (sp : Space) : Prog α → Prop
  | .copy dst bytes _ => sp.copy dst bytes = none
  | .mprotect ptr size _ => sp.protect ptr size = none
  | .munmap ptr size _ => sp.unmap ptr size = none
  | _ => False

/-- Alone in its own mappings, the program makes only calls that they allow and
ends with `Q`, whatever the kernel answers. `Q` is told all that it has answered. -/
def wp {α : Type} (Q : α → List Answer → Space → Prop) : List Answer → Space → Prog α → Prop
  | log, own, .ret a => Q a log own
  | log, own, .mmap size rest =>
    0 < size ∧ (∀ e, wp Q (log ++ [.mmap size (.error e)]) own (rest (.error e))) ∧
      ∀ base, Free own.mem base size →
        wp Q (log ++ [.mmap size (.ok base)]) (own.map base size) (rest (.ok base))
  | log, own, .copy dst bytes rest =>
    0 < bytes.length ∧ ∃ own', own.copy dst bytes = some own' ∧ wp Q log own' rest
  | log, own, .mprotect ptr size rest =>
    (∀ e, wp Q (log ++ [.mprotect ptr size (.error e)]) own (rest (.error e))) ∧
      ∃ own', own.protect ptr size = some own' ∧
        wp Q (log ++ [.mprotect ptr size (.ok ())]) own' (rest (.ok ()))
  | log, own, .munmap ptr size rest =>
    ∃ own', own.unmap ptr size = some own' ∧ wp Q log own' rest

/-! ## Part of an address space -/

/-- The address space beside the memory that is in use for other things: nothing
overlaps, and what is executable cannot be written. -/
structure Ok (busy : Memory) (sp : Space) : Prop where
  separate : (busy ++ sp.mem).Separate
  sized : ∀ r ∈ sp.mem, 0 < r.bytes.length
  locked : ∀ b ∈ sp.executable, ∃ r ∈ sp.mem, r.base = b ∧ r.writable = false

/-- `own` is a part of `sp`. -/
structure Owns (sp own : Space) : Prop where
  mem : ∀ r ∈ own.mem, r ∈ sp.mem
  executable : ∀ b ∈ own.executable, b ∈ sp.executable ∧ ∃ r ∈ own.mem, r.base = b
  separate : own.mem.Separate

def Disjoint (own other : Space) : Prop := ∀ r ∈ own.mem, ∀ q ∈ other.mem, r.Apart q

/-- Each mapping is one that the kernel gave. -/
def Given (log : List Answer) (own : Space) : Prop :=
  ∀ r ∈ own.mem, Answer.mmap r.bytes.length (.ok r.base) ∈ log

section

variable {busy : Memory} {sp sp' own own' other : Space} {r q : Region} {base size ptr : Nat}
  {dst : Nat} {bytes : List UInt8}

theorem isAt_iff : isAt ptr size r = true ↔ r.base = ptr ∧ r.bytes.length = size := by
  simp [isAt]

theorem Disjoint.symm (h : Disjoint own other) : Disjoint other own :=
  fun r hr q hq => (h q hq r hr).symm

theorem Owns.empty (sp : Space) : Owns sp .empty :=
  ⟨(fun _ h => nomatch h), (fun _ h => nomatch h), List.Pairwise.nil⟩

theorem disjoint_empty (own : Space) : Disjoint own .empty := fun _ _ _ h => nomatch h

theorem Ok.mem_separate (h : Ok busy sp) : sp.mem.Separate :=
  (List.pairwise_append.mp h.separate).2.1

instance : Std.Symm Region.Apart := ⟨fun _ _ h => h.symm⟩

theorem apart_of_ne {m : Memory} (hm : m.Separate) (hr : r ∈ m) (hq : q ∈ m) (hne : r ≠ q) :
    r.Apart q :=
  hm.forall hr hq hne

theorem not_apart_self (hr : 0 < r.bytes.length) : ¬ r.Apart r := by
  unfold Region.Apart Region.Avoids
  omega

/-- In memory without overlaps a region with bytes is told by its base. -/
theorem eq_of_base {m : Memory} (hm : m.Separate) (hr : r ∈ m) (hq : q ∈ m)
    (h1 : 0 < r.bytes.length) (h2 : 0 < q.bytes.length) (hbase : q.base = r.base) : q = r := by
  by_contra hne
  have hap := apart_of_ne hm hq hr hne
  unfold Region.Apart Region.Avoids at hap
  omega

/-- No mapping can be both written and executed. -/
theorem Ok.write_xor_execute (h : Ok busy sp) (hr : r ∈ sp.mem) (hx : r.base ∈ sp.executable) :
    r.writable = false := by
  obtain ⟨q, hq, hbase, hw⟩ := h.locked r.base hx
  rw [eq_of_base h.mem_separate hq hr (h.sized q hq) (h.sized r hr) hbase.symm]
  exact hw

/-! ## What a call does to the whole space and to its owner -/

/-- The whole space after a call that its owner may make alone: the owner has what
it would have alone, the other owners have what they had, and all else stays. -/
structure Moves (busy : Memory) (sp own sp' own' : Space) : Prop where
  ok : Ok busy sp'
  owns : Owns sp' own'
  others : ∀ other, Owns sp other → Disjoint own other → Owns sp' other ∧ Disjoint own' other
  rest : ∀ r ∈ sp'.mem, r ∈ own'.mem ∨ (r ∈ sp.mem ∧ r ∉ own.mem)

theorem Moves.refl (h : Ok busy sp) (hown : Owns sp own) : Moves busy sp own sp own :=
  ⟨h, hown, fun _ ho hd => ⟨ho, hd⟩, fun r hr =>
    (Classical.em (r ∈ own.mem)).imp id fun hn => ⟨hr, hn⟩⟩

/-! ### A new mapping -/

theorem Free.mono {m n : Memory} (h : Free m base size) (hsub : ∀ r ∈ n, r ∈ m) :
    Free n base size :=
  ⟨h.1, h.2.1, fun r hr => h.2.2 r (hsub r hr)⟩

theorem moves_map (h : Ok busy sp) (hown : Owns sp own) (hsize : 0 < size)
    (hfree : Free (busy ++ sp.mem) base size) :
    Moves busy sp own (sp.map base size) (own.map base size) := by
  obtain ⟨_, _, hclear⟩ := hfree
  have hnew : ∀ r ∈ busy ++ sp.mem, Region.Apart ⟨base, List.replicate size 0, true⟩ r := by
    intro r hr
    refine Region.Apart.symm ?_
    have := hclear r hr
    unfold Region.Apart
    simpa using this
  refine ⟨⟨?_, ?_, ?_⟩, ⟨?_, ?_, ?_⟩, ?_, ?_⟩
  · exact (List.pairwise_middle (fun h => h.symm)).mpr (List.pairwise_cons.mpr ⟨hnew, h.separate⟩)
  · intro r hr
    rcases List.mem_cons.mp hr with rfl | hr
    · simpa using hsize
    · exact h.sized r hr
  · intro b hb
    obtain ⟨r, hr, hrest⟩ := h.locked b hb
    exact ⟨r, List.mem_cons_of_mem _ hr, hrest⟩
  · intro r hr
    rcases List.mem_cons.mp hr with rfl | hr
    · exact List.mem_cons_self
    · exact List.mem_cons_of_mem _ (hown.mem r hr)
  · intro b hb
    obtain ⟨hsp, r, hr, hbase⟩ := hown.executable b hb
    exact ⟨hsp, r, List.mem_cons_of_mem _ hr, hbase⟩
  · refine List.pairwise_cons.mpr ⟨?_, hown.separate⟩
    intro r hr
    exact hnew r (List.mem_append_right _ (hown.mem r hr))
  · intro other ho hd
    refine ⟨⟨?_, ho.executable, ho.separate⟩, ?_⟩
    · intro r hr
      exact List.mem_cons_of_mem _ (ho.mem r hr)
    · intro r hr q hq
      rcases List.mem_cons.mp hr with rfl | hr
      · exact hnew q (List.mem_append_right _ (ho.mem q hq))
      · exact hd r hr q hq
  · intro r hr
    rcases List.mem_cons.mp hr with rfl | hr
    · exact Or.inl List.mem_cons_self
    · by_cases hin : r ∈ own.mem
      · exact Or.inl (List.mem_cons_of_mem _ hin)
      · exact Or.inr ⟨hr, hin⟩

/-! ### A mapping that changes -/

/-- The space has `new` in place of the mapping `r`, and `x` says whether what
stands there may be executed. -/
structure Changes (sp : Space) (r : Region) (new : Option Region) (x : Prop) (sp' : Space) :
    Prop where
  old : r ∈ sp.mem
  place : ∀ q, new = some q → q.base = r.base ∧ q.bytes.length = r.bytes.length
  mem : ∀ q, q ∈ sp'.mem ↔ new = some q ∨ (q ∈ sp.mem ∧ q ≠ r)
  executable : ∀ b, b ∈ sp'.executable ↔ (b = r.base ∧ x) ∨ (b ∈ sp.executable ∧ b ≠ r.base)
  separate : ∀ busy : Memory, (busy ++ sp.mem).Separate → (busy ++ sp'.mem).Separate

/-- The same change in a space and in a part of it. -/
theorem moves_change {new : Option Region} {x : Prop} (h : Ok busy sp) (hown : Owns sp own)
    (hx : x → ∃ q, new = some q ∧ q.writable = false) (hc : Changes own r new x own')
    (hC : Changes sp r new x sp') : Moves busy sp own sp' own' := by
  have hr := h.sized r hC.old
  refine ⟨⟨hC.separate busy h.separate, ?_, ?_⟩, ⟨?_, ?_, ?_⟩, ?_, ?_⟩
  · intro q hq
    rcases (hC.mem q).mp hq with hq | ⟨hq, _⟩
    · rw [(hC.place q hq).2]
      exact hr
    · exact h.sized q hq
  · intro b hb
    rcases (hC.executable b).mp hb with ⟨rfl, hxr⟩ | ⟨hb, hne⟩
    · obtain ⟨q, hq, hw⟩ := hx hxr
      exact ⟨q, (hC.mem q).mpr (Or.inl hq), (hC.place q hq).1, hw⟩
    · obtain ⟨q, hq, hbase, hw⟩ := h.locked b hb
      refine ⟨q, (hC.mem q).mpr (Or.inr ⟨hq, ?_⟩), hbase, hw⟩
      rintro rfl
      exact hne hbase.symm
  · intro q hq
    refine (hC.mem q).mpr (((hc.mem q).mp hq).imp id ?_)
    exact fun hq => ⟨hown.mem q hq.1, hq.2⟩
  · intro b hb
    rcases (hc.executable b).mp hb with ⟨rfl, hxr⟩ | ⟨hb, hne⟩
    · obtain ⟨q, hq, _⟩ := hx hxr
      exact ⟨(hC.executable _).mpr (Or.inl ⟨rfl, hxr⟩), q, (hc.mem q).mpr (Or.inl hq),
        (hC.place q hq).1⟩
    · obtain ⟨hsp, q, hq, rfl⟩ := hown.executable b hb
      refine ⟨(hC.executable _).mpr (Or.inr ⟨hsp, hne⟩), q, (hc.mem q).mpr (Or.inr ⟨hq, ?_⟩), rfl⟩
      rintro rfl
      exact hne rfl
  · exact hc.separate [] hown.separate
  · intro other ho hd
    have hne : ∀ q ∈ other.mem, q ≠ r := by
      rintro q hq rfl
      exact not_apart_self hr (hd q hc.old q hq)
    refine ⟨⟨?_, ?_, ho.separate⟩, ?_⟩
    · intro q hq
      exact (hC.mem q).mpr (Or.inr ⟨ho.mem q hq, hne q hq⟩)
    · intro b hb
      obtain ⟨hsp, q, hq, rfl⟩ := ho.executable b hb
      refine ⟨(hC.executable _).mpr (Or.inr ⟨hsp, ?_⟩), q, hq, rfl⟩
      intro hbase
      have hqsp := ho.mem q hq
      exact hne q hq (eq_of_base h.mem_separate hC.old hqsp hr (h.sized q hqsp) hbase)
    · intro p hp q hq
      rcases (hc.mem p).mp hp with hp | ⟨hp, _⟩
      · obtain ⟨hbase, hlen⟩ := hc.place p hp
        have hap := hd r hc.old q hq
        unfold Region.Apart Region.Avoids at hap ⊢
        rw [hbase, hlen]
        exact hap
      · exact hd p hp q hq
  · intro q hq
    rcases (hC.mem q).mp hq with hq | ⟨hq, hne⟩
    · exact Or.inl ((hc.mem q).mpr (Or.inl hq))
    · by_cases hin : q ∈ own.mem
      · exact Or.inl ((hc.mem q).mpr (Or.inr ⟨hin, hne⟩))
      · exact Or.inr ⟨hq, hin⟩

/-- Memory without overlaps in which each region has bytes. -/
structure Tidy (m : Memory) : Prop where
  separate : m.Separate
  sized : ∀ r ∈ m, 0 < r.bytes.length

theorem Ok.tidy (h : Ok busy sp) : Tidy sp.mem := ⟨h.mem_separate, h.sized⟩

theorem Ok.tidy_part (h : Ok busy sp) (hown : Owns sp own) : Tidy own.mem :=
  ⟨hown.separate, fun r hr => h.sized r (hown.mem r hr)⟩

/-- A region of tidy memory stands there once. -/
theorem Tidy.once {pre post : Memory} (h : Tidy (pre ++ r :: post)) : r ∉ pre ∧ r ∉ post := by
  obtain ⟨_, hpost, hpre⟩ := List.pairwise_append.mp h.separate
  have hr := h.sized r (List.mem_append_right _ List.mem_cons_self)
  exact ⟨fun hin => not_apart_self hr (hpre r hin r List.mem_cons_self),
    fun hin => not_apart_self hr ((List.pairwise_cons.mp hpost).1 r hin)⟩

/-- A copy into a mapping that may be written, and so not executed. -/
theorem changes_copy (h : Tidy sp.mem) (hr : r ∈ sp.mem) (hc : r.covers dst bytes.length = true)
    (hbytes : 0 < bytes.length) (hw : r.writable = true) (hx : r.base ∉ sp.executable) :
    ∃ sp', sp.copy dst bytes = some sp' ∧ Changes sp r (some (r.patch dst bytes)) False sp' := by
  obtain ⟨pre, post, hsplit, hM⟩ := Memory.write_of_mem h.separate hr hc hbytes hw
  obtain ⟨hpre, hpost⟩ := Tidy.once (hsplit ▸ h)
  refine ⟨⟨pre ++ r.patch dst bytes :: post, sp.executable⟩, ?_, hr, ?_, ?_, ?_, ?_⟩
  · rw [Space.copy, hM]
    rfl
  · rintro q ⟨⟩
    exact ⟨rfl, Region.patch_length hc⟩
  · intro q
    rw [hsplit]
    simp only [List.mem_append, List.mem_cons, Option.some.injEq]
    constructor
    · rintro (hq | rfl | hq)
      · exact Or.inr ⟨Or.inl hq, fun he => hpre (he ▸ hq)⟩
      · exact Or.inl rfl
      · exact Or.inr ⟨Or.inr (Or.inr hq), fun he => hpost (he ▸ hq)⟩
    · rintro (rfl | ⟨hq | hq | hq, hne⟩)
      · exact Or.inr (Or.inl rfl)
      · exact Or.inl hq
      · exact absurd hq hne
      · exact Or.inr (Or.inr hq)
  · intro b
    simp only [and_false, false_or]
    exact ⟨fun hb => ⟨hb, fun he => hx (he ▸ hb)⟩, fun hb => hb.1⟩
  · intro busy hsep
    refine Memory.separate_of_places ?_ hsep
    have hplaces := Memory.write_places hM
    unfold Memory.places at hplaces ⊢
    rw [List.map_append, hplaces, List.map_append]

theorem any_isAt (hr : r ∈ sp.mem) (hat : isAt ptr size r = true) :
    sp.mem.any (isAt ptr size) = true :=
  List.any_eq_true.mpr ⟨r, hr, hat⟩

/-- The call finds the mapping, and no other. -/
theorem Tidy.isAt_iff (h : Tidy sp.mem) (hr : r ∈ sp.mem) (hat : isAt ptr size r = true)
    (hq : q ∈ sp.mem) : isAt ptr size q = true ↔ q = r := by
  constructor
  · intro hq'
    rw [mapping.isAt_iff] at hat hq'
    exact eq_of_base h.separate hr hq (h.sized r hr) (h.sized q hq) (hq'.1.trans hat.1.symm)
  · rintro rfl
    exact hat

theorem changes_protect (h : Tidy sp.mem) (hr : r ∈ sp.mem) (hat : isAt ptr size r = true) :
    ∃ sp', sp.protect ptr size = some sp' ∧
      Changes sp r (some { r with writable := false }) True sp' := by
  have hone := fun q (hq : q ∈ sp.mem) => h.isAt_iff hr hat hq
  have hbase := (isAt_iff.mp hat).1
  refine ⟨_, if_pos (any_isAt hr hat), hr, ?_, ?_, ?_, ?_⟩
  · rintro q ⟨⟩
    exact ⟨rfl, rfl⟩
  · intro q
    rw [List.mem_map, Option.some.injEq]
    constructor
    · rintro ⟨p, hp, rfl⟩
      unfold Space.lock
      split
      · rename_i hp'
        rw [(hone p hp).mp hp']
        exact Or.inl rfl
      · rename_i hp'
        exact Or.inr ⟨hp, fun he => hp' ((hone p hp).mpr he)⟩
    · rintro (rfl | ⟨hq, hne⟩)
      · exact ⟨r, hr, if_pos hat⟩
      · exact ⟨q, hq, if_neg fun he => hne ((hone q hq).mp he)⟩
  · intro b
    rw [List.mem_cons, ← hbase]
    by_cases hb : b = r.base
    · simp [hb]
    · simp [hb]
  · intro busy hsep
    have hmap : ∀ p q : Region, p.Apart q →
        (Space.lock ptr size p).Apart (Space.lock ptr size q) := by
      intro p q hpq
      unfold Space.lock
      split <;> split <;> exact hpq
    have hleft : ∀ p q : Region, p.Apart q → p.Apart (Space.lock ptr size q) := by
      intro p q hpq
      unfold Space.lock
      split <;> exact hpq
    obtain ⟨h1, h2, h3⟩ := List.pairwise_append.mp hsep
    refine List.pairwise_append.mpr ⟨h1, h2.map _ hmap, ?_⟩
    intro p hp q hq
    obtain ⟨o, ho, rfl⟩ := List.mem_map.mp hq
    exact hleft p o (h3 p hp o ho)

theorem changes_unmap (h : Tidy sp.mem) (hr : r ∈ sp.mem) (hat : isAt ptr size r = true) :
    ∃ sp', sp.unmap ptr size = some sp' ∧ Changes sp r none False sp' := by
  have hone := fun q (hq : q ∈ sp.mem) => h.isAt_iff hr hat hq
  have hbase := (isAt_iff.mp hat).1
  refine ⟨_, if_pos (any_isAt hr hat), hr, ?_, ?_, ?_, ?_⟩
  · rintro q ⟨⟩
  · intro q
    rw [List.mem_filter]
    constructor
    · rintro ⟨hq, hat'⟩
      refine Or.inr ⟨hq, fun he => ?_⟩
      rw [(hone q hq).mpr he] at hat'
      cases hat'
    · intro hq
      obtain ⟨hq, hne⟩ := hq.resolve_left (fun he => nomatch he)
      refine ⟨hq, ?_⟩
      simp only [Bool.not_eq_true', Bool.eq_false_iff]
      exact fun he => hne ((hone q hq).mp he)
  · intro b
    rw [List.mem_filter, ← hbase]
    simp
  · intro busy hsep
    exact hsep.sublist ((List.Sublist.refl busy).append List.filter_sublist)

/-! ## Programs beside each other -/

section

variable {α : Type} {Q : α → List Answer → Space → Prop} {p p' : Prog α} {log answers : List Answer}

/-- The mapping that an owner writes to, protects or gives up, alone and in the
whole space. -/
theorem copy_in_part (h : Ok busy sp) (hown : Owns sp own) (hbytes : 0 < bytes.length)
    (hcopy : own.copy dst bytes = some own') :
    ∃ sp', sp.copy dst bytes = some sp' ∧ Moves busy sp own sp' own' := by
  obtain ⟨m, hm, _⟩ := Option.map_eq_some_iff.mp hcopy
  obtain ⟨pre, r, post, hsplit, hc, hw, _⟩ := Memory.write_some hm
  have hr : r ∈ own.mem := by
    rw [hsplit]
    exact List.mem_append_right _ List.mem_cons_self
  have hx : r.base ∉ sp.executable := by
    intro hx
    rw [h.write_xor_execute (hown.mem r hr) hx] at hw
    cases hw
  have hxown : r.base ∉ own.executable := fun hin => hx (hown.executable _ hin).1
  obtain ⟨sp', hsp, hC⟩ := changes_copy h.tidy (hown.mem r hr) hc hbytes hw hx
  obtain ⟨o, ho, hc'⟩ := changes_copy (h.tidy_part hown) hr hc hbytes hw hxown
  rw [hcopy, Option.some.injEq] at ho
  subst ho
  exact ⟨sp', hsp, moves_change h hown (fun hf => hf.elim) hc' hC⟩

theorem protect_in_part (h : Ok busy sp) (hown : Owns sp own)
    (hprot : own.protect ptr size = some own') :
    ∃ sp', sp.protect ptr size = some sp' ∧ Moves busy sp own sp' own' := by
  have hany : own.mem.any (isAt ptr size) = true := by
    unfold Space.protect at hprot
    split at hprot
    · assumption
    · cases hprot
  obtain ⟨r, hr, hat⟩ := List.any_eq_true.mp hany
  obtain ⟨sp', hsp, hC⟩ := changes_protect h.tidy (hown.mem r hr) hat
  obtain ⟨o, ho, hc⟩ := changes_protect (h.tidy_part hown) hr hat
  rw [hprot, Option.some.injEq] at ho
  subst ho
  exact ⟨sp', hsp, moves_change h hown (fun _ => ⟨_, rfl, rfl⟩) hc hC⟩

theorem unmap_in_part (h : Ok busy sp) (hown : Owns sp own)
    (hun : own.unmap ptr size = some own') :
    ∃ sp', sp.unmap ptr size = some sp' ∧ Moves busy sp own sp' own' := by
  have hany : own.mem.any (isAt ptr size) = true := by
    unfold Space.unmap at hun
    split at hun
    · assumption
    · cases hun
  obtain ⟨r, hr, hat⟩ := List.any_eq_true.mp hany
  obtain ⟨sp', hsp, hC⟩ := changes_unmap h.tidy (hown.mem r hr) hat
  obtain ⟨o, ho, hc⟩ := changes_unmap (h.tidy_part hown) hr hat
  rw [hun, Option.some.injEq] at ho
  subst ho
  exact ⟨sp', hsp, moves_change h hown (fun hf => hf.elim) hc hC⟩

/-- What its owner may do alone, it may do in the whole space. -/
theorem wp_no_crash (h : Ok busy sp) (hown : Owns sp own) (hp : wp Q log own p) :
    ¬ Crashes sp p := by
  cases p with
  | ret a => exact id
  | mmap size rest => exact id
  | copy dst bytes rest =>
    obtain ⟨hbytes, own', hcopy, _⟩ := hp
    obtain ⟨sp', hsp, _⟩ := copy_in_part h hown hbytes hcopy
    intro hcrash
    rw [Crashes, hsp] at hcrash
    cases hcrash
  | mprotect ptr size rest =>
    obtain ⟨_, own', hprot, _⟩ := hp
    obtain ⟨sp', hsp, _⟩ := protect_in_part h hown hprot
    intro hcrash
    rw [Crashes, hsp] at hcrash
    cases hcrash
  | munmap ptr size rest =>
    obtain ⟨own', hun, _⟩ := hp
    obtain ⟨sp', hsp, _⟩ := unmap_in_part h hown hun
    intro hcrash
    rw [Crashes, hsp] at hcrash
    cases hcrash

/-! ### What the kernel gave -/

theorem Given.empty (log : List Answer) : Given log .empty := fun _ h => nomatch h

theorem Given.mono (h : Given log own) : Given (log ++ answers) own :=
  fun r hr => List.mem_append_left _ (h r hr)

/-- A mapping that stands where the kernel gave one. -/
theorem Given.of_place (h : Given log own)
    (hplaces : ∀ r ∈ own'.mem, ∃ q ∈ own.mem, q.base = r.base ∧ q.bytes.length = r.bytes.length) :
    Given log own' := by
  intro r hr
  obtain ⟨q, hq, hbase, hlen⟩ := hplaces r hr
  rw [← hbase, ← hlen]
  exact h q hq

theorem Given.map (h : Given log own) :
    Given (log ++ [.mmap size (.ok base)]) (own.map base size) := by
  intro r hr
  rcases List.mem_cons.mp hr with rfl | hr
  · rw [List.length_replicate]
    exact List.mem_append_right _ List.mem_cons_self
  · exact h.mono r hr

theorem Given.copy (h : Given log own) (hcopy : own.copy dst bytes = some own') :
    Given log own' := by
  obtain ⟨m, hm, rfl⟩ := Option.map_eq_some_iff.mp hcopy
  have hplaces := Memory.write_places hm
  refine h.of_place fun r hr => ?_
  have hmem : (r.base, r.bytes.length, r.writable) ∈ own.mem.places := by
    rw [← hplaces]
    exact List.mem_map.mpr ⟨r, hr, rfl⟩
  obtain ⟨q, hq, he⟩ := List.mem_map.mp hmem
  obtain ⟨hbase, hrest⟩ := Prod.mk.inj he
  exact ⟨q, hq, hbase, (Prod.mk.inj hrest).1⟩

theorem Given.protect (h : Given log own) (hprot : own.protect ptr size = some own') :
    Given log own' := by
  unfold Space.protect at hprot
  split at hprot
  · cases hprot
    refine h.of_place fun r hr => ?_
    obtain ⟨q, hq, rfl⟩ := List.mem_map.mp hr
    refine ⟨q, hq, ?_⟩
    unfold Space.lock
    split <;> exact ⟨rfl, rfl⟩
  · cases hprot

theorem Given.unmap (h : Given log own) (hun : own.unmap ptr size = some own') :
    Given log own' := by
  unfold Space.unmap at hun
  split at hun
  · cases hun
    exact fun r hr => h r (List.mem_filter.mp hr).1
  · cases hun

/-- One call of a program that is correct alone leaves it correct, the other owners
as they are, and its mappings such as the kernel gave. -/
theorem wp_step (h : Ok busy sp) (hown : Owns sp own) (hp : wp Q log own p)
    (hs : Step busy sp p answers sp' p') :
    ∃ own', Moves busy sp own sp' own' ∧ wp Q (log ++ answers) own' p' ∧
      (Given log own → Given (log ++ answers) own') := by
  cases hs with
  | mapped hfree =>
    obtain ⟨hsize, _, hok⟩ := hp
    refine ⟨_, moves_map h hown hsize hfree, hok _ (hfree.mono ?_), Given.map⟩
    exact fun r hr => List.mem_append_right _ (hown.mem r hr)
  | not_mapped =>
    obtain ⟨_, herr, _⟩ := hp
    exact ⟨own, .refl h hown, herr _, Given.mono⟩
  | copied hsp =>
    obtain ⟨hbytes, own', hcopy, hrest⟩ := hp
    obtain ⟨sp₁, hsp₁, hmoves⟩ := copy_in_part h hown hbytes hcopy
    rw [hsp, Option.some.injEq] at hsp₁
    subst hsp₁
    rw [List.append_nil]
    exact ⟨own', hmoves, hrest, fun hg => hg.copy hcopy⟩
  | protected_ hsp =>
    obtain ⟨_, own', hprot, hrest⟩ := hp
    obtain ⟨sp₁, hsp₁, hmoves⟩ := protect_in_part h hown hprot
    rw [hsp, Option.some.injEq] at hsp₁
    subst hsp₁
    exact ⟨own', hmoves, hrest, fun hg => (hg.protect hprot).mono⟩
  | not_protected =>
    obtain ⟨herr, _⟩ := hp
    exact ⟨own, .refl h hown, herr _, Given.mono⟩
  | unmapped hsp =>
    obtain ⟨own', hun, hrest⟩ := hp
    obtain ⟨sp₁, hsp₁, hmoves⟩ := unmap_in_part h hown hun
    rw [hsp, Option.some.injEq] at hsp₁
    subst hsp₁
    rw [List.append_nil]
    exact ⟨own', hmoves, hrest, fun hg => hg.unmap hun⟩

end

end

end mapping
