-- Memory seen through a part of it. A view is a memory whose regions lie inside
-- those of a larger one, with the same bytes. Code that runs in its view without
-- a fault runs in the larger memory the same way, and nothing that others see
-- apart from its view is touched.
import Dfajit.Lib.X64

namespace x64

open words

/-! ## Regions apart, and regions inside others -/

namespace Region

/-- None of the addresses `a .. a + k` lies in the region. -/
def Avoids (r : Region) (a k : Nat) : Prop :=
  r.bytes.length = 0 ∨ k = 0 ∨ a + k ≤ r.base ∨ r.base + r.bytes.length ≤ a

def Apart (r q : Region) : Prop := r.Avoids q.base q.bytes.length

/-- `r` lies inside `R`, with the same bytes. Where `r` can be written, so can `R`. -/
structure Within (r R : Region) : Prop where
  low : R.base ≤ r.base
  high : r.base + r.bytes.length ≤ R.base + R.bytes.length
  bytes : ∀ i < r.bytes.length, R.bytes[r.base - R.base + i]? = r.bytes[i]?
  writable : r.writable = true → R.writable = true

/-- The region with other bytes at `a`. -/
def patch (r : Region) (a : Nat) (new : List UInt8) : Region :=
  { r with bytes := overwrite r.bytes (a - r.base) new }

variable {r q R : Region} {a k : Nat} {new : List UInt8}

theorem covers_iff : r.covers a k = true ↔ r.base ≤ a ∧ a + k ≤ r.base + r.bytes.length := by
  simp [covers]

theorem Apart.symm (h : r.Apart q) : q.Apart r := by
  unfold Apart Avoids at h ⊢
  omega

theorem patch_length (h : r.covers a new.length = true) :
    (r.patch a new).bytes.length = r.bytes.length := by
  rw [covers_iff] at h
  exact overwrite_length _ _ _ (by omega)

theorem Within.refl (r : Region) : r.Within r :=
  ⟨Nat.le_refl _, Nat.le_refl _, fun i _ => by rw [Nat.sub_self, Nat.zero_add], id⟩

theorem Within.covers (h : r.Within R) (hc : r.covers a k = true) : R.covers a k = true := by
  have h1 := h.low
  have h2 := h.high
  rw [covers_iff] at hc ⊢
  omega

/-- What avoids a region avoids all that lies inside it. -/
theorem Within.avoids (h : r.Within R) (hk : R.Avoids a k) : r.Avoids a k := by
  have h1 := h.low
  have h2 := h.high
  unfold Avoids at hk ⊢
  omega

end Region

/-- A byte of the list after a write. -/
theorem overwrite_getElem? (bs new : List UInt8) (off i : Nat) (h : off + new.length ≤ bs.length) :
    (overwrite bs off new)[i]? =
      if off ≤ i ∧ i < off + new.length then new[i - off]? else bs[i]? := by
  have htake : (bs.take off).length = off := by
    rw [List.length_take]
    omega
  unfold overwrite
  by_cases h1 : i < off
  · rw [if_neg (by omega), List.append_assoc, List.getElem?_append_left (by omega),
      List.getElem?_take_of_lt h1]
  by_cases h2 : i < off + new.length
  · rw [if_pos (by omega), List.append_assoc, List.getElem?_append_right (by omega),
      List.getElem?_append_left (by omega), htake]
  · rw [if_neg (by omega), List.getElem?_append_right (by simp; omega), List.getElem?_drop]
    congr 1
    simp only [List.length_append, htake]
    omega

theorem sliceAt_eq_of_bytes {bs cs : List UInt8} {off d k : Nat} {out : List UInt8}
    (h : sliceAt bs off k = some out) (hlen : d + off + k ≤ cs.length)
    (hbytes : ∀ i, off ≤ i → i < off + k → cs[d + i]? = bs[i]?) :
    sliceAt cs (d + off) k = some out := by
  unfold sliceAt at h ⊢
  split at h
  · rename_i hin
    rw [if_pos hlen, ← Option.some.inj h]
    congr 1
    apply List.ext_getElem?
    intro i
    by_cases hi : i < k
    · rw [List.getElem?_take_of_lt hi, List.getElem?_take_of_lt hi, List.getElem?_drop,
        List.getElem?_drop, Nat.add_assoc]
      exact hbytes _ (by omega) (by omega)
    · rw [List.getElem?_eq_none (by simp; omega), List.getElem?_eq_none (by simp; omega)]
  · cases h

/-! ## Memories -/

namespace Memory

/-- No two of the regions have an address in common. -/
def Separate (m : Memory) : Prop := m.Pairwise Region.Apart

/-- The bytes of `r` stand in the memory, all in one region. -/
def Shows (m : Memory) (r : Region) : Prop := r.bytes.length = 0 ∨ ∃ R ∈ m, r.Within R

/-- `v` is a part of `m`. -/
def Sees (m v : Memory) : Prop := ∀ r ∈ v, m.Shows r

variable {m m' v v' : Memory} {r R : Region} {a k : Nat} {new bs : List UInt8}

theorem read_some (h : m.read a k = some bs) :
    ∃ r ∈ m, r.covers a k = true ∧ sliceAt r.bytes (a - r.base) k = some bs := by
  induction m with
  | nil => cases h
  | cons r m ih =>
    rw [read] at h
    split at h
    · rename_i hc
      exact ⟨r, List.mem_cons_self, hc, h⟩
    · obtain ⟨q, hq, hrest⟩ := ih h
      exact ⟨q, List.mem_cons_of_mem _ hq, hrest⟩

/-- A write changes one region, the first that covers it. -/
theorem write_some (h : m.write a new = some m') :
    ∃ pre r post, m = pre ++ r :: post ∧ r.covers a new.length = true ∧ r.writable = true ∧
      m' = pre ++ r.patch a new :: post := by
  induction m generalizing m' with
  | nil => cases h
  | cons r m ih =>
    rw [write] at h
    split at h
    · rename_i hc
      split at h
      · rename_i hw
        exact ⟨[], r, m, rfl, hc, hw, (Option.some.inj h).symm⟩
      · cases h
    · obtain ⟨n, hn, rfl⟩ := Option.map_eq_some_iff.mp h
      obtain ⟨pre, q, post, rfl, hc, hw, rfl⟩ := ih hn
      exact ⟨r :: pre, q, post, rfl, hc, hw, rfl⟩

/-- A region apart from one that covers an access does not cover it. -/
theorem not_covers_of_apart {q : Region} (h : r.Apart q) (hc : q.covers a k = true) (hk : 0 < k) :
    ¬ r.covers a k = true := by
  rw [Region.covers_iff] at hc ⊢
  unfold Region.Apart Region.Avoids at h
  omega

theorem read_of_mem (hm : m.Separate) (hr : r ∈ m) (hc : r.covers a k = true) (hk : 0 < k) :
    m.read a k = sliceAt r.bytes (a - r.base) k := by
  induction m with
  | nil => cases hr
  | cons q m ih =>
    obtain ⟨hq, hm⟩ := List.pairwise_cons.mp hm
    rw [read]
    rcases List.mem_cons.mp hr with rfl | hr
    · rw [if_pos hc]
    · rw [if_neg (not_covers_of_apart (hq r hr) hc hk)]
      exact ih hm hr

theorem write_of_mem (hm : m.Separate) (hr : r ∈ m) (hc : r.covers a new.length = true)
    (hk : 0 < new.length) (hw : r.writable = true) :
    ∃ pre post, m = pre ++ r :: post ∧ m.write a new = some (pre ++ r.patch a new :: post) := by
  induction m with
  | nil => cases hr
  | cons q m ih =>
    obtain ⟨hq, hm⟩ := List.pairwise_cons.mp hm
    rw [write]
    rcases List.mem_cons.mp hr with rfl | hr
    · rw [if_pos hc, if_pos hw]
      exact ⟨[], m, rfl, rfl⟩
    · rw [if_neg (not_covers_of_apart (hq r hr) hc hk)]
      obtain ⟨pre, post, rfl, he⟩ := ih hm hr
      exact ⟨q :: pre, post, rfl, by rw [he]; rfl⟩

/-! ## What a write keeps -/

/-- Where the regions are and which can be written. -/
def places (m : Memory) : List (Nat × Nat × Bool) :=
  m.map fun r => (r.base, r.bytes.length, r.writable)

theorem write_places (h : m.write a new = some m') : m'.places = m.places := by
  obtain ⟨pre, r, post, rfl, hc, _, rfl⟩ := write_some h
  simp only [places, List.map_append, List.map_cons]
  rw [Region.patch_length hc]
  rfl

/-- To be apart is a matter of the places alone. -/
theorem separate_of_places (h : m'.places = m.places) (hm : m.Separate) : m'.Separate := by
  have hmap : ∀ n : Memory, n.Separate ↔ n.places.Pairwise fun x y =>
      x.2.1 = 0 ∨ y.2.1 = 0 ∨ y.1 + y.2.1 ≤ x.1 ∨ x.1 + x.2.1 ≤ y.1 := by
    intro n
    unfold places Separate
    rw [List.pairwise_map]
    rfl
  rw [hmap, h, ← hmap]
  exact hm

/-- A region that avoids what is written is shown as before. -/
theorem Shows.write (hs : m.Shows r) (h : m.write a new = some m')
    (hr : r.Avoids a new.length) : m'.Shows r := by
  rcases hs with hs | ⟨R, hR, hin⟩
  · exact Or.inl hs
  obtain ⟨pre, q, post, rfl, hc, hw, rfl⟩ := write_some h
  rw [List.mem_append, List.mem_cons] at hR
  rcases hR with hR | rfl | hR
  · exact Or.inr ⟨R, List.mem_append_left _ hR, hin⟩
  · refine Or.inr ⟨R.patch a new, List.mem_append_right _ List.mem_cons_self, hin.low, ?_, ?_,
      hin.writable⟩
    · rw [Region.patch_length hc]
      exact hin.high
    · intro i hi
      have hlow := hin.low
      rw [Region.covers_iff] at hc
      unfold Region.Avoids at hr
      simp only [Region.patch]
      rw [overwrite_getElem? _ _ _ _ (by omega), if_neg (by omega)]
      exact hin.bytes i hi
  · exact Or.inr ⟨R, List.mem_append_right _ (List.mem_cons_of_mem _ hR), hin⟩

/-- A region inside another takes the same bytes at the same place. -/
theorem Within.patch (h : r.Within R) (hc : r.covers a new.length = true) :
    (r.patch a new).Within (R.patch a new) := by
  have hC := h.covers hc
  have h1 := h.low
  have h2 := h.high
  have hlen := Region.patch_length hc
  have hLen := Region.patch_length hC
  rw [Region.covers_iff] at hc hC
  refine ⟨h1, ?_, ?_, h.writable⟩
  · rw [hlen, hLen]
    exact h2
  · intro i hi
    rw [hlen] at hi
    simp only [Region.patch]
    rw [overwrite_getElem? _ _ _ _ (by omega), overwrite_getElem? _ _ _ _ (by omega)]
    by_cases hin : a - r.base ≤ i ∧ i < a - r.base + new.length
    · rw [if_pos hin, if_pos (by omega)]
      congr 1
      omega
    · rw [if_neg hin, if_neg (by omega)]
      exact h.bytes i hi

theorem Shows.append_right (h : m.Shows r) (n : Memory) : Shows (m ++ n) r := by
  rcases h with h | ⟨R, hR, hin⟩
  · exact Or.inl h
  · exact Or.inr ⟨R, List.mem_append_left _ hR, hin⟩

theorem shows_of_mem (h : r ∈ m) : m.Shows r := Or.inr ⟨r, h, .refl r⟩

/-- What is shown in one part of the memory is apart from the other part. -/
theorem Shows.apart {n : Memory} {q : Region} (h : m.Shows r) (hsep : Separate (m ++ n))
    (hq : q ∈ n) : r.Apart q := by
  rcases h with h | ⟨R, hR, hin⟩
  · exact Or.inl h
  · exact hin.avoids ((List.pairwise_append.mp hsep).2.2 R hR q hq)

/-- A write in the first part of the memory. -/
theorem write_append {n : Memory} (h : m.write a new = some m') :
    write (m ++ n) a new = some (m' ++ n) := by
  induction m generalizing m' with
  | nil => cases h
  | cons r m ih =>
    rw [List.cons_append, write]
    rw [write] at h
    split at h
    · rename_i hc
      rw [if_pos hc]
      split at h
      · rename_i hw
        rw [if_pos hw]
        rw [← Option.some.inj h]
        rfl
      · cases h
    · rename_i hc
      obtain ⟨k, hk, rfl⟩ := Option.map_eq_some_iff.mp h
      rw [if_neg hc, ih hk]
      rfl

/-! ## Views -/

theorem Sees.read (h : m.Sees v) (hm : m.Separate) (hk : 0 < k) (hr : v.read a k = some bs) :
    m.read a k = some bs := by
  obtain ⟨r, hrv, hc, hslice⟩ := read_some hr
  rcases h r hrv with hs | ⟨R, hR, hin⟩
  · rw [Region.covers_iff] at hc
    omega
  have h1 := hin.low
  have h2 := hin.high
  rw [read_of_mem hm hR (hin.covers hc) hk]
  rw [Region.covers_iff] at hc
  rw [show a - R.base = r.base - R.base + (a - r.base) by omega]
  refine sliceAt_eq_of_bytes hslice (by omega) ?_
  intro i _ hi
  exact hin.bytes i (by omega)

/-- A write in the view is the same write in the memory, and the view stays one. -/
theorem Sees.write (h : m.Sees v) (hm : m.Separate) (hv : v.Separate) (hk : 0 < new.length)
    (hw : v.write a new = some v') : ∃ m', m.write a new = some m' ∧ m'.Sees v' := by
  obtain ⟨pre, r, post, rfl, hc, hwr, rfl⟩ := write_some hw
  have hrv : r ∈ pre ++ r :: post := List.mem_append_right _ List.mem_cons_self
  rcases h r hrv with hs | ⟨R, hR, hin⟩
  · rw [Region.covers_iff] at hc
    omega
  obtain ⟨Pre, Post, rfl, hM⟩ := write_of_mem hm hR (hin.covers hc) hk (hin.writable hwr)
  refine ⟨_, hM, ?_⟩
  intro q hq
  have hother : q ∈ pre ∨ q ∈ post → q.Apart r := by
    intro hq
    obtain ⟨_, hpost, hpre⟩ := List.pairwise_append.mp hv
    rcases hq with hq | hq
    · exact hpre q hq r List.mem_cons_self
    · exact ((List.pairwise_cons.mp hpost).1 q hq).symm
  have hkept : q ∈ pre ∨ q ∈ post → (Pre ++ R.patch a new :: Post).Shows q := by
    intro hq
    have hap := hother hq
    refine Shows.write (h q ?_) hM ?_
    · rcases hq with hq | hq
      · exact List.mem_append_left _ hq
      · exact List.mem_append_right _ (List.mem_cons_of_mem _ hq)
    · rw [Region.covers_iff] at hc
      unfold Region.Apart at hap
      unfold Region.Avoids at hap ⊢
      omega
  rw [List.mem_append, List.mem_cons] at hq
  rcases hq with hq | rfl | hq
  · exact hkept (Or.inl hq)
  · exact Or.inr ⟨R.patch a new, List.mem_append_right _ List.mem_cons_self, Within.patch hin hc⟩
  · exact hkept (Or.inr hq)

end Memory

/-! ## Steps in a view -/

/-- The memory and the view are both as they were, or both have the same bytes
written at the same place. -/
inductive SameWrite (m v : Memory) : Memory → Memory → Prop
  | kept : SameWrite m v m v
  | wrote {a : Nat} {new : List UInt8} {m' v' : Memory} : 0 < new.length →
      v.write a new = some v' → m.write a new = some m' → SameWrite m v m' v'

section

variable {m v m' v' : Memory}

theorem SameWrite.places (h : SameWrite m v m' v') : m'.places = m.places := by
  cases h with
  | kept => rfl
  | wrote _ _ hm => exact Memory.write_places hm

end

@[simp] theorem withMem_withMem (s : State) (m n : Memory) :
    (s.withMem m).withMem n = s.withMem n := rfl

@[simp] theorem withMem_self (s : State) : s.withMem s.mem = s := rfl

@[simp] theorem ea_withMem (s : State) (m : Memory) (a : Addr) : ea (s.withMem m) a = ea s a := rfl

theorem alu32_withMem (op : AluOp) (s : State) (dst : Reg) (y : UInt32) (m : Memory) :
    alu32 op (s.withMem m) dst y = (alu32 op s dst y).withMem m := by
  cases op <;> rfl

theorem alu64_withMem (op : AluOp) (s : State) (dst : Reg) (y : UInt64) (m : Memory) :
    alu64 op (s.withMem m) dst y = (alu64 op s dst y).withMem m := by
  cases op <;> rfl

@[simp] theorem alu32_mem (op : AluOp) (s : State) (dst : Reg) (y : UInt32) :
    (alu32 op s dst y).mem = s.mem := by
  cases op <;> rfl

@[simp] theorem alu64_mem (op : AluOp) (s : State) (dst : Reg) (y : UInt64) :
    (alu64 op s dst y).mem = s.mem := by
  cases op <;> rfl

/-- The result of an instruction in a view, and in the memory behind it. -/
def Matched (m : Memory) (s : State) (u : State) : State → Prop :=
  fun U => ∃ m', U = u.withMem m' ∧ SameWrite m s.mem m' u.mem ∧ m'.Sees u.mem

theorem Matched.same {m : Memory} {s u : State} (hs : m.Sees s.mem) (hu : u.mem = s.mem) :
    Matched m s u (u.withMem m) := by
  refine ⟨m, rfl, ?_, ?_⟩
  · rw [hu]
    exact .kept
  · rw [hu]
    exact hs

/-- An instruction that runs in a view runs in the memory behind it. -/
theorem exec_matched {m : Memory} {i : Instr} {s u : State} (hs : m.Sees s.mem)
    (hm : m.Separate) (hv : s.mem.Separate) (h : exec i s = some u) :
    ∃ U, exec i (s.withMem m) = some U ∧ Matched m s u U := by
  cases i with
  | push r =>
    cases h
    exact ⟨_, rfl, .same hs rfl⟩
  | pop r =>
    simp only [exec] at h ⊢
    split at h
    · cases h
    · rename_i w rest hstack
      cases h
      simp only [State.withMem_stack, hstack]
      exact ⟨_, rfl, .same hs rfl⟩
  | ret => cases h
  | mov sz dst src =>
    cases sz <;>
    · cases h
      exact ⟨_, rfl, .same hs rfl⟩
  | movImm dst w =>
    cases h
    exact ⟨_, rfl, .same hs rfl⟩
  | load dst a =>
    simp only [exec, Memory.read32, Option.map_map] at h ⊢
    obtain ⟨bs, hr, rfl⟩ := Option.map_eq_some_iff.mp h
    have hR := hs.read hm (by omega) hr
    refine ⟨_, Option.map_eq_some_iff.mpr ⟨bs, hR, rfl⟩, ?_⟩
    exact .same hs rfl
  | loadByte dst a =>
    simp only [exec, Memory.read8, Option.map_map] at h ⊢
    obtain ⟨bs, hr, rfl⟩ := Option.map_eq_some_iff.mp h
    have hR := hs.read hm (by omega) hr
    refine ⟨_, Option.map_eq_some_iff.mpr ⟨bs, hR, rfl⟩, ?_⟩
    exact .same hs rfl
  | store a src =>
    simp only [exec] at h ⊢
    obtain ⟨v', hw, rfl⟩ := Option.map_eq_some_iff.mp h
    have hlen : 0 < (le32 (s.get32 src)).length := by rw [le32_length]; omega
    obtain ⟨m', hW, hsees⟩ := hs.write hm hv hlen hw
    refine ⟨_, Option.map_eq_some_iff.mpr ⟨m', hW, rfl⟩, m', rfl, ?_, hsees⟩
    exact .wrote hlen hw hW
  | alu op sz dst src =>
    cases sz with
    | b32 =>
      cases h
      refine ⟨_, rfl, ?_⟩
      have hsrc : src32 (s.withMem m) src = src32 s src := by cases src <;> rfl
      rw [hsrc, alu32_withMem]
      exact .same hs (alu32_mem _ _ _ _)
    | b64 =>
      cases h
      refine ⟨_, rfl, ?_⟩
      have hsrc : src64 (s.withMem m) src = src64 s src := by cases src <;> rfl
      rw [hsrc, alu64_withMem]
      exact .same hs (alu64_mem _ _ _ _)
  | imul sz dst src w =>
    cases sz <;>
    · cases h
      exact ⟨_, rfl, .same hs rfl⟩
  | inc sz r =>
    cases sz <;>
    · cases h
      exact ⟨_, rfl, .same hs rfl⟩
  | jcc c rel =>
    have hc : holds (s.withMem m) c = holds s c := by cases c <;> rfl
    simp only [exec, hc] at h ⊢
    split at h
    · cases h
    · cases h
      exact ⟨_, rfl, .same hs rfl⟩
    · cases h
      exact ⟨_, rfl, .same hs rfl⟩
  | prefetch a =>
    cases h
    exact ⟨_, rfl, .same hs rfl⟩

/-- A step in a view is a step in the memory behind it. -/
theorem step_matched {m : Memory} {code : List UInt8} {s u : State} (hs : m.Sees s.mem)
    (hm : m.Separate) (hv : s.mem.Separate) (h : step code s = .next u) :
    ∃ U, step code (s.withMem m) = .next U ∧ Matched m s u U := by
  unfold step at h ⊢
  simp only [State.withMem_pc]
  split at h
  · cases h
  · split at h <;> cases h
  · rename_i i n hne hd
    cases he : exec i (s.goto (s.pc + n)) with
    | none =>
      rw [he] at h
      cases h
    | some u' =>
      rw [he] at h
      cases h
      obtain ⟨U, hU, hmatch⟩ := exec_matched (m := m) (s := s.goto (s.pc + n)) hs hm hv he
      refine ⟨U, ?_, hmatch⟩
      cases i with
      | ret => cases he
      | _ => exact hU ▸ rfl

/-- So is a return. -/
theorem step_done_matched {m : Memory} {code : List UInt8} {s u : State}
    (h : step code s = .done u) : u = s ∧ step code (s.withMem m) = .done (s.withMem m) := by
  unfold step at h ⊢
  simp only [State.withMem_pc]
  split at h
  · cases h
  · split at h
    · rename_i hd hstack
      cases h
      refine ⟨rfl, ?_⟩
      simp only [State.withMem_stack, hstack, if_true]
    · cases h
  · split at h <;> cases h

/-! ## Runs, one step longer -/

theorem run_succ {code : List UInt8} {n : Nat} {s u : State} (h : run code n s = .next u) :
    run code (n + 1) s = step code u := by
  induction n generalizing s with
  | zero =>
    cases h
    unfold run
    split
    · rename_i hs
      rw [hs]
      rfl
    · rfl
  | succ n ih =>
    unfold run at h ⊢
    split at h
    · exact ih h
    · rename_i o hne
      exact absurd h (hne u)

theorem run_done_mono {code : List UInt8} {n m : Nat} {s t : State} (h : run code n s = .done t)
    (hle : n ≤ m) : run code m s = .done t := by
  induction n generalizing s m with
  | zero => cases h
  | succ n ih =>
    obtain ⟨m, rfl⟩ : ∃ k, m = k + 1 := ⟨m - 1, by omega⟩
    unfold run at h ⊢
    split at h
    · exact ih h (by omega)
    · exact h

end x64
