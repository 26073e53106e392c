-- The failure links of the trie: each state points to the state of its border,
-- the longest proper suffix of its text that is in the trie. The queue takes
-- the texts by length, so the links it needs are there when it needs them.
import Dfajit.Trie

namespace dfajit.failure_links

open error table codegen dfa text_tree trie

/-- The longest suffix of the text that has a state. -/
def longest (strs : List (List UInt8)) (w : List UInt8) : List UInt8 :=
  suffix.longest (· ∈ strs) w

/-- The longest proper suffix of the text that has a state. -/
def border (strs : List (List UInt8)) (w : List UInt8) : List UInt8 :=
  suffix.border (· ∈ strs) w

/-- The failure link of this text is right. -/
def FailsTo (strs : List (List UInt8)) (fail : List UInt32) (v : List UInt8) : Prop :=
  fail[(state_of strs v).toNat]? = some (state_of strs (border strs v))

section

variable {strs : List (List UInt8)} {trans : List Row} {fail : List UInt32} {v : List UInt8}

theorem border_mem (h : Tree strs) (w : List UInt8) : border strs w ∈ strs :=
  suffix.border_mem h.nil_mem w

theorem longest_mem (h : Tree strs) (w : List UInt8) : longest strs w ∈ strs :=
  suffix.longest_mem h.nil_mem w

/-- A text of one symbol that has no state leads to the start state. -/
theorem state_of_single (h : Spells strs trans) (b : UInt8) :
    state_of strs [b] = state_of strs (longest strs [b]) := by
  by_cases hin : [b] ∈ strs
  · unfold longest
    rw [suffix.longest_of_mem hin]
  · have hroot : longest strs [b] = [] := if_neg hin
    rw [state_of_not_mem hin, hroot, h.nodes.state_of_nil]

/-- Where the text has no child on the byte, its border goes on. -/
theorem longest_border (h : Tree strs) {b : UInt8} (hne : v ≠ []) (hin : v ++ [b] ∉ strs) :
    longest strs (v ++ [b]) = longest strs (border strs v ++ [b]) :=
  suffix.longest_snoc_of_not h.prefixClosed hne hin

/-! ## Along the failure links -/

/-- The loop stops at a state whose child on the byte, if it has one, is the
state of the longest suffix. -/
theorem follow_fail_eq (h : Spells strs trans) (b : UInt8) {fuel : Nat} (hv : v ∈ strs)
    (hfail : ∀ u ∈ strs, u.length ≤ v.length → FailsTo strs fail u) (hfuel : v.length ≤ fuel) :
    ∃ u ∈ strs, follow_fail trans fail b fuel (state_of strs v) = .ok (state_of strs u) ∧
      state_of strs (u ++ [b]) = state_of strs (longest strs (v ++ [b])) := by
  induction fuel generalizing v with
  | zero =>
    rw [List.length_eq_zero_iff.mp (Nat.le_zero.mp hfuel)]
    refine ⟨[], h.nodes.nil_mem, ?_, state_of_single h b⟩
    unfold follow_fail
    rw [if_pos h.nodes.state_of_nil]
  | succ fuel ih =>
    unfold follow_fail
    by_cases hnil : v = []
    · subst hnil
      refine ⟨[], h.nodes.nil_mem, ?_, state_of_single h b⟩
      rw [if_pos h.nodes.state_of_nil]
    · rw [if_neg (h.nodes.state_ne_zero.mpr ⟨hv, hnil⟩), h.lookup hv, ok_bind]
      by_cases hin : v ++ [b] ∈ strs
      · refine ⟨v, hv, ?_, ?_⟩
        · rw [if_pos (h.nodes.state_ne_zero.mpr ⟨hin, by simp⟩)]
        · unfold longest
          rw [suffix.longest_of_mem hin]
      · have hlt : (border strs v).length < v.length := suffix.border_length_lt hnil
        rw [if_neg (not_not.mpr (state_of_not_mem hin)), longest_border h.nodes.tree hnil hin]
        simp only [index_ok (hfail v hv (Nat.le_refl _)), ok_bind]
        apply ih (border_mem h.nodes.tree v)
        · intro u hu hle
          exact hfail u hu (by omega)
        · omega

/-- The target of a state in the dense table is the state of the longest suffix. -/
theorem dense_target_eq (h : Spells strs trans) (b : UInt8) {fuel : Nat} (hv : v ∈ strs)
    (hfail : ∀ u ∈ strs, FailsTo strs fail u) (hfuel : v.length ≤ fuel) :
    dense_target trans fail b fuel (state_of strs v) =
      .ok (state_of strs (longest strs (v ++ [b]))) := by
  induction fuel generalizing v with
  | zero =>
    unfold dense_target
    rw [h.lookup hv, ok_bind]
    rw [List.length_eq_zero_iff.mp (Nat.le_zero.mp hfuel)]
    rw [if_pos (Or.inr h.nodes.state_of_nil)]
    exact congrArg Except.ok (state_of_single h b)
  | succ fuel ih =>
    unfold dense_target
    rw [h.lookup hv, ok_bind]
    by_cases hin : v ++ [b] ∈ strs
    · rw [if_pos (Or.inl (h.nodes.state_ne_zero.mpr ⟨hin, by simp⟩))]
      unfold longest
      rw [suffix.longest_of_mem hin]
    by_cases hnil : v = []
    · subst hnil
      rw [if_pos (Or.inr h.nodes.state_of_nil)]
      exact congrArg Except.ok (state_of_single h b)
    · have hlt : (border strs v).length < v.length := suffix.border_length_lt hnil
      have hstop : ¬ (state_of strs (v ++ [b]) ≠ 0 ∨ state_of strs v = 0) := by
        rintro (hne | hz)
        · exact hne (state_of_not_mem hin)
        · exact h.nodes.state_ne_zero.mpr ⟨hv, hnil⟩ hz
      rw [if_neg hstop, longest_border h.nodes.tree hnil hin]
      simp only [index_ok (hfail v hv), ok_bind]
      exact ih (border_mem h.nodes.tree v) (by omega)

/-! ## The queue -/

theorem mem_all_bytes (b : UInt8) : b ∈ all_bytes :=
  List.mem_map.mpr ⟨b.toNat, List.mem_range.mpr b.toNat_lt, UInt8.ofNat_toNat⟩

theorem all_bytes_nodup : all_bytes.Nodup := by
  apply List.Nodup.map_on ?_ List.nodup_range
  intro i hi j hj he
  have h := congrArg UInt8.toNat he
  rw [UInt8.toNat_ofNat', UInt8.toNat_ofNat'] at h
  have hi := List.mem_range.mp hi
  have hj := List.mem_range.mp hj
  omega

/-- The children of a text, in the order of their bytes. -/
def kids (strs : List (List UInt8)) (x : List UInt8) (bytes : List UInt8) : List (List UInt8) :=
  (bytes.filter fun b => x ++ [b] ∈ strs).map (x ++ [·])

theorem mem_kids {x y bytes : List UInt8} :
    y ∈ kids strs x bytes ↔ ∃ b ∈ bytes, y = x ++ [b] ∧ x ++ [b] ∈ strs := by
  unfold kids
  simp only [List.mem_map, List.mem_filter, decide_eq_true_iff]
  constructor
  · rintro ⟨b, ⟨hb, hin⟩, rfl⟩
    exact ⟨b, hb, rfl, hin⟩
  · rintro ⟨b, hb, rfl, hin⟩
    exact ⟨b, ⟨hb, hin⟩, rfl⟩

theorem kids_cons (x : List UInt8) (b : UInt8) (bytes : List UInt8) :
    kids strs x (b :: bytes) =
      (if x ++ [b] ∈ strs then [x ++ [b]] else []) ++ kids strs x bytes := by
  unfold kids
  rw [List.filter_cons]
  split <;> simp_all

theorem kids_nodup (x : List UInt8) : (kids strs x all_bytes).Nodup := by
  apply List.Nodup.map_on ?_ (all_bytes_nodup.filter _)
  intro a _ b _ he
  simpa using he

theorem FailsTo.set (h : Nodes strs) {y : List UInt8} (hy : y ∈ strs) (hv : v ∈ strs)
    (hf : FailsTo strs fail v) :
    FailsTo strs (fail.set (state_of strs y).toNat (state_of strs (border strs y))) v := by
  unfold FailsTo at hf ⊢
  rw [List.getElem?_set]
  split
  · rename_i he
    obtain rfl : y = v := h.inj hy hv he
    rw [if_pos (List.getElem?_eq_some_iff.mp hf).1]
  · exact hf

/-- The step of a state `x` on a byte: a child is put into the queue, with its
failure link. -/
def Expands (strs : List (List UInt8)) (x : List UInt8)
    (step : List UInt32 × List UInt32 → UInt8 → Res (List UInt32 × List UInt32)) : Prop :=
  ∀ queue fail b, fail.length = strs.length →
    (∀ u ∈ strs, u.length ≤ x.length → FailsTo strs fail u) →
    step (queue, fail) b = .ok (
      if x ++ [b] ∈ strs then
        (queue ++ [state_of strs (x ++ [b])],
          fail.set (state_of strs (x ++ [b])).toNat (state_of strs (border strs (x ++ [b]))))
      else (queue, fail))

theorem Expands.all (h : Nodes strs) {x : List UInt8}
    {step : List UInt32 × List UInt32 → UInt8 → Res (List UInt32 × List UInt32)}
    (hstep : Expands strs x step) (bytes : List UInt8) (queue : List UInt32)
    (hlen : fail.length = strs.length)
    (hfail : ∀ u ∈ strs, u.length ≤ x.length → FailsTo strs fail u) :
    ∃ fail', bytes.foldlM step (queue, fail) =
        .ok (queue ++ (kids strs x bytes).map (state_of strs), fail') ∧
      fail'.length = strs.length ∧ (∀ y ∈ kids strs x bytes, FailsTo strs fail' y) ∧
      ∀ u ∈ strs, FailsTo strs fail u → FailsTo strs fail' u := by
  induction bytes generalizing queue fail with
  | nil =>
    refine ⟨fail, by simp [kids, pure, Except.pure], hlen, ?_, ?_⟩
    · intro y hy
      cases hy
    · intro u _ hf
      exact hf
  | cons b bytes ih =>
    rw [List.foldlM_cons, hstep queue fail b hlen hfail, ok_bind, kids_cons]
    by_cases hin : x ++ [b] ∈ strs
    · rw [if_pos hin, if_pos hin]
      have hown : FailsTo strs (fail.set (state_of strs (x ++ [b])).toNat
          (state_of strs (border strs (x ++ [b])))) (x ++ [b]) := by
        apply List.getElem?_set_self
        rw [hlen]
        exact h.state_lt hin
      obtain ⟨fail', hrun, hlen', hkids, hkeep⟩ :=
        ih (queue ++ [state_of strs (x ++ [b])]) (by simpa using hlen)
          (fun u hu hle => (hfail u hu hle).set h hin hu)
      refine ⟨fail', ?_, hlen', ?_, ?_⟩
      · rw [hrun]
        simp
      · intro y hy
        rcases List.mem_append.mp hy with hy | hy
        · rw [List.mem_singleton.mp hy]
          exact hkeep _ hin hown
        · exact hkids y hy
      · intro u hu hf
        exact hkeep u hu (hf.set h hin hu)
    · rw [if_neg hin, if_neg hin, List.nil_append]
      exact ih queue hlen hfail

theorem root_step_expands (h : Spells strs trans) : Expands strs [] (root_step trans) := by
  intro queue fail b hlen _
  have hlook := h.lookup h.nodes.nil_mem b
  rw [h.nodes.state_of_nil] at hlook
  unfold root_step
  simp only [hlook, ok_bind]
  by_cases hin : [] ++ [b] ∈ strs
  · have hlt := h.nodes.state_lt hin
    have hroot : border strs ([] ++ [b]) = [] := rfl
    rw [if_pos (h.nodes.state_ne_zero.mpr ⟨hin, by simp⟩), if_pos hin, hroot,
      h.nodes.state_of_nil]
    unfold set_index
    rw [if_pos (by omega), ok_bind]
  · rw [if_neg (not_not.mpr (state_of_not_mem hin)), if_neg hin]

theorem queue_step_expands (h : Spells strs trans) {x : List UInt8} (hx : x ∈ strs)
    (hne : x ≠ []) : Expands strs x (queue_step trans (state_of strs x)) := by
  intro queue fail b hlen hfail
  have hlt : (border strs x).length < x.length := suffix.border_length_lt hne
  have hxlt := h.nodes.tree.length_lt hx
  have hfuel : (border strs x).length ≤ trans.length := by
    rw [h.len]
    omega
  unfold queue_step
  simp only [h.lookup hx, ok_bind]
  by_cases hin : x ++ [b] ∈ strs
  · obtain ⟨u, hu, hfollow, hchild⟩ := follow_fail_eq h b (border_mem h.nodes.tree x)
      (fun u hu hle => hfail u hu (by omega)) hfuel
    have hborder : border strs (x ++ [b]) = longest strs (border strs x ++ [b]) :=
      suffix.border_snoc h.nodes.tree.prefixClosed hne b
    have hstate := h.nodes.state_lt hin
    rw [if_pos (h.nodes.state_ne_zero.mpr ⟨hin, by simp⟩), if_pos hin,
      index_ok (hfail x hx (Nat.le_refl _)), ok_bind, hfollow, ok_bind, h.lookup hu, ok_bind,
      hchild, hborder]
    unfold set_index
    rw [if_pos (by omega), ok_bind]
  · rw [if_neg (not_not.mpr (state_of_not_mem hin)), if_neg hin]

/-- The loop over the queue, with the texts that were taken from the queue and
those that are in it: both have their failure links, and the queue holds what
is missing of the children, by length. -/
structure Visited (strs : List (List UInt8)) (popped pending : List (List UInt8))
    (fail : List UInt32) : Prop where
  len : fail.length = strs.length
  nodup : (popped ++ pending).Nodup
  mem : ∀ v ∈ popped ++ pending, v ∈ strs
  fails : ∀ v ∈ popped ++ pending, FailsTo strs fail v
  root : [] ∈ popped ++ pending
  parents : ∀ v b, v ++ [b] ∈ popped ++ pending → v ∈ popped
  kids : ∀ v ∈ popped, ∀ b, v ++ [b] ∈ strs → v ++ [b] ∈ popped ++ pending
  sorted : pending.Pairwise fun v w => v.length ≤ w.length
  near : ∀ x ∈ pending.head?, ∀ y ∈ pending, y.length ≤ x.length + 1

theorem visited_start (h : Nodes strs) :
    Visited strs [] [[]] (List.replicate strs.length 0) := by
  have hpos := List.length_pos_of_mem h.nil_mem
  refine ⟨List.length_replicate, by simp, ?_, ?_, by simp, ?_, ?_, by simp, ?_⟩
  · intro v hv
    rw [List.nil_append, List.mem_singleton] at hv
    rw [hv]
    exact h.nil_mem
  · intro v hv
    rw [List.nil_append, List.mem_singleton] at hv
    have hroot : border strs [] = [] := rfl
    unfold FailsTo
    rw [hv, hroot, h.state_of_nil, List.getElem?_replicate]
    exact if_pos hpos
  · intro v b hv
    simp at hv
  · intro v hv
    cases hv
  · intro x hx y hy
    rw [List.mem_singleton.mp hy]
    exact Nat.zero_le _

/-- Every text up to the length of the first one in the queue was visited. -/
theorem Visited.low {popped pending : List (List UInt8)} {x : List UInt8} (ht : Tree strs)
    (h : Visited strs popped (x :: pending) fail) (hv : v ∈ strs) (hle : v.length ≤ x.length) :
    v ∈ popped ++ x :: pending := by
  induction v using List.reverseRecOn with
  | nil => exact h.root
  | append_singleton u b ih =>
    rw [List.length_append, List.length_singleton] at hle
    have hu := ih (ht.init u b hv) (by omega)
    apply h.kids u ?_ b hv
    rcases List.mem_append.mp hu with hu | hu
    · exact hu
    · have hsort := List.pairwise_cons.mp h.sorted
      rcases List.mem_cons.mp hu with rfl | hu
      · omega
      · have := hsort.1 u hu
        omega

/-- When the first text leaves the queue, its children go behind the others: they
are longer by one, and nothing in the queue was longer than that. -/
theorem order_next {x : List UInt8} {pending children : List (List UInt8)}
    (hsorted : (x :: pending).Pairwise fun v w => v.length ≤ w.length)
    (hnear : ∀ y ∈ pending, y.length ≤ x.length + 1)
    (hlong : ∀ y ∈ children, y.length = x.length + 1) :
    (pending ++ children).Pairwise (fun v w => v.length ≤ w.length) ∧
      ∀ y ∈ (pending ++ children).head?, ∀ z ∈ pending ++ children, z.length ≤ y.length + 1 := by
  obtain ⟨hfirst, hrest⟩ := List.pairwise_cons.mp hsorted
  have hrange : ∀ y ∈ pending ++ children, x.length ≤ y.length ∧ y.length ≤ x.length + 1 := by
    intro y hy
    rcases List.mem_append.mp hy with hy | hy
    · exact ⟨hfirst y hy, hnear y hy⟩
    · rw [hlong y hy]
      omega
  refine ⟨?_, ?_⟩
  · rw [List.pairwise_append]
    refine ⟨hrest, ?_, ?_⟩
    · apply List.pairwise_of_forall_mem_list
      intro y hy z hz
      rw [hlong y hy, hlong z hz]
    · intro y hy z hz
      rw [hlong z hz]
      exact hnear y hy
  · intro y hy z hz
    have hylen := (hrange y (List.mem_of_mem_head? hy)).1
    have hzlen := (hrange z hz).2
    omega

/-- One text is taken from the queue, and its children are put into it. -/
theorem Visited.next {popped pending : List (List UInt8)} {x : List UInt8}
    {step : List UInt32 × List UInt32 → UInt8 → Res (List UInt32 × List UInt32)} (hn : Nodes strs)
    (h : Visited strs popped (x :: pending) fail) (hstep : Expands strs x step)
    (queue : List UInt32) :
    ∃ fail', all_bytes.foldlM step (queue, fail) =
        .ok (queue ++ (failure_links.kids strs x all_bytes).map (state_of strs), fail') ∧
      Visited strs (popped ++ [x]) (pending ++ failure_links.kids strs x all_bytes) fail' := by
  obtain ⟨fail', hrun, hlen, hkids, hkeep⟩ := hstep.all hn all_bytes queue h.len
    (fun u hu hle => h.fails u (h.low hn.tree hu hle))
  refine ⟨fail', hrun, ?_⟩
  have hsplit : ∀ y, y ∈ popped ++ [x] ++ (pending ++ failure_links.kids strs x all_bytes) ↔
      y ∈ popped ++ x :: pending ∨ y ∈ failure_links.kids strs x all_bytes := by
    intro y
    simp only [List.mem_append, List.mem_cons, List.not_mem_nil, or_false]
    tauto
  have hx : x ∉ popped := by
    intro hin
    exact (List.nodup_append.mp h.nodup).2.2 x hin x List.mem_cons_self rfl
  have hlong : ∀ y ∈ failure_links.kids strs x all_bytes, y.length = x.length + 1 := by
    intro y hy
    obtain ⟨b, _, rfl, _⟩ := mem_kids.mp hy
    simp
  obtain ⟨hsorted, hnear⟩ := order_next h.sorted
    (fun y hy => h.near x rfl y (List.mem_cons_of_mem _ hy)) hlong
  refine ⟨hlen, ?_, ?_, ?_, ?_, ?_, ?_, hsorted, hnear⟩
  · have hwhole : popped ++ [x] ++ (pending ++ failure_links.kids strs x all_bytes) =
        (popped ++ x :: pending) ++ failure_links.kids strs x all_bytes := by simp
    rw [hwhole, List.nodup_append]
    refine ⟨h.nodup, kids_nodup x, ?_⟩
    rintro y hy z hz rfl
    obtain ⟨b, _, rfl, _⟩ := mem_kids.mp hz
    exact hx (h.parents x b hy)
  · intro v hv
    rcases (hsplit v).mp hv with hv | hv
    · exact h.mem v hv
    · obtain ⟨b, _, rfl, hin⟩ := mem_kids.mp hv
      exact hin
  · intro v hv
    rcases (hsplit v).mp hv with hv | hv
    · exact hkeep v (h.mem v hv) (h.fails v hv)
    · exact hkids v hv
  · exact (hsplit []).mpr (Or.inl h.root)
  · intro v b hv
    rcases (hsplit _).mp hv with hv | hv
    · exact List.mem_append_left _ (h.parents v b hv)
    · obtain ⟨c, _, he, _⟩ := mem_kids.mp hv
      rw [(List.append_inj' he rfl).1]
      simp
  · intro v hv b hin
    apply (hsplit _).mpr
    rcases List.mem_append.mp hv with hv | hv
    · exact Or.inl (h.kids v hv b hin)
    · rw [List.mem_singleton.mp hv] at hin ⊢
      exact Or.inr (mem_kids.mpr ⟨b, mem_all_bytes b, rfl, hin⟩)

/-- When the queue is empty, each text was visited. -/
theorem Visited.all {popped : List (List UInt8)} (ht : Tree strs)
    (h : Visited strs popped [] fail) (hv : v ∈ strs) : FailsTo strs fail v := by
  apply h.fails
  induction v using List.reverseRecOn with
  | nil => exact h.root
  | append_singleton u b ih =>
    have hu := ih (ht.init u b hv)
    rw [List.append_nil] at hu
    exact h.kids u hu b hv

theorem queue_loop_eq (h : Spells strs trans) (fuel : Nat) {popped pending : List (List UInt8)}
    (hvis : Visited strs popped pending fail) (hroot : [] ∈ popped)
    (hfuel : strs.length ≤ fuel + popped.length) :
    ∃ fail', queue_loop trans fuel (pending.map (state_of strs)) fail = .ok fail' ∧
      fail'.length = strs.length ∧ ∀ v ∈ strs, FailsTo strs fail' v := by
  induction fuel generalizing popped pending fail with
  | zero =>
    cases pending with
    | nil =>
      refine ⟨fail, rfl, hvis.len, ?_⟩
      intro v hv
      exact hvis.all h.nodes.tree hv
    | cons x pending =>
      have hle := (List.subperm_of_subset hvis.nodup hvis.mem).length_le
      rw [List.length_append, List.length_cons] at hle
      omega
  | succ fuel ih =>
    cases pending with
    | nil =>
      refine ⟨fail, rfl, hvis.len, ?_⟩
      intro v hv
      exact hvis.all h.nodes.tree hv
    | cons x pending =>
      have hx : x ∈ strs := hvis.mem x (by simp)
      have hne : x ≠ [] := by
        rintro rfl
        exact (List.nodup_append.mp hvis.nodup).2.2 [] hroot [] List.mem_cons_self rfl
      obtain ⟨fail1, hrun, hvis1⟩ := hvis.next h.nodes (queue_step_expands h hx hne)
        (pending.map (state_of strs))
      rw [List.map_cons]
      unfold queue_loop
      simp only [hrun, ok_bind]
      rw [← List.map_append]
      apply ih hvis1 (List.mem_append_left _ hroot)
      rw [List.length_append, List.length_singleton]
      omega

end

end dfajit.failure_links
