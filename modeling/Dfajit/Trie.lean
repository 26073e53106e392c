-- The trie of the patterns: its states are the prefixes of the patterns, and
-- each state knows the children of its text.
import Dfajit.Lib.TextTree
import Dfajit.Patterns

namespace dfajit.trie

open error table codegen dfa text_tree

/-! ## The state of a text -/

instance lawful_texts : LawfulBEq (List UInt8) := inferInstance

/-- The state of a text: its node, or the start state where it has none. -/
def state_of (strs : List (List UInt8)) (w : List UInt8) : UInt32 :=
  if w ∈ strs then .ofNat (strs.idxOf w) else 0

/-- A tree whose nodes have a number of 32 bits each, with one to spare. -/
structure Nodes (strs : List (List UInt8)) : Prop where
  tree : Tree strs
  few : strs.length < 2 ^ 32

section

variable {strs strs' : List (List UInt8)} {v w : List UInt8}

theorem state_of_not_mem (h : w ∉ strs) : state_of strs w = 0 := if_neg h

theorem Nodes.nil_mem (h : Nodes strs) : [] ∈ strs := h.tree.nil_mem

theorem Nodes.toNat_state_of (h : Nodes strs) (hw : w ∈ strs) :
    (state_of strs w).toNat = strs.idxOf w := by
  have hlt := List.idxOf_lt_length_of_mem hw
  have hfew := h.few
  unfold state_of
  rw [if_pos hw, u32_toNat (by omega)]

theorem Nodes.state_lt (h : Nodes strs) (hw : w ∈ strs) :
    (state_of strs w).toNat < strs.length := by
  rw [h.toNat_state_of hw]
  exact List.idxOf_lt_length_of_mem hw

theorem Nodes.get (h : Nodes strs) (hw : w ∈ strs) : strs[(state_of strs w).toNat]? = some w := by
  rw [h.toNat_state_of hw, List.getElem?_eq_getElem (List.idxOf_lt_length_of_mem hw)]
  exact congrArg some (List.getElem_idxOf _)

/-- The text at a node has this node as its state. -/
theorem Nodes.state_of_get (h : Nodes strs) {i : Nat} (hi : strs[i]? = some w) :
    state_of strs w = .ofNat i := by
  obtain ⟨hlt, rfl⟩ := List.getElem?_eq_some_iff.mp hi
  unfold state_of
  rw [if_pos (List.getElem_mem hlt), h.tree.nodup.idxOf_getElem]

theorem Nodes.toNat_of_get (h : Nodes strs) {i : Nat} (hi : strs[i]? = some w) :
    (state_of strs w).toNat = i := by
  have hlt := (List.getElem?_eq_some_iff.mp hi).1
  have hfew := h.few
  rw [h.state_of_get hi, u32_toNat (by omega)]

theorem Nodes.inj (h : Nodes strs) (hv : v ∈ strs) (hw : w ∈ strs)
    (he : (state_of strs v).toNat = (state_of strs w).toNat) : v = w := by
  have h1 := h.get hv
  rw [he, h.get hw] at h1
  exact (Option.some.inj h1).symm

theorem Nodes.state_of_nil (h : Nodes strs) : state_of strs [] = 0 := h.state_of_get h.tree.root

/-- The start state is the state of the empty text, and of the texts that have
no node. -/
theorem Nodes.state_ne_zero (h : Nodes strs) : state_of strs w ≠ 0 ↔ w ∈ strs ∧ w ≠ [] := by
  constructor
  · intro hne
    refine ⟨?_, ?_⟩
    · by_contra hw
      exact hne (state_of_not_mem hw)
    · rintro rfl
      exact hne h.state_of_nil
  · rintro ⟨hw, hne⟩ he
    apply hne
    apply h.inj hw h.nil_mem
    rw [he, h.state_of_nil]

/-- No node has the number that stands for no state. -/
theorem Nodes.state_ne_none (h : Nodes strs) (hw : w ∈ strs) : state_of strs w ≠ NONE := by
  have hlt := h.state_lt hw
  have hfew := h.few
  exact ne_none_of_lt (by omega)

/-- A tree that grows keeps its states. -/
theorem state_of_grown (hp : strs <+: strs') (hw : w ∈ strs) : state_of strs' w = state_of strs w := by
  obtain ⟨l, rfl⟩ := hp
  unfold state_of
  rw [if_pos hw, if_pos (List.mem_append_left _ hw), List.idxOf_append_of_mem hw]

/-- One text more changes the state of no other. -/
theorem state_of_other (hne : w ≠ v) : state_of (strs ++ [v]) w = state_of strs w := by
  by_cases hw : w ∈ strs
  · exact state_of_grown (List.prefix_append _ _) hw
  · rw [state_of_not_mem hw, state_of_not_mem]
    simp [hw, hne]

theorem state_of_last (hw : w ∉ strs) : state_of (strs ++ [w]) w = .ofNat strs.length := by
  unfold state_of
  rw [if_pos (by simp), List.idxOf_append_of_notMem hw, List.idxOf_cons_self, Nat.add_zero]

/-- The children of the states, when the child `b` of `v` is added. -/
theorem state_of_kid {b : UInt8} (hnew : v ++ [b] ∉ strs) (w : List UInt8) (c : UInt8) :
    state_of (strs ++ [v ++ [b]]) (w ++ [c]) =
      if w = v ∧ c = b then .ofNat strs.length else state_of strs (w ++ [c]) := by
  by_cases hkid : w = v ∧ c = b
  · obtain ⟨rfl, rfl⟩ := hkid
    rw [if_pos ⟨rfl, rfl⟩, state_of_last hnew]
  · rw [if_neg hkid, state_of_other]
    intro he
    obtain ⟨hw, hc⟩ := List.append_inj' he rfl
    exact hkid ⟨hw, List.singleton_inj.mp hc⟩

end

/-! ## The rows of the trie -/

/-- The rows hold the children of each text. -/
structure Spells (strs : List (List UInt8)) (trans : List Row) : Prop where
  nodes : Nodes strs
  len : trans.length = strs.length
  rows : ∀ w ∈ strs, ∃ row, trans[(state_of strs w).toNat]? = some row ∧
    ∀ b, row b = state_of strs (w ++ [b])

section

variable {strs : List (List UInt8)} {trans : List Row} {v w : List UInt8}

theorem Spells.lookup (h : Spells strs trans) (hw : w ∈ strs) (b : UInt8) :
    dfa.lookup trans (state_of strs w) b = .ok (state_of strs (w ++ [b])) := by
  obtain ⟨row, hrow, hb⟩ := h.rows w hw
  unfold dfa.lookup
  rw [index_ok hrow, ok_bind, hb]

theorem spells_root : Spells [[]] [no_targets] := by
  refine ⟨⟨tree_single, by decide⟩, rfl, ?_⟩
  intro w hw
  rw [List.mem_singleton] at hw
  subst hw
  refine ⟨no_targets, rfl, ?_⟩
  intro b
  exact (state_of_not_mem (by simp)).symm

/-- A child more: the row of its parent points to it, and it has no children. -/
theorem Spells.add (h : Spells strs trans) (hv : v ∈ strs) {b : UInt8} (hnew : v ++ [b] ∉ strs)
    (hfew : strs.length + 1 < 2 ^ 32) :
    ∃ trans', set_target (trans ++ [no_targets]) (state_of strs v) b (.ofNat strs.length) =
        .ok trans' ∧ Spells (strs ++ [v ++ [b]]) trans' := by
  have hlt := h.nodes.state_lt hv
  have hlen := h.len
  obtain ⟨row, hrow, hkids⟩ := h.rows v hv
  have hrow' : (trans ++ [no_targets])[(state_of strs v).toNat]? = some row := by
    rw [List.getElem?_append_left (by omega)]
    exact hrow
  have hnodes : Nodes (strs ++ [v ++ [b]]) := ⟨h.nodes.tree.snoc hv hnew, by simpa using hfew⟩
  unfold set_target
  rw [index_ok hrow', ok_bind]
  refine ⟨_, rfl, hnodes, by simp [hlen], ?_⟩
  intro w hw
  simp only [state_of_kid hnew]
  by_cases hlast : w = v ++ [b]
  · subst hlast
    have hplace : (state_of (strs ++ [v ++ [b]]) (v ++ [b])).toNat = trans.length := by
      rw [state_of_last hnew, u32_toNat (by omega), hlen]
    refine ⟨no_targets, ?_, ?_⟩
    · rw [hplace, List.getElem?_set_ne (by omega), List.getElem?_append_right (Nat.le_refl _)]
      simp
    · intro c
      rw [if_neg (by simp), state_of_not_mem fun hc => hnew (h.nodes.tree.init _ c hc)]
      rfl
  have hw : w ∈ strs := by
    rcases List.mem_append.mp hw with hw | hw
    · exact hw
    · exact absurd (List.mem_singleton.mp hw) hlast
  have hwlt := h.nodes.state_lt hw
  rw [state_of_other hlast]
  by_cases hwv : w = v
  · subst hwv
    refine ⟨_, List.getElem?_set_self (by simp; omega), ?_⟩
    intro c
    simp only [true_and, hkids]
  · obtain ⟨row', hrow', hkids'⟩ := h.rows w hw
    refine ⟨row', ?_, ?_⟩
    · have hne : (state_of strs v).toNat ≠ (state_of strs w).toNat := by
        intro he
        exact hwv (h.nodes.inj hv hw he).symm
      rw [List.getElem?_set_ne hne, List.getElem?_append_left (by omega)]
      exact hrow'
    · intro c
      rw [if_neg fun hkid => hwv hkid.1, hkids']

end

/-! ## One pattern -/

theorem set_target_length {trans trans' : List Row} {state next : UInt32} {byte : UInt8}
    (h : set_target trans state byte next = .ok trans') : trans'.length = trans.length := by
  unfold set_target at h
  obtain ⟨row, _, h⟩ := bind_ok.mp h
  cases h
  exact List.length_set

theorem insert_bytes_le {bytes : List UInt8} {n : Nat} {trans : List Row} {current : UInt32}
    {r : Nat × List Row × UInt32} (h : insert_bytes n trans current bytes = .ok r) :
    trans.length ≤ r.2.1.length := by
  induction bytes generalizing n trans current with
  | nil =>
    cases h
    exact Nat.le_refl _
  | cons b bytes ih =>
    unfold insert_bytes at h
    obtain ⟨next, _, h⟩ := bind_ok.mp h
    split at h
    · obtain ⟨trans', hset, h⟩ := bind_ok.mp h
      have hlen := set_target_length hset
      have hle := ih h
      rw [List.length_append, List.length_singleton] at hlen
      omega
    · exact ih h

/-- The walk along a pattern goes to the state of the pattern. The states are
numbered right as long as there are numbers, which fewer than 2^32 rows in the
result show as well as the number of prefixes does. -/
theorem insert_bytes_spells {bytes : List UInt8} {strs : List (List UInt8)} {trans : List Row}
    {v : List UInt8} (h : Spells strs trans) (hv : v ∈ strs)
    (hfit : (grow strs v bytes).length < 2 ^ 32 ∨
      ∃ r, insert_bytes strs.length trans (state_of strs v) bytes = .ok r ∧
        r.2.1.length < 2 ^ 32) :
    ∃ trans', insert_bytes strs.length trans (state_of strs v) bytes =
        .ok ((grow strs v bytes).length, trans', state_of (grow strs v bytes) (v ++ bytes)) ∧
      Spells (grow strs v bytes) trans' := by
  induction bytes generalizing strs trans v with
  | nil =>
    refine ⟨trans, ?_, h⟩
    unfold insert_bytes grow
    rw [List.append_nil]
  | cons b bytes ih =>
    unfold insert_bytes grow at hfit ⊢
    rw [h.lookup hv b, ok_bind] at hfit ⊢
    by_cases hin : v ++ [b] ∈ strs
    · have hne : state_of strs (v ++ [b]) ≠ 0 := h.nodes.state_ne_zero.mpr ⟨hin, by simp⟩
      rw [if_neg hne] at hfit ⊢
      rw [if_pos hin] at hfit ⊢
      have h1 := ih h hin hfit
      rwa [List.append_assoc, List.singleton_append] at h1
    · rw [if_pos (state_of_not_mem hin)] at hfit ⊢
      rw [if_neg hin] at hfit ⊢
      have hfew : strs.length + 1 < 2 ^ 32 := by
        rcases hfit with hfit | ⟨r, hr, hlt⟩
        · have hgrow : strs ++ [v ++ [b]] <+: grow (strs ++ [v ++ [b]]) (v ++ [b]) bytes :=
            prefix_grow
          have := hgrow.length_le
          rw [List.length_append, List.length_singleton] at this
          omega
        · obtain ⟨trans1, hset, hr⟩ := bind_ok.mp hr
          have hlen := set_target_length hset
          have hle := insert_bytes_le hr
          rw [List.length_append, List.length_singleton, h.len] at hlen
          omega
      obtain ⟨trans1, hset, hspells⟩ := h.add hv hin hfew
      simp only [hset, ok_bind] at hfit ⊢
      have hlast := state_of_last hin
      have hlen : (strs ++ [v ++ [b]]).length = strs.length + 1 := by simp
      rw [← hlast, ← hlen] at hfit ⊢
      have h1 := ih hspells (by simp) hfit
      rwa [List.append_assoc, List.singleton_append] at h1

/-! ## All patterns -/

theorem texts_isPrefix (done rest : List (List UInt8)) : texts done <+: texts (done ++ rest) := by
  induction rest using List.reverseRecOn with
  | nil =>
    rw [List.append_nil]
  | append_singleton rest p ih =>
    rw [← List.append_assoc, texts_snoc]
    exact ih.trans prefix_grow

/-- The accept entries of the patterns that are not empty. -/
def entries (strs patterns : List (List UInt8)) : List (UInt32 × UInt32) :=
  (patterns.zipIdx.filter fun p => !p.1.isEmpty).map fun p => (state_of strs p.1, .ofNat p.2)

theorem entries_snoc (strs done : List (List UInt8)) (p : List UInt8) :
    entries strs (done ++ [p]) =
      entries strs done ++ if p.isEmpty then [] else [(state_of strs p, .ofNat done.length)] := by
  unfold entries
  rw [List.zipIdx_append, List.filter_append, List.map_append]
  cases p <;> simp

theorem entries_grown {strs strs' : List (List UInt8)} (hp : strs <+: strs')
    {patterns : List (List UInt8)} (h : ∀ p ∈ patterns, p ∈ strs) :
    entries strs' patterns = entries strs patterns := by
  unfold entries
  apply List.map_congr_left
  intro p hmem
  have hin := h p.1 (List.fst_mem_of_mem_zipIdx (List.mem_of_mem_filter hmem))
  rw [state_of_grown hp hin]

/-- The trie after the patterns of `done`, out of `total`. -/
structure Grown (done : List (List UInt8)) (total : Nat) (trie : Trie) : Prop where
  spells : Spells (texts done) trie.trans
  count : trie.state_count = (texts done).length
  accepts : trie.accepts = entries (texts done) done
  lengths : trie.lengths =
    done.map (fun p => .ofNat p.length) ++ List.replicate (total - done.length) 0

theorem insert_pattern_le {trie trie' : Trie} {pid : Nat} {p : List UInt8}
    (h : insert_pattern trie pid p = .ok trie') : trie.trans.length ≤ trie'.trans.length := by
  unfold insert_pattern at h
  split at h
  · cases h
    exact Nat.le_refl _
  · obtain ⟨r, hr, h⟩ := bind_ok.mp h
    obtain ⟨lengths, _, h⟩ := bind_ok.mp h
    cases h
    exact insert_bytes_le hr

theorem insert_patterns_le {rest : List (List UInt8)} {trie trie' : Trie} {pid : Nat}
    (h : insert_patterns trie pid rest = .ok trie') : trie.trans.length ≤ trie'.trans.length := by
  induction rest generalizing trie pid with
  | nil =>
    cases h
    exact Nat.le_refl _
  | cons p rest ih =>
    unfold insert_patterns at h
    obtain ⟨trie1, h1, h⟩ := bind_ok.mp h
    exact Nat.le_trans (insert_pattern_le h1) (ih h)

/-- The lengths that are still missing, with one pattern less. -/
theorem rest_lengths {done : List (List UInt8)} {total : Nat} (hroom : done.length < total)
    (p : List UInt8) : List.replicate (total - done.length) (0 : UInt32) =
      0 :: List.replicate (total - (done ++ [p]).length) 0 := by
  rw [List.length_append, List.length_singleton, ← List.replicate_succ]
  congr 1
  omega

/-- An empty pattern changes nothing. -/
theorem Grown.skip {done : List (List UInt8)} {total : Nat} {trie : Trie}
    (h : Grown done total trie) (hroom : done.length < total) : Grown (done ++ [[]]) total trie := by
  have htexts : texts (done ++ [[]]) = texts done := texts_snoc _
  refine ⟨?_, ?_, ?_, ?_⟩
  · rw [htexts]
    exact h.spells
  · rw [htexts]
    exact h.count
  · rw [htexts, entries_snoc, h.accepts]
    exact (List.append_nil _).symm
  · rw [h.lengths, rest_lengths hroom []]
    simp

/-- Any other pattern adds its prefixes, an accept entry and its length. -/
theorem Grown.insert {done : List (List UInt8)} {total : Nat} {trie : Trie}
    (h : Grown done total trie) {p : List UInt8} (hp : ¬ p.isEmpty) {trans' : List Row}
    (hspells : Spells (grow (texts done) [] p) trans') :
    Grown (done ++ [p]) total {
      state_count := (grow (texts done) [] p).length
      trans := trans'
      accepts := trie.accepts ++ [(state_of (grow (texts done) [] p) p, .ofNat done.length)]
      lengths := (done ++ [p]).map (fun p => .ofNat p.length) ++
        List.replicate (total - (done ++ [p]).length) 0 } := by
  refine ⟨?_, ?_, ?_, rfl⟩
  · rw [texts_snoc]
    exact hspells
  · rw [texts_snoc]
  · rw [texts_snoc, entries_snoc, entries_grown prefix_grow fun q hq => mem_texts_self hq,
      ← h.accepts, if_neg hp]

theorem Grown.step {done : List (List UInt8)} {total : Nat} {trie : Trie}
    (h : Grown done total trie) (hroom : done.length < total) (p : List UInt8)
    (hfit : (texts (done ++ [p])).length < 2 ^ 32 ∨
      ∃ trie', insert_pattern trie done.length p = .ok trie' ∧ trie'.trans.length < 2 ^ 32) :
    ∃ trie', insert_pattern trie done.length p = .ok trie' ∧ Grown (done ++ [p]) total trie' := by
  rw [texts_snoc] at hfit
  unfold insert_pattern at hfit ⊢
  by_cases hempty : p.isEmpty
  · rw [if_pos hempty]
    rw [List.isEmpty_iff.mp hempty]
    exact ⟨trie, rfl, h.skip hroom⟩
  · rw [if_neg hempty] at hfit ⊢
    have hroot := h.spells.nodes.state_of_nil
    have hfit' : (grow (texts done) [] p).length < 2 ^ 32 ∨
        ∃ r, insert_bytes (texts done).length trie.trans (state_of (texts done) []) p = .ok r ∧
          r.2.1.length < 2 ^ 32 := by
      rw [hroot, ← h.count]
      rcases hfit with hfit | ⟨trie', hfit, hlt⟩
      · exact Or.inl hfit
      · obtain ⟨r, hr, hfit⟩ := bind_ok.mp hfit
        obtain ⟨lengths, _, hfit⟩ := bind_ok.mp hfit
        cases hfit
        exact Or.inr ⟨r, hr, hlt⟩
    obtain ⟨trans', hins, hspells⟩ := insert_bytes_spells h.spells h.spells.nodes.nil_mem hfit'
    rw [hroot, ← h.count] at hins
    have hset : set_index trie.lengths done.length (.ofNat p.length) =
        .ok ((done ++ [p]).map (fun p => .ofNat p.length) ++
          List.replicate (total - (done ++ [p]).length) 0) := by
      unfold set_index
      rw [if_pos (by rw [h.lengths]; simp; omega), h.lengths, rest_lengths hroom p]
      simp
    rw [hins, ok_bind]
    simp only [hset, ok_bind]
    exact ⟨_, rfl, h.insert hempty hspells⟩

theorem insert_patterns_grown {rest done : List (List UInt8)} {total : Nat} {trie : Trie}
    (h : Grown done total trie) (hroom : done.length + rest.length = total)
    (hfit : (texts (done ++ rest)).length < 2 ^ 32 ∨
      ∃ trie', insert_patterns trie done.length rest = .ok trie' ∧ trie'.trans.length < 2 ^ 32) :
    ∃ trie', insert_patterns trie done.length rest = .ok trie' ∧
      Grown (done ++ rest) total trie' := by
  induction rest generalizing done trie with
  | nil =>
    refine ⟨trie, rfl, ?_⟩
    rw [List.append_nil]
    exact h
  | cons p rest ih =>
    have hassoc : done ++ p :: rest = done ++ [p] ++ rest := by simp
    have hlen : (done ++ [p]).length = done.length + 1 := by simp
    rw [List.length_cons] at hroom
    obtain ⟨trie1, h1, hgrown⟩ := h.step (by omega) p (by
      rcases hfit with hfit | ⟨trie', hfit, hlt⟩
      · refine Or.inl ?_
        have := (texts_isPrefix (done ++ [p]) rest).length_le
        rw [hassoc] at hfit
        omega
      · unfold insert_patterns at hfit
        obtain ⟨trie1, h1, hfit⟩ := bind_ok.mp hfit
        have := insert_patterns_le hfit
        exact Or.inr ⟨trie1, h1, by omega⟩)
    unfold insert_patterns at hfit ⊢
    rw [h1, ok_bind, ← hlen, hassoc] at hfit ⊢
    exact ih hgrown (by omega) hfit

/-- The trie has a state for each prefix of a pattern. -/
theorem build_trie_grown {patterns : List (List UInt8)}
    (hfit : (texts patterns).length < 2 ^ 32 ∨
      ∃ trie, build_trie patterns = .ok trie ∧ trie.trans.length < 2 ^ 32) :
    ∃ trie, build_trie patterns = .ok trie ∧ Grown patterns patterns.length trie := by
  have hstart : Grown [] patterns.length {
      state_count := 1
      trans := [no_targets]
      accepts := []
      lengths := List.replicate patterns.length 0 } := by
    refine ⟨spells_root, rfl, rfl, ?_⟩
    simp
  unfold build_trie at hfit ⊢
  exact insert_patterns_grown hstart (by simp) hfit

end dfajit.trie
