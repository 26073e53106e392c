-- The failure links and the dense table of any pattern list (dfa.rs), told by
-- the trie alone: both go to the node of the longest suffix that has one.
import Dfajit.PatternLimit

namespace dfajit.aho_corasick

open error table codegen dfa text_tree trie failure_links output_links dense_table pattern_scan
  pattern_limit suffix

/-! ## The nodes of the trie -/

/-- The walk along a text in the trie, as far as there are edges. -/
def walk_trie (trans : List Row) (state : UInt32) : List UInt8 → Option UInt32
  | [] => some state
  | byte :: rest =>
    match lookup trans state byte with
    | .error _ => none
    | .ok next => if next = 0 then none else walk_trie trans next rest

/-- The node of a text, if the text is in the trie. -/
def node (trans : List Row) (v : List UInt8) : Option UInt32 := walk_trie trans 0 v

/-- The text is in the trie. -/
def InTrie (trans : List Row) (v : List UInt8) : Prop := (node trans v).isSome

section

variable {strs : List (List UInt8)} {trans : List Row} {v w : List UInt8}

theorem walk_trie_eq (h : Spells strs trans) (hv : v ∈ strs) (w : List UInt8) :
    walk_trie trans (state_of strs v) w =
      if v ++ w ∈ strs then some (state_of strs (v ++ w)) else none := by
  induction w generalizing v with
  | nil =>
    rw [List.append_nil, if_pos hv]
    rfl
  | cons b w ih =>
    have hassoc : v ++ b :: w = v ++ [b] ++ w := by simp
    unfold walk_trie
    simp only [h.lookup hv]
    by_cases hin : v ++ [b] ∈ strs
    · rw [if_neg (h.nodes.state_ne_zero.mpr ⟨hin, by simp⟩), ih hin, hassoc]
    · rw [if_pos (state_of_not_mem hin), if_neg]
      rw [hassoc]
      intro hw
      exact hin (h.nodes.tree.mem_of_prefix hw (List.prefix_append _ _))

theorem node_eq (h : Spells strs trans) (w : List UInt8) :
    node trans w = if w ∈ strs then some (state_of strs w) else none := by
  unfold node
  rw [← h.nodes.state_of_nil]
  exact walk_trie_eq h h.nodes.nil_mem w

theorem node_of_mem (h : Spells strs trans) (hv : v ∈ strs) :
    node trans v = some (state_of strs v) := by
  rw [node_eq h, if_pos hv]

theorem inTrie_iff (h : Spells strs trans) : InTrie trans v ↔ v ∈ strs := by
  unfold InTrie
  rw [node_eq h]
  by_cases hv : v ∈ strs
  · rw [if_pos hv]
    exact iff_of_true rfl hv
  · rw [if_neg hv]
    exact iff_of_false (by simp) hv

theorem mem_of_node (h : Spells strs trans) {s : UInt32} (hs : node trans v = some s) :
    v ∈ strs ∧ s = state_of strs v := by
  rw [node_eq h] at hs
  split at hs
  · rename_i hv
    exact ⟨hv, (Option.some.inj hs).symm⟩
  · cases hs

/-- Each state of the trie is the node of one text. -/
theorem exists_unique_text (h : Spells strs trans) {s : Nat} (hs : s < trans.length) :
    ∃! v, node trans v = some (.ofNat s) := by
  rw [h.len] at hs
  have hget := List.getElem?_eq_getElem hs
  have hv := List.getElem_mem hs
  generalize strs[s] = v at hget hv
  refine ⟨v, ?_, ?_⟩
  · simp only [node_of_mem h hv, h.nodes.state_of_get hget]
  · intro u hu
    obtain ⟨hu, hstate⟩ := mem_of_node h hu
    rw [← h.nodes.state_of_get hget] at hstate
    exact h.nodes.inj hu hv (congrArg UInt32.toNat hstate.symm)

end

/-! ## The longest suffixes -/

section

variable {patterns : List (List UInt8)} {trie : Trie} {t : TransitionTable}
  {fail links : List UInt32}

/-- Within the limit the trie is built, with a node for each prefix. -/
theorem build_trie_nodes (hcard : (prefixes patterns).card ≤ MAX_STATES) :
    ∃ trie, build_trie patterns = .ok trie ∧ trie.trans.length = (prefixes patterns).card := by
  rw [card_prefixes] at hcard ⊢
  obtain ⟨trie, hbuild, hgrown, _⟩ := build_trie_within (Or.inl hcard)
  exact ⟨trie, hbuild, hgrown.spells.len⟩

/-- The failure link of a node is the node of its longest proper suffix. -/
theorem fail_longest {strs : List (List UInt8)} {trans : List Row} (h : Spells strs trans)
    (hfail : ∀ v ∈ strs, FailsTo strs fail v) {v : List UInt8} {s : UInt32}
    (hs : node trans v = some s) (hne : v ≠ []) :
    ∃ u, IsLongest (fun u => u <:+ v ∧ u ≠ v ∧ InTrie trans u) u ∧
      fail[s.toNat]? = node trans u := by
  obtain ⟨hv, rfl⟩ := mem_of_node h hs
  refine ⟨border strs v, ?_, ?_⟩
  · simp only [inTrie_iff h]
    exact border_isLongest h.nodes.nil_mem hne
  · rw [hfail v hv, node_of_mem h (failure_links.border_mem h.nodes.tree v)]

/-- The entry of a node and a byte is the node of the longest suffix. -/
theorem cell_longest (h : Spells (texts patterns) trie.trans) (hb : Built patterns t links)
    {v : List UInt8} {s : UInt32} (hs : node trie.trans v = some s) (b : UInt8) :
    ∃ u, IsLongest (fun u => u <:+ v ++ [b] ∧ InTrie trie.trans u) u ∧
      t.transitions[s.toNat * 256 + b.toNat]? = node trie.trans u := by
  obtain ⟨hv, rfl⟩ := mem_of_node h hs
  refine ⟨failure_links.longest (texts patterns) (v ++ [b]), ?_, ?_⟩
  · simp only [inTrie_iff h]
    exact longest_isLongest h.nodes.nil_mem _
  · rw [node_of_mem h (failure_links.longest_mem h.nodes.tree _)]
    exact hb.cells v hv b

/-- Reading a text without resets ends in the node of its longest suffix. -/
theorem read_longest (h : Spells (texts patterns) trie.trans) (hb : Built patterns t links)
    (w : List UInt8) :
    ∃ u, IsLongest (fun u => u <:+ w ∧ u ∈ prefixes patterns) u ∧
      some (w.foldl (clean_next t) 0) = node trie.trans u := by
  refine ⟨failure_links.longest (texts patterns) w, ?_, ?_⟩
  · simp only [prefixes_eq, List.mem_toFinset]
    exact longest_isLongest h.nodes.nil_mem w
  · rw [node_of_mem h (failure_links.longest_mem h.nodes.tree w), ← hb.walk_eq w]
    rfl

/-- The failure links and the dense table of a trie with at most 65536 nodes are
finished, and each one goes to the node of the longest suffix in the trie: the
failure link of a node to that of its text, without the text itself, and the
entry of a node and a byte to that of its text and the byte. So reading a text
without resets ends in the node of its longest suffix that is a prefix of a
pattern. -/
theorem the_links_and_the_table_go_to_the_longest_suffixes
    (hbuild : build_trie patterns = .ok trie) (hnodes : trie.trans.length ≤ 65_536) :
    (∀ s < trie.trans.length, ∃! v, node trie.trans v = some (.ofNat s)) ∧
    ∃ fail accepts links t,
      build_failure_links trie.trans trie.accepts = .ok (fail, accepts, links) ∧
      build_dense_table trie.trans fail accepts trie.lengths = .ok t ∧
      t.state_count = trie.trans.length ∧ t.class_count = 256 ∧
      (∀ v s, node trie.trans v = some s → v ≠ [] →
        ∃ u, IsLongest (fun u => u <:+ v ∧ u ≠ v ∧ InTrie trie.trans u) u ∧
          fail[s.toNat]? = node trie.trans u) ∧
      (∀ v s b, node trie.trans v = some s →
        ∃ u, IsLongest (fun u => u <:+ v ++ [b] ∧ InTrie trie.trans u) u ∧
          t.transitions[s.toNat * 256 + b.toNat]? = node trie.trans u) ∧
      ∀ w, ∃ u, IsLongest (fun u => u <:+ w ∧ u ∈ prefixes patterns) u ∧
        some (w.foldl (clean_next t) 0) = node trie.trans u := by
  obtain ⟨trie', hbuild', hgrown, hstates⟩ := build_trie_within (Or.inr ⟨trie, hbuild, hnodes⟩)
  rw [hbuild] at hbuild'
  cases hbuild'
  have hsp := hgrown.spells
  obtain ⟨fail, accepts, links, t, hlinks, hdense, hspec, hb, _⟩ := grown_built hgrown hstates
  refine ⟨?_, fail, accepts, links, t, hlinks, hdense, ?_, hb.sized.bytes, ?_, ?_, ?_⟩
  · intro s hs
    exact exists_unique_text hsp hs
  · rw [hb.sized.states, hsp.len]
  · intro v s hs hne
    exact fail_longest hsp hspec.fails hs hne
  · intro v s b hs
    exact cell_longest hsp hb hs b
  · intro w
    exact read_longest hsp hb w

end

/-- The links and the table of `ab` and `abc`. -/
theorem the_links_and_the_table_of_nested_patterns :
    ∃ trie, build_trie nested = .ok trie ∧ trie.trans.length = 4 ∧
    (∀ s < trie.trans.length, ∃! v, node trie.trans v = some (.ofNat s)) ∧
    ∃ fail accepts links t,
      build_failure_links trie.trans trie.accepts = .ok (fail, accepts, links) ∧
      build_dense_table trie.trans fail accepts trie.lengths = .ok t ∧
      t.state_count = trie.trans.length ∧ t.class_count = 256 ∧
      (∀ v s, node trie.trans v = some s → v ≠ [] →
        ∃ u, IsLongest (fun u => u <:+ v ∧ u ≠ v ∧ InTrie trie.trans u) u ∧
          fail[s.toNat]? = node trie.trans u) ∧
      (∀ v s b, node trie.trans v = some s →
        ∃ u, IsLongest (fun u => u <:+ v ++ [b] ∧ InTrie trie.trans u) u ∧
          t.transitions[s.toNat * 256 + b.toNat]? = node trie.trans u) ∧
      ∀ w, ∃ u, IsLongest (fun u => u <:+ w ∧ u ∈ prefixes nested) u ∧
        some (w.foldl (clean_next t) 0) = node trie.trans u := by
  have hcard : (prefixes nested).card = 4 := by decide
  obtain ⟨trie, hbuild, hlen⟩ := build_trie_nodes (by rw [hcard]; decide)
  rw [hcard] at hlen
  exact ⟨trie, hbuild, hlen,
    the_links_and_the_table_go_to_the_longest_suffixes hbuild (by omega)⟩

end dfajit.aho_corasick
