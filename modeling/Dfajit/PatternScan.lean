-- What the table of the patterns reports after a text: the patterns that end the
-- text, if the state of the text is that of a pattern, and otherwise only the
-- longest of them.
import Dfajit.DenseTable
import Dfajit.OutputChains
import Dfajit.Engines

namespace dfajit.pattern_scan

open error table codegen table_scan jit_run dfa engines reset_run text_tree trie failure_links
  output_links dense_table

/-! ## The table of the patterns -/

/-- What `from_patterns` compiles for these patterns. -/
structure Built (patterns : List (List UInt8)) (t : TransitionTable) (links : List UInt32) :
    Prop where
  nodes : Nodes (texts patterns)
  states : (texts patterns).length ≤ MAX_STATES
  sized : Sized (texts patterns).length t
  cells : ∀ v ∈ texts patterns, ∀ b, cell t (state_of (texts patterns) v).toNat b =
    some (state_of (texts patterns) (longest (texts patterns) (v ++ [b])))
  nodup : (t.accept_states.map (·.1)).Nodup
  accepts : ∀ a, a ∈ t.accept_states ↔ ∃ v ∈ texts patterns,
    a.1 = state_of (texts patterns) v ∧ first_pid patterns v = some a.2
  room : min patterns.length (2 ^ 32) ≤ t.pattern_lengths.length
  links : links = (texts patterns).map (out_link (texts patterns) patterns)

/-- What it compiles where a `u32` can number the patterns. -/
structure Automaton (patterns : List (List UInt8)) (t : TransitionTable) (links : List UInt32) :
    Prop extends Built patterns t links where
  few : patterns.length < 2 ^ 32
  lengths : t.pattern_lengths = patterns.map fun p => .ofNat p.length

section

variable {patterns : List (List UInt8)} {t : TransitionTable} {links : List UInt32}

theorem first_pid_mem {v : List UInt8} {pid : UInt32} (h : first_pid patterns v = some pid) :
    ∃ u vs, ends patterns v = u :: vs ∧ u ∈ patterns ∧ pid = pid_of patterns u := by
  unfold first_pid at h
  cases hends : ends patterns v with
  | nil =>
    rw [hends] at h
    cases h
  | cons u vs =>
    rw [hends] at h
    have hu := suffix.mem_hits.mp (hends ▸ List.mem_cons_self : u ∈ ends patterns v)
    exact ⟨u, vs, rfl, hu.2.1, (Option.some.inj h).symm⟩

theorem pid_of_toNat (hfew : patterns.length < 2 ^ 32) {v : List UInt8} (hv : v ∈ patterns) :
    (pid_of patterns v).toNat = patterns.idxOf v := by
  have hlt := List.idxOf_lt_length_of_mem hv
  unfold pid_of
  rw [u32_toNat (by omega)]

theorem pid_of_le (patterns : List (List UInt8)) (v : List UInt8) :
    (pid_of patterns v).toNat ≤ patterns.idxOf v := by
  unfold pid_of
  rw [UInt32.toNat_ofNat']
  exact Nat.mod_le _ _

/-- A trie with no more states than a table may have. -/
theorem build_trie_within
    (hfit : (texts patterns).length ≤ MAX_STATES ∨
      ∃ trie, build_trie patterns = .ok trie ∧ trie.trans.length ≤ MAX_STATES) :
    ∃ trie, build_trie patterns = .ok trie ∧ Grown patterns patterns.length trie ∧
      (texts patterns).length ≤ MAX_STATES := by
  have hmax : MAX_STATES < 2 ^ 32 := by decide
  have hgrows : (texts patterns).length < 2 ^ 32 ∨
      ∃ trie, build_trie patterns = .ok trie ∧ trie.trans.length < 2 ^ 32 := by
    rcases hfit with hfit | ⟨trie, hbuild, hlen⟩
    · exact Or.inl (by omega)
    · exact Or.inr ⟨trie, hbuild, by omega⟩
  obtain ⟨trie, hbuild, hgrown⟩ := build_trie_grown hgrows
  refine ⟨trie, hbuild, hgrown, ?_⟩
  rcases hfit with hfit | ⟨trie', hbuild', hlen⟩
  · exact hfit
  · rw [hbuild] at hbuild'
    cases hbuild'
    rwa [hgrown.spells.len] at hlen

/-- The failure links, the output links and the table of a trie with no more
states than a table may have. -/
theorem grown_built {trie : Trie} (hgrown : Grown patterns patterns.length trie)
    (hstates : (texts patterns).length ≤ MAX_STATES) :
    ∃ fail accepts links t,
      build_failure_links trie.trans trie.accepts = .ok (fail, accepts, links) ∧
      build_dense_table trie.trans fail accepts trie.lengths = .ok t ∧
      Links (texts patterns) patterns fail accepts links ∧ Built patterns t links ∧
      (patterns.length ≤ 2 ^ 32 → t.pattern_lengths = patterns.map fun p => .ofNat p.length) := by
  have hcov := texts_cover patterns
  obtain ⟨fail, accepts, links, hlinks, hspec⟩ := build_failure_links_eq hgrown.spells hcov
  rw [← hgrown.accepts] at hlinks
  have hlengths : trie.lengths = patterns.map fun p => .ofNat p.length := by
    rw [hgrown.lengths, Nat.sub_self, List.replicate_zero, List.append_nil]
  have hlen : trie.lengths.length = patterns.length := by rw [hlengths, List.length_map]
  have hpids : ∀ a ∈ accepts, a.2.toNat < trie.lengths.length := by
    intro a ha
    obtain ⟨v, _, _, hfirst⟩ := (hspec.accepts a).mp ha
    obtain ⟨u, _, _, hu, hpid⟩ := first_pid_mem hfirst
    have hle := pid_of_le patterns u
    have hlt := List.idxOf_lt_length_of_mem hu
    rw [hpid, hlen]
    omega
  obtain ⟨t, hdense, hd⟩ := build_dense_table_eq hgrown.spells hspec.fails hstates hpids
  have hroom := hd.room
  have hsame := hd.lengths
  rw [hlen] at hroom hsame
  refine ⟨fail, accepts, links, t, hlinks, hdense, hspec, ?_, fun hle => (hsame hle).trans hlengths⟩
  refine ⟨hgrown.spells.nodes, hstates, hd.sized, hd.cells, ?_, ?_, hroom, hspec.links⟩
  · rw [hd.accepts]
    exact hspec.nodup
  · rw [hd.accepts]
    exact hspec.accepts

/-- The steps of `from_patterns` up to the compilation: they come to an end, and
to a table, if there are no more prefixes than states that a table may have. -/
theorem pattern_table_built (hne : patterns ≠ [])
    (hfit : (texts patterns).length ≤ MAX_STATES ∨ ∃ r, pattern_table patterns = .ok r) :
    ∃ t links, pattern_table patterns = .ok (t, links) ∧ Built patterns t links ∧
      (patterns.length ≤ 2 ^ 32 → t.pattern_lengths = patterns.map fun p => .ofNat p.length) := by
  have hempty : ¬ patterns.isEmpty := by simpa using hne
  unfold pattern_table at hfit ⊢
  rw [if_neg hempty] at hfit ⊢
  have hfew : (texts patterns).length ≤ MAX_STATES ∨
      ∃ trie, build_trie patterns = .ok trie ∧ trie.trans.length ≤ MAX_STATES := by
    rcases hfit with hfit | ⟨r, hfit⟩
    · exact Or.inl hfit
    · obtain ⟨trie, hbuild, hfit⟩ := bind_ok.mp hfit
      obtain ⟨⟨fail, accepts, links⟩, _, hfit⟩ := bind_ok.mp hfit
      obtain ⟨t, hdense, _⟩ := bind_ok.mp hfit
      exact Or.inr ⟨trie, hbuild, build_dense_table_few hdense⟩
  obtain ⟨trie, hbuild, hgrown, hstates⟩ := build_trie_within hfew
  obtain ⟨fail, accepts, links, t, hlinks, hdense, _, hb, hlengths⟩ := grown_built hgrown hstates
  rw [hbuild, ok_bind]
  simp only [hlinks, ok_bind]
  rw [hdense]
  exact ⟨t, links, rfl, hb, hlengths⟩

theorem pattern_table_automaton (hfew : patterns.length < 2 ^ 32) (hne : patterns ≠ [])
    (hfit : (texts patterns).length ≤ MAX_STATES ∨ ∃ r, pattern_table patterns = .ok r) :
    ∃ t links, pattern_table patterns = .ok (t, links) ∧ Automaton patterns t links := by
  obtain ⟨t, links, htable, hb, hlengths⟩ := pattern_table_built hne hfit
  exact ⟨t, links, htable, hb, hfew, hlengths (Nat.le_of_lt hfew)⟩

theorem pattern_table_ne_nil (h : pattern_table patterns = .ok (t, links)) : patterns ≠ [] := by
  rintro rfl
  cases h

theorem built_of_ok (h : pattern_table patterns = .ok (t, links)) : Built patterns t links := by
  obtain ⟨t', links', h', hb, _⟩ :=
    pattern_table_built (pattern_table_ne_nil h) (Or.inr ⟨_, h⟩)
  rw [h] at h'
  cases h'
  exact hb

theorem automaton_of_ok (hfew : patterns.length < 2 ^ 32)
    (h : pattern_table patterns = .ok (t, links)) : Automaton patterns t links := by
  obtain ⟨t', links', h', ha⟩ :=
    pattern_table_automaton hfew (pattern_table_ne_nil h) (Or.inr ⟨_, h⟩)
  rw [h] at h'
  cases h'
  exact ha

end

/-! ## The states and their patterns -/

section

variable {patterns : List (List UInt8)} {t : TransitionTable} {links : List UInt32}
  {v : List UInt8}

theorem Built.covered (_ : Built patterns t links) : ∀ p ∈ patterns, p ∈ texts patterns :=
  texts_cover patterns

theorem Built.state_lt (h : Built patterns t links) (hv : v ∈ texts patterns) :
    (state_of (texts patterns) v).toNat < t.state_count := by
  rw [h.sized.states]
  exact h.nodes.state_lt hv

theorem Built.exists_text (h : Built patterns t links) {s : UInt32}
    (hs : s.toNat < t.state_count) : ∃ v ∈ texts patterns, s = state_of (texts patterns) v := by
  rw [h.sized.states] at hs
  refine ⟨_, List.getElem_mem hs, ?_⟩
  rw [h.nodes.state_of_get (List.getElem?_eq_getElem hs), UInt32.ofNat_toNat]

/-- The pattern of a state is the first one that ends its text. -/
theorem Built.pattern_of_state (h : Built patterns t links) (hv : v ∈ texts patterns) :
    pattern_of t (state_of (texts patterns) v) = (first_pid patterns v).getD NONE := by
  cases hfirst : first_pid patterns v with
  | some pid =>
    have hmem := (h.accepts (state_of (texts patterns) v, pid)).mpr ⟨v, hv, rfl, hfirst⟩
    have hget := accept_table_of_mem h.nodup hmem (h.state_lt hv)
    rw [accept_table_get (h.state_lt hv)] at hget
    exact Option.some.inj hget
  | none =>
    by_contra hne
    obtain ⟨u, hu, hstate, hsome⟩ := (h.accepts _).mp (pattern_of_mem hne)
    have huv : v = u := h.nodes.inj hv hu (congrArg UInt32.toNat hstate)
    rw [huv, hsome] at hfirst
    cases hfirst

theorem pid_ne_none (hfew : patterns.length < 2 ^ 32) (hv : v ∈ patterns) :
    pid_of patterns v ≠ NONE := by
  have hlt := List.idxOf_lt_length_of_mem hv
  have hpid := pid_of_toNat hfew hv
  exact ne_none_of_lt (by omega)

theorem Automaton.pattern_none_iff (h : Automaton patterns t links) (hv : v ∈ texts patterns) :
    pattern_of t (state_of (texts patterns) v) = NONE ↔ ends patterns v = [] := by
  rw [h.pattern_of_state hv]
  constructor
  · intro hnone
    cases hfirst : first_pid patterns v with
    | some pid =>
      obtain ⟨u, _, _, hu, hpid⟩ := first_pid_mem hfirst
      rw [hfirst, Option.getD_some, hpid] at hnone
      exact absurd hnone (pid_ne_none h.few hu)
    | none =>
      unfold first_pid at hfirst
      simpa using hfirst
  · intro hends
    unfold first_pid
    rw [hends]
    rfl

theorem Built.pattern_of_pattern (h : Built patterns t links)
    (hv : IsPattern patterns v) : pattern_of t (state_of (texts patterns) v) = pid_of patterns v := by
  rw [h.pattern_of_state (h.covered v hv.1), first_pid_of_pattern h.covered hv]
  rfl

/-! ## The chains -/

/-- From a pattern the links lead through the patterns that end it. -/
theorem Built.chain_pattern (h : Built patterns t links) {vs : List (List UInt8)}
    (hp : IsPattern patterns v) (hends : ends patterns v = v :: vs) :
    Chain links (state_of (texts patterns) v) ((v :: vs).map (state_of (texts patterns))) := by
  rw [h.links]
  exact output_chains.chain_pattern h.nodes h.covered hp hends

/-- From any other state the links lead nowhere. -/
theorem Built.chain_other (h : Built patterns t links) (hv : v ∈ texts patterns)
    (hp : ¬ IsPattern patterns v) : Chain links (state_of (texts patterns) v) [state_of (texts patterns) v] := by
  rw [h.links]
  exact output_chains.chain_other h.nodes hv hp

/-- Each transition goes to a state, and has no flag. -/
theorem Built.target_lt (h : Built patterns t links) {x : UInt32}
    (hx : x ∈ t.transitions) : x.toNat < t.state_count := by
  obtain ⟨s, hs, b, hx⟩ := h.sized.cell_of_mem hx
  have hv := List.getElem_mem hs
  have hget := List.getElem?_eq_getElem hs
  generalize (texts patterns)[s] = v at hv hget
  have hcell := h.cells v hv b
  rw [h.nodes.toNat_of_get hget, hx] at hcell
  rw [Option.some.inj hcell]
  exact h.state_lt (longest_mem h.nodes.tree (v ++ [b]))

/-- The number of a pattern is that of a pattern length. -/
theorem Built.pid_lt (h : Built patterns t links) (hv : v ∈ patterns) :
    (pid_of patterns v).toNat < t.pattern_lengths.length := by
  have hle := pid_of_le patterns v
  have hidx := List.idxOf_lt_length_of_mem hv
  have hlt := (pid_of patterns v).toNat_lt
  have hroom := h.room
  omega

theorem Built.valid (h : Built patterns t links) : t.Valid := by
  refine ⟨?_, ?_, ?_, h.nodup, ?_⟩
  · rw [h.sized.len, h.sized.states, h.sized.bytes]
  · intro x hx
    have hlt := h.target_lt hx
    rwa [t.clean_of_state hlt]
  · intro a ha
    obtain ⟨v, hv, hstate, _⟩ := (h.accepts a).mp ha
    rw [hstate]
    exact h.state_lt hv
  · intro a ha
    obtain ⟨v, _, _, hfirst⟩ := (h.accepts a).mp ha
    obtain ⟨u, _, _, hu, hpid⟩ := first_pid_mem hfirst
    rw [hpid]
    exact h.pid_lt hu

theorem Built.linked (h : Built patterns t links) : Linked t links := by
  refine ⟨h.valid, h.sized.bytes, ?_, ?_⟩
  · rw [h.sized.states]
    exact List.length_pos_of_mem h.nodes.nil_mem
  · intro s hs
    obtain ⟨v, hv, rfl⟩ := h.exists_text (pattern_of_lt hs)
    by_cases hp : IsPattern patterns v
    · have hends := ends_of_pattern h.covered hp
      refine ⟨_, h.chain_pattern hp hends, ?_⟩
      intro x hx
      obtain ⟨u, hu, rfl⟩ := List.mem_map.mp hx
      rw [← hends] at hu
      have hup := (suffix.mem_hits.mp hu).2
      refine ⟨h.state_lt (h.covered u hup.1), ?_⟩
      rw [h.pattern_of_pattern hup]
      exact h.pid_lt hup.1
    · refine ⟨_, h.chain_other hv hp, ?_⟩
      intro x hx
      rw [List.mem_singleton.mp hx]
      exact entered_of_pattern h.valid hs

/-! ## The reports -/

/-- The patterns that are reported after a text: the ones that end it, if its
state is that of a pattern, and else the longest of them. -/
def reported (patterns : List (List UInt8)) (x : List UInt8) : List (List UInt8) :=
  if IsPattern patterns (longest (texts patterns) x) then ends patterns x
  else (ends patterns x).take 1

theorem Automaton.reports_state (h : Automaton patterns t links) (hv : v ∈ texts patterns) :
    reports t links (state_of (texts patterns) v) =
      (if IsPattern patterns v then ends patterns v else (ends patterns v).take 1).map
        (pid_of patterns) := by
  by_cases hp : IsPattern patterns v
  · have hne : pattern_of t (state_of (texts patterns) v) ≠ NONE := by
      rw [h.pattern_of_pattern hp]
      exact pid_ne_none h.few hp.1
    have hends := ends_of_pattern h.covered hp
    rw [reports_eq hne (h.chain_pattern hp hends), if_pos hp, ← hends, List.map_map]
    apply List.map_congr_left
    intro u hu
    exact h.pattern_of_pattern (suffix.mem_hits.mp hu).2
  · rw [if_neg hp]
    cases hends : ends patterns v with
    | nil => rw [reports_nil_iff.mpr ((h.pattern_none_iff hv).mpr hends)]; rfl
    | cons u us =>
      have hne : pattern_of t (state_of (texts patterns) v) ≠ NONE := by
        rw [Ne, h.pattern_none_iff hv, hends]
        simp
      rw [reports_eq hne (h.chain_other hv hp), List.map_singleton, h.pattern_of_state hv]
      unfold first_pid
      rw [hends]
      rfl

/-- The state after a text is that of its longest suffix in the trie. -/
theorem Built.walk_eq (h : Built patterns t links) (x : List UInt8) :
    (scanner t links).walk 0 x = state_of (texts patterns) (longest (texts patterns) x) := by
  induction x using List.reverseRecOn with
  | nil => exact h.nodes.state_of_nil.symm
  | append_singleton x b ih =>
    have hv := longest_mem h.nodes.tree x
    have hcell := h.cells _ hv b
    have hnext := h.state_lt (longest_mem h.nodes.tree (longest (texts patterns) x ++ [b]))
    rw [Scanner.walk_snoc, ih, scanner_next, h.sized.clean_next hcell, t.clean_of_state hnext]
    unfold longest
    rw [suffix.longest_snoc h.nodes.tree.prefixClosed x b]

theorem Automaton.reportOf_eq (h : Automaton patterns t links) (x : List UInt8) :
    reportOf (scanner t links) x = (reported patterns x).map (pid_of patterns) := by
  have hv := longest_mem h.nodes.tree x
  have hends : ends patterns (longest (texts patterns) x) = ends patterns x :=
    suffix.hits_longest (fun u hu => h.covered u hu.1) x
  unfold reportOf reported
  rw [scanner_start, h.walk_eq, scanner_out, h.reports_state hv, hends]

/-- A state reports no more than the patterns that end its text. -/
theorem Built.reports_length_le (h : Built patterns t links) (hv : v ∈ texts patterns) :
    (reports t links (state_of (texts patterns) v)).length ≤ (ends patterns v).length := by
  by_cases hnone : pattern_of t (state_of (texts patterns) v) = NONE
  · rw [reports_nil_iff.mpr hnone]
    exact Nat.zero_le _
  by_cases hp : IsPattern patterns v
  · have hends := ends_of_pattern h.covered hp
    rw [reports_eq hnone (h.chain_pattern hp hends), hends, List.length_map, List.length_map]
  · rw [reports_eq hnone (h.chain_other hv hp), List.length_map, List.length_singleton]
    apply List.length_pos_iff.mpr
    intro hends
    apply hnone
    rw [h.pattern_of_state hv]
    unfold first_pid
    rw [hends]
    rfl

theorem Built.sparse (h : Built patterns t links) : Sparse t links := by
  intro input
  unfold found
  rw [matchesOf_length]
  apply events_length_le
  intro x _
  have hv := longest_mem h.nodes.tree x
  have hends : ends patterns (longest (texts patterns) x) = ends patterns x :=
    suffix.hits_longest (fun u hu => h.covered u hu.1) x
  have hle : (ends patterns x).length ≤ x.length := suffix.hits_length_le not_pattern_nil x
  have hreports := h.reports_length_le hv
  rw [hends] at hreports
  unfold reportOf
  rw [scanner_start, h.walk_eq, scanner_out]
  omega

end

end dfajit.pattern_scan
