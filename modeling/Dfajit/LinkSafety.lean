-- The output links of any pattern list (dfa.rs), told by the trie alone: each
-- one goes to a shorter pattern or nowhere, so the loops of the scanners along
-- them (codegen.rs) come to an end, and never read at the sentinel.
import Dfajit.AhoCorasick

namespace dfajit.link_safety

open error table codegen emitted table_scan jit_run dfa engines text_tree trie failure_links
  output_links output_chains dense_table pattern_scan agreement pattern_limit aho_corasick suffix
  x64

/-! ## The links and their chains -/

/-- The state of the text ends a pattern of its own. -/
def EndsPattern (trie : Trie) (v : List UInt8) : Prop :=
  ∃ s pid, node trie.trans v = some s ∧ (s, pid) ∈ trie.accepts

/-- A shorter text that ends `v` and ends a pattern of its own. -/
def ShorterEnd (trie : Trie) (v u : List UInt8) : Prop := u <:+ v ∧ u ≠ v ∧ EndsPattern trie u

/-- The output link of a text: to the state of its longest shorter end, or
`NONE` where there is none. -/
structure LinkOf (trie : Trie) (v : List UInt8) (link : UInt32) : Prop where
  none_iff : link = NONE ↔ ¬ ∃ u, ShorterEnd trie v u
  longest : link ≠ NONE → ∃ u, IsLongest (ShorterEnd trie v) u ∧ node trie.trans u = some link

/-- The second state is that of a shorter text. -/
def Shallower (trans : List Row) (s s' : UInt32) : Prop :=
  ∃ v v', node trans v = some s ∧ node trans v' = some s' ∧ v'.length < v.length

/-- The states from `s` along the links, up to `NONE`: their depths fall, none
comes twice, and the accept entry of each is the id of a pattern. -/
structure EndingChain (trie : Trie) (patterns : List (List UInt8))
    (accepts : List (UInt32 × UInt32)) (links : List UInt32) (s : UInt32) (l : List UInt32) :
    Prop where
  chain : Chain links s l
  depths : l.Pairwise (Shallower trie.trans)
  nodup : l.Nodup
  entries : ∀ x ∈ l, ∃ pid, (x, pid) ∈ accepts ∧
    (accept_table trie.trans.length accepts)[x.toNat]? = some pid ∧ pid.toNat < patterns.length

/-- The two loops over the links from `s` come to an end after `n` rounds, with
whatever lengths, position, count and buffer. -/
structure LoopsEnd (accept_pattern links : List UInt32) (s : UInt32) (n : Nat) : Prop where
  follow : ∀ lens pos count slots, ∃ written,
    follow_outputs accept_pattern links lens pos (links.length + 2) s count slots =
      .ok (count + n, written)
  count : ∀ count, count_outputs links (links.length + 2) s count = .ok (count + n)

section

variable {strs patterns : List (List UInt8)} {trie : Trie} {accepts : List (UInt32 × UInt32)}
  {fail links : List UInt32} {v : List UInt8}

/-- The states of the patterns have accept entries, and no others have. -/
theorem mem_entries (h : Nodes strs) (hcov : ∀ p ∈ patterns, p ∈ strs) (hv : v ∈ strs) :
    (∃ pid, (state_of strs v, pid) ∈ entries strs patterns) ↔ IsPattern patterns v := by
  unfold entries
  simp only [List.mem_map, List.mem_filter]
  constructor
  · rintro ⟨pid, ⟨p, i⟩, ⟨hmem, hne⟩, he⟩
    have hp : p ∈ patterns := List.fst_mem_of_mem_zipIdx hmem
    have hpv : p = v := h.inj (hcov p hp) hv (congrArg UInt32.toNat (Prod.mk.inj he).1)
    rw [← hpv]
    exact ⟨hp, by simpa using hne⟩
  · rintro ⟨hp, hne⟩
    obtain ⟨i, hi, rfl⟩ := List.getElem_of_mem hp
    refine ⟨.ofNat i, (patterns[i], i), ⟨?_, by simpa using hne⟩, rfl⟩
    rw [List.mem_zipIdx_iff_getElem?]
    exact List.getElem?_eq_getElem hi

theorem endsPattern_iff (hgrown : Grown patterns patterns.length trie) :
    EndsPattern trie v ↔ v ∈ patterns ∧ v ≠ [] := by
  have hsp := hgrown.spells
  have hcov := texts_cover patterns
  unfold EndsPattern
  rw [hgrown.accepts]
  constructor
  · rintro ⟨s, pid, hs, hmem⟩
    obtain ⟨hv, rfl⟩ := mem_of_node hsp hs
    exact (mem_entries hsp.nodes hcov hv).mp ⟨pid, hmem⟩
  · intro hp
    have hv := hcov v hp.1
    obtain ⟨pid, hmem⟩ := (mem_entries hsp.nodes hcov hv).mpr hp
    exact ⟨_, pid, node_of_mem hsp hv, hmem⟩

/-- The link that is made for a pattern. -/
theorem linkOf_out_link (hgrown : Grown patterns patterns.length trie)
    (hv : IsPattern patterns v) : LinkOf trie v (out_link (texts patterns) patterns v) := by
  have hsp := hgrown.spells
  have hcov := texts_cover patterns
  have hends : ∀ u, ShorterEnd trie v u ↔ u <:+ v ∧ u ≠ v ∧ IsPattern patterns u := by
    intro u
    unfold ShorterEnd
    rw [endsPattern_iff hgrown]
    rfl
  rcases out_link_cases hcov hv with ⟨hnone, hno⟩ | ⟨u, hu, hlink⟩
  · refine ⟨iff_of_true hnone ?_, fun hne => absurd hnone hne⟩
    rintro ⟨u, hu⟩
    obtain ⟨hsuf, hne, hp⟩ := (hends u).mp hu
    exact hno u hsuf hne hp
  · have hmem := hcov u hu.1.2.2.1
    rw [hlink]
    refine ⟨iff_of_false (hsp.nodes.state_ne_none hmem) ?_, fun _ => ⟨u, ?_, ?_⟩⟩
    · exact not_not.mpr ⟨u, (hends u).mpr hu.1⟩
    · exact ⟨(hends u).mpr hu.1, fun w hw => hu.2 w ((hends w).mp hw)⟩
    · exact node_of_mem hsp hmem

/-- From each accept state the links lead to an end. -/
theorem exists_endingChain (hfew : patterns.length < 2 ^ 32)
    (hgrown : Grown patterns patterns.length trie)
    (hspec : Links (texts patterns) patterns fail accepts links) {s pid : UInt32}
    (hs : (s, pid) ∈ accepts) : ∃ l, EndingChain trie patterns accepts links s l := by
  have hsp := hgrown.spells
  have hcov := texts_cover patterns
  obtain ⟨v, hv, rfl, hfirst⟩ := (hspec.accepts (s, pid)).mp hs
  obtain ⟨us, hchain, hus, hsorted⟩ := exists_chain hsp.nodes hcov hv (by rw [hfirst]; simp)
  rw [← hspec.links] at hchain
  refine ⟨_, hchain, ?_, hchain.nodup, ?_⟩
  · rw [List.pairwise_map]
    refine hsorted.imp_of_mem ?_
    intro u w hu hw hlt
    exact ⟨u, w, node_of_mem hsp (hus u hu).1, node_of_mem hsp (hus w hw).1, hlt⟩
  · intro x hx
    obtain ⟨u, hu, rfl⟩ := List.mem_map.mp hx
    obtain ⟨hmem, hsome⟩ := hus u hu
    obtain ⟨pid, hpid⟩ := Option.ne_none_iff_exists'.mp hsome
    have hentry := (hspec.accepts (state_of (texts patterns) u, pid)).mpr ⟨u, hmem, rfl, hpid⟩
    have hlt := hsp.nodes.state_lt hmem
    rw [← hsp.len] at hlt
    refine ⟨pid, hentry, accept_table_of_mem hspec.nodup hentry hlt, ?_⟩
    obtain ⟨p, _, _, hp, rfl⟩ := first_pid_mem hpid
    rw [pid_of_toNat hfew hp]
    exact List.idxOf_lt_length_of_mem hp

/-- So the loops from it end, with one round for each state of the chain. -/
theorem EndingChain.loops {s : UInt32} {l : List UInt32}
    (h : EndingChain trie patterns accepts links s l) :
    LoopsEnd (accept_table trie.trans.length accepts) links s l.length := by
  have hlen := h.chain.length_le
  refine ⟨?_, ?_⟩
  · intro lens pos count slots
    refine follow_outputs_ends h.chain ?_ lens pos _ count slots (by omega)
    intro x hx
    obtain ⟨pid, _, hget, _⟩ := h.entries x hx
    exact (List.getElem?_eq_some_iff.mp hget).1
  · intro count
    exact count_outputs_eq h.chain _ count (by omega)

end

/-! ## The scans -/

/-- What the loop of the emitted code over the links reads at place `pc`: the
accept entry of a state, the length of a pattern, or the link of a state. -/
def ReadsEntries (patterns : List (List UInt8)) (t : TransitionTable) (links : List UInt32)
    (base pc : Nat) (a : Access) : Prop :=
  let d := sections t links
  (pc = 111 → ∃ s < t.state_count, a = .read (acceptAt d base + 4 * s) 4) ∧
  (pc = 139 → ∃ i < patterns.length, a = .read (patlenAt d base + 4 * i) 4) ∧
  (pc = 173 → ∃ s < t.state_count, a = .read (outputAt d base + 4 * s) 4)

/-- Every scan of the DFA ends without a fault or a panic, and the emitted code
reads nothing at the sentinel. -/
structure ScansEnd (patterns : List (List UInt8)) (t : TransitionTable) (links : List UInt32)
    (jit : JitDfa) : Prop where
  scan : ∀ (input : List UInt8) (slots : List Match)
    (place : Placement jit.code input slots.length), ∃ r, jit.scan input slots place = .ok r
  scan_count : ∀ (input : List UInt8) (place : Placement jit.code input 0),
    ∃ n, jit.scan_count input place = .ok n
  reads : jit.code.is_jit = true → ∀ (input : List UInt8) (slots : List Match)
    (place : Placement jit.code input slots.length) n σ a,
    run jit.code.image n (jit.code.entry input slots place) = .next σ →
      access jit.code.image σ = some a → ReadsEntries patterns t links jit.code.ptr σ.pc a

section

variable {os : Os} {patterns : List (List UInt8)} {trie : Trie} {t : TransitionTable}
  {links : List UInt32} {jit : JitDfa}

/-- Code is emitted for tables with few states. -/
theorem few_states_of_jit (h : JitDfa.compile_with_output_links os t links = .ok jit)
    (hjit : jit.code.is_jit = true) : t.state_count ≤ MAX_JIT_STATES := by
  by_contra hn
  have hcode := (compile_with_output_links_ok h).2
  have hs := t.states_le
  unfold MAX_STATES at hs
  unfold compile_x86_64 at hcode
  rw [if_neg (by omega), if_pos (by omega)] at hcode
  rw [(interprets_of_fallback hcode).2] at hjit
  cases hjit

/-- What is in bounds in the loop over the links. -/
theorem reads_of_inBounds (h : Automaton patterns t links) {base ip len mp slots pc : Nat}
    {a : Access} (ha : InBounds t links base ip len mp slots pc a) :
    ReadsEntries patterns t links base pc a := by
  have haccept : (sections t links).accept_pattern.length = t.state_count :=
    accept_table_length _ _
  have hlinks : links.length = t.state_count := by
    rw [h.links, List.length_map, h.sized.states]
  have hlink : (sections t links).output_link.length = t.state_count := by
    change (link_table t.state_count links).length = t.state_count
    unfold link_table
    rw [if_neg (by omega), hlinks]
  have hlens : t.pattern_lengths.length = patterns.length := by rw [h.lengths, List.length_map]
  refine ⟨?_, ?_, ?_⟩
  · rintro rfl
    obtain ⟨s, hs, he⟩ := ha
    exact ⟨s, haccept ▸ hs, he⟩
  · rintro rfl
    obtain ⟨i, hi, he⟩ := ha
    exact ⟨i, hlens ▸ hi, he⟩
  · rintro rfl
    obtain ⟨s, hs, he⟩ := ha
    exact ⟨s, hlink ▸ hs, he⟩

/-- The scans of a compiled pattern list end. -/
theorem scans_end (h : Automaton patterns t links)
    (hjit : JitDfa.compile_with_output_links os t links = .ok jit) :
    ScansEnd patterns t links jit := by
  refine ⟨?_, ?_, ?_⟩
  · intro input slots place
    exact ⟨_, scan_eq hjit h.linked h.sparse input slots place⟩
  · intro input place
    exact ⟨_, scan_count_eq hjit h.linked h.sparse input place⟩
  · intro hcode input slots place n σ a hrun ha
    obtain ⟨hch, hcompile⟩ := compile_with_output_links_ok hjit
    have hn := few_states_of_jit hjit hcode
    obtain ⟨post, hc⟩ := compile_x86_64_jit hn hch.bytes hcompile
    obtain ⟨m, τ, _, hsteps, hret, hacc, _⟩ :=
      call_leads hc h.linked hn (Checked.links_le hch) h.sparse input slots place
    exact reads_of_inBounds h ((hsteps.run_within hret hacc n).2 σ hrun a ha)

/-- For each list of fewer than 2^32 patterns whose trie has fewer than 2^32
nodes: the link of each state that ends a pattern of its own goes to the state of
its longest shorter end, or is `NONE` exactly where it has none, and no link is
out of range. So the links lead from each accept state through ever shallower
states with the id of a pattern to `NONE`, the loops over them end, and every
scan that is compiled with them ends and reads nothing at the sentinel. -/
theorem the_output_links_lead_through_ever_shallower_states_to_an_end
    (hfew : patterns.length < 2 ^ 32) (hbuild : build_trie patterns = .ok trie)
    (hnodes : trie.trans.length < 2 ^ 32) :
    (∀ s < trie.trans.length, ∃! v, node trie.trans v = some (.ofNat s)) ∧
    (∀ v, EndsPattern trie v ↔ v ∈ patterns ∧ v ≠ []) ∧
    ∃ fail accepts links,
      build_failure_links trie.trans trie.accepts = .ok (fail, accepts, links) ∧
      (∀ v s, node trie.trans v = some s → EndsPattern trie v →
        ∃ link, links[s.toNat]? = some link ∧ LinkOf trie v link) ∧
      links.length = trie.trans.length ∧
      (∀ link ∈ links, link ≠ NONE → link.toNat < trie.trans.length) ∧
      (∀ s pid, (s, pid) ∈ accepts → ∃ l, EndingChain trie patterns accepts links s l ∧
        LoopsEnd (accept_table trie.trans.length accepts) links s l.length) ∧
      ∀ os jit, JitDfa.from_patterns os patterns = .ok jit → jit.output_links = links ∧
        ∃ t, pattern_table patterns = .ok (t, links) ∧ ScansEnd patterns t links jit := by
  obtain ⟨trie', hbuild', hgrown⟩ := build_trie_grown (Or.inr ⟨trie, hbuild, hnodes⟩)
  rw [hbuild] at hbuild'
  cases hbuild'
  have hsp := hgrown.spells
  have hcov := texts_cover patterns
  obtain ⟨fail, accepts, links, hlinks, hspec⟩ := build_failure_links_eq hsp hcov
  rw [← hgrown.accepts] at hlinks
  refine ⟨?_, ?_, fail, accepts, links, hlinks, ?_, ?_, ?_, ?_, ?_⟩
  · intro s hs
    exact exists_unique_text hsp hs
  · intro v
    exact endsPattern_iff hgrown
  · intro v s hs hv
    obtain ⟨hmem, rfl⟩ := mem_of_node hsp hs
    refine ⟨_, ?_, linkOf_out_link hgrown ((endsPattern_iff hgrown).mp hv)⟩
    rw [hspec.links, List.getElem?_map, hsp.nodes.get hmem]
    rfl
  · rw [hspec.links, List.length_map, hsp.len]
  · intro link hlink hne
    rw [hspec.links] at hlink
    obtain ⟨v, _, rfl⟩ := List.mem_map.mp hlink
    rw [hsp.len]
    exact out_link_lt hsp.nodes hcov hne
  · intro s pid hs
    obtain ⟨l, hl⟩ := exists_endingChain hfew hgrown hspec hs
    exact ⟨l, hl, hl.loops⟩
  · intro os jit hjit
    obtain ⟨t, links', htable, hcompile⟩ := from_patterns_ok hjit
    have ha := automaton_of_ok hfew htable
    obtain rfl : links' = links := ha.links.trans hspec.links.symm
    refine ⟨?_, t, htable, scans_end ha hcompile⟩
    obtain ⟨_, _, hcompile⟩ := bind_ok.mp hcompile
    obtain ⟨code, _, hcompile⟩ := bind_ok.mp hcompile
    cases hcompile
    rfl

end

/-- The links of `abcd`, `bc` and `c`. -/
theorem the_output_links_of_overlapping_patterns_lead_to_an_end :
    ∃ trie, build_trie overlapping = .ok trie ∧ trie.trans.length = 8 ∧
    (∀ s < trie.trans.length, ∃! v, node trie.trans v = some (.ofNat s)) ∧
    (∀ v, EndsPattern trie v ↔ v ∈ overlapping ∧ v ≠ []) ∧
    ∃ fail accepts links,
      build_failure_links trie.trans trie.accepts = .ok (fail, accepts, links) ∧
      (∀ v s, node trie.trans v = some s → EndsPattern trie v →
        ∃ link, links[s.toNat]? = some link ∧ LinkOf trie v link) ∧
      links.length = trie.trans.length ∧
      (∀ link ∈ links, link ≠ NONE → link.toNat < trie.trans.length) ∧
      (∀ s pid, (s, pid) ∈ accepts → ∃ l, EndingChain trie overlapping accepts links s l ∧
        LoopsEnd (accept_table trie.trans.length accepts) links s l.length) ∧
      ∀ os jit, JitDfa.from_patterns os overlapping = .ok jit → jit.output_links = links ∧
        ∃ t, pattern_table overlapping = .ok (t, links) ∧ ScansEnd overlapping t links jit := by
  have hcard : (prefixes overlapping).card = 8 := by decide
  obtain ⟨trie, hbuild, hlen⟩ := build_trie_nodes (by rw [hcard]; decide)
  rw [hcard] at hlen
  exact ⟨trie, hbuild, hlen,
    the_output_links_lead_through_ever_shallower_states_to_an_end (by decide) hbuild (by omega)⟩

end dfajit.link_safety
