-- The order of the patterns and the empty ones among them only name the ids.
-- What ends a text, and where a scan restarts, depends on the set of the
-- patterns.
import Dfajit.Literals
import Dfajit.PatternLimit

namespace dfajit.pattern_order

open error table codegen table_scan dfa engines reset_run text_tree output_links pattern_scan
  literals pattern_limit

/-- The two lists have the same patterns, the empty ones apart. -/
def SamePatterns (ps qs : List (List UInt8)) : Prop := ∀ v, IsPattern ps v ↔ IsPattern qs v

/-- The one id and the other stand for the same pattern. -/
def Renames (ps qs : List (List UInt8)) (i j : Nat) : Prop :=
  ∃ p ≠ [], ps[i]? = some p ∧ qs[j]? = some p

/-! ## What depends on the set of the patterns -/

section

variable {ps qs : List (List UInt8)}

theorem same_of_perm (hperm : (qs.filter (· ≠ [])).Perm ps) : SamePatterns ps qs := by
  intro v
  have hmem := hperm.mem_iff (a := v)
  rw [List.mem_filter, decide_eq_true_iff] at hmem
  unfold IsPattern
  rw [← hmem]
  exact and_iff_left_of_imp And.right

theorem SamePatterns.prefixes (h : SamePatterns ps qs) : prefixes ps = prefixes qs := by
  have hsub : ∀ {ps qs : List (List UInt8)}, SamePatterns ps qs →
      ∀ v ∈ pattern_limit.prefixes ps, v ∈ pattern_limit.prefixes qs := by
    intro ps qs h v hv
    rw [mem_prefixes] at hv ⊢
    by_cases hnil : v = []
    · exact Or.inl hnil
    rcases hv with hv | ⟨p, hp, hpre⟩
    · exact absurd hv hnil
    · have hne : p ≠ [] := by
        rintro rfl
        exact hnil (List.prefix_nil.mp hpre)
      exact Or.inr ⟨p, ((h p).mp ⟨hp, hne⟩).1, hpre⟩
  ext v
  exact ⟨hsub h v, hsub (fun u => (h u).symm) v⟩

theorem SamePatterns.ends (h : SamePatterns ps qs) (x : List UInt8) : ends ps x = ends qs x :=
  suffix.hits_congr h x

theorem SamePatterns.longest (h : SamePatterns ps qs) (x : List UInt8) :
    failure_links.longest (texts ps) x = failure_links.longest (texts qs) x := by
  have hprefixes := h.prefixes
  rw [prefixes_eq, prefixes_eq] at hprefixes
  apply suffix.longest_congr
  intro v
  rw [← List.mem_toFinset, hprefixes, List.mem_toFinset]

theorem SamePatterns.reported (h : SamePatterns ps qs) (x : List UInt8) :
    reported ps x = reported qs x := by
  unfold pattern_scan.reported
  rw [h.longest, h.ends]
  exact if_congr (h _) rfl rfl

theorem SamePatterns.restarts (h : SamePatterns ps qs) (input : List UInt8) :
    restarts ps input = restarts qs input := by
  unfold literals.restarts
  rw [funext h.ends]

/-- The patterns that a scan reports, in order, each with the place where it
ends. -/
def occurrences (ps : List (List UInt8)) (input : List UInt8) : List (List UInt8 × Nat) :=
  (restarts ps input).flatMap fun c => (reported ps (slice input c.1 c.2)).map (·, c.2)

theorem SamePatterns.occurrences (h : SamePatterns ps qs) (input : List UInt8) :
    occurrences ps input = occurrences qs input := by
  unfold pattern_order.occurrences
  rw [h.restarts, funext h.reported]

theorem mem_occurrences {input : List UInt8} {o : List UInt8 × Nat} (h : o ∈ occurrences ps input) :
    IsPattern ps o.1 := by
  obtain ⟨c, _, ho⟩ := List.mem_flatMap.mp h
  obtain ⟨v, hv, rfl⟩ := List.mem_map.mp ho
  exact (mem_ends.mp (reported_subset hv)).2

theorem found_occurrences {t : TransitionTable} {links : List UInt32} (h : Automaton ps t links)
    (input : List UInt8) :
    (found t links input).map Match.key =
      (occurrences ps input).map fun o => wrapped_key ps o.2 o.1 := by
  unfold occurrences
  rw [found_wrapped h, List.map_flatMap]
  simp only [List.map_map]
  rfl

end

/-! ## The renaming -/

/-- The two matches stand at the same place, and their ids for the same pattern. -/
def SameButIds (ps qs : List (List UInt8)) (m m' : Match) : Prop :=
  m.start = m'.start ∧ m.end = m'.end ∧
    Renames ps qs m.pattern_id.toNat m'.pattern_id.toNat

section

variable {ps qs : List (List UInt8)} {os : Os} {jit : JitDfa}

theorem renames_pid (hps : ps.length < 2 ^ 32) (hqs : qs.length < 2 ^ 32)
    (h : SamePatterns ps qs) {v : List UInt8} (hv : IsPattern ps v) :
    Renames ps qs (pid_of ps v).toNat (pid_of qs v).toNat := by
  have hv' := (h v).mp hv
  refine ⟨v, hv.2, ?_, ?_⟩
  · rw [pid_of_toNat hps hv.1, List.getElem?_idxOf hv.1]
  · rw [pid_of_toNat hqs hv'.1, List.getElem?_idxOf hv'.1]

/-- Where no pattern stands twice, the ids of the patterns are renamed one by one. -/
theorem renames_unique (h : SamePatterns ps qs) (hqs : Distinct qs) {i : Nat} {p : List UInt8}
    (hi : ps[i]? = some p) (hne : p ≠ []) : ∃! j, Renames ps qs i j := by
  have hp := (h p).mp ⟨List.mem_of_getElem? hi, hne⟩
  refine ⟨qs.idxOf p, ⟨p, hne, hi, List.getElem?_idxOf hp.1⟩, ?_⟩
  rintro j ⟨q, hq, hi', hj⟩
  rw [hi] at hi'
  cases hi'
  exact (distinct_idxOf hqs hj hne).symm

theorem renames_comm {i j : Nat} : Renames qs ps j i ↔ Renames ps qs i j := by
  unfold Renames
  simp only [and_comm]

theorem scan_occurrences (hfew : ps.length < 2 ^ 32)
    (h : JitDfa.from_patterns os ps = .ok jit) (input : List UInt8) (slots : List Match)
    (place : Placement jit.code input slots.length) :
    ∃ written,
      jit.scan input slots place =
        .ok (min (occurrences ps input).length slots.length, written) ∧
      (written.take (min (occurrences ps input).length slots.length)).map Match.key =
        ((occurrences ps input).map fun o => wrapped_key ps o.2 o.1).take slots.length := by
  obtain ⟨t, links, ha, hjit⟩ := from_patterns_scans hfew h
  obtain ⟨written, hscan, hkeys⟩ := scan_writes hjit ha.linked ha.sparse slots place
  have hfound := found_occurrences ha input
  have hlen := congrArg List.length hfound
  rw [List.length_map, List.length_map] at hlen
  rw [hlen] at hscan hkeys
  rw [hfound] at hkeys
  exact ⟨written, hscan, hkeys⟩

/-- The two scans write the same places, with ids for the same patterns. -/
theorem scans_alike {os' : Os} {jit' : JitDfa} (hps : ps.length < 2 ^ 32)
    (hqs : qs.length < 2 ^ 32) (hsame : SamePatterns ps qs)
    (h : JitDfa.from_patterns os ps = .ok jit) (h' : JitDfa.from_patterns os' qs = .ok jit')
    (input : List UInt8) (slots : List Match) (place : Placement jit.code input slots.length)
    (place' : Placement jit'.code input slots.length) :
    ∃ n written written', jit.scan input slots place = .ok (n, written) ∧
      jit'.scan input slots place' = .ok (n, written') ∧
      List.Forall₂ (SameButIds ps qs) (written.take n) (written'.take n) := by
  obtain ⟨written, hscan, hkeys⟩ := scan_occurrences hps h input slots place
  obtain ⟨written', hscan', hkeys'⟩ := scan_occurrences hqs h' input slots place'
  rw [← hsame.occurrences input] at hscan' hkeys'
  refine ⟨_, written, written', hscan, hscan', ?_⟩
  have hall : List.Forall₂ (fun k k' : Key => k.2 = k'.2 ∧ Renames ps qs k.1.toNat k'.1.toNat)
      (((occurrences ps input).map fun o => wrapped_key ps o.2 o.1).take slots.length)
      (((occurrences ps input).map fun o => wrapped_key qs o.2 o.1).take slots.length) := by
    apply List.forall₂_take
    rw [List.forall₂_map_left_iff, List.forall₂_map_right_iff, List.forall₂_same]
    intro o ho
    exact ⟨rfl, renames_pid hps hqs hsame (mem_occurrences ho)⟩
  rw [← hkeys, ← hkeys', List.forall₂_map_left_iff, List.forall₂_map_right_iff] at hall
  apply hall.imp
  rintro m m' ⟨hplace, hid⟩
  obtain ⟨hs, he⟩ := Prod.mk.inj hplace
  exact ⟨hs, he, hid⟩

/-- A list with the same patterns and some empty ones is taken just when the
first is. -/
theorem from_patterns_alike (hps : ps.length < 2 ^ 32) (hqs : qs.length < 2 ^ 32)
    (hsame : SamePatterns ps qs) (hne : ps ≠ []) (hne' : qs ≠ []) {os' : Os}
    (hos : Lends os ps) (hos' : Lends os' qs) :
    (∃ jit, JitDfa.from_patterns os ps = .ok jit) ↔
      ∃ jit, JitDfa.from_patterns os' qs = .ok jit := by
  rw [from_patterns_iff hps hos, from_patterns_iff hqs hos', hsame.prefixes]
  exact and_congr_left fun _ => iff_of_true hne hne'

theorem distinct_of_filter (h : (qs.filter (· ≠ [])).Nodup) : Distinct qs := by
  rw [List.Nodup, List.pairwise_filter, List.pairwise_iff_getElem] at h
  have hlt : ∀ (i j : Nat) (p : List UInt8), i < j → qs[i]? = some p → qs[j]? = some p → p = [] := by
    intro i j p hij hi hj
    obtain ⟨hilt, hiq⟩ := List.getElem?_eq_some_iff.mp hi
    obtain ⟨hjlt, hjq⟩ := List.getElem?_eq_some_iff.mp hj
    by_contra hne
    have hdiffer := h i j hilt hjlt hij
    rw [hiq, hjq] at hdiffer
    exact hdiffer (decide_eq_true hne) (decide_eq_true hne) rfl
  intro i j p hi hj hne
  rcases Nat.lt_trichotomy i j with hij | hij | hij
  · exact absurd (hlt i j p hij hi hj) hne
  · exact hij
  · exact absurd (hlt j i p hij hj hi) hne

/-- Patterns in another order and with empty ones between them are taken just as
they are, and every scan writes the same places, with the ids renamed one by
one. -/
theorem pattern_order_and_empty_patterns_only_rename_ids (hne : ps ≠ []) (hnodup : ps.Nodup)
    (hbytes : [] ∉ ps) (hperm : (qs.filter (· ≠ [])).Perm ps) (hfew : qs.length < 2 ^ 32) :
    (∀ i < ps.length, ∃! j, Renames ps qs i j) ∧
    (∀ j p, qs[j]? = some p → p ≠ [] → ∃! i, Renames ps qs i j) ∧
    (∀ os os', Lends os ps → Lends os' qs →
      ((∃ jit, JitDfa.from_patterns os ps = .ok jit) ↔
        ∃ jit, JitDfa.from_patterns os' qs = .ok jit)) ∧
    ∀ os os' jit jit', JitDfa.from_patterns os ps = .ok jit →
      JitDfa.from_patterns os' qs = .ok jit' →
      ∀ (input : List UInt8) (slots : List Match) (place : Placement jit.code input slots.length)
        (place' : Placement jit'.code input slots.length),
        ∃ n written written', jit.scan input slots place = .ok (n, written) ∧
          jit'.scan input slots place' = .ok (n, written') ∧
          List.Forall₂ (SameButIds ps qs) (written.take n) (written'.take n) := by
  have hsame : SamePatterns ps qs := same_of_perm hperm
  have hsame' : SamePatterns qs ps := fun v => (hsame v).symm
  have hdistinct : Distinct qs := distinct_of_filter (hperm.nodup_iff.mpr hnodup)
  have hle := List.length_filter_le (fun p => decide (p ≠ [])) qs
  rw [hperm.length_eq] at hle
  have hps : ps.length < 2 ^ 32 := by omega
  have hne' : qs ≠ [] := by
    rintro rfl
    exact hne hperm.symm.eq_nil
  refine ⟨?_, ?_, ?_, ?_⟩
  · intro i hi
    apply renames_unique hsame hdistinct (List.getElem?_eq_getElem hi)
    intro hnil
    exact hbytes (hnil ▸ List.getElem_mem hi)
  · intro j p hj hp
    have hunique := renames_unique hsame' (distinct_of_nodup hnodup) hj hp
    simpa only [renames_comm] using hunique
  · intro os os' hos hos'
    exact from_patterns_alike hps hfew hsame hne hne' hos hos'
  · intro os os' jit jit' h h'
    exact scans_alike hps hfew hsame h h'

end

/-- The patterns `a` and `ab`. -/
def a_then_ab : List (List UInt8) := [[97], [97, 98]]

/-- The same two the other way round, with an empty one in front. -/
def ab_then_a : List (List UInt8) := [[], [97, 98], [97]]

/-- The ids 0 and 1 of `a_then_ab` are the ids 2 and 1 of `ab_then_a`. -/
theorem the_other_order_of_two_patterns_only_renames_ids :
    Renames a_then_ab ab_then_a 0 2 ∧ Renames a_then_ab ab_then_a 1 1 ∧
    (∀ i < a_then_ab.length, ∃! j, Renames a_then_ab ab_then_a i j) ∧
    (∀ j p, ab_then_a[j]? = some p → p ≠ [] → ∃! i, Renames a_then_ab ab_then_a i j) ∧
    (∀ os os', Lends os a_then_ab → Lends os' ab_then_a →
      ((∃ jit, JitDfa.from_patterns os a_then_ab = .ok jit) ↔
        ∃ jit, JitDfa.from_patterns os' ab_then_a = .ok jit)) ∧
    ∀ os os' jit jit', JitDfa.from_patterns os a_then_ab = .ok jit →
      JitDfa.from_patterns os' ab_then_a = .ok jit' →
      ∀ (input : List UInt8) (slots : List Match) (place : Placement jit.code input slots.length)
        (place' : Placement jit'.code input slots.length),
        ∃ n written written', jit.scan input slots place = .ok (n, written) ∧
          jit'.scan input slots place' = .ok (n, written') ∧
          List.Forall₂ (SameButIds a_then_ab ab_then_a) (written.take n) (written'.take n) := by
  refine ⟨⟨[97], by decide⟩, ⟨[97, 98], by decide⟩, ?_⟩
  exact pattern_order_and_empty_patterns_only_rename_ids (by decide) (by decide) (by decide)
    (by decide) (by decide)

end dfajit.pattern_order
