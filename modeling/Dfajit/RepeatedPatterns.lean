-- Patterns that stand in the list more than once. They share a state, the state
-- keeps the first of their ids, and no scan reports the others.
import Dfajit.Literals

namespace dfajit.repeated_patterns

open error table codegen table_scan dfa engines reset_run text_tree trie output_links pattern_scan
  agreement literals

/-- Every scan with room for all matches reports the one id wherever it reports
the other. -/
def ReportedAlike (jit : JitDfa) (i j : Nat) : Prop :=
  ∀ (input : List UInt8) (slots : List Match) (place : Placement jit.code input slots.length)
    (n : Nat), input.length < 2 ^ 32 → jit.scan_count input place.no_matches = .ok n →
    n ≤ slots.length →
    ∃ written, jit.scan input slots place = .ok (n, written) ∧
      ∀ s e, (∃ m ∈ written.take n, m.pattern_id.toNat = i ∧ m.start = s ∧ m.end = e) ↔
        ∃ m ∈ written.take n, m.pattern_id.toNat = j ∧ m.start = s ∧ m.end = e

/-- A pattern ends inside the text, before its last byte. -/
def Buried (patterns : List (List UInt8)) (p : List UInt8) : Prop :=
  ∃ u ∈ patterns, u ≠ [] ∧ u <:+: p.dropLast

/-! ## The id that is reported -/

section

variable {patterns : List (List UInt8)} {input p : List UInt8}

/-- A match bears the first id of its pattern, and no pattern ends inside that
pattern. -/
theorem id_of_key (hfew : patterns.length < 2 ^ 32) {k : Key} (hk : k ∈ keys patterns input)
    {i : Nat} (hid : k.1.toNat = i) (hi : patterns[i]? = some p) :
    patterns.idxOf p = i ∧ ¬ Buried patterns p := by
  obtain ⟨c, hc, hk⟩ := List.mem_flatMap.mp hk
  obtain ⟨v, hv, rfl⟩ := List.mem_map.mp hk
  obtain ⟨hsuf, hpat, _⟩ := mem_ends.mp (reported_subset hv)
  have hidx : patterns.idxOf v = i := by
    rw [← hid]
    exact (pid_of_toNat hfew hpat).symm
  have hvp : v = p := by
    rw [← hidx, List.getElem?_idxOf hpat] at hi
    exact Option.some.inj hi
  subst hvp
  refine ⟨hidx, ?_⟩
  rintro ⟨u, hu, hne, pre, post, hdrop⟩
  have hcuts := restarts_spec patterns input
  obtain ⟨_, hlt, hle, _⟩ := hcuts.mem hc
  obtain ⟨front, hfront⟩ := hsuf
  have hlen := slice_length (r := c.1) hle
  have hpos := List.length_pos_iff.mpr hne
  have hv0 : v ≠ [] := by
    rintro rfl
    simp [hne] at hdrop
  have hwhole : slice input c.1 c.2 = front ++ pre ++ u ++ (post ++ [v.getLast hv0]) := by
    rw [← hfront]
    conv_lhs => rw [← List.dropLast_append_getLast hv0, ← hdrop]
    simp only [List.append_assoc]
  have hsize := congrArg List.length hwhole
  simp only [List.length_append, List.length_singleton, hlen] at hsize
  -- the pattern `u` ends before the restart
  apply hcuts.quiet_take hc (k := (front ++ pre ++ u).length)
    (by simp only [List.length_append]; omega) (by simp only [List.length_append]; omega)
  refine ⟨u, hu, hne, ?_⟩
  rw [hwhole, List.take_left]
  exact List.suffix_append _ _

/-- A pattern that no pattern ends inside is found in itself. -/
theorem key_of_self (hp : p ∈ patterns) (hne : p ≠ []) (hout : ¬ Buried patterns p) :
    key_at patterns p.length p ∈ keys patterns p := by
  have hself : slice p 0 p.length = p := by simp [slice]
  have hpos := List.length_pos_iff.mpr hne
  have hcut : Cuts (Hit patterns) p 0 [(0, p.length)] := by
    refine .cut hpos (Nat.le_refl _) ?_ ?_ (.done ?_)
    · rw [hself]
      exact ⟨p, hp, hne, List.suffix_refl p⟩
    · rintro e' _ hlt ⟨u, hu, hnil, hsuf⟩
      apply hout
      refine ⟨u, hu, hnil, hsuf.isInfix.trans ?_⟩
      rw [List.dropLast_eq_take]
      unfold slice
      rw [List.drop_zero, Nat.sub_zero]
      exact (List.take_prefix_take_left (by omega)).isInfix
    · intro e hgt hle
      omega
  have hrestarts := (restarts_spec patterns p).unique hcut
  have hhit : Hit patterns p := ⟨p, hp, hne, List.suffix_refl p⟩
  obtain ⟨q, vs, hrep, hlong⟩ := reported_head hhit
  have hq : q = p := by
    have hle := hlong.longest p hp (List.suffix_refl p)
    exact hlong.ends.eq_of_length_le hle
  subst hq
  unfold keys
  rw [hrestarts, List.flatMap_singleton, hself, hrep, List.map_cons]
  exact List.mem_cons_self

end

/-! ## Reports of equal patterns -/

section

variable {os : Os} {patterns : List (List UInt8)} {jit : JitDfa} {p : List UInt8} {i j : Nat}

/-- The matches of a scan with room for all, by their ids. -/
theorem scan_keys (hfew : patterns.length < 2 ^ 32)
    (h : JitDfa.from_patterns os patterns = .ok jit) {input : List UInt8}
    (hin : input.length < 2 ^ 32) {slots : List Match}
    (place : Placement jit.code input slots.length) {n : Nat}
    (hcount : jit.scan_count input place.no_matches = .ok n) (hroom : n ≤ slots.length) :
    ∃ written, jit.scan input slots place = .ok (n, written) ∧
      ∀ (id : Nat) (s e : UInt32),
        (∃ m ∈ written.take n, m.pattern_id.toNat = id ∧ m.start = s ∧ m.end = e) ↔
          ∃ k ∈ keys patterns input, k.1.toNat = id ∧ k.2 = (s, e) := by
  obtain ⟨t, links, ha, hjit⟩ := from_patterns_scans hfew h
  obtain ⟨_, written, hscan, hkeys⟩ := scan_all ha hjit place hcount hroom
  have hall : (written.take n).map Match.key = keys patterns input := by
    rw [hkeys, found_keys ha hin]
    rfl
  refine ⟨written, hscan, ?_⟩
  intro id s e
  rw [← hall]
  constructor
  · rintro ⟨m, hm, hid, rfl, rfl⟩
    exact ⟨m.key, List.mem_map_of_mem hm, hid, rfl⟩
  · rintro ⟨k, hk, hid, hse⟩
    obtain ⟨m, hm, rfl⟩ := List.mem_map.mp hk
    obtain ⟨hs, he⟩ := Prod.mk.inj hse
    exact ⟨m, hm, hid, hs, he⟩

/-- There is a scan of each pattern with room for all its matches. -/
theorem exists_scan (hfew : patterns.length < 2 ^ 32)
    (h : JitDfa.from_patterns os patterns = .ok jit) (hp : p ∈ patterns) :
    p.length < 2 ^ 32 ∧ ∃ (slots : List Match) (place : Placement jit.code p slots.length) (n : Nat),
      jit.scan_count p place.no_matches = .ok n ∧ n ≤ slots.length := by
  obtain ⟨t, links, ha, hjit⟩ := from_patterns_scans hfew h
  have hmax : MAX_STATES < 2 ^ 32 := by decide
  have hlen := (texts_tree patterns).length_lt (mem_texts_self hp)
  have hstates := ha.states
  have hvec : t.pattern_lengths.length < 2 ^ 61 := by
    rw [ha.lengths, List.length_map]
    omega
  have hslots := List.length_replicate (n := p.length) (a := Match.from_parts 0 0 0)
  obtain ⟨place⟩ := exists_place hjit hvec p
    (List.replicate p.length (Match.from_parts 0 0 0)).length (by omega) (by omega)
  refine ⟨by omega, _, place, _, scan_count_eq hjit ha.linked ha.sparse p _, ?_⟩
  rw [hslots]
  exact ha.sparse p

/-- In itself a pattern is found under its first id, and under no other. -/
theorem self_key_iff (hfew : patterns.length < 2 ^ 32) (hi : patterns[i]? = some p) (hne : p ≠ [])
    (hout : ¬ Buried patterns p) :
    (∃ k ∈ keys patterns p, k.1.toNat = i ∧ k.2 = (0, .ofNat p.length)) ↔
      patterns.idxOf p = i := by
  have hp := List.mem_of_getElem? hi
  constructor
  · rintro ⟨k, hk, hid, _⟩
    exact (id_of_key hfew hk hid hi).1
  · intro hfirst
    refine ⟨_, key_of_self hp hne hout, ?_, ?_⟩
    · exact (pid_of_toNat hfew hp).trans hfirst
    · unfold key_at
      rw [Nat.sub_self]
      rfl

/-- Two ids of one pattern are reported alike just when they are the same, or
neither is the first, or the pattern is never reported, since another one ends
inside it. -/
theorem equal_patterns_report_alike_unless_one_is_first (hfew : patterns.length < 2 ^ 32)
    (h : JitDfa.from_patterns os patterns = .ok jit) (hi : patterns[i]? = some p)
    (hj : patterns[j]? = some p) (hne : p ≠ []) :
    ReportedAlike jit i j ↔
      (patterns.idxOf p = i ↔ patterns.idxOf p = j) ∨ Buried patterns p := by
  constructor
  · intro halike
    by_cases hout : Buried patterns p
    · exact Or.inr hout
    · obtain ⟨hlen, slots, place, n, hcount, hroom⟩ := exists_scan hfew h (List.mem_of_getElem? hi)
      obtain ⟨written, hscan, hboth⟩ := halike p slots place n hlen hcount hroom
      obtain ⟨written', hscan', hkeys⟩ := scan_keys hfew h hlen place hcount hroom
      rw [hscan] at hscan'
      obtain rfl : written = written' := (Prod.mk.inj (Except.ok.inj hscan')).2
      have hpair := hboth 0 (.ofNat p.length)
      rw [hkeys, hkeys, self_key_iff hfew hi hne hout,
        self_key_iff hfew hj hne hout] at hpair
      exact Or.inl hpair
  · intro hcase input slots place n hin hcount hroom
    obtain ⟨written, hscan, hkeys⟩ := scan_keys hfew h hin place hcount hroom
    refine ⟨written, hscan, ?_⟩
    intro s e
    rw [hkeys, hkeys]
    by_cases hsame : i = j
    · rw [hsame]
    · have hnone : ∀ id : Nat, patterns[id]? = some p → (id = i ∨ id = j) →
          ¬ ∃ k ∈ keys patterns input, k.1.toNat = id ∧ k.2 = (s, e) := by
        rintro id hid hij ⟨k, hk, hk1, _⟩
        obtain ⟨hfirst, hout⟩ := id_of_key hfew hk hk1 hid
        rcases hcase with hboth | hburied
        · rcases hij with rfl | rfl
          · exact hsame (hfirst.symm.trans (hboth.mp hfirst))
          · exact hsame ((hboth.mpr hfirst).symm.trans hfirst)
        · exact hout hburied
      exact iff_of_false (hnone i hi (Or.inl rfl)) (hnone j hj (Or.inr rfl))

end

/-- `dup`, two times. -/
def dup_twice : List (List UInt8) := [[100, 117, 112], [100, 117, 112]]

/-- The law for the two ids of `dup`. -/
theorem the_ids_of_dup_report_alike_unless_one_is_first :
    ∃ jit, JitDfa.from_patterns generous dup_twice = .ok jit ∧
      (ReportedAlike jit 0 1 ↔
        (dup_twice.idxOf [100, 117, 112] = 0 ↔ dup_twice.idxOf [100, 117, 112] = 1) ∨
          Buried dup_twice [100, 117, 112]) := by
  have hfew : dup_twice.length < 2 ^ 32 := by decide
  obtain ⟨jit, hjit, _⟩ := from_patterns_compiles hfew (by decide) (by decide)
  exact ⟨jit, hjit, equal_patterns_report_alike_unless_one_is_first hfew hjit rfl rfl (by decide)⟩

/-- On `dup` there is one match, with the first of the two ids. -/
theorem the_second_id_of_dup_is_lost :
    ∃ jit place n written, JitDfa.from_patterns generous dup_twice = .ok jit ∧
      jit.scan_count [100, 117, 112] place.no_matches = .ok n ∧ n ≤ 2 ∧
      jit.scan [100, 117, 112] [Match.from_parts 0 0 0, Match.from_parts 0 0 0] place =
        .ok (n, written) ∧
      (written.take n).map Match.key = [(0, 0, 3)] ∧ ¬ ReportedAlike jit 0 1 := by
  have hfew : dup_twice.length < 2 ^ 32 := by decide
  have hin : [100, 117, 112].length < 2 ^ 32 := by decide
  obtain ⟨jit, hjit, hptr⟩ := from_patterns_compiles hfew (by decide) (by decide)
  obtain ⟨t, links, ha, hcompile⟩ := from_patterns_scans hfew hjit
  have place : Placement jit.code [100, 117, 112]
    [Match.from_parts 0 0 0, Match.from_parts 0 0 0].length :=
    low_place hptr _ 2 (by decide) (by decide)
  have hcount := scan_count_eq hcompile ha.linked ha.sparse [100, 117, 112] place.no_matches
  have hone : (found t links [100, 117, 112]).map Match.key = [(0, 0, 3)] := by
    rw [found_keys ha hin]
    decide
  have hroom : (found t links [100, 117, 112]).length ≤ 2 := by
    have := congrArg List.length hone
    rw [List.length_map, List.length_singleton] at this
    omega
  obtain ⟨_, written, hscan, hkeys⟩ := scan_all ha hcompile place hcount hroom
  rw [hone] at hkeys
  refine ⟨jit, place, _, written, hjit, hcount, hroom, hscan, hkeys, ?_⟩
  intro halike
  obtain ⟨written', hscan', hboth⟩ := halike _ _ place _ hin hcount hroom
  rw [hscan] at hscan'
  obtain rfl : written = written' := (Prod.mk.inj (Except.ok.inj hscan')).2
  have hfirst : ∃ m ∈ written.take (found t links [100, 117, 112]).length,
      m.pattern_id.toNat = 0 ∧ m.start = 0 ∧ m.end = 3 := by
    obtain ⟨m, hm, hkey⟩ := List.mem_map.mp (hkeys.symm ▸ List.mem_singleton_self (0, 0, 3))
    obtain ⟨hid, hse⟩ := Prod.mk.inj hkey
    obtain ⟨hs, he⟩ := Prod.mk.inj hse
    exact ⟨m, hm, by rw [hid]; rfl, hs, he⟩
  obtain ⟨m, hm, hid, _⟩ := (hboth 0 3).mp hfirst
  have hkey := List.mem_map_of_mem (f := Match.key) hm
  rw [hkeys, List.mem_singleton] at hkey
  have hzero : m.pattern_id = 0 := (Prod.mk.inj hkey).1
  rw [hzero] at hid
  cases hid

end dfajit.repeated_patterns
