-- The offsets of the matches (match_type.rs): a scan counts its position in 64
-- bits and writes it in 32, so inputs of 4 GiB and more are to be scanned in
-- chunks.
import Mathlib.Data.List.Forall2
import Dfajit.Engines

namespace dfajit.offsets

open error table codegen table_scan dfa engines reset_run

/-! ## Where an accept state is entered -/

/-- The state of a scan after the bytes: a match sets it back to the start state. -/
def state_after (t : TransitionTable) (bytes : List UInt8) : UInt32 :=
  bytes.foldl
    (fun s b => if pattern_of t (clean_next t s b) = NONE then clean_next t s b else 0) 0

/-- The byte in front of the offset enters an accept state with this pattern. -/
def EntersAccept (t : TransitionTable) (input : List UInt8) (offset : Nat) (pid : UInt32) :
    Prop :=
  ∃ pre b, pre ++ [b] <+: input ∧ (pre ++ [b]).length = offset ∧
    (clean_next t (state_after t pre) b, pid) ∈ t.accept_states

/-- The match lies in the input, and there is a length for its pattern. -/
structure Bounded (t : TransitionTable) (input : List UInt8) (m : Match) : Prop where
  start_le : m.start ≤ m.end
  end_le : m.end.toNat ≤ input.length
  pattern : m.pattern_id.toNat < t.pattern_lengths.length

/-- Each match ends after the one before, where its accept state is entered. -/
structure Exact (t : TransitionTable) (input : List UInt8) (ms : List Match) : Prop where
  bounded : ∀ m ∈ ms, Bounded t input m
  increasing : (ms.map fun m => m.end.toNat).Pairwise (· < ·)
  entered : ∀ m ∈ ms, EntersAccept t input m.end.toNat m.pattern_id

section

variable {t : TransitionTable} {input : List UInt8} {offset : Nat} {pid : UInt32}

theorem state_after_eq (bytes : List UInt8) : state_after t bytes = (scanner t []).settled bytes := by
  unfold state_after Scanner.settled
  congr 1
  funext s b
  unfold Scanner.settle
  simp only [scanner_next, scanner_out, scanner_start, reports_nil_iff]

theorem EntersAccept.pos (h : EntersAccept t input offset pid) : 0 < offset := by
  obtain ⟨pre, b, _, hlen, _⟩ := h
  rw [List.length_append, List.length_singleton] at hlen
  omega

theorem EntersAccept.le (h : EntersAccept t input offset pid) : offset ≤ input.length := by
  obtain ⟨pre, b, hpre, hlen, _⟩ := h
  rw [← hlen]
  exact hpre.length_le

/-- Each report of a table without links comes from an accept state. -/
theorem entersAccept_of_event {e : UInt32 × Nat} (h : e ∈ (scanner t []).events input) :
    EntersAccept t input e.2 e.1 := by
  obtain ⟨pre, b, hpre, hplace, hout⟩ := Scanner.mem_events h
  rw [scanner_next, scanner_out, reports_alone, ← state_after_eq] at hout
  refine ⟨pre, b, hpre, ?_, ?_⟩
  · rw [hplace, List.length_append, List.length_singleton]
  · split at hout
    · cases hout
    · rename_i hne
      rw [List.mem_singleton.mp hout]
      exact pattern_of_mem hne

theorem events_alone_increasing (t : TransitionTable) (input : List UInt8) :
    (((scanner t []).events input).map (·.2)).Pairwise (· < ·) := by
  apply Scanner.events_increasing
  intro s
  rw [scanner_out, reports_alone]
  split
  · exact Nat.zero_le _
  · exact Nat.le_refl _

end

/-! ## The offsets that are written -/

theorem saturating_sub_le (a b : UInt32) : saturating_sub a b ≤ a := by
  unfold saturating_sub
  split
  · rename_i h
    rw [UInt32.le_iff_toNat_le, UInt32.toNat_sub_of_le _ _ h]
    exact Nat.sub_le _ _
  · rw [UInt32.le_iff_toNat_le]
    exact Nat.zero_le _

section

variable {os : Os} {t : TransitionTable} {jit : JitDfa} {input : List UInt8}

/-- The match of an event is at its place, counted in 32 bits. -/
theorem match_of_event (hv : t.Valid) {e : UInt32 × Nat} (h : e ∈ (scanner t []).events input) :
    Bounded t input (match_at t.pattern_lengths e.1 (e.2 - 1)) ∧
      (match_at t.pattern_lengths e.1 (e.2 - 1)).end.toNat = e.2 % 2 ^ 32 := by
  have henters := entersAccept_of_event h
  have hpos := henters.pos
  have hle := henters.le
  have hend : (match_at t.pattern_lengths e.1 (e.2 - 1)).end.toNat = e.2 % 2 ^ 32 := by
    unfold match_at Match.from_parts
    simp only [Nat.sub_add_cancel hpos, UInt32.toNat_ofNat']
  refine ⟨⟨?_, ?_, ?_⟩, hend⟩
  · exact saturating_sub_le _ _
  · rw [hend]
    exact Nat.le_trans (Nat.mod_le _ _) hle
  · obtain ⟨_, _, _, _, hmem⟩ := henters
    exact hv.lengths _ hmem

/-- Each match that a scan writes has its true offset, of which it bears the low
32 bits. -/
theorem scan_offsets (hjit : JitDfa.compile os t = .ok jit) (slots : List Match)
    (place : Placement jit.code input slots.length) :
    ∃ n written, jit.scan input slots place = .ok (n, written) ∧
      List.Forall₂
        (fun m e => Bounded t input m ∧ EntersAccept t input e m.pattern_id ∧
          m.end.toNat = e % 2 ^ 32)
        (written.take n) ((((scanner t []).events input).map (·.2)).take slots.length) := by
  obtain ⟨hch, _⟩ := compile_with_output_links_ok hjit
  obtain ⟨written, hscan, hkeys⟩ :=
    scan_writes hjit (linked_of_checked hch) sparse_alone slots place
  refine ⟨_, written, hscan, ?_⟩
  have hall : List.Forall₂
      (fun (k : UInt32 × UInt32 × UInt32) e => (k.2.1 ≤ k.2.2 ∧ k.2.2.toNat ≤ input.length ∧
        k.1.toNat < t.pattern_lengths.length) ∧ EntersAccept t input e k.1 ∧
        k.2.2.toNat = e % 2 ^ 32)
      (((found t [] input).map Match.key).take slots.length)
      ((((scanner t []).events input).map (·.2)).take slots.length) := by
    apply List.forall₂_take
    unfold found matchesOf
    rw [List.map_map, List.forall₂_map_left_iff, List.forall₂_map_right_iff, List.forall₂_same]
    intro e he
    obtain ⟨hb, hend⟩ := match_of_event hch.valid he
    exact ⟨⟨hb.start_le, hb.end_le, hb.pattern⟩, entersAccept_of_event he, hend⟩
  rw [← hkeys, List.forall₂_map_left_iff] at hall
  apply hall.imp
  rintro m e ⟨⟨hstart, hend, hpid⟩, henters, hmod⟩
  exact ⟨⟨hstart, hend, hpid⟩, henters, hmod⟩

/-- In an input shorter than 4 GiB the low 32 bits are the whole offset. -/
theorem exact_of_offsets {ms : List Match} {offsets : List Nat} (hin : input.length < 2 ^ 32)
    (hoffsets : offsets.Pairwise (· < ·))
    (h : List.Forall₂
      (fun m e => Bounded t input m ∧ EntersAccept t input e m.pattern_id ∧
        m.end.toNat = e % 2 ^ 32) ms offsets) :
    Exact t input ms := by
  have hends : List.Forall₂
      (fun m e => (Bounded t input m ∧ EntersAccept t input m.end.toNat m.pattern_id) ∧
        m.end.toNat = e) ms offsets := by
    apply h.imp
    rintro m e ⟨hb, henters, hmod⟩
    have hle := henters.le
    rw [Nat.mod_eq_of_lt (by omega)] at hmod
    rw [hmod]
    exact ⟨⟨hb, henters⟩, rfl⟩
  rw [List.forall₂_and_left] at hends
  obtain ⟨hms, heq⟩ := hends
  have hlist : List.Forall₂ (· = ·) (ms.map fun m => m.end.toNat) offsets :=
    List.forall₂_map_left_iff.mpr heq
  rw [List.forall₂_eq_eq_eq] at hlist
  refine ⟨fun m hm => (hms m hm).1, ?_, fun m hm => (hms m hm).2⟩
  rw [hlist]
  exact hoffsets

/-- The matches that a scan writes lie in the input and have a length for their
pattern, and their ends are the low 32 bits of offsets that grow, each just after
the byte that entered the accept state. In an input shorter than 4 GiB they are
exact. -/
theorem ends_are_the_low_bits_of_the_offsets (hjit : JitDfa.compile os t = .ok jit)
    (input : List UInt8) (slots : List Match) (place : Placement jit.code input slots.length) :
    ∃ n written offsets, jit.scan input slots place = .ok (n, written) ∧
      (∀ m ∈ written.take n, Bounded t input m) ∧ offsets.Pairwise (· < ·) ∧
      List.Forall₂ (fun m e => EntersAccept t input e m.pattern_id ∧ m.end.toNat = e % 2 ^ 32)
        (written.take n) offsets ∧
      (input.length < 2 ^ 32 → Exact t input (written.take n)) := by
  obtain ⟨n, written, hscan, hall⟩ := scan_offsets hjit slots place
  have hoffsets := (events_alone_increasing t input).sublist (List.take_sublist slots.length _)
  refine ⟨n, written, _, hscan, ?_, hoffsets, ?_, ?_⟩
  · exact ((List.forall₂_and_left _ _).mp hall).1
  · exact ((List.forall₂_and_left _ _).mp hall).2
  · intro hin
    exact exact_of_offsets hin hoffsets hall

end

/-! ## An offset that does not fit -/

/-- A table that finds the byte `b`. -/
def finds_b : TransitionTable where
  state_count := 2
  class_count := 256
  transitions := (List.range 512).map fun i => if i = 98 then 1 else 0
  accept_states := [(1, 0)]
  pattern_lengths := [1]
  states_le := two_states_fit
  class_pos := some_byte

/-- So many bytes `a`, and a `b`. -/
def b_after (n : Nat) : List UInt8 := List.replicate n 97 ++ [98]

theorem finds_b_compiles : ∃ jit, JitDfa.compile generous finds_b = .ok jit := by
  have hch : Checked finds_b [] := (check_table_ok .w64 _ _).mp (by decide +kernel)
  exact (compile_accepts (generous_grants rfl hch.valid.len (by decide) (Nat.zero_le _))).mpr hch

theorem finds_b_stays : clean_next finds_b 0 97 = 0 ∧ clean_next finds_b 0 98 = 1 := by
  decide +kernel

theorem finds_b_reports : reports finds_b [] 0 = [] ∧ reports finds_b [] 1 = [0] := by
  decide +kernel

theorem b_after_length (n : Nat) : (b_after n).length = n + 1 := by
  unfold b_after
  rw [List.length_append, List.length_replicate, List.length_singleton]

theorem b_after_events (n pos : Nat) :
    (scanner finds_b []).eventsFrom 0 pos (b_after n) = [(0, pos + n + 1)] := by
  obtain ⟨ha, hb⟩ := finds_b_stays
  obtain ⟨hquiet, hhit⟩ := finds_b_reports
  induction n generalizing pos with
  | zero =>
    have hout : (scanner finds_b []).out ((scanner finds_b []).next 0 98) = [0] := by
      rw [scanner_next, scanner_out, hb, hhit]
    change (scanner finds_b []).eventsFrom 0 pos [98] = _
    rw [Scanner.eventsFrom_hit (by rw [hout]; exact List.cons_ne_nil _ _), hout]
    rfl
  | succ n ih =>
    have hout : (scanner finds_b []).out ((scanner finds_b []).next 0 97) = [] := by
      rw [scanner_next, scanner_out, ha, hquiet]
    have hstep : b_after (n + 1) = 97 :: b_after n := by
      unfold b_after
      rw [List.replicate_succ, List.cons_append]
    have hplace : pos + 1 + n + 1 = pos + (n + 1) + 1 := by omega
    rw [hstep, Scanner.eventsFrom_quiet hout, scanner_next, ha, ih, hplace]

theorem b_after_keys (n : Nat) :
    (found finds_b [] (b_after n)).map Match.key =
      [(0, saturating_sub (.ofNat (n + 1)) 1, .ofNat (n + 1))] := by
  unfold found Scanner.events
  rw [scanner_start, b_after_events, Nat.zero_add]
  rfl

theorem b_after_enters (n : Nat) : EntersAccept finds_b (b_after n) (n + 1) 0 := by
  have hstart : state_after finds_b (List.replicate n 97) = 0 := by
    obtain ⟨ha, _⟩ := finds_b_stays
    obtain ⟨hquiet, _⟩ := finds_b_reports
    rw [reports_nil_iff] at hquiet
    unfold state_after
    induction n with
    | zero => rfl
    | succ n ih =>
      rw [List.replicate_succ, List.foldl_cons, ha, if_pos hquiet]
      exact ih
  refine ⟨List.replicate n 97, 98, List.prefix_refl _, b_after_length n, ?_⟩
  rw [hstart, finds_b_stays.2]
  exact List.mem_singleton_self _

/-- The scan of such an input writes one match. -/
theorem scan_b_after {n : Nat} (hn : n ≤ 2 ^ 32) :
    ∃ jit place written, JitDfa.compile generous finds_b = .ok jit ∧
      jit.scan (b_after n) [Match.from_parts 0 0 0] place = .ok (1, written) ∧
      (written.take 1).map Match.key =
        [(0, saturating_sub (.ofNat (n + 1)) 1, .ofNat (n + 1))] := by
  obtain ⟨jit, hjit⟩ := finds_b_compiles
  have hlens : finds_b.pattern_lengths.length < 2 ^ 61 := by decide
  obtain ⟨place⟩ := exists_place hjit hlens (b_after n) [Match.from_parts 0 0 0].length
    (by rw [b_after_length]; omega) (by decide)
  have hch := (compile_with_output_links_ok hjit).1
  obtain ⟨written, hscan, hkeys⟩ :=
    scan_writes hjit (linked_of_checked hch) sparse_alone [Match.from_parts 0 0 0] place
  have hone := congrArg List.length (b_after_keys n)
  rw [List.length_map, List.length_singleton] at hone
  rw [hone] at hscan hkeys
  rw [b_after_keys] at hkeys
  exact ⟨jit, place, written, hjit, hscan, hkeys⟩

/-- The law for `aab`. -/
theorem the_end_of_aab_is_exact :
    ∃ jit place, JitDfa.compile generous finds_b = .ok jit ∧
      ∃ n written offsets,
        jit.scan (b_after 2) [Match.from_parts 0 0 0] place = .ok (n, written) ∧
        (∀ m ∈ written.take n, Bounded finds_b (b_after 2) m) ∧ offsets.Pairwise (· < ·) ∧
        List.Forall₂
          (fun m e => EntersAccept finds_b (b_after 2) e m.pattern_id ∧
            m.end.toNat = e % 2 ^ 32) (written.take n) offsets ∧
        ((b_after 2).length < 2 ^ 32 → Exact finds_b (b_after 2) (written.take n)) := by
  obtain ⟨jit, place, _, hjit, _, _⟩ := scan_b_after (Nat.le_of_lt (by decide : 2 < 2 ^ 32))
  exact ⟨jit, place, hjit, ends_are_the_low_bits_of_the_offsets hjit _ _ place⟩

/-- A `b` after 2^32 - 1 other bytes ends at 2^32, and is written with the end 0. -/
theorem the_end_at_4_GiB_is_written_as_zero :
    ∃ jit place written, JitDfa.compile generous finds_b = .ok jit ∧
      jit.scan (b_after (2 ^ 32 - 1)) [Match.from_parts 0 0 0] place = .ok (1, written) ∧
      (written.take 1).map Match.key = [(0, 0, 0)] ∧
      EntersAccept finds_b (b_after (2 ^ 32 - 1)) (2 ^ 32) 0 ∧
      ¬ Exact finds_b (b_after (2 ^ 32 - 1)) (written.take 1) := by
  have henters := b_after_enters (2 ^ 32 - 1)
  have hplace : 2 ^ 32 - 1 + 1 = 2 ^ 32 := by decide
  have hzero : UInt32.ofNat (2 ^ 32) = 0 := by decide
  have hstart : saturating_sub 0 1 = 0 := by decide
  obtain ⟨jit, place, written, hjit, hscan, hkeys⟩ := scan_b_after (Nat.sub_le (2 ^ 32) 1)
  rw [hplace, hzero, hstart] at hkeys
  rw [hplace] at henters
  refine ⟨jit, place, written, hjit, hscan, hkeys, henters, ?_⟩
  intro hexact
  obtain ⟨m, hm, hkey⟩ := List.mem_map.mp (hkeys.symm ▸ List.mem_singleton_self (0, 0, 0))
  have hend : m.end = 0 := congrArg (·.2.2) hkey
  have hpos := (hexact.entered m hm).pos
  rw [hend] at hpos
  exact absurd hpos (by decide)

end dfajit.offsets
