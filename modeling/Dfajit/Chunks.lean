-- Scanning in chunks (match_type.rs): offsets have 32 bits, so a larger input is
-- scanned chunk by chunk, and the offset of each chunk is added to its matches.
-- A scan starts over at each cut, so an occurrence that lies across one can change
-- what is found.
import Dfajit.Occurrences
import Dfajit.Offsets

namespace dfajit.chunks

open error table codegen table_scan jit_run dfa engines reset_run stabbing output_links
  pattern_scan agreement literals occurrences offsets

/-! ## The scan of the chunks -/

/-- A match with its offsets in the whole input: its pattern id, its start and its
end. -/
abbrev Spot := UInt32 × Nat × Nat

/-- A part of the input, and the buffer for its matches. -/
structure Chunk (code : ExecutableBuffer) where
  bytes : List UInt8
  slots : List Match
  place : Placement code bytes slots.length

/-- The offset of the chunk is added to a match. -/
def rebase (base : Nat) (k : Key) : Spot := (k.1, base + k.2.1.toNat, base + k.2.2.toNat)

/-- Each chunk is scanned by itself, and its offset is added to its matches. -/
def scan_in_chunks (jit : JitDfa) : Nat → List (Chunk jit.code) → Res (List Spot)
  | _, [] => .ok []
  | base, c :: cs => do
    let (count, written) ← jit.scan c.bytes c.slots c.place
    let rest ← scan_in_chunks jit (base + c.bytes.length) cs
    .ok ((written.take count).map (fun m => rebase base m.key) ++ rest)

/-- The input that the chunks are parts of. -/
def whole {code : ExecutableBuffer} (cs : List (Chunk code)) : List UInt8 :=
  (cs.map (·.bytes)).flatten

/-- The offsets in the chunk fit, and its buffer has room for all its matches. -/
structure Roomy {jit : JitDfa} (c : Chunk jit.code) : Prop where
  short : c.bytes.length < 2 ^ 32
  room : ∃ n, jit.scan_count c.bytes c.place.no_matches = .ok n ∧ n ≤ c.slots.length

/-- What the scans of the parts find. -/
def found_in_chunks (t : TransitionTable) (links : List UInt32) :
    Nat → List (List UInt8) → List Spot
  | _, [] => []
  | base, x :: xs =>
    ((found t links x).map fun m => rebase base m.key) ++
      found_in_chunks t links (base + x.length) xs

section

variable {os : Os} {t : TransitionTable} {links : List UInt32} {jit : JitDfa}

theorem scan_roomy (hjit : JitDfa.compile_with_output_links os t links = .ok jit)
    (hl : Linked t links) (hsp : Sparse t links) {c : Chunk jit.code} (hc : Roomy c) :
    ∃ written, jit.scan c.bytes c.slots c.place = .ok ((found t links c.bytes).length, written) ∧
      (written.take (found t links c.bytes).length).map Match.key =
        (found t links c.bytes).map Match.key := by
  obtain ⟨n, hcount, hroom⟩ := hc.room
  rw [scan_count_eq hjit hl hsp] at hcount
  obtain rfl := Except.ok.inj hcount
  obtain ⟨written, hscan, hkeys⟩ := scan_writes hjit hl hsp c.slots c.place
  rw [Nat.min_eq_left hroom] at hscan hkeys
  have hall : ((found t links c.bytes).map Match.key).length ≤ c.slots.length := by
    rw [List.length_map]
    exact hroom
  rw [List.take_of_length_le hall] at hkeys
  exact ⟨written, hscan, hkeys⟩

/-- There are no more matches than bytes. -/
theorem roomy_of_length (hjit : JitDfa.compile_with_output_links os t links = .ok jit)
    (hl : Linked t links) (hsp : Sparse t links) {c : Chunk jit.code}
    (hshort : c.bytes.length < 2 ^ 32) (hroom : c.bytes.length ≤ c.slots.length) : Roomy c :=
  ⟨hshort, _, scan_count_eq hjit hl hsp c.bytes _, Nat.le_trans (hsp c.bytes) hroom⟩

theorem scan_in_chunks_eq (hjit : JitDfa.compile_with_output_links os t links = .ok jit)
    (hl : Linked t links) (hsp : Sparse t links) (base : Nat) (cs : List (Chunk jit.code))
    (hcs : ∀ c ∈ cs, Roomy c) :
    scan_in_chunks jit base cs = .ok (found_in_chunks t links base (cs.map (·.bytes))) := by
  induction cs generalizing base with
  | nil => rfl
  | cons c cs ih =>
    rw [List.forall_mem_cons] at hcs
    obtain ⟨written, hscan, hkeys⟩ := scan_roomy hjit hl hsp hcs.1
    have hspots := congrArg (List.map (rebase base)) hkeys
    rw [List.map_map, List.map_map] at hspots
    unfold scan_in_chunks
    rw [hscan, ok_bind]
    simp only
    rw [ih _ hcs.2, ok_bind, List.map_cons, found_in_chunks]
    exact congrArg (fun l => Except.ok (l ++ _)) hspots

end

/-! ## Cuts where the scan is in its start state -/

section

variable {t : TransitionTable} {links : List UInt32} {x : List UInt8}

theorem settled_eq (t : TransitionTable) (links : List UInt32) (bytes : List UInt8) :
    (scanner t links).settled bytes = state_after t bytes := by
  unfold state_after Scanner.settled
  congr 1
  funext s b
  unfold Scanner.settle
  simp only [scanner_next, scanner_out, scanner_start, reports_nil_iff]

/-- Each event stands behind a symbol of the input. -/
theorem event_place {e : UInt32 × Nat} (h : e ∈ (scanner t links).events x) :
    0 < e.2 ∧ e.2 ≤ x.length := by
  obtain ⟨pre, b, hpre, hplace, _⟩ := Scanner.mem_events h
  have hle := hpre.length_le
  rw [List.length_append, List.length_singleton] at hle
  omega

/-- The ids and the ends of the matches of a chunk, with its offset. -/
theorem found_places (hx : x.length < 2 ^ 32) (base : Nat) :
    ((found t links x).map fun m => rebase base m.key).map (fun k => (k.1, k.2.2)) =
      ((scanner t links).events x).map fun e => (e.1, base + e.2) := by
  unfold found matchesOf
  rw [List.map_map, List.map_map]
  apply List.map_congr_left
  intro e he
  obtain ⟨hpos, hle⟩ := event_place he
  have hend : (UInt32.ofNat (e.2 - 1 + 1)).toNat = e.2 := by
    rw [Nat.sub_add_cancel hpos, u32_toNat (by omega)]
  simp only [Function.comp_apply, rebase, Match.key, match_at, Match.from_parts]
  rw [hend]

theorem state_after_append {x : List UInt8} (h : state_after t x = 0) (y : List UInt8) :
    state_after t (x ++ y) = state_after t y := by
  unfold state_after at h ⊢
  rw [List.foldl_append, h]

/-- Where each part leads back to the start state, the parts have the matches of
the whole. -/
theorem found_in_chunks_at_rest (base : Nat) (xs : List (List UInt8))
    (hshort : ∀ x ∈ xs, x.length < 2 ^ 32)
    (hrest : ∀ pre post, xs = pre ++ post → post ≠ [] → state_after t pre.flatten = 0) :
    (found_in_chunks t links base xs).map (fun k => (k.1, k.2.2)) =
      ((scanner t links).events xs.flatten).map fun e => (e.1, base + e.2) := by
  induction xs generalizing base with
  | nil => rfl
  | cons x xs ih =>
    rw [List.forall_mem_cons] at hshort
    rw [found_in_chunks, List.map_append, found_places hshort.1, List.flatten_cons]
    cases xs with
    | nil => simp [found_in_chunks]
    | cons y ys =>
      have hx : state_after t x = 0 := by
        have h := hrest [x] (y :: ys) rfl (List.cons_ne_nil _ _)
        simpa using h
      have hrest' : ∀ pre post, y :: ys = pre ++ post → post ≠ [] →
          state_after t pre.flatten = 0 := by
        intro pre post heq hne
        have h := hrest (x :: pre) post (by rw [heq]; rfl) hne
        rwa [List.flatten_cons, state_after_append hx] at h
      have hstart : (scanner t links).settled x = (scanner t links).start := by
        rw [settled_eq, hx]
        rfl
      rw [ih _ hshort.2 hrest', Scanner.events_append_of_settled hstart, List.map_append,
        List.map_map]
      simp only [Function.comp_def, Nat.add_assoc]

end

/-- Where the DFA is in its start state at each cut, the chunks have the matches
that one scan of the whole input enters, at their true offsets. -/
theorem chunks_cut_in_the_start_state_lose_nothing {os : Os} {t : TransitionTable}
    {links : List UInt32} {jit : JitDfa} (hrun : RunsWith t links)
    (hjit : JitDfa.compile_with_output_links os t links = .ok jit) (cs : List (Chunk jit.code))
    (hcs : ∀ c ∈ cs, Roomy c)
    (hrest : ∀ pre post, cs = pre ++ post → post ≠ [] → state_after t (whole pre) = 0) :
    ∃ ks, scan_in_chunks jit 0 cs = .ok ks ∧
      ks.map (fun k => (k.1, k.2.2)) = (scanner t links).events (whole cs) := by
  obtain ⟨hch, _⟩ := compile_with_output_links_ok hjit
  obtain ⟨hl, hsp⟩ := hrun.linked hch
  refine ⟨_, scan_in_chunks_eq hjit hl hsp 0 cs hcs, ?_⟩
  rw [found_in_chunks_at_rest]
  · simp only [Nat.zero_add, whole, List.map_id']
  · intro x hx
    obtain ⟨c, hc, rfl⟩ := List.mem_map.mp hx
    exact (hcs c hc).short
  · intro pre post heq hne
    obtain ⟨pre', post', rfl, rfl, rfl⟩ := List.map_eq_append_iff.mp heq
    exact hrest pre' post' rfl (by rintro rfl; exact hne rfl)

/-- The table of `b` on `ab` and `a`. -/
theorem chunks_of_aba_cut_behind_b_lose_nothing :
    ∃ (jit : JitDfa) (cs : List (Chunk jit.code)), JitDfa.compile generous finds_b = .ok jit ∧
      whole cs = [97, 98, 97] ∧
      ∃ ks, scan_in_chunks jit 0 cs = .ok ks ∧
        ks.map (fun k => (k.1, k.2.2)) = (scanner finds_b []).events (whole cs) := by
  obtain ⟨jit, hjit⟩ := finds_b_compiles
  obtain ⟨hch, hcode⟩ := compile_with_output_links_ok hjit
  obtain ⟨hl, hsp⟩ := RunsWith.linked (Or.inl rfl) hch
  have hptr := generous_ptr hcode
  let m := Match.from_parts 0 0 0
  let cs : List (Chunk jit.code) :=
    [⟨[97, 98], [m, m], low_place hptr _ 2 (by decide) (by decide)⟩,
      ⟨[97], [m], low_place hptr _ 1 (by decide) (by decide)⟩]
  have hcs : ∀ c ∈ cs, Roomy c := by
    intro c hc
    rcases List.mem_pair.mp hc with rfl | rfl
    · exact roomy_of_length hjit hl hsp (by decide : 2 < 2 ^ 32) (Nat.le_refl 2)
    · exact roomy_of_length hjit hl hsp (by decide : 1 < 2 ^ 32) (Nat.le_refl 1)
  have hrest : ∀ pre post, cs = pre ++ post → post ≠ [] → state_after finds_b (whole pre) = 0 := by
    intro pre post heq hne
    rcases pre with _ | ⟨c, _ | ⟨d, pre⟩⟩
    · rfl
    · obtain ⟨rfl, _⟩ := List.cons.inj heq
      change state_after finds_b [97, 98] = 0
      rw [← settled_eq finds_b []]
      simp [Scanner.settled, Scanner.settle, finds_b_stays, finds_b_reports]
    · have hlen := congrArg List.length heq
      have hpos := List.length_pos_iff.mpr hne
      simp only [List.length_append, List.length_cons, cs, List.length_nil] at hlen
      omega
  exact ⟨jit, cs, hjit, rfl, chunks_cut_in_the_start_state_lose_nothing (Or.inl rfl) hjit cs hcs
    hrest⟩

/-! ## Cuts in the text of patterns -/

/-- The match of a pattern that ends at `e`, at its true offset. -/
def spot_at (patterns : List (List UInt8)) (e : Nat) (p : List UInt8) : Spot :=
  (pid_of patterns p, e - p.length, e)

/-- What is reported at the restarts `cs`. -/
def spots (patterns : List (List UInt8)) (input : List UInt8) (cs : List (Nat × Nat)) :
    List Spot :=
  cs.flatMap fun c => (reported patterns (slice input c.1 c.2)).map (spot_at patterns c.2)

/-- The first match at each place where one ends. `last` is the end of the match
before. -/
def firsts : Nat → List Spot → List Spot
  | _, [] => []
  | last, k :: ks => if k.2.2 = last then firsts last ks else k :: firsts k.2.2 ks

/-- The restarts of the parts. -/
def chunk_restarts (patterns : List (List UInt8)) : Nat → List (List UInt8) → List (Nat × Nat)
  | _, [] => []
  | base, x :: xs =>
    ((restarts patterns x).map fun c => (base + c.1, base + c.2)) ++
      chunk_restarts patterns (base + x.length) xs

section

variable {patterns : List (List UInt8)} {t : TransitionTable} {links : List UInt32}
  {front x post : List UInt8} {xs ys : List (List UInt8)} {base s e : Nat} {c : Nat × Nat}

theorem slice_of_part (front x post : List UInt8) {a b : Nat} (hb : b ≤ x.length) :
    slice (front ++ x ++ post) (front.length + a) (front.length + b) = slice x a b := by
  have hdrop : (front ++ x ++ post).drop (front.length + a) = (x ++ post).drop a := by
    rw [List.append_assoc, ← List.drop_drop, List.drop_left]
  have hcount : front.length + b - (front.length + a) = b - a := by omega
  unfold slice
  rw [hdrop, hcount]
  by_cases ha : a ≤ x.length
  · rw [List.drop_append_of_le_length ha,
      List.take_append_of_le_length (by rw [List.length_drop]; omega)]
  · have hnone : b - a = 0 := by omega
    rw [hnone, List.take_zero, List.take_zero]

/-- An occurrence in a part is one in the whole. -/
theorem occurs_in_whole (h : Occurs patterns x s e) :
    Occurs patterns (front ++ x ++ post) (front.length + s) (front.length + e) := by
  obtain ⟨hlt, hle, hmem⟩ := h
  refine ⟨by omega, ?_, ?_⟩
  · rw [List.length_append, List.length_append]
    omega
  · rw [slice_of_part front x post hle]
    exact hmem

theorem tight_in_whole (front post : List UInt8) {r : Nat} {es : List Nat}
    (h : Tight (Occurs patterns x) r es) :
    Tight (Occurs patterns (front ++ x ++ post)) (front.length + r)
      (es.map fun e => front.length + e) := by
  induction h with
  | nil => exact .nil
  | cons hr hs hocc _ ih =>
    exact .cons (Nat.add_le_add_left hr _) (Nat.add_lt_add_left hs _) (occurs_in_whole hocc) ih

/-! ### The restarts of the parts -/

theorem chunk_restarts_append (xs ys : List (List UInt8)) :
    chunk_restarts patterns base (xs ++ ys) =
      chunk_restarts patterns base xs ++
        chunk_restarts patterns (base + xs.flatten.length) ys := by
  induction xs generalizing base with
  | nil => rfl
  | cons x xs ih =>
    rw [List.cons_append, chunk_restarts, chunk_restarts, ih, List.append_assoc,
      List.flatten_cons, List.length_append, Nat.add_assoc]

/-- Each restart lies in the parts, behind the restart or the cut before it. -/
theorem chunk_restarts_mem (h : c ∈ chunk_restarts patterns base xs) :
    base ≤ c.1 ∧ c.1 < c.2 ∧ c.2 ≤ base + xs.flatten.length := by
  induction xs generalizing base with
  | nil => cases h
  | cons x xs ih =>
    rw [List.flatten_cons, List.length_append]
    rcases List.mem_append.mp h with h | h
    · obtain ⟨d, hd, rfl⟩ := List.mem_map.mp h
      obtain ⟨_, hlt, hle, _⟩ := (restarts_spec patterns x).mem hd
      simp only
      omega
    · have := ih h
      omega

/-- What comes behind a restart comes behind its end. -/
theorem chunk_restarts_le {d : Nat × Nat} (hc : c ∈ chunk_restarts patterns base xs)
    (hd : d ∈ chunk_restarts patterns base xs) (hlt : d.2 < c.2) : d.2 ≤ c.1 := by
  induction xs generalizing base with
  | nil => cases hc
  | cons x xs ih =>
    rcases List.mem_append.mp hc with hc | hc <;> rcases List.mem_append.mp hd with hd | hd
    · obtain ⟨c', hc', rfl⟩ := List.mem_map.mp hc
      obtain ⟨d', hd', rfl⟩ := List.mem_map.mp hd
      simp only at hlt ⊢
      have := (restarts_spec patterns x).le_of_lt hd' hc' (by omega)
      omega
    · obtain ⟨c', hc', rfl⟩ := List.mem_map.mp hc
      have := (restarts_spec patterns x).mem hc'
      have := chunk_restarts_mem hd
      simp only at hlt
      omega
    · obtain ⟨d', hd', rfl⟩ := List.mem_map.mp hd
      have := (restarts_spec patterns x).mem hd'
      have := chunk_restarts_mem hc
      simp only
      omega
    · exact ih hc hd

/-- A restart follows on another one or on a cut. -/
theorem chunk_restarts_follow (h : c ∈ chunk_restarts patterns base xs) :
    (∃ d ∈ chunk_restarts patterns base xs, d.2 = c.1) ∨
      ∃ pre post, xs = pre ++ post ∧ c.1 = base + pre.flatten.length := by
  induction xs generalizing base with
  | nil => cases h
  | cons x xs ih =>
    rcases List.mem_append.mp h with h | h
    · obtain ⟨c', hc', rfl⟩ := List.mem_map.mp h
      rcases (restarts_spec patterns x).follows hc' with hzero | ⟨d, hd, heq, _⟩
      · refine Or.inr ⟨[], x :: xs, rfl, ?_⟩
        rw [hzero]
        rfl
      · refine Or.inl ⟨(base + d.1, base + d.2), ?_, ?_⟩
        · exact List.mem_append_left _
            (List.mem_map_of_mem (f := fun c => (base + c.1, base + c.2)) hd)
        · simp only
          omega
    · rcases ih h with ⟨d, hd, heq⟩ | ⟨pre, post, rfl, heq⟩
      · exact Or.inl ⟨d, List.mem_append_right _ hd, heq⟩
      · refine Or.inr ⟨x :: pre, post, rfl, ?_⟩
        rw [heq, List.flatten_cons, List.length_append, Nat.add_assoc]

/-- A restart behind a cut follows on something behind the cut. -/
theorem chunk_restarts_behind (h : c ∈ chunk_restarts patterns base (xs ++ ys))
    (hlt : base + xs.flatten.length < c.2) : base + xs.flatten.length ≤ c.1 := by
  rw [chunk_restarts_append] at h
  rcases List.mem_append.mp h with h | h
  · have := chunk_restarts_mem h
    omega
  · exact (chunk_restarts_mem h).1

theorem chunk_restarts_tight (front : List UInt8) (xs : List (List UInt8)) :
    Tight (Occurs patterns (front ++ xs.flatten)) front.length
      ((chunk_restarts patterns front.length xs).map (·.2)) := by
  induction xs generalizing front with
  | nil => exact .nil
  | cons x xs ih =>
    have hfirst := tight_in_whole front xs.flatten (cuts_tight (restarts_spec patterns x))
    have hrest := ih (front ++ x)
    rw [List.append_assoc] at hfirst
    rw [List.append_assoc, List.length_append] at hrest
    rw [chunk_restarts, List.map_append, List.flatten_cons]
    rw [List.map_map] at hfirst ⊢
    apply Tight.append hfirst (by omega) ?_ hrest
    intro e he
    obtain ⟨c, hc, rfl⟩ := List.mem_map.mp he
    obtain ⟨_, _, hle, _⟩ := (restarts_spec patterns x).mem hc
    simp only [Function.comp_apply]
    omega

/-- The text of a restart is a hit. -/
theorem chunk_restarts_hit (front : List UInt8) (xs : List (List UInt8))
    (h : c ∈ chunk_restarts patterns front.length xs) :
    Hit patterns (slice (front ++ xs.flatten) c.1 c.2) := by
  induction xs generalizing front with
  | nil => cases h
  | cons x xs ih =>
    rw [List.flatten_cons, ← List.append_assoc]
    rcases List.mem_append.mp h with h | h
    · obtain ⟨d, hd, rfl⟩ := List.mem_map.mp h
      obtain ⟨_, _, hle, hhit⟩ := (restarts_spec patterns x).mem hd
      simp only
      rw [slice_of_part front x xs.flatten hle]
      exact hhit
    · apply ih (front ++ x)
      rw [List.length_append]
      exact h

/-- The scans of the parts find what is reported at their restarts. -/
theorem found_in_chunks_eq (ha : Automaton patterns t links) (front : List UInt8)
    (xs : List (List UInt8)) (hshort : ∀ x ∈ xs, x.length < 2 ^ 32) :
    found_in_chunks t links front.length xs =
      spots patterns (front ++ xs.flatten) (chunk_restarts patterns front.length xs) := by
  induction xs generalizing front with
  | nil => rfl
  | cons x xs ih =>
    rw [List.forall_mem_cons] at hshort
    have hrest := ih (front ++ x) hshort.2
    rw [List.append_assoc, List.length_append] at hrest
    rw [found_in_chunks, chunk_restarts, List.flatten_cons, hrest]
    unfold spots
    rw [List.flatMap_append, List.flatMap_map]
    congr 1
    have hkeys := congrArg (List.map (rebase front.length)) (found_keys ha hshort.1)
    rw [List.map_map, List.map_flatMap] at hkeys
    refine hkeys.trans ?_
    apply List.flatMap_congr
    intro c hc
    obtain ⟨_, _, hle, _⟩ := (restarts_spec patterns x).mem hc
    rw [← List.append_assoc, slice_of_part front x xs.flatten hle, List.map_map]
    apply List.map_congr_left
    intro v hv
    have hlen := (mem_ends.mp (reported_subset hv)).1.length_le
    rw [slice_length hle] at hlen
    simp only [Function.comp_apply, rebase, key_at, spot_at]
    rw [u32_toNat (by omega), u32_toNat (by omega), Nat.add_sub_assoc (by omega)]

/-! ### Occurrences across a cut -/

/-- An occurrence that crosses no cut lies in one part, and a restart there stabs
it. -/
theorem stabbed_or_crosses (front : List UInt8) (xs : List (List UInt8)) (hs : front.length ≤ s)
    (hocc : Occurs patterns (front ++ xs.flatten) s e) :
    (∃ pre post, xs = pre ++ post ∧ s < front.length + pre.flatten.length ∧
      front.length + pre.flatten.length < e) ∨
      ∃ d ∈ chunk_restarts patterns front.length xs, s < d.2 ∧ d.2 ≤ e := by
  induction xs generalizing front with
  | nil =>
    obtain ⟨hlt, hle, _⟩ := hocc
    rw [List.flatten_nil, List.append_nil] at hle
    omega
  | cons x xs ih =>
    by_cases hbefore : e ≤ front.length + x.length
    · obtain ⟨hlt, _, hmem⟩ := hocc
      have hsplit := slice_of_part front x xs.flatten (a := s - front.length)
        (b := e - front.length) (by omega)
      rw [List.append_assoc, ← List.flatten_cons, Nat.add_sub_cancel' hs,
        Nat.add_sub_cancel' (by omega)] at hsplit
      rw [hsplit] at hmem
      obtain ⟨y, hy, hsy, hye⟩ := cuts_stab (restarts_spec patterns x) (s - front.length)
        (e - front.length) (Nat.zero_le _) ⟨by omega, by omega, hmem⟩
      obtain ⟨c, hc, rfl⟩ := List.mem_map.mp hy
      refine Or.inr ⟨(front.length + c.1, front.length + c.2), ?_, ?_, ?_⟩
      · exact List.mem_append_left _
          (List.mem_map_of_mem (f := fun c => (front.length + c.1, front.length + c.2)) hc)
      · simp only
        omega
      · simp only
        omega
    by_cases hcross : s < front.length + x.length
    · refine Or.inl ⟨[x], xs, rfl, ?_⟩
      simp only [List.flatten_cons, List.flatten_nil, List.append_nil]
      omega
    · rw [List.flatten_cons, ← List.append_assoc] at hocc
      have h := ih (front ++ x) (by rw [List.length_append]; omega) hocc
      rw [List.length_append] at h
      rcases h with ⟨pre, post, rfl, h⟩ | ⟨d, hd, h⟩
      · refine Or.inl ⟨x :: pre, post, rfl, ?_⟩
        rw [List.flatten_cons, List.length_append]
        omega
      · exact Or.inr ⟨d, List.mem_append_right _ hd, h⟩

end

/-! ## The first match at each place -/

section

variable {patterns : List (List UInt8)} {input x : List UInt8} {cs : List (Nat × Nat)}

theorem firsts_same {last : Nat} {ks : List Spot} (h : ∀ k ∈ ks, k.2.2 = last) (rest : List Spot) :
    firsts last (ks ++ rest) = firsts last rest := by
  induction ks with
  | nil => rfl
  | cons k ks ih =>
    rw [List.forall_mem_cons] at h
    rw [List.cons_append, firsts, if_pos h.1, ih h.2]

/-- The longest pattern that ends the text. -/
def last_pattern (patterns : List (List UInt8)) (x : List UInt8) : List UInt8 :=
  (ends patterns x).headD []

theorem last_pattern_longest (hx : Hit patterns x) :
    Longest patterns x (last_pattern patterns x) ∧
      ∃ vs, reported patterns x = last_pattern patterns x :: vs := by
  obtain ⟨p, vs, hrep, hlong⟩ := reported_head hx
  have hhead : last_pattern patterns x = p := by
    unfold last_pattern
    unfold reported at hrep
    cases hends : ends patterns x with
    | nil =>
      rw [hends] at hrep
      split at hrep <;> cases hrep
    | cons u us =>
      rw [hends] at hrep
      split at hrep
      · exact (List.cons.inj hrep).1
      · exact (List.cons.inj hrep).1
  rw [hhead]
  exact ⟨hlong, vs, hrep⟩

theorem firsts_spots {last : Nat} (hsorted : (cs.map (·.2)).Pairwise (· < ·))
    (hlast : ∀ c ∈ cs, last < c.2) (hhit : ∀ c ∈ cs, Hit patterns (slice input c.1 c.2)) :
    firsts last (spots patterns input cs) =
      cs.map fun c => spot_at patterns c.2 (last_pattern patterns (slice input c.1 c.2)) := by
  induction cs generalizing last with
  | nil => rfl
  | cons c cs ih =>
    rw [List.map_cons, List.pairwise_cons] at hsorted
    rw [List.forall_mem_cons] at hlast hhit
    obtain ⟨_, vs, hrep⟩ := last_pattern_longest hhit.1
    have hne : (spot_at patterns c.2 (last_pattern patterns (slice input c.1 c.2))).2.2 ≠ last :=
      Nat.ne_of_gt hlast.1
    have hsame : ∀ k ∈ vs.map (spot_at patterns c.2), k.2.2 = c.2 := by
      intro k hk
      obtain ⟨v, _, rfl⟩ := List.mem_map.mp hk
      rfl
    have hrest : ∀ d ∈ cs, c.2 < d.2 := fun d hd => hsorted.1 d.2 (List.mem_map_of_mem hd)
    have hnext := ih hsorted.2 hrest hhit.2
    unfold spots at hnext ⊢
    rw [List.flatMap_cons, hrep, List.map_cons, List.cons_append, firsts, if_neg hne, List.map_cons]
    congr 1
    exact (firsts_same hsame _).trans hnext

theorem mem_spots_ends (hhit : ∀ c ∈ cs, Hit patterns (slice input c.1 c.2)) {P : Nat → Prop} :
    (∃ k ∈ spots patterns input cs, P k.2.2) ↔ ∃ c ∈ cs, P c.2 := by
  unfold spots
  constructor
  · rintro ⟨k, hk, hP⟩
    obtain ⟨c, hc, hk⟩ := List.mem_flatMap.mp hk
    obtain ⟨v, _, rfl⟩ := List.mem_map.mp hk
    exact ⟨c, hc, hP⟩
  · rintro ⟨c, hc, hP⟩
    obtain ⟨_, vs, hrep⟩ := last_pattern_longest (hhit c hc)
    refine ⟨spot_at patterns c.2 (last_pattern patterns (slice input c.1 c.2)), ?_, hP⟩
    refine List.mem_flatMap.mpr ⟨c, hc, ?_⟩
    rw [hrep]
    exact List.mem_map.mpr ⟨_, List.mem_cons_self, rfl⟩

/-- A longest pattern that lies behind `r'` is also the longest one there. -/
theorem longest_of_behind {r r' e : Nat} {p q : List UInt8} (hr : r ≤ r') (hr' : r' ≤ e)
    (he : e ≤ input.length) (hq : Longest patterns (slice input r e) q)
    (hp : Longest patterns (slice input r' e) p) (hbehind : r' ≤ e - q.length) : p = q := by
  have hocc := (occurs_of_suffix hq.pattern hq.some_byte (by omega) he hq.ends).2
  have hqsuf : q <:+ slice input r' e := by
    have h : slice input (e - q.length) e <:+ slice input r' e :=
      slice_suffix hbehind (Nat.le_of_lt hocc.1)
    rwa [slice_of_suffix (by omega) he hq.ends] at h
  have hpsuf : p <:+ slice input r e := hp.ends.trans (slice_suffix hr hr')
  have hle := hq.longest p hp.pattern hpsuf
  have hge := hp.longest q hq.pattern hqsuf
  exact (List.suffix_of_suffix_length_le hpsuf hq.ends hle).eq_of_length (by omega)

/-- Lists whose entries agree in one way agree in another way that follows. -/
theorem map_eq_of_map_eq {α β γ : Type} {f : α → β} {g : α → γ} {as bs : List α}
    (h : as.map f = bs.map f) (hg : ∀ a ∈ as, ∀ b ∈ bs, f a = f b → g a = g b) :
    as.map g = bs.map g := by
  induction as generalizing bs with
  | nil =>
    rw [List.map_nil, eq_comm, List.map_eq_nil_iff] at h
    rw [h]
  | cons a as ih =>
    cases bs with
    | nil => cases h
    | cons b bs =>
      obtain ⟨hab, htail⟩ := List.cons.inj h
      rw [List.map_cons, List.map_cons, hg a List.mem_cons_self b List.mem_cons_self hab]
      congr 1
      exact ih htail fun a ha b hb =>
        hg a (List.mem_cons_of_mem _ ha) b (List.mem_cons_of_mem _ hb)

end

/-! ## When the chunks find the first matches -/

/-- The occurrence lies across a cut. -/
def Crosses (xs : List (List UInt8)) (s e : Nat) : Prop :=
  ∃ pre post, xs = pre ++ post ∧ s < pre.flatten.length ∧ pre.flatten.length < e

section

variable {patterns : List (List UInt8)} {xs : List (List UInt8)}

/-- Where no occurrence crosses a cut untouched, the parts have the restarts of
the whole. -/
theorem restarts_of_chunks
    (h : ∀ s e, Occurs patterns xs.flatten s e → Crosses xs s e →
      ∃ d ∈ chunk_restarts patterns 0 xs, s < d.2 ∧ d.2 < e) :
    (chunk_restarts patterns 0 xs).map (·.2) = (restarts patterns xs.flatten).map (·.2) := by
  have hcuts := restarts_spec patterns xs.flatten
  have htight : Tight (Occurs patterns xs.flatten) 0 ((chunk_restarts patterns 0 xs).map (·.2)) :=
    chunk_restarts_tight [] xs
  apply Tight.unique htight ?_ (cuts_tight hcuts) (cuts_stab hcuts)
  intro s e _ hocc
  rcases stabbed_or_crosses [] xs (Nat.zero_le _) hocc with ⟨pre, post, heq, hlt⟩ | ⟨d, hd, hin⟩
  · simp only [List.length_nil, Nat.zero_add] at hlt
    obtain ⟨d, hd, hsd, hde⟩ := h s e hocc ⟨pre, post, heq, hlt⟩
    exact ⟨d.2, List.mem_map_of_mem hd, hsd, Nat.le_of_lt hde⟩
  · exact ⟨d.2, List.mem_map_of_mem hd, hin⟩

/-- Then the longest pattern at a restart is the same in the part and in the whole. -/
theorem last_pattern_of_chunks
    (h : ∀ s e, Occurs patterns xs.flatten s e → Crosses xs s e →
      ∃ d ∈ chunk_restarts patterns 0 xs, s < d.2 ∧ d.2 < e)
    {c d : Nat × Nat} (hd : d ∈ chunk_restarts patterns 0 xs)
    (hc : c ∈ restarts patterns xs.flatten) (hdc : d.2 = c.2) :
    last_pattern patterns (slice xs.flatten d.1 d.2) =
      last_pattern patterns (slice xs.flatten c.1 c.2) := by
  have hcuts := restarts_spec patterns xs.flatten
  have hends := restarts_of_chunks h
  have hback : ∀ d' ∈ chunk_restarts patterns 0 xs, d'.2 < c.2 → d'.2 ≤ c.1 := by
    intro d' hd' hlt
    have hmem : d'.2 ∈ (restarts patterns xs.flatten).map (·.2) := by
      rw [← hends]
      exact List.mem_map_of_mem hd'
    obtain ⟨c', hc', heq⟩ := List.mem_map.mp hmem
    have := hcuts.le_of_lt hc' hc (by omega)
    omega
  obtain ⟨_, hlt, hle, hhit⟩ := hcuts.mem hc
  have hdmem := chunk_restarts_mem hd
  have hcd : c.1 ≤ d.1 := by
    rcases hcuts.follows hc with hzero | ⟨c', hc', heq, _⟩
    · omega
    · have hmem : c'.2 ∈ (chunk_restarts patterns 0 xs).map (·.2) := by
        rw [hends]
        exact List.mem_map_of_mem hc'
      obtain ⟨d', hd', heq'⟩ := List.mem_map.mp hmem
      have := chunk_restarts_le hd hd' (by omega)
      omega
  have hhit' := chunk_restarts_hit [] xs hd
  rw [List.nil_append] at hhit'
  obtain ⟨hq, _⟩ := last_pattern_longest hhit
  obtain ⟨hp, _⟩ := last_pattern_longest hhit'
  rw [hdc] at hp ⊢
  apply longest_of_behind hcd (by omega) hle hq hp
  by_contra hbefore
  obtain ⟨hfrom, hocc⟩ := occurs_of_suffix hq.pattern hq.some_byte (Nat.le_of_lt hlt) hle hq.ends
  rcases chunk_restarts_follow hd with ⟨d', hd', heq⟩ | ⟨pre, post, heq, hcut⟩
  · have := hback d' hd' (by omega)
    omega
  · obtain ⟨d', hd', hsd, hde⟩ := h _ _ hocc ⟨pre, post, heq, by omega, by omega⟩
    have := hback d' hd' hde
    omega

/-- The parts have the first matches of the whole just when each occurrence across
a cut has a restart of the parts inside it. -/
theorem firsts_of_chunks_iff :
    firsts 0 (spots patterns xs.flatten (chunk_restarts patterns 0 xs)) =
        firsts 0 (spots patterns xs.flatten (restarts patterns xs.flatten)) ↔
      ∀ s e, Occurs patterns xs.flatten s e → Crosses xs s e →
        ∃ d ∈ chunk_restarts patterns 0 xs, s < d.2 ∧ d.2 < e := by
  have hcuts := restarts_spec patterns xs.flatten
  have htight : Tight (Occurs patterns xs.flatten) 0 ((chunk_restarts patterns 0 xs).map (·.2)) :=
    chunk_restarts_tight [] xs
  have hfirst : ∀ c ∈ chunk_restarts patterns 0 xs, 0 < c.2 := by
    intro c hc
    have := chunk_restarts_mem hc
    omega
  have hfirst' : ∀ c ∈ restarts patterns xs.flatten, 0 < c.2 := by
    intro c hc
    have := hcuts.mem hc
    omega
  have hhit : ∀ c ∈ chunk_restarts patterns 0 xs, Hit patterns (slice xs.flatten c.1 c.2) :=
    fun c hc => chunk_restarts_hit [] xs hc
  have hhit' : ∀ c ∈ restarts patterns xs.flatten, Hit patterns (slice xs.flatten c.1 c.2) :=
    fun c hc => (hcuts.mem hc).2.2.2
  rw [firsts_spots htight.sorted hfirst hhit, firsts_spots hcuts.sorted hfirst' hhit']
  constructor
  · intro hsame s e hocc hcross
    have hends : (restarts patterns xs.flatten).map (·.2) =
        (chunk_restarts patterns 0 xs).map (·.2) := by
      have h := congrArg (List.map fun k : Spot => k.2.2) hsame
      rw [List.map_map, List.map_map] at h
      exact h.symm
    have hback : ∀ c ∈ restarts patterns xs.flatten, ∃ d ∈ chunk_restarts patterns 0 xs,
        d.2 = c.2 := by
      intro c hc
      have hmem : c.2 ∈ (chunk_restarts patterns 0 xs).map (·.2) := by
        rw [← hends]
        exact List.mem_map_of_mem hc
      exact List.mem_map.mp hmem
    obtain ⟨y, hy, hsy, hye⟩ := cuts_stab hcuts s e (Nat.zero_le _) hocc
    obtain ⟨c, hc, rfl⟩ := List.mem_map.mp hy
    by_cases hinside : c.2 < e
    · obtain ⟨d, hd, heq⟩ := hback c hc
      exact ⟨d, hd, by omega, by omega⟩
    obtain rfl : c.2 = e := by omega
    by_cases hbehind : s < c.1
    · rcases hcuts.follows hc with hzero | ⟨c', hc', heq, hlt⟩
      · omega
      · obtain ⟨d, hd, heq'⟩ := hback c' hc'
        exact ⟨d, hd, by omega, by omega⟩
    -- A restart at the end of the occurrence: the whole reports at least the
    -- occurrence there, the parts only what lies behind the cut.
    exfalso
    obtain ⟨_, hlt, hle, _⟩ := hcuts.mem hc
    obtain ⟨hq, _⟩ := last_pattern_longest (hhit' c hc)
    have hmem : spot_at patterns c.2 (last_pattern patterns (slice xs.flatten c.1 c.2)) ∈
        (chunk_restarts patterns 0 xs).map fun d =>
          spot_at patterns d.2 (last_pattern patterns (slice xs.flatten d.1 d.2)) := by
      rw [hsame]
      exact List.mem_map.mpr ⟨c, hc, rfl⟩
    obtain ⟨d, hd, hspot⟩ := List.mem_map.mp hmem
    have hdc : d.2 = c.2 := congrArg (fun k : Spot => k.2.2) hspot
    have hstart : d.2 - (last_pattern patterns (slice xs.flatten d.1 d.2)).length =
        c.2 - (last_pattern patterns (slice xs.flatten c.1 c.2)).length :=
      congrArg (fun k : Spot => k.2.1) hspot
    obtain ⟨hp, _⟩ := last_pattern_longest (hhit d hd)
    have hplen := hp.ends.length_le
    rw [slice_length (by omega)] at hplen
    have hqlen := hq.ends.length_le
    rw [slice_length hle] at hqlen
    have hocclen := hq.longest _ hocc.2.2 (slice_suffix (by omega) (Nat.le_of_lt hocc.1))
    rw [slice_length hle] at hocclen
    obtain ⟨pre, post, rfl, hscut, hcute⟩ := hcross
    have hdcut := chunk_restarts_behind hd (by omega)
    omega
  · intro h
    apply map_eq_of_map_eq (restarts_of_chunks h)
    intro d hd c hc hdc
    rw [last_pattern_of_chunks h hd hc hdc, hdc]

end

/-- A chunked scan with patterns finds only occurrences, at their true offsets. It
has the first match at each place that a scan of the whole input with unbounded
offsets has, just when in each occurrence across a cut some match ends. -/
theorem chunks_find_the_first_matches_unless_an_occurrence_is_cut {os : Os}
    {patterns : List (List UInt8)} {jit : JitDfa} (hfew : patterns.length < 2 ^ 32)
    (h : JitDfa.from_patterns os patterns = .ok jit) (cs : List (Chunk jit.code))
    (hcs : ∀ c ∈ cs, Roomy c) :
    ∃ ks, scan_in_chunks jit 0 cs = .ok ks ∧
      (∀ k ∈ ks, ∃ p, patterns[k.1.toNat]? = some p ∧ p ≠ [] ∧ k.2.1 < k.2.2 ∧
        k.2.2 ≤ (whole cs).length ∧ slice (whole cs) k.2.1 k.2.2 = p) ∧
      (firsts 0 ks = firsts 0 (spots patterns (whole cs) (restarts patterns (whole cs))) ↔
        ∀ s e, Occurs patterns (whole cs) s e → Crosses (cs.map (·.bytes)) s e →
          ∃ k ∈ ks, s < k.2.2 ∧ k.2.2 < e) := by
  obtain ⟨t, links, ha, hjit⟩ := from_patterns_scans hfew h
  have hshort : ∀ x ∈ cs.map (·.bytes), x.length < 2 ^ 32 := by
    intro x hx
    obtain ⟨c, hc, rfl⟩ := List.mem_map.mp hx
    exact (hcs c hc).short
  have hhit : ∀ c ∈ chunk_restarts patterns 0 (cs.map (·.bytes)),
      Hit patterns (slice (whole cs) c.1 c.2) := fun c hc => chunk_restarts_hit [] _ hc
  have hfound : found_in_chunks t links 0 (cs.map (·.bytes)) =
      spots patterns (whole cs) (chunk_restarts patterns 0 (cs.map (·.bytes))) :=
    found_in_chunks_eq ha [] _ hshort
  refine ⟨_, scan_in_chunks_eq hjit ha.linked ha.sparse 0 cs hcs, ?_, ?_⟩
  · intro k hk
    rw [hfound] at hk
    obtain ⟨c, hc, hk⟩ := List.mem_flatMap.mp hk
    obtain ⟨v, hv, rfl⟩ := List.mem_map.mp hk
    obtain ⟨_, hlt, hle⟩ := chunk_restarts_mem hc
    have hle : c.2 ≤ (whole cs).length := by
      unfold whole
      omega
    obtain ⟨hsuf, hpat, hne⟩ := mem_ends.mp (reported_subset hv)
    obtain ⟨_, hocc⟩ := occurs_of_suffix hpat hne (Nat.le_of_lt hlt) hle hsuf
    refine ⟨v, ?_, hne, hocc.1, hle, slice_of_suffix (Nat.le_of_lt hlt) hle hsuf⟩
    change patterns[(pid_of patterns v).toNat]? = some v
    rw [pid_of_toNat hfew hpat, List.getElem?_idxOf hpat]
  · rw [hfound]
    refine firsts_of_chunks_iff.trans ?_
    refine forall_congr' fun s => forall_congr' fun e => imp_congr_right fun _ =>
      imp_congr_right fun _ => ?_
    exact (mem_spots_ends hhit (P := fun x => s < x ∧ x < e)).symm

/-- `abcd`, `bc` and `c` on `xab` and `cd`: `bc` and `abcd` are cut. -/
theorem chunks_of_xabcd_find_the_first_matches_unless_an_occurrence_is_cut :
    ∃ (jit : JitDfa) (cs : List (Chunk jit.code)),
      JitDfa.from_patterns generous overlapping = .ok jit ∧ whole cs = [120, 97, 98, 99, 100] ∧
      ∃ ks, scan_in_chunks jit 0 cs = .ok ks ∧
      (∀ k ∈ ks, ∃ p, overlapping[k.1.toNat]? = some p ∧ p ≠ [] ∧ k.2.1 < k.2.2 ∧
        k.2.2 ≤ (whole cs).length ∧ slice (whole cs) k.2.1 k.2.2 = p) ∧
      (firsts 0 ks = firsts 0 (spots overlapping (whole cs) (restarts overlapping (whole cs))) ↔
        ∀ s e, Occurs overlapping (whole cs) s e → Crosses (cs.map (·.bytes)) s e →
          ∃ k ∈ ks, s < k.2.2 ∧ k.2.2 < e) := by
  have hfew : overlapping.length < 2 ^ 32 := by decide
  obtain ⟨jit, hjit, hptr⟩ := from_patterns_compiles hfew (by decide) (by decide)
  obtain ⟨t, links, ha, hcompile⟩ := from_patterns_scans hfew hjit
  let m := Match.from_parts 0 0 0
  let cs : List (Chunk jit.code) :=
    [⟨[120, 97, 98], [m, m, m], low_place hptr _ 3 (by decide) (by decide)⟩,
      ⟨[99, 100], [m, m], low_place hptr _ 2 (by decide) (by decide)⟩]
  have hcs : ∀ c ∈ cs, Roomy c := by
    intro c hc
    rcases List.mem_pair.mp hc with rfl | rfl
    · exact roomy_of_length hcompile ha.linked ha.sparse (by decide : 3 < 2 ^ 32) (Nat.le_refl 3)
    · exact roomy_of_length hcompile ha.linked ha.sparse (by decide : 2 < 2 ^ 32) (Nat.le_refl 2)
  exact ⟨jit, cs, hjit, rfl,
    chunks_find_the_first_matches_unless_an_occurrence_is_cut hfew hjit cs hcs⟩

end dfajit.chunks
