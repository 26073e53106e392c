-- Tables made call by call with the builders (table.rs): what any sequence of calls
-- records, and on which sequences `compile` takes the table.
import Dfajit.Dfa
import Dfajit.BuiltTables

namespace dfajit.builders

open error table codegen dfa built_tables

/-! ## What the calls say -/

/-- The target that a call gives the state and the byte. -/
def target_of (s b : Nat) : Call → Option UInt32
  | .set_transition state byte next_state =>
    if state = s ∧ byte.toNat = b then some next_state else none
  | _ => none

/-- The target of the last call for the state and the byte, or 0. -/
def last_target (calls : List Call) (s b : Nat) : UInt32 :=
  ((calls.filterMap (target_of s b)).getLast?).getD 0

def added : Call → Option (UInt32 × UInt32)
  | .add_accept state pattern_id => some (state, pattern_id)
  | _ => none

/-- The pattern that a call makes room for. -/
def named : Call → Option UInt32
  | .set_transition _ _ _ => none
  | .add_accept _ pattern_id => some pattern_id
  | .set_pattern_length pattern_id _ => some pattern_id

def length_of (p : Nat) : Call → Option UInt32
  | .set_pattern_length pattern_id length => if pattern_id.toNat = p then some length else none
  | _ => none

/-- The length of the last call for the pattern, or 0. -/
def last_length (calls : List Call) (p : Nat) : UInt32 :=
  ((calls.filterMap (length_of p)).getLast?).getD 0

/-- The table holds just what the calls say. -/
structure Recorded (n c : Nat) (calls : List Call) (t : TransitionTable) : Prop where
  states : t.state_count = n
  classes : t.class_count = c
  len : t.transitions.length = n * c
  cells : ∀ s < n, ∀ b < c, t.transitions[s * c + b]? = some (last_target calls s b)
  accepts : t.accept_states = calls.filterMap added
  room : ∀ p, p < t.pattern_lengths.length ↔ ∃ id ∈ calls.filterMap named, p ≤ id.toNat
  lengths : ∀ p < t.pattern_lengths.length, t.pattern_lengths[p]? = some (last_length calls p)

section

variable {w : Width} {n c : Nat} {calls : List Call} {t : TransitionTable} {call : Call}

/-! ## One more call -/

theorem last_snoc {α : Type} (f : Call → Option α) (calls : List Call) (call : Call) :
    ((calls ++ [call]).filterMap f).getLast? =
      (f call).or ((calls.filterMap f).getLast?) := by
  rw [List.filterMap_append]
  cases h : f call with
  | none => simp [h]
  | some x => simp [h]

theorem last_target_snoc (calls : List Call) (call : Call) (s b : Nat) :
    last_target (calls ++ [call]) s b = (target_of s b call).getD (last_target calls s b) := by
  unfold last_target
  rw [last_snoc]
  cases target_of s b call <;> rfl

theorem last_length_snoc (calls : List Call) (call : Call) (p : Nat) :
    last_length (calls ++ [call]) p = (length_of p call).getD (last_length calls p) := by
  unfold last_length
  rw [last_snoc]
  cases length_of p call <;> rfl

/-- `resize` only adds places, and fills them with 0. -/
theorem room_for (ls : List UInt32) (m : Nat) (h : ls.length ≤ m) (p : Nat) :
    (TransitionTable.resize ls m 0)[p]? =
      if p < ls.length then ls[p]? else if p < m then some 0 else none := by
  unfold TransitionTable.resize
  rw [List.take_of_length_le h, List.getElem?_append]
  split
  · rfl
  · rw [List.getElem?_replicate]
    refine if_congr ?_ rfl rfl
    omega

theorem resize_length (ls : List UInt32) (m : Nat) (h : ls.length ≤ m) :
    (TransitionTable.resize ls m 0).length = m := by
  unfold TransitionTable.resize
  rw [List.take_of_length_le h, List.length_append, List.length_replicate]
  omega

/-- The lengths of the patterns with room for one more pattern. -/
def with_room (ls : List UInt32) (pattern_id : UInt32) : List UInt32 :=
  if ls.length ≤ pattern_id.toNat then TransitionTable.resize ls (pattern_id.toNat + 1) 0 else ls

theorem with_room_length (ls : List UInt32) (pattern_id : UInt32) :
    (with_room ls pattern_id).length = max ls.length (pattern_id.toNat + 1) := by
  unfold with_room
  split
  · rw [resize_length _ _ (by omega)]
    omega
  · omega

theorem with_room_get (ls : List UInt32) (pattern_id : UInt32) {p : Nat}
    (hp : p < (with_room ls pattern_id).length) :
    (with_room ls pattern_id)[p]? = if p < ls.length then ls[p]? else some 0 := by
  rw [with_room_length] at hp
  unfold with_room
  split
  · rw [room_for _ _ (by omega)]
    split
    · rfl
    · rw [if_pos (by omega)]
  · rw [if_pos (by omega)]

/-- A pattern without room has no length. -/
theorem last_length_beyond (h : Recorded n c calls t) {p : Nat}
    (hp : ¬ p < t.pattern_lengths.length) : last_length calls p = 0 := by
  have hnone : calls.filterMap (length_of p) = [] := by
    rw [List.filterMap_eq_nil_iff]
    intro call hcall
    cases call with
    | set_transition state byte next_state => rfl
    | add_accept state pattern_id => rfl
    | set_pattern_length pattern_id length =>
      refine if_neg ?_
      rintro rfl
      exact hp ((h.room _).mpr ⟨pattern_id, List.mem_filterMap.mpr ⟨_, hcall, rfl⟩, Nat.le_refl _⟩)
  unfold last_length
  rw [hnone]
  rfl

/-- The lengths before one more pattern is named. -/
theorem with_room_eq (h : Recorded n c calls t) (pattern_id : UInt32) {p : Nat}
    (hp : p < (with_room t.pattern_lengths pattern_id).length) :
    (with_room t.pattern_lengths pattern_id)[p]? = some (last_length calls p) := by
  rw [with_room_get _ _ hp]
  split
  · rename_i hin
    exact h.lengths p hin
  · rename_i hout
    rw [last_length_beyond h hout]

theorem with_room_iff (h : Recorded n c calls t) (pattern_id : UInt32) (p : Nat)
    (hname : named call = some pattern_id) :
    p < (with_room t.pattern_lengths pattern_id).length ↔
      ∃ id ∈ (calls ++ [call]).filterMap named, p ≤ id.toNat := by
  rw [with_room_length, List.filterMap_append]
  simp only [List.filterMap_cons, hname, List.filterMap_nil, List.mem_append, List.mem_singleton]
  constructor
  · intro hp
    by_cases hin : p < t.pattern_lengths.length
    · obtain ⟨id, hid, hle⟩ := (h.room p).mp hin
      exact ⟨id, Or.inl hid, hle⟩
    · exact ⟨pattern_id, Or.inr rfl, by omega⟩
  · rintro ⟨id, hid | rfl, hle⟩
    · have := (h.room p).mpr ⟨id, hid, hle⟩
      omega
    · omega

/-- One more call in bounds is recorded. -/
theorem Recorded.run (h : Recorded n c calls t) (hfit : n * c ≤ w.max) (hin : call.InBounds t) :
    Recorded n c (calls ++ [call]) (call.run w t) := by
  cases call with
  | set_transition state byte next_state =>
    obtain ⟨hstate, hbyte⟩ := hin
    rw [h.states] at hstate
    rw [h.classes] at hbyte
    have hplace := place_lt hstate hbyte
    have hmax : w.max < w.size := by cases w <;> decide
    have hrun : (Call.set_transition state byte next_state).run w t =
        { t with transitions := t.transitions.set (state * c + byte.toNat) next_state } := by
      have hidx : (state * t.class_count + byte.toNat) % w.size = state * c + byte.toNat := by
        rw [h.classes, Nat.mod_eq_of_lt (by omega)]
      unfold Call.run TransitionTable.set_transition
      simp only
      rw [hidx, if_pos (by rw [h.len]; exact hplace)]
    rw [hrun]
    refine ⟨h.states, h.classes, ?_, ?_, ?_, ?_, ?_⟩
    · simp only [List.length_set]
      exact h.len
    · intro s hs b hb
      rw [last_target_snoc]
      simp only [target_of]
      by_cases hsame : state = s ∧ byte.toNat = b
      · obtain ⟨rfl, rfl⟩ := hsame
        rw [if_pos ⟨rfl, rfl⟩, List.getElem?_set_self (by rw [h.len]; exact hplace)]
        rfl
      · rw [if_neg hsame, List.getElem?_set_ne, h.cells s hs b hb]
        · rfl
        · intro he
          exact hsame (place_inj hbyte hb he)
    · simp [h.accepts, added]
    · intro p
      rw [List.filterMap_append]
      simpa [named] using h.room p
    · intro p hp
      rw [last_length_snoc]
      exact h.lengths p hp
  | add_accept state pattern_id =>
    refine ⟨h.states, h.classes, h.len, ?_, ?_, ?_, ?_⟩
    · intro s hs b hb
      rw [last_target_snoc]
      exact h.cells s hs b hb
    · have hrun : ((Call.add_accept state pattern_id).run w t).accept_states =
          t.accept_states ++ [(state, pattern_id)] := rfl
      rw [hrun, h.accepts]
      simp [added]
    · intro p
      exact with_room_iff h pattern_id p rfl
    · intro p hp
      rw [last_length_snoc]
      exact with_room_eq h pattern_id hp
  | set_pattern_length pattern_id length =>
    have hrun : ((Call.set_pattern_length pattern_id length).run w t).pattern_lengths =
        (with_room t.pattern_lengths pattern_id).set pattern_id.toNat length := rfl
    refine ⟨h.states, h.classes, h.len, ?_, ?_, ?_, ?_⟩
    · intro s hs b hb
      rw [last_target_snoc]
      exact h.cells s hs b hb
    · have haccepts : ((Call.set_pattern_length pattern_id length).run w t).accept_states =
          t.accept_states := rfl
      rw [haccepts, h.accepts]
      simp [added]
    · intro p
      rw [hrun, List.length_set]
      exact with_room_iff h pattern_id p rfl
    · intro p hp
      rw [hrun, List.length_set] at hp
      rw [hrun, last_length_snoc]
      simp only [length_of]
      by_cases hsame : pattern_id.toNat = p
      · subst hsame
        rw [if_pos rfl, List.getElem?_set_self hp]
        rfl
      · rw [if_neg hsame, List.getElem?_set_ne hsame]
        exact with_room_eq h pattern_id hp

/-- Any calls in bounds on a new table are recorded. -/
theorem recorded (hnew : TransitionTable.new w n c = .ok t)
    (hin : ∀ call ∈ calls, call.InBounds t) : Recorded n c calls (build w t calls) := by
  obtain ⟨hn, hc, htransitions, haccepts, hlengths, hfit, _⟩ := TransitionTable.new_ok hnew
  induction calls using List.reverseRecOn with
  | nil =>
    refine ⟨hn, hc, ?_, ?_, haccepts, ?_, ?_⟩
    · change t.transitions.length = n * c
      rw [htransitions, List.length_replicate]
    · intro s hs b hb
      change t.transitions[s * c + b]? = some 0
      rw [htransitions, List.getElem?_replicate, if_pos (place_lt hs hb)]
    · intro p
      change p < t.pattern_lengths.length ↔ _
      rw [hlengths]
      simp
    · intro p hp
      change p < t.pattern_lengths.length at hp
      rw [hlengths] at hp
      cases hp
  | append_singleton calls call ih =>
    have hcall := hin call (by simp)
    have hrest := ih fun call hcall => hin call (List.mem_append_left _ hcall)
    obtain ⟨h1, h2, _⟩ := build_size (w := w) (t := t) calls
    rw [build_snoc]
    apply hrest.run hfit
    cases call with
    | set_transition state byte next_state =>
      change state < (build w t calls).state_count ∧ byte.toNat < (build w t calls).class_count
      rw [h1, h2]
      exact hcall
    | add_accept state pattern_id => trivial
    | set_pattern_length pattern_id length => trivial

/-- A pattern id has 32 bits, so there is memory for the lengths. -/
theorem Recorded.grants (h : Recorded n 256 calls t) : Grants generous t [] := by
  have hlens : t.pattern_lengths.length ≤ 2 ^ 32 := by
    by_contra hmany
    obtain ⟨id, _, hle⟩ := (h.room (2 ^ 32)).mp (by omega)
    have := id.toNat_lt
    omega
  exact generous_grants h.classes (by rw [h.len, h.states, h.classes]) hlens (Nat.zero_le _)

/-! ## Which tables compile -/

/-- The calls make a table that compiles: each target is a state, a flag stands only
on an accept state, and each state is accepted at most once. -/
structure Compiles (n : Nat) (calls : List Call) : Prop where
  some_state : 0 < n
  targets : ∀ s < n, ∀ b < 256, (clean (last_target calls s b)).toNat < n
  flags : ∀ s < n, ∀ b < 256, flagged (last_target calls s b) = true →
    ∃ pattern_id, .add_accept (clean (last_target calls s b)) pattern_id ∈ calls
  accepts : ∀ state pattern_id, .add_accept state pattern_id ∈ calls → state.toNat < n
  one_each : ((calls.filterMap added).map (·.1)).Nodup

theorem mem_added {a : UInt32 × UInt32} :
    a ∈ calls.filterMap added ↔ .add_accept a.1 a.2 ∈ calls := by
  rw [List.mem_filterMap]
  constructor
  · rintro ⟨call, hcall, he⟩
    cases call with
    | set_transition state byte next_state => cases he
    | add_accept state pattern_id =>
      obtain rfl := Option.some.inj he
      exact hcall
    | set_pattern_length pattern_id length => cases he
  · intro hcall
    exact ⟨_, hcall, rfl⟩

theorem Recorded.mem_transitions (h : Recorded n 256 calls t) {x : UInt32} :
    x ∈ t.transitions ↔ ∃ s < n, ∃ b < 256, x = last_target calls s b := by
  rw [List.mem_iff_getElem?]
  constructor
  · rintro ⟨i, hi⟩
    have hlt := (List.getElem?_eq_some_iff.mp hi).1
    rw [h.len] at hlt
    have hcell := h.cells (i / 256) (by omega) (i % 256) (by omega)
    have hplace : i / 256 * 256 + i % 256 = i := by omega
    rw [hplace, hi] at hcell
    exact ⟨i / 256, by omega, i % 256, by omega, Option.some.inj hcell⟩
  · rintro ⟨s, hs, b, hb, rfl⟩
    exact ⟨_, h.cells s hs b hb⟩

/-- Each accept entry that is added has room for its length, so `compile` never
misses one. -/
theorem Recorded.checked_iff (h : Recorded n 256 calls t) : Checked t [] ↔ Compiles n calls := by
  have hmem : ∀ s, s ∈ t.accept_states.map (·.1) ↔ ∃ p, .add_accept s p ∈ calls := by
    intro s
    rw [h.accepts, List.mem_map]
    constructor
    · rintro ⟨a, ha, rfl⟩
      exact ⟨a.2, mem_added.mp ha⟩
    · rintro ⟨p, hp⟩
      exact ⟨(s, p), mem_added.mpr hp, rfl⟩
  constructor
  · intro hch
    obtain ⟨⟨_, htargets, haccepts, hone, _⟩, hflags, hsome, _, _⟩ := hch
    rw [h.states] at hsome htargets haccepts
    refine ⟨hsome, ?_, ?_, ?_, ?_⟩
    · intro s hs b hb
      exact htargets _ (h.mem_transitions.mpr ⟨s, hs, b, hb, rfl⟩)
    · intro s hs b hb hflag
      exact (hmem _).mp (hflags _ (h.mem_transitions.mpr ⟨s, hs, b, hb, rfl⟩) hflag)
    · intro s p hp
      apply haccepts (s, p)
      rw [h.accepts]
      exact mem_added.mpr hp
    · rw [← h.accepts]
      exact hone
  · rintro ⟨hsome, htargets, hflags, haccepts, hone⟩
    refine ⟨⟨?_, ?_, ?_, ?_, ?_⟩, ?_, ?_, h.classes, Or.inl rfl⟩
    · rw [h.len, h.states, h.classes]
    · intro x hx
      obtain ⟨s, hs, b, hb, rfl⟩ := h.mem_transitions.mp hx
      rw [h.states]
      exact htargets s hs b hb
    · intro a ha
      rw [h.accepts] at ha
      rw [h.states]
      exact haccepts a.1 a.2 (mem_added.mp ha)
    · rw [h.accepts]
      exact hone
    · intro a ha
      rw [h.accepts] at ha
      exact (h.room _).mpr ⟨a.2, List.mem_filterMap.mpr ⟨_, mem_added.mp ha, rfl⟩, Nat.le_refl _⟩
    · intro x hx hflag
      obtain ⟨s, hs, b, hb, rfl⟩ := h.mem_transitions.mp hx
      exact (hmem _).mpr (hflags s hs b hb hflag)
    · rw [h.states]
      exact hsome

end

/-- After any calls in bounds on a new table it holds just what the last call for
each cell and each pattern says, and `compile` takes it just when each target is a
state, flags stand on accept states, and no state is accepted twice. -/
theorem builders_record_their_calls_and_compile_takes_what_fits {n : Nat} {t : TransitionTable}
    (hnew : TransitionTable.new .w64 n 256 = .ok t) (calls : List Call)
    (hin : ∀ call ∈ calls, call.InBounds t) (os : Os) (hos : Grants os (build .w64 t calls) []) :
    Recorded n 256 calls (build .w64 t calls) ∧
      ((∃ jit, JitDfa.compile os (build .w64 t calls) = .ok jit) ↔ Compiles n calls) := by
  have h := recorded hnew hin
  refine ⟨h, ?_⟩
  rw [compile_accepts hos]
  exact h.checked_iff

/-- State 1 of two states accepts a pattern of length 1 after `a`. -/
theorem three_calls_are_recorded_and_compile :
    ∃ t calls, TransitionTable.new .w64 2 256 = .ok t ∧
      Recorded 2 256 calls (build .w64 t calls) ∧
      ((∃ jit, JitDfa.compile generous (build .w64 t calls) = .ok jit) ↔ Compiles 2 calls) := by
  obtain ⟨t, hnew⟩ : ∃ t, TransitionTable.new .w64 2 256 = .ok t :=
    TransitionTable.new_of_fit two_states_fit some_byte (by decide) (by decide)
  obtain ⟨hstates, hbytes, _⟩ := TransitionTable.new_ok hnew
  have hin : ∀ call ∈ [Call.set_transition 0 97 1, .add_accept 1 0, .set_pattern_length 0 1],
      call.InBounds t := by
    rw [List.forall_mem_cons]
    refine ⟨?_, fun call hcall => ?_⟩
    · change 0 < t.state_count ∧ (97 : UInt8).toNat < t.class_count
      rw [hstates, hbytes]
      decide
    · rcases List.mem_pair.mp hcall with rfl | rfl <;> trivial
  exact ⟨t, _, hnew, builders_record_their_calls_and_compile_takes_what_fits hnew _ hin generous
    (recorded hnew hin).grants⟩

end dfajit.builders
