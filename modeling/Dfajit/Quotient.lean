-- The table that minimization builds: one state for each class, with the
-- transitions of a state of that class, and the accept entries of all states.
import Mathlib.Data.List.Induction
import Dfajit.Alike
import Dfajit.DenseTable
import Dfajit.Engines

namespace dfajit.quotient

open error table codegen numbering partition alike dense_table table_scan dfa engines reset_run

/-! ## Loops that set entries -/

/-- A loop that sets an entry in each step, of which no two set one entry in
different ways. -/
theorem foldlM_set {α ι : Type} (step : List α → ι → Res (List α)) (place : ι → Nat)
    (value : ι → α) (ps : List ι) (xs : List α)
    (hstep : ∀ p ∈ ps, ∀ ys, ys.length = xs.length → step ys p = .ok (ys.set (place p) (value p)))
    (hlt : ∀ p ∈ ps, place p < xs.length)
    (hinj : ∀ p ∈ ps, ∀ p' ∈ ps, place p = place p' → value p = value p') :
    ∃ ys, ps.foldlM step xs = .ok ys ∧ ys.length = xs.length ∧
      ∀ p ∈ ps, ys[place p]? = some (value p) := by
  induction ps using List.reverseRecOn with
  | nil =>
    refine ⟨xs, rfl, rfl, ?_⟩
    intro p hp
    cases hp
  | append_singleton ps p ih =>
    have hlast : p ∈ ps ++ [p] := by simp
    obtain ⟨ys, hrun, hlen, hget⟩ := ih
      (fun q hq => hstep q (List.mem_append_left _ hq))
      (fun q hq => hlt q (List.mem_append_left _ hq))
      (fun q hq q' hq' => hinj q (List.mem_append_left _ hq) q' (List.mem_append_left _ hq'))
    refine ⟨ys.set (place p) (value p), ?_, by simpa using hlen, ?_⟩
    · rw [List.foldlM_append, hrun, ok_bind, List.foldlM_cons, hstep p hlast ys hlen]
      rfl
    · intro q hq
      by_cases he : place p = place q
      · have hp := hlt p hlast
        rw [← he, List.getElem?_set_self (by omega), hinj p hlast q hq he]
      · rw [List.getElem?_set_ne he]
        rcases List.mem_append.mp hq with h | h
        · exact hget q h
        · rw [List.mem_singleton.mp h] at he
          exact absurd rfl he

/-! ## The parts of the new table -/

section

variable {t : TransitionTable} {q : List UInt32}

theorem class_number (h : Numbered t q) {s : Nat} (hs : s < t.state_count) :
    ∃ c < count q, (number q)[s]? = some c ∧ (class_at q s).toNat = c := by
  have hlen : s < (number q).length := by
    rw [number_length, h.len]
    exact hs
  have hget := congrArg (fun p => p[s]?) h.eq
  have hle := count_le h.len
  have hstates := t.states_le
  unfold MAX_STATES at hstates
  simp only [List.getElem?_map, List.getElem?_eq_getElem hlen, Option.map_some] at hget
  have hlt : (number q)[s] < count q := number_lt (List.getElem_mem hlen)
  refine ⟨_, hlt, List.getElem?_eq_getElem hlen, ?_⟩
  unfold class_at
  rw [hget, Option.getD_some, u32_toNat (by omega)]

theorem class_lt (h : Numbered t q) {s : Nat} (hs : s < t.state_count) :
    (class_at q s).toNat < count q := by
  obtain ⟨c, hc, _, hclass⟩ := class_number h hs
  rwa [hclass]

theorem exists_class (h : Numbered t q) {c : Nat} (hc : c < count q) :
    ∃ s < t.state_count, (class_at q s).toNat = c := by
  obtain ⟨s, hs, hget⟩ := List.mem_iff_getElem.mp (exists_number hc)
  have hstate : s < t.state_count := by
    rwa [number_length, h.len] at hs
  obtain ⟨c', _, hget', hclass⟩ := class_number h hstate
  rw [List.getElem?_eq_getElem hs, hget] at hget'
  exact ⟨s, hstate, by rw [hclass, ← Option.some.inj hget']⟩

/-- Each class has one of its states as representative. -/
theorem representatives_eq (h : Numbered t q) :
    ∃ reps, TransitionTable.representatives q (count q) = .ok reps ∧
      ∀ c < count q, ∃ s < t.state_count, reps[c]? = some s ∧ (class_at q s).toNat = c := by
  obtain ⟨reps, hrun, hlen, hget⟩ := foldlM_zipIdx
    (fun reps entry => set_index reps entry.1.toNat entry.2) q
    (List.replicate (count q) 0)
    (fun k reps => reps.length = count q ∧ ∀ s < k, ∃ s' < t.state_count,
      reps[(class_at q s).toNat]? = some s' ∧ class_at q s' = class_at q s)
    (by
      refine ⟨List.length_replicate, ?_⟩
      intro s hs
      exact absurd hs (Nat.not_lt_zero s))
    (by
      rintro k x hk reps ⟨hlen, hget⟩
      have hstate : k < t.state_count := by
        rw [← h.len]
        exact (List.getElem?_eq_some_iff.mp hk).1
      have hx : class_at q k = x := by
        unfold class_at
        rw [hk, Option.getD_some]
      have hlt := class_lt h hstate
      rw [hx] at hlt
      simp only
      rw [set_index_ok (by omega)]
      refine ⟨_, rfl, by simpa using hlen, ?_⟩
      intro s hs
      by_cases he : x.toNat = (class_at q s).toNat
      · rw [← he, List.getElem?_set_self (by omega)]
        exact ⟨k, hstate, rfl, by rw [hx]; exact UInt32.toNat_inj.mp he⟩
      · have hne : s ≠ k := by
          rintro rfl
          exact he (by rw [hx])
        rw [List.getElem?_set_ne he]
        exact hget s (by omega))
  refine ⟨reps, hrun, ?_⟩
  intro c hc
  obtain ⟨s, hs, rfl⟩ := exists_class h hc
  obtain ⟨s', hs', hrep, hsame⟩ := hget s (by rw [h.len]; exact hs)
  exact ⟨s', hs', hrep, by rw [hsame]⟩

/-! ### The transitions -/

/-- The places of the new table, row by row. -/
def new_places (n m : Nat) : List (Nat × Nat) :=
  (List.range n).flatMap fun new_state => (List.range m).map (new_state, ·)

theorem mem_new_places {n m c b : Nat} : (c, b) ∈ new_places n m ↔ c < n ∧ b < m := by
  unfold new_places
  simp only [List.mem_flatMap, List.mem_range, List.mem_map, Prod.mk.injEq]
  constructor
  · rintro ⟨_, hc, _, hb, rfl, rfl⟩
    exact ⟨hc, hb⟩
  · rintro ⟨hc, hb⟩
    exact ⟨c, hc, b, hb, rfl, rfl⟩

theorem copy_steps_eq (h : Numbered t q)
    (hfit : t.transitions.length = t.state_count * t.class_count) {reps : List Nat}
    (hreps : ∀ c < count q, ∃ s < t.state_count, reps[c]? = some s) {xs : List UInt32}
    (hxs : xs.length = count q * t.class_count) :
    ∃ ys, (new_places (count q) t.class_count).foldlM (t.copy_step q reps) xs = .ok ys ∧
      ys.length = count q * t.class_count ∧
      ∀ c < count q, ∀ b < t.class_count, ys[c * t.class_count + b]? =
        some (target_at t q (target t ((reps[c]?).getD 0) b)) := by
  obtain ⟨ys, hrun, hlen, hget⟩ := foldlM_set (t.copy_step q reps)
    (fun p => p.1 * t.class_count + p.2)
    (fun p => target_at t q (target t ((reps[p.1]?).getD 0) p.2))
    (new_places (count q) t.class_count) xs
    (by
      rintro ⟨c, b⟩ hp ys hys
      obtain ⟨hc, hb⟩ := mem_new_places.mp hp
      obtain ⟨s, hs, hrep⟩ := hreps c hc
      have hlt := place_lt hc hb
      unfold TransitionTable.copy_step
      simp only
      rw [index_ok hrep, ok_bind, index_target hfit hs hb, ok_bind, target_class_eq h.len, ok_bind,
        set_index_ok (by omega), hrep, Option.getD_some])
    (by
      rintro ⟨c, b⟩ hp
      obtain ⟨hc, hb⟩ := mem_new_places.mp hp
      rw [hxs]
      exact place_lt hc hb)
    (by
      rintro ⟨c, b⟩ hp ⟨c', b'⟩ hp' he
      obtain ⟨rfl, rfl⟩ := place_inj (mem_new_places.mp hp).2 (mem_new_places.mp hp').2 he
      rfl)
  refine ⟨ys, hrun, by rw [hlen, hxs], ?_⟩
  intro c hc b hb
  exact hget (c, b) (mem_new_places.mpr ⟨hc, hb⟩)

/-! ### The accept entries -/

/-- An accept entry of the class of its state. -/
def new_accept (q : List UInt32) (a : UInt32 × UInt32) : UInt32 × UInt32 :=
  (class_at q a.1.toNat, a.2)

theorem accept_steps_eq {as : List (UInt32 × UInt32)} (has : ∀ a ∈ as, a.1.toNat < q.length)
    {m : TransitionTable} (hm : m.accept_states = []) :
    ∃ m', as.foldlM (TransitionTable.accept_step q) m = .ok m' ∧
      m'.state_count = m.state_count ∧ m'.class_count = m.class_count ∧
      m'.transitions = m.transitions ∧ m'.accept_states = firsts (as.map (new_accept q)) := by
  induction as using List.reverseRecOn with
  | nil => exact ⟨m, rfl, rfl, rfl, rfl, hm⟩
  | append_singleton as a ih =>
    obtain ⟨m', hrun, h1, h2, h3, h4⟩ := ih fun a ha => has a (List.mem_append_left _ ha)
    have hclass : index q a.1.toNat = .ok (class_at q a.1.toNat) :=
      index_class_at (has a (by simp))
    rw [List.foldlM_append, hrun, ok_bind, List.foldlM_cons, List.map_append, List.map_singleton,
      firsts_snoc, ← h4]
    unfold TransitionTable.accept_step note new_accept
    simp only
    rw [hclass, ok_bind]
    by_cases hin : (class_at q a.1.toNat, a.2) ∈ m'.accept_states
    · rw [if_pos hin, if_pos hin]
      exact ⟨m', rfl, h1, h2, h3, rfl⟩
    · rw [if_neg hin, if_neg hin]
      exact ⟨_, rfl, h1, h2, h3, rfl⟩

/-- An accept entry of no state stops the loop. -/
theorem accept_steps_panic {as : List (UInt32 × UInt32)} (h : ∃ a ∈ as, q.length ≤ a.1.toNat)
    (m : TransitionTable) : as.foldlM (TransitionTable.accept_step q) m = .error .panic := by
  induction as generalizing m with
  | nil =>
    obtain ⟨_, ha, _⟩ := h
    cases ha
  | cons a as ih =>
    rw [List.foldlM_cons]
    by_cases ha : a.1.toNat < q.length
    · have hrest : ∃ a ∈ as, q.length ≤ a.1.toNat := by
        obtain ⟨b, hb, hout⟩ := h
        rcases List.mem_cons.mp hb with rfl | hb
        · omega
        · exact ⟨b, hb, hout⟩
      unfold TransitionTable.accept_step
      simp only [index_class_at ha, ok_bind]
      split
      · exact ih hrest m
      · exact ih hrest _
    · unfold TransitionTable.accept_step index
      simp only
      rw [List.getElem?_eq_none (by omega)]
      rfl

/-! ## The quotient -/

/-- The table of the classes. -/
structure Quotient (t : TransitionTable) (q : List UInt32) (m : TransitionTable) : Prop where
  states : m.state_count = count q
  classes : m.class_count = t.class_count
  len : m.transitions.length = count q * t.class_count
  rows : ∀ c < count q, ∃ s < t.state_count, (class_at q s).toNat = c ∧
    ∀ b < t.class_count, m.transitions[c * t.class_count + b]? =
      some (target_at t q (target t s b))
  accepts : m.accept_states = firsts (t.accept_states.map (new_accept q))
  lengths : m.pattern_lengths = t.pattern_lengths

/-- The states and the transitions of the table are built for each partition; it is
up to the accept entries whether the table is. -/
theorem rebuild_steps (h : Numbered t q)
    (hfit : t.transitions.length = t.state_count * t.class_count) {m : TransitionTable}
    (hstates : m.state_count = count q)
    (hlen : m.transitions.length = count q * t.class_count) :
    ∃ ys, (t.rebuild m q = do
        let m' ← t.accept_states.foldlM (TransitionTable.accept_step q) { m with transitions := ys }
        .ok { m' with pattern_lengths := t.pattern_lengths }) ∧
      ys.length = count q * t.class_count ∧
      ∀ c < count q, ∃ s < t.state_count, (class_at q s).toNat = c ∧
        ∀ b < t.class_count, ys[c * t.class_count + b]? = some (target_at t q (target t s b)) := by
  obtain ⟨reps, hreps, hget⟩ := representatives_eq h
  obtain ⟨ys, hcopy, hys, hrows⟩ := copy_steps_eq h hfit
    (fun c hc => by
      obtain ⟨s, hs, hrep, _⟩ := hget c hc
      exact ⟨s, hs, hrep⟩) hlen
  refine ⟨ys, ?_, hys, ?_⟩
  · unfold new_places at hcopy
    rw [← hstates] at hreps hcopy
    unfold TransitionTable.rebuild
    simp only [hreps, ok_bind, hcopy]
  · intro c hc
    obtain ⟨s, hs, hrep, hclass⟩ := hget c hc
    refine ⟨s, hs, hclass, ?_⟩
    intro b hb
    have hrow := hrows c hc b hb
    rwa [hrep, Option.getD_some] at hrow

theorem rebuild_eq (h : Numbered t q)
    (hfit : t.transitions.length = t.state_count * t.class_count)
    (has : ∀ a ∈ t.accept_states, a.1.toNat < t.state_count) {m : TransitionTable}
    (hstates : m.state_count = count q) (hclasses : m.class_count = t.class_count)
    (hlen : m.transitions.length = count q * t.class_count) (haccepts : m.accept_states = []) :
    ∃ m', t.rebuild m q = .ok m' ∧ Quotient t q m' := by
  obtain ⟨ys, hsteps, hys, hrows⟩ := rebuild_steps h hfit hstates hlen
  obtain ⟨m', hrun, h1, h2, h3, h4⟩ := accept_steps_eq (m := { m with transitions := ys })
    (fun a ha => by rw [h.len]; exact has a ha) haccepts
  refine ⟨{ m' with pattern_lengths := t.pattern_lengths }, ?_, ?_⟩
  · rw [hsteps, hrun, ok_bind]
  · refine ⟨h1.trans hstates, h2.trans hclasses, (congrArg _ h3).trans hys, ?_, h4, rfl⟩
    simp only
    rw [h3]
    exact hrows

/-- An accept entry of no state makes the last loop panic. -/
theorem rebuild_panic (h : Numbered t q)
    (hfit : t.transitions.length = t.state_count * t.class_count)
    (has : ¬ ∀ a ∈ t.accept_states, a.1.toNat < t.state_count) {m : TransitionTable}
    (hstates : m.state_count = count q)
    (hlen : m.transitions.length = count q * t.class_count) :
    t.rebuild m q = .error .panic := by
  obtain ⟨ys, hsteps, _⟩ := rebuild_steps h hfit hstates hlen
  have hout : ∃ a ∈ t.accept_states, q.length ≤ a.1.toNat := by
    rw [h.len]
    by_contra hall
    exact has fun a ha => Nat.not_le.mp fun hle => hall ⟨a, ha, hle⟩
  rw [hsteps, accept_steps_panic hout]
  rfl

/-! ## What `minimize` returns -/

theorem minimize_small (h : t.state_count ≤ 1) (w : Width) : t.minimize w = .ok none := by
  unfold TransitionTable.minimize
  rw [if_pos h]

/-- What is left to do after the rounds. -/
theorem minimize_of_rounds {k : UInt32} (hmany : 1 < t.state_count)
    (hgroup : t.initial_partition = .ok (grouped t, k))
    (hloop : t.refine_loop (t.state_count + 2) (grouped t) k = .ok (q, .ofNat (count q)))
    (hlen : q.length = t.state_count) (w : Width) :
    (t.state_count ≤ count q → t.minimize w = .ok none) ∧
      (count q < t.state_count →
        (∀ e, TransitionTable.new w (count q) t.class_count = .error e → t.minimize w = .ok none) ∧
          ∀ m, TransitionTable.new w (count q) t.class_count = .ok m →
            t.minimize w = t.rebuild m q >>= fun m' => .ok (some m')) := by
  have hle := count_le hlen
  have hstates := t.states_le
  have hcount : (UInt32.ofNat (count q)).toNat = count q := by
    unfold MAX_STATES at hstates
    rw [u32_toNat (by omega)]
  unfold TransitionTable.minimize
  rw [if_neg (by omega), hgroup, ok_bind]
  simp only
  rw [hloop, ok_bind]
  simp only [hcount]
  refine ⟨fun hge => if_pos hge, fun hlt => ?_⟩
  rw [if_neg (by omega)]
  refine ⟨?_, ?_⟩
  · intro e hnew
    simp only [hnew]
  · intro m hnew
    simp only [hnew]

/-- Minimization ends with a stable partition. It returns the table of its
classes, if there are fewer classes than states. -/
theorem minimize_eq (hv : t.Valid) (hbytes : t.class_count = 256) (hmany : 1 < t.state_count) :
    ∃ q, Stable t q ∧
      (t.state_count ≤ count q ∧ t.minimize .w64 = .ok none ∨
        count q < t.state_count ∧ ∃ m, t.minimize .w64 = .ok (some m) ∧ Quotient t q m) := by
  obtain ⟨num_classes, hgroup⟩ := initial_partition_eq t
  obtain ⟨q, hloop, hq⟩ := refine_loop_stable hv hbytes (by omega) num_classes
  have hle := count_le hq.numbered.len
  have hstates := t.states_le
  refine ⟨q, hq, ?_⟩
  obtain ⟨hfull, hless⟩ := minimize_of_rounds hmany hgroup hloop hq.numbered.len .w64
  by_cases hge : t.state_count ≤ count q
  · exact Or.inl ⟨hge, hfull hge⟩
  · obtain ⟨m, hnew, hsized, haccepts, _⟩ := new_sized (n := count q) (by omega)
    obtain ⟨m', hrun, hm'⟩ := rebuild_eq hq.numbered hv.len hv.accepts hsized.states
      (by rw [hsized.bytes, hbytes]) (by rw [hsized.len, hbytes]) haccepts
    rw [← hbytes] at hnew
    refine Or.inr ⟨by omega, m', ?_, hm'⟩
    rw [(hless (by omega)).2 m hnew, hrun]
    rfl

/-- It returns no table just when no two states are alike. -/
theorem minimize_none_iff (hv : t.Valid) (hbytes : t.class_count = 256) :
    t.minimize .w64 = .ok none ↔ Separated t := by
  by_cases hmany : 1 < t.state_count
  · obtain ⟨q, hq, hmin⟩ := minimize_eq hv hbytes hmany
    rw [hq.separated_iff hv hbytes]
    rcases hmin with ⟨hge, hnone⟩ | ⟨hlt, m, hsome, _⟩
    · exact iff_of_true hnone hge
    · refine iff_of_false ?_ (Nat.not_le.mpr hlt)
      intro hnone
      rw [hsome] at hnone
      cases Except.ok.inj hnone
  · refine iff_of_true (minimize_small (by omega) _) ?_
    intro s s' hs hs' _
    exact UInt32.toNat_inj.mp (by omega)

/-! ## The patterns of the classes -/

/-- The two readings of the accept entries agree. -/
theorem pattern_of_pid (hv : t.Valid) {s : UInt32} (hs : s.toNat < t.state_count) :
    pattern_of t s = (pid_at t s.toNat).getD NONE := by
  cases hp : pid_at t s.toNat with
  | some pid =>
    have hmem := mem_of_pid_at hp
    rw [UInt32.ofNat_toNat] at hmem
    unfold pattern_of
    rw [accept_table_of_mem hv.one_each hmem hs]
  | none =>
    by_contra hne
    rw [pid_at_of_mem hv (pattern_of_mem hne)] at hp
    cases hp

section

variable {m : TransitionTable}

theorem mem_new_accepts (h : Quotient t q m) {c pid : UInt32} :
    (c, pid) ∈ m.accept_states ↔ ∃ s, (s, pid) ∈ t.accept_states ∧ class_at q s.toNat = c := by
  rw [h.accepts, mem_firsts, List.mem_map]
  constructor
  · rintro ⟨⟨s, pid'⟩, hmem, he⟩
    obtain ⟨h1, h2⟩ := Prod.mk.inj he
    simp only at h1 h2
    exact ⟨s, h2 ▸ hmem, h1⟩
  · rintro ⟨s, hmem, rfl⟩
    exact ⟨_, hmem, rfl⟩

/-- Each transition of the new table goes to a class, and has no flag. -/
theorem Quotient.target_lt (h : Quotient t q m) (hq : Numbered t q)
    (hbytes : t.class_count = 256) (hsome : 0 < t.state_count) {x : UInt32}
    (hx : x ∈ m.transitions) : x.toNat < m.state_count := by
  have hstart := class_lt hq hsome
  obtain ⟨i, hi, rfl⟩ := List.mem_iff_getElem.mp hx
  have hlen := h.len
  rw [hbytes] at hlen
  obtain ⟨s, hs, _, hrow⟩ := h.rows (i / 256) (by omega)
  have hget := hrow (i % 256) (by rw [hbytes]; exact Nat.mod_lt _ (by decide))
  have hplace : i / 256 * t.class_count + i % 256 = i := by
    rw [hbytes]
    omega
  rw [hplace, List.getElem?_eq_getElem hi] at hget
  rw [Option.some.inj hget, h.states]
  unfold target_at
  split
  · rename_i hlt
    exact class_lt hq hlt
  · exact Nat.lt_of_le_of_lt (Nat.zero_le _) hstart

/-- The states of one class have one pattern, so each class has one entry. -/
theorem Quotient.one_each (h : Quotient t q m) (hq : Stable t q) (hv : t.Valid) :
    (m.accept_states.map (·.1)).Nodup := by
  rw [h.accepts]
  apply List.Nodup.map_on _ (firsts_nodup _)
  rintro ⟨c, pid⟩ ha ⟨c', pid'⟩ ha' (rfl : c = c')
  rw [← h.accepts] at ha ha'
  obtain ⟨s, hs, hclass⟩ := (mem_new_accepts h).mp ha
  obtain ⟨s', hs', hclass'⟩ := (mem_new_accepts h).mp ha'
  have hpid := (hq.refines.fine _ _ (hv.accepts _ hs) (hv.accepts _ hs')
    (hclass.trans hclass'.symm)).own
  rw [pid_at_of_mem hv hs, pid_at_of_mem hv hs'] at hpid
  rw [Option.some.inj hpid]

/-- The table of the classes passes the checks of `compile`. -/
theorem Quotient.checked (h : Quotient t q m) (hq : Stable t q) (hv : t.Valid)
    (hbytes : t.class_count = 256) (hsome : 0 < t.state_count) : Checked m [] := by
  have hstart := class_lt hq.numbered hsome
  have hm := h.states
  refine ⟨⟨?_, ?_, ?_, h.one_each hq hv, ?_⟩, ?_, ?_, ?_, Or.inl rfl⟩
  · rw [h.len, h.states, h.classes]
  · intro x hx
    have hlt := h.target_lt hq.numbered hbytes hsome hx
    rwa [m.clean_of_state hlt]
  · rintro ⟨c, pid⟩ ha
    obtain ⟨s, hs, rfl⟩ := (mem_new_accepts h).mp ha
    rw [h.states]
    exact class_lt hq.numbered (hv.accepts _ hs)
  · rintro ⟨c, pid⟩ ha
    obtain ⟨s, hs, _⟩ := (mem_new_accepts h).mp ha
    rw [h.lengths]
    exact hv.lengths (s, pid) hs
  · intro x hx hf
    have hlt := h.target_lt hq.numbered hbytes hsome hx
    rw [m.flagged_of_state hlt] at hf
    cases hf
  · omega
  · rw [h.classes, hbytes]

/-- A class has the pattern of its states. -/
theorem Quotient.pattern (h : Quotient t q m) (hq : Stable t q) (hv : t.Valid)
    (hm : Checked m []) {s : UInt32} (hs : s.toNat < t.state_count) :
    pattern_of m (class_at q s.toNat) = pattern_of t s := by
  have hclass := class_lt hq.numbered hs
  rw [← h.states] at hclass
  rw [pattern_of_pid hv hs, pattern_of_pid hm.valid hclass]
  congr 1
  cases hp : pid_at t s.toNat with
  | some pid =>
    have hmem := mem_of_pid_at hp
    rw [UInt32.ofNat_toNat] at hmem
    exact pid_at_of_mem hm.valid ((mem_new_accepts h).mpr ⟨s, hmem, rfl⟩)
  | none =>
    by_contra hne
    obtain ⟨pid, hpid⟩ := Option.ne_none_iff_exists'.mp hne
    have hmem := mem_of_pid_at hpid
    rw [UInt32.ofNat_toNat] at hmem
    obtain ⟨s', hs', hsame⟩ := (mem_new_accepts h).mp hmem
    have hpid' := (hq.refines.fine _ _ (hv.accepts _ hs') hs hsame).own
    rw [pid_at_of_mem hv hs', hp] at hpid'
    cases hpid'

/-! ## What the new table finds -/

/-- The table of the classes finds what the table as read does. -/
theorem Quotient.found_eq (h : Quotient t q m) (hq : Stable t q) (hv : t.Valid)
    (hbytes : t.class_count = 256) (hsome : 0 < t.state_count) (input : List UInt8) :
    found m [] input = found (as_read t) [] input := by
  have hm := h.checked hq hv hbytes hsome
  have hstart := hq.refines.start
  have hevents : (scanner m []).events input = (scanner (as_read t) []).events input := by
    apply Scanner.events_bisim
      (fun c s => s.toNat < t.state_count ∧ c = class_at q s.toNat)
    · exact ⟨hsome, hstart.symm⟩
    · rintro _ s b ⟨hs, rfl⟩
      have hb : b.toNat < t.class_count := by
        rw [hbytes]
        exact b.toNat_lt
      rw [scanner_next, scanner_next, clean_next_as_read hv hbytes hs]
      refine ⟨read_as_lt hsome _, ?_⟩
      obtain ⟨s0, hs0, hclass, hrow⟩ := h.rows _ (class_lt hq.numbered hs)
      have hlt := class_lt hq.numbered (read_as_lt hsome (target t s.toNat b.toNat))
      have hstates := t.states_le
      have hle := count_le hq.numbered.len
      unfold MAX_STATES at hstates
      unfold clean_next
      simp only
      rw [h.classes, hrow _ hb, Option.getD_some, target_at_eq hstart,
        hq.same_targets hbytes hs0 hs (UInt32.toNat_inj.mp hclass)]
      exact clean_of_lt (by omega)
    · rintro _ s ⟨hs, rfl⟩
      have hpattern := h.pattern hq hv hm hs
      have hsame : pattern_of (as_read t) s = pattern_of t s := rfl
      rw [scanner_out, scanner_out, reports_alone, reports_alone, hpattern, hsame]
  unfold found matchesOf
  rw [hevents, h.lengths]
  rfl

end

end

end dfajit.quotient
