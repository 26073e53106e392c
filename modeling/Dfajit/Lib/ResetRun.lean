-- Scanners that start over after each report. A scanner reads symbols one by
-- one; when the state it reaches has something to report, it reports it with
-- the position and goes back to its start state.
import Mathlib.Algebra.GroupWithZero.Nat
import Mathlib.Data.Finset.Prod
import Mathlib.Data.List.Basic
import Mathlib.Tactic.Common
import Dfajit.Lib.ShortRun

namespace reset_run

variable {σ τ α ο : Type*}

structure Scanner (σ α ο : Type*) where
  start : σ
  next : σ → α → σ
  /-- What the state reports. A state with nothing to report does not restart. -/
  out : σ → List ο

namespace Scanner

/-- The reports of a run from state `s`, each with the number of symbols read
when it came. -/
def eventsFrom (A : Scanner σ α ο) : σ → Nat → List α → List (ο × Nat)
  | _, _, [] => []
  | s, pos, a :: as =>
    if A.out (A.next s a) = [] then A.eventsFrom (A.next s a) (pos + 1) as
    else (A.out (A.next s a)).map (·, pos + 1) ++ A.eventsFrom A.start (pos + 1) as

theorem eventsFrom_quiet {A : Scanner σ α ο} {s : σ} {a : α} (h : A.out (A.next s a) = [])
    (pos : Nat) (as : List α) :
    A.eventsFrom s pos (a :: as) = A.eventsFrom (A.next s a) (pos + 1) as := by
  rw [eventsFrom, if_pos h]

theorem eventsFrom_hit {A : Scanner σ α ο} {s : σ} {a : α} (h : A.out (A.next s a) ≠ [])
    (pos : Nat) (as : List α) :
    A.eventsFrom s pos (a :: as) =
      (A.out (A.next s a)).map (·, pos + 1) ++ A.eventsFrom A.start (pos + 1) as := by
  rw [eventsFrom, if_neg h]

def events (A : Scanner σ α ο) (input : List α) : List (ο × Nat) := A.eventsFrom A.start 0 input

/-- The state after the symbols, with no restart. -/
def walk (A : Scanner σ α ο) (s : σ) (w : List α) : σ := w.foldl A.next s

@[simp] theorem walk_nil (A : Scanner σ α ο) (s : σ) : A.walk s [] = s := rfl

theorem walk_snoc (A : Scanner σ α ο) (s : σ) (w : List α) (a : α) :
    A.walk s (w ++ [a]) = A.next (A.walk s w) a := by simp [walk]

/-- There is a report just when some beginning of the input leads to a state with
one. -/
theorem eventsFrom_ne_nil_iff {A : Scanner σ α ο} {s : σ} {pos : Nat} {as : List α} :
    A.eventsFrom s pos as ≠ [] ↔ ∃ u, u ≠ [] ∧ u <+: as ∧ A.out (A.walk s u) ≠ [] := by
  induction as generalizing s pos with
  | nil =>
    refine iff_of_false (fun h => h rfl) ?_
    rintro ⟨u, hu, hpre, _⟩
    exact hu (List.prefix_nil.mp hpre)
  | cons a as ih =>
    by_cases hq : A.out (A.next s a) = []
    · rw [eventsFrom_quiet hq, ih]
      constructor
      · rintro ⟨u, _, hpre, hout⟩
        exact ⟨a :: u, List.cons_ne_nil _ _, List.cons_prefix_cons.mpr ⟨rfl, hpre⟩, hout⟩
      · rintro ⟨u, hu, hpre, hout⟩
        cases u with
        | nil => exact absurd rfl hu
        | cons b u =>
          obtain ⟨rfl, htail⟩ := List.cons_prefix_cons.mp hpre
          refine ⟨u, ?_, htail, hout⟩
          rintro rfl
          exact hout hq
    · rw [eventsFrom_hit hq]
      refine iff_of_true ?_ ?_
      · intro hnil
        exact hq (List.map_eq_nil_iff.mp (List.append_eq_nil_iff.mp hnil).1)
      · exact ⟨[a], List.cons_ne_nil _ _, List.cons_prefix_cons.mpr ⟨rfl, List.nil_prefix⟩, hq⟩

/-! ## Where the reports come from -/

/-- One symbol more, with the restart if there is something to report. -/
def settle (A : Scanner σ α ο) (s : σ) (a : α) : σ :=
  if A.out (A.next s a) = [] then A.next s a else A.start

/-- The state after a text, with the restarts in it. -/
def settled (A : Scanner σ α ο) (w : List α) : σ := w.foldl A.settle A.start

theorem settled_snoc (A : Scanner σ α ο) (w : List α) (a : α) :
    A.settled (w ++ [a]) = A.settle (A.settled w) a := by simp [settled]

/-- The reports of the next symbol, and those of the rest. -/
theorem eventsFrom_settled (A : Scanner σ α ο) (pre : List α) (a : α) (as : List α) :
    A.eventsFrom (A.settled pre) pre.length (a :: as) =
      (A.out (A.next (A.settled pre) a)).map (·, pre.length + 1) ++
        A.eventsFrom (A.settled (pre ++ [a])) (pre ++ [a]).length as := by
  rw [settled_snoc, List.length_append, List.length_singleton]
  unfold settle
  by_cases hq : A.out (A.next (A.settled pre) a) = []
  · rw [eventsFrom_quiet hq, if_pos hq, hq]
    rfl
  · rw [eventsFrom_hit hq, if_neg hq]

theorem mem_eventsFrom_settled {A : Scanner σ α ο} (pre : List α) {as : List α} {e : ο × Nat}
    (h : e ∈ A.eventsFrom (A.settled pre) pre.length as) :
    ∃ mid a, mid ++ [a] <+: as ∧ e.2 = (pre ++ mid).length + 1 ∧
      e.1 ∈ A.out (A.next (A.settled (pre ++ mid)) a) := by
  induction as generalizing pre with
  | nil => cases h
  | cons a as ih =>
    rw [eventsFrom_settled] at h
    rcases List.mem_append.mp h with h | h
    · obtain ⟨o, ho, rfl⟩ := List.mem_map.mp h
      refine ⟨[], a, by simp, ?_, ?_⟩
      · rw [List.append_nil]
      · rw [List.append_nil]
        exact ho
    · obtain ⟨mid, b, hpre, hplace, hout⟩ := ih (pre ++ [a]) h
      rw [List.append_assoc, List.singleton_append] at hplace hout
      exact ⟨a :: mid, b, List.cons_prefix_cons.mpr ⟨rfl, hpre⟩, hplace, hout⟩

/-- A report comes from the state that the symbol in front of its place leads to. -/
theorem mem_events {A : Scanner σ α ο} {input : List α} {e : ο × Nat} (h : e ∈ A.events input) :
    ∃ pre a, pre ++ [a] <+: input ∧ e.2 = pre.length + 1 ∧
      e.1 ∈ A.out (A.next (A.settled pre) a) :=
  mem_eventsFrom_settled [] h

/-- With one report at a place at most, each report stands after the one before. -/
theorem eventsFrom_increasing {A : Scanner σ α ο} (hone : ∀ s, (A.out s).length ≤ 1)
    (pre as : List α) :
    ((A.eventsFrom (A.settled pre) pre.length as).map (·.2)).Pairwise (· < ·) := by
  induction as generalizing pre with
  | nil => exact List.Pairwise.nil
  | cons a as ih =>
    rw [eventsFrom_settled, List.map_append, List.pairwise_append]
    refine ⟨?_, ih (pre ++ [a]), ?_⟩
    · have hlen := hone (A.next (A.settled pre) a)
      cases hout : A.out (A.next (A.settled pre) a) with
      | nil => exact List.Pairwise.nil
      | cons o os =>
        rw [hout, List.length_cons] at hlen
        rw [List.length_eq_zero_iff.mp (by omega : os.length = 0)]
        exact List.pairwise_singleton _ _
    · intro x hx y hy
      obtain ⟨e, he, rfl⟩ := List.mem_map.mp hx
      obtain ⟨o, _, rfl⟩ := List.mem_map.mp he
      obtain ⟨e, he, rfl⟩ := List.mem_map.mp hy
      obtain ⟨mid, _, _, hplace, _⟩ := mem_eventsFrom_settled (pre ++ [a]) he
      rw [hplace]
      simp only [List.length_append, List.length_singleton]
      omega

theorem events_increasing {A : Scanner σ α ο} (hone : ∀ s, (A.out s).length ≤ 1)
    (input : List α) : ((A.events input).map (·.2)).Pairwise (· < ·) :=
  eventsFrom_increasing hone [] input

/-! ## Two scanners with the same reports -/

/-- Related states have next states that report the same, and that are related
again when there is nothing to report. -/
theorem eventsFrom_bisim {A : Scanner σ α ο} {B : Scanner τ α ο} (R : σ → τ → Prop)
    (hstart : R A.start B.start)
    (hout : ∀ s t a, R s t → A.out (A.next s a) = B.out (B.next t a))
    (hnext : ∀ s t a, R s t → A.out (A.next s a) = [] → R (A.next s a) (B.next t a))
    (s : σ) (t : τ) (pos : Nat) (as : List α) (h : R s t) :
    A.eventsFrom s pos as = B.eventsFrom t pos as := by
  induction as generalizing s t pos with
  | nil => rfl
  | cons a as ih =>
    have ho := hout s t a h
    by_cases hq : A.out (A.next s a) = []
    · rw [eventsFrom_quiet hq, eventsFrom_quiet (by rw [← ho]; exact hq)]
      exact ih _ _ _ (hnext s t a h hq)
    · rw [eventsFrom_hit hq, eventsFrom_hit (by rw [← ho]; exact hq), ho, ih _ _ _ hstart]

/-- Related states that stay related and report the same give the same events. -/
theorem events_bisim {A : Scanner σ α ο} {B : Scanner τ α ο} (R : σ → τ → Prop)
    (hstart : R A.start B.start) (hnext : ∀ s t a, R s t → R (A.next s a) (B.next t a))
    (hout : ∀ s t, R s t → A.out s = B.out t) (input : List α) : A.events input = B.events input :=
  eventsFrom_bisim R hstart (fun s t a h => hout _ _ (hnext s t a h))
    (fun s t a h _ => hnext s t a h) _ _ 0 input hstart

/-! ### Side by side up to the first report -/

/-- The states of two scanners after a text on which neither has reported. -/
inductive Together (A : Scanner σ α ο) (B : Scanner τ α ο) : σ → τ → Prop
  | start : Together A B A.start B.start
  | next {s : σ} {t : τ} {a : α} : Together A B s t → A.out (A.next s a) = [] →
      B.out (B.next t a) = [] → Together A B (A.next s a) (B.next t a)

section

variable {A : Scanner σ α ο} {B : Scanner τ α ο} {s s' : σ} {t t' : τ} {w : List α}

/-- Scanners that agree on their first report agree on all reports. -/
theorem events_of_first (h : ∀ s t a, Together A B s t → A.out (A.next s a) = B.out (B.next t a))
    (input : List α) : A.events input = B.events input := by
  apply eventsFrom_bisim (Together A B) .start h
  · intro s t a hst hq
    exact .next hst hq (by rw [← h s t a hst]; exact hq)
  · exact .start

/-- One symbol on which neither reports. -/
def both (A : Scanner σ α ο) (B : Scanner τ α ο) (p : σ × τ) (a : α) : Option (σ × τ) :=
  if A.out (A.next p.1 a) = [] ∧ B.out (B.next p.2 a) = [] then
    some (A.next p.1 a, B.next p.2 a)
  else none

theorem Together.exists_run (h : Together A B s t) :
    ∃ w, short_run.run (both A B) (A.start, B.start) w = some (s, t) := by
  induction h with
  | start => exact ⟨[], rfl⟩
  | next _ hA hB ih =>
    obtain ⟨w, hw⟩ := ih
    exact ⟨_, short_run.run_snoc hw (if_pos ⟨hA, hB⟩)⟩

/-- The events after a text on which neither reports are those of the rest. -/
theorem events_after_run (h : short_run.run (both A B) (s, t) w = some (s', t')) (pos : Nat)
    (as : List α) :
    A.eventsFrom s pos (w ++ as) = A.eventsFrom s' (pos + w.length) as ∧
      B.eventsFrom t pos (w ++ as) = B.eventsFrom t' (pos + w.length) as := by
  induction w generalizing s t pos with
  | nil =>
    cases h
    exact ⟨rfl, rfl⟩
  | cons a w ih =>
    obtain ⟨p, hstep, hrun⟩ := Option.bind_eq_some_iff.mp h
    unfold both at hstep
    split at hstep
    · rename_i hquiet
      cases hstep
      have hlen : pos + (a :: w).length = pos + 1 + w.length := by
        rw [List.length_cons]
        omega
      rw [List.cons_append, eventsFrom_quiet hquiet.1, eventsFrom_quiet hquiet.2, hlen]
      exact ih hrun (pos + 1)
    · cases hstep

end

/-! ### Short texts tell scanners apart -/

section

variable {A : Scanner σ α ο} {B : Scanner τ α ο} {S : Finset σ} {T : Finset τ}

/-- A pair of states is reached by a text no longer than there are pairs. -/
theorem Together.exists_short_run (hA : A.start ∈ S) (hB : B.start ∈ T)
    (hS : ∀ s ∈ S, ∀ a, A.next s a ∈ S) (hT : ∀ t ∈ T, ∀ a, B.next t a ∈ T) {s : σ} {t : τ}
    (h : Together A B s t) :
    ∃ w, w.length ≤ S.card * T.card ∧
      short_run.run (both A B) (A.start, B.start) w = some (s, t) := by
  obtain ⟨w, hw⟩ := h.exists_run
  have hclosed : ∀ p ∈ S ×ˢ T, ∀ a p', both A B p a = some p' → p' ∈ S ×ˢ T := by
    rintro ⟨x, y⟩ hp a p' hstep
    obtain ⟨hx, hy⟩ := Finset.mem_product.mp hp
    unfold both at hstep
    split at hstep
    · cases hstep
      exact Finset.mem_product.mpr ⟨hS x hx a, hT y hy a⟩
    · cases hstep
  rw [← Finset.card_product]
  exact short_run.exists_short_run hclosed (Finset.mem_product.mpr ⟨hA, hB⟩) hw

theorem head_of_singleton (A : Scanner σ α ο) (s : σ) (pos : Nat) (a : α) :
    (A.eventsFrom s pos [a]).head?.map (·.1) = (A.out (A.next s a)).head? := by
  by_cases hq : A.out (A.next s a) = []
  · rw [eventsFrom_quiet hq, hq]
    rfl
  · rw [eventsFrom_hit hq, eventsFrom, List.append_nil, List.head?_map, Option.map_map]
    exact congrFun Option.map_id _

theorem eq_head_toList {os : List ο} (hone : os.length ≤ 1) : os = os.head?.toList := by
  cases os with
  | nil => rfl
  | cons o os =>
    rw [List.length_cons] at hone
    rw [List.length_eq_zero_iff.mp (by omega : os.length = 0)]
    rfl

/-- Scanners with one report at a place at most make the same reports everywhere if
they make the same first report in every short text. -/
theorem events_of_short (hA : A.start ∈ S) (hB : B.start ∈ T)
    (hS : ∀ s ∈ S, ∀ a, A.next s a ∈ S) (hT : ∀ t ∈ T, ∀ a, B.next t a ∈ T)
    (hone : ∀ s, (A.out s).length ≤ 1) (hone' : ∀ t, (B.out t).length ≤ 1)
    (h : ∀ as : List α, as.length ≤ S.card * T.card + 1 →
      (A.events as).head?.map (·.1) = (B.events as).head?.map (·.1))
    (input : List α) : A.events input = B.events input := by
  apply events_of_first
  intro s t a hst
  obtain ⟨w, hlen, hrun⟩ := hst.exists_short_run hA hB hS hT
  obtain ⟨hafter, hafter'⟩ := events_after_run hrun 0 [a]
  have hfirst := h (w ++ [a]) (by rw [List.length_append, List.length_singleton]; omega)
  unfold events at hfirst
  rw [hafter, hafter', head_of_singleton, head_of_singleton] at hfirst
  rw [eq_head_toList (hone (A.next s a)), hfirst, ← eq_head_toList (hone' (B.next t a))]

end

end Scanner

/-! ## The text since the last restart -/

open Scanner

/-- The symbols from `r` up to `e`. -/
def slice (input : List α) (r e : Nat) : List α := (input.drop r).take (e - r)

theorem slice_mid (pre x post : List α) :
    slice (pre ++ x ++ post) pre.length (pre.length + x.length) = x := by
  simp [slice]

theorem slice_length {input : List α} {r e : Nat} (h : e ≤ input.length) :
    (slice input r e).length = e - r := by
  simp [slice]; omega

/-- The beginning of a slice is a slice itself. -/
theorem slice_take {input : List α} {r e k : Nat} (h : k ≤ e - r) :
    (slice input r e).take k = slice input r (r + k) := by
  unfold slice
  rw [List.take_take, Nat.min_eq_left h, Nat.add_sub_cancel_left]

theorem slice_inside (input : List α) (r e : Nat) : slice input r e <:+: input :=
  ((List.take_prefix _ _).isInfix).trans (List.drop_suffix _ _).isInfix

/-- What ends a slice is a slice itself. -/
theorem slice_of_suffix {input v : List α} {r e : Nat} (hr : r ≤ e) (he : e ≤ input.length)
    (h : v <:+ slice input r e) : slice input (e - v.length) e = v := by
  have hlen := slice_length (r := r) he
  have hle := h.length_le
  have hdrop := List.suffix_iff_eq_drop.mp h
  rw [hlen] at hle hdrop
  unfold slice at hdrop
  rw [List.drop_take, List.drop_drop] at hdrop
  have hfrom : r + (e - r - v.length) = e - v.length := by omega
  have hcount : e - r - (e - r - v.length) = e - (e - v.length) := by omega
  rw [hfrom, hcount] at hdrop
  exact hdrop.symm

/-- The scanner whose state is the text since the last restart. -/
def textScanner (rep : List α → List ο) : Scanner (List α) α ο where
  start := []
  next := fun x a => x ++ [a]
  out := rep

@[simp] theorem textScanner_start (rep : List α → List ο) : (textScanner rep).start = [] := rfl

@[simp] theorem textScanner_next (rep : List α → List ο) (x : List α) (a : α) :
    (textScanner rep).next x a = x ++ [a] := rfl

@[simp] theorem textScanner_out (rep : List α → List ο) (x : List α) :
    (textScanner rep).out x = rep x := rfl

/-- What a scanner reports after a text, with no restart in it. -/
def reportOf (A : Scanner σ α ο) (x : List α) : List ο := A.out (A.walk A.start x)

/-- Every scanner is a function of the text since its last restart. -/
theorem events_eq_text (A : Scanner σ α ο) (input : List α) :
    A.events input = (textScanner (reportOf A)).events input := by
  refine events_bisim (fun s x => s = A.walk A.start x) rfl ?_ ?_ input
  · rintro s x a rfl
    exact (walk_snoc A _ x a).symm
  · rintro s x rfl
    rfl

/-! ## Where the restarts stand -/

/-- The restarts of a run over a text: each pair is the place of the restart
before and the place of this one, which is the first place after the former
where the text in between is a hit. -/
inductive Cuts (hit : List α → Prop) (input : List α) : Nat → List (Nat × Nat) → Prop
  | done {r : Nat} :
      (∀ e, r < e → e ≤ input.length → ¬ hit (slice input r e)) → Cuts hit input r []
  | cut {r e : Nat} {cs : List (Nat × Nat)} :
      r < e → e ≤ input.length → hit (slice input r e) →
      (∀ e', r < e' → e' < e → ¬ hit (slice input r e')) →
      Cuts hit input e cs → Cuts hit input r ((r, e) :: cs)

/-- The restarts, read off the text in one pass. The text `x` since the last
restart at `r` holds no hit yet. -/
def cutsFrom (rep : List α → List ο) : Nat → List α → List α → List (Nat × Nat)
  | _, _, [] => []
  | r, x, a :: as =>
    if rep (x ++ [a]) = [] then cutsFrom rep r (x ++ [a]) as
    else (r, r + x.length + 1) :: cutsFrom rep (r + x.length + 1) [] as

def cuts (rep : List α → List ο) (input : List α) : List (Nat × Nat) := cutsFrom rep 0 [] input

theorem cutsFrom_spec (rep : List α → List ο) (pre x as : List α)
    (hx : ∀ e, pre.length < e → e ≤ pre.length + x.length →
      rep (slice (pre ++ x ++ as) pre.length e) = []) :
    Cuts (fun x => rep x ≠ []) (pre ++ x ++ as) pre.length (cutsFrom rep pre.length x as) := by
  induction as generalizing pre x with
  | nil =>
    refine .done fun e h1 h2 => ?_
    simp only [ne_eq, not_not]
    exact hx e h1 (by simpa using h2)
  | cons a as ih =>
    have hwhole : pre ++ x ++ a :: as = pre ++ (x ++ [a]) ++ as := by simp
    have hlast : slice (pre ++ x ++ a :: as) pre.length (pre.length + x.length + 1) = x ++ [a] := by
      rw [hwhole]
      simpa [Nat.add_assoc] using slice_mid pre (x ++ [a]) as
    simp only [cutsFrom]
    split
    · rename_i hq
      rw [hwhole]
      apply ih
      intro e h1 h2
      rw [← hwhole]
      by_cases he : e = pre.length + x.length + 1
      · rw [he, hlast, hq]
      · exact hx e h1 (by simp at h2; omega)
    · rename_i hhit
      refine .cut (by omega) (by simp only [List.length_append, List.length_cons]; omega) (by rw [hlast]; exact hhit) ?_ ?_
      · intro e' h1 h2
        simp only [ne_eq, not_not]
        exact hx e' h1 (by omega)
      · have h := ih (pre ++ x ++ [a]) [] (by simp; omega)
        simpa [Nat.add_assoc] using h

theorem cuts_spec (rep : List α → List ο) (input : List α) :
    Cuts (fun x => rep x ≠ []) input 0 (cuts rep input) := by
  have h := cutsFrom_spec rep [] [] input (by simp; omega)
  simpa [cuts] using h

theorem eventsFrom_text (rep : List α → List ο) (pre x as : List α) :
    (textScanner rep).eventsFrom x (pre.length + x.length) as =
      (cutsFrom rep pre.length x as).flatMap fun c =>
        (rep (slice (pre ++ x ++ as) c.1 c.2)).map (·, c.2) := by
  induction as generalizing pre x with
  | nil => rfl
  | cons a as ih =>
    by_cases hq : rep (x ++ [a]) = []
    · have h := ih pre (x ++ [a])
      simp only [List.length_append, List.length_singleton, ← Nat.add_assoc] at h
      simp only [eventsFrom, cutsFrom, textScanner_next, textScanner_out, hq, if_true, h]
      simp
    · have h := ih (pre ++ x ++ [a]) []
      have hlast : slice (pre ++ x ++ [a] ++ as) pre.length (pre.length + x.length + 1) =
          x ++ [a] := by
        simpa [Nat.add_assoc] using slice_mid pre (x ++ [a]) as
      simp only [List.length_append, List.length_singleton, List.length_nil, Nat.add_zero,
        List.append_nil] at h
      simp only [eventsFrom, cutsFrom, textScanner_next, textScanner_out, textScanner_start, hq,
        if_false, List.flatMap_cons, h]
      rw [show pre ++ x ++ a :: as = pre ++ x ++ [a] ++ as by simp, hlast]

/-- The events of a scanner are what it reports at its restarts. -/
theorem events_text (rep : List α → List ο) (input : List α) :
    (textScanner rep).events input =
      (cuts rep input).flatMap fun c => (rep (slice input c.1 c.2)).map (·, c.2) := by
  have h := eventsFrom_text rep [] [] input
  simpa [events, cuts, textScanner] using h

/-! ## Facts about the restarts -/

section

variable {hit : List α → Prop} {input : List α} {r : Nat} {cs ds : List (Nat × Nat)}

theorem Cuts.mem (h : Cuts hit input r cs) {c : Nat × Nat} (hc : c ∈ cs) :
    r ≤ c.1 ∧ c.1 < c.2 ∧ c.2 ≤ input.length ∧ hit (slice input c.1 c.2) := by
  induction h with
  | done _ => simp at hc
  | @cut r e cs h1 h2 h3 h4 _ ih =>
    rcases List.mem_cons.mp hc with rfl | hc
    · exact ⟨Nat.le_refl _, h1, h2, h3⟩
    · obtain ⟨g1, g2⟩ := ih hc
      exact ⟨by omega, g2⟩

/-- Each restart follows on the one before it, if there is one. -/
theorem Cuts.follows (h : Cuts hit input r cs) {c : Nat × Nat} (hc : c ∈ cs) :
    c.1 = r ∨ ∃ d ∈ cs, d.2 = c.1 ∧ d.2 < c.2 := by
  induction h with
  | done _ => simp at hc
  | @cut r e cs h1 _ _ _ hcs ih =>
    rcases List.mem_cons.mp hc with rfl | hc
    · exact Or.inl rfl
    · refine Or.inr ?_
      rcases ih hc with he | ⟨d, hd, heq, hlt⟩
      · have hmem := hcs.mem hc
        exact ⟨(r, e), List.mem_cons_self, he.symm, by simp only; omega⟩
      · exact ⟨d, List.mem_cons_of_mem _ hd, heq, hlt⟩

/-- Before a restart, and after the one before it, no text is a hit. -/
theorem Cuts.quiet (h : Cuts hit input r cs) {c : Nat × Nat} (hc : c ∈ cs) :
    ∀ e, c.1 < e → e < c.2 → ¬ hit (slice input c.1 e) := by
  induction h with
  | done _ => simp at hc
  | cut _ _ _ h4 _ ih =>
    rcases List.mem_cons.mp hc with rfl | hc
    · exact h4
    · exact ih hc

/-- The text up to a restart begins with no other hit. -/
theorem Cuts.quiet_take (h : Cuts hit input r cs) {c : Nat × Nat} (hc : c ∈ cs) {k : Nat}
    (hk : 0 < k) (hlt : k < c.2 - c.1) : ¬ hit ((slice input c.1 c.2).take k) := by
  rw [slice_take (by omega)]
  exact h.quiet hc (c.1 + k) (by omega) (by omega)

/-- The places of the restarts rise. -/
theorem Cuts.sorted (h : Cuts hit input r cs) : (cs.map (·.2)).Pairwise (· < ·) := by
  induction h with
  | done _ => simp
  | cut _ _ _ _ hcs ih =>
    simp only [List.map_cons, List.pairwise_cons]
    refine ⟨fun e' he' => ?_, ih⟩
    obtain ⟨c, hc, rfl⟩ := List.mem_map.mp he'
    have := hcs.mem hc
    omega

/-- A restart at a later place starts no sooner than every restart before it. -/
theorem Cuts.le_of_lt (h : Cuts hit input r cs) {c d : Nat × Nat} (hc : c ∈ cs) (hd : d ∈ cs)
    (hlt : c.2 < d.2) : c.2 ≤ d.1 := by
  induction h with
  | done _ => simp at hc
  | cut h1 _ _ _ hcs ih =>
    rcases List.mem_cons.mp hc with rfl | hc <;> rcases List.mem_cons.mp hd with rfl | hd
    · omega
    · exact (hcs.mem hd).1
    · have := hcs.mem hc
      simp only at hlt
      omega
    · exact ih hc hd

/-- The text decides its restarts. -/
theorem Cuts.unique (h : Cuts hit input r cs) (h' : Cuts hit input r ds) : cs = ds := by
  induction h generalizing ds with
  | done hnone =>
    cases h' with
    | done _ => rfl
    | cut h1 h2 h3 _ _ => exact absurd h3 (hnone _ h1 h2)
  | @cut r e cs h1 h2 h3 h4 _ ih =>
    cases h' with
    | done hnone => exact absurd h3 (hnone _ h1 h2)
    | @cut _ e' _ g1 g2 g3 g4 hds =>
      have he : e = e' := by
        rcases Nat.lt_trichotomy e e' with hlt | heq | hgt
        · exact absurd h3 (g4 _ h1 hlt)
        · exact heq
        · exact absurd g3 (h4 _ g1 hgt)
      subst he
      rw [ih hds]

/-- The stretches between restarts add up to no more than the text. -/
theorem Cuts.sum_le (h : Cuts hit input r cs) (size : List α → Nat)
    (hsize : ∀ x, x ≠ [] → size x ≤ x.length) :
    (cs.map fun c => size (slice input c.1 c.2)).sum ≤ input.length - r := by
  induction h with
  | done _ => simp
  | @cut r e cs h1 h2 _ _ _ ih =>
    have hlen := slice_length (r := r) h2
    have hne : slice input r e ≠ [] := by
      intro hnil
      rw [hnil, List.length_nil] at hlen
      omega
    have hle := hsize _ hne
    rw [List.map_cons, List.sum_cons]
    simp only
    omega

end

/-! ## One text after another -/

namespace Scanner

/-- The reports of two texts: those of the first, and those of the second from the
state after the first. -/
theorem eventsFrom_append (A : Scanner σ α ο) (s : σ) (pos : Nat) (x y : List α) :
    A.eventsFrom s pos (x ++ y) =
      A.eventsFrom s pos x ++ A.eventsFrom (x.foldl A.settle s) (pos + x.length) y := by
  induction x generalizing s pos with
  | nil => rfl
  | cons a x ih =>
    have hlen : pos + (a :: x).length = pos + 1 + x.length := by
      rw [List.length_cons]
      omega
    rw [List.cons_append, List.foldl_cons, hlen]
    by_cases hq : A.out (A.next s a) = []
    · rw [eventsFrom_quiet hq, eventsFrom_quiet hq, ih, settle, if_pos hq]
    · rw [eventsFrom_hit hq, eventsFrom_hit hq, ih, settle, if_neg hq, List.append_assoc]

theorem events_append (A : Scanner σ α ο) (x y : List α) :
    A.events (x ++ y) = A.events x ++ A.eventsFrom (A.settled x) x.length y := by
  have h := A.eventsFrom_append A.start 0 x y
  rw [Nat.zero_add] at h
  exact h

/-- A run that begins at a later place has the same reports, at later places. -/
theorem eventsFrom_add (A : Scanner σ α ο) (s : σ) (pos k : Nat) (as : List α) :
    A.eventsFrom s (k + pos) as = (A.eventsFrom s pos as).map fun e => (e.1, k + e.2) := by
  induction as generalizing s pos with
  | nil => rfl
  | cons a as ih =>
    by_cases hq : A.out (A.next s a) = []
    · rw [eventsFrom_quiet hq, eventsFrom_quiet hq, Nat.add_assoc, ih]
    · rw [eventsFrom_hit hq, eventsFrom_hit hq, Nat.add_assoc, ih, List.map_append, List.map_map]
      rfl

/-- After a text that leads back to the start, the reports are those of the rest
alone. -/
theorem events_append_of_settled {A : Scanner σ α ο} {x : List α} (h : A.settled x = A.start)
    (y : List α) :
    A.events (x ++ y) = A.events x ++ (A.events y).map fun e => (e.1, x.length + e.2) := by
  have hadd := A.eventsFrom_add A.start 0 x.length y
  rw [Nat.add_zero] at hadd
  rw [events_append, h, hadd]
  rfl

end Scanner

/-- Where a text of `n` symbols has at most `n` reports, so does a whole run. -/
theorem events_length_le {A : Scanner σ α ο}
    (h : ∀ x, x ≠ [] → (reportOf A x).length ≤ x.length) (input : List α) :
    (A.events input).length ≤ input.length := by
  have hsum := (cuts_spec (reportOf A) input).sum_le (fun x => (reportOf A x).length) h
  rw [events_eq_text, events_text, List.length_flatMap]
  simpa using hsum

end reset_run
