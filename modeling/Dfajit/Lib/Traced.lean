-- Computations that may stop and keep a log of numbers on the way, and a triple
-- for them: what the log may hold, which stops are fine, and what the value is.
import Mathlib.Tactic.Common

namespace traced

structure Traced (ε α : Type) where
  log : List Nat
  result : Except ε α

namespace Traced

variable {ε α β : Type}

/-- The steps after a stop are left out, and so are their notes in the log. -/
instance : Monad (Traced ε) where
  pure a := ⟨[], .ok a⟩
  bind m f :=
    match m.result with
    | .ok a => ⟨m.log ++ (f a).log, (f a).result⟩
    | .error e => ⟨m.log, .error e⟩

instance : MonadLift (Except ε) (Traced ε) where
  monadLift r := ⟨[], r⟩

def note (n : Nat) : Traced ε Unit := ⟨[n], .ok ()⟩

@[simp] theorem result_pure (a : α) : (pure a : Traced ε α).result = .ok a := rfl

@[simp] theorem result_lift (r : Except ε α) : (liftM r : Traced ε α).result = r := rfl

@[simp] theorem result_note (n : Nat) : (note n : Traced ε Unit).result = .ok () := rfl

@[simp] theorem result_bind (m : Traced ε α) (f : α → Traced ε β) :
    (m >>= f).result = m.result >>= fun a => (f a).result := by
  change (match m.result with
    | .ok a => ⟨m.log ++ (f a).log, (f a).result⟩
    | .error e => ⟨m.log, .error e⟩ : Traced ε β).result = _
  cases m.result <;> rfl

/-! ## The triple -/

/-- All notes are `Within`, a stop is `Fine`, and a value satisfies `P`. -/
def Safe (Within : Nat → Prop) (Fine : ε → Prop) (m : Traced ε α) (P : α → Prop) : Prop :=
  (∀ n ∈ m.log, Within n) ∧ (∀ e, m.result = .error e → Fine e) ∧ ∀ a, m.result = .ok a → P a

variable {Within : Nat → Prop} {Fine : ε → Prop} {P : α → Prop} {Q : β → Prop}

theorem Safe.bind {m : Traced ε α} {f : α → Traced ε β} (h : Safe Within Fine m P)
    (hf : ∀ a, P a → Safe Within Fine (f a) Q) : Safe Within Fine (m >>= f) Q := by
  obtain ⟨hlog, hstop, hval⟩ := h
  have hbind : (m >>= f) = match m.result with
    | .ok a => ⟨m.log ++ (f a).log, (f a).result⟩
    | .error e => ⟨m.log, .error e⟩ := rfl
  rw [hbind]
  cases hm : m.result with
  | error e =>
    refine ⟨hlog, ?_, fun _ h => (by cases h)⟩
    rintro _ ⟨⟩
    exact hstop e hm
  | ok a =>
    obtain ⟨hlog', hstop', hval'⟩ := hf a (hval a hm)
    refine ⟨?_, hstop', hval'⟩
    intro n hn
    rcases List.mem_append.mp hn with hn | hn
    · exact hlog n hn
    · exact hlog' n hn

theorem Safe.pure {a : α} (h : P a) : Safe Within Fine (pure a : Traced ε α) P := by
  refine ⟨fun _ h => (by cases h), fun _ h => (by cases h), ?_⟩
  rintro _ ⟨⟩
  exact h

theorem Safe.lift {r : Except ε α} (hstop : ∀ e, r = .error e → Fine e)
    (hval : ∀ a, r = .ok a → P a) : Safe Within Fine (liftM r) P :=
  ⟨fun _ h => (by cases h), hstop, hval⟩

/-- A step that gives a value. -/
theorem Safe.lift_ok {r : Except ε α} {a : α} (h : r = .ok a) (ha : P a) :
    Safe Within Fine (liftM r) P := by
  refine Safe.lift ?_ ?_
  · intro e he
    rw [h] at he
    cases he
  · intro b hb
    rw [h] at hb
    rwa [← Except.ok.inj hb]

/-- The rest is run with the value of such a step. -/
theorem Safe.bind_ok {r : Except ε α} {a : α} {f : α → Traced ε β} (h : r = .ok a)
    (hf : Safe Within Fine (f a) Q) : Safe Within Fine (liftM r >>= f) Q := by
  refine Safe.bind (Safe.lift_ok (P := (a = ·)) h rfl) ?_
  rintro _ rfl
  exact hf

theorem Safe.note {n : Nat} (h : Within n) : Safe Within Fine (note n) fun _ => True := by
  refine ⟨?_, fun _ he => (by cases he), fun _ _ => trivial⟩
  intro m hm
  rwa [List.mem_singleton.mp hm]

/-- A stop that is fine, at the end. -/
theorem Safe.stop {e : ε} (h : Fine e) : Safe Within Fine (liftM (.error e : Except ε α)) P := by
  refine Safe.lift ?_ fun _ h => (by cases h)
  rintro _ ⟨⟩
  exact h

end Traced

end traced
