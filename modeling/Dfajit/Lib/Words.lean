-- Little-endian words: a number as its bytes, the bytes back as the number,
-- and a list of 32-bit words laid out one after the other.
import Mathlib.Algebra.GroupWithZero.Nat
import Mathlib.Data.List.Basic
import Mathlib.Tactic.Common

namespace words

/-! ## One word -/

/-- The `k` low bytes of `n`, the lowest first. -/
def leBytes : Nat → Nat → List UInt8
  | 0, _ => []
  | k + 1, n => UInt8.ofNat n :: leBytes k (n / 256)

/-- The number that a list of bytes spells, the lowest first. -/
def ofLeBytes : List UInt8 → Nat
  | [] => 0
  | b :: bs => b.toNat + 256 * ofLeBytes bs

/-- `u32::to_le_bytes`. -/
def le32 (x : UInt32) : List UInt8 := leBytes 4 x.toNat

/-- `u64::to_le_bytes`. -/
def le64 (x : UInt64) : List UInt8 := leBytes 8 x.toNat

@[simp] theorem leBytes_length (k n : Nat) : (leBytes k n).length = k := by
  induction k generalizing n with
  | zero => rfl
  | succ k ih => simp [leBytes, ih]

@[simp] theorem le32_length (x : UInt32) : (le32 x).length = 4 := leBytes_length 4 _

@[simp] theorem le64_length (x : UInt64) : (le64 x).length = 8 := leBytes_length 8 _

theorem ofLeBytes_leBytes (k n : Nat) (h : n < 256 ^ k) : ofLeBytes (leBytes k n) = n := by
  induction k generalizing n with
  | zero => simp only [Nat.pow_zero] at h; simp [leBytes, ofLeBytes]; omega
  | succ k ih =>
    have hq : n / 256 < 256 ^ k := by
      rw [Nat.pow_succ] at h
      exact Nat.div_lt_of_lt_mul (by rw [Nat.mul_comm]; exact h)
    simp only [leBytes, ofLeBytes, ih _ hq, UInt8.toNat_ofNat']
    omega

theorem leBytes_ofLeBytes (bs : List UInt8) : leBytes bs.length (ofLeBytes bs) = bs := by
  induction bs with
  | nil => rfl
  | cons b bs ih =>
    have hb := b.toNat_lt
    have hlow : UInt8.ofNat (b.toNat + 256 * ofLeBytes bs) = b := by
      apply UInt8.toNat_inj.mp
      rw [UInt8.toNat_ofNat']
      omega
    have hhigh : (b.toNat + 256 * ofLeBytes bs) / 256 = ofLeBytes bs := by omega
    simp [leBytes, ofLeBytes, hlow, hhigh, ih]

theorem ofLeBytes_lt (bs : List UInt8) : ofLeBytes bs < 256 ^ bs.length := by
  induction bs with
  | nil => simp [ofLeBytes]
  | cons b bs ih =>
    have hb := b.toNat_lt
    simp only [ofLeBytes, List.length_cons, Nat.pow_succ]
    omega

@[simp] theorem ofLeBytes_le32 (x : UInt32) : ofLeBytes (le32 x) = x.toNat :=
  ofLeBytes_leBytes 4 _ x.toNat_lt

@[simp] theorem ofLeBytes_le64 (x : UInt64) : ofLeBytes (le64 x) = x.toNat :=
  ofLeBytes_leBytes 8 _ x.toNat_lt

/-- Four bytes are the bytes of the word that they spell. -/
theorem le32_ofLeBytes (bs : List UInt8) (h : bs.length = 4) :
    le32 (UInt32.ofNat (ofLeBytes bs)) = bs := by
  have hlt : ofLeBytes bs < 2 ^ 32 := by
    have := ofLeBytes_lt bs
    rw [h] at this
    exact this
  unfold le32
  rw [UInt32.toNat_ofNat_of_lt' hlt, ← h, leBytes_ofLeBytes]

/-! ## Reading and writing at an offset -/

/-- The bytes `off .. off + k`, where the list is long enough for them. -/
def sliceAt (bs : List UInt8) (off k : Nat) : Option (List UInt8) :=
  if off + k ≤ bs.length then some ((bs.drop off).take k) else none

/-- The 32-bit word at `off`. -/
def wordAt (bs : List UInt8) (off : Nat) : Option UInt32 :=
  (sliceAt bs off 4).map fun w => UInt32.ofNat (ofLeBytes w)

/-- The list with `new` written over it from `off` on. -/
def overwrite (bs : List UInt8) (off : Nat) (new : List UInt8) : List UInt8 :=
  bs.take off ++ new ++ bs.drop (off + new.length)

theorem sliceAt_append_right (pre bs : List UInt8) (off k : Nat) :
    sliceAt (pre ++ bs) (pre.length + off) k = sliceAt bs off k := by
  unfold sliceAt
  simp only [List.length_append, List.drop_append, Nat.add_sub_cancel_left]
  rw [List.drop_eq_nil_of_le (by omega), List.nil_append]
  simp [Nat.add_assoc]

theorem sliceAt_append_left (bs post : List UInt8) (off k : Nat) (h : off + k ≤ bs.length) :
    sliceAt (bs ++ post) off k = sliceAt bs off k := by
  unfold sliceAt
  rw [if_pos h, if_pos (by simp; omega), List.drop_append_of_le_length (by omega),
    List.take_append_of_le_length (by simp; omega)]

theorem wordAt_append_right (pre bs : List UInt8) (off : Nat) :
    wordAt (pre ++ bs) (pre.length + off) = wordAt bs off := by
  simp [wordAt, sliceAt_append_right]

theorem wordAt_append_left (bs post : List UInt8) (off : Nat) (h : off + 4 ≤ bs.length) :
    wordAt (bs ++ post) off = wordAt bs off := by
  simp [wordAt, sliceAt_append_left _ _ _ _ h]

theorem wordAt_le32 (x : UInt32) (post : List UInt8) : wordAt (le32 x ++ post) 0 = some x := by
  rw [wordAt_append_left _ _ _ (by simp)]
  simp [wordAt, sliceAt, List.take_of_length_le]

/-- A word that was read is the word whose bytes stand there. -/
theorem drop_of_wordAt {bs : List UInt8} {off : Nat} {x : UInt32} (h : wordAt bs off = some x) :
    bs.drop off = le32 x ++ bs.drop (off + 4) := by
  unfold wordAt sliceAt at h
  split at h
  · simp only [Option.map_some, Option.some.injEq] at h
    rw [← h, le32_ofLeBytes _ (by simp; omega), ← List.drop_drop, List.take_append_drop]
  · simp at h

theorem overwrite_length (bs new : List UInt8) (off : Nat) (h : off + new.length ≤ bs.length) :
    (overwrite bs off new).length = bs.length := by
  simp [overwrite]; omega

/-- A write inside the first part leaves the second part alone. -/
theorem overwrite_append_left (bs post new : List UInt8) (off : Nat)
    (h : off + new.length ≤ bs.length) :
    overwrite (bs ++ post) off new = overwrite bs off new ++ post := by
  unfold overwrite
  rw [List.take_append_of_le_length (by omega), List.drop_append_of_le_length h]
  simp

/-- A write inside the second part leaves the first part alone. -/
theorem overwrite_append_right (pre bs new : List UInt8) (off : Nat) :
    overwrite (pre ++ bs) (pre.length + off) new = pre ++ overwrite bs off new := by
  unfold overwrite
  rw [List.take_length_add_append, Nat.add_assoc, List.drop_length_add_append]
  simp

/-- The word at `off` is the word whose bytes stand there. -/
theorem wordAt_of_drop {bs post : List UInt8} {off : Nat} {x : UInt32}
    (h : bs.drop off = le32 x ++ post) : wordAt bs off = some x := by
  have hlen : bs.length - off = 4 + post.length := by
    have := congrArg List.length h
    simpa using this
  unfold wordAt sliceAt
  rw [if_pos (by omega), h, List.take_append_of_le_length (by simp)]
  simp [List.take_of_length_le]

theorem drop_of_drop_append {bs xs post : List UInt8} {off : Nat} (h : bs.drop off = xs ++ post) :
    bs.drop (off + xs.length) = post := by
  rw [← List.drop_drop, h, List.drop_left]

/-! ## A list of words -/

/-- The bytes of the words, one word after the other. -/
def encodeWords (ws : List UInt32) : List UInt8 := ws.flatMap le32

@[simp] theorem encodeWords_nil : encodeWords [] = [] := rfl

@[simp] theorem encodeWords_cons (w : UInt32) (ws : List UInt32) :
    encodeWords (w :: ws) = le32 w ++ encodeWords ws := rfl

@[simp] theorem encodeWords_append (ws vs : List UInt32) :
    encodeWords (ws ++ vs) = encodeWords ws ++ encodeWords vs := List.flatMap_append

@[simp] theorem encodeWords_length (ws : List UInt32) :
    (encodeWords ws).length = 4 * ws.length := by
  induction ws with
  | nil => rfl
  | cons w ws ih => simp [ih]; omega

/-- The word at place `i` of the layout is the `i`th word. -/
theorem wordAt_encodeWords (ws : List UInt32) (post : List UInt8) (i : Nat) (w : UInt32)
    (h : ws[i]? = some w) : wordAt (encodeWords ws ++ post) (4 * i) = some w := by
  induction ws generalizing i with
  | nil => simp at h
  | cons v vs ih =>
    cases i with
    | zero =>
      simp only [List.getElem?_cons_zero, Option.some.injEq] at h
      subst h
      rw [encodeWords_cons, List.append_assoc]
      exact wordAt_le32 v _
    | succ i =>
      rw [encodeWords_cons, List.append_assoc, show 4 * (i + 1) = (le32 v).length + 4 * i by
        simp; omega, wordAt_append_right]
      exact ih i (by simpa using h)

end words
