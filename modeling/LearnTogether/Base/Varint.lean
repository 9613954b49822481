import Mathlib.Algebra.Group.Nat.Defs

/-!
# Base-128 varints

A natural number as groups of seven bits, the lowest group first, with the high bit set on every byte but the last.
The first argument of `encode` and `decode` bounds the bytes after the first: ten bytes in all hold 64 bits.
-/

namespace Varint

def encode : Nat → Nat → List UInt8
  | 0, n => [UInt8.ofNat n]
  | k + 1, n => if n < 128 then [UInt8.ofNat n] else UInt8.ofNat (n % 128 + 128) :: encode k (n / 128)

/-- The number at the head of the bytes and the bytes after it. -/
def decode : Nat → List UInt8 → Option (Nat × List UInt8)
  | _, [] => none
  | 0, b :: rest => if b.toNat < 128 then some (b.toNat, rest) else none
  | k + 1, b :: rest =>
    if b.toNat < 128 then some (b.toNat, rest)
    else (decode k rest).map fun (m, rest') => (b.toNat - 128 + 128 * m, rest')

private theorem toNat_ofNat {n : Nat} (h : n < 256) : (UInt8.ofNat n).toNat = n := by
  rw [UInt8.toNat_ofNat', Nat.mod_eq_of_lt h]

/-- Decoding gives the number back and leaves the bytes after it. -/
theorem decode_encode (k n : Nat) (rest : List UInt8) (h : n < 128 ^ (k + 1)) :
    decode k (encode k n ++ rest) = some (n, rest) := by
  induction k generalizing n with
  | zero =>
    have hn := toNat_ofNat (n := n) (by omega)
    simp only [encode, List.cons_append, List.nil_append, decode, hn, if_pos (show n < 128 by omega)]
  | succ k ih =>
    unfold encode
    split
    · rename_i hn
      have hb := toNat_ofNat (n := n) (by omega)
      simp only [List.cons_append, List.nil_append, decode, hb, if_pos hn]
    · have hb := toNat_ofNat (n := n % 128 + 128) (by omega)
      have hdiv : n / 128 < 128 ^ (k + 1) := by
        rw [Nat.div_lt_iff_lt_mul (by omega), ← Nat.pow_succ]
        exact h
      simp only [List.cons_append, decode, hb, ih _ hdiv, if_neg (show ¬ n % 128 + 128 < 128 by omega),
        Option.map_some, Option.some.injEq, Prod.mk.injEq, and_true]
      omega

theorem decode_length {k n : Nat} {bs rest : List UInt8} (h : decode k bs = some (n, rest)) :
    rest.length < bs.length := by
  induction bs generalizing k n rest with
  | nil => cases k <;> simp [decode] at h
  | cons b bs ih =>
    cases k with
    | zero =>
      simp only [decode] at h
      split at h
      · cases h
        exact Nat.lt_succ_self _
      · cases h
    | succ k =>
      simp only [decode] at h
      split at h
      · cases h
        exact Nat.lt_succ_self _
      · obtain ⟨p, hp, he⟩ := Option.map_eq_some_iff.1 h
        cases he
        have := ih hp
        exact Nat.lt_succ_of_lt this

/-- What follows in the input does not matter. -/
theorem decode_append {k n : Nat} {bs rest : List UInt8} (h : decode k bs = some (n, rest)) (more : List UInt8) :
    decode k (bs ++ more) = some (n, rest ++ more) := by
  induction bs generalizing k n rest with
  | nil => cases k <;> simp [decode] at h
  | cons b bs ih =>
    rw [List.cons_append]
    cases k with
    | zero =>
      simp only [decode] at h ⊢
      by_cases hb : b.toNat < 128
      · rw [if_pos hb] at h ⊢
        cases h
        rfl
      · rw [if_neg hb] at h
        cases h
    | succ k =>
      simp only [decode] at h ⊢
      by_cases hb : b.toNat < 128
      · rw [if_pos hb] at h ⊢
        cases h
        rfl
      · rw [if_neg hb] at h ⊢
        obtain ⟨p, hp, he⟩ := Option.map_eq_some_iff.1 h
        cases he
        rw [ih hp]
        rfl

/-- The number of bytes of a varint. -/
def size : Nat → Nat → Nat
  | 0, _ => 1
  | k + 1, n => if n < 128 then 1 else 1 + size k (n / 128)

theorem length_encode (k n : Nat) : (encode k n).length = size k n := by
  induction k generalizing n with
  | zero => rfl
  | succ k ih =>
    unfold encode size
    split
    · rfl
    · rw [List.length_cons, ih, Nat.add_comm]

/-- A 64-bit integer in two's complement, as at most ten bytes. -/
def encodeInt64 (v : Int64) : List UInt8 := encode 9 v.toUInt64.toNat

def decodeInt64 (bs : List UInt8) : Option (Int64 × List UInt8) :=
  (decode 9 bs).map fun (n, rest) => ((UInt64.ofNat n).toInt64, rest)

theorem decodeInt64_encodeInt64 (v : Int64) (rest : List UInt8) :
    decodeInt64 (encodeInt64 v ++ rest) = some (v, rest) := by
  have hv : v.toUInt64.toNat < 128 ^ (9 + 1) := Nat.lt_trans v.toUInt64.toNat_lt (by decide)
  unfold decodeInt64 encodeInt64
  rw [decode_encode 9 _ rest hv]
  simp only [Option.map_some, UInt64.ofNat_toNat]
  rfl

end Varint
