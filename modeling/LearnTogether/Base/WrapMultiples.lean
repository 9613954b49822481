import LearnTogether.Base.WrapSum
import Mathlib.Algebra.Order.BigOperators.Group.List
import Mathlib.Data.Nat.Prime.Basic

/-!
# Multiples and sums of non-negative numbers in 64 bits

Two facts about wrapped sums.  The multiples of an odd number repeat only after `2 ^ 64` steps
(`eq_of_ofInt_mul_eq`).  Numbers that are not negative and whose sum fits into 63 bits are summed without wrapping
(`toInt_wrapSum`), so that a part of them never has the larger sum.
-/

namespace WrapSum

theorem wrapSum_replicate (n : Nat) (d : Int64) : wrapSum (List.replicate n d) = Int64.ofInt (n * d.toInt) := by
  simp [wrapSum]

private theorem coprime_of_odd {d : Int} (hodd : d % 2 = 1) : Nat.Coprime (2 ^ 64) d.natAbs := by
  refine Nat.Coprime.pow_left 64 (Nat.coprime_two_left.2 ?_)
  rw [Nat.odd_iff]
  omega

/-- The first `2 ^ 64` multiples of an odd number are different modulo `2 ^ 64`. -/
theorem eq_of_ofInt_mul_eq {d : Int} (hodd : d % 2 = 1) {i j : Nat} (hi : i < 2 ^ 64) (hj : j < 2 ^ 64)
    (h : Int64.ofInt (i * d) = Int64.ofInt (j * d)) : i = j := by
  have hbmod : ((i * d : Int)).bmod (2 ^ 64) = ((j * d : Int)).bmod (2 ^ 64) := by
    rw [(Int64.ofInt_eq_iff_bmod_eq_toInt _ _).1 h, Int64.toInt_ofInt]
    rfl
  have hdvd : ((2 ^ 64 : Nat) : Int) ∣ (i - j : Int) * d := by
    rw [Int.sub_mul]
    exact Int.dvd_of_bmod_eq_zero (Int.bmod_eq_bmod_iff_bmod_sub_eq_zero.1 hbmod)
  have hnat : 2 ^ 64 ∣ (i - j : Int).natAbs := by
    refine (coprime_of_odd hodd).dvd_of_dvd_mul_right ?_
    rw [← Int.natAbs_mul]
    exact Int.natCast_dvd.1 hdvd
  have hlt : (i - j : Int).natAbs < 2 ^ 64 := by omega
  have h0 := Nat.eq_zero_of_dvd_of_lt hnat hlt
  omega

/-- No wrapping: the wrapped sum is the sum. -/
theorem toInt_wrapSum {ds : List Int64} (h0 : ∀ d ∈ ds, 0 ≤ d.toInt) (hsum : (ds.map Int64.toInt).sum < 2 ^ 63) :
    (wrapSum ds).toInt = (ds.map Int64.toInt).sum := by
  have hpos : 0 ≤ (ds.map Int64.toInt).sum := by
    refine List.sum_nonneg fun x hx => ?_
    obtain ⟨d, hd, rfl⟩ := List.mem_map.1 hx
    exact h0 d hd
  exact Int64.toInt_ofInt_of_le (by omega) hsum

/-- A part of numbers that are not negative has no larger sum. -/
theorem sum_le_of_subperm {l l' : List Int} (h : l.Subperm l') (h0 : ∀ x ∈ l', 0 ≤ x) : l.sum ≤ l'.sum := by
  obtain ⟨m, hm, hsub⟩ := h
  rw [← hm.sum_eq]
  exact hsub.sum_le_sum h0

theorem sum_take_le {l : List Int} (h0 : ∀ x ∈ l, 0 ≤ x) {i j : Nat} (hij : i ≤ j) : (l.take i).sum ≤ (l.take j).sum :=
  sum_le_of_subperm (List.take_sublist_take_left hij).subperm fun x hx => h0 x (List.mem_of_mem_take hx)

end WrapSum
