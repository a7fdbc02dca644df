import Mathlib.Data.Int.ModEq
import Mathlib.Algebra.Order.Ring.Int
import Mathlib.Tactic.Positivity
import Mathlib.Tactic.Ring

/-!
# Little-endian numbers

An integer is stored by its low bytes, the least significant one first; the bytes are read
back as a natural number.
-/

namespace LittleEndian
variable {k : ℕ} {x : ℤ} {bs : List UInt8}

/-- The `k` low bytes of `x` in two's complement. -/
def toBytes : ℕ → ℤ → List UInt8
  | 0, _ => []
  | k + 1, x => UInt8.ofNat (x % 256).toNat :: toBytes k (x / 256)

def ofBytes : List UInt8 → ℕ
  | [] => 0
  | b :: bs => b.toNat + 256 * ofBytes bs

@[simp] theorem length_toBytes (k : ℕ) (x : ℤ) : (toBytes k x).length = k := by
  induction k generalizing x with
  | zero => rfl
  | succ k ih => rw [toBytes, List.length_cons, ih]

theorem toBytes_add (k m : ℕ) (x : ℤ) :
    toBytes (k + m) x = toBytes k x ++ toBytes m (x / 256 ^ k) := by
  induction k generalizing x with
  | zero => rw [Nat.zero_add, pow_zero, Int.ediv_one, toBytes, List.nil_append]
  | succ k ih =>
    rw [Nat.succ_add, toBytes, ih, toBytes, List.cons_append, Int.ediv_ediv_of_nonneg (by decide),
      ← pow_succ']

theorem toBytes_add_mul (k : ℕ) (x y : ℤ) : toBytes k (x + 256 ^ k * y) = toBytes k x := by
  induction k generalizing x with
  | zero => rfl
  | succ k ih =>
    have hsplit : x + 256 ^ (k + 1) * y = x + 256 * (256 ^ k * y) := by ring
    rw [toBytes, hsplit, Int.add_mul_emod_self_left, Int.add_mul_ediv_left _ _ (by decide), ih,
      toBytes]

/-- A remainder read from the low digit and the remainder of the others. -/
theorem emod_mul_eq (x : ℤ) {b m : ℤ} (hb : 0 < b) (hm : 0 < m) :
    x % (b * m) = x % b + b * (x / b % m) := by
  have hdigit := Int.emod_add_mul_ediv x b
  have hrest := Int.emod_add_mul_ediv (x / b) m
  have hx : x = x % b + b * (x / b % m) + b * m * (x / b / m) := by
    calc x = x % b + b * (x / b) := hdigit.symm
      _ = x % b + b * (x / b % m + m * (x / b / m)) := by rw [hrest]
      _ = x % b + b * (x / b % m) + b * m * (x / b / m) := by ring
  have hlow := Int.emod_nonneg x hb.ne'
  have hlow' := Int.emod_lt_of_pos x hb
  have hhigh := Int.emod_nonneg (x / b) hm.ne'
  have hhigh' := Int.emod_lt_of_pos (x / b) hm
  conv_lhs => rw [hx]
  rw [Int.add_mul_emod_self_left]
  refine Int.emod_eq_of_lt (by positivity) ?_
  have hle : b * (x / b % m + 1) ≤ b * m := mul_le_mul_of_nonneg_left (by omega) hb.le
  rw [mul_add, mul_one] at hle
  omega

theorem ofBytes_toBytes (k : ℕ) (x : ℤ) : (ofBytes (toBytes k x) : ℤ) = x % 256 ^ k := by
  induction k generalizing x with
  | zero => simp [toBytes, ofBytes]
  | succ k ih =>
    have hlow : ((UInt8.ofNat (x % 256).toNat).toNat : ℤ) = x % 256 := by
      have hnonneg := Int.emod_nonneg x (by decide : (256 : ℤ) ≠ 0)
      have hlt := Int.emod_lt_of_pos x (by decide : (0 : ℤ) < 256)
      rw [UInt8.toNat_ofNat', Nat.mod_eq_of_lt (by omega), Int.toNat_of_nonneg hnonneg]
    rw [toBytes, ofBytes, Nat.cast_add, Nat.cast_mul, ih, hlow, pow_succ', Nat.cast_ofNat]
    exact (emod_mul_eq x (by decide) (by positivity)).symm

/-- What was stored in enough bytes is read back. -/
theorem ofBytes_toBytes_of_lt {n : ℕ} (h : n < 256 ^ k) : ofBytes (toBytes k n) = n := by
  have hmod := ofBytes_toBytes k n
  rw [Int.emod_eq_of_lt (Int.natCast_nonneg n) (by exact_mod_cast h)] at hmod
  exact_mod_cast hmod

theorem ofBytes_lt (bs : List UInt8) : ofBytes bs < 256 ^ bs.length := by
  induction bs with
  | nil => exact Nat.one_pos
  | cons b bs ih =>
    have hb := b.toNat_lt
    rw [ofBytes, List.length_cons, pow_succ]
    omega

/-- As many bytes with the same value are the same. -/
theorem ofBytes_injective {bs cs : List UInt8} (hlen : bs.length = cs.length)
    (h : ofBytes bs = ofBytes cs) : bs = cs := by
  induction bs generalizing cs with
  | nil => exact (List.length_eq_zero_iff.mp hlen.symm).symm
  | cons b bs ih =>
    cases cs with
    | nil => cases hlen
    | cons c cs =>
      have hb := b.toNat_lt
      have hc := c.toNat_lt
      rw [ofBytes, ofBytes] at h
      have hlow : b.toNat = c.toNat := by omega
      have hhigh : ofBytes bs = ofBytes cs := by omega
      rw [UInt8.toNat_inj.mp hlow, ih (Nat.succ.inj hlen) hhigh]

end LittleEndian
