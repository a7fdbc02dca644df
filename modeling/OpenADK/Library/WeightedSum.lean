import Mathlib.Data.List.Infix
import Mathlib.Data.Int.ModEq
import Mathlib.RingTheory.Int.Basic
import Mathlib.Tactic.Ring

/-!
# Sums and weighted sums of a list

The sum of a list together with the sum of the sums of its prefixes, as a running pair. Modulo a
prime the pair tells two lists apart that differ at one place, or at two places whose distance the
prime does not divide.
-/

namespace WeightedSum
variable {a b c d n p : ℕ} {bs bs' xs ys zs : List ℕ}

/-- Each item counts as often as there are prefixes that it is in. -/
def weighted : List ℕ → ℕ
  | [] => 0
  | b :: bs => (bs.length + 1) * b + weighted bs

def step (s : ℕ × ℕ) (b : ℕ) : ℕ × ℕ := (s.1 + b, s.2 + (s.1 + b))

theorem foldl_step (bs : List ℕ) (s : ℕ × ℕ) :
    bs.foldl step s = (s.1 + bs.sum, s.2 + bs.length * s.1 + weighted bs) := by
  induction bs generalizing s with
  | nil => simp [weighted]
  | cons b bs ih =>
    rw [List.foldl_cons, ih, List.sum_cons, List.length_cons, weighted, step]
    ext
    · simp only
      ring
    · simp only
      ring

theorem weighted_append (xs ys : List ℕ) :
    weighted (xs ++ ys) = weighted xs + ys.length * xs.sum + weighted ys := by
  induction xs with
  | nil => simp [weighted]
  | cons b xs ih =>
    rw [List.cons_append, weighted, ih, weighted, List.length_append, List.sum_cons]
    ring

/-- The weighted sum is the sum of the sums of the prefixes. -/
theorem sum_inits (a : ℕ) (bs : List ℕ) :
    (bs.inits.tail.map fun xs => a + xs.sum).sum = bs.length * a + weighted bs := by
  induction bs generalizing a with
  | nil => simp [weighted]
  | cons b bs ih =>
    have hinits : bs.inits = [] :: bs.inits.tail := by cases bs <;> rfl
    have hrest := ih (a + b)
    rw [List.inits_cons, List.tail_cons, List.map_map, hinits, List.map_cons, List.sum_cons]
    have hmap : (fun xs => a + List.sum xs) ∘ (fun t => b :: t) = fun xs => a + b + List.sum xs := by
      funext xs
      simp only [Function.comp_apply, List.sum_cons]
      ring
    rw [hmap, hrest, weighted, List.length_cons]
    simp only [List.sum_nil]
    ring

theorem sum_map_mod (n : ℕ) (bs : List ℕ) : (bs.map (· % n)).sum % n = bs.sum % n := by
  induction bs with
  | nil => rfl
  | cons b bs ih =>
    rw [List.map_cons, List.sum_cons, List.sum_cons, Nat.add_mod, ih, Nat.mod_mod, ← Nat.add_mod]

def residues (n : ℕ) (s : ℕ × ℕ) (bs : List ℕ) : ℕ × ℕ :=
  ((s.1 + bs.sum) % n, (s.2 + bs.length * s.1 + weighted bs) % n)

/-- The remainders can be taken anywhere on the way. -/
theorem residues_append (n : ℕ) (s : ℕ × ℕ) (xs ys : List ℕ) :
    residues n (residues n s xs) ys = residues n s (xs ++ ys) := by
  have hmod (x y k w : ℕ) : (x % n + k * (y % n) + w) % n = (x + k * y + w) % n :=
    ((Nat.mod_modEq x n).add ((Nat.mod_modEq y n).mul_left k)).add_right w
  simp only [residues, hmod, Nat.mod_add_mod, List.sum_append, weighted_append, List.length_append]
  ext
  · simp only
    congr 1
    ring
  · simp only
    congr 1
    ring

/-! ### Lists that differ -/

/-- Small numbers with the same remainder are the same. -/
theorem eq_of_dvd_sub (ha : a < p) (hb : b < p) (h : (p : ℤ) ∣ b - a) : a = b := by
  have hsmall : |(b : ℤ) - a| < p := by
    rw [abs_lt]
    omega
  have hzero := Int.eq_zero_of_abs_lt_dvd h hsmall
  omega

/-- One item that differs changes the sum. -/
theorem eq_of_sum_mod (ha : a < p) (hb : b < p)
    (h : (xs ++ a :: ys).sum % p = (xs ++ b :: ys).sum % p) : a = b := by
  apply eq_of_dvd_sub ha hb
  have hdvd := Nat.modEq_iff_dvd.mp (h : Nat.ModEq p _ _)
  simp only [List.sum_append, List.sum_cons] at hdvd
  have hdiff : ((xs.sum + (b + ys.sum) : ℕ) : ℤ) - (xs.sum + (a + ys.sum) : ℕ) = b - a := by
    push_cast
    ring
  rwa [hdiff] at hdvd

/-- Two items that differ change one of the sums, unless the prime divides their distance. -/
theorem eq_of_weighted_mod (hp : p.Prime) (ha : a < p) (hb : b < p)
    (hdist : ¬p ∣ ys.length + 1)
    (hsum : (xs ++ a :: (ys ++ c :: zs)).sum % p = (xs ++ b :: (ys ++ d :: zs)).sum % p)
    (hweighted : weighted (xs ++ a :: (ys ++ c :: zs)) % p =
      weighted (xs ++ b :: (ys ++ d :: zs)) % p) : a = b := by
  apply eq_of_dvd_sub ha hb
  have h1 := Nat.modEq_iff_dvd.mp (hsum : Nat.ModEq p _ _)
  have h2 := Nat.modEq_iff_dvd.mp (hweighted : Nat.ModEq p _ _)
  simp only [weighted_append, weighted, List.sum_append, List.sum_cons, List.length_append,
    List.length_cons] at h1 h2
  -- what the first change does to the weighted sum, and the second one does not undo
  have hboth : (p : ℤ) ∣ (ys.length + 1 : ℕ) * ((b : ℤ) - a) := by
    have h3 := dvd_sub h2 (dvd_mul_of_dvd_right h1 ((zs.length : ℤ) + 1))
    refine (Int.dvd_iff_emod_eq_zero.mpr ?_)
    rw [← Int.emod_eq_zero_of_dvd h3]
    congr 1
    push_cast
    ring
  rcases Int.Prime.dvd_mul' hp hboth with h | h
  · exact absurd (by exact_mod_cast h) hdist
  · exact h

end WeightedSum
