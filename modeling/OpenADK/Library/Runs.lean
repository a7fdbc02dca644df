import Mathlib.Data.List.Basic
import Mathlib.Data.List.Flatten
import Mathlib.Order.Lattice

/-!
# Runs

A list of numbers is cut into runs of consecutive numbers, and a run into pieces of bounded
length. Both cuts can be undone.
-/

namespace Runs
variable {ofs num size x k : ℕ} {xs : List ℕ}

/-- The numbers of a run, given by its first number and its length. -/
def expand (run : ℕ × ℕ) : List ℕ := List.range' run.1 run.2

def runsFrom (ofs num : ℕ) : List ℕ → List (ℕ × ℕ)
  | [] => [(ofs, num)]
  | x :: xs => if x = ofs + num then runsFrom ofs (num + 1) xs else (ofs, num) :: runsFrom x 1 xs

def runs : List ℕ → List (ℕ × ℕ)
  | [] => []
  | x :: xs => runsFrom x 1 xs

theorem flatMap_runsFrom (ofs num : ℕ) (xs : List ℕ) :
    (runsFrom ofs num xs).flatMap expand = List.range' ofs num ++ xs := by
  induction xs generalizing ofs num with
  | nil => rw [runsFrom, List.flatMap_singleton, expand, List.append_nil]
  | cons x xs ih =>
    rw [runsFrom]
    split
    case isTrue h => rw [ih, List.range'_1_concat, List.append_assoc, h, List.singleton_append]
    case isFalse => rw [List.flatMap_cons, ih, expand, List.range'_one, List.singleton_append]

theorem flatMap_runs (xs : List ℕ) : (runs xs).flatMap expand = xs := by
  cases xs with
  | nil => rfl
  | cons x xs => rw [runs, flatMap_runsFrom, List.range'_one, List.singleton_append]

/-- Numbers that continue the run are added to it. -/
theorem runsFrom_continued (ofs num k : ℕ) (xs : List ℕ) :
    runsFrom ofs num (List.range' (ofs + num) k ++ xs) = runsFrom ofs (num + k) xs := by
  induction k generalizing num with
  | zero => rfl
  | succ k ih =>
    rw [List.range'_succ, List.cons_append, runsFrom, if_pos rfl, Nat.add_assoc, ih]
    congr 1
    omega

/-- Other numbers begin a run of their own. -/
theorem runsFrom_interrupted (hx : x ≠ ofs + num) (hk : 0 < k) (xs : List ℕ) :
    runsFrom ofs num (List.range' x k ++ xs) = (ofs, num) :: runsFrom x k xs := by
  obtain ⟨k, rfl⟩ := Nat.exists_eq_add_one_of_ne_zero hk.ne'
  rw [List.range'_succ, List.cons_append, runsFrom, if_neg hx, runsFrom_continued, Nat.add_comm]

theorem runs_begun (hk : 0 < k) (xs : List ℕ) :
    runs (List.range' x k ++ xs) = runsFrom x k xs := by
  obtain ⟨k, rfl⟩ := Nat.exists_eq_add_one_of_ne_zero hk.ne'
  rw [List.range'_succ, List.cons_append, runs, runsFrom_continued, Nat.add_comm]

/-- The pieces of a run, each as long as can be. -/
def pieces (size ofs num : ℕ) : List (ℕ × ℕ) :=
  if num = 0 ∨ size = 0 then []
  else (ofs, min num size) :: pieces size (ofs + min num size) (num - min num size)
termination_by num

theorem pieces_zero (size ofs : ℕ) : pieces size ofs 0 = [] := by
  rw [pieces, if_pos (.inl rfl)]

theorem pieces_of_pos (hnum : 0 < num) (hsize : 0 < size) :
    pieces size ofs num =
      (ofs, min num size) :: pieces size (ofs + min num size) (num - min num size) := by
  conv_lhs => rw [pieces]
  exact if_neg (by omega)

theorem flatMap_pieces (hsize : 0 < size) (ofs num : ℕ) :
    (pieces size ofs num).flatMap expand = List.range' ofs num := by
  induction num using Nat.strong_induction_on generalizing ofs with
  | _ num ih =>
    rcases Nat.eq_zero_or_pos num with rfl | hnum
    · rw [pieces_zero]
      rfl
    · have hsplit : min num size + (num - min num size) = num := by omega
      rw [pieces_of_pos hnum hsize, List.flatMap_cons, ih _ (by omega), expand,
        List.range'_append_1, hsplit]

theorem of_mem_pieces {piece : ℕ × ℕ} (h : piece ∈ pieces size ofs num) :
    0 < piece.2 ∧ piece.2 ≤ size ∧ ofs ≤ piece.1 ∧ piece.1 + piece.2 ≤ ofs + num := by
  induction num using Nat.strong_induction_on generalizing ofs with
  | _ num ih =>
    rcases Nat.eq_zero_or_pos num with rfl | hnum
    · rw [pieces_zero] at h
      exact nomatch h
    · rcases Nat.eq_zero_or_pos size with rfl | hsize
      · rw [pieces, if_pos (.inr rfl)] at h
        exact nomatch h
      · rw [pieces_of_pos hnum hsize] at h
        rcases List.mem_cons.mp h with rfl | h
        · exact ⟨by change 0 < min num size; omega, by change min num size ≤ size; omega,
            le_rfl, by change ofs + min num size ≤ _; omega⟩
        · have hpiece := ih _ (by omega) h
          omega

end Runs
