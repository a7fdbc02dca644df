import Mathlib.Logic.Function.Iterate

/-!
# Ranked systems of equations

A system gives every unknown an equation `env s = F env s`. It is ranked when the
right-hand side of an unknown depends on unknowns of smaller rank only. A ranked
system has exactly one solution, which iteration reaches.
-/

namespace RankedSystem
variable {ι α : Type*} {rank : ι → ℕ} {F F' : (ι → α) → ι → α}

/-- Each right-hand side depends on unknowns of smaller rank only. -/
def Ranked (rank : ι → ℕ) (F : (ι → α) → ι → α) : Prop :=
  ∀ s env env', (∀ t, rank t < rank s → env t = env' t) → F env s = F env' s

def Solves (F : (ι → α) → ι → α) (env : ι → α) : Prop := ∀ s, env s = F env s

/-- Two systems with the same equations below the rank `n` have the same values there. -/
theorem Solves.agree (hF : Ranked rank F) {n : ℕ}
    (hFF : ∀ s, rank s < n → ∀ env, F env s = F' env s) {env env' : ι → α} (h : Solves F env)
    (h' : Solves F' env') : ∀ s, rank s < n → env s = env' s := by
  induction n with
  | zero => intro s hs; omega
  | succ n ih =>
    intro s hs
    rw [h s, h' s, ← hFF s hs]
    apply hF
    intro t ht
    exact ih (fun u hu => hFF u (by omega)) t (by omega)

theorem Solves.unique (hF : Ranked rank F) {env env' : ι → α} (h : Solves F env)
    (h' : Solves F env') : env = env' :=
  funext fun s => h.agree hF (fun _ _ _ => rfl) h' s (Nat.lt_succ_self _)

theorem iterate_stable (hF : Ranked rank F) (start : ι → α) (s : ι) {n m : ℕ}
    (hn : rank s < n) (hm : rank s < m) : F^[n] start s = F^[m] start s := by
  induction n generalizing s m with
  | zero => omega
  | succ n ih =>
    obtain ⟨m, rfl⟩ := Nat.exists_eq_add_of_le' (Nat.one_le_of_lt hm)
    rw [Function.iterate_succ_apply', Function.iterate_succ_apply']
    exact hF s _ _ fun t ht => ih t (by omega) (by omega)

/-- The solution of a ranked system: each unknown after enough rounds for its rank. -/
def solve (rank : ι → ℕ) (F : (ι → α) → ι → α) (start : ι → α) : ι → α :=
  fun s => F^[rank s + 1] start s

theorem solve_solves (hF : Ranked rank F) (start : ι → α) : Solves F (solve rank F start) := by
  intro s
  rw [solve, Function.iterate_succ_apply']
  apply hF
  intro t ht
  exact iterate_stable hF start t ht (Nat.lt_succ_self _)

end RankedSystem
