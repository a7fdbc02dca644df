import Mathlib.Algebra.Order.Ring.Int
import Mathlib.Data.List.Basic

/-!
# Chains of a hash table

The pairs of a hash table with separate chaining are in a list of chains. A key is looked for in
the chain that its hash selects.
-/

namespace Chains
variable {κ π : Type} [DecidableEq κ] (key : π → κ)

/-- The chain with its first pair that has the key replaced. -/
def replace (k : κ) (q : π) : List π → List π
  | [] => []
  | p :: chain => if key p = k then q :: chain else p :: replace k q chain

def chain (chains : List (List π)) (i : ℕ) : List π := chains.getD i []

section
variable {key} {k : κ} {p q : π} {c : List π}

theorem replace_of_not_mem (h : k ∉ c.map key) : replace key k q c = c := by
  induction c with
  | nil => rfl
  | cons p c ih =>
    rw [List.map_cons, List.mem_cons, not_or] at h
    rw [replace, if_neg (Ne.symm h.1), ih h.2]

/-- When the keys of a chain differ, every pair with the key is replaced. -/
theorem replace_eq_map (hnodup : (c.map key).Nodup) :
    replace key k q c = c.map fun p => if key p = k then q else p := by
  induction c with
  | nil => rfl
  | cons p c ih =>
    rw [List.map_cons, List.nodup_cons] at hnodup
    rw [replace, List.map_cons, ← ih hnodup.2]
    split
    · next hp => rw [replace_of_not_mem (hp ▸ hnodup.1)]
    · rfl

end

/-! ### Tables with one chain -/

variable {chains : List (List π)} {i : ℕ}

theorem chain_set_self (h : i < chains.length) (c : List π) : chain (chains.set i c) i = c := by
  rw [chain, List.getD_eq_getElem?_getD, List.getElem?_set_self h, Option.getD_some]

theorem chain_set_of_ne {j : ℕ} (h : j ≠ i) (c : List π) :
    chain (chains.set i c) j = chain chains j := by
  rw [chain, chain, List.getD_eq_getElem?_getD, List.getD_eq_getElem?_getD,
    List.getElem?_set_ne (Ne.symm h)]

/-- When the other chains are empty, the pairs of the table are those of one chain. -/
theorem flatten_eq_chain (h : ∀ j ≠ i, chain chains j = []) : chains.flatten = chain chains i := by
  induction chains generalizing i with
  | nil => rfl
  | cons c chains ih =>
    rw [List.flatten_cons]
    cases i with
    | zero =>
      have hrest : chains.flatten = [] := by
        rw [List.flatten_eq_nil_iff]
        intro d hd
        obtain ⟨j, hj, rfl⟩ := List.getElem_of_mem hd
        have hempty := h (j + 1) (Nat.succ_ne_zero j)
        rwa [chain, List.getD_cons_succ, List.getD_eq_getElem?_getD, List.getElem?_eq_getElem hj,
          Option.getD_some] at hempty
      rw [hrest, List.append_nil]
      rfl
    | succ i =>
      have hc : c = [] := h 0 (Nat.succ_ne_zero i).symm
      have hrest : chains.flatten = chain chains i := ih fun j hj =>
        h (j + 1) fun heq => hj (Nat.succ.inj heq)
      rw [hc, List.nil_append, hrest]
      rfl

end Chains
