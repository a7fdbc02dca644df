import Mathlib.Tactic.ByContra

/-!
# Machines that are given answers

A step takes the answer of the environment to what the machine asks for. An answer that cannot be
given to it has no next state, and a run ends there.
-/

namespace Machine
variable {σ α : Type*} (step : σ → α → Option σ)

def Always (P : σ → Prop) (s : σ) : List α → Prop
  | [] => P s
  | a :: answers => P s ∧ ∀ s', step s a = some s' → Always P s' answers

def Meets (C : σ → α → Prop) (s : σ) : List α → Prop
  | [] => True
  | a :: answers => ∀ s', step s a = some s' → C s a ∧ Meets C s' answers

variable {step} {P Inv : σ → Prop} {C : σ → α → Prop} {s : σ} {answers : List α}

theorem Always.start (h : Always step P s answers) : P s := by
  cases answers with
  | nil => exact h
  | cons a answers => exact h.1

/-- An invariant that is kept exactly by the answers that meet the condition. -/
theorem always_iff_meets (hP : ∀ s, Inv s → P s)
    (hstep : ∀ {s a s'}, Inv s → step s a = some s' → C s a → Inv s')
    (hfail : ∀ {s a s'}, Inv s → step s a = some s' → ¬C s a → ¬P s') (hs : Inv s) :
    Always step P s answers ↔ Meets step C s answers := by
  induction answers generalizing s with
  | nil => exact ⟨fun _ => trivial, fun _ => hP s hs⟩
  | cons a answers ih =>
    constructor
    · intro h s' hnext
      have hrest := h.2 s' hnext
      have hcond : C s a := by
        by_contra hcond
        exact hfail hs hnext hcond hrest.start
      exact ⟨hcond, (ih (hstep hs hnext hcond)).mp hrest⟩
    · intro h
      refine ⟨hP s hs, fun s' hnext => ?_⟩
      obtain ⟨hcond, hrest⟩ := h s' hnext
      exact (ih (hstep hs hnext hcond)).mpr hrest

end Machine
