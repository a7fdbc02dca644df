import Mathlib.Data.Finset.Card
import Mathlib.Logic.Relation
import Mathlib.Data.Fintype.EquivFin

/-!
# Acyclic relations on finite types

A relation without a cycle on a finite type has a ranking: the number of elements from
which an element can be reached.
-/

namespace Ranking
open Relation
variable {α : Type*} {R : α → α → Prop}

def Acyclic (R : α → α → Prop) : Prop := ∀ a, ¬TransGen R a a

theorem Acyclic.mono {S : α → α → Prop} (h : Acyclic R) (hS : ∀ a b, S a b → R a b) :
    Acyclic S :=
  fun a ha => h a (TransGen.mono hS a a ha)

theorem acyclic_of_rank (rank : α → ℕ) (h : ∀ a b, R a b → rank a < rank b) : Acyclic R := by
  have hlt : ∀ a b, TransGen R a b → rank a < rank b := by
    intro a b hab
    induction hab with
    | single hab => exact h _ _ hab
    | tail _ hbc ih => exact ih.trans (h _ _ hbc)
  exact fun a ha => lt_irrefl _ (hlt a a ha)

theorem Acyclic.exists_rank [Finite α] (h : Acyclic R) :
    ∃ rank : α → ℕ, ∀ a b, R a b → rank a < rank b := by
  classical
  have := Fintype.ofFinite α
  refine ⟨fun a => (Finset.univ.filter fun b => TransGen R b a).card, fun a b hab => ?_⟩
  apply Finset.card_lt_card
  refine Finset.ssubset_iff_of_subset ?_ |>.mpr ⟨a, ?_, ?_⟩
  · intro c hc
    rw [Finset.mem_filter] at hc ⊢
    exact ⟨hc.1, hc.2.tail hab⟩
  · exact Finset.mem_filter.mpr ⟨Finset.mem_univ a, .single hab⟩
  · intro ha
    exact h a (Finset.mem_filter.mp ha).2

end Ranking
