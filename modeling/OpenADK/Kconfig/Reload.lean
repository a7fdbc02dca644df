import OpenADK.Kconfig.Caches
import OpenADK.Kconfig.ConfigFile

/-!
# What a file determines

When a file is loaded, nothing of what was loaded, set or evaluated before has an influence: the
user's values are those of the file, and the values of all symbols are determined by them.
-/

namespace OpenADK.Kconfig
open Tristate
namespace SymbolTable
variable {ι : Type}

/-- The user has set the same, apart from the constants. -/
def SameUser (G : SymbolTable ι) (σ τ : State ι) : Prop :=
  ∀ s ∈ G.symbolHash, userIn σ s = userIn τ s

variable [DecidableEq ι] {G : SymbolTable ι} {σ τ : State ι} {ρ ρ' : Reading ι} {s : ι}

/-! ### Reading the same file -/

namespace SameUser

theorem modify (h : G.SameUser σ τ) {f : SymState ι → SymState ι}
    (hf : ∀ st st' : SymState ι, st.flagDefUser = st'.flagDefUser → st.defUser = st'.defUser →
      (f st).flagDefUser = (f st').flagDefUser ∧ (f st).defUser = (f st').defUser) :
    G.SameUser (σ.modify s f) (τ.modify s f) := by
  intro t ht
  have hst : (σ.sym t).flagDefUser = (τ.sym t).flagDefUser ∧
      (σ.sym t).defUser = (τ.sym t).defUser := UserValue.mk.inj (h t ht)
  unfold userIn
  rw [State.modify_sym, State.modify_sym]
  split
  · next hts =>
    subst hts
    obtain ⟨h1, h2⟩ := hf _ _ hst.1 hst.2
    rw [h1, h2]
  · rw [hst.1, hst.2]

theorem modifyReading (h : G.SameUser ρ.state ρ'.state) {f : SymState ι → SymState ι}
    (hf : ∀ st st' : SymState ι, st.flagDefUser = st'.flagDefUser → st.defUser = st'.defUser →
      (f st).flagDefUser = (f st').flagDefUser ∧ (f st).defUser = (f st').defUser) :
    G.SameUser (ρ.modify s f).state (ρ'.modify s f).state := h.modify hf

omit [DecidableEq ι] in
theorem warnOverride (h : G.SameUser ρ.state ρ'.state) :
    G.SameUser (ρ.warnOverride s).state (ρ'.warnOverride s).state := by
  have hstate (ρ : Reading ι) : (ρ.warnOverride s).state = ρ.state := by
    unfold Reading.warnOverride
    split <;> rfl
  rw [hstate, hstate]
  exact h

theorem setTri (h : G.SameUser ρ.state ρ'.state) (tri : Tristate) :
    G.SameUser (ρ.setTri s tri).state (ρ'.setTri s tri).state := by
  rw [Reading.setTri, Reading.setTri]
  exact h.modifyReading fun st st' _ hd => ⟨rfl, by rw [hd]⟩

theorem setVal (h : G.SameUser ρ.state ρ'.state) (val : Text) :
    G.SameUser (ρ.setVal s val).state (ρ'.setVal s val).state := by
  rw [Reading.setVal, Reading.setVal]
  exact h.modifyReading fun st st' _ hd => ⟨rfl, by rw [hd]⟩

theorem confSetSymVal (h : G.SameUser ρ.state ρ'.state) (p : Text) :
    (confSetSymVal G s p ρ).1 = (confSetSymVal G s p ρ').1 ∧
      G.SameUser (confSetSymVal G s p ρ).2.state (confSetSymVal G s p ρ').2.state := by
  unfold Kconfig.confSetSymVal
  split
  · split
    · exact ⟨rfl, h.setTri _⟩
    · exact ⟨rfl, h.setTri _⟩
    · exact ⟨rfl, h.setTri _⟩
    · exact ⟨rfl, h⟩
  · split
    · exact ⟨rfl, h.setTri _⟩
    · exact ⟨rfl, h.setTri _⟩
    · exact ⟨rfl, h⟩
  · split
    · split
      · exact ⟨rfl, h.setVal _⟩
      · exact ⟨rfl, h⟩
    · exact ⟨rfl, h⟩
  · split
    · exact ⟨rfl, h.setVal _⟩
    · exact ⟨rfl, h⟩
  · split
    · exact ⟨rfl, h.setVal _⟩
    · exact ⟨rfl, h⟩
  · exact ⟨rfl, h⟩

/-- A choice is told the same. -/
theorem tellChoice (hG : G.Finalized) (h : G.SameUser ρ.state ρ'.state) :
    G.SameUser (tellChoice G s ρ).state (tellChoice G s ρ').state := by
  unfold Kconfig.tellChoice
  split
  · next cs hs hcs =>
    obtain ⟨hmember, hchoice⟩ := hG.memberOf s cs hs hcs
    have hdef (t : ι) (ht : t ∈ G.symbolHash) :
        (ρ.state.sym t).defUser = (ρ'.state.sym t).defUser := (UserValue.mk.inj (h t ht)).2
    rw [hdef s (hG.memberType cs s hchoice hmember).1, hdef cs (hG.choice_mem cs hchoice)]
    have htri {ρ ρ' : Reading ι} (tri : Tristate) (h : G.SameUser ρ.state ρ'.state) :
        G.SameUser (ρ.modify cs fun st =>
            { st with defUser := { st.defUser with tri := exprOr st.defUser.tri tri } }).state
          (ρ'.modify cs fun st =>
            { st with defUser := { st.defUser with tri := exprOr st.defUser.tri tri } }).state :=
      h.modifyReading fun st st' hf hd => ⟨hf, by rw [hd]⟩
    cases (ρ'.state.sym s).defUser.tri with
    | no => exact htri .no h
    | mod =>
      refine htri .mod ?_
      simp only
      split
      · exact h.modifyReading fun st st' _ hd => ⟨rfl, hd⟩
      · exact h
    | yes =>
      refine htri .yes ?_
      simp only
      split
      · exact h.modifyReading fun st st' hf hd => ⟨hf, by rw [hd]⟩
      · exact h.modifyReading fun st st' hf hd => ⟨hf, by rw [hd]⟩
  · exact h

theorem readLine (hG : G.Finalized) (h : G.SameUser ρ.state ρ'.state) (line : Text) :
    G.SameUser (readLine G ρ line).state (readLine G ρ' line).state := by
  unfold Kconfig.readLine
  split
  · exact h
  · split
    · exact h
    · refine SameUser.tellChoice hG ?_
      split
      · exact h.warnOverride.setTri _
      · exact h.warnOverride
  · split
    · exact h
    · next s _ =>
      obtain ⟨hset, hstate⟩ := h.warnOverride.confSetSymVal (s := s) _
      simp only
      rw [hset]
      split
      · exact hstate.tellChoice hG
      · exact hstate

theorem lines (hG : G.Finalized) (h : G.SameUser ρ.state ρ'.state) (lines : List Text) :
    G.SameUser (lines.foldl (Kconfig.readLine G) ρ).state
      (lines.foldl (Kconfig.readLine G) ρ').state := by
  induction lines generalizing ρ ρ' with
  | nil => exact h
  | cons line lines ih => exact ih (h.readLine hG line)

end SameUser

theorem sameUser_dropUserValues (hG : G.Finalized) :
    G.SameUser (dropUserValues G σ) (dropUserValues G τ) := by
  intro s hs
  rw [← hG.allSymbols] at hs
  rw [userIn, userIn, dropUserValues_sym, dropUserValues_sym, if_pos hs, if_pos hs]

/-- The file decides what the user has set. -/
theorem sameUser_loadFile (hG : G.Finalized) (contents : Text) :
    G.SameUser (loadFile G contents σ).state (loadFile G contents τ).state :=
  (sameUser_dropUserValues hG).lines hG _

/-! ### The same values -/

/-- What the user has set for the constants does not matter. -/
theorem Solution.congr {user user' : ι → UserValue ι} {env : Env ι}
    (h : G.Solution user env) (hsame : ∀ s ∈ G.symbolHash, user s = user' s) :
    G.Solution user' env := by
  intro s
  have hs := h s
  unfold equations at hs ⊢
  split at hs
  · next hmem => rw [if_pos hmem, ← hsame s hmem, ← hs]
  · next hmem => rw [if_neg hmem, ← hs]

/-- All symbols evaluated, in any order, after a file has been loaded. -/
def loadedState (G : SymbolTable ι) (contents : Text) (syms : List ι) (σ : State ι) : State ι :=
  symCalcList G syms (symCalcValue G G.modulesSym (loadFile G contents σ).state)

/-- Whatever has been loaded, set and evaluated before, and in whatever order the symbols are
evaluated, a file gives every symbol the same value and the same visibility. -/
theorem loadedState_forgets (hG : G.Finalized) (h : G.Stratified) (contents : Text)
    {σ₁ σ₂ : State ι} (hσ₁ : G.Reachable σ₁) (hσ₂ : G.Reachable σ₂) (n₁ n₂ : ℕ)
    {syms₁ syms₂ : List ι}
    (hsyms₁ : G.allSymbols ⊆ syms₁) (hsyms₂ : G.allSymbols ⊆ syms₂) :
    let τ₁ := G.loadedState contents syms₁ { σ₁ with changeCount := n₁ }
    let τ₂ := G.loadedState contents syms₂ { σ₂ with changeCount := n₂ }
    (∀ s, (τ₁.sym s).curr = (τ₂.sym s).curr) ∧ τ₁.modulesVal = τ₂.modulesVal ∧
      ∀ s ∈ G.symbolHash, G.type s ≠ .unknown → (τ₁.sym s).visible = (τ₂.sym s).visible := by
  intro τ₁ τ₂
  have heval₁ : G.Evaluated _ τ₁ := .loaded n₁ contents hσ₁ hsyms₁
  have heval₂ : G.Evaluated _ τ₂ := .loaded n₂ contents hσ₂ hsyms₂
  have hcomp₁ := heval₁.computed hG h
  have hcomp₂ := heval₂.computed hG h
  have hsame : G.Solution (userIn (loadFile G contents { σ₂ with changeCount := n₂ }).state)
      (envOf τ₁) := hcomp₁.solution.congr (sameUser_loadFile hG contents)
  have henv : envOf τ₁ = envOf τ₂ := hsame.unique hG h hcomp₂.picks hcomp₂.solution
  have hmv : τ₁.modulesVal = τ₂.modulesVal := by rw [hcomp₁.modulesVal, hcomp₂.modulesVal, henv]
  refine ⟨fun s => congrFun henv s, hmv, fun s hs htype => ?_⟩
  have hfills : Target.Fills G s .visible := ⟨htype, hG.type_ne_other s, trivial⟩
  have hup₁ := (heval₁.upToDate hG h hs hfills).cache
  rw [hmv, henv] at hup₁
  exact hup₁.trans (heval₂.upToDate hG h hs hfills).cache.symm

end SymbolTable

namespace SelectedMember
open Name

/-- Another file has been read before, and the symbols are evaluated in another order. -/
theorem loadedState_forgets_pickA :
    let first := (confRead (table true) (.opened pickB) (table true).initial).2
    let τ₁ := (table true).loadedState pickA [b, a, x, c] { first with changeCount := 0 }
    let τ₂ := (table true).loadedState pickA [c, x, a, b]
      { (table true).initial with changeCount := 0 }
    (∀ s, (τ₁.sym s).curr = (τ₂.sym s).curr) ∧ τ₁.modulesVal = τ₂.modulesVal ∧
      ∀ s ∈ (table true).symbolHash, (table true).type s ≠ .unknown →
        (τ₁.sym s).visible = (τ₂.sym s).visible :=
  SymbolTable.loadedState_forgets (finalized true) (stratified true) pickA
    (.single (.read (.opened pickB))) .refl 0 0 (by decide) (by decide)

end SelectedMember
end OpenADK.Kconfig
