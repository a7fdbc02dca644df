import OpenADK.Kconfig.WriteConfig
import OpenADK.Kconfig.Marks
import OpenADK.Kconfig.OrderIndependence

/-!
# One pass of `conf_write`

The walk clears the mark of every symbol that it comes by. As no later evaluation sets the mark
again, no symbol is written twice, also when it has several entries in the menus, and what is
written are the values that the symbols have in the end.
-/

namespace OpenADK.Kconfig
open Tristate
variable {ι : Type}

def itemSym : Item ι → Option ι
  | .title _ => none
  | .symbol s _ => some s

def itemSyms (items : List (Item ι)) : List ι := items.filterMap itemSym

namespace SymbolTable

def writables (G : SymbolTable ι) (menu : Menu ι) : List ι :=
  menu.syms.filter fun s => !G.isChoice s

/-- The text that a symbol with its final value is written with. -/
structure Shows (G : SymbolTable ι) (s : ι) (value : Text) (σ : State ι) : Prop where
  type : G.type s ≠ .other ∧ G.type s ≠ .unknown
  valid : (σ.sym s).flagValid
  /-- A symbol with the value `m` asks for `modules`. -/
  modules : G.type s = .boolean ∨ G.type s = .tristate → (σ.sym s).curr.tri = .mod →
    (σ.sym G.modulesSym).flagValid
  value : value = G.stringIn (envOf σ) s

section
variable [DecidableEq ι]

/-- What all steps of the writers preserve. -/
structure WriterInvariant (G : SymbolTable ι) (I : State ι → Prop) : Prop where
  evaluates : Preserves I (symCalcValue G)
  defUser : ∀ s σ, I σ → I (σ.modify s fun st => { st with flagDefUser := true })

/-- The state of the walk when it has come by the symbols `seen`. -/
structure Pass (G : SymbolTable ι) (seen : List ι) (σ : State ι) : Prop extends G.Quiet σ where
  closed : ClosedBut G [] σ
  cleared : ∀ s ∈ seen, (σ.sym s).flagValid ∧ (σ.sym s).flagWrite = false

end
end SymbolTable

open SymbolTable

section
variable [DecidableEq ι] {G : SymbolTable ι} {I : State ι → Prop} {σ τ : State ι} {s t : ι}
variable {seen : List ι} {value : Text}

/-! ### The menus -/

theorem menuIsVisible_preserves (hI : G.WriterInvariant I) {e : MenuEntry ι}
    {children : State ι → Bool × State ι} (hchildren : ∀ σ, I σ → I (children σ).2) (hσ : I σ) :
    I (menuIsVisible G e children σ).2 := by
  unfold menuIsVisible
  split
  · exact hσ
  · next prompt hprompt =>
    have hvis : I (exprCalcValue G (symCalcValue G) e.visibility σ).2 :=
      exprCalcValue_preserves hI.evaluates hσ
    simp only
    split
    · exact hvis
    · split
      · exact exprCalcValue_preserves hI.evaluates hvis
      · next s hs =>
        have hcalc := hI.evaluates s _ hvis
        split
        · exact hcalc
        · split
          · exact hcalc
          · have hchild := hchildren _ hcalc
            simp only
            split
            · exact hI.defUser s _ hchild
            · exact hchild

theorem anyVisible_preserves (hI : G.WriterInvariant I) {menu : Menu ι} (hσ : I σ) :
    I (anyVisible G menu σ).2 := by
  induction menu generalizing σ with
  | null => exact hσ
  | menu e list next ihlist ihnext =>
    have hvis : I (menuIsVisible G e (anyVisible G list) σ).2 :=
      menuIsVisible_preserves hI (fun _ h => ihlist h) hσ
    rw [anyVisible]
    split
    · exact hvis
    · exact ihnext hvis

/-! ### What the steps preserve -/

omit [DecidableEq ι] in
theorem stringIn_eq_of_mod {env env' : Env ι} (hs : env' s = env s)
    (hm : G.type s = .boolean ∨ G.type s = .tristate → (env s).tri = .mod →
      env' G.modulesSym = env G.modulesSym) : G.stringIn env' s = G.stringIn env s := by
  unfold stringIn
  rw [hs]
  cases htype : G.type s with
  | boolean =>
    cases htri : (env s).tri with
    | mod => rw [hm (.inl htype) htri]
    | no | yes => rfl
  | tristate =>
    cases htri : (env s).tri with
    | mod => rw [hm (.inr htype) htri]
    | no | yes => rfl
  | unknown | int | hex | string | other => rfl

omit [DecidableEq ι] in
/-- A step that keeps the values of valid symbols keeps what they show. -/
theorem SymbolTable.Shows.mono (h : G.Shows s value σ)
    (hvalid : ∀ t, (σ.sym t).flagValid → (τ.sym t).flagValid)
    (hcurr : ∀ t, (σ.sym t).flagValid → (τ.sym t).curr = (σ.sym t).curr) : G.Shows s value τ where
  type := h.type
  valid := hvalid s h.valid
  modules htype htri := hvalid _ (h.modules htype (by rwa [hcurr s h.valid] at htri))
  value := by
    have hm : G.type s = .boolean ∨ G.type s = .tristate → (envOf σ s).tri = .mod →
        envOf τ G.modulesSym = envOf σ G.modulesSym := fun htype htri =>
      hcurr _ (h.modules htype htri)
    rw [h.value, stringIn_eq_of_mod (hcurr s h.valid) hm]

theorem curr_modify {f : SymState ι → SymState ι} (hf : ∀ st, (f st).curr = st.curr) (t : ι) :
    ((σ.modify s f).sym t).curr = (σ.sym t).curr := by
  rw [State.modify_sym]
  split
  · exact hf _
  · rfl

theorem SymbolTable.Shows.modify (h : G.Shows s value σ) {f : SymState ι → SymState ι}
    (hvalid : ∀ st, st.flagValid → (f st).flagValid) (hcurr : ∀ st, (f st).curr = st.curr) :
    G.Shows s value (σ.modify t f) :=
  h.mono (fun _ hu => valid_modify hvalid hu) fun u _ => curr_modify hcurr u

theorem shows_writer (G : SymbolTable ι) (s : ι) (value : Text) :
    G.WriterInvariant (G.Shows s value) where
  evaluates _ _ h := h.mono kept_symCalcValue.valid kept_symCalcValue.curr
  defUser _ _ h := h.modify (fun _ => id) fun _ => rfl

/-- Seen symbols stay valid and unmarked when others are evaluated. -/
theorem SymbolTable.Pass.symCalcValue (hG : G.Finalized)
    (hmodules : G.isChoice G.modulesSym = false)
    (hconsults : ∀ s, G.Consults s) (h : G.Pass seen σ) : G.Pass seen (symCalcValue G s σ) where
  toQuiet := (quiet_invariant G).symCalcValue h.toQuiet
  closed := h.closed.symCalcValue hG hmodules hconsults
  cleared t ht := by
    obtain ⟨hvalid, hflag⟩ := h.cleared t ht
    have hmark : MarkIs G t false σ := ⟨h.toQuiet,
      ⟨hvalid, fun c hc hm => h.closed c hc t hm List.not_mem_nil hvalid⟩, hflag⟩
    have hmark' := (markIs_invariant G t false).symCalcValue (s := s) hmark
    exact ⟨hmark'.valid, hmark'.flagWrite⟩

theorem SymbolTable.Pass.modify (h : G.Pass seen σ) {f : SymState ι → SymState ι}
    (hvalid : ∀ st, (f st).flagValid = st.flagValid) (hcurr : ∀ st, (f st).curr = st.curr)
    (hvis : ∀ st, (f st).visible = st.visible)
    (hflag : ∀ st, st.flagWrite = false → (f st).flagWrite = false) :
    G.Pass seen (σ.modify s f) where
  toQuiet := h.toQuiet.modify (fun _ st => ⟨hvalid st, hcurr st⟩) fun _ st => (hvis st).trans
  closed := h.closed.mono (fun t ht => by rwa [flagValid_modify_eq hvalid])
    fun t _ ht => by rwa [flagValid_modify_eq hvalid] at ht
  cleared t ht := by
    refine ⟨by rw [flagValid_modify_eq hvalid]; exact (h.cleared t ht).1, ?_⟩
    rw [State.modify_sym]
    split
    · exact hflag _ (h.cleared t ht).2
    · exact (h.cleared t ht).2

theorem pass_writer (hG : G.Finalized) (hmodules : G.isChoice G.modulesSym = false)
    (hconsults : ∀ s, G.Consults s) (seen : List ι) : G.WriterInvariant (G.Pass seen) where
  evaluates _ _ h := h.symCalcValue hG hmodules hconsults
  defUser _ _ h := h.modify (fun _ => rfl) (fun _ => rfl) (fun _ => rfl) fun _ => id

/-! ### The walk -/

/-- `sym_get_string_value` returns what the symbol shows in the end. -/
theorem shows_symGetStringValue (htype : G.type s ≠ .other ∧ G.type s ≠ .unknown)
    (hs : (σ.sym s).flagValid) :
    G.Shows s (symGetStringValue G (symCalcValue G) s σ).1
      (symGetStringValue G (symCalcValue G) s σ).2 := by
  have hkept : Kept G σ (symCalcValue G G.modulesSym σ) := kept_symCalcValue
  have hmod : ((symCalcValue G G.modulesSym σ).sym G.modulesSym).flagValid := valid_symCalcValue
  have hcurr := hkept.curr s hs
  unfold symGetStringValue
  cases ht : G.type s with
  | boolean | tristate =>
    cases htri : (σ.sym s).curr.tri with
    | no | yes =>
      refine ⟨htype, hs, fun _ hm => ?_, ?_⟩
      · rw [htri] at hm
        cases hm
      · simp only [stringIn, ht, envOf, htri]
    | mod =>
      refine ⟨htype, hkept.valid s hs, fun _ _ => hmod, ?_⟩
      simp only [stringIn, ht, envOf, hcurr, htri]
      rfl
  | int | hex | string =>
    refine ⟨htype, hs, fun h => ?_, ?_⟩
    · rcases h with h | h <;> (rw [ht] at h; cases h)
    · simp only [stringIn, ht, envOf]
  | unknown => exact absurd ht htype.2
  | other => exact absurd ht htype.1

theorem confWriteSymbol_cases (s : ι) (σ : State ι) : confWriteSymbol G s σ = ([], σ) ∨
    (G.type s ≠ .other ∧ G.type s ≠ .unknown) ∧ confWriteSymbol G s σ =
      ([.symbol s (symGetStringValue G (symCalcValue G) s σ).1],
        (symGetStringValue G (symCalcValue G) s σ).2) := by
  unfold confWriteSymbol
  split
  · exact .inl rfl
  · exact .inl rfl
  · next hother hunknown => exact .inr ⟨⟨hother, hunknown⟩, rfl⟩

section
variable (hclear : ∀ s σ, I σ → I (clearWrite s σ))
include hclear

theorem writeSymbol_preserves (hI : G.WriterInvariant I) (hσ : I σ) :
    I (writeSymbol G s σ).2 := by
  have hcalc := hI.evaluates s _ hσ
  unfold writeSymbol
  simp only
  split
  · rcases confWriteSymbol_cases (G := G) s (clearWrite s (symCalcValue G s σ)) with h | ⟨-, h⟩
    · rw [h]
      exact hclear s _ hcalc
    · rw [h]
      exact symGetStringValue_preserves hI.evaluates (hclear s _ hcalc)
  · exact hcalc

theorem writeEntry_preserves (hI : G.WriterInvariant I) {e : MenuEntry ι} {list : Menu ι}
    (hσ : I σ) : I (writeEntry G e list σ).2 := by
  unfold writeEntry
  split
  · exact menuIsVisible_preserves hI (fun _ h => anyVisible_preserves hI h) hσ
  · split
    · exact hσ
    · exact writeSymbol_preserves hclear hI hσ

end

omit [DecidableEq ι] in
theorem walk_preserves {visit : MenuEntry ι → Menu ι → State ι → List (Item ι) × State ι}
    (hvisit : ∀ e list σ, I σ → I (visit e list σ).2) {menu : Menu ι} (hσ : I σ) :
    I (walk visit menu σ).2 := by
  induction menu generalizing σ with
  | null => exact hσ
  | menu e list next ihlist ihnext => exact ihnext (ihlist (hvisit e list σ hσ))

theorem SymbolTable.Shows.clearWrite (h : G.Shows s value σ) (t : ι) :
    G.Shows s value (Kconfig.clearWrite t σ) := h.modify (fun _ => id) fun _ => rfl

theorem SymbolTable.Pass.clearWrite (h : G.Pass seen σ) (hs : (σ.sym s).flagValid) :
    G.Pass (s :: seen) (Kconfig.clearWrite s σ) := by
  have h1 : G.Pass seen (Kconfig.clearWrite s σ) :=
    h.modify (fun _ => rfl) (fun _ => rfl) (fun _ => rfl) fun _ _ => rfl
  refine ⟨h1.toQuiet, h1.closed, fun t ht => ?_⟩
  rcases List.mem_cons.mp ht with rfl | ht
  · rw [Kconfig.clearWrite, State.modify_sym_self]
    exact ⟨hs, rfl⟩
  · exact h1.cleared t ht

/-- A symbol is written only when the walk comes by it for the first time. -/
theorem SymbolTable.Pass.writeSymbol (hG : G.Finalized) (hmodules : G.isChoice G.modulesSym = false)
    (hconsults : ∀ s, G.Consults s) (h : G.Pass seen σ) (s : ι) :
    G.Pass (s :: seen) (writeSymbol G s σ).2 ∧
      ((writeSymbol G s σ).1 = [] ∨ s ∉ seen ∧ ∃ value,
        (writeSymbol G s σ).1 = [.symbol s value] ∧ G.Shows s value (writeSymbol G s σ).2) := by
  have h1 : G.Pass seen (Kconfig.symCalcValue G s σ) := h.symCalcValue hG hmodules hconsults
  have hs : ((Kconfig.symCalcValue G s σ).sym s).flagValid := valid_symCalcValue
  unfold Kconfig.writeSymbol
  simp only
  split
  · next hflag =>
    have hnew : s ∉ seen := fun hmem => by
      rw [(h1.cleared s hmem).2] at hflag
      cases hflag
    have h2 := h1.clearWrite hs
    have hs2 : ((Kconfig.clearWrite s (Kconfig.symCalcValue G s σ)).sym s).flagValid :=
      (h2.cleared s List.mem_cons_self).1
    rcases confWriteSymbol_cases (G := G) s (Kconfig.clearWrite s (Kconfig.symCalcValue G s σ)) with
      hwrite | ⟨htype, hwrite⟩
    · rw [hwrite]
      exact ⟨h2, .inl rfl⟩
    · rw [hwrite]
      exact ⟨symGetStringValue_preserves (pass_writer hG hmodules hconsults _).evaluates h2,
        .inr ⟨hnew, _, rfl, shows_symGetStringValue htype hs2⟩⟩
  · next hflag =>
    refine ⟨⟨h1.toQuiet, h1.closed, fun t ht => ?_⟩, .inl rfl⟩
    rcases List.mem_cons.mp ht with rfl | ht
    · exact ⟨hs, Bool.eq_false_of_not_eq_true hflag⟩
    · exact h1.cleared t ht

/-- What a part of the walk does that comes by the symbols `syms` after the symbols `seen`. -/
structure Walked (G : SymbolTable ι) (seen syms : List ι) (out : List (Item ι) × State ι) :
    Prop where
  pass : G.Pass (seen ++ syms) out.2
  nodup : (itemSyms out.1).Nodup
  fresh : ∀ s ∈ itemSyms out.1, s ∉ seen
  among : ∀ s ∈ itemSyms out.1, s ∈ syms
  shows : ∀ s value, .symbol s value ∈ out.1 → G.Shows s value out.2

omit [DecidableEq ι] in
theorem itemSyms_append (items items' : List (Item ι)) :
    itemSyms (items ++ items') = itemSyms items ++ itemSyms items' := List.filterMap_append

omit [DecidableEq ι] in
/-- Two parts of the walk, one after the other. -/
theorem Walked.append {syms syms' : List ι} {out out' : List (Item ι) × State ι}
    (h : Walked G seen syms out) (h' : Walked G (seen ++ syms) syms' out')
    (hkeep : ∀ s value, G.Shows s value out.2 → G.Shows s value out'.2) :
    Walked G seen (syms ++ syms') (out.1 ++ out'.1, out'.2) where
  pass := List.append_assoc seen syms syms' ▸ h'.pass
  nodup := by
    rw [itemSyms_append]
    refine List.nodup_append.mpr ⟨h.nodup, h'.nodup, fun s hs t ht hst => ?_⟩
    exact h'.fresh t ht (List.mem_append_right _ (hst ▸ h.among s hs))
  fresh s hs := by
    rw [itemSyms_append] at hs
    exact (List.mem_append.mp hs).elim (h.fresh s) fun hs hseen =>
      h'.fresh s hs (List.mem_append_left _ hseen)
  among s hs := by
    rw [itemSyms_append] at hs
    exact List.mem_append.mpr ((List.mem_append.mp hs).imp (h.among s) (h'.among s))
  shows s value hs := (List.mem_append.mp hs).elim (fun hs => hkeep s value (h.shows s value hs))
    (h'.shows s value)

omit [DecidableEq ι] in
/-- A part of the walk that writes no symbol. -/
theorem Walked.quiet {syms : List ι} {out : List (Item ι) × State ι}
    (h : G.Pass (seen ++ syms) out.2) (hout : itemSyms out.1 = []) : Walked G seen syms out := by
  have hnone : ∀ s, s ∉ itemSyms out.1 := fun s hs => by
    rw [hout] at hs
    cases hs
  refine ⟨h, hout ▸ List.nodup_nil, fun s hs => absurd hs (hnone s),
    fun s hs => absurd hs (hnone s), fun s value hs => absurd ?_ (hnone s)⟩
  exact List.mem_filterMap.mpr ⟨_, hs, rfl⟩

section
variable (hG : G.Finalized) (hmodules : G.isChoice G.modulesSym = false)
variable (hconsults : ∀ s, G.Consults s)
include hG hmodules hconsults

theorem walked_writeEntry (e : MenuEntry ι) (list : Menu ι) (h : G.Pass seen σ) :
    Walked G seen (e.sym.toList.filter fun s => !G.isChoice s) (writeEntry G e list σ) := by
  have hwriter := pass_writer hG hmodules hconsults seen
  cases hsym : e.sym with
  | none =>
    rw [writeEntry, hsym]
    refine .quiet ?_ ?_
    · rw [Option.toList_none, List.filter_nil, List.append_nil]
      exact menuIsVisible_preserves hwriter (fun _ h => anyVisible_preserves hwriter h) h
    · simp only
      split <;> rfl
  | some s =>
    cases hchoice : G.isChoice s with
    | true =>
      have hentry : writeEntry G e list σ = ([], σ) := by
        simp only [writeEntry, hsym, hchoice, if_true]
      rw [hentry]
      exact .quiet (by simpa [hchoice] using h) rfl
    | false =>
      have hfilter : (some s).toList.filter (fun s => !G.isChoice s) = [s] := by simp [hchoice]
      obtain ⟨hpass, hout⟩ := h.writeSymbol hG hmodules hconsults s
      have hpass' : G.Pass (seen ++ [s]) (writeSymbol G s σ).2 :=
        ⟨hpass.toQuiet, hpass.closed, fun t ht => hpass.cleared t (by
          rw [List.mem_append, List.mem_singleton, or_comm] at ht
          exact List.mem_cons.mpr ht)⟩
      have hentry : writeEntry G e list σ = writeSymbol G s σ := by
        simp only [writeEntry, hsym, hchoice, Bool.false_eq_true, if_false]
      rw [hfilter, hentry]
      rcases hout with hout | ⟨hnew, value, hout, hshows⟩
      · exact .quiet hpass' (by rw [hout]; rfl)
      · refine ⟨hpass', ?_, fun t ht => ?_, fun t ht => ?_, fun t v ht => ?_⟩
        · rw [hout]
          exact List.nodup_singleton s
        · rw [hout] at ht
          rw [List.mem_singleton.mp ht]
          exact hnew
        · rw [hout] at ht
          exact ht
        · rw [hout] at ht
          cases List.mem_singleton.mp ht
          exact hshows

theorem walked (menu : Menu ι) (h : G.Pass seen σ) :
    Walked G seen (G.writables menu) (walk (writeEntry G) menu σ) := by
  induction menu generalizing seen σ with
  | null =>
    refine .quiet ?_ rfl
    rw [show G.writables .null = [] from rfl, List.append_nil]
    exact h
  | menu e list next ihlist ihnext =>
    have hsyms : G.writables (.menu e list next) =
        (e.sym.toList.filter fun s => !G.isChoice s) ++ G.writables list ++ G.writables next := by
      simp only [writables, Menu.syms, List.filter_append]
    have hkeep {τ : State ι} (menu : Menu ι) (s : ι) (value : Text) (h : G.Shows s value τ) :
        G.Shows s value (walk (writeEntry G) menu τ).2 :=
      walk_preserves (fun _ _ _ h => writeEntry_preserves (fun t _ h => h.clearWrite t)
        (shows_writer G s value) h) h
    have hhere := walked_writeEntry hG hmodules hconsults e list h
    have hinner := hhere.append (ihlist hhere.pass) fun s value h => hkeep list s value h
    have hall := hinner.append (ihnext hinner.pass) fun s value h => hkeep next s value h
    rw [hsyms]
    exact hall

end
end
end OpenADK.Kconfig
