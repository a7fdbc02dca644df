import OpenADK.Kconfig.ValueLines
import OpenADK.Kconfig.WritePass
import OpenADK.Kconfig.Choices
import Mathlib.Data.List.TakeWhile

/-!
# Reading what was written

The file that `conf_write` writes, read line by line by `conf_read_simple`: the heading and the
titles are comments, and every other line sets its symbol.
-/

namespace OpenADK.Kconfig
open Tristate

/-! ### Comments -/

/-- What `conf_read_simple` takes for `# NAME is not set`, after the blank. -/
def saysUnset (text : Text) : Bool :=
  match strchr ' ' text with
  | none => false
  | some (_, p) => isNotSet.isPrefixOf p

structure IsRemark (text : Text) : Prop where
  one : '\n' ∉ text
  ignored : saysUnset text = false

theorem strchr_eq_none {c : Char} {text : Text} (h : c ∉ text) : strchr c text = none := by
  have hne : ∀ d ∈ text, decide (d ≠ c) = true := fun d hd => decide_eq_true fun heq => h (heq ▸ hd)
  have hdrop : text.dropWhile (fun a => decide (a ≠ c)) = [] := List.dropWhile_eq_nil_iff.mpr hne
  unfold strchr
  rw [hdrop]

theorem saysUnset_append {text : Text} (rest : Text) (h : saysUnset text = true) :
    saysUnset (text ++ rest) = true := by
  by_cases hblank : ' ' ∈ text
  · obtain ⟨name, p, rfl, hname⟩ := List.eq_append_cons_of_mem hblank
    rw [saysUnset, SymbolTable.strchr_append hname] at h
    rw [saysUnset, List.append_assoc, List.cons_append, SymbolTable.strchr_append hname]
    simp only [List.isPrefixOf_iff_prefix] at h ⊢
    exact h.trans (List.prefix_append p rest)
  · rw [saysUnset, strchr_eq_none hblank] at h
    cases h

/-- The newline at the end of the line is no part of what is compared. -/
theorem saysUnset_newline (text : Text) : saysUnset (text ++ ['\n']) = saysUnset text := by
  by_cases hblank : ' ' ∈ text
  · obtain ⟨name, p, rfl, hname⟩ := List.eq_append_cons_of_mem hblank
    rw [saysUnset, saysUnset, List.append_assoc, List.cons_append, SymbolTable.strchr_append hname,
      SymbolTable.strchr_append hname]
    refine Bool.eq_iff_iff.mpr ?_
    simp only [List.isPrefixOf_iff_prefix, List.prefix_concat_iff]
    refine or_iff_right fun heq => ?_
    have hmem : '\n' ∈ isNotSet := heq ▸ List.mem_append_right p (List.mem_singleton_self _)
    exact absurd hmem (by decide)
  · have hnone : ' ' ∉ text ++ ['\n'] := by
      rw [List.mem_append, not_or]
      exact ⟨hblank, by decide⟩
    rw [saysUnset, saysUnset, strchr_eq_none hblank, strchr_eq_none hnone]

theorem parseLine_comment {text : Text} (h : saysUnset text = false) :
    parseLine ('#' :: ' ' :: text ++ ['\n']) = .ignored := by
  rw [← saysUnset_newline] at h
  rw [List.cons_append, List.cons_append, parseLine]
  unfold saysUnset at h
  split
  · next name p heq =>
    rw [heq] at h
    simp only at h
    exact if_neg (by rw [h]; exact Bool.false_ne_true)
  · rfl

theorem IsRemark.take {text : Text} (h : IsRemark text) (n : ℕ) : IsRemark (text.take n) where
  one hmem := h.one (List.mem_of_mem_take hmem)
  ignored := by
    by_contra hsays
    have hfull := saysUnset_append (text.drop n) (Bool.eq_true_of_not_eq_false hsays)
    rw [List.take_append_drop, h.ignored] at hfull
    cases hfull

theorem isRemark_nil : IsRemark [] := ⟨List.not_mem_nil, rfl⟩

theorem isRemark_generatedNotice : IsRemark generatedNotice := ⟨by decide, by decide⟩

/-! ### Lines that are ignored -/

/-- A text of full lines, none of which is read. -/
structure Ignored (text : Text) : Prop where
  lines : ∀ rest, ∃ lines, confLines (text ++ rest) = lines ++ confLines rest ∧
    ∀ line ∈ lines, parseLine line = .ignored

theorem Ignored.nil : Ignored [] := ⟨fun _ => ⟨[], rfl, fun _ h => absurd h List.not_mem_nil⟩⟩

theorem Ignored.append {text rest : Text} (h : Ignored text) (h' : Ignored rest) :
    Ignored (text ++ rest) where
  lines tail := by
    obtain ⟨lines, heq, hlines⟩ := h.lines (rest ++ tail)
    obtain ⟨lines', heq', hlines'⟩ := h'.lines tail
    refine ⟨lines ++ lines', ?_, fun line hline => ?_⟩
    · rw [List.append_assoc, heq, heq', List.append_assoc]
    · exact (List.mem_append.mp hline).elim (hlines line) (hlines' line)

theorem Ignored.flatMap {α : Type} {f : α → Text} {l : List α} (h : ∀ a ∈ l, Ignored (f a)) :
    Ignored (l.flatMap f) := by
  induction l with
  | nil => exact .nil
  | cons a l ih =>
    exact (h a List.mem_cons_self).append (ih fun b hb => h b (List.mem_cons_of_mem _ hb))

theorem Ignored.line {line : Text} (hone : '\n' ∉ line)
    (h : parseLine (line ++ ['\n']) = .ignored) :
    Ignored (line ++ ['\n']) where
  lines rest := ⟨[line ++ ['\n']], SymbolTable.confLines_append hone rest, fun l hl => by
    rw [List.mem_singleton.mp hl, h]⟩

theorem ignored_printCommentLine {line : Text} (h : IsRemark line) :
    Ignored (printCommentLine line) := by
  unfold printCommentLine
  split
  · exact .line (by decide) (by decide)
  · refine .line ?_ (parseLine_comment h.ignored)
    simp only [List.mem_cons, not_or]
    exact ⟨by decide, by decide, h.one⟩

/-- The buffer cuts the prompt of the root menu off, but a cut remark is a remark. -/
theorem ignored_confHeading {ι : Type} (root : RootMenu ι) (h : IsRemark root.prompt) :
    Ignored (confHeading root) := by
  have hcut : ('\n' :: generatedNotice ++ '\n' :: root.prompt ++ ['\n']).take 255 =
      [] ++ '\n' :: (generatedNotice ++ '\n' :: (root.prompt ++ ['\n']).take 211) := by
    simp [generatedNotice]
  have hprompt : ∀ line ∈ ((root.prompt ++ ['\n']).take 211).splitOn '\n', IsRemark line := by
    rw [List.take_append]
    intro line hline
    have hone := (h.take 211).one
    cases hroom : 211 - root.prompt.length with
    | zero =>
      rw [hroom, List.take_zero, List.append_nil, List.splitOn_eq_singleton hone] at hline
      rw [List.mem_singleton.mp hline]
      exact h.take 211
    | succ n =>
      rw [hroom, List.take_succ_cons, List.take_nil,
        List.splitOn_append_cons_self_of_not_mem hone] at hline
      rcases List.mem_cons.mp hline with rfl | hline
      · exact h.take 211
      · rw [List.splitOn_nil, List.mem_singleton] at hline
        rw [hline]
        exact isRemark_nil
  rw [confHeading, hcut, printComment, List.splitOn_append_cons_self_of_not_mem List.not_mem_nil,
    List.splitOn_append_cons_self_of_not_mem isRemark_generatedNotice.one]
  refine .flatMap fun line hline => ignored_printCommentLine ?_
  rcases List.mem_cons.mp hline with rfl | hline
  · exact isRemark_nil
  rcases List.mem_cons.mp hline with rfl | hline
  · exact isRemark_generatedNotice
  · exact hprompt line hline

theorem ignored_title {title : Text} (h : IsRemark title) :
    Ignored (['\n', '#', '\n', '#', ' '] ++ title ++ ['\n', '#', '\n']) := by
  have hsplit : ['\n', '#', '\n', '#', ' '] ++ title ++ ['\n', '#', '\n'] =
      ([] ++ ['\n']) ++
        ((['#'] ++ ['\n']) ++ (('#' :: ' ' :: title ++ ['\n']) ++ (['#'] ++ ['\n']))) := by
    simp
  have hone : '\n' ∉ '#' :: ' ' :: title := by
    simp only [List.mem_cons, not_or]
    exact ⟨by decide, by decide, h.one⟩
  rw [hsplit]
  exact (Ignored.line (by decide) (by decide)).append ((Ignored.line (by decide) (by decide)).append
    ((Ignored.line hone (parseLine_comment h.ignored)).append
      (Ignored.line (by decide) (by decide))))

/-! ### Items -/

namespace SymbolTable
variable {ι : Type} [DecidableEq ι]

section
variable (G : SymbolTable ι)

/-- An item that is read back: a title that is a remark, or a symbol that its name finds and
whose line has its value in `σ`. -/
def Readable (σ : State ι) : Item ι → Prop
  | .title text => IsRemark text
  | .symbol s value => ∃ name, (G.symbol s).name = some name ∧ IsWord name ∧
      symFind G name = some s ∧ G.isChoice s = false ∧
      G.Prints name s σ (printItem G (.symbol s value))

/-- What a choice is told when `s` is read with the value `tri`. -/
def tell (s : ι) (tri : Tristate) (st : SymState ι) : SymState ι :=
  let st : SymState ι := match tri with
    | .no => st
    | .mod => if st.defUser.tri = .yes then { st with flagDefUser := false } else st
    | .yes => { st with defUser := { st.defUser with val := .sym s } }
  { st with defUser := { st.defUser with tri := exprOr st.defUser.tri tri } }

def told (c : ι) (syms : List ι) : List ι :=
  syms.filter fun s => G.isChoiceValue s && decide (G.choiceOf s = some c)

/-- What a choice is told when the symbols are read with their values in `σ`. -/
def tellAll (σ : State ι) (c : ι) (syms : List ι) (st : SymState ι) : SymState ι :=
  (G.told c syms).foldl (fun st s => tell s (σ.sym s).curr.tri st) st

/-- No two members of a choice are set against each other. -/
def Compatible (σ : State ι) (syms : List ι) : Prop :=
  ∀ c, G.isChoice c → (G.told c syms).Pairwise fun a b =>
    (σ.sym b).curr.tri ≠ .no → (σ.sym a).curr.tri = .no ∨
      (σ.sym a).curr.tri = .mod ∧ (σ.sym b).curr.tri = .mod

/-- What is known when the lines of the symbols `syms` have been read from the state `τ` on. -/
structure Read (σ τ : State ι) (syms : List ι) (ρ : Reading ι) : Prop where
  noChoice : ∀ s ∈ syms, G.isChoice s = false
  stored : ∀ s ∈ syms, G.Stored s σ (ρ.state.sym s)
  frame : ∀ t, t ∉ syms → G.isChoice t = false → ρ.state.sym t = τ.sym t
  choice : ∀ c, G.isChoice c → ρ.state.sym c = G.tellAll σ c syms (τ.sym c)
  changeCount : ρ.state.changeCount = τ.changeCount
  modulesVal : ρ.state.modulesVal = τ.modulesVal
  quiet : (∀ s ∈ syms, (τ.sym s).flagDefUser = false) →
    (∀ c, G.isChoice c → (τ.sym c).defUser.tri = .no) → G.Compatible σ syms → ρ.warnings = 0

end

section
variable {G : SymbolTable ι} {s t c : ι} {σ τ : State ι} {ρ : Reading ι} {syms : List ι}

theorem told_concat (h : G.isChoiceValue s ∧ G.choiceOf s = some c) :
    G.told c (syms ++ [s]) = G.told c syms ++ [s] := by
  rw [told, told, List.filter_append, List.filter_singleton]
  simp [h.1, h.2]

theorem told_concat_of_not (h : ¬(G.isChoiceValue s ∧ G.choiceOf s = some c)) :
    G.told c (syms ++ [s]) = G.told c syms := by
  rw [told, told, List.filter_append, List.filter_singleton]
  by_cases hval : G.isChoiceValue s = true
  · have hc : G.choiceOf s ≠ some c := fun hc => h ⟨hval, hc⟩
    simp [hc]
  · simp [hval]

/-- Reading the value of a choice value tells its choice. -/
theorem tellChoice_state {cs : ι} (hval : G.isChoiceValue s) (hcs : G.choiceOf s = some cs) :
    (tellChoice G s ρ).state =
      ρ.state.modify cs (tell s (ρ.state.sym s).defUser.tri) := by
  have htwice (σ : State ι) (f g : SymState ι → SymState ι) :
      (σ.modify cs f).modify cs g = σ.modify cs fun st => g (f st) := by
    simp [State.modify]
  unfold tellChoice
  rw [hval, hcs]
  simp only
  cases htri : (ρ.state.sym s).defUser.tri with
  | no => rfl
  | mod =>
    by_cases hyes : (ρ.state.sym cs).defUser.tri = .yes
    · simp only [if_pos hyes, Reading.modify_state, Reading.warn, htwice]
      simp only [State.modify, tell, hyes, if_true]
    · simp only [if_neg hyes, Reading.modify_state]
      simp only [State.modify, tell, hyes, if_false]
  | yes =>
    simp only [Reading.modify_state, htwice]
    split <;> simp only [State.modify, tell, Reading.warn]

theorem tellChoice_counts (s : ι) (ρ : Reading ι) :
    (tellChoice G s ρ).state.changeCount = ρ.state.changeCount ∧
      (tellChoice G s ρ).state.modulesVal = ρ.state.modulesVal := by
  cases hval : G.isChoiceValue s with
  | true =>
    cases hcs : G.choiceOf s with
    | some cs =>
      rw [tellChoice_state hval hcs]
      exact ⟨rfl, rfl⟩
    | none =>
      unfold tellChoice
      rw [hval, hcs]
      exact ⟨rfl, rfl⟩
  | false =>
    unfold tellChoice
    rw [hval]
    exact ⟨rfl, rfl⟩

/-- The line of a symbol is one line that updates the user's value and tells the choice. -/
theorem Prints.readLine {name : Text} (hword : IsWord name) (hfind : symFind G name = some s)
    {line : Text} (h : G.Prints name s σ line) :
    (∀ rest, confLines (line ++ rest) = line :: confLines rest) ∧
      ∃ f : SymState ι → SymState ι, (∀ st, G.Stored s σ (f st)) ∧
        ∀ ρ, readLine G ρ line = tellChoice G s ((ρ.warnOverride s).modify s f) := by
  obtain ⟨rfl, htype, htri⟩ | ⟨value, f, rfl, hnl, hcr, hset, hf⟩ := h
  · have hline : '\n' ∉ ['#', ' '] ++ name ++ ' ' :: isNotSet := by
      rw [List.mem_append, List.mem_append, not_or, not_or]
      exact ⟨⟨by decide, fun hmem => absurd (hword.2 _ hmem) (by decide)⟩, by decide⟩
    refine ⟨confLines_append hline, fun st =>
      { st with defUser := { st.defUser with tri := .no }, flagDefUser := true },
      fun st => ⟨rfl, ?_⟩, fun ρ => ?_⟩
    · rcases htype with htype | htype <;> rw [htype] <;> exact htri.symm
    · rw [Kconfig.readLine, parseLine_unset hword]
      simp only [hfind, if_pos htype]
      rfl
  · have hline : '\n' ∉ name ++ '=' :: value := by
      rw [List.mem_append, List.mem_cons, not_or, not_or]
      exact ⟨fun hmem => absurd (hword.2 _ hmem) (by decide), by decide, hnl⟩
    refine ⟨confLines_append hline, f, hf, fun ρ => ?_⟩
    rw [Kconfig.readLine, parseLine_assign hword hnl hcr]
    simp only [hfind, hset, if_true]

omit [DecidableEq ι] in
/-- The user's value of a boolean or tristate symbol is the tristate of its value. -/
theorem Stored.tri {st : SymState ι} (h : G.Stored s σ st)
    (htype : G.type s = .boolean ∨ G.type s = .tristate) : st.defUser.tri = (σ.sym s).curr.tri := by
  have hval := h.2
  rcases htype with htype | htype <;> rw [htype] at hval <;> exact hval

omit [DecidableEq ι] in
theorem warnOverride_sym (ρ : Reading ι) (s t : ι) :
    (ρ.warnOverride s).state.sym t = ρ.state.sym t := by rw [warnOverride_state]

omit [DecidableEq ι] in
theorem tell_tri (s : ι) (tri : Tristate) (st : SymState ι) :
    (tell s tri st).defUser.tri = max st.defUser.tri tri := by
  unfold tell
  cases tri with
  | no | yes => exact exprOr_eq_max _ _
  | mod =>
    simp only
    split <;> exact exprOr_eq_max _ _

/-- The tristate of a choice is the greatest that it is told. -/
theorem tellAll_tri_le_iff {b : Tristate} {st : SymState ι} :
    (G.tellAll σ c syms st).defUser.tri ≤ b ↔
      st.defUser.tri ≤ b ∧ ∀ m ∈ G.told c syms, (σ.sym m).curr.tri ≤ b := by
  unfold tellAll
  induction G.told c syms generalizing st with
  | nil => simp
  | cons m ms ih => rw [List.foldl_cons, ih, tell_tri, max_le_iff, and_assoc, List.forall_mem_cons]

theorem tellChoice_warnings (s : ι) {ρ : Reading ι}
    (h : ∀ cs, G.isChoiceValue s → G.choiceOf s = some cs → (ρ.state.sym s).defUser.tri ≠ .no →
      (ρ.state.sym cs).defUser.tri = .no ∨
        (ρ.state.sym cs).defUser.tri = .mod ∧ (ρ.state.sym s).defUser.tri = .mod) :
    (tellChoice G s ρ).warnings = ρ.warnings := by
  unfold tellChoice
  split
  · next cs hval hcs =>
    have hcs := h cs hval hcs
    cases htri : (ρ.state.sym s).defUser.tri with
    | no => rfl
    | mod =>
      rw [htri] at hcs
      have hno : (ρ.state.sym cs).defUser.tri ≠ .yes := by
        rcases hcs (by decide) with h | ⟨h, -⟩ <;> rw [h] <;> decide
      simp only [if_neg hno, Reading.modify]
    | yes =>
      rw [htri] at hcs
      have hno : (ρ.state.sym cs).defUser.tri = .no :=
        (hcs (by decide)).resolve_right fun h => absurd h.2 (by decide)
      simp only [hno, ne_eq, not_true_eq_false, if_false, Reading.modify]
  · rfl

/-- What a choice has been told when the line of one more member comes. -/
theorem Compatible.tellAll (h : G.Compatible σ (syms ++ [s])) (hc : G.isChoice c)
    (hmember : G.isChoiceValue s ∧ G.choiceOf s = some c) {st : SymState ι}
    (hst : st.defUser.tri = .no) (hs : (σ.sym s).curr.tri ≠ .no) :
    (G.tellAll σ c syms st).defUser.tri = .no ∨
      (G.tellAll σ c syms st).defUser.tri = .mod ∧ (σ.sym s).curr.tri = .mod := by
  have hpairs := h c hc
  rw [told_concat hmember, List.pairwise_append] at hpairs
  have hbefore := fun m hm => hpairs.2.2 m hm s (List.mem_singleton_self s) hs
  have hle {b : Tristate} (h : ∀ m ∈ G.told c syms, (σ.sym m).curr.tri ≤ b) :
      (G.tellAll σ c syms st).defUser.tri ≤ b := by
    rw [tellAll_tri_le_iff, hst]
    exact ⟨no_le b, h⟩
  cases htri : (σ.sym s).curr.tri with
  | no => exact absurd htri hs
  | mod =>
    have hmod := hle (b := .mod) fun m hm => by
      rcases hbefore m hm with h | ⟨h, -⟩
      · rw [h]
        exact no_le _
      · rw [h]
    cases htold : (G.tellAll σ c syms st).defUser.tri with
    | no => exact .inl rfl
    | mod => exact .inr ⟨rfl, rfl⟩
    | yes =>
      rw [htold] at hmod
      exact absurd hmod (by decide)
  | yes =>
    refine .inl (le_no_iff.mp (hle fun m hm => ?_))
    rcases hbefore m hm with h | ⟨-, h⟩
    · rw [h]
    · rw [htri] at h
      cases h

/-- One more line. -/
theorem Read.symbol (hG : G.Finalized) (hread : G.Read σ τ syms ρ) (hnew : s ∉ syms)
    (hchoice : G.isChoice s = false) {f : SymState ι → SymState ι}
    (hf : ∀ st, G.Stored s σ (f st)) :
    G.Read σ τ (syms ++ [s]) (tellChoice G s ((ρ.warnOverride s).modify s f)) := by
  generalize hρ' : (ρ.warnOverride s).modify s f = ρ'
  have hself : ρ'.state.sym s = f (ρ.state.sym s) := by
    rw [← hρ', Reading.modify_state, State.modify_sym_self, warnOverride_sym]
  have hother : ∀ t ≠ s, ρ'.state.sym t = ρ.state.sym t := fun t ht => by
    rw [← hρ', Reading.modify_state, State.modify_sym_of_ne _ _ ht, warnOverride_sym]
  have hcount : ρ'.state.changeCount = τ.changeCount := by
    rw [← hρ', Reading.modify_state, State.modify_changeCount, warnOverride_state,
      hread.changeCount]
  have hmodules : ρ'.state.modulesVal = τ.modulesVal := by
    rw [← hρ', Reading.modify_state, State.modify_modulesVal, warnOverride_state, hread.modulesVal]
  have hkeep : ∀ t, ¬(G.isChoiceValue s ∧ G.choiceOf s = some t) →
      (tellChoice G s ρ').state.sym t = ρ'.state.sym t := fun t ht => tellChoice_sym ρ' ht
  have hnone : ∀ t ∈ syms ++ [s], G.isChoice t = false := fun t ht =>
    (List.mem_append.mp ht).elim (hread.noChoice t) fun ht => List.mem_singleton.mp ht ▸ hchoice
  refine ⟨hnone, fun t ht => ?_, fun t ht htc => ?_, fun c hc => ?_, ?_, ?_,
    fun hfresh hno hcompat => ?_⟩
  · have htc : ¬(G.isChoiceValue s ∧ G.choiceOf s = some t) := by
      rintro ⟨hval, hof⟩
      have hct := (hG.memberOf s t hval hof).2
      rw [hnone t ht] at hct
      cases hct
    rw [hkeep t htc]
    by_cases hts : t = s
    · rw [hts, hself]
      exact hf _
    · rw [hother t hts]
      exact hread.stored t ((List.mem_append.mp ht).resolve_right
        fun h => hts (List.mem_singleton.mp h))
  · rw [List.mem_append, List.mem_singleton, not_or] at ht
    have hnot : ¬(G.isChoiceValue s ∧ G.choiceOf s = some t) := by
      rintro ⟨hval, hof⟩
      rw [(hG.memberOf s t hval hof).2] at htc
      cases htc
    rw [hkeep t hnot, hother t ht.2, hread.frame t ht.1 htc]
  · have hcs : c ≠ s := by
      rintro rfl
      rw [hc] at hchoice
      cases hchoice
    by_cases hmember : G.isChoiceValue s ∧ G.choiceOf s = some c
    · have htype := (hG.memberType c s hc (hG.memberOf s c hmember.1 hmember.2).1).2.1
      have htri : (ρ'.state.sym s).defUser.tri = (σ.sym s).curr.tri := by
        rw [hself]
        exact (hf _).tri htype
      rw [tellChoice_state hmember.1 hmember.2, State.modify_sym_self, htri, hother c hcs,
        hread.choice c hc, tellAll, tellAll, told_concat hmember, List.foldl_append]
      rfl
    · rw [hkeep c hmember, hother c hcs, hread.choice c hc, tellAll, tellAll,
        told_concat_of_not hmember]
  · rw [(tellChoice_counts s ρ').1, hcount]
  · rw [(tellChoice_counts s ρ').2, hmodules]
  · have hold : ρ'.warnings = 0 := by
      have hs : (ρ.state.sym s).flagDefUser = false := by
        rw [hread.frame s hnew hchoice]
        exact hfresh s (List.mem_append_right _ (List.mem_singleton_self s))
      rw [← hρ', Reading.modify, Reading.warnOverride, hs]
      refine hread.quiet (fun t ht => hfresh t (List.mem_append_left _ ht)) hno fun c hc => ?_
      exact (hcompat c hc).sublist (List.Sublist.filter _ (List.sublist_append_left _ _))
    rw [tellChoice_warnings, hold]
    intro cs hval hof htri
    obtain ⟨hmem, hc⟩ := hG.memberOf s cs hval hof
    have hs : (ρ'.state.sym s).defUser.tri = (σ.sym s).curr.tri := by
      rw [hself]
      exact (hf _).tri (hG.memberType cs s hc hmem).2.1
    have hcs : cs ≠ s := by
      rintro rfl
      rw [hc] at hchoice
      cases hchoice
    rw [hs] at htri ⊢
    rw [hother cs hcs, hread.choice cs hc]
    exact hcompat.tellAll hc ⟨hval, hof⟩ (hno cs hc) htri

/-! ### The file -/

/-- Lines that are ignored change nothing. -/
theorem foldl_ignored {lines : List Text} (h : ∀ line ∈ lines, parseLine line = .ignored)
    (ρ : Reading ι) : lines.foldl (readLine G) ρ = ρ := by
  induction lines with
  | nil => rfl
  | cons line lines ih =>
    rw [List.foldl_cons, readLine, h line List.mem_cons_self]
    exact ih fun l hl => h l (List.mem_cons_of_mem _ hl)

theorem foldl_ignored_append {text : Text} (h : Ignored text) (rest : Text) (ρ : Reading ι) :
    (confLines (text ++ rest)).foldl (readLine G) ρ = (confLines rest).foldl (readLine G) ρ := by
  obtain ⟨lines, heq, hlines⟩ := h.lines rest
  rw [heq, List.foldl_append, foldl_ignored hlines]

theorem Read.items (hG : G.Finalized) {items : List (Item ι)}
    (hitems : ∀ item ∈ items, G.Readable σ item) (hnodup : (syms ++ itemSyms items).Nodup)
    (hread : G.Read σ τ syms ρ) : G.Read σ τ (syms ++ itemSyms items)
      ((confLines (items.flatMap (printItem G))).foldl (readLine G) ρ) := by
  induction items generalizing syms ρ with
  | nil =>
    rw [itemSyms, List.filterMap_nil, List.append_nil]
    exact hread
  | cons item items ih =>
    have hrest := fun i hi => hitems i (List.mem_cons_of_mem _ hi)
    have hitem := hitems item List.mem_cons_self
    rw [List.flatMap_cons]
    cases item with
    | title text =>
      have hsyms : itemSyms (.title text :: items) = itemSyms items := rfl
      rw [hsyms] at hnodup ⊢
      rw [printItem, foldl_ignored_append (ignored_title hitem)]
      exact ih hrest hnodup hread
    | symbol s value =>
      obtain ⟨name, -, hword, hfind, hchoice, hprints⟩ := hitem
      obtain ⟨hone, f, hf, hline⟩ := hprints.readLine hword hfind
      have hsyms : syms ++ itemSyms (.symbol s value :: items) = syms ++ [s] ++ itemSyms items := by
        rw [List.append_assoc]
        rfl
      have hnew : s ∉ syms := by
        rw [hsyms] at hnodup
        exact fun hs => (List.nodup_append.mp (List.nodup_append.mp hnodup).1).2.2 s hs s
          (List.mem_singleton_self s) rfl
      rw [hsyms] at hnodup ⊢
      rw [hone, List.foldl_cons, hline]
      exact ih hrest hnodup (hread.symbol hG hnew hchoice hf)

theorem read_nil (τ : State ι) : G.Read σ τ [] ⟨τ, 0⟩ where
  noChoice _ h := absurd h List.not_mem_nil
  stored _ h := absurd h List.not_mem_nil
  frame _ _ _ := rfl
  choice _ _ := rfl
  changeCount := rfl
  modulesVal := rfl
  quiet _ _ _ := rfl

theorem read_loadFile (hG : G.Finalized) {root : RootMenu ι} (hroot : IsRemark root.prompt)
    {items : List (Item ι)} (hitems : ∀ item ∈ items, G.Readable σ item)
    (hnodup : (itemSyms items).Nodup) (τ : State ι) :
    G.Read σ (dropUserValues G τ) (itemSyms items) (loadFile G (confText G root items) τ) := by
  rw [loadFile, confText, foldl_ignored_append (ignored_confHeading root hroot)]
  exact (read_nil (dropUserValues G τ)).items hG hitems hnodup

/-! ### What the choices are told -/

/-- The last member that is told with `y` is the pick. -/
theorem tellAll_val {st : SymState ι} : (G.tellAll σ c syms st).defUser.val =
    match (G.told c syms).reverse.find? fun m => (σ.sym m).curr.tri = .yes with
    | some m => .sym m
    | none => st.defUser.val := by
  unfold tellAll
  induction G.told c syms generalizing st with
  | nil => rfl
  | cons m ms ih =>
    rw [List.foldl_cons, ih, List.reverse_cons, List.find?_append]
    cases ms.reverse.find? fun m => (σ.sym m).curr.tri = .yes with
    | some m' => rfl
    | none =>
      rw [Option.none_or, List.find?_singleton]
      cases htri : (σ.sym m).curr.tri with
      | yes => rfl
      | no => rfl
      | mod =>
        simp only [tell]
        split <;> rfl

/-- A choice that is never told `m` counts as set, as it did before. -/
theorem tellAll_flagDefUser {st : SymState ι}
    (h : ∀ m ∈ G.told c syms, (σ.sym m).curr.tri ≠ .mod) :
    (G.tellAll σ c syms st).flagDefUser = st.flagDefUser := by
  unfold tellAll
  revert h
  induction G.told c syms generalizing st with
  | nil => exact fun _ => rfl
  | cons m ms ih =>
    intro h
    rw [List.foldl_cons, ih fun m' hm' => h m' (List.mem_cons_of_mem _ hm')]
    have hm := h m List.mem_cons_self
    cases htri : (σ.sym m).curr.tri with
    | yes => rfl
    | no => rfl
    | mod => exact absurd htri hm

/-- The user's values after a file with the symbols `syms` has been read: those of the file, and
no others. -/
structure Restored (G : SymbolTable ι) (σ τ : State ι) (syms : List ι) (ρ : Reading ι) : Prop where
  stored : ∀ s ∈ syms, G.Stored s σ (ρ.state.sym s)
  others : ∀ t ∈ G.symbolHash, t ∉ syms → G.isChoice t = false →
    (ρ.state.sym t).flagDefUser = false ∧ (ρ.state.sym t).defUser = ⟨.null, .no⟩
  /-- The tristate of a choice is the greatest of its members in the file. -/
  greatest : ∀ c, G.isChoice c → ∀ b, (ρ.state.sym c).defUser.tri ≤ b ↔
    ∀ m ∈ G.told c syms, (σ.sym m).curr.tri ≤ b
  pick : ∀ c, G.isChoice c → (ρ.state.sym c).defUser.val =
    match (G.told c syms).reverse.find? fun m => (σ.sym m).curr.tri = .yes with
    | some m => .sym m
    | none => .null
  set : ∀ c, G.isChoice c → (∀ m ∈ G.told c syms, (σ.sym m).curr.tri ≠ .mod) →
    (ρ.state.sym c).flagDefUser = true
  changeCount : ρ.state.changeCount = τ.changeCount
  warnings : (∀ s ∈ syms, s ∈ G.symbolHash) → G.Compatible σ syms → ρ.warnings = 0

theorem dropUserValues_of_mem (hG : G.Finalized) (h : t ∈ G.symbolHash) :
    ((dropUserValues G τ).sym t).flagDefUser = G.isChoice t ∧
      ((dropUserValues G τ).sym t).defUser = ⟨.null, .no⟩ := by
  rw [← hG.allSymbols] at h
  rw [dropUserValues_sym, if_pos h]
  exact ⟨rfl, rfl⟩

theorem dropUserValues_changeCount (τ : State ι) :
    (dropUserValues G τ).changeCount = τ.changeCount := by
  unfold dropUserValues
  induction G.allSymbols generalizing τ with
  | nil => rfl
  | cons s syms ih => exact ih _

theorem Read.restored (hG : G.Finalized) (h : G.Read σ (dropUserValues G τ) syms ρ) :
    G.Restored σ τ syms ρ := by
  have hdrop := fun t ht => dropUserValues_of_mem (τ := τ) (t := t) hG ht
  refine ⟨h.stored, fun t ht hnot hc => ?_, fun c hc b => ?_, fun c hc => ?_, fun c hc hmod => ?_,
    h.changeCount.trans (dropUserValues_changeCount τ), fun hhash hcompat => ?_⟩
  · rw [h.frame t hnot hc, (hdrop t ht).1, (hdrop t ht).2]
    exact ⟨hc, rfl⟩
  · rw [h.choice c hc, tellAll_tri_le_iff, (hdrop c (hG.choice_mem c hc)).2]
    exact and_iff_right (no_le b)
  · rw [h.choice c hc, tellAll_val, (hdrop c (hG.choice_mem c hc)).2]
  · rw [h.choice c hc, tellAll_flagDefUser hmod, (hdrop c (hG.choice_mem c hc)).1, hc]
  · refine h.quiet (fun s hs => ?_) (fun c hc => ?_) hcompat
    · rw [(hdrop s (hhash s hs)).1, h.noChoice s hs]
    · rw [(hdrop c (hG.choice_mem c hc)).2]

/-- A written file is read back: its symbols have the values they had, and nothing else is set. -/
theorem loadFile_confText (hG : G.Finalized) {root : RootMenu ι} (hroot : IsRemark root.prompt)
    {items : List (Item ι)} (hitems : ∀ item ∈ items, G.Readable σ item)
    (hnodup : (itemSyms items).Nodup) (τ : State ι) :
    G.Restored σ τ (itemSyms items) (loadFile G (confText G root items) τ) :=
  (read_loadFile hG hroot hitems hnodup τ).restored hG

end
end SymbolTable

end OpenADK.Kconfig
