import Mathlib.Logic.Function.Basic

/-!
# Operations on files

A program writes files anew or appends to them. What a file holds at the end depends on what it
held before only if it is not written anew.
-/

namespace FileOps
variable {F α : Type} [DecidableEq F] {f : F} {files files' : F → Option (List α)}

/-- Writing a file anew, or appending to a file, which is created if it is not there. -/
inductive Op (F α : Type)
  | write (file : F) (content : List α)
  | append (file : F) (content : List α)

namespace Op

def file : Op F α → F
  | .write f _ => f
  | .append f _ => f

def content (old : Option (List α)) : Op F α → List α
  | .write _ c => c
  | .append _ c => old.getD [] ++ c

end Op

def step (files : F → Option (List α)) (op : Op F α) : F → Option (List α) :=
  Function.update files op.file (some (op.content (files op.file)))

def run (files : F → Option (List α)) (ops : List (Op F α)) : F → Option (List α) :=
  ops.foldl step files

theorem step_of_ne (op : Op F α) (h : op.file ≠ f) : step files op f = files f :=
  Function.update_of_ne h.symm _ _

theorem step_congr (op : Op F α) (h : files f = files' f) : step files op f = step files' op f := by
  by_cases hf : op.file = f
  · subst hf
    rw [step, step, Function.update_self, Function.update_self, h]
  · rw [step_of_ne op hf, step_of_ne op hf, h]

variable {ops : List (Op F α)}

theorem run_append (files : F → Option (List α)) (ops ops' : List (Op F α)) :
    run files (ops ++ ops') = run (run files ops) ops' := List.foldl_append

/-- A file that no operation is about is left as it is. -/
theorem run_of_ne (h : ∀ op ∈ ops, op.file ≠ f) : run files ops f = files f := by
  induction ops generalizing files with
  | nil => rfl
  | cons op ops ih =>
    rw [run, List.foldl_cons, ← run, ih fun o ho => h o (List.mem_cons_of_mem _ ho),
      step_of_ne op (h op List.mem_cons_self)]

/-- Nothing but the file itself matters for what it holds. -/
theorem run_congr (ops : List (Op F α)) (h : files f = files' f) :
    run files ops f = run files' ops f := by
  induction ops generalizing files files' with
  | nil => exact h
  | cons op ops ih => exact ih (step_congr op h)

/-- Once a file is written anew, it does not matter what it held before. -/
theorem run_of_write {c : List α} (h : .write f c ∈ ops) : run files ops f = run files' ops f := by
  induction ops generalizing files files' with
  | nil => cases h
  | cons op ops ih =>
    rcases List.mem_cons.mp h with rfl | h
    · apply run_congr ops
      rw [step, step, Op.file, Function.update_self, Function.update_self]
      rfl
    · exact ih h

def about (f : F) (ops : List (Op F α)) : List (Op F α) := ops.filter fun op => op.file = f

theorem about_cons_self (op : Op F α) (ops : List (Op F α)) :
    about op.file (op :: ops) = op :: about op.file ops := List.filter_cons_of_pos (by simp)

theorem about_cons_of_ne (op : Op F α) (h : op.file ≠ f) (ops : List (Op F α)) :
    about f (op :: ops) = about f ops := List.filter_cons_of_neg (by simpa using h)

theorem about_append (f : F) (ops ops' : List (Op F α)) :
    about f (ops ++ ops') = about f ops ++ about f ops' := List.filter_append ..

theorem about_eq_nil (h : ∀ op ∈ ops, op.file ≠ f) : about f ops = [] :=
  List.filter_eq_nil_iff.mpr fun op hop => by simpa using h op hop

/-- The other operations do not matter for what the file holds. -/
theorem run_about (files : F → Option (List α)) (ops : List (Op F α)) :
    run files (about f ops) f = run files ops f := by
  induction ops generalizing files with
  | nil => rfl
  | cons op ops ih =>
    by_cases hf : op.file = f
    · subst hf
      rw [about_cons_self]
      exact ih _
    · rw [about_cons_of_ne op hf, ih]
      exact run_congr ops (step_of_ne op hf).symm

def appended (f : F) : List (Op F α) → List (List α)
  | [] => []
  | .write _ _ :: ops => appended f ops
  | .append g c :: ops => if g = f then c :: appended f ops else appended f ops

theorem appended_append (f : F) (ops ops' : List (Op F α)) :
    appended f (ops ++ ops') = appended f ops ++ appended f ops' := by
  induction ops with
  | nil => rfl
  | cons op ops ih =>
    cases op with
    | write g c => exact ih
    | append g c =>
      rw [List.cons_append, appended, appended, ih]
      split <;> rfl

theorem appended_about (f : F) (ops : List (Op F α)) :
    appended f (about f ops) = appended f ops := by
  induction ops with
  | nil => rfl
  | cons op ops ih =>
    by_cases hf : op.file = f
    · subst hf
      rw [about_cons_self]
      cases op with
      | write g c => exact ih
      | append g c => rw [appended, appended, ih]
    · rw [about_cons_of_ne op hf, ih]
      cases op with
      | write g c => rfl
      | append g c => exact (if_neg hf).symm

theorem of_mem_appended {c : List α} (h : c ∈ appended f ops) : Op.append f c ∈ ops := by
  induction ops with
  | nil => cases h
  | cons op ops ih =>
    cases op with
    | write g d => exact List.mem_cons_of_mem _ (ih h)
    | append g d =>
      rw [appended] at h
      split at h
      case isTrue hg =>
        rcases List.mem_cons.mp h with rfl | h
        · exact hg ▸ List.mem_cons_self
        · exact List.mem_cons_of_mem _ (ih h)
      case isFalse => exact List.mem_cons_of_mem _ (ih h)

/-- A file that is never written anew. -/
theorem run_of_appends (h : ∀ c, .write f c ∉ ops) : run files ops f =
    if appended f ops = [] then files f
    else some ((files f).getD [] ++ (appended f ops).flatten) := by
  induction ops generalizing files with
  | nil => rw [appended, if_pos rfl, run, List.foldl_nil]
  | cons op ops ih =>
    rw [run, List.foldl_cons, ← run, ih fun c hc => h c (List.mem_cons_of_mem _ hc)]
    cases op with
    | write g c =>
      have hg : g ≠ f := by
        rintro rfl
        exact h c List.mem_cons_self
      rw [step_of_ne (.write g c) hg, appended]
    | append g c =>
      rw [appended]
      by_cases hg : g = f
      · subst hg
        rw [if_pos rfl, if_neg (List.cons_ne_nil _ _), step, Op.file, Function.update_self]
        split
        case isTrue hnil => rw [hnil]; simp [Op.content]
        case isFalse => simp [Op.content]
      · rw [step_of_ne (.append g c) hg, if_neg hg]

end FileOps
