import Mathlib.Data.List.Basic

/-!
# Self-delimiting records

A reader takes a record from the front of a buffer and says how far it has gone. A record
may end in a list of fields, each named by its first item, up to an item that stops the list.
-/

namespace Records
variable {α β σ ε : Type}

/-- What a reader has found, and how far it has gone. -/
@[ext]
structure Found (β : Type) where
  value : β
  advance : ℕ
  advance_pos : 0 < advance

section
variable (fault : ε) (stop : α → Bool)

/-- Reads records up to an item that stops the list; `fault` if the buffer ends before. -/
def readAll (read : List α → Except ε (Found β)) : List α → Except ε (List (Found β) × List α)
  | [] => .error fault
  | a :: as =>
    if stop a then .ok ([], a :: as)
    else
      match read (a :: as) with
      | .error e => .error e
      | .ok r =>
        match readAll read ((a :: as).drop r.advance) with
        | .error e => .error e
        | .ok (rs, rest) => .ok (r :: rs, rest)
termination_by buf => buf.length
decreasing_by
  have := r.advance_pos
  simp only [List.length_drop, List.length_cons]
  omega

/-- Reads fields up to an item that stops the list, and says how far it has gone. A field
reader gets the item that names the field, and says how many items it has taken after it. -/
def readFields (field : α → List α → σ → Except ε (σ × ℕ)) : List α → σ → Except ε (σ × ℕ)
  | [], _ => .error fault
  | c :: p, s =>
    if stop c then .ok (s, 1)
    else
      match field c p s with
      | .error e => .error e
      | .ok (s, n) =>
        match readFields field (p.drop n) s with
        | .error e => .error e
        | .ok (s, m) => .ok (s, 1 + n + m)
termination_by buf => buf.length
decreasing_by
  simp only [List.length_drop, List.length_cons]
  omega

end

variable {fault : ε} {stop : α → Bool} {read : List α → Except ε (Found β)}
variable {field : α → List α → σ → Except ε (σ × ℕ)} {s t u : σ} {bs cs rest : List α} {c z : α}

/-- Records in front of a buffer are read first. -/
theorem readAll_append {γ : Type} {encode : γ → List α} {found : γ → Found β} {xs : List γ}
    (hfront : ∀ x ∈ xs, ∃ a as, encode x = a :: as ∧ stop a = false)
    (hread : ∀ x ∈ xs, ∀ rest, read (encode x ++ rest) = .ok (found x))
    (hadvance : ∀ x ∈ xs, (found x).advance = (encode x).length) (buf : List α) :
    readAll fault stop read (xs.flatMap encode ++ buf) =
      (readAll fault stop read buf).map fun out => (xs.map found ++ out.1, out.2) := by
  induction xs with
  | nil =>
    rw [List.flatMap_nil, List.nil_append]
    cases readAll fault stop read buf <;> rfl
  | cons x xs ih =>
    have hrest := ih (fun y hy => hfront y (List.mem_cons_of_mem _ hy))
      (fun y hy => hread y (List.mem_cons_of_mem _ hy))
      (fun y hy => hadvance y (List.mem_cons_of_mem _ hy))
    obtain ⟨a, as, hx, ha⟩ := hfront x List.mem_cons_self
    have hr := hread x List.mem_cons_self (xs.flatMap encode ++ buf)
    have hn := hadvance x List.mem_cons_self
    rw [List.flatMap_cons, List.append_assoc, List.map_cons]
    have hdrop : (encode x ++ (xs.flatMap encode ++ buf)).drop (found x).advance =
        xs.flatMap encode ++ buf := by
      rw [hn, List.drop_left]
    rw [hx, List.cons_append] at hr hdrop ⊢
    rw [readAll, if_neg (by rw [ha]; exact Bool.false_ne_true), hr]
    simp only
    rw [hdrop, hrest]
    cases readAll fault stop read buf <;> rfl

/-- Records that were written one after the other are read back one after the other. -/
theorem readAll_flatMap {γ : Type} {encode : γ → List α} {found : γ → Found β} {xs : List γ}
    (hfront : ∀ x ∈ xs, ∃ a as, encode x = a :: as ∧ stop a = false)
    (hread : ∀ x ∈ xs, ∀ rest, read (encode x ++ rest) = .ok (found x))
    (hadvance : ∀ x ∈ xs, (found x).advance = (encode x).length) (hz : stop z) :
    readAll fault stop read (xs.flatMap encode ++ z :: rest) = .ok (xs.map found, z :: rest) := by
  rw [readAll_append hfront hread hadvance, readAll, if_pos hz]
  simp only [Except.map, List.append_nil]

/-! ### Fields -/

/-- Reading `bs` leads from `s` to `t`, whatever comes after. -/
def Updates (fault : ε) (stop : α → Bool) (field : α → List α → σ → Except ε (σ × ℕ))
    (bs : List α) (s t : σ) : Prop :=
  ∀ rest, readFields fault stop field (bs ++ rest) s =
    (readFields fault stop field rest t).map fun out => (out.1, bs.length + out.2)

theorem updates_nil (s : σ) : Updates fault stop field [] s s := by
  intro rest
  cases h : readFields fault stop field rest s with
  | error e => rw [List.nil_append, h]; rfl
  | ok out => simp [h, Except.map]

theorem Updates.append (h : Updates fault stop field bs s t) (h' : Updates fault stop field cs t u) :
    Updates fault stop field (bs ++ cs) s u := by
  intro rest
  rw [List.append_assoc, h, h']
  cases readFields fault stop field rest u with
  | error e => rfl
  | ok out => simp only [Except.map, List.length_append, Nat.add_assoc]

theorem updates_field (hc : stop c = false)
    (h : ∀ rest, field c (bs ++ rest) s = .ok (t, bs.length)) :
    Updates fault stop field (c :: bs) s t := by
  intro rest
  rw [List.cons_append, readFields, if_neg (by rw [hc]; exact Bool.false_ne_true), h]
  simp only [List.drop_left]
  cases readFields fault stop field rest t with
  | error e => rfl
  | ok out => simp only [Except.map, List.length_cons, Nat.add_comm 1]

/-- Fields that lead from `s` to `t` are read up to the item that stops the list. -/
theorem Updates.readFields_eq (h : Updates fault stop field bs s t) (hz : stop z)
    (rest : List α) :
    readFields fault stop field (bs ++ z :: rest) s = .ok (t, bs.length + 1) := by
  rw [h, readFields, if_pos hz]
  rfl

end Records
