import OpenADK.Cfgfs.RoundTrip

/-!
# Data that can be read

`ft_creatm` has no end pointer. It stays inside its buffer exactly if the bytes are records up to
an empty name, or records and the beginning of one up to an attribute that it does not know.
-/

namespace OpenADK.Cfgfs
open LittleEndian Records
variable {buf p rest : Bytes} {a b : Attributes} {c : UInt8} {n : ℕ}

def attributeSize (c : UInt8) : Option ℕ :=
  if c = 0x01 ∨ c = 0x02 ∨ c = 0x03 ∨ c = 0x04 ∨ c = 0x05 then some 0
  else if c = 103 ∨ c = 105 ∨ c = 117 ∨ c = 115 then some 1 -- g i u s
  else if c = 73 ∨ c = 109 then some 2 -- I m
  else if c = 83 then some 3 -- S
  else if c = 0x10 ∨ c = 71 ∨ c = 77 ∨ c = 85 then some 4 -- G M U
  else none

structure Attribute where
  code : UInt8
  bytes : Bytes
  code_ne : code ≠ 0
  size_eq : attributeSize code = some bytes.length

namespace Attribute

def encode (x : Attribute) : Bytes := x.code :: x.bytes

def apply (a : Attributes) (x : Attribute) : Attributes :=
  ((creatAttribute x.code x.bytes a).map Prod.fst).toOption.getD a

end Attribute

def dataSize (a : Attributes) : ℕ := if a.type = .other ∨ a.type = .dir then 0 else a.size

structure Record where
  name : Bytes
  fields : List Attribute
  data : Bytes
  name_ne : name ≠ []
  name_nul : 0 ∉ name
  data_length : data.length = dataSize (fields.foldl Attribute.apply {})

def Record.encode (r : Record) : Bytes :=
  r.name ++ 0 :: (r.fields.flatMap Attribute.encode ++ 0 :: r.data)

/-- Where the reading ends: at an empty name, or at an attribute that is not known. -/
inductive Ends : Bytes → Prop
  | final (rest : Bytes) : Ends (0 :: rest)
  | unknown (name : Bytes) (fields : List Attribute) (c : UInt8) (rest : Bytes)
      (hname : name ≠ []) (hnul : 0 ∉ name) (hc : c ≠ 0) (hunknown : attributeSize c = none) :
      Ends (name ++ 0 :: (fields.flatMap Attribute.encode ++ c :: rest))

def WellFormed (buf : Bytes) : Prop :=
  ∃ (records : List Record) (tail : Bytes), Ends tail ∧ buf = records.flatMap Record.encode ++ tail

/-! ### Attributes -/

theorem fetch_of_lt {k : ℕ} (h : p.length < k) : fetch k p = .error .beyondBuffer := if_pos h

theorem fetch_append {k : ℕ} (h : p.length = k) : fetch k (p ++ rest) = fetch k p := by
  have htake := @List.take_left _ p rest
  rw [h] at htake
  rw [fetch, fetch, if_neg (by rw [List.length_append]; omega), if_neg (by omega), load, load,
    htake, List.take_of_length_le h.le]

/-- An attribute is not known, or its bytes are skipped, or they are fetched. -/
theorem creatAttribute_cases (c : UInt8) :
    (attributeSize c = none ∧ ∀ p a, creatAttribute c p a = .error (.unknownAttribute c)) ∨
      ∃ n, attributeSize c = some n ∧ ((∃ w : Attributes → Attributes, ∀ p a,
        creatAttribute c p a = .ok (w a, n)) ∨
      ∃ w : Attributes → ℕ → Attributes, ∀ p a,
        creatAttribute c p a = (fetch n p).map fun (x, n) => (w a x, n)) := by
  by_cases hc : c ∈ [0x01, 0x02, 0x03, 0x04, 0x05, 105, 73]
  · simp only [List.mem_cons, List.not_mem_nil, or_false] at hc
    rcases hc with rfl | rfl | rfl | rfl | rfl | rfl | rfl <;>
      exact .inr ⟨_, rfl, .inl ⟨_, fun p a => rfl⟩⟩
  · by_cases hfetch : c ∈ [0x10, 103, 71, 109, 77, 117, 85, 115, 83]
    · simp only [List.mem_cons, List.not_mem_nil, or_false] at hfetch
      rcases hfetch with rfl | rfl | rfl | rfl | rfl | rfl | rfl | rfl | rfl
      · exact .inr ⟨4, rfl, .inr ⟨fun a x => { a with mtime := x }, fun p a => rfl⟩⟩
      · exact .inr ⟨1, rfl, .inr ⟨fun a x => { a with gid := x }, fun p a => rfl⟩⟩
      · exact .inr ⟨4, rfl, .inr ⟨fun a x => { a with gid := x }, fun p a => rfl⟩⟩
      · exact .inr ⟨2, rfl, .inr ⟨fun a x => { a with mode := x }, fun p a => rfl⟩⟩
      · exact .inr ⟨4, rfl, .inr ⟨fun a x => { a with mode := x }, fun p a => rfl⟩⟩
      · exact .inr ⟨1, rfl, .inr ⟨fun a x => { a with uid := x }, fun p a => rfl⟩⟩
      · exact .inr ⟨4, rfl, .inr ⟨fun a x => { a with uid := x }, fun p a => rfl⟩⟩
      · exact .inr ⟨1, rfl, .inr ⟨fun a x => { a with size := x }, fun p a => rfl⟩⟩
      · exact .inr ⟨3, rfl, .inr ⟨fun a x => { a with size := x }, fun p a => rfl⟩⟩
    · simp only [List.mem_cons, List.not_mem_nil, or_false, not_or] at hc hfetch
      refine .inl ⟨by simp [attributeSize, hc, hfetch], fun p a => ?_⟩
      simp [creatAttribute, hc, hfetch]

/-- Reading an attribute that is whole. -/
theorem creatAttribute_attribute (x : Attribute) (rest : Bytes) (a : Attributes) :
    creatAttribute x.code (x.bytes ++ rest) a = .ok (x.apply a, x.bytes.length) := by
  rcases creatAttribute_cases x.code with ⟨hunknown, -⟩ | ⟨n, hsize, ⟨w, hw⟩ | ⟨w, hw⟩⟩
  · rw [x.size_eq] at hunknown
    cases hunknown
  · rw [x.size_eq, Option.some.injEq] at hsize
    rw [hw, hsize, Attribute.apply, hw]
    rfl
  · rw [x.size_eq, Option.some.injEq] at hsize
    have hfetch : fetch n x.bytes = .ok (load n x.bytes, n) := by
      rw [fetch, if_neg (by omega)]
    rw [hw, Attribute.apply, hw, fetch_append hsize, hfetch, hsize]
    rfl

/-- Reading an attribute that the buffer may cut. -/
theorem creatAttribute_of_size (hsize : attributeSize c = some n) (p : Bytes) (a : Attributes) :
    (n ≤ p.length ∧ ∃ b, creatAttribute c p a = .ok (b, n)) ∨
      (p.length < n ∧ (creatAttribute c p a = .error .beyondBuffer ∨
        ∃ b, creatAttribute c p a = .ok (b, n))) := by
  rcases creatAttribute_cases c with ⟨hunknown, -⟩ | ⟨m, hm, ⟨w, hw⟩ | ⟨w, hw⟩⟩
  · rw [hsize] at hunknown
    cases hunknown
  · rw [hsize, Option.some.injEq] at hm
    rcases le_or_gt n p.length with hle | hlt
    · exact .inl ⟨hle, w a, hm ▸ hw p a⟩
    · exact .inr ⟨hlt, .inr ⟨w a, hm ▸ hw p a⟩⟩
  · rw [hsize, Option.some.injEq] at hm
    rcases le_or_gt n p.length with hle | hlt
    · refine .inl ⟨hle, w a (load n p), ?_⟩
      rw [hw, ← hm, fetch, if_neg (by omega)]
      rfl
    · refine .inr ⟨hlt, .inl ?_⟩
      rw [hw, ← hm, fetch_of_lt hlt]
      rfl

/-- What has been read is an attribute, or the buffer has ended in it. -/
theorem exists_attribute (hc : c ≠ 0) (hok : creatAttribute c p a = .ok (b, n)) :
    p.length < n ∨
      ∃ x : Attribute, c :: p = x.encode ++ p.drop n ∧ x.apply a = b ∧ x.bytes.length = n := by
  rcases creatAttribute_cases c with ⟨-, hunknown⟩ | ⟨m, hsize, -⟩
  · rw [hunknown] at hok
    cases hok
  · have hn : m = n := by
      rcases creatAttribute_of_size hsize p a with ⟨-, b', h⟩ | ⟨-, h | ⟨b', h⟩⟩ <;>
        rw [h] at hok <;> cases hok
      · rfl
      · rfl
    subst hn
    rcases lt_or_ge p.length m with hlt | hle
    · exact .inl hlt
    · have hlen : (p.take m).length = m := List.length_take_of_le hle
      let x : Attribute := ⟨c, p.take m, hc, hsize.trans (congrArg some hlen.symm)⟩
      have hread := creatAttribute_attribute x (p.drop m) a
      have hwhole : x.bytes ++ p.drop m = p := List.take_append_drop m p
      rw [hwhole, show x.code = c from rfl, hok, Except.ok.injEq, Prod.mk.injEq] at hread
      refine .inr ⟨x, ?_, hread.1.symm, hlen⟩
      rw [Attribute.encode, List.cons_append, hwhole]

/-! ### Lists of attributes -/

/-- The attributes of an entry are read, or one is not known, or the buffer ends. -/
theorem readFields_cases (p : Bytes) (a : Attributes) :
    (∃ (fields : List Attribute) (rest : Bytes), p = fields.flatMap Attribute.encode ++ 0 :: rest ∧
      readFields .beyondBuffer isNul creatAttribute p a =
        .ok (fields.foldl Attribute.apply a, (fields.flatMap Attribute.encode).length + 1)) ∨
    (∃ (fields : List Attribute) (c : UInt8) (rest : Bytes),
      p = fields.flatMap Attribute.encode ++ c :: rest ∧ c ≠ 0 ∧ attributeSize c = none ∧
        readFields .beyondBuffer isNul creatAttribute p a = .error (.unknownAttribute c)) ∨
    readFields .beyondBuffer isNul creatAttribute p a = .error .beyondBuffer := by
  fun_induction readFields .beyondBuffer isNul creatAttribute p a with
  | case1 a => exact .inr (.inr rfl)
  | case2 c p a hstop =>
    have hc : c = 0 := of_decide_eq_true hstop
    exact .inl ⟨[], p, by rw [hc]; rfl, rfl⟩
  | case3 c p a hstop e he =>
    have hc : c ≠ 0 := fun h => hstop (decide_eq_true h)
    rcases creatAttribute_cases c with ⟨hsize, hunknown⟩ | ⟨m, hsize, -⟩
    · rw [hunknown] at he
      cases he
      exact .inr (.inl ⟨[], c, p, rfl, hc, hsize, rfl⟩)
    · rcases creatAttribute_of_size hsize p a with ⟨-, b', h⟩ | ⟨-, h | ⟨b', h⟩⟩ <;>
        rw [h] at he <;> cases he
      exact .inr (.inr rfl)
  | case4 c p a hstop b n hok e hrest ih =>
    have hc : c ≠ 0 := fun h => hstop (decide_eq_true h)
    rw [hrest] at ih
    rcases exists_attribute hc hok with hlt | ⟨x, hx, -, -⟩
    · rw [List.drop_of_length_le hlt.le, readFields] at hrest
      cases hrest
      exact .inr (.inr rfl)
    · rcases ih with ⟨_, _, _, h⟩ | ⟨fields, d, rest, hp, hd, hunknown, h⟩ | h
      · cases h
      · refine .inr (.inl ⟨x :: fields, d, rest, ?_, hd, hunknown, h⟩)
        rw [hx, hp, List.flatMap_cons, List.append_assoc]
      · exact .inr (.inr h)
  | case5 c p a hstop b n hok t m hrest ih =>
    have hc : c ≠ 0 := fun h => hstop (decide_eq_true h)
    rw [hrest] at ih
    rcases exists_attribute hc hok with hlt | ⟨x, hx, hb, hn⟩
    · rw [List.drop_of_length_le hlt.le, readFields] at hrest
      cases hrest
    · rcases ih with ⟨fields, rest, hp, h⟩ | ⟨_, _, _, _, _, _, h⟩ | h
      · cases h
        refine .inl ⟨x :: fields, rest, ?_, ?_⟩
        · rw [hx, hp, List.flatMap_cons, List.append_assoc]
        · rw [List.foldl_cons, hb, List.flatMap_cons, List.length_append, Attribute.encode,
            List.length_cons, hn]
          congr 2
          omega
      · cases h
      · cases h

theorem updates_fields (fields : List Attribute) (a : Attributes) :
    Updates .beyondBuffer isNul creatAttribute (fields.flatMap Attribute.encode) a
      (fields.foldl Attribute.apply a) := by
  induction fields generalizing a with
  | nil => exact updates_nil a
  | cons x fields ih =>
    have hfield : Updates .beyondBuffer isNul creatAttribute x.encode a (x.apply a) :=
      updates_field (isNul_eq_false_of_ne x.code_ne) fun rest => creatAttribute_attribute x rest a
    exact hfield.append (ih (x.apply a))

/-! ### Entries -/

namespace Record

def created (r : Record) : Created :=
  let a := r.fields.foldl Attribute.apply {}
  { pathname := r.name
    type := a.type
    uid := a.uid
    gid := a.gid
    mode := if a.type = .symlink then 0 else a.mode
    mtime := if a.type = .symlink then 0 else a.mtime
    data := r.data }

theorem encode_length_pos (r : Record) : 0 < r.encode.length := by
  rw [encode, List.length_append, List.length_cons]
  omega

def found (r : Record) : Found Created := ⟨r.created, r.encode.length, r.encode_length_pos⟩

theorem encode_front (r : Record) : ∃ c cs, r.encode = c :: cs ∧ isNul c = false := by
  obtain ⟨name, fields, data, hne, hnul, -⟩ := r
  cases name with
  | nil => exact absurd rfl hne
  | cons c name =>
    refine ⟨c, _, rfl, isNul_eq_false_of_ne ?_⟩
    rintro rfl
    exact hnul List.mem_cons_self

theorem length_encode (r : Record) : r.encode.length =
    r.name.length + 1 + ((r.fields.flatMap Attribute.encode).length + 1) + r.data.length := by
  simp only [encode, List.length_append, List.length_cons]
  omega

theorem ftCreat_encode (r : Record) (rest : Bytes) : ftCreat (r.encode ++ rest) = .ok r.found := by
  have hfields := (updates_fields r.fields {}).readFields_eq (z := 0) rfl (r.data ++ rest)
  have hbuf : r.encode ++ rest =
      r.name ++ 0 :: (r.fields.flatMap Attribute.encode ++ 0 :: (r.data ++ rest)) := by
    simp only [encode, List.append_assoc, List.cons_append]
  have hdrop : (r.encode ++ rest).drop (r.name.length + 1) =
      r.fields.flatMap Attribute.encode ++ 0 :: (r.data ++ rest) := by
    rw [hbuf, ← List.drop_drop, List.drop_left]
    rfl
  have hdata : ((r.encode ++ rest).drop
      (r.name.length + 1 + ((r.fields.flatMap Attribute.encode).length + 1))) = r.data ++ rest := by
    rw [← List.drop_drop, hdrop, ← List.drop_drop, List.drop_left]
    rfl
  have hlen := r.length_encode
  have hsize := r.data_length
  unfold dataSize at hsize
  unfold ftCreat
  rw [hbuf, cString_append r.name_nul, ← hbuf]
  simp only [hdrop, hfields]
  rw [if_neg (by rw [List.length_append]; omega)]
  simp only [hdata, ← hsize, List.take_left, found, created, hlen]

end Record

theorem Ends.ftCreat_eq {name : Bytes} {fields : List Attribute} (hnul : 0 ∉ name) (hc : c ≠ 0)
    (hunknown : attributeSize c = none) :
    ftCreat (name ++ 0 :: (fields.flatMap Attribute.encode ++ c :: rest)) =
      .error (.unknownAttribute c) := by
  have hdrop : (name ++ 0 :: (fields.flatMap Attribute.encode ++ c :: rest)).drop
      (name.length + 1) = fields.flatMap Attribute.encode ++ c :: rest := by
    rw [← List.drop_drop, List.drop_left]
    rfl
  have hstop : readFields .beyondBuffer isNul creatAttribute (c :: rest)
      (fields.foldl Attribute.apply {}) = .error (.unknownAttribute c) := by
    rcases creatAttribute_cases c with ⟨-, h⟩ | ⟨m, hsize, -⟩
    · rw [readFields, if_neg (by rw [isNul_eq_false_of_ne hc]; exact Bool.false_ne_true), h]
    · rw [hunknown] at hsize
      cases hsize
  have hfields := updates_fields fields {} (c :: rest)
  rw [hstop] at hfields
  rw [ftCreat, cString_append hnul]
  simp only [hdrop, hfields]
  rfl

/-- A buffer that does not begin with a NUL begins with a record, or the reading ends in it. -/
theorem ftCreat_cases (hfront : buf.head? ≠ some 0) :
    (∃ (r : Record) (rest : Bytes), buf = r.encode ++ rest) ∨ Ends buf ∨
      ftCreat buf = .error .beyondBuffer := by
  by_cases hmem : 0 ∈ buf
  · have hsplit : ∃ name rest, buf = name ++ 0 :: rest ∧ 0 ∉ name :=
      List.eq_append_cons_of_mem hmem
    obtain ⟨name, p, hbuf, hnul⟩ := hsplit
    have hname : name ≠ [] := by
      rintro rfl
      rw [hbuf] at hfront
      exact hfront rfl
    have hdrop : buf.drop (name.length + 1) = p := by
      rw [hbuf, ← List.drop_drop, List.drop_left]
      rfl
    rcases readFields_cases p {} with ⟨fields, rest, hp, hread⟩ | ⟨fields, c, rest, hp, hc, hu, -⟩ |
      hread
    · by_cases hsize : dataSize (fields.foldl Attribute.apply {}) ≤ rest.length
      · let r : Record := ⟨name, fields, rest.take _, hname, hnul, List.length_take_of_le hsize⟩
        refine .inl ⟨r, rest.drop (dataSize (fields.foldl Attribute.apply {})), ?_⟩
        rw [hbuf, hp]
        simp only [Record.encode, r, List.append_assoc, List.cons_append, List.take_append_drop]
      · have hlen : buf.length =
            name.length + 1 + ((fields.flatMap Attribute.encode).length + 1) + rest.length := by
          rw [hbuf, hp]
          simp only [List.length_append, List.length_cons]
          omega
        refine .inr (.inr ?_)
        unfold dataSize at hsize
        rw [ftCreat, hbuf, cString_append hnul, ← hbuf]
        simp only [hdrop, hread]
        rw [if_pos (by omega)]
    · rw [hbuf, hp]
      exact .inr (.inl (.unknown name fields c rest hname hnul hc hu))
    · refine .inr (.inr ?_)
      rw [ftCreat, hbuf, cString_append hnul, ← hbuf]
      simp only [hdrop, hread]
  · refine .inr (.inr ?_)
    rw [ftCreat, cString, if_neg hmem]

/-! ### The whole buffer -/

theorem WellFormed.of_encode (r : Record) (h : WellFormed rest) : WellFormed (r.encode ++ rest) := by
  obtain ⟨records, tail, htail, rfl⟩ := h
  exact ⟨r :: records, tail, htail, by rw [List.flatMap_cons, List.append_assoc]⟩

theorem WellFormed.of_ftCreat {cs : Bytes} {r : Found Created} (hc : c ≠ 0)
    (hr : ftCreat (c :: cs) = .ok r) (h : WellFormed ((c :: cs).drop r.advance)) :
    WellFormed (c :: cs) := by
  rcases @ftCreat_cases (c :: cs) (by simpa using hc) with
    ⟨r', rest, hbuf⟩ | hends | hfault
  · rw [hbuf, r'.ftCreat_encode] at hr
    cases hr
    rw [hbuf, Record.found, List.drop_left] at h
    rw [hbuf]
    exact h.of_encode r'
  · exact ⟨[], c :: cs, hends, rfl⟩
  · rw [hfault] at hr
    cases hr

theorem Ends.creatEntries_ne {tail : Bytes} (h : Ends tail) :
    creatEntries tail ≠ .error .beyondBuffer := by
  cases h with
  | final rest =>
    rw [creatEntries, readAll, if_pos (by decide)]
    simp
  | unknown name fields c rest hname hnul hc hunknown =>
    obtain ⟨d, name', rfl⟩ := List.exists_cons_of_ne_nil hname
    have hd : isNul d = false := isNul_eq_false_of_ne fun h => hnul (h ▸ List.mem_cons_self)
    have hread := @Ends.ftCreat_eq rest c _ fields hnul hc hunknown
    rw [List.cons_append] at hread ⊢
    rw [creatEntries, readAll, if_neg (by rw [hd]; exact Bool.false_ne_true), hread]
    simp

theorem creatEntries_ne_iff (buf : Bytes) :
    creatEntries buf ≠ .error .beyondBuffer ↔ WellFormed buf := by
  constructor
  · intro h
    unfold creatEntries at h
    fun_induction readAll .beyondBuffer isNul ftCreat buf with
    | case1 => exact absurd rfl h
    | case2 c cs hstop =>
      have hc : c = 0 := of_decide_eq_true hstop
      exact ⟨[], c :: cs, hc ▸ .final cs, rfl⟩
    | case3 c cs hstop e he =>
      have hc : c ≠ 0 := fun hzero => hstop (decide_eq_true hzero)
      rcases @ftCreat_cases (c :: cs) (by simpa using hc) with
        ⟨r, rest, hbuf⟩ | hends | hfault
      · rw [hbuf, r.ftCreat_encode] at he
        cases he
      · exact ⟨[], c :: cs, hends, rfl⟩
      · rw [hfault] at he
        cases he
        exact absurd rfl h
    | case4 c cs hstop r hr e hrest ih =>
      exact .of_ftCreat (fun hzero => hstop (decide_eq_true hzero)) hr (ih (hrest ▸ h))
    | case5 c cs hstop r hr rs rest hrest ih =>
      exact .of_ftCreat (fun hzero => hstop (decide_eq_true hzero)) hr (ih (hrest ▸ nofun))
  · rintro ⟨records, tail, htail, rfl⟩
    have happend : readAll .beyondBuffer isNul ftCreat (records.flatMap Record.encode ++ tail) =
        (readAll .beyondBuffer isNul ftCreat tail).map
          fun out => (records.map Record.found ++ out.1, out.2) :=
      readAll_append (fun r _ => r.encode_front) (fun r _ rest => r.ftCreat_encode rest)
        (fun r _ => rfl) tail
    have hne := htail.creatEntries_ne
    rw [creatEntries] at hne ⊢
    rw [happend]
    cases hread : readAll .beyondBuffer isNul ftCreat tail with
    | error e =>
      rw [hread] at hne
      exact fun h => hne (congrArg Except.error (Except.error.inj h))
    | ok out => exact nofun

/-- `ft_creatm` stays inside the buffer if and only if it is well formed. -/
theorem ftCreatm_ne_iff (buf : Bytes) : ftCreatm buf ≠ .error .beyondBuffer ↔ WellFormed buf := by
  rw [← creatEntries_ne_iff, ftCreatm]
  cases creatEntries buf with
  | error e => exact not_congr ⟨fun h => congrArg Except.error (Except.error.inj h),
      fun h => congrArg Except.error (Except.error.inj h)⟩
  | ok out => exact iff_of_true (by simp [Except.map]) (by simp)

end OpenADK.Cfgfs
