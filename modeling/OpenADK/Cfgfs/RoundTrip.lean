import OpenADK.Cfgfs.Unpack

/-!
# The inner filesystem is read back

Both readers take a packed entry for what it is and stop at the final NUL.
-/

namespace OpenADK.Cfgfs
open LittleEndian Records
variable {e : Entry} {es : List Entry} {buf rest : Bytes}

namespace Entry

def created (e : Entry) : Created where
  pathname := e.pathname
  type := e.etype
  uid := e.stat.uid.toNat
  gid := e.stat.gid.toNat
  mode := e.mode
  mtime := (e.mtime % 2 ^ 32).toNat
  data := e.data

theorem mode_lt (e : Entry) : e.mode < 256 ^ 4 := by
  unfold mode
  split
  · decide
  · exact e.stat.mode.toNat_lt

theorem packed_length_pos (e : Entry) : 0 < e.packed.length := by
  unfold packed
  rw [List.length_append, List.length_cons]
  omega

def found (e : Entry) : Found Created := ⟨e.created, e.packed.length, e.packed_length_pos⟩

end Entry

theorem cString_append {p : Bytes} (hp : 0 ∉ p) : cString (p ++ 0 :: rest) = .ok p := by
  have hmem : (0 : UInt8) ∈ p ++ 0 :: rest := List.mem_append_right _ List.mem_cons_self
  rw [cString, if_pos hmem, List.takeWhile_append_of_pos, List.takeWhile_cons_of_neg (by decide),
    List.append_nil]
  intro c hc
  exact decide_eq_true fun h => hp (h ▸ hc)

theorem fetch_toBytes (k : ℕ) (x : ℤ) :
    fetch k (toBytes k x ++ rest) = .ok (ofBytes (toBytes k x), k) := by
  have hlen : ¬(toBytes k x ++ rest).length < k := by
    rw [List.length_append, length_toBytes]
    omega
  have htake := @List.take_left _ (toBytes k x) rest
  rw [length_toBytes] at htake
  rw [fetch, if_neg hlen, load, htake]

/-! ### Attributes -/

section
variable {σ : Type} {field : UInt8 → Bytes → σ → Except Fault (σ × ℕ)} {w : ℕ → σ → σ} {s : σ}

/-- A number that a field reader loads. -/
theorem updates_toBytes {c : UInt8} {k x : ℕ} (hc : isNul c = false)
    (hfield : ∀ p, field c p s = (fetch k p).map fun (x, n) => (w x s, n)) (hx : x < 256 ^ k) :
    Updates .beyondBuffer isNul field (c :: toBytes k x) s (w x s) := by
  refine updates_field hc fun rest => ?_
  rw [hfield, fetch_toBytes, ofBytes_toBytes_of_lt hx, length_toBytes]
  rfl

/-- An attribute in its short or long form. -/
theorem updates_attributeBytes (field : UInt8 → Bytes → σ → Except Fault (σ × ℕ)) (w : ℕ → σ → σ)
    {upper lower : Char} {long short limit x : ℕ}
    (hupper : isNul (UInt8.ofNat upper.toNat) = false)
    (hlower : isNul (UInt8.ofNat lower.toNat) = false)
    (hlong : ∀ p, field (UInt8.ofNat upper.toNat) p s = (fetch long p).map fun (x, n) => (w x s, n))
    (hshort : ∀ p, field (UInt8.ofNat lower.toNat) p s =
      (fetch short p).map fun (x, n) => (w x s, n))
    (hx : x < 256 ^ long) (hlimit : limit < 256 ^ short) :
    Updates .beyondBuffer isNul field (attributeBytes upper lower long short limit x) s
      (if x = 0 then s else w x s) := by
  unfold attributeBytes
  by_cases hgt : x > limit
  · rw [if_pos hgt, if_neg (by omega)]
    exact updates_toBytes hupper hlong hx
  · rw [if_neg hgt]
    by_cases hzero : x = 0
    · rw [if_neg (not_not.mpr hzero), if_pos hzero]
      exact updates_nil s
    · rw [if_pos hzero, if_neg hzero]
      exact updates_toBytes hlower hshort (by omega)

/-- A variable that is zero already need not be written. -/
theorem updates_of_zero {field : UInt8 → Bytes → σ → Except Fault (σ × ℕ)} {x : ℕ} {bs : Bytes}
    (hzero : w 0 s = s)
    (h : Updates .beyondBuffer isNul field bs s (if x = 0 then s else w x s)) :
    Updates .beyondBuffer isNul field bs s (w x s) := by
  by_cases hx : x = 0
  · rw [if_pos hx] at h
    rwa [hx, hzero]
  · rwa [if_neg hx] at h

theorem updates_mtimeBytes (field : UInt8 → Bytes → σ → Except Fault (σ × ℕ)) (w : ℕ → σ → σ)
    (mtime : ℤ) (hfield : ∀ p, field 0x10 p s = (fetch 4 p).map fun (x, n) => (w x s, n)) :
    Updates .beyondBuffer isNul field (mtimeBytes mtime) s
      (if mtime = 0 then s else w (mtime % 2 ^ 32).toNat s) := by
  unfold mtimeBytes
  by_cases hzero : mtime = 0
  · rw [if_neg (not_not.mpr hzero), if_pos hzero]
    exact updates_nil s
  · rw [if_pos hzero, if_neg hzero]
    refine updates_field (by decide) fun rest => ?_
    have hbytes : ofBytes (toBytes 4 mtime) = (mtime % 2 ^ 32).toNat := by
      have h := ofBytes_toBytes 4 mtime
      omega
    rw [hfield, fetch_toBytes, hbytes, length_toBytes]
    rfl

end

theorem isNul_eq_false_of_ne {c : UInt8} (h : c ≠ 0) : isNul c = false := decide_eq_false h

/-- The switch of `ft_creat` reads the attributes of an entry into its variables. -/
theorem creatAttribute_updates (hpackable : e.packable) (hsize : e.size < 256 ^ 3) :
    Updates .beyondBuffer isNul creatAttribute e.attributes {}
      { type := e.etype, size := e.size, uid := e.stat.uid.toNat, gid := e.stat.gid.toNat,
        mode := e.mode, mtime := (e.mtime % 2 ^ 32).toNat } := by
  have hmode : e.mode < 256 ^ 4 := e.mode_lt
  have htype : Updates .beyondBuffer isNul creatAttribute (typeBytes e.etype) {}
      { type := e.etype } := by
    unfold Entry.packable at hpackable
    cases h : e.etype with
    | symlink => exact updates_field (by decide) fun _ => rfl
    | dir => exact updates_field (by decide) fun _ => rfl
    | file => exact updates_nil _
    | other => simp [h] at hpackable
  have hmtime : Updates .beyondBuffer isNul creatAttribute (mtimeBytes e.mtime)
      { type := e.etype } { type := e.etype, mtime := (e.mtime % 2 ^ 32).toNat } := by
    have h := updates_mtimeBytes (s := { type := e.etype }) creatAttribute
      (fun x a => { a with mtime := x }) e.mtime fun _ => rfl
    by_cases hzero : e.mtime = 0
    · rw [if_pos hzero] at h
      rwa [hzero] at h ⊢
    · rwa [if_neg hzero] at h
  have hgid (a : Attributes) (ha : ({ a with gid := 0 } : Attributes) = a) :
      Updates .beyondBuffer isNul creatAttribute (attributeBytes 'G' 'g' 4 1 0xFF e.stat.gid.toNat) a
        { a with gid := e.stat.gid.toNat } := by
    refine updates_of_zero (w := fun x (a : Attributes) => { a with gid := x }) ha ?_
    exact updates_attributeBytes creatAttribute (fun x a => { a with gid := x }) (by decide)
      (by decide) (fun _ => rfl) (fun _ => rfl) e.stat.gid.toNat_lt (by decide)
  have hmode (a : Attributes) (ha : ({ a with mode := 0 } : Attributes) = a) :
      Updates .beyondBuffer isNul creatAttribute (attributeBytes 'M' 'm' 4 2 0xFFFF e.mode) a
        { a with mode := e.mode } := by
    refine updates_of_zero (w := fun x (a : Attributes) => { a with mode := x }) ha ?_
    exact updates_attributeBytes creatAttribute (fun x a => { a with mode := x }) (by decide)
      (by decide) (fun _ => rfl) (fun _ => rfl) hmode (by decide)
  have huid (a : Attributes) (ha : ({ a with uid := 0 } : Attributes) = a) :
      Updates .beyondBuffer isNul creatAttribute (attributeBytes 'U' 'u' 4 1 0xFF e.stat.uid.toNat) a
        { a with uid := e.stat.uid.toNat } := by
    refine updates_of_zero (w := fun x (a : Attributes) => { a with uid := x }) ha ?_
    exact updates_attributeBytes creatAttribute (fun x a => { a with uid := x }) (by decide)
      (by decide) (fun _ => rfl) (fun _ => rfl) e.stat.uid.toNat_lt (by decide)
  have hsize (a : Attributes) (ha : ({ a with size := 0 } : Attributes) = a) :
      Updates .beyondBuffer isNul creatAttribute (attributeBytes 'S' 's' 3 1 0xFF e.size) a
        { a with size := e.size } := by
    refine updates_of_zero (w := fun x (a : Attributes) => { a with size := x }) ha ?_
    exact updates_attributeBytes creatAttribute (fun x a => { a with size := x }) (by decide)
      (by decide) (fun _ => rfl) (fun _ => rfl) hsize (by decide)
  exact htype.append (hmtime.append ((hgid _ rfl).append ((hmode _ rfl).append
    ((huid _ rfl).append (hsize _ rfl)))))

/-- The type that `ft_dumpfile` gives an entry: a directory is an entry without data. -/
def dumpType : EntryType → EntryType
  | .dir => .other
  | .other => .other
  | .symlink => .symlink
  | .file => .file

/-- The switch of `ft_dumpfile` finds the type and the size of an entry. -/
theorem dumpAttribute_updates (hpackable : e.packable) (hsize : e.size < 256 ^ 3)
    (lines : List Line) :
    ∃ d : Dump, Updates .beyondBuffer isNul dumpAttribute e.attributes { lines := lines } d ∧
      d.type = dumpType e.etype ∧ d.size = e.size := by
  have hmode : e.mode < 256 ^ 4 := e.mode_lt
  have htype : ∃ d : Dump,
      Updates .beyondBuffer isNul dumpAttribute (typeBytes e.etype) { lines := lines } d ∧
        d.type = dumpType e.etype ∧ d.size = 0 := by
    unfold Entry.packable at hpackable
    cases h : e.etype with
    | symlink => exact ⟨_, updates_field (by decide) fun _ => rfl, rfl, rfl⟩
    | dir => exact ⟨_, updates_field (by decide) fun _ => rfl, rfl, rfl⟩
    | file => exact ⟨_, updates_nil _, rfl, rfl⟩
    | other => simp [h] at hpackable
  have hkeeps : ∀ (d : Dump) (x : ℕ) (l : Line), ∃ d' : Dump,
      (if x = 0 then d else d.print l) = d' ∧ d'.type = d.type ∧ d'.size = d.size := by
    intro d x l
    split_ifs
    · exact ⟨_, rfl, rfl, rfl⟩
    · exact ⟨_, rfl, rfl, rfl⟩
  obtain ⟨d1, h1, ht1, hs1⟩ := htype
  obtain ⟨d2, h2, ht2, hs2⟩ : ∃ d2 : Dump,
      Updates .beyondBuffer isNul dumpAttribute (mtimeBytes e.mtime) d1 d2 ∧
        d2.type = d1.type ∧ d2.size = d1.size := by
    have h := updates_mtimeBytes (s := d1) dumpAttribute (fun x d => d.print (.mtime x)) e.mtime
      fun _ => rfl
    split_ifs at h
    · exact ⟨_, h, rfl, rfl⟩
    · exact ⟨_, h, rfl, rfl⟩
  have h3 := updates_attributeBytes (s := d2) dumpAttribute (fun x d => d.print (.id 71 x))
    (by decide : isNul (UInt8.ofNat 'G'.toNat) = false)
    (by decide : isNul (UInt8.ofNat 'g'.toNat) = false) (fun _ => rfl) (fun _ => rfl)
    e.stat.gid.toNat_lt (by decide : 0xFF < 256 ^ 1)
  obtain ⟨d3, hd3, ht3, hs3⟩ := hkeeps d2 e.stat.gid.toNat (.id 71 e.stat.gid.toNat)
  have h4 := updates_attributeBytes (s := d3) dumpAttribute (fun x d => d.print (.mode x))
    (by decide : isNul (UInt8.ofNat 'M'.toNat) = false)
    (by decide : isNul (UInt8.ofNat 'm'.toNat) = false) (fun _ => rfl) (fun _ => rfl)
    hmode (by decide : 0xFFFF < 256 ^ 2)
  obtain ⟨d4, hd4, ht4, hs4⟩ := hkeeps d3 e.mode (.mode e.mode)
  have h5 := updates_attributeBytes (s := d4) dumpAttribute (fun x d => d.print (.id 85 x))
    (by decide : isNul (UInt8.ofNat 'U'.toNat) = false)
    (by decide : isNul (UInt8.ofNat 'u'.toNat) = false) (fun _ => rfl) (fun _ => rfl)
    e.stat.uid.toNat_lt (by decide : 0xFF < 256 ^ 1)
  obtain ⟨d5, hd5, ht5, hs5⟩ := hkeeps d4 e.stat.uid.toNat (.id 85 e.stat.uid.toNat)
  have h6 := updates_attributeBytes (s := d5) dumpAttribute
    (fun x d => { d.print (.size x) with size := x })
    (by decide : isNul (UInt8.ofNat 'S'.toNat) = false)
    (by decide : isNul (UInt8.ofNat 's'.toNat) = false) (fun _ => rfl) (fun _ => rfl)
    hsize (by decide : 0xFF < 256 ^ 1)
  rw [hd3] at h3
  rw [hd4] at h4
  rw [hd5] at h5
  have hall := h1.append (h2.append (h3.append (h4.append (h5.append h6))))
  have htype : d5.type = dumpType e.etype := by rw [ht5, ht4, ht3, ht2, ht1]
  split_ifs at hall with hzero
  · exact ⟨_, hall, htype, by rw [hs5, hs4, hs3, hs2, hs1, hzero]⟩
  · exact ⟨_, hall, htype, rfl⟩

/-! ### Entries -/

theorem length_packed (e : Entry) :
    e.packed.length = e.pathname.length + 1 + (e.attributes.length + 1) + e.data.length := by
  simp only [Entry.packed, List.length_append, List.length_cons]
  omega

/-- The attributes and the data of a packed entry. -/
theorem packed_drop (e : Entry) (rest : Bytes) :
    (e.packed ++ rest).drop (e.pathname.length + 1) = e.attributes ++ 0 :: (e.data ++ rest) := by
  have hsplit : e.packed ++ rest = (e.pathname ++ [0]) ++ (e.attributes ++ 0 :: (e.data ++ rest)) := by
    simp only [Entry.packed, List.append_assoc, List.cons_append, List.nil_append]
  have hlen : e.pathname.length + 1 = (e.pathname ++ [0]).length := by
    rw [List.length_append, List.length_singleton]
  rw [hsplit, hlen, List.drop_left]

theorem packed_data (e : Entry) (rest : Bytes) :
    ((e.packed ++ rest).drop (e.pathname.length + 1 + (e.attributes.length + 1))).take
      e.data.length = e.data := by
  have hsplit : e.attributes ++ 0 :: (e.data ++ rest) = (e.attributes ++ [0]) ++ (e.data ++ rest) := by
    rw [List.append_assoc, List.singleton_append]
  have hlen : e.attributes.length + 1 = (e.attributes ++ [0]).length := by
    rw [List.length_append, List.length_singleton]
  rw [← List.drop_drop, packed_drop, hsplit, hlen, List.drop_left, List.take_left]

theorem cString_packed (hpath : 0 ∉ e.pathname) (rest : Bytes) :
    cString (e.packed ++ rest) = .ok e.pathname := by
  rw [Entry.packed, List.append_assoc, List.cons_append]
  exact cString_append hpath

/-- `ft_creat` goes over a packed entry and recovers it. -/
theorem ftCreat_packed (hpath : 0 ∉ e.pathname) (hpackable : e.packable)
    (hdata : e.data.length = e.size) (hsize : e.size < 256 ^ 3) (rest : Bytes) :
    ftCreat (e.packed ++ rest) = .ok e.found := by
  have hread := (creatAttribute_updates hpackable hsize).readFields_eq (z := 0)
    (by decide) (e.data ++ rest)
  have hother : e.etype ≠ .other := by simpa [Entry.packable] using hpackable
  have hnone : (if e.etype = .other ∨ e.etype = .dir then 0 else e.size) = e.data.length := by
    rw [hdata]
    split_ifs with h
    · rw [Entry.size, if_pos (h.resolve_left hother)]
    · rfl
  have hlen := length_packed e
  have hbound : ¬(e.packed ++ rest).length <
      e.pathname.length + 1 + (e.attributes.length + 1) + e.data.length := by
    rw [List.length_append]
    omega
  have hmode : (if e.etype = .symlink then 0 else e.mode) = e.mode := by
    unfold Entry.mode
    split_ifs <;> rfl
  have hmtime : (if e.etype = .symlink then 0 else (e.mtime % 2 ^ 32).toNat) =
      (e.mtime % 2 ^ 32).toNat := by
    unfold Entry.mtime
    split_ifs <;> rfl
  unfold ftCreat
  rw [cString_packed hpath]
  simp only [packed_drop, hread, hnone, hmode, hmtime, packed_data]
  rw [if_neg hbound]
  refine congrArg _ (Found.ext rfl ?_)
  exact hlen.symm

/-- `ft_dumpfile` goes over a packed entry. -/
theorem ftDumpfile_packed (hpath : 0 ∉ e.pathname) (hpackable : e.packable)
    (hdata : e.data.length = e.size) (hsize : e.size < 256 ^ 3) :
    ∃ found : Found (List Line), found.advance = e.packed.length ∧
      ∀ rest, ftDumpfile (e.packed ++ rest) = .ok found := by
  obtain ⟨d, hupdates, htype, hdsize⟩ := dumpAttribute_updates hpackable hsize [.name e.pathname]
  have hother : e.etype ≠ .other := by simpa [Entry.packable] using hpackable
  have hnone : (if d.type = .other then 0 else d.size) = e.data.length := by
    rw [hdata, hdsize]
    split_ifs with h
    · have hdir : e.etype = .dir := by
        rw [htype] at h
        cases hetype : e.etype with
        | dir => rfl
        | other => exact absurd hetype hother
        | symlink | file =>
          rw [hetype] at h
          cases h
      rw [Entry.size, if_pos hdir]
    · rfl
  have hlen := length_packed e
  refine ⟨⟨d.lines ++
    if d.type = .symlink then [.linkTarget (e.data.takeWhile (· ≠ 0))]
    else if d.type = .other then if d.size ≠ 0 then [.sizeNotAllowed] else []
    else [.data e.data], e.packed.length, e.packed_length_pos⟩, rfl, fun rest => ?_⟩
  have hread := hupdates.readFields_eq (z := 0) (by decide) (e.data ++ rest)
  have hbound : ¬(e.packed ++ rest).length <
      e.pathname.length + 1 + (e.attributes.length + 1) + e.data.length := by
    rw [List.length_append]
    omega
  unfold ftDumpfile
  rw [cString_packed hpath]
  simp only [packed_drop, hread, hnone, packed_data]
  rw [if_neg hbound]
  exact congrArg _ (Found.ext rfl hlen.symm)

/-! ### The whole buffer -/

theorem size_lt (he : e ∈ es) (hpackable : e.packable) (hdata : e.data.length = e.size)
    (hbuf : buf = (es.filter Entry.packable).flatMap Entry.packed ++ [0])
    (hlen : buf.length ≤ 0xFFFFFF) : e.size < 256 ^ 3 := by
  have hmem : e ∈ es.filter Entry.packable := List.mem_filter.mpr ⟨he, hpackable⟩
  have hle : e.packed.length ≤ ((es.filter Entry.packable).flatMap Entry.packed).length := by
    rw [List.length_flatMap]
    exact List.le_sum_of_mem (List.mem_map_of_mem hmem)
  have hpacked := length_packed e
  rw [hbuf, List.length_append, List.length_singleton] at hlen
  omega

/-- What `ft_creatm` and `ft_dump` find in a packed tree: every packed entry with the length
that `ft_pack` has given it, in order, and at the end the final NUL. -/
theorem ftPackm_correct (hpaths : ∀ e ∈ es, e.pathname ≠ [] ∧ 0 ∉ e.pathname)
    (hpack : ftPackm es = some buf) (hlen : buf.length ≤ 0xFFFFFF) :
    (∀ e ∈ es.filter Entry.packable, ∃ afile, ftPack e = some afile ∧
        afile.length = e.found.advance) ∧
      creatEntries buf = .ok ((es.filter Entry.packable).map Entry.found, [0]) ∧
      ftCreatm buf = .ok
        ((es.filter Entry.packable).flatMap (fun e => e.created.calls) ++
          (es.filter Entry.packable).reverse.flatMap fun e => e.created.popCalls) ∧
      ∃ dumps, dumpEntries buf = .ok (dumps, [0]) ∧
        dumps.map Found.advance = (es.filter Entry.packable).map (fun e => e.found.advance) ∧
        ftDump buf = .ok (dumps.flatMap Found.value) := by
  obtain ⟨rv, hrv, rfl⟩ := Option.map_eq_some_iff.mp hpack
  obtain ⟨rfl, hall⟩ := ftPackEntries_eq hrv
  have hfront : ∀ e ∈ es.filter Entry.packable, ∃ c cs, e.packed = c :: cs ∧ isNul c = false := by
    intro e he
    obtain ⟨hne, hnul⟩ := hpaths e (List.mem_filter.mp he).1
    obtain ⟨c, cs, hc⟩ := List.exists_cons_of_ne_nil hne
    refine ⟨c, cs ++ 0 :: (e.attributes ++ 0 :: e.data), by rw [Entry.packed, hc]; rfl, ?_⟩
    exact decide_eq_false fun h => hnul (by rw [hc, h]; exact List.mem_cons_self)
  have hsize : ∀ e ∈ es.filter Entry.packable, e.packable ∧ e.data.length = e.size ∧
      e.size < 256 ^ 3 ∧ 0 ∉ e.pathname := by
    intro e he
    obtain ⟨hmem, hpackable⟩ := List.mem_filter.mp he
    obtain ⟨-, hdata⟩ := hall e hmem hpackable
    exact ⟨hpackable, hdata, size_lt hmem hpackable hdata rfl hlen, (hpaths e hmem).2⟩
  have hcreat : creatEntries ((es.filter Entry.packable).flatMap Entry.packed ++ [0]) =
      .ok ((es.filter Entry.packable).map Entry.found, [0]) := by
    refine readAll_flatMap hfront (fun e he rest => ?_) (fun e _ => rfl) (by decide)
    obtain ⟨hpackable, hdata, hlt, hnul⟩ := hsize e he
    exact ftCreat_packed hnul hpackable hdata hlt rest
  refine ⟨fun e he => ⟨e.packed, ?_, rfl⟩, hcreat, ?_, ?_⟩
  · obtain ⟨hmem, hpackable⟩ := List.mem_filter.mp he
    exact (hall e hmem hpackable).1
  · rw [ftCreatm, hcreat]
    simp only [Except.map, List.flatMap_map, ← List.map_reverse]
    rfl
  · have hdump : ∀ e, ∃ found : Found (List Line), e ∈ es.filter Entry.packable →
        found.advance = e.packed.length ∧ ∀ rest, ftDumpfile (e.packed ++ rest) = .ok found := by
      intro e
      by_cases he : e ∈ es.filter Entry.packable
      · obtain ⟨hpackable, hdata, hlt, hnul⟩ := hsize e he
        obtain ⟨found, hfound⟩ := ftDumpfile_packed hnul hpackable hdata hlt
        exact ⟨found, fun _ => hfound⟩
      · exact ⟨⟨[], 1, Nat.one_pos⟩, fun h => absurd h he⟩
    choose found hfound using hdump
    have hdumps : dumpEntries ((es.filter Entry.packable).flatMap Entry.packed ++ [0]) =
        .ok ((es.filter Entry.packable).map found, [0]) :=
      readAll_flatMap hfront (fun e he rest => (hfound e he).2 rest)
        (fun e he => (hfound e he).1) (by decide)
    refine ⟨(es.filter Entry.packable).map found, hdumps, ?_, ?_⟩
    · rw [List.map_map]
      exact List.map_congr_left fun e he => (hfound e he).1
    · rw [ftDump, hdumps]
      rfl

namespace Samples

/-- A directory that holds a file of two bytes and a link to it. -/
def tree : List Entry :=
  [⟨[46], ⟨4096, 0x10000000A, 0, 0x41ED, 0⟩, .dir, none⟩,
    ⟨[97], ⟨2, 1, 0x100, 0x81A4, 1⟩, .file, some [0, 7]⟩,
    ⟨[98], ⟨1, 5, 0, 0xA1FF, 0⟩, .symlink, some [97]⟩]

def image : Bytes :=
  [46, 0, 0x05, 0x10, 0x0A, 0, 0, 0, 109, 0xED, 0x41, 0,
    97, 0, 0x10, 1, 0, 0, 0, 71, 0, 1, 0, 0, 109, 0xA4, 0x81, 117, 1, 115, 2, 0, 0, 7,
    98, 0, 0x03, 115, 1, 0, 97, 0]

theorem ftPackm_correct_tree :
    creatEntries image = .ok (tree.map Entry.found, [0]) ∧
      ∃ dumps, dumpEntries image = .ok (dumps, [0]) ∧
        dumps.map Found.advance = tree.map fun e => e.found.advance := by
  have h := ftPackm_correct (by decide : ∀ e ∈ tree, e.pathname ≠ [] ∧ 0 ∉ e.pathname)
    (by decide : ftPackm tree = some image) (by decide)
  obtain ⟨-, hcreat, -, dumps, hdumps, hadvance, -⟩ := h
  exact ⟨hcreat, dumps, hdumps, hadvance⟩

end Samples
end OpenADK.Cfgfs
