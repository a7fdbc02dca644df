import OpenADK.Cfgfs.Corruption
import OpenADK.Cfgfs.WellFormed

/-!
# Malformed images

`fwcf_unpack` with the memory that it works on. The outer length of an image is not bounded from
below, and a source length that has wrapped around is passed on to the plug-in; the data are not
looked at before `ft_creatm` reads them.
-/

namespace OpenADK.Cfgfs
open LittleEndian
variable {fd : Fd} {udata : Bytes}

/-! ### Plug-ins in memory -/

/-- The plug-ins as they run. `run` gets the code of the plug-in, the room at the destination, the
memory from the source to the end of its block, and the length of the source. -/
structure Plugins where
  compressors : UInt8 → Option Compressor
  run : UInt8 → ℕ → Bytes → ℕ → Except Stop (Option Bytes)
  run_eq : ∀ c p, compressors c = some p → ∀ dstlen mem srclen, srclen ≤ mem.length →
    run c dstlen mem srclen = .ok (p.decompress dstlen (mem.take srclen))
  length_le : ∀ c dstlen mem srclen dst, run c dstlen mem srclen = .ok (some dst) →
    dst.length ≤ dstlen

/-- `c_decompress` of the plug-in `null`. -/
def nullRun (dstlen : ℕ) (mem : Bytes) (srclen : ℕ) : Except Stop (Option Bytes) :=
  let len := min srclen dstlen
  if mem.length < len then .error .beyondBuffer else .ok (some (mem.take len))

/-- `outer - 16` as a `size_t` -/
def sourceLength (outer : ℕ) : ℕ := (outer + 2 ^ 64 - 16) % 2 ^ 64

/-! ### `fwcf_unpack` -/

/-- The variables `outer`, `*inner` and `c`, and the bytes that have been read. -/
structure Image where
  outer : ℕ
  inner : ℕ
  c : UInt8
  bytes : Bytes
  deriving DecidableEq, Repr

def readImage (fd : Fd) : Except Stop Image :=
  let (hdrbuf, fd) := fd.read 12
  if hdrbuf.length ≠ 12 then .error <| .err "read"
  else if hdrbuf.take 4 ≠ [70, 87, 67, 70] then .error <| .err "file format error"
  else
    let outer := loadt (hdrbuf.drop 4)
    if (hdrbuf.getD 7 0).toNat > fwcfVer then
      .error <| .err s!"wrong file version {hdrbuf.getD 7 0}"
    else
      let (rest, _) := fd.read (maxln outer - 12)
      if maxln outer < 12 then .error .beyondBuffer
      else if (rest.length : ℤ) < (outer : ℤ) - 12 then .error <| .err "read"
      else .ok ⟨outer, loadt (hdrbuf.drop 8), hdrbuf.getD 11 0, hdrbuf ++ rest⟩

/-- `cdata`: what has been read, and what `malloc` has left behind it. -/
def Image.cdata (x : Image) (fill : ∀ n, List.Vector UInt8 n) : Bytes :=
  x.bytes ++ (fill (maxln x.outer)).toList.drop x.bytes.length

/-- What is done with `cdata`. -/
def unpackCdata (plugins : Plugins) (x : Image) (cdata : Bytes) : Except Stop Bytes :=
  if x.outer < 4 then .error .beyondBuffer -- `outer - 4` wraps around
  else
    let sums := adlerSums cdata (x.outer - 4)
    if sums.1.toNat ≠ loadw (cdata.drop (x.outer - 4)) ∨
        sums.2.toNat ≠ loadw (cdata.drop (x.outer - 2)) then
      .error <| .err "crc mismatch"
    else
      match compressorGet plugins.compressors x.c with
      | .error e => .error e
      | .ok _ =>
        match plugins.run x.c x.inner (cdata.drop 12) (sourceLength x.outer) with
        | .error e => .error e
        | .ok none => .error <| .err "size mismatch"
        | .ok (some udata) =>
          if x.inner < udata.length then .error .beyondBuffer
          else if udata.length ≠ x.inner then .error <| .err "size mismatch"
          else .ok udata

/-- `fwcf_unpack` with the memory that `malloc` returns. -/
def fwcfUnpackIn (plugins : Plugins) (fill : ∀ n, List.Vector UInt8 n) (fd : Fd) :
    Except Stop Bytes :=
  (readImage fd).bind fun x => unpackCdata plugins x (x.cdata fill)

/-! ### Both models of `fwcf_unpack` -/

theorem fwcfUnpack_eq_readImage (compressors : UInt8 → Option Compressor) (fd : Fd) :
    fwcfUnpack compressors fd = (readImage fd).bind fun x =>
      unpackImage compressors x.outer x.inner x.c x.bytes := by
  rw [fwcfUnpack_eq]
  unfold readImage
  dsimp only
  split_ifs <;> rfl

theorem loadt_lt (p : Bytes) : loadt p < 2 ^ 24 := by
  have hlt := ofBytes_lt (p.take 3)
  have hle : 256 ^ (p.take 3).length ≤ 256 ^ 3 :=
    Nat.pow_le_pow_right (by decide) (List.length_take_le 3 p)
  exact lt_of_lt_of_le hlt hle

theorem readImage_bounds {x : Image} (h : readImage fd = .ok x) :
    0 < x.outer ∧ x.outer ≤ x.bytes.length ∧ x.outer < 2 ^ 24 := by
  unfold readImage at h
  dsimp only at h
  split_ifs at h with h1 h2 h3 h4 h5
  cases h
  dsimp only
  have hpos : loadt ((fd.read 12).1.drop 4) ≠ 0 := by
    intro hzero
    rw [hzero] at h4
    exact h4 (by decide)
  rw [List.length_append]
  exact ⟨Nat.pos_of_ne_zero hpos, by omega, loadt_lt _⟩

/-- A source that is in the block. -/
theorem unpackCdata_eq (plugins : Plugins) {x : Image} {cdata : Bytes} (houter : 16 ≤ x.outer)
    (hlen : x.outer ≤ cdata.length) (hlt : x.outer < 2 ^ 24) :
    unpackCdata plugins x cdata =
      (unpackImage plugins.compressors x.outer x.inner x.c cdata).map Unpacked.udata := by
  have hsource : sourceLength x.outer = x.outer - 16 := by
    unfold sourceLength
    omega
  have hmem : x.outer - 16 ≤ (cdata.drop 12).length := by
    rw [List.length_drop]
    omega
  have hfour : ¬x.outer < 4 := by omega
  rw [unpackCdata, unpackImage, if_neg hfour, if_neg hfour, hsource]
  by_cases hsums : (adlerSums cdata (x.outer - 4)).1.toNat ≠ loadw (cdata.drop (x.outer - 4)) ∨
      (adlerSums cdata (x.outer - 4)).2.toNat ≠ loadw (cdata.drop (x.outer - 2))
  · rw [if_pos hsums, if_pos hsums]
    rfl
  · rw [if_neg hsums, if_neg hsums]
    cases hget : compressorGet plugins.compressors x.c with
    | error e => rfl
    | ok p =>
      have hrun := plugins.run_eq x.c p (compressorGet_ok hget) x.inner _ _ hmem
      simp only [hrun]
      rw [if_neg (by omega)]
      cases hdst : p.decompress x.inner ((cdata.drop 12).take (x.outer - 16)) with
      | none => rfl
      | some udata =>
        rw [hdst] at hrun
        have hle := plugins.length_le _ _ _ _ _ hrun
        dsimp only
        rw [if_neg (by omega)]
        split <;> rfl

theorem toOption_eq_some_iff {ε α : Type} {e : Except ε α} {a : α} :
    e.toOption = some a ↔ e = .ok a := by
  cases e <;> simp [Except.toOption]

theorem map_data (e : Except Stop Unpacked) :
    e.map Unpacked.udata = (e.map Unpacked.data).map Prod.fst := by
  cases e <;> rfl

/-- The memory behind an image does not matter if it is as long as its parts. -/
theorem fwcfUnpackIn_eq (plugins : Plugins) (fill : ∀ n, List.Vector UInt8 n)
    (h : ∀ x, readImage fd = .ok x → 16 ≤ x.outer) :
    fwcfUnpackIn plugins fill fd =
      (fwcfUnpack plugins.compressors fd).map Unpacked.udata := by
  rw [fwcfUnpackIn, fwcfUnpack_eq_readImage]
  cases hread : readImage fd with
  | error e => rfl
  | ok x =>
    obtain ⟨-, hlen, hlt⟩ := readImage_bounds hread
    have htake : (x.cdata fill).take x.bytes.length = x.bytes := List.take_left
    have hcdata : x.outer ≤ (x.cdata fill).length := by
      rw [Image.cdata, List.length_append]
      omega
    have hdata := @unpackImage_take plugins.compressors (x.cdata fill) _ x.inner _ x.c hlen
    rw [htake] at hdata
    show unpackCdata plugins x (x.cdata fill) = (unpackImage _ _ _ _ x.bytes).map Unpacked.udata
    rw [unpackCdata_eq plugins (h x hread) hcdata hlt, map_data, map_data, hdata]

/-! ### Accesses of `fwcf_unpack` -/

/-- The header is one that `fwcf_unpack` goes on with. -/
def AcceptedHeader (hdrbuf : Bytes) : Prop :=
  hdrbuf.length = 12 ∧ hdrbuf.take 4 = [70, 87, 67, 70] ∧ (hdrbuf.getD 7 0).toNat ≤ fwcfVer

/-- The outer length leaves room for the checksum. If it does not for the header and the checksum,
an image that is right otherwise is decompressed by a plug-in that stays inside the block. -/
structure InBounds (plugins : Plugins) (fill : ∀ n, List.Vector UInt8 n) (fd : Fd) : Prop where
  outer : AcceptedHeader (fd.read 12).1 → 4 ≤ loadt ((fd.read 12).1.drop 4)
  source : ∀ x p, readImage fd = .ok x → x.outer < 16 → Checks (x.cdata fill) x.outer →
    compressorGet plugins.compressors x.c = .ok p →
      plugins.run x.c x.inner ((x.cdata fill).drop 12) (sourceLength x.outer) ≠ .error .beyondBuffer

/-- The stream is an image with a right checksum, from which its plug-in makes these data. -/
def Carries (plugins : Plugins) (fill : ∀ n, List.Vector UInt8 n) (fd : Fd) (udata : Bytes) :
    Prop :=
  ∃ x p, readImage fd = .ok x ∧ 4 ≤ x.outer ∧ Checks (x.cdata fill) x.outer ∧
    compressorGet plugins.compressors x.c = .ok p ∧
      plugins.run x.c x.inner ((x.cdata fill).drop 12) (sourceLength x.outer) = .ok (some udata) ∧
        udata.length = x.inner

variable {plugins : Plugins} {fill : ∀ n, List.Vector UInt8 n} {x : Image} {cdata : Bytes}

theorem readImage_of_not_accepted (h : ¬AcceptedHeader (fd.read 12).1) :
    ∃ message, readImage fd = .error (.err message) := by
  unfold readImage
  dsimp only
  split_ifs with hlen hmagic hver
  · exact ⟨_, rfl⟩
  · exact ⟨_, rfl⟩
  · exact ⟨_, rfl⟩
  · exact absurd ⟨not_not.mp hlen, not_not.mp hmagic, not_lt.mp hver⟩ h
  · exact absurd ⟨not_not.mp hlen, not_not.mp hmagic, not_lt.mp hver⟩ h
  · exact absurd ⟨not_not.mp hlen, not_not.mp hmagic, not_lt.mp hver⟩ h

/-- An accepted header without an outer length is copied beyond an empty block; with one, the
image is read or too short, and too short only if the outer length is that of a header. -/
theorem readImage_of_accepted (h : AcceptedHeader (fd.read 12).1) :
    let outer := loadt ((fd.read 12).1.drop 4)
    (outer = 0 ∧ readImage fd = .error .beyondBuffer) ∨
      (0 < outer ∧ ∃ x, readImage fd = .ok x ∧ x.outer = outer) ∨
        (12 < outer ∧ readImage fd = .error (.err "read")) := by
  obtain ⟨hlen, hmagic, hver⟩ := h
  dsimp only
  have hzero : maxln (loadt ((fd.read 12).1.drop 4)) < 12 ↔ loadt ((fd.read 12).1.drop 4) = 0 := by
    unfold maxln flashBlock
    omega
  unfold readImage
  dsimp only
  rw [if_neg (not_not.mpr hlen), if_neg (not_not.mpr hmagic), if_neg (not_lt.mpr hver)]
  by_cases houter : loadt ((fd.read 12).1.drop 4) = 0
  · exact .inl ⟨houter, by rw [if_pos (hzero.mpr houter)]⟩
  · rw [if_neg (hzero.not.mpr houter)]
    split
    · exact .inr (.inr ⟨by omega, rfl⟩)
    · exact .inr (.inl ⟨by omega, _, rfl, rfl⟩)

theorem compressorGet_ne (compressors : UInt8 → Option Compressor) (c : UInt8) :
    compressorGet compressors c ≠ .error .beyondBuffer := by
  unfold compressorGet
  split
  · exact nofun
  · split <;> exact nofun

/-- What follows the checksum, when it is right. -/
theorem unpackCdata_of_checks (houter : 4 ≤ x.outer) (h : Checks cdata x.outer) :
    unpackCdata plugins x cdata = (compressorGet plugins.compressors x.c).bind fun _ =>
      (plugins.run x.c x.inner (cdata.drop 12) (sourceLength x.outer)).bind fun dst =>
        match dst with
        | none => .error <| .err "size mismatch"
        | some udata =>
          if udata.length ≠ x.inner then .error <| .err "size mismatch" else .ok udata := by
  rw [unpackCdata, if_neg (by omega), if_neg (by rw [h.1, h.2]; simp)]
  cases compressorGet plugins.compressors x.c with
  | error e => rfl
  | ok p =>
    cases hrun : plugins.run x.c x.inner (cdata.drop 12) (sourceLength x.outer) with
    | error e => simp only [Except.bind]
    | ok dst =>
      cases dst with
      | none => simp only [Except.bind]
      | some udata =>
        have hle := plugins.length_le _ _ _ _ _ hrun
        simp only [Except.bind]
        rw [if_neg (by omega)]

theorem unpackCdata_of_not_checks (houter : 4 ≤ x.outer) (h : ¬Checks cdata x.outer) :
    unpackCdata plugins x cdata = .error (.err "crc mismatch") := by
  rw [Checks, Classical.not_and_iff_not_or_not] at h
  rw [unpackCdata, if_neg (by omega), if_pos h]

theorem unpackCdata_ne_iff (houter : 4 ≤ x.outer) :
    unpackCdata plugins x cdata ≠ .error .beyondBuffer ↔
      (Checks cdata x.outer → ∀ p, compressorGet plugins.compressors x.c = .ok p →
        plugins.run x.c x.inner (cdata.drop 12) (sourceLength x.outer) ≠ .error .beyondBuffer) := by
  by_cases hchecks : Checks cdata x.outer
  · rw [unpackCdata_of_checks houter hchecks]
    cases hget : compressorGet plugins.compressors x.c with
    | error e =>
      have hne := compressorGet_ne plugins.compressors x.c
      rw [hget] at hne
      exact iff_of_true (fun h => hne (congrArg Except.error (Except.error.inj h))) nofun
    | ok p =>
      cases plugins.run x.c x.inner (cdata.drop 12) (sourceLength x.outer) with
      | error e =>
        refine ⟨fun h _ _ _ heq => h ?_, fun h heq => h hchecks p rfl ?_⟩
        · exact congrArg Except.error (Except.error.inj heq)
        · exact congrArg Except.error (Except.error.inj heq)
      | ok dst =>
        refine iff_of_true ?_ fun _ _ _ => nofun
        simp only [Except.bind]
        split
        · exact nofun
        · split <;> exact nofun
  · rw [unpackCdata_of_not_checks houter hchecks]
    exact iff_of_true nofun fun h => absurd h hchecks

/-- A plug-in that gets the right length stays inside the block. -/
theorem run_ne {p : Compressor} (h : 16 ≤ x.outer) (hlt : x.outer < 2 ^ 24)
    (hlen : x.outer ≤ cdata.length) (hget : compressorGet plugins.compressors x.c = .ok p) :
    plugins.run x.c x.inner (cdata.drop 12) (sourceLength x.outer) ≠ .error .beyondBuffer := by
  rw [plugins.run_eq x.c p (compressorGet_ok hget)]
  · exact nofun
  · rw [List.length_drop]
    unfold sourceLength
    omega

theorem fwcfUnpackIn_ne_iff : fwcfUnpackIn plugins fill fd ≠ .error .beyondBuffer ↔
    InBounds plugins fill fd := by
  by_cases haccepted : AcceptedHeader (fd.read 12).1
  · obtain ⟨hzero, hread⟩ | ⟨hpos, x, hread, houter⟩ | ⟨hpos, hread⟩ :=
      readImage_of_accepted haccepted
    · rw [fwcfUnpackIn, hread]
      refine iff_of_false (fun h => h rfl) fun h => ?_
      have hfour := h.outer haccepted
      omega
    · rw [fwcfUnpackIn, hread]
      show unpackCdata plugins x (x.cdata fill) ≠ _ ↔ _
      obtain ⟨-, hlen, hlt⟩ := readImage_bounds hread
      have hlen' : x.outer ≤ (x.cdata fill).length := by
        rw [Image.cdata, List.length_append]
        omega
      by_cases hfour : 4 ≤ x.outer
      · rw [unpackCdata_ne_iff hfour]
        refine ⟨fun h => ⟨fun _ => houter ▸ hfour, ?_⟩, fun h hchecks p hget => ?_⟩
        · intro y p hy _ hchecks hget
          cases hread.symm.trans hy
          exact h hchecks p hget
        · by_cases hsmall : x.outer < 16
          · exact h.source x p hread hsmall hchecks hget
          · exact run_ne (by omega) hlt hlen' hget
      · rw [unpackCdata, if_pos (by omega)]
        refine iff_of_false (fun h => h rfl) fun h => ?_
        have := h.outer haccepted
        omega
    · rw [fwcfUnpackIn, hread]
      refine iff_of_true nofun ⟨fun _ => by omega, fun y p hy => ?_⟩
      cases hread.symm.trans hy
  · obtain ⟨message, hread⟩ := readImage_of_not_accepted haccepted
    rw [fwcfUnpackIn, hread]
    refine iff_of_true nofun ⟨fun h => absurd h haccepted, fun y p hy => ?_⟩
    cases hread.symm.trans hy

theorem fwcfUnpackIn_ok_iff : fwcfUnpackIn plugins fill fd = .ok udata ↔
    Carries plugins fill fd udata := by
  unfold Carries
  cases hread : readImage fd with
  | error e =>
    rw [fwcfUnpackIn, hread]
    exact iff_of_false nofun fun ⟨x, p, h, _⟩ => nomatch h
  | ok x =>
    rw [fwcfUnpackIn, hread]
    show unpackCdata plugins x (x.cdata fill) = _ ↔ _
    constructor
    · intro h
      have hfour : 4 ≤ x.outer := by
        by_contra hsmall
        rw [unpackCdata, if_pos (by omega)] at h
        cases h
      by_cases hchecks : Checks (x.cdata fill) x.outer
      · rw [unpackCdata_of_checks hfour hchecks] at h
        cases hget : compressorGet plugins.compressors x.c with
        | error e =>
          rw [hget] at h
          cases h
        | ok p =>
          rw [hget] at h
          cases hrun : plugins.run x.c x.inner ((x.cdata fill).drop 12) (sourceLength x.outer) with
          | error e =>
            simp only [hrun, Except.bind] at h
            cases h
          | ok dst =>
            simp only [hrun, Except.bind] at h
            cases dst with
            | none => cases h
            | some dst =>
              dsimp only at h
              split_ifs at h with hlength
              · cases h
                exact ⟨x, p, rfl, hfour, hchecks, hget, hrun, not_not.mp hlength⟩
      · rw [unpackCdata_of_not_checks hfour hchecks] at h
        cases h
    · rintro ⟨y, p, hy, hfour, hchecks, hget, hrun, hlength⟩
      cases hy
      rw [unpackCdata_of_checks hfour hchecks, hget]
      simp only [hrun, Except.bind]
      rw [if_neg (not_not.mpr hlength)]

/-! ### The boot -/

/-- `fwcf_unpack` stays inside its buffers, and `ft_creatm` inside what it returns. -/
def Handled (plugins : Plugins) (fill : ∀ n, List.Vector UInt8 n) (fd : Fd) : Prop :=
  fwcfUnpackIn plugins fill fd ≠ .error .beyondBuffer ∧
    ∀ udata, fwcfUnpackIn plugins fill fd = .ok udata → ftCreatm udata ≠ .error .beyondBuffer

/-- A stream is handled if and only if its outer length is large enough and the data in it are
well formed. -/
theorem handled_iff (plugins : Plugins) (fill : ∀ n, List.Vector UInt8 n) (fd : Fd) :
    Handled plugins fill fd ↔
      InBounds plugins fill fd ∧ ∀ udata, Carries plugins fill fd udata → WellFormed udata :=
  and_congr fwcfUnpackIn_ne_iff
    (forall_congr' fun udata => imp_congr fwcfUnpackIn_ok_iff (ftCreatm_ne_iff udata))

/-! ### Two ways to deliver a stream -/

/-- Two runs in which `read` splits the same bytes in two ways, and `malloc` returns blocks with two
contents. -/
structure Deliveries where
  bytes : Bytes
  fill : ∀ n, List.Vector UInt8 n
  limits : List ℕ
  fill' : ∀ n, List.Vector UInt8 n
  limits' : List ℕ

namespace Deliveries

def first (d : Deliveries) : Fd := ⟨d.bytes, d.limits⟩

def second (d : Deliveries) : Fd := ⟨d.bytes, d.limits'⟩

/-- Both readers return the same in both runs, or both reject. -/
def SameData (plugins : Plugins) (d : Deliveries) : Prop :=
  (fwcfUnpackIn plugins d.fill d.first).toOption = (fwcfUnpackIn plugins d.fill' d.second).toOption ∧
    (readAszdata d.first).toOption = (readAszdata d.second).toOption

/-- When `fwcf_unpack` does not see how a stream is delivered. -/
structure Unseen (plugins : Plugins) (d : Deliveries) : Prop where
  /-- Both runs read all that belongs to the image, or none does. -/
  whole : 16 ≤ loadt (d.bytes.drop 4) → (unpackedData plugins.compressors ⟨d.bytes, []⟩).isSome →
    (Whole d.first ↔ Whole d.second)
  /-- The source length has wrapped around, and the plug-in makes the same of both blocks. -/
  wrapped : loadt (d.bytes.drop 4) < 16 → ∀ udata,
    Carries plugins d.fill d.first udata ↔ Carries plugins d.fill' d.second udata

end Deliveries

theorem outer_of_readImage {bytes : Bytes} {limits : List ℕ} {x : Image}
    (h : readImage ⟨bytes, limits⟩ = .ok x) : x.outer = loadt (bytes.drop 4) := by
  unfold readImage at h
  dsimp only at h
  split_ifs at h with hheader
  cases h
  rw [read_of_length (not_not.mp hheader)]
  exact loadt_drop_take (by omega)

/-- Of an image that is as long as its parts only what is delivered whole is accepted, and then as
a file is. -/
theorem fwcfUnpackIn_toOption {bytes : Bytes} {limits : List ℕ}
    (h : 16 ≤ loadt (bytes.drop 4)) :
    (fwcfUnpackIn plugins fill ⟨bytes, limits⟩).toOption =
      if Whole ⟨bytes, limits⟩ then
        (unpackedData plugins.compressors ⟨bytes, []⟩).map Prod.fst
      else none := by
  rw [fwcfUnpackIn_eq plugins fill fun x hx => (outer_of_readImage hx).symm ▸ h, map_data,
    toOption_map, toOption_map, ← unpackedData, unpackedData_eq]
  split <;> rfl

theorem option_eq_iff {α : Type} {o o' : Option α} : o = o' ↔ ∀ a, o = some a ↔ o' = some a :=
  ⟨fun h _ => h ▸ Iff.rfl, fun h => Option.ext h⟩

/-- Of one value that is or is not returned it matters exactly if both runs return it. -/
theorem ite_none_eq_iff {α : Type} (o : Option α) (p q : Prop) [Decidable p] [Decidable q] :
    (if p then o else none) = (if q then o else none) ↔ (o.isSome → (p ↔ q)) := by
  by_cases hp : p <;> by_cases hq : q <;> cases o <;> simp [hp, hq]

/-- The way in which `read` delivers a stream matters exactly if it is accepted in one piece and
one of the ways is whole and the other one is not, or if a source length wraps around and the
plug-in sees the difference. -/
theorem sameData_iff (plugins : Plugins) (d : Deliveries) :
    d.SameData plugins ↔
      d.Unseen plugins ∧ ((readAszdata ⟨d.bytes, []⟩).toOption.isSome →
        (WholeAsz d.first ↔ WholeAsz d.second)) := by
  have hasz : (readAszdata d.first).toOption = (readAszdata d.second).toOption ↔
      ((readAszdata ⟨d.bytes, []⟩).toOption.isSome → (WholeAsz d.first ↔ WholeAsz d.second)) := by
    rw [Deliveries.first, Deliveries.second, readAszdata_eq d.limits, readAszdata_eq d.limits',
      ite_none_eq_iff]
  refine and_congr ?_ hasz
  by_cases houter : 16 ≤ loadt (d.bytes.drop 4)
  · have hwhole : (fwcfUnpackIn plugins d.fill d.first).toOption =
          (fwcfUnpackIn plugins d.fill' d.second).toOption ↔
        ((unpackedData plugins.compressors ⟨d.bytes, []⟩).isSome →
          (Whole d.first ↔ Whole d.second)) := by
      rw [Deliveries.first, Deliveries.second, fwcfUnpackIn_toOption houter,
        fwcfUnpackIn_toOption houter, ite_none_eq_iff, Option.isSome_map]
    rw [hwhole]
    exact ⟨fun h => ⟨fun _ => h, fun hshort => absurd houter (not_le.mpr hshort)⟩,
      fun h => h.whole houter⟩
  · have hcarries : (fwcfUnpackIn plugins d.fill d.first).toOption =
          (fwcfUnpackIn plugins d.fill' d.second).toOption ↔
        ∀ udata, Carries plugins d.fill d.first udata ↔ Carries plugins d.fill' d.second udata := by
      rw [option_eq_iff]
      simp only [toOption_eq_some_iff, fwcfUnpackIn_ok_iff]
    rw [hcarries]
    exact ⟨fun h => ⟨fun hlong => absurd hlong houter, fun _ => h⟩,
      fun h => h.wrapped (not_le.mp houter)⟩

namespace Samples

/-- The plug-in `null` alone. -/
def nullPlugins : Plugins where
  compressors := nullOnly
  run _ := nullRun
  run_eq c p h dstlen mem srclen hle := by
    unfold nullOnly at h
    split_ifs at h
    cases h
    have hlen : (mem.take srclen).length = srclen := List.length_take_of_le hle
    have htake : (mem.take srclen).take (min srclen dstlen) = mem.take (min srclen dstlen) := by
      rw [List.take_take, min_eq_left (min_le_left _ _)]
    unfold nullRun cNull
    dsimp only
    rw [if_neg (by omega), hlen, htake]
  length_le c dstlen mem srclen dst h := by
    unfold nullRun at h
    dsimp only at h
    split_ifs at h
    cases h
    rw [List.length_take]
    omega

/-- An image without an outer length: its header is copied to an empty block. -/
theorem not_handled_header :
    ¬Handled nullPlugins (fun n => List.Vector.replicate n 0)
      ⟨[70, 87, 67, 70, 0, 0, 0, 1, 0, 0, 0, 0], []⟩ := by
  intro h
  exact h.1 rfl

/-- The second call of `read` delivers one byte. -/
theorem not_sameData_smallImage :
    ¬(Deliveries.mk smallImage (fun n => List.Vector.replicate n 0) []
      (fun n => List.Vector.replicate n 0) [11, 0]).SameData nullPlugins := by
  intro h
  have hfirst := h.1
  rw [Deliveries.first, Deliveries.second, fwcfUnpackIn_toOption (by decide),
    fwcfUnpackIn_toOption (by decide), if_pos (by decide), if_neg (by decide)] at hfirst
  change (unpackedData nullOnly ⟨smallImage, []⟩).map Prod.fst = none at hfirst
  rw [unpackedData_smallImage] at hfirst
  cases hfirst

end Samples
end OpenADK.Cfgfs
