import OpenADK.Cfgfs.Container

/-!
# Short reads

`fwcf_unpack` and `read_aszdata` read their input with two calls of `read` and take what the first
of each delivers. Data that come in one piece and data that come in several are the same to them
only if every call delivers all that is needed.
-/

namespace OpenADK.Cfgfs
open LittleEndian
variable {compressors : UInt8 → Option Compressor} {bytes : Bytes} {limits limits' : List ℕ}

/-! ### `read_aszdata` -/

def readAszdata (fd : Fd) : Except Stop Bytes :=
  let (hdrbuf, fd) := fd.read 8
  if hdrbuf.length ≠ 8 then .error <| .err "short read"
  else
    let dlen := loadd (hdrbuf.drop 4)
    let (dbuf, _) := fd.read dlen
    if dbuf.length ≠ dlen then .error <| .err "short read"
    else
      let sums := adlerCalc dbuf (adlerCalc (hdrbuf.drop 4) (1, 0))
      if loadw hdrbuf ≠ sums.1.toNat ∨ loadw (hdrbuf.drop 2) ≠ sums.2.toNat then
        .error <| .err s!"checksum mismatch, size {dlen}"
      else .ok dbuf

/-! ### What the calls of `read` deliver -/

/-- The block that an image with this outer length is read into. -/
def maxln (outer : ℕ) : ℕ := (outer + (flashBlock - 1)) / flashBlock * flashBlock

/-- The header comes with one call, and with the next one all that belongs to the image. -/
def Whole (fd : Fd) : Prop :=
  let outer := loadt ((fd.read 12).1.drop 4)
  (fd.read 12).1.length = 12 ∧
    (outer : ℤ) - 12 ≤ ((fd.read 12).2.read (maxln outer - 12)).1.length

/-- The header comes with one call, and with the next one all of the data. -/
def WholeAsz (fd : Fd) : Prop :=
  let dlen := loadd ((fd.read 8).1.drop 4)
  (fd.read 8).1.length = 8 ∧ ((fd.read 8).2.read dlen).1.length = dlen

instance (fd : Fd) : Decidable (Whole fd) := inferInstanceAs (Decidable (_ ∧ _))

instance (fd : Fd) : Decidable (WholeAsz fd) := inferInstanceAs (Decidable (_ ∧ _))

theorem limit_le (fd : Fd) (n : ℕ) : fd.limit n ≤ n := by
  unfold Fd.limit
  split
  · exact le_rfl
  · exact min_le_left _ _

/-- A call that delivers all that was asked for. -/
theorem limit_of_length {fd : Fd} {n : ℕ} (h : (fd.read n).1.length = n) : fd.limit n = n := by
  have hle := limit_le fd n
  have hlen : min (fd.limit n) fd.bytes.length = n := by rwa [Fd.read, List.length_take] at h
  omega

theorem read_of_length {n : ℕ} (h : ((Fd.mk bytes limits).read n).1.length = n) :
    (Fd.mk bytes limits).read n = (bytes.take n, ⟨bytes.drop n, limits.tail⟩) := by
  rw [Fd.read, limit_of_length h]

/-! ### The image that has been read -/

/-- What `fwcf_unpack` makes of the block that it has read. -/
def unpackImage (compressors : UInt8 → Option Compressor) (outer inner : ℕ) (c : UInt8)
    (cdata : Bytes) : Except Stop Unpacked :=
  if outer < 4 then .error .beyondBuffer
  else
    let sums := adlerSums cdata (outer - 4)
    if sums.1.toNat ≠ loadw (cdata.drop (outer - 4)) ∨
        sums.2.toNat ≠ loadw (cdata.drop (outer - 2)) then
      .error <| .err "crc mismatch"
    else
      match compressorGet compressors c with
      | .error e => .error e
      | .ok compressor =>
        if outer < 16 then .error .beyondBuffer
        else match compressor.decompress inner ((cdata.drop 12).take (outer - 16)) with
        | none => .error <| .err "size mismatch"
        | some udata =>
          if udata.length ≠ inner then .error <| .err "size mismatch"
          else .ok ⟨udata, inner, cdata.drop outer⟩

theorem fwcfUnpack_eq (compressors : UInt8 → Option Compressor) (fd : Fd) :
    fwcfUnpack compressors fd =
      let hdrbuf := (fd.read 12).1
      let outer := loadt (hdrbuf.drop 4)
      let rest := ((fd.read 12).2.read (maxln outer - 12)).1
      if hdrbuf.length ≠ 12 then .error <| .err "read"
      else if hdrbuf.take 4 ≠ [70, 87, 67, 70] then .error <| .err "file format error"
      else if (hdrbuf.getD 7 0).toNat > fwcfVer then
        .error <| .err s!"wrong file version {hdrbuf.getD 7 0}"
      else if maxln outer < 12 then .error .beyondBuffer
      else if (rest.length : ℤ) < (outer : ℤ) - 12 then .error <| .err "read"
      else unpackImage compressors outer (loadt (hdrbuf.drop 8)) (hdrbuf.getD 11 0)
        (hdrbuf ++ rest) := rfl

theorem loadw_drop_take {k m : ℕ} (h : k + 2 ≤ m) :
    loadw ((bytes.take m).drop k) = loadw (bytes.drop k) := by
  unfold loadw load
  rw [List.drop_take, List.take_take, min_eq_left (by omega)]

theorem adlerSums_take {len m : ℕ} (h : len ≤ m) :
    adlerSums (bytes.take m) len = adlerSums bytes len := by
  rw [adlerSums, adlerSums, List.take_take, min_eq_left h]

/-- The data and their length, without what is left behind them. -/
def Unpacked.data (u : Unpacked) : Bytes × ℕ := (u.udata, u.inner)

/-- What comes behind the outer length does not change the data. -/
theorem unpackImage_take {outer inner m : ℕ} {c : UInt8} (h : outer ≤ m) :
    (unpackImage compressors outer inner c (bytes.take m)).map Unpacked.data =
      (unpackImage compressors outer inner c bytes).map Unpacked.data := by
  unfold unpackImage
  by_cases hfour : outer < 4
  · rw [if_pos hfour, if_pos hfour]
  · have hbody : ((bytes.take m).drop 12).take (outer - 16) = (bytes.drop 12).take (outer - 16) := by
      rw [List.drop_take, List.take_take, min_eq_left (by omega)]
    rw [if_neg hfour, if_neg hfour]
    simp only [adlerSums_take (by omega : outer - 4 ≤ m),
      loadw_drop_take (by omega : outer - 4 + 2 ≤ m),
      loadw_drop_take (by omega : outer - 2 + 2 ≤ m), hbody]
    split
    · rfl
    · split
      · rfl
      · split
        · rfl
        · split
          · rfl
          · split <;> rfl

/-- What `fwcf_unpack` makes of a stream that is delivered whole. -/
def judge (compressors : UInt8 → Option Compressor) (bytes : Bytes) :
    Except Stop (Bytes × ℕ) :=
  let outer := loadt (bytes.drop 4)
  if bytes.take 4 ≠ [70, 87, 67, 70] then .error <| .err "file format error"
  else if (bytes.getD 7 0).toNat > fwcfVer then
    .error <| .err s!"wrong file version {bytes.getD 7 0}"
  else if outer = 0 then .error .beyondBuffer
  else (unpackImage compressors outer (loadt (bytes.drop 8)) (bytes.getD 11 0) bytes).map
    Unpacked.data

theorem fwcfUnpack_of_not_whole (h : ¬Whole ⟨bytes, limits⟩) :
    ∃ message, fwcfUnpack compressors ⟨bytes, limits⟩ = .error (.err message) := by
  rw [fwcfUnpack_eq]
  dsimp only
  split
  · exact ⟨_, rfl⟩
  next hheader =>
    have hheader := not_not.mp hheader
    split
    · exact ⟨_, rfl⟩
    · split
      · exact ⟨_, rfl⟩
      · have hshort := not_and.mp h hheader
        rw [not_le] at hshort
        have hpos : ¬maxln (loadt (((Fd.mk bytes limits).read 12).1.drop 4)) < 12 := by
          unfold maxln flashBlock
          omega
        rw [if_neg hpos, if_pos hshort]
        exact ⟨_, rfl⟩

theorem loadt_drop_take {k : ℕ} (h : k + 3 ≤ 12) :
    loadt ((bytes.take 12).drop k) = loadt (bytes.drop k) := by
  unfold loadt load
  rw [List.drop_take, List.take_take, min_eq_left (by omega)]

theorem getD_take {k : ℕ} (h : k < 12) : (bytes.take 12).getD k 0 = bytes.getD k 0 := by
  rw [List.getD_eq_getElem?_getD, List.getD_eq_getElem?_getD, List.getElem?_take_of_lt h]

/-- What is delivered whole is judged by its bytes alone. -/
theorem fwcfUnpack_of_whole (h : Whole ⟨bytes, limits⟩) :
    (fwcfUnpack compressors ⟨bytes, limits⟩).map Unpacked.data = judge compressors bytes := by
  obtain ⟨hheader, hbody⟩ := h
  have hread := read_of_length hheader
  have hmagic : (bytes.take 12).take 4 = bytes.take 4 := List.take_take
  rw [fwcfUnpack_eq]
  rw [hread] at hheader hbody ⊢
  simp only [loadt_drop_take (by omega : 4 + 3 ≤ 12), loadt_drop_take (by omega : 8 + 3 ≤ 12),
    getD_take (by omega : 7 < 12), getD_take (by omega : 11 < 12), hmagic] at hbody ⊢
  rw [if_neg (not_not.mpr hheader), judge]
  have hzero : maxln (loadt (bytes.drop 4)) < 12 ↔ loadt (bytes.drop 4) = 0 := by
    unfold maxln flashBlock
    omega
  split
  · rfl
  · split
    · rfl
    · by_cases houter : loadt (bytes.drop 4) = 0
      · rw [if_pos (hzero.mpr houter), if_pos houter]
        rfl
      · rw [if_neg (hzero.not.mpr houter), if_neg houter, if_neg (not_lt.mpr hbody), Fd.read,
          ← List.take_add]
        apply unpackImage_take
        rw [Fd.read, List.length_take] at hbody
        omega

/-! ### Both readers -/

/-- A file delivers all that there is. -/
theorem Whole.file (h : Whole ⟨bytes, limits⟩) : Whole ⟨bytes, []⟩ := by
  obtain ⟨hheader, hbody⟩ := h
  have hread := read_of_length hheader
  have hfile : (Fd.mk bytes []).read 12 = (bytes.take 12, ⟨bytes.drop 12, []⟩) := rfl
  rw [hread] at hheader hbody
  refine ⟨by rw [hfile]; exact hheader, ?_⟩
  rw [hfile]
  refine hbody.trans ?_
  have hle := limit_le ⟨bytes.drop 12, limits.tail⟩ (maxln (loadt ((bytes.take 12).drop 4)) - 12)
  simp only [Fd.read, List.length_take]
  have hnil : (Fd.mk (bytes.drop 12) []).limit (maxln (loadt ((bytes.take 12).drop 4)) - 12) =
    maxln (loadt ((bytes.take 12).drop 4)) - 12 := rfl
  rw [hnil]
  omega

theorem WholeAsz.file (h : WholeAsz ⟨bytes, limits⟩) : WholeAsz ⟨bytes, []⟩ := by
  obtain ⟨hheader, hbody⟩ := h
  have hread := read_of_length hheader
  rw [hread] at hheader hbody
  have hfile : (Fd.mk bytes []).read 8 = (bytes.take 8, ⟨bytes.drop 8, []⟩) := rfl
  refine ⟨by rw [hfile]; exact hheader, ?_⟩
  have hle := limit_le ⟨bytes.drop 8, limits.tail⟩ (loadd ((bytes.take 8).drop 4))
  have hnil : (Fd.mk (bytes.drop 8) []).limit (loadd ((bytes.take 8).drop 4)) =
    loadd ((bytes.take 8).drop 4) := rfl
  rw [hfile]
  simp only [Fd.read, List.length_take, hnil] at hbody ⊢
  omega

/-- The data that `fwcf_unpack` returns. -/
def unpackedData (compressors : UInt8 → Option Compressor) (fd : Fd) : Option (Bytes × ℕ) :=
  (fwcfUnpack compressors fd).toOption.map Unpacked.data

theorem toOption_map {ε α β : Type} (f : α → β) (x : Except ε α) :
    (x.map f).toOption = x.toOption.map f := by
  cases x <;> rfl

/-- Only what is delivered whole is accepted, and then as a file is. -/
theorem unpackedData_eq (limits : List ℕ) : unpackedData compressors ⟨bytes, limits⟩ =
    if Whole ⟨bytes, limits⟩ then unpackedData compressors ⟨bytes, []⟩ else none := by
  unfold unpackedData
  split
  case isTrue h =>
    rw [← toOption_map, ← toOption_map, fwcfUnpack_of_whole h, fwcfUnpack_of_whole h.file]
  case isFalse h =>
    obtain ⟨message, hreject⟩ := @fwcfUnpack_of_not_whole compressors _ _ h
    rw [hreject]
    rfl

theorem readAszdata_eq (limits : List ℕ) : (readAszdata ⟨bytes, limits⟩).toOption =
    if WholeAsz ⟨bytes, limits⟩ then (readAszdata ⟨bytes, []⟩).toOption else none := by
  split
  case isTrue h =>
    obtain ⟨hheader', hbody'⟩ := h.file
    obtain ⟨hheader, hbody⟩ := h
    have hread := read_of_length hheader
    have hread' := read_of_length hheader'
    rw [hread] at hbody
    rw [hread'] at hbody'
    simp only [readAszdata, hread, hread', read_of_length hbody, read_of_length hbody']
  case isFalse h =>
    have hreject : ∃ message, readAszdata ⟨bytes, limits⟩ = .error (.err message) := by
      unfold readAszdata
      dsimp only
      split
      · exact ⟨_, rfl⟩
      next hheader =>
        rw [if_pos fun hbody => h ⟨not_not.mp hheader, hbody⟩]
        exact ⟨_, rfl⟩
    obtain ⟨message, hreject⟩ := hreject
    rw [hreject]
    rfl

namespace Samples

/-- An image of one byte with the plug-in `null`, without what is behind it. -/
def smallImage : Bytes :=
  [70, 87, 67, 70, 20, 0, 0, 1, 1, 0, 0, 0, 0, 0, 0, 0, 61, 1, 194, 17]

theorem unpackedData_smallImage : unpackedData nullOnly ⟨smallImage, []⟩ = some ([0], 1) := by
  have hsums : adlerSums smallImage 16 = (317, 4546) := by
    rw [adlerSums, adlerCalc, if_neg (by decide), adlerCalc, if_pos (by decide)]
    decide
  have houter : loadt (smallImage.drop 4) = 20 := by decide
  rw [unpackedData, ← toOption_map, fwcfUnpack_of_whole (by decide), judge, houter, unpackImage]
  simp only [hsums]
  decide

end Samples
end OpenADK.Cfgfs
