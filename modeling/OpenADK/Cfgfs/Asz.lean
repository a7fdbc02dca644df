import OpenADK.Cfgfs.Adler
import OpenADK.Cfgfs.Chunks

/-!
# Compressed backups

`minilzop` reads all of its input, compresses it and writes it with its length and a checksum; the
other way round it reads such a file and writes what is decompressed.
-/

namespace OpenADK.Cfgfs
open LittleEndian
variable {compressors : UInt8 → Option Compressor} {algo : UInt8} {c : Compressor} {fd : Fd}
variable {dbuf file idata : Bytes} {limits : List ℕ} {n : ℕ}

theorem length_read_snd (fd : Fd) {n : ℕ} (h : 0 < (fd.read n).1.length) :
    (fd.read n).2.bytes.length < fd.bytes.length := by
  simp only [Fd.read, List.length_take, List.length_drop] at h ⊢
  omega

/-- The loop that reads up to the end of the file, into a buffer with room for `n` bytes. The room
is doubled when the buffer is full. -/
def slurp (n : ℕ) (idata : Bytes) (fd : Fd) : Bytes :=
  if 0 < (fd.read (n - idata.length)).1.length then
    slurp (if (idata ++ (fd.read (n - idata.length)).1).length < n then n else n * 2 % 2 ^ 64)
      (idata ++ (fd.read (n - idata.length)).1) (fd.read (n - idata.length)).2
  else idata
termination_by fd.bytes.length
decreasing_by exact length_read_snd fd ‹_›

def slurpFile (fd : Fd) : Bytes := slurp (16384 * 2) [] fd

/-- The length is stored in 32 bits; the two calls of `write` write so many bytes. -/
def writeAszdata (dbuf : Bytes) (wrote : ℕ × ℕ) : Except Stop Bytes :=
  let length := toBytes 4 dbuf.length
  let sums := adlerCalc dbuf (adlerCalc length (1, 0))
  let hdrbuf := toBytes 2 sums.1.toNat ++ toBytes 2 sums.2.toNat ++ length
  if wrote.1 ≠ 8 then .error <| .err "short write"
  else if wrote.2 ≠ dbuf.length then .error <| .err "short write"
  else .ok (hdrbuf ++ dbuf)

/-- The loop that writes; each call writes at most as many bytes as its limit, and one more. -/
def outputLoop : List ℕ → Bytes → Bytes
  | [], odata => odata
  | k :: limits, odata =>
    if odata = [] then [] else odata.take (k + 1) ++ outputLoop limits (odata.drop (k + 1))

def minilzopCompress (compressors : UInt8 → Option Compressor) (algo : UInt8) (fd : Fd)
    (wrote : ℕ × ℕ) : Except Stop Bytes :=
  match compressorGet compressors algo with
  | .error e => .error e
  | .ok c =>
    match c.compress (slurpFile fd) with
    | none => .error <| .err s!"{c.name} compression failed"
    | some odata =>
      let olen := returned odata.length
      if olen = -1 then .error <| .err s!"{c.name} compression failed"
      -- a negative `int` is a `size_t` that no memory is left for, unless `olen + 4` wraps around
      else if olen < -4 then
        .error <| .err s!"out of memory trying to allocate {(olen + 4) % 2 ^ 64} bytes"
      else if olen < 0 then .error .beyondBuffer
      else writeAszdata (toBytes 4 (slurpFile fd).length ++ odata.take olen.toNat) wrote

def minilzopDecompress (compressors : UInt8 → Option Compressor) (algo : UInt8) (fd : Fd)
    (limits : List ℕ) : Except Stop Bytes :=
  match compressorGet compressors algo with
  | .error e => .error e
  | .ok c =>
    match readAszdata fd with
    | .error e => .error e
    | .ok idata =>
      if idata.length < 4 then .error .beyondBuffer
      else
        let olen := loadd idata
        let odata := c.decompress olen (idata.drop 4)
        let n : ℤ := (odata.elim (-1) fun odata => returned odata.length) % 2 ^ 64
        if n ≠ olen then
          .error <| .err s!"size mismatch: decompressed {n}, want {olen}"
        else .ok (outputLoop limits (odata.getD []))

/-- What is asked of a plug-in: it decompresses what it has compressed. -/
def Decompresses (c : Compressor) : Prop :=
  ∀ data cdata, c.compress data = some cdata → c.decompress data.length cdata = some data

/-- All of the input is read, no buffer is left, and the file that is written for the input is read
back, or rejected when it is not delivered whole. -/
structure BacksUp (compressors : UInt8 → Option Compressor) (algo : UInt8) (fd : Fd) : Prop where
  slurp : slurpFile fd = fd.bytes
  bounded : ∀ wrote, minilzopCompress compressors algo fd wrote ≠ .error .beyondBuffer
  restores : ∀ wrote file, minilzopCompress compressors algo fd wrote = .ok file →
    ∀ limits, minilzopDecompress compressors algo ⟨file, []⟩ limits = .ok fd.bytes
  reads : ∀ dbuf wrote file, minilzopCompress compressors algo fd wrote = .ok file →
    writeAszdata dbuf wrote = .ok file → ∀ limits,
      readAszdata ⟨file, limits⟩ = .ok dbuf ∨
        ∃ message, readAszdata ⟨file, limits⟩ = .error (.err message)

/-! ### The loops -/

/-- A call with room delivers nothing only at the end. -/
theorem bytes_of_read_nil (h : 0 < n) (hread : ¬0 < (fd.read n).1.length) : fd.bytes = [] := by
  have hlimit : 0 < fd.limit n := by
    unfold Fd.limit
    split <;> omega
  rw [Fd.read, List.length_take] at hread
  exact List.length_eq_zero_iff.mp (by omega)

/-- There is always room in the buffer, so that nothing is taken for the end. -/
theorem slurp_eq (fd : Fd) {idata : Bytes} {n : ℕ} (hroom : idata.length < n)
    (hlen : idata.length + fd.bytes.length < 2 ^ 32) (hn : n ≤ 2 ^ 33) :
    slurp n idata fd = idata ++ fd.bytes := by
  induction hbytes : fd.bytes.length using Nat.strong_induction_on generalizing fd idata n with
  | _ m ih =>
    have hsplit : (fd.read (n - idata.length)).1 ++ (fd.read (n - idata.length)).2.bytes =
        fd.bytes := List.take_append_drop _ _
    have hlength := congrArg List.length hsplit
    rw [List.length_append] at hlength
    rw [slurp]
    split
    case isTrue hmore =>
      have hnext : (idata ++ (fd.read (n - idata.length)).1).length =
          idata.length + (fd.read (n - idata.length)).1.length := List.length_append
      have hdouble (h : ¬(idata ++ (fd.read (n - idata.length)).1).length < n) :
          n * 2 % 2 ^ 64 = n * 2 := Nat.mod_eq_of_lt (by omega)
      have hle : (fd.read (n - idata.length)).1.length ≤ n - idata.length := by
        rw [Fd.read, List.length_take]
        exact (min_le_left _ _).trans (limit_le fd _)
      rw [ih _ (hbytes ▸ length_read_snd fd hmore) _ ?room ?length ?bound rfl, List.append_assoc,
        hsplit]
      case room =>
        split
        case isTrue h => exact h
        case isFalse h =>
          rw [hdouble h]
          omega
      case length => omega
      case bound =>
        split
        case isTrue => exact hn
        case isFalse h =>
          rw [hdouble h]
          omega
    case isFalse hend => rw [bytes_of_read_nil (by omega) hend, List.append_nil]

theorem slurpFile_eq (h : fd.bytes.length < 2 ^ 32) : slurpFile fd = fd.bytes :=
  slurp_eq fd (by decide) (by rwa [List.length_nil, Nat.zero_add]) (by decide)

theorem outputLoop_eq (limits : List ℕ) (odata : Bytes) : outputLoop limits odata = odata := by
  induction limits generalizing odata with
  | nil => rfl
  | cons k limits ih =>
    rw [outputLoop, ih, List.take_append_drop]
    split
    case isTrue h => exact h.symm
    case isFalse => rfl

/-! ### The file -/

theorem returned_eq {size : ℕ} (h : size < 2 ^ 31) : returned size = size := by
  unfold returned
  rw [Int.bmod_def]
  split <;> omega

theorem returned_bounds (size : ℕ) : -2 ^ 31 ≤ returned size ∧ returned size < 2 ^ 31 := by
  unfold returned
  rw [Int.bmod_def]
  split <;> omega

theorem returned_mod_iff {size : ℕ} (h : size < 2 ^ 32) :
    returned size % 2 ^ 64 = size ↔ size < 2 ^ 31 := by
  unfold returned
  rw [Int.bmod_def]
  split <;> omega

/-- What is compressed and written. -/
theorem minilzopCompress_ok (hget : compressorGet compressors algo = .ok c)
    (hlen : fd.bytes.length < 2 ^ 32) {wrote : ℕ × ℕ}
    (h : minilzopCompress compressors algo fd wrote = .ok file) :
    ∃ cdata, c.compress fd.bytes = some cdata ∧ 0 ≤ returned cdata.length ∧
      writeAszdata (toBytes 4 fd.bytes.length ++ cdata.take (returned cdata.length).toNat) wrote =
        .ok file := by
  simp only [minilzopCompress, hget, slurpFile_eq hlen] at h
  cases hcompress : c.compress fd.bytes with
  | none =>
    simp only [hcompress] at h
    exact nomatch h
  | some cdata =>
    simp only [hcompress] at h
    split_ifs at h with hfailed hmemory hwrapped
    exact ⟨cdata, rfl, not_lt.mp hwrapped, h⟩

def aszHeader (dbuf : Bytes) : Bytes :=
  let sums := adlerCalc dbuf (adlerCalc (toBytes 4 dbuf.length) (1, 0))
  toBytes 2 sums.1.toNat ++ toBytes 2 sums.2.toNat ++ toBytes 4 dbuf.length

theorem length_aszHeader (dbuf : Bytes) : (aszHeader dbuf).length = 8 := by
  simp only [aszHeader, List.length_append, length_toBytes]

theorem writeAszdata_ok {wrote : ℕ × ℕ} (h : writeAszdata dbuf wrote = .ok file) :
    file = aszHeader dbuf ++ dbuf := by
  unfold writeAszdata at h
  dsimp only at h
  split at h
  · exact nomatch h
  · split at h
    · exact nomatch h
    · exact (Except.ok.inj h).symm

theorem writeAszdata_ne {wrote : ℕ × ℕ} : writeAszdata dbuf wrote ≠ .error .beyondBuffer := by
  unfold writeAszdata
  dsimp only
  split
  · exact nofun
  · split <;> exact nofun

theorem loadd_toBytes {x : ℕ} (h : x < 2 ^ 32) (rest : Bytes) :
    loadd (toBytes 4 x ++ rest) = x := by
  rw [loadd, load, List.take_left' (length_toBytes 4 x), ofBytes_toBytes_of_lt h]

/-- A file that is delivered whole is accepted. -/
theorem readAszdata_file (h : dbuf.length < 2 ^ 32) :
    readAszdata ⟨aszHeader dbuf ++ dbuf, []⟩ = .ok dbuf := by
  have hlen := length_aszHeader dbuf
  have hheader : (Fd.mk (aszHeader dbuf ++ dbuf) []).read 8 = (aszHeader dbuf, ⟨dbuf, []⟩) := by
    rw [Fd.read_unlimited, List.take_left' hlen, List.drop_left' hlen]
  have hbody : (Fd.mk dbuf []).read dbuf.length = (dbuf, ⟨[], []⟩) := by
    rw [Fd.read_unlimited, List.take_length, List.drop_length]
  obtain ⟨hs1, hs2⟩ := adlerCalc_lt dbuf (adlerCalc (toBytes 4 dbuf.length) (1, 0))
    (adlerCalc_lt (toBytes 4 dbuf.length) (1, 0) (by decide))
  have hlength : (aszHeader dbuf).drop 4 = toBytes 4 dbuf.length :=
    List.drop_left' (by rw [List.length_append, length_toBytes, length_toBytes])
  have hdlen : loadd (toBytes 4 dbuf.length) = dbuf.length := by
    have hload := loadd_toBytes h []
    rwa [List.append_nil] at hload
  have hsums : loadw (aszHeader dbuf) =
        (adlerCalc dbuf (adlerCalc (toBytes 4 dbuf.length) (1, 0))).1.toNat ∧
      loadw ((aszHeader dbuf).drop 2) =
        (adlerCalc dbuf (adlerCalc (toBytes 4 dbuf.length) (1, 0))).2.toNat := by
    have hdrop : (aszHeader dbuf).drop 2 =
        toBytes 2 (adlerCalc dbuf (adlerCalc (toBytes 4 dbuf.length) (1, 0))).2.toNat ++
          toBytes 4 dbuf.length := by
      unfold aszHeader
      rw [List.append_assoc]
      exact List.drop_left' (length_toBytes _ _)
    rw [hdrop]
    unfold aszHeader
    rw [List.append_assoc]
    exact ⟨loadw_append hs1 _, loadw_append hs2 _⟩
  have hmatch : ¬(loadw (aszHeader dbuf) ≠
        (adlerCalc dbuf (adlerCalc (toBytes 4 dbuf.length) (1, 0))).1.toNat ∨
      loadw ((aszHeader dbuf).drop 2) ≠
        (adlerCalc dbuf (adlerCalc (toBytes 4 dbuf.length) (1, 0))).2.toNat) :=
    not_or.mpr ⟨not_not_intro hsums.1, not_not_intro hsums.2⟩
  unfold readAszdata
  simp only [hheader, hlength, hdlen, hbody]
  rw [if_neg (not_not_intro hlen), if_neg (not_not_intro rfl), if_neg hmatch]

theorem readAszdata_error {e : Stop} (h : readAszdata fd = .error e) :
    ∃ message, e = .err message := by
  unfold readAszdata at h
  dsimp only at h
  split at h
  · exact ⟨_, (Except.error.inj h).symm⟩
  · split at h
    · exact ⟨_, (Except.error.inj h).symm⟩
    · split at h
      · exact ⟨_, (Except.error.inj h).symm⟩
      · exact nomatch h

/-! ### The round trip -/

/-- A plug-in has made `cdata` of `data`. Then nothing is written, since the size of `cdata` is not
one that an `int` and a block of memory can have, or the size of `data` is one that an `int` can
have and they can be recovered from what is written. -/
def Recoverable (c : Compressor) (data cdata : Bytes) : Prop :=
  returned cdata.length = -1 ∨ returned cdata.length < -4 ∨
    0 ≤ returned cdata.length ∧ data.length < 2 ^ 31 ∧ (cdata.length < 2 ^ 31 ∨
      c.decompress data.length (cdata.take (returned cdata.length).toNat) = some data)

section
variable (hget : compressorGet compressors algo = .ok c) (hlen : fd.bytes.length < 2 ^ 32)
include hget hlen

/-- When a file that has been written is read back. -/
theorem minilzopDecompress_file {cdata : Bytes} (hfits : cdata.length < 2 ^ 31) (limits : List ℕ) :
    let dbuf := toBytes 4 fd.bytes.length ++ cdata
    minilzopDecompress compressors algo ⟨aszHeader dbuf ++ dbuf, []⟩ limits = .ok fd.bytes ↔
      fd.bytes.length < 2 ^ 31 ∧ c.decompress fd.bytes.length cdata = some fd.bytes := by
  intro dbuf
  have hdlen : dbuf.length = cdata.length + 4 := by
    rw [List.length_append, length_toBytes, Nat.add_comm]
  have hread : readAszdata ⟨aszHeader dbuf ++ dbuf, []⟩ = .ok dbuf :=
    readAszdata_file (by omega)
  have holen : loadd dbuf = fd.bytes.length := loadd_toBytes hlen cdata
  have hdrop : dbuf.drop 4 = cdata := List.drop_left' (length_toBytes _ _)
  have hshort : ¬dbuf.length < 4 := by omega
  simp only [minilzopDecompress, hget, hread, if_neg hshort, holen, hdrop, outputLoop_eq]
  cases c.decompress fd.bytes.length cdata with
  | none =>
    have hne : ((-1 : ℤ) % 2 ^ 64) ≠ fd.bytes.length := by omega
    rw [Option.elim_none, if_pos hne]
    exact iff_of_false nofun fun h => nomatch h.2
  | some odata =>
    rw [Option.elim_some, Option.getD_some]
    have hsize := returned_mod_iff hlen
    constructor
    · intro h
      split_ifs at h with hn
      have hdata : odata = fd.bytes := Except.ok.inj h
      rw [hdata] at hn ⊢
      exact ⟨hsize.mp (not_not.mp hn), rfl⟩
    · rintro ⟨hlt, hdata⟩
      rw [Option.some.inj hdata, if_neg (not_not_intro (hsize.mpr hlt))]

theorem backsUp_of_restorable (hdecompress : Decompresses c)
    (h : ∀ cdata, c.compress fd.bytes = some cdata → Recoverable c fd.bytes cdata) :
    BacksUp compressors algo fd := by
  refine ⟨slurpFile_eq hlen, fun wrote => ?bounded, fun wrote file hfile limits => ?restores,
    fun dbuf wrote file hfile hwrite limits => ?reads⟩
  case bounded =>
    simp only [minilzopCompress, hget, slurpFile_eq hlen]
    cases hcompress : c.compress fd.bytes with
    | none => exact nofun
    | some cdata =>
      simp only
      split_ifs with hfailed hmemory hwrapped
      · exact nofun
      · exact nofun
      · obtain hno | hno | ⟨hno, -⟩ := h cdata hcompress
        · exact absurd hno hfailed
        · exact absurd hno hmemory
        · omega
      · exact writeAszdata_ne
  case restores =>
    obtain ⟨cdata, hcompress, hsize, hwrite⟩ := minilzopCompress_ok hget hlen hfile
    have hbound := (returned_bounds cdata.length).2
    have htake : (cdata.take (returned cdata.length).toNat).length < 2 ^ 31 := by
      rw [List.length_take]
      omega
    rw [writeAszdata_ok hwrite]
    refine (minilzopDecompress_file hget hlen htake limits).mpr ?_
    obtain hno | hno | ⟨-, hdata, hshort | hlucky⟩ := h cdata hcompress
    · omega
    · omega
    · have hwhole : (returned cdata.length).toNat = cdata.length := by
        rw [returned_eq hshort, Int.toNat_natCast]
      rw [hwhole, List.take_length]
      exact ⟨hdata, hdecompress _ _ hcompress⟩
    · exact ⟨hdata, hlucky⟩
  case reads =>
    obtain ⟨cdata, hcompress, hsize, hwrite'⟩ := minilzopCompress_ok hget hlen hfile
    have hbound := (returned_bounds cdata.length).2
    have heq := (writeAszdata_ok hwrite).symm.trans (writeAszdata_ok hwrite')
    have hdbuf := (List.append_inj heq (by rw [length_aszHeader, length_aszHeader])).2
    have hdlen : dbuf.length < 2 ^ 32 := by
      rw [hdbuf, List.length_append, length_toBytes, List.length_take]
      omega
    have hwhole : readAszdata ⟨file, []⟩ = .ok dbuf := by
      rw [writeAszdata_ok hwrite]
      exact readAszdata_file hdlen
    have hread : (readAszdata ⟨file, limits⟩).toOption = _ := readAszdata_eq limits
    rw [hwhole] at hread
    cases hresult : readAszdata ⟨file, limits⟩ with
    | error e =>
      obtain ⟨message, rfl⟩ := readAszdata_error hresult
      exact .inr ⟨message, rfl⟩
    | ok data =>
      rw [hresult] at hread
      change some data = if _ then some dbuf else none at hread
      split at hread
      · rw [Option.some.inj hread]
        exact .inl rfl
      · exact nomatch hread

/-- The file that is written when both calls of `write` write all of it. -/
theorem minilzopCompress_written {cdata : Bytes} (hcompress : c.compress fd.bytes = some cdata)
    (hsize : 0 ≤ returned cdata.length) :
    let dbuf := toBytes 4 fd.bytes.length ++ cdata.take (returned cdata.length).toNat
    minilzopCompress compressors algo fd (8, dbuf.length) = .ok (aszHeader dbuf ++ dbuf) := by
  intro dbuf
  simp only [minilzopCompress, hget, slurpFile_eq hlen, hcompress]
  rw [if_neg (by omega), if_neg (by omega), if_neg (by omega)]
  unfold writeAszdata
  dsimp only
  rw [if_neg (not_not_intro rfl), if_neg (not_not_intro rfl)]
  rfl

theorem BacksUp.restorable (h : BacksUp compressors algo fd) {cdata : Bytes}
    (hcompress : c.compress fd.bytes = some cdata) : Recoverable c fd.bytes cdata := by
  by_cases hfailed : returned cdata.length = -1
  · exact .inl hfailed
  by_cases hmemory : returned cdata.length < -4
  · exact .inr (.inl hmemory)
  have hsize : 0 ≤ returned cdata.length := by
    by_contra! hwrapped
    refine h.bounded (0, 0) ?_
    simp only [minilzopCompress, hget, slurpFile_eq hlen, hcompress]
    rw [if_neg hfailed, if_neg hmemory, if_pos hwrapped]
  have hbound := (returned_bounds cdata.length).2
  have htake : (cdata.take (returned cdata.length).toNat).length < 2 ^ 31 := by
    rw [List.length_take]
    omega
  have hrestored := h.restores _ _ (minilzopCompress_written hget hlen hcompress hsize) []
  obtain ⟨hdata, hdecompressed⟩ := (minilzopDecompress_file hget hlen htake []).mp hrestored
  exact .inr (.inr ⟨hsize, hdata, .inr hdecompressed⟩)

end

/-- A backup can be restored if and only if its lengths fit an `int`, or nothing is written. -/
theorem backsUp_iff (hget : compressorGet compressors algo = .ok c)
    (hlen : fd.bytes.length < 2 ^ 32) (hdecompress : Decompresses c) :
    BacksUp compressors algo fd ↔
      ∀ cdata, c.compress fd.bytes = some cdata → Recoverable c fd.bytes cdata :=
  ⟨fun h _ hcompress => h.restorable hget hlen hcompress,
    backsUp_of_restorable hget hlen hdecompress⟩

theorem decompresses_cNull : Decompresses cNull := by
  intro data cdata h
  have hinverts := inverts_cNull data cdata h 0 (by omega)
  rwa [List.replicate_zero, List.append_nil] at hinverts

namespace Samples

/-- Three bytes that are read one by one. -/
theorem backsUp_iff_null : BacksUp nullOnly 0 ⟨[1, 2, 3], [0, 0, 0]⟩ := by
  apply (backsUp_iff (c := cNull) rfl (by decide) decompresses_cNull).mpr
  rintro cdata ⟨⟩
  exact .inr (.inr ⟨by decide, by decide, .inl (by decide)⟩)

/-- A plug-in that stores zeros as one byte, and other data as they are. -/
def cZeros : Compressor where
  name := "zeros"
  init := true
  compress data := if data.all (· = 0) then some [0] else some (1 :: data)
  decompress dstlen
    | 0 :: _ => some (List.replicate dstlen 0)
    | _ :: data => some data
    | [] => none

theorem decompresses_cZeros : Decompresses cZeros := by
  intro data cdata h
  simp only [cZeros] at h ⊢
  split at h
  · next hzeros =>
    cases h
    have hdata : data = List.replicate data.length 0 :=
      List.eq_replicate_iff.mpr ⟨rfl, fun b hb => by
        simpa using List.all_eq_true.mp hzeros b hb⟩
    exact congrArg some hdata.symm
  · cases h
    rfl

/-- An `int` cannot say that there are so many zeros. -/
theorem not_backsUp_replicate {n : ℕ} (hlong : 2 ^ 31 ≤ n) (hlen : n < 2 ^ 32) :
    ¬BacksUp (fun _ => some cZeros) 1 ⟨List.replicate n 0, []⟩ := by
  intro h
  have hlength : (List.replicate n (0 : UInt8)).length = n := List.length_replicate
  have hcompress : cZeros.compress (List.replicate n 0) = some [0] :=
    if_pos (List.all_eq_true.mpr fun b hb => by simpa using List.eq_of_mem_replicate hb)
  obtain hno | hno | ⟨-, hshort, -⟩ :=
    h.restorable rfl (by rw [hlength]; exact hlen) hcompress
  · exact absurd hno (by decide)
  · exact absurd hno (by decide)
  · exact absurd (hlength.symm.trans_lt hshort) (not_lt.mpr hlong)

/-- `2 ^ 31` zeros are written and not restored. -/
theorem not_backsUp_zeros :
    ¬∀ (compressors : UInt8 → Option Compressor) (algo : UInt8) (c : Compressor) (fd : Fd),
      compressorGet compressors algo = .ok c → fd.bytes.length < 2 ^ 32 → Decompresses c →
        BacksUp compressors algo fd := fun h =>
  not_backsUp_replicate (n := 2 ^ 31) le_rfl (by decide)
    (h _ 1 cZeros _ rfl (List.length_replicate.trans_lt (by decide)) decompresses_cZeros)

end Samples
end OpenADK.Cfgfs
