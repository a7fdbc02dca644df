import OpenADK.Cfgfs.Asz
import OpenADK.Cfgfs.RoundTrip

/-!
# The tool

`main` of `tool.c`: images are made of directories, compressed anew, saved to files and restored
from them, and extracted. Whatever is done with an image in between, what is extracted is what was
packed.
-/

namespace OpenADK.Cfgfs
open LittleEndian Records

/-! ### The modes -/

/-- What `-M` packs: a directory, the file that `-D` names, or nothing with `-e`. -/
inductive Material
  | directory (es : List Entry)
  | file (dfd : Fd)
  | empty

namespace Material

def data : Material → Except Stop Bytes
  | .directory es =>
    match ftPackm es with
    | none => .error <| .err "cannot pack"
    | some data => .ok data
  | .file dfd => readAszdata dfd
  | .empty => .ok [0]

end Material

/-- The status with which the tool exits when `write` has written so many bytes of the image, and
these bytes. -/
def writeImage (image : Bytes) (wrote : ℕ) : ℕ × Bytes :=
  (if wrote = image.length then 0 else 1, image.take wrote)

section
variable (compressors : UInt8 → Option Compressor) (rndata : ∀ n, List.Vector UInt8 n)

/-- The algorithm of `-C`. With `-c` it is the first one that is registered, where the one with
the number 0 comes last. -/
def getCalg : Option UInt8 → Except Stop UInt8
  | some calg => .ok calg
  | none =>
    match (List.range' 1 256).find? fun calg => (compressors (UInt8.ofNat calg)).isSome with
    | none => .error <| .err "no compression algorithms found"
    | some calg => .ok (UInt8.ofNat calg)

/-- `-M` -/
def mkfwcf (material : Material) (calg : Option UInt8) (wrote : ℕ) : Except Stop (ℕ × Bytes) :=
  (getCalg compressors calg).bind fun algo =>
    material.data.bind fun data =>
      (fwcfPack compressors rndata data algo).map fun image => writeImage image wrote

/-- `-R` -/
def refwcf (ifd : Fd) (calg : Option UInt8) (wrote : ℕ) : Except Stop (ℕ × Bytes) :=
  (getCalg compressors calg).bind fun algo =>
    (fwcfUnpack compressors ifd).bind fun unpacked =>
      (fwcfPack compressors rndata unpacked.udata algo).map fun image => writeImage image wrote

/-- `-U` with a directory -/
def unfwcf (ifd : Fd) : Except Stop (Except Fault (List Call)) :=
  (fwcfUnpack compressors ifd).map fun unpacked => ftCreatm unpacked.udata

/-- `-U` with `-D` -/
def saveData (ifd : Fd) (wrote : ℕ × ℕ) : Except Stop Bytes :=
  (fwcfUnpack compressors ifd).bind fun unpacked => writeAszdata unpacked.udata wrote

end

/-! ### Conversions -/

/-- An image is compressed anew, or its data are saved to a file and packed from it. How much the
calls of `read` deliver and of `write` write is left open, and so are the bytes of the padding. -/
inductive Conversion
  | recompress (limits : List ℕ) (rndata : ∀ n, List.Vector UInt8 n) (calg : Option UInt8)
    (wrote : ℕ)
  | throughFile (limits : List ℕ) (saved : ℕ × ℕ) (limits' : List ℕ)
    (rndata : ∀ n, List.Vector UInt8 n) (calg : Option UInt8) (wrote : ℕ)

variable (compressors : UInt8 → Option Compressor)

def Conversion.run (image : Bytes) : Conversion → Except Stop (ℕ × Bytes)
  | .recompress limits rndata calg wrote => refwcf compressors rndata ⟨image, limits⟩ calg wrote
  | .throughFile limits saved limits' rndata calg wrote =>
    (saveData compressors ⟨image, limits⟩ saved).bind fun file =>
      mkfwcf compressors rndata (.file ⟨file, limits'⟩) calg wrote

/-- One conversion after the other, as long as they exit with 0. -/
def convertAll : List Conversion → Bytes → Except Stop (ℕ × Bytes)
  | [], image => .ok (0, image)
  | c :: cs, image =>
    (c.run compressors image).bind fun (status, image) =>
      if status = 0 then convertAll cs image else .ok (status, image)

/-- The image has these data, and fills whole flash blocks. -/
structure Holds (image data : Bytes) : Prop where
  unpacked : unpackedData compressors ⟨image, []⟩ = some (data, data.length)
  length : data.length < 2 ^ 24
  blocks : flashBlock ∣ image.length

section
variable {compressors} {rndata : ∀ n, List.Vector UInt8 n} {image data file : Bytes}
  {calg : Option UInt8} {algo : UInt8} {wrote status : ℕ} {limits : List ℕ}

theorem except_bind_ok {ε α β : Type} {x : Except ε α} {f : α → Except ε β} {b : β} :
    x.bind f = .ok b ↔ ∃ a, x = .ok a ∧ f a = .ok b := by
  cases x with
  | error e => exact ⟨fun h => (nomatch h), fun ⟨_, h, _⟩ => (nomatch h)⟩
  | ok a => exact ⟨fun h => ⟨a, rfl, h⟩, fun ⟨_, ha, h⟩ => Except.ok.inj ha ▸ h⟩

theorem except_map_ok {ε α β : Type} {x : Except ε α} {f : α → β} {b : β} :
    x.map f = .ok b ↔ ∃ a, x = .ok a ∧ f a = b := by
  cases x with
  | error e => exact ⟨fun h => (nomatch h), fun ⟨_, h, _⟩ => (nomatch h)⟩
  | ok a => exact ⟨fun h => ⟨a, rfl, Except.ok.inj h⟩,
      fun ⟨_, ha, h⟩ => congrArg Except.ok (Except.ok.inj ha ▸ h)⟩

/-- The tool exits with 0 only if all of the image has been written. -/
theorem writeImage_zero {image' : Bytes} (h : writeImage image wrote = (0, image')) :
    image' = image := by
  unfold writeImage at h
  split at h
  · next hwrote =>
    have himage := (Prod.ext_iff.mp h).2
    rwa [hwrote, List.take_length, eq_comm] at himage
  · cases (Prod.ext_iff.mp h).1

variable (hinverts : ∀ algo c, compressors algo = some c → Inverts c)
include hinverts

/-- What has been packed is in the image. -/
theorem holds_fwcfPack (hpack : fwcfPack compressors rndata data algo = .ok image) :
    Holds compressors image data := by
  obtain ⟨c, cdata, m, hget, hcompress, hm, hinner, houter, rfl⟩ := fwcfPack_eq hpack
  have hbody : cdata.length + m = (cdata ++ List.replicate m (0 : UInt8)).length := by
    rw [List.length_append, List.length_replicate]
  have hle : cdata.length + m + 16 ≤
      (cdata.length + m + 16 + (flashBlock - 1)) / flashBlock * flashBlock := by
    unfold flashBlock
    omega
  have hdecompress := hinverts algo c (compressorGet_ok hget) _ _ hcompress m hm
  refine ⟨?_, hinner, ?_⟩
  · rw [unpackedData, hbody, fwcfUnpack_image hget hdecompress hinner rfl (by omega) rfl]
    · rfl
    · rw [← hbody, List.Vector.toList_length]
      omega
  · refine ⟨(cdata.length + m + 16 + (flashBlock - 1)) / flashBlock, ?_⟩
    simp only [List.length_append, length_headerBytes, length_trailerBytes,
      List.Vector.toList_length, List.length_replicate]
    rw [Nat.mul_comm flashBlock]
    omega

theorem holds_mkfwcf {material : Material} (hdata : material.data = .ok data)
    (h : mkfwcf compressors rndata material calg wrote = .ok (0, image)) :
    Holds compressors image data := by
  obtain ⟨algo, -, h⟩ := except_bind_ok.mp h
  obtain ⟨data', hdata', h⟩ := except_bind_ok.mp h
  obtain ⟨image', hpack, hwrite⟩ := except_map_ok.mp h
  rw [← Except.ok.inj (hdata.symm.trans hdata')] at hpack
  rw [writeImage_zero hwrite]
  exact holds_fwcfPack hinverts hpack

omit hinverts in
/-- Only the data are read from an image. -/
theorem Holds.udata {unpacked : Unpacked} (hholds : Holds compressors image data)
    (h : fwcfUnpack compressors ⟨image, limits⟩ = .ok unpacked) : unpacked.udata = data := by
  have heq := @unpackedData_eq compressors image limits
  rw [hholds.unpacked, unpackedData, h] at heq
  split at heq
  · exact (Prod.ext_iff.mp (Option.some.inj heq)).1
  · cases heq

theorem Holds.refwcf (hholds : Holds compressors image data) {image' : Bytes}
    (h : refwcf compressors rndata ⟨image, limits⟩ calg wrote = .ok (0, image')) :
    Holds compressors image' data := by
  obtain ⟨algo, -, h⟩ := except_bind_ok.mp h
  obtain ⟨unpacked, hunpack, h⟩ := except_bind_ok.mp h
  obtain ⟨packed, hpack, hwrite⟩ := except_map_ok.mp h
  rw [hholds.udata hunpack] at hpack
  rw [writeImage_zero hwrite]
  exact holds_fwcfPack hinverts hpack

omit hinverts in
/-- The file that is saved has the data. -/
theorem Holds.readAszdata_saveData (hholds : Holds compressors image data) {saved : ℕ × ℕ}
    (h : saveData compressors ⟨image, limits⟩ saved = .ok file) {limits' : List ℕ}
    {data' : Bytes} (hread : readAszdata ⟨file, limits'⟩ = .ok data') : data' = data := by
  obtain ⟨unpacked, hunpack, h⟩ := except_bind_ok.mp h
  rw [hholds.udata hunpack] at h
  have hlen : data.length < 2 ^ 32 := hholds.length.trans (by decide)
  have heq := @readAszdata_eq file limits'
  rw [hread, writeAszdata_ok h, readAszdata_file hlen] at heq
  split at heq
  · exact Option.some.inj heq
  · cases heq

theorem Holds.run (hholds : Holds compressors image data) {c : Conversion} {image' : Bytes}
    (h : c.run compressors image = .ok (0, image')) : Holds compressors image' data := by
  cases c with
  | recompress limits rndata calg wrote => exact hholds.refwcf hinverts h
  | throughFile limits saved limits' rndata calg wrote =>
    obtain ⟨file, hsave, h⟩ := except_bind_ok.mp h
    have hmake := h
    obtain ⟨algo, -, h⟩ := except_bind_ok.mp h
    obtain ⟨data', hread, -⟩ := except_bind_ok.mp h
    cases hholds.readAszdata_saveData hsave hread
    exact holds_mkfwcf hinverts hread hmake

theorem Holds.convertAll {cs : List Conversion} (hholds : Holds compressors image data)
    {image' : Bytes} (h : convertAll compressors cs image = .ok (0, image')) :
    Holds compressors image' data := by
  induction cs generalizing image with
  | nil =>
    cases h
    exact hholds
  | cons c cs ih =>
    obtain ⟨⟨status, next⟩, hrun, h⟩ := except_bind_ok.mp h
    simp only at h
    split at h
    · next hstatus =>
      subst hstatus
      exact ih (hholds.run hinverts hrun) h
    · next hstatus =>
      cases h
      exact absurd rfl hstatus

omit hinverts in
theorem Holds.whole (hholds : Holds compressors image data) : Whole ⟨image, []⟩ := by
  by_contra hwhole
  have hunpacked := hholds.unpacked
  rw [unpackedData_eq, if_neg hwhole] at hunpacked
  cases hunpacked

omit hinverts in
/-- An image that is delivered whole is extracted, and another one is rejected. -/
theorem Holds.unfwcf (hholds : Holds compressors image data) (limits : List ℕ) :
    (Whole ⟨image, limits⟩ → unfwcf compressors ⟨image, limits⟩ = .ok (ftCreatm data)) ∧
      (¬Whole ⟨image, limits⟩ → ∃ message,
        unfwcf compressors ⟨image, limits⟩ = .error (.err message)) := by
  constructor
  · intro hwhole
    have heq := @unpackedData_eq compressors image limits
    rw [if_pos hwhole, hholds.unpacked, unpackedData] at heq
    cases hunpack : fwcfUnpack compressors ⟨image, limits⟩ with
    | error e =>
      rw [hunpack] at heq
      cases heq
    | ok unpacked =>
      rw [Cfgfs.unfwcf, hunpack, ← hholds.udata hunpack]
      rfl
  · intro hwhole
    obtain ⟨message, hreject⟩ := @fwcfUnpack_of_not_whole compressors _ _ hwhole
    exact ⟨message, by rw [Cfgfs.unfwcf, hreject]; rfl⟩

end

/-- The calls for a packed tree. -/
theorem ftCreatm_ftPackm {es : List Entry} {data : Bytes}
    (hpaths : ∀ e ∈ es, e.pathname ≠ [] ∧ 0 ∉ e.pathname) (hpack : ftPackm es = some data)
    (hlen : data.length < 2 ^ 24) : ftCreatm data = .ok
      ((es.filter Entry.packable).flatMap (fun e => e.created.calls) ++
        (es.filter Entry.packable).reverse.flatMap fun e => e.created.popCalls) := by
  obtain ⟨rv, hrv, rfl⟩ := Option.map_eq_some_iff.mp hpack
  obtain ⟨rfl, hall⟩ := ftPackEntries_eq hrv
  have hfront : ∀ e ∈ es.filter Entry.packable, ∃ c cs, e.packed = c :: cs ∧ isNul c = false := by
    intro e he
    obtain ⟨hne, hnul⟩ := hpaths e (List.mem_filter.mp he).1
    obtain ⟨c, cs, hc⟩ := List.exists_cons_of_ne_nil hne
    refine ⟨c, cs ++ 0 :: (e.attributes ++ 0 :: e.data), by rw [Entry.packed, hc]; rfl, ?_⟩
    exact decide_eq_false fun h => hnul (by rw [hc, h]; exact List.mem_cons_self)
  have hcreat : creatEntries ((es.filter Entry.packable).flatMap Entry.packed ++ [0]) =
      .ok ((es.filter Entry.packable).map Entry.found, [0]) := by
    refine readAll_flatMap hfront (fun e he rest => ?_) (fun e _ => rfl) (by decide)
    obtain ⟨hmem, hpackable⟩ := List.mem_filter.mp he
    obtain ⟨-, hdata⟩ := hall e hmem hpackable
    have hlt : e.size < 256 ^ 3 := size_lt hmem hpackable hdata rfl (by omega)
    exact ftCreat_packed (hpaths e hmem).2 hpackable hdata hlt rest
  rw [ftCreatm, hcreat]
  simp only [Except.map, List.flatMap_map, ← List.map_reverse]
  rfl

/-- A directory that is packed, converted any number of times and extracted: every call makes
or changes what was packed. -/
theorem unfwcf_convertAll_mkfwcf {compressors : UInt8 → Option Compressor}
    (hinverts : ∀ algo c, compressors algo = some c → Inverts c) {es : List Entry}
    (hpaths : ∀ e ∈ es, e.pathname ≠ [] ∧ 0 ∉ e.pathname)
    {rndata : ∀ n, List.Vector UInt8 n} {calg : Option UInt8} {wrote : ℕ} {image image' : Bytes}
    (hmake : mkfwcf compressors rndata (.directory es) calg wrote = .ok (0, image))
    {cs : List Conversion} (hconvert : convertAll compressors cs image = .ok (0, image')) :
    flashBlock ∣ image'.length ∧ Whole ⟨image', []⟩ ∧ ∀ limits,
      (Whole ⟨image', limits⟩ → unfwcf compressors ⟨image', limits⟩ = .ok (.ok
        ((es.filter Entry.packable).flatMap (fun e => e.created.calls) ++
          (es.filter Entry.packable).reverse.flatMap fun e => e.created.popCalls))) ∧
      (¬Whole ⟨image', limits⟩ →
        ∃ message, unfwcf compressors ⟨image', limits⟩ = .error (.err message)) := by
  have hdata : ∃ data, (Material.directory es).data = .ok data := by
    obtain ⟨algo, -, h⟩ := except_bind_ok.mp hmake
    obtain ⟨data, hdata, -⟩ := except_bind_ok.mp h
    exact ⟨data, hdata⟩
  obtain ⟨data, hdata⟩ := hdata
  have hholds := (holds_mkfwcf hinverts hdata hmake).convertAll hinverts hconvert
  have hpack : ftPackm es = some data := by
    rw [Material.data] at hdata
    split at hdata
    · cases hdata
    · next hpack =>
      cases hdata
      exact hpack
  refine ⟨hholds.blocks, hholds.whole, fun limits => ⟨fun h => ?_, (hholds.unfwcf limits).2⟩⟩
  rw [(hholds.unfwcf limits).1 h, ftCreatm_ftPackm hpaths hpack hholds.length]

namespace Samples

def sevens (n : ℕ) : List.Vector UInt8 n := .replicate n 7

theorem inverts_nullOnly (algo : UInt8) (c : Compressor) (h : nullOnly algo = some c) :
    Inverts c := by
  unfold nullOnly at h
  split at h
  · cases h
    exact inverts_cNull
  · cases h

/-- The tree is packed, and its image is compressed anew. -/
theorem unfwcf_convertAll_mkfwcf_tree : ∃ file,
    mkfwcf nullOnly sevens (.directory tree) none file.length = .ok (0, file) ∧
      convertAll nullOnly [.recompress [] sevens none file.length] file = .ok (0, file) ∧
      flashBlock ∣ file.length ∧ unfwcf nullOnly ⟨file, []⟩ = .ok (.ok
        (tree.flatMap (fun e => e.created.calls) ++
          tree.reverse.flatMap fun e => e.created.popCalls)) := by
  obtain ⟨file, hfile⟩ : ∃ file, fwcfPack nullOnly sevens image 0 = .ok file := ⟨_, rfl⟩
  have hcalg : getCalg nullOnly none = .ok 0 := rfl
  have hpack : ftPackm tree = some image := by decide
  have hwrite : writeImage file file.length = (0, file) := by
    rw [writeImage, if_pos rfl, List.take_length]
  have hmake : mkfwcf nullOnly sevens (.directory tree) none file.length = .ok (0, file) := by
    simp only [mkfwcf, hcalg, Material.data, hpack, Except.bind, hfile, Except.map, hwrite]
  have hholds := holds_fwcfPack inverts_nullOnly hfile
  have hconvert : convertAll nullOnly [.recompress [] sevens none file.length] file =
      .ok (0, file) := by
    cases hunpack : fwcfUnpack nullOnly ⟨file, []⟩ with
    | error e =>
      have hunpacked := hholds.unpacked
      rw [unpackedData, hunpack] at hunpacked
      cases hunpacked
    | ok unpacked =>
      simp only [convertAll, Conversion.run, refwcf, hcalg, hunpack, hholds.udata hunpack,
        Except.bind, hfile, Except.map, hwrite, if_true]
  obtain ⟨hblocks, hwhole, hextract⟩ := unfwcf_convertAll_mkfwcf inverts_nullOnly
    (by decide : ∀ e ∈ tree, e.pathname ≠ [] ∧ 0 ∉ e.pathname) hmake hconvert
  exact ⟨file, hmake, hconvert, hblocks, (hextract []).1 hwhole⟩

end Samples

end OpenADK.Cfgfs
