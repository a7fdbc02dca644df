import OpenADK.Cfgfs.Pack
import Mathlib.Data.Vector.Basic

/-!
# The outer container

`fwcf_pack` puts a header, the compressed data and a checksum into a whole number of flash
blocks; `fwcf_unpack` reads them from a descriptor.
-/

namespace OpenADK.Cfgfs
open LittleEndian

/-! ### Parameters -/

/-- Why a program stops: it says so, or the model does because it reads beyond a buffer. -/
inductive Stop
  | err (message : String)
  | beyondBuffer
  deriving DecidableEq, Repr

def flashBlock : ℕ := 65536

def flashPart : ℕ := 16777215

def fwcfVer : ℕ := 0x01

/-- A compression plug-in. `init` says whether it can be initialised; `compress` and
`decompress` say what is at the destination afterwards, or nothing on failure. The calls
themselves return an `int`, which counts these bytes as `returned` does. -/
structure Compressor where
  name : String
  init : Bool
  compress : Bytes → Option Bytes
  /-- Gets the size of the destination and the source. -/
  decompress : ℕ → Bytes → Option Bytes

/-- A size as an `int`. The sizes in an image are below `2 ^ 24`, so that there it is the size. -/
def returned (size : ℕ) : ℤ := Int.bmod size (2 ^ 32)

def compressorGet (compressors : UInt8 → Option Compressor) (algo : UInt8) :
    Except Stop Compressor :=
  match compressors algo with
  | none => .error <| .err s!"compression algorithm {algo} not loaded"
  | some c => if c.init then .ok c else .error <| .err s!"cannot initialise {c.name} compression"

/-- The plug-in `null` of `c_null.c`, which copies. -/
def cNull : Compressor where
  name := "null"
  init := true
  compress src := some src
  decompress dstlen src := some (src.take (min src.length dstlen))

/-- A descriptor: the bytes that are left, and for each read to come how many bytes it delivers
at most, less one. Reads without such a limit deliver as many bytes as are left. -/
structure Fd where
  bytes : Bytes
  limits : List ℕ := []

namespace Fd

def limit (fd : Fd) (n : ℕ) : ℕ :=
  match fd.limits with
  | [] => n
  | k :: _ => min n (k + 1)

/-- `read` with room for `n` bytes. -/
def read (fd : Fd) (n : ℕ) : Bytes × Fd :=
  (fd.bytes.take (fd.limit n), ⟨fd.bytes.drop (fd.limit n), fd.limits.tail⟩)

theorem read_unlimited (bytes : Bytes) (n : ℕ) :
    read { bytes := bytes } n = (bytes.take n, { bytes := bytes.drop n }) := rfl

end Fd

/-! ### `ADLER_CALC` -/

def adlerBase : UInt32 := 65521

def adlerNmax : ℕ := 5552

/-- `s1` and `s2`, which are `unsigned`. -/
abbrev Sums : Type := UInt32 × UInt32

def adlerByte (s : Sums) (b : UInt8) : Sums := (s.1 + b.toUInt32, s.2 + (s.1 + b.toUInt32))

/-- `ADLER_CALC`: at most `ADLER_NMAX` bytes between two reductions. -/
def adlerCalc (buf : Bytes) (s : Sums) : Sums :=
  if buf = [] then s
  else
    let t := (buf.take adlerNmax).foldl adlerByte s
    adlerCalc (buf.drop adlerNmax) (t.1 % adlerBase, t.2 % adlerBase)
termination_by buf.length
decreasing_by
  have := List.length_pos_iff.mpr ‹_›
  simp only [List.length_drop, adlerNmax]
  omega

/-- The sums over the first `len` bytes, from the values of `ADLER_DECL`. -/
def adlerSums (data : Bytes) (len : ℕ) : Sums := adlerCalc (data.take len) (1, 0)

/-! ### `fwcf_pack` -/

/-- The header goes into a buffer with room for `hdrsize` bytes. -/
def mkheader (hdrsize outerLen innerLen : ℕ) (algo : UInt8) : Option Header :=
  (storeb 'F'.toNat ⟨[], hdrsize⟩).bind fun h =>
  (storeb 'W'.toNat h).bind fun h =>
  (storeb 'C'.toNat h).bind fun h =>
  (storeb 'F'.toNat h).bind fun h =>
  (stored (outerLen % 2 ^ 24 + fwcfVer * 2 ^ 24 : ℕ) h).bind fun h =>
  stored (innerLen % 2 ^ 24 + algo.toNat * 2 ^ 24 : ℕ) h

/-- The trailer behind the first `len` bytes. -/
def mktrailer (data : Bytes) (len : ℕ) : Option Header :=
  (storew (adlerSums data len).1.toNat ⟨[], 4⟩).bind fun h => storew (adlerSums data len).2.toNat h

/-- `while (k & 3) data[k++] = 0` -/
def padded (data : Bytes) : Bytes :=
  if data.length % 4 = 0 then data else padded (data ++ [0])
termination_by (4 - data.length % 4) % 4
decreasing_by
  rw [List.length_append, List.length_singleton]
  omega

/-- The image. `rndata n` are the `n` bytes that `pull_rndata` leaves at the end. -/
def fwcfPack (compressors : UInt8 → Option Compressor) (rndata : ∀ n, List.Vector UInt8 n)
    (odata : Bytes) (algo : UInt8) : Except Stop Bytes :=
  if odata.length > 0xFFFFFF then .error <| .err s!"inner size of {odata.length} too large"
  else
    match compressorGet compressors algo with
    | .error e => .error e
    | .ok c =>
      match c.compress odata with
      | none => .error <| .err s!"{c.name} compression failed"
      | some cdata =>
        let k := (cdata.length + 19) / 4 * 4
        if k > flashPart then
          .error <| .err s!"{k} bytes too large for flash partition of {flashPart / 1024} KiB"
        else
          let dstsz := (k + (flashBlock - 1)) / flashBlock * flashBlock
          let header := ((mkheader dstsz k odata.length algo).map Header.bytes).getD []
          let data := padded (header ++ cdata)
          let trailer := ((mktrailer data data.length).map Header.bytes).getD []
          let image := data ++ trailer
          .ok (image ++ (rndata (dstsz - image.length)).toList)

/-! ### `fwcf_unpack` -/

/-- The data, `*inner`, and what `push_rndata` gets. -/
structure Unpacked where
  udata : Bytes
  inner : ℕ
  rndata : Bytes
  deriving DecidableEq, Repr

def fwcfUnpack (compressors : UInt8 → Option Compressor) (fd : Fd) : Except Stop Unpacked :=
  let (hdrbuf, fd) := fd.read 12
  if hdrbuf.length ≠ 12 then .error <| .err "read"
  else if hdrbuf.take 4 ≠ [70, 87, 67, 70] then .error <| .err "file format error"
  else
    let outer := loadt (hdrbuf.drop 4)
    if (hdrbuf.getD 7 0).toNat > fwcfVer then
      .error <| .err s!"wrong file version {hdrbuf.getD 7 0}"
    else
      let inner := loadt (hdrbuf.drop 8)
      let c := hdrbuf.getD 11 0
      let maxln := (outer + (flashBlock - 1)) / flashBlock * flashBlock
      let (rest, _) := fd.read (maxln - 12)
      if maxln < 12 then .error .beyondBuffer
      else if (rest.length : ℤ) < (outer : ℤ) - 12 then .error <| .err "read"
      else if outer < 4 then .error .beyondBuffer -- `outer - 4` wraps around
      else
        let cdata := hdrbuf ++ rest
        let sums := adlerSums cdata (outer - 4)
        if sums.1.toNat ≠ loadw (cdata.drop (outer - 4)) ∨
            sums.2.toNat ≠ loadw (cdata.drop (outer - 2)) then
          .error <| .err "crc mismatch"
        else
          match compressorGet compressors c with
          | .error e => .error e
          | .ok compressor =>
            if outer < 16 then .error .beyondBuffer -- `outer - 16` wraps around
            else match compressor.decompress inner ((cdata.drop 12).take (outer - 16)) with
            | none => .error <| .err "size mismatch"
            | some udata =>
              if udata.length ≠ inner then .error <| .err "size mismatch"
              else .ok ⟨udata, inner, cdata.drop outer⟩

end OpenADK.Cfgfs
