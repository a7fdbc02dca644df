import OpenADK.Library.LittleEndian

/-!
# Packing the inner filesystem

`ft_pack` writes one entry, `ft_packm` all of them. A buffer is the list of its bytes; the
length that the functions put before their result is the length of the list. Memory can
always be allocated.
-/

namespace OpenADK.Cfgfs
open LittleEndian

abbrev Bytes : Type := List UInt8

/-! ### The `STORE` and `LOAD` macros -/

/-- What has been stored through `hdrptr`, and `hdrleft`. -/
structure Header where
  bytes : Bytes
  left : ℕ

/-- `STOREB`, `STOREW` and `STORED` store 1, 2 and 4 bytes. -/
def store (k : ℕ) (x : ℤ) (h : Header) : Option Header :=
  if h.left < k then none else some ⟨h.bytes ++ toBytes k x, h.left - k⟩

def storeb (x : ℤ) : Header → Option Header := store 1 x

def storew (x : ℤ) : Header → Option Header := store 2 x

def stored (x : ℤ) : Header → Option Header := store 4 x

/-- `LOADW`, `LOADT` and `LOADD` load 2, 3 and 4 bytes. -/
def load (k : ℕ) (p : Bytes) : ℕ := ofBytes (p.take k)

def loadw (p : Bytes) : ℕ := load 2 p

def loadt (p : Bytes) : ℕ := load 3 p

def loadd (p : Bytes) : ℕ := load 4 p

/-! ### Entries -/

inductive EntryType
  | dir | file | symlink | other
  deriving DecidableEq, Repr

/-- The fields of `struct stat` that are packed. -/
structure Stat where
  size : ℕ
  mtime : ℤ
  gid : UInt32
  mode : UInt32
  uid : UInt32

/-- What `ftsf_next` returns. -/
structure Entry where
  pathname : Bytes
  stat : Stat
  etype : EntryType
  /-- What `open` and `read`, or `readlink`, find at the path. -/
  contents : Option Bytes

/-- An attribute with a short and a long form, which zero leaves out. -/
def storeAttribute (upper lower : Char) (long short : ℕ) (limit x : ℕ) (h : Header) :
    Option Header :=
  if x > limit then (storeb upper.toNat h).bind (store long x)
  else if x ≠ 0 then (storeb lower.toNat h).bind (store short x)
  else some h

def storeType (etype : EntryType) (h : Header) : Option Header :=
  match etype with
  | .symlink => storeb 0x03 h
  | .dir => storeb 0x05 h
  | .file | .other => some h

def storeMtime (mtime : ℤ) (h : Header) : Option Header :=
  if mtime ≠ 0 then (storeb 0x10 h).bind (stored mtime) else some h

/-- `strlcpy` into the header. -/
def storePath (pathname : Bytes) (h : Header) : Option Header :=
  if pathname.length ≥ h.left then none
  else some ⟨h.bytes ++ (pathname ++ [0]), h.left - (pathname.length + 1)⟩

/-- Reads exactly `size` bytes. -/
def readData (contents : Option Bytes) (size : ℕ) : Option Bytes :=
  if size = 0 then some []
  else
    match contents with
    | none => none
    | some data => if (data.take size).length = size then some (data.take size) else none

namespace Entry

/-- `st_mtime`, which is cleared for a symlink. -/
def mtime (e : Entry) : ℤ := if e.etype = .symlink then 0 else e.stat.mtime

/-- `st_mode`, which is cleared for a symlink. -/
def mode (e : Entry) : ℕ := if e.etype = .symlink then 0 else e.stat.mode.toNat

/-- `e_size` -/
def size (e : Entry) : ℕ := if e.etype = .dir then 0 else e.stat.size

/-- `FTSF_FILE`, `FTSF_SYMLINK` and `FTSF_DIR` are packed. -/
def packable (e : Entry) : Bool := e.etype ≠ .other

end Entry

def ftPack (e : Entry) : Option Bytes :=
  if e.packable then
    (storePath e.pathname ⟨[], 4096⟩).bind fun h =>
    (storeType e.etype h).bind fun h =>
    (storeMtime e.mtime h).bind fun h =>
    (storeAttribute 'G' 'g' 4 1 0xFF e.stat.gid.toNat h).bind fun h =>
    (storeAttribute 'M' 'm' 4 2 0xFFFF e.mode h).bind fun h =>
    (storeAttribute 'U' 'u' 4 1 0xFF e.stat.uid.toNat h).bind fun h =>
    (storeAttribute 'S' 's' 3 1 0xFF e.size h).bind fun h =>
    (storeb 0 h).bind fun h =>
    (readData e.contents e.size).map fun data => h.bytes ++ data
  else none

/-- The entries one after the other; those that are not packable are skipped. `none` if an
entry cannot be packed. -/
def ftPackEntries : List Entry → Option Bytes
  | [] => some []
  | e :: es =>
    if e.packable then
      (ftPack e).bind fun afile => (ftPackEntries es).map fun rv => afile ++ rv
    else ftPackEntries es

def ftPackm (es : List Entry) : Option Bytes := (ftPackEntries es).map fun rv => rv ++ [0]

/-! ### What a packed entry is -/

variable {h h' : Header} {e : Entry} {es : List Entry} {out : Bytes}

def attributeBytes (upper lower : Char) (long short : ℕ) (limit x : ℕ) : Bytes :=
  if x > limit then UInt8.ofNat upper.toNat :: toBytes long x
  else if x ≠ 0 then UInt8.ofNat lower.toNat :: toBytes short x
  else []

def typeBytes : EntryType → Bytes
  | .symlink => [0x03]
  | .dir => [0x05]
  | .file | .other => []

def mtimeBytes (mtime : ℤ) : Bytes := if mtime ≠ 0 then 0x10 :: toBytes 4 mtime else []

namespace Entry

def attributes (e : Entry) : Bytes :=
  typeBytes e.etype ++ (mtimeBytes e.mtime ++
    (attributeBytes 'G' 'g' 4 1 0xFF e.stat.gid.toNat ++
      (attributeBytes 'M' 'm' 4 2 0xFFFF e.mode ++
        (attributeBytes 'U' 'u' 4 1 0xFF e.stat.uid.toNat ++
          attributeBytes 'S' 's' 3 1 0xFF e.size))))

/-- What was read of the file or of the link. -/
def data (e : Entry) : Bytes := (e.contents.getD []).take e.size

def packed (e : Entry) : Bytes := e.pathname ++ (0 :: (e.attributes ++ (0 :: e.data)))

end Entry

theorem bytes_of_store {k : ℕ} {x : ℤ} (hs : store k x h = some h') :
    h'.bytes = h.bytes ++ toBytes k x := by
  unfold store at hs
  split at hs
  · cases hs
  · cases hs
    rfl

theorem toBytes_one (n : ℕ) : toBytes 1 n = [UInt8.ofNat n] := by
  rw [toBytes, toBytes]
  congr 1
  apply UInt8.toNat_inj.mp
  simp only [UInt8.toNat_ofNat']
  omega

theorem bytes_of_storeb {n : ℕ} (hs : storeb n h = some h') :
    h'.bytes = h.bytes ++ [UInt8.ofNat n] := by
  rw [bytes_of_store hs, toBytes_one]

theorem bytes_of_storeAttribute {upper lower : Char} {long short limit x : ℕ}
    (hs : storeAttribute upper lower long short limit x h = some h') :
    h'.bytes = h.bytes ++ attributeBytes upper lower long short limit x := by
  unfold storeAttribute at hs
  unfold attributeBytes
  split_ifs at hs ⊢
  · obtain ⟨h1, hs1, hs2⟩ := Option.bind_eq_some_iff.mp hs
    rw [bytes_of_store hs2, bytes_of_storeb hs1, List.append_assoc, List.singleton_append]
  · obtain ⟨h1, hs1, hs2⟩ := Option.bind_eq_some_iff.mp hs
    rw [bytes_of_store hs2, bytes_of_storeb hs1, List.append_assoc, List.singleton_append]
  · cases hs
    rw [List.append_nil]

theorem bytes_of_storeType {etype : EntryType} (hs : storeType etype h = some h') :
    h'.bytes = h.bytes ++ typeBytes etype := by
  cases etype with
  | symlink => exact bytes_of_storeb hs
  | dir => exact bytes_of_storeb hs
  | file | other =>
    cases hs
    exact (List.append_nil _).symm

theorem bytes_of_storeMtime {mtime : ℤ} (hs : storeMtime mtime h = some h') :
    h'.bytes = h.bytes ++ mtimeBytes mtime := by
  unfold storeMtime at hs
  unfold mtimeBytes
  split_ifs at hs ⊢
  · obtain ⟨h1, hs1, hs2⟩ := Option.bind_eq_some_iff.mp hs
    rw [bytes_of_store hs2, bytes_of_storeb hs1, List.append_assoc, List.singleton_append]
    rfl
  · cases hs
    rw [List.append_nil]

theorem readData_eq {size : ℕ} {contents : Option Bytes} (hr : readData contents size = some out) :
    out = (contents.getD []).take size ∧ out.length = size := by
  unfold readData at hr
  split at hr
  · next hsize =>
    cases hr
    rw [hsize, List.take_zero]
    exact ⟨rfl, rfl⟩
  · split at hr
    · cases hr
    · split at hr
      · next hlen =>
        cases hr
        exact ⟨rfl, hlen⟩
      · cases hr

/-- A packed entry: the path, the attributes and the data. -/
theorem ftPack_eq (hp : ftPack e = some out) :
    out = e.packed ∧ e.data.length = e.size ∧ e.packable := by
  unfold ftPack at hp
  split at hp
  · next hpackable =>
    obtain ⟨h1, hs1, hp⟩ := Option.bind_eq_some_iff.mp hp
    obtain ⟨h2, hs2, hp⟩ := Option.bind_eq_some_iff.mp hp
    obtain ⟨h3, hs3, hp⟩ := Option.bind_eq_some_iff.mp hp
    obtain ⟨h4, hs4, hp⟩ := Option.bind_eq_some_iff.mp hp
    obtain ⟨h5, hs5, hp⟩ := Option.bind_eq_some_iff.mp hp
    obtain ⟨h6, hs6, hp⟩ := Option.bind_eq_some_iff.mp hp
    obtain ⟨h7, hs7, hp⟩ := Option.bind_eq_some_iff.mp hp
    obtain ⟨h8, hs8, hp⟩ := Option.bind_eq_some_iff.mp hp
    obtain ⟨data, hdata, rfl⟩ := Option.map_eq_some_iff.mp hp
    obtain ⟨hdata, hlen⟩ := readData_eq hdata
    have hpath : h1.bytes = e.pathname ++ [0] := by
      unfold storePath at hs1
      split at hs1
      · cases hs1
      · cases hs1
        rfl
    have hend : h8.bytes = h7.bytes ++ [0] := bytes_of_storeb hs8
    refine ⟨?_, ?_, hpackable⟩
    · rw [hend, bytes_of_storeAttribute hs7, bytes_of_storeAttribute hs6,
        bytes_of_storeAttribute hs5, bytes_of_storeAttribute hs4, bytes_of_storeMtime hs3,
        bytes_of_storeType hs2, hpath, hdata]
      simp only [Entry.packed, Entry.attributes, Entry.data, List.append_assoc, List.cons_append,
        List.nil_append]
    · rw [Entry.data, ← hdata, hlen]
  · cases hp

theorem ftPackEntries_eq (hp : ftPackEntries es = some out) :
    out = (es.filter Entry.packable).flatMap Entry.packed ∧
      ∀ e ∈ es, e.packable → ftPack e = some e.packed ∧ e.data.length = e.size := by
  induction es generalizing out with
  | nil =>
    cases hp
    exact ⟨rfl, fun e he => absurd he List.not_mem_nil⟩
  | cons e es ih =>
    rw [ftPackEntries] at hp
    split at hp
    · next hpackable =>
      obtain ⟨afile, hafile, hp⟩ := Option.bind_eq_some_iff.mp hp
      obtain ⟨rv, hrv, rfl⟩ := Option.map_eq_some_iff.mp hp
      obtain ⟨rfl, hlen, -⟩ := ftPack_eq hafile
      obtain ⟨rfl, hall⟩ := ih hrv
      rw [List.filter_cons_of_pos hpackable, List.flatMap_cons]
      refine ⟨rfl, fun f hf hpack => ?_⟩
      rcases List.mem_cons.mp hf with rfl | hf
      · exact ⟨hafile, hlen⟩
      · exact hall f hf hpack
    · next hpackable =>
      obtain ⟨rfl, hall⟩ := ih hp
      rw [List.filter_cons_of_neg hpackable]
      refine ⟨rfl, fun f hf hpack => ?_⟩
      rcases List.mem_cons.mp hf with rfl | hf
      · exact absurd hpack hpackable
      · exact hall f hf hpack

end OpenADK.Cfgfs
