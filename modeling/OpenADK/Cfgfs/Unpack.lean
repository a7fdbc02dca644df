import OpenADK.Cfgfs.Pack
import OpenADK.Library.Records

/-!
# Reading the inner filesystem

`ft_creat` extracts an entry and `ft_dumpfile` prints one; each is called in a loop until
the name of an entry is empty. What they read beyond the buffer is a fault of the model.
-/

namespace OpenADK.Cfgfs
open LittleEndian Records

inductive Fault
  | unknownAttribute (c : UInt8)
  | beyondBuffer
  deriving DecidableEq, Repr

def isNul (c : UInt8) : Bool := c = 0

def cString (buf : Bytes) : Except Fault Bytes :=
  if 0 ∈ buf then .ok (buf.takeWhile (· ≠ 0)) else .error .beyondBuffer

/-- `LOADB`, `LOADW`, `LOADT` or `LOADD`, and the distance to what comes after. -/
def fetch (k : ℕ) (p : Bytes) : Except Fault (ℕ × ℕ) :=
  if p.length < k then .error .beyondBuffer else .ok (load k p, k)

/-! ### `ft_creat` -/

/-- The variables `type`, `size`, `x_uid`, `x_gid`, `x_mode` and `x_mtime`. Types 0 to 3 are
a file, an entry that is not implemented, a symlink and a directory. -/
structure Attributes where
  type : EntryType := .file
  size : ℕ := 0
  uid : ℕ := 0
  gid : ℕ := 0
  mode : ℕ := 0
  mtime : ℕ := 0
  deriving DecidableEq, Repr

/-- The `switch` of `ft_creat`. An inode is skipped without being read. -/
def creatAttribute (c : UInt8) (p : Bytes) (a : Attributes) : Except Fault (Attributes × ℕ) :=
  if c = 0x01 ∨ c = 0x02 ∨ c = 0x04 then .ok ({ a with type := .other }, 0)
  else if c = 0x03 then .ok ({ a with type := .symlink }, 0)
  else if c = 0x05 then .ok ({ a with type := .dir }, 0)
  else if c = 0x10 then (fetch 4 p).map fun (x, n) => ({ a with mtime := x }, n)
  else if c = 103 then (fetch 1 p).map fun (x, n) => ({ a with gid := x }, n) -- g
  else if c = 71 then (fetch 4 p).map fun (x, n) => ({ a with gid := x }, n) -- G
  else if c = 105 then .ok (a, 1) -- i
  else if c = 73 then .ok (a, 2) -- I
  else if c = 109 then (fetch 2 p).map fun (x, n) => ({ a with mode := x }, n) -- m
  else if c = 77 then (fetch 4 p).map fun (x, n) => ({ a with mode := x }, n) -- M
  else if c = 117 then (fetch 1 p).map fun (x, n) => ({ a with uid := x }, n) -- u
  else if c = 85 then (fetch 4 p).map fun (x, n) => ({ a with uid := x }, n) -- U
  else if c = 115 then (fetch 1 p).map fun (x, n) => ({ a with size := x }, n) -- s
  else if c = 83 then (fetch 3 p).map fun (x, n) => ({ a with size := x }, n) -- S
  else .error (.unknownAttribute c)

structure Created where
  pathname : Bytes
  type : EntryType
  uid : ℕ
  gid : ℕ
  mode : ℕ
  mtime : ℕ
  data : Bytes
  deriving DecidableEq, Repr

def ftCreat (buf : Bytes) : Except Fault (Found Created) :=
  match cString buf with
  | .error e => .error e
  | .ok fname =>
    match readFields .beyondBuffer isNul creatAttribute (buf.drop (fname.length + 1)) {} with
    | .error e => .error e
    | .ok (a, n) =>
      let i := fname.length + 1 + n
      let size := if a.type = .other ∨ a.type = .dir then 0 else a.size
      if buf.length < i + size then .error .beyondBuffer
      else
        .ok {
          value := {
            pathname := fname
            type := a.type
            uid := a.uid
            gid := a.gid
            mode := if a.type = .symlink then 0 else a.mode
            mtime := if a.type = .symlink then 0 else a.mtime
            data := (buf.drop i).take size }
          advance := i + size
          advance_pos := by omega }

/-- What an extraction does to the directory that it extracts into. -/
inductive Call
  | mkdir (n : Bytes)
  | file (n data : Bytes)
  | symlink (n target : Bytes)
  | chown (n : Bytes) (o g : ℕ)
  | chmod (n : Bytes) (m : ℕ)
  | mtime (n : Bytes) (t : ℕ)
  deriving DecidableEq, Repr

namespace Created

/-- The attributes that are set at once. Those of a directory wait in `directories`. -/
def attributeCalls (x : Created) : List Call :=
  (if x.uid ≠ 0 ∨ x.gid ≠ 0 then [.chown x.pathname x.uid x.gid] else []) ++
    (if x.mode ≠ 0 then [.chmod x.pathname (x.mode % 0o10000)] else []) ++
      (if x.mtime ≠ 0 then [.mtime x.pathname x.mtime] else [])

def calls (x : Created) : List Call :=
  match x.type with
  | .dir => [.mkdir x.pathname]
  | .other => x.attributeCalls
  | .symlink => .symlink x.pathname x.data :: x.attributeCalls
  | .file => .file x.pathname x.data :: x.attributeCalls

/-- What `pop_directories` does for a directory. -/
def popCalls (x : Created) : List Call :=
  match x.type with
  | .dir => [.chown x.pathname x.uid x.gid, .chmod x.pathname (x.mode % 0o10000),
      .mtime x.pathname x.mtime]
  | .other | .symlink | .file => []

end Created

/-- The entries with their lengths, and what is left of the buffer at the end. -/
def creatEntries (buf : Bytes) : Except Fault (List (Found Created) × Bytes) :=
  readAll .beyondBuffer isNul ftCreat buf

/-- Extracts every entry, then sets the attributes of the directories, the last one first. -/
def ftCreatm (buf : Bytes) : Except Fault (List Call) :=
  (creatEntries buf).map fun (found, _) =>
    found.flatMap (fun r => r.value.calls) ++ found.reverse.flatMap fun r => r.value.popCalls

/-! ### `ft_dumpfile` -/

inductive Line
  | name (pathname : Bytes)
  | block | character | symlink | hardlink | directory
  | mtime (y : ℕ)
  | id (letter : UInt8) (x : ℕ)
  | inode (x : ℕ)
  | mode (x : ℕ)
  | size (x : ℕ)
  | linkTarget (target : Bytes)
  | sizeNotAllowed
  | data (bytes : Bytes)
  deriving DecidableEq, Repr

/-- The variables `type` and `size`, and what has been printed. Types 0 to 2 are a file, an
entry without data and a symlink. -/
structure Dump where
  type : EntryType := .file
  size : ℕ := 0
  lines : List Line := []
  deriving DecidableEq, Repr

def Dump.print (d : Dump) (l : Line) : Dump := { d with lines := d.lines ++ [l] }

/-- The `switch` of `ft_dumpfile`. -/
def dumpAttribute (c : UInt8) (p : Bytes) (d : Dump) : Except Fault (Dump × ℕ) :=
  if c = 0x01 then .ok ({ d.print .block with type := .other }, 0)
  else if c = 0x02 then .ok ({ d.print .character with type := .other }, 0)
  else if c = 0x03 then .ok ({ d.print .symlink with type := .symlink }, 0)
  else if c = 0x04 then .ok ({ d.print .hardlink with type := .other }, 0)
  else if c = 0x05 then .ok ({ d.print .directory with type := .other }, 0)
  else if c = 0x10 then (fetch 4 p).map fun (y, n) => (d.print (.mtime y), n)
  else if c = 103 ∨ c = 117 then (fetch 1 p).map fun (x, n) => (d.print (.id (c - 32) x), n) -- g u
  else if c = 71 ∨ c = 85 then (fetch 4 p).map fun (x, n) => (d.print (.id c x), n) -- G U
  else if c = 105 then (fetch 1 p).map fun (x, n) => (d.print (.inode x), n) -- i
  else if c = 73 then (fetch 2 p).map fun (x, n) => (d.print (.inode x), n) -- I
  else if c = 109 then (fetch 2 p).map fun (x, n) => (d.print (.mode x), n) -- m
  else if c = 77 then (fetch 4 p).map fun (x, n) => (d.print (.mode x), n) -- M
  else if c = 115 then (fetch 1 p).map fun (x, n) => ({ d.print (.size x) with size := x }, n) -- s
  else if c = 83 then (fetch 3 p).map fun (x, n) => ({ d.print (.size x) with size := x }, n) -- S
  else .error (.unknownAttribute c)

def ftDumpfile (buf : Bytes) : Except Fault (Found (List Line)) :=
  match cString buf with
  | .error e => .error e
  | .ok name =>
    match readFields .beyondBuffer isNul dumpAttribute (buf.drop (name.length + 1))
        { lines := [.name name] } with
    | .error e => .error e
    | .ok (d, n) =>
      let i := name.length + 1 + n
      let size := if d.type = .other then 0 else d.size
      if buf.length < i + size then .error .beyondBuffer
      else
        let bytes := (buf.drop i).take size
        .ok {
          value := d.lines ++
            if d.type = .symlink then [.linkTarget (bytes.takeWhile (· ≠ 0))]
            else if d.type = .other then if d.size ≠ 0 then [.sizeNotAllowed] else []
            else [.data bytes]
          advance := i + size
          advance_pos := by omega }

def dumpEntries (buf : Bytes) : Except Fault (List (Found (List Line)) × Bytes) :=
  readAll .beyondBuffer isNul ftDumpfile buf

def ftDump (buf : Bytes) : Except Fault (List Line) :=
  (dumpEntries buf).map fun (found, _) => found.flatMap fun r => r.value

end OpenADK.Cfgfs
