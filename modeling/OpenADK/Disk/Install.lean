import OpenADK.Disk.Mbr

/-!
# The partition table of an installation

`install.sh` lets `bootgrub.mksh` write the boot code and the entry of the system partition, adds
the entries of cfgfs and of the data partition, and on some targets moves the first two entries
away for a boot partition.
-/

namespace OpenADK.Disk

/-- What `bootgrub.mksh -A -g … -M … -O …` writes, where `code` is the boot code with its block
table and the geometry is given in digits. -/
def bootgrub (code : Image) (g : Geometry) (mbrpno : ℕ) (mbrptp pofs : Int32) : Option Image :=
  if g.cyls < 0 ∨ g.heads < 0 ∨ g.secs < 0 then none
  else
    let psz : Int32 :=
      if g.cyls < 1 ∨ g.heads < 1 ∨ g.heads > 256 ∨ g.secs < 1 ∨ g.secs > 63 then 0
      else if g.cyls.toInt * g.heads.toInt * g.secs.toInt > 4294967295 then 0
      else g.cyls * g.heads * g.secs
    let thecode : Image := fun i => if i < 0x1BE then code i else 0
    let thecode := thecode.patch 510 [0x55, 0xAA]
    if psz = 0 then some thecode
    else
      some (thecode.patch (0x1BE + (mbrpno - 1) * 16)
        (emit (partitionEntry 0x80 mbrptp g g.cyls psz pofs)))

inductive Target
  | bananaPro | orangePi0 | pcenginesApu | phytecImx6 | phytecWega
  | raspberryPi | raspberryPi0 | raspberryPi2 | raspberryPi3 | raspberryPi3_64
  | raspberryPi3p | raspberryPi3p_64
  | solidrunImx6 | solidrunClearfog | default

def Target.boots : Target → Bool
  | .raspberryPi | .raspberryPi0 | .raspberryPi2 | .raspberryPi3 | .raspberryPi3_64
  | .raspberryPi3p | .raspberryPi3p_64 | .phytecWega => true
  | _ => false

def heads : Int32 := 64
def secs : Int32 := 32
def partofs : Int32 := 2048

/-- A call of `install.sh` and what it finds: the size of the disk in sectors, `core.img` when
GRUB is to be installed, the boot code and a random disk signature. -/
structure Call where
  target : Target
  cfgfs : Int32
  datafssz : Int32
  dksz : ℕ
  core : Option (List UInt8)
  svnd : Bool
  code : Image
  signature : Image

namespace Call
variable (v : Call)

def syspartno : ℕ := if v.target.boots then 1 else 0
def bootfssz : Int32 := if v.target.boots then 100 else 0
def cyls : Int32 := Int32.ofNat v.dksz / heads / secs
def spartofs : Int32 := if v.target.boots then partofs + 100 * 2048 else partofs
def coreimgsz : ℕ := (v.core.map List.length).getD 65024
def corestartsec : ℕ := if v.svnd then 2 else 1
def corepatchofs : ℕ := if v.svnd then 0x614 else 0x414

def systemPartition : Option Image :=
  bootgrub v.code ⟨v.cyls - v.bootfssz - v.cfgfs - v.datafssz, heads, secs⟩ 1 0x83 v.spartofs

/-- `dd` gets nothing when `bootgrub` fails. -/
def addSystem (t : Image) : Image :=
  match v.systemPartition with
  | none => t
  | some thecode => t.patch 0 (thecode.slice 0 512)

def addCore (t : Image) : Image :=
  match v.core with
  | none => t
  | some core => (t.patch (512 * v.corestartsec) core).patch v.corepatchofs [0, 0, 0, 0]

def cfgfsEntry : List UInt8 :=
  emit (partitionEntry 0x00 0x88 ⟨v.cyls, heads, secs⟩ v.cyls (v.cyls * heads * secs)
    ((v.cyls - v.cfgfs) * heads * secs))

def dataEntry : List UInt8 :=
  emit (partitionEntry 0x00 0x83 ⟨v.cyls, heads, secs⟩ (v.cyls - v.cfgfs)
    ((v.cyls - v.cfgfs) * heads * secs) ((v.cyls - v.cfgfs - v.datafssz) * heads * secs))

def bootEntry : List UInt8 :=
  emit (partitionEntry 0x00 0x0B ⟨v.cyls, heads, secs⟩ (v.spartofs / 2048) v.spartofs partofs)

def addCfgfs (t : Image) : Image := t.patch 0x1EE v.cfgfsEntry

def addData (t : Image) : Image := if v.datafssz ≠ 0 then t.patch 0x1CE v.dataEntry else t

def addBoot (t : Image) : Image :=
  if v.target.boots then (t.patch 0x1CE (t.slice 0x1BE 32)).patch 0x1BE v.bootEntry else t

def sign (t : Image) : Image := (t.patch 0x1B8 (v.signature.slice 0 4)).patch 0x1BC [0, 0]

/-- The first track as it is written to the disk, if the call gets that far. -/
def firsttrack : Option Image :=
  if v.cfgfs < 0 ∨ v.cfgfs > 16 then none
  else if v.datafssz < 0 then none
  else if v.target.boots ∧ v.core.isSome then none
  else if v.cyls < v.bootfssz + v.cfgfs + v.datafssz + 2 then none
  else if v.coreimgsz < 1024 ∨ v.coreimgsz > 65024 then none
  else
    let t := v.addCore (v.addSystem fun _ => 0)
    some (v.sign (v.addBoot (v.addData (v.addCfgfs t))))

end Call
end OpenADK.Disk
