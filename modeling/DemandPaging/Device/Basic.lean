import DemandPaging.Device.Disk
import DemandPaging.Text

/-!
# Block devices

A device is a disk registered under a name, in a role and with a size in sectors, which need not be
the number of sectors that the disk has. It counts the transfers that succeed. A transfer is checked
in this order: the sector against the registered size, the length of the buffer, for a write the
role, and then the disk itself.
-/

namespace DemandPaging

/-- What a block device is used for. -/
inductive Role where
  | kernel | fileSystem | scratch | swap | raw | foreign
  deriving DecidableEq, Repr

/-- A role as it is shown to the user. -/
def Role.text : Role → String
  | .kernel => "Kernel"
  | .fileSystem => "File System"
  | .scratch => "Scratch"
  | .swap => "Swap"
  | .raw => "Raw"
  | .foreign => "Foreign"

/-- A registered block device. -/
structure Device where
  name : String
  role : Role
  /-- The registered size in sectors. -/
  size : Nat
  disk : Disk
  /-- How many reads have succeeded, in a counter of 32 bits. -/
  reads : UInt32
  /-- How many writes have succeeded, in a counter of 32 bits. -/
  writes : UInt32
  deriving DecidableEq

namespace Device

/-- The checks that come before any transfer. -/
def check (d : Device) (sector len : Nat) : Except TransferError Unit :=
  if d.size ≤ sector then .error .outOfBounds
  else if len ≠ sectorSize then .error .badBuffer
  else .ok ()

/-- Reads a sector into a buffer of `len` bytes. -/
def read (d : Device) (sector len : Nat) : Except TransferError (SectorBytes × Device) := do
  d.check sector len
  let bytes ← d.disk.read sector len
  return (bytes, { d with reads := d.reads + 1 })

/-- Writes a buffer to a sector. -/
def write (d : Device) (sector : Nat) (data : List UInt8) : Except TransferError Device := do
  d.check sector data.length
  if d.role = .foreign then throw .readOnly
  let disk ← d.disk.write sector data
  return { d with disk, writes := d.writes + 1 }

/-- One line of the device listing. -/
def text (d : Device) (index : Nat) : String :=
  "    " ++ padded 4 index ++ " | \"" ++ d.name ++ "\" (" ++ d.role.text ++ "): " ++
    padded 4 d.size ++ " sectors, " ++ padded 4 d.reads.toNat ++ " read, " ++
    padded 4 d.writes.toNat ++ " write"

end Device

end DemandPaging
