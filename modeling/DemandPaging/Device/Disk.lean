import DemandPaging.Bytes

/-!
# Disks in memory

A disk is an array of sectors. A transfer names a sector of the disk and moves a buffer of exactly
one sector; anything else is refused and changes nothing.
-/

namespace DemandPaging

/-- The contents of a sector. -/
abbrev SectorBytes := Bytes sectorSize

/-- Why a transfer to or from a block device is refused. -/
inductive TransferError where
  /-- The sector does not exist. -/
  | outOfBounds
  /-- The buffer is not one sector long. -/
  | badBuffer
  /-- The device belongs to another operating system and is not written to. -/
  | readOnly
  deriving DecidableEq, Repr

/-- The text of a refused transfer. -/
def TransferError.message : TransferError → String
  | .outOfBounds => "sector out of bounds (greater than the block size)"
  | .badBuffer => "invalid buffer size (not `BLOCK_SECTOR_SIZE`)"
  | .readOnly => "cannot write to a foreign block device"

/-- A disk kept in memory. -/
structure Disk where
  sectors : Array SectorBytes
  deriving DecidableEq

namespace Disk

/-- A disk of `n` sectors of zeros. -/
def blank (n : Nat) : Disk := ⟨Array.replicate n (.zero sectorSize)⟩

/-- Reads a sector into a buffer of `len` bytes. -/
def read (d : Disk) (sector len : Nat) : Except TransferError SectorBytes :=
  match d.sectors[sector]? with
  | none => .error .outOfBounds
  | some bytes => if len = sectorSize then .ok bytes else .error .badBuffer

/-- Writes a buffer to a sector. -/
def write (d : Disk) (sector : Nat) (data : List UInt8) : Except TransferError Disk :=
  if sector < d.sectors.size then
    if h : data.length = sectorSize then .ok ⟨d.sectors.setIfInBounds sector ⟨data, h⟩⟩
    else .error .badBuffer
  else .error .outOfBounds

end Disk

end DemandPaging
