import DemandPaging.Bitmap
import DemandPaging.Device.Registry

/-!
# Swap space

A block device in the swap role is divided into slots of one page each. A bitmap says which slots
are used; slots are handed out lowest first. `put` and `fetch` move a page to and from a slot, one
sector at a time, and stop at the first sector that the device refuses; `store`, `load` and
`release` first check that the slot is used.
-/

namespace DemandPaging

/-- The slots of one swap device. -/
structure Swap where
  /-- The number of the device. -/
  device : Nat
  /-- One bit per slot, set while the slot is used. -/
  used : Bitmap
  deriving DecidableEq

namespace Swap

/-- Sector numbers have 32 bits and are taken modulo this bound. -/
def sectorLimit : Nat := 0x100000000

/-- The number of the `i`-th sector of a slot. -/
def sectorOf (slot i : Nat) : Nat := (slot * sectorsPerPage + i) % sectorLimit

def slotText (slot : Nat) : String := s!"SwapSlot({slot})"

/-- Uses of swap space that stop the machine. -/
inductive Misuse where
  /-- No device is registered in the swap role. -/
  | noDevice
  /-- The swap device does not hold a single page. -/
  | tooSmall (name : String) (sectors : Nat)
  /-- Every slot is used. -/
  | full (slots : Nat)
  /-- The device has no such slot. -/
  | outOfRange (e : Bitmap.OutOfRange)
  /-- A page is written to a slot that is not used. -/
  | storeUnused (slot : Nat)
  /-- A page is read from a slot that is not used. -/
  | loadUnused (slot : Nat)
  /-- A slot is given back that is not used. -/
  | releaseUnused (slot : Nat)
  /-- The device refuses a write. -/
  | writeRefused (slot : Nat) (e : TransferError)
  /-- The device refuses a read. -/
  | readRefused (slot : Nat) (e : TransferError)
  deriving DecidableEq, Repr

/-- The text of a misuse. -/
def Misuse.message : Misuse → String
  | .noDevice => "no swap device registered"
  | .tooSmall name sectors =>
    "swap device \"" ++ name ++ s!"\" is too small ({sectors} sectors)"
  | .full slots => s!"swap partition full ({slots} slots)"
  | .outOfRange e => e.message
  | .storeUnused slot => "writing to a free " ++ slotText slot
  | .loadUnused slot => "Swapping in a free page (" ++ slotText slot ++ ")"
  | .releaseUnused slot => "double free of " ++ slotText slot
  | .writeRefused slot e => "swap write to " ++ slotText slot ++ " failed: " ++ e.message
  | .readRefused slot e => "swap read from " ++ slotText slot ++ " failed: " ++ e.message

/-- No device and no slots: swap space before it is set up. -/
def absent : Swap := ⟨0, .ofLength 0⟩

/-- The first device in the swap role, and swap space on it with all slots unused. -/
def attach (r : Registry) : Except Misuse (Device × Swap) :=
  match r.firstInRole? .swap with
  | none => .error .noDevice
  | some (i, d) =>
    let slots := d.size / sectorsPerPage
    if slots = 0 then .error (.tooSmall d.name d.size) else .ok (d, ⟨i, .ofLength slots⟩)

/-- The number of slots. -/
def slots (s : Swap) : Nat := s.used.len

/-- The number of used slots. -/
def usedSlots (s : Swap) : Nat := s.used.ones

/-- Takes the lowest unused slot. -/
def allocate (s : Swap) : Except Misuse (Nat × Swap) :=
  match s.used.acquire with
  | some (slot, used) => .ok (slot, { s with used })
  | none => .error (.full s.slots)

/-- Refuses, with `e`, a slot that is not used. -/
def demandUsed (s : Swap) (slot : Nat) (e : Misuse) : Except Misuse Unit :=
  match s.used.test slot with
  | .error range => .error (.outOfRange range)
  | .ok used => if used then .ok () else .error e

/-- Gives a used slot back. -/
def release (s : Swap) (slot : Nat) : Except Misuse Swap := do
  s.demandUsed slot (.releaseUnused slot)
  match s.used.set slot false with
  | .ok used => return { s with used }
  | .error range => throw (.outOfRange range)

/-! ### Moving pages -/

/-- Writes the named sectors of a slot from the same sectors of `page`. -/
def writeSectors (device slot : Nat) (page : PageBytes) :
    List Nat → Registry → Registry × Except TransferError Unit
  | [], r => (r, .ok ())
  | i :: rest, r =>
    match r.write device (sectorOf slot i) (page.slice (i * sectorSize) sectorSize) with
    | .ok r => writeSectors device slot page rest r
    | .error e => (r, .error e)

/-- Reads the named sectors of a slot, one behind the other. -/
def readSectors (device slot : Nat) :
    List Nat → Registry → Registry × Except TransferError (List UInt8)
  | [], r => (r, .ok [])
  | i :: rest, r =>
    match r.read device (sectorOf slot i) sectorSize with
    | .ok (sector, r) =>
      let (r, later) := readSectors device slot rest r
      (r, later.map (sector.data ++ ·))
    | .error e => (r, .error e)

/-- Writes a page to a slot. -/
def put (s : Swap) (r : Registry) (slot : Nat) (page : PageBytes) : Registry × Except Misuse Unit :=
  let (r, result) := writeSectors s.device slot page (List.range sectorsPerPage) r
  (r, result.mapError (.writeRefused slot))

/-- Reads a page from a slot. -/
def fetch (s : Swap) (r : Registry) (slot : Nat) : Registry × Except Misuse PageBytes :=
  let (r, result) := readSectors s.device slot (List.range sectorsPerPage) r
  (r, (result.map (Bytes.ofList pageSize)).mapError (.readRefused slot))

/-- Writes a page to a used slot. -/
def store (s : Swap) (r : Registry) (slot : Nat) (page : PageBytes) :
    Registry × Except Misuse Unit :=
  match s.demandUsed slot (.storeUnused slot) with
  | .ok () => s.put r slot page
  | .error e => (r, .error e)

/-- Reads a page from a used slot. -/
def load (s : Swap) (r : Registry) (slot : Nat) : Registry × Except Misuse PageBytes :=
  match s.demandUsed slot (.loadUnused slot) with
  | .ok () => s.fetch r slot
  | .error e => (r, .error e)

end Swap

end DemandPaging
