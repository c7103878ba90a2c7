import DemandPaging.Device.Basic

/-!
# The device registry

Devices are numbered in the order in which they are registered and keep their number for ever. Names
and roles may repeat: a search finds the device with the lowest number. A number that no device has
is refused like a sector that does not exist.
-/

namespace DemandPaging

/-- The registered devices, in order. -/
structure Registry where
  devices : Array Device
  deriving DecidableEq

namespace Registry

def empty : Registry := ⟨#[]⟩

/-- A new device, with no transfers counted; its number is the number of devices so far. -/
def register (r : Registry) (role : Role) (name : String) (size : Nat) (disk : Disk) : Registry :=
  ⟨r.devices.push ⟨name, role, size, disk, 0, 0⟩⟩

/-- The device with number `i`. -/
def device? (r : Registry) (i : Nat) : Option Device := r.devices[i]?

/-- The lowest number of a device called `name`. -/
def byName (r : Registry) (name : String) : Option Nat :=
  r.devices.findIdx? fun d => d.name == name

/-- The lowest number of a device in the given role. -/
def byRole (r : Registry) (role : Role) : Option Nat := r.devices.findIdx? fun d => d.role == role

/-- The first device in the given role, with its number. -/
def firstInRole? (r : Registry) (role : Role) : Option (Nat × Device) := do
  let i ← r.byRole role
  return (i, ← r.device? i)

/-- Reads a sector of device `i` into a buffer of `len` bytes. -/
def read (r : Registry) (i sector len : Nat) : Except TransferError (SectorBytes × Registry) :=
  match r.devices[i]? with
  | none => .error .outOfBounds
  | some d => do
    let (bytes, d) ← d.read sector len
    return (bytes, ⟨r.devices.setIfInBounds i d⟩)

/-- Writes a buffer to a sector of device `i`. -/
def write (r : Registry) (i sector : Nat) (data : List UInt8) : Except TransferError Registry :=
  match r.devices[i]? with
  | none => .error .outOfBounds
  | some d => do
    let d ← d.write sector data
    return ⟨r.devices.setIfInBounds i d⟩

/-- The device listing: a heading, and a line for each device. -/
def text (r : Registry) : String :=
  "Block Devices:\n" ++
    String.join (r.devices.toList.zipIdx.map fun (d, i) => d.text i ++ "\n")

end Registry

end DemandPaging
