import DemandPaging.Machine.Basic

/-!
# Memory, swap space and files

The programs that use one part of the machine: take and return frames, map pages, move pages to and
from swap space, and call the file system. They report what they do, and halt the machine on a
misuse of the part.
-/

namespace DemandPaging

namespace Kernel

variable {φ : Type}

/-! ### Frames -/

/-- Takes a frame from the allocator. -/
def takeFrame (r : Frame.Request) : Kernel φ (Except Frame.Shortage Frame) := do
  let result ← modifyGet fun m =>
    let (result, allocator) := m.allocator.alloc r
    (result, { m with allocator })
  match result with
  | .error e => return .error e
  | .ok frame =>
    emit (.frameAllocated frame (← get).pool.inUse)
    return .ok frame

/-- Returns a frame to the pool. -/
def returnFrame (frame : Frame) : Kernel φ Unit := do
  match (← get).pool.dealloc frame with
  | .error e => halt (.pool e)
  | .ok pool =>
    modify fun m => { m with allocator := { m.allocator with pool } }
    emit (.frameFreed frame pool.inUse)

/-- The bytes of a frame. -/
def readFrame (frame : Frame) : Kernel φ PageBytes := return (← get).pool.read frame

/-- The bytes of a frame become `bytes`. -/
def writeFrame (frame : Frame) (bytes : PageBytes) : Kernel φ Unit :=
  modify fun m => { m with allocator := { m.allocator with pool := m.pool.write frame bytes } }

/-! ### Page tables -/

/-- Maps `upage` of process `p` to `frame`; says whether the page table took it. -/
def mapPage (p : ProcId) (upage : Nat) (frame : Frame) (writable : Bool) : Kernel φ Bool := do
  match (← process p).table.map upage frame writable with
  | .error e => halt (.table e)
  | .ok none => return false
  | .ok (some table) =>
    modifyTable p fun _ => table
    return true

/-- Removes the mapping of `upage` of process `p`; says whether the page was dirty by then. -/
def unmapPage (p : ProcId) (upage : Nat) : Kernel φ Bool := do
  let dirty := (← process p).table.isDirty upage
  modifyTable p (·.unmap upage)
  return dirty

/-- Reads `len` bytes of the memory of process `p` through its page table: the bytes before the
first fault, and the fault. -/
def load (p : ProcId) (addr len : Nat) : Kernel φ (List UInt8 × Option PageTable.Fault) := do
  let m ← get
  let result := (m.process p).table.load m.pool addr len
  modifyTable p fun _ => result.table
  match result.trouble with
  | none => return (result.bytes, none)
  | some (.fault f) => return (result.bytes, some f)
  | some (.misuse e) => halt (.table e)

/-- Writes `data` to the memory of process `p` through its page table: what lies before the first
fault is written, and the fault is returned. -/
def store (p : ProcId) (addr : Nat) (data : List UInt8) :
    Kernel φ (Option PageTable.Fault) := do
  let m ← get
  let result := (m.process p).table.store m.pool addr data
  modify fun m => { m with allocator := { m.allocator with pool := result.pool } }
  modifyTable p fun _ => result.table
  match result.trouble with
  | none => return none
  | some (.fault f) => return some f
  | some (.misuse e) => halt (.table e)

/-! ### Devices and swap space -/

/-- Registers a blank disk of `sectors` sectors as a device of `size` sectors. -/
def register (role : Role) (name : String) (size sectors : Nat) : Kernel φ Nat := do
  let index := (← get).devices.devices.size
  modify fun m => { m with devices := m.devices.register role name size (.blank sectors) }
  emit (.registered name role size)
  return index

/-- Sets up swap space on the first device in the swap role. -/
def attachSwap : Kernel φ Unit := do
  match Swap.attach (← get).devices with
  | .error e => halt (.swap e)
  | .ok (device, swap) =>
    modify fun m => { m with swap }
    emit (.swapAttached device.name swap.slots)

/-- Sets up swap space and reports what the machine has. -/
def start : Kernel φ Unit := do
  attachSwap
  let m ← get
  emit (.started m.pool.total m.swap.slots)

/-- Takes the lowest unused slot. -/
def allocateSlot : Kernel φ Nat := do
  match (← get).swap.allocate with
  | .error e => halt (.swap e)
  | .ok (slot, swap) =>
    modify fun m => { m with swap }
    return slot

/-- Gives a slot back without reading it. -/
def releaseSlot (slot : Nat) : Kernel φ Unit := do
  match (← get).swap.release slot with
  | .error e => halt (.swap e)
  | .ok swap => modify fun m => { m with swap }

/-- Runs a transfer between swap space and memory, and keeps what it did to the devices. -/
def transfer {α : Type} (f : Swap → Registry → Registry × Except Swap.Misuse α) : Kernel φ α := do
  let result ← modifyGet fun m =>
    let (devices, result) := f m.swap m.devices
    (result, { m with devices })
  match result with
  | .error e => halt (.swap e)
  | .ok a => return a

/-- Copies a frame to a used slot. -/
def storeSlot (slot : Nat) (frame : Frame) : Kernel φ Unit := do
  let bytes ← readFrame frame
  transfer fun swap devices => swap.store devices slot bytes

/-- Copies a used slot to a frame and gives the slot back. -/
def loadSlot (slot : Nat) (frame : Frame) : Kernel φ Unit := do
  let bytes ← transfer fun swap devices => swap.load devices slot
  writeFrame frame bytes
  releaseSlot slot
  emit (.swappedIn slot frame)

/-- Takes a slot and copies a frame to it. -/
def swapOut (frame : Frame) : Kernel φ Nat := do
  let slot ← allocateSlot
  let bytes ← readFrame frame
  transfer fun swap devices => swap.put devices slot bytes
  emit (.swappedOut frame slot)
  return slot

/-! ### Files -/

variable [FileSystem φ]

def fileLength (file : Handle) : Kernel φ Nat :=
  modifyGet fun m =>
    let (n, files) := FileSystem.length m.files file
    (n, { m with files })

def reopenFile (file : Handle) : Kernel φ Handle :=
  modifyGet fun m =>
    let (handle, files) := FileSystem.reopen m.files file
    (handle, { m with files })

def closeFile (file : Handle) : Kernel φ Unit :=
  modify fun m => { m with files := FileSystem.close m.files file }

omit [FileSystem φ] in
/-- Halts unless the region's part of its file fits in a frame. -/
def demandFits (r : Region) : Kernel φ Unit := do
  if pageSize < r.readLen then halt (.pastFrame r.readLen)

/-- Reads the region's part of its file. -/
def readRegion (r : Region) : Kernel φ Reading := do
  demandFits r
  modifyGet fun m =>
    let (reading, files) := FileSystem.readAt m.files r.file r.offset r.readLen
    (reading, { m with files })

/-- Writes the front of a frame back to the region's part of its file; says how many bytes were
stored. -/
def writeRegion (r : Region) (frame : Frame) : Kernel φ Nat := do
  demandFits r
  modifyGet fun m =>
    let data := (m.pool.read frame).slice 0 r.readLen
    let (n, files) := FileSystem.writeAt m.files r.file r.offset data
    (n, { m with files })

end Kernel

end DemandPaging
