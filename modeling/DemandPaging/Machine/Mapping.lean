import DemandPaging.Machine.PageIn

/-!
# Mapping files into memory

A mapping of a file is made whole or not at all: the pages are declared one after the other, and the
first that cannot be declared undoes them all. A mapping is released page by page; a changed page in
memory is written back to the file, and at the end the handle of the mapping is closed.

The table of mappings is an argument, so that a process may keep more than one.
-/

namespace DemandPaging

namespace Kernel

variable {φ : Type} [FileSystem φ]

/-- Declares the pages of a mapping at `addr`, behind those declared so far, up to the first that
cannot be declared. -/
def declareTiles (p : ProcId) (addr : Nat) :
    List Region → Array Nat → Kernel φ (Array Nat × Option PageError)
  | [], pages => return (pages, none)
  | r :: rest, pages => do
    let upage := addr + r.offset
    match ← declareMapped p upage r with
    | .error e => return (pages, some e)
    | .ok _ => declareTiles p addr rest (pages.push upage)

/-- Takes a page that is no longer declared out of memory, writing it back if it is a changed page
of a mapped file. -/
def dismiss (p : ProcId) (upage : Nat) (id : PageId) : Kernel φ Unit := do
  pin id
  let before ← page id
  modifyPage id fun pg => { pg with frame := none }
  if let some frame := before.frame then
    let dirty ← unmapPage p upage
    match dirty, before.backing with
    | true, .mapped r =>
      let written ← writeRegion r frame
      if written ≠ r.readLen then emit (.shortRelease upage written r.readLen)
    | _, _ => pure ()
    freeFrame frame
  unpin id

/-- Releases one page of a mapping, if it is still declared. -/
def releasePage (p : ProcId) (upage : Nat) : Kernel φ Unit := do
  match ← forget p upage with
  | none => return ()
  | some id => dismiss p upage id

/-- Releases the pages of a mapping in ascending order, and then closes its handle. -/
def releaseMapping (p : ProcId) (m : Mapping) : Kernel φ Unit := do
  m.pages.toList.forM (releasePage p)
  closeFile m.file

/-- Maps the whole of a file at `addr`, with a handle of its own. -/
def mapFile (t : MapTable) (p : ProcId) (file : Handle) (addr : Nat) :
    Kernel φ (Except MapError Nat × MapTable) := do
  if addr == 0 || !isAligned addr || !isUser addr then return (.error (.badAddress addr), t)
  let len ← fileLength file
  if len == 0 then return (.error .emptyFile, t)
  if userTop < addr + len then return (.error (.badAddress addr), t)
  let handle ← reopenFile file
  let (pages, failure) ← declareTiles p addr (tiles handle len) #[]
  let mapping : Mapping := ⟨handle, pages⟩
  match failure with
  | some e =>
    releaseMapping p mapping
    return (.error (.page e), t)
  | none =>
    emit (.fileMapped (← process p).pid t.nextId addr pages.size)
    return (.ok t.nextId, t.add mapping)

/-- Releases mapping `id`; an unknown number is ignored. -/
def unmapFile (t : MapTable) (p : ProcId) (id : Nat) : Kernel φ MapTable := do
  match t.live[id]? with
  | none => return t
  | some mapping =>
    emit (.fileUnmapped (← process p).pid id)
    releaseMapping p mapping
    return t.erase id

/-- Releases every mapping, in ascending order of number. -/
def unmapAll (t : MapTable) (p : ProcId) : Kernel φ MapTable := do
  t.live.toList.forM fun (_, mapping) => releaseMapping p mapping
  return t.clear

/-! ### The mappings of a process -/

/-- Maps a file into the memory of process `p`. -/
def mmap (p : ProcId) (file : Handle) (addr : Nat) : Kernel φ (Except MapError Nat) := do
  let (result, mappings) ← mapFile (← process p).mappings p file addr
  modifyProcess p fun proc => { proc with mappings }
  return result

/-- Releases mapping `id` of process `p`. -/
def munmap (p : ProcId) (id : Nat) : Kernel φ Unit := do
  let mappings ← unmapFile (← process p).mappings p id
  modifyProcess p fun proc => { proc with mappings }

end Kernel

end DemandPaging
