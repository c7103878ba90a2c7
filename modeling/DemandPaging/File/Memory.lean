import DemandPaging.File.Basic

/-!
# Files in memory

Files whose contents are kept in memory and have a fixed size. All handles on a file are the same:
the number of the file. A read returns what lies between its offset and the end; a write overwrites
and never grows the file. A file may state a length that it does not have, and may store only so
many bytes of each write.
-/

namespace DemandPaging

/-- A file in memory. -/
structure MemoryFile where
  data : List UInt8
  /-- The length the file states, if it is not to be that of its contents. -/
  stated : Option Nat
  /-- The most bytes that one write stores, if there is a limit. -/
  writeCap : Option Nat
  deriving DecidableEq

namespace MemoryFile

/-- The bytes of a read: those between `offset` and the end, at most `want`. -/
def read (f : MemoryFile) (offset want : Nat) : List UInt8 := (f.data.drop offset).take want

/-- How many bytes of a write of `size` bytes are stored. -/
def room (f : MemoryFile) (offset size : Nat) : Nat :=
  let fits := min size (f.data.length - offset)
  match f.writeCap with
  | some cap => min fits cap
  | none => fits

/-- The file after a write of `data` at `offset`: as many bytes as there is room for are stored. -/
def write (f : MemoryFile) (offset : Nat) (data : List UInt8) : MemoryFile :=
  let stored := data.take (f.room offset data.length)
  { f with data := f.data.take offset ++ stored ++ f.data.drop (offset + stored.length) }

end MemoryFile

/-- Files in memory, by number. -/
structure MemoryFiles where
  files : Array MemoryFile

namespace MemoryFiles

/-- The contents of file `i`; a file that does not exist is empty. -/
def contents (s : MemoryFiles) (i : Nat) : List UInt8 :=
  match s.files[i]? with
  | some f => f.data
  | none => []

/-- Adds a file; its number is the number of files so far. -/
def add (s : MemoryFiles) (f : MemoryFile) : MemoryFiles := ⟨s.files.push f⟩

/-- Replaces the contents of file `i`. -/
def replace (s : MemoryFiles) (i : Nat) (data : List UInt8) : MemoryFiles :=
  ⟨s.files.modify i fun f => { f with data }⟩

/-- Cuts file `i` down to at most `len` bytes. -/
def truncate (s : MemoryFiles) (i len : Nat) : MemoryFiles :=
  ⟨s.files.modify i fun f => { f with data := f.data.take len }⟩

instance : FileSystem MemoryFiles where
  length s h :=
    match s.files[h]? with
    | some f => (f.stated.getD f.data.length, s)
    | none => (0, s)
  reopen s h := (h, s)
  close s _ := s
  readAt s h offset want :=
    match s.files[h]? with
    | some f => let data := f.read offset want; (⟨data, data.length⟩, s)
    | none => (⟨[], 0⟩, s)
  writeAt s h offset data :=
    match s.files[h]? with
    | some f =>
      (f.room offset data.length, ⟨s.files.modify h fun f => f.write offset data⟩)
    | none => (0, s)

end MemoryFiles

end DemandPaging
