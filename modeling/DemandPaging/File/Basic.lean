/-!
# Files

What paging asks of a file system, and no more. A file is used through a handle; opening a file
again gives a new handle that is closed on its own. An implementation may answer as it likes, and
its state may change with every call.
-/

namespace DemandPaging

/-- A handle on an open file. -/
abbrev Handle := Nat

/-- The answer to a read: the bytes put into the buffer, and how many the file says it has read. -/
structure Reading where
  data : List UInt8
  count : Nat
  deriving DecidableEq, Repr

/-- A file system with state `φ`. -/
class FileSystem (φ : Type) where
  /-- The length of the file in bytes. -/
  length : φ → Handle → Nat × φ
  /-- A new handle on the same file. -/
  reopen : φ → Handle → Handle × φ
  /-- Ends the use of the handle. -/
  close : φ → Handle → φ
  /-- Reads at most `want` bytes from `offset` on. -/
  readAt : φ → Handle → (offset want : Nat) → Reading × φ
  /-- Writes `data` from `offset` on, and says how many bytes were stored. -/
  writeAt : φ → Handle → (offset : Nat) → (data : List UInt8) → Nat × φ

end DemandPaging
