import DemandPaging.File.Basic

/-!
# The call journal

A file system that hands every call on to another one and keeps a record of it. Handles are numbered
afresh in the order in which they are opened, so two openings never share a handle, whatever the
other file system does.
-/

namespace DemandPaging

/-- A call on a handle. -/
inductive FileCall where
  | length (handle : Handle)
  /-- The call opened the handle `opened`. -/
  | reopen (handle opened : Handle)
  | close (handle : Handle)
  | read (handle : Handle) (offset want : Nat)
  | write (handle : Handle) (offset : Nat) (data : List UInt8)
  deriving DecidableEq, Repr

/-- The handle that is called. -/
def FileCall.handle : FileCall → Handle
  | .length h | .reopen h _ | .close h | .read h _ _ | .write h _ _ => h

/-- A file system with a record of the calls on it. -/
structure Journal (φ : Type) where
  inner : φ
  /-- The inner handle behind each handle, in the order of opening. -/
  opened : Array Handle
  /-- The calls, in order. -/
  calls : Array FileCall

namespace Journal

variable {φ : Type}

/-- No handle open and no call made. -/
def start (inner : φ) : Journal φ := ⟨inner, #[], #[]⟩

/-- The inner handle behind `h`. -/
def behind (j : Journal φ) (h : Handle) : Handle := j.opened[h]?.getD h

/-- Adopts an inner handle that was opened elsewhere: its new number, and the journal. -/
def adopt (j : Journal φ) (inner : Handle) : Handle × Journal φ :=
  (j.opened.size, { j with opened := j.opened.push inner })

/-- How many of the recorded calls on inner handle `inner` are of the kind `p`. -/
def count (j : Journal φ) (inner : Handle) (p : FileCall → Bool) : Nat :=
  j.calls.countP fun c => j.behind c.handle == inner && p c

instance [FileSystem φ] : FileSystem (Journal φ) where
  length j h :=
    let (n, inner) := FileSystem.length j.inner (j.behind h)
    (n, { j with inner, calls := j.calls.push (.length h) })
  reopen j h :=
    let (new, inner) := FileSystem.reopen j.inner (j.behind h)
    let handle := j.opened.size
    (handle,
      { inner, opened := j.opened.push new, calls := j.calls.push (.reopen h handle) })
  close j h :=
    { j with
      inner := FileSystem.close j.inner (j.behind h)
      calls := j.calls.push (.close h) }
  readAt j h offset want :=
    let (reading, inner) := FileSystem.readAt j.inner (j.behind h) offset want
    (reading, { j with inner, calls := j.calls.push (.read h offset want) })
  writeAt j h offset data :=
    let (n, inner) := FileSystem.writeAt j.inner (j.behind h) offset data
    (n, { j with inner, calls := j.calls.push (.write h offset data) })

end Journal

end DemandPaging
