import DemandPaging.Frame
import DemandPaging.Page

/-!
# The frame table

Which frame holds which page of which process, in the order in which the frames were lent, and the
hand of the clock that looks for a page to evict. Read from the hand around the table, removing an
entry leaves the order of the others as it was.
-/

namespace DemandPaging

/-- The number of a process. -/
abbrev ProcId := Nat

/-- A lent frame: the page it holds and the process it is lent to. -/
structure Tenancy where
  frame : Frame
  owner : ProcId
  page : PageId
  deriving DecidableEq, Repr

/-- The lent frames and the clock's hand. -/
structure FrameTable where
  entries : List Tenancy
  /-- The index of the entry that the clock looks at next. -/
  hand : Nat
  deriving DecidableEq, Repr

namespace FrameTable

def empty : FrameTable := ⟨[], 0⟩

/-- The entry under the hand. -/
def current? (t : FrameTable) : Option Tenancy := t.entries[t.hand]?

/-- Moves the hand on to the next entry, from the last one to the first. -/
def advance (t : FrameTable) : FrameTable := { t with hand := (t.hand + 1) % t.entries.length }

/-- Adds an entry at the end. -/
def add (t : FrameTable) (e : Tenancy) : FrameTable := { t with entries := t.entries ++ [e] }

/-- Removes entry `i`. The hand stays on the entry it was on; from the removed entry it moves to the
next one. -/
def remove (t : FrameTable) (i : Nat) : FrameTable :=
  let entries := t.entries.eraseIdx i
  let hand := if i < t.hand then t.hand - 1 else t.hand
  ⟨entries, if entries.length ≤ hand then 0 else hand⟩

/-- The index of the first entry for `frame`. -/
def position? (t : FrameTable) (frame : Frame) : Option Nat :=
  t.entries.findIdx? fun e => e.frame == frame

/-- How many entries refer to `page`. -/
def countFor (t : FrameTable) (page : PageId) : Nat := t.entries.countP fun e => e.page == page

/-- The entries in the order in which the clock meets them. -/
def circular (t : FrameTable) : List Tenancy := t.entries.drop t.hand ++ t.entries.take t.hand

end FrameTable

end DemandPaging
