import DemandPaging.Address
import DemandPaging.Bits
import DemandPaging.Text

/-!
# Page frames

A frame is one page of physical memory. Its handle names it twice: by its physical frame number, and
by the cell of memory that the kernel sees it through. A request for a frame and the status of a
frame are bytes of flags.
-/

namespace DemandPaging

/-- A handle on a page frame. -/
structure Frame where
  /-- The physical frame number. -/
  pfn : Nat
  /-- Which cell of the pool's memory holds the bytes. A handle made elsewhere names a cell that the
  pool does not have. -/
  cell : Nat
  deriving DecidableEq, Repr

namespace Frame

/-- The physical address of the first byte. -/
def physical (f : Frame) : Nat := f.pfn * pageSize

def text (f : Frame) : String := "Frame(" ++ hex f.physical ++ ")"

/-- What is asked of a new frame. -/
structure Request where
  flags : BitArray 8
  deriving DecidableEq

/-- No flag set. -/
def Request.plain : Request := ⟨.clear 8⟩

/-- The frame is for a user program. -/
def Request.user (r : Request) : Bool := r.flags.test 0

/-- The frame is to be handed out filled with zeros. -/
def Request.zeroed (r : Request) : Bool := r.flags.test 1

/-- A frame for a user program, filled with zeros if `zeroed`. -/
def Request.forUser (zeroed : Bool) : Request := ⟨((BitArray.clear 8).put 0 true).put 1 zeroed⟩

/-- What the pool records of each frame it owns. -/
structure Status where
  flags : BitArray 8
  deriving DecidableEq

/-- The status of a free frame. -/
def Status.free : Status := ⟨.clear 8⟩

/-- The frame is handed out. -/
def Status.lent (s : Status) : Bool := s.flags.test 0

/-- The frame is handed out now, having been filled with zeros if `zeroed`. -/
def Status.lend (s : Status) (zeroed : Bool) : Status := ⟨(s.flags.put 0 true).put 1 zeroed⟩

/-- Why a request for a frame is turned down. -/
inductive Shortage where | outOfFrames
  deriving DecidableEq, Repr

/-- The text of a request that is turned down. -/
def Shortage.message : Shortage → String
  | .outOfFrames => "out of physical frames"

@[simp] theorem user_forUser (z : Bool) : (Request.forUser z).user = true := by
  simp [Request.user, Request.forUser, BitArray.test_put]

@[simp] theorem zeroed_forUser (z : Bool) : (Request.forUser z).zeroed = z := by
  simp [Request.zeroed, Request.forUser, BitArray.test_put]

@[simp] theorem user_plain : Request.plain.user = false := by simp [Request.user, Request.plain]

@[simp] theorem lent_free : Status.free.lent = false := by simp [Status.lent, Status.free]

@[simp] theorem lent_lend (s : Status) (z : Bool) : (s.lend z).lent = true := by
  simp [Status.lent, Status.lend, BitArray.test_put]

end Frame

end DemandPaging
