import DemandPaging.PageTable.Basic
import DemandPaging.Swap

/-!
# Halts

What stops the machine. A halt is final and has a text. Waiting for a page is not a halt, but
nothing else runs meanwhile, so it never ends either.
-/

namespace DemandPaging

/-- Why the machine halts. -/
inductive Halt where
  | pool (e : Pool.Misuse)
  | table (e : PageTable.Misuse)
  | swap (e : Swap.Misuse)
  /-- A frame is needed and none can be evicted. -/
  | allPinned
  /-- A frame is needed and there is none even after an eviction. -/
  | shortage (e : Frame.Shortage)
  /-- A frame is freed that the frame table does not list. -/
  | untracked (frame : Frame)
  /-- The pin of a page is released that is not pinned. -/
  | notPinned (upage : Nat)
  /-- A region takes more bytes from its file than a frame has. -/
  | pastFrame (readLen : Nat)
  deriving DecidableEq, Repr

/-- The text of a halt. -/
def Halt.message : Halt → String
  | .pool e => e.message
  | .table e => e.message
  | .swap e => e.message
  | .allPinned => "out of frames: every resident page is pinned"
  | .shortage e => "out of frames after eviction: " ++ e.message
  | .untracked frame => "freeing untracked " ++ frame.text
  | .notPinned upage => s!"unpinning unpinned page {hex upage}"
  | .pastFrame readLen =>
    s!"range end index {readLen} out of range for slice of length {pageSize}"

/-- Why an operation does not come to its end. -/
inductive Stop where
  | halt (cause : Halt)
  /-- It waits for the page at `upage`, which is pinned or does not stay in memory. -/
  | wait (upage : Nat)
  deriving DecidableEq, Repr

end DemandPaging
