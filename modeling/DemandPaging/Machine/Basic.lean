import DemandPaging.Device.Registry
import DemandPaging.Event
import DemandPaging.FrameTable
import DemandPaging.Halt
import DemandPaging.Process

/-!
# The machine

All the state that paging works on, and the programs that work on it. A program either returns a
value or stops; the state it leaves behind is kept in both cases. Pages, processes and frames are
named by numbers and handles, so that everything that refers to one of them sees its changes.
-/

namespace DemandPaging

/-- The state of the machine, over a file system with state `φ`. -/
structure Machine (φ : Type) where
  /-- Physical memory. -/
  allocator : Allocator
  /-- The lent frames. -/
  frames : FrameTable
  swap : Swap
  devices : Registry
  pages : PageStore
  processes : Array Process
  files : φ
  /-- What has been reported, in order. -/
  log : Array Event

namespace Machine

variable {φ : Type}

/-- A machine that has only its memory and its files: no devices, no swap space, no process. -/
def bare (allocator : Allocator) (files : φ) : Machine φ :=
  ⟨allocator, .empty, .absent, .empty, .empty, #[], files, #[]⟩

def pool (m : Machine φ) : Pool := m.allocator.pool

/-- Process `p`. -/
def process (m : Machine φ) (p : ProcId) : Process := m.processes.getD p .absent

/-- Page `i`. -/
def page (m : Machine φ) (i : PageId) : Page := m.pages.get i

/-- The declared page of process `p` that holds `a`. -/
def lookup (m : Machine φ) (p : ProcId) (a : Nat) : Option PageId := (m.process p).lookup a

/-- Whether process `p` has declared a page that is pinned. -/
def anyPinned (m : Machine φ) (p : ProcId) : Bool :=
  (m.process p).pages.any fun i => (m.page i).pinned

/-- The pages that process `p` has in memory, with their addresses. -/
def residentPages (m : Machine φ) (p : ProcId) : List (Nat × Frame) :=
  (m.process p).declared.toList.filterMap fun (upage, i) => (m.page i).frame.map (upage, ·)

/-- The pages of process `p` that are swapped out, with their addresses and slots. -/
def swappedPages (m : Machine φ) (p : ProcId) : List (Nat × Nat) :=
  (m.process p).declared.toList.filterMap fun (upage, i) => (m.page i).slot.map (upage, ·)

/-- The reported events of a level up to `level`. -/
def reported (m : Machine φ) (level : Level) : List Event :=
  m.log.toList.filter fun e => e.level.rank ≤ level.rank

end Machine

/-- A program that works on the machine. -/
abbrev Kernel (φ : Type) := EStateM Stop (Machine φ)

namespace Kernel

variable {φ α : Type}

/-- Halts the machine. -/
def halt (cause : Halt) : Kernel φ α := throw (.halt cause)

/-- Reports an event. -/
def emit (e : Event) : Kernel φ Unit := modify fun m => { m with log := m.log.push e }

/-- Page `i`. -/
def page (i : PageId) : Kernel φ Page := return (← get).page i

/-- Page `i` becomes `f` of what it was. -/
def modifyPage (i : PageId) (f : Page → Page) : Kernel φ Unit :=
  modify fun m => { m with pages := m.pages.modify i f }

/-- Adds a page to the store. -/
def addPage (p : Page) : Kernel φ PageId :=
  modifyGet fun m => (m.pages.next, { m with pages := m.pages.add p })

/-- Process `p`. -/
def process (p : ProcId) : Kernel φ Process := return (← get).process p

/-- Process `p` becomes `f` of what it was. -/
def modifyProcess (p : ProcId) (f : Process → Process) : Kernel φ Unit :=
  modify fun m => { m with processes := m.processes.modify p f }

/-- The page table of process `p` becomes `f` of what it was. -/
def modifyTable (p : ProcId) (f : PageTable → PageTable) : Kernel φ Unit :=
  modifyProcess p fun proc => { proc with table := f proc.table }

/-- Starts a process whose page table takes at most `limit` pages. -/
def spawn (pid : UInt16) (limit : Option Nat) : Kernel φ ProcId :=
  modifyGet fun m =>
    (m.processes.size, { m with processes := m.processes.push (.fresh pid limit) })

/-! ### Pins -/

/-- Pins page `i` unless it is pinned already; says whether it did. -/
def tryPin (i : PageId) : Kernel φ Bool := do
  if (← page i).pinned then return false
  modifyPage i fun p => { p with pinned := true }
  return true

/-- Pins page `i`, waiting while it is pinned. -/
def pin (i : PageId) : Kernel φ Unit := do
  if !(← tryPin i) then throw (.wait (← page i).upage)

/-- Releases the pin of page `i`. -/
def unpin (i : PageId) : Kernel φ Unit := do
  let before ← page i
  modifyPage i fun p => { p with pinned := false }
  if !before.pinned then halt (.notPinned before.upage)

end Kernel

end DemandPaging
