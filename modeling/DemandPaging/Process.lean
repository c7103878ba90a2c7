import DemandPaging.Mapping
import DemandPaging.PageTable.Basic

/-!
# Processes

What the machine keeps of a process: its page table, the pages it has declared, and its mappings.
After its exit only the page table is left.
-/

namespace DemandPaging

/-- The memory of a process. -/
structure Process where
  pid : UInt16
  table : PageTable
  /-- The declared pages, by the address of their first byte. -/
  declared : Std.ExtTreeMap Nat PageId
  mappings : MapTable
  exited : Bool

namespace Process

/-- A process that has declared nothing; its page table takes at most `limit` pages. -/
def fresh (pid : UInt16) (limit : Option Nat) : Process := ⟨pid, .empty limit, ∅, .empty, false⟩

/-- What stands for a process that was never started. -/
def absent : Process := { fresh 0 none with exited := true }

/-- The declared page that holds `a`. -/
def lookup (p : Process) (a : Nat) : Option PageId := p.declared[pageBase a]?

/-- The declared pages in ascending order of address. -/
def pages (p : Process) : List PageId := p.declared.toList.map (·.2)

end Process

end DemandPaging
