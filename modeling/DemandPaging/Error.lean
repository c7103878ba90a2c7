import DemandPaging.Text

/-!
# Errors of paging

Why a page cannot be declared or brought into memory, why a file cannot be mapped, and why a page
fault cannot be resolved. None of them stops the machine; a fault that cannot be resolved ends the
process.
-/

namespace DemandPaging

/-- Why a page cannot be declared or brought into memory. -/
inductive PageError where
  /-- The bytes from the file and the zeros after them do not make a page. -/
  | badLength (readLen zeroLen : Nat)
  /-- The address is not the first of a page. -/
  | misaligned (addr : Nat)
  /-- The address does not belong to user programs. -/
  | notUser (addr : Nat)
  /-- The page is declared already. -/
  | declared (addr : Nat)
  /-- The page is in memory already. -/
  | alreadyResident (addr : Nat)
  /-- The file gave another number of bytes than the page takes from it. -/
  | shortRead (expected got : Nat)
  /-- The page table did not take the page. -/
  | mapFailed (addr : Nat)
  deriving DecidableEq, Repr

/-- The text of a page error. -/
def PageError.message : PageError → String
  | .badLength readLen zeroLen =>
    s!"read length {readLen} and zero length {zeroLen} do not add up to a page"
  | .misaligned addr => s!"address {hex addr} is not page aligned"
  | .notUser addr => s!"address {hex addr} is not a user address"
  | .declared addr => s!"page {hex addr} is already in the supplemental page table"
  | .alreadyResident addr => s!"page {hex addr} is already resident"
  | .shortRead expected got => s!"short read: expected {expected} bytes, got {got}"
  | .mapFailed addr => s!"could not map page {hex addr}"

/-- Why a file cannot be mapped into memory. -/
inductive MapError where
  /-- The address cannot hold the mapping. -/
  | badAddress (addr : Nat)
  /-- The file has no bytes. -/
  | emptyFile
  /-- A page of the mapping cannot be declared. -/
  | page (e : PageError)
  deriving DecidableEq, Repr

/-- The text of a mapping error. -/
def MapError.message : MapError → String
  | .badAddress addr => s!"cannot map a file at {hex addr}"
  | .emptyFile => "cannot map an empty file"
  | .page e => e.message

/-- Why a page fault cannot be resolved. -/
inductive FaultError where
  /-- The address does not belong to user programs. -/
  | notUser (addr : Nat)
  /-- A page is written to that may only be read. -/
  | readOnly (addr : Nat)
  /-- The address belongs to no declared page and not to the stack. -/
  | unmapped (addr : Nat)
  /-- The page cannot be brought into memory. -/
  | pageIn (addr : Nat) (e : PageError)
  deriving DecidableEq, Repr

/-- The text of a fault error. -/
def FaultError.message : FaultError → String
  | .notUser addr => s!"{hex addr} is not a user address"
  | .readOnly addr => s!"write to read-only page at {hex addr}"
  | .unmapped addr => s!"{hex addr} is not mapped"
  | .pageIn addr e => s!"{hex addr}: {e.message}"

end DemandPaging
