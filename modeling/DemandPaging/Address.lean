/-!
# Addresses

An address is a natural number; a machine word has 64 bits, so addresses lie below `wordLimit`.
Memory is divided into pages of `pageSize` bytes. User programs own the half-open range from
`userBase` to `userTop`, and their stack hangs down from `userTop`.

`spans` splits a byte range at page boundaries; accesses and copies walk over its pieces.
-/

namespace DemandPaging

/-- Machine words have 64 bits: addresses and lengths lie below this bound. -/
def wordLimit : Nat := 0x10000000000000000

/-- Bytes in a page, and in the frame that holds it. -/
def pageSize : Nat := 4096

/-- Bytes in a sector of a block device. -/
def sectorSize : Nat := 512

/-- Sectors that hold one page. -/
def sectorsPerPage : Nat := pageSize / sectorSize

/-- The lowest address of a user program; everything below stays unmapped. -/
def userBase : Nat := 0x08048000

/-- The first address past user space, where the user stack starts to grow down. -/
def userTop : Nat := 0x80000000

/-- The most bytes a user stack may span. -/
def stackLimit : Nat := 8 * 1024 * 1024

/-- How far below the stack pointer an access still counts as use of the stack. -/
def stackSlack : Nat := 32

/-- The exit status of a process that is killed for a bad access. -/
def killedStatus : Int := -1

/-- The address of the first byte of the page that holds `a`. -/
def pageBase (a : Nat) : Nat := a - a % pageSize

/-- The position of `a` within its page. -/
def pageOffset (a : Nat) : Nat := a % pageSize

/-- An aligned address is the first of its page. -/
def isAligned (a : Nat) : Bool := pageOffset a == 0

/-- A user address lies in the range that user programs own. -/
def isUser (a : Nat) : Bool := userBase ≤ a && a < userTop

/-- A piece of a byte range that stays within one page: its address and its length. -/
structure Span where
  addr : Nat
  len : Nat
  deriving DecidableEq, Repr

/-- How many pages the `len` bytes from `a` on touch. -/
def spanCount (a len : Nat) : Nat :=
  if len = 0 then 0 else (pageOffset a + len + (pageSize - 1)) / pageSize

/-- The `i`-th piece of the range: what of it lies in the `i`-th page, counted from the page of `a`. -/
def span (a len i : Nat) : Span :=
  let first := max a (pageBase a + i * pageSize)
  ⟨first, min (a + len) (pageBase a + (i + 1) * pageSize) - first⟩

/-- The `len` bytes from `a` on, split at page boundaries, in ascending order. -/
def spans (a len : Nat) : List Span := (List.range (spanCount a len)).map (span a len)

theorem pageBase_add_pageOffset (a : Nat) : pageBase a + pageOffset a = a :=
  Nat.sub_add_cancel (Nat.mod_le a pageSize)

theorem pageOffset_lt (a : Nat) : pageOffset a < pageSize := Nat.mod_lt a (by decide)

theorem pageBase_le (a : Nat) : pageBase a ≤ a := Nat.sub_le ..

@[simp] theorem pageOffset_pageBase (a : Nat) : pageOffset (pageBase a) = 0 := by
  simp only [pageOffset, pageBase, pageSize]; omega

@[simp] theorem pageBase_pageBase (a : Nat) : pageBase (pageBase a) = pageBase a := by
  simp only [pageBase, pageSize]; omega

@[simp] theorem isAligned_pageBase (a : Nat) : isAligned (pageBase a) = true := by
  simp [isAligned]

@[simp] theorem spans_zero (a : Nat) : spans a 0 = [] := rfl

end DemandPaging
