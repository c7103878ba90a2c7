import DemandPaging.File.Basic
import DemandPaging.Frame
import DemandPaging.Text

/-!
# Pages

A page that a process has declared: where its contents come from, and where they are now. Pages are
kept in a store and named by their number, which stays theirs after the process has forgotten them.
-/

namespace DemandPaging

/-- What a page takes from a file: `readLen` bytes at `offset`, followed by `zeroLen` zeros. -/
structure Region where
  file : Handle
  offset : Nat
  readLen : Nat
  zeroLen : Nat
  deriving DecidableEq, Repr

/-- Where the contents of a page come from while it is not in memory. -/
inductive Backing where
  /-- Memory without a file, kept in swap space. -/
  | swap
  /-- A part of a program's file. -/
  | file (region : Region)
  /-- A part of a mapped file, to which changes are written back. -/
  | mapped (region : Region)
  deriving DecidableEq, Repr

/-- The region of a file behind a page, if there is one. -/
def Backing.region? : Backing → Option Region
  | .swap => none
  | .file r | .mapped r => some r

/-- How the contents of a page are kept when it is evicted. -/
inductive Keeping where
  | swap | file | mapped
  deriving DecidableEq, Repr

def Keeping.text : Keeping → String
  | .swap => "Swap"
  | .file => "File"
  | .mapped => "Mmap"

/-- A declared page. -/
structure Page where
  /-- The address of its first byte. -/
  upage : Nat
  writable : Bool
  backing : Backing
  /-- Set while the page must not be moved. -/
  pinned : Bool
  /-- The frame that holds the page while it is in memory. -/
  frame : Option Frame
  /-- The slot that holds the page while it is swapped out. -/
  slot : Option Nat
  /-- A page of a program's file that was written to and evicted, and lives in swap space since. -/
  anonymous : Bool
  deriving DecidableEq, Repr

namespace Page

/-- A page as it is declared: neither in memory nor swapped out, and not pinned. -/
def declared (upage : Nat) (writable : Bool) (backing : Backing) : Page :=
  ⟨upage, writable, backing, false, none, none, false⟩

def resident (p : Page) : Bool := p.frame.isSome

/-- How the contents are kept when the page is evicted. -/
def keeping (p : Page) : Keeping :=
  match p.backing with
  | .swap => .swap
  | .file _ => if p.anonymous then .swap else .file
  | .mapped _ => .mapped

theorem keeping_eq_swap_iff (p : Page) :
    p.keeping = .swap ↔ p.backing = .swap ∨ (∃ r, p.backing = .file r) ∧ p.anonymous = true := by
  unfold keeping
  cases p.backing with
  | swap => simp
  | file r => cases p.anonymous <;> simp
  | mapped r => simp

/-- A page that is not kept in swap space has a part of a file. -/
theorem exists_region_of_keeping {p : Page} (h : p.keeping ≠ .swap) : ∃ r, p.backing.region? = some r := by
  cases hb : p.backing with
  | swap => exact absurd (p.keeping_eq_swap_iff.2 (.inl hb)) h
  | file r => exact ⟨r, rfl⟩
  | mapped r => exact ⟨r, rfl⟩

def text (p : Page) : String :=
  s!"Page \x7b upage: {hex p.upage}, kind: {p.keeping.text}, writable: {p.writable}" ++
    s!", pinned: {p.pinned}, .. \x7d"

end Page

/-- The number of a page in the store. -/
abbrev PageId := Nat

/-- All pages ever declared, by number. -/
structure PageStore where
  pages : Array Page

namespace PageStore

def empty : PageStore := ⟨#[]⟩

/-- Page `i`; a number that was never given out names a page without contents at address 0. -/
def get (s : PageStore) (i : PageId) : Page := s.pages.getD i (.declared 0 false .swap)

/-- The number of the next page to be added. -/
def next (s : PageStore) : PageId := s.pages.size

/-- Adds a page, under the number `s.next`. -/
def add (s : PageStore) (p : Page) : PageStore := ⟨s.pages.push p⟩

/-- Page `i` becomes `f` of what it was. -/
def modify (s : PageStore) (i : PageId) (f : Page → Page) : PageStore := ⟨s.pages.modify i f⟩

@[simp] theorem next_add (s : PageStore) (p : Page) : (s.add p).next = s.next + 1 := by
  simp [next, add]

@[simp] theorem next_modify (s : PageStore) (i : PageId) (f : Page → Page) :
    (s.modify i f).next = s.next := by simp [next, modify]

theorem get_add (s : PageStore) (p : Page) (j : PageId) :
    (s.add p).get j = if j = s.next then p else s.get j := by
  simp only [get, add, next, Array.getD_eq_getD_getElem?, Array.getElem?_push]
  split <;> simp_all

/-- A page that is changed as soon as it has been added might have been added so. -/
theorem modify_add (s : PageStore) (p : Page) (f : Page → Page) :
    (s.add p).modify s.next f = s.add (f p) := by
  simp only [add, modify, next, PageStore.mk.injEq]
  ext i h
  · simp
  · simp only [Array.getElem_modify, Array.getElem_push]
    grind

/-- A change of one page leaves all others alone. -/
theorem get_modify (s : PageStore) {i : PageId} (h : i < s.next) (f : Page → Page) (j : PageId) :
    (s.modify i f).get j = if i = j then f (s.get j) else s.get j := by
  simp only [next] at h
  simp only [get, modify, Array.getD_eq_getD_getElem?, Array.getElem?_modify]
  by_cases hij : i = j
  · have hj : j < s.pages.size := hij ▸ h
    simp [hij, Array.getElem?_eq_getElem hj]
  · simp [hij]

end PageStore

end DemandPaging
