import DemandPaging.PageTable.Entry
import DemandPaging.Pool
import Std.Data.ExtTreeMap

/-!
# Page tables

A page table maps the addresses of user pages to frames. An access to a byte range walks over its
pieces in ascending order and stops at the first page that is not mapped or may not be written to;
what lies before that page has been read or written by then.
-/

namespace DemandPaging

/-- The mapped pages of one process, by the address of their first byte. -/
structure PageTable where
  entries : Std.ExtTreeMap Nat (PageTable.Entry × Frame)
  /-- The most pages that may be mapped at a time, if there is a limit. -/
  limit : Option Nat

namespace PageTable

/-- Uses of a page table that stop the machine. -/
inductive Misuse where
  /-- A page is mapped at an address that is not the first of a page. -/
  | unaligned
  /-- The number of the frame does not fit in an entry. -/
  | wideFrame
  /-- An entry is used that does not map a user page. -/
  | notUserPage
  /-- An access runs past the last address. -/
  | pastEnd
  deriving DecidableEq, Repr

/-- The text of a misuse. -/
def Misuse.message : Misuse → String
  | .unaligned => "assertion failed: is_page_aligned(upage)"
  | .wideFrame => "assertion failed: value <= Self::MAX.value"
  | .notUserPage => "assertion failed: pte.present() && pte.user_supervisor()"
  | .pastEnd => "attempt to add with overflow"

/-- A page fault: the address that could not be accessed, whether the access is a write, and whether
the page is mapped all the same. -/
structure Fault where
  addr : Nat
  write : Bool
  present : Bool
  deriving DecidableEq, Repr

/-- Why an access stops early. -/
inductive Trouble where
  | fault (f : Fault)
  | misuse (m : Misuse)
  deriving DecidableEq, Repr

/-- No page mapped. -/
def empty (limit : Option Nat) : PageTable := ⟨∅, limit⟩

/-- How many pages are mapped. -/
def mapped (t : PageTable) : Nat := t.entries.size

/-- Whether the table may not take another page. -/
def full (t : PageTable) : Bool :=
  match t.limit with
  | some limit => limit ≤ t.mapped
  | none => false

/-- Maps `upage` to `frame`, unless it is mapped already or the table is full. -/
def map (t : PageTable) (upage : Nat) (frame : Frame) (writable : Bool) :
    Except Misuse (Option PageTable) :=
  if !isAligned upage then .error .unaligned
  else if t.entries.contains upage || t.full then .ok none
  else if Entry.pfnLimit ≤ frame.pfn then .error .wideFrame
  else .ok (some { t with entries := t.entries.insert upage (.ofFrame frame writable, frame) })

/-- Whether `upage` is mapped and has been written to. -/
def isDirty (t : PageTable) (upage : Nat) : Bool :=
  match t.entries[upage]? with
  | some (e, _) => e.dirty
  | none => false

/-- Removes the mapping of `upage`, if there is one. -/
def unmap (t : PageTable) (upage : Nat) : PageTable := { t with entries := t.entries.erase upage }

/-- The frame that `upage` is mapped to. -/
def frame? (t : PageTable) (upage : Nat) : Option Frame := t.entries[upage]?.map (·.2)

/-- Whether `upage` is mapped and has been accessed. -/
def isAccessed (t : PageTable) (upage : Nat) : Bool :=
  match t.entries[upage]? with
  | some (e, _) => e.accessed
  | none => false

/-- Whether the page that holds `a` may be written to, if it is mapped. -/
def isWritable? (t : PageTable) (a : Nat) : Option Bool :=
  t.entries[pageBase a]?.map (·.1.writable)

/-- The accessed bit of `upage` becomes `v`, if the page is mapped. -/
def setAccessed (t : PageTable) (upage : Nat) (v : Bool) : PageTable :=
  match t.entries[upage]? with
  | some (e, frame) => { t with entries := t.entries.insert upage (e.setAccessed v, frame) }
  | none => t

/-! ### Accesses -/

/-- Accesses the page that holds `a`: the frame it is mapped to, and the table with the access
recorded in the entry. -/
def touch (t : PageTable) (a : Nat) (write : Bool) : Except Trouble (Frame × PageTable) :=
  if wordLimit ≤ a then .error (.misuse .pastEnd)
  else
    match t.entries[pageBase a]? with
    | none => .error (.fault ⟨a, write, false⟩)
    | some (e, frame) =>
      if !(e.present && e.user) then .error (.misuse .notUserPage)
      else if write && !e.writable then .error (.fault ⟨a, write, true⟩)
      else .ok (frame, { t with entries := t.entries.insert (pageBase a) (e.touch write, frame) })

/-- What a read came to: the bytes read, the table after it, and why it stopped early if it did. -/
structure Loaded where
  bytes : List UInt8
  table : PageTable
  trouble : Option Trouble

/-- What a write came to: the memory and the table after it, and why it stopped early if it did. -/
structure Stored where
  pool : Pool
  table : PageTable
  trouble : Option Trouble

/-- Reads the pieces one after the other. -/
def loadSpans (pool : Pool) : List Span → PageTable → Loaded
  | [], t => ⟨[], t, none⟩
  | s :: rest, t =>
    match t.touch s.addr false with
    | .error e => ⟨[], t, some e⟩
    | .ok (frame, t) =>
      let here := (pool.read frame).slice (pageOffset s.addr) s.len
      let later := loadSpans pool rest t
      { later with bytes := here ++ later.bytes }

/-- Writes the front of `data` to the first piece, what follows to the next one, and so on. -/
def storeSpans : List Span → List UInt8 → PageTable → Pool → Stored
  | [], _, t, pool => ⟨pool, t, none⟩
  | s :: rest, data, t, pool =>
    match t.touch s.addr true with
    | .error e => ⟨pool, t, some e⟩
    | .ok (frame, t) =>
      let bytes := (pool.read frame).overlay (pageOffset s.addr) (data.take s.len)
      storeSpans rest (data.drop s.len) t (pool.write frame bytes)

/-- Reads the `len` bytes from `a` on. -/
def load (t : PageTable) (pool : Pool) (a len : Nat) : Loaded := loadSpans pool (spans a len) t

/-- Writes `data` from `a` on. -/
def store (t : PageTable) (pool : Pool) (a : Nat) (data : List UInt8) : Stored :=
  storeSpans (spans a data.length) data t pool

@[simp] theorem mapped_empty (limit : Option Nat) : (empty limit).mapped = 0 := by
  simp [mapped, empty]

theorem frame?_unmap (t : PageTable) (u v : Nat) :
    (t.unmap u).frame? v = if u = v then none else t.frame? v := by
  simp only [frame?, unmap, Std.ExtTreeMap.getElem?_erase, Nat.compare_eq_eq]
  split <;> simp

theorem isAccessed_setAccessed (t : PageTable) (u : Nat) (a : Bool) (v : Nat) :
    (t.setAccessed u a).isAccessed v =
      if u = v then (t.frame? u).isSome && a else t.isAccessed v := by
  unfold setAccessed isAccessed frame?
  cases hu : t.entries[u]? with
  | none => by_cases h : u = v <;> simp_all
  | some p =>
    simp only [Std.ExtTreeMap.getElem?_insert, Nat.compare_eq_eq]
    by_cases h : u = v <;> simp [h]

end PageTable

end DemandPaging
