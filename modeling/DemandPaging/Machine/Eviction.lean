import DemandPaging.Machine.Resource

/-!
# Lending frames and evicting pages

A page that comes into memory takes a frame. When the pool has none left, a clock picks a page to
evict: its hand goes around the frame table for at most two sweeps, passes over pinned pages, gives
every accessed page a second chance by clearing its accessed bit, and stops at the first page that
is neither. What becomes of the contents of that page is decided by `Page.disposal`.
-/

namespace DemandPaging

/-- What becomes of the contents of a page when it is evicted. A changed page of a program's file
that zeros fill up cannot go back without growing the file, so it moves to swap space for good. -/
def Page.disposal (p : Page) (dirty : Bool) : Disposal :=
  let writeBack := if dirty then Disposal.writtenBack else .dropped
  match p.backing with
  | .swap => .swappedOut
  | .file r => if p.anonymous || (dirty && 0 < r.zeroLen) then .swappedOut else writeBack
  | .mapped _ => writeBack

/-- The anonymous flag of a page that has just moved to swap space: a page of a program's file stays
there from then on. -/
def Page.anonymousOnceSwapped (p : Page) : Bool :=
  match p.backing with
  | .file _ => true
  | _ => p.anonymous

namespace Page

variable {p : Page} {dirty : Bool}

/-- A page goes to swap space if it is kept there, or has been changed and its file has no room for its
zeros. -/
theorem disposal_eq_swappedOut_iff : p.disposal dirty = .swappedOut ↔
    p.keeping = .swap ∨ dirty = true ∧ ∃ r, p.backing = .file r ∧ 0 < r.zeroLen := by
  unfold disposal keeping
  cases p.backing with
  | swap => simp
  | file r => cases p.anonymous <;> cases dirty <;> simp [Nat.pos_iff_ne_zero]
  | mapped r => cases dirty <;> simp

/-- It goes to its file if it has been changed and the file has room for all of it. -/
theorem disposal_eq_writtenBack_iff : p.disposal dirty = .writtenBack ↔
    dirty = true ∧ p.keeping ≠ .swap ∧ ∀ r, p.backing = .file r → r.zeroLen = 0 := by
  unfold disposal keeping
  cases p.backing with
  | swap => simp
  | file r => cases p.anonymous <;> cases dirty <;> simp
  | mapped r => cases dirty <;> simp

/-- It goes nowhere if its file has it already. -/
theorem disposal_eq_dropped_iff : p.disposal dirty = .dropped ↔ dirty = false ∧ p.keeping ≠ .swap := by
  unfold disposal keeping
  cases p.backing with
  | swap => simp
  | file r =>
    cases p.anonymous <;> cases dirty <;> simp
    split <;> simp
  | mapped r => cases dirty <;> simp

/-- The flag rises when a page goes to swap space that has not been kept there before. -/
theorem anonymousOnceSwapped_iff (h : p.disposal dirty = .swappedOut) : p.anonymousOnceSwapped = true ↔
    p.anonymous = true ∨ dirty = true ∧ ∃ r, p.backing = .file r ∧ 0 < r.zeroLen := by
  rw [disposal_eq_swappedOut_iff, keeping_eq_swap_iff] at h
  unfold anonymousOnceSwapped
  rcases h with (hb | ⟨⟨r, hb⟩, ha⟩) | ⟨hdirty, r, hb, hz⟩
  · simp [hb]
  · simp [hb, ha]
  · simp [hb, hdirty, hz]

end Page

namespace Kernel

variable {φ : Type}

/-! ### The clock -/

/-- One look of the clock: moves the hand on, and takes the entry it was on out of the frame table
if its page is neither pinned nor accessed. The page of that entry is left pinned.

The hand is on an entry whenever there is one: adding an entry leaves it there, and `FrameTable.advance`
and `FrameTable.remove` bring it back to the first entry from the last. -/
def look : Kernel φ (Option Tenancy) := do
  let table := (← get).frames
  match table.current? with
  -- the hand is in range, so there is no entry at all
  | none => return none
  | some e =>
    modify fun m => { m with frames := m.frames.advance }
    if !(← tryPin e.page) then return none
    let upage := (← page e.page).upage
    if (← process e.owner).table.isAccessed upage then
      modifyTable e.owner (·.setAccessed upage false)
      unpin e.page
      return none
    else
      modify fun m => { m with frames := m.frames.remove table.hand }
      return some e

/-- At most `n` looks of the clock, up to the first that takes an entry. -/
def sweep : Nat → Kernel φ (Option Tenancy)
  | 0 => return none
  | n + 1 => do
    match ← look with
    | some e => return some e
    | none => sweep n

variable [FileSystem φ]

/-- Unmaps the page of an entry and puts its contents where they are kept. -/
def pageOut (victim : Tenancy) : Kernel φ Unit := do
  let upage := (← page victim.page).upage
  let dirty ← unmapPage victim.owner upage
  let before ← page victim.page
  let pid := (← process victim.owner).pid
  let disposal := before.disposal dirty
  match disposal, before.backing.region? with
  | .swappedOut, _ =>
    let slot ← swapOut victim.frame
    modifyPage victim.page fun p => { p with slot := some slot, anonymous := p.anonymousOnceSwapped }
  | .writtenBack, some r =>
    let written ← writeRegion r victim.frame
    if written ≠ r.readLen then emit (.shortWriteBack pid upage written r.readLen)
  | _, _ => pure ()
  modifyPage victim.page fun p => { p with frame := none }
  emit (.evicted pid upage victim.frame disposal)

/-- Evicts the page that the clock picks and returns its frame to the pool; says whether there was
such a page. -/
def evict : Kernel φ Bool := do
  match ← sweep (2 * (← get).frames.entries.length) with
  | none => return false
  | some victim =>
    pageOut victim
    returnFrame victim.frame
    unpin victim.page
    return true

/-! ### Lending -/

/-- Takes a frame from the pool, evicting a page if it has none to give. -/
def obtainFrame (r : Frame.Request) : Kernel φ Frame := do
  match ← takeFrame r with
  | .ok frame => return frame
  | .error _ =>
    if !(← evict) then halt .allPinned
    match ← takeFrame r with
    | .ok frame => return frame
    | .error e => halt (.shortage e)

/-- Lends a frame to process `p` for page `id` at `upage`, which must not be moved meanwhile. -/
def lendFrame (p : ProcId) (id : PageId) (upage : Nat) (zeroed : Bool) : Kernel φ Frame := do
  let frame ← obtainFrame (.forUser zeroed)
  emit (.frameLent frame (← process p).pid upage)
  modify fun m => { m with frames := m.frames.add ⟨frame, p, id⟩ }
  return frame

omit [FileSystem φ] in
/-- Takes a frame out of the frame table and returns it to the pool. The page that it held and the
mapping of that page are not touched. -/
def freeFrame (frame : Frame) : Kernel φ Unit := do
  match (← get).frames.position? frame with
  | none => halt (.untracked frame)
  | some i =>
    modify fun m => { m with frames := m.frames.remove i }
    returnFrame frame

end Kernel

end DemandPaging
