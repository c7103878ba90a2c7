import DemandPaging.Machine.Eviction

/-!
# Declaring pages and bringing them into memory

A page is declared at an address of user space that has none yet, and comes into memory when it is
needed: from its swap slot if it has one, else from its file, else as zeros. A stack page is declared
and brought into memory in one step. When a page cannot be brought in, the frame taken for it goes
back to the pool and the page is as it was.
-/

namespace DemandPaging

namespace Kernel

variable {φ : Type}

/-! ### Declaring pages -/

/-- Declares a page of process `p`. -/
def declare (p : ProcId) (upage : Nat) (writable : Bool) (backing : Backing) :
    Kernel φ (Except PageError PageId) := do
  if !isAligned upage then return .error (.misaligned upage)
  if !isUser upage then return .error (.notUser upage)
  if (← process p).declared.contains upage then return .error (.declared upage)
  let id ← addPage (.declared upage writable backing)
  modifyProcess p fun proc => { proc with declared := proc.declared.insert upage id }
  return .ok id

/-- Declares a page of process `p` that is a part of a file; together with its zeros the part has to fill
the page. -/
def declareRegion (p : ProcId) (upage : Nat) (writable : Bool) (kind : Region → Backing) (r : Region) :
    Kernel φ (Except PageError PageId) := do
  if r.readLen + r.zeroLen ≠ pageSize then return .error (.badLength r.readLen r.zeroLen)
  declare p upage writable (kind r)

/-- Declares a page of process `p` that is a part of a program's file. -/
def declareFile (p : ProcId) (upage : Nat) (r : Region) (writable : Bool) :
    Kernel φ (Except PageError PageId) := declareRegion p upage writable .file r

/-- Declares a page of process `p` that is a part of a mapped file, which may be written to. -/
def declareMapped (p : ProcId) (upage : Nat) (r : Region) : Kernel φ (Except PageError PageId) :=
  declareRegion p upage true .mapped r

/-- A part that fills the page is declared as any other page is. -/
theorem declareMapped_of_fits {r : Region} (h : r.readLen + r.zeroLen = pageSize) (p : ProcId) (upage : Nat) :
    declareMapped p upage r = (declare p upage true (.mapped r) : Kernel φ _) := by
  rw [declareMapped, declareRegion, if_neg (not_not_intro h)]

/-- Forgets the page of process `p` at `upage` and leaves its frame and slot alone. -/
def forget (p : ProcId) (upage : Nat) : Kernel φ (Option PageId) := do
  let id := (← process p).declared[upage]?
  modifyProcess p fun proc => { proc with declared := proc.declared.erase upage }
  return id

/-! ### Bringing pages in -/

/-- Maps page `id` of process `p` to its new frame; if the page table does not take it, the frame
goes back. -/
def install (p : ProcId) (id : PageId) (frame : Frame) : Kernel φ (Except PageError Unit) := do
  let pg ← page id
  if ← mapPage p pg.upage frame pg.writable then return .ok ()
  freeFrame frame
  return .error (.mapFailed pg.upage)

/-- Page `id` is in memory from now on, in `frame`. -/
def settle (id : PageId) (frame : Frame) : Kernel φ Unit :=
  modifyPage id fun p => { p with frame := some frame, slot := none }

variable [FileSystem φ]

/-- Brings page `id` in from its slot. -/
def pageInFromSlot (p : ProcId) (id : PageId) (upage slot : Nat) :
    Kernel φ (Except PageError Unit) := do
  let frame ← lendFrame p id upage false
  match ← install p id frame with
  | .error e => return .error e
  | .ok () =>
    loadSlot slot frame
    settle id frame
    return .ok ()

/-- Brings page `id` in as zeros. -/
def pageInZeroed (p : ProcId) (id : PageId) (upage : Nat) : Kernel φ (Except PageError Unit) := do
  let frame ← lendFrame p id upage true
  match ← install p id frame with
  | .error e => return .error e
  | .ok () =>
    settle id frame
    return .ok ()

/-- Brings page `id` in from its region of a file. -/
def pageInFromFile (p : ProcId) (id : PageId) (upage : Nat) (r : Region) :
    Kernel φ (Except PageError Unit) := do
  let frame ← lendFrame p id upage true
  let reading ← readRegion r
  writeFrame frame ((← readFrame frame).overlay 0 (reading.data.take r.readLen))
  if reading.count ≠ r.readLen then
    emit (.shortRead (← process p).pid upage reading.count r.readLen)
    freeFrame frame
    return .error (.shortRead r.readLen reading.count)
  match ← install p id frame with
  | .error e => return .error e
  | .ok () =>
    settle id frame
    return .ok ()

/-- Brings page `id`, which is pinned, into the memory of process `p`. -/
def pageIn (p : ProcId) (id : PageId) : Kernel φ (Except PageError Unit) := do
  let pg ← page id
  if pg.resident then return .error (.alreadyResident pg.upage)
  match pg.slot, pg.backing.region? with
  | some slot, _ => pageInFromSlot p id pg.upage slot
  | none, some r => pageInFromFile p id pg.upage r
  | none, none => pageInZeroed p id pg.upage

/-- Pins page `id` and brings it into the memory of process `p`. -/
def resolve (p : ProcId) (id : PageId) : Kernel φ (Except PageError Unit) := do
  pin id
  let result ← pageIn p id
  unpin id
  return result

/-! ### The stack -/

/-- Adds a zeroed stack page that holds `addr` to process `p`, unless the stack would grow too
large, the page is declared already, or it cannot be mapped. The page is pinned until it is in place; if
it cannot be mapped, it is dropped with its pin. -/
def growStack (p : ProcId) (addr : Nat) : Kernel φ (Option PageId) := do
  let upage := pageBase addr
  let proc ← process p
  if !isUser upage || stackLimit < userTop - upage then
    emit (.stackRefused proc.pid addr)
    return none
  if proc.declared.contains upage then return none
  let new : Page := { Page.declared upage true .swap with pinned := true }
  let frame ← lendFrame p (← get).pages.next upage true
  if ← mapPage p upage frame true then
    let id ← addPage { new with frame := some frame }
    modifyProcess p fun proc => { proc with declared := proc.declared.insert upage id }
    unpin id
    emit (.stackGrown proc.pid upage)
    return some id
  freeFrame frame
  return none

omit [FileSystem φ] in
/-- The pin of a page that is released as soon as the page is in place is never seen. -/
theorem addPage_unpin {α : Type} (pg : Page) (p : ProcId) (f : PageId → Process → Process)
    (rest : PageId → Kernel φ α) :
    (do
      let id ← addPage { pg with pinned := true }
      modifyProcess p (f id)
      unpin id
      rest id) =
    (do
      let id ← addPage { pg with pinned := false }
      modifyProcess p (f id)
      rest id) := by
  funext m
  have hunpin : ∀ {n : Machine φ} {i : PageId}, (n.page i).pinned = true →
      unpin i n = .ok () { n with pages := n.pages.modify i fun q => { q with pinned := false } } := by
    intro n i hpinned
    change (if !(n.page i).pinned then halt (.notPinned (n.page i).upage) else pure () : Kernel φ Unit) _ = _
    rw [hpinned]
    rfl
  let added (b : Bool) : Machine φ :=
    { m with
      pages := m.pages.add { pg with pinned := b }
      processes := m.processes.modify p (f m.pages.next) }
  have hadded : ((added true).page m.pages.next).pinned = true := by
    change ((m.pages.add { pg with pinned := true }).get m.pages.next).pinned = true
    rw [PageStore.get_add, if_pos rfl]
  have hreleased : unpin m.pages.next (added true) = .ok () (added false) := by
    rw [hunpin hadded]
    congr 2
    exact PageStore.modify_add ..
  change (unpin m.pages.next >>= fun _ => rest m.pages.next) (added true) = rest m.pages.next (added false)
  simp only [bind, EStateM.bind, hreleased]

/-- So the stack grows as if its new page were never pinned. -/
theorem growStack_eq (p : ProcId) (addr : Nat) : growStack p addr = (do
    let upage := pageBase addr
    let proc ← process p
    if !isUser upage || stackLimit < userTop - upage then
      emit (.stackRefused proc.pid addr)
      return none
    if proc.declared.contains upage then return none
    let frame ← lendFrame p (← get).pages.next upage true
    if ← mapPage p upage frame true then
      let id ← addPage { Page.declared upage true .swap with frame := some frame }
      modifyProcess p fun proc => { proc with declared := proc.declared.insert upage id }
      emit (.stackGrown proc.pid upage)
      return some id
    freeFrame frame
    return none : Kernel φ (Option PageId)) := by
  have hpin : ∀ (frame : Frame) (pid : UInt16), _ = _ := fun frame pid =>
    addPage_unpin (φ := φ) { Page.declared (pageBase addr) true .swap with frame := some frame } p
      (fun id proc => { proc with declared := proc.declared.insert (pageBase addr) id })
      fun id => do
        emit (.stackGrown pid (pageBase addr))
        return some id
  simp only [growStack, hpin]
  rfl

end Kernel

end DemandPaging
