import DemandPaging.Bytes
import DemandPaging.Frame

/-!
# The pool of user frames

The pool owns a run of consecutive page frames and lends them out. It places requests next-fit: the
search for a free frame starts after the last one lent and goes once around. A frame keeps its bytes
while it is free; only a request for a zeroed frame clears them.

An `Allocator` stands in front of a pool and may turn requests down on its own account.
-/

namespace DemandPaging

/-- One frame of the pool: its status and its bytes. -/
structure Cell where
  status : Frame.Status
  bytes : PageBytes

/-- Consecutive frames, lent out next-fit. -/
structure Pool where
  /-- The physical frame number of the first frame. -/
  firstPfn : Nat
  cells : Array Cell
  /-- The cell that the next search starts from. -/
  next : Nat
  /-- How many frames are lent. -/
  inUse : Nat

namespace Pool

/-- Uses of a pool that stop the machine. -/
inductive Misuse where
  /-- The pool's physical memory does not start at a page boundary. -/
  | unaligned
  /-- The pool's frame numbers do not fit in 32 bits. -/
  | tooHigh
  /-- A frame is returned that lies outside the pool. -/
  | foreign (frame : Frame)
  /-- A frame is returned whose number and cell name different frames. -/
  | mismatched
  /-- A frame is returned that is free. -/
  | notLent (frame : Frame)
  deriving DecidableEq, Repr

/-- The text of a misuse. -/
def Misuse.message : Misuse → String
  | .unaligned => "assertion `left == right` failed: unaligned user pool"
  | .tooHigh => "user pool exceeds the physical address space"
  | .foreign frame => frame.text ++ " does not belong to the user pool"
  | .mismatched => "assertion `left == right` failed"
  | .notLent frame => "double free of " ++ frame.text

/-- Where the pool's physical memory starts unless something else is asked for: at 1 MiB. -/
def defaultBase : Nat := 1024 * 1024

/-- The largest physical frame number of a pool plus one. -/
def pfnLimit : Nat := 0xffffffff

/-- A pool of `frames` zeroed free frames, the first at physical address `base`. -/
def create (frames : Nat) (base : Nat) : Except Misuse Pool :=
  if base % pageSize ≠ 0 then .error .unaligned
  else if pfnLimit < base / pageSize + frames then .error .tooHigh
  else .ok ⟨base / pageSize, Array.replicate frames ⟨.free, .zero pageSize⟩, 0, 0⟩

/-- How many frames the pool owns. -/
def total (p : Pool) : Nat := p.cells.size

/-- The handle of the frame in cell `i`. -/
def frameAt (p : Pool) (i : Nat) : Frame := ⟨p.firstPfn + i, i⟩

/-- Whether the frame in cell `i` is lent; a cell the pool does not have is not. -/
def lent (p : Pool) (i : Nat) : Bool :=
  match p.cells[i]? with
  | some cell => cell.status.lent
  | none => false

/-- The bytes of a frame; zeros for a cell the pool does not have. -/
def read (p : Pool) (frame : Frame) : PageBytes :=
  match p.cells[frame.cell]? with
  | some cell => cell.bytes
  | none => .zero pageSize

/-- The bytes of a frame become `bytes`. -/
def write (p : Pool) (frame : Frame) (bytes : PageBytes) : Pool :=
  { p with cells := p.cells.modify frame.cell fun cell => { cell with bytes } }

/-- The cells in the order in which the next request looks at them. -/
def searchOrder (p : Pool) : List Nat := (List.range p.total).map fun i => (p.next + i) % p.total

/-- The first free cell at or after the cursor, going around once. -/
def nextFit (p : Pool) : Option Nat := p.searchOrder.find? fun i => !p.lent i

/-- Lends a frame. The pool serves user programs only. -/
def alloc (p : Pool) (r : Frame.Request) : Except Frame.Shortage (Frame × Pool) :=
  if !r.user then .error .outOfFrames
  else
    match p.nextFit with
    | none => .error .outOfFrames
    | some i =>
      let lend (cell : Cell) : Cell :=
        ⟨cell.status.lend r.zeroed, if r.zeroed then .zero pageSize else cell.bytes⟩
      .ok (p.frameAt i,
        { p with cells := p.cells.modify i lend, next := (i + 1) % p.total, inUse := p.inUse + 1 })

/-- The cell that a returned frame must come from. -/
def cellOf (p : Pool) (frame : Frame) : Except Misuse Nat :=
  let i := frame.pfn - p.firstPfn
  if frame.pfn < p.firstPfn ∨ p.total ≤ i then .error (.foreign frame)
  else if frame.cell ≠ i then .error .mismatched
  else .ok i

/-- Takes a frame back. Its bytes stay. -/
def dealloc (p : Pool) (frame : Frame) : Except Misuse Pool := do
  let i ← p.cellOf frame
  if p.lent i then
    return { p with
      cells := p.cells.modify i fun cell => { cell with status := .free }
      inUse := p.inUse - 1 }
  else throw (.notLent frame)

/-- A handle with number `pfn` that no pool made: its cell is none of `p`. -/
def stray (p : Pool) (pfn : Nat) : Frame := ⟨pfn, p.total⟩

@[simp] theorem total_write (p : Pool) (f : Frame) (b : PageBytes) :
    (p.write f b).total = p.total := by simp [total, write]

theorem lent_write (p : Pool) (f : Frame) (b : PageBytes) (i : Nat) :
    (p.write f b).lent i = p.lent i := by
  simp only [lent, write, Array.getElem?_modify]
  by_cases h : f.cell = i
  · cases hc : p.cells[i]? <;> simp [h]
  · simp [h]

/-- A write changes the bytes of the frame it names and of no other. -/
theorem read_write (p : Pool) {f : Frame} (h : f.cell < p.total) (b : PageBytes) (g : Frame) :
    (p.write f b).read g = if f.cell = g.cell then b else p.read g := by
  have h' : f.cell < p.cells.size := h
  simp only [read, write, Array.getElem?_modify]
  by_cases hg : f.cell = g.cell
  · simp [hg ▸ h', hg]
  · simp [hg]

end Pool

/-- A pool behind a gate that may turn any request down. -/
structure Allocator where
  pool : Pool
  /-- How many requests have been made. -/
  requests : Nat
  /-- Whether the gate turns the `n`-th request down, counted from 0. -/
  refuses : Nat → Bool

namespace Allocator

/-- A gate that lets every request through. -/
def always (pool : Pool) : Allocator := ⟨pool, 0, fun _ => false⟩

/-- A gate that lets the first `n` requests through and turns down the rest. -/
def upTo (n : Nat) (pool : Pool) : Allocator := ⟨pool, 0, fun k => n ≤ k⟩

/-- Lends a frame of the pool, unless the gate turns the request down. -/
def alloc (a : Allocator) (r : Frame.Request) :
    Except Frame.Shortage Frame × Allocator :=
  let asked := { a with requests := a.requests + 1 }
  if a.refuses a.requests then (.error .outOfFrames, asked)
  else
    match a.pool.alloc r with
    | .ok (frame, pool) => (.ok frame, { asked with pool })
    | .error e => (.error e, asked)

end Allocator

end DemandPaging
