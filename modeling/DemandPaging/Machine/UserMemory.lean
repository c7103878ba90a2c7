import DemandPaging.Machine.Fault

/-!
# Memory handed over by user programs

A system call gets addresses from a user program and looks at the memory behind them. Every page of
it is brought in as a page fault would bring it in, and is looked at while it is pinned.
-/

namespace DemandPaging

namespace Kernel

variable {φ : Type}

/-- The contents of the page of process `p` that holds `addr`, if it is declared and in memory. A
page that may only be read is refused for writing. -/
def peek (p : ProcId) (addr : Nat) (write : Bool) :
    Kernel φ (Except FaultError (Option PageBytes)) := do
  match (← get).lookup p addr with
  | none => return .ok none
  | some id =>
    if write && !(← page id).writable then return .error (.readOnly addr)
    pin id
    let frame := (← page id).frame
    let pool := (← get).pool
    unpin id
    return .ok (frame.map pool.read)

variable [FileSystem φ]

/-- The contents of the page of process `p` that holds `addr`, brought in if need be. -/
def visit (p : ProcId) (addr esp : Nat) (write : Bool) :
    Kernel φ (Except FaultError PageBytes) := do
  if !isUser addr then return .error (.notUser addr)
  match ← peek p addr write with
  | .error e => return .error e
  | .ok (some bytes) => return .ok bytes
  | .ok none =>
    match ← handleFault p addr esp write with
    | .error e => return .error e
    | .ok () =>
      match ← peek p addr write with
      | .error e => return .error e
      | .ok (some bytes) => return .ok bytes
      -- a resolved fault leaves the page in memory; else it would be faulted in over and over
      | .ok none => throw (.wait (pageBase addr))

/-- Checks that process `p` may use `addr`. -/
def validate (p : ProcId) (addr esp : Nat) (write : Bool) : Kernel φ (Except FaultError Unit) :=
  return (← visit p addr esp write).map fun _ => ()

/-- Checks the pieces of a range one after the other. -/
def validateSpans (p : ProcId) (esp : Nat) (write : Bool) :
    List Span → Kernel φ (Except FaultError Unit)
  | [] => return .ok ()
  | s :: rest => do
    match ← validate p s.addr esp write with
    | .error e => return .error e
    | .ok () => validateSpans p esp write rest

/-- Checks that process `p` may use the `len` bytes from `addr` on. -/
def validateBuffer (p : ProcId) (addr len esp : Nat) (write : Bool) :
    Kernel φ (Except FaultError Unit) := do
  if userTop < addr + len then return .error (.notUser addr)
  validateSpans p esp write (spans addr len)

/-- Copies the pieces of a range one after the other. -/
def copySpans (p : ProcId) (esp : Nat) : List Span → Kernel φ (Except FaultError (List UInt8))
  | [] => return .ok []
  | s :: rest => do
    match ← visit p s.addr esp false with
    | .error e => return .error e
    | .ok contents =>
      let here := contents.slice (pageOffset s.addr) s.len
      return (← copySpans p esp rest).map (here ++ ·)

/-- Copies `len` bytes of process `p` from `addr` on. -/
def copy (p : ProcId) (addr len esp : Nat) : Kernel φ (Except FaultError (List UInt8)) := do
  if userTop < addr + len then return .error (.notUser addr)
  copySpans p esp (spans addr len)

/-- Looks for the end of the string at `addr` in at most `n` pages, `len` bytes of it being behind
already. -/
def scanString (p : ProcId) (addr esp : Nat) : (n len : Nat) → Kernel φ (Except FaultError Nat)
  | 0, len => return .error (.notUser (addr + len))
  | n + 1, len => do
    match ← visit p (addr + len) esp false with
    | .error e => return .error e
    | .ok contents =>
      match contents.zeroAfter (pageOffset (addr + len)) with
      | some k => return .ok (len + k)
      | none => scanString p addr esp n (len + (pageSize - pageOffset (addr + len)))

/-- Checks the string at `addr`, which a zero byte ends, and returns its length. Past the top of user
space every page is refused, so that no more pages than there are up to it need to be looked at. -/
def validateString (p : ProcId) (addr esp : Nat) : Kernel φ (Except FaultError Nat) :=
  scanString p addr esp (spanCount addr (userTop - addr) + 1) 0

end Kernel

end DemandPaging
