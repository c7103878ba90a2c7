import DemandPaging.Machine.PageIn

/-!
# Page faults

A fault at a declared page brings the page in, unless it is a write to a page that may only be read.
A fault elsewhere grows the stack if it lies no further below the stack pointer than `stackSlack`.
A fault that cannot be resolved is reported, and ends the process.

A user program repeats an access until it goes through; `storeRetrying` and `loadRetrying` give up
after a number of faults.
-/

namespace DemandPaging

namespace Kernel

variable {φ : Type} [FileSystem φ]

/-- Decides a fault of process `p` at `addr` with the stack pointer at `esp`. -/
def decideFault (p : ProcId) (addr esp : Nat) (write : Bool) :
    Kernel φ (Except FaultError Unit) := do
  if !isUser addr then return .error (.notUser addr)
  match (← get).lookup p addr with
  | some id =>
    if write && !(← page id).writable then return .error (.readOnly addr)
    return (← resolve p id).mapError (.pageIn addr)
  | none =>
    if esp ≤ min (addr + stackSlack) (wordLimit - 1) then
      if (← growStack p addr).isSome then return .ok ()
    return .error (.unmapped addr)

/-- Handles a fault of process `p`, and reports it if it cannot be resolved. -/
def handleFault (p : ProcId) (addr esp : Nat) (write : Bool) :
    Kernel φ (Except FaultError Unit) := do
  let result ← decideFault p addr esp write
  if let .error e := result then emit (.faultRefused (← process p).pid e)
  return result

/-! ### Repeated accesses -/

/-- What a repeated access came to. -/
inductive Retried (α : Type) where
  /-- It went through after `faults` faults. -/
  | done (a : α) (faults : Nat)
  /-- After `faults` faults, a further one could not be resolved. -/
  | refused (e : FaultError) (fault : PageTable.Fault) (faults : Nat)
  /-- It met more faults than it may. -/
  | gaveUp
  deriving Repr

/-- Repeats `access` after every fault that is resolved, for at most `limit` faults. -/
def retrying {α : Type} (p : ProcId) (esp : Nat)
    (access : Kernel φ (Except PageTable.Fault α)) : (limit faults : Nat) → Kernel φ (Retried α)
  | limit, faults => do
    match ← access with
    | .ok a => return .done a faults
    | .error fault =>
      match limit with
      | 0 => return .gaveUp
      | limit + 1 =>
        match ← handleFault p fault.addr esp fault.write with
        | .error e => return .refused e fault faults
        | .ok () => retrying p esp access limit (faults + 1)

/-- Repeats a write of `data` at `addr`, all of it, until it goes through. -/
def storeRetrying (p : ProcId) (addr : Nat) (data : List UInt8) (esp limit : Nat) :
    Kernel φ (Retried Unit) :=
  retrying p esp (return (← store p addr data).elim (.ok ()) .error) limit 0

/-- Repeats a read of `len` bytes at `addr`, all of them, until it goes through. -/
def loadRetrying (p : ProcId) (addr len esp limit : Nat) : Kernel φ (Retried (List UInt8)) :=
  retrying p esp (do
    let (bytes, fault) ← load p addr len
    return fault.elim (.ok bytes) .error) limit 0

end Kernel

end DemandPaging
