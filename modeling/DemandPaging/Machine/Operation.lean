import DemandPaging.Machine.Exit
import DemandPaging.Machine.UserMemory

/-!
# Operations

What a process asks of the machine, as data, and what it is answered. An operation runs as a whole;
a run of the machine is a list of operations of any processes in any order. Two kinds of operation
are turned away before they start: those of a process that has exited, and those that may have to
wait for a pin that nobody is there to release.
-/

namespace DemandPaging

/-- An operation of a process. -/
inductive Op where
  /-- Declares a page that is a part of a program's file. -/
  | declareFile (upage : Nat) (r : Region) (writable : Bool)
  /-- Brings in the declared page that holds `addr`. -/
  | resolve (addr : Nat)
  | growStack (addr : Nat)
  | fault (addr esp : Nat) (write : Bool)
  | mmap (file : Handle) (addr : Nat)
  | munmap (id : Nat)
  /-- Reads through the page table, once. -/
  | load (addr len : Nat)
  /-- Writes through the page table, once. -/
  | store (addr : Nat) (data : List UInt8)
  | setAccessed (upage : Nat) (v : Bool)
  /-- Reads as a user program does, faults being handled. -/
  | userLoad (addr len esp limit : Nat)
  /-- Writes as a user program does, faults being handled. -/
  | userStore (addr : Nat) (data : List UInt8) (esp limit : Nat)
  | validate (addr esp : Nat) (write : Bool)
  | validateBuffer (addr len esp : Nat) (write : Bool)
  | validateString (addr esp : Nat)
  | copy (addr len esp : Nat)
  | exit
  deriving DecidableEq, Repr

/-- The answer to an operation. -/
inductive Answer where
  | done
  /-- There is no such page. -/
  | absent
  | page (id : PageId)
  | pageError (e : PageError)
  | mapping (id : Nat)
  | mapError (e : MapError)
  | faultError (e : FaultError)
  /-- The bytes before the first fault, and the fault. -/
  | loaded (bytes : List UInt8) (fault : Option PageTable.Fault)
  | stored (fault : Option PageTable.Fault)
  | retriedLoad (r : Kernel.Retried (List UInt8))
  | retriedStore (r : Kernel.Retried Unit)
  | length (n : Nat)
  | copied (bytes : List UInt8)
  /-- The process has exited. -/
  | exited
  /-- The operation may have to wait for a pin. -/
  | wouldWait

namespace Op

/-- Whether an operation uses nothing but the page table, which is there after the exit too. -/
def onTable : Op → Bool
  | load .. | store .. | setAccessed .. => true
  | _ => false

/-- Whether an operation of process `p` may have to wait for a pin. -/
def mayWait {φ : Type} (m : Machine φ) (p : ProcId) : Op → Bool
  | resolve addr | fault addr .. =>
    match m.lookup p addr with
    | some id => (m.page id).pinned
    | none => false
  | munmap .. | userLoad .. | userStore .. | validate .. | validateBuffer .. | validateString ..
  | copy .. | exit => m.anyPinned p
  | declareFile .. | growStack .. | mmap .. | load .. | store .. | setAccessed .. => false

end Op

namespace Kernel

variable {φ : Type} [FileSystem φ]

/-- Runs an operation of process `p`. -/
def execute (p : ProcId) : Op → Kernel φ Answer
  | .declareFile upage r writable => do
    match ← declareFile p upage r writable with
    | .ok id => return .page id
    | .error e => return .pageError e
  | .resolve addr => do
    match (← get).lookup p addr with
    | none => return .absent
    | some id =>
      match ← resolve p id with
      | .ok () => return .done
      | .error e => return .pageError e
  | .growStack addr => return (← growStack p addr).elim .absent .page
  | .fault addr esp write => do
    match ← handleFault p addr esp write with
    | .ok () => return .done
    | .error e => return .faultError e
  | .mmap file addr => do
    match ← mmap p file addr with
    | .ok id => return .mapping id
    | .error e => return .mapError e
  | .munmap id => do
    munmap p id
    return .done
  | .load addr len => do
    let (bytes, fault) ← load p addr len
    return .loaded bytes fault
  | .store addr data => return .stored (← store p addr data)
  | .setAccessed upage v => do
    modifyTable p (·.setAccessed upage v)
    return .done
  | .userLoad addr len esp limit => return .retriedLoad (← loadRetrying p addr len esp limit)
  | .userStore addr data esp limit => return .retriedStore (← storeRetrying p addr data esp limit)
  | .validate addr esp write => do
    match ← validate p addr esp write with
    | .ok () => return .done
    | .error e => return .faultError e
  | .validateBuffer addr len esp write => do
    match ← validateBuffer p addr len esp write with
    | .ok () => return .done
    | .error e => return .faultError e
  | .validateString addr esp => do
    match ← validateString p addr esp with
    | .ok n => return .length n
    | .error e => return .faultError e
  | .copy addr len esp => do
    match ← copy p addr len esp with
    | .ok bytes => return .copied bytes
    | .error e => return .faultError e
  | .exit => do
    exit p
    return .done

/-- Runs an operation of process `p`, unless it is turned away. -/
def perform (p : ProcId) (op : Op) : Kernel φ Answer := do
  let m ← get
  if (m.process p).exited && !op.onTable then return .exited
  if op.mayWait m p then return .wouldWait
  execute p op

end Kernel

end DemandPaging
