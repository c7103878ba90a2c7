import DemandPaging.Device.Basic
import DemandPaging.Error
import DemandPaging.Frame
import DemandPaging.Swap

/-!
# The event log

What the machine reports while it works. Every event has a level, from warnings down to traces, and
a line of text.
-/

namespace DemandPaging

/-- How important an event is. -/
inductive Level where
  | warn | info | debug | trace
  deriving DecidableEq, Repr

/-- Levels by falling importance. -/
def Level.rank : Level → Nat
  | .warn => 0
  | .info => 1
  | .debug => 2
  | .trace => 3

def Level.text : Level → String
  | .warn => "WARN"
  | .info => "INFO"
  | .debug => "DEBUG"
  | .trace => "TRACE"

/-- What became of the contents of an evicted page. -/
inductive Disposal where
  | swappedOut | writtenBack | dropped
  deriving DecidableEq, Repr

def Disposal.text : Disposal → String
  | .swappedOut => "swapped out"
  | .writtenBack => "written back"
  | .dropped => "dropped"

/-- Something that the machine reports. -/
inductive Event where
  | registered (name : String) (role : Role) (sectors : Nat)
  | swapAttached (name : String) (slots : Nat)
  | started (frames slots : Nat)
  | frameAllocated (frame : Frame) (inUse : Nat)
  | frameFreed (frame : Frame) (inUse : Nat)
  | frameLent (frame : Frame) (pid : UInt16) (upage : Nat)
  | swappedIn (slot : Nat) (frame : Frame)
  | swappedOut (frame : Frame) (slot : Nat)
  | evicted (pid : UInt16) (upage : Nat) (frame : Frame) (disposal : Disposal)
  | shortWriteBack (pid : UInt16) (upage written size : Nat)
  | shortRead (pid : UInt16) (upage got size : Nat)
  | stackRefused (pid : UInt16) (addr : Nat)
  | stackGrown (pid : UInt16) (upage : Nat)
  | fileMapped (pid : UInt16) (id addr pages : Nat)
  | fileUnmapped (pid : UInt16) (id : Nat)
  | shortRelease (upage written size : Nat)
  | destroyed (pid : UInt16)
  | exiting (pid : UInt16)
  | faultRefused (pid : UInt16) (e : FaultError)
  deriving DecidableEq, Repr

namespace Event

def level : Event → Level
  | shortWriteBack .. | shortRead .. | stackRefused .. | shortRelease .. | faultRefused .. => .warn
  | registered .. | swapAttached .. | started .. => .info
  | swappedIn .. | swappedOut .. | evicted .. | stackGrown .. | fileMapped .. | fileUnmapped ..
  | destroyed .. | exiting .. => .debug
  | frameAllocated .. | frameFreed .. | frameLent .. => .trace

def message : Event → String
  | registered name role sectors =>
    "Registered block device \"" ++ name ++ "\" (" ++ role.text ++
      s!" type) with {sectors} sectors"
  | swapAttached name slots => "swap: using \"" ++ name ++ s!"\" with {slots} slots"
  | started frames slots => s!"vm: {frames} user frames, {slots} swap slots"
  | frameAllocated frame inUse => s!"user pool: allocated {frame.text} ({inUse} in use)"
  | frameFreed frame inUse => s!"user pool: freed {frame.text} ({inUse} in use)"
  | frameLent frame pid upage => s!"frame: {frame.text} -> pid {pid} page {hex upage}"
  | swappedIn slot frame => s!"swap: {Swap.slotText slot} -> {frame.text}"
  | swappedOut frame slot => s!"swap: {frame.text} -> {Swap.slotText slot}"
  | evicted pid upage frame disposal =>
    s!"evicted pid {pid} page {hex upage} from {frame.text}: {disposal.text}"
  | shortWriteBack pid upage written size =>
    s!"pid {pid}: short write-back of {hex upage}: {written} of {size} bytes"
  | shortRead pid upage got size =>
    s!"pid {pid}: short read paging in {hex upage}: {got} of {size} bytes"
  | stackRefused pid addr => s!"pid {pid}: stack growth to {hex addr} refused"
  | stackGrown pid upage => s!"pid {pid}: stack grown to {hex upage}"
  | fileMapped pid id addr pages => s!"pid {pid}: mmap {id} at {hex addr}, {pages} pages"
  | fileUnmapped pid id => s!"pid {pid}: munmap {id}"
  | shortRelease upage written size =>
    s!"munmap {hex upage}: short write-back: {written} of {size} bytes"
  | destroyed pid => s!"pid {pid}: supplemental page table destroyed"
  | exiting pid => s!"pid {pid}: releasing memory"
  | faultRefused pid e => s!"pid {pid}: page fault: {e.message}"

/-- The line of an event: its level and its text. -/
def line (e : Event) : String := e.level.text ++ " " ++ e.message

end Event

end DemandPaging
