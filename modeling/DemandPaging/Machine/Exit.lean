import DemandPaging.Machine.Mapping

/-!
# The end of a process

A process that exits gives back all its memory. Its mappings go first, so that they are written back;
then every other page gives back its frame and its slot.
-/

namespace DemandPaging

namespace Kernel

variable {φ : Type}

/-- Takes a page of process `p` out of memory and out of swap space. -/
def discard (p : ProcId) (id : PageId) : Kernel φ Unit := do
  pin id
  let before ← page id
  modifyPage id fun pg => { pg with frame := none, slot := none }
  if let some frame := before.frame then
    let _ ← unmapPage p before.upage
    freeFrame frame
  if let some slot := before.slot then releaseSlot slot
  unpin id

/-- Discards every page of process `p`, in ascending order of address. -/
def destroy (p : ProcId) : Kernel φ Unit := do
  let pages := (← process p).pages
  modifyProcess p fun proc => { proc with declared := ∅ }
  pages.forM (discard p)
  emit (.destroyed (← process p).pid)

/-- Ends process `p` and gives back all its memory. -/
def exit [FileSystem φ] (p : ProcId) : Kernel φ Unit := do
  emit (.exiting (← process p).pid)
  let mappings ← unmapAll (← process p).mappings p
  modifyProcess p fun proc => { proc with mappings }
  destroy p
  modifyProcess p fun proc => { proc with exited := true }

end Kernel

end DemandPaging
