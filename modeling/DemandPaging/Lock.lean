/-!
# Locks

A lock keeps a value that only its holder may use. Taking a lock that is held means waiting until it
is released; with nobody else to release it, that is for ever, so `acquire?` says `none`.
-/

namespace DemandPaging

/-- A value under a lock. -/
structure Lock (α : Type) where
  value : α
  held : Bool
  deriving DecidableEq, Repr

namespace Lock

variable {α : Type}

/-- A lock that nobody holds. -/
def free (value : α) : Lock α := ⟨value, false⟩

/-- The lock, now held, unless it is held already. -/
def acquire? (l : Lock α) : Option (Lock α) := if l.held then none else some { l with held := true }

/-- The lock, no longer held. -/
def release (l : Lock α) : Lock α := { l with held := false }

/-- The value, as its holder sees it. -/
def get? (l : Lock α) : Option α := if l.held then some l.value else none

/-- The lock with a new value, put there by its holder. -/
def set? (l : Lock α) (value : α) : Option (Lock α) :=
  if l.held then some { l with value } else none

/-- The text of a lock, on one line. The value of a held lock is not shown. -/
def text [ToString α] (l : Lock α) : String :=
  if l.held then "Mutex \x7b <locked> \x7d" else s!"Mutex \x7b data: {l.value} \x7d"

/-- The text of a lock, its value on a line of its own. -/
def textLines [ToString α] (l : Lock α) : String :=
  if l.held then l.text else s!"Mutex \x7b\n    data: {l.value},\n\x7d"

@[simp] theorem acquire?_free (value : α) : (free value).acquire? = some ⟨value, true⟩ := rfl

theorem acquire?_eq_none (l : Lock α) : l.acquire? = none ↔ l.held = true := by
  unfold acquire?; split <;> simp_all

end Lock

end DemandPaging
