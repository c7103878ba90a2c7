import DemandPaging.Machine.Operation
import Mathlib.Tactic.Simps.Basic

/-!
# Running programs

`Ends x m Q E` says what a run of the program `x` from the machine `m` comes to: it returns a value
and a machine that satisfy `Q`, or it stops with a cause and a machine that satisfy `E`. There is one
law for each way a program is built, and with `Ends.imp` what is known of a part is used in the
whole.

The updates of a machine that programs make are named here, so that the machines of a proof stay
readable.
-/

namespace DemandPaging

namespace Machine

variable {φ : Type}

/-- The machine with one more event reported. -/
@[simps] def report (m : Machine φ) (e : Event) : Machine φ := { m with log := m.log.push e }

/-- The machine with page `i` changed. -/
@[simps] def withPage (m : Machine φ) (i : PageId) (f : Page → Page) : Machine φ :=
  { m with pages := m.pages.modify i f }

/-- The machine with process `p` changed. -/
@[simps] def withProcess (m : Machine φ) (p : ProcId) (f : Process → Process) : Machine φ :=
  { m with processes := m.processes.modify p f }

/-- The machine with the page table of process `p` changed. -/
def withTable (m : Machine φ) (p : ProcId) (f : PageTable → PageTable) : Machine φ :=
  m.withProcess p fun proc => { proc with table := f proc.table }

/-- The machine with another frame table. -/
@[simps] def withFrames (m : Machine φ) (t : FrameTable) : Machine φ := { m with frames := t }

/-- The machine with another allocator. -/
@[simps] def withAllocator (m : Machine φ) (a : Allocator) : Machine φ := { m with allocator := a }

/-- The machine with another pool behind its allocator. -/
def withPool (m : Machine φ) (pool : Pool) : Machine φ :=
  m.withAllocator { m.allocator with pool }

/-- The machine with other swap space. -/
@[simps] def withSwap (m : Machine φ) (s : Swap) : Machine φ := { m with swap := s }

/-- The machine with other devices. -/
@[simps] def withDevices (m : Machine φ) (r : Registry) : Machine φ := { m with devices := r }

/-- The machine with other files. -/
@[simps] def withFiles (m : Machine φ) (files : φ) : Machine φ := { m with files }

end Machine

namespace Kernel

variable {φ α β : Type}

/-- From `m`, the program `x` returns with `Q` or stops with `E`. -/
def Ends (x : Kernel φ α) (m : Machine φ) (Q : α → Machine φ → Prop)
    (E : Stop → Machine φ → Prop) : Prop :=
  match x m with
  | .ok a m' => Q a m'
  | .error e m' => E e m'

variable {m m' : Machine φ} {Q Q' : α → Machine φ → Prop} {E E' : Stop → Machine φ → Prop}

theorem Ends.of_ok {x : Kernel φ α} {a : α} (h : Ends x m Q E) (hx : x m = .ok a m') : Q a m' := by
  rw [Ends, hx] at h
  exact h

theorem Ends.of_error {x : Kernel φ α} {e : Stop} (h : Ends x m Q E) (hx : x m = .error e m') :
    E e m' := by
  rw [Ends, hx] at h
  exact h

/-- What is known of a run may be weakened. -/
theorem Ends.imp {x : Kernel φ α} (h : Ends x m Q E) (hQ : ∀ a m', Q a m' → Q' a m')
    (hE : ∀ e m', E e m' → E' e m') : Ends x m Q' E' := by
  unfold Ends at h ⊢
  split at h
  · exact hQ _ _ h
  · exact hE _ _ h

/-- What is known of the returns of a run may be weakened. -/
theorem Ends.returns {x : Kernel φ α} (h : Ends x m Q E) (hQ : ∀ a m', Q a m' → Q' a m') :
    Ends x m Q' E :=
  h.imp hQ fun _ _ he => he

/-- What is known of a run that returns, together with the run. -/
theorem Ends.run {x : Kernel φ α} (h : Ends x m Q E) :
    Ends x m (fun a m' => x m = .ok a m' ∧ Q a m') E := by
  unfold Ends at h ⊢
  split
  · rename_i hx
    rw [hx] at h
    exact ⟨hx, h⟩
  · rename_i hx
    rw [hx] at h
    exact h

/-- What is known of a run in two ways is known of it. -/
theorem Ends.and {x : Kernel φ α} (h : Ends x m Q E) (h' : Ends x m Q' E') :
    Ends x m (fun a m' => Q a m' ∧ Q' a m') fun e m' => E e m' ∧ E' e m' := by
  unfold Ends at h h' ⊢
  split
  · rename_i hx
    rw [hx] at h h'
    exact ⟨h, h'⟩
  · rename_i hx
    rw [hx] at h h'
    exact ⟨h, h'⟩

/-- Every run returns or stops. -/
theorem ends_any (x : Kernel φ α) (m : Machine φ) : Ends x m (fun _ _ => True) fun _ _ => True := by
  unfold Ends
  split <;> trivial

/-! ### One law for each way a program is built -/

theorem ends_pure (a : α) : Ends (pure a) m Q E ↔ Q a m := Iff.rfl

theorem ends_bind (x : Kernel φ β) (f : β → Kernel φ α) :
    Ends (x >>= f) m Q E ↔ Ends x m (fun b m' => Ends (f b) m' Q E) E := by
  simp only [Ends, bind, EStateM.bind]
  cases x m <;> rfl

theorem ends_halt (cause : Halt) : Ends (halt cause) m Q E ↔ E (.halt cause) m := Iff.rfl

theorem ends_ite {c : Prop} [Decidable c] (x y : Kernel φ α) :
    Ends (if c then x else y) m Q E ↔ if c then Ends x m Q E else Ends y m Q E := by
  split <;> rfl

theorem ends_get {Q : Machine φ → Machine φ → Prop} : Ends get m Q E ↔ Q m m := Iff.rfl

theorem ends_modifyGet (f : Machine φ → α × Machine φ) :
    Ends (modifyGet f) m Q E ↔ Q (f m).1 (f m).2 := Iff.rfl

section

variable {Q : Unit → Machine φ → Prop}

theorem ends_modify (f : Machine φ → Machine φ) : Ends (modify f) m Q E ↔ Q () (f m) := Iff.rfl

theorem ends_emit (e : Event) : Ends (emit e) m Q E ↔ Q () (m.report e) := Iff.rfl

theorem ends_modifyPage (i : PageId) (f : Page → Page) :
    Ends (modifyPage i f) m Q E ↔ Q () (m.withPage i f) := Iff.rfl

theorem ends_modifyProcess (p : ProcId) (f : Process → Process) :
    Ends (modifyProcess p f) m Q E ↔ Q () (m.withProcess p f) := Iff.rfl

theorem ends_modifyTable (p : ProcId) (f : PageTable → PageTable) :
    Ends (modifyTable p f) m Q E ↔ Q () (m.withTable p f) := Iff.rfl

end

theorem ends_page (i : PageId) {Q : Page → Machine φ → Prop} :
    Ends (page i) m Q E ↔ Q (m.page i) m := Iff.rfl

theorem ends_process (p : ProcId) {Q : Process → Machine φ → Prop} :
    Ends (process p) m Q E ↔ Q (m.process p) m := Iff.rfl

end Kernel

end DemandPaging
