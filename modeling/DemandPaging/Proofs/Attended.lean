import DemandPaging.Proofs.Reachable

/-!
# Runs in which callers hold pages

A caller may pin a page, let processes go on meanwhile, and release the pin later. An operation that
comes to a page that is held waits, so that it is not answered; what is answered finds the machine
settled, with the same pins as before.
-/

namespace DemandPaging

variable {φ : Type} [FileSystem φ]

namespace Machine

variable {m m' : Machine φ} {held : Set PageId} {p : ProcId} {op : Op} {answer : Answer} {i : PageId}

/-- The pages that are pinned. -/
def pins (m : Machine φ) : Set PageId := {i | (m.page i).pinned = true}

omit [FileSystem φ] in
theorem Settled.pins_eq (h : m.Settled held) : m.pins = held := Set.ext h.shows.fit.pinned

omit [FileSystem φ] in
theorem Settled.pin (h : m.Settled held) (hi : i < m.pages.next) (hrun : Kernel.pin i m = .ok () m') :
    m'.Settled (insert i held) := by
  by_cases hmem : i ∈ held
  · have hwait := Kernel.ends_pin_of_mem (Q := fun _ _ => False) (E := fun _ _ => True) h.shows hmem trivial
    exact (hwait.of_ok hrun).elim
  · exact ((Kernel.ends_pin (E := fun _ _ => True) h.shows hi hmem).of_ok hrun).settled h.sound rfl h.charted
      h.listed

omit [FileSystem φ] in
/-- Only a pin that is held can be released. -/
theorem mem_pins_of_unpin (hrun : Kernel.unpin i m = .ok () m') : i ∈ m.pins := by
  have hends : Kernel.Ends (Kernel.unpin i) m (fun _ _ => i ∈ m.pins) fun _ _ => True := by
    simp only [Kernel.unpin, Kernel.ends_bind, Kernel.ends_page, Kernel.ends_modifyPage, Kernel.ends_ite]
    split
    · trivial
    · rename_i hpinned
      exact show (m.page i).pinned = true by simpa using hpinned
  exact hends.of_ok hrun

omit [FileSystem φ] in
theorem Settled.unpin (h : m.Settled held) (hrun : Kernel.unpin i m = .ok () m') :
    m'.Settled (held \ {i}) := by
  have hmem : i ∈ held := h.pins_eq ▸ mem_pins_of_unpin hrun
  have hrest : insert i (held \ {i}) = held := by
    rw [Set.insert_sdiff_singleton, Set.insert_eq_of_mem hmem]
  have hshows : m.Shows m.scene (insert i (held \ {i})) := hrest.symm ▸ h.shows
  exact ((Kernel.ends_unpin (E := fun _ _ => True) hshows fun hi => hi.2 rfl).of_ok hrun).settled h.sound rfl
    h.charted h.listed

/-- What is answered finds the machine settled, and does what it is said to do. -/
theorem Settled.execute (h : m.Settled held) (hlive : op.onTable = false → (m.process p).exited = false)
    (hrun : Kernel.execute p op m = .ok answer m') :
    m'.Settled held ∧ op.Does p m.scene answer m'.scene := by
  cases hop : op.basic with
  | true =>
    have hdone := (Kernel.ends_execute h hlive hop).of_ok hrun
    exact ⟨hdone.settled, hdone.does⟩
  | false =>
    have hlive' : m.scene.exited p = false := hlive (by cases op <;> first | rfl | simp [Op.basic] at hop)
    obtain ⟨hstages, -⟩ := (Kernel.staged_execute h hlive' hop).of_ok hrun
    obtain ⟨hsettled, hpath, -⟩ := hstages.settled h hlive'
    exact ⟨hsettled, Kernel.does_of_path hop hpath answer⟩

end Machine

/-- The machines that a run can come to, between operations, when callers may hold pages. -/
inductive Attended : Machine φ → Prop
  /-- So far, nobody has held a page. -/
  | run {m : Machine φ} (reach : Reachable m) : Attended m
  | spawn {m m' : Machine φ} {pid : UInt16} {limit : Option Nat} {p : ProcId} (reach : Attended m)
      (run : Kernel.spawn pid limit m = .ok p m') : Attended m'
  /-- An operation of a process that has not exited is answered. -/
  | execute {m m' : Machine φ} {p : ProcId} {op : Op} {answer : Answer} (reach : Attended m)
      (live : op.onTable = false → (m.process p).exited = false)
      (run : Kernel.execute p op m = .ok answer m') : Attended m'
  /-- A caller pins a page. -/
  | pin {m m' : Machine φ} {i : PageId} (reach : Attended m) (known : i < m.pages.next)
      (run : Kernel.pin i m = .ok () m') : Attended m'
  /-- A caller releases a pin. -/
  | unpin {m m' : Machine φ} {i : PageId} (reach : Attended m) (run : Kernel.unpin i m = .ok () m') :
      Attended m'

/-- Between operations, the machine is settled. -/
theorem Attended.settled {m : Machine φ} (h : Attended m) : m.Settled m.pins := by
  suffices ∃ held, m.Settled held by
    obtain ⟨held, hsettled⟩ := this
    rwa [hsettled.pins_eq]
  induction h with
  | run reach => exact ⟨∅, Machine.steady_iff.1 reach.steady⟩
  | spawn _ run ih =>
    obtain ⟨held, hsettled⟩ := ih
    obtain ⟨-, rfl⟩ := EStateM.Result.ok.inj run
    exact ⟨held, hsettled.spawn _ _⟩
  | execute _ live run ih =>
    obtain ⟨held, hsettled⟩ := ih
    exact ⟨held, (hsettled.execute live run).1⟩
  | pin _ known run ih =>
    obtain ⟨held, hsettled⟩ := ih
    exact ⟨_, hsettled.pin known run⟩
  | unpin _ run ih =>
    obtain ⟨held, hsettled⟩ := ih
    exact ⟨_, hsettled.unpin run⟩

end DemandPaging
