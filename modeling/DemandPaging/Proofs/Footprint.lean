import DemandPaging.Machine.Exit
import DemandPaging.Proofs.Program
import Mathlib.Data.Set.Basic
import Mathlib.Order.Defs.Unbundled

/-!
# What programs leave alone

Some facts about a program need no invariant: they hold from any machine on, however the program ends,
because of the updates that it is made of. `Moves` says that a program leads from each machine to one
that stands in some relation to it, and `Goes` says so of one machine; there is one law for each way a
program is built. A relation that puts up with the updates of pages, memory and swap space, `Bears`,
holds along what happens to a page that is evicted, but for its mapping. One that puts up with what else
the release of pages does, `Recedes`, holds along the whole release.
-/

namespace DemandPaging

/-- A change of a page that leaves its address, its backing and the right to write to it alone. -/
def Page.Mild (f : Page → Page) : Prop := ∀ pg,
  (f pg).upage = pg.upage ∧ (f pg).backing = pg.backing ∧ (f pg).writable = pg.writable

/-- A change of a process that leaves its page table alone and declares no page. -/
def Process.Mild (f : Process → Process) : Prop := ∀ proc, (f proc).table = proc.table ∧
  ∀ (u : Nat) (i : PageId), (f proc).declared[u]? = some i → proc.declared[u]? = some i

namespace Kernel

variable {φ α β : Type}

/-- From `m`, the program leads to a machine that stands in relation `R` to `m`, however it ends. -/
def Goes (R : Machine φ → Machine φ → Prop) (x : Kernel φ α) (m : Machine φ) : Prop :=
  Ends x m (fun _ m' => R m m') fun _ m' => R m m'

/-- Every run of the program, however it ends, leads to a machine that stands in relation `R` to the
first one. -/
def Moves (R : Machine φ → Machine φ → Prop) (x : Kernel φ α) : Prop := ∀ m, Goes R x m

/-! ### One law for each way a program is built -/

section

variable {R : Machine φ → Machine φ → Prop} [Std.Refl R] [IsTrans (Machine φ) R]

omit [Std.Refl R] in
theorem goes_bind {m : Machine φ} {x : Kernel φ α} {f : α → Kernel φ β} (hx : Goes R x m)
    (hf : ∀ a m₁, x m = .ok a m₁ → Goes R (f a) m₁) : Goes R (x >>= f) m := by
  rw [Goes, ends_bind]
  unfold Goes Ends at hx
  unfold Ends
  cases hrun : x m with
  | ok a m₁ =>
    rw [hrun] at hx
    exact (hf a m₁ hrun).imp (fun _ _ h₂ => trans_of R hx h₂) fun _ _ h₂ => trans_of R hx h₂
  | error e m₁ =>
    rw [hrun] at hx
    exact hx

omit [IsTrans (Machine φ) R] in
theorem moves_pure (a : α) : Moves R (pure a : Kernel φ α) := fun m => refl_of R m

omit [Std.Refl R] in
theorem moves_bind {x : Kernel φ α} {f : α → Kernel φ β} (hx : Moves R x) (hf : ∀ a, Moves R (f a)) :
    Moves R (x >>= f) := fun m => goes_bind (hx m) fun a m₁ _ => hf a m₁

omit [IsTrans (Machine φ) R] in
theorem moves_throw (e : Stop) : Moves R (throw e : Kernel φ α) := fun m => refl_of R m

omit [IsTrans (Machine φ) R] in
theorem moves_halt (cause : Halt) : Moves R (halt cause : Kernel φ α) := fun m => refl_of R m

omit [IsTrans (Machine φ) R] in
theorem moves_get : Moves R (get : Kernel φ (Machine φ)) := fun m => refl_of R m

omit [IsTrans (Machine φ) R] in
theorem moves_page (i : PageId) : Moves R (page i : Kernel φ Page) := fun m => refl_of R m

omit [IsTrans (Machine φ) R] in
theorem moves_process (p : ProcId) : Moves R (process p : Kernel φ Process) := fun m => refl_of R m

omit [Std.Refl R] [IsTrans (Machine φ) R] in
theorem moves_modify {f : Machine φ → Machine φ} (hf : ∀ m, R m (f m)) :
    Moves R (modify f : Kernel φ Unit) := hf

omit [Std.Refl R] [IsTrans (Machine φ) R] in
theorem moves_modifyGet {f : Machine φ → α × Machine φ} (hf : ∀ m, R m (f m).2) :
    Moves R (modifyGet f : Kernel φ α) := hf

omit [Std.Refl R] [IsTrans (Machine φ) R] in
theorem moves_ite {c : Prop} [Decidable c] {x y : Kernel φ α} (hx : Moves R x) (hy : Moves R y) :
    Moves R (if c then x else y) := by
  split
  · exact hx
  · exact hy

theorem moves_forM {γ : Type} {f : γ → Kernel φ Unit} :
    ∀ l : List γ, (∀ c ∈ l, Moves R (f c)) → Moves R (l.forM f)
  | [], _ => moves_pure ()
  | c :: l, hf => by
    rw [List.forM_eq_forM, List.forM_cons]
    exact moves_bind (hf c List.mem_cons_self) fun _ =>
      moves_forM l fun c hc => hf c (List.mem_cons_of_mem _ hc)

end

/-! ### Relations that changes of pages, memory and swap space keep -/

/-- The relation puts up with changes of pages, of memory and of swap space, and with reports. -/
class Bears (R : Machine φ → Machine φ → Prop) : Prop extends Std.Refl R, IsTrans (Machine φ) R where
  report : ∀ m e, R m (m.report e)
  page : ∀ m i {f}, Page.Mild f → R m (m.withPage i f)
  memory : ∀ m a, R m (m.withAllocator a)
  slots : ∀ m s, R m (m.withSwap s)
  devices : ∀ m r, R m (m.withDevices r)

section

variable {R : Machine φ → Machine φ → Prop} [hR : Bears R]

include hR

theorem moves_emit (e : Event) : Moves R (emit e) := fun m => hR.report m e

theorem moves_modifyPage (i : PageId) {f : Page → Page} (hf : Page.Mild f) : Moves R (modifyPage i f) :=
  fun m => hR.page m i hf

theorem moves_tryPin (i : PageId) : Moves R (tryPin i) :=
  moves_bind (moves_page i) fun _ => moves_ite (moves_pure _) <|
    moves_bind (moves_modifyPage i fun _ => ⟨rfl, rfl, rfl⟩) fun _ => moves_pure _

theorem moves_pin (i : PageId) : Moves R (pin i) :=
  moves_bind (moves_tryPin i) fun _ =>
    moves_ite (moves_bind (moves_page i) fun _ => moves_throw _) (moves_pure ())

theorem moves_unpin (i : PageId) : Moves R (unpin i) :=
  moves_bind (moves_page i) fun _ => moves_bind (moves_modifyPage i fun _ => ⟨rfl, rfl, rfl⟩) fun _ =>
    moves_ite (moves_halt _) (moves_pure ())

theorem moves_takeFrame (r : Frame.Request) : Moves R (takeFrame r) := by
  refine moves_bind (moves_modifyGet fun m => hR.memory m _) fun result => ?_
  cases result with
  | error e => exact moves_pure _
  | ok f => exact moves_bind moves_get fun _ => moves_bind (moves_emit _) fun _ => moves_pure _

theorem moves_returnFrame (f : Frame) : Moves R (returnFrame f) := by
  refine moves_bind moves_get fun m => ?_
  split
  · exact moves_halt _
  · exact moves_bind (moves_modify fun m => hR.memory m _) fun _ => moves_emit _

theorem moves_readFrame (f : Frame) : Moves R (readFrame f) := moves_bind moves_get fun _ => moves_pure _

theorem moves_writeFrame (f : Frame) (b : PageBytes) : Moves R (writeFrame f b) :=
  moves_modify fun m => hR.memory m _

theorem moves_allocateSlot : Moves R (allocateSlot : Kernel φ Nat) := by
  refine moves_bind moves_get fun m => ?_
  split
  · exact moves_halt _
  · exact moves_bind (moves_modify fun m => hR.slots m _) fun _ => moves_pure _

theorem moves_releaseSlot (s : Nat) : Moves R (releaseSlot s) := by
  refine moves_bind moves_get fun m => ?_
  split
  · exact moves_halt _
  · exact moves_modify fun m => hR.slots m _

theorem moves_transfer (f : Swap → Registry → Registry × Except Swap.Misuse α) :
    Moves R (transfer f : Kernel φ α) := by
  refine moves_bind (moves_modifyGet fun m => hR.devices m _) fun result => ?_
  cases result with
  | error e => exact moves_halt _
  | ok a => exact moves_pure _

theorem moves_swapOut (f : Frame) : Moves R (swapOut f) :=
  moves_bind moves_allocateSlot fun _ => moves_bind (moves_readFrame f) fun _ =>
    moves_bind (moves_transfer _) fun _ => moves_bind (moves_emit _) fun _ => moves_pure _

theorem moves_loadSlot (s : Nat) (f : Frame) : Moves R (loadSlot s f) :=
  moves_bind (moves_transfer _) fun _ => moves_bind (moves_writeFrame f _) fun _ =>
    moves_bind (moves_releaseSlot s) fun _ => moves_emit _

theorem moves_settle (i : PageId) (f : Frame) : Moves R (settle i f) :=
  moves_modifyPage i fun _ => ⟨rfl, rfl, rfl⟩

/-! ### The way out of memory -/

variable [FileSystem φ] {r : Region} {m : Machine φ} {e : Tenancy}

theorem moves_writeRegion
    (hwrite : ∀ m o d, R m (m.withFiles (FileSystem.writeAt m.files r.file o d).2)) (f : Frame) :
    Moves R (writeRegion r f) :=
  moves_bind (moves_ite (moves_halt _) (moves_pure ())) fun _ => moves_modifyGet fun m => hwrite m _ _

/-- What happens to a page that is evicted, once it is no longer mapped. -/
theorem ends_pageOut_unmapped (hwrite : ∀ r, (m.page e.page).backing.region? = some r →
      ∀ m' o d, R m' (m'.withFiles (FileSystem.writeAt m'.files r.file o d).2))
    {m₁ : Machine φ} (hm₁ : m₁ = m.withTable e.owner (·.unmap (m.page e.page).upage)) :
    Ends (pageOut e) m (fun _ m' => R m₁ m') fun _ m' => R m₁ m' := by
  simp only [pageOut, ends_bind, ends_page, unmapPage, ends_process, ends_modifyTable, ends_pure]
  rw [← hm₁]
  have hpage : m₁.page e.page = m.page e.page := by rw [hm₁]; rfl
  rw [hpage]
  have hlast : ∀ ev, Moves R (do
      modifyPage e.page fun pg => { pg with frame := none }
      emit ev : Kernel φ Unit) := fun ev =>
    moves_bind (moves_modifyPage e.page fun _ => ⟨rfl, rfl, rfl⟩) fun _ => moves_emit ev
  split
  · refine (moves_bind (moves_swapOut _) fun _ => moves_bind (moves_modifyPage _ fun _ => ?_) fun _ =>
      hlast _) m₁
    exact ⟨rfl, rfl, rfl⟩
  · rename_i r _ hr
    exact (moves_bind (moves_writeRegion (hwrite r hr) _) fun _ =>
      moves_ite (moves_bind (moves_emit _) fun _ => hlast _) (hlast _)) m₁
  · exact hlast _ m₁

end

/-! ### Relations that the release of pages keeps -/

/-- The relation puts up with entries that go from the frame table. -/
class Frees (R : Machine φ → Machine φ → Prop) : Prop extends Bears R where
  entries : ∀ m i, R m (m.withFrames (m.frames.remove i))

theorem moves_freeFrame {R : Machine φ → Machine φ → Prop} [hR : Frees R] (f : Frame) :
    Moves R (freeFrame f) := by
  refine moves_bind moves_get fun m => ?_
  split
  · exact moves_halt _
  · exact moves_bind (moves_modify fun m => hR.entries m _) fun _ => moves_returnFrame f

/-- The relation puts up with pages of process `p` at addresses in `us` that are unmapped. -/
class Unmaps (p : ProcId) (us : Set Nat) (R : Machine φ → Machine φ → Prop) : Prop extends Frees R where
  unmap : ∀ m, ∀ u ∈ us, R m (m.withTable p (·.unmap u))

/-- The relation puts up with what else the release of pages of process `p` does to a machine: declarations
and mappings of the process may be dropped. -/
class Recedes (p : ProcId) (us : Set Nat) (R : Machine φ → Machine φ → Prop) : Prop extends Unmaps p us R where
  process : ∀ m {f}, Process.Mild f → R m (m.withProcess p f)

theorem moves_unmapPage (p : ProcId) (us : Set Nat) {R : Machine φ → Machine φ → Prop} [hR : Unmaps p us R]
    {u : Nat} (hu : u ∈ us) : Moves R (unmapPage p u) :=
  moves_bind (moves_process p) fun _ => moves_bind (moves_modify fun m => hR.unmap m u hu) fun _ => moves_pure _

section

variable (p : ProcId) (us : Set Nat) {R : Machine φ → Machine φ → Prop} [hR : Recedes p us R]

include hR

theorem moves_modifyProcess {f : Process → Process} (hf : Process.Mild f) : Moves R (modifyProcess p f) :=
  fun m => hR.process m hf

theorem moves_forget (u : Nat) : Moves R (forget p u) :=
  moves_bind (moves_process p) fun _ =>
    moves_bind (moves_modifyProcess p us fun proc => ⟨rfl, fun w i hi => by
      rw [Std.ExtTreeMap.getElem?_erase] at hi
      split at hi
      · simp at hi
      · exact hi⟩) fun _ => moves_pure _

end

section

variable {p : ProcId} {R : Machine φ → Machine φ → Prop}

theorem moves_discard [Unmaps p Set.univ R] (i : PageId) : Moves R (discard p i) := by
  refine moves_bind (moves_pin i) fun _ => moves_bind (moves_page i) fun before =>
    moves_bind (moves_modifyPage i fun _ => ⟨rfl, rfl, rfl⟩) fun _ => ?_
  have hunmap := moves_unmapPage p Set.univ (R := R) (Set.mem_univ before.upage)
  cases before.slot with
  | none =>
    cases before.frame with
    | none => exact moves_unpin i
    | some f => exact moves_bind hunmap fun _ => moves_bind (moves_freeFrame f) fun _ => moves_unpin i
  | some s =>
    have hrest : ∀ _ : Unit, Moves R (do releaseSlot s; unpin i : Kernel φ Unit) := fun _ =>
      moves_bind (moves_releaseSlot s) fun _ => moves_unpin i
    cases before.frame with
    | none => exact hrest ()
    | some f => exact moves_bind hunmap fun _ => moves_bind (moves_freeFrame f) hrest

theorem moves_destroy [Recedes p Set.univ R] : Moves R (destroy p) :=
  moves_bind (moves_process p) fun _ => moves_bind (moves_modifyProcess p Set.univ fun proc => ⟨rfl, by simp⟩) fun _ =>
    moves_bind (moves_forM _ fun i _ => moves_discard i) fun _ => moves_bind (moves_process p) fun _ =>
      moves_emit _

end

section

variable {p : ProcId} {us : Set Nat} {R : Machine φ → Machine φ → Prop} [FileSystem φ]
  (hwrite : ∀ m h o d, R m (m.withFiles (FileSystem.writeAt m.files h o d).2))

include hwrite

theorem moves_dismiss [Unmaps p us R] {u : Nat} (hu : u ∈ us) (i : PageId) : Moves R (dismiss p u i) := by
  refine moves_bind (moves_pin i) fun _ => moves_bind (moves_page i) fun before =>
    moves_bind (moves_modifyPage i fun _ => ⟨rfl, rfl, rfl⟩) fun _ => ?_
  dsimp only
  split
  · refine moves_bind (moves_unmapPage p us hu) fun dirty => ?_
    have hfree : ∀ f, Moves R (do freeFrame f; unpin i : Kernel φ Unit) := fun f =>
      moves_bind (moves_freeFrame f) fun _ => moves_unpin i
    split
    · exact moves_bind (moves_writeRegion (fun m => hwrite m _) _) fun _ =>
        moves_ite (moves_bind (moves_emit _) fun _ => hfree _) (hfree _)
    · exact hfree _
  · exact moves_unpin i

variable [hR : Recedes p us R]

include hR

theorem moves_releasePage {u : Nat} (hu : u ∈ us) : Moves R (releasePage p u) := by
  refine moves_bind (moves_forget p us u) fun id => ?_
  cases id with
  | none => exact moves_pure ()
  | some i => exact moves_dismiss hwrite hu i

variable (hclose : ∀ m h, R m (m.withFiles (FileSystem.close m.files h)))

include hclose

theorem moves_releaseMapping {mp : Mapping} (hmp : ∀ u ∈ mp.pages.toList, u ∈ us) :
    Moves R (releaseMapping p mp) :=
  moves_bind (moves_forM _ fun u hu => moves_releasePage hwrite (hmp u hu)) fun _ =>
    moves_modify fun m => hclose m mp.file

end

section

variable {p : ProcId} {R : Machine φ → Machine φ → Prop} [hR : Recedes p Set.univ R] [FileSystem φ]
  (hwrite : ∀ m h o d, R m (m.withFiles (FileSystem.writeAt m.files h o d).2))
  (hclose : ∀ m h, R m (m.withFiles (FileSystem.close m.files h)))

include hR hwrite hclose

theorem moves_unmapAll (t : MapTable) : Moves R (unmapAll t p) :=
  moves_bind (moves_forM _ fun _ _ => moves_releaseMapping hwrite hclose fun _ _ => Set.mem_univ _) fun _ =>
    moves_pure _

theorem moves_exit : Moves R (exit p) :=
  moves_bind (moves_process p) fun _ => moves_bind (moves_emit _) fun _ =>
    moves_bind (moves_process p) fun _ => moves_bind (moves_unmapAll hwrite hclose _) fun _ =>
      moves_bind (moves_modifyProcess p Set.univ fun _ => ⟨rfl, fun _ _ => id⟩) fun _ => moves_bind moves_destroy fun _ =>
        moves_modifyProcess p Set.univ fun _ => ⟨rfl, fun _ _ => id⟩

end

end Kernel

end DemandPaging
