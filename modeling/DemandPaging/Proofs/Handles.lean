import DemandPaging.Proofs.Asks
import DemandPaging.Proofs.Ledger
import DemandPaging.Proofs.SecondChance

/-!
# Handles in use

Whatever brings a page in or puts one out reads and writes through the handles of pages that belong to
some process, and asks the file system for nothing else.
-/

namespace DemandPaging

variable {φ : Type}

/-- The handles of the pages that files stand behind. -/
def View.sources {φ : Type} (v : View φ) : Set Handle :=
  {h | ∃ q u i r, v.own q u = some i ∧ (v.page i).backing.region? = some r ∧ r.file = h}

theorem View.mem_sources {v : View φ} {q : ProcId} {u : Nat} {i : PageId} {r : Region}
    (hi : v.own q u = some i) (hr : (v.page i).backing.region? = some r) : r.file ∈ v.sources :=
  ⟨q, u, i, r, hi, hr, rfl⟩

namespace Machine

variable {m m' m'' : Machine (Journal φ)} {H : Set Handle} {h : Handle}

/-- No handle has been opened. -/
def SameHandles (m m' : Machine (Journal φ)) : Prop := m'.files.opened = m.files.opened

instance : Kernel.Bears (SameHandles (φ := φ)) where
  refl _ := rfl
  trans _ _ _ h h' := Eq.trans h' h
  report _ _ := rfl
  page _ _ _ _ := rfl
  memory _ _ := rfl
  slots _ _ := rfl
  devices _ _ := rfl

instance : Kernel.Frees (SameHandles (φ := φ)) where
  entries _ _ := rfl

instance (p : ProcId) (us : Set Nat) : Kernel.Recedes p us (SameHandles (φ := φ)) where
  unmap _ _ _ := rfl
  process _ _ _ := rfl

/-- Nothing has been asked for but reads and writes, all of handles in `H`. -/
def Uses (H : Set Handle) (m m' : Machine (Journal φ)) : Prop :=
  m.Asks (fun c => c.Plain ∧ c.handle ∈ H) m' ∧ m.SameHandles m'

theorem uses_of_files (h : m'.files = m.files) : m.Uses H m' :=
  ⟨asks_of_files h, congrArg Journal.opened h⟩

instance : Kernel.Bears (Uses (φ := φ) H) where
  refl _ := uses_of_files rfl
  trans _ _ _ h h' := ⟨trans_of (Asks _) h.1 h'.1, trans_of SameHandles h.2 h'.2⟩
  report _ _ := uses_of_files rfl
  page _ _ _ _ := uses_of_files rfl
  memory _ _ := uses_of_files rfl
  slots _ _ := uses_of_files rfl
  devices _ _ := uses_of_files rfl

instance : Kernel.Frees (Uses (φ := φ) H) where
  entries _ _ := uses_of_files rfl

instance (p : ProcId) : Kernel.Installs p (Uses (φ := φ) H) where
  map _ _ _ _ _ _ := uses_of_files rfl

variable [FileSystem φ]

theorem sameHandles_write (m : Machine (Journal φ)) (h : Handle) (offset : Nat) (data : List UInt8) :
    m.SameHandles (m.withFiles (FileSystem.writeAt m.files h offset data).2) := rfl

theorem sameHandles_close (m : Machine (Journal φ)) (h : Handle) :
    m.SameHandles (m.withFiles (FileSystem.close m.files h)) := rfl

theorem uses_read (hh : h ∈ H) (m : Machine (Journal φ)) (offset want : Nat) :
    m.Uses H (m.withFiles (FileSystem.readAt m.files h offset want).2) :=
  ⟨⟨[.read h offset want], Array.toList_push, by simpa [FileCall.Plain, FileCall.opens?, FileCall.closes?,
    FileCall.handle] using hh⟩, rfl⟩

theorem uses_write (hh : h ∈ H) (m : Machine (Journal φ)) (offset : Nat) (data : List UInt8) :
    m.Uses H (m.withFiles (FileSystem.writeAt m.files h offset data).2) :=
  ⟨⟨[.write h offset data], called_write m h offset data, by simpa [FileCall.Plain, FileCall.opens?,
    FileCall.closes?, FileCall.handle] using hh⟩, rfl⟩

end Machine

namespace Kernel

open Machine View

variable [FileSystem φ] {m : Machine (Journal φ)} {v : View (Journal φ)} {held : Set PageId} {p : ProcId}
  {op : Op}

theorem moves_releaseMapping_of_sameHandles (p : ProcId) (mp : Mapping) :
    Moves SameHandles (releaseMapping p mp : Kernel (Journal φ) Unit) :=
  moves_releaseMapping (p := p) sameHandles_write sameHandles_close fun _ _ => Set.mem_univ _

/-- The page that is evicted belongs to some process. -/
theorem goes_evict_of_sources (h : m.Shows v held) (hv : v.Sound) : Goes (Uses v.sources) evict m := by
  cases hchoice : m.choice with
  | none =>
    rw [Goes, ends_of_eq (evict_of_choice_none h hv hchoice)]
    exact uses_of_files rfl
  | some e =>
    obtain ⟨u, hu, -⟩ := (hv.housed.listed e.frame e.owner e.page).1
      (h.tenants ▸ Multiset.mem_coe.2 (mem_of_choice hchoice).1)
    obtain ⟨t, -, -, hevict⟩ := ends_evict_unmapped (R := Uses v.sources) h hv hchoice fun r hr m' =>
      uses_write (mem_sources hu (by rw [h.page]; exact hr)) m'
    have hstart : m.Uses v.sources (m.ousting e t) := uses_of_files (files_ousting m e t)
    exact hevict.imp (fun _ _ h' => trans_of (Uses _) hstart h'.2) fun _ _ h' => trans_of (Uses _) hstart h'

/-- An operation that neither makes nor releases mappings uses the handles of pages. -/
theorem goes_execute_of_sources (h : m.Settled held) (hop : op.basic = true) (hremaps : op.remaps = false) :
    Goes (Uses m.scene.sources) (execute p op) m := by
  cases hfetches : op.fetches with
  | true =>
    exact goes_execute_of_fetches (fun _ h' => goes_evict_of_sources h' h.sound) (fun _ _ => uses_of_files rfl)
      h.shows h.sound hfetches (fun i r ⟨u, hu⟩ hr m' => uses_read (mem_sources (v := m.scene) hu hr) m' _ _)
      (fun _ _ _ => uses_of_files rfl) rfl
  | false =>
    cases op with
    | declareFile u r w =>
      have hdeclare : Goes (Uses m.scene.sources) (declareFile p u r w) m := by
        refine moves_ite (moves_pure _) (moves_ite (moves_pure _) (moves_ite (moves_pure _) ?_)) m
        refine moves_bind (moves_process p) fun _ => moves_ite (moves_pure _) ?_
        refine moves_bind (moves_modifyGet fun m => uses_of_files rfl) fun _ => ?_
        exact moves_bind (moves_modify fun m => uses_of_files rfl) fun _ => moves_pure _
      refine goes_bind hdeclare fun result m₁ _ => ?_
      cases result <;> exact moves_pure _ m₁
    | load a len =>
      simp only [Goes, execute, load, ends_bind, ends_get, ends_modifyTable]
      split <;> exact uses_of_files rfl
    | store a data =>
      simp only [Goes, execute, store, ends_bind, ends_get, ends_modify, ends_modifyTable]
      split <;> exact uses_of_files rfl
    | setAccessed u b =>
      simp only [Goes, execute, ends_bind, ends_modifyTable, ends_pure]
      exact uses_of_files rfl
    | resolve | growStack | fault => simp [Op.fetches] at hfetches
    | mmap | munmap | exit => simp [Op.remaps] at hremaps
    | userLoad | userStore | validate | validateBuffer | validateString | copy => simp [Op.basic] at hop

end Kernel

end DemandPaging
