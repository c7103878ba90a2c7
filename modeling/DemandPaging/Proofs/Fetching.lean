import DemandPaging.Proofs.Footprint
import DemandPaging.Proofs.Operation

/-!
# What the arrival of pages leaves alone

The programs that bring a page in lend a frame, and what they do besides is done to that one page. So
what holds along the loan holds along the rest, for every relation that puts up with a page that is
mapped: `Installs`. The loan itself depends on what is evicted, which is left to a hypothesis about one
machine. A relation that holds along evictions from settled machines holds along whatever brings a page
in: `goes_execute_of_fetches`.
-/

namespace DemandPaging

namespace Kernel

variable {φ : Type} {R : Machine φ → Machine φ → Prop} {p : ProcId} {i : PageId} {u : Nat} {r : Region}
  {m : Machine φ}

/-- The relation puts up with pages of process `p` that are mapped. -/
class Installs (p : ProcId) (R : Machine φ → Machine φ → Prop) : Prop extends Frees R where
  map : ∀ (m : Machine φ) {u f w t}, (m.process p).table.map u f w = .ok (some t) →
    R m (m.withTable p fun _ => t)

/-- All pages have the backing that they had. -/
def SameBackings (m m' : Machine φ) : Prop := ∀ i, (m'.page i).backing = (m.page i).backing

instance : Bears (SameBackings (φ := φ)) where
  refl _ _ := rfl
  trans _ _ _ h h' i := (h' i).trans (h i)
  report _ _ _ := rfl
  page m i f hf j := by
    rw [Machine.page_withPage]
    split
    · exact (hf _).2.1
    · rfl
  memory _ _ _ := rfl
  slots _ _ _ := rfl
  devices _ _ _ := rfl

/-! ### Once a frame has been lent -/

section

variable [hR : Installs p R]

include hR

theorem moves_mapPage (u : Nat) (f : Frame) (w : Bool) : Moves R (mapPage p u f w) := by
  intro m
  simp only [Goes, mapPage, ends_bind, ends_process]
  split
  · exact refl_of R m
  · exact refl_of R m
  · rename_i t ht
    exact hR.map m ht

theorem moves_install (i : PageId) (f : Frame) : Moves R (install p i f) :=
  moves_bind (moves_page i) fun _ => moves_bind (moves_mapPage _ _ _) fun _ =>
    moves_ite (moves_pure _) (moves_bind (moves_freeFrame f) fun _ => moves_pure _)

end

section

variable [Bears R] [FileSystem φ]

theorem moves_readRegion
    (hread : ∀ m, R m (m.withFiles (FileSystem.readAt m.files r.file r.offset r.readLen).2)) :
    Moves R (readRegion r) :=
  moves_bind (moves_ite (moves_halt _) (moves_pure ())) fun _ => moves_modifyGet fun m => hread m

/-! ### The loan -/

theorem goes_obtainFrame {r : Frame.Request}
    (hevict : ∀ x m₁, takeFrame r m = .ok (.error x) m₁ → Goes R evict m₁) : Goes R (obtainFrame r) m := by
  refine goes_bind (moves_takeFrame r m) fun result m₁ hrun => ?_
  cases result with
  | ok f => exact moves_pure f m₁
  | error x =>
    refine goes_bind (hevict x m₁ hrun) fun done m₂ _ => ?_
    refine moves_ite (moves_bind (moves_halt _) fun _ => moves_bind (moves_takeFrame r) fun result => ?_)
      (moves_bind (moves_takeFrame r) fun result => ?_) m₂
    all_goals
      cases result with
      | ok f => exact moves_pure f
      | error e => exact moves_halt _

theorem goes_lendFrame {zeroed : Bool} (hevict : ∀ x m₁,
      takeFrame (.forUser zeroed) m = .ok (.error x) m₁ → Goes R evict m₁)
    (hadd : ∀ (m : Machine φ) f, R m (m.withFrames (m.frames.add ⟨f, p, i⟩))) :
    Goes R (lendFrame p i u zeroed) m :=
  goes_bind (goes_obtainFrame hevict) fun f m₁ _ =>
    (moves_bind (moves_process p) fun _ => moves_bind (moves_emit _) fun _ =>
      moves_bind (moves_modify fun m => hadd m f) fun _ => moves_pure f) m₁

end

/-! ### Bringing a page in -/

variable [Installs p R] [FileSystem φ]

theorem goes_pageInFromSlot (hlend : Goes R (lendFrame p i u false) m) (s : Nat) :
    Goes R (pageInFromSlot p i u s) m := by
  refine goes_bind hlend fun f m₁ _ => ?_
  refine moves_bind (moves_install i f) (fun result => ?_) m₁
  cases result with
  | error e => exact moves_pure _
  | ok _ => exact moves_bind (moves_loadSlot s f) fun _ => moves_bind (moves_settle i f) fun _ => moves_pure _

omit [FileSystem φ] in
/-- What is done once the frame holds the contents of the page. -/
theorem moves_installed (i : PageId) (f : Frame) : Moves R (do
    match ← install p i f with
    | .error e => return .error e
    | .ok () =>
      settle i f
      return .ok () : Kernel φ (Except PageError Unit)) := by
  refine moves_bind (moves_install i f) fun result => ?_
  cases result with
  | error e => exact moves_pure _
  | ok _ => exact moves_bind (moves_settle i f) fun _ => moves_pure _

theorem goes_pageInZeroed (hlend : Goes R (lendFrame p i u true) m) : Goes R (pageInZeroed p i u) m :=
  goes_bind hlend fun f m₁ _ => moves_installed i f m₁

theorem goes_pageInFromFile (hlend : Goes R (lendFrame p i u true) m)
    (hread : ∀ m, R m (m.withFiles (FileSystem.readAt m.files r.file r.offset r.readLen).2)) :
    Goes R (pageInFromFile p i u r) m := by
  refine goes_bind hlend fun f m₁ _ => ?_
  refine moves_bind (moves_readRegion hread) (fun reading => ?_) m₁
  refine moves_bind (moves_readFrame f) fun b => moves_bind (moves_writeFrame f _) fun _ => ?_
  exact moves_ite (moves_bind (moves_process p) fun _ => moves_bind (moves_emit _) fun _ =>
    moves_bind (moves_freeFrame f) fun _ => moves_pure _) (moves_installed i f)

theorem goes_pageIn (hlend : ∀ u zeroed, Goes R (lendFrame p i u zeroed) m)
    (hread : ∀ r, (m.page i).backing.region? = some r →
      ∀ m', R m' (m'.withFiles (FileSystem.readAt m'.files r.file r.offset r.readLen).2)) :
    Goes R (pageIn p i) m := by
  rw [Goes, pageIn, ends_bind, ends_page, ends_ite]
  split
  · exact refl_of R m
  split
  · exact goes_pageInFromSlot (hlend _ _) _
  · rename_i r _ hr
    exact goes_pageInFromFile (hlend _ _) (hread r hr)
  · exact goes_pageInZeroed (hlend _ _)

theorem goes_resolve (hlend : ∀ m₁, pin i m = .ok () m₁ → ∀ u zeroed, Goes R (lendFrame p i u zeroed) m₁)
    (hread : ∀ r, (m.page i).backing.region? = some r →
      ∀ m', R m' (m'.withFiles (FileSystem.readAt m'.files r.file r.offset r.readLen).2)) :
    Goes R (resolve p i) m := by
  refine goes_bind (moves_pin i m) fun _ m₁ hpin => ?_
  have hbacking : (m₁.page i).backing = (m.page i).backing :=
    (moves_pin (R := SameBackings) i m).of_ok hpin i
  refine goes_bind (goes_pageIn (hlend m₁ hpin) fun r hr => hread r (hbacking ▸ hr)) fun result m₂ _ => ?_
  exact moves_bind (moves_unpin i) (fun _ => moves_pure result) m₂

/-! ### The stack, and page faults -/

theorem goes_growStack {a : Nat} (hlend : Goes R (lendFrame p m.pages.next (pageBase a) true) m)
    (hclaim : ∀ (m : Machine φ) u f, R m (({ m with
      pages := m.pages.add { Page.declared u true .swap with frame := some f } } : Machine φ).withProcess p
        fun proc => { proc with declared := proc.declared.insert u m.pages.next })) :
    Goes R (growStack p a) m := by
  have hrest : ∀ f pid, Moves R (do
      if ← mapPage p (pageBase a) f true then
        let id ← addPage { Page.declared (pageBase a) true .swap with frame := some f }
        modifyProcess p fun proc => { proc with declared := proc.declared.insert (pageBase a) id }
        emit (.stackGrown pid (pageBase a))
        return some id
      freeFrame f
      return none : Kernel φ (Option PageId)) := fun f pid => by
    refine moves_bind (moves_mapPage _ f true) fun done => moves_ite ?_
      (moves_bind (moves_freeFrame f) fun _ => moves_pure none)
    intro m'
    refine trans_of R (hclaim m' (pageBase a) f) ?_
    exact moves_bind (moves_emit _) (fun _ => moves_pure (some m'.pages.next)) _
  rw [growStack_eq]
  refine goes_bind (moves_process p m) fun proc m₁ hrun => ?_
  cases hrun
  dsimp only
  split
  · exact moves_bind (moves_emit _) (fun _ => moves_pure none) m
  split
  · exact moves_pure none m
  refine goes_bind (moves_get m) fun m' m₁ hrun => ?_
  cases hrun
  exact goes_bind hlend fun f m₁ _ => hrest f _ m₁

omit [Installs p R] in
theorem goes_decideFault [Bears R] {a esp : Nat} {write : Bool}
    (hresolve : ∀ i, m.lookup p a = some i → Goes R (resolve p i) m)
    (hgrow : m.lookup p a = none → Goes R (growStack p a) m) :
    Goes R (decideFault p a esp write) m := by
  rw [decideFault]
  split
  · exact moves_pure _ m
  refine goes_bind (moves_get m) fun m' m₁ hrun => ?_
  cases hrun
  split
  · rename_i i hi
    refine goes_bind (moves_page i m) fun pg m₁ hrun => ?_
    cases hrun
    split
    · exact moves_pure _ m
    · exact goes_bind (hresolve i hi) fun result m₁ _ => moves_pure _ m₁
  · rename_i hi
    split
    · refine goes_bind (hgrow hi) fun id m₁ _ => ?_
      exact moves_ite (moves_pure _) (moves_pure _) m₁
    · exact moves_pure _ m

omit [Installs p R] in
theorem goes_handleFault [Bears R] {a esp : Nat} {write : Bool}
    (hresolve : ∀ i, m.lookup p a = some i → Goes R (resolve p i) m)
    (hgrow : m.lookup p a = none → Goes R (growStack p a) m) :
    Goes R (handleFault p a esp write) m := by
  refine goes_bind (goes_decideFault hresolve hgrow) fun result m₁ _ => ?_
  cases result with
  | ok _ => exact moves_pure _ m₁
  | error e => exact moves_bind (moves_process p) (fun _ => moves_bind (moves_emit _) fun _ => moves_pure _) m₁

end Kernel

/-- An operation that brings in a page, and does nothing else. -/
def Op.fetches : Op → Bool
  | resolve _ | growStack _ | fault .. => true
  | _ => false

/-- The operations that make or release mappings. -/
def Op.remaps : Op → Bool
  | mmap .. | munmap _ | exit => true
  | _ => false

namespace Kernel

open Machine

/-! ### On a machine that is settled -/

section

variable {φ : Type} [FileSystem φ] {R : Machine φ → Machine φ → Prop} {p : ProcId} [Installs p R]
  {m : Machine φ} {v : View φ} {held : Set PageId} {op : Op}
  (hevict : ∀ {m : Machine φ} {held' : Set PageId}, held ⊆ held' → m.Shows v held' → Goes R evict m)
  (hadd : ∀ (m : Machine φ) e, R m (m.withFrames (m.frames.add e)))

include hevict hadd

theorem goes_lendFrame_of_shows {held' : Set PageId} (hsub : held ⊆ held') (h : m.Shows v held') (i : PageId)
    (u : Nat) (zeroed : Bool) : Goes R (lendFrame p i u zeroed) m :=
  goes_lendFrame (fun _ _ hrun => hevict hsub
    ((ends_takeFrame (E := fun _ _ => True) h (Frame.user_forUser zeroed)).of_ok hrun).1) fun m _ => hadd m _

theorem goes_resolve_of_shows (h : m.Shows v held) {i : PageId} (hi : i < v.next)
    (hread : ∀ r, (m.page i).backing.region? = some r →
      ∀ m', R m' (m'.withFiles (FileSystem.readAt m'.files r.file r.offset r.readLen).2)) :
    Goes R (resolve p i) m := by
  refine goes_resolve (fun m₁ hrun => ?_) hread
  by_cases hheld : i ∈ held
  · have hwait := ends_pin_of_mem (Q := fun _ _ => False) (E := fun _ _ => True) h hheld trivial
    exact (hwait.of_ok hrun).elim
  · have h₁ := (ends_pin (E := fun _ _ => True) h hi hheld).of_ok hrun
    exact goes_lendFrame_of_shows hevict hadd (Set.subset_insert i held) h₁ i

theorem goes_execute_of_fetches (h : m.Shows v held) (hv : v.Sound) (hop : op.fetches = true)
    (hread : ∀ i r, (∃ u, m.declaredAt p u = some i) → (m.page i).backing.region? = some r →
      ∀ m', R m' (m'.withFiles (FileSystem.readAt m'.files r.file r.offset r.readLen).2))
    (hclaim : ∀ (m' : Machine φ) u f, R m' (({ m' with
      pages := m'.pages.add { Page.declared u true .swap with frame := some f } } : Machine φ).withProcess p
        fun proc => { proc with declared := proc.declared.insert u m'.pages.next }))
    (hdeclared : v.declared = v.own) : Goes R (execute p op) m := by
  have hresolve : ∀ {a i}, m.lookup p a = some i → Goes R (resolve p i) m := fun {a i} hi => by
    have hown : v.own p (pageBase a) = some i := by
      rw [← hdeclared, h.declared]
      exact hi
    exact goes_resolve_of_shows hevict hadd h (hv.owned.lt hown) fun r => hread i r ⟨_, hi⟩
  have hgrow : ∀ a, Goes R (growStack p a) m := fun a =>
    goes_growStack (goes_lendFrame_of_shows hevict hadd subset_rfl h _ _ _) hclaim
  cases op with
  | resolve a =>
    refine goes_bind (moves_get m) fun m₁ m₂ hrun => ?_
    cases hrun
    split
    · exact moves_pure _ m
    · rename_i i hi
      refine goes_bind (hresolve hi) fun result m₁ _ => ?_
      cases result <;> exact moves_pure _ m₁
  | growStack a => exact goes_bind (hgrow a) fun _ m₁ _ => moves_pure _ m₁
  | fault a esp w =>
    refine goes_bind (goes_handleFault (fun i hi => hresolve hi) fun _ => hgrow a) fun result m₁ _ => ?_
    cases result <;> exact moves_pure _ m₁
  | _ => simp [Op.fetches] at hop

end

end Kernel

end DemandPaging
