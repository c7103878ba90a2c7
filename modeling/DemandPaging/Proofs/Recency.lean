import DemandPaging.Proofs.Fault
import DemandPaging.Proofs.FileCalls
import Mathlib.Data.Finset.Card

/-!
# Which pages give way

A frame that is lent may cost another page its frame. `Machine.GivesWay` says which: the table was full,
and the page had not been accessed, unless all had been, and then no accessed bit is left. Everything
else that brings a page in is `Calm`: it leaves the frame table alone and sets no accessed bit.
-/

namespace DemandPaging

/-- What becomes of a file system that is read and written to. -/
def Traffic {φ : Type} [FileSystem φ] : φ → φ → Prop :=
  Relation.ReflTransGen fun s s' =>
    (∃ file offset want, s' = (FileSystem.readAt s file offset want).2) ∨
      ∃ file offset data, s' = (FileSystem.writeAt s file offset data).2

/-- Reads of the region's part of its file are complete, whatever is read and written meanwhile. -/
def Complete {φ : Type} [FileSystem φ] (files : φ) (r : Region) : Prop :=
  ∀ files', Traffic files files' →
    (FileSystem.readAt files' r.file r.offset r.readLen).1.count = r.readLen

namespace Machine

variable {φ : Type} [FileSystem φ]

/-- The frame table is as it was, no accessed bit has been set, and files have been read and written
to at most. -/
structure Calm (m m' : Machine φ) : Prop extends m.Fades m' where
  frames : m'.frames = m.frames
  files : Traffic m.files m'.files

theorem Calm.trans {m m' m'' : Machine φ} (h : m.Calm m') (h' : m'.Calm m'') : m.Calm m'' :=
  ⟨h.toFades.trans h'.toFades, h'.frames.trans h.frames, Relation.ReflTransGen.trans h.files h'.files⟩

/-- The clock and the file system see the same. -/
structure SameClock (m m' : Machine φ) : Prop where
  frames : m'.frames = m.frames
  processes : m'.processes = m.processes
  next : m'.pages.next = m.pages.next
  upage : ∀ i, (m'.page i).upage = (m.page i).upage
  files : m'.files = m.files

omit [FileSystem φ] in
theorem sameClock_of_eq {m m' : Machine φ} (hframes : m'.frames = m.frames)
    (hprocesses : m'.processes = m.processes) (hpages : m'.pages = m.pages)
    (hfiles : m'.files = m.files) : m.SameClock m' :=
  ⟨hframes, hprocesses, by rw [hpages], fun i => by rw [page, hpages, page], hfiles⟩

omit [FileSystem φ] in
theorem SameClock.process {m m' : Machine φ} (h : m.SameClock m') (q : ProcId) :
    m'.process q = m.process q := by rw [Machine.process, h.processes, Machine.process]

omit [FileSystem φ] in
theorem SameClock.fades {m m' : Machine φ} (h : m.SameClock m') : m.Fades m' :=
  ⟨fun q u hu => by rwa [h.process] at hu, fun q => by rw [h.process], h.next.ge, fun i _ => h.upage i⟩

omit [FileSystem φ] in
theorem SameClock.idle_iff {m m' : Machine φ} (h : m.SameClock m') (e : Tenancy) :
    m'.Idle e ↔ m.Idle e := by rw [Idle, Idle, h.process, h.upage]

theorem calm_of_sameClock {m m' : Machine φ} (h : m.SameClock m') : m.Calm m' :=
  ⟨h.fades, h.frames, by rw [h.files]; exact .refl⟩

theorem calm_of_eq {m m' : Machine φ} (hframes : m'.frames = m.frames)
    (hprocesses : m'.processes = m.processes) (hpages : m'.pages = m.pages)
    (hfiles : m'.files = m.files) : m.Calm m' :=
  calm_of_sameClock (sameClock_of_eq hframes hprocesses hpages hfiles)

theorem calm_withFiles (m : Machine φ) {files : φ} (h : Traffic m.files files) :
    m.Calm (m.withFiles files) :=
  ⟨⟨fun _ _ => id, fun _ => rfl, Nat.le_refl _, fun _ _ => rfl⟩, rfl, h⟩

/-- A frame has been lent. If an entry had to go for it, the frame table was full, and the clock has
picked that entry. -/
structure GivesWay (m m' : Machine φ) : Prop where
  fades : m.Fades m'
  files : Traffic m.files m'.files
  stays : (∀ e ∈ m.frames.entries, e ∈ m'.frames.entries) ∨ ∃ e ∈ m.frames.entries,
    m.pool.total ≤ m.frames.entries.length ∧ m.Picks m' e ∧
      ∀ e' ∈ m.frames.entries, e' ≠ e → e' ∈ m'.frames.entries

variable {m m' m'' : Machine φ}

omit [FileSystem φ] in
theorem Picks.fades_trans {e : Tenancy} (h : m.Picks m' e) (hm : m.Distinct) (h' : m'.Fades m'') :
    m.Picks m'' e :=
  ⟨h.fades.trans h', h.choice.imp_right fun hall e' he' => ⟨(hall e' he').1,
    h'.idle (Nat.lt_of_lt_of_le (hm.lt e' he') h.fades.next) (hall e' he').2⟩⟩

/-- What happens without an entry going makes no difference. -/
theorem GivesWay.extend (h : m.GivesWay m') (hm : m.Distinct) (hfades : m'.Fades m'')
    (hfiles : Traffic m'.files m''.files)
    (hstays : ∀ e ∈ m'.frames.entries, e ∈ m''.frames.entries) : m.GivesWay m'' where
  fades := h.fades.trans hfades
  files := Relation.ReflTransGen.trans h.files hfiles
  stays := h.stays.imp (fun hall e he => hstays e (hall e he)) fun ⟨e, he, hfull, hpicks, hothers⟩ =>
    ⟨e, he, hfull, hpicks.fades_trans hm hfades, fun e' he' hne => hstays e' (hothers e' he' hne)⟩

theorem GivesWay.calm (h : m.GivesWay m') (hm : m.Distinct) (h' : m'.Calm m'') : m.GivesWay m'' :=
  h.extend hm h'.toFades h'.files fun e he => by rwa [h'.frames]

theorem Calm.givesWay (h : m.Calm m') : m.GivesWay m' :=
  ⟨h.toFades, h.files, .inl fun e he => by rwa [h.frames]⟩

theorem SameClock.givesWay (h : m.SameClock m') (htotal : m'.pool.total = m.pool.total)
    (h' : m'.GivesWay m'') : m.GivesWay m'' := by
  obtain ⟨hfades, hfiles, hstays⟩ := h'
  rw [htotal, h.frames] at hstays
  rw [h.files] at hfiles
  refine ⟨h.fades.trans hfades, hfiles, hstays.imp_right ?_⟩
  rintro ⟨e, he, hfull, hpicks, hothers⟩
  refine ⟨e, he, hfull, ⟨h.fades.trans hpicks.fades, hpicks.choice.imp (h.idle_iff e).1 ?_⟩, hothers⟩
  intro hall e' he'
  obtain ⟨hbusy, hidle⟩ := hall e' (by rwa [h.frames])
  exact ⟨fun hno => hbusy ((h.idle_iff e').2 hno), hidle⟩

end Machine

namespace View

variable {φ : Type} {v : View φ}

/-- If all frames are lent, there are as many entries. -/
theorem Housed.total_le_card (h : v.Housed) (hfull : ∀ c < v.plant.total, (v.cell c).isSome = true) :
    v.plant.total ≤ v.tenants.card := by
  have hsub : Finset.range v.plant.total ⊆ (v.tenants.map fun e => e.frame.cell).toFinset := by
    intro c hc
    rw [Multiset.mem_toFinset, Multiset.mem_map]
    exact (h.lent c).1 (hfull c (Finset.mem_range.1 hc))
  calc v.plant.total = (Finset.range v.plant.total).card := (Finset.card_range _).symm
    _ ≤ (v.tenants.map fun e => e.frame.cell).toFinset.card := Finset.card_le_card hsub
    _ ≤ (v.tenants.map fun e => e.frame.cell).card := Multiset.toFinset_card_le _
    _ = v.tenants.card := Multiset.card_map _ _

end View

namespace Kernel

open Machine

variable {φ α β : Type} [FileSystem φ]

/-- However it ends well, the program is calm. -/
def IsCalm (x : Kernel φ α) : Prop := ∀ m, Ends x m (fun _ m' => m.Calm m') fun _ _ => True

/-! ### Calm programs -/

theorem isCalm_pure (a : α) : IsCalm (pure a : Kernel φ α) := fun _ => calm_of_eq rfl rfl rfl rfl

theorem isCalm_bind {x : Kernel φ α} {f : α → Kernel φ β} (hx : IsCalm x) (hf : ∀ a, IsCalm (f a)) :
    IsCalm (x >>= f) := by
  intro m
  rw [ends_bind]
  exact (hx m).returns fun a m₁ h₁ => (hf a m₁).returns fun _ _ h₂ => h₁.trans h₂

theorem isCalm_halt (cause : Halt) : IsCalm (halt cause : Kernel φ α) := fun _ => trivial

theorem isCalm_get : IsCalm (get : Kernel φ (Machine φ)) := fun _ => calm_of_eq rfl rfl rfl rfl

theorem isCalm_modify {f : Machine φ → Machine φ} (hf : ∀ m : Machine φ, m.Calm (f m)) :
    IsCalm (modify f : Kernel φ Unit) := hf

theorem isCalm_modifyGet {f : Machine φ → α × Machine φ} (hf : ∀ m : Machine φ, m.Calm (f m).2) :
    IsCalm (modifyGet f : Kernel φ α) := hf

theorem isCalm_ite {c : Prop} [Decidable c] {x y : Kernel φ α} (hx : IsCalm x) (hy : IsCalm y) :
    IsCalm (if c then x else y) := by
  split
  · exact hx
  · exact hy

theorem isCalm_emit (e : Event) : IsCalm (emit e : Kernel φ Unit) := fun _ => calm_of_eq rfl rfl rfl rfl

theorem isCalm_page (i : PageId) : IsCalm (page i : Kernel φ Page) := fun _ => calm_of_eq rfl rfl rfl rfl

theorem isCalm_process (p : ProcId) : IsCalm (process p : Kernel φ Process) :=
  fun _ => calm_of_eq rfl rfl rfl rfl

theorem isCalm_modifyPage (i : PageId) {f : Page → Page} (hf : ∀ pg, (f pg).upage = pg.upage) :
    IsCalm (modifyPage i f : Kernel φ Unit) := fun m => ⟨.withPage m hf i, rfl, .refl⟩

theorem isCalm_addPage (pg : Page) : IsCalm (addPage pg : Kernel φ PageId) := by
  refine fun m => ⟨⟨fun _ _ => id, fun _ => rfl, ?_, fun i hi => ?_⟩, rfl, .refl⟩
  · show m.pages.next ≤ (m.pages.add pg).next
    rw [PageStore.next_add]
    exact Nat.le_succ _
  · show ((m.pages.add pg).get i).upage = _
    rw [PageStore.get_add, if_neg (Nat.ne_of_lt hi)]
    rfl

theorem isCalm_declared (p : ProcId) (d : Std.ExtTreeMap Nat PageId → Std.ExtTreeMap Nat PageId) :
    IsCalm (modifyProcess p fun proc => { proc with declared := d proc.declared } : Kernel φ Unit) := by
  intro m
  have hprocess : ∀ q, ((m.withProcess p fun proc =>
      { proc with declared := d proc.declared }).process q).table = (m.process q).table := fun q => by
    rw [process_withProcess]
    split <;> rfl
  exact ⟨⟨fun q u hu => by rw [← hprocess q]; exact hu, fun q => congrArg PageTable.limit (hprocess q),
    Nat.le_refl _, fun _ _ => rfl⟩, rfl, .refl⟩

theorem isCalm_unpin (i : PageId) : IsCalm (unpin i : Kernel φ Unit) :=
  isCalm_bind (isCalm_page i) fun _ => isCalm_bind (isCalm_modifyPage i fun _ => rfl) fun _ =>
    isCalm_ite (isCalm_halt _) (isCalm_pure _)

theorem isCalm_settle (i : PageId) (f : Frame) : IsCalm (settle i f : Kernel φ Unit) :=
  isCalm_modifyPage i fun _ => rfl

omit [FileSystem φ] in
theorem sameClock_pin (i : PageId) (m : Machine φ) :
    Ends (pin i) m (fun _ m' => m.SameClock m') fun _ _ => True := by
  simp only [pin, tryPin, ends_bind, ends_page, ends_ite, ends_pure, ends_modifyPage]
  split
  · trivial
  · exact ⟨rfl, rfl, PageStore.next_modify ..,
      upage_withPage m (f := fun pg => { pg with pinned := true }) (fun _ => rfl) i, rfl⟩

omit [FileSystem φ] in
theorem sameClock_takeFrame (r : Frame.Request) (m : Machine φ) :
    Ends (takeFrame r) m (fun _ m' => m.SameClock m') fun _ _ => True := by
  simp only [takeFrame, ends_bind, ends_modifyGet]
  split
  · exact sameClock_of_eq rfl rfl rfl rfl
  · exact sameClock_of_eq rfl rfl rfl rfl

theorem isCalm_returnFrame (f : Frame) : IsCalm (returnFrame f : Kernel φ Unit) := by
  refine isCalm_bind isCalm_get fun m => ?_
  split
  · exact isCalm_halt _
  · exact isCalm_bind (isCalm_modify fun _ => calm_of_eq rfl rfl rfl rfl) fun _ => isCalm_emit _

theorem isCalm_readFrame (f : Frame) : IsCalm (readFrame f : Kernel φ PageBytes) :=
  isCalm_bind isCalm_get fun _ => isCalm_pure _

theorem isCalm_writeFrame (f : Frame) (b : PageBytes) : IsCalm (writeFrame f b : Kernel φ Unit) :=
  isCalm_modify fun _ => calm_of_eq rfl rfl rfl rfl

/-- A page that is unmapped has no accessed bit any more. -/
theorem isCalm_unmapPage (p : ProcId) (u : Nat) : IsCalm (unmapPage p u : Kernel φ Bool) := by
  refine isCalm_bind (isCalm_process p) fun _ => isCalm_bind (fun m => ?_) fun _ => isCalm_pure _
  refine ⟨.withTable m p (f := (·.unmap u)) (fun w hw => ?_) rfl, rfl, .refl⟩
  rw [PageTable.isAccessed_unmap] at hw
  split at hw
  · simp at hw
  · exact hw

theorem isCalm_allocateSlot : IsCalm (allocateSlot : Kernel φ Nat) := by
  refine isCalm_bind isCalm_get fun m => ?_
  split
  · exact isCalm_halt _
  · exact isCalm_bind (isCalm_modify fun _ => calm_of_eq rfl rfl rfl rfl) fun _ => isCalm_pure _

theorem isCalm_releaseSlot (s : Nat) : IsCalm (releaseSlot s : Kernel φ Unit) := by
  refine isCalm_bind isCalm_get fun m => ?_
  split
  · exact isCalm_halt _
  · exact isCalm_modify fun _ => calm_of_eq rfl rfl rfl rfl

theorem isCalm_transfer (f : Swap → Registry → Registry × Except Swap.Misuse α) :
    IsCalm (transfer f : Kernel φ α) := by
  refine isCalm_bind (isCalm_modifyGet fun m => calm_of_eq rfl rfl rfl rfl) fun result => ?_
  cases result with
  | error e => exact isCalm_halt _
  | ok a => exact isCalm_pure _

theorem isCalm_swapOut (f : Frame) : IsCalm (swapOut f : Kernel φ Nat) :=
  isCalm_bind isCalm_allocateSlot fun _ => isCalm_bind (isCalm_readFrame f) fun _ =>
    isCalm_bind (isCalm_transfer _) fun _ => isCalm_bind (isCalm_emit _) fun _ => isCalm_pure _

theorem isCalm_loadSlot (s : Nat) (f : Frame) : IsCalm (loadSlot s f : Kernel φ Unit) :=
  isCalm_bind (isCalm_transfer _) fun _ => isCalm_bind (isCalm_writeFrame f _) fun _ =>
    isCalm_bind (isCalm_releaseSlot s) fun _ => isCalm_emit _

theorem isCalm_readRegion (r : Region) : IsCalm (readRegion r : Kernel φ Reading) :=
  isCalm_bind (isCalm_ite (isCalm_halt _) (isCalm_pure _)) fun _ => isCalm_modifyGet fun m =>
    calm_withFiles m (.single (.inl ⟨_, _, _, rfl⟩))

theorem isCalm_writeRegion (r : Region) (f : Frame) : IsCalm (writeRegion r f : Kernel φ Nat) :=
  isCalm_bind (isCalm_ite (isCalm_halt _) (isCalm_pure _)) fun _ => isCalm_modifyGet fun m =>
    calm_withFiles m (.single (.inr ⟨_, _, _, rfl⟩))

theorem isCalm_pageOut (e : Tenancy) : IsCalm (pageOut e : Kernel φ Unit) := by
  refine isCalm_bind (isCalm_page _) fun _ => isCalm_bind (isCalm_unmapPage _ _) fun dirty =>
    isCalm_bind (isCalm_page _) fun before => isCalm_bind (isCalm_process _) fun _ => ?_
  dsimp only
  have hlast : ∀ (x : Unit) (ev : Event), IsCalm (do
      modifyPage e.page fun p => { p with frame := none }
      emit ev : Kernel φ Unit) := fun _ ev =>
    isCalm_bind (isCalm_modifyPage _ fun _ => rfl) fun _ => isCalm_emit ev
  split
  · exact isCalm_bind (isCalm_swapOut _) fun _ =>
      isCalm_bind (isCalm_modifyPage _ fun _ => rfl) fun x => hlast x _
  · refine isCalm_bind (isCalm_writeRegion _ _) fun _ => ?_
    exact isCalm_ite (isCalm_bind (isCalm_emit _) fun x => hlast x _) (hlast () _)
  · exact hlast () _

/-! ### Lending -/

variable {m : Machine φ} {v : View φ} {held : Set PageId} {p : ProcId} {i : PageId} {u s : Nat}
  {f : Frame} {b : PageBytes}

omit [FileSystem φ] in
/-- No page in memory is pinned while the pages that are pinned are not in memory. -/
theorem loose_of_away (h : m.Shows v held) (hv : v.Sound) (hheld : ∀ i ∈ held, (v.page i).frame = none) :
    ∀ e ∈ m.frames.entries, m.loose e = true := by
  rintro ⟨f, p, i⟩ he
  obtain ⟨u, -, hf⟩ := (hv.housed.listed f p i).1 (h.tenants ▸ Multiset.mem_coe.2 he)
  have hfree : (m.page i).pinned ≠ true := by
    rw [Ne, h.fit.pinned]
    intro hmem
    rw [hheld i hmem] at hf
    simp at hf
  simpa [loose] using hfree

theorem gives_evict (h : m.Shows v held) (hv : v.Sound)
    (hheld : ∀ i ∈ held, (v.page i).frame = none) :
    Ends evict m (fun done m' => done = true → Traffic m.files m'.files ∧
      ∃ e ∈ m.frames.entries, m.Picks m' e ∧
        ∀ e' ∈ m.frames.entries, e' ≠ e → e' ∈ m'.frames.entries) fun _ _ => True := by
  have hm := h.distinct hv.owned hv.housed
  simp only [evict, ends_bind, ends_get]
  refine (ends_sweep h hv).returns ?_
  rintro (- | e) m₁ htaken
  · exact fun hdone => absurd hdone (by simp)
  obtain ⟨he, -, h₁, hpicks⟩ := htaken
  have hpicks := hpicks (loose_of_away h hv hheld)
  have hcalm : IsCalm (do
      pageOut e
      returnFrame e.frame
      unpin e.page
      return true : Kernel φ Bool) :=
    isCalm_bind (isCalm_pageOut e) fun _ => isCalm_bind (isCalm_returnFrame _) fun _ =>
      isCalm_bind (isCalm_unpin _) fun _ => isCalm_pure _
  refine (hcalm m₁).returns fun _ m₂ h₂ _ => ⟨?_, e, ?_, hpicks.fades_trans hm h₂.toFades, ?_⟩
  · rw [← h.files, show v.files = m₁.files from h₁.files]
    exact h₂.files
  · exact Multiset.mem_coe.1 (h.tenants ▸ he)
  · intro e' he' hne
    have hmem : e' ∈ v.tenants.erase e :=
      (Multiset.mem_erase_of_ne hne).2 (h.tenants ▸ Multiset.mem_coe.2 he')
    rw [show v.tenants.erase e = m₁.frames.entries from h₁.tenants] at hmem
    rw [h₂.frames]
    exact Multiset.mem_coe.1 hmem

/-- A frame that is lent costs at most one other page its frame, and only if all are lent. -/
theorem gives_obtainFrame (h : m.Shows v held) (hv : v.Sound)
    (hheld : ∀ i ∈ held, (v.page i).frame = none) (hopen : v.plant.Open) {r : Frame.Request}
    (hr : r.user = true) :
    Ends (obtainFrame r) m (fun _ m' => m.GivesWay m') fun _ _ => True := by
  rw [obtainFrame, ends_bind]
  refine ((ends_takeFrame h hr (E := fun _ _ => True)).and (sameClock_takeFrame r m)).imp ?_
    fun _ _ _ => trivial
  rintro result m₁ ⟨htaken, hclock⟩
  cases result with
  | ok f => exact (calm_of_sameClock hclock).givesWay
  | error _ =>
    obtain ⟨h₁, hfull⟩ := htaken
    have htotal : m₁.pool.total = m.pool.total :=
      (congrArg Plant.total h₁.plant).symm.trans (congrArg Plant.total h.plant)
    have hle : m₁.pool.total ≤ m₁.frames.entries.length := by
      have := hv.housed.total_le_card (hfull hopen)
      rwa [h₁.tenants, h₁.plant] at this
    rw [ends_bind]
    refine (gives_evict h₁ hv hheld).returns fun done m₂ h₂ => ?_
    cases done with
    | false => exact trivial
    | true =>
      obtain ⟨hfiles, e, he, hpicks, hothers⟩ := h₂ rfl
      have hgives : m₁.GivesWay m₂ := ⟨hpicks.fades, hfiles, .inr ⟨e, he, hle, hpicks, hothers⟩⟩
      simp only [Bool.not_true, Bool.false_eq_true, if_false]
      rw [ends_bind]
      refine (sameClock_takeFrame r m₂).returns fun result m₃ h₃ => ?_
      have hgives₃ := hclock.givesWay htotal
        (hgives.calm (h₁.distinct hv.owned hv.housed) (calm_of_sameClock h₃))
      cases result with
      | ok f => exact hgives₃
      | error e => exact trivial

theorem gives_lendFrame (h : m.Shows v held) (hv : v.Sound)
    (hheld : ∀ i ∈ held, (v.page i).frame = none) (hopen : v.plant.Open) (p : ProcId) (i : PageId)
    (u : Nat) (zeroed : Bool) :
    Ends (lendFrame p i u zeroed) m (fun _ m' => m.GivesWay m') fun _ _ => True := by
  rw [lendFrame, ends_bind]
  refine (gives_obtainFrame h hv hheld hopen (Frame.user_forUser zeroed)).returns fun f m₁ h₁ => ?_
  simp only [ends_bind, ends_process, ends_emit, ends_modify, ends_pure]
  exact h₁.extend (h.distinct hv.owned hv.housed)
    ⟨fun _ _ => id, fun _ => rfl, Nat.le_refl _, fun _ _ => rfl⟩ .refl
    fun e he => List.mem_append_left _ he

/-! ### Bringing a page in -/

/-- A page that is not in memory can be mapped, if the page table has no limit. -/
theorem calm_mapPage (h : m.Shows v held) (hu : isAligned u = true)
    (haway : v.mapping? p u = none) (hlimit : (m.process p).table.limit = none) (f : Frame)
    (w : Bool) :
    Ends (mapPage p u f w) m (fun done m' => done = true ∧ m.Calm m') fun _ _ => True := by
  simp only [mapPage, ends_bind, ends_process]
  rcases PageTable.map_cases (t := (m.process p).table) (f := f) (w := w) hu with
    ⟨ht, -⟩ | ⟨-, hno⟩ | ⟨t, ht, -, htable, -, -, haccessed⟩
  · simp only [ht, ends_halt]
  · rw [h.mapping?] at haway
    simp [haway, PageTable.full, hlimit] at hno
  · simp only [ht, ends_bind, ends_modifyTable, ends_pure]
    refine ⟨trivial, .withTable m p (fun w hw => ?_) htable, rfl, .refl⟩
    rw [haccessed] at hw
    split at hw
    · simp at hw
    · exact hw

end Kernel

namespace Machine

variable {φ : Type} [FileSystem φ]

/-- Process `p` may use `a` with the stack pointer at `esp`: the page there is declared, and may be
written to if it is to be written to, or the stack may grow by it. -/
def Allows (m : Machine φ) (p : ProcId) (esp : Nat) (write : Bool) (a : Nat) : Prop :=
  match m.lookup p a with
  | some i => write = true → (m.page i).writable = true
  | none => isUser a = true ∧ userTop - pageBase a ≤ stackLimit ∧
      esp ≤ min (a + stackSlack) (wordLimit - 1)

omit [FileSystem φ] in
instance (m : Machine φ) (p : ProcId) (esp : Nat) (write : Bool) (a : Nat) :
    Decidable (m.Allows p esp write a) :=
  match h : m.lookup p a with
  | some i => decidable_of_iff (write = true → (m.page i).writable = true) (by rw [Allows, h])
  | none => decidable_of_iff (isUser a = true ∧ userTop - pageBase a ≤ stackLimit ∧
      esp ≤ min (a + stackSlack) (wordLimit - 1)) (by rw [Allows, h])

/-- Page `i`, which process `p` has at `u`, is not in memory, and there is nothing to keep it out. -/
structure Admits (m : Machine φ) (v : View φ) (held : Set PageId) (p : ProcId) (u : Nat) (i : PageId) :
    Prop where
  shows : m.Shows v held
  sound : v.Sound
  declared : v.declared = v.own
  held : ∀ j ∈ held, (v.page j).frame = none
  plenty : v.plant.Open
  unlimited : (m.process p).table.limit = none
  own : v.own p u = some i
  away : (v.page i).frame = none

end Machine

namespace Kernel

open Machine

variable {φ : Type} [FileSystem φ] {m : Machine φ} {v w : View φ} {held : Set PageId} {p : ProcId}
  {i : PageId} {u s : Nat} {f : Frame} {b : PageBytes}

/-- A frame has been lent for the page, and the page can be mapped to it. -/
structure Lent (m : Machine φ) (w : View φ) (held : Set PageId) (p : ProcId) (u : Nat) (i : PageId)
    (f : Frame) (b : PageBytes) : Prop where
  shows : m.Shows (w.host ⟨f, p, i⟩ b) held
  sound : w.Sound
  unlimited : (m.process p).table.limit = none
  own : w.own p u = some i
  away : (w.page i).frame = none

theorem gives_admitted (h : m.Admits v held p u i) (zeroed : Bool) :
    Ends (lendFrame p i u zeroed) m (fun f m' => m.GivesWay m' ∧
      ∃ w b, w.page i = v.page i ∧ Lent m' w held p u i f b) fun _ _ => True := by
  have hlend : Ends (lendFrame p i u zeroed) m _ (Stalls (v.heldIn held) False v) :=
    ends_lendFrame h.shows h.sound h.declared p i u zeroed
  have hgives := gives_lendFrame h.shows h.sound h.held h.plenty p i u zeroed
  refine (hlend.and hgives).imp ?_ fun _ _ _ => trivial
  rintro f m₁ ⟨⟨w, hroom, -, -, b, -, h₁⟩, hgives⟩
  have hspares := hroom.spares
  have hpage := hspares.page i h.away
  exact ⟨hgives, w, b, hpage, h₁, hroom.sound h.sound, by rw [hgives.fades.limit, h.unlimited],
    by rw [hspares.own, h.own], by rw [hpage, h.away]⟩

theorem calm_install (h : Lent m w held p u i f b) :
    Ends (install p i f) m (fun result m' => result = .ok () ∧ m.Calm m') fun _ _ => True := by
  have hupage : (m.page i).upage = u := (h.shows.upage i).trans (h.sound.owned.upage h.own)
  have hmapping : w.mapping? p u = none := by
    rw [h.sound.housed.mapping?, h.own, Option.bind_some, h.away, Option.map_none]
  rw [install, ends_bind, ends_page, hupage, ends_bind]
  refine (calm_mapPage h.shows (h.sound.owned.aligned h.own) hmapping h.unlimited f _).returns ?_
  rintro done m₁ ⟨rfl, hcalm⟩
  exact ⟨rfl, hcalm⟩

theorem gives_pageInFromSlot (h : m.Admits v held p u i) (s : Nat) :
    Ends (pageInFromSlot p i u s) m (fun result m' => result = .ok () ∧ m.GivesWay m')
      fun _ _ => True := by
  have hm := h.shows.distinct h.sound.owned h.sound.housed
  rw [pageInFromSlot, ends_bind]
  refine (gives_admitted h false).returns ?_
  rintro f m₁ ⟨hgives, w, b, -, hlent⟩
  rw [ends_bind]
  refine (calm_install hlent).returns ?_
  rintro result m₂ ⟨rfl, hcalm⟩
  have hrest : IsCalm (do
      loadSlot s f
      settle i f
      return .ok () : Kernel φ (Except PageError Unit)) :=
    isCalm_bind (isCalm_loadSlot s f) fun _ => isCalm_bind (isCalm_settle i f) fun _ => isCalm_pure _
  simp only [ends_bind, ends_pure]
  refine (isCalm_loadSlot s f m₂).returns fun _ m₃ h₃ => ?_
  refine (isCalm_settle i f m₃).returns fun _ m₄ h₄ => ?_
  exact ⟨trivial, hgives.calm hm (hcalm.trans (h₃.trans h₄))⟩

theorem gives_pageInFromFile (h : m.Admits v held p u i) {r : Region}
    (hr : (v.page i).backing.region? = some r) (hread : Complete m.files r) :
    Ends (pageInFromFile p i u r) m (fun result m' => result = .ok () ∧ m.GivesWay m')
      fun _ _ => True := by
  have hm := h.shows.distinct h.sound.owned h.sound.housed
  have hfits : r.readLen ≤ pageSize := (h.sound.owned.fits h.own hr).le.trans' (Nat.le_add_right _ _)
  rw [pageInFromFile, ends_bind]
  refine (gives_admitted h true).returns ?_
  rintro f m₁ ⟨hgives, w, b, hpage, hlent⟩
  rw [ends_bind]
  refine ((ends_readRegion hlent.shows hfits (E := fun _ _ => True)).and
    (isCalm_readRegion r m₁)).imp ?_ fun _ _ _ => trivial
  rintro reading m₂ ⟨⟨hreading, h₂⟩, hcalm₂⟩
  have hcount : reading.count = r.readLen := by
    rw [hreading, show (w.host ⟨f, p, i⟩ b).files = m₁.files from hlent.shows.files]
    exact hread _ hgives.files
  set w' := w.setFiles (FileSystem.readAt w.files r.file r.offset r.readLen).2 with hw'
  have h₂ : m₂.Shows (w'.host ⟨f, p, i⟩ b) held := h₂
  have hcell : (w'.host ⟨f, p, i⟩ b).cell f.cell = some b := by simp [View.host]
  simp only [ends_bind, readFrame, ends_get, ends_pure]
  refine ((ends_writeFrame h₂ hcell _ (E := fun _ _ => True)).and
    (isCalm_writeFrame f _ m₂)).imp ?_ fun _ _ _ => trivial
  rintro _ m₃ ⟨h₃, hcalm₃⟩
  rw [View.fill_host] at h₃
  have hcalm := hcalm₂.trans hcalm₃
  have hlent₃ : Lent m₃ w' held p u i f _ :=
    ⟨h₃, hlent.sound.setFiles _, by rw [hcalm.limit, hlent.unlimited], hlent.own, hlent.away⟩
  simp only [hcount, ne_eq, not_true_eq_false, if_false, ends_bind]
  refine (calm_install hlent₃).returns ?_
  rintro result m₄ ⟨rfl, hcalm₄⟩
  simp only [ends_bind, ends_pure]
  refine (isCalm_settle i f m₄).returns fun _ m₅ h₅ => ?_
  exact ⟨trivial, hgives.calm hm (hcalm.trans (hcalm₄.trans h₅))⟩

/-- A page that is not in memory comes in, if what is read of its file is complete. -/
theorem gives_pageIn (h : m.Admits v held p u i)
    (hread : ∀ r, (v.page i).backing.region? = some r → Complete m.files r) :
    Ends (pageIn p i) m (fun result m' => result = .ok () ∧ m.GivesWay m') fun _ _ => True := by
  have hno : (m.page i).resident = false := by rw [Page.resident, h.shows.frame, h.away]; rfl
  rw [pageIn, ends_bind, ends_page, ends_ite, hno, if_neg (by simp), h.shows.pageSlot,
    h.shows.backing, h.shows.upage, h.sound.owned.upage h.own]
  cases hs : (v.page i).slot with
  | some s => exact gives_pageInFromSlot h s
  | none =>
    obtain ⟨r, hr⟩ := exists_region_of_sourced (h.sound.sourced _ _ _ h.own) h.away hs
    rw [hr]
    exact gives_pageInFromFile h hr (hread r hr)

theorem gives_resolve (h : m.Admits v ∅ p u i)
    (hread : ∀ r, (v.page i).backing.region? = some r → Complete m.files r) :
    Ends (resolve p i) m (fun result m' => result = .ok () ∧ m.GivesWay m') fun _ _ => True := by
  rw [resolve, ends_bind]
  refine ((ends_pin h.shows (h.sound.owned.lt h.own) (Set.notMem_empty i)
    (E := fun _ _ => True)).and (sameClock_pin i m)).imp ?_ fun _ _ _ => trivial
  rintro _ m₁ ⟨h₁, hclock⟩
  have hadmits : m₁.Admits v (insert i ∅) p u i := by
    refine ⟨h₁, h.sound, h.declared, fun j hj => ?_, h.plenty, ?_, h.own, h.away⟩
    · obtain rfl : j = i := by simpa using hj
      exact h.away
    · rw [hclock.process, h.unlimited]
  have htotal : m₁.pool.total = m.pool.total :=
    (congrArg Plant.total h₁.plant).symm.trans (congrArg Plant.total h.shows.plant)
  rw [ends_bind]
  refine (gives_pageIn hadmits fun r hr => by rw [hclock.files]; exact hread r hr).returns ?_
  rintro result m₂ ⟨rfl, h₂⟩
  rw [ends_bind]
  refine (isCalm_unpin i m₂).returns fun _ m₃ h₃ => ?_
  exact ⟨rfl, (hclock.givesWay htotal h₂).calm (h.shows.distinct h.sound.owned h.sound.housed) h₃⟩

/-! ### The stack -/

/-- The stack of a process grows by a page that is not declared, and within the limits. -/
theorem gives_growStack (h : m.Shows v ∅) (hv : v.Sound) (hdeclared : v.declared = v.own)
    (hopen : v.plant.Open) (hlimit : (m.process p).table.limit = none) {a : Nat}
    (hnone : v.own p (pageBase a) = none) (huser : isUser (pageBase a) = true)
    (hroom : userTop - pageBase a ≤ stackLimit) :
    Ends (growStack p a) m (fun result m' => result.isSome = true ∧ m.GivesWay m')
      fun _ _ => True := by
  have hm := h.distinct hv.owned hv.housed
  have hcontains : (m.process p).declared.contains (pageBase a) = false := by
    rw [← hdeclared, h.declared, declaredAt] at hnone
    rw [Std.ExtTreeMap.contains_eq_isSome_getElem?, hnone]
    rfl
  simp only [growStack_eq, ends_bind, ends_process, ends_ite, ends_pure, huser, hcontains, Bool.not_true,
    Bool.false_or, decide_eq_true_eq, Nat.not_lt.2 hroom, Bool.false_eq_true, if_false, ends_get]
  have hlend : Ends (lendFrame p m.pages.next (pageBase a) true) m _ (Stalls (v.heldIn ∅) False v) :=
    ends_lendFrame h hv hdeclared p m.pages.next (pageBase a) true
  have hgives := gives_lendFrame h hv (by simp) hopen p m.pages.next (pageBase a) true
  refine (hlend.and hgives).imp ?_ fun _ _ _ => trivial
  rintro f m₁ ⟨⟨w, hroom, -, -, b, -, h₁⟩, hgives⟩
  have hspares := hroom.spares
  have hmapping : w.mapping? p (pageBase a) = none := by
    rw [(hroom.sound hv).housed.mapping?, hspares.own, hnone, Option.bind_none]
  refine (calm_mapPage h₁ (isAligned_pageBase a) hmapping (by rw [hgives.fades.limit, hlimit]) f
    true).returns ?_
  rintro done m₂ ⟨rfl, hcalm⟩
  rw [if_pos rfl]
  refine (isCalm_addPage _ m₂).returns fun i m₃ h₃ => ?_
  refine (isCalm_declared p (·.insert (pageBase a) i) m₃).returns fun _ m₄ h₄ => ?_
  exact ⟨rfl, hgives.calm hm (hcalm.trans (h₃.trans (h₄.trans (isCalm_emit _ m₄))))⟩

/-! ### Page faults -/

theorem gives_decideFault (h : m.Shows v ∅) (hv : v.Sound) (hdeclared : v.declared = v.own)
    (hopen : v.plant.Open) (hlimit : (m.process p).table.limit = none) {a esp : Nat} {w : Bool}
    (hallows : m.Allows p esp w a)
    (haway : ∀ i, v.own p (pageBase a) = some i → (v.page i).frame = none)
    (hread : ∀ i r, v.own p (pageBase a) = some i → (v.page i).backing.region? = some r →
      Complete m.files r) :
    Ends (decideFault p a esp w) m (fun result m' => result = .ok () ∧ m.GivesWay m')
      fun _ _ => True := by
  have hlookup : m.lookup p a = v.own p (pageBase a) := by
    rw [← hdeclared, h.declared]
    rfl
  rw [Allows, hlookup] at hallows
  rw [decideFault]
  cases hi : v.own p (pageBase a) with
  | some i =>
    have huser : isUser a = true := isUser_pageBase a ▸ hv.owned.user hi
    rw [hi] at hallows
    have hadmits : m.Admits v ∅ p (pageBase a) i :=
      ⟨h, hv, hdeclared, by simp, hopen, hlimit, hi, haway i hi⟩
    have hok : (w && !(m.page i).writable) = false := by
      cases w with
      | false => rfl
      | true => simp [hallows rfl]
    simp only [huser, Bool.not_true, Bool.false_eq_true, if_false, ends_bind, ends_get, hlookup, hi,
      ends_page, hok]
    refine (gives_resolve hadmits fun r hr => hread i r hi hr).returns ?_
    rintro result m₁ ⟨rfl, hgives⟩
    exact ⟨rfl, hgives⟩
  | none =>
    rw [hi] at hallows
    obtain ⟨huser, hroom, hesp⟩ := hallows
    simp only [huser, Bool.not_true, Bool.false_eq_true, if_false, ends_bind, ends_get, hlookup, hi,
      if_pos hesp]
    refine (gives_growStack h hv hdeclared hopen hlimit hi (by rw [isUser_pageBase, huser])
      hroom).returns ?_
    rintro result m₁ ⟨hsome, hgives⟩
    rw [if_pos hsome]
    exact ⟨rfl, hgives⟩

/-- A fault at a page that a process may use is resolved. -/
theorem gives_handleFault (h : m.Shows v ∅) (hv : v.Sound) (hdeclared : v.declared = v.own)
    (hopen : v.plant.Open) (hlimit : (m.process p).table.limit = none) {a esp : Nat} {w : Bool}
    (hallows : m.Allows p esp w a)
    (haway : ∀ i, v.own p (pageBase a) = some i → (v.page i).frame = none)
    (hread : ∀ i r, v.own p (pageBase a) = some i → (v.page i).backing.region? = some r →
      Complete m.files r) :
    Ends (handleFault p a esp w) m (fun result m' => result = .ok () ∧ m.GivesWay m')
      fun _ _ => True := by
  rw [handleFault, ends_bind]
  refine (gives_decideFault h hv hdeclared hopen hlimit hallows haway hread).returns ?_
  rintro result m₁ ⟨rfl, hgives⟩
  exact ⟨rfl, hgives⟩

end Kernel

end DemandPaging
