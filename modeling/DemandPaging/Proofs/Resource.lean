import DemandPaging.Proofs.Effect
import DemandPaging.Proofs.Program
import Mathlib.Data.Set.Insert

/-!
# The parts of a machine at work

What each program that uses one part of the machine does to the view, and that it does not stop as
long as the part is used as the view allows. `Shows m v held` says that `m` looks like `v`, that
exactly the pages in `held` are pinned, and that the parts which cannot be seen are in order.
-/

namespace DemandPaging

namespace Machine

variable {φ : Type}

/-- What is in order about the parts of a machine that cannot be seen. -/
structure Fit (m : Machine φ) (held : Set PageId) : Prop where
  sized : m.swap.used.Sized
  hand : m.frames.hand < m.frames.entries.length ∨ m.frames.hand = 0
  pinned : ∀ i, (m.page i).pinned = true ↔ i ∈ held

/-- The machine looks like `v`, and the pages in `held` are pinned. -/
structure Shows (m : Machine φ) (v : View φ) (held : Set PageId) : Prop where
  view : m.view v.own = v
  fit : m.Fit held

/-- The machine has the files of `v`, its pages are in memory where they are in `v`, and its processes
have declared the pages that they have in `v`. -/
structure Resembles (m : Machine φ) (v : View φ) : Prop where
  files : m.files = v.files
  frame : ∀ i, (m.page i).frame = (v.page i).frame
  declared : m.declaredAt = v.declared

variable {m : Machine φ} {v : View φ} {held : Set PageId} {i : PageId} {p : ProcId}

theorem Fit.congr {m' : Machine φ} (h : m.Fit held) (hswap : m'.swap.used = m.swap.used)
    (hframes : m'.frames = m.frames) (hpages : m'.pages = m.pages) : m'.Fit held where
  sized := by rw [hswap]; exact h.sized
  hand := by rw [hframes]; exact h.hand
  pinned i := by rw [page, hpages]; exact h.pinned i

namespace Shows

theorem page (h : m.Shows v held) (i : PageId) : v.page i = (m.page i).face := by
  rw [← h.view]; rfl

theorem upage (h : m.Shows v held) (i : PageId) : (m.page i).upage = (v.page i).upage := by
  rw [h.page]; rfl

theorem writable (h : m.Shows v held) (i : PageId) : (m.page i).writable = (v.page i).writable := by
  rw [h.page]; rfl

theorem backing (h : m.Shows v held) (i : PageId) : (m.page i).backing = (v.page i).backing := by
  rw [h.page]; rfl

theorem frame (h : m.Shows v held) (i : PageId) : (m.page i).frame = (v.page i).frame := by
  rw [h.page]; rfl

theorem pageSlot (h : m.Shows v held) (i : PageId) : (m.page i).slot = (v.page i).slot := by
  rw [h.page]; rfl

theorem disposal (h : m.Shows v held) (i : PageId) (dirty : Bool) :
    (m.page i).disposal dirty = (v.page i).disposal dirty := by rw [h.page]; rfl

theorem next (h : m.Shows v held) : v.next = m.pages.next := by rw [← h.view]; rfl

theorem plant (h : m.Shows v held) : v.plant = m.plant := by rw [← h.view]; rfl

theorem cell (h : m.Shows v held) : v.cell = m.pool.contents? := by rw [← h.view]; rfl

theorem slot (h : m.Shows v held) : v.slot = m.swap.contents? m.devices := by rw [← h.view]; rfl

theorem tenants (h : m.Shows v held) : v.tenants = m.frames.entries := by rw [← h.view]; rfl

theorem files (h : m.Shows v held) : v.files = m.files := by rw [← h.view]; rfl

theorem declared (h : m.Shows v held) : v.declared = m.declaredAt := by rw [← h.view]; rfl

theorem mappings (h : m.Shows v held) (p : ProcId) : v.mappings p = (m.process p).mappings := by
  rw [← h.view]; rfl

theorem exited (h : m.Shows v held) (p : ProcId) : v.exited p = (m.process p).exited := by
  rw [← h.view]; rfl

theorem mapping? (h : m.Shows v held) (p : ProcId) (u : Nat) :
    v.mapping? p u = (m.process p).table.mapping? u := by rw [← h.view]; rfl

theorem dirty (h : m.Shows v held) (p : ProcId) (u : Nat) :
    v.dirty p u = (m.process p).table.isDirty u := by rw [← h.view]; rfl

theorem resembles (h : m.Shows v held) : m.Resembles v := ⟨h.files.symm, h.frame, h.declared.symm⟩

/-- A page that has not been added yet is not pinned. -/
theorem next_notMem (h : m.Shows v held) : v.next ∉ held := by
  rw [← h.fit.pinned, h.next]
  simp [Machine.page, PageStore.get, PageStore.next, Page.declared]

theorem lt_of_live (h : m.Shows v held) (hp : v.exited p = false) : p < m.processes.size :=
  Machine.lt_of_live (by rw [← h.exited, hp])

/-- A used slot is used in the bitmap, and holds what its sectors hold. -/
theorem bit_of_slot (h : m.Shows v held) {s : Nat} {b : PageBytes} (hs : v.slot s = some b) :
    m.swap.used.bit s = true ∧ Swap.image m.devices m.swap.device s = b := by
  rw [h.slot, Swap.contents?] at hs
  split at hs
  · exact ⟨‹_›, Option.some.inj hs⟩
  · simp at hs

theorem slot_of_bit (h : m.Shows v held) {s : Nat} (hs : m.swap.used.bit s = true) :
    (v.slot s).isSome = true := by
  rw [h.slot, Swap.contents?, if_pos hs]
  rfl

theorem lent_of_cell (h : m.Shows v held) {c : Nat} {b : PageBytes} (hc : v.cell c = some b) :
    m.pool.lent c = true := by
  rw [h.cell] at hc
  exact Pool.lent_of_contents? hc

theorem read_of_cell (h : m.Shows v held) {f : Frame} {b : PageBytes} (hc : v.cell f.cell = some b) :
    m.pool.read f = b := by
  have hl := h.lent_of_cell hc
  rw [h.cell, Pool.contents?_of_lent hl] at hc
  exact Option.some.inj hc

/-! ### Updates -/

theorem report (h : m.Shows v held) (e : Event) : (m.report e).Shows v held :=
  ⟨h.view, h.fit.congr rfl rfl rfl⟩

/-- A change of a page that leaves its pin alone. -/
theorem setPage (h : m.Shows v held) (hi : i < v.next) {f : Page → Page}
    (hface : ∀ pg, (f pg).face = f pg.face) (hpin : ∀ pg, (f pg).pinned = pg.pinned) :
    (m.withPage i f).Shows (v.setPage i (f (v.page i))) held where
  view := by
    rw [View.setPage_own, view_withPage (h.next ▸ hi), h.view, hface, ← h.page]
  fit := by
    refine ⟨h.fit.sized, h.fit.hand, fun j => ?_⟩
    rw [page_withPage, ← h.fit.pinned]
    split
    · rw [hpin]
    · rfl

theorem pin (h : m.Shows v held) (hi : i < v.next) :
    (m.withPage i fun pg => { pg with pinned := true }).Shows v (insert i held) where
  view := (view_withPage_of_face (f := fun pg => { pg with pinned := true }) (fun _ => rfl) i).trans
    h.view
  fit := by
    refine ⟨h.fit.sized, h.fit.hand, fun j => ?_⟩
    rw [page_withPage, Set.mem_insert_iff, ← h.fit.pinned]
    rcases eq_or_ne i j with hij | hij
    · rw [if_pos ⟨hij, hij ▸ h.next ▸ hi⟩]
      simp [hij]
    · rw [if_neg (fun hc => hij hc.1), or_iff_right (Ne.symm hij)]

theorem unpin (h : m.Shows v (insert i held)) (hi : i ∉ held) :
    (m.withPage i fun pg => { pg with pinned := false }).Shows v held where
  view := (view_withPage_of_face (f := fun pg => { pg with pinned := false }) (fun _ => rfl) i).trans
    h.view
  fit := by
    refine ⟨h.fit.sized, h.fit.hand, fun j => ?_⟩
    have hj := h.fit.pinned j
    rw [page_withPage]
    rcases eq_or_ne i j with rfl | hij
    · split
      · simp [hi]
      · -- a page that does not exist is not pinned
        rename_i hlt
        have hfree : (m.page i).pinned = false := by
          have hnone : m.pages.pages.size ≤ i := by simpa [PageStore.next] using hlt
          simp [Machine.page, PageStore.get, Page.declared, Nat.not_lt.2 hnone]
        simp [hfree, hi]
    · rw [if_neg (fun hc => hij hc.1), hj, Set.mem_insert_iff, or_iff_right (Ne.symm hij)]

theorem addPage (h : m.Shows v held) (hfresh : v.next ∉ held) {pg : Page} (hpg : pg.pinned = false) :
    Shows { m with pages := m.pages.add pg } (v.addPage pg) held where
  view := by
    have hface : pg.face = pg := by cases pg; simp_all [Page.face]
    rw [View.addPage_own, view_addPage, h.view, hface]
  fit := by
    refine ⟨h.fit.sized, h.fit.hand, fun j => ?_⟩
    rw [Machine.page, PageStore.get_add]
    split
    · rename_i hj
      rw [hpg, hj, ← h.next]
      simpa using hfresh
    · exact h.fit.pinned j

theorem setMapping (h : m.Shows v held) (hp : p < m.processes.size) {f : PageTable → PageTable}
    {u : Nat} {x : Option (PageTable.Rights × Frame)}
    (hmap : ∀ v, (f (m.process p).table).mapping? v =
      if u = v then x else (m.process p).table.mapping? v)
    (hdirty : ∀ v, (f (m.process p).table).isDirty v =
      if u = v then false else (m.process p).table.isDirty v) :
    (m.withTable p f).Shows (v.setMapping p u x) held where
  view := by rw [View.setMapping_own, view_setMapping hp hmap hdirty, h.view]
  fit := h.fit.congr rfl rfl rfl

theorem unmap (h : m.Shows v held) (p : ProcId) (u : Nat) :
    (m.withTable p (·.unmap u)).Shows (v.setMapping p u none) held where
  view := by rw [View.setMapping_own, view_unmap, h.view]
  fit := h.fit.congr rfl rfl rfl

/-- A change of a page table that keeps its mappings and dirty bits. -/
theorem withTable (h : m.Shows v held) {f : PageTable → PageTable}
    (hmap : ∀ u, (f (m.process p).table).mapping? u = (m.process p).table.mapping? u)
    (hdirty : ∀ u, (f (m.process p).table).isDirty u = (m.process p).table.isDirty u) :
    (m.withTable p f).Shows v held where
  view := by rw [view_withTable_of_keeps hmap hdirty, h.view]
  fit := h.fit.congr rfl rfl rfl

theorem setDeclared (h : m.Shows v held) (hp : p < m.processes.size)
    (f : Std.ExtTreeMap Nat PageId → Std.ExtTreeMap Nat PageId) :
    (m.withProcess p fun proc => { proc with declared := f proc.declared }).Shows
      (v.setDeclared p ((f (m.process p).declared)[·]?)) held where
  view := by rw [View.setDeclared_own, view_declared hp, h.view]
  fit := h.fit.congr rfl rfl rfl

/-- Which pages belong to a process cannot be read off a machine. -/
theorem setOwn (h : m.Shows v held) (own : ProcId → Nat → Option PageId) :
    m.Shows (v.setOwn own) held where
  view := by
    conv_rhs => rw [← h.view]
    rfl
  fit := h.fit

theorem setMappings (h : m.Shows v held) (hp : p < m.processes.size) (t : MapTable) :
    (m.withProcess p fun proc => { proc with mappings := t }).Shows (v.setMappings p t) held where
  view := by rw [View.setMappings_own, view_mappings hp, h.view]
  fit := h.fit.congr rfl rfl rfl

theorem setExited (h : m.Shows v held) (hp : p < m.processes.size) :
    (m.withProcess p fun proc => { proc with exited := true }).Shows (v.setExited p true) held where
  view := by rw [View.setExited_own, view_exited hp, h.view]
  fit := h.fit.congr rfl rfl rfl

theorem setFiles (h : m.Shows v held) (files : φ) :
    (m.withFiles files).Shows (v.setFiles files) held where
  view := by rw [View.setFiles_own]; conv_rhs => rw [← h.view]
             rfl
  fit := h.fit.congr rfl rfl rfl

theorem setTenants (h : m.Shows v held) {t : FrameTable}
    (hhand : t.hand < t.entries.length ∨ t.hand = 0) :
    (m.withFrames t).Shows (v.setTenants t.entries) held where
  view := by rw [View.setTenants_own]; conv_rhs => rw [← h.view]
             rfl
  fit := ⟨h.fit.sized, hhand, h.fit.pinned⟩

theorem lend (h : m.Shows v held) {a : Allocator} {r : Frame.Request} {f : Frame}
    (hl : m.pool.Lends r f a.pool) (hrefuses : a.refuses = m.allocator.refuses) :
    (m.withAllocator a).Shows
      (v.lend f.cell (if r.zeroed then .zero pageSize else m.pool.read f)) held where
  view := by rw [View.lend_own, view_lend hl hrefuses, h.view]
  fit := h.fit.congr rfl rfl rfl

theorem takeBack (h : m.Shows v held) {pool : Pool} {f : Frame} (ht : m.pool.TakesBack f pool) :
    (m.withPool pool).Shows (v.takeBack f.cell) held where
  view := by rw [View.takeBack_own, view_takeBack ht, h.view]
  fit := h.fit.congr rfl rfl rfl

theorem fill (h : m.Shows v held) {f : Frame} {b : PageBytes} (hc : v.cell f.cell = some b)
    (b' : PageBytes) : (m.withPool (m.pool.write f b')).Shows (v.fill f.cell b') held where
  view := by rw [View.fill_own, view_fill (h.lent_of_cell hc), h.view]
  fit := h.fit.congr rfl rfl rfl

/-! ### Swap space -/

theorem slots (h : m.Shows v held) : v.plant.slots = m.swap.slots := by rw [h.plant]; rfl

theorem disk (h : m.Shows v held) : v.plant.disk = m.devices.spec m.swap.device := by
  rw [h.plant]; rfl

theorem putBit (h : m.Shows v held) {s : Nat} (hs : s < v.plant.slots) (x : Bool) :
    (m.withSwap { m.swap with used := m.swap.used.putBit s x }).Shows
      (v.setSlot s (if x then some (Swap.image m.devices m.swap.device s) else none)) held where
  view := by rw [View.setSlot_own, view_putBit h.fit.sized (h.slots ▸ hs), h.view]
  fit := ⟨h.fit.sized.putBit s x, h.fit.hand, h.fit.pinned⟩

/-- A transfer that keeps what the slots hold. -/
theorem withDevices (h : m.Shows v held) {r : Registry}
    (hspec : r.spec m.swap.device = m.devices.spec m.swap.device)
    (himage : ∀ t, Swap.image r m.swap.device t = Swap.image m.devices m.swap.device t) :
    (m.withDevices r).Shows v held where
  view := by rw [view_withDevices hspec himage, h.view]
  fit := h.fit.congr rfl rfl rfl

theorem put (h : m.Shows v held) {r : Registry} {s : Nat} {b : PageBytes}
    (hspec : r.spec m.swap.device = m.devices.spec m.swap.device) (hused : m.swap.used.bit s = true)
    (himage : Swap.image r m.swap.device s = b)
    (hothers : ∀ t, m.swap.used.bit t = true → t ≠ s →
      Swap.image r m.swap.device t = Swap.image m.devices m.swap.device t) :
    (m.withDevices r).Shows (v.setSlot s (some b)) held where
  view := by rw [View.setSlot_own, view_withDevices_put hspec hused himage hothers, h.view]
  fit := h.fit.congr rfl rfl rfl

end Shows

end Machine

/-- The pool has frames, and no request for one is turned down while one is free. -/
def Plant.Open (plant : Plant) : Prop := 0 < plant.total ∧ ∀ n, plant.refuses n = false

/-- The swap device has all the sectors that it is registered with. -/
def Plant.Whole (plant : Plant) : Prop :=
  ∀ role size sectors, plant.disk = some (role, size, sectors) → size ≤ sectors

namespace Kernel

open Machine

variable {φ : Type} {m : Machine φ} {v : View φ} {held : Set PageId} {i : PageId} {p : ProcId}
  {u s : Nat} {f : Frame} {b : PageBytes}

/-! ### Pins -/

theorem ends_tryPin (h : m.Shows v held) (hi : i < v.next) {E : Stop → Machine φ → Prop} :
    Ends (tryPin i) m (fun done m' =>
      if done then m'.Shows v (insert i held) ∧ i ∉ held else m' = m ∧ i ∈ held) E := by
  simp only [tryPin, ends_bind, ends_page, ends_ite, ends_pure, ends_modifyPage]
  split
  · rename_i hpin
    exact ⟨trivial, (h.fit.pinned i).1 hpin⟩
  · rename_i hpin
    exact ⟨h.pin hi, fun hmem => hpin ((h.fit.pinned i).2 hmem)⟩

theorem ends_pin (h : m.Shows v held) (hi : i < v.next) (hfree : i ∉ held)
    {E : Stop → Machine φ → Prop} :
    Ends (pin i) m (fun _ m' => m'.Shows v (insert i held)) E := by
  rw [pin, ends_bind]
  refine (ends_tryPin h hi).returns ?_
  intro done m' hdone
  cases done with
  | false => exact absurd hdone.2 hfree
  | true => exact hdone.1

/-- Nobody releases a pin that is held. -/
theorem ends_pin_of_mem (h : m.Shows v held) (hi : i ∈ held) {Q : Unit → Machine φ → Prop}
    {E : Stop → Machine φ → Prop} (hE : E (.wait (v.page i).upage) m) : Ends (pin i) m Q E := by
  have hpin := (h.fit.pinned i).2 hi
  simp only [pin, tryPin, ends_bind, ends_page, ends_ite, ends_pure, hpin, if_true, Bool.not_false]
  rw [h.page] at hE
  exact hE

theorem ends_unpin (h : m.Shows v (insert i held)) (hi : i ∉ held) {E : Stop → Machine φ → Prop} :
    Ends (unpin i) m (fun _ m' => m'.Shows v held) E := by
  have hpin := (h.fit.pinned i).2 (Set.mem_insert i held)
  simp only [unpin, ends_bind, ends_page, ends_modifyPage, hpin, Bool.not_true, ends_ite]
  exact h.unpin hi

/-! ### Frames -/

/-- A gate lends a frame of its pool, or turns the request down, or the pool has none to lend. -/
theorem alloc_cases (a : Allocator) {r : Frame.Request} (hr : r.user = true) :
    (∃ f a', a.alloc r = (.ok f, a') ∧ a.pool.Lends r f a'.pool ∧ a'.refuses = a.refuses) ∨
    ∃ e a', a.alloc r = (.error e, a') ∧ a'.pool = a.pool ∧ a'.refuses = a.refuses ∧
      (a.refuses a.requests = true ∨ ∀ c < a.pool.total, a.pool.lent c = true) := by
  by_cases hrefuse : a.refuses a.requests = true
  · exact .inr ⟨.outOfFrames, { a with requests := a.requests + 1 },
      by rw [Allocator.alloc, if_pos hrefuse], rfl, rfl, .inl hrefuse⟩
  cases hp : a.pool.alloc r with
  | error e =>
    refine .inr ⟨e, { a with requests := a.requests + 1 },
      by simp only [Allocator.alloc, if_neg hrefuse, hp], rfl, rfl, .inr ?_⟩
    exact fun c hc => Pool.lent_of_alloc_error hp hr hc
  | ok x =>
    obtain ⟨f, pool⟩ := x
    exact .inl ⟨f, { a with requests := a.requests + 1, pool },
      by simp only [Allocator.alloc, if_neg hrefuse, hp], Pool.lends_of_alloc hp, rfl⟩

theorem ends_takeFrame (h : m.Shows v held) {r : Frame.Request} (hr : r.user = true)
    {E : Stop → Machine φ → Prop} :
    Ends (takeFrame r) m (fun result m' => match result with
      | .ok f => v.Free f ∧ ∃ b, (r.zeroed = true → b = .zero pageSize) ∧
          m'.Shows (v.lend f.cell b) held
      | .error _ => m'.Shows v held ∧
          (v.plant.Open → ∀ c < v.plant.total, (v.cell c).isSome = true)) E := by
  simp only [takeFrame, ends_bind, ends_modifyGet]
  rcases alloc_cases m.allocator hr with ⟨f, a, ha, hl, hrefuses⟩ | ⟨e, a, ha, hpool, hrefuses, hwhy⟩
  · simp only [ha, ends_bind, ends_get, ends_emit, ends_pure]
    refine ⟨⟨?_, ?_, ?_⟩, _, fun hz => ?_, (h.lend (a := a) hl hrefuses).report _⟩
    · rw [h.cell, Pool.contents?, if_neg (by rw [show m.pool.lent f.cell = false from hl.free]; simp)]
    · rw [h.plant]
      exact hl.cell_lt
    · rw [h.plant, hl.frame]
      rfl
    · rw [if_pos hz]
  · simp only [ha, ends_pure]
    refine ⟨⟨?_, h.fit.congr rfl rfl rfl⟩, fun hopen c hc => ?_⟩
    · conv_rhs => rw [← h.view]
      refine View.ext ?_ rfl rfl rfl rfl rfl rfl rfl ?_ ?_ rfl rfl rfl rfl
      · simp [Machine.view, Machine.plant, Machine.pool, hpool, hrefuses]
      · simp [Machine.view, Machine.pool, hpool]
      · simp [Machine.view, Machine.pool, hpool]
    · rw [h.plant] at hc hopen
      rcases hwhy with hwhy | hfull
      · exact absurd hwhy (by rw [show m.allocator.refuses _ = false from hopen.2 _]; simp)
      · have hl : m.pool.lent c = true := hfull c hc
        rw [h.cell, Pool.contents?, if_pos hl]
        rfl

theorem ends_returnFrame (h : m.Shows v held) (hc : v.cell f.cell = some b)
    (hpfn : f.pfn = v.plant.firstPfn + f.cell) {E : Stop → Machine φ → Prop} :
    Ends (returnFrame f) m (fun _ m' => m'.Shows (v.takeBack f.cell) held) E := by
  have hf : f = m.pool.frameAt f.cell := by
    rw [h.plant] at hpfn
    cases f
    simp only [Pool.frameAt, Frame.mk.injEq, and_true]
    exact hpfn
  obtain ⟨pool, hd, ht⟩ := Pool.exists_dealloc hf (h.lent_of_cell hc)
  simp only [returnFrame, ends_bind, ends_get, hd, ends_modify, ends_emit]
  exact (h.takeBack ht).report _

theorem ends_writeFrame (h : m.Shows v held) (hc : v.cell f.cell = some b) (b' : PageBytes)
    {E : Stop → Machine φ → Prop} :
    Ends (writeFrame f b') m (fun _ m' => m'.Shows (v.fill f.cell b') held) E := h.fill hc b'

/-! ### Page tables -/

theorem ends_mapPage (h : m.Shows v held) (hp : v.exited p = false) (hu : isAligned u = true)
    (w : Bool) {E : Stop → Machine φ → Prop}
    (hE : PageTable.Entry.pfnLimit ≤ f.pfn → E (.halt (.table .wideFrame)) m) :
    Ends (mapPage p u f w) m (fun done m' =>
      if done then m'.Shows (v.setMapping p u (some (.forUser f w, f))) held else m' = m) E := by
  simp only [mapPage, ends_bind, ends_process]
  rcases PageTable.map_cases (t := (m.process p).table) (f := f) (w := w) hu with
    ⟨ht, hwide⟩ | ⟨ht, -⟩ | ⟨t, ht, -, -, hmap, hdirty, -⟩
  · simp only [ht, ends_halt]
    exact hE hwide
  · simp only [ht, ends_pure]
    trivial
  · simp only [ht, ends_bind, ends_modifyTable, ends_pure]
    exact h.setMapping (h.lt_of_live hp) hmap hdirty

theorem ends_unmapPage (h : m.Shows v held) (p : ProcId) (u : Nat) {E : Stop → Machine φ → Prop} :
    Ends (unmapPage p u) m (fun dirty m' =>
      dirty = v.dirty p u ∧ m'.Shows (v.setMapping p u none) held) E :=
  ⟨(h.dirty p u).symm, h.unmap p u⟩

/-! ### Swap space -/

/-- The sectors of a slot lie on the device. -/
theorem slot_le {slots size : Nat} (h : slots = size / sectorsPerPage) (hs : s < slots) :
    (s + 1) * sectorsPerPage ≤ size := by
  have hpos : 0 < sectorsPerPage := by decide
  rw [h] at hs
  exact (Nat.le_div_iff_mul_le hpos).1 hs

theorem ends_allocateSlot (h : m.Shows v held) {E : Stop → Machine φ → Prop}
    (hfull : (∀ s < v.plant.slots, (v.slot s).isSome = true) →
      E (.halt (.swap (.full v.plant.slots))) m) :
    Ends allocateSlot m (fun s m' => s < v.plant.slots ∧ v.slot s = none ∧
      m'.swap.used.bit s = true ∧ ∃ x, m'.Shows (v.setSlot s (some x)) held) E := by
  simp only [allocateSlot, ends_bind, ends_get, Swap.allocate]
  cases ha : m.swap.used.acquire with
  | none =>
    simp only [ends_halt]
    rw [← h.slots]
    refine hfull fun s hs => h.slot_of_bit ?_
    exact Bitmap.acquire_eq_none h.fit.sized ha s (Nat.lt_of_lt_of_eq hs h.slots)
  | some x =>
    obtain ⟨s, used⟩ := x
    obtain ⟨hlt, hclear, -, rfl⟩ := Bitmap.acquire_eq_some ha
    have hs : s < v.plant.slots := h.slots ▸ hlt
    simp only [ends_bind, ends_modify, ends_pure]
    refine ⟨hs, ?_, ?_, _, h.putBit hs true⟩
    · rw [h.slot, Swap.contents?, if_neg (by rw [hclear]; simp)]
    · show (m.swap.used.putBit s true).bit s = true
      rw [h.fit.sized.bit_putBit hlt, if_pos rfl]

theorem ends_swapOut (h : m.Shows v held) (hwired : v.plant.Wired) (hswapped : v.Swapped)
    (hc : v.cell f.cell = some b) {E : Stop → Machine φ → Prop}
    (hfull : (∀ s < v.plant.slots, (v.slot s).isSome = true) →
      E (.halt (.swap (.full v.plant.slots))) m)
    (hrefuse : ¬ v.plant.Whole → ∀ s e m', m'.Resembles v → E (.halt (.swap (.writeRefused s e))) m') :
    Ends (swapOut f) m (fun s m' => s < v.plant.slots ∧ v.slot s = none ∧
      m'.Shows (v.setSlot s (some b)) held) E := by
  obtain ⟨size, sectors, hdisk, hslots, hlimit⟩ := hwired
  rw [swapOut, ends_bind]
  refine (ends_allocateSlot h hfull).returns ?_
  rintro s m₁ ⟨hs, hfree, hbit, x, h₁⟩
  have hread : m₁.pool.read f = b := h₁.read_of_cell hc
  have hspec : m₁.devices.spec m₁.swap.device = some (.swap, size, sectors) := by
    rw [← h₁.disk]
    exact hdisk
  have hle := slot_le hslots hs
  simp only [readFrame, transfer, ends_bind, ends_get, ends_pure, ends_modifyGet, hread]
  cases hput : m₁.swap.put m₁.devices s b with
  | mk r result =>
    cases result with
    | error e =>
      simp only [ends_halt]
      have hwhole : ¬ v.plant.Whole := by
        intro hwhole
        have hok := Swap.exists_put hspec (by decide) hle hlimit (hwhole _ _ _ hdisk) b
        simp [hput] at hok
      have he : ∃ e', e = .writeRefused s e' := by
        have he := congrArg Prod.snd hput
        simp only [Swap.put] at he
        cases hw : (Swap.writeSectors m₁.swap.device s b (List.range sectorsPerPage) m₁.devices).2 with
        | ok _ => simp [hw, Except.mapError] at he
        | error e' => exact ⟨e', by simpa [hw, Except.mapError, eq_comm] using he⟩
      obtain ⟨e', rfl⟩ := he
      exact hrefuse hwhole s e' _ ⟨h₁.resembles.files, h₁.resembles.frame, h₁.resembles.declared⟩
    | ok _ =>
      obtain ⟨himage, hothers, hspec'⟩ := Swap.put_spec hput (Nat.le_trans hle hlimit)
      simp only [ends_pure, ends_emit]
      refine ⟨hs, hfree, ?_⟩
      have h₂ := (h₁.put hspec' hbit himage fun t ht hne => ?_).report (.swappedOut f s)
      · rwa [show (v.setSlot s (some x)).setSlot s (some b) = v.setSlot s (some b) by
          simp [View.setSlot]] at h₂
      · -- another used slot lies on the device as well
        refine hothers t ?_ hne
        have ht' := h₁.slot_of_bit ht
        rw [View.setSlot_slot, Function.update_of_ne hne] at ht'
        exact Nat.le_trans (slot_le hslots (hswapped.lt t ht')) hlimit

theorem demandUsed_eq_ok {swap : Swap} (hlt : s < swap.slots) (hbit : swap.used.bit s = true)
    (e : Swap.Misuse) : swap.demandUsed s e = .ok () := by
  rw [Swap.demandUsed, Bitmap.test, if_pos (show s < swap.used.len from hlt)]
  simp only [hbit, if_true]

theorem ends_releaseSlot (h : m.Shows v held) (hs : v.slot s = some b) (hlt : s < v.plant.slots)
    {E : Stop → Machine φ → Prop} :
    Ends (releaseSlot s) m (fun _ m' => m'.Shows (v.setSlot s none) held) E := by
  have hlt' : s < m.swap.slots := h.slots ▸ hlt
  have hrelease : m.swap.release s = .ok { m.swap with used := m.swap.used.putBit s false } := by
    simp only [Swap.release, demandUsed_eq_ok hlt' (h.bit_of_slot hs).1, bind, Except.bind, Bitmap.set,
      if_pos (show s < m.swap.used.len from hlt')]
    rfl
  simp only [releaseSlot, ends_bind, ends_get, hrelease, ends_modify]
  exact h.putBit hlt false

theorem ends_loadSlot (h : m.Shows v held) (hwired : v.plant.Wired) (hs : v.slot s = some b)
    (hlt : s < v.plant.slots) {b₀ : PageBytes} (hc : v.cell f.cell = some b₀)
    {E : Stop → Machine φ → Prop}
    (hrefuse : ¬ v.plant.Whole → ∀ e m', m'.Resembles v → E (.halt (.swap (.readRefused s e))) m') :
    Ends (loadSlot s f) m (fun _ m' => m'.Shows ((v.fill f.cell b).setSlot s none) held) E := by
  obtain ⟨size, sectors, hdisk, hslots, hlimit⟩ := hwired
  obtain ⟨hbit, himage⟩ := h.bit_of_slot hs
  have hspec : m.devices.spec m.swap.device = some (.swap, size, sectors) := h.disk ▸ hdisk
  have hload : m.swap.load m.devices s = m.swap.fetch m.devices s := by
    rw [Swap.load, demandUsed_eq_ok (h.slots ▸ hlt) hbit]
  simp only [loadSlot, transfer, ends_bind, ends_modifyGet, hload]
  cases hfetch : m.swap.fetch m.devices s with
  | mk r result =>
    cases result with
    | error e =>
      simp only [ends_halt]
      have hwhole : ¬ v.plant.Whole := by
        intro hwhole
        obtain ⟨page, hok⟩ := Swap.exists_fetch hspec (slot_le hslots hlt) hlimit (hwhole _ _ _ hdisk)
        simp [hfetch] at hok
      have he : ∃ e', e = .readRefused s e' := by
        have he := congrArg Prod.snd hfetch
        simp only [Swap.fetch] at he
        cases hr : (Swap.readSectors m.swap.device s (List.range sectorsPerPage) m.devices).2 with
        | ok _ => simp [hr, Except.mapError, Except.map] at he
        | error e' => exact ⟨e', by simpa [hr, Except.mapError, Except.map, eq_comm] using he⟩
      obtain ⟨e', rfl⟩ := he
      exact hrefuse hwhole e' _ ⟨h.resembles.files, h.resembles.frame, h.resembles.declared⟩
    | ok page =>
      obtain ⟨rfl, hsame, hspec'⟩ := Swap.fetch_spec hfetch
      simp only [ends_pure, himage]
      refine (ends_writeFrame (h.withDevices hspec' hsame) hc b).returns ?_
      intro _ m₁ h₁
      refine (ends_releaseSlot h₁ hs hlt).returns ?_
      intro _ m₂ h₂
      exact h₂.report _

/-! ### Files -/

section

variable [FileSystem φ]

theorem ends_fileLength (h : m.Shows v held) (file : Handle) {E : Stop → Machine φ → Prop} :
    Ends (fileLength file) m (fun n m' => n = (FileSystem.length v.files file).1 ∧
      m'.Shows (v.setFiles (FileSystem.length v.files file).2) held) E := by
  rw [h.files]
  exact ⟨rfl, h.setFiles _⟩

theorem ends_reopenFile (h : m.Shows v held) (file : Handle) {E : Stop → Machine φ → Prop} :
    Ends (reopenFile file) m (fun handle m' => handle = (FileSystem.reopen v.files file).1 ∧
      m'.Shows (v.setFiles (FileSystem.reopen v.files file).2) held) E := by
  rw [h.files]
  exact ⟨rfl, h.setFiles _⟩

theorem ends_closeFile (h : m.Shows v held) (file : Handle) {E : Stop → Machine φ → Prop} :
    Ends (closeFile file) m (fun _ m' =>
      m'.Shows (v.setFiles (FileSystem.close v.files file)) held) E := by
  rw [h.files]
  exact h.setFiles _

theorem ends_readRegion (h : m.Shows v held) {r : Region} (hr : r.readLen ≤ pageSize)
    {E : Stop → Machine φ → Prop} :
    Ends (readRegion r) m (fun reading m' =>
      reading = (FileSystem.readAt v.files r.file r.offset r.readLen).1 ∧
        m'.Shows (v.setFiles (FileSystem.readAt v.files r.file r.offset r.readLen).2) held) E := by
  simp only [readRegion, demandFits, ends_bind, if_neg (Nat.not_lt.2 hr), ends_pure,
    ends_modifyGet, h.files]
  exact ⟨trivial, h.setFiles _⟩

theorem ends_writeRegion (h : m.Shows v held) {r : Region} (hr : r.readLen ≤ pageSize)
    (hc : v.cell f.cell = some b) {E : Stop → Machine φ → Prop} :
    Ends (writeRegion r f) m (fun _ m' => m'.Shows (v.writeBack r b) held) E := by
  simp only [writeRegion, demandFits, ends_bind, if_neg (Nat.not_lt.2 hr), ends_pure,
    ends_modifyGet, View.writeBack, h.files]
  rw [show m.pool.read f = b from h.read_of_cell hc]
  exact h.setFiles _

end

end Kernel

end DemandPaging
