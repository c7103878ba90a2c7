import DemandPaging.Proofs.PageTable
import DemandPaging.Proofs.Pool
import DemandPaging.Proofs.Program
import DemandPaging.Proofs.SwapImage
import Mathlib.Data.Multiset.AddSub
import Mathlib.Logic.Function.Basic
import Mathlib.Tactic.Simps.Basic

/-!
# What can be seen of a machine

Paging is about which page is where and what it holds. A `View` of a machine says that and no more:
it leaves out the order of the frame table and the clock's hand, accessed bits, the cursor of the
pool, pins, bytes of free frames and of unused slots, and the log. Every update of a machine that a
program makes is an update of the view, or none at all.

A page may still have to be taken out of memory when its process has forgotten it already. So the
view says separately which pages a process has declared and which are still its `own`; the latter
cannot be read off the machine.
-/

namespace DemandPaging

/-- What stays as it is while a machine runs. -/
structure Plant where
  /-- The number of the first frame of the pool. -/
  firstPfn : Nat
  /-- How many frames the pool has. -/
  total : Nat
  /-- The requests for a frame that are turned down. -/
  refuses : Nat → Bool
  /-- The number of the swap device. -/
  device : Nat
  /-- How many slots it has. -/
  slots : Nat
  /-- Its role, registered size and number of sectors. -/
  disk : Option (Role × Nat × Nat)

/-- What can be seen of a machine. -/
@[ext] structure View (φ : Type) where
  plant : Plant
  /-- The pages that belong to a process, by address. -/
  own : ProcId → Nat → Option PageId
  /-- The pages that a process has declared, by address. -/
  declared : ProcId → Nat → Option PageId
  /-- The pages, pins aside. -/
  page : PageId → Page
  next : PageId
  mapping? : ProcId → Nat → Option (PageTable.Rights × Frame)
  dirty : ProcId → Nat → Bool
  /-- The entries of the frame table. -/
  tenants : Multiset Tenancy
  inUse : Nat
  /-- The contents of the lent frames, by cell. -/
  cell : Nat → Option PageBytes
  /-- The contents of the used slots. -/
  slot : Nat → Option PageBytes
  files : φ
  mappings : ProcId → MapTable
  exited : ProcId → Bool

/-- The page, its pin aside. -/
def Page.face (p : Page) : Page := { p with pinned := false }

@[simp] theorem Page.upage_face (p : Page) : p.face.upage = p.upage := rfl
@[simp] theorem Page.writable_face (p : Page) : p.face.writable = p.writable := rfl
@[simp] theorem Page.backing_face (p : Page) : p.face.backing = p.backing := rfl
@[simp] theorem Page.frame_face (p : Page) : p.face.frame = p.frame := rfl
@[simp] theorem Page.slot_face (p : Page) : p.face.slot = p.slot := rfl
@[simp] theorem Page.anonymous_face (p : Page) : p.face.anonymous = p.anonymous := rfl

/-- The pin of a page is all that its face leaves out. -/
theorem Page.eq_of_face {p p' : Page} (hface : p'.face = p.face) (hpin : p'.pinned = p.pinned) : p' = p := by
  cases p
  cases p'
  simp_all [Page.face]

namespace Machine

variable {φ : Type}

/-- The page of process `p` that is declared at `u`. -/
def declaredAt (m : Machine φ) (p : ProcId) (u : Nat) : Option PageId := (m.process p).declared[u]?

def plant (m : Machine φ) : Plant where
  firstPfn := m.pool.firstPfn
  total := m.pool.total
  refuses := m.allocator.refuses
  device := m.swap.device
  slots := m.swap.slots
  disk := m.devices.spec m.swap.device

/-- What can be seen of the machine, when `own` says which pages belong to which process. -/
def view (m : Machine φ) (own : ProcId → Nat → Option PageId) : View φ where
  plant := m.plant
  own := own
  declared := m.declaredAt
  page i := (m.page i).face
  next := m.pages.next
  mapping? p u := (m.process p).table.mapping? u
  dirty p u := (m.process p).table.isDirty u
  tenants := m.frames.entries
  inUse := m.pool.inUse
  cell := m.pool.contents?
  slot := m.swap.contents? m.devices
  files := m.files
  mappings p := (m.process p).mappings
  exited p := (m.process p).exited

/-- What can be seen of the machine between operations, when the declared pages are the pages of
each process. -/
def scene (m : Machine φ) : View φ := m.view m.declaredAt

end Machine

/-- The function with another value at process `p` and address `u`. -/
def setAt {α : Type} (g : ProcId → Nat → α) (p : ProcId) (u : Nat) (x : α) : ProcId → Nat → α :=
  Function.update g p (Function.update (g p) u x)

theorem setAt_apply {α : Type} (g : ProcId → Nat → α) (p q : ProcId) (u w : Nat) (x : α) :
    setAt g p u x q w = if q = p ∧ w = u then x else g q w := by
  simp only [setAt, Function.update_apply]
  rcases eq_or_ne q p with hq | hq
  · simp [hq, Function.update_apply]
  · simp [hq]

@[simp] theorem setAt_self {α : Type} (g : ProcId → Nat → α) (p : ProcId) (u : Nat) (x : α) :
    setAt g p u x p u = x := by simp [setAt_apply]

theorem setAt_of_ne {α : Type} (g : ProcId → Nat → α) {p q : ProcId} {u w : Nat} (x : α)
    (h : ¬ (q = p ∧ w = u)) : setAt g p u x q w = g q w := by rw [setAt_apply, if_neg h]

/-! ### Updates of a view -/

namespace View

variable {φ : Type}

/-- The view with page `i` being `pg`. -/
@[simps -fullyApplied] def setPage (v : View φ) (i : PageId) (pg : Page) : View φ :=
  { v with page := Function.update v.page i pg }

/-- The view with one more page. -/
@[simps -fullyApplied] def addPage (v : View φ) (pg : Page) : View φ :=
  { v with page := Function.update v.page v.next pg, next := v.next + 1 }

/-- The view with address `u` of process `p` mapped as `x` says and not written to. -/
@[simps -fullyApplied] def setMapping (v : View φ) (p : ProcId) (u : Nat) (x : Option (PageTable.Rights × Frame)) :
    View φ :=
  { v with mapping? := setAt v.mapping? p u x, dirty := setAt v.dirty p u false }

/-- The view with other pages belonging to the processes. -/
@[simps -fullyApplied] def setOwn (v : View φ) (own : ProcId → Nat → Option PageId) : View φ := { v with own }

/-- The view with process `p` having declared the pages that `d` names. -/
@[simps -fullyApplied] def setDeclared (v : View φ) (p : ProcId) (d : Nat → Option PageId) : View φ :=
  { v with declared := Function.update v.declared p d }

@[simps -fullyApplied] def setMappings (v : View φ) (p : ProcId) (t : MapTable) : View φ :=
  { v with mappings := Function.update v.mappings p t }

/-- To put the table in place that is there already is to change nothing. -/
theorem setMappings_self {v : View φ} {p : ProcId} {t : MapTable} (h : v.mappings p = t) :
    v.setMappings p t = v := by
  rw [← h, setMappings, Function.update_eq_self]

@[simps -fullyApplied] def setExited (v : View φ) (p : ProcId) (b : Bool) : View φ :=
  { v with exited := Function.update v.exited p b }

@[simps -fullyApplied] def setTenants (v : View φ) (t : Multiset Tenancy) : View φ := { v with tenants := t }

/-- The view with the frame in cell `c` lent, holding `b`. -/
@[simps -fullyApplied] def lend (v : View φ) (c : Nat) (b : PageBytes) : View φ :=
  { v with inUse := v.inUse + 1, cell := Function.update v.cell c (some b) }

/-- The view with the frame in cell `c` returned. -/
@[simps -fullyApplied] def takeBack (v : View φ) (c : Nat) : View φ :=
  { v with inUse := v.inUse - 1, cell := Function.update v.cell c none }

/-- The view with the lent frame in cell `c` holding `b`. -/
@[simps -fullyApplied] def fill (v : View φ) (c : Nat) (b : PageBytes) : View φ :=
  { v with cell := Function.update v.cell c (some b) }

/-- The view with slot `s` holding `x`, or unused. -/
@[simps -fullyApplied] def setSlot (v : View φ) (s : Nat) (x : Option PageBytes) : View φ :=
  { v with slot := Function.update v.slot s x }

@[simps -fullyApplied] def setFiles (v : View φ) (files : φ) : View φ := { v with files }

end View

namespace Machine

variable {φ : Type} {m : Machine φ} {own : ProcId → Nat → Option PageId} {p : ProcId} {i : PageId}

/-! ### Pages -/

theorem page_withPage (m : Machine φ) (i j : PageId) (f : Page → Page) :
    (m.withPage i f).page j = if i = j ∧ j < m.pages.next then f (m.page j) else m.page j := by
  simp only [page, withPage, PageStore.get, PageStore.modify, PageStore.next,
    Array.getD_eq_getD_getElem?, Array.getElem?_modify]
  rcases eq_or_ne i j with hij | hij
  · by_cases hj : j < m.pages.pages.size
    · simp [hij, hj]
    · simp [hij, hj]
  · simp [hij]

/-- Two changes of a page that cancel each other. -/
theorem withPage_withPage (m : Machine φ) {f g : Page → Page} (h : g (f (m.page i)) = m.page i) :
    (m.withPage i f).withPage i g = m := by
  have hpages : (m.pages.modify i f).modify i g = m.pages := by
    simp only [PageStore.modify]
    congr 1
    refine Array.ext_getElem? ?_
    intro j
    rw [Array.getElem?_modify]
    split
    · rename_i hij
      subst hij
      rw [Array.getElem?_modify, if_pos rfl]
      cases hj : m.pages.pages[i]? with
      | none => rfl
      | some pg =>
        have hpage : m.page i = pg := by
          simp [page, PageStore.get, Array.getD_eq_getD_getElem?, hj]
        rw [hpage] at h
        simp [h]
    · rename_i hij
      rw [Array.getElem?_modify, if_neg hij]
  simp only [withPage, hpages]

/-- A change of a page that leaves all but the pin as it is cannot be seen. -/
theorem view_withPage_of_face {f : Page → Page} (hf : ∀ pg, (f pg).face = pg.face) (i : PageId) :
    (m.withPage i f).view own = m.view own := by
  refine View.ext rfl rfl rfl (funext fun j => ?_) (by simp [view]) rfl rfl rfl rfl rfl rfl rfl rfl rfl
  simp only [view, page_withPage]
  split <;> simp [hf]

theorem view_withPage (hi : i < m.pages.next) (f : Page → Page) :
    (m.withPage i f).view own = (m.view own).setPage i (f (m.page i)).face := by
  refine View.ext rfl rfl rfl (funext fun j => ?_) (by simp [view]) rfl rfl rfl rfl rfl rfl rfl rfl rfl
  simp only [view, page_withPage, View.setPage_page, Function.update_apply]
  rcases eq_or_ne j i with hj | hj
  · simp [hj, hi]
  · simp [hj, Ne.symm hj]

theorem view_addPage (pg : Page) :
    view { m with pages := m.pages.add pg } own = (m.view own).addPage pg.face := by
  refine View.ext rfl rfl rfl (funext fun j => ?_) (by simp [view]) rfl rfl rfl rfl rfl rfl rfl rfl rfl
  simp only [view, page, PageStore.get_add, View.addPage_page, Function.update_apply]
  split <;> rfl

/-! ### Processes -/

theorem process_withProcess (m : Machine φ) (p q : ProcId) (f : Process → Process) :
    (m.withProcess p f).process q =
      if p = q ∧ q < m.processes.size then f (m.process q) else m.process q := by
  simp only [process, withProcess, Array.getD_eq_getD_getElem?, Array.getElem?_modify]
  rcases eq_or_ne p q with hpq | hpq
  · by_cases hq : q < m.processes.size
    · simp [hpq, hq]
    · simp [hpq, hq]
  · simp [hpq]

/-- A process that has not exited has been started. -/
theorem lt_of_live (h : (m.process p).exited = false) : p < m.processes.size := by
  by_contra hp
  have habsent : m.process p = .absent := by simp [process, hp]
  simp [habsent, Process.absent] at h

theorem process_of_le (h : m.processes.size ≤ p) : m.process p = .absent := by
  simp [process, Nat.not_lt.2 h]

/-- A change of a process that leaves it as it is. -/
theorem withProcess_self {f : Process → Process} (h : f (m.process p) = m.process p) :
    m.withProcess p f = m := by
  have harray : m.processes.modify p f = m.processes := by
    refine Array.ext_getElem? ?_
    intro q
    rw [Array.getElem?_modify]
    split
    · rename_i hq
      subst hq
      cases hproc : m.processes[p]? with
      | none => rfl
      | some proc =>
        have hprocess : m.process p = proc := by simp [process, hproc]
        rw [hprocess] at h
        rw [Option.map_some, h]
    · rfl
  rw [withProcess, harray]

theorem withProcess_of_le (hp : m.processes.size ≤ p) (f : Process → Process) :
    m.withProcess p f = m := by
  have harray : m.processes.modify p f = m.processes := by
    refine Array.ext_getElem? ?_
    intro q
    rw [Array.getElem?_modify]
    split
    · rename_i h
      simp [← h, hp]
    · rfl
  rw [withProcess, harray]

/-- A change of a process is seen in its part of the view. -/
theorem view_withProcess (hp : p < m.processes.size) (f : Process → Process) :
    (m.withProcess p f).view own =
      { plant := m.plant, own, page := (m.view own).page, next := m.pages.next
        declared := Function.update m.declaredAt p ((f (m.process p)).declared[·]?)
        mapping? := Function.update (m.view own).mapping? p (f (m.process p)).table.mapping?
        dirty := Function.update (m.view own).dirty p (f (m.process p)).table.isDirty
        tenants := m.frames.entries, inUse := m.pool.inUse
        cell := (m.view own).cell, slot := (m.view own).slot, files := m.files
        mappings := Function.update (m.view own).mappings p (f (m.process p)).mappings
        exited := Function.update (m.view own).exited p (f (m.process p)).exited } := by
  refine View.ext rfl rfl (funext fun q => funext fun u => ?_) rfl rfl (funext fun q => ?_)
    (funext fun q => ?_) rfl rfl rfl rfl rfl (funext fun q => ?_) (funext fun q => ?_)
  all_goals
    rcases eq_or_ne q p with rfl | hq
    · simp only [view, declaredAt, process_withProcess, hp, and_self, if_true, Function.update_self]
    · simp [view, declaredAt, process_withProcess, hq, Ne.symm hq]

theorem view_declared (hp : p < m.processes.size)
    (f : Std.ExtTreeMap Nat PageId → Std.ExtTreeMap Nat PageId) :
    (m.withProcess p fun proc => { proc with declared := f proc.declared }).view own =
      (m.view own).setDeclared p ((f (m.process p).declared)[·]?) := by
  rw [view_withProcess hp]
  exact View.ext rfl rfl rfl rfl rfl (Function.update_eq_self _ _) (Function.update_eq_self _ _) rfl
    rfl rfl rfl rfl (Function.update_eq_self _ _) (Function.update_eq_self _ _)

theorem view_mappings (hp : p < m.processes.size) (t : MapTable) :
    (m.withProcess p fun proc => { proc with mappings := t }).view own =
      (m.view own).setMappings p t := by
  rw [view_withProcess hp]
  exact View.ext rfl rfl (Function.update_eq_self _ _) rfl rfl (Function.update_eq_self _ _)
    (Function.update_eq_self _ _) rfl rfl rfl rfl rfl rfl (Function.update_eq_self _ _)

theorem view_exited (hp : p < m.processes.size) :
    (m.withProcess p fun proc => { proc with exited := true }).view own =
      (m.view own).setExited p true := by
  rw [view_withProcess hp]
  exact View.ext rfl rfl (Function.update_eq_self _ _) rfl rfl (Function.update_eq_self _ _)
    (Function.update_eq_self _ _) rfl rfl rfl rfl rfl (Function.update_eq_self _ _) rfl

theorem view_withTable (hp : p < m.processes.size) (f : PageTable → PageTable) :
    (m.withTable p f).view own = { m.view own with
      mapping? := Function.update (m.view own).mapping? p (f (m.process p).table).mapping?
      dirty := Function.update (m.view own).dirty p (f (m.process p).table).isDirty } := by
  rw [withTable, view_withProcess hp]
  exact View.ext rfl rfl (Function.update_eq_self _ _) rfl rfl rfl rfl rfl rfl rfl rfl rfl
    (Function.update_eq_self _ _) (Function.update_eq_self _ _)

/-- A change of a page table that keeps its mappings and dirty bits cannot be seen. -/
theorem view_withTable_of_keeps {f : PageTable → PageTable}
    (hmap : ∀ u, (f (m.process p).table).mapping? u = (m.process p).table.mapping? u)
    (hdirty : ∀ u, (f (m.process p).table).isDirty u = (m.process p).table.isDirty u) :
    (m.withTable p f).view own = m.view own := by
  by_cases hp : p < m.processes.size
  · rw [view_withTable hp, funext hmap, funext hdirty]
    exact View.ext rfl rfl rfl rfl rfl (Function.update_eq_self _ _) (Function.update_eq_self _ _)
      rfl rfl rfl rfl rfl rfl rfl
  · rw [withTable, withProcess_of_le (Nat.le_of_not_lt hp)]

theorem view_setMapping (hp : p < m.processes.size) {f : PageTable → PageTable} {u : Nat}
    {x : Option (PageTable.Rights × Frame)}
    (hmap : ∀ v, (f (m.process p).table).mapping? v =
      if u = v then x else (m.process p).table.mapping? v)
    (hdirty : ∀ v, (f (m.process p).table).isDirty v =
      if u = v then false else (m.process p).table.isDirty v) :
    (m.withTable p f).view own = (m.view own).setMapping p u x := by
  have hmap' : (f (m.process p).table).mapping? =
      Function.update (m.process p).table.mapping? u x :=
    funext fun v => by rw [hmap, Function.update_apply]; simp only [eq_comm]
  have hdirty' : (f (m.process p).table).isDirty =
      Function.update (m.process p).table.isDirty u false :=
    funext fun v => by rw [hdirty, Function.update_apply]; simp only [eq_comm]
  rw [view_withTable hp, hmap', hdirty']
  rfl

theorem view_unmap (u : Nat) :
    (m.withTable p (·.unmap u)).view own = (m.view own).setMapping p u none := by
  by_cases hp : p < m.processes.size
  · exact view_setMapping hp (PageTable.mapping?_unmap _ u) (PageTable.isDirty_unmap _ u)
  · -- a process that was never started maps nothing
    have hnone := process_of_le (Nat.le_of_not_lt hp)
    rw [withTable, withProcess_of_le (Nat.le_of_not_lt hp)]
    refine View.ext rfl rfl rfl rfl rfl (funext fun q => funext fun w => ?_)
      (funext fun q => funext fun w => ?_) rfl rfl rfl rfl rfl rfl rfl
    all_goals
      simp only [View.setMapping, setAt_apply]
      split
      · rename_i h
        simp [view, h.1, hnone, Process.absent, Process.fresh]
      · rfl

theorem process_spawn (m : Machine φ) (pid : UInt16) (limit : Option Nat) (q : ProcId) :
    process { m with processes := m.processes.push (.fresh pid limit) } q =
      if q = m.processes.size then .fresh pid limit else m.process q := by
  simp only [process, Array.getD_eq_getD_getElem?, Array.getElem?_push]
  split <;> rfl

/-- All that is seen of a process that starts is that it is there. -/
theorem view_spawn (pid : UInt16) (limit : Option Nat) :
    view { m with processes := m.processes.push (.fresh pid limit) } own =
      (m.view own).setExited m.processes.size false := by
  have habsent := process_of_le (Nat.le_refl m.processes.size)
  refine View.ext rfl rfl (funext fun q => funext fun u => ?_) rfl rfl (funext fun q => funext fun u => ?_)
    (funext fun q => funext fun u => ?_) rfl rfl rfl rfl rfl (funext fun q => ?_) (funext fun q => ?_)
  all_goals simp only [view, declaredAt, process_spawn, View.setExited, Function.update_apply]
  all_goals by_cases hq : q = m.processes.size
  all_goals first
    | (subst hq; simp [habsent, Process.absent, Process.fresh])
    | simp [hq]

/-! ### Memory -/

/-- A request that is granted. -/
theorem view_lend {a : Allocator} {r : Frame.Request} {f : Frame} (h : m.pool.Lends r f a.pool)
    (hrefuses : a.refuses = m.allocator.refuses) :
    (m.withAllocator a).view own =
      (m.view own).lend f.cell (if r.zeroed then .zero pageSize else m.pool.read f) := by
  refine View.ext ?_ rfl rfl rfl rfl rfl rfl rfl h.inUse h.contents? rfl rfl rfl rfl
  simp [view, plant, pool, h.firstPfn, h.total, hrefuses]

/-- A return. -/
theorem view_takeBack {pool : Pool} {f : Frame} (h : m.pool.TakesBack f pool) :
    (m.withPool pool).view own = (m.view own).takeBack f.cell := by
  refine View.ext ?_ rfl rfl rfl rfl rfl rfl rfl h.inUse h.contents? rfl rfl rfl rfl
  simp [view, plant, withPool, Machine.pool, h.firstPfn, h.total]

theorem view_fill {f : Frame} (hf : m.pool.lent f.cell = true) (b : PageBytes) :
    (m.withPool (m.pool.write f b)).view own = (m.view own).fill f.cell b := by
  refine View.ext ?_ rfl rfl rfl rfl rfl rfl rfl rfl (Pool.contents?_write hf b) rfl rfl rfl rfl
  simp only [view, plant, withPool, Machine.pool, withAllocator, View.fill, Pool.total_write]
  rfl

/-! ### Swap space -/

/-- A slot that is taken holds what its sectors hold; one that is given back is unused. -/
theorem view_putBit (hsized : m.swap.used.Sized) {s : Nat} (hs : s < m.swap.slots) (v : Bool) :
    (m.withSwap { m.swap with used := m.swap.used.putBit s v }).view own =
      (m.view own).setSlot s (if v then some (Swap.image m.devices m.swap.device s) else none) :=
  View.ext rfl rfl rfl rfl rfl rfl rfl rfl rfl rfl (Swap.contents?_putBit hsized hs v) rfl rfl rfl

/-- A transfer that keeps what the used slots hold cannot be seen. -/
theorem view_withDevices {r : Registry} (hspec : r.spec m.swap.device = m.devices.spec m.swap.device)
    (himage : ∀ t, Swap.image r m.swap.device t = Swap.image m.devices m.swap.device t) :
    (m.withDevices r).view own = m.view own := by
  refine View.ext ?_ rfl rfl rfl rfl rfl rfl rfl rfl rfl (Swap.contents?_congr himage) rfl rfl rfl
  simp [view, plant, pool, hspec]

/-- A page that is put into a used slot is what the slot holds. -/
theorem view_withDevices_put {r : Registry} {s : Nat} {b : PageBytes}
    (hspec : r.spec m.swap.device = m.devices.spec m.swap.device) (hused : m.swap.used.bit s = true)
    (himage : Swap.image r m.swap.device s = b)
    (hothers : ∀ t, m.swap.used.bit t = true → t ≠ s →
      Swap.image r m.swap.device t = Swap.image m.devices m.swap.device t) :
    (m.withDevices r).view own = (m.view own).setSlot s (some b) := by
  refine View.ext ?_ rfl rfl rfl rfl rfl rfl rfl rfl rfl (Swap.contents?_put hused himage hothers)
    rfl rfl rfl
  simp [view, plant, pool, hspec]

end Machine

end DemandPaging
