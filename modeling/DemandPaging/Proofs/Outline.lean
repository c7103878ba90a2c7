import DemandPaging.PageTable.Basic
import DemandPaging.Proofs.Pool
import DemandPaging.Proofs.SwapImage
import Mathlib.Data.List.Range

/-!
# Outlines

The outline of a pool or of a disk has zeros in place of all bytes. Whatever is asked of a pool, of
swap space or of a page table is answered by the outline alone, bytes aside, and the outline of what
comes of it depends on nothing but the outline. So two machines with the same outline take the same
decisions.
-/

namespace DemandPaging

/-! ### Memory -/

/-- The cell, its bytes aside. -/
def Cell.outline (c : Cell) : Cell := { c with bytes := .zero pageSize }

/-- A change of a cell is the same change of its outline. -/
theorem Cell.map_modify {g : Cell → Cell} (h : ∀ c : Cell, (g c).outline = g c.outline)
    (cells : Array Cell) (i : Nat) :
    (cells.modify i g).map Cell.outline = (cells.map Cell.outline).modify i g := by
  refine Array.ext_getElem? ?_
  intro j
  simp only [Array.getElem?_map, Array.getElem?_modify]
  split
  · cases cells[j]? <;> simp [h]
  · rfl

namespace Pool

variable {p q : Pool}

/-- The pool, its bytes aside. -/
def outline (p : Pool) : Pool := { p with cells := p.cells.map Cell.outline }

@[simp] theorem total_outline (p : Pool) : p.outline.total = p.total := by simp [total, outline]

@[simp] theorem lent_outline (p : Pool) (i : Nat) : p.outline.lent i = p.lent i := by
  simp only [lent, outline, Array.getElem?_map]
  cases p.cells[i]? <;> rfl

@[simp] theorem nextFit_outline (p : Pool) : p.outline.nextFit = p.nextFit := by
  simp only [nextFit, searchOrder, total_outline, lent_outline]
  rfl

@[simp] theorem outline_write (p : Pool) (f : Frame) (b : PageBytes) :
    (p.write f b).outline = p.outline := by
  simp only [outline, write]
  congr 1
  refine Array.ext_getElem? ?_
  intro i
  simp only [Array.getElem?_map, Array.getElem?_modify]
  split
  · cases p.cells[i]? <;> rfl
  · rfl

theorem total_eq_of_outline (h : p.outline = q.outline) : p.total = q.total := by
  rw [← total_outline, h, total_outline]

/-- Two writes to one frame leave another frame the same in both pools, and this one too if the same is
written. -/
theorem read_write_eq (htotal : p.total = q.total) {f g : Frame} {b b' : PageBytes}
    (hwritten : f.cell = g.cell → b = b') (hother : f.cell ≠ g.cell → p.read g = q.read g) :
    (p.write f b).read g = (q.write f b').read g := by
  by_cases hf : f.cell < p.total
  · rw [read_write p hf, read_write q (htotal ▸ hf)]
    by_cases heq : f.cell = g.cell
    · rw [if_pos heq, if_pos heq, hwritten heq]
    · rw [if_neg heq, if_neg heq, hother heq]
  · -- a frame that is none of the pool holds nothing
    have hnone : ∀ r : Pool, r.total = p.total → r.read f = .zero pageSize := by
      intro r hr
      have hcell : r.cells[f.cell]? = none :=
        Array.getElem?_eq_none (Nat.le_trans (Nat.le_of_eq hr) (Nat.le_of_not_lt hf))
      rw [read, hcell]
    by_cases heq : f.cell = g.cell
    · rw [← read_eq_of_cell _ heq, ← read_eq_of_cell _ heq, hnone _ (total_write ..),
        hnone _ ((total_write ..).trans htotal.symm)]
    · simp only [read, write, Array.getElem?_modify, if_neg heq]
      exact hother heq

/-- A request is granted or turned down by the outline. -/
theorem alloc_outline (p : Pool) (r : Frame.Request) :
    p.outline.alloc r = (p.alloc r).map fun x => (x.1, x.2.outline) := by
  simp only [alloc, nextFit_outline]
  split
  · rfl
  · cases hi : p.nextFit with
    | none => rfl
    | some i =>
      simp only [Except.map, outline]
      rw [Cell.map_modify fun c => by cases r.zeroed <;> simp [Cell.outline]]
      simp [total, frameAt]

/-- A frame is taken back or not by the outline. -/
theorem dealloc_outline (p : Pool) (f : Frame) :
    p.outline.dealloc f = (p.dealloc f).map outline := by
  have hcell : p.outline.cellOf f = p.cellOf f := by
    simp only [cellOf, total_outline]
    rfl
  simp only [dealloc, hcell]
  cases p.cellOf f with
  | error e => rfl
  | ok i =>
    simp only [bind, Except.bind, lent_outline]
    split
    · simp only [pure, Except.pure, Except.map, outline]
      rw [Cell.map_modify (g := fun cell => { cell with status := .free }) fun _ => rfl]
    · rfl

/-- A frame that is returned keeps its bytes, and so do all others. -/
theorem read_of_dealloc {f : Frame} {p' : Pool} (h : p.dealloc f = .ok p') (g : Frame) :
    p'.read g = p.read g := by
  unfold dealloc at h
  cases hc : p.cellOf f with
  | error e => simp [hc, bind, Except.bind] at h
  | ok i =>
    simp only [hc, bind, Except.bind] at h
    split at h
    · simp only [pure, Except.pure, Except.ok.injEq] at h
      subst h
      simp only [read, Array.getElem?_modify]
      by_cases hg : i = g.cell
      · rw [if_pos hg]
        cases p.cells[g.cell]? <;> rfl
      · rw [if_neg hg]
    · simp [throw, throwThe, MonadExceptOf.throw] at h

end Pool

namespace Allocator

/-- The allocator, the bytes of its pool aside. -/
def outline (a : Allocator) : Allocator := { a with pool := a.pool.outline }

theorem alloc_outline (a : Allocator) (r : Frame.Request) :
    a.outline.alloc r = ((a.alloc r).1, (a.alloc r).2.outline) := by
  simp only [alloc, outline, Pool.alloc_outline]
  split
  · rfl
  · cases a.pool.alloc r <;> rfl

/-- A request leaves the bytes of all frames alone, but for zeros in the frame that is lent. -/
theorem read_alloc (a : Allocator) (r : Frame.Request) (g : Frame) :
    (a.alloc r).2.pool.read g =
      match (a.alloc r).1 with
      | .ok f => if g.cell = f.cell ∧ r.zeroed = true then .zero pageSize else a.pool.read g
      | .error _ => a.pool.read g := by
  simp only [alloc]
  split
  · rfl
  · cases hp : a.pool.alloc r with
    | error e => rfl
    | ok x =>
      simp only [(Pool.lends_of_alloc hp).read]
      split <;> simp [*]

end Allocator

/-! ### Disks -/

/-- The device, the bytes of its disk aside. -/
def Device.outline (d : Device) : Device := { d with disk := .blank d.disk.sectors.size }

/-- The devices, the bytes of their disks aside. -/
def Registry.outline (r : Registry) : Registry := ⟨r.devices.map Device.outline⟩

namespace Device

/-- A read succeeds or fails by the outline. -/
theorem read_outline (d : Device) (n len : Nat) :
    d.outline.read n len = (d.read n len).map fun x => (.zero sectorSize, x.2.outline) := by
  by_cases hn : d.size ≤ n
  · simp [read, check, outline, hn, bind, Except.bind, Except.map]
  · by_cases hlen : len = sectorSize
    · by_cases hs : n < d.disk.sectors.size
      · simp [read, check, outline, hn, hlen, Disk.read, Disk.blank, hs, bind, Except.bind, Except.map,
          pure, Except.pure]
      · simp [read, check, outline, hn, hlen, Disk.read, Disk.blank, hs, bind, Except.bind, Except.map]
    · simp [read, check, outline, hn, hlen, bind, Except.bind, Except.map]

/-- A write succeeds or fails by the outline and the number of bytes. -/
theorem write_outline (d : Device) (n : Nat) (data : List UInt8) :
    d.outline.write n (List.replicate data.length 0) = (d.write n data).map outline := by
  by_cases hn : d.size ≤ n
  · simp [write, check, outline, hn, bind, Except.bind, Except.map]
  by_cases hlen : data.length = sectorSize
  · by_cases hr : d.role = .foreign
    · simp [write, check, outline, hn, hlen, hr, bind, Except.bind, Except.map, throw, throwThe,
        MonadExceptOf.throw]
    · by_cases hs : n < d.disk.sectors.size
      · have hzero : (⟨List.replicate sectorSize 0, List.length_replicate⟩ : SectorBytes) =
            .zero sectorSize := rfl
        simp [write, check, outline, hn, hlen, hr, Disk.write, Disk.blank, hs, bind, Except.bind,
          Except.map, pure, Except.pure, hzero]
      · simp [write, check, outline, hn, hlen, hr, Disk.write, Disk.blank, hs, bind, Except.bind,
          Except.map]
  · simp [write, check, outline, hn, hlen, bind, Except.bind, Except.map]

end Device

namespace Registry

variable {r r' : Registry}

theorem read_outline (r : Registry) (i n len : Nat) :
    r.outline.read i n len = (r.read i n len).map fun x => (.zero sectorSize, x.2.outline) := by
  simp only [read, outline, Array.getElem?_map]
  cases r.devices[i]? with
  | none => rfl
  | some d =>
    simp only [Option.map_some, Device.read_outline]
    cases d.read n len <;> simp [Except.map, bind, Except.bind, pure, Except.pure]

theorem write_outline (r : Registry) (i n : Nat) (data : List UInt8) :
    r.outline.write i n (List.replicate data.length 0) = (r.write i n data).map outline := by
  simp only [write, outline, Array.getElem?_map]
  cases r.devices[i]? with
  | none => rfl
  | some d =>
    simp only [Option.map_some, Device.write_outline]
    cases d.write n data <;> simp [Except.map, bind, Except.bind, pure, Except.pure, outline]

end Registry

/-! ### Swap space -/

namespace Swap

variable {r r' : Registry}

theorem device_of_release {s s' : Swap} {slot : Nat} (h : s.release slot = .ok s') :
    s'.device = s.device := by
  simp only [release, bind, Except.bind] at h
  split at h
  · simp at h
  · split at h
    · simp only [pure, Except.pure, Except.ok.injEq] at h
      rw [← h]
    · simp [throw, throwThe, MonadExceptOf.throw] at h

/-- Two transfers have come to the same, bytes aside. -/
def Matches {α β : Type} (x y : Registry × Except α β) : Prop :=
  x.1.outline = y.1.outline ∧ x.2.map (fun _ => ()) = y.2.map fun _ => ()

theorem writeSectors_matches (device slot : Nat) (page page' : PageBytes) :
    ∀ (is : List Nat) {r r' : Registry}, r.outline = r'.outline →
      Matches (writeSectors device slot page is r) (writeSectors device slot page' is r')
  | [], _, _, h => ⟨h, rfl⟩
  | i :: rest, r, r', h => by
    have hsize : (page.slice (i * sectorSize) sectorSize).length =
        (page'.slice (i * sectorSize) sectorSize).length := by
      rw [Bytes.length_slice, Bytes.length_slice]
    have hwrite := r.write_outline device (sectorOf slot i) (page.slice (i * sectorSize) sectorSize)
    rw [h, hsize, Registry.write_outline] at hwrite
    simp only [writeSectors]
    cases hx : r.write device (sectorOf slot i) (page.slice (i * sectorSize) sectorSize) <;>
      cases hy : r'.write device (sectorOf slot i) (page'.slice (i * sectorSize) sectorSize) <;>
      simp only [hx, hy, Except.map, Except.error.injEq, Except.ok.injEq, reduceCtorEq] at hwrite
    · exact ⟨h, by rw [hwrite]⟩
    · exact writeSectors_matches device slot page page' rest hwrite.symm

theorem readSectors_matches (device slot : Nat) :
    ∀ (is : List Nat) {r r' : Registry}, r.outline = r'.outline →
      Matches (readSectors device slot is r) (readSectors device slot is r')
  | [], _, _, h => ⟨h, rfl⟩
  | i :: rest, r, r', h => by
    have hread := r.read_outline device (sectorOf slot i) sectorSize
    rw [h, Registry.read_outline] at hread
    simp only [readSectors]
    cases hx : r.read device (sectorOf slot i) sectorSize <;>
      cases hy : r'.read device (sectorOf slot i) sectorSize <;>
      simp only [hx, hy, Except.map, Except.error.injEq, Except.ok.injEq, Prod.mk.injEq,
        reduceCtorEq] at hread
    · exact ⟨h, by rw [hread]⟩
    · obtain ⟨hdevices, hresult⟩ := readSectors_matches device slot rest hread.2.symm
      refine ⟨hdevices, ?_⟩
      simp only [Except.map] at hresult ⊢
      split at hresult <;> split at hresult <;> simp_all

/-- Whether a page can be put into a slot does not depend on the page. -/
theorem put_matches (s : Swap) (h : r.outline = r'.outline) (slot : Nat) (page page' : PageBytes) :
    Matches (s.put r slot page) (s.put r' slot page') := by
  obtain ⟨hdevices, hresult⟩ :=
    writeSectors_matches s.device slot page page' (List.range sectorsPerPage) h
  refine ⟨hdevices, ?_⟩
  simp only [put]
  generalize (writeSectors s.device slot page (List.range sectorsPerPage) r).2 = x at hresult ⊢
  generalize (writeSectors s.device slot page' (List.range sectorsPerPage) r').2 = y at hresult ⊢
  cases x <;> cases y <;> simp_all [Except.map, Except.mapError]

/-- What is loaded is what the slot holds, and all slots keep what they hold. -/
theorem load_spec {s : Swap} {slot : Nat} {page : PageBytes} (h : s.load r slot = (r', .ok page)) :
    page = image r s.device slot ∧ ∀ t, image r' s.device t = image r s.device t := by
  rw [load] at h
  split at h
  · obtain ⟨hpage, hsame, -⟩ := fetch_spec h
    exact ⟨hpage, hsame⟩
  · simp at h

/-- Whether a slot can be read does not depend on what it holds. -/
theorem load_matches (s : Swap) (h : r.outline = r'.outline) (slot : Nat) :
    Matches (s.load r slot) (s.load r' slot) := by
  simp only [load]
  split
  · obtain ⟨hdevices, hresult⟩ := readSectors_matches s.device slot (List.range sectorsPerPage) h
    refine ⟨hdevices, ?_⟩
    simp only [fetch]
    generalize (readSectors s.device slot (List.range sectorsPerPage) r).2 = x at hresult ⊢
    generalize (readSectors s.device slot (List.range sectorsPerPage) r').2 = y at hresult ⊢
    cases x <;> cases y <;> simp_all [Except.map, Except.mapError]
  · exact ⟨h, rfl⟩

end Swap

/-! ### Accesses -/

namespace PageTable

/-- What a read does to a page table, and where it stops, does not depend on the memory. -/
theorem loadSpans_matches (pool pool' : Pool) : ∀ (l : List Span) (t : PageTable),
    (loadSpans pool l t).table = (loadSpans pool' l t).table ∧
      (loadSpans pool l t).trouble = (loadSpans pool' l t).trouble
  | [], _ => ⟨rfl, rfl⟩
  | s :: rest, t => by
    simp only [loadSpans]
    cases t.touch s.addr false with
    | error e => exact ⟨rfl, rfl⟩
    | ok x => exact loadSpans_matches pool pool' rest x.2

/-- Nor does what a write does to it depend on the memory or the bytes written, and the memory keeps
its outline. -/
theorem storeSpans_matches : ∀ (l : List Span) (data data' : List UInt8) (t : PageTable)
    (pool pool' : Pool), pool.outline = pool'.outline →
    (storeSpans l data t pool).table = (storeSpans l data' t pool').table ∧
      (storeSpans l data t pool).trouble = (storeSpans l data' t pool').trouble ∧
      (storeSpans l data t pool).pool.outline = (storeSpans l data' t pool').pool.outline
  | [], _, _, _, _, _, h => ⟨rfl, rfl, h⟩
  | s :: rest, data, data', t, pool, pool', h => by
    simp only [storeSpans]
    cases t.touch s.addr true with
    | error e => exact ⟨rfl, rfl, h⟩
    | ok x => exact storeSpans_matches rest _ _ x.2 _ _ (by simpa using h)

end PageTable

end DemandPaging
