import DemandPaging.Pool
import Mathlib.Logic.Function.Basic

/-!
# Lending and taking back frames

What a request to a pool and the return of a frame do to what can be seen of the pool: which cells
are lent, how many, and what the frames hold. A request succeeds whenever a cell is free, and the
return of a lent frame always does.
-/

namespace DemandPaging

namespace Pool

variable {p p' : Pool} {f : Frame} {i : Nat} {r : Frame.Request}

theorem lent_lt (h : p.lent i = true) : i < p.total := by
  unfold lent at h
  split at h
  · rename_i hc
    exact (Array.getElem?_eq_some_iff.1 hc).1
  · simp at h

@[simp] theorem cell_frameAt (p : Pool) (i : Nat) : (p.frameAt i).cell = i := rfl

@[simp] theorem pfn_frameAt (p : Pool) (i : Nat) : (p.frameAt i).pfn = p.firstPfn + i := rfl

/-- What the frame in cell `c` holds, if it is lent. -/
def contents? (p : Pool) (c : Nat) : Option PageBytes :=
  if p.lent c then some (p.read (p.frameAt c)) else none

theorem read_eq_of_cell (p : Pool) {f g : Frame} (h : f.cell = g.cell) : p.read f = p.read g := by
  rw [read, read, h]

theorem contents?_of_lent (h : p.lent f.cell = true) : p.contents? f.cell = some (p.read f) := by
  rw [contents?, if_pos h, p.read_eq_of_cell (p.cell_frameAt f.cell)]

theorem lent_of_contents? {b : PageBytes} (h : p.contents? i = some b) : p.lent i = true := by
  by_contra hl
  rw [contents?, if_neg hl] at h
  simp at h

theorem contents?_write (h : p.lent f.cell = true) (b : PageBytes) :
    (p.write f b).contents? = Function.update p.contents? f.cell (some b) := by
  funext c
  rw [Function.update_apply, contents?, lent_write, p.read_write (lent_lt h), cell_frameAt]
  rcases eq_or_ne c f.cell with hc | hc
  · rw [if_pos hc, hc, if_pos h, if_pos rfl]
  · rw [if_neg hc, if_neg (Ne.symm hc)]
    rfl

/-! ### Writing to frames -/

theorem write_of_le (h : p.total ≤ f.cell) (b : PageBytes) : p.write f b = p := by
  have hcells : (p.cells.modify f.cell fun cell => { cell with bytes := b }) = p.cells := by
    refine Array.ext_getElem? fun i => ?_
    rw [Array.getElem?_modify]
    split
    · rename_i hi
      rw [Array.getElem?_eq_none (by rw [← hi]; exact h), Option.map_none]
    · rfl
  rw [write, hcells]

/-- Of two writes to a frame the second one counts. -/
theorem write_write (p : Pool) (f : Frame) (b c : PageBytes) :
    (p.write f b).write f c = p.write f c := by
  simp only [write, mk.injEq, true_and, and_true]
  refine Array.ext_getElem? fun i => ?_
  simp only [Array.getElem?_modify]
  split
  · rw [Option.map_map]
    rfl
  · rfl

theorem status_write (p : Pool) (f : Frame) (b : PageBytes) (c : Nat) :
    (p.write f b).cells[c]?.map Cell.status = p.cells[c]?.map Cell.status := by
  rw [write, Array.getElem?_modify]
  split
  · rw [Option.map_map]
    rfl
  · rfl

/-! ### The search -/

/-- The search meets every cell. -/
theorem mem_searchOrder (hi : i < p.total) : i ∈ p.searchOrder := by
  have hpos : 0 < p.total := by omega
  have hlt : p.next % p.total < p.total := Nat.mod_lt _ hpos
  refine List.mem_map.2 ⟨(i + (p.total - p.next % p.total)) % p.total,
    List.mem_range.2 (Nat.mod_lt _ hpos), ?_⟩
  rw [← Nat.mod_add_mod, Nat.add_mod_mod,
    show p.next % p.total + (i + (p.total - p.next % p.total)) = i + p.total by omega,
    Nat.add_mod_right, Nat.mod_eq_of_lt hi]

theorem nextFit_eq_some (h : p.nextFit = some i) : i < p.total ∧ p.lent i = false := by
  refine ⟨?_, by simpa using List.find?_some h⟩
  obtain ⟨k, hk, rfl⟩ := List.mem_map.1 (List.mem_of_find?_eq_some h)
  exact Nat.mod_lt _ (by have := List.mem_range.1 hk; omega)

theorem nextFit_eq_none (h : p.nextFit = none) (hi : i < p.total) : p.lent i = true := by
  simpa using List.find?_eq_none.1 h i (mem_searchOrder hi)

/-! ### Requests -/

/-- What a request that is granted does. -/
structure Lends (p : Pool) (r : Frame.Request) (f : Frame) (p' : Pool) : Prop where
  frame : f = p.frameAt f.cell
  cell_lt : f.cell < p.total
  free : p.lent f.cell = false
  firstPfn : p'.firstPfn = p.firstPfn
  total : p'.total = p.total
  inUse : p'.inUse = p.inUse + 1
  lent : ∀ c, p'.lent c = (p.lent c || c == f.cell)
  read : ∀ g : Frame, p'.read g =
    if g.cell = f.cell then (if r.zeroed then .zero pageSize else p.read g) else p.read g

theorem Lends.contents? (h : p.Lends r f p') : p'.contents? =
    Function.update p.contents? f.cell (some (if r.zeroed then .zero pageSize else p.read f)) := by
  funext c
  rw [Function.update_apply, Pool.contents?, h.lent, h.read, cell_frameAt]
  rcases eq_or_ne c f.cell with hc | hc
  · simp [hc, p.read_eq_of_cell (p'.cell_frameAt f.cell)]
  · rw [if_neg hc, if_neg hc, beq_eq_false_iff_ne.2 hc, Bool.or_false]
    rfl

theorem lends_of_alloc (h : p.alloc r = .ok (f, p')) : p.Lends r f p' := by
  unfold alloc at h
  split at h
  · simp at h
  split at h
  · simp at h
  · rename_i i hi
    obtain ⟨hlt, hfree⟩ := nextFit_eq_some hi
    simp only [Except.ok.injEq, Prod.mk.injEq] at h
    obtain ⟨rfl, rfl⟩ := h
    refine ⟨rfl, hlt, hfree, rfl, by simp [Pool.total], rfl, fun c => ?_, fun g => ?_⟩
    · simp only [Pool.lent, Array.getElem?_modify, cell_frameAt]
      rcases eq_or_ne i c with rfl | hc
      · simp [Array.getElem?_eq_getElem (show i < p.cells.size from hlt)]
      · simp [hc, Ne.symm hc]
    · simp only [Pool.read, Array.getElem?_modify, cell_frameAt]
      rcases eq_or_ne i g.cell with hc | hc
      · simp [hc, Array.getElem?_eq_getElem (show g.cell < p.cells.size from hc ▸ hlt)]
      · simp [hc, Ne.symm hc]

/-- A request for a user program is turned down only if every cell is lent. -/
theorem lent_of_alloc_error {e : Frame.Shortage} (h : p.alloc r = .error e) (hr : r.user = true)
    (hi : i < p.total) : p.lent i = true := by
  simp only [alloc, hr, Bool.not_true, Bool.false_eq_true, if_false] at h
  split at h
  · rename_i hnone
    exact nextFit_eq_none hnone hi
  · simp at h

/-! ### Returns -/

/-- What the return of a lent frame does. -/
structure TakesBack (p : Pool) (f : Frame) (p' : Pool) : Prop where
  firstPfn : p'.firstPfn = p.firstPfn
  total : p'.total = p.total
  inUse : p'.inUse = p.inUse - 1
  lent : ∀ c, p'.lent c = (p.lent c && c != f.cell)
  read : ∀ g : Frame, p'.read g = p.read g

theorem TakesBack.contents? (h : p.TakesBack f p') :
    p'.contents? = Function.update p.contents? f.cell none := by
  funext c
  rw [Function.update_apply, Pool.contents?, h.lent, h.read]
  rcases eq_or_ne c f.cell with hc | hc
  · simp [hc]
  · rw [if_neg hc, bne_iff_ne.2 hc, Bool.and_true]
    rfl

theorem cellOf_eq_ok (hf : f = p.frameAt f.cell) (hlt : f.cell < p.total) :
    p.cellOf f = .ok f.cell := by
  have hpfn : f.pfn = p.firstPfn + f.cell := by rw [hf]; rfl
  simp only [cellOf, hpfn, Nat.add_sub_cancel_left]
  rw [if_neg (by omega), if_neg (by simp)]

/-- A lent frame can be returned. -/
theorem exists_dealloc (hf : f = p.frameAt f.cell) (hl : p.lent f.cell = true) :
    ∃ p', p.dealloc f = .ok p' ∧ p.TakesBack f p' := by
  have hlt := lent_lt hl
  have hd : p.dealloc f = .ok { p with
      cells := p.cells.modify f.cell fun cell => { cell with status := .free }
      inUse := p.inUse - 1 } := by
    simp only [dealloc, cellOf_eq_ok hf hlt, bind, Except.bind, hl, if_true]
    rfl
  refine ⟨_, hd, rfl, by simp [Pool.total], rfl, fun c => ?_, fun g => ?_⟩
  · simp only [Pool.lent, Array.getElem?_modify]
    rcases eq_or_ne f.cell c with hc | hc
    · simp [hc, Array.getElem?_eq_getElem (show c < p.cells.size from hc ▸ hlt)]
    · simp [hc, Ne.symm hc]
  · simp only [Pool.read, Array.getElem?_modify]
    rcases eq_or_ne f.cell g.cell with hc | hc
    · simp [hc, Array.getElem?_eq_getElem (show g.cell < p.cells.size from hc ▸ hlt)]
    · simp [hc]

/-! ### A new pool -/

theorem lent_create {frames base : Nat} (h : create frames base = .ok p) (i : Nat) :
    p.lent i = false := by
  unfold create at h
  split at h
  · simp at h
  split at h
  · simp at h
  · simp only [Except.ok.injEq] at h
    subst h
    simp only [lent, Array.getElem?_replicate]
    split
    · rename_i hc
      split at hc <;> simp_all
      simp [← hc]
    · rfl

theorem inUse_create {frames base : Nat} (h : create frames base = .ok p) : p.inUse = 0 := by
  unfold create at h
  split at h
  · simp at h
  split at h
  · simp at h
  · simp only [Except.ok.injEq] at h
    rw [← h]

end Pool

end DemandPaging
