import DemandPaging.Proofs.Clock
import DemandPaging.Proofs.Reachable

/-!
# Swap space as a page store

Whoever uses swap space sees a map from slots to pages. `Shelf` is what such a user knows of one
slot, and `SlotOp.answer` and `SlotOp.after` say, of the map alone, how each operation ends and what
it makes of the map. `Stocks` ties the map to the bitmap and to the sectors of the device: every
operation on a machine that stocks a map ends as the map says and leaves a machine that stocks the
map after it.
-/

namespace DemandPaging

variable {φ : Type}

namespace Registry

variable {r r' : Registry} {dev n : Nat}

theorem read_others {b : SectorBytes} (h : r.read dev n sectorSize = .ok (b, r')) {j : Nat}
    (hj : j ≠ dev) : r'.devices[j]? = r.devices[j]? := by
  obtain ⟨d, d', -, -, rfl⟩ := read_eq_ok_iff.1 h
  simp [Ne.symm hj]

theorem write_others {b : SectorBytes} (h : r.write dev n b.data = .ok r') {j : Nat} (hj : j ≠ dev) :
    r'.devices[j]? = r.devices[j]? := by
  obtain ⟨d, d', -, -, rfl⟩ := write_eq_ok_iff.1 h
  simp [Ne.symm hj]

end Registry

namespace Swap

variable {s : Swap} {r : Registry} {dev slot : Nat} {page : PageBytes} {role : Role} {size sectors : Nat}

theorem readSectors_others : ∀ (is : List Nat) (r : Registry) {j : Nat}, j ≠ dev →
    (readSectors dev slot is r).1.devices[j]? = r.devices[j]?
  | [], _, _, _ => rfl
  | i :: rest, r, j, hj => by
    rw [readSectors]
    split
    · rename_i sector r₁ hread
      exact (readSectors_others rest r₁ hj).trans (Registry.read_others hread hj)
    · rfl

theorem writeSectors_others : ∀ (is : List Nat) (r : Registry) {j : Nat},
    (∀ i ∈ is, i < sectorsPerPage) → j ≠ dev →
    (writeSectors dev slot page is r).1.devices[j]? = r.devices[j]?
  | [], _, _, _, _ => rfl
  | i :: rest, r, j, hlt, hj => by
    rw [writeSectors, ← data_sectorOfPage page (hlt i List.mem_cons_self)]
    split
    · rename_i r₁ hwrite
      exact (writeSectors_others rest r₁ (fun k hk => hlt k (List.mem_cons_of_mem i hk)) hj).trans
        (Registry.write_others hwrite hj)
    · rfl

/-- Sector numbers are not cut off, and do not leave the device. -/
theorem sectorOf_eq {i : Nat} (hi : i < sectorsPerPage) (hslot : slot < size / sectorsPerPage)
    (hlim : size ≤ sectorLimit) :
    sectorOf slot i = slot * sectorsPerPage + i ∧ slot * sectorsPerPage + i < size := by
  simp only [sectorOf, sectorsPerPage, sectorLimit, pageSize, sectorSize] at *
  omega

/-- A device with all its sectors takes a page into any of its slots, and nothing else changes. -/
theorem exists_put_eq (hspec : r.spec s.device = some (role, size, sectors)) (hrole : role ≠ .foreign)
    (hslot : slot < size / sectorsPerPage) (hlim : size ≤ sectorLimit) (hfull : size ≤ sectors)
    (page : PageBytes) :
    ∃ r', s.put r slot page = (r', .ok ()) ∧ image r' s.device slot = page ∧
      (∀ t < size / sectorsPerPage, t ≠ slot → image r' s.device t = image r s.device t) ∧
      r'.spec s.device = r.spec s.device ∧ ∀ j ≠ s.device, r'.devices[j]? = r.devices[j]? := by
  have hle : ∀ t < size / sectorsPerPage, (t + 1) * sectorsPerPage ≤ size := fun t ht =>
    (Nat.le_div_iff_mul_le (by decide)).1 ht
  have hok := exists_put hspec hrole (hle slot hslot) hlim hfull page
  have hput : s.put r slot page = ((s.put r slot page).1, .ok ()) := Prod.ext rfl hok
  obtain ⟨himage, hothers, hsame⟩ := put_spec hput (Nat.le_trans (hle slot hslot) hlim)
  exact ⟨_, hput, himage, fun t ht hne => hothers t (Nat.le_trans (hle t ht) hlim) hne, hsame,
    fun j hj => writeSectors_others _ r (fun i hi => List.mem_range.1 hi) hj⟩

/-- It gives back what any of its slots holds, and nothing that can be read changes. -/
theorem exists_fetch_eq (hspec : r.spec s.device = some (role, size, sectors))
    (hslot : slot < size / sectorsPerPage) (hlim : size ≤ sectorLimit) (hfull : size ≤ sectors) :
    ∃ r', s.fetch r slot = (r', .ok (image r s.device slot)) ∧
      (∀ t, image r' s.device t = image r s.device t) ∧
      r'.spec s.device = r.spec s.device ∧ ∀ j ≠ s.device, r'.devices[j]? = r.devices[j]? := by
  have hle : (slot + 1) * sectorsPerPage ≤ size := (Nat.le_div_iff_mul_le (by decide)).1 hslot
  obtain ⟨page, hok⟩ := exists_fetch hspec hle hlim hfull
  have hfetch : s.fetch r slot = ((s.fetch r slot).1, .ok page) := Prod.ext rfl hok
  obtain ⟨rfl, hsame, hspec'⟩ := fetch_spec hfetch
  exact ⟨_, hfetch, hsame, hspec', fun j hj => readSectors_others (List.range sectorsPerPage) r hj⟩

theorem demandUsed_eq (s : Swap) (slot : Nat) (e : Misuse) :
    s.demandUsed slot e =
      if s.slots ≤ slot then .error (.outOfRange ⟨slot, s.slots⟩)
      else if s.used.bit slot then .ok () else .error e := by
  rw [demandUsed, Bitmap.test, slots]
  rcases Nat.lt_or_ge slot s.used.len with hlt | hge
  · rw [if_pos hlt, if_neg (Nat.not_le.2 hlt)]
  · rw [if_neg (Nat.not_lt.2 hge), if_pos hge]

theorem release_eq (hslot : slot < s.slots) (hbit : s.used.bit slot = true) :
    s.release slot = .ok { s with used := s.used.putBit slot false } := by
  simp only [release, demandUsed_eq, if_neg (Nat.not_le.2 hslot), hbit, if_true, bind, Except.bind,
    Bitmap.set, if_pos (show slot < s.used.len from hslot)]
  rfl

end Swap

/-! ### What a user of swap space knows -/

/-- What is known of a slot: it is unused, or it has been taken and nothing written to it since, or
it holds what has been written to it last. -/
inductive Shelf where
  | unused
  | taken
  | holds (page : PageBytes)
  deriving DecidableEq

def Shelf.isUsed : Shelf → Bool
  | .unused => false
  | _ => true

/-- The operations on swap space. -/
inductive SlotOp where
  | allocate
  | store (slot : Nat) (frame : Frame)
  | load (slot : Nat) (frame : Frame)
  | release (slot : Nat)
  | swapOut (frame : Frame)

namespace SlotOp

/-- The program of an operation; it returns the slot that the operation takes, if it takes one. -/
def run : SlotOp → Kernel φ (Option Nat)
  | .allocate => do return some (← Kernel.allocateSlot)
  | .store slot frame => do Kernel.storeSlot slot frame; return none
  | .load slot frame => do Kernel.loadSlot slot frame; return none
  | .release slot => do Kernel.releaseSlot slot; return none
  | .swapOut frame => do return some (← Kernel.swapOut frame)

/-- The lowest of `n` slots that is unused. -/
def lowestUnused (n : Nat) (σ : Nat → Shelf) : Option Nat :=
  (List.range n).find? fun t => !(σ t).isUsed

/-- How an operation that takes a slot ends. -/
def take (n : Nat) (σ : Nat → Shelf) : Except Swap.Misuse (Option Nat) :=
  match lowestUnused n σ with
  | some t => .ok (some t)
  | none => .error (.full n)

/-- How an operation on `slot` ends: with `e` if it is unused. -/
def demand (n : Nat) (σ : Nat → Shelf) (slot : Nat) (e : Swap.Misuse) :
    Except Swap.Misuse (Option Nat) :=
  if n ≤ slot then .error (.outOfRange ⟨slot, n⟩) else if (σ slot).isUsed then .ok none else .error e

/-- How an operation on `n` slots ends. -/
def answer (n : Nat) (σ : Nat → Shelf) : SlotOp → Except Swap.Misuse (Option Nat)
  | .allocate => take n σ
  | .store slot _ => demand n σ slot (.storeUnused slot)
  | .load slot _ => demand n σ slot (.loadUnused slot)
  | .release slot => demand n σ slot (.releaseUnused slot)
  | .swapOut _ => take n σ

/-- The slot that an operation is about, `taken` being the one that it takes. -/
def target (taken : Option Nat) : SlotOp → Option Nat
  | .allocate | .swapOut _ => taken
  | .store slot _ | .load slot _ | .release slot => some slot

/-- What an operation makes of its slot. -/
def leaves (pool : Pool) : SlotOp → Shelf
  | .allocate => .taken
  | .store _ frame | .swapOut frame => .holds (pool.read frame)
  | .load _ _ | .release _ => .unused

/-- The map after an operation. -/
def after (pool : Pool) (σ : Nat → Shelf) (taken : Option Nat) (op : SlotOp) (t : Nat) : Shelf :=
  if op.target taken = some t then op.leaves pool else σ t

end SlotOp

/-- The swap space of a machine keeps the map `σ`, on a device of `size` sectors. -/
structure Machine.Stocks (size : Nat) (σ : Nat → Shelf) (m : Machine φ) : Prop where
  slots : m.swap.slots = size / sectorsPerPage
  sized : m.swap.used.Sized
  tidy : m.swap.used.Tidy
  device : ∃ role sectors, m.devices.spec m.swap.device = some (role, size, sectors) ∧
    role ≠ .foreign ∧ size ≤ sectors
  limit : size ≤ Swap.sectorLimit
  bit : ∀ t, m.swap.used.bit t = (σ t).isUsed
  image : ∀ t b, σ t = .holds b → Swap.image m.devices m.swap.device t = b

/-- What an operation leaves alone, and what it fills: no page but that of its own slot changes, no
frame but the one that a page is loaded to, nothing on other devices and nothing else about the
machine but its log. -/
structure SlotOp.Changes (op : SlotOp) (size : Nat) (σ : Nat → Shelf) (taken : Option Nat)
    (m m' : Machine φ) : Prop where
  others : ∀ t < size / sectorsPerPage, op.target taken ≠ some t →
    Swap.image m'.devices m'.swap.device t = Swap.image m.devices m.swap.device t
  frames : ∀ g : Frame, (∀ slot frame, op = .load slot frame → frame.cell ≠ g.cell) →
    m'.pool.read g = m.pool.read g
  fills : ∀ slot frame, op = .load slot frame → frame.cell < m.pool.total →
    m'.pool.read frame = Swap.image m.devices m.swap.device slot ∧
      ∀ b, σ slot = .holds b → m'.pool.read frame = b
  device : m'.swap.device = m.swap.device
  devices : ∀ j, j ≠ m.swap.device → m'.devices.devices[j]? = m.devices.devices[j]?
  rest : ∃ log : Array Event, { m with
    allocator := { m.allocator with pool := m'.pool }, swap := m'.swap, devices := m'.devices, log } = m'
  status : ∀ c : Nat, m'.pool.cells[c]?.map Cell.status = m.pool.cells[c]?.map Cell.status

namespace Kernel

variable {α : Type} {m m' : Machine φ}

theorem eq_error_of_ends {x : Kernel φ α} {e : Stop}
    (h : Ends x m (fun _ _ => False) fun e' m₁ => e' = e ∧ m₁ = m') : x m = .error e m' := by
  unfold Ends at h
  split at h
  · exact h.elim
  · rename_i hx
    rw [hx, h.1, h.2]

end Kernel

namespace Machine

variable {m m' : Machine φ} {size t : Nat} {σ : Nat → Shelf}

theorem Stocks.acquire (h : m.Stocks size σ) :
    m.swap.used.acquire = (SlotOp.lowestUnused (size / sectorsPerPage) σ).map fun t =>
      (t, m.swap.used.putBit t true) := by
  rw [h.sized.acquire_eq, SlotOp.lowestUnused, show m.swap.used.len = size / sectorsPerPage from h.slots]
  simp only [h.bit]

theorem Stocks.lt_of_isUsed (h : m.Stocks size σ) (ht : (σ t).isUsed = true) :
    t < size / sectorsPerPage := by
  rcases Nat.lt_or_ge t (size / sectorsPerPage) with hlt | hge
  · exact hlt
  · have hclear := h.tidy t (show m.swap.slots ≤ t from h.slots ▸ hge)
    rw [h.bit, ht] at hclear
    simp at hclear

/-- An operation on slot `t` that makes it `x` keeps the map otherwise. -/
theorem Stocks.update (h : m.Stocks size σ) (ht : t < size / sectorsPerPage) (x : Shelf)
    (hdevice : m'.swap.device = m.swap.device) (hlen : m'.swap.used.len = m.swap.used.len)
    (hsized : m'.swap.used.Sized)
    (hbit : ∀ u, m'.swap.used.bit u = if t = u then x.isUsed else m.swap.used.bit u)
    (hspec : m'.devices.spec m.swap.device = m.devices.spec m.swap.device)
    (hothers : ∀ u < size / sectorsPerPage, u ≠ t →
      Swap.image m'.devices m.swap.device u = Swap.image m.devices m.swap.device u)
    (hpage : ∀ b, x = .holds b → Swap.image m'.devices m.swap.device t = b) :
    m'.Stocks size fun u => if t = u then x else σ u where
  slots := hlen.trans h.slots
  sized := hsized
  tidy u hu := by
    have hge : size / sectorsPerPage ≤ u := by
      rw [← h.slots, Swap.slots, ← hlen]
      exact hu
    rw [hbit, if_neg (by omega), h.tidy u (Nat.le_trans (Nat.le_of_eq h.slots) hge)]
  device := by
    rw [hdevice, hspec]
    exact h.device
  limit := h.limit
  bit u := by
    rw [hbit]
    split
    · rfl
    · exact h.bit u
  image u b hu := by
    rw [hdevice]
    split at hu
    · rename_i htu
      exact htu ▸ hpage b hu
    · rename_i htu
      rw [hothers u (h.lt_of_isUsed (by rw [hu]; rfl)) (Ne.symm htu), h.image u b hu]

end Machine

namespace SlotOp

variable {m : Machine φ} {size : Nat} {σ : Nat → Shelf}

/-- How an operation on a machine that stocks `σ` ends. -/
structure Serves (op : SlotOp) (size : Nat) (σ : Nat → Shelf) (m : Machine φ) : Prop where
  halts : ∀ e, op.answer (size / sectorsPerPage) σ = .error e →
    op.run m = .error (.halt (.swap e)) m
  returns : ∀ taken, op.answer (size / sectorsPerPage) σ = .ok taken → ∃ m', op.run m = .ok taken m' ∧
    m'.Stocks size (op.after m.pool σ taken) ∧ op.Changes size σ taken m m'

theorem after_eq {op : SlotOp} {pool : Pool} {taken : Option Nat} {t : Nat}
    (h : op.target taken = some t) :
    op.after pool σ taken = fun u => if t = u then op.leaves pool else σ u := by
  funext u
  simp only [after, h, Option.some.injEq]

/-- A slot that an operation takes was unused. -/
theorem take_eq {taken : Option Nat} {n : Nat} (h : take n σ = .ok taken) :
    ∃ t, taken = some t ∧ lowestUnused n σ = some t ∧ t < n ∧ (σ t).isUsed = false := by
  unfold take at h
  split at h
  · rename_i t ht
    obtain rfl := Except.ok.inj h
    have hmem := List.mem_of_find?_eq_some ht
    have hfree := List.find?_some ht
    exact ⟨t, rfl, ht, List.mem_range.1 hmem, by simpa using hfree⟩
  · simp at h

theorem lowestUnused_of_take {n : Nat} {e : Swap.Misuse} (h : take n σ = .error e) :
    lowestUnused n σ = none ∧ e = .full n := by
  unfold take at h
  split at h
  · simp at h
  · exact ⟨‹_›, (Except.error.inj h).symm⟩

/-- An operation on a slot that is used is not turned down. -/
theorem demand_eq {taken : Option Nat} {n slot : Nat} {e : Swap.Misuse}
    (h : demand n σ slot e = .ok taken) : taken = none ∧ slot < n ∧ (σ slot).isUsed = true := by
  unfold demand at h
  split at h
  · simp at h
  · split at h
    · exact ⟨(Except.ok.inj h).symm, by omega, ‹_›⟩
    · simp at h

theorem demandUsed_of_stocks (h : m.Stocks size σ) (slot : Nat) (e : Swap.Misuse) :
    m.swap.demandUsed slot e = (demand (size / sectorsPerPage) σ slot e).map fun _ => () := by
  rw [Swap.demandUsed_eq, demand, h.slots, h.bit]
  split
  · rfl
  · split <;> rfl

open Kernel

theorem allocateSlot_eq (h : m.Stocks size σ) {t : Nat}
    (hfind : lowestUnused (size / sectorsPerPage) σ = some t) :
    allocateSlot m = .ok t (m.withSwap { m.swap with used := m.swap.used.putBit t true }) := by
  refine eq_ok_of_ends ?_
  simp only [allocateSlot, ends_bind, ends_get, Swap.allocate, h.acquire, hfind, Option.map_some,
    ends_modify, ends_pure]
  exact ⟨trivial, rfl⟩

theorem allocateSlot_eq_error (h : m.Stocks size σ)
    (hnone : lowestUnused (size / sectorsPerPage) σ = none) :
    allocateSlot m = .error (.halt (.swap (.full (size / sectorsPerPage)))) m := by
  refine eq_error_of_ends ?_
  simp only [allocateSlot, ends_bind, ends_get, Swap.allocate, h.acquire, hnone, Option.map_none,
    ends_halt, h.slots, and_self]

theorem allocate_serves (h : m.Stocks size σ) : SlotOp.allocate.Serves size σ m where
  halts e he := by
    obtain ⟨hnone, rfl⟩ := lowestUnused_of_take he
    simp only [run, bind, EStateM.bind, allocateSlot_eq_error h hnone]
  returns taken he := by
    obtain ⟨t, rfl, hfind, ht, hfree⟩ := take_eq he
    refine ⟨m.withSwap { m.swap with used := m.swap.used.putBit t true }, eq_ok_of_ends ?_, ?_, ?_⟩
    · rw [run, ends_bind, ends_of_eq (allocateSlot_eq h hfind)]
      exact ⟨rfl, rfl⟩
    · rw [after_eq rfl]
      exact h.update ht .taken rfl rfl (h.sized.putBit t true)
        (h.sized.bit_putBit (show t < m.swap.slots from h.slots ▸ ht) true) rfl (fun u _ _ => rfl)
        (fun b hb => by simp at hb)
    · exact ⟨fun u _ _ => rfl, fun g _ => rfl, fun slot frame hop => by simp at hop, rfl, fun j _ => rfl,
        ⟨m.log, rfl⟩, fun c => rfl⟩

theorem store_serves (h : m.Stocks size σ) (slot : Nat) (frame : Frame) :
    (SlotOp.store slot frame).Serves size σ m where
  halts e he := by
    refine eq_error_of_ends ?_
    simp only [run, storeSlot, readFrame, transfer, Swap.store, demandUsed_of_stocks h, ends_bind,
      ends_get, ends_pure, ends_modifyGet]
    rw [show demand (size / sectorsPerPage) σ slot (.storeUnused slot) = .error e from he]
    exact ⟨rfl, rfl⟩
  returns taken he := by
    obtain ⟨rfl, hlt, hused⟩ := demand_eq he
    obtain ⟨role, sectors, hspec, hrole, hfull⟩ := h.device
    obtain ⟨r, hput, himage, hothers, hsame, hdevices⟩ :=
      Swap.exists_put_eq hspec hrole hlt h.limit hfull (m.pool.read frame)
    refine ⟨m.withDevices r, eq_ok_of_ends ?_, ?_, ?_⟩
    · simp only [run, storeSlot, readFrame, transfer, Swap.store, demandUsed_of_stocks h, ends_bind,
        ends_get, ends_pure, ends_modifyGet]
      rw [show demand (size / sectorsPerPage) σ slot (.storeUnused slot) = .ok none from he]
      simp only [Except.map, hput, ends_pure]
      exact ⟨trivial, rfl⟩
    · rw [after_eq rfl]
      refine h.update hlt (.holds (m.pool.read frame)) rfl rfl h.sized (fun u => ?_) hsame
        hothers (fun b hb => ?_)
      · rw [Machine.withDevices_swap]
        split
        · rename_i hu
          rw [h.bit, ← hu, hused]
          rfl
        · rfl
      · obtain rfl := Shelf.holds.inj hb
        exact himage
    · exact ⟨fun u hu hne => hothers u hu fun heq => hne (by rw [heq]; rfl), fun g _ => rfl,
        fun slot frame hop => by simp at hop, rfl, hdevices, ⟨m.log, rfl⟩, fun c => rfl⟩

theorem release_serves (h : m.Stocks size σ) (slot : Nat) :
    (SlotOp.release slot).Serves size σ m where
  halts e he := by
    refine eq_error_of_ends ?_
    simp only [run, releaseSlot, ends_bind, ends_get, Swap.release, demandUsed_of_stocks h]
    rw [show demand (size / sectorsPerPage) σ slot (.releaseUnused slot) = .error e from he]
    exact ⟨rfl, rfl⟩
  returns taken he := by
    obtain ⟨rfl, hlt, hused⟩ := demand_eq he
    have hlen : slot < m.swap.used.len := show slot < m.swap.slots from h.slots ▸ hlt
    refine ⟨m.withSwap { m.swap with used := m.swap.used.putBit slot false }, eq_ok_of_ends ?_, ?_, ?_⟩
    · simp only [run, releaseSlot, ends_bind, ends_get, Swap.release, demandUsed_of_stocks h,
        Bitmap.set, if_pos hlen]
      rw [show demand (size / sectorsPerPage) σ slot (.releaseUnused slot) = .ok none from he]
      exact ⟨rfl, rfl⟩
    · rw [after_eq rfl]
      exact h.update hlt .unused rfl rfl (h.sized.putBit slot false) (h.sized.bit_putBit hlen false) rfl
        (fun u _ _ => rfl) (fun b hb => by simp at hb)
    · exact ⟨fun u _ _ => rfl, fun g _ => rfl, fun slot frame hop => by simp at hop, rfl, fun j _ => rfl,
        ⟨m.log, rfl⟩, fun c => rfl⟩

theorem load_serves (h : m.Stocks size σ) (slot : Nat) (frame : Frame) :
    (SlotOp.load slot frame).Serves size σ m where
  halts e he := by
    refine eq_error_of_ends ?_
    simp only [run, loadSlot, transfer, Swap.load, demandUsed_of_stocks h, ends_bind, ends_modifyGet]
    rw [show demand (size / sectorsPerPage) σ slot (.loadUnused slot) = .error e from he]
    exact ⟨rfl, rfl⟩
  returns taken he := by
    obtain ⟨rfl, hlt, hused⟩ := demand_eq he
    obtain ⟨role, sectors, hspec, hrole, hfull⟩ := h.device
    obtain ⟨r, hfetch, hsame, hspec', hdevices⟩ := Swap.exists_fetch_eq hspec hlt h.limit hfull
    have hlen : slot < m.swap.used.len := Nat.lt_of_lt_of_eq hlt h.slots.symm
    have hbit : m.swap.used.bit slot = true := (h.bit slot).trans hused
    set page := Swap.image m.devices m.swap.device slot with hpage
    set filled := (m.withDevices r).withPool (m.pool.write frame page) with hfilled
    refine ⟨(filled.withSwap { m.swap with used := m.swap.used.putBit slot false }).report
      (.swappedIn slot frame), eq_ok_of_ends ?_, ?_, ?_⟩
    · simp only [run, loadSlot, transfer, Swap.load, demandUsed_of_stocks h, ends_bind, ends_modifyGet]
      rw [show demand (size / sectorsPerPage) σ slot (.loadUnused slot) = .ok none from he]
      simp only [Except.map, hfetch, writeFrame, releaseSlot, ends_bind, ends_pure, ends_modify, ends_get,
        Swap.release_eq (show slot < m.swap.slots from hlen) hbit, ends_emit]
      exact ⟨trivial, rfl⟩
    · rw [after_eq rfl]
      exact h.update hlt .unused rfl rfl (h.sized.putBit slot false) (h.sized.bit_putBit hlen false)
        hspec' (fun u _ _ => hsame u) (fun b hb => by simp at hb)
    · refine ⟨fun u _ _ => hsame u, fun g hg => ?_, fun slot' frame' hop hcell => ?_, rfl, hdevices,
        ⟨_, rfl⟩, Pool.status_write m.pool frame page⟩
      · rcases Nat.lt_or_ge frame.cell m.pool.total with hcell | hcell
        · exact (Pool.read_write m.pool hcell page g).trans (if_neg (hg slot frame rfl))
        · exact congrArg (Pool.read · g) (Pool.write_of_le hcell page)
      · obtain ⟨rfl, rfl⟩ := SlotOp.load.inj hop
        have hread := (Pool.read_write m.pool hcell page frame).trans (if_pos rfl)
        exact ⟨hread, fun b hb => hread.trans (h.image slot b hb)⟩

theorem swapOut_serves (h : m.Stocks size σ) (frame : Frame) :
    (SlotOp.swapOut frame).Serves size σ m where
  halts e he := by
    obtain ⟨hnone, rfl⟩ := lowestUnused_of_take he
    simp only [run, Kernel.swapOut, bind, EStateM.bind, allocateSlot_eq_error h hnone]
  returns taken he := by
    obtain ⟨t, rfl, hfind, ht, hfree⟩ := take_eq he
    obtain ⟨role, sectors, hspec, hrole, hfull⟩ := h.device
    have hlen : t < m.swap.used.len := Nat.lt_of_lt_of_eq ht h.slots.symm
    set swap : Swap := { m.swap with used := m.swap.used.putBit t true } with hswap
    obtain ⟨r, hput, himage, hothers, hsame, hdevices⟩ :=
      swap.exists_put_eq hspec hrole ht h.limit hfull (m.pool.read frame)
    refine ⟨((m.withSwap swap).withDevices r).report (.swappedOut frame t), eq_ok_of_ends ?_, ?_, ?_⟩
    · have hpool : (m.withSwap swap).pool = m.pool := rfl
      rw [run, ends_bind, Kernel.swapOut, ends_bind, ends_of_eq (allocateSlot_eq h hfind)]
      simp only [readFrame, transfer, ends_bind, ends_get, ends_pure, ends_modifyGet, ← hswap, hpool,
        Machine.withSwap_swap, Machine.withSwap_devices, hput, ends_emit]
      exact ⟨trivial, rfl⟩
    · rw [after_eq rfl]
      refine h.update ht (.holds (m.pool.read frame)) rfl rfl (h.sized.putBit t true)
        (h.sized.bit_putBit hlen true) hsame hothers fun b hb => ?_
      obtain rfl := Shelf.holds.inj hb
      exact himage
    · exact ⟨fun u hu hne => hothers u hu fun heq => hne (by rw [heq]; rfl), fun g _ => rfl,
        fun slot frame hop => by simp at hop, rfl, hdevices, ⟨_, rfl⟩, fun c => rfl⟩

theorem serves (h : m.Stocks size σ) : ∀ op : SlotOp, op.Serves size σ m
  | .allocate => allocate_serves h
  | .store slot frame => store_serves h slot frame
  | .load slot frame => load_serves h slot frame
  | .release slot => release_serves h slot
  | .swapOut frame => swapOut_serves h frame

end SlotOp

/-! ### Runs -/

/-- The machines that the use of swap space on a device of `size` sectors comes to, with the map that
the operations make. Between them anything may happen that leaves swap space and its device alone. -/
inductive SwapRun (size : Nat) : Machine φ → (Nat → Shelf) → Prop
  | attach {m m' : Machine φ} {i : Nat} {d : Device}
      (device : m.devices.firstInRole? .swap = some (i, d)) (registered : d.size = size)
      (limit : size < Swap.sectorLimit) (whole : size ≤ d.disk.sectors.size)
      (run : Kernel.attachSwap m = .ok () m') : SwapRun size m' fun _ => .unused
  | use {m m' : Machine φ} {σ : Nat → Shelf} {op : SlotOp} {taken : Option Nat}
      (reach : SwapRun size m σ) (run : op.run m = .ok taken m') :
      SwapRun size m' (op.after m.pool σ taken)
  | aside {m m' : Machine φ} {σ : Nat → Shelf} (reach : SwapRun size m σ) (swap : m'.swap = m.swap)
      (device : m'.devices.devices[m.swap.device]? = m.devices.devices[m.swap.device]?) :
      SwapRun size m' σ

namespace Machine

variable {m m' : Machine φ} {size : Nat} {σ : Nat → Shelf}

theorem Stocks.congr (h : m.Stocks size σ) (hswap : m'.swap = m.swap)
    (hdevice : m'.devices.devices[m.swap.device]? = m.devices.devices[m.swap.device]?) :
    m'.Stocks size σ where
  slots := hswap ▸ h.slots
  sized := hswap ▸ h.sized
  tidy := hswap ▸ h.tidy
  device := by
    rw [hswap, Registry.spec, hdevice]
    exact h.device
  limit := h.limit
  bit := hswap ▸ h.bit
  image t b hb := by
    rw [hswap, ← h.image t b hb]
    exact Swap.image_congr fun i _ => by rw [Registry.sectorAt, Registry.sectorAt, hdevice]

theorem attach_of_firstInRole {i : Nat} {d : Device} (hdevice : m.devices.firstInRole? .swap = some (i, d))
    (hsize : sectorsPerPage ≤ d.size) :
    Swap.attach m.devices = .ok (d, ⟨i, .ofLength (d.size / sectorsPerPage)⟩) := by
  have hpos : d.size / sectorsPerPage ≠ 0 := by
    simp only [sectorsPerPage, pageSize, sectorSize] at *
    omega
  simp only [Swap.attach, hdevice, if_neg hpos]

/-- Swap space can be set up on any device that holds a page. -/
theorem exists_attachSwap {i : Nat} {d : Device} (hdevice : m.devices.firstInRole? .swap = some (i, d))
    (hsize : sectorsPerPage ≤ d.size) : ∃ m', Kernel.attachSwap m = .ok () m' := by
  refine ⟨(m.withSwap ⟨i, .ofLength (d.size / sectorsPerPage)⟩).report
    (.swapAttached d.name (d.size / sectorsPerPage)), Kernel.eq_ok_of_ends ?_⟩
  simp only [Kernel.attachSwap, Kernel.ends_bind, Kernel.ends_get, attach_of_firstInRole hdevice hsize,
    Kernel.ends_modify, Kernel.ends_emit]
  exact ⟨trivial, rfl⟩

/-- Swap space that has just been set up keeps the map of unused slots. -/
theorem stocks_of_attach {i : Nat} {d : Device} (hdevice : m.devices.firstInRole? .swap = some (i, d))
    (hsize : d.size = size) (hlimit : size < Swap.sectorLimit) (hwhole : size ≤ d.disk.sectors.size)
    (hrun : Kernel.attachSwap m = .ok () m') : m'.Stocks size fun _ => .unused := by
  refine Kernel.Ends.of_ok (Q := fun _ m' => m'.Stocks size fun _ => .unused)
    (E := fun _ _ => True) ?_ hrun
  simp only [Kernel.attachSwap, Kernel.ends_bind, Kernel.ends_get]
  cases hattach : Swap.attach m.devices with
  | error e => trivial
  | ok x =>
    obtain ⟨d', swap⟩ := x
    obtain ⟨hd, hrole, hused⟩ := Swap.attach_eq_ok hattach
    obtain rfl : d' = d := by
      simp only [Swap.attach, hdevice] at hattach
      split at hattach
      · simp at hattach
      · simp only [Except.ok.injEq, Prod.mk.injEq] at hattach
        exact hattach.1.symm
    simp only [Kernel.ends_bind, Kernel.ends_modify, Kernel.ends_emit]
    refine ⟨?_, ?_, ?_, ⟨.swap, d'.disk.sectors.size, ?_, by decide, hwhole⟩, Nat.le_of_lt hlimit, fun t => ?_,
      fun t b hb => by simp at hb⟩
    · show swap.used.len = _
      rw [hused, hsize]
      rfl
    · show swap.used.Sized
      exact hused ▸ Bitmap.sized_ofLength _
    · show swap.used.Tidy
      exact hused ▸ Bitmap.tidy_ofLength _
    · show m.devices.spec swap.device = _
      rw [Registry.spec, hd, Option.map_some, hrole, hsize]
    · show swap.used.bit t = false
      exact hused ▸ Bitmap.bit_ofLength _ t

end Machine

namespace SwapRun

variable {m : Machine φ} {size : Nat} {σ : Nat → Shelf}

/-- Along every run, the machine keeps the map that the operations make. -/
theorem stocks (h : SwapRun size m σ) : m.Stocks size σ := by
  induction h with
  | attach device registered limit whole run =>
    exact Machine.stocks_of_attach device registered limit whole run
  | @use m m' σ op taken _ run ih =>
    have hserves := SlotOp.serves ih op
    cases hanswer : op.answer (size / sectorsPerPage) σ with
    | error e =>
      rw [hserves.halts e hanswer] at run
      simp at run
    | ok taken' =>
      obtain ⟨m₁, hrun, hstocks, -⟩ := hserves.returns taken' hanswer
      obtain ⟨rfl, rfl⟩ := EStateM.Result.ok.inj (hrun.symm.trans run)
      exact hstocks
  | aside _ swap device ih => exact ih.congr swap device

/-- Swap space is a page store: it can be set up on any device that holds a page, and from then on is a
map from the slots below `size / sectorsPerPage` to pages, which every operation reads and changes as its
answer on the map says. -/
theorem page_store (size : Nat) :
    (∀ (m : Machine φ) (i : Nat) (d : Device), m.devices.firstInRole? .swap = some (i, d) →
      d.size = size → sectorsPerPage ≤ size → ∃ m', Kernel.attachSwap m = .ok () m') ∧
    ∀ (m : Machine φ) (σ : Nat → Shelf), SwapRun size m σ →
      m.swap.slots = size / sectorsPerPage ∧
      m.swap.usedSlots = ((List.range (size / sectorsPerPage)).filter fun t => (σ t).isUsed).length ∧
      (∀ t, (σ t).isUsed = true → t < size / sectorsPerPage) ∧
      (∀ t page, σ t = .holds page → Swap.image m.devices m.swap.device t = page) ∧
      (∀ t < size / sectorsPerPage, ∀ i < sectorsPerPage,
        Swap.sectorOf t i = t * sectorsPerPage + i ∧ t * sectorsPerPage + i < size) ∧
      ∀ op : SlotOp, op.Serves size σ m := by
  refine ⟨fun m i d hdevice hsize hpage => Machine.exists_attachSwap hdevice (hsize ▸ hpage), ?_⟩
  intro m σ h
  have hstocks := h.stocks
  refine ⟨hstocks.slots, ?_, fun t => hstocks.lt_of_isUsed, hstocks.image,
    fun t ht i hi => Swap.sectorOf_eq hi ht hstocks.limit, SlotOp.serves hstocks⟩
  rw [Swap.usedSlots, hstocks.tidy.ones_eq hstocks.sized, Bitmap.members,
    show m.swap.used.len = size / sectorsPerPage from hstocks.slots]
  simp only [← hstocks.bit]

/-- A device of twenty sectors has two slots: one has been taken, and a frame swapped out to the
other. -/
theorem page_store_of_two_slots : ∃ (m : Machine Unit) (σ : Nat → Shelf), SwapRun 20 m σ ∧
    σ 0 = .taken ∧ (∃ page, σ 1 = .holds page) ∧ m.swap.slots = 2 ∧ m.swap.usedSlots = 2 ∧
    SlotOp.allocate.run m = .error (.halt (.swap (.full 2))) m ∧
    ∀ op : SlotOp, op.Serves 20 σ m := by
  let m₀ : Machine Unit := { Machine.bare (.always ⟨256, #[⟨.free, .zero pageSize⟩], 0, 0⟩) () with
    devices := Registry.empty.register .swap "hdb" 20 (.blank 24) }
  have hdevice : m₀.devices.firstInRole? .swap = some (0, ⟨"hdb", .swap, 20, .blank 24, 0, 0⟩) := by
    simp [m₀, Registry.firstInRole?, Registry.byRole, Registry.device?, Registry.register, Registry.empty]
  obtain ⟨hstart, hrun⟩ := page_store (φ := Unit) 20
  obtain ⟨m₁, hattach⟩ := hstart m₀ 0 _ hdevice rfl (by decide)
  have h₁ : SwapRun 20 m₁ fun _ => .unused := .attach hdevice rfl (by decide) (by decide) hattach
  obtain ⟨m₂, hallocate, -⟩ := (SlotOp.serves h₁.stocks .allocate).returns (some 0) rfl
  have h₂ := h₁.use hallocate
  obtain ⟨m₃, hswapOut, -⟩ := (SlotOp.serves h₂.stocks (.swapOut ⟨256, 0⟩)).returns (some 1) rfl
  have h₃ := h₂.use hswapOut
  obtain ⟨hslots, hused, -, -, -, hserves⟩ := hrun m₃ _ h₃
  exact ⟨m₃, _, h₃, rfl, ⟨_, rfl⟩, hslots, hused, (hserves .allocate).halts _ rfl, hserves⟩

end SwapRun

end DemandPaging
