import DemandPaging.Proofs.Access
import DemandPaging.Proofs.Lending

/-!
# Which frames of a pool can be mapped

A pool and a page table bound frame numbers on their own. A pool takes numbers of 32 bits, the entry of a
page has 20 bits for one, and to map a frame with a larger number stops the machine. So the frames that
a pool lends can all be mapped if the last one of them has a number of 20 bits, and not otherwise:
`AllMappable`. A number that an entry takes stays there while the page is used.
-/

namespace DemandPaging

namespace PageTable

/-- The frame number in the entry of a page. -/
def pfn? (t : PageTable) (u : Nat) : Option Nat := t.entries[u]?.map fun x => x.1.pfn

/-- The tables that come of `t` when its pages are read and written and accessed bits are set. -/
inductive Used (t : PageTable) : PageTable → Prop
  | unused : Used t t
  | setAccessed {t' : PageTable} (used : Used t t') (u : Nat) (v : Bool) : Used t (t'.setAccessed u v)
  | load {t' : PageTable} (used : Used t t') (pool : Pool) (a len : Nat) :
      Used t (t'.load pool a len).table
  | store {t' : PageTable} (used : Used t t') (pool : Pool) (a : Nat) (data : List UInt8) :
      Used t (t'.store pool a data).table

/-- A page can be mapped at `u`: it is the first address of a page that is not mapped, and the table is
not full. -/
structure HasRoom (t : PageTable) (u : Nat) : Prop where
  aligned : isAligned u = true
  unmapped : t.mapping? u = none
  room : t.full = false

variable {t t' : PageTable} {u : Nat} {f : Frame} {w : Bool}

theorem pfn?_eq (t : PageTable) (u : Nat) : t.pfn? u = (t.mapping? u).map fun x => x.1.pfn := by
  rw [pfn?, mapping?, Option.map_map]
  rfl

theorem Used.mapping? (h : Used t t') (v : Nat) : t'.mapping? v = t.mapping? v := by
  induction h with
  | unused => rfl
  | setAccessed _ u a ih => exact (mapping?_setAccessed _ u a v).trans ih
  | load _ pool a len ih => exact ((load_keeps pool len _ a).1 v).trans ih
  | store _ pool a data ih => exact ((store_keeps data _ pool a).mapping? v).trans ih

/-- A frame with a number of 20 bits is mapped. -/
theorem HasRoom.map_eq_ok (h : t.HasRoom u) (hpfn : f.pfn < Entry.pfnLimit) :
    ∃ t', t.map u f w = .ok (some t') ∧ t'.mapping? u = some (.forUser f w, f) := by
  rcases map_cases (t := t) (f := f) (w := w) h.aligned with
    ⟨-, hwide⟩ | ⟨-, htaken | hfull⟩ | ⟨t', hmap, -, -, hmapping, -, -⟩
  · omega
  · rw [h.unmapped] at htaken
    simp at htaken
  · rw [h.room] at hfull
    simp at hfull
  · exact ⟨t', hmap, by rw [hmapping, if_pos rfl]⟩

/-- Any other one stops the machine. -/
theorem HasRoom.map_eq_error (h : t.HasRoom u) (hpfn : Entry.pfnLimit ≤ f.pfn) :
    t.map u f w = .error .wideFrame := by
  have hnew : t.entries.contains u = false := by
    rw [Bool.eq_false_iff]
    simpa [PageTable.mapping?] using h.unmapped
  rw [map, h.aligned, hnew, h.room]
  exact if_pos hpfn

theorem hasRoom_empty (hu : isAligned u = true) : (empty none).HasRoom u :=
  ⟨hu, mapping?_empty none, rfl⟩

end PageTable

/-- A frame can be mapped by every page table with room for a page, and the entry of the page holds its
number from then on. -/
def Frame.Mappable (f : Frame) : Prop := ∀ (t : PageTable) (u : Nat) (w : Bool), t.HasRoom u →
  ∃ t', t.map u f w = .ok (some t') ∧ ∀ t'', t'.Used t'' → t''.pfn? u = some f.pfn

theorem Frame.mappable_iff (f : Frame) : f.Mappable ↔ f.pfn < PageTable.Entry.pfnLimit := by
  constructor
  · intro h
    by_contra hwide
    have hroom := PageTable.hasRoom_empty (u := 0) rfl
    obtain ⟨t', hmap, -⟩ := h _ 0 true hroom
    rw [hroom.map_eq_error (Nat.le_of_not_lt hwide)] at hmap
    simp at hmap
  · intro hpfn t u w hroom
    obtain ⟨t', hmap, hmapping⟩ := hroom.map_eq_ok (w := w) hpfn
    refine ⟨t', hmap, fun t'' hused => ?_⟩
    rw [PageTable.pfn?_eq, hused.mapping?, hmapping]
    rfl

namespace Pool

/-- Every frame that the users of a pool of `frames` frames from `base` on can have at a time can be
mapped. -/
def AllMappable (frames base : Nat) : Prop :=
  ∀ p σ, Run frames base p σ → ∀ f ∈ σ.live, f.Mappable

variable {p : Pool} {frames base : Nat}

/-- Requests can bring about any number of live frames that the pool has. -/
theorem exists_run_length (h : create frames base = .ok p) :
    ∀ n ≤ frames, ∃ q σ, Run frames base q σ ∧ σ.live.length = n
  | 0, _ => ⟨p, _, .create h, rfl⟩
  | n + 1, hn => by
    obtain ⟨q, σ, hrun, hlength⟩ := exists_run_length h n (by omega)
    have hbooks := hrun.books
    cases halloc : q.alloc (.forUser true) with
    | ok x => exact ⟨x.2, _, .alloc hrun halloc, by rw [List.length_cons, hlength]⟩
    | error e =>
      have hall : ∀ i ∈ List.range frames, q.lent i = true := fun i hi =>
        lent_of_alloc_error halloc (Frame.user_forUser true) (hbooks.total ▸ List.mem_range.1 hi)
      have hmarked := hbooks.balances.marked
      rw [hbooks.inUse, hlength, List.countP_eq_length.2 hall, List.length_range] at hmarked
      omega

/-- All frames of a pool can be live at a time. -/
theorem exists_run_all (h : create frames base = .ok p) :
    ∃ q σ, Run frames base q σ ∧ ∀ i < frames, frameOf base i ∈ σ.live := by
  obtain ⟨q, σ, hrun, hlength⟩ := exists_run_length h frames (Nat.le_refl frames)
  have hall : (List.range frames).countP q.lent = (List.range frames).length := by
    rw [← hrun.books.balances.marked, hrun.books.inUse, hlength, List.length_range]
  exact ⟨q, σ, hrun, fun i hi =>
    (hrun.books.lent_iff i).1 (List.countP_eq_length.1 hall i (List.mem_range.2 hi))⟩

/-- The frames of a pool can all be mapped if their numbers have 20 bits, and to map one that has a
larger number stops the machine. -/
theorem maps_narrow_frames (h : create frames base = .ok p) :
    (AllMappable frames base ↔ frames = 0 ∨ base / pageSize + frames ≤ PageTable.Entry.pfnLimit) ∧
    ∀ q σ, Run frames base q σ → ∀ f ∈ σ.live, (f.pfn < PageTable.Entry.pfnLimit → f.Mappable) ∧
      (PageTable.Entry.pfnLimit ≤ f.pfn → ∀ (t : PageTable) (u : Nat) (w : Bool), t.HasRoom u →
        t.map u f w = .error .wideFrame) := by
  refine ⟨⟨fun hall => ?_, fun hnarrow q σ hrun f hf => ?_⟩, fun q σ hrun f hf =>
    ⟨f.mappable_iff.2, fun hwide t u w hroom => hroom.map_eq_error hwide⟩⟩
  · obtain ⟨q, σ, hrun, hlive⟩ := exists_run_all h
    by_contra hno
    have hpos : frames - 1 < frames := by omega
    have hlast := (Frame.mappable_iff _).1 (hall q σ hrun _ (hlive (frames - 1) hpos))
    rw [frameOf] at hlast
    dsimp only at hlast
    omega
  · rw [Frame.mappable_iff]
    have hinside := (hrun.books.balances.inside f hf).1
    rw [Outside] at hinside
    omega

/-- The limit lies behind the frame at 4 GiB less a page. -/
theorem maps_narrow_frames_below_limit :
    AllMappable 1 0xfffff000 ∧ (∃ p, create 2 0xfffff000 = .ok p) ∧ ¬ AllMappable 2 0xfffff000 :=
  ⟨(maps_narrow_frames rfl).1.2 (.inr (by decide)), ⟨_, rfl⟩,
    fun hall => absurd ((maps_narrow_frames rfl).1.1 hall) (by decide)⟩

/-- The frame of a pool at 4 GiB is lent and stops the machine when it is mapped. -/
theorem not_allMappable_at_limit : ∃ p f p', create 1 0x100000000 = .ok p ∧
    p.alloc (.forUser true) = .ok (f, p') ∧ (PageTable.empty none).HasRoom 0x10000000 ∧
    (PageTable.empty none).map 0x10000000 f true = .error .wideFrame ∧
    ¬ AllMappable 1 0x100000000 := by
  have hroom := PageTable.hasRoom_empty (u := 0x10000000) rfl
  obtain ⟨p, hcreate, p', halloc⟩ : ∃ p, create 1 0x100000000 = .ok p ∧
    ∃ p', p.alloc (.forUser true) = .ok (⟨0x100000, 0⟩, p') := ⟨_, rfl, _, rfl⟩
  refine ⟨p, _, p', hcreate, halloc, hroom, hroom.map_eq_error (by decide), fun hall => ?_⟩
  have hmappable := hall p' _ (.alloc (.create hcreate) halloc) _ List.mem_cons_self
  exact absurd ((Frame.mappable_iff _).1 hmappable) (by decide)

end Pool

end DemandPaging
