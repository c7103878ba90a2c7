import DemandPaging.Proofs.View
import Mathlib.Data.Multiset.Dedup

/-!
# Which page is where

Four invariants tie together what different parts of a machine say of the same page. `Owned` is about
the pages that belong to processes and never change hands. `Housed` says that the page, the frame
table, the page table and the pool agree on which pages are in memory. `Swapped` says that the pages
and the swap space agree on which slots are used. `Sourced` says that every page can be rebuilt.

A page comes into memory by `occupy` and leaves it by `vacate`; both keep `Housed`.
-/

namespace DemandPaging

/-- A page whose contents are kept in swap space is either in memory or in a slot; any other page
has no slot, since its file has its contents. -/
def Page.Sourced (p : Page) : Prop :=
  if p.keeping = .swap then p.frame.isSome ≠ p.slot.isSome else p.slot = none

theorem Page.Sourced.slot_eq_none {p : Page} (h : p.Sourced) (hf : p.frame.isSome = true) :
    p.slot = none := by
  unfold Page.Sourced at h
  split at h
  · simpa [hf] using h
  · exact h

/-- A page that has just come in from its slot, its file or nowhere can be rebuilt. -/
theorem Page.Sourced.of_resident {p : Page} (hf : p.frame.isSome = true) (hs : p.slot = none) :
    p.Sourced := by
  unfold Page.Sourced
  split
  · simp [hf, hs]
  · exact hs

namespace View

variable {φ : Type} {v : View φ} {p q : ProcId} {u w : Nat} {i j : PageId} {f : Frame}
  {b : PageBytes} {s : Nat}

/-- What is true of every page that belongs to a process, for as long as it does. -/
structure Owned (v : View φ) : Prop where
  lt : ∀ {p u i}, v.own p u = some i → i < v.next
  live : ∀ {p u i}, v.own p u = some i → v.exited p = false
  upage : ∀ {p u i}, v.own p u = some i → (v.page i).upage = u
  aligned : ∀ {p u i}, v.own p u = some i → isAligned u = true
  user : ∀ {p u i}, v.own p u = some i → isUser u = true
  owner : ∀ {p q u w i}, v.own p u = some i → v.own q w = some i → p = q
  fits : ∀ {p u i r}, v.own p u = some i → (v.page i).backing.region? = some r →
    r.readLen + r.zeroLen = pageSize

/-- A page that is in memory has one entry in the frame table, with its frame and its process, and
the page table maps it there; nothing else is listed, mapped or lent. -/
structure Housed (v : View φ) : Prop where
  mapping? : ∀ p u, v.mapping? p u = (v.own p u).bind fun i =>
    (v.page i).frame.map fun f => (.forUser f (v.page i).writable, f)
  clean : ∀ p u, v.mapping? p u = none → v.dirty p u = false
  listed : ∀ f p i, ⟨f, p, i⟩ ∈ v.tenants ↔ ∃ u, v.own p u = some i ∧ (v.page i).frame = some f
  once : (v.tenants.map fun e => e.frame.cell).Nodup
  pfn : ∀ e ∈ v.tenants, e.frame.pfn = v.plant.firstPfn + e.frame.cell
  lent : ∀ c, (v.cell c).isSome = true ↔ ∃ e ∈ v.tenants, e.frame.cell = c
  total : ∀ c, (v.cell c).isSome = true → c < v.plant.total
  inUse : v.inUse = v.tenants.card

/-- The used slots are those that pages are in, and no two pages are in one. -/
structure Swapped (v : View φ) : Prop where
  used : ∀ s, (v.slot s).isSome = true ↔ ∃ p u i, v.own p u = some i ∧ (v.page i).slot = some s
  inj : ∀ {p q u w i j s}, v.own p u = some i → v.own q w = some j → (v.page i).slot = some s →
    (v.page j).slot = some s → i = j
  lt : ∀ s, (v.slot s).isSome = true → s < v.plant.slots

/-- Every page that belongs to a process can be rebuilt. -/
def Sourced (v : View φ) : Prop := ∀ p u i, v.own p u = some i → (v.page i).Sourced

/-- A page belongs to one process, at one address. -/
theorem Owned.eq_of_own (h : v.Owned) (hi : v.own p u = some i) (hj : v.own q w = some i) :
    p = q ∧ u = w :=
  ⟨h.owner hi hj, (h.upage hi).symm.trans (h.upage hj)⟩

/-- What is known of the pages stays true while they keep their address and backing. -/
theorem Owned.congr {v' : View φ} (h : v.Owned)
    (hown : ∀ {p u i}, v'.own p u = some i → v.own p u = some i) (hnext : v.next ≤ v'.next)
    (hexited : v'.exited = v.exited)
    (hpage : ∀ {p u i}, v'.own p u = some i →
      (v'.page i).upage = (v.page i).upage ∧ (v'.page i).backing = (v.page i).backing) :
    v'.Owned where
  lt hi := Nat.lt_of_lt_of_le (h.lt (hown hi)) hnext
  live hi := by rw [hexited, h.live (hown hi)]
  upage hi := (hpage hi).1.trans (h.upage (hown hi))
  aligned hi := h.aligned (hown hi)
  user hi := h.user (hown hi)
  owner hi hj := h.owner (hown hi) (hown hj)
  fits hi hr := h.fits (hown hi) (by rw [← (hpage hi).2, hr])

/-! ### Pages in memory -/

theorem Housed.mem_tenants (h : v.Housed) (hi : v.own p u = some i)
    (hf : (v.page i).frame = some f) : ⟨f, p, i⟩ ∈ v.tenants :=
  (h.listed f p i).2 ⟨u, hi, hf⟩

theorem Housed.nodup (h : v.Housed) : v.tenants.Nodup := Multiset.Nodup.of_map _ h.once

/-- No two entries share a frame. -/
theorem Housed.eq_of_cell (h : v.Housed) {e e' : Tenancy} (he : e ∈ v.tenants)
    (he' : e' ∈ v.tenants) (hc : e.frame.cell = e'.frame.cell) : e = e' :=
  Multiset.inj_on_of_nodup_map h.once e he e' he' hc

theorem Housed.exists_cell (h : v.Housed) (hi : v.own p u = some i)
    (hf : (v.page i).frame = some f) : ∃ b, v.cell f.cell = some b :=
  Option.isSome_iff_exists.1 ((h.lent f.cell).2 ⟨_, h.mem_tenants hi hf, rfl⟩)

theorem Housed.mapping?_of_frame (h : v.Housed) (hi : v.own p u = some i)
    (hf : (v.page i).frame = some f) :
    v.mapping? p u = some (.forUser f (v.page i).writable, f) := by
  rw [h.mapping?, hi, Option.bind_some, hf, Option.map_some]

theorem Housed.mapping?_eq_some (h : v.Housed) {x : PageTable.Rights × Frame}
    (hx : v.mapping? p u = some x) : ∃ i, v.own p u = some i ∧ (v.page i).frame = some x.2 ∧
      x.1 = .forUser x.2 (v.page i).writable := by
  rw [h.mapping?] at hx
  obtain ⟨i, hi, hx⟩ := Option.bind_eq_some_iff.1 hx
  obtain ⟨f, hf, rfl⟩ := Option.map_eq_some_iff.1 hx
  exact ⟨i, hi, hf, rfl⟩

/-- `Housed` speaks of frames only. -/
theorem Housed.congr {v' : View φ} (h : v.Housed) (hplant : v'.plant = v.plant)
    (hown : v'.own = v.own) (hmapping : v'.mapping? = v.mapping?)
    (hdirty : ∀ p u, v'.dirty p u = true → v.dirty p u = true ∨ (v.mapping? p u).isSome = true)
    (htenants : v'.tenants = v.tenants) (hinUse : v'.inUse = v.inUse)
    (hcell : ∀ c, (v'.cell c).isSome = (v.cell c).isSome)
    (hpage : ∀ {p u i}, v.own p u = some i → (v'.page i).frame = (v.page i).frame ∧
      (v'.page i).writable = (v.page i).writable) : v'.Housed where
  mapping? p u := by
    rw [hmapping, h.mapping?, hown]
    cases hi : v.own p u with
    | none => rfl
    | some i => rw [Option.bind_some, Option.bind_some, (hpage hi).1, (hpage hi).2]
  clean p u hnone := by
    rw [hmapping] at hnone
    by_contra hd
    rcases hdirty p u (by simpa using hd) with hd | hm
    · rw [h.clean p u hnone] at hd
      exact Bool.false_ne_true hd
    · simp [hnone] at hm
  listed f p i := by
    rw [htenants, h.listed, hown]
    exact exists_congr fun u => and_congr_right fun hi => by rw [(hpage hi).1]
  once := by rw [htenants]; exact h.once
  pfn e he := by rw [hplant]; exact h.pfn e (by rwa [htenants] at he)
  lent c := by rw [hcell, htenants]; exact h.lent c
  total c hc := by rw [hplant]; exact h.total c (by rwa [hcell] at hc)
  inUse := by rw [hinUse, htenants]; exact h.inUse

/-- The view after page `i` of process `p` at `u` has left frame `f`. -/
@[simps -fullyApplied] def vacate (v : View φ) (p : ProcId) (u : Nat) (i : PageId) (f : Frame) :
    View φ :=
  { v with
    page := Function.update v.page i { v.page i with frame := none }
    mapping? := setAt v.mapping? p u none
    dirty := setAt v.dirty p u false
    tenants := v.tenants.erase ⟨f, p, i⟩
    inUse := v.inUse - 1
    cell := Function.update v.cell f.cell none }

/-- The view after page `i` of process `p` at `u` has come into frame `f`, which holds `b`. -/
@[simps -fullyApplied] def occupy (v : View φ) (p : ProcId) (u : Nat) (i : PageId) (f : Frame)
    (b : PageBytes) : View φ :=
  { v with
    page := Function.update v.page i { v.page i with frame := some f, slot := none }
    mapping? := setAt v.mapping? p u (some (.forUser f (v.page i).writable, f))
    dirty := setAt v.dirty p u false
    tenants := ⟨f, p, i⟩ ::ₘ v.tenants
    inUse := v.inUse + 1
    cell := Function.update v.cell f.cell (some b) }

/-- The page tables map a page that moves where it has moved to, and the other pages where they are. -/
theorem Housed.mapping?_update (h : v.Housed) (ho : v.Owned) (hi : v.own p u = some i) (pg : Page)
    (q : ProcId) (w : Nat) :
    setAt v.mapping? p u (pg.frame.map fun f => (.forUser f pg.writable, f)) q w =
      (v.own q w).bind fun j => (Function.update v.page i pg j).frame.map fun f =>
        (.forUser f (Function.update v.page i pg j).writable, f) := by
  rw [setAt_apply]
  split
  · rename_i heq
    rw [heq.1, heq.2, hi, Option.bind_some, Function.update_self]
  · rename_i hne
    rw [h.mapping?]
    cases hj : v.own q w with
    | none => rfl
    | some j =>
      have hij : j ≠ i := by
        rintro rfl
        exact hne (ho.eq_of_own hj hi)
      rw [Option.bind_some, Option.bind_some, Function.update_of_ne hij]

theorem Housed.clean_update (h : v.Housed) {x : Option (PageTable.Rights × Frame)}
    (hnone : setAt v.mapping? p u x q w = none) : setAt v.dirty p u false q w = false := by
  rw [setAt_apply] at hnone ⊢
  split
  · rfl
  · rename_i hne
    rw [if_neg hne] at hnone
    exact h.clean q w hnone

theorem Housed.vacate (h : v.Housed) (ho : v.Owned) (hi : v.own p u = some i)
    (hf : (v.page i).frame = some f) : (v.vacate p u i f).Housed where
  mapping? q w := h.mapping?_update ho hi { v.page i with frame := none } q w
  clean q w := h.clean_update
  listed g q j := by
    rw [vacate_tenants, h.nodup.mem_erase_iff, h.listed, vacate_own, vacate_page]
    constructor
    · rintro ⟨hne, w, hj, hg⟩
      have hji : j ≠ i := by
        rintro rfl
        obtain ⟨rfl, rfl⟩ := ho.eq_of_own hj hi
        rw [hf, Option.some.injEq] at hg
        exact hne (by rw [hg])
      exact ⟨w, hj, by rw [Function.update_of_ne hji, hg]⟩
    · rintro ⟨w, hj, hg⟩
      have hji : j ≠ i := by
        rintro rfl
        simp at hg
      rw [Function.update_of_ne hji] at hg
      exact ⟨fun he => hji (by rw [Tenancy.mk.injEq] at he; exact he.2.2), w, hj, hg⟩
  once := Multiset.nodup_of_le (Multiset.map_le_map (Multiset.erase_le _ _)) h.once
  pfn e he := h.pfn e (Multiset.mem_of_mem_erase he)
  lent c := by
    have hmem := h.mem_tenants hi hf
    rw [vacate_cell, vacate_tenants, Function.update_apply]
    split
    · rename_i hc
      refine ⟨fun hno => by simp at hno, ?_⟩
      rintro ⟨e, he, hec⟩
      obtain ⟨hne, he⟩ := h.nodup.mem_erase_iff.1 he
      exact absurd (h.eq_of_cell he hmem (hec.trans hc)) hne
    · rename_i hc
      rw [h.lent]
      refine exists_congr ?_
      intro e
      rw [h.nodup.mem_erase_iff]
      refine ⟨fun ⟨he, hec⟩ => ⟨⟨?_, he⟩, hec⟩, fun ⟨he, hec⟩ => ⟨he.2, hec⟩⟩
      rintro rfl
      exact hc hec.symm
  total c hc := by
    rw [vacate_cell, Function.update_apply] at hc
    split at hc
    · simp at hc
    · exact h.total c hc
  inUse := by
    rw [vacate_inUse, vacate_tenants, Multiset.card_erase_of_mem (h.mem_tenants hi hf), h.inUse,
      Nat.pred_eq_sub_one]

theorem Housed.occupy (h : v.Housed) (ho : v.Owned) (hi : v.own p u = some i)
    (hnone : (v.page i).frame = none) (hfree : v.cell f.cell = none) (htotal : f.cell < v.plant.total)
    (hpfn : f.pfn = v.plant.firstPfn + f.cell) : (v.occupy p u i f b).Housed where
  mapping? q w := h.mapping?_update ho hi { v.page i with frame := some f, slot := none } q w
  clean q w := h.clean_update
  listed g q j := by
    rw [occupy_tenants, Multiset.mem_cons, h.listed, occupy_own, occupy_page]
    constructor
    · rintro (he | ⟨w, hj, hg⟩)
      · simp only [Tenancy.mk.injEq] at he
        obtain ⟨rfl, rfl, rfl⟩ := he
        exact ⟨u, hi, by rw [Function.update_self]⟩
      · have hji : j ≠ i := by
          rintro rfl
          simp [hnone] at hg
        exact ⟨w, hj, by rw [Function.update_of_ne hji, hg]⟩
    · rintro ⟨w, hj, hg⟩
      rcases eq_or_ne j i with rfl | hji
      · obtain ⟨rfl, rfl⟩ := ho.eq_of_own hj hi
        rw [Function.update_self, Option.some.injEq] at hg
        exact .inl (by rw [hg])
      · rw [Function.update_of_ne hji] at hg
        exact .inr ⟨w, hj, hg⟩
  once := by
    rw [occupy_tenants, Multiset.map_cons, Multiset.nodup_cons]
    refine ⟨fun hmem => ?_, h.once⟩
    obtain ⟨e, he, hc⟩ := Multiset.mem_map.1 hmem
    have hlent := (h.lent f.cell).2 ⟨e, he, hc⟩
    simp [hfree] at hlent
  pfn e he := by
    rcases Multiset.mem_cons.1 he with rfl | he
    · exact hpfn
    · exact h.pfn e he
  lent c := by
    rw [occupy_cell, occupy_tenants, Function.update_apply]
    split
    · rename_i hc
      exact ⟨fun _ => ⟨_, Multiset.mem_cons_self _ _, hc.symm⟩, fun _ => rfl⟩
    · rename_i hc
      rw [h.lent]
      refine exists_congr fun e => and_congr_left fun hec => ?_
      rw [Multiset.mem_cons, or_iff_right]
      rintro rfl
      exact hc hec.symm
  total c hc := by
    rw [occupy_cell, Function.update_apply] at hc
    split at hc
    · rename_i hcf
      rw [hcf]
      exact htotal
    · exact h.total c hc
  inUse := by rw [occupy_inUse, occupy_tenants, Multiset.card_cons, h.inUse]

end View

end DemandPaging
