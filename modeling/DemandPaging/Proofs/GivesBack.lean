import DemandPaging.Proofs.Operation

/-!
# What is left when pages are given back

When a process gives up pages of mapped files, their entries in the page table, their entries in the
frame table and their frames go with them. `Machine.GivesBack` says that, and that this is all: every
other page is where it was and as it was, and so is its mapping, its frame with its bytes and its slot
with its bytes.
-/

namespace DemandPaging

variable {φ : Type}

namespace Machine

/-- Process `p` has given back its pages at `us`: they are not declared any more, and not mapped, listed
or lent. Nothing else has changed. -/
structure GivesBack (m m' : Machine φ) (p : ProcId) (us : List Nat) : Prop where
  declared : ∀ q w, m'.declaredAt q w = if q = p ∧ w ∈ us then none else m.declaredAt q w
  page : ∀ q w i, m'.declaredAt q w = some i → m'.page i = m.page i
  mapping? : ∀ q w, (m'.process q).table.mapping? w =
    if q = p ∧ w ∈ us then none else (m.process q).table.mapping? w
  dirty : ∀ q w, (m'.process q).table.isDirty w =
    if q = p ∧ w ∈ us then false else (m.process q).table.isDirty w
  entries : ∀ e, e ∈ m'.frames.entries ↔ e ∈ m.frames.entries ∧
    ¬ (e.owner = p ∧ ∃ u ∈ us, m.declaredAt p u = some e.page)
  freed : ∀ u ∈ us, ∀ i f, m.declaredAt p u = some i → (m.page i).frame = some f →
    m'.pool.contents? f.cell = none
  /-- The bytes of the frames that stay lent are what they were. -/
  lent : ∀ c, (∀ u ∈ us, ∀ i f, m.declaredAt p u = some i → (m.page i).frame = some f → f.cell ≠ c) →
    m'.pool.contents? c = m.pool.contents? c
  /-- So are the slots that are used, and their bytes. -/
  slot : ∀ s, m'.swap.contents? m'.devices s = m.swap.contents? m.devices s

end Machine

namespace View

variable [FileSystem φ] {v v' : View φ} {p q : ProcId} {u w c s : Nat} {i : PageId} {f : Frame}
  {us : List Nat}

theorem Loses.own_of_kept (h : v.Loses p us v') (hi : v.own q w = some i) (hw : ¬ (q = p ∧ w ∈ us)) :
    v'.own q w = some i := by rw [h.own, if_neg hw, hi]

/-- The entries of the pages that have been given up are gone, and no others. -/
theorem Loses.mem_tenants (h : v.Loses p us v') (hv : v.Sound) (hv' : v'.Sound) (e : Tenancy) :
    e ∈ v'.tenants ↔ e ∈ v.tenants ∧ ¬ (e.owner = p ∧ ∃ u ∈ us, v.own p u = some e.page) := by
  obtain ⟨f, q, i⟩ := e
  rw [hv.housed.listed, hv'.housed.listed]
  constructor
  · rintro ⟨u, hi, hf⟩
    rw [h.page hi] at hf
    refine ⟨⟨u, h.own_of_own hi, hf⟩, ?_⟩
    rintro ⟨rfl, w, hw, hiw⟩
    obtain ⟨-, rfl⟩ := hv.owned.eq_of_own (h.own_of_own hi) hiw
    rw [h.own, if_pos ⟨rfl, hw⟩] at hi
    simp at hi
  · rintro ⟨⟨u, hi, hf⟩, hno⟩
    have hi' := h.own_of_kept hi fun hu => hno ⟨hu.1, u, hu.2, hu.1 ▸ hi⟩
    exact ⟨u, hi', by rw [h.page hi', hf]⟩

/-- The frame of a page that has been given up is free. -/
theorem Loses.cell_of_lost (h : v.Loses p us v') (hv : v.Sound) (hv' : v'.Sound) (hu : u ∈ us)
    (hi : v.own p u = some i) (hf : (v.page i).frame = some f) : v'.cell f.cell = none := by
  by_contra hsome
  rw [← ne_eq, ← Option.isSome_iff_ne_none] at hsome
  obtain ⟨e, he, hc⟩ := (hv'.housed.lent _).1 hsome
  obtain ⟨he, hno⟩ := (h.mem_tenants hv hv' e).1 he
  obtain rfl := hv.housed.eq_of_cell he (hv.housed.mem_tenants hi hf) hc
  exact hno ⟨rfl, u, hu, hi⟩

/-- Every other frame is lent as it was, and holds what it held. -/
theorem Loses.cell_of_kept (h : v.Loses p us v') (hv : v.Sound) (hv' : v'.Sound)
    (hc : ∀ u ∈ us, ∀ i f, v.own p u = some i → (v.page i).frame = some f → f.cell ≠ c) :
    v'.cell c = v.cell c := by
  cases hc' : v'.cell c with
  | some b =>
    obtain ⟨⟨f, q, i⟩, he, rfl⟩ := (hv'.housed.lent c).1 (by rw [hc']; rfl)
    obtain ⟨w, hi, hf⟩ := (hv'.housed.listed f q i).1 he
    rw [← hc']
    exact (h.retains hi).cell f (by rw [← h.page hi, hf])
  | none =>
    cases hb : v.cell c with
    | none => rfl
    | some b =>
      -- the page in the frame has not been given up, so it is there still
      obtain ⟨⟨f, q, i⟩, he, rfl⟩ := (hv.housed.lent c).1 (by rw [hb]; rfl)
      obtain ⟨u, hi, hf⟩ := (hv.housed.listed f q i).1 he
      have hi' := h.own_of_kept hi fun hu => hc u hu.2 i f (hu.1 ▸ hi) hf rfl
      obtain ⟨b', hb'⟩ := hv'.housed.exists_cell hi' (by rw [h.page hi', hf])
      simp [hc'] at hb'

/-- The slot of a page that has been given up is unused. -/
theorem Loses.slot_of_lost (h : v.Loses p us v') (hv : v.Sound) (hv' : v'.Sound) (hu : u ∈ us)
    (hi : v.own p u = some i) (hs : (v.page i).slot = some s) : v'.slot s = none := by
  by_contra hsome
  rw [← ne_eq, ← Option.isSome_iff_ne_none] at hsome
  obtain ⟨q, w, j, hj, hsj⟩ := (hv'.swapped.used s).1 hsome
  rw [h.page hj] at hsj
  obtain rfl := hv.swapped.inj hi (h.own_of_own hj) hs hsj
  obtain ⟨rfl, rfl⟩ := hv.owned.eq_of_own (h.own_of_own hj) hi
  rw [h.own, if_pos ⟨rfl, hu⟩] at hj
  simp at hj

/-- Every other slot is used as it was, and holds what it held. -/
theorem Loses.slot_of_kept (h : v.Loses p us v') (hv : v.Sound) (hv' : v'.Sound)
    (hs : ∀ u ∈ us, ∀ i, v.own p u = some i → (v.page i).slot ≠ some s) : v'.slot s = v.slot s := by
  cases hs' : v'.slot s with
  | some b =>
    obtain ⟨q, w, i, hi, hslot⟩ := (hv'.swapped.used s).1 (by rw [hs']; rfl)
    rw [← hs']
    exact (h.retains hi).slot s (by rw [← h.page hi, hslot])
  | none =>
    cases hb : v.slot s with
    | none => rfl
    | some b =>
      obtain ⟨q, w, i, hi, hslot⟩ := (hv.swapped.used s).1 (by rw [hb]; rfl)
      have hi' := h.own_of_kept hi fun hw => hs w hw.2 i (hw.1 ▸ hi) hslot
      have hused := (hv'.swapped.used s).2 ⟨q, w, i, hi', by rw [h.page hi', hslot]⟩
      simp [hs'] at hused

end View

namespace Machine

variable [FileSystem φ] {m m' : Machine φ} {v' : View φ} {p : ProcId} {us : List Nat}

theorem GivesBack.of_loses (hm : m.Steady) (h' : m'.Shows v' ∅) (hv' : v'.Sound)
    (hdeclared : v'.declared = v'.own) (hloses : m.scene.Loses p us v') (hmaps : m.scene.Maps p us) :
    m.GivesBack m' p us := by
  have hv := hm.sound
  -- a page that has been given up has no slot
  have hnoslot : ∀ {w i}, w ∈ us → m.scene.own p w = some i → (m.scene.page i).slot = none := by
    intro w i hw hi
    obtain ⟨j, r, hj, hr⟩ := hmaps w hw
    obtain rfl := Option.some.inj (hi.symm.trans hj)
    have hsourced := hv.sourced _ _ _ hi
    rwa [Page.Sourced, if_neg (by simp [Page.keeping, hr])] at hsourced
  refine ⟨fun q w => ?_, fun q w i hi => ?_, fun q w => ?_, fun q w => ?_, fun e => ?_,
    fun u hu i f hi hf => ?_, fun c hc => ?_, fun s => ?_⟩
  · rw [← h'.declared, hdeclared, hloses.own]
    rfl
  · rw [← h'.declared, hdeclared] at hi
    have hpage := hloses.page hi
    rw [h'.page] at hpage
    have hpin' : (m'.page i).pinned = false := by simpa using h'.fit.pinned i
    exact Page.eq_of_face hpage (hpin'.trans (hm.unpinned i).symm)
  · rw [← h'.mapping?, hv'.housed.mapping?, hloses.own]
    split
    · rfl
    · rename_i hw
      show _ = m.scene.mapping? q w
      rw [hv.housed.mapping?]
      refine Option.bind_congr fun i hi => ?_
      rw [hloses.page (hloses.own_of_kept hi hw)]
  · rw [← h'.dirty]
    split
    · rename_i hw
      exact hv'.housed.clean q w (by rw [hv'.housed.mapping?, hloses.own, if_pos hw]; rfl)
    · rename_i hw
      show _ = m.scene.dirty q w
      cases hi : m.scene.own q w with
      | some i => exact (hloses.retains (hloses.own_of_kept hi hw)).dirty
      | none =>
        rw [hv.housed.clean q w (by rw [hv.housed.mapping?, hi]; rfl)]
        exact hv'.housed.clean q w (by rw [hv'.housed.mapping?, hloses.own, if_neg hw, hi]; rfl)
  · have hlost := hloses.mem_tenants hv hv' e
    rw [h'.tenants, hm.shows.tenants, Multiset.mem_coe, Multiset.mem_coe] at hlost
    exact hlost
  · rw [← h'.cell]
    exact hloses.cell_of_lost hv hv' hu hi hf
  · rw [← h'.cell]
    exact hloses.cell_of_kept hv hv' hc
  · rw [← h'.slot]
    exact hloses.slot_of_kept hv hv' fun u hu i hi => by simp [hnoslot hu hi]

end Machine

end DemandPaging
