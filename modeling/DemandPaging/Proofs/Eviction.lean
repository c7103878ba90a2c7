import DemandPaging.Proofs.Clock
import DemandPaging.Proofs.Retain

/-!
# Making room

Two sweeps of the clock find a page to evict whenever a page that is not pinned is in memory. Evicting
that page is one effect, and afterwards a frame is free. Pages that others hold are left alone.

`Excused` lists the stops that a program may come to, each with what has to be wrong with the machine
or the request. Nothing is wrong with a machine whose swap space is full. When others hold pages,
nothing is said about how a program stops.
-/

namespace DemandPaging

namespace Machine

variable {φ : Type}

/-- A page is on its way out: its entry and its mapping are gone, its frame is not yet returned. -/
def Evicting (m : Machine φ) : Prop :=
  ∃ p u i f, m.declaredAt p u = some i ∧ (m.page i).pinned = true ∧ (m.page i).frame = some f ∧
    m.pool.lent f.cell = true ∧ (∀ e ∈ m.frames.entries, e.frame.cell ≠ f.cell) ∧
    (m.process p).table.mapping? u = none

/-- Every slot is held by a page of a live process that is not in memory. A page holds one slot at
most, so these pages are distinct. -/
def SwapFull (m : Machine φ) : Prop :=
  ∀ s < m.swap.slots, ∃ p u i, (m.process p).exited = false ∧ m.declaredAt p u = some i ∧
    (m.page i).frame = none ∧ (m.page i).slot = some s

end Machine

/-- The view once a lent frame that holds `b` is listed. -/
def View.host {φ : Type} (v : View φ) (e : Tenancy) (b : PageBytes) : View φ :=
  (v.lend e.frame.cell b).setTenants (e ::ₘ v.tenants)

/-- The stops that a program may come to, `late` being whether it may run past the last address. -/
def Excused {φ : Type} (late : Prop) (plant : Plant) : Stop → Machine φ → Prop
  | .halt .allPinned, _ => ¬ plant.Open
  | .halt (.shortage _), _ => ¬ plant.Open
  | .halt (.table .wideFrame), _ => PageTable.Entry.pfnLimit < plant.firstPfn + plant.total
  | .halt (.table .pastEnd), _ => late
  | .halt (.swap (.readRefused _ _)), _ => ¬ plant.Whole
  | .halt (.swap (.writeRefused _ _)), _ => ¬ plant.Whole
  | .halt (.swap (.full slots)), m => slots = plant.slots ∧ m.Evicting ∧ m.SwapFull
  | _, _ => False

theorem Excused.mono {φ : Type} {late late' : Prop} {plant : Plant} {e : Stop} {m : Machine φ}
    (h : Excused late plant e m) (himp : late → late') : Excused late' plant e m := by
  cases e with
  | wait => exact h
  | halt cause =>
    cases cause with
    | table e => cases e <;> first | exact himp h | exact h
    | swap e => cases e <;> exact h
    | _ => exact h

/-- The pages in `held` that are in memory. -/
def View.heldIn {φ : Type} (v : View φ) (held : Set PageId) : Set PageId :=
  {i | i ∈ held ∧ (v.page i).frame.isSome = true}

section

variable {φ : Type} [FileSystem φ] {late : Prop} {v v' : View φ} {e : Stop} {m : Machine φ}

omit [FileSystem φ] in
theorem View.heldIn_subset {held : Set PageId} {i : PageId} (haway : (v.page i).frame = none) :
    v.heldIn held ⊆ held \ {i} := by
  rintro j ⟨hj, hframe⟩
  refine ⟨hj, ?_⟩
  rintro rfl
  simp [haway] at hframe

/-- To make room, at most one page is evicted. -/
def View.MakesRoom (v v' : View φ) : Prop := v' = v ∨ ∃ i, Effect (.evict i) v v'

/-- A stop that a program may come to, and what it has done by then: made room and called the file
system once. -/
structure Stops (late : Prop) (v : View φ) (e : Stop) (m : Machine φ) : Prop where
  excused : Excused late v.plant e m
  before : ∃ w w', v.MakesRoom w ∧ (w' = w ∨ Effect .consult w w') ∧ m.Resembles w'

theorem Stops.of_resembles (he : Excused late v.plant e m) (hm : m.Resembles v) : Stops late v e m :=
  ⟨he, v, v, .inl rfl, .inl rfl, hm⟩

/-- The same when others hold the pages in `base`: then it may stop in any way. -/
def Stalls (base : Set PageId) (late : Prop) (v : View φ) (e : Stop) (m : Machine φ) : Prop :=
  Stops late v e m ∨ base.Nonempty

theorem Stalls.stops (h : Stalls ∅ late v e m) : Stops late v e m :=
  h.resolve_right Set.not_nonempty_empty

theorem Stalls.mono {base base' : Set PageId} (h : Stalls base late v e m) (hsub : base ⊆ base') :
    Stalls base' late v e m := h.imp_right (·.mono hsub)

theorem View.MakesRoom.stops (h : v.MakesRoom v') (he : Excused late v.plant e m)
    (hm : m.Resembles v') : Stops late v e m :=
  ⟨he, v', v', h, .inl rfl, hm⟩

end

namespace Kernel

open Machine

variable {φ : Type} {m m' : Machine φ} {v : View φ} {held : Set PageId} {i : PageId} {p : ProcId}
  {u s k : Nat} {f : Frame} {b : PageBytes} {late : Prop}

/-! ### Evicting a page -/

variable [FileSystem φ]

omit [FileSystem φ] in
/-- Between being taken by the clock and leaving its frame, a page is on its way out. -/
theorem evicting (hv : v.Sound) (hdeclared : v.declared = v.own) (he : ⟨f, p, i⟩ ∈ v.tenants)
    (hi : v.own p u = some i) (hf : (v.page i).frame = some f)
    (h : m.Shows ((v.setTenants (v.tenants.erase ⟨f, p, i⟩)).setMapping p u none) (insert i held)) :
    m.Evicting := by
  obtain ⟨b, hb⟩ := hv.housed.exists_cell hi hf
  refine ⟨p, u, i, f, ?_, (h.fit.pinned i).2 (Set.mem_insert i held), (h.frame i).trans hf,
    h.lent_of_cell hb, fun e' he' hcell => ?_, ?_⟩
  · rw [← h.declared]
    exact (congrFun (congrFun hdeclared p) u).trans hi
  · have ht : v.tenants.erase ⟨f, p, i⟩ = m.frames.entries := h.tenants
    obtain ⟨hne, hmem⟩ := hv.housed.nodup.mem_erase_iff.1 (ht ▸ Multiset.mem_coe.2 he')
    exact hne (hv.housed.eq_of_cell hmem he hcell)
  · rw [← h.mapping?, View.setMapping_mapping?, setAt_self]

omit [FileSystem φ] in
/-- When no slot is left, every slot holds a page that is not in memory. -/
theorem swapFull (hv : v.Sound) (hdeclared : v.declared = v.own)
    (hfull : ∀ s < v.plant.slots, (v.slot s).isSome = true) {t : Multiset Tenancy}
    (h : m.Shows ((v.setTenants t).setMapping p u none) held) : m.SwapFull := by
  intro s hs
  rw [← h.slots] at hs
  obtain ⟨q, w, j, hj, hjs⟩ := (hv.swapped.used s).1 (hfull s hs)
  refine ⟨q, w, j, (h.exited q).symm.trans (hv.owned.live hj), ?_, (h.frame j).trans ?_,
    (h.pageSlot j).trans hjs⟩
  · rw [← h.declared]
    exact (congrFun (congrFun hdeclared q) w).trans hj
  · show (v.page j).frame = none
    by_contra hresident
    have hnone := (hv.sourced _ _ _ hj).slot_eq_none (Option.isSome_iff_ne_none.2 hresident)
    rw [hjs] at hnone
    simp at hnone

/-- The page of the entry that the clock took goes where its contents are kept; what is left is to
return its frame. -/
theorem ends_pageOut (hv : v.Sound) (hdeclared : v.declared = v.own) {e : Tenancy}
    (he : e ∈ v.tenants) (h : m.Shows (v.setTenants (v.tenants.erase e)) (insert e.page held)) :
    Ends (pageOut e) m (fun _ m' => ∃ v', m'.Shows v' (insert e.page held) ∧ v'.cell = v.cell ∧
      v'.plant = v.plant ∧ Effect (.evict e.page) v (v'.takeBack e.frame.cell))
      (fun e m' => (∃ x, e = .halt (.swap x)) ∧ Stops late v e m') := by
  obtain ⟨f, p, i⟩ := e
  obtain ⟨u, hi, hf⟩ := (hv.housed.listed f p i).1 he
  obtain ⟨b, hb⟩ := hv.housed.exists_cell hi hf
  have hlt : i < v.next := hv.owned.lt hi
  have hupage : (m.page i).upage = u := by rw [h.upage]; exact hv.owned.upage hi
  rw [pageOut, ends_bind, ends_page, ends_bind, hupage]
  refine (ends_unmapPage h p u).returns ?_
  rintro dirty m₁ ⟨hdirty, h₁⟩
  have hregion : ∀ r, (v.page i).backing.region? = some r → r.readLen ≤ pageSize := fun r hr =>
    (hv.owned.fits hi hr).le.trans' (Nat.le_add_right _ _)
  have hd : (m₁.page i).disposal dirty = (v.page i).disposal (v.dirty p u) := by
    rw [h₁.disposal, hdirty]; rfl
  have hbacking : (m₁.page i).backing = (v.page i).backing := h₁.backing i
  simp only [ends_bind, ends_page, ends_process, hd, hbacking]
  cases hcase : (v.page i).disposal (v.dirty p u) with
  | swappedOut =>
    simp only [ends_bind]
    refine (ends_swapOut h₁ hv.wired (hv.swapped.congr rfl rfl (fun _ => rfl) fun _ => rfl) hb
      (fun hfull => ⟨⟨_, rfl⟩, .of_resembles
        ⟨rfl, evicting hv hdeclared he hi hf h₁, swapFull hv hdeclared hfull h₁⟩
        ⟨h₁.resembles.files, h₁.resembles.frame, h₁.resembles.declared⟩⟩)
      fun hno _ _ _ hm => ⟨⟨_, rfl⟩, .of_resembles hno ⟨hm.files, hm.frame, hm.declared⟩⟩).returns ?_
    rintro s m₂ ⟨hs, hfree, h₂⟩
    simp only [ends_modifyPage, ends_emit]
    have h₃ := ((h₂.setPage (f := fun pg =>
        { pg with slot := some s, anonymous := pg.anonymousOnceSwapped }) hlt (fun _ => rfl)
      fun _ => rfl).setPage (f := fun pg => { pg with frame := none }) hlt (fun _ => rfl)
      fun _ => rfl).report (.evicted (m₁.process p).pid u f .swappedOut)
    refine ⟨_, h₃, rfl, rfl, ?_⟩
    convert Effect.swapOut hi hf hb hcase hs hfree using 1
    simp [View.takeBack, View.setPage, View.setSlot, View.setMapping, View.setTenants, View.stash,
      View.vacate]
  | writtenBack =>
    obtain ⟨r, hr⟩ := Page.exists_region_of_keeping (Page.disposal_eq_writtenBack_iff.1 hcase).2.1
    simp only [hr, ends_bind]
    refine (ends_writeRegion h₁ (hregion r hr) hb).returns ?_
    intro n m₂ h₂
    have hleave : ∀ {m₃ : Machine φ},
        m₃.Shows (((v.setTenants (v.tenants.erase ⟨f, p, i⟩)).setMapping p u none).writeBack r b)
          (insert i held) →
        ∃ v', (m₃.withPage i fun pg => { pg with frame := none }).Shows v' (insert i held) ∧
          v'.cell = v.cell ∧ v'.plant = v.plant ∧ Effect (.evict i) v (v'.takeBack f.cell) := by
      intro m₃ h₃
      exact ⟨_, h₃.setPage (f := fun pg => { pg with frame := none }) hlt (fun _ => rfl)
        fun _ => rfl, rfl, rfl, Effect.writeOut hi hf hb hcase hr⟩
    rw [ends_ite]
    split
    · simp only [ends_bind, ends_modifyPage, ends_emit]
      obtain ⟨v', h', hrest⟩ := hleave (h₂.report (.shortWriteBack (m₁.process p).pid u n r.readLen))
      exact ⟨v', h'.report _, hrest⟩
    · simp only [ends_bind, ends_modifyPage, ends_emit]
      obtain ⟨v', h', hrest⟩ := hleave h₂
      exact ⟨v', h'.report _, hrest⟩
  | dropped =>
    simp only [ends_bind, ends_modifyPage, ends_emit]
    have h₂ := (h₁.setPage (f := fun pg => { pg with frame := none }) hlt (fun _ => rfl)
      fun _ => rfl).report (.evicted (m₁.process p).pid u f .dropped)
    exact ⟨_, h₂, rfl, rfl, Effect.drop hi hf hcase⟩

/-- If a page that is not held is in memory, one such page is evicted, and its frame is free from then
on. It stops only because of swap space. -/
theorem ends_evict (h : m.Shows v held) (hv : v.Sound) (hdeclared : v.declared = v.own) :
    Ends evict m (fun done m' =>
      if done then ∃ i ∉ held, ∃ v', Effect (.evict i) v v' ∧ m'.Shows v' held ∧
        ∃ c < v'.plant.total, v'.cell c = none
      else m' = m ∧ ∀ e ∈ v.tenants, e.page ∈ held)
      (fun e m' => (∃ x, e = .halt (.swap x)) ∧ Stops late v e m') := by
  simp only [evict, ends_bind, ends_get]
  refine (ends_sweep h hv).returns ?_
  intro taken m₁ htaken
  cases taken with
  | none => exact htaken
  | some e =>
    obtain ⟨he, hout, h₁, -⟩ := htaken
    simp only [ends_bind]
    refine (ends_pageOut hv hdeclared he h₁).returns ?_
    rintro _ m₂ ⟨v', h₂, hcell, hplant, heffect⟩
    have hlent := (hv.housed.lent e.frame.cell).2 ⟨e, he, rfl⟩
    obtain ⟨b, hb⟩ := Option.isSome_iff_exists.1 hlent
    refine (ends_returnFrame h₂ (hcell ▸ hb) (hplant ▸ hv.housed.pfn e he)).returns ?_
    intro _ m₃ h₃
    refine (ends_unpin h₃ hout).returns ?_
    intro _ m₄ h₄
    refine ⟨e.page, hout, _, heffect, h₄, e.frame.cell, ?_, ?_⟩
    · rw [View.takeBack_plant, hplant]
      exact hv.housed.total _ hlent
    · rw [View.takeBack_cell, Function.update_self]

/-! ### Lending -/

/-- A frame is lent to `p`, after at most one eviction. -/
theorem ends_obtainFrame (h : m.Shows v held) (hv : v.Sound) (hdeclared : v.declared = v.own)
    {r : Frame.Request} (hr : r.user = true) :
    Ends (obtainFrame r) m (fun f m' => ∃ v', v.MakesRoom v' ∧ v.Guards held v' ∧
      v'.Free f ∧ ∃ b, (r.zeroed = true → b = .zero pageSize) ∧
        m'.Shows (v'.lend f.cell b) held) (Stalls (v.heldIn held) late v) := by
  rw [obtainFrame, ends_bind]
  refine (ends_takeFrame h hr).returns ?_
  intro result m₁ h₁
  cases result with
  | ok f =>
    obtain ⟨hfree, b, hb, h₁⟩ := h₁
    exact ⟨v, .inl rfl, .refl _ _, hfree, b, hb, h₁⟩
  | error _ =>
    obtain ⟨h₁, hfull⟩ := h₁
    simp only [ends_bind]
    refine (ends_evict h₁ hv hdeclared).imp (fun done m₂ h₂ => ?_) fun _ _ hstop => .inl hstop.2
    cases done with
    | false =>
      -- nothing to evict: all pages in memory are held, or there are none
      simp only [Bool.not_false, if_true]
      obtain ⟨rfl, hall⟩ := h₂
      by_cases hnone : v.tenants = 0
      · refine .inl (Stops.of_resembles (fun hopen => ?_) h₁.resembles)
        have hcell := hfull hopen 0 hopen.1
        obtain ⟨e, he, -⟩ := (hv.housed.lent 0).1 hcell
        rw [hnone] at he
        exact Multiset.notMem_zero e he
      · obtain ⟨e, he⟩ := Multiset.exists_mem_of_ne_zero hnone
        obtain ⟨u, -, hf⟩ := (hv.housed.listed e.frame e.owner e.page).1 he
        exact .inr ⟨e.page, hall e he, by rw [hf]; rfl⟩
    | true =>
      obtain ⟨i, hout, v', heffect, h₂, c, hc, hnone⟩ := h₂
      simp only [Bool.not_true, Bool.false_eq_true, if_false]
      rw [ends_bind]
      refine (ends_takeFrame h₂ hr).returns ?_
      intro result m₃ h₃
      cases result with
      | ok f =>
        obtain ⟨hfree, b, hb, h₃⟩ := h₃
        exact ⟨v', .inr ⟨i, heffect⟩, heffect.guards_of_evict hv hout, hfree, b, hb, h₃⟩
      | error e =>
        refine .inl (View.MakesRoom.stops (.inr ⟨i, heffect⟩) (fun hopen => ?_) h₃.1.resembles)
        have hpath : Path (fun _ => True) v v' := Path.single trivial heffect
        have hplant : v'.plant = v.plant := hpath.plant
        have hcell := h₃.2 (hplant ▸ hopen) c hc
        rw [hnone] at hcell
        simp at hcell

/-- A lent frame is listed for the page that it is lent for. -/
theorem ends_lendFrame (h : m.Shows v held) (hv : v.Sound) (hdeclared : v.declared = v.own)
    (p : ProcId) (i : PageId) (u : Nat) (zeroed : Bool) :
    Ends (lendFrame p i u zeroed) m (fun f m' => ∃ v', v.MakesRoom v' ∧ v.Guards held v' ∧
      v'.Free f ∧ ∃ b, (zeroed = true → b = .zero pageSize) ∧
        m'.Shows (v'.host ⟨f, p, i⟩ b) held)
      (Stalls (v.heldIn held) late v) := by
  rw [lendFrame, ends_bind]
  refine (ends_obtainFrame h hv hdeclared (Frame.user_forUser zeroed)).returns ?_
  rintro f m₁ ⟨v', hv', hguards, hfree, b, hb, h₁⟩
  rw [Frame.zeroed_forUser] at hb
  simp only [ends_bind, ends_process, ends_emit, ends_modify, ends_pure]
  refine ⟨v', hv', hguards, hfree, b, hb, ?_⟩
  have h₂ := (h₁.report (.frameLent f (m₁.process p).pid u)).setTenants
    (t := m₁.frames.add ⟨f, p, i⟩) ?_
  · have ht : v'.tenants = m₁.frames.entries := h₁.tenants
    have hadd : ((m₁.frames.add ⟨f, p, i⟩).entries : Multiset Tenancy) = ⟨f, p, i⟩ ::ₘ v'.tenants := by
      rw [ht, Multiset.cons_coe]
      exact Multiset.coe_eq_coe.2 (List.perm_append_singleton _ _)
    rwa [hadd] at h₂
  · have hhand := h₁.fit.hand
    simp only [FrameTable.add, List.length_append, List.length_singleton]
    omega

omit [FileSystem φ] in
/-- A frame that has one entry can be freed. -/
theorem ends_freeFrame (h : m.Shows v held) {e : Tenancy} (he : e ∈ v.tenants)
    (honce : ∀ e' ∈ v.tenants, e'.frame = e.frame → e' = e) (hc : v.cell e.frame.cell = some b)
    (hpfn : e.frame.pfn = v.plant.firstPfn + e.frame.cell) {E : Stop → Machine φ → Prop} :
    Ends (freeFrame e.frame) m (fun _ m' =>
      m'.Shows ((v.setTenants (v.tenants.erase e)).takeBack e.frame.cell) held) E := by
  rw [h.tenants] at he honce
  have hsome : (m.frames.position? e.frame).isSome = true := by
    rw [FrameTable.position?, List.findIdx?_isSome, List.any_eq_true]
    exact ⟨e, Multiset.mem_coe.1 he, by simp⟩
  obtain ⟨n, hn⟩ := Option.isSome_iff_exists.1 hsome
  obtain ⟨hlt, hframe, -⟩ := List.findIdx?_eq_some_iff_getElem.1 hn
  have hget : m.frames.entries[n]? = some e := by
    rw [List.getElem?_eq_getElem hlt, Option.some.injEq]
    exact honce _ (Multiset.mem_coe.2 (List.getElem_mem hlt)) (by simpa using hframe)
  simp only [freeFrame, ends_bind, ends_get, hn, ends_modify]
  have h₁ := h.setTenants (FrameTable.poised_remove m.frames n)
  have hentries : ((m.frames.remove n).entries : Multiset Tenancy) = v.tenants.erase e := by
    rw [h.tenants]
    exact FrameTable.coe_eraseIdx hget
  rw [hentries] at h₁
  exact ends_returnFrame h₁ hc hpfn

end Kernel

end DemandPaging
