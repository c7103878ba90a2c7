import DemandPaging.Proofs.Eviction

/-!
# Declaring pages and bringing them into memory

A page comes in within one effect: after at most one eviction a frame is lent, listed, mapped and
filled, and the page is settled in it. When something goes wrong on the way the frame is given back,
and all that remains is the eviction, and what the file system did.

`Fetched` is what a page fault may do: make room for one page that was not in memory, and bring it in.
A page that needs zeros because it has neither a slot nor a file is never met, since every page
can be rebuilt.
-/

namespace DemandPaging

/-- The effects of bringing in page `i`, or of growing the stack by it. -/
def Label.fetching (i : PageId) : Label → Prop
  | .evict _ | .consult => True
  | .arrive j | .grow j => j = i
  | _ => False

namespace View

variable {φ : Type} {v v' v'' : View φ} {p : ProcId} {u s : Nat} {i j : PageId} {f : Frame}
  {b b' : PageBytes}

/-- Room is made, and then page `i` comes in or the stack grows by it, unless something goes wrong,
perhaps after a call of the file system. -/
def Fetches [FileSystem φ] (v : View φ) (i : PageId) (v' : View φ) : Prop :=
  ∃ w, v.MakesRoom w ∧
    (v' = w ∨ Effect .consult w v' ∨ Effect (.arrive i) w v' ∨ Effect (.grow i) w v')

/-- A page that is not in memory is fetched, or nothing happens. -/
def Fetched [FileSystem φ] (v v' : View φ) : Prop :=
  v' = v ∨ ∃ i, (v.page i).frame = none ∧ v.Fetches i v'

theorem fill_host (v : View φ) (f : Frame) (p : ProcId) (i : PageId) (b b' : PageBytes) :
    (v.host ⟨f, p, i⟩ b).fill f.cell b' = v.host ⟨f, p, i⟩ b' := by
  simp [host, fill, lend, setTenants]

/-- Giving back a frame that was lent undoes the lending. -/
theorem unhost {e : Tenancy} (hfree : v.Free e.frame) :
    ((v.host e b).setTenants ((v.host e b).tenants.erase e)).takeBack e.frame.cell = v := by
  have hcell : Function.update v.cell e.frame.cell none = v.cell := by
    rw [← hfree.cell, Function.update_eq_self]
  simp [host, lend, setTenants, takeBack, hcell]

/-- What a page that comes in from its slot has come to, step by step. -/
theorem unstash_occupy (v : View φ) (p : ProcId) (u : Nat) (i : PageId) (f : Frame) (s : Nat)
    (b b' : PageBytes) :
    ((((v.host ⟨f, p, i⟩ b).setMapping p u (some (.forUser f (v.page i).writable, f))).fill
      f.cell b').setSlot s none).setPage i { v.page i with frame := some f, slot := none } =
        (v.unstash i s).occupy p u i f b' := by
  simp [host, setMapping, fill, setSlot, setPage, unstash, occupy, lend, setTenants]

/-- What the stack has come to when it has grown by a page, step by step. -/
theorem claim_host (v : View φ) (p : ProcId) (u : Nat) (f : Frame) (b : PageBytes) :
    ((v.host ⟨f, p, v.next⟩ b).setMapping p u (some (.forUser f true, f))).claim p u
        { Page.declared u true .swap with frame := some f } =
      (v.claim p u (.declared u true .swap)).occupy p u v.next f b := by
  simp [host, setMapping, claim, occupy, lend, setTenants, Page.declared]

theorem Housed.eq_of_host (h : v.Housed) {e e' : Tenancy} (hfree : v.Free e.frame)
    (he' : e' ∈ (v.host e b).tenants) (hframe : e'.frame = e.frame) : e' = e := by
  rcases Multiset.mem_cons.1 he' with rfl | he'
  · rfl
  · have hlent := (h.lent e.frame.cell).2 ⟨e', he', by rw [hframe]⟩
    rw [hfree.cell] at hlent
    simp at hlent

/-- An eviction leaves the pages alone that are not in memory, and whom they belong to. -/
structure Spares (v v' : View φ) : Prop where
  plant : v'.plant = v.plant
  own : v'.own = v.own
  declared : v'.declared = v.declared
  next : v'.next = v.next
  exited : v'.exited = v.exited
  page : ∀ i, (v.page i).frame = none → v'.page i = v.page i

theorem Spares.refl (v : View φ) : v.Spares v := ⟨rfl, rfl, rfl, rfl, rfl, fun _ _ => rfl⟩

variable [FileSystem φ]

theorem spares_of_evict (h : Effect (.evict j) v v') : v.Spares v' := by
  cases h with
  | swapOut own frame holds disposal lt free =>
    refine ⟨rfl, rfl, rfl, rfl, rfl, fun i hi => ?_⟩
    have hij : i ≠ j := by rintro rfl; simp [hi] at frame
    rw [vacate_page, Function.update_of_ne hij, stash_page, Function.update_of_ne hij]
  | writeOut own frame holds disposal region =>
    refine ⟨rfl, rfl, rfl, rfl, rfl, fun i hi => ?_⟩
    have hij : i ≠ j := by rintro rfl; simp [hi] at frame
    rw [vacate_page, Function.update_of_ne hij, writeBack_page]
  | drop own frame disposal =>
    refine ⟨rfl, rfl, rfl, rfl, rfl, fun i hi => ?_⟩
    have hij : i ≠ j := by rintro rfl; simp [hi] at frame
    rw [vacate_page, Function.update_of_ne hij]

theorem MakesRoom.spares (h : v.MakesRoom v') : v.Spares v' := by
  rcases h with rfl | ⟨j, h⟩
  · exact .refl _
  · exact spares_of_evict h

theorem MakesRoom.path (h : v.MakesRoom v') (i : PageId) : Path (Label.fetching i) v v' := by
  rcases h with rfl | ⟨j, h⟩
  · exact Path.refl _ _
  · exact Path.single (l := .evict j) trivial h

theorem MakesRoom.sound (h : v.MakesRoom v') (hv : v.Sound) : v'.Sound := (h.path 0).sound hv

theorem Fetches.path (h : v.Fetches i v') : Path (Label.fetching i) v v' := by
  obtain ⟨w, hroom, rfl | h | h | h⟩ := h
  · exact hroom.path i
  · exact (hroom.path i).trans (Path.single (l := .consult) trivial h)
  · exact (hroom.path i).trans (Path.single (l := .arrive i) rfl h)
  · exact (hroom.path i).trans (Path.single (l := .grow i) rfl h)

theorem Fetched.path (h : v.Fetched v') : Path (fun _ => True) v v' := by
  rcases h with rfl | ⟨i, -, h⟩
  · exact Path.refl _ _
  · exact h.path.mono fun _ _ => trivial

end View

namespace Kernel

open Machine View

variable {φ : Type} {m : Machine φ} {v : View φ} {held : Set PageId} {p : ProcId} {i : PageId}
  {u s : Nat} {f : Frame} {b b' : PageBytes} {late : Prop}

/-! ### Declaring pages -/

/-- The machine after a page has been added and declared. -/
theorem shows_claim (h : m.Shows v held) (hlive : v.exited p = false) (hnext : v.next ∉ held) (u : Nat)
    (pg : Page) (hpg : pg.pinned = false) :
    (withProcess { m with pages := m.pages.add pg } p fun proc =>
      { proc with declared := proc.declared.insert u m.pages.next }).Shows (v.claim p u pg) held := by
  have h₁ := ((h.addPage hnext hpg).setDeclared (p := p) (h.lt_of_live hlive)
    (·.insert u m.pages.next)).setOwn (setAt v.own p u (some v.next))
  have hdeclared : Function.update v.declared p
      (((m.process p).declared.insert u m.pages.next)[·]?) =
        setAt v.declared p u (some v.next) := by
    have hp : v.declared p = ((m.process p).declared[·]?) := by rw [h.declared]; rfl
    rw [setAt, hp, h.next]
    congr 1
    funext w
    rw [Std.ExtTreeMap.getElem?_insert, Function.update_apply]
    simp only [Nat.compare_eq_eq]
    rcases eq_or_ne u w with hw | hw
    · rw [if_pos hw, if_pos hw.symm]
    · rw [if_neg hw, if_neg (Ne.symm hw)]
  have hview : (((v.addPage pg).setDeclared p
      (((m.process p).declared.insert u m.pages.next)[·]?)).setOwn
        (setAt v.own p u (some v.next))) = v.claim p u pg := by
    rw [View.setDeclared, View.addPage_declared, hdeclared]
    rfl
  rw [← hview]
  exact h₁

theorem ends_declare (h : m.Shows v held) (hlive : v.exited p = false)
    (hdeclared : v.declared = v.own) (hnext : v.next ∉ held) (w : Bool) (backing : Backing)
    {E : Stop → Machine φ → Prop} :
    Ends (declare p u w backing) m (fun result m' => match result with
      | .ok i => i = v.next ∧ v.Vacant p u ∧ m'.Shows (v.claim p u (.declared u w backing)) held
      | .error _ => m' = m) E := by
  rw [declare, ends_ite]
  split
  · rfl
  rename_i haligned
  rw [ends_ite]
  split
  · rfl
  rename_i huser
  rw [ends_bind, ends_process, ends_ite]
  split
  · rfl
  rename_i hcontains
  have hown : v.own p u = none := by
    rw [← hdeclared, h.declared, declaredAt]
    exact Std.ExtTreeMap.getElem?_eq_none_of_contains_eq_false (by rwa [Bool.not_eq_true] at hcontains)
  simp only [addPage, ends_bind, ends_modifyGet, ends_modifyProcess, ends_pure]
  exact ⟨h.next.symm, ⟨hown, hlive, by simpa using haligned, by simpa using huser⟩,
    shows_claim h hlive hnext u _ rfl⟩

/-! ### Bringing a page in -/

/-- The frame of a page that could not be mapped goes back. -/
theorem ends_unhost {e : Tenancy} (h : m.Shows (v.host e b) held) (hv : v.Housed)
    (hfree : v.Free e.frame) {E : Stop → Machine φ → Prop} :
    Ends (freeFrame e.frame) m (fun _ m' => m'.Shows v held) E := by
  refine (ends_freeFrame h (Multiset.mem_cons_self _ _) (fun e' he' => hv.eq_of_host hfree he')
    (b := b) (by simp [host]) hfree.pfn).returns ?_
  intro _ m₁ h₁
  rwa [View.unhost hfree] at h₁

/-- The number of a frame that is too large for a page table is among those of the pool. -/
theorem wide_of_free (hfree : v.Free f) (hwide : PageTable.Entry.pfnLimit ≤ f.pfn) :
    PageTable.Entry.pfnLimit < v.plant.firstPfn + v.plant.total := by
  have hpfn := hfree.pfn
  have htotal := hfree.total
  omega

theorem ends_install (h : m.Shows (v.host ⟨f, p, i⟩ b) held) (ho : v.Owned) (hh : v.Housed)
    (hfree : v.Free f) (hi : v.own p u = some i) {E : Stop → Machine φ → Prop}
    (hE : PageTable.Entry.pfnLimit < v.plant.firstPfn + v.plant.total →
      E (.halt (.table .wideFrame)) m) :
    Ends (install p i f) m (fun result m' => match result with
      | .ok _ => m'.Shows ((v.host ⟨f, p, i⟩ b).setMapping p u
          (some (.forUser f (v.page i).writable, f))) held
      | .error _ => m'.Shows v held) E := by
  have hupage : (m.page i).upage = u := (h.upage i).trans (ho.upage hi)
  have hwritable : (m.page i).writable = (v.page i).writable := h.writable i
  rw [install, ends_bind, ends_page, hupage, hwritable, ends_bind]
  refine (ends_mapPage h (ho.live hi) (ho.aligned hi) _ fun hwide =>
    hE (wide_of_free hfree hwide)).returns fun done m₁ hdone => ?_
  cases done with
  | true => exact hdone
  | false =>
    obtain rfl : m₁ = m := hdone
    simp only [Bool.false_eq_true, if_false, ends_bind, ends_pure]
    exact ends_unhost h hh hfree

/-- A page that is mapped and settled has come into its frame. -/
theorem shows_occupy (h : m.Shows ((v.host ⟨f, p, i⟩ b).setMapping p u
      (some (.forUser f (v.page i).writable, f))) held) (hi : i < v.next) :
    (m.withPage i fun pg => { pg with frame := some f, slot := none }).Shows
      (v.occupy p u i f b) held :=
  h.setPage (f := fun pg => { pg with frame := some f, slot := none }) hi (fun _ => rfl) fun _ => rfl

/-- A page that is mapped, filled from its slot and settled has come into its frame. -/
theorem shows_unstash (h : m.Shows ((((v.host ⟨f, p, i⟩ b).setMapping p u
      (some (.forUser f (v.page i).writable, f))).fill f.cell b').setSlot s none) held)
    (hi : i < v.next) :
    (m.withPage i fun pg => { pg with frame := some f, slot := none }).Shows
      ((v.unstash i s).occupy p u i f b') held := by
  rw [← unstash_occupy v p u i f s b b']
  exact h.setPage (f := fun pg => { pg with frame := some f, slot := none }) hi (fun _ => rfl)
    fun _ => rfl

variable [FileSystem φ]

/-- What bringing in page `i` of process `p` comes to. -/
structure BringsIn (v : View φ) (i : PageId) (result : Except PageError Unit) (v' : View φ) :
    Prop where
  fetches : v.Fetches i v'
  own : v'.own = v.own
  declared : v'.declared = v.declared
  resident : result = .ok () → (v'.page i).frame.isSome = true

theorem ends_pageInFromSlot (h : m.Shows v held) (hv : v.Sound) (hdeclared : v.declared = v.own)
    (hi : v.own p u = some i)
    (haway : (v.page i).frame = none) (hs : (v.page i).slot = some s) :
    Ends (pageInFromSlot p i u s) m (fun result m' => ∃ v', m'.Shows v' held ∧
      BringsIn v i result v' ∧ v.Guards (held \ {i}) v') (Stalls (held \ {i}) late v) := by
  rw [pageInFromSlot, ends_bind]
  refine (ends_lendFrame h hv hdeclared p i u false).imp ?_ fun _ _ hstop =>
    hstop.mono (v.heldIn_subset haway)
  rintro f m₁ ⟨w, hroom, hguards, hfree, b, _, h₁⟩
  have hspares := hroom.spares
  have hw := hroom.sound hv
  have hi' : w.own p u = some i := by rw [hspares.own, hi]
  have hpage := hspares.page i haway
  have hstop : ∀ {e : Stop} {m' : Machine φ}, Excused late w.plant e m' → m'.Resembles w →
      Stalls (held \ {i}) late v e m' := fun he hm => .inl (hroom.stops (hspares.plant ▸ he) hm)
  have hguards := hguards.mono (Set.sdiff_subset (s := held) (t := {i}))
  rw [ends_bind]
  refine (ends_install h₁ hw.owned hw.housed hfree hi' fun hwide =>
    hstop hwide ⟨h₁.resembles.files, h₁.resembles.frame, h₁.resembles.declared⟩).returns ?_
  intro result m₂ h₂
  cases result with
  | error e => exact ⟨w, h₂, ⟨⟨w, hroom, .inl rfl⟩, hspares.own, hspares.declared, by simp⟩, hguards⟩
  | ok _ =>
    have hslot : (w.slot s).isSome = true := (hw.swapped.used s).2 ⟨p, u, i, hi', by rw [hpage, hs]⟩
    obtain ⟨b', hb'⟩ := Option.isSome_iff_exists.1 hslot
    have hcell : ((w.host ⟨f, p, i⟩ b).setMapping p u
        (some (.forUser f (w.page i).writable, f))).cell f.cell = some b := by simp [host]
    simp only [ends_bind]
    refine (ends_loadSlot h₂ hw.wired hb' (hw.swapped.lt s hslot) hcell
      fun hno _ _ hm => hstop hno ⟨hm.files, hm.frame, hm.declared⟩).returns ?_
    intro _ m₃ h₃
    have heffect := Effect.swapIn (p := p) hi' (by rw [hpage, haway]) (by rw [hpage, hs]) hb' hfree
    exact ⟨_, shows_unstash h₃ (hw.owned.lt hi'), ⟨⟨w, hroom, .inr (.inr (.inl heffect))⟩,
      hspares.own, hspares.declared, fun _ => by simp⟩, hguards.trans (heffect.guards_of_arrive hw)⟩

theorem ends_pageInFromFile (h : m.Shows v held) (hv : v.Sound) (hdeclared : v.declared = v.own)
    (hi : v.own p u = some i)
    (haway : (v.page i).frame = none) (hs : (v.page i).slot = none) {r : Region}
    (hr : (v.page i).backing.region? = some r) :
    Ends (pageInFromFile p i u r) m (fun result m' => ∃ v', m'.Shows v' held ∧
      BringsIn v i result v' ∧ v.Guards (held \ {i}) v') (Stalls (held \ {i}) late v) := by
  rw [pageInFromFile, ends_bind]
  refine (ends_lendFrame h hv hdeclared p i u true).imp ?_ fun _ _ hstop =>
    hstop.mono (v.heldIn_subset haway)
  rintro f m₁ ⟨w, hroom, hguards, hfree, b, hb, h₁⟩
  obtain rfl := hb rfl
  have hspares := hroom.spares
  have hw := hroom.sound hv
  have hi' : w.own p u = some i := by rw [hspares.own, hi]
  have hpage := hspares.page i haway
  have hfits : r.readLen ≤ pageSize := (hv.owned.fits hi hr).le.trans' (Nat.le_add_right _ _)
  rw [ends_bind]
  refine (ends_readRegion h₁ hfits).returns ?_
  rintro reading m₂ ⟨hreading, h₂⟩
  -- the frame is filled with what the file has put into the buffer, whether it is enough or not
  set w' := w.setFiles (FileSystem.readAt w.files r.file r.offset r.readLen).2 with hw'
  have h₂ : m₂.Shows (w'.host ⟨f, p, i⟩ (.zero pageSize)) held := h₂
  have hsound' : w'.Sound := hw.setFiles _
  have hfree' : w'.Free f := ⟨hfree.cell, hfree.total, hfree.pfn⟩
  have hcell : (w'.host ⟨f, p, i⟩ (.zero pageSize)).cell f.cell = some (.zero pageSize) := by
    simp [host]
  simp only [ends_bind, readFrame, ends_get, ends_pure]
  rw [h₂.read_of_cell hcell, hreading]
  refine (ends_writeFrame h₂ hcell _).returns ?_
  intro _ m₃ h₃
  rw [fill_host] at h₃
  have hread : Effect .consult w w' := .consult (.read r.file r.offset r.readLen)
  have hguards := hguards.mono (Set.sdiff_subset (s := held) (t := {i}))
  have hguards' : v.Guards (held \ {i}) w' := hguards.trans (.of_eq rfl rfl rfl rfl rfl)
  simp only [ends_ite, ends_bind, ends_process, ends_emit, ends_pure]
  split
  · refine (ends_unhost (h₃.report _) hsound'.housed hfree').returns ?_
    intro _ m₄ h₄
    exact ⟨w', h₄, ⟨⟨w, hroom, .inr (.inl hread)⟩, hspares.own, hspares.declared, by simp⟩, hguards'⟩
  · rename_i hcount
    refine (ends_install h₃ hsound'.owned hsound'.housed hfree' hi' fun hwide => ?_).returns ?_
    · refine .inl ⟨?_, w, w', hroom, .inr hread, h₃.resembles.files, h₃.resembles.frame, h₃.resembles.declared⟩
      rw [← hspares.plant]
      exact hwide
    intro result m₄ h₄
    cases result with
    | error e =>
      exact ⟨w', h₄, ⟨⟨w, hroom, .inr (.inl hread)⟩, hspares.own, hspares.declared, by simp⟩, hguards'⟩
    | ok _ =>
      have heffect := Effect.readIn (p := p) (f := f) hi' (by rw [hpage, haway])
        (by rw [hpage, hs]) (by rw [hpage, hr]) (Classical.not_not.1 hcount) hfree
      exact ⟨_, shows_occupy h₄ (hw.owned.lt hi'), ⟨⟨w, hroom, .inr (.inr (.inl heffect))⟩,
        hspares.own, hspares.declared, fun _ => by simp⟩, hguards.trans (heffect.guards_of_arrive hw)⟩

/-- A page that is not in memory and in no slot has a file to be read from. -/
theorem exists_region_of_sourced {pg : Page} (h : pg.Sourced) (haway : pg.frame = none)
    (hs : pg.slot = none) : ∃ r, pg.backing.region? = some r := by
  cases hb : pg.backing with
  | swap =>
    rw [Page.Sourced, if_pos (by simp [Page.keeping, hb])] at h
    simp [haway, hs] at h
  | file r => exact ⟨r, rfl⟩
  | mapped r => exact ⟨r, rfl⟩

theorem ends_pageIn (h : m.Shows v held) (hv : v.Sound) (hdeclared : v.declared = v.own)
    (hi : v.own p u = some i) :
    Ends (pageIn p i) m (fun result m' => ∃ v', m'.Shows v' held ∧ BringsIn v i result v' ∧
      v.Guards (held \ {i}) v' ∧ (v' = v ∨ (v.page i).frame = none)) (Stalls (held \ {i}) late v) := by
  rw [pageIn, ends_bind, ends_page, ends_ite]
  have hresident : (m.page i).resident = (v.page i).frame.isSome := by
    rw [Page.resident, h.frame]
  split
  · exact ⟨v, h, ⟨⟨v, .inl rfl, .inl rfl⟩, rfl, rfl, by simp⟩, .refl _ _, .inl rfl⟩
  rename_i hno
  have haway : (v.page i).frame = none := by
    rw [hresident] at hno
    simpa using hno
  rw [h.pageSlot, h.backing, h.upage, hv.owned.upage hi]
  cases hs : (v.page i).slot with
  | some s =>
    show Ends (pageInFromSlot p i u s) m _ _
    refine (ends_pageInFromSlot h hv hdeclared hi haway hs).returns ?_
    rintro result m' ⟨v', h', hin, hguards⟩
    exact ⟨v', h', hin, hguards, .inr haway⟩
  | none =>
    obtain ⟨r, hr⟩ := exists_region_of_sourced (hv.sourced _ _ _ hi) haway hs
    rw [hr]
    show Ends (pageInFromFile p i u r) m _ _
    refine (ends_pageInFromFile h hv hdeclared hi haway hs hr).returns ?_
    rintro result m' ⟨v', h', hin, hguards⟩
    exact ⟨v', h', hin, hguards, .inr haway⟩

/-- A page is brought in if it can be, and its pin is released again. -/
theorem ends_resolve (h : m.Shows v held) (hv : v.Sound) (hdeclared : v.declared = v.own)
    (hi : v.own p u = some i) :
    Ends (resolve p i) m (fun result m' => ∃ v', m'.Shows v' held ∧ v.Guards held v' ∧ v.Fetched v' ∧
      v'.own = v.own ∧ v'.declared = v.declared ∧ (result = .ok () → (v'.page i).frame.isSome = true))
      (Stalls held late v) := by
  rw [resolve, ends_bind]
  by_cases hfree : i ∈ held
  · exact ends_pin_of_mem h hfree (.inr ⟨i, hfree⟩)
  have hrest : insert i held \ {i} = held := Set.insert_sdiff_self_of_notMem hfree
  refine (ends_pin h (hv.owned.lt hi) hfree).returns ?_
  intro _ m₁ h₁
  rw [ends_bind]
  refine (ends_pageIn h₁ hv hdeclared hi).imp ?_ fun _ _ hstop => hrest ▸ hstop
  rintro result m₂ ⟨v', h₂, hin, hguards, haway⟩
  rw [ends_bind]
  refine (ends_unpin h₂ hfree).returns ?_
  intro _ m₃ h₃
  refine ⟨v', h₃, hrest ▸ hguards, ?_, hin.own, hin.declared, hin.resident⟩
  exact haway.imp_right fun haway => ⟨i, haway, hin.fetches⟩

/-! ### The stack -/

omit [FileSystem φ] in
theorem frame_next (h : m.Shows v held) : (v.page v.next).frame = none := by
  rw [h.page, h.next]
  simp [Machine.page, PageStore.get, PageStore.next, Page.declared, Page.face]

theorem ends_growStack (h : m.Shows v held) (hv : v.Sound) (hdeclared : v.declared = v.own)
    (hlive : v.exited p = false) (a : Nat) :
    Ends (growStack p a) m (fun result m' => ∃ v', m'.Shows v' held ∧ v.Guards held v' ∧ v.Fetched v' ∧
      v'.declared = v'.own ∧ (∀ i, result = some i → v'.own p (pageBase a) = some i ∧
        (v'.page i).frame.isSome = true)) (Stalls held late v) := by
  have hsame : ∃ v', m.Shows v' held ∧ v.Guards held v' ∧ v.Fetched v' ∧ v'.declared = v'.own ∧
      (∀ i, none = some i → v'.own p (pageBase a) = some i ∧ (v'.page i).frame.isSome = true) :=
    ⟨v, h, .refl _ _, .inl rfl, hdeclared, by simp⟩
  simp only [growStack_eq, ends_bind, ends_process, ends_ite, ends_emit, ends_pure]
  split
  · obtain ⟨v', h', hrest⟩ := hsame
    exact ⟨v', h'.report _, hrest⟩
  rename_i hroom
  split
  · exact hsame
  rename_i hcontains
  have hown : v.own p (pageBase a) = none := by
    rw [← hdeclared, h.declared, declaredAt]
    refine Std.ExtTreeMap.getElem?_eq_none_of_contains_eq_false ?_
    rwa [Bool.not_eq_true] at hcontains
  have huser : isUser (pageBase a) = true := by
    by_contra hno
    simp [hno] at hroom
  rw [ends_get, ← h.next]
  refine (ends_lendFrame h hv hdeclared p v.next (pageBase a) true).imp ?_ fun _ _ hstop =>
    hstop.mono fun _ hj => hj.1
  intro f m₁ hlent
  obtain ⟨w, hroom, hguards, hfree, b, hb, h₁⟩ := hlent
  obtain rfl := hb rfl
  have hspares := hroom.spares
  have hw := hroom.sound hv
  have hvacant : w.Vacant p (pageBase a) :=
    ⟨by rw [hspares.own, hown], by rw [hspares.exited, hlive], isAligned_pageBase a, huser⟩
  have hdeclared' : w.declared = w.own := by rw [hspares.declared, hspares.own, hdeclared]
  refine (ends_mapPage h₁ hvacant.live hvacant.aligned true fun hwide => ?_).returns
    fun done m₂ h₂ => ?_
  · refine .inl (hroom.stops ?_ ⟨h₁.resembles.files, h₁.resembles.frame, h₁.resembles.declared⟩)
    rw [← hspares.plant]
    exact wide_of_free hfree hwide
  cases done with
  | false =>
    obtain rfl : m₂ = m₁ := h₂
    simp only [Bool.false_eq_true, if_false]
    refine (ends_unhost h₁ hw.housed hfree).returns ?_
    intro _ m₃ h₃
    exact ⟨w, h₃, hguards, .inr ⟨v.next, frame_next h, w, hroom, .inl rfl⟩, hdeclared', by simp⟩
  | true =>
    rw [if_pos rfl] at h₂
    simp only [if_true, addPage, ends_modifyGet, ends_modifyProcess]
    rw [← hspares.next] at h₂
    have h₃ := shows_claim (p := p) h₂ hvacant.live h₂.next_notMem (pageBase a)
      { Page.declared (pageBase a) true .swap with frame := some f } rfl
    have heffect := Effect.grow hvacant hfree
    rw [← claim_host] at heffect
    refine ⟨_, h₃.report _, hguards.trans ?_, .inr ⟨v.next, frame_next h, w, hroom,
      .inr (.inr (.inr ?_))⟩, ?_, ?_⟩
    · exact heffect.guards_of_new (.inr rfl) hw
    · rw [← hspares.next]
      exact heffect
    · show setAt w.declared p (pageBase a) _ = setAt w.own p (pageBase a) _
      rw [hdeclared']
    · rintro j hj
      obtain rfl : m₂.pages.next = j := Option.some.inj hj
      have hnext : m₂.pages.next = w.next := h₂.next.symm
      rw [hnext]
      simp [host]

end Kernel

end DemandPaging
