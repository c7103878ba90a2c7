import DemandPaging.Proofs.Fetching
import DemandPaging.Proofs.Loan

/-!
# The arrival of a page

A frame is lent for a page on a machine `n`, and what becomes of it is decided there: the read of the
page's file may fall short, or the page table may take no more pages, and then the frame goes back.
Otherwise the page arrives, and nothing else changes on `n`: `Gains`.
-/

namespace DemandPaging

namespace PageTable

variable {t t' : PageTable} {u x : Nat} {f : Frame} {w : Bool}

/-- A page that is not mapped can be mapped unless the table is full, or the frame number too wide. -/
theorem map_of_unmapped (hu : isAligned u = true) (hnone : t.mapping? u = none) :
    t.map u f w = if t.full then .ok none else if Entry.pfnLimit ≤ f.pfn then .error .wideFrame
      else .ok (some { t with entries := t.entries.insert u (.ofFrame f w, f) }) := by
  have hentry : t.entries[u]? = none := by simpa [mapping?] using hnone
  have hcontains : t.entries.contains u = false := by
    rw [Std.ExtTreeMap.contains_eq_isSome_getElem?, hentry]
    rfl
  rw [map, hu, hcontains]
  simp

/-- To map a page is to leave the entries of the others alone. -/
theorem entries_map_of_ne (h : t.map u f w = .ok (some t')) (hx : u ≠ x) : t'.entries[x]? = t.entries[x]? := by
  simp only [map] at h
  split at h
  · simp at h
  split at h
  · simp at h
  split at h
  · simp at h
  obtain rfl : _ = t' := Option.some.inj (Except.ok.inj h)
  rw [Std.ExtTreeMap.getElem?_insert, if_neg (by simpa using hx)]

end PageTable

namespace Machine

variable {φ : Type} {m m' n : Machine φ} {v v' w : View φ} {held : Set PageId} {e : Tenancy} {f : Frame}
  {p : ProcId} {i : PageId} {u : Nat} {pg : Page} {b : PageBytes}

/-- What page `i` holds when it comes in: what is in its slot, or else what its file is read to hold, with
zeros behind. -/
def incoming [FileSystem φ] (n : Machine φ) (i : PageId) : Option PageBytes :=
  match (n.page i).slot, (n.page i).backing.region? with
  | some s, _ => n.swap.contents? n.devices s
  | none, some r => some ((Bytes.zero pageSize).overlay 0
      ((FileSystem.readAt n.files r.file r.offset r.readLen).1.data.take r.readLen))
  | none, none => some (.zero pageSize)

/-- Page `i` is read from region `r` of its file, and the read says that it has got `count` bytes. -/
def ReadsIn [FileSystem φ] (n : Machine φ) (i : PageId) (r : Region) (count : Nat) : Prop :=
  (n.page i).slot = none ∧ (n.page i).backing.region? = some r ∧
    (FileSystem.readAt n.files r.file r.offset r.readLen).1.count = count

/-- The files once page `i` has been read, if it has to be. -/
def consulted [FileSystem φ] (n : Machine φ) (i : PageId) : φ :=
  match (n.page i).slot, (n.page i).backing.region? with
  | none, some r => (FileSystem.readAt n.files r.file r.offset r.readLen).2
  | _, _ => n.files

/-- Process `p` has got page `i` at `u`, which is `pg` from now on and holds `b`. Its frame was free, its
entry in the page table is new, and no other page, frame, entry or slot has changed. -/
structure Gains (n : Machine φ) (p : ProcId) (u : Nat) (i : PageId) (f : Frame) (pg : Page)
    (b : PageBytes) (m' : Machine φ) : Prop where
  frames : m'.frames = n.frames.add ⟨f, p, i⟩
  free : n.pool.lent f.cell = false
  page : m'.page = Function.update n.page i pg
  mapping? : (m'.process p).table.mapping? u = some (.forUser f pg.writable, f)
  dirty : (m'.process p).table.isDirty u = false
  accessed : (m'.process p).table.isAccessed u = false
  pte? : ∀ q x, ¬ (q = p ∧ x = u) → m'.pte? q x = n.pte? q x
  contents : m'.pool.contents? = Function.update n.pool.contents? f.cell (some b)
  slots : ∀ s, (n.page i).slot ≠ some s →
    m'.swap.contents? m'.devices s = n.swap.contents? n.devices s

/-- What comes of bringing in page `i` of process `p`, for which machine `n` has lent a frame. -/
inductive Arrives [FileSystem φ] (n : Machine φ) (p : ProcId) (u : Nat) (i : PageId) :
    Except PageError Unit → Machine φ → Prop
  /-- The read of the file has fallen short. -/
  | shortRead {r : Region} {count : Nat} {f : Frame} {m' : Machine φ} (reads : n.ReadsIn i r count)
      (short : count ≠ r.readLen) (restores : n.Restores f m') (files : m'.files = n.consulted i) :
      Arrives n p u i (.error (.shortRead r.readLen count)) m'
  /-- The page table takes no more pages. -/
  | mapFailed {f : Frame} {m' : Machine φ} (whole : ∀ r count, n.ReadsIn i r count → count = r.readLen)
      (full : (n.process p).table.full = true) (restores : n.Restores f m')
      (files : m'.files = n.consulted i) :
      Arrives n p u i (.error (.mapFailed u)) m'
  | arrived {f : Frame} {b : PageBytes} {m' : Machine φ}
      (whole : ∀ r count, n.ReadsIn i r count → count = r.readLen)
      (room : (n.process p).table.full = false) (incoming : n.incoming i = some b)
      (gains : n.Gains p u i f { n.page i with frame := some f, slot := none } b m')
      (declared : m'.declaredAt = n.declaredAt) (files : m'.files = n.consulted i) :
      Arrives n p u i (.ok ()) m'

/-- What comes of letting the stack of process `p` grow by the page at `u`, for which machine `n` has lent
a frame. -/
inductive Grows (n : Machine φ) (p : ProcId) (u : Nat) : Option PageId → Machine φ → Prop
  | refused {f : Frame} {m' : Machine φ} (full : (n.process p).table.full = true)
      (restores : n.Restores f m') (files : m'.files = n.files) : Grows n p u none m'
  | grown {f : Frame} {m' : Machine φ} (room : (n.process p).table.full = false)
      (gains : n.Gains p u n.pages.next f { Page.declared u true .swap with frame := some f }
        (.zero pageSize) m')
      (declared : m'.declaredAt = setAt n.declaredAt p u (some n.pages.next)) (files : m'.files = n.files) :
      Grows n p u (some n.pages.next) m'

/-! ### The pin of a page that arrives -/

theorem page_pinning (hi : i < m.pages.next) (x : Bool) :
    (m.pinning i x).page = Function.update m.page i { m.page i with pinned := x } := by
  funext j
  rw [pinning, page_withPage, Function.update_apply]
  rcases eq_or_ne i j with rfl | hij
  · rw [if_pos ⟨rfl, hi⟩, if_pos rfl]
  · rw [if_neg fun h => hij h.1, if_neg (Ne.symm hij)]

/-- A page in memory has been added. -/
theorem lt_next_of_frame (h : (m.page i).frame = some f) : i < m.pages.next := by
  by_contra hno
  have hnone : m.pages.pages.size ≤ i := by simpa [PageStore.next] using hno
  simp [Machine.page, PageStore.get, Page.declared, Nat.not_lt.2 hnone] at h

theorem Gains.pinning (h : n.Gains p u i f pg b m') (hn : i < n.pages.next) (hpg : pg.frame = some f)
    (x : Bool) : (n.pinning i x).Gains p u i f { pg with pinned := x } b (m'.pinning i x) where
  __ := h
  page := by
    have hself : m'.page i = pg := by rw [h.page, Function.update_self]
    rw [page_pinning (lt_next_of_frame (hself ▸ hpg)), page_pinning hn, hself, h.page,
      Function.update_idem, Function.update_idem]
  slots s hs := h.slots s (by rwa [page_pinning hn, Function.update_self] at hs)

/-- It makes no difference whether the page is pinned. -/
theorem Arrives.pinning [FileSystem φ] {result : Except PageError Unit} (h : n.Arrives p u i result m')
    (hn : i < n.pages.next) (x : Bool) : (n.pinning i x).Arrives p u i result (m'.pinning i x) := by
  have hpage : (n.pinning i x).page i = { n.page i with pinned := x } := by
    rw [page_pinning hn, Function.update_self]
  have hfiles : (n.pinning i x).consulted i = n.consulted i := by
    rw [consulted, hpage]
    rfl
  have hreads : ∀ r count, (n.pinning i x).ReadsIn i r count ↔ n.ReadsIn i r count := fun r count => by
    rw [ReadsIn, hpage]
    rfl
  cases h with
  | shortRead reads short restores files =>
    exact .shortRead ((hreads _ _).2 reads) short (restores.pinning i x) (files.trans hfiles.symm)
  | mapFailed whole full restores files =>
    exact .mapFailed (fun r count h => whole r count ((hreads r count).1 h)) full (restores.pinning i x)
      (files.trans hfiles.symm)
  | @arrived f _ _ whole room incoming gains declared files =>
    refine .arrived (f := f) (fun r count h => whole r count ((hreads r count).1 h)) room
      (by rw [Machine.incoming, hpage]; exact incoming) ?_ declared (files.trans hfiles.symm)
    rw [hpage]
    exact gains.pinning hn rfl x

/-! ### What can be seen of a loan -/

theorem Borrows.contents? (h : n.Borrows e m) : m.pool.contents? =
    Function.update n.pool.contents? e.frame.cell (some (m.pool.read e.frame)) := by
  funext c
  rcases eq_or_ne c e.frame.cell with rfl | hc
  · rw [Function.update_self, Pool.contents?_of_lent h.lent_frame]
  · have hread : m.pool.read (m.pool.frameAt c) = n.pool.read (n.pool.frameAt c) :=
      (h.read (m.pool.frameAt c) hc).trans (Pool.read_eq_of_cell _ rfl)
    rw [Function.update_of_ne hc, Pool.contents?, Pool.contents?, h.lent, beq_false_of_ne hc,
      Bool.or_false, hread]

/-- The frame is listed, and holds what it holds; the files may have been called. -/
theorem Borrows.shows (h : n.Borrows e m) (hn : n.Shows w held) :
    m.Shows ((w.setFiles m.files).host e (m.pool.read e.frame)) held where
  view := by
    have hprocess : ∀ q, m.process q = n.process q := fun q => by
      rw [Machine.process, h.processes, Machine.process]
    refine View.ext ?_ rfl ?_ ?_ ?_ ?_ ?_ ?_ ?_ ?_ ?_ rfl ?_ ?_
    · refine Eq.trans ?_ hn.plant.symm
      simp only [Machine.view, Machine.plant, h.firstPfn, h.total, h.refuses, h.swap, h.devices]
    · refine Eq.trans ?_ hn.declared.symm
      funext q x
      exact congrArg (·.declared[x]?) (hprocess q)
    · funext j
      refine Eq.trans ?_ (hn.page j).symm
      exact congrArg (fun pages => (pages.get j).face) h.pages
    · exact (congrArg PageStore.next h.pages).trans hn.next.symm
    · funext q x
      exact (congrArg (·.table.mapping? x) (hprocess q)).trans (hn.mapping? q x).symm
    · funext q x
      exact (congrArg (·.table.isDirty x) (hprocess q)).trans (hn.dirty q x).symm
    · show (m.frames.entries : Multiset Tenancy) = e ::ₘ w.tenants
      rw [h.frames, hn.tenants, Multiset.cons_coe]
      exact Multiset.coe_eq_coe.2 (List.perm_append_singleton _ _)
    · refine h.inUse.trans ?_
      rw [show n.pool.inUse = w.inUse from congrArg View.inUse hn.view]
      rfl
    · show m.pool.contents? = Function.update w.cell e.frame.cell (some (m.pool.read e.frame))
      rw [hn.cell, h.contents?]
    · refine Eq.trans ?_ hn.slot.symm
      simp only [Machine.view, h.swap, h.devices]
    · funext q
      exact (congrArg (·.mappings) (hprocess q)).trans (hn.mappings q).symm
    · funext q
      exact (congrArg (·.exited) (hprocess q)).trans (hn.exited q).symm
  fit := by
    refine ⟨h.swap ▸ hn.fit.sized, ?_, fun j => ?_⟩
    · have hhand := hn.fit.hand
      rw [h.frames]
      simp only [FrameTable.add, List.length_append, List.length_singleton]
      omega
    · rw [Machine.page, h.pages]
      exact hn.fit.pinned j

/-- The page tables once the one of process `p` is `t`. -/
theorem Borrows.table_withTable (h : n.Borrows e m) (hp : p < n.processes.size) {t : PageTable}
    (q : ProcId) : ((m.withTable p fun _ => t).process q).table =
      if p = q then t else (n.process q).table := by
  have hprocess : m.process q = n.process q := by rw [Machine.process, h.processes, Machine.process]
  rw [withTable, process_withProcess, h.processes]
  rcases eq_or_ne p q with rfl | hq
  · rw [if_pos ⟨rfl, hp⟩, if_pos rfl]
  · rw [if_neg fun h => hq h.1, if_neg hq, hprocess]

/-- What a machine shows once the page has been mapped and settled tells what has been gained. -/
theorem gains_of_shows {t : PageTable} (hn : n.Shows w held) (h' : m'.Shows v held)
    (hframes : m'.frames = n.frames.add ⟨f, p, i⟩) (hfree : n.pool.lent f.cell = false)
    (htable : ∀ q, (m'.process q).table = if p = q then t else (n.process q).table)
    (hu : isAligned u = true) (ht : (n.process p).table.map u f pg.writable = .ok (some t))
    (hpage : v.page = Function.update w.page i pg.face) (hpin : pg.pinned = true ↔ i ∈ held)
    (hcell : v.cell = Function.update w.cell f.cell (some b))
    (hslot : ∀ s, (n.page i).slot ≠ some s → v.slot s = w.slot s) : n.Gains p u i f pg b m' := by
  have hself : (m'.process p).table = t := by rw [htable, if_pos rfl]
  rcases PageTable.map_cases (t := (n.process p).table) (f := f) (w := pg.writable) hu with
    ⟨hno, -⟩ | ⟨hno, -⟩ | ⟨t', ht', -, -, hmapping, hdirty, haccessed⟩
  · rw [ht] at hno
    simp at hno
  · rw [ht] at hno
    simp at hno
  obtain rfl : t' = t := by simpa [ht'] using ht
  refine ⟨hframes, hfree, ?_, ?_, ?_, ?_, fun q x hx => ?_, ?_, fun s hs => ?_⟩
  · funext j
    have hface : (m'.page j).face = (Function.update n.page i pg j).face := by
      rw [← h'.page, hpage, Function.update_apply, Function.update_apply]
      split
      · rfl
      · exact hn.page j
    refine Page.eq_of_face hface (Bool.eq_iff_iff.2 ((h'.fit.pinned j).trans ?_))
    rcases eq_or_ne j i with rfl | hj
    · rw [Function.update_self, hpin]
    · rw [Function.update_of_ne hj, hn.fit.pinned]
  · rw [hself, hmapping, if_pos rfl]
  · rw [hself, hdirty, if_pos rfl]
  · rw [hself, haccessed, if_pos rfl]
  · rw [Machine.pte?, Machine.pte?, htable]
    split
    · rename_i hq
      subst hq
      exact PageTable.entries_map_of_ne ht fun h => hx ⟨rfl, h.symm⟩
    · rfl
  · rw [← h'.cell, hcell, hn.cell]
  · rw [← h'.slot, hslot s hs, hn.slot]

end Machine

namespace Kernel

open Machine

variable {φ : Type} {m m' n : Machine φ} {v w : View φ} {held : Set PageId} {f : Frame} {p : ProcId}
  {i : PageId} {u s : Nat} {wr : Bool}

theorem ends_mapPage_exact (hu : isAligned u = true) (hnone : (m.process p).table.mapping? u = none) :
    Ends (mapPage p u f wr) m (fun done m' => if done
      then (m.process p).table.full = false ∧ ∃ t, (m.process p).table.map u f wr = .ok (some t) ∧
        m' = m.withTable p fun _ => t
      else (m.process p).table.full = true ∧ m' = m) fun _ _ => True := by
  simp only [mapPage, ends_bind, ends_process]
  have hmap := PageTable.map_of_unmapped (f := f) (w := wr) hu hnone
  cases hfull : (m.process p).table.full with
  | true =>
    rw [hfull, if_pos rfl] at hmap
    simp only [hmap, ends_pure]
    exact ⟨trivial, trivial⟩
  | false =>
    rw [hfull, if_neg (by simp)] at hmap
    split at hmap
    · simp only [hmap, ends_halt]
    · simp only [hmap, ends_bind, ends_modifyTable, ends_pure, if_true]
      exact ⟨trivial, _, rfl, rfl⟩

/-- The page is mapped unless the table is full, and then the frame goes back. -/
theorem ends_install_borrows (h : n.Borrows ⟨f, p, i⟩ m) (hn : n.Shows w held) (hw : w.Sound)
    (hi : w.own p u = some i) (haway : (w.page i).frame = none) :
    Ends (install p i f) m (fun result m' => match result with
      | .error x => x = .mapFailed u ∧ (n.process p).table.full = true ∧ n.Restores f m' ∧
          m'.files = m.files
      | .ok _ => (n.process p).table.full = false ∧
          m'.Shows (((w.setFiles m.files).host ⟨f, p, i⟩ (m.pool.read f)).setMapping p u
            (some (.forUser f (w.page i).writable, f))) held ∧
          ∃ t, (n.process p).table.map u f (n.page i).writable = .ok (some t) ∧
            m' = m.withTable p fun _ => t) fun _ _ => True := by
  have hshows := h.shows hn
  have hpage : m.page i = n.page i := by rw [Machine.page, h.pages, Machine.page]
  have hprocess : m.process p = n.process p := by rw [Machine.process, h.processes, Machine.process]
  have hnone : (n.process p).table.mapping? u = none := by
    rw [← hn.mapping?, hw.housed.mapping?, hi, Option.bind_some, haway, Option.map_none]
  have hupage : (n.page i).upage = u := (hn.upage i).trans (hw.owned.upage hi)
  have haligned := hw.owned.aligned hi
  rw [install, ends_bind, ends_page, hpage, hupage, ends_bind]
  refine ((ends_mapPage_exact haligned (by rw [hprocess, hnone])).and
    (ends_mapPage (E := fun _ _ => True) hshows (hw.owned.live hi) haligned (n.page i).writable
      fun _ => trivial)).imp ?_ fun _ _ _ => trivial
  rintro done m₁ ⟨hexact, hdone⟩
  rw [hprocess] at hexact
  cases done with
  | true =>
    obtain ⟨hroom, t, ht, rfl⟩ := hexact
    rw [if_pos rfl, hn.writable] at hdone
    exact ⟨hroom, hdone, t, ht, rfl⟩
  | false =>
    obtain ⟨hfull, rfl⟩ := hexact
    simp only [Bool.false_eq_true, if_false, ends_bind, ends_pure]
    exact (ends_freeFrame_of_borrows h hn hw.housed).returns fun _ _ h' => ⟨trivial, hfull, h'⟩

variable [FileSystem φ]

/-- The page is mapped and settled, and nothing but its bytes and its slot has changed meanwhile. -/
theorem arrives_of_installed {t : PageTable} {m₁ : Machine φ} {b : PageBytes}
    (hn : n.Shows w held) (hw : w.Sound) (hi : w.own p u = some i)
    (h₁ : n.Borrows ⟨f, p, i⟩ m₁)
    (ht : (n.process p).table.map u f (n.page i).writable = .ok (some t))
    (hsame : (m₁.withTable p fun _ => t).SameTables m') (h' : m'.Shows v held)
    (hroom : (n.process p).table.full = false)
    (hwhole : ∀ r count, n.ReadsIn i r count → count = r.readLen) (hincoming : n.incoming i = some b)
    (hpage : v.page = Function.update w.page i { w.page i with frame := some f, slot := none })
    (hdeclared : v.declared = w.declared) (hcell : v.cell = Function.update w.cell f.cell (some b))
    (hslot : ∀ s, (n.page i).slot ≠ some s → v.slot s = w.slot s) (hfiles : v.files = n.consulted i) :
    n.Arrives p u i (.ok ()) m' := by
  have hp : p < n.processes.size := hn.lt_of_live (hw.owned.live hi)
  have htable : ∀ q, (m'.process q).table = if p = q then t else (n.process q).table := fun q => by
    rw [show m'.process q = (m₁.withTable p fun _ => t).process q from
      congrArg (·.getD q .absent) hsame.processes, h₁.table_withTable hp]
  refine .arrived (f := f) (b := b) hwhole hroom hincoming ?_ ?_ (h'.files.symm.trans hfiles)
  · refine gains_of_shows hn h'
      (hsame.frames.trans h₁.frames) h₁.free htable (hw.owned.aligned hi) ht ?_ ?_ hcell hslot
    · rw [hpage, hn.page i]
      rfl
    · exact hn.fit.pinned i
  · rw [← h'.declared, hdeclared, hn.declared]

/-- A page comes in from its slot. -/
theorem ends_pageInFromSlot_exact (h : m.Shows v held) (hv : v.Sound) (hdeclared : v.declared = v.own)
    (hi : v.own p u = some i) (haway : (v.page i).frame = none) (hs : (v.page i).slot = some s) :
    Ends (pageInFromSlot p i u s) m (fun result m' => ∃ n, m.Readies n ∧ n.Arrives p u i result m')
      fun _ _ => True := by
  rw [pageInFromSlot, ends_bind]
  refine (ends_lendFrame_borrows h hv hdeclared p i u false).imp ?_ fun _ _ _ => trivial
  rintro f m₁ ⟨n, w, hready, hroom, hn, h₁, hfiles, -⟩
  have hspares := hroom.spares
  have hw := hroom.sound hv
  have hi' : w.own p u = some i := by rw [hspares.own, hi]
  have hpage := hspares.page i haway
  have hslot : (n.page i).slot = some s := by rw [hn.pageSlot, hpage, hs]
  have hwhole : ∀ r count, n.ReadsIn i r count → count = r.readLen := fun r count hreads => by
    rw [hreads.1] at hslot
    simp at hslot
  have hconsulted : m₁.files = n.consulted i := by
    rw [hfiles, consulted, hslot]
  rw [ends_bind]
  refine (ends_install_borrows h₁ hn hw hi' (by rw [hpage, haway])).imp ?_ fun _ _ _ => trivial
  intro result m₂ h₂
  cases result with
  | error x =>
    obtain ⟨rfl, hfull, hrestores, hfiles'⟩ := h₂
    exact ⟨n, hready, .mapFailed hwhole hfull hrestores (hfiles'.trans hconsulted)⟩
  | ok _ =>
    obtain ⟨hfull, h₂, t, ht, rfl⟩ := h₂
    have hused : (w.slot s).isSome = true := (hw.swapped.used s).2 ⟨p, u, i, hi', by rw [hpage, hs]⟩
    obtain ⟨b, hb⟩ := Option.isSome_iff_exists.1 hused
    have hincoming : n.incoming i = some b := by
      rw [incoming, hslot]
      exact (congrFun hn.slot s).symm.trans hb
    have hcell : (((w.setFiles m₁.files).host ⟨f, p, i⟩ (m₁.pool.read f)).setMapping p u
        (some (.forUser f (w.page i).writable, f))).cell f.cell = some (m₁.pool.read f) := by simp [View.host]
    simp only [ends_bind]
    refine ((ends_loadSlot (E := fun _ _ => True) h₂ hw.wired hb (hw.swapped.lt s hused) hcell
      fun _ _ _ _ => trivial).and (moves_loadSlot (R := SameTables) s f _)).imp ?_ fun _ _ _ => trivial
    rintro _ m₃ ⟨h₃, hsame⟩
    have h₄ := shows_unstash h₃ (hw.owned.lt hi')
    have hsettle : SameTables m₃ (m₃.withPage i fun pg => { pg with frame := some f, slot := none }) :=
      moves_settle (R := SameTables) i f m₃
    refine ⟨n, hready, arrives_of_installed hn hw hi' h₁ ht (trans_of SameTables hsame hsettle) h₄ hfull
      hwhole hincoming ?_ rfl rfl (fun s' hs' => ?_) hconsulted⟩
    · rw [View.occupy_page, View.unstash_page, Function.update_self, Function.update_idem]
      rfl
    · have hne : s' ≠ s := by
        rintro rfl
        exact hs' hslot
      rw [View.occupy_slot, View.unstash_slot, Function.update_of_ne hne]
      rfl

/-- A page comes in from its file. -/
theorem ends_pageInFromFile_exact (h : m.Shows v held) (hv : v.Sound) (hdeclared : v.declared = v.own)
    (hi : v.own p u = some i) (haway : (v.page i).frame = none) (hs : (v.page i).slot = none) {r : Region}
    (hr : (v.page i).backing.region? = some r) :
    Ends (pageInFromFile p i u r) m (fun result m' => ∃ n, m.Readies n ∧ n.Arrives p u i result m')
      fun _ _ => True := by
  rw [pageInFromFile, ends_bind]
  refine (ends_lendFrame_borrows h hv hdeclared p i u true).imp ?_ fun _ _ _ => trivial
  rintro f m₁ ⟨n, w, hready, hroom, hn, h₁, hfiles, hzero⟩
  have hspares := hroom.spares
  have hw := hroom.sound hv
  have hi' : w.own p u = some i := by rw [hspares.own, hi]
  have hpage := hspares.page i haway
  have hslot : (n.page i).slot = none := by rw [hn.pageSlot, hpage, hs]
  have hregion : (n.page i).backing.region? = some r := by rw [hn.backing, hpage, hr]
  have hfits : ¬ pageSize < r.readLen :=
    Nat.not_lt.2 ((hv.owned.fits hi hr).le.trans' (Nat.le_add_right _ _))
  simp only [readRegion, demandFits, if_neg hfits, readFrame, writeFrame, ends_bind, ends_pure,
    ends_modifyGet, ends_get, ends_modify]
  rw [hfiles]
  set reading := FileSystem.readAt n.files r.file r.offset r.readLen with hreading
  set b := (m₁.pool.read f).overlay 0 (reading.1.data.take r.readLen) with hb
  -- whatever has been read is in the frame by now
  have hconsulted : reading.2 = n.consulted i := by rw [consulted, hslot, hregion]
  have h₂ : n.Borrows ⟨f, p, i⟩ ((m₁.withFiles reading.2).withPool (m₁.pool.write f b)) :=
    (h₁.withFiles reading.2).write b
  show Ends _ ((m₁.withFiles reading.2).withPool (m₁.pool.write f b)) _ _
  rw [ends_ite]
  split
  · rename_i hshort
    simp only [ends_bind, ends_process, ends_emit, ends_pure]
    refine (ends_freeFrame_of_borrows (h₂.report _) hn hw.housed).returns fun _ m₃ h₃ => ?_
    exact ⟨n, hready, .shortRead ⟨hslot, hregion, rfl⟩ hshort h₃.1 (h₃.2.trans hconsulted)⟩
  rename_i hcount
  have hwhole : ∀ r' count, n.ReadsIn i r' count → count = r'.readLen := by
    rintro r' count ⟨-, hr', rfl⟩
    obtain rfl : r = r' := by simpa [hregion] using hr'
    exact Classical.not_not.1 hcount
  rw [ends_bind]
  refine (ends_install_borrows h₂ hn hw hi' (by rw [hpage, haway])).imp ?_ fun _ _ _ => trivial
  intro result m₃ h₃
  cases result with
  | error x =>
    obtain ⟨rfl, hfull, hrestores, hfiles'⟩ := h₃
    exact ⟨n, hready, .mapFailed hwhole hfull hrestores (hfiles'.trans hconsulted)⟩
  | ok _ =>
    obtain ⟨hroom', h₃, t, ht, rfl⟩ := h₃
    have hread : ((m₁.withFiles reading.2).withPool (m₁.pool.write f b)).pool.read f = b := by
      refine (Pool.read_write _ ?_ b f).trans (if_pos rfl)
      exact h₁.total ▸ h₁.cell_lt
    have hincoming : n.incoming i = some b := by
      rw [incoming, hslot, hregion, hb, hzero rfl]
    rw [hread] at h₃
    have h₄ := shows_occupy (v := w.setFiles reading.2) h₃ (hw.owned.lt hi')
    refine ⟨n, hready, arrives_of_installed hn hw hi' h₂ ht
      (moves_settle (R := SameTables) i f _) h₄ hroom' hwhole hincoming rfl rfl rfl (fun _ _ => rfl) hconsulted⟩

/-- A page that is in memory stays as it is, and any other is brought in. -/
theorem ends_pageIn_exact (h : m.Shows v held) (hv : v.Sound) (hdeclared : v.declared = v.own)
    (hi : v.own p u = some i) :
    Ends (pageIn p i) m (fun result m' => if (m.page i).resident
      then result = .error (.alreadyResident u) ∧ m' = m
      else ∃ n, m.Readies n ∧ n.Arrives p u i result m') fun _ _ => True := by
  rw [pageIn, ends_bind, ends_page, ends_ite, h.upage, hv.owned.upage hi]
  split
  · exact ⟨rfl, rfl⟩
  rename_i hno
  have haway : (v.page i).frame = none := by simpa [Page.resident, h.frame] using hno
  rw [h.pageSlot, h.backing]
  cases hs : (v.page i).slot with
  | some s => exact ends_pageInFromSlot_exact h hv hdeclared hi haway hs
  | none =>
    obtain ⟨r, hr⟩ := exists_region_of_sourced (hv.sourced _ _ _ hi) haway hs
    rw [hr]
    exact ends_pageInFromFile_exact h hv hdeclared hi haway hs hr

/-- A page that is not pinned is brought in if it is not in memory yet. -/
theorem ends_resolve_exact (h : m.Shows v held) (hv : v.Sound) (hdeclared : v.declared = v.own)
    (hi : v.own p u = some i) :
    Ends (resolve p i) m (fun result m' => (m.page i).pinned = false ∧ if (m.page i).resident
      then result = .error (.alreadyResident u) ∧ m' = m
      else ∃ n, m.Readies n ∧ n.Arrives p u i result m') fun _ _ => True := by
  rw [resolve, ends_bind]
  by_cases hmem : i ∈ held
  · exact ends_pin_of_mem h hmem trivial
  have hfree : (m.page i).pinned = false := by simpa using (h.fit.pinned i).not.2 hmem
  have hlt : i < m.pages.next := h.next ▸ hv.owned.lt hi
  have hpin : pin i m = .ok () (m.pinning i true) := pin_of_free hfree
  rw [ends_of_eq hpin, ends_bind]
  have h₁ : (m.pinning i true).Shows v (insert i held) := h.pin (hv.owned.lt hi)
  have hresident : ((m.pinning i true).page i).resident = (m.page i).resident := by
    rw [page_pinning hlt, Function.update_self]
    rfl
  have hview : Ends (pageIn p i) _ _ (Stalls (insert i held \ {i}) False v) := ends_pageIn h₁ hv hdeclared hi
  refine ((ends_pageIn_exact h₁ hv hdeclared hi).and hview).imp ?_ fun _ _ _ => trivial
  rintro result m₂ ⟨hexact, v', h₂, -⟩
  have hpinned : (m₂.page i).pinned = true := (h₂.fit.pinned i).2 (Set.mem_insert i held)
  rw [ends_bind, ends_of_eq (unpin_of_pinned hpinned), ends_pure]
  refine ⟨hfree, ?_⟩
  by_cases hin : (m.page i).resident = true
  · rw [if_pos (hresident.trans hin)] at hexact
    rw [if_pos hin]
    obtain ⟨rfl, rfl⟩ := hexact
    exact ⟨rfl, withPage_withPage m (Page.eq_of_face rfl hfree.symm)⟩
  · rw [if_neg fun h => hin (hresident.symm.trans h)] at hexact
    rw [if_neg hin]
    obtain ⟨n, hready, harrives⟩ := hexact
    have haway : ∀ e ∈ m.frames.entries, e.page ≠ i := by
      rintro e he rfl
      obtain ⟨x, -, hframe⟩ := (hv.housed.listed e.frame e.owner e.page).1
        (h.tenants ▸ Multiset.mem_coe.2 he)
      simp [Page.resident, h.frame, hframe] at hin
    have hnext : n.pages.next = m.pages.next :=
      hready.spares.next.trans (congrArg View.next (scene_pinning m i true))
    exact ⟨n.pinning i false, hready.of_pinning hfree haway, harrives.pinning (hnext ▸ hlt) false⟩

/-! ### The stack -/

/-- The stack grows by the page that holds `a`, if that page is within bounds, not declared, and the page
table has room for it. -/
theorem ends_growStack_exact (h : m.Shows v held) (hv : v.Sound) (hdeclared : v.declared = v.own)
    (hlive : v.exited p = false) (a : Nat) :
    Ends (growStack p a) m (fun result m' =>
      if !isUser (pageBase a) || stackLimit < userTop - pageBase a
      then result = none ∧ ∃ ev, m' = m.report ev
      else if (m.declaredAt p (pageBase a)).isSome then result = none ∧ m' = m
      else ∃ n, m.Readies n ∧ n.Grows p (pageBase a) result m') fun _ _ => True := by
  have hcontains : (m.process p).declared.contains (pageBase a) = (m.declaredAt p (pageBase a)).isSome :=
    Std.ExtTreeMap.contains_eq_isSome_getElem?
  simp only [growStack_eq, ends_bind, ends_process, ends_ite, ends_emit, ends_pure, hcontains, true_and]
  split
  · exact ⟨_, rfl⟩
  rename_i hbounds
  split
  · trivial
  rename_i hvacant
  have huser : isUser (pageBase a) = true := by
    by_contra hno
    simp [hno] at hbounds
  have haligned := isAligned_pageBase a
  rw [ends_get]
  refine (ends_lendFrame_borrows h hv hdeclared p m.pages.next (pageBase a) true).imp ?_ fun _ _ _ => trivial
  rintro f m₁ ⟨n, w, hready, hroom, hn, h₁, hfiles, hzero⟩
  have hspares := hroom.spares
  have hw := hroom.sound hv
  have hown : w.own p (pageBase a) = none := by
    rw [hspares.own, ← hdeclared, h.declared]
    simpa using hvacant
  have hprocess : m₁.process p = n.process p := by rw [Machine.process, h₁.processes, Machine.process]
  have hnone : (n.process p).table.mapping? (pageBase a) = none := by
    rw [← hn.mapping?, hw.housed.mapping?, hown, Option.bind_none]
  have hnext : m.pages.next = n.pages.next := by rw [← h.next, ← hspares.next, hn.next]
  have hlive' : w.exited p = false := by rw [hspares.exited, hlive]
  have hshows := h₁.shows hn
  refine ((ends_mapPage_exact haligned (by rw [hprocess, hnone])).and
    (ends_mapPage (E := fun _ _ => True) hshows hlive' haligned true fun _ => trivial)).imp ?_
    fun _ _ _ => trivial
  rintro done m₂ ⟨hexact, hdone⟩
  rw [hprocess] at hexact
  cases done with
  | false =>
    obtain ⟨hfull, rfl⟩ := hexact
    simp only [Bool.false_eq_true, if_false]
    exact (ends_freeFrame_of_borrows h₁ hn hw.housed).returns fun _ _ h' =>
      ⟨n, hready, .refused hfull h'.1 (h'.2.trans hfiles)⟩
  | true =>
    obtain ⟨hroom', t, ht, rfl⟩ := hexact
    simp only [if_true, addPage, ends_modifyGet, ends_modifyProcess]
    rw [if_pos rfl, hzero rfl] at hdone
    set pg : Page := { Page.declared (pageBase a) true .swap with frame := some f }
    have h₃ := (shows_claim (p := p) hdone hlive' hdone.next_notMem (pageBase a) pg rfl).report
      (.stackGrown (m.process p).pid (pageBase a))
    have hp : p < n.processes.size := hn.lt_of_live hlive'
    have hnext' : (m₁.withTable p fun _ => t).pages.next = n.pages.next := congrArg PageStore.next h₁.pages
    have hw' : w.next = n.pages.next := hn.next
    rw [hnext'] at h₃ ⊢
    refine ⟨n, hready, ?_⟩
    refine .grown (f := f) hroom' ?_ ?_ hfiles
    · refine gains_of_shows hn h₃ (h₁.frames.trans (by rw [hnext])) h₁.free (fun q => ?_) haligned ht ?_ ?_
        rfl fun _ _ => rfl
      · rw [← h₁.table_withTable hp]
        refine (congrArg Process.table (process_withProcess _ p q _)).trans ?_
        split <;> rfl
      · exact congrArg (fun k => Function.update w.page k pg) hw'
      · rw [← hw']
        exact ⟨fun hpin => by simp [Page.declared] at hpin, fun hmem => absurd hmem hn.next_notMem⟩
    · rw [← h₃.declared, ← hn.declared, ← hw']
      rfl

end Kernel

end DemandPaging
