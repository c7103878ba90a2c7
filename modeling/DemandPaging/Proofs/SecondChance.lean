import DemandPaging.File.Memory
import DemandPaging.Proofs.Attended
import DemandPaging.Proofs.Fetching

/-!
# The second chance

What an eviction does to the frame table and to the page tables, entry by entry. The clock's choice goes,
with its mapping; the pages that had their second chance lose their accessed bits; nothing else changes in
any table. A frame is lent at the end of the frame table, and only for want of a free frame does the
clock run before. If the pool serves every request that it can, the frame is that of the page that went.
-/

namespace DemandPaging

namespace Machine

variable {φ : Type}

/-- The frame table and the processes are the same. -/
structure SameTables (m m' : Machine φ) : Prop where
  frames : m'.frames = m.frames
  processes : m'.processes = m.processes

instance : Kernel.Bears (SameTables (φ := φ)) where
  refl _ := ⟨rfl, rfl⟩
  trans _ _ _ h h' := ⟨h'.frames.trans h.frames, h'.processes.trans h.processes⟩
  report _ _ := ⟨rfl, rfl⟩
  page _ _ _ _ := ⟨rfl, rfl⟩
  memory _ _ := ⟨rfl, rfl⟩
  slots _ _ := ⟨rfl, rfl⟩
  devices _ _ := ⟨rfl, rfl⟩

/-- Entry `e` has gone from the frame table, which is `t` now, and its mapping from the page table. The
entries that had their second chance have lost their accessed bits. No other entry of a page table has
changed, and of the processes nothing else. -/
structure Ousts (m : Machine φ) (e : Tenancy) (t : FrameTable) (m' : Machine φ) : Prop where
  frames : m.frames.Drops e t
  victim : ∀ q u, m.Lodges e q u → m'.pte? q u = none
  spared : ∀ q u, ¬ m.Lodges e q u → (∃ e' ∈ m.spared, m.Lodges e' q u) →
    m'.pte? q u = (m.pte? q u).map fun x => (x.1.setAccessed false, x.2)
  other : ∀ q u, ¬ m.Lodges e q u → (∀ e' ∈ m.spared, ¬ m.Lodges e' q u) → m'.pte? q u = m.pte? q u
  processes : m.SameButEntries m'

variable {m m' : Machine φ} {e : Tenancy} {t : FrameTable} {q : ProcId} {u : Nat}

theorem Ousts.congr {m'' : Machine φ} (h : m.Ousts e t m') (hsame : m''.processes = m'.processes) :
    m.Ousts e t m'' := by
  have hpte : ∀ q u, m''.pte? q u = m'.pte? q u := fun q u => by
    rw [Machine.pte?, Machine.process, hsame, Machine.pte?, Machine.process]
  exact ⟨h.frames, fun q u he => by rw [hpte, h.victim q u he],
    fun q u he hs => by rw [hpte, h.spared q u he hs], fun q u he hs => by rw [hpte, h.other q u he hs],
    h.processes.trans (.of_processes hsame)⟩

theorem Ousts.of_withAllocator {a : Allocator} (h : (m.withAllocator a).Ousts e t m') : m.Ousts e t m' :=
  ⟨h.frames, h.victim, h.spared, h.other, h.processes⟩

theorem pte?_unmap (m : Machine φ) (p : ProcId) (w : Nat) (q : ProcId) (u : Nat) :
    (m.withTable p (·.unmap w)).pte? q u = if q = p ∧ u = w then none else m.pte? q u := by
  rw [pte?, withTable, process_withProcess]
  split
  · rename_i hq
    obtain ⟨rfl, -⟩ := hq
    simp only [PageTable.unmap, Std.ExtTreeMap.getElem?_erase, true_and, compare_eq_iff_eq, eq_comm (a := w)]
    rfl
  · rename_i hq
    split
    · rename_i hqu
      have habsent : m.process q = .absent :=
        process_of_le (Nat.le_of_not_lt fun hlt => hq ⟨hqu.1.symm, hlt⟩)
      simp [habsent, Process.absent, Process.fresh, PageTable.empty]
    · rfl

/-- All entries are pinned if the clock has nothing to choose. -/
theorem choice_eq_none_iff : m.choice = none ↔ ∀ e ∈ m.frames.entries, (m.page e.page).pinned = true := by
  have hripe : m.frames.circular.find? m.loose = none → m.frames.circular.find? m.ripe = none := by
    simp only [List.find?_eq_none]
    exact fun h e he hripe => h e he (Bool.and_eq_true_iff.1 hripe).1
  rw [choice, Option.or_eq_none_iff, and_iff_right_of_imp hripe, List.find?_eq_none]
  simp [loose, FrameTable.mem_circular]

theorem mem_of_choice (h : m.choice = some e) : e ∈ m.frames.entries ∧ (m.page e.page).pinned = false := by
  have hloose : m.frames.circular.find? m.ripe = some e ∨ m.frames.circular.find? m.loose = some e := by
    rw [choice, Option.or_eq_some_iff] at h
    exact h.imp_right And.right
  rcases hloose with hfind | hfind
  · have hripe : m.ripe e = true := List.find?_some hfind
    exact ⟨FrameTable.mem_circular.1 (List.mem_of_find?_eq_some hfind), by simpa [ripe, loose] using
      (Bool.and_eq_true_iff.1 hripe).1⟩
  · exact ⟨FrameTable.mem_circular.1 (List.mem_of_find?_eq_some hfind), by simpa [loose] using List.find?_some hfind⟩

theorem mem_of_spared (h : e ∈ m.spared) : e ∈ m.frames.entries ∧ (m.page e.page).pinned = false := by
  obtain ⟨hmem, hloose⟩ := List.mem_filter.1 h
  exact ⟨FrameTable.mem_circular.1 ((List.takeWhile_prefix _).subset hmem), by simpa [loose] using hloose⟩

/-- The clock does not choose a page that has been accessed while there is one that it could take at
once. -/
theorem ripe_of_choice (h : m.choice = some e) {e' : Tenancy} (he' : e' ∈ m.frames.entries)
    (hripe : m.ripe e' = true) : m.ripe e = true := by
  cases hfind : m.frames.circular.find? m.ripe with
  | none => exact absurd hripe (List.find?_eq_none.1 hfind e' (FrameTable.mem_circular.2 he'))
  | some e'' =>
    rw [choice, hfind, Option.some_or, Option.some.injEq] at h
    exact h ▸ List.find?_some hfind

theorem backing_taking (m : Machine φ) (e : Tenancy) (i : PageId) :
    ((m.taking e).page i).backing = (m.page i).backing := by
  rw [taking, page_withPage]
  split <;> rfl

theorem files_rested : ∀ (es : List Tenancy) (m : Machine φ), (m.rested es).files = m.files
  | [], _ => rfl
  | _ :: es, _ => files_rested es _

/-- The machine once the clock has taken entry `e`, which leaves the frame table `t`, and the page is no
longer mapped. -/
def ousting (m : Machine φ) (e : Tenancy) (t : FrameTable) : Machine φ :=
  let m₁ := ((m.rested m.spared).withFrames t).taking e
  m₁.withTable e.owner (·.unmap (m₁.page e.page).upage)

theorem files_ousting (m : Machine φ) (e : Tenancy) (t : FrameTable) : (m.ousting e t).files = m.files :=
  files_rested _ _

theorem ousts_ousting (hentries : t.entries = m.frames.entries) (hcur : t.current? = some e) :
    m.Ousts e (m.ousting e t).frames (m.ousting e t) := by
  rw [ousting]
  set m₁ := ((m.rested m.spared).withFrames t).taking e
  have hupage : (m₁.page e.page).upage = (m.page e.page).upage := by
    refine (Kernel.upage_withPage (((m.rested m.spared).withFrames t).withFrames _)
      (f := fun pg => { pg with pinned := true }) (fun _ => rfl) e.page e.page).trans ?_
    exact congrArg Page.upage (page_rested _ _ _)
  have hpte : ∀ q u, m₁.pte? q u = (m.rested m.spared).pte? q u := fun _ _ => rfl
  have hlodges : ∀ q u, (q = e.owner ∧ u = (m₁.page e.page).upage) ↔ m.Lodges e q u := fun q u => by
    rw [hupage, Lodges, eq_comm, @eq_comm _ u]
  have hrested : m.SameButEntries m₁ := Kernel.sameButEntries_rested m.spared m
  refine ⟨(FrameTable.drops_remove hcur).of_entries hentries, fun q u he => ?_, fun q u he hs => ?_,
    fun q u he hs => ?_, hrested.trans (.withTable m₁ e.owner rfl)⟩
  · rw [pte?_unmap, if_pos ((hlodges q u).2 he)]
  · rw [pte?_unmap, if_neg fun h => he ((hlodges q u).1 h), hpte, pte?_rested, if_pos hs]
  · rw [pte?_unmap, if_neg fun h => he ((hlodges q u).1 h), hpte, pte?_rested, if_neg (by simpa using hs)]

end Machine

namespace Kernel

open Machine

variable {φ : Type} [FileSystem φ] {m : Machine φ} {v : View φ} {held : Set PageId} {e : Tenancy}
  {p : ProcId} {i : PageId} {u : Nat} {zeroed : Bool} {f : Frame}

omit [FileSystem φ] in
theorem sameTables_files (m : Machine φ) (files : φ) : m.SameTables (m.withFiles files) := ⟨rfl, rfl⟩

theorem evict_of_choice_none (h : m.Shows v held) (hv : v.Sound) (hchoice : m.choice = none) :
    evict m = .ok false m := by
  have hsweep := (sweep_twice (h.wound hv)).1 hchoice
  refine eq_ok_of_ends ?_
  simp only [evict, ends_bind, ends_get]
  rw [ends_of_eq hsweep]
  exact ⟨rfl, rfl⟩

/-- What an eviction does once the page that goes is no longer mapped. -/
theorem ends_evict_unmapped {R : Machine φ → Machine φ → Prop} [Bears R] (h : m.Shows v held) (hv : v.Sound)
    (hchoice : m.choice = some e) (hwrite : ∀ r, (m.page e.page).backing.region? = some r →
      ∀ m' o d, R m' (m'.withFiles (FileSystem.writeAt m'.files r.file o d).2)) :
    ∃ t, t.entries = m.frames.entries ∧ t.current? = some e ∧
      Ends evict m (fun done m' => done = true ∧ R (m.ousting e t) m') fun _ m' => R (m.ousting e t) m' := by
  obtain ⟨-, t, hentries, hcur, hsweep⟩ := (sweep_twice (h.wound hv)).2 e hchoice
  refine ⟨t, hentries, hcur, ?_⟩
  simp only [evict, ends_bind, ends_get]
  rw [ends_of_eq hsweep]
  set m₁ := ((m.rested m.spared).withFrames t).taking e with hm₁
  have hbacking : (m₁.page e.page).backing = (m.page e.page).backing := by
    rw [hm₁, backing_taking]
    exact congrArg Page.backing (page_rested _ _ _)
  have hrest : Moves R (do
      returnFrame e.frame
      unpin e.page : Kernel φ Unit) := moves_bind (moves_returnFrame _) fun _ => moves_unpin _
  simp only [ends_bind]
  refine (ends_pageOut_unmapped (fun r hr => hwrite r (hbacking ▸ hr)) rfl).imp (fun _ m₃ h₃ => ?_)
    fun _ _ h₃ => h₃
  have hmoves := hrest m₃
  rw [Goes, ends_bind] at hmoves
  exact hmoves.imp (fun _ m₄ h₄ => h₄.imp (fun _ _ h₅ => ⟨rfl, trans_of R h₃ h₅⟩) fun _ _ h₅ => trans_of R h₃ h₅)
    fun _ _ h₄ => trans_of R h₃ h₄

/-- An eviction ousts the clock's choice, also where it stops for want of swap space. -/
theorem ends_evict_of_choice (h : m.Shows v held) (hv : v.Sound) (hchoice : m.choice = some e) :
    Ends evict m (fun done m' => done = true ∧ m.Ousts e m'.frames m')
      fun _ m' => m.Ousts e m'.frames m' := by
  obtain ⟨t, hentries, hcur, hevict⟩ := ends_evict_unmapped (R := SameTables) h hv hchoice
    fun _ _ _ _ _ => sameTables_files _ _
  have housts := ousts_ousting hentries hcur
  have hsame : ∀ {m' : Machine φ}, (m.ousting e t).SameTables m' → m.Ousts e m'.frames m' := fun {m'} h' => by
    rw [h'.frames]
    exact housts.congr h'.processes
  exact hevict.imp (fun _ _ h' => ⟨h'.1, hsame h'.2⟩) fun _ _ h' => hsame h'

/-! ### Lending -/

/-- A pool that serves every request that it can has a frame to lend as long as one is free. -/
theorem exists_alloc {a : Allocator} (hopen : a.refuses a.requests = false) {c : Nat}
    (hc : c < a.pool.total) (hfree : a.pool.lent c = false) (zeroed : Bool) :
    ∃ f, (a.alloc (.forUser zeroed)).1 = .ok f := by
  rcases alloc_cases a (Frame.user_forUser zeroed) with ⟨f, a', ha, -⟩ | ⟨e, a', -, -, -, hrefused | hfull⟩
  · exact ⟨f, by rw [ha]⟩
  · simp [hopen] at hrefused
  · simp [hfull c hc] at hfree

/-- A frame that the pool has is lent as it is, and no page has to go for it. -/
theorem ends_lendFrame_of_ok (halloc : (m.allocator.alloc (.forUser zeroed)).1 = .ok f)
    {E : Stop → Machine φ → Prop} :
    Ends (lendFrame p i u zeroed) m (fun g m' => g = f ∧ m'.frames = m.frames.add ⟨f, p, i⟩ ∧
      m'.processes = m.processes) E := by
  simp only [lendFrame, obtainFrame, takeFrame, ends_bind, ends_modifyGet]
  generalize m.allocator.alloc (.forUser zeroed) = x at halloc
  obtain ⟨result, a⟩ := x
  obtain rfl : result = .ok f := halloc
  exact ⟨rfl, rfl, rfl⟩

omit [FileSystem φ] in
/-- The request that has been turned down leaves the clock as it was. -/
theorem ends_takeFrame_of_error (h : m.Shows v held) {x : Frame.Shortage}
    (halloc : (m.allocator.alloc (.forUser zeroed)).1 = .error x) {E : Stop → Machine φ → Prop} :
    Ends (takeFrame (.forUser zeroed)) m (fun result m' => result = .error x ∧ m'.Shows v held ∧
      (v.plant.Open → ∀ c < v.plant.total, (v.cell c).isSome = true) ∧
      ∃ a, m' = m.withAllocator a) E := by
  have hexact : Ends (takeFrame (.forUser zeroed)) m (fun result m' => result = .error x ∧
      ∃ a, m' = m.withAllocator a) E := by
    simp only [takeFrame, ends_bind, ends_modifyGet]
    generalize m.allocator.alloc (.forUser zeroed) = y at halloc
    obtain ⟨result, a⟩ := y
    obtain rfl : result = .error x := halloc
    exact ⟨rfl, a, rfl⟩
  refine ((ends_takeFrame (E := E) h (Frame.user_forUser zeroed)).and hexact).imp ?_ fun _ _ hstop => hstop.2
  rintro _ m' ⟨hshows, rfl, hsame⟩
  exact ⟨rfl, hshows.1, hshows.2, hsame⟩

/-- If nothing can be evicted, a request that the pool cannot serve stops the machine. -/
theorem ends_lendFrame_of_choice_none (h : m.Shows v held) (hv : v.Sound) {x : Frame.Shortage}
    (halloc : (m.allocator.alloc (.forUser zeroed)).1 = .error x) (hchoice : m.choice = none) :
    Ends (lendFrame p i u zeroed) m (fun _ _ => False) fun e m' => e = .halt .allPinned ∧
      m.SameTables m' := by
  rw [lendFrame, ends_bind, obtainFrame, ends_bind]
  refine (ends_takeFrame_of_error h halloc).returns ?_
  rintro _ _ ⟨rfl, h₁, -, a, rfl⟩
  simp only [ends_bind]
  rw [ends_of_eq (evict_of_choice_none h₁ hv hchoice)]
  exact ⟨rfl, rfl, rfl⟩

omit [FileSystem φ] in
/-- When all frames were lent, the one that is free after an eviction is that of the victim. -/
theorem eq_frame_of_free {v' : View φ} (hv : v.Sound) (hv' : v'.Sound) (hplant : v'.plant = v.plant)
    (htenants : v.tenants = e ::ₘ v'.tenants) (hfull : ∀ c < v.plant.total, (v.cell c).isSome = true)
    (hfree : v'.Free f) : f = e.frame := by
  obtain ⟨e', he', hcell⟩ := (hv.housed.lent f.cell).1 (hfull f.cell (hplant ▸ hfree.total))
  have hvictim : e' = e := by
    rw [htenants, Multiset.mem_cons] at he'
    refine he'.resolve_right fun hstill => ?_
    have hlent := (hv'.housed.lent f.cell).2 ⟨e', hstill, hcell⟩
    rw [hfree.cell] at hlent
    simp at hlent
  subst hvictim
  have hmem : e' ∈ v.tenants := htenants ▸ Multiset.mem_cons_self _ _
  have hpfn : f.pfn = e'.frame.pfn := by rw [hv.housed.pfn e' hmem, hfree.pfn, hplant, hcell]
  cases f
  rw [Frame.mk.injEq]
  exact ⟨hpfn, hcell.symm⟩

/-- Otherwise the clock's choice is ousted, and the frame that is free then is lent. -/
theorem ends_lendFrame_of_choice (h : m.Shows v held) (hv : v.Sound) (hdeclared : v.declared = v.own)
    {x : Frame.Shortage} (halloc : (m.allocator.alloc (.forUser zeroed)).1 = .error x)
    (hchoice : m.choice = some e) :
    Ends (lendFrame p i u zeroed) m (fun f m' => ∃ t, m.Ousts e t m' ∧ m'.frames = t.add ⟨f, p, i⟩ ∧
        ((∀ n, m.allocator.refuses n = false) → f = e.frame))
      fun s _ => (∃ y, s = .halt (.swap y)) ∨
        (∃ y, s = .halt (.shortage y)) ∧ ∃ n, m.allocator.refuses n = true := by
  rw [lendFrame, ends_bind, obtainFrame, ends_bind]
  refine (ends_takeFrame_of_error h halloc).returns ?_
  rintro _ _ ⟨rfl, h₁, hfull, a, rfl⟩
  simp only [ends_bind]
  have hevict : Ends evict (m.withAllocator a) _ (fun e m' => (∃ x, e = .halt (.swap x)) ∧
      Stops False v e m') := ends_evict h₁ hv hdeclared
  refine (hevict.and (ends_evict_of_choice h₁ hv hchoice)).imp ?_ fun _ _ hstop => .inl hstop.1.1
  rintro _ m₂ ⟨hdone, rfl, housts⟩
  have housts := housts.of_withAllocator
  obtain ⟨j, -, v', heffect, h₂, c, hc, hnone⟩ := hdone
  simp only [Bool.not_true, Bool.false_eq_true, if_false]
  rw [ends_bind]
  have hpath : Path (fun _ => True) v v' := Path.single trivial heffect
  have hopen : (∀ n, m.allocator.refuses n = false) → v.plant.Open := fun hrefuses => by
    have hpos : 0 < v.plant.total := Nat.zero_lt_of_lt (hpath.plant ▸ hc)
    refine ⟨hpos, fun n => ?_⟩
    rw [h.plant]
    exact hrefuses n
  refine ((ends_takeFrame h₂ (Frame.user_forUser zeroed)).and (moves_takeFrame (R := SameTables) _ m₂)).imp ?_
    fun _ _ hstop => hstop.1
  rintro result m₃ ⟨h₃, hsame⟩
  cases result with
  | error y =>
    refine .inr ⟨⟨y, rfl⟩, ?_⟩
    by_contra hno
    have hcell := h₃.2 (hpath.plant ▸ hopen fun n => by simpa using fun hn => hno ⟨n, hn⟩) c hc
    rw [hnone] at hcell
    simp at hcell
  | ok f =>
    obtain ⟨hfree, -⟩ := h₃
    simp only [ends_process, ends_emit, ends_modify, ends_pure]
    refine ⟨m₂.frames, housts.congr hsame.processes, congrArg (·.add ⟨f, p, i⟩) hsame.frames,
      fun hrefuses => ?_⟩
    obtain ⟨before, after, hentries, hrest, -⟩ := housts.frames
    refine eq_frame_of_free hv (heffect.sound hv) hpath.plant ?_ (hfull (hopen hrefuses)) hfree
    rw [h.tenants, h₂.tenants, hentries, hrest, Multiset.cons_coe]
    exact Multiset.coe_eq_coe.2 List.perm_middle

end Kernel

open Kernel

/-- What the clock does when a frame is asked for. -/
structure Machine.SecondChance {φ : Type} [FileSystem φ] (m : Machine φ) : Prop where
  /-- If every entry is pinned, nothing goes, and no entry, accessed bit or hand changes. -/
  pinned : (∀ e ∈ m.frames.entries, (m.page e.page).pinned = true) → evict m = .ok false m
  /-- Otherwise the choice of the clock goes, which is an entry that could be taken at once if there is
  one. -/
  victim : (∃ e ∈ m.frames.entries, (m.page e.page).pinned = false) → ∃ e, m.choice = some e ∧
    e ∈ m.frames.entries ∧ (m.page e.page).pinned = false ∧
    ((∃ e' ∈ m.frames.entries, m.ripe e' = true) → m.ripe e = true) ∧
    Ends evict m (fun done m' => done = true ∧ m.Ousts e m'.frames m') fun s m' =>
      (∃ x, s = .halt (.swap x)) ∧ m.Ousts e m'.frames m'
  /-- A pool that serves every request that it can has a frame to lend as long as one is free. -/
  free : (∀ n, m.allocator.refuses n = false) → (∃ c < m.pool.total, m.pool.lent c = false) →
    ∀ zeroed, ∃ f, (m.allocator.alloc (.forUser zeroed)).1 = .ok f
  /-- A frame that the pool has to lend is lent, and nothing goes. -/
  lends : ∀ p i u zeroed f, (m.allocator.alloc (.forUser zeroed)).1 = .ok f →
    Ends (lendFrame p i u zeroed) m (fun g m' => g = f ∧ m'.frames = m.frames.add ⟨f, p, i⟩ ∧
      m'.processes = m.processes) fun _ _ => False
  /-- If the pool has none and every entry is pinned, the machine stops, and no table changes. -/
  starves : ∀ p i u zeroed x, (m.allocator.alloc (.forUser zeroed)).1 = .error x →
    (∀ e ∈ m.frames.entries, (m.page e.page).pinned = true) →
    Ends (lendFrame p i u zeroed) m (fun _ _ => False) fun s m' => s = .halt .allPinned ∧ m.SameTables m'
  /-- Otherwise the choice of the clock goes, and its frame is lent if the pool serves every request that
  it can. -/
  replaces : ∀ p i u zeroed x e, (m.allocator.alloc (.forUser zeroed)).1 = .error x → m.choice = some e →
    Ends (lendFrame p i u zeroed) m (fun f m' => ∃ t, m.Ousts e t m' ∧ m'.frames = t.add ⟨f, p, i⟩ ∧
        ((∀ n, m.allocator.refuses n = false) → f = e.frame))
      fun s _ => (∃ y, s = .halt (.swap y)) ∨
        (∃ y, s = .halt (.shortage y)) ∧ ∃ n, m.allocator.refuses n = true

/-- The clock gives every page a second chance, whatever is pinned and whatever has been accessed. -/
theorem Attended.second_chance {φ : Type} [FileSystem φ] {m : Machine φ} (h : Attended m) :
    m.SecondChance := by
  have hm := h.settled
  refine ⟨fun hall => evict_of_choice_none hm.shows hm.sound (Machine.choice_eq_none_iff.2 hall), ?_,
    fun hopen ⟨c, hc, hfree⟩ zeroed => exists_alloc (hopen _) hc hfree zeroed,
    fun p i u zeroed f halloc => ends_lendFrame_of_ok halloc,
    fun p i u zeroed x halloc hall => ends_lendFrame_of_choice_none hm.shows hm.sound halloc
      (Machine.choice_eq_none_iff.2 hall),
    fun p i u zeroed x e halloc he => ends_lendFrame_of_choice hm.shows hm.sound rfl halloc he⟩
  rintro ⟨e, he, hfree⟩
  cases hchoice : m.choice with
  | none =>
    have hpinned := Machine.choice_eq_none_iff.1 hchoice e he
    simp [hfree] at hpinned
  | some e' =>
    obtain ⟨he', hfree'⟩ := Machine.mem_of_choice hchoice
    have hevict : Ends evict m _ (fun e m' => (∃ x, e = .halt (.swap x)) ∧ Stops False m.scene e m') :=
      ends_evict hm.shows hm.sound rfl
    refine ⟨e', rfl, he', hfree', fun ⟨e'', he'', hripe⟩ => Machine.ripe_of_choice hchoice he'' hripe, ?_⟩
    exact (hevict.and (ends_evict_of_choice hm.shows hm.sound hchoice)).imp (fun _ _ h => h.2)
      fun _ _ h => ⟨h.1.1, h.2⟩

/-- Of three pages in memory, one is pinned, one is spared because it has been accessed, and the third is
the choice of the clock. -/
theorem second_chance_of_accessed : ∃ m : Machine MemoryFiles, Attended m ∧ (m.page 0).pinned = true ∧
    m.spared.map (·.page) = [1] ∧ m.choice.map (·.page) = some 2 ∧ m.SecondChance := by
  obtain ⟨m, hm, -, hP⟩ := exists_reachable 3 1 (⟨#[]⟩ : MemoryFiles)
    [(0, .growStack 0x7ffff000), (0, .growStack 0x7fffe000), (0, .growStack 0x7fffd000),
      (0, .load 0x7fffe000 1)]
    (fun m => decide (0 < m.pages.next) && check (Kernel.pin 0) (fun _ m' => (m'.page 0).pinned &&
      m'.spared.map (·.page) == [1] && m'.choice.map (·.page) == some 2) m) (by decide +kernel)
  simp only [Bool.and_eq_true, decide_eq_true_eq] at hP
  obtain ⟨_, m', hpin, hP'⟩ := exists_of_check hP.2
  simp only [Bool.and_eq_true, beq_iff_eq] at hP'
  have hattended : Attended m' := .pin (.run hm) hP.1 hpin
  exact ⟨m', hattended, hP'.1.1, hP'.1.2, hP'.2, hattended.second_chance⟩

end DemandPaging
