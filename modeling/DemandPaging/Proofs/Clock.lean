import DemandPaging.Proofs.FrameTable
import DemandPaging.Proofs.Resource
import Mathlib.Data.List.TakeWhile

/-!
# The clock

An entry of the frame table whose page is not pinned is loose, and one whose page has been accessed is
recent. The clock takes the first loose entry that is not recent; if there is none, all loose entries
lose their accessed bits on the first sweep, and the second sweep takes the first of them. So an entry
that is taken was idle before, unless no loose entry was; then all of them are idle afterwards. Pins are
arbitrary here: it does not matter who holds them.
-/

namespace DemandPaging

namespace Machine

variable {φ : Type}

/-- The page of an entry has not been accessed since the clock cleared its bit. -/
def Idle (m : Machine φ) (e : Tenancy) : Prop :=
  (m.process e.owner).table.isAccessed (m.page e.page).upage = false

/-- No accessed bit has been set, and nothing has become of the limits of page tables and of the
addresses of pages. -/
structure Fades (m m' : Machine φ) : Prop where
  accessed : ∀ q u, (m'.process q).table.isAccessed u = true → (m.process q).table.isAccessed u = true
  limit : ∀ q, (m'.process q).table.limit = (m.process q).table.limit
  next : m.pages.next ≤ m'.pages.next
  upage : ∀ i < m.pages.next, (m'.page i).upage = (m.page i).upage

theorem Fades.refl (m : Machine φ) : m.Fades m :=
  ⟨fun _ _ => id, fun _ => rfl, Nat.le_refl _, fun _ _ => rfl⟩

theorem Fades.trans {m m' m'' : Machine φ} (h : m.Fades m') (h' : m'.Fades m'') : m.Fades m'' :=
  ⟨fun q u ha => h.accessed q u (h'.accessed q u ha), fun q => (h'.limit q).trans (h.limit q),
    Nat.le_trans h.next h'.next,
    fun i hi => (h'.upage i (Nat.lt_of_lt_of_le hi h.next)).trans (h.upage i hi)⟩

/-- An idle entry stays idle. -/
theorem Fades.idle {m m' : Machine φ} (h : m.Fades m') {e : Tenancy} (he : e.page < m.pages.next)
    (hidle : m.Idle e) : m'.Idle e := by
  rw [Idle, h.upage _ he]
  by_contra hbusy
  rw [Bool.not_eq_false] at hbusy
  have := h.accessed _ _ hbusy
  simp_all [Idle]

/-- A change of the page table of a process that sets no accessed bit. -/
theorem Fades.withTable (m : Machine φ) (p : ProcId) {f : PageTable → PageTable}
    (haccessed : ∀ u, (f (m.process p).table).isAccessed u = true →
      (m.process p).table.isAccessed u = true)
    (hlimit : (f (m.process p).table).limit = (m.process p).table.limit) :
    m.Fades (m.withTable p f) := by
  refine ⟨fun q u hu => ?_, fun q => ?_, Nat.le_refl _, fun _ _ => rfl⟩
  · rw [Machine.withTable, process_withProcess] at hu
    split at hu
    · rename_i hq
      obtain ⟨rfl, -⟩ := hq
      exact haccessed u hu
    · exact hu
  · rw [Machine.withTable, process_withProcess]
    split
    · rename_i hq
      obtain ⟨rfl, -⟩ := hq
      exact hlimit
    · rfl

/-- A change of a page that leaves its address alone. -/
theorem Fades.withPage (m : Machine φ) {f : Page → Page} (hf : ∀ pg, (f pg).upage = pg.upage)
    (i : PageId) : m.Fades (m.withPage i f) := by
  refine ⟨fun _ _ => id, fun _ => rfl, ?_, fun j _ => ?_⟩
  · rw [withPage_pages, PageStore.next_modify]
  · rw [page_withPage]
    split
    · rw [hf]
    · rfl

theorem Fades.withFrames (m : Machine φ) (t : FrameTable) : m.Fades (m.withFrames t) :=
  ⟨fun _ _ => id, fun _ => rfl, Nat.le_refl _, fun _ _ => rfl⟩

/-- Nothing of the processes has changed but the entries of their page tables. -/
def SameButEntries (m m' : Machine φ) : Prop :=
  ∀ q, ∃ entries, m'.process q = { m.process q with table := { (m.process q).table with entries } }

theorem SameButEntries.of_processes {m m' : Machine φ} (h : m'.processes = m.processes) :
    m.SameButEntries m' := fun q => ⟨(m.process q).table.entries, by rw [process, h, process]⟩

theorem SameButEntries.trans {m m' m'' : Machine φ} (h : m.SameButEntries m') (h' : m'.SameButEntries m'') :
    m.SameButEntries m'' := fun q => by
  obtain ⟨_, hq⟩ := h q
  obtain ⟨entries, hq'⟩ := h' q
  exact ⟨entries, by rw [hq', hq]⟩

/-- A change of the page table of a process that keeps its limit. -/
theorem SameButEntries.withTable (m : Machine φ) (p : ProcId) {f : PageTable → PageTable}
    (hlimit : (f (m.process p).table).limit = (m.process p).table.limit) :
    m.SameButEntries (m.withTable p f) := fun q => by
  rw [Machine.withTable, process_withProcess]
  split
  · rename_i hq
    obtain ⟨rfl, -⟩ := hq
    exact ⟨_, congrArg (fun limit => ({ m.process p with table := ⟨_, limit⟩ } : Process)) hlimit⟩
  · exact ⟨_, rfl⟩

/-- No two entries of the frame table are for the same address of a process. -/
structure Distinct (m : Machine φ) : Prop where
  nodup : m.frames.entries.Nodup
  lt : ∀ e ∈ m.frames.entries, e.page < m.pages.next
  eq_of_address : ∀ e ∈ m.frames.entries, ∀ e' ∈ m.frames.entries, e'.owner = e.owner →
    (m.page e'.page).upage = (m.page e.page).upage → e' = e

theorem Shows.distinct {m : Machine φ} {v : View φ} {held : Set PageId} (h : m.Shows v held)
    (ho : v.Owned) (hh : v.Housed) : m.Distinct := by
  have hmem : ∀ {e}, e ∈ m.frames.entries → ∃ u, v.own e.owner u = some e.page ∧
      (v.page e.page).frame = some e.frame := fun {e} he =>
    (hh.listed e.frame e.owner e.page).1 (h.tenants ▸ Multiset.mem_coe.2 he)
  refine ⟨Multiset.coe_nodup.1 (h.tenants ▸ hh.nodup), fun e he => ?_,
    fun e he e' he' howner hupage => ?_⟩
  · obtain ⟨u, hi, -⟩ := hmem he
    exact h.next ▸ ho.lt hi
  · obtain ⟨u, hi, hf⟩ := hmem he
    obtain ⟨u', hi', hf'⟩ := hmem he'
    rw [h.upage, h.upage, ho.upage hi, ho.upage hi'] at hupage
    rw [howner, hupage, hi, Option.some.injEq] at hi'
    rw [← hi', hf, Option.some.injEq] at hf'
    obtain ⟨f, q, i⟩ := e
    obtain ⟨f', q', i'⟩ := e'
    simp only [Tenancy.mk.injEq]
    exact ⟨hf'.symm, howner, hi'.symm⟩

/-- The clock has chosen entry `e`: it was idle, or no entry was and all are now. -/
structure Picks (m m' : Machine φ) (e : Tenancy) : Prop where
  fades : m.Fades m'
  choice : m.Idle e ∨ ∀ e' ∈ m.frames.entries, ¬ m.Idle e' ∧ m'.Idle e'

/-! ### What the clock is to do -/

section

variable {m : Machine φ} {e e' : Tenancy} {es : List Tenancy} {q : ProcId} {u : Nat}

/-- Nobody has pinned the page of an entry. -/
def loose (m : Machine φ) (e : Tenancy) : Bool := !(m.page e.page).pinned

/-- The page of an entry has been accessed since the clock cleared its bit. -/
def recent (m : Machine φ) (e : Tenancy) : Bool :=
  (m.process e.owner).table.isAccessed (m.page e.page).upage

/-- The clock takes the entry when it looks at it. -/
def ripe (m : Machine φ) (e : Tenancy) : Bool := m.loose e && !m.recent e

/-- The entry that the clock takes: the first ripe one from the hand on, or, if none is ripe, the first
one that is not pinned. -/
def choice (m : Machine φ) : Option Tenancy :=
  (m.frames.circular.find? m.ripe).or (m.frames.circular.find? m.loose)

/-- The entries that the clock gives a second chance: the unpinned ones that it meets before it meets a
ripe one, which are all of them if none is ripe. -/
def spared (m : Machine φ) : List Tenancy := (m.frames.circular.takeWhile (!m.ripe ·)).filter m.loose

/-- The entry `e` is for address `u` of process `q`. -/
def Lodges (m : Machine φ) (e : Tenancy) (q : ProcId) (u : Nat) : Prop :=
  e.owner = q ∧ (m.page e.page).upage = u

instance (m : Machine φ) (e : Tenancy) (q : ProcId) (u : Nat) : Decidable (m.Lodges e q u) :=
  inferInstanceAs (Decidable (_ ∧ _))

/-- The entry of the page table of process `q` for address `u`. -/
def pte? (m : Machine φ) (q : ProcId) (u : Nat) : Option (PageTable.Entry × Frame) :=
  (m.process q).table.entries[u]?

/-- The machine with the accessed bit of the page of an entry cleared. -/
def resting (m : Machine φ) (e : Tenancy) : Machine φ :=
  m.withTable e.owner (·.setAccessed (m.page e.page).upage false)

/-- The machine with the accessed bits of the pages of `es` cleared. -/
def rested (m : Machine φ) (es : List Tenancy) : Machine φ := es.foldl resting m

/-- The machine once the clock has passed over `es`, none of which it takes. -/
def passed (m : Machine φ) (es : List Tenancy) : Machine φ :=
  (m.rested (es.filter m.loose)).withFrames (m.frames.passing es.length)

/-- The machine once the clock has taken the entry `e` that its hand was on. -/
def taking (m : Machine φ) (e : Tenancy) : Machine φ :=
  (m.withFrames (m.frames.advance.remove m.frames.hand)).withPage e.page fun pg =>
    { pg with pinned := true }

/-- The clock can run: its hand is on an entry if there is one, and the entries are for distinct
addresses. -/
structure Wound (m : Machine φ) : Prop extends m.Distinct where
  hand : m.frames.hand < m.frames.entries.length ∨ m.frames.hand = 0

theorem Shows.wound {v : View φ} {held : Set PageId} (h : m.Shows v held) (hv : v.Sound) : m.Wound :=
  ⟨h.distinct hv.owned hv.housed, h.fit.hand⟩

theorem Wound.hand_le (h : m.Wound) : m.frames.hand ≤ m.frames.entries.length := by
  have := h.hand
  omega

/-! ### Clearing accessed bits -/

@[simp] theorem rested_nil (m : Machine φ) : m.rested [] = m := rfl

theorem rested_append (m : Machine φ) (es es' : List Tenancy) :
    m.rested (es ++ es') = (m.rested es).rested es' := List.foldl_append

theorem rested_withFrames (t : FrameTable) : ∀ (es : List Tenancy) (m : Machine φ),
    (m.withFrames t).rested es = (m.rested es).withFrames t
  | [], _ => rfl
  | e :: es, m => rested_withFrames t es (m.resting e)

@[simp] theorem pages_rested : ∀ (es : List Tenancy) (m : Machine φ), (m.rested es).pages = m.pages
  | [], _ => rfl
  | _ :: es, _ => pages_rested es _

@[simp] theorem frames_rested : ∀ (es : List Tenancy) (m : Machine φ), (m.rested es).frames = m.frames
  | [], _ => rfl
  | _ :: es, _ => frames_rested es _

@[simp] theorem page_rested (es : List Tenancy) (m : Machine φ) (i : PageId) :
    (m.rested es).page i = m.page i := by rw [page, pages_rested, page]

theorem pte?_resting (m : Machine φ) (e : Tenancy) (q : ProcId) (u : Nat) :
    (m.resting e).pte? q u = if m.Lodges e q u
      then (m.pte? q u).map fun x => (x.1.setAccessed false, x.2) else m.pte? q u := by
  rw [pte?, resting, withTable, process_withProcess]
  split
  · rename_i hq
    rw [PageTable.entries_setAccessed]
    simp only [Lodges, hq.1, true_and]
    rfl
  · rename_i hq
    split
    · rename_i hlodges
      -- a process that was never started has no entries
      have habsent : m.process q = .absent :=
        process_of_le (Nat.le_of_not_lt fun hlt => hq ⟨hlodges.1, hlt⟩)
      simp [pte?, habsent, Process.absent, Process.fresh, PageTable.empty]
    · rfl

/-- Only the accessed bits of the pages of `es` are cleared. -/
theorem pte?_rested (q : ProcId) (u : Nat) : ∀ (es : List Tenancy) (m : Machine φ),
    (m.rested es).pte? q u = if ∃ e ∈ es, m.Lodges e q u
      then (m.pte? q u).map fun x => (x.1.setAccessed false, x.2) else m.pte? q u
  | [], m => by simp
  | e :: es, m => by
    refine (pte?_rested q u es (m.resting e)).trans ?_
    have hlodges : ∀ e', (m.resting e).Lodges e' q u ↔ m.Lodges e' q u := fun _ => Iff.rfl
    simp only [pte?_resting, List.exists_mem_cons_iff, hlodges]
    by_cases he : m.Lodges e q u
    · rw [if_pos he, if_pos (Or.inl he)]
      split
      · simp [Option.map_map, Function.comp_def, PageTable.Entry.setAccessed_setAccessed]
      · rfl
    · simp only [he, if_false, false_or]

theorem Shows.rested {v : View φ} {held : Set PageId} : ∀ (es : List Tenancy) {m : Machine φ},
    m.Shows v held → (m.rested es).Shows v held
  | [], _, h => h
  | _ :: es, _, h => Shows.rested es
      (h.withTable (PageTable.mapping?_setAccessed _ _ _) (PageTable.isDirty_setAccessed _ _ _))

theorem isAccessed_eq (m : Machine φ) (q : ProcId) (u : Nat) :
    (m.process q).table.isAccessed u = (m.pte? q u).any (·.1.accessed) := by
  rw [PageTable.isAccessed, pte?]
  cases (m.process q).table.entries[u]? <;> rfl

@[simp] theorem loose_rested (es : List Tenancy) (m : Machine φ) (e : Tenancy) :
    (m.rested es).loose e = m.loose e := by rw [loose, page_rested, loose]

theorem recent_rested (es : List Tenancy) (m : Machine φ) (e : Tenancy) :
    (m.rested es).recent e =
      (m.recent e && !decide (∃ e' ∈ es, m.Lodges e' e.owner (m.page e.page).upage)) := by
  simp only [recent, isAccessed_eq, page_rested, pte?_rested]
  split
  · rename_i h
    simp only [h, decide_true, Bool.not_true, Bool.and_false]
    cases m.pte? e.owner (m.page e.page).upage <;> simp
  · rename_i h
    simp [h]

/-! ### Passing over entries -/

@[simp] theorem page_passed (m : Machine φ) (es : List Tenancy) (i : PageId) :
    (m.passed es).page i = m.page i := page_rested _ _ i

@[simp] theorem loose_passed (m : Machine φ) (es : List Tenancy) (e : Tenancy) :
    (m.passed es).loose e = m.loose e := loose_rested _ _ e

/-- An entry is recent afterwards if it was, and is not among those that were passed over. -/
theorem recent_passed (m : Machine φ) (es : List Tenancy) (e : Tenancy) :
    (m.passed es).recent e = (m.recent e &&
      !decide (∃ e' ∈ es.filter m.loose, m.Lodges e' e.owner (m.page e.page).upage)) :=
  recent_rested _ m e

theorem passed_nil (h : m.Wound) : m.passed [] = m := by
  have hhand : m.frames.hand % m.frames.entries.length = m.frames.hand := by
    rcases h.hand with h | h
    · exact Nat.mod_eq_of_lt h
    · rw [h, Nat.zero_mod]
  simp [passed, FrameTable.passing, withFrames, hhand]

theorem passed_passed (m : Machine φ) (es es' : List Tenancy) :
    (m.passed es).passed es' = m.passed (es ++ es') := by
  have hloose : (m.passed es).loose = m.loose := funext (loose_passed m es)
  rw [passed, hloose, passed, passed, rested_withFrames, ← rested_append, ← List.filter_append,
    List.length_append, ← FrameTable.passing_passing]
  rfl

theorem wound_passed (h : m.Wound) (hlen : es.length ≤ m.frames.entries.length) :
    (m.passed es).Wound where
  nodup := h.nodup
  lt e he := by
    have hpages : (m.passed es).pages = m.pages := pages_rested _ _
    rw [hpages]
    exact h.lt e he
  eq_of_address e he e' he' howner hupage := by
    rw [page_passed, page_passed] at hupage
    exact h.eq_of_address e he e' he' howner hupage
  hand := FrameTable.poised_passing h.hand hlen

/-- To pass over one entry changes nothing about another. -/
theorem Wound.ripe_passed_of_ne (h : m.Wound) (he : e ∈ m.frames.entries) (he' : e' ∈ m.frames.entries)
    (hne : e' ≠ e) : (m.passed [e]).ripe e' = m.ripe e' := by
  have hrecent : (m.passed [e]).recent e' = m.recent e' := by
    rw [recent_passed, decide_eq_false, Bool.not_false, Bool.and_true]
    rintro ⟨e'', hmem, howner, hupage⟩
    obtain rfl : e'' = e := List.mem_singleton.1 (List.mem_filter.1 hmem).1
    exact hne (h.eq_of_address e'' he e' he' howner.symm hupage.symm)
  rw [ripe, ripe, loose_passed, hrecent]

end

end Machine

namespace Kernel

open Machine

variable {φ : Type} {m m' : Machine φ} {v : View φ} {held : Set PageId} {e : Tenancy}
  {es rest : List Tenancy} {n : Nat}

theorem upage_withPage (m : Machine φ) {f : Page → Page} (hf : ∀ pg, (f pg).upage = pg.upage)
    (i j : PageId) : ((m.withPage i f).page j).upage = (m.page j).upage := by
  rw [page_withPage]
  split
  · rw [hf]
  · rfl

theorem fades_setAccessed (m : Machine φ) (p : ProcId) (u : Nat) :
    m.Fades (m.withTable p (·.setAccessed u false)) := by
  refine .withTable m p (fun w hw => ?_) (PageTable.limit_setAccessed _ _ _)
  rw [PageTable.isAccessed_setAccessed] at hw
  split at hw
  · simp at hw
  · exact hw

theorem sameButEntries_rested : ∀ (es : List Tenancy) (m : Machine φ), m.SameButEntries (m.rested es)
  | [], _ => .of_processes rfl
  | e :: es, m => (SameButEntries.withTable m e.owner (PageTable.limit_setAccessed _ _ _)).trans
      (sameButEntries_rested es (m.resting e))

theorem fades_rested : ∀ (es : List Tenancy) (m : Machine φ), m.Fades (m.rested es)
  | [], m => .refl m
  | e :: es, m => (fades_setAccessed m e.owner _).trans (fades_rested es _)

/-! ### Looks of the clock -/

theorem eq_ok_of_ends {α : Type} {x : Kernel φ α} {a : α} {m' : Machine φ}
    (h : Ends x m (fun b m₁ => b = a ∧ m₁ = m') fun _ _ => False) : x m = .ok a m' := by
  unfold Ends at h
  split at h
  · rename_i hx
    rw [hx, h.1, h.2]
  · exact h.elim

theorem ends_of_eq {α : Type} {x : Kernel φ α} {a : α} {m' : Machine φ} (h : x m = .ok a m')
    {Q : α → Machine φ → Prop} {E : Stop → Machine φ → Prop} : Ends x m Q E ↔ Q a m' := by
  rw [Ends, h]

theorem tryPin_of_pinned {i : PageId} (h : (m.page i).pinned = true) : tryPin i m = .ok false m := by
  refine eq_ok_of_ends ?_
  simp only [tryPin, ends_bind, ends_page, ends_ite, ends_pure, h, if_true]
  trivial

theorem tryPin_of_free {i : PageId} (h : (m.page i).pinned = false) :
    tryPin i m = .ok true (m.withPage i fun pg => { pg with pinned := true }) := by
  refine eq_ok_of_ends ?_
  simp only [tryPin, ends_bind, ends_page, ends_ite, ends_pure, ends_modifyPage, h, Bool.false_eq_true,
    if_false]
  trivial

theorem pin_of_free {i : PageId} (h : (m.page i).pinned = false) :
    pin i m = .ok () (m.withPage i fun pg => { pg with pinned := true }) := by
  simp only [pin, bind, EStateM.bind, tryPin_of_free h, Bool.not_true, Bool.false_eq_true, if_false]
  rfl

theorem unpin_of_pinned {i : PageId} (h : (m.page i).pinned = true) :
    unpin i m = .ok () (m.withPage i fun pg => { pg with pinned := false }) := by
  refine eq_ok_of_ends ?_
  simp only [unpin, ends_bind, ends_page, ends_modifyPage, h, Bool.not_true, ends_ite]
  exact ⟨trivial, rfl⟩

/-- The clock passes over an entry that is not ripe, and clears its accessed bit unless it is pinned. -/
theorem look_of_unripe (hcur : m.frames.current? = some e) (hlt : e.page < m.pages.next)
    (he : m.ripe e = false) : look m = .ok none (m.passed [e]) := by
  refine eq_ok_of_ends ?_
  simp only [look, ends_bind, ends_get, hcur, ends_modify]
  change Ends (tryPin e.page) (m.withFrames m.frames.advance) _ _
  cases hpin : (m.page e.page).pinned with
  | true =>
    rw [ends_of_eq (tryPin_of_pinned (show ((m.withFrames m.frames.advance).page e.page).pinned = true from
      hpin))]
    have hloose : [e].filter m.loose = [] := by simp [loose, hpin]
    rw [passed, hloose]
    exact ⟨rfl, rfl⟩
  | false =>
    rw [ends_of_eq (tryPin_of_free (show ((m.withFrames m.frames.advance).page e.page).pinned = false from
      hpin))]
    have hloose : m.loose e = true := by simp [loose, hpin]
    have hrecent : m.recent e = true := by simpa [ripe, hloose] using he
    set m₁ := (m.withFrames m.frames.advance).withPage e.page fun pg => { pg with pinned := true } with hm₁
    have hpage : m₁.page e.page = { m.page e.page with pinned := true } := by
      rw [hm₁, page_withPage, if_pos ⟨rfl, hlt⟩]
      rfl
    have hbusy : (m₁.process e.owner).table.isAccessed (m₁.page e.page).upage = true := by
      rw [hpage]
      exact hrecent
    simp only [Bool.not_true, Bool.false_eq_true, if_false, ends_bind, ends_page, ends_process, hbusy, if_true,
      ends_modifyTable]
    rw [ends_of_eq (unpin_of_pinned (show ((m₁.withTable e.owner _).page e.page).pinned = true from
      congrArg Page.pinned hpage)), hpage, passed, show [e].filter m.loose = [e] by simp [hloose]]
    refine ⟨rfl, ?_⟩
    -- the pin is gone again
    have hpages : ((m.pages.modify e.page fun pg => { pg with pinned := true }).modify e.page fun pg =>
        { pg with pinned := false }) = m.pages :=
      congrArg Machine.pages (withPage_withPage m (f := fun pg => { pg with pinned := true })
        (g := fun pg => { pg with pinned := false }) (by rw [← hpin]))
    simp only [hm₁, withPage, withTable, withProcess, withFrames, rested, List.foldl_cons, List.foldl_nil,
      resting, hpages]
    rfl

/-- It takes an entry that is. -/
theorem look_of_ripe (hcur : m.frames.current? = some e) (hlt : e.page < m.pages.next)
    (he : m.ripe e = true) : look m = .ok (some e) (m.taking e) := by
  refine eq_ok_of_ends ?_
  obtain ⟨hloose, hidle⟩ : m.loose e = true ∧ m.recent e = false := by simpa [ripe] using he
  have hfree : (m.page e.page).pinned = false := by simpa [loose] using hloose
  simp only [look, ends_bind, ends_get, hcur, ends_modify]
  change Ends (tryPin e.page) (m.withFrames m.frames.advance) _ _
  rw [ends_of_eq (tryPin_of_free (show ((m.withFrames m.frames.advance).page e.page).pinned = false from
    hfree))]
  set m₁ := (m.withFrames m.frames.advance).withPage e.page fun pg => { pg with pinned := true } with hm₁
  have hpage : m₁.page e.page = { m.page e.page with pinned := true } := by
    rw [hm₁, page_withPage, if_pos ⟨rfl, hlt⟩]
    rfl
  have hcalm : (m₁.process e.owner).table.isAccessed (m₁.page e.page).upage = false := by
    rw [hpage]
    exact hidle
  simp only [Bool.not_true, Bool.false_eq_true, if_false, ends_bind, ends_page, ends_process, hcalm,
    ends_modify, ends_pure]
  exact ⟨trivial, rfl⟩

/-! ### Sweeps of the clock -/

theorem sweep_of_look_none {m' : Machine φ} (h : look m = .ok none m') (n : Nat) :
    sweep (n + 1) m = sweep n m' := by
  simp only [sweep, bind, EStateM.bind, h]

theorem sweep_of_look_some {m' : Machine φ} (h : look m = .ok (some e) m') (n : Nat) :
    sweep (n + 1) m = .ok (some e) m' := by
  simp only [sweep, bind, EStateM.bind, h]
  rfl

/-- The clock passes over entries none of which is ripe. -/
theorem sweep_of_unripe (n : Nat) : ∀ (es : List Tenancy) {m : Machine φ}, m.Wound →
    es <+: m.frames.circular → (∀ e ∈ es, m.ripe e = false) →
    sweep (es.length + n) m = sweep n (m.passed es)
  | [], m, hm, _, _ => by rw [passed_nil hm, List.length_nil, Nat.zero_add]
  | e :: es, m, hm, hpre, hunripe => by
    obtain ⟨rest, hrest⟩ := hpre
    have hcur : m.frames.current? = some e := by
      rw [FrameTable.current?_eq_head? hm.hand, ← hrest]
      rfl
    have hmem : e ∈ m.frames.entries := List.mem_of_getElem? hcur
    have hentries : ∀ e' ∈ es, e' ∈ m.frames.entries ∧ e' ≠ e := fun e' he' => by
      have hnodup := FrameTable.nodup_circular hm.nodup
      rw [← hrest, List.cons_append, List.nodup_cons] at hnodup
      refine ⟨FrameTable.mem_circular.1 ?_, ?_⟩
      · rw [← hrest]
        exact List.mem_append_left _ (List.mem_cons_of_mem _ he')
      · rintro rfl
        exact hnodup.1 (List.mem_append_left _ he')
    have hwound : (m.passed [e]).Wound := wound_passed hm (List.length_pos_of_mem hmem)
    rw [List.length_cons, Nat.add_right_comm,
      sweep_of_look_none (look_of_unripe hcur (hm.lt e hmem) (hunripe e List.mem_cons_self)),
      sweep_of_unripe n es hwound ?_ fun e' he' => ?_, passed_passed]
    · rfl
    · -- the hand has moved on from `e`, which is the last one it will meet now
      refine ⟨rest ++ [e], ?_⟩
      have hcircular := FrameTable.circular_passing hm.hand_le 1
      rw [← hrest, List.cons_append, List.rotate_cons_succ, List.rotate_zero, List.append_assoc] at hcircular
      exact hcircular.symm
    · rw [hm.ripe_passed_of_ne hmem (hentries e' he').1 (hentries e' he').2]
      exact hunripe e' (List.mem_cons_of_mem e he')

/-- Entries that have been passed over, up to a ripe one, which is taken. -/
theorem sweep_of_ripe (hm : m.Wound) (hcircular : m.frames.circular = es ++ e :: rest)
    (hunripe : ∀ e' ∈ es, m.ripe e' = false) (he : m.ripe e = true) :
    sweep (es.length + (n + 1)) m = .ok (some e) ((m.passed es).taking e) := by
  have hlen : es.length ≤ m.frames.entries.length := by
    rw [← FrameTable.length_circular, hcircular, List.length_append]
    exact Nat.le_add_right _ _
  have hwound := wound_passed hm hlen
  have hcur : (m.passed es).frames.current? = some e := FrameTable.current?_passing hm.hand hcircular
  have hripe : (m.passed es).ripe e = true := by
    obtain ⟨hloose, hidle⟩ : m.loose e = true ∧ m.recent e = false := by simpa [ripe] using he
    simp [ripe, recent_passed, hloose, hidle]
  rw [sweep_of_unripe (n + 1) es hm ⟨e :: rest, hcircular.symm⟩ hunripe,
    sweep_of_look_some (look_of_ripe hcur (hwound.lt e (List.mem_of_getElem? hcur)) hripe)]

/-- Once around, no entry being ripe, all that are not pinned have lost their accessed bits. -/
theorem passed_circular (hm : m.Wound) :
    m.passed m.frames.circular = m.rested (m.frames.circular.filter m.loose) := by
  rw [passed, FrameTable.length_circular, FrameTable.passing_length hm.hand, ← rested_withFrames]
  rfl

/-- If an entry is ripe, the first sweep takes the first that is, and all that are passed on the way get their
second chance. -/
theorem sweep_first {e : Tenancy} (hm : m.Wound) (hfind : m.frames.circular.find? m.ripe = some e) :
    m.choice = some e ∧ m.loose e = true ∧ ∃ t : FrameTable, t.entries = m.frames.entries ∧
      t.current? = some e ∧ sweep (2 * m.frames.entries.length) m =
        .ok (some e) (((m.rested m.spared).withFrames t).taking e) := by
  obtain ⟨he, es, rest, hcircular, hes⟩ := List.find?_eq_some_iff_append.1 hfind
  have hunripe : ∀ e' ∈ es, m.ripe e' = false := fun e' he' => by simpa using hes e' he'
  have hspared : m.spared = es.filter m.loose := by
    rw [spared, hcircular, List.takeWhile_append_of_pos (by simpa using hunripe),
      List.takeWhile_cons_of_neg (by simp [he]), List.append_nil]
  obtain ⟨n, hn⟩ : ∃ n, 2 * m.frames.entries.length = es.length + (n + 1) := by
    have hlen := m.frames.length_circular
    rw [hcircular, List.length_append, List.length_cons] at hlen
    exact ⟨2 * m.frames.entries.length - es.length - 1, by omega⟩
  refine ⟨by rw [choice, hfind, Option.some_or], (Bool.and_eq_true_iff.1 he).1, m.frames.passing es.length,
    rfl, FrameTable.current?_passing hm.hand hcircular, ?_⟩
  rw [hn, sweep_of_ripe hm hcircular hunripe he, hspared]
  rfl

/-- If no entry is ripe, the first sweep takes none. -/
theorem sweep_around (hm : m.Wound) (hunripe : ∀ e ∈ m.frames.circular, m.ripe e = false) (n : Nat) :
    m.spared = m.frames.circular.filter m.loose ∧ (m.rested m.spared).Wound ∧
      sweep (m.frames.entries.length + n) m = sweep n (m.rested m.spared) := by
  have hlen := m.frames.length_circular
  have hspared : m.spared = m.frames.circular.filter m.loose := by
    rw [spared, List.takeWhile_eq_self_iff.2 (by simpa using hunripe)]
  refine ⟨hspared, ?_, ?_⟩
  · rw [hspared, ← passed_circular hm]
    exact wound_passed hm (Nat.le_of_eq hlen)
  · rw [hspared, ← passed_circular hm, ← sweep_of_unripe _ _ hm List.prefix_rfl hunripe, hlen]

/-- Then the second one takes the first entry that is not pinned. -/
theorem sweep_second {e : Tenancy} (hm : m.Wound) (hunripe : ∀ e ∈ m.frames.circular, m.ripe e = false)
    (hfind : m.frames.circular.find? m.loose = some e) :
    m.loose e = true ∧ ∃ t : FrameTable, t.entries = m.frames.entries ∧
      t.current? = some e ∧ sweep (2 * m.frames.entries.length) m =
        .ok (some e) (((m.rested m.spared).withFrames t).taking e) := by
  obtain ⟨hspared, hwound, hfirst⟩ := sweep_around hm hunripe m.frames.entries.length
  set m₁ := m.rested m.spared with hm₁
  have hframes : m₁.frames = m.frames := frames_rested _ _
  obtain ⟨hloose, es, rest, hcircular, hes⟩ := List.find?_eq_some_iff_append.1 hfind
  have hpinned : ∀ e' ∈ es, m₁.loose e' = false := fun e' he' => by
    rw [hm₁, loose_rested]
    simpa using hes e' he'
  have hspared' : e ∈ m.spared := by
    rw [hspared, hcircular]
    exact List.mem_filter.2 ⟨List.mem_append_right _ List.mem_cons_self, hloose⟩
  have hripe₁ : m₁.ripe e = true := by
    have hlodges : ∃ e' ∈ m.spared, m.Lodges e' e.owner (m.page e.page).upage := ⟨e, hspared', rfl, rfl⟩
    rw [ripe, hm₁, loose_rested, recent_rested, hloose, decide_eq_true hlodges]
    simp
  have hcircular₁ : m₁.frames.circular = es ++ e :: rest := hframes ▸ hcircular
  obtain ⟨n, hn⟩ : ∃ n, m.frames.entries.length = es.length + (n + 1) := by
    have hlen := m.frames.length_circular
    rw [hcircular, List.length_append, List.length_cons] at hlen
    exact ⟨rest.length, by omega⟩
  have hnone : es.filter m₁.loose = [] := List.filter_eq_nil_iff.2 (by simpa using hpinned)
  refine ⟨hloose, m.frames.passing es.length, rfl, FrameTable.current?_passing hm.hand hcircular, ?_⟩
  rw [Nat.two_mul, hfirst, hn, sweep_of_ripe hwound hcircular₁ (fun e' he' => by simp [ripe, hpinned e' he'])
    hripe₁, passed, hnone, hframes]
  rfl

/-- If all entries are pinned, two sweeps leave no trace. -/
theorem sweep_of_pinned (hm : m.Wound) (hpinned : ∀ e ∈ m.frames.circular, m.loose e = false) :
    sweep (2 * m.frames.entries.length) m = .ok none m := by
  have hunripe : ∀ e ∈ m.frames.circular, m.ripe e = false := fun e he => by simp [ripe, hpinned e he]
  have hnone : m.frames.circular.filter m.loose = [] := List.filter_eq_nil_iff.2 (by simpa using hpinned)
  obtain ⟨hspared, -, hfirst⟩ := sweep_around hm hunripe m.frames.entries.length
  rw [Nat.two_mul, hfirst, hspared, hnone, rested_nil, ← Nat.add_zero m.frames.entries.length,
    ← m.frames.length_circular, sweep_of_unripe 0 _ hm List.prefix_rfl hunripe, passed_circular hm, hnone]
  rfl

/-- Two sweeps take the entry that is the clock's choice, and give the others their second chance. If all
entries are pinned, the sweeps leave no trace. -/
theorem sweep_twice (hm : m.Wound) :
    (m.choice = none → sweep (2 * m.frames.entries.length) m = .ok none m) ∧
    ∀ e, m.choice = some e → m.loose e = true ∧ ∃ t : FrameTable, t.entries = m.frames.entries ∧
      t.current? = some e ∧ sweep (2 * m.frames.entries.length) m =
        .ok (some e) (((m.rested m.spared).withFrames t).taking e) := by
  cases hripe : m.frames.circular.find? m.ripe with
  | some e =>
    obtain ⟨hchoice, hsweep⟩ := sweep_first hm hripe
    refine ⟨by simp [hchoice], fun e' he' => ?_⟩
    obtain rfl : e = e' := Option.some.inj (hchoice.symm.trans he')
    exact hsweep
  | none =>
    have hunripe : ∀ e ∈ m.frames.circular, m.ripe e = false := fun e he => by
      simpa using List.find?_eq_none.1 hripe e he
    have hchoice : m.choice = m.frames.circular.find? m.loose := by rw [choice, hripe, Option.none_or]
    rw [hchoice]
    refine ⟨fun hnone => ?_, fun e he => sweep_second hm hunripe he⟩
    exact sweep_of_pinned hm (by simpa using List.find?_eq_none.1 hnone)

/-! ### What is seen of it -/

/-- An entry that the clock takes with its second sweep was recent, like all others that are loose. -/
theorem picks_of_choice (hloose : ∀ e ∈ m.frames.entries, m.loose e = true)
    (hchoice : m.choice = some e) (hfades : m.Fades m')
    (hrested : ∀ e, (m.rested m.spared).Idle e → m'.Idle e) : m.Picks m' e := by
  refine ⟨hfades, ?_⟩
  cases hripe : m.frames.circular.find? m.ripe with
  | some e' =>
    rw [choice, hripe, Option.some_or, Option.some.injEq] at hchoice
    rw [← hchoice]
    have he : m.ripe e' = true := List.find?_some hripe
    exact .inl (show m.recent e' = false by simpa using (Bool.and_eq_true_iff.1 he).2)
  | none =>
    refine .inr fun e' he' => ?_
    have hunripe : ∀ e ∈ m.frames.circular, m.ripe e = false := fun e he => by
      simpa using List.find?_eq_none.1 hripe e he
    have hbusy : m.recent e' = true := by
      have := hunripe e' (FrameTable.mem_circular.2 he')
      simpa [ripe, hloose e' he'] using this
    have hspared : e' ∈ m.spared := by
      rw [spared, List.takeWhile_eq_self_iff.2 (by simpa using hunripe)]
      exact List.mem_filter.2 ⟨FrameTable.mem_circular.2 he', hloose e' he'⟩
    refine ⟨fun hidle => by simp [show m.recent e' = false from hidle] at hbusy, hrested e' ?_⟩
    show (m.rested m.spared).recent e' = false
    have hlodges : ∃ e ∈ m.spared, m.Lodges e e'.owner (m.page e'.page).upage := ⟨e', hspared, rfl, rfl⟩
    rw [recent_rested, decide_eq_true hlodges]
    simp

/-- What two sweeps come to, seen from outside. -/
theorem ends_sweep (h : m.Shows v held) (hv : v.Sound) {E : Stop → Machine φ → Prop} :
    Ends (sweep (2 * m.frames.entries.length)) m (fun taken m' => match taken with
      | some e => e ∈ v.tenants ∧ e.page ∉ held ∧
          m'.Shows (v.setTenants (v.tenants.erase e)) (insert e.page held) ∧
          ((∀ e ∈ m.frames.entries, m.loose e = true) → m.Picks m' e)
      | none => m' = m ∧ ∀ e ∈ v.tenants, e.page ∈ held) E := by
  have hm := h.wound hv
  obtain ⟨hnone, hsome⟩ := sweep_twice hm
  cases hchoice : m.choice with
  | none =>
    rw [ends_of_eq (hnone hchoice)]
    refine ⟨rfl, fun e he => ?_⟩
    rw [h.tenants] at he
    have hpinned := List.find?_eq_none.1 (Option.or_eq_none_iff.1 hchoice).2 e
      (FrameTable.mem_circular.2 (Multiset.mem_coe.1 he))
    exact (h.fit.pinned e.page).1 (by simpa [loose] using hpinned)
  | some e =>
    obtain ⟨hloose, t, hentries, hcur, hrun⟩ := hsome e hchoice
    rw [ends_of_eq hrun]
    have hmem : e ∈ m.frames.entries := hentries ▸ List.mem_of_getElem? hcur
    have hout : e.page ∉ held := fun hin => by simp [loose, (h.fit.pinned e.page).2 hin] at hloose
    have hshows := ((h.rested m.spared).setTenants (t := t.advance.remove t.hand)
      (FrameTable.poised_remove _ _)).pin (h.next ▸ hm.lt e hmem)
    refine ⟨h.tenants ▸ Multiset.mem_coe.2 hmem, hout, ?_, fun hall => ?_⟩
    · rw [show v.tenants.erase e = ((t.advance.remove t.hand).entries : Multiset Tenancy) by
        rw [h.tenants, ← hentries]
        exact (FrameTable.coe_eraseIdx hcur).symm]
      exact hshows
    · refine picks_of_choice hall hchoice ?_ fun e' hidle => ?_
      · exact ((fades_rested m.spared m).trans (Fades.withFrames _ (t.advance.remove t.hand))).trans
          (Fades.withPage _ (f := fun pg => { pg with pinned := true }) (fun _ => rfl) e.page)
      · show (((m.rested m.spared).process e'.owner).table.isAccessed _) = false
        rw [show (((m.rested m.spared).withFrames t).taking e).page e'.page =
          (((m.rested m.spared).withFrames (t.advance.remove t.hand)).withPage e.page fun pg =>
            { pg with pinned := true }).page e'.page from rfl,
          upage_withPage _ (f := fun pg => { pg with pinned := true }) (fun _ => rfl)]
        exact hidle

end Kernel

end DemandPaging
