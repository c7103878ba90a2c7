import DemandPaging.Proofs.SecondChance
import Mathlib.Data.List.Find

/-!
# Frames on loan

A page that comes in is lent a frame before it is known whether it can stay. `Borrows` says how far the
machine has changed by the time the frame is listed for the page, and `Restores` what is left of it once
the frame has been taken back: the cursor of the pool has moved on, the frame holds other bytes, and the
files may have been called.

The loan is made on the machine that is asked for it or, if its pool turns the request down, on what the
eviction of the clock's choice makes of that machine: `Readies`. A page that is pinned meanwhile, not being in memory, makes no
difference to the eviction.
-/

namespace DemandPaging

namespace FrameTable

variable {t : FrameTable} {e : Tenancy}

theorem position?_add (h : ∀ e' ∈ t.entries, e'.frame ≠ e.frame) :
    (t.add e).position? e.frame = some t.entries.length := by
  have hnone : t.entries.findIdx? (fun e' => e'.frame == e.frame) = none := by
    rw [List.findIdx?_eq_none_iff]
    intro e' he'
    simpa using h e' he'
  simp [position?, add, List.findIdx?_append, hnone]

/-- The entry that was added last can be removed without moving the hand. -/
theorem remove_add (h : t.hand < t.entries.length ∨ t.hand = 0) (e : Tenancy) :
    (t.add e).remove t.entries.length = t := by
  have hentries : (t.entries ++ [e]).eraseIdx t.entries.length = t.entries := by
    rw [List.eraseIdx_append_of_length_le (Nat.le_refl _)]
    simp
  have hhand : (if t.entries.length < t.hand then t.hand - 1 else t.hand) = t.hand := if_neg (by omega)
  rw [remove, show (t.add e).entries = t.entries ++ [e] from rfl, show (t.add e).hand = t.hand from rfl,
    hentries, hhand]
  rcases h with hlt | hzero
  · rw [if_neg (Nat.not_le_of_lt hlt)]
  · rw [hzero, ite_self, ← hzero]

end FrameTable

namespace Machine

variable {φ : Type} {m m' n : Machine φ} {v : View φ} {held : Set PageId} {e : Tenancy} {f : Frame}
  {p : ProcId} {i : PageId} {u : Nat} {zeroed : Bool}

/-- A free frame of machine `n` has been lent and listed in entry `e`. Nothing else has changed, except
what the frame holds, the files and the log. -/
structure Borrows (n : Machine φ) (e : Tenancy) (m : Machine φ) : Prop where
  frames : m.frames = n.frames.add e
  swap : m.swap = n.swap
  devices : m.devices = n.devices
  pages : m.pages = n.pages
  processes : m.processes = n.processes
  refuses : m.allocator.refuses = n.allocator.refuses
  frame : e.frame = n.pool.frameAt e.frame.cell
  cell_lt : e.frame.cell < n.pool.total
  free : n.pool.lent e.frame.cell = false
  firstPfn : m.pool.firstPfn = n.pool.firstPfn
  total : m.pool.total = n.pool.total
  inUse : m.pool.inUse = n.pool.inUse + 1
  lent : ∀ c, m.pool.lent c = (n.pool.lent c || c == e.frame.cell)
  read : ∀ g : Frame, g.cell ≠ e.frame.cell → m.pool.read g = n.pool.read g

/-- Machine `m'` is `n` again, where frame `f` was free and is free: all that may have changed is the
cursor of the pool, what that frame holds, the count of requests, the files and the log. -/
structure Restores (n : Machine φ) (f : Frame) (m' : Machine φ) : Prop where
  frames : m'.frames = n.frames
  swap : m'.swap = n.swap
  devices : m'.devices = n.devices
  pages : m'.pages = n.pages
  processes : m'.processes = n.processes
  refuses : m'.allocator.refuses = n.allocator.refuses
  frame : f = n.pool.frameAt f.cell
  cell_lt : f.cell < n.pool.total
  firstPfn : m'.pool.firstPfn = n.pool.firstPfn
  total : m'.pool.total = n.pool.total
  inUse : m'.pool.inUse = n.pool.inUse
  lent : ∀ c, m'.pool.lent c = n.pool.lent c
  free : m'.pool.lent f.cell = false
  read : ∀ g : Frame, g.cell ≠ f.cell → m'.pool.read g = n.pool.read g

/-- Machine `n` is `m` itself if the pool of `m` grants a request. If it turns the request down, `n` is what
the eviction of the clock's choice makes of `m`. -/
inductive Readies [FileSystem φ] (m : Machine φ) : Machine φ → Prop
  | ready {zeroed : Bool} {f : Frame} (grant : (m.allocator.alloc (.forUser zeroed)).1 = .ok f) : Readies m m
  | evicted {zeroed : Bool} {x : Frame.Shortage} {e : Tenancy} {n : Machine φ}
      (refusal : (m.allocator.alloc (.forUser zeroed)).1 = .error x) (choice : m.choice = some e)
      (effect : Effect (.evict e.page) m.scene n.scene) (ousts : m.Ousts e n.frames n)
      (pins : ∀ j, (n.page j).pinned = (m.page j).pinned) : Readies m n

/-! ### Borrowing and returning -/

theorem Borrows.report (h : n.Borrows e m) (ev : Event) : n.Borrows e (m.report ev) := { h with }

theorem Borrows.withFiles (h : n.Borrows e m) (files : φ) : n.Borrows e (m.withFiles files) := { h with }

/-- What is written to the frame is nobody else's business. -/
theorem Borrows.write (h : n.Borrows e m) (b : PageBytes) :
    n.Borrows e (m.withPool (m.pool.write e.frame b)) where
  __ := h
  total := (Pool.total_write ..).trans h.total
  lent c := (Pool.lent_write ..).trans (h.lent c)
  read g hg := by
    refine (Pool.read_write _ (h.total ▸ h.cell_lt) b g).trans ?_
    rw [if_neg (Ne.symm hg), h.read g hg]

theorem Borrows.lent_frame (h : n.Borrows e m) : m.pool.lent e.frame.cell = true := by
  rw [h.lent, beq_self_eq_true, Bool.or_true]

/-- The frame that is lent is on no other entry. -/
theorem Shows.frame_ne (h : n.Shows v held) (hv : v.Housed) (hfree : n.pool.lent f.cell = false) :
    ∀ e ∈ n.frames.entries, e.frame ≠ f := by
  rintro e he rfl
  have hcell := (hv.lent e.frame.cell).2 ⟨e, h.tenants ▸ Multiset.mem_coe.2 he, rfl⟩
  obtain ⟨b, hb⟩ := Option.isSome_iff_exists.1 hcell
  simp [h.lent_of_cell hb] at hfree

theorem borrows_of_lends {a : Allocator} (h : n.pool.Lends (.forUser zeroed) f a.pool)
    (hrefuses : a.refuses = n.allocator.refuses) (ev ev' : Event) :
    n.Borrows ⟨f, p, i⟩
      ((((n.withAllocator a).report ev).report ev').withFrames (n.frames.add ⟨f, p, i⟩)) where
  frames := rfl
  swap := rfl
  devices := rfl
  pages := rfl
  processes := rfl
  refuses := hrefuses
  frame := h.frame
  cell_lt := h.cell_lt
  free := h.free
  firstPfn := h.firstPfn
  total := h.total
  inUse := h.inUse
  lent := h.lent
  read g hg := (h.read g).trans (if_neg hg)

/-! ### A page that is pinned meanwhile -/

/-- The machine with the pin of page `i` set or released. -/
def pinning (m : Machine φ) (i : PageId) (b : Bool) : Machine φ :=
  m.withPage i fun pg => { pg with pinned := b }

theorem takeWhile_congr {α : Type} {q r : α → Bool} : ∀ {l : List α}, (∀ x ∈ l, q x = r x) →
    l.takeWhile q = l.takeWhile r
  | [], _ => rfl
  | x :: l, h => by
    rw [List.takeWhile_cons, List.takeWhile_cons, h x List.mem_cons_self,
      takeWhile_congr fun y hy => h y (List.mem_cons_of_mem _ hy)]

@[simp] theorem scene_pinning (m : Machine φ) (i : PageId) (b : Bool) : (m.pinning i b).scene = m.scene :=
  view_withPage_of_face (f := fun pg => { pg with pinned := b }) (fun _ => rfl) i

theorem lodges_pinning (m : Machine φ) (i : PageId) (b : Bool) (e : Tenancy) (q : ProcId) (w : Nat) :
    (m.pinning i b).Lodges e q w ↔ m.Lodges e q w := by
  rw [Lodges, pinning, Kernel.upage_withPage m (f := fun pg => { pg with pinned := b }) fun _ => rfl]
  rfl

/-! A page that is not in memory has no part in what the clock does. -/

section

variable (haway : ∀ e ∈ m.frames.entries, e.page ≠ i) (b : Bool)

include haway

theorem loose_pinning (he : e ∈ m.frames.circular) : (m.pinning i b).loose e = m.loose e := by
  rw [loose, loose, pinning, page_withPage, if_neg fun h => haway e (FrameTable.mem_circular.1 he) h.1.symm]

theorem ripe_pinning (he : e ∈ m.frames.circular) : (m.pinning i b).ripe e = m.ripe e := by
  rw [ripe, ripe, loose_pinning haway b he, recent, recent, pinning,
    Kernel.upage_withPage m (f := fun pg => { pg with pinned := b }) fun _ => rfl]
  rfl

theorem choice_pinning : (m.pinning i b).choice = m.choice := by
  rw [choice, choice, show (m.pinning i b).frames = m.frames from rfl,
    List.find?_congr fun _ => ripe_pinning haway b, List.find?_congr fun _ => loose_pinning haway b]

theorem spared_pinning : (m.pinning i b).spared = m.spared := by
  rw [spared, spared, show (m.pinning i b).frames = m.frames from rfl,
    takeWhile_congr fun _ he => by rw [ripe_pinning haway b he]]
  exact List.filter_congr fun _ he => loose_pinning haway b ((List.takeWhile_prefix _).subset he)

end

theorem Ousts.of_pinning {t : FrameTable} (h : (m.pinning i true).Ousts e t n)
    (haway : ∀ e ∈ m.frames.entries, e.page ≠ i) : m.Ousts e t (n.pinning i false) where
  frames := h.frames
  victim q w he := h.victim q w ((lodges_pinning m i true e q w).2 he)
  spared q w he hs := by
    refine h.spared q w (fun h' => he ((lodges_pinning m i true e q w).1 h')) ?_
    rw [spared_pinning haway]
    exact hs.imp fun e' h' => ⟨h'.1, (lodges_pinning m i true e' q w).2 h'.2⟩
  other q w he hs := by
    refine h.other q w (fun h' => he ((lodges_pinning m i true e q w).1 h')) ?_
    rw [spared_pinning haway]
    exact fun e' he' h' => hs e' he' ((lodges_pinning m i true e' q w).1 h')
  processes := h.processes

/-- The pin of the page that the frame is for comes and goes. -/
theorem Readies.of_pinning [FileSystem φ] (h : (m.pinning i true).Readies n)
    (hfree : (m.page i).pinned = false) (haway : ∀ e ∈ m.frames.entries, e.page ≠ i) :
    m.Readies (n.pinning i false) := by
  cases h with
  | ready grant =>
    have hsame : (m.pinning i true).pinning i false = m :=
      withPage_withPage m (Page.eq_of_face rfl hfree.symm)
    rw [hsame]
    exact .ready grant
  | evicted refusal choice effect ousts pins =>
    refine .evicted refusal ((choice_pinning haway true).symm.trans choice) ?_ (ousts.of_pinning haway)
      fun j => ?_
    · rwa [scene_pinning] at effect ⊢
    · have hnext : n.pages.next = m.pages.next :=
        (View.spares_of_evict effect).next.trans (congrArg View.next (scene_pinning m i true))
      have hj := pins j
      rw [pinning, page_withPage] at hj ⊢
      rw [hnext]
      split at hj
      · rename_i h
        rw [if_pos h, ← h.1, hfree]
      · rename_i h
        rw [if_neg h, hj]

/-- An eviction leaves the pages alone that are not in memory. -/
theorem Readies.spares [FileSystem φ] (h : m.Readies n) : m.scene.Spares n.scene := by
  cases h with
  | ready => exact .refl _
  | evicted _ _ effect => exact View.spares_of_evict effect

/-- A page that is not in memory stays as it is when room is made. -/
theorem Readies.page [FileSystem φ] (h : m.Readies n) (haway : (m.page i).frame = none) :
    n.page i = m.page i := by
  refine Page.eq_of_face (h.spares.page i (show (m.page i).face.frame = none from haway)) ?_
  cases h with
  | ready => rfl
  | evicted _ _ _ _ pins => exact pins i

theorem Restores.pinning (h : n.Restores f m') (i : PageId) (b : Bool) :
    (n.pinning i b).Restores f (m'.pinning i b) where
  __ := h
  pages := congrArg (·.modify i fun pg => { pg with pinned := b }) h.pages

end Machine

/-- The page that is evicted is that of the entry that has gone. -/
theorem Effect.page_eq_of_drops {φ : Type} [FileSystem φ] {m m' : Machine φ} {v v' : View φ}
    {held : Set PageId} {j : PageId} {e : Tenancy} (he : Effect (.evict j) v v') (h : m.Shows v held)
    (hv : v.Sound) (h' : m'.Shows v' held) (hdrops : m.frames.Drops e m'.frames) : j = e.page := by
  have hgone : v.tenants = e ::ₘ v'.tenants := by
    obtain ⟨before, after, hentries, hrest, -⟩ := hdrops
    rw [h.tenants, h'.tenants, hentries, hrest, Multiset.cons_coe]
    exact Multiset.coe_eq_coe.2 List.perm_middle
  obtain ⟨p, u, f, hown, hframe, herase⟩ : ∃ p u f, v.own p u = some j ∧ (v.page j).frame = some f ∧
      v'.tenants = v.tenants.erase ⟨f, p, j⟩ := by
    cases he with
    | swapOut own frame => exact ⟨_, _, _, own, frame, rfl⟩
    | writeOut own frame => exact ⟨_, _, _, own, frame, rfl⟩
    | drop own frame => exact ⟨_, _, _, own, frame, rfl⟩
  have hmem := hv.housed.mem_tenants hown hframe
  have hsame : e ::ₘ v'.tenants = ⟨f, p, j⟩ ::ₘ v'.tenants := by
    rw [← hgone, herase, Multiset.cons_erase hmem]
  rw [(Multiset.cons_inj_left _).1 hsame]

namespace Kernel

open Machine

variable {φ : Type} {m m' n : Machine φ} {v : View φ} {held : Set PageId} {e : Tenancy} {f : Frame}
  {p : ProcId} {i : PageId} {u : Nat} {zeroed : Bool}

/-- The frame goes back, and so do the frame table and its hand. -/
theorem ends_freeFrame_of_borrows (h : n.Borrows e m) (hn : n.Shows v held) (hv : v.Housed)
    {E : Stop → Machine φ → Prop} :
    Ends (freeFrame e.frame) m (fun _ m' => n.Restores e.frame m' ∧ m'.files = m.files) E := by
  have hframe : e.frame = m.pool.frameAt e.frame.cell := by
    rw [Pool.frameAt, h.firstPfn]
    exact h.frame
  obtain ⟨pool, hdealloc, hback⟩ := Pool.exists_dealloc hframe h.lent_frame
  have hpos : m.frames.position? e.frame = some n.frames.entries.length := by
    rw [h.frames, FrameTable.position?_add (hn.frame_ne hv h.free)]
  have hremove : m.frames.remove n.frames.entries.length = n.frames := by
    rw [h.frames, FrameTable.remove_add hn.fit.hand]
  have hpool : ({ m with frames := m.frames.remove n.frames.entries.length } : Machine φ).pool = m.pool := rfl
  simp only [freeFrame, returnFrame, ends_bind, ends_get, hpos, ends_modify, hpool, hdealloc, ends_emit]
  refine ⟨⟨hremove, h.swap, h.devices, h.pages, h.processes, h.refuses, h.frame, h.cell_lt,
    hback.firstPfn.trans h.firstPfn, hback.total.trans h.total, ?_, fun c => ?_, ?_, fun g hg => ?_⟩, rfl⟩
  · exact hback.inUse.trans (by rw [h.inUse, Nat.add_sub_cancel])
  · refine (hback.lent c).trans ?_
    rw [h.lent]
    rcases eq_or_ne c e.frame.cell with hc | hc
    · rw [hc, h.free]
      simp
    · rw [bne, beq_false_of_ne hc, Bool.or_false, Bool.not_false, Bool.and_true]
  · exact (hback.lent _).trans (by simp)
  · exact (hback.read g).trans (h.read g hg)

/-- A request is granted, and then the machine is the same but for the allocator, or it is turned down. -/
theorem ends_takeFrame_exact (m : Machine φ) (zeroed : Bool) {E : Stop → Machine φ → Prop} :
    Ends (takeFrame (.forUser zeroed)) m (fun result m' =>
      (m.allocator.alloc (.forUser zeroed)).1 = result ∧ match result with
        | .ok f => ∃ a ev, m' = (m.withAllocator a).report ev ∧
            m.pool.Lends (.forUser zeroed) f a.pool ∧ a.refuses = m.allocator.refuses
        | .error _ => ∃ a, m' = m.withAllocator a ∧ a.pool = m.pool ∧ a.refuses = m.allocator.refuses) E := by
  simp only [takeFrame, ends_bind, ends_modifyGet]
  rcases alloc_cases m.allocator (Frame.user_forUser zeroed) with
    ⟨f, a, ha, hlends, hrefuses⟩ | ⟨x, a, ha, hpool, hrefuses, -⟩
  · simp only [ha, ends_bind, ends_get, ends_emit, ends_pure]
    exact ⟨trivial, a, _, rfl, hlends, hrefuses⟩
  · simp only [ha, ends_pure]
    exact ⟨trivial, a, rfl, hpool, hrefuses⟩

variable [FileSystem φ]

/-- The page that an eviction takes out of memory is that of the clock's choice. -/
theorem ends_evict_effect (h : m.Shows v held) (hv : v.Sound) (hdeclared : v.declared = v.own)
    (hchoice : m.choice = some e) :
    Ends evict m (fun done m' => done = true ∧ m.Ousts e m'.frames m' ∧
      ∃ v', Effect (.evict e.page) v v' ∧ m'.Shows v' held) fun _ _ => True := by
  have hevict : Ends evict m _ (fun e m' => (∃ x, e = .halt (.swap x)) ∧ Stops False v e m') :=
    ends_evict h hv hdeclared
  refine (hevict.and (ends_evict_of_choice h hv hchoice)).imp ?_ fun _ _ _ => trivial
  rintro _ m' ⟨hdone, rfl, housts⟩
  obtain ⟨j, -, v', heffect, h', -⟩ := hdone
  obtain rfl : j = e.page := heffect.page_eq_of_drops h hv h' housts.frames
  exact ⟨rfl, housts, v', heffect, h'⟩

/-- A frame is lent and listed on the machine, or on what an eviction makes of it. -/
theorem ends_lendFrame_borrows (h : m.Shows v held) (hv : v.Sound) (hdeclared : v.declared = v.own)
    (p : ProcId) (i : PageId) (u : Nat) (zeroed : Bool) :
    Ends (lendFrame p i u zeroed) m (fun f m₁ => ∃ n w, m.Readies n ∧ v.MakesRoom w ∧
        n.Shows w held ∧ n.Borrows ⟨f, p, i⟩ m₁ ∧ m₁.files = n.files ∧
        (zeroed = true → m₁.pool.read f = .zero pageSize)) fun _ _ => True := by
  have hzero : ∀ {n : Machine φ} {a : Allocator} {f : Frame}, n.pool.Lends (.forUser zeroed) f a.pool →
      zeroed = true → a.pool.read f = .zero pageSize := fun hlends hz => by
    rw [hlends.read, if_pos rfl, Frame.zeroed_forUser, if_pos hz]
  rw [lendFrame, ends_bind, obtainFrame, ends_bind]
  refine ((ends_takeFrame_exact (E := fun _ _ => True) m zeroed).and
    (ends_takeFrame (E := fun _ _ => True) h (Frame.user_forUser zeroed))).imp ?_ fun _ _ hstop => hstop.1
  rintro result m₁ ⟨⟨halloc, hexact⟩, hshows⟩
  cases result with
  | ok f =>
    obtain ⟨a, ev, rfl, hlends, hrefuses⟩ := hexact
    simp only [ends_process, ends_bind, ends_emit, ends_modify, ends_pure]
    exact ⟨m, v, .ready halloc, .inl rfl, h, borrows_of_lends hlends hrefuses _ _, rfl, hzero hlends⟩
  | error x =>
    obtain ⟨a, rfl, -, hrefuses⟩ := hexact
    have h₁ : (m.withAllocator a).Shows v held := hshows.1
    simp only [ends_bind]
    cases hchoice : (m.withAllocator a).choice with
    | none =>
      rw [ends_of_eq (evict_of_choice_none h₁ hv hchoice)]
      trivial
    | some e =>
      refine (ends_evict_effect h₁ hv hdeclared hchoice).imp ?_ fun _ _ _ => trivial
      rintro _ m₂ ⟨rfl, housts, w, heffect, h₂⟩
      simp only [Bool.not_true, Bool.false_eq_true, if_false]
      rw [ends_bind]
      refine (ends_takeFrame_exact (E := fun _ _ => True) m₂ zeroed).imp ?_ fun _ _ _ => trivial
      rintro result m₃ ⟨-, hexact⟩
      cases result with
      | error y => trivial
      | ok f =>
        obtain ⟨a', ev, rfl, hlends, hrefuses'⟩ := hexact
        simp only [ends_process, ends_emit, ends_modify, ends_pure]
        have housts : m.Ousts e m₂.frames m₂ := housts.of_withAllocator
        have hspares := View.spares_of_evict heffect
        have hscene : v = m.scene := h.eq_scene hdeclared
        have hscene' : w = m₂.scene := h₂.eq_scene (by rw [hspares.declared, hspares.own, hdeclared])
        have hpins : ∀ j, (m₂.page j).pinned = (m.page j).pinned := fun j =>
          Bool.eq_iff_iff.2 ((h₂.fit.pinned j).trans (h.fit.pinned j).symm)
        refine ⟨m₂, w, .evicted halloc hchoice ?_ housts hpins, .inr ⟨e.page, heffect⟩, h₂,
          borrows_of_lends hlends hrefuses' _ _, rfl, hzero hlends⟩
        rwa [hscene, hscene'] at heffect

end Kernel

end DemandPaging
