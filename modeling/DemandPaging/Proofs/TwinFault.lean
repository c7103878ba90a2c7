import DemandPaging.Proofs.Clock
import DemandPaging.Proofs.Fault
import DemandPaging.Proofs.TwinRelease

/-!
# Page faults, side by side

A frame or a slot that is handed on may hold bytes of process `b` still. So it is said of the pages of
the others, and of those still to come, that they hold the same in both runs: `Veils`. A page fault keeps
it so. A page that leaves memory goes to a slot that no other page is in, all of it; and the page that
comes in gets a frame that no other page is in, which is filled to the last byte, from the slot of the
page, with zeros, or with zeros and what is read over them.
-/

namespace DemandPaging

variable {φ α β : Type} [FileSystem φ] {F : Discreet φ} {S : Set Nat} {b p q : ProcId} {u w : Nat}
  {i j : PageId} {f : Frame} {r : Region} {held : Set PageId}

namespace View

variable {v : View φ}

omit [FileSystem φ] in
/-- The pages of all processes but `b`, and the pages to come. -/
def others (v : View φ) (b : ProcId) : Set PageId :=
  {i | v.next ≤ i ∨ ∃ q u, q ≠ b ∧ v.own q u = some i}

omit [FileSystem φ] in
theorem mem_others (hi : v.own p u = some i) (hp : p ≠ b) : i ∈ v.others b := .inr ⟨p, u, hp, hi⟩

/-- The handles of all pages have been given out. -/
def Handed (F : Discreet φ) (v : View φ) : Prop :=
  ∀ {q u i r}, v.own q u = some i → (v.page i).backing.region? = some r → F.known v.files r.file = true

/-- The files that process `b` has pages of are in `S`, and those that others have pages of are not. -/
def Parted (F : Discreet φ) (S : Set Nat) (b : ProcId) (v : View φ) : Prop :=
  ∀ {q u i r}, v.own q u = some i → (v.page i).backing.region? = some r →
    (F.file v.files r.file ∈ S ↔ q = b)

structure Sealed (F : Discreet φ) (S : Set Nat) (b : ProcId) (v : View φ) : Prop where
  handed : v.Handed F
  parted : v.Parted F S b

end View

namespace Machine

variable {m n m' n' : Machine φ} {v : View φ}

/-- What the pages of others than `b` hold is the same in both machines. The handles that had been given
out lead where they led. -/
structure Veils (F : Discreet φ) (b : ProcId) (v : View φ) (m n : Machine φ) : Prop where
  agrees : ∀ i ∈ v.others b, m.Agrees n i
  files : F.Keeps v.files m.files

/-- No page of others than `b` is in frame `f`. -/
def Clear (b : ProcId) (v : View φ) (m : Machine φ) (f : Frame) : Prop :=
  ∀ i ∈ v.others b, ∀ g, (m.page i).frame = some g → g.cell ≠ f.cell

theorem Veils.keeps (h : m.Veils F b v n) (hk : m.Keeps F ∅ n m' n') : m'.Veils F b v n' :=
  ⟨fun i hi => hk.agrees (fun _ _ => Set.notMem_empty _) (h.agrees i hi), h.files.trans hk.files⟩

/-- A frame may be written to that no such page is in. -/
theorem Veils.keeps_of_clear (h : m.Veils F b v n) (hclear : m.Clear b v f) (hk : m.Keeps F {f.cell} n m' n') :
    m'.Veils F b v n' :=
  ⟨fun i hi => hk.agrees (fun g hg => hclear i hi g hg) (h.agrees i hi), h.files.trans hk.files⟩

theorem Clear.ebbs (h : m.Clear b v f) (he : m.Ebbs F m') : m'.Clear b v f :=
  fun i hi g hg => h i hi g (he.frame hg).1

/-- Nothing is done to a page by a change of the other parts. -/
theorem Veils.congr (h : m.Veils F b v n) (hpage : m'.page = m.page) (hpool : m'.pool = m.pool)
    (hpool' : n'.pool = n.pool) (hslot : m'.slotBytes = m.slotBytes) (hslot' : n'.slotBytes = n.slotBytes)
    (hfiles : m'.files = m.files) : m'.Veils F b v n' := by
  refine ⟨fun i hi => ⟨fun f hf => ?_, fun s hs => ?_⟩, by rw [hfiles]; exact h.files⟩
  · rw [hpool, hpool']
    exact (h.agrees i hi).cell f (by rwa [hpage] at hf)
  · rw [hslot, hslot']
    exact (h.agrees i hi).slot s (by rwa [hpage] at hs)

/-- The frame of a page may be written to its file. -/
theorem Veils.mayWrite (h : m.Veils F b v n) (hs : v.Sealed F S b) (hi : v.own p u = some i)
    (hf : (m.page i).frame = some f) (hr : (v.page i).backing.region? = some r) : m.MayWrite F S n f r := by
  obtain ⟨hknown', hfile'⟩ := h.files _ (hs.handed hi hr)
  refine ⟨hknown', fun hout => ?_⟩
  have hp : p ≠ b := fun hp => hout (hfile' ▸ (hs.parted hi hr).2 hp)
  exact (h.agrees i (View.mem_others hi hp)).cell f hf

/-- A page in frame `f` has been put into a slot that no other page is in. -/
theorem Veils.stash {m₁ n₁ : Machine φ} {s : Nat} {g : Page → Page} (h : m.Veils F b v n)
    (hf : (m.page i).frame = some f) (hebbs : m.Ebbs F m₁)
    (hcell : ∀ f, m.pool.read f = n.pool.read f → m₁.pool.read f = n₁.pool.read f)
    (hslot : ∀ j ∈ v.others b, ∀ t, (m.page j).slot = some t →
      m.slotBytes t = n.slotBytes t → m₁.slotBytes t = n₁.slotBytes t)
    (hfilled : m.pool.read f = n.pool.read f → m₁.slotBytes s = n₁.slotBytes s)
    (hframe : ∀ pg, (g pg).frame = pg.frame) (hto : ∀ pg, (g pg).slot = some s) :
    (m₁.withPage i g).Veils F b v (n₁.withPage i g) := by
  refine ⟨fun j hj => ⟨fun f' hf' => ?_, fun t ht => ?_⟩, h.files.trans hebbs.files⟩
  · have hold : (m₁.page j).frame = some f' := by
      rw [page_withPage] at hf'
      split at hf'
      · rwa [hframe] at hf'
      · exact hf'
    exact hcell f' ((h.agrees j hj).cell f' (hebbs.frame hold).1)
  · show m₁.slotBytes t = n₁.slotBytes t
    rw [page_withPage] at ht
    split at ht
    · rename_i hij
      rw [hto, Option.some.injEq] at ht
      rw [← ht]
      exact hfilled ((h.agrees j hj).cell f (hij.1 ▸ hf))
    · have hold := hebbs.slot ht
      exact hslot j hj t hold ((h.agrees j hj).slot t hold)

/-- A page is in a frame now that holds the same in both machines, or it is one of process `b`. -/
theorem Veils.settle (h : m.Veils F b v n) (hv : v.Owned) (hi : v.own p u = some i)
    (hf : p ≠ b → m.pool.read f = n.pool.read f) :
    (m.withPage i fun pg => { pg with frame := some f, slot := none }).Veils F b v
      (n.withPage i fun pg => { pg with frame := some f, slot := none }) := by
  refine ⟨fun j hj => ?_, h.files⟩
  by_cases hij : i = j ∧ j < m.pages.next
  · obtain ⟨rfl, hlt⟩ := hij
    have hp : p ≠ b := by
      rcases hj with hle | ⟨q, w, hq, hj⟩
      · exact absurd (hv.lt hi) (Nat.not_lt.2 hle)
      · rwa [hv.owner hi hj]
    refine ⟨fun g hg => ?_, fun s hs => ?_⟩
    · rw [page_withPage, if_pos ⟨rfl, hlt⟩, Option.some.injEq] at hg
      rw [← hg]
      exact hf hp
    · rw [page_withPage, if_pos ⟨rfl, hlt⟩] at hs
      simp at hs
  · refine ⟨fun g hg => ?_, fun s hs => ?_⟩
    · rw [page_withPage, if_neg hij] at hg
      exact (h.agrees j hj).cell g hg
    · rw [page_withPage, if_neg hij] at hs
      exact (h.agrees j hj).slot s hs

/-- A page has been added in a frame that holds the same in both machines. -/
theorem Veils.addPage (h : m.Veils F b v n) {pg : Page} (hframe : pg.frame = some f) (hslot : pg.slot = none)
    (hf : m.pool.read f = n.pool.read f) :
    Veils F b v { m with pages := m.pages.add pg } { n with pages := n.pages.add pg } := by
  have hget : ∀ j, Machine.page { m with pages := m.pages.add pg } j =
      if j = m.pages.next then pg else m.page j := m.pages.get_add pg
  refine ⟨fun j hj => ⟨fun g hg => ?_, fun s hs => ?_⟩, h.files⟩
  · rw [hget] at hg
    split at hg
    · rw [hframe, Option.some.injEq] at hg
      rw [← hg]
      exact hf
    · exact (h.agrees j hj).cell g hg
  · rw [hget] at hs
    split at hs
    · simp [hslot] at hs
    · exact (h.agrees j hj).slot s hs

omit [FileSystem φ] in
/-- A page that is still to come is nowhere. -/
theorem Shows.away (h : m.Shows v held) (hi : v.next ≤ i) : (m.page i).frame = none ∧ (m.page i).slot = none := by
  have hle : ¬ i < m.pages.pages.size := Nat.not_lt.2 (h.next.symm.trans_le hi)
  have hpage : m.page i = Page.declared 0 false .swap := by
    simp [Machine.page, PageStore.get, hle]
  rw [hpage]
  exact ⟨rfl, rfl⟩

omit [FileSystem φ] in
/-- A page of another process, or one to come, is in a slot that is used, if it is in one. -/
theorem Shows.used_of_slot (h : m.Shows v held) (hv : v.Swapped) (hi : i ∈ v.others b) {s : Nat}
    (hs : (m.page i).slot = some s) : m.swap.used.bit s = true ∧ s < m.swap.slots := by
  rcases hi with hle | ⟨q, u, -, hi⟩
  · rw [(h.away hle).2] at hs
    simp at hs
  · have hused : (v.slot s).isSome = true := (hv.used s).2 ⟨q, u, i, hi, (h.pageSlot i).symm.trans hs⟩
    obtain ⟨x, hx⟩ := Option.isSome_iff_exists.1 hused
    exact ⟨(h.bit_of_slot hx).1, h.slots ▸ hv.lt s hused⟩

omit [FileSystem φ] in
theorem Shows.roomy (h : m.Shows v held) (hwired : v.plant.Wired) : Kernel.Roomy m := by
  obtain ⟨size, sectors, -, hslots, hlimit⟩ := hwired
  intro s hs
  exact (Kernel.slot_le hslots (h.slots ▸ hs)).trans hlimit

end Machine

namespace Kernel

open Machine View

variable {m n : Machine φ} {v : View φ}

/-- Twins do the same in the program, and the pages of others than `b` go on to hold the same. -/
def Veiled (F : Discreet φ) (S : Set Nat) (b : ProcId) (v : View φ) (x : Kernel φ α) (m n : Machine φ) :
    Prop :=
  Twins F S x x m n fun a m' a' n' => a = a' ∧ m'.Veils F b v n'

theorem veiled_pure (h : m.Twin F S n) (hveils : m.Veils F b v n) (a : α) : Veiled F S b v (pure a) m n :=
  twins_pure h ⟨rfl, hveils⟩

theorem veiled_bind {x : Kernel φ β} {g : β → Kernel φ α} (hx : Veiled F S b v x m n)
    (hg : ∀ a m' n', m'.Twin F S n' → m'.Veils F b v n' → Veiled F S b v (g a) m' n') :
    Veiled F S b v (x >>= g) m n := by
  refine twins_bind hx ?_
  rintro a m' _ n' h' ⟨rfl, hveils'⟩
  exact hg a m' n' h' hveils'

theorem Blind.veiled {x : Kernel φ α} (hx : Blind F S x) (h : m.Twin F S n) (hveils : m.Veils F b v n) :
    Veiled F S b v x m n :=
  (hx.run h).imp fun _ _ _ _ _ hdone => ⟨hdone.1, hveils.keeps hdone.2⟩

/-! ### Eviction -/

/-- A page that is evicted goes to its slot as a whole, or to its file, or nowhere. -/
theorem veiled_pageOut (h : m.Twin F S n) (hv : v.Sound) (hs : v.Sealed F S b) {e : Tenancy}
    (he : e ∈ v.tenants) (hm : m.Shows (v.setTenants (v.tenants.erase e)) held) (hveils : m.Veils F b v n) :
    Veiled F S b v (pageOut e) m n := by
  obtain ⟨f, p, i⟩ := e
  obtain ⟨u, hi, hf⟩ := (hv.housed.listed f p i).1 he
  refine twins_page h ((blind_unmapPage p _).bind_of_ends h (E := fun _ _ => True) (ends_unmapPage hm p _) ?_)
  rintro dirty m₁ n₁ h₁ hk₁ ⟨-, hm₁⟩
  have hveils₁ := hveils.keeps hk₁
  have hframe : (m₁.page i).frame = some f := (hm₁.frame i).trans hf
  have hleave : ∀ (pid : UInt16) (d : Disposal), Blind F S (do
      modifyPage i fun pg => { pg with frame := none }
      emit (.evicted pid (m.page i).upage f d) : Kernel φ Unit) := fun pid d =>
    blind_bind (blind_modifyPage i (fun _ => .inr rfl) (fun _ => .inl rfl) fun _ => rfl) fun _ => blind_emit _
  refine twins_page h₁ (twins_process h₁ ?_)
  dsimp only
  generalize hd : (m₁.page i).disposal dirty = d
  cases d with
  | swappedOut =>
    have hswapped : ((v.setTenants (v.tenants.erase ⟨f, p, i⟩)).setMapping p (m.page i).upage none).Swapped :=
      hv.swapped.congr rfl rfl (fun _ => rfl) fun _ => rfl
    refine twins_bind (twins_swapOut h₁ (hm₁.roomy hv.wired) f) ?_
    rintro s m₂ _ n₂ h₂ ⟨rfl, hebbs, hunused, hcell, hslot, hfilled⟩
    refine veiled_bind ⟨h₂.withPage i _, rfl, ?_⟩ fun _ m₃ n₃ h₃ hveils₃ => (hleave _ _).veiled h₃ hveils₃
    refine hveils₁.stash hframe hebbs hcell (fun j hj t ht => ?_) hfilled (fun _ => rfl) fun _ => rfl
    -- the slot was not in use, so that it is not that of page `j`
    obtain ⟨hbit, hlt⟩ := hm₁.used_of_slot hswapped hj ht
    refine hslot t hlt ?_
    rintro rfl
    simp [hunused] at hbit
  | writtenBack =>
    cases hr : (m₁.page i).backing.region? with
    | none => exact (hleave _ _).veiled h₁ hveils₁
    | some r =>
      have hwrite : m₁.MayWrite F S n₁ f r :=
        hveils₁.mayWrite hs hi hframe (by rw [← hr, hm₁.backing]; rfl)
      refine twins_bind (twins_writeRegion h₁ r f hwrite.known hwrite.same) ?_
      rintro written m₂ _ n₂ h₂ ⟨rfl, hk₂⟩
      have hveils₂ := hveils₁.keeps hk₂
      split
      · exact (blind_bind (blind_emit _) fun _ => hleave _ _).veiled h₂ hveils₂
      · exact (hleave _ _).veiled h₂ hveils₂
  | dropped => exact (hleave _ _).veiled h₁ hveils₁

theorem veiled_evict (h : m.Twin F S n) (hm : m.Shows v held) (hv : v.Sound) (hs : v.Sealed F S b)
    (hveils : m.Veils F b v n) : Veiled F S b v evict m n := by
  refine twins_get ?_
  rw [← h.frames]
  refine (blind_sweep _).bind_of_ends h (ends_sweep hm hv (E := fun _ _ => True)) ?_
  intro taken m₁ n₁ h₁ hk₁ htaken
  cases taken with
  | none => exact veiled_pure h₁ (hveils.keeps hk₁) _
  | some e =>
    obtain ⟨he, -, hm₁, -⟩ := htaken
    refine veiled_bind (veiled_pageOut h₁ hv hs he hm₁ (hveils.keeps hk₁)) fun _ m₂ n₂ h₂ hveils₂ => ?_
    exact (blind_bind (blind_returnFrame e.frame) fun _ => blind_bind (blind_unpin e.page) fun _ =>
      blind_pure true).veiled h₂ hveils₂

/-! ### Lending -/

/-- Both runs are lent the same frame, with the same bytes if zeros are asked for. -/
theorem twins_obtainFrame (h : m.Twin F S n) (hm : m.Shows v held) (hv : v.Sound) (hs : v.Sealed F S b)
    (hveils : m.Veils F b v n) {r : Frame.Request} (hr : r.user = true) :
    Twins F S (obtainFrame r) (obtainFrame r) m n fun f m' f' n' => f = f' ∧ m'.Veils F b v n' ∧
      (r.zeroed = true → m'.pool.read f = n'.pool.read f) := by
  have htake := (twins_takeFrame h r).left (ends_takeFrame hm hr (E := fun _ _ => True))
  refine twins_bind htake ?_
  rintro result m₁ _ n₁ h₁ ⟨⟨rfl, hk₁, hzero⟩, hm₁⟩
  cases result with
  | ok f => exact twins_pure h₁ ⟨rfl, hveils.keeps hk₁, hzero f rfl⟩
  | error e =>
    refine twins_bind (veiled_evict h₁ hm₁.1 hv hs (hveils.keeps hk₁)) ?_
    rintro done m₂ _ n₂ h₂ ⟨rfl, hveils₂⟩
    cases done with
    | false => exact twins_bind (R := fun _ _ _ _ => False) (twins_throw h₂) fun _ _ _ _ _ hno => hno.elim
    | true =>
      refine twins_bind (twins_takeFrame h₂ r) ?_
      rintro result m₃ _ n₃ h₃ ⟨rfl, hk₃, hzero⟩
      cases result with
      | ok f => exact twins_pure h₃ ⟨rfl, hveils₂.keeps hk₃, hzero f rfl⟩
      | error e => exact twins_throw h₃

/-- A frame has been lent for page `i` of process `p`, and no page of others is in it. -/
theorem twins_lendFrame (h : m.Twin F S n) (hm : m.Shows v held) (hv : v.Sound)
    (hdeclared : v.declared = v.own) (hs : v.Sealed F S b) (hveils : m.Veils F b v n) (p : ProcId)
    (i : PageId) (u : Nat) (zeroed : Bool) :
    Twins F S (lendFrame p i u zeroed) (lendFrame p i u zeroed) m n fun f m' f' n' => f = f' ∧
      m'.Veils F b v n' ∧ m'.Clear b v f ∧ (zeroed = true → m'.pool.read f = n'.pool.read f) ∧
        ∀ j, (v.page j).frame = none → (m'.page j).slot = (v.page j).slot := by
  have hends : Ends (lendFrame p i u zeroed) m _ (Stalls (v.heldIn held) False v) :=
    ends_lendFrame hm hv hdeclared p i u zeroed
  have hlend : Twins F S (lendFrame p i u zeroed) (lendFrame p i u zeroed) m n fun f m' f' n' => f = f' ∧
      m'.Veils F b v n' ∧ (zeroed = true → m'.pool.read f = n'.pool.read f) := by
    refine twins_bind (twins_obtainFrame h hm hv hs hveils (Frame.user_forUser zeroed)) ?_
    rintro f m₁ _ n₁ h₁ ⟨rfl, hveils₁, hzero⟩
    rw [Frame.zeroed_forUser] at hzero
    refine (blind_process p).bind h₁ fun proc m₂ n₂ h₂ hk₂ => ?_
    refine (blind_emit _).bind h₂ fun _ m₃ n₃ h₃ hk₃ => ?_
    refine (blind_setFrames (·.add ⟨f, p, i⟩)).bind h₃ fun _ m₄ n₄ h₄ hk₄ => ?_
    have hkeeps := (hk₂.trans hk₃).trans hk₄
    exact twins_pure h₄ ⟨rfl, hveils₁.keeps hkeeps, fun hz => hkeeps.cell f (Set.notMem_empty _) (hzero hz)⟩
  refine (hlend.left hends).imp ?_
  rintro f m' _ n' - ⟨⟨rfl, hveils', hzero⟩, v', hroom, -, hfree, x, -, hm'⟩
  have hspares := hroom.spares
  have hv' := hroom.sound hv
  refine ⟨rfl, hveils', fun j hj g hg => ?_, hzero, fun j haway => ?_⟩
  · rw [hm'.frame] at hg
    rcases hj with hle | ⟨q, w, -, hj⟩
    · have hnone := (hm'.away (i := j) (hspares.next.trans_le hle)).1
      rw [hm'.frame, hg] at hnone
      simp at hnone
    · -- the frame was free when it was lent
      obtain ⟨y, hy⟩ := hv'.housed.exists_cell (hspares.own ▸ hj) hg
      rintro hcell
      rw [hcell, hfree.cell] at hy
      simp at hy
  · rw [hm'.pageSlot, ← hspares.page j haway]
    rfl

/-! ### Bringing pages in -/

theorem veiled_settle (h : m.Twin F S n) (hv : v.Owned) (hi : v.own p u = some i) (hveils : m.Veils F b v n)
    (hf : p ≠ b → m.pool.read f = n.pool.read f) : Veiled F S b v (settle i f) m n :=
  ⟨h.withPage i _, rfl, hveils.settle hv hi hf⟩

/-- A page is put into a frame that has been filled, unless the page table does not take it. -/
theorem veiled_installFilled (h : m.Twin F S n) (hv : v.Owned) (hi : v.own p u = some i)
    (hveils : m.Veils F b v n) (hf : p ≠ b → m.pool.read f = n.pool.read f) :
    Veiled F S b v (do
      match ← install p i f with
      | .error e => return .error e
      | .ok () =>
        settle i f
        return .ok () : Kernel φ (Except PageError Unit)) m n := by
  refine (blind_install p i f).bind h fun result m₁ n₁ h₁ hk₁ => ?_
  have hveils₁ := hveils.keeps hk₁
  cases result with
  | error e => exact veiled_pure h₁ hveils₁ _
  | ok _ =>
    refine veiled_bind (veiled_settle h₁ hv hi hveils₁ fun hp => ?_) fun _ m₂ n₂ h₂ hveils₂ =>
      veiled_pure h₂ hveils₂ _
    exact hk₁.cell f (Set.notMem_empty _) (hf hp)

theorem veiled_pageInFromSlot (h : m.Twin F S n) (hm : m.Shows v held) (hv : v.Sound)
    (hdeclared : v.declared = v.own) (hs : v.Sealed F S b) (hveils : m.Veils F b v n)
    (hi : v.own p u = some i) (haway : (v.page i).frame = none) {s : Nat} (hslot : (v.page i).slot = some s) :
    Veiled F S b v (pageInFromSlot p i u s) m n := by
  refine twins_bind (twins_lendFrame h hm hv hdeclared hs hveils p i u false) ?_
  rintro f m₁ _ n₁ h₁ ⟨rfl, hveils₁, hclear, -, hstill⟩
  refine (blind_install p i f).bind h₁ fun result m₂ n₂ h₂ hk₂ => ?_
  have hveils₂ := hveils₁.keeps hk₂
  cases result with
  | error e => exact veiled_pure h₂ hveils₂ _
  | ok _ =>
    refine twins_bind (twins_loadSlot h₂ s f) ?_
    rintro _ m₃ _ n₃ h₃ ⟨hk₃, hfilled⟩
    have hveils₃ := hveils₂.keeps_of_clear (hclear.ebbs hk₂.toEbbs) hk₃
    refine veiled_bind (veiled_settle h₃ hv.owned hi hveils₃ fun hp => hfilled ?_) fun _ m₄ n₄ h₄ hveils₄ =>
      veiled_pure h₄ hveils₄ _
    exact hk₂.image s ((hveils₁.agrees i (mem_others hi hp)).slot s ((hstill i haway).trans hslot))

theorem veiled_pageInZeroed (h : m.Twin F S n) (hm : m.Shows v held) (hv : v.Sound)
    (hdeclared : v.declared = v.own) (hs : v.Sealed F S b) (hveils : m.Veils F b v n)
    (hi : v.own p u = some i) : Veiled F S b v (pageInZeroed p i u) m n := by
  refine twins_bind (twins_lendFrame h hm hv hdeclared hs hveils p i u true) ?_
  rintro f m₁ _ n₁ h₁ ⟨rfl, hveils₁, -, hzero, -⟩
  exact veiled_installFilled h₁ hv.owned hi hveils₁ fun _ => hzero rfl

/-- Whatever a read leaves out, there are zeros. -/
theorem veiled_pageInFromFile (h : m.Twin F S n) (hm : m.Shows v held) (hv : v.Sound)
    (hdeclared : v.declared = v.own) (hs : v.Sealed F S b) (hveils : m.Veils F b v n)
    (hi : v.own p u = some i) (hr : (v.page i).backing.region? = some r) :
    Veiled F S b v (pageInFromFile p i u r) m n := by
  refine twins_bind (twins_lendFrame h hm hv hdeclared hs hveils p i u true) ?_
  rintro f m₁ _ n₁ h₁ ⟨rfl, hveils₁, hclear, hzero, -⟩
  refine twins_bind (twins_readRegion h₁ r) ?_
  rintro reading m₂ reading' n₂ h₂ ⟨hcount, hk₂, hdata⟩
  have hsame : p ≠ b → reading.data = reading'.data := by
    intro hp
    obtain ⟨hknown₁, hfile₁⟩ := hveils₁.files _ (hs.handed hi hr)
    exact hdata hknown₁ fun hin => hp ((hs.parted hi hr).1 (hfile₁ ▸ hin))
  refine twins_get ?_
  refine twins_bind (twins_writeFrame h₂ f _ _) ?_
  rintro _ m₃ _ n₃ h₃ ⟨hk₃, hwritten⟩
  have hveils₃ := (hveils₁.keeps hk₂).keeps_of_clear (hclear.ebbs hk₂.toEbbs) hk₃
  rw [← hcount]
  split
  · exact (blind_bind (blind_process p) fun _ => blind_bind (blind_emit _) fun _ =>
      blind_bind (blind_freeFrame f) fun _ => blind_pure _).veiled h₃ hveils₃
  · refine veiled_installFilled h₃ hv.owned hi hveils₃ fun hp => hwritten ?_
    rw [hk₂.cell f (Set.notMem_empty _) (hzero rfl), hsame hp]

theorem veiled_pageIn (h : m.Twin F S n) (hm : m.Shows v held) (hv : v.Sound)
    (hdeclared : v.declared = v.own) (hs : v.Sealed F S b) (hveils : m.Veils F b v n)
    (hi : v.own p u = some i) : Veiled F S b v (pageIn p i) m n := by
  refine twins_page h ?_
  have hupage : (m.page i).upage = u := (hm.upage i).trans (hv.owned.upage hi)
  rw [hupage]
  split
  · exact veiled_pure h hveils _
  rename_i hresident
  have haway : (v.page i).frame = none := by
    rw [← hm.frame]
    simpa [Page.resident] using hresident
  cases hslot : (m.page i).slot with
  | some s => exact veiled_pageInFromSlot h hm hv hdeclared hs hveils hi haway ((hm.pageSlot i).symm.trans hslot)
  | none =>
    cases hr : (m.page i).backing.region? with
    | some r => exact veiled_pageInFromFile h hm hv hdeclared hs hveils hi (by rw [← hm.backing, hr])
    | none => exact veiled_pageInZeroed h hm hv hdeclared hs hveils hi

theorem veiled_resolve (h : m.Twin F S n) (hm : m.Shows v ∅) (hv : v.Sound)
    (hdeclared : v.declared = v.own) (hs : v.Sealed F S b) (hveils : m.Veils F b v n)
    (hi : v.own p u = some i) : Veiled F S b v (resolve p i) m n := by
  have hpin := ends_pin hm (hv.owned.lt hi) (Set.notMem_empty i) (E := fun _ _ => True)
  refine (blind_pin i).bind_of_ends h hpin fun _ m₁ n₁ h₁ hk₁ hm₁ => ?_
  refine veiled_bind (veiled_pageIn h₁ hm₁ hv hdeclared hs (hveils.keeps hk₁) hi)
    fun result m₂ n₂ h₂ hveils₂ => ?_
  exact (blind_bind (blind_unpin i) fun _ => blind_pure result).veiled h₂ hveils₂

theorem veiled_growStack (h : m.Twin F S n) (hm : m.Shows v held) (hv : v.Sound)
    (hdeclared : v.declared = v.own) (hs : v.Sealed F S b) (hveils : m.Veils F b v n) (p : ProcId) (a : Nat) :
    Veiled F S b v (growStack p a) m n := by
  rw [growStack_eq]
  refine twins_process h ?_
  split
  · exact (blind_bind (blind_emit _) fun _ => blind_pure none).veiled h hveils
  split
  · exact veiled_pure h hveils _
  refine twins_get ?_
  rw [← h.pages]
  refine twins_bind (twins_lendFrame h hm hv hdeclared hs hveils p _ _ true) ?_
  rintro f m₁ _ n₁ h₁ ⟨rfl, hveils₁, -, hzero, -⟩
  refine (blind_mapPage p _ f true).bind h₁ fun mapped m₂ n₂ h₂ hk₂ => ?_
  have hveils₂ := hveils₁.keeps hk₂
  cases mapped with
  | false => exact (blind_bind (blind_freeFrame f) fun _ => blind_pure none).veiled h₂ hveils₂
  | true =>
    have hfilled := hk₂.cell f (Set.notMem_empty _) (hzero rfl)
    refine veiled_bind ⟨h₂.addPage _, congrArg PageStore.next h₂.pages, hveils₂.addPage rfl rfl hfilled⟩
      fun i m₃ n₃ h₃ hveils₃ => ?_
    refine veiled_bind ⟨h₃.withProcess p _, rfl, hveils₃.congr rfl rfl rfl rfl rfl rfl⟩
      fun _ m₄ n₄ h₄ hveils₄ => ?_
    exact (blind_bind (blind_emit _) fun _ => blind_pure (some i)).veiled h₄ hveils₄

/-! ### Page faults -/

theorem veiled_decideFault (h : m.Twin F S n) (hm : m.Shows v ∅) (hv : v.Sound)
    (hdeclared : v.declared = v.own) (hs : v.Sealed F S b) (hveils : m.Veils F b v n) (p : ProcId)
    (a esp : Nat) (write : Bool) : Veiled F S b v (decideFault p a esp write) m n := by
  rw [decideFault]
  split
  · exact veiled_pure h hveils _
  refine twins_get ?_
  rw [h.lookup]
  cases hi : m.lookup p a with
  | some i =>
    have hown : v.own p (pageBase a) = some i := by
      rw [← hdeclared, hm.declared]
      exact hi
    refine twins_page h ?_
    split
    · exact veiled_pure h hveils _
    exact veiled_bind (veiled_resolve h hm hv hdeclared hs hveils hown) fun _ m₁ n₁ h₁ hveils₁ =>
      veiled_pure h₁ hveils₁ _
  | none =>
    dsimp only
    split
    · refine veiled_bind (veiled_growStack h hm hv hdeclared hs hveils p a) fun result m₁ n₁ h₁ hveils₁ => ?_
      cases result <;> exact veiled_pure h₁ hveils₁ _
    · exact veiled_pure h hveils _

theorem veiled_handleFault (h : m.Twin F S n) (hm : m.Shows v ∅) (hv : v.Sound)
    (hdeclared : v.declared = v.own) (hs : v.Sealed F S b) (hveils : m.Veils F b v n) (p : ProcId)
    (a esp : Nat) (write : Bool) : Veiled F S b v (handleFault p a esp write) m n := by
  refine veiled_bind (veiled_decideFault h hm hv hdeclared hs hveils p a esp write)
    fun result m₁ n₁ h₁ hveils₁ => ?_
  cases result with
  | ok _ => exact veiled_pure h₁ hveils₁ _
  | error e =>
    exact (blind_bind (blind_process p) fun _ => blind_bind (blind_emit _) fun _ => blind_pure _).veiled h₁
      hveils₁

end Kernel

end DemandPaging
