import DemandPaging.Proofs.TwinFault
import DemandPaging.Proofs.UserWalk

/-!
# Accesses, side by side

What a process other than `b` reads is the same in both runs, and what process `b` reads is as long and
ends with the same fault. `Alike` says so of an answer: it is the same under a mask, and the same
altogether to those who may see it. An access or a page fault leaves machines between which the pages
of the others still are the same, `Hides`, so that all that is made up of accesses and faults does.
-/

namespace DemandPaging

/-- The values are the same under the mask, and equal if they may be seen. -/
def Alike {α γ : Type} (mask : α → γ) (see : Prop) (x y : α) : Prop := mask x = mask y ∧ (see → x = y)

theorem Alike.refl {α γ : Type} (mask : α → γ) (see : Prop) (x : α) : Alike mask see x x :=
  ⟨rfl, fun _ => rfl⟩

theorem Alike.map {α β γ δ : Type} {mask : α → γ} {mask' : β → δ} {see : Prop} {x y : α}
    (h : Alike mask see x y) (g : α → β) (hg : ∀ x y, mask x = mask y → mask' (g x) = mask' (g y)) :
    Alike mask' see (g x) (g y) :=
  ⟨hg x y h.1, fun hsee => congrArg g (h.2 hsee)⟩

namespace PageTable

/-- A read returns as many bytes from any other memory, and the same ones if all mapped frames hold the
same. -/
theorem loadSpans_bytes (pool pool' : Pool) : ∀ (l : List Span) (t : PageTable),
    Alike List.length (∀ u r f, t.mapping? u = some (r, f) → pool.read f = pool'.read f)
      (loadSpans pool l t).bytes (loadSpans pool' l t).bytes
  | [], _ => .refl _ _ _
  | s :: l, t => by
    simp only [loadSpans]
    cases ht : t.touch s.addr false with
    | error e => exact .refl _ _ _
    | ok x =>
      obtain ⟨f, t'⟩ := x
      have htouches := touches_of_touch ht
      obtain ⟨hlen, hbytes⟩ := loadSpans_bytes pool pool' l t'
      refine ⟨?_, fun hsame => ?_⟩
      · simp only [List.length_append, Bytes.length_slice, hlen]
      · obtain ⟨r, hmapped, -⟩ := htouches.mapped
        have hrest := hbytes fun u r g hg => hsame u r g ((htouches.mapping? u).symm.trans hg)
        simp only [hsame _ _ _ hmapped, hrest]

/-- A frame goes on to hold the same in both memories when the same is written, or the frame is not
mapped. -/
theorem storeSpans_read {g : Frame} : ∀ (l : List Span) (data data' : List UInt8) (t : PageTable)
    (pool pool' : Pool), pool.total = pool'.total → pool.read g = pool'.read g →
    (data = data' ∨ ∀ u r f, t.mapping? u = some (r, f) → f.cell ≠ g.cell) →
    (storeSpans l data t pool).pool.read g = (storeSpans l data' t pool').pool.read g
  | [], _, _, _, _, _, _, hread, _ => hread
  | s :: l, data, data', t, pool, pool', htotal, hread, hwritten => by
    simp only [storeSpans]
    cases ht : t.touch s.addr true with
    | error e => exact hread
    | ok x =>
      obtain ⟨f, t'⟩ := x
      have htouches := touches_of_touch ht
      obtain ⟨r, hmapped, -⟩ := htouches.mapped
      refine storeSpans_read l _ _ t' _ _ (by simpa using htotal)
        (Pool.read_write_eq htotal (fun hcell => ?_) fun _ => hread) ?_
      · rcases hwritten with rfl | hunmapped
        · rw [pool.read_eq_of_cell hcell, pool'.read_eq_of_cell hcell, hread]
        · exact absurd hcell (hunmapped _ r f hmapped)
      · rcases hwritten with rfl | hunmapped
        · exact .inl rfl
        · exact .inr fun u r g' hg => hunmapped u r g' ((htouches.mapping? u).symm.trans hg)

end PageTable

variable {φ α β : Type} [FileSystem φ] {F : Discreet φ} {S : Set Nat} {b p : ProcId}

namespace Kernel

open Machine View

variable {m n : Machine φ}

theorem twins_load (h : m.Twin F S n) (p : ProcId) (a len : Nat) :
    Twins F S (load p a len) (load p a len) m n fun x m' y n' =>
      Alike (fun x => (x.1.length, x.2))
        (∀ u r f, (m.process p).table.mapping? u = some (r, f) → m.pool.read f = n.pool.read f) x y ∧
      m.Keeps F ∅ n m' n' := by
  refine twins_get ?_
  dsimp only
  rw [h.process]
  obtain ⟨htable, htrouble⟩ := PageTable.loadSpans_matches m.pool n.pool (spans a len) (m.process p).table
  obtain ⟨hlen, hbytes⟩ := PageTable.loadSpans_bytes m.pool n.pool (spans a len) (m.process p).table
  simp only [PageTable.load]
  generalize PageTable.loadSpans m.pool (spans a len) (m.process p).table = x at htable htrouble hlen hbytes ⊢
  generalize PageTable.loadSpans n.pool (spans a len) (m.process p).table = y at htable htrouble hlen hbytes ⊢
  obtain ⟨bytes, table, trouble⟩ := x
  obtain ⟨bytes', table', trouble'⟩ := y
  obtain rfl : table = table' := htable
  obtain rfl : trouble = trouble' := htrouble
  refine (blind_modifyTable p fun _ => table).bind h fun _ m₁ n₁ h₁ hk₁ => ?_
  have halike : ∀ fault : Option PageTable.Fault, Alike (fun x : List UInt8 × Option PageTable.Fault =>
      (x.1.length, x.2)) (∀ u r f, (m.process p).table.mapping? u = some (r, f) →
        m.pool.read f = n.pool.read f) (bytes, fault) (bytes', fault) := fun fault =>
    ⟨congrArg (·, fault) hlen, fun hsame => congrArg (·, fault) (hbytes hsame)⟩
  rcases trouble with _ | (f | e)
  · exact twins_pure h₁ ⟨halike none, hk₁⟩
  · exact twins_pure h₁ ⟨halike (some f), hk₁⟩
  · exact twins_throw h₁

/-- The cells of the frames that process `p` has mapped, if not the same is written to them in both
runs. -/
def Differ (m : Machine φ) (p : ProcId) (data data' : List UInt8) : Set Nat :=
  {c | data ≠ data' ∧ ∃ u r f, (m.process p).table.mapping? u = some (r, f) ∧ f.cell = c}

theorem twins_store (h : m.Twin F S n) (p : ProcId) (a : Nat) {data data' : List UInt8}
    (hlen : data.length = data'.length) :
    Twins F S (store p a data) (store p a data') m n fun x m' y n' =>
      x = y ∧ m.Keeps F (Differ m p data data') n m' n' := by
  refine twins_get ?_
  dsimp only
  rw [h.process]
  simp only [PageTable.store, ← hlen]
  obtain ⟨htable, htrouble, hpool⟩ := PageTable.storeSpans_matches (spans a data.length) data data'
    (m.process p).table m.pool n.pool h.pool
  have hread : ∀ g : Frame, g.cell ∉ Differ m p data data' → m.pool.read g = n.pool.read g →
      (PageTable.storeSpans (spans a data.length) data (m.process p).table m.pool).pool.read g =
        (PageTable.storeSpans (spans a data.length) data' (m.process p).table n.pool).pool.read g := by
    intro g hg hsame
    refine PageTable.storeSpans_read _ _ _ _ _ _ (Pool.total_eq_of_outline h.pool) hsame ?_
    by_cases hdata : data = data'
    · exact .inl hdata
    · exact .inr fun u r f hf hcell => hg ⟨hdata, u, r, f, hf, hcell⟩
  generalize PageTable.storeSpans (spans a data.length) data (m.process p).table m.pool = x
    at htable htrouble hpool hread ⊢
  generalize PageTable.storeSpans (spans a data.length) data' (m.process p).table n.pool = y
    at htable htrouble hpool hread ⊢
  obtain ⟨pool, table, trouble⟩ := x
  obtain ⟨pool', table', trouble'⟩ := y
  obtain rfl : table = table' := htable
  obtain rfl : trouble = trouble' := htrouble
  refine twins_bind (R := fun _ m₁ _ n₁ => m.Keeps F (Differ m p data data') n m₁ n₁)
    ⟨h.withPool hpool, .of_eq rfl rfl rfl, hread, fun _ => id⟩ ?_
  intro _ m₁ _ n₁ h₁ hk₁
  refine (blind_modifyTable p fun _ => table).bind h₁ fun _ m₂ n₂ h₂ hk₂ => ?_
  have hkeeps := hk₁.trans (hk₂.mono (Set.empty_subset _))
  rcases trouble with _ | (f | e)
  · exact twins_pure h₂ ⟨rfl, hkeeps⟩
  · exact twins_pure h₂ ⟨rfl, hkeeps⟩
  · exact twins_throw h₂

end Kernel

/-! ### What stays hidden -/

/-- Nothing becomes a page of others that was not one of theirs, or still to come. -/
theorem Path.others_subset {may : Label → Prop} {v v' : View φ} (h : Path may v v') :
    v'.others b ⊆ v.others b := by
  obtain ⟨hnext, hown⟩ := h.own_cases
  rintro i (hle | ⟨q, u, hq, hi⟩)
  · exact .inl (hnext.trans hle)
  · rcases hown hi with hold | hnew
    · exact View.mem_others hold hq
    · exact .inl hnew

/-- Whatever a page fault brings in, the pages of files were there before. -/
theorem View.Fetched.retold {v v' : View φ} (h : v.Fetched v') (hv : v.Sound) : v.Retold v' := by
  rcases h with rfl | ⟨i, -, hfetches⟩
  · exact fun hi _ => hi
  · refine hfetches.path.retold (fun l hl j hj => ?_) hv
    rw [hj] at hl
    exact hl

namespace Machine

variable {m n m' n' : Machine φ} {f g : Frame} {i : PageId} {u : Nat} {r : PageTable.Rights}

omit [FileSystem φ] in
/-- What a page table maps are pages of its process. -/
theorem Settled.exists_page (h : m.Settled ∅) (hf : (m.process p).table.mapping? u = some (r, f)) :
    ∃ i, m.scene.own p u = some i ∧ (m.page i).frame = some f := by
  obtain ⟨i, hi, hframe, -⟩ := h.sound.housed.mapping?_eq_some ((h.shows.mapping? p u).trans hf)
  exact ⟨i, hi, hframe⟩

omit [FileSystem φ] in
/-- No page of others than `b` is in a frame of a page of `b`. -/
theorem Settled.clear_of_page (h : m.Settled ∅) (hi : m.scene.own b u = some i)
    (hf : (m.page i).frame = some f) : m.Clear b m.scene f := by
  rintro j (hle | ⟨q, w, hq, hj⟩) g hg hcell
  · simp [(h.shows.away hle).1] at hg
  · have hsame := h.sound.housed.eq_of_cell (h.sound.housed.mem_tenants hj hg)
      (h.sound.housed.mem_tenants hi hf) hcell
    exact hq (congrArg Tenancy.owner hsame)

/-- Between operations, the pages of others than `b` hold the same in both machines. -/
structure Shields (F : Discreet φ) (b : ProcId) (m n : Machine φ) : Prop where
  settled : m.Settled ∅
  handed : m.scene.Handed F
  veils : m.Veils F b m.scene n

/-- And they share no file with the pages of `b`. -/
structure Hides (F : Discreet φ) (S : Set Nat) (b : ProcId) (m n : Machine φ) : Prop extends
    Shields F b m n where
  parted : m.scene.Parted F S b

theorem Hides.sealed (h : m.Hides F S b n) : m.scene.Sealed F S b := ⟨h.handed, h.parted⟩

/-- The pages of others hold the same in the end if those did that were there at the start, and the
handles of new pages have been given out. -/
theorem Shields.onward (h : m.Shields F b n) (hm' : m'.Settled ∅) {may : Label → Prop}
    (hpath : Path may m.scene m'.scene) (hveils : m'.Veils F b m.scene n')
    (hnew : ∀ {q u i r}, m'.scene.own q u = some i → m.scene.own q u ≠ some i →
      (m'.scene.page i).backing.region? = some r → F.known m'.files r.file = true) :
    m'.Shields F b n' := by
  refine ⟨hm', fun {q u i r} hi hr => ?_, fun i hi => hveils.agrees i (hpath.others_subset hi), .refl _⟩
  by_cases hold : m.scene.own q u = some i
  · have hbacking := (hpath.same (h.settled.sound.owned.lt hold)).backing
    exact (hveils.files _ (h.handed hold (hbacking ▸ hr))).1
  · exact hnew hi hold hr

/-- As long as there are no new pages of files, nothing is shared. -/
theorem Hides.onward (h : m.Hides F S b n) (hm' : m'.Settled ∅) {may : Label → Prop}
    (hpath : Path may m.scene m'.scene) (hveils : m'.Veils F b m.scene n')
    (hretold : m.scene.Retold m'.scene) : m'.Hides F S b n' := by
  refine ⟨h.toShields.onward hm' hpath hveils fun hi hnew hr => absurd (hretold hi hr) hnew,
    fun {q u i r} hi hr => ?_⟩
  have hold := hretold hi hr
  have hbacking := (hpath.same (h.settled.sound.owned.lt hold)).backing
  have hr := hbacking ▸ hr
  have hfile : F.file m'.scene.files r.file = F.file m.scene.files r.file :=
    (hveils.files _ (h.handed hold hr)).2
  rw [hfile]
  exact h.parted hold hr

end Machine

namespace Kernel

open Machine View

variable {m n : Machine φ}

/-- Process `p` runs `x` and `y` side by side: they return with `R`, and what was hidden stays so. -/
def Hidden (F : Discreet φ) (S : Set Nat) (b p : ProcId) (x y : Kernel φ α) (m n : Machine φ)
    (R : α → α → Prop) : Prop :=
  Twins F S x y m n fun a m' c n' =>
    R a c ∧ m'.Hides F S b n' ∧ m'.scene.exited p = m.scene.exited p

theorem hidden_pure {R : α → α → Prop} {a c : α} (h : m.Twin F S n) (hm : m.Hides F S b n) (hR : R a c) :
    Hidden F S b p (pure a) (pure c) m n R := twins_pure h ⟨hR, hm, rfl⟩

theorem hidden_bind {R : β → β → Prop} {R' : α → α → Prop} {x y : Kernel φ β} {f g : β → Kernel φ α}
    (hx : Hidden F S b p x y m n R) (hf : ∀ a c m' n', m'.Twin F S n' → m'.Hides F S b n' →
      m'.scene.exited p = m.scene.exited p → R a c → Hidden F S b p (f a) (g c) m' n' R') :
    Hidden F S b p (x >>= f) (y >>= g) m n R' := by
  refine twins_bind hx ?_
  rintro a m' c n' h' ⟨hR, hm', hexited⟩
  refine (hf a c m' n' h' hm' hexited hR).imp ?_
  rintro a' m'' c' n'' - ⟨hR', hm'', hexited'⟩
  exact ⟨hR', hm'', hexited'.trans hexited⟩

theorem hidden_handleFault (h : m.Twin F S n) (hm : m.Hides F S b n) (hlive : m.scene.exited p = false)
    (a esp : Nat) (write : Bool) :
    Hidden F S b p (handleFault p a esp write) (handleFault p a esp write) m n Eq := by
  have hs := hm.settled
  have htwins := veiled_handleFault h hs.shows hs.sound rfl hm.sealed hm.veils p a esp write
  have hview : Ends (handleFault p a esp write) m _ (Stalls ∅ False m.scene) :=
    ends_handleFault hs.shows hs.sound rfl hlive a esp write
  refine ((htwins.left (ends_fault hs hlive a esp write)).left hview).imp ?_
  rintro result m' _ n' - ⟨⟨⟨rfl, hveils⟩, hs', hlive', -⟩, v', hm', -, hhandles⟩
  obtain rfl := hm'.eq_scene hhandles.declared
  exact ⟨rfl, hm.onward hs' hhandles.fetched.path hveils (hhandles.fetched.retold hs.sound),
    by rw [hlive', hlive]⟩

/-- A look at a page leaves the machine as it was. -/
theorem hidden_peek (h : m.Twin F S n) (hm : m.Hides F S b n) (a : Nat) (write : Bool) :
    Hidden F S b p (peek p a write) (peek p a write) m n
      (Alike (Except.map (Option.map fun _ => ())) (p ≠ b)) := by
  have htwins : Twins F S (peek p a write) (peek p a write) m n fun x m' y n' =>
      Alike (Except.map (Option.map fun _ => ())) (p ≠ b) x y ∧ m.Keeps F ∅ n m' n' := by
    refine twins_get ?_
    rw [h.lookup]
    cases hi : m.lookup p a with
    | none => exact twins_pure h ⟨.refl _ _ _, .refl _ _⟩
    | some i =>
      refine twins_page h ?_
      split
      · exact twins_pure h ⟨.refl _ _ _, .refl _ _⟩
      refine (blind_pin i).bind h fun _ m₁ n₁ h₁ hk₁ => ?_
      refine twins_page h₁ (twins_get ?_)
      refine (blind_unpin i).bind h₁ fun _ m₂ n₂ h₂ hk₂ => twins_pure h₂ ⟨?_, hk₁.trans hk₂⟩
      have hagrees : p ≠ b → m₁.Agrees n₁ i := fun hp =>
        hk₁.agrees (fun _ _ => Set.notMem_empty _) (hm.veils.agrees i (mem_others hi hp))
      cases hf : (m₁.page i).frame with
      | none => exact .refl _ _ _
      | some f => exact ⟨rfl, fun hp => by rw [Option.map_some, Option.map_some, (hagrees hp).cell f hf]⟩
  have hends := ends_peek (p := p) hm.settled a write (E := fun _ _ => True) fun _ _ _ => trivial
  refine (htwins.left hends).imp ?_
  rintro x m' y n' - ⟨⟨halike, hk⟩, rfl, -⟩
  exact ⟨halike, ⟨⟨hm.settled, hm.handed, hm.veils.keeps hk⟩, hm.parted⟩, rfl⟩

theorem hidden_load (h : m.Twin F S n) (hm : m.Hides F S b n) (a len : Nat) :
    Hidden F S b p (load p a len) (load p a len) m n (Alike (fun x => (x.1.length, x.2)) (p ≠ b)) := by
  have hs := hm.settled
  refine ((twins_load h p a len).left (ends_load hs.shows hs.sound p a len)).imp ?_
  rintro x m' y n' - ⟨⟨⟨hmask, hsame⟩, hk⟩, hm', -⟩
  have hs' := hm'.settled hs.sound rfl hs.charted hs.listed
  have hscene : m.scene = m'.scene := hm'.eq_scene rfl
  refine ⟨⟨hmask, fun hp => hsame fun u r f hf => ?_⟩,
    ⟨⟨hs', hscene ▸ hm.handed, hscene ▸ hm.veils.keeps hk⟩, hscene ▸ hm.parted⟩, by rw [hscene]⟩
  obtain ⟨i, hi, hframe⟩ := hs.exists_page hf
  exact (hm.veils.agrees i (mem_others hi hp)).cell f hframe

/-- Process `b` may store what it likes: no page of others is in its frames. -/
theorem hidden_store (h : m.Twin F S n) (hm : m.Hides F S b n) (a : Nat) {data data' : List UInt8}
    (hlen : data.length = data'.length) (hdata : p ≠ b → data = data') :
    Hidden F S b p (store p a data) (store p a data') m n Eq := by
  have hs := hm.settled
  refine ((twins_store h p a hlen).left (ends_store hs.shows hs.sound p a data)).imp ?_
  rintro fault m' _ n' - ⟨⟨rfl, hk⟩, cell, dirty, hstores, hm'⟩
  have hs' : m'.Settled ∅ := hm'.settled ((Effect.store hstores).sound hs.sound) rfl
    (hs.charted.congr rfl fun hi hr => ⟨hi, hr⟩) (hs.listed.congr rfl fun hi hr => ⟨hi, hr⟩)
  have hscene : { m.scene with cell, dirty } = m'.scene := hm'.eq_scene rfl
  have hveils : m'.Veils F b m.scene n' := by
    refine ⟨fun i hi => hk.agrees (fun g hg => ?_) (hm.veils.agrees i hi), hk.files⟩
    rintro ⟨hne, u, r, f, hf, hcell⟩
    have hp : p = b := not_not.1 fun hp => hne (hdata hp)
    obtain ⟨j, hj, hframe⟩ := hs.exists_page hf
    exact hs.clear_of_page (hp ▸ hj) hframe i hi g hg hcell.symm
  have hpath : Path (fun _ => True) m.scene m'.scene := hscene ▸ Path.single trivial (Effect.store hstores)
  refine ⟨rfl, hm.onward hs' hpath hveils ?_, by rw [← hscene]⟩
  rw [← hscene]
  exact fun hi _ => hi

/-! ### Memory handed over by user programs -/

theorem hidden_visit (h : m.Twin F S n) (hm : m.Hides F S b n) (hlive : m.scene.exited p = false)
    (a esp : Nat) (write : Bool) :
    Hidden F S b p (visit p a esp write) (visit p a esp write) m n
      (Alike (Except.map fun _ => ()) (p ≠ b)) := by
  rw [visit]
  split
  · exact hidden_pure h hm (.refl _ _ _)
  refine hidden_bind (hidden_peek h hm a write) ?_
  rintro x y m₁ n₁ h₁ hm₁ hexited ⟨hmask, hsame⟩
  rcases x with e | (_ | bytes) <;> rcases y with e' | (_ | bytes') <;> simp [Except.map] at hmask
  · obtain rfl := hmask
    exact hidden_pure h₁ hm₁ (.refl _ _ _)
  · refine hidden_bind (hidden_handleFault h₁ hm₁ (hexited.trans hlive) a esp write) ?_
    rintro result _ m₂ n₂ h₂ hm₂ - rfl
    cases result with
    | error e => exact hidden_pure h₂ hm₂ (.refl _ _ _)
    | ok _ =>
      refine hidden_bind (hidden_peek h₂ hm₂ a write) ?_
      rintro x y m₃ n₃ h₃ hm₃ - ⟨hmask, hsame⟩
      rcases x with e | (_ | bytes) <;> rcases y with e' | (_ | bytes') <;> simp [Except.map] at hmask
      · obtain rfl := hmask
        exact hidden_pure h₃ hm₃ (.refl _ _ _)
      · exact twins_throw h₃
      · exact hidden_pure h₃ hm₃ ⟨rfl, fun hp => by simpa using hsame hp⟩
  · exact hidden_pure h₁ hm₁ ⟨rfl, fun hp => by simpa using hsame hp⟩

theorem hidden_validate (h : m.Twin F S n) (hm : m.Hides F S b n) (hlive : m.scene.exited p = false)
    (a esp : Nat) (write : Bool) :
    Hidden F S b p (validate p a esp write) (validate p a esp write) m n Eq := by
  refine hidden_bind (hidden_visit h hm hlive a esp write) ?_
  rintro x y m₁ n₁ h₁ hm₁ - ⟨hmask, -⟩
  exact hidden_pure h₁ hm₁ hmask

theorem hidden_validateSpans (esp : Nat) (write : Bool) : ∀ (l : List Span) {m n : Machine φ},
    m.Twin F S n → m.Hides F S b n → m.scene.exited p = false →
    Hidden F S b p (validateSpans p esp write l) (validateSpans p esp write l) m n Eq
  | [], _, _, h, hm, _ => hidden_pure h hm rfl
  | s :: l, m, n, h, hm, hlive => by
    refine hidden_bind (hidden_validate h hm hlive s.addr esp write) ?_
    rintro result _ m₁ n₁ h₁ hm₁ hexited rfl
    cases result with
    | error e => exact hidden_pure h₁ hm₁ rfl
    | ok _ => exact hidden_validateSpans esp write l h₁ hm₁ (hexited.trans hlive)

theorem hidden_copySpans (esp : Nat) : ∀ (l : List Span) {m n : Machine φ},
    m.Twin F S n → m.Hides F S b n → m.scene.exited p = false →
    Hidden F S b p (copySpans p esp l) (copySpans p esp l) m n (Alike (Except.map List.length) (p ≠ b))
  | [], _, _, h, hm, _ => hidden_pure h hm (.refl _ _ _)
  | s :: l, m, n, h, hm, hlive => by
    refine hidden_bind (hidden_visit h hm hlive s.addr esp false) ?_
    rintro x y m₁ n₁ h₁ hm₁ hexited ⟨hmask, hsame⟩
    rcases x with e | contents <;> rcases y with e' | contents' <;> simp [Except.map] at hmask
    · obtain rfl := hmask
      exact hidden_pure h₁ hm₁ (.refl _ _ _)
    refine hidden_bind (hidden_copySpans esp l h₁ hm₁ (hexited.trans hlive)) ?_
    rintro x y m₂ n₂ h₂ hm₂ - ⟨hmask', hsame'⟩
    refine hidden_pure h₂ hm₂ ⟨?_, fun hp => ?_⟩
    · cases x <;> cases y <;> simp_all [Except.map, Bytes.length_slice]
    · rw [Except.ok.inj (hsame hp), hsame' hp]

/-- Where a string ends depends on its bytes, so that the process must not be `b`. -/
theorem hidden_scanString (hp : p ≠ b) (a esp : Nat) : ∀ (k len : Nat) {m n : Machine φ},
    m.Twin F S n → m.Hides F S b n → m.scene.exited p = false →
    Hidden F S b p (scanString p a esp k len) (scanString p a esp k len) m n Eq
  | 0, len, _, _, h, hm, _ => hidden_pure h hm rfl
  | k + 1, len, m, n, h, hm, hlive => by
    refine hidden_bind (hidden_visit h hm hlive (a + len) esp false) ?_
    rintro x y m₁ n₁ h₁ hm₁ hexited ⟨-, hsame⟩
    obtain rfl := hsame hp
    cases x with
    | error e => exact hidden_pure h₁ hm₁ rfl
    | ok contents =>
      dsimp only
      split
      · exact hidden_pure h₁ hm₁ rfl
      · exact hidden_scanString hp a esp k _ h₁ hm₁ (hexited.trans hlive)

/-! ### Accesses that are repeated -/

/-- The same outcome, for another value. -/
def Retried.map (g : α → β) : Retried α → Retried β
  | .done a faults => .done (g a) faults
  | .refused e fault faults => .refused e fault faults
  | .gaveUp => .gaveUp

@[simp] theorem Retried.map_id (r : Retried α) : r.map id = r := by cases r <;> rfl

/-- An access that ends alike is repeated equally often. -/
theorem hidden_retrying {mask : α → β} (esp : Nat) {access access' : Kernel φ (Except PageTable.Fault α)}
    (haccess : ∀ {m n : Machine φ}, m.Twin F S n → m.Hides F S b n →
      Hidden F S b p access access' m n (Alike (Except.map mask) (p ≠ b))) :
    ∀ (limit faults : Nat) {m n : Machine φ}, m.Twin F S n → m.Hides F S b n → m.scene.exited p = false →
      Hidden F S b p (retrying p esp access limit faults) (retrying p esp access' limit faults) m n
        (Alike (Retried.map mask) (p ≠ b)) := by
  intro limit
  induction limit with
  | zero =>
    intro faults m n h hm hlive
    rw [retrying, retrying]
    refine hidden_bind (haccess h hm) ?_
    rintro x y m₁ n₁ h₁ hm₁ - ⟨hmask, hsame⟩
    rcases x with fault | a <;> rcases y with fault' | a' <;> simp [Except.map] at hmask
    · exact hidden_pure h₁ hm₁ (.refl _ _ _)
    · exact hidden_pure h₁ hm₁ ⟨by simp [Retried.map, hmask], fun hp => by simpa using hsame hp⟩
  | succ limit ih =>
    intro faults m n h hm hlive
    rw [retrying, retrying]
    refine hidden_bind (haccess h hm) ?_
    rintro x y m₁ n₁ h₁ hm₁ hexited ⟨hmask, hsame⟩
    rcases x with fault | a <;> rcases y with fault' | a' <;> simp [Except.map] at hmask
    · obtain rfl := hmask
      refine hidden_bind (hidden_handleFault h₁ hm₁ (hexited.trans hlive) fault.addr esp fault.write) ?_
      rintro result _ m₂ n₂ h₂ hm₂ hexited₂ rfl
      cases result with
      | error e => exact hidden_pure h₂ hm₂ (.refl _ _ _)
      | ok _ => exact ih (faults + 1) h₂ hm₂ (hexited₂.trans (hexited.trans hlive))
    · exact hidden_pure h₁ hm₁ ⟨by simp [Retried.map, hmask], fun hp => by simpa using hsame hp⟩

theorem hidden_loadRetrying (h : m.Twin F S n) (hm : m.Hides F S b n) (hlive : m.scene.exited p = false)
    (a len esp limit : Nat) :
    Hidden F S b p (loadRetrying p a len esp limit) (loadRetrying p a len esp limit) m n
      (Alike (Retried.map List.length) (p ≠ b)) := by
  refine hidden_retrying esp (fun h hm => ?_) limit 0 h hm hlive
  refine hidden_bind (hidden_load h hm a len) ?_
  rintro ⟨bytes, fault⟩ ⟨bytes', fault'⟩ m₁ n₁ h₁ hm₁ - ⟨hmask, hsame⟩
  obtain ⟨hlen, rfl⟩ := Prod.mk.inj hmask
  refine hidden_pure h₁ hm₁ ⟨?_, fun hp => by rw [(Prod.mk.inj (hsame hp)).1]⟩
  cases fault with
  | none => exact congrArg Except.ok hlen
  | some f => rfl

theorem hidden_storeRetrying (h : m.Twin F S n) (hm : m.Hides F S b n) (hlive : m.scene.exited p = false)
    (a : Nat) {data data' : List UInt8} (hlen : data.length = data'.length) (hdata : p ≠ b → data = data')
    (esp limit : Nat) :
    Hidden F S b p (storeRetrying p a data esp limit) (storeRetrying p a data' esp limit) m n Eq := by
  have haccess : ∀ {m n : Machine φ}, m.Twin F S n → m.Hides F S b n →
      Hidden F S b p (do return (← store p a data).elim (.ok ()) .error)
        (do return (← store p a data').elim (.ok ()) .error) m n
        (Alike (Except.map (id : Unit → Unit)) (p ≠ b)) := by
    intro m n h hm
    refine hidden_bind (hidden_store h hm a hlen hdata) ?_
    rintro fault _ m₁ n₁ h₁ hm₁ - rfl
    exact hidden_pure h₁ hm₁ (.refl _ _ _)
  refine (hidden_retrying esp haccess limit 0 h hm hlive).imp ?_
  rintro x m' y n' - ⟨⟨hmask, -⟩, hm', hexited⟩
  exact ⟨by simpa using hmask, hm', hexited⟩

end Kernel

end DemandPaging
