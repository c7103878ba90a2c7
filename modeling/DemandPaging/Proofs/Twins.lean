import DemandPaging.Proofs.Discreet
import DemandPaging.Proofs.Outline
import DemandPaging.Proofs.View

/-!
# Two runs side by side

Two machines are twins if they differ in bytes alone: in what frames, sectors and files hold, and of
the files only in those of a set `S`. `Twins x y m n Q` runs `x` from `m` and `y` from `n`: both
return, with `Q`, or both stop for the same reason, and what they leave behind are twins again. There
is one law for each way a program is built, and `Blind` is what almost all programs are: what they do
does not depend on bytes at all.
-/

namespace DemandPaging

variable {φ α β : Type} [FileSystem φ] {F : Discreet φ} {S : Set Nat}

namespace Machine

/-- The machines differ in bytes alone, and the files that are not in `S` are the same in both. -/
structure Twin (F : Discreet φ) (S : Set Nat) (m n : Machine φ) : Prop where
  allocator : m.allocator.outline = n.allocator.outline
  frames : m.frames = n.frames
  swap : m.swap = n.swap
  devices : m.devices.outline = n.devices.outline
  pages : m.pages = n.pages
  processes : m.processes = n.processes
  files : F.Same S m.files n.files
  log : m.log = n.log

/-- The bytes of slot `s`, used or not. -/
def slotBytes (m : Machine φ) (s : Nat) : PageBytes := Swap.image m.devices m.swap.device s

/-- What page `i` holds is the same in both machines. -/
structure Agrees (m n : Machine φ) (i : PageId) : Prop where
  cell : ∀ f, (m.page i).frame = some f → m.pool.read f = n.pool.read f
  slot : ∀ s, (m.page i).slot = some s → m.slotBytes s = n.slotBytes s

/-- On the way from `m` to `m'` no page has come into memory or into a slot, and the file handles lead
where they led. -/
structure Ebbs (F : Discreet φ) (m m' : Machine φ) : Prop where
  frame : ∀ {i f}, (m'.page i).frame = some f →
    (m.page i).frame = some f ∧ (m'.page i).backing = (m.page i).backing
  slot : ∀ {i s}, (m'.page i).slot = some s → (m.page i).slot = some s
  declared : ∀ {q u i}, m'.declaredAt q u = some i →
    m.declaredAt q u = some i ∨ (m'.page i).frame = none ∧ (m'.page i).slot = none
  files : F.Keeps m.files m'.files

/-- On the way from `m` and `n` to `m'` and `n'`, moreover, what was the same in both has stayed so, but
for the frames in the cells `C`. -/
structure Keeps (F : Discreet φ) (C : Set Nat) (m n m' n' : Machine φ) : Prop extends Ebbs F m m' where
  cell : ∀ f : Frame, f.cell ∉ C → m.pool.read f = n.pool.read f → m'.pool.read f = n'.pool.read f
  image : ∀ s, m.slotBytes s = n.slotBytes s → m'.slotBytes s = n'.slotBytes s

variable {m n m' n' m'' n'' : Machine φ}

namespace Twin

theorem page (h : m.Twin F S n) (i : PageId) : n.page i = m.page i := by
  rw [Machine.page, Machine.page, h.pages]

theorem process (h : m.Twin F S n) (p : ProcId) : n.process p = m.process p := by
  rw [Machine.process, Machine.process, h.processes]

theorem lookup (h : m.Twin F S n) (p : ProcId) (a : Nat) : n.lookup p a = m.lookup p a := by
  rw [Machine.lookup, Machine.lookup, h.process]

theorem declaredAt (h : m.Twin F S n) : n.declaredAt = m.declaredAt := by
  funext p u
  rw [Machine.declaredAt, Machine.declaredAt, h.process]

theorem pool (h : m.Twin F S n) : m.pool.outline = n.pool.outline :=
  congrArg Allocator.pool h.allocator

theorem inUse (h : m.Twin F S n) : n.pool.inUse = m.pool.inUse := (congrArg Pool.inUse h.pool).symm

theorem lent (h : m.Twin F S n) (c : Nat) : n.pool.lent c = m.pool.lent c := by
  rw [← Pool.lent_outline, ← h.pool, Pool.lent_outline]

theorem withPool (h : m.Twin F S n) {pool pool' : Pool} (hpool : pool.outline = pool'.outline) :
    (m.withPool pool).Twin F S (n.withPool pool') := by
  have hallocator : (m.withPool pool).allocator.outline = (n.withPool pool').allocator.outline := by
    have hgate := h.allocator
    simp only [Allocator.outline, Allocator.mk.injEq] at hgate
    simp [Machine.withPool, withAllocator, Allocator.outline, hpool, hgate.2]
  exact { h with allocator := hallocator }

theorem withPage (h : m.Twin F S n) (i : PageId) (f : Page → Page) :
    (m.withPage i f).Twin F S (n.withPage i f) :=
  { h with pages := congrArg (·.modify i f) h.pages }

theorem addPage (h : m.Twin F S n) (pg : Page) :
    Twin F S { m with pages := m.pages.add pg } { n with pages := n.pages.add pg } :=
  { h with pages := congrArg (·.add pg) h.pages }

theorem withProcess (h : m.Twin F S n) (p : ProcId) (f : Process → Process) :
    (m.withProcess p f).Twin F S (n.withProcess p f) :=
  { h with processes := congrArg (·.modify p f) h.processes }

theorem withFiles (h : m.Twin F S n) {s t : φ} (hst : F.Same S s t) :
    (m.withFiles s).Twin F S (n.withFiles t) := { h with files := hst }

theorem report (h : m.Twin F S n) (e : Event) : (m.report e).Twin F S (n.report e) :=
  { h with log := congrArg (·.push e) h.log }

end Twin

namespace Ebbs

theorem refl (m : Machine φ) : m.Ebbs F m := ⟨fun hf => ⟨hf, rfl⟩, id, .inl, .refl _⟩

theorem trans (h : m.Ebbs F m') (h' : m'.Ebbs F m'') : m.Ebbs F m'' where
  frame hf := by
    obtain ⟨hf', hb'⟩ := h'.frame hf
    obtain ⟨hf, hb⟩ := h.frame hf'
    exact ⟨hf, hb'.trans hb⟩
  slot hs := h.slot (h'.slot hs)
  declared {q u i} hi := by
    rcases h'.declared hi with hi' | haway
    · refine (h.declared hi').imp_right fun haway => ?_
      refine ⟨Option.eq_none_iff_forall_ne_some.2 fun f hf => ?_,
        Option.eq_none_iff_forall_ne_some.2 fun s hs => ?_⟩
      · rw [(h'.frame hf).1] at haway
        simp at haway
      · rw [h'.slot hs] at haway
        simp at haway
    · exact .inr haway
  files := h.files.trans h'.files

/-- Nothing has been done to pages and to files. -/
theorem of_eq (hpages : m'.pages = m.pages) (hprocesses : m'.processes = m.processes)
    (hfiles : m'.files = m.files) : m.Ebbs F m' := by
  have hpage : ∀ i, m'.page i = m.page i := fun i => by rw [Machine.page, hpages, Machine.page]
  refine ⟨fun {i f} hf => ?_, fun {i s} hs => ?_, fun hi => ?_, by rw [hfiles]; exact .refl _⟩
  · rw [hpage] at hf ⊢
    exact ⟨hf, rfl⟩
  · rwa [hpage] at hs
  · rw [declaredAt, Machine.process, hprocesses] at hi
    exact .inl hi

/-- A page has been changed, which has left memory perhaps, or its slot, but not come in. -/
theorem withPage (m : Machine φ) (i : PageId) {f : Page → Page}
    (hframe : ∀ pg, (f pg).frame = pg.frame ∨ (f pg).frame = none)
    (hslot : ∀ pg, (f pg).slot = pg.slot ∨ (f pg).slot = none)
    (hbacking : ∀ pg, (f pg).backing = pg.backing) : m.Ebbs F (m.withPage i f) where
  frame {j g} hg := by
    rw [page_withPage] at hg ⊢
    split at hg
    · rename_i h
      rw [if_pos h]
      rcases hframe (m.page j) with hsame | hnone
      · exact ⟨hsame ▸ hg, hbacking _⟩
      · simp [hnone] at hg
    · rename_i h
      rw [if_neg h]
      exact ⟨hg, rfl⟩
  slot {j s} hs := by
    rw [page_withPage] at hs
    split at hs
    · rcases hslot (m.page j) with hsame | hnone
      · exact hsame ▸ hs
      · simp [hnone] at hs
    · exact hs
  declared := .inl
  files := .refl _

/-- A process has been changed, which has declared only pages that are nowhere. -/
theorem withProcess (m : Machine φ) (p : ProcId) {f : Process → Process}
    (hdeclared : ∀ (proc : Process) (u : Nat) i, (f proc).declared[u]? = some i →
      proc.declared[u]? = some i ∨ (m.page i).frame = none ∧ (m.page i).slot = none) :
    m.Ebbs F (m.withProcess p f) where
  frame hg := ⟨hg, rfl⟩
  slot := id
  declared {q u i} hi := by
    rw [declaredAt, process_withProcess] at hi
    split at hi
    · exact hdeclared _ _ _ hi
    · exact .inl hi
  files := .refl _

end Ebbs

namespace Keeps

variable {C C' : Set Nat}

theorem refl (m n : Machine φ) : m.Keeps F C n m n := ⟨.refl m, fun _ _ h => h, fun _ => id⟩

theorem trans (h : m.Keeps F C n m' n') (h' : m'.Keeps F C n' m'' n'') : m.Keeps F C n m'' n'' :=
  ⟨h.toEbbs.trans h'.toEbbs, fun f hc hf => h'.cell f hc (h.cell f hc hf),
    fun s hs => h'.image s (h.image s hs)⟩

theorem mono (h : m.Keeps F C n m' n') (hsub : C ⊆ C') : m.Keeps F C' n m' n' :=
  ⟨h.toEbbs, fun f hc => h.cell f fun hin => hc (hsub hin), h.image⟩

/-- Nothing has been done to memory, to swap space, to pages and to files. -/
theorem of_eq (hpool : m'.pool = m.pool) (hpool' : n'.pool = n.pool) (hslot : m'.slotBytes = m.slotBytes)
    (hslot' : n'.slotBytes = n.slotBytes) (hpages : m'.pages = m.pages)
    (hprocesses : m'.processes = m.processes) (hfiles : m'.files = m.files) : m.Keeps F C n m' n' :=
  ⟨.of_eq hpages hprocesses hfiles, fun f _ hf => by rw [hpool, hpool', hf],
    fun s hs => by rw [hslot, hslot', hs]⟩

/-- A page that is in none of the cells holds the same still. -/
theorem agrees (h : m.Keeps F C n m' n') {i : PageId}
    (hout : ∀ f, (m.page i).frame = some f → f.cell ∉ C) (hi : m.Agrees n i) : m'.Agrees n' i where
  cell f hf := by
    obtain ⟨hf, -⟩ := h.frame hf
    exact h.cell f (hout f hf) (hi.cell f hf)
  slot s hs := h.image s (hi.slot s (h.slot hs))

end Keeps

end Machine

namespace Kernel

open Machine

/-- Side by side, `x` from `m` and `y` from `n` return with `Q`, or stop for the same reason, and leave
twins behind. -/
def Twins (F : Discreet φ) (S : Set Nat) (x y : Kernel φ α) (m n : Machine φ)
    (Q : α → Machine φ → α → Machine φ → Prop) : Prop :=
  match x m, y n with
  | .ok a m', .ok b n' => m'.Twin F S n' ∧ Q a m' b n'
  | .error e m', .error e' n' => e = e' ∧ m'.Twin F S n'
  | _, _ => False

variable {x y : Kernel φ α} {m n : Machine φ} {Q Q' : α → Machine φ → α → Machine φ → Prop}

theorem Twins.imp (h : Twins F S x y m n Q)
    (hQ : ∀ a m' b n', m'.Twin F S n' → Q a m' b n' → Q' a m' b n') : Twins F S x y m n Q' := by
  unfold Twins at h ⊢
  split
  · rename_i hx hy
    rw [hx, hy] at h
    exact ⟨h.1, hQ _ _ _ _ h.1 h.2⟩
  · rename_i hx hy
    rwa [hx, hy] at h
  · rename_i hok herror
    split at h
    · exact (hok _ _ _ _ ‹_› ‹_›).elim
    · exact (herror _ _ _ _ ‹_› ‹_›).elim
    · exact h

theorem Twins.of_ok {a b : α} {m' n' : Machine φ} (h : Twins F S x y m n Q) (hx : x m = .ok a m')
    (hy : y n = .ok b n') : m'.Twin F S n' ∧ Q a m' b n' := by
  unfold Twins at h
  rwa [hx, hy] at h

/-- What is known of the first run alone is known of the two. -/
theorem Twins.left {P : α → Machine φ → Prop} {E : Stop → Machine φ → Prop}
    (h : Twins F S x y m n Q) (hx : Ends x m P E) :
    Twins F S x y m n fun a m' b n' => Q a m' b n' ∧ P a m' := by
  unfold Twins at h ⊢
  unfold Ends at hx
  cases hxm : x m <;> cases hyn : y n <;> simp only [hxm, hyn] at h hx ⊢
  · exact ⟨h.1, h.2, hx⟩
  · exact h

theorem Twins.right {P : α → Machine φ → Prop} {E : Stop → Machine φ → Prop}
    (h : Twins F S x y m n Q) (hy : Ends y n P E) :
    Twins F S x y m n fun a m' b n' => Q a m' b n' ∧ P b n' := by
  unfold Twins at h ⊢
  unfold Ends at hy
  cases hxm : x m <;> cases hyn : y n <;> simp only [hxm, hyn] at h hy ⊢
  · exact ⟨h.1, h.2, hy⟩
  · exact h

/-! ### One law for each way a program is built -/

theorem twins_pure {a b : α} (h : m.Twin F S n) (hQ : Q a m b n) :
    Twins F S (pure a) (pure b) m n Q := ⟨h, hQ⟩

theorem twins_throw {e : Stop} (h : m.Twin F S n) : Twins F S (throw e) (throw e) m n Q := ⟨rfl, h⟩

theorem twins_bind {R : β → Machine φ → β → Machine φ → Prop} {x y : Kernel φ β}
    {f g : β → Kernel φ α} (hx : Twins F S x y m n R)
    (hf : ∀ a m' b n', m'.Twin F S n' → R a m' b n' → Twins F S (f a) (g b) m' n' Q) :
    Twins F S (x >>= f) (y >>= g) m n Q := by
  unfold Twins at hx ⊢
  simp only [bind, EStateM.bind]
  cases hxm : x m <;> cases hyn : y n <;> simp only [hxm, hyn] at hx ⊢
  · exact hf _ _ _ _ hx.1 hx.2
  · exact hx

theorem twins_get {f g : Machine φ → Kernel φ α} (h : Twins F S (f m) (g n) m n Q) :
    Twins F S (get >>= f) (get >>= g) m n Q := h

/-- Reading a page gives both runs the same page. -/
theorem twins_page {i : PageId} {f g : Page → Kernel φ α} (h : m.Twin F S n)
    (hfg : Twins F S (f (m.page i)) (g (m.page i)) m n Q) :
    Twins F S (page i >>= f) (page i >>= g) m n Q := by
  refine twins_get ?_
  rw [h.page i]
  exact hfg

theorem twins_process {p : ProcId} {f g : Process → Kernel φ α} (h : m.Twin F S n)
    (hfg : Twins F S (f (m.process p)) (g (m.process p)) m n Q) :
    Twins F S (process p >>= f) (process p >>= g) m n Q := by
  refine twins_get ?_
  rw [h.process p]
  exact hfg

theorem twins_modifyGet {f g : Machine φ → α × Machine φ} (h : (f m).2.Twin F S (g n).2)
    (hQ : Q (f m).1 (f m).2 (g n).1 (g n).2) : Twins F S (modifyGet f) (modifyGet g) m n Q := ⟨h, hQ⟩

/-! ### Programs that do not depend on bytes -/

/-- Twins do the same in the program, and what is the same in both stays so. -/
structure Blind (F : Discreet φ) (S : Set Nat) (x : Kernel φ α) : Prop where
  run : ∀ {m n : Machine φ}, m.Twin F S n →
    Twins F S x x m n fun a m' b n' => a = b ∧ m.Keeps F ∅ n m' n'

/-- What comes after such a program. -/
theorem Blind.bind {x : Kernel φ β} {f g : β → Kernel φ α} (hx : Blind F S x) (h : m.Twin F S n)
    (hfg : ∀ a m' n', m'.Twin F S n' → m.Keeps F ∅ n m' n' → Twins F S (f a) (g a) m' n' Q) :
    Twins F S (x >>= f) (x >>= g) m n Q := by
  refine twins_bind (hx.run h) ?_
  rintro a m' _ n' h' ⟨rfl, hkeeps⟩
  exact hfg a m' n' h' hkeeps

/-- The same, with what is known of the first run. -/
theorem Blind.bind_of_ends {x : Kernel φ β} {f g : β → Kernel φ α} (hx : Blind F S x) (h : m.Twin F S n)
    {P : β → Machine φ → Prop} {E : Stop → Machine φ → Prop} (hends : Ends x m P E)
    (hfg : ∀ a m' n', m'.Twin F S n' → m.Keeps F ∅ n m' n' → P a m' → Twins F S (f a) (g a) m' n' Q) :
    Twins F S (x >>= f) (x >>= g) m n Q := by
  refine twins_bind ((hx.run h).left hends) ?_
  rintro a m' _ n' h' ⟨⟨rfl, hkeeps⟩, hP⟩
  exact hfg a m' n' h' hkeeps hP

theorem blind_pure (a : α) : Blind F S (pure a) := ⟨fun h => twins_pure h ⟨rfl, .refl _ _⟩⟩

theorem blind_throw (e : Stop) : Blind F S (throw e : Kernel φ α) := ⟨fun h => twins_throw h⟩

theorem blind_halt (cause : Halt) : Blind F S (halt cause : Kernel φ α) := blind_throw _

theorem blind_bind {x : Kernel φ β} {f : β → Kernel φ α} (hx : Blind F S x)
    (hf : ∀ a, Blind F S (f a)) : Blind F S (x >>= f) := by
  refine ⟨fun {m n} h => ?_⟩
  refine twins_bind (hx.run h) ?_
  rintro a m' _ n' h' ⟨rfl, hkeeps⟩
  refine ((hf a).run h').imp ?_
  rintro _ _ _ _ _ ⟨rfl, hkeeps'⟩
  exact ⟨rfl, hkeeps.trans hkeeps'⟩

theorem blind_page (i : PageId) : Blind F S (page i : Kernel φ Page) :=
  ⟨fun h => ⟨h, (h.page i).symm, .refl _ _⟩⟩

theorem blind_process (p : ProcId) : Blind F S (process p : Kernel φ Process) :=
  ⟨fun h => ⟨h, (h.process p).symm, .refl _ _⟩⟩

theorem blind_emit (e : Event) : Blind F S (emit e : Kernel φ Unit) :=
  ⟨fun h => ⟨h.report e, rfl, .of_eq rfl rfl rfl rfl rfl rfl rfl⟩⟩

theorem blind_modifyPage (i : PageId) {f : Page → Page}
    (hframe : ∀ pg, (f pg).frame = pg.frame ∨ (f pg).frame = none)
    (hslot : ∀ pg, (f pg).slot = pg.slot ∨ (f pg).slot = none)
    (hbacking : ∀ pg, (f pg).backing = pg.backing) :
    Blind F S (modifyPage i f : Kernel φ Unit) :=
  ⟨fun h => ⟨h.withPage i f, rfl, .withPage _ i hframe hslot hbacking, fun _ _ => id, fun _ => id⟩⟩

theorem blind_modifyProcess (p : ProcId) {f : Process → Process}
    (hdeclared : ∀ (proc : Process) (u : Nat) i,
      (f proc).declared[u]? = some i → proc.declared[u]? = some i) :
    Blind F S (modifyProcess p f : Kernel φ Unit) :=
  ⟨fun h => ⟨h.withProcess p f, rfl, .withProcess _ p fun _ _ _ hi => .inl (hdeclared _ _ _ hi),
    fun _ _ => id, fun _ => id⟩⟩

theorem blind_modifyTable (p : ProcId) (f : PageTable → PageTable) :
    Blind F S (modifyTable p f : Kernel φ Unit) :=
  ⟨fun h => ⟨h.withProcess p _, rfl, .withProcess _ p fun _ _ _ hi => .inl hi, fun _ _ => id,
    fun _ => id⟩⟩

theorem blind_setFrames (f : FrameTable → FrameTable) :
    Blind F S (modify fun m => { m with frames := f m.frames } : Kernel φ Unit) :=
  ⟨fun h => ⟨{ h with frames := congrArg f h.frames }, rfl, .of_eq rfl rfl rfl rfl rfl rfl rfl⟩⟩

/-- Other slots may be used, but of the same device. -/
theorem twins_setSwap (h : m.Twin F S n) {s : Swap} (hdevice : s.device = m.swap.device) :
    Twins F S (modify fun m => { m with swap := s } : Kernel φ Unit)
      (modify fun m => { m with swap := s } : Kernel φ Unit) m n fun _ m' _ n' =>
        m.Keeps F ∅ n m' n' ∧ m' = m.withSwap s := by
  have hslot : ∀ {m : Machine φ}, s.device = m.swap.device → (m.withSwap s).slotBytes = m.slotBytes := by
    intro m hm
    funext t
    rw [slotBytes, slotBytes, withSwap_swap, withSwap_devices, hm]
  exact ⟨{ h with swap := rfl },
    .of_eq rfl rfl (hslot hdevice) (hslot (hdevice.trans (congrArg Swap.device h.swap))) rfl rfl rfl, rfl⟩

end Kernel

end DemandPaging
