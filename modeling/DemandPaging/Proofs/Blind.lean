import DemandPaging.Machine.Exit
import DemandPaging.Proofs.Twins

/-!
# Programs that do not depend on bytes

Pins, the clock, frames, page tables, slots, calls of files other than writes, and the declaration and
disposal of pages: what these programs do does not depend on what any frame, sector or file holds. A
few more move bytes about, and it is said of each what becomes of frames that are the same in both
runs.
-/

namespace DemandPaging

namespace Kernel

open Machine

variable {φ α : Type} [FileSystem φ] {F : Discreet φ} {S : Set Nat} {m n : Machine φ} {i : PageId}
  {p : ProcId} {f : Frame}

/-! ### Pins and loops -/

theorem blind_tryPin (i : PageId) : Blind F S (tryPin i) := by
  refine blind_bind (blind_page i) fun pg => ?_
  split
  · exact blind_pure _
  · exact blind_bind (blind_modifyPage i (fun _ => .inl rfl) (fun _ => .inl rfl) fun _ => rfl) fun _ => blind_pure _

theorem blind_pin (i : PageId) : Blind F S (pin i) := by
  refine blind_bind (blind_tryPin i) fun done => ?_
  split
  · exact blind_bind (blind_page i) fun pg => blind_throw _
  · exact blind_pure _

theorem blind_unpin (i : PageId) : Blind F S (unpin i) := by
  refine blind_bind (blind_page i) fun before => ?_
  refine blind_bind (blind_modifyPage i (fun _ => .inl rfl) (fun _ => .inl rfl) fun _ => rfl) fun _ => ?_
  split
  · exact blind_halt _
  · exact blind_pure _

theorem blind_forM {x : α → Kernel φ Unit} (hx : ∀ a, Blind F S (x a)) :
    ∀ l : List α, Blind F S (l.forM x)
  | [] => blind_pure _
  | a :: l => by
    rw [List.forM_eq_forM, List.forM_cons]
    exact blind_bind (hx a) fun _ => blind_forM hx l

/-! ### The clock -/

theorem blind_look : Blind F S (look : Kernel φ (Option Tenancy)) := by
  refine ⟨fun {m n} h => twins_get ?_⟩
  rw [← h.frames]
  generalize m.frames = table
  refine Blind.run ?_ h
  dsimp only
  cases table.current? with
  | none => exact blind_pure _
  | some e =>
    refine blind_bind (blind_setFrames (·.advance)) fun _ => blind_bind (blind_tryPin e.page) fun done => ?_
    split
    · exact blind_pure _
    refine blind_bind (blind_page e.page) fun pg => blind_bind (blind_process e.owner) fun proc => ?_
    split
    · exact blind_bind (blind_modifyTable e.owner _) fun _ =>
        blind_bind (blind_unpin e.page) fun _ => blind_pure _
    · exact blind_bind (blind_setFrames (·.remove table.hand)) fun _ => blind_pure _

theorem blind_sweep : ∀ k : Nat, Blind F S (sweep k : Kernel φ (Option Tenancy))
  | 0 => blind_pure _
  | k + 1 => by
    refine blind_bind blind_look fun taken => ?_
    cases taken with
    | some e => exact blind_pure _
    | none => exact blind_sweep k

/-! ### Frames -/

/-- A frame that is filled with zeros is the same in both runs. -/
theorem twins_takeFrame (h : m.Twin F S n) (r : Frame.Request) :
    Twins F S (takeFrame r) (takeFrame r) m n fun result m' result' n' =>
      result = result' ∧ m.Keeps F ∅ n m' n' ∧
        ∀ f, result = .ok f → r.zeroed = true → m'.pool.read f = n'.pool.read f := by
  have halloc := m.allocator.alloc_outline r
  rw [h.allocator, Allocator.alloc_outline, Prod.mk.injEq] at halloc
  obtain ⟨hresult, hallocator⟩ := halloc
  have hm := m.allocator.read_alloc r
  have hn := n.allocator.read_alloc r
  rw [hresult] at hn
  have hcell : ∀ g, m.pool.read g = n.pool.read g →
      (m.allocator.alloc r).2.pool.read g = (n.allocator.alloc r).2.pool.read g := by
    intro g hg
    have hg' : m.allocator.pool.read g = n.allocator.pool.read g := hg
    rw [hm, hn, hg']
  refine twins_bind (R := fun result m' result' n' => result = result' ∧ m.Keeps F ∅ n m' n' ∧
      ∀ f, result = .ok f → r.zeroed = true → m'.pool.read f = n'.pool.read f)
    (twins_modifyGet { h with allocator := hallocator.symm }
      ⟨hresult.symm, ⟨.of_eq rfl rfl rfl, fun g _ => hcell g, fun _ => id⟩, fun f hf hz => ?_⟩) ?_
  · show (m.allocator.alloc r).2.pool.read f = (n.allocator.alloc r).2.pool.read f
    have hf' : (m.allocator.alloc r).1 = .ok f := hf
    rw [hm, hn, hf']
    simp only [hz, and_self, if_true]
  · rintro result m₁ _ n₁ h₁ ⟨rfl, hkeeps, hzero⟩
    cases result with
    | error e => exact twins_pure h₁ ⟨rfl, hkeeps, by simp⟩
    | ok f =>
      refine twins_get ?_
      rw [h₁.inUse]
      refine twins_bind ((blind_emit _).run h₁) ?_
      rintro _ m₂ _ n₂ h₂ ⟨-, hkeeps'⟩
      refine twins_pure h₂ ⟨rfl, hkeeps.trans hkeeps', fun g hg hz => ?_⟩
      exact hkeeps'.cell g (Set.notMem_empty _) (hzero g hg hz)

theorem blind_returnFrame (f : Frame) : Blind F S (returnFrame f : Kernel φ Unit) := by
  refine ⟨fun {m n} h => twins_get ?_⟩
  have hdealloc := m.pool.dealloc_outline f
  rw [h.pool, Pool.dealloc_outline] at hdealloc
  cases hm : m.pool.dealloc f with
  | error e =>
    cases hn : n.pool.dealloc f with
    | error e' =>
      simp only [hm, hn, Except.map, Except.error.injEq] at hdealloc
      rw [hdealloc]
      exact (blind_halt _).run h
    | ok pool' => simp [hm, hn, Except.map] at hdealloc
  | ok pool =>
    cases hn : n.pool.dealloc f with
    | error e' => simp [hm, hn, Except.map] at hdealloc
    | ok pool' =>
      simp only [hm, hn, Except.map, Except.ok.injEq] at hdealloc
      have hinUse : pool'.outline.inUse = pool.outline.inUse := congrArg Pool.inUse hdealloc
      dsimp only
      rw [show pool'.inUse = pool.inUse from hinUse]
      refine twins_bind (R := fun _ m' _ n' => m.Keeps F ∅ n m' n')
        ⟨h.withPool hdealloc.symm, .of_eq rfl rfl rfl, fun g _ hg => ?_, fun _ => id⟩ ?_
      · show pool.read g = pool'.read g
        rw [Pool.read_of_dealloc hm, Pool.read_of_dealloc hn, hg]
      · intro _ m₁ _ n₁ h₁ hkeeps
        exact ((blind_emit _).run h₁).imp fun _ _ _ _ _ hrest => ⟨rfl, hkeeps.trans hrest.2⟩

theorem blind_freeFrame (f : Frame) : Blind F S (freeFrame f : Kernel φ Unit) := by
  refine ⟨fun {m n} h => twins_get ?_⟩
  rw [← h.frames]
  refine Blind.run ?_ h
  cases m.frames.position? f with
  | none => exact blind_halt _
  | some k => exact blind_bind (blind_setFrames (·.remove k)) fun _ => blind_returnFrame f

/-- A write to the same frame in both runs. -/
theorem twins_writeFrame (h : m.Twin F S n) (f : Frame) (b b' : PageBytes) :
    Twins F S (writeFrame f b) (writeFrame f b') m n fun _ m' _ n' =>
      m.Keeps F {f.cell} n m' n' ∧ (b = b' → m'.pool.read f = n'.pool.read f) := by
  have htotal := Pool.total_eq_of_outline h.pool
  refine ⟨h.withPool (by simpa using h.pool), ⟨.of_eq rfl rfl rfl, fun g hg hread => ?_, fun _ => id⟩,
    fun hb => Pool.read_write_eq htotal (fun _ => hb) fun hne => absurd rfl hne⟩
  exact Pool.read_write_eq htotal (fun heq => absurd heq.symm hg) fun _ => hread

/-! ### Page tables -/

theorem blind_mapPage (p : ProcId) (u : Nat) (f : Frame) (w : Bool) :
    Blind F S (mapPage p u f w : Kernel φ Bool) := by
  refine blind_bind (blind_process p) fun proc => ?_
  split
  · exact blind_halt _
  · exact blind_pure _
  · exact blind_bind (blind_modifyTable p _) fun _ => blind_pure _

theorem blind_unmapPage (p : ProcId) (u : Nat) : Blind F S (unmapPage p u : Kernel φ Bool) :=
  blind_bind (blind_process p) fun _ => blind_bind (blind_modifyTable p _) fun _ => blind_pure _

/-! ### Swap space -/

/-- The slot that is taken was not used. -/
theorem twins_allocateSlot (h : m.Twin F S n) :
    Twins F S (allocateSlot : Kernel φ Nat) allocateSlot m n fun s m' t n' =>
      s = t ∧ m.Keeps F ∅ n m' n' ∧ s < m.swap.slots ∧ m.swap.used.bit s = false ∧
        m'.swap.slots = m.swap.slots := by
  refine twins_get ?_
  rw [← h.swap, Swap.allocate]
  cases ha : m.swap.used.acquire with
  | none => exact twins_throw h
  | some x =>
    obtain ⟨s, used⟩ := x
    obtain ⟨hlt, hclear, -, rfl⟩ := Bitmap.acquire_eq_some ha
    refine twins_bind (twins_setSwap h rfl) ?_
    rintro _ m₁ _ n₁ h₁ ⟨hkeeps, rfl⟩
    exact twins_pure h₁ ⟨rfl, hkeeps, hlt, hclear, rfl⟩

theorem blind_releaseSlot (s : Nat) : Blind F S (releaseSlot s : Kernel φ Unit) := by
  refine ⟨fun {m n} h => twins_get ?_⟩
  rw [← h.swap]
  cases hr : m.swap.release s with
  | error e => exact (blind_halt _).run h
  | ok swap =>
    refine (twins_setSwap h ?_).imp fun _ _ _ _ _ hdone => ⟨rfl, hdone.1⟩
    exact Swap.device_of_release hr

/-- A transfer that is made or not whatever the bytes are. -/
theorem twins_transfer (h : m.Twin F S n)
    {x y : Swap → Registry → Registry × Except Swap.Misuse α}
    (hxy : ∀ s {r r' : Registry}, r.outline = r'.outline → Swap.Matches (x s r) (y s r')) :
    Twins F S (transfer x) (transfer y) m n fun a m' b n' =>
      ∃ r r', x m.swap m.devices = (r, .ok a) ∧ m' = m.withDevices r ∧
        y m.swap n.devices = (r', .ok b) ∧ n' = n.withDevices r' := by
  obtain ⟨hdevices, hresult⟩ := hxy m.swap h.devices
  have hswap : y n.swap n.devices = y m.swap n.devices := by rw [h.swap]
  refine twins_bind (R := fun a m' b n' => x m.swap m.devices = (m'.devices, a) ∧
      m' = m.withDevices m'.devices ∧ y m.swap n.devices = (n'.devices, b) ∧
        n' = n.withDevices n'.devices)
    (twins_modifyGet { h with devices := ?_ } ⟨rfl, rfl, hswap.symm, rfl⟩) ?_
  · show (x m.swap m.devices).1.outline = (y n.swap n.devices).1.outline
    rw [hswap, hdevices]
  · rintro a m₁ b n₁ h₁ ⟨hx, hm₁, hy, hn₁⟩
    rw [hx, hy] at hresult
    cases a <;> cases b <;> simp only [Except.map, Except.error.injEq, reduceCtorEq] at hresult
    · rw [hresult]
      exact twins_throw h₁
    · exact twins_pure h₁ ⟨_, _, hx, hm₁, hy, hn₁⟩

/-- The sectors of the slots of `m` lie where sector numbers are not cut off. -/
def Roomy (m : Machine φ) : Prop := ∀ s < m.swap.slots, (s + 1) * sectorsPerPage ≤ Swap.sectorLimit

/-- A frame goes to a slot that was not used, and the slot is the same in both runs if the frame is. -/
theorem twins_swapOut (h : m.Twin F S n) (hroomy : Roomy m) (f : Frame) :
    Twins F S (swapOut f) (swapOut f) m n fun s m' t n' => s = t ∧ m.Ebbs F m' ∧
      m.swap.used.bit s = false ∧ (∀ g, m.pool.read g = n.pool.read g → m'.pool.read g = n'.pool.read g) ∧
        (∀ t < m.swap.slots, t ≠ s → m.slotBytes t = n.slotBytes t → m'.slotBytes t = n'.slotBytes t) ∧
          (m.pool.read f = n.pool.read f → m'.slotBytes s = n'.slotBytes s) := by
  refine twins_bind (twins_allocateSlot h) ?_
  rintro s m₁ _ n₁ h₁ ⟨rfl, hkeeps₁, hlt, hclear, hslots⟩
  refine twins_get (twins_bind (twins_transfer h₁ fun swap _ _ hr => swap.put_matches hr s _ _) ?_)
  rintro _ m₂ _ n₂ h₂ ⟨r, r', hput, rfl, hput', rfl⟩
  obtain ⟨himage, hothers, -⟩ := Swap.put_spec hput (hroomy s hlt)
  obtain ⟨himage', hothers', -⟩ := Swap.put_spec hput' (hroomy s hlt)
  refine twins_bind ((blind_emit _).run h₂) ?_
  rintro _ m₃ _ n₃ h₃ ⟨-, hkeeps₃⟩
  have hebbs : m₁.Ebbs F (m₁.withDevices r) := .of_eq rfl rfl rfl
  have hslot : ∀ t, (n₁.withDevices r').slotBytes t = Swap.image r' m₁.swap.device t := fun t => by
    rw [slotBytes, withDevices_swap, ← h₁.swap, withDevices_devices]
  have hslot₁ : ∀ t, n₁.slotBytes t = Swap.image n₁.devices m₁.swap.device t := fun t => by
    rw [slotBytes, ← h₁.swap]
  refine twins_pure h₃ ⟨rfl, (hkeeps₁.toEbbs.trans hebbs).trans hkeeps₃.toEbbs, hclear, fun g hg => ?_,
    fun t ht hne hsame => hkeeps₃.image t ?_, fun hf => hkeeps₃.image s ?_⟩
  · exact hkeeps₃.cell g (Set.notMem_empty _) (hkeeps₁.cell g (Set.notMem_empty _) hg)
  · rw [hslot, hothers' t (hroomy t ht) hne, ← hslot₁]
    exact (hothers t (hroomy t ht) hne).trans (hkeeps₁.image t hsame)
  · rw [hslot, himage']
    exact himage.trans (hkeeps₁.cell f (Set.notMem_empty _) hf)

/-- What a slot holds goes to a frame, which is the same in both runs then if the slot was. -/
theorem twins_loadSlot (h : m.Twin F S n) (s : Nat) (f : Frame) :
    Twins F S (loadSlot s f) (loadSlot s f) m n fun _ m' _ n' => m.Keeps F {f.cell} n m' n' ∧
      (m.slotBytes s = n.slotBytes s → m'.pool.read f = n'.pool.read f) := by
  refine twins_bind (twins_transfer h fun swap _ _ hr => swap.load_matches hr s) ?_
  rintro b m₁ b' n₁ h₁ ⟨r, r', hload, rfl, hload', rfl⟩
  obtain ⟨hb, hsame⟩ := Swap.load_spec hload
  obtain ⟨hb', hsame'⟩ := Swap.load_spec hload'
  rw [h.swap] at hb' hsame'
  have hkeeps₁ : m.Keeps F {f.cell} n (m.withDevices r) (n.withDevices r') :=
    .of_eq rfl rfl (funext hsame) (funext hsame') rfl rfl rfl
  refine twins_bind (twins_writeFrame h₁ f b b') ?_
  rintro _ m₂ _ n₂ h₂ ⟨hkeeps₂, hwritten⟩
  refine ((blind_bind (blind_releaseSlot s) fun _ => blind_emit _).run h₂).imp ?_
  rintro _ m₃ _ n₃ _ ⟨-, hkeeps₃⟩
  refine ⟨(hkeeps₁.trans hkeeps₂).trans (hkeeps₃.mono (Set.empty_subset _)), fun hslot => ?_⟩
  exact hkeeps₃.cell f (Set.notMem_empty _) (hwritten (hb.trans (hslot.trans hb'.symm)))

/-! ### Files -/

theorem blind_fileLength (file : Handle) : Blind F S (fileLength file : Kernel φ Nat) := by
  refine ⟨fun {m n} h => ?_⟩
  obtain ⟨hanswer, halike⟩ := F.length h.files.alike file
  exact ⟨h.withFiles (h.files.consult (.length file) (.length file) halike), hanswer,
    ⟨fun hf => ⟨hf, rfl⟩, id, .inl, Discreet.keeps_of_consulted (.length file)⟩, fun _ _ => id, fun _ => id⟩

theorem blind_reopenFile (file : Handle) : Blind F S (reopenFile file : Kernel φ Handle) := by
  refine ⟨fun {m n} h => ?_⟩
  obtain ⟨hanswer, halike⟩ := F.reopen h.files.alike file
  exact ⟨h.withFiles (h.files.consult (.reopen file) (.reopen file) halike), hanswer,
    ⟨fun hf => ⟨hf, rfl⟩, id, .inl, Discreet.keeps_of_consulted (.reopen file)⟩, fun _ _ => id, fun _ => id⟩

theorem blind_closeFile (file : Handle) : Blind F S (closeFile file : Kernel φ Unit) := by
  refine ⟨fun {m n} h => ?_⟩
  exact ⟨h.withFiles (h.files.consult (.close file) (.close file) (F.close h.files.alike file)), rfl,
    ⟨fun hf => ⟨hf, rfl⟩, id, .inl, Discreet.keeps_of_consulted (.close file)⟩, fun _ _ => id, fun _ => id⟩

theorem blind_demandFits (r : Region) : Blind F S (demandFits r : Kernel φ Unit) := by
  rw [demandFits]
  split
  · exact blind_halt _
  · exact blind_pure _

/-- A read says the same in both runs, and gives the same bytes if the file is the same. -/
theorem twins_readRegion (h : m.Twin F S n) (r : Region) :
    Twins F S (readRegion r) (readRegion r) m n fun a m' b n' =>
      a.count = b.count ∧ m.Keeps F ∅ n m' n' ∧
        (F.known m.files r.file = true → F.file m.files r.file ∉ S → a.data = b.data) := by
  refine twins_bind ((blind_demandFits r).run h) ?_
  rintro _ m₁ _ n₁ h₁ ⟨-, hkeeps⟩
  obtain ⟨hcount, halike⟩ := F.read h₁.files.alike r.file r.offset r.readLen
  have hcall : ∀ s : φ, Consulted s (FileSystem.readAt s r.file r.offset r.readLen).2 :=
    fun s => .read r.file r.offset r.readLen
  refine twins_modifyGet (h₁.withFiles (h₁.files.consult (hcall _) (hcall _) halike))
    ⟨hcount, hkeeps.trans ⟨⟨fun hf => ⟨hf, rfl⟩, id, .inl, Discreet.keeps_of_consulted (hcall _)⟩,
      fun _ _ => id, fun _ => id⟩, fun hk hfile => ?_⟩
  obtain ⟨hk', hfile'⟩ := hkeeps.files _ hk
  exact F.readSame h₁.files.alike hk' (h₁.files.contents _ (hfile' ▸ hfile)) _ _

/-- A frame that is written back to a file that is the same in both runs must be the same too. -/
theorem twins_writeRegion (h : m.Twin F S n) (r : Region) (f : Frame)
    (hk : F.known m.files r.file = true)
    (hsame : F.file m.files r.file ∉ S → m.pool.read f = n.pool.read f) :
    Twins F S (writeRegion r f) (writeRegion r f) m n fun a m' b n' => a = b ∧ m.Keeps F ∅ n m' n' := by
  refine twins_bind ((blind_demandFits r).run h) ?_
  rintro _ m₁ _ n₁ h₁ ⟨-, hkeeps⟩
  obtain ⟨hk₁, hfile₁⟩ := hkeeps.files _ hk
  have hlen : ((m₁.pool.read f).slice 0 r.readLen).length =
      ((n₁.pool.read f).slice 0 r.readLen).length := by rw [Bytes.length_slice, Bytes.length_slice]
  refine twins_modifyGet (h₁.withFiles (h₁.files.write hk₁ r.offset hlen fun hfile => ?_))
    ⟨(F.write h₁.files.alike r.file r.offset hlen).1,
      hkeeps.trans ⟨⟨fun hf => ⟨hf, rfl⟩, id, .inl, Discreet.keeps_writeAt _ _ _ _⟩, fun _ _ => id,
        fun _ => id⟩⟩
  rw [hkeeps.cell f (Set.notMem_empty _) (hsame (hfile₁ ▸ hfile))]

/-! ### Declaring and giving up pages -/

/-- A page that is added is nowhere. -/
theorem twins_addPage (h : m.Twin F S n) {pg : Page} (hframe : pg.frame = none) (hslot : pg.slot = none) :
    Twins F S (addPage pg) (addPage pg) m n fun i m' j n' =>
      i = j ∧ ((m'.page i).frame = none ∧ (m'.page i).slot = none) ∧ m.Keeps F ∅ n m' n' := by
  have hget : ∀ j, Machine.page { m with pages := m.pages.add pg } j =
      if j = m.pages.next then pg else m.page j := m.pages.get_add pg
  refine ⟨h.addPage pg, congrArg PageStore.next h.pages, ?_,
    ⟨fun {j f} hf => ?_, fun {j s} hs => ?_, .inl, .refl _⟩, fun _ _ => id, fun _ => id⟩
  · rw [hget, if_pos rfl]
    exact ⟨hframe, hslot⟩
  · rw [hget] at hf ⊢
    split at hf
    · simp [hframe] at hf
    · rename_i hne
      rw [if_neg hne]
      exact ⟨hf, rfl⟩
  · rw [hget] at hs
    split at hs
    · simp [hslot] at hs
    · exact hs

theorem blind_declare (p : ProcId) (u : Nat) (w : Bool) (backing : Backing) :
    Blind F S (declare p u w backing : Kernel φ (Except PageError PageId)) := by
  rw [declare]
  split
  · exact blind_pure _
  split
  · exact blind_pure _
  refine blind_bind (blind_process p) fun proc => ?_
  split
  · exact blind_pure _
  refine ⟨fun {m n} h => ?_⟩
  refine twins_bind (twins_addPage h rfl rfl) ?_
  rintro i m₁ _ n₁ h₁ ⟨rfl, haway, hkeeps⟩
  refine twins_bind (R := fun _ m' _ n' => m₁.Keeps F ∅ n₁ m' n')
    ⟨h₁.withProcess p _, .withProcess m₁ p fun proc x j hj => ?_, fun _ _ => id, fun _ => id⟩ ?_
  · rw [Std.ExtTreeMap.getElem?_insert] at hj
    split at hj
    · rw [← Option.some.inj hj]
      exact .inr haway
    · exact .inl hj
  · intro _ m₂ _ n₂ h₂ hkeeps'
    exact twins_pure h₂ ⟨rfl, hkeeps.trans hkeeps'⟩

theorem blind_declareRegion (p : ProcId) (u : Nat) (w : Bool) (kind : Region → Backing) (r : Region) :
    Blind F S (declareRegion p u w kind r : Kernel φ (Except PageError PageId)) := by
  rw [declareRegion]
  split
  · exact blind_pure _
  · exact blind_declare p u w _

theorem blind_forget (p : ProcId) (u : Nat) : Blind F S (forget p u : Kernel φ (Option PageId)) := by
  refine blind_bind (blind_process p) fun proc => ?_
  refine blind_bind (blind_modifyProcess p fun proc w i hi => ?_) fun _ => blind_pure _
  rw [Std.ExtTreeMap.getElem?_erase] at hi
  split at hi
  · simp at hi
  · exact hi

theorem blind_install (p : ProcId) (i : PageId) (f : Frame) :
    Blind F S (install p i f : Kernel φ (Except PageError Unit)) := by
  refine blind_bind (blind_page i) fun pg => blind_bind (blind_mapPage p _ f _) fun done => ?_
  split
  · exact blind_pure _
  · exact blind_bind (blind_freeFrame f) fun _ => blind_pure _

theorem blind_declareTiles (p : ProcId) (addr : Nat) : ∀ (rs : List Region) (pages : Array Nat),
    Blind F S (declareTiles p addr rs pages : Kernel φ _)
  | [], _ => blind_pure _
  | r :: rs, pages => by
    refine blind_bind (blind_declareRegion p _ true _ _) fun result => ?_
    cases result with
    | error e => exact blind_pure _
    | ok _ => exact blind_declareTiles p addr rs _

theorem blind_discard (p : ProcId) (i : PageId) : Blind F S (discard p i : Kernel φ Unit) := by
  refine blind_bind (blind_pin i) fun _ => blind_bind (blind_page i) fun before => ?_
  refine blind_bind (blind_modifyPage i (fun _ => .inr rfl) (fun _ => .inr rfl) fun _ => rfl) fun _ => ?_
  cases before.frame with
  | none =>
    cases before.slot with
    | none => exact blind_unpin i
    | some s => exact blind_bind (blind_releaseSlot s) fun _ => blind_unpin i
  | some f =>
    refine blind_bind (blind_unmapPage p _) fun _ => blind_bind (blind_freeFrame f) fun _ => ?_
    cases before.slot with
    | none => exact blind_unpin i
    | some s => exact blind_bind (blind_releaseSlot s) fun _ => blind_unpin i

theorem blind_destroy (p : ProcId) : Blind F S (destroy p : Kernel φ Unit) := by
  refine blind_bind (blind_process p) fun proc => ?_
  refine blind_bind (blind_modifyProcess p fun proc w i hi => by simp at hi) fun _ => ?_
  refine blind_bind (blind_forM (blind_discard p) _) fun _ => ?_
  exact blind_bind (blind_process p) fun proc => blind_emit _

end Kernel

end DemandPaging
