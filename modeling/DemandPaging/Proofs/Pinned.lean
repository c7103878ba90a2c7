import DemandPaging.Proofs.SecondChance

/-!
# Pages that are held

A page that a caller holds stays where it is, whatever is asked of the machine meanwhile and however
little memory there is. That its entry in the page table stays the same, accessed bit included, takes an
argument of its own, since the clock clears the bits of other pages: neither its choice nor the pages that
it spares are pinned. All the rest is known of what single operations do.
-/

namespace DemandPaging

namespace Machine

variable {φ : Type} {m m' m'' : Machine φ} {v : View φ} {held : Set PageId} {p q : ProcId} {u w : Nat}
  {i : PageId} {e : Tenancy} {f : Frame}

/-! ### Entries of page tables -/

/-- The entry of the page table of process `q` for address `w`, if there is one, is the same. -/
def KeepsEntry (q : ProcId) (w : Nat) (m m' : Machine φ) : Prop :=
  ∀ x, m.pte? q w = some x → m'.pte? q w = some x

theorem keepsEntry_of_table (h : (m'.process q).table = (m.process q).table) : m.KeepsEntry q w m' := by
  intro x hx
  rw [pte?, h]
  exact hx

theorem table_withProcess (m : Machine φ) (p : ProcId) (f : Process → Process) (q : ProcId)
    (hf : ∀ proc, (f proc).table = proc.table) :
    ((m.withProcess p f).process q).table = (m.process q).table := by
  rw [process_withProcess]
  split
  · exact hf _
  · rfl

theorem keepsEntry_withProcess (m : Machine φ) (p : ProcId) {f : Process → Process}
    (hf : ∀ proc, (f proc).table = proc.table) : m.KeepsEntry q w (m.withProcess p f) :=
  keepsEntry_of_table (table_withProcess m p f q hf)

instance : Kernel.Frees (KeepsEntry (φ := φ) q w) where
  refl _ _ := id
  trans _ _ _ h h' x hx := h' x (h x hx)
  report _ _ := keepsEntry_of_table rfl
  page _ _ _ _ := keepsEntry_of_table rfl
  memory _ _ := keepsEntry_of_table rfl
  slots _ _ := keepsEntry_of_table rfl
  devices _ _ := keepsEntry_of_table rfl
  entries _ _ := keepsEntry_of_table rfl

instance : Kernel.Installs p (KeepsEntry (φ := φ) q w) where
  map m {u f wr t} ht x hx := by
    rw [pte?, withTable, process_withProcess]
    split
    · rename_i hq
      obtain ⟨rfl, -⟩ := hq
      exact PageTable.entries_map ht hx
    · exact hx

theorem recedes_keepsEntry {us : Set Nat} (h : p = q → w ∉ us) :
    Kernel.Recedes p us (KeepsEntry (φ := φ) q w) where
  unmap m u hu x hx := by
    rw [pte?_unmap, if_neg, hx]
    rintro ⟨rfl, rfl⟩
    exact h rfl hu
  process m _ hf := keepsEntry_withProcess m p fun proc => (hf proc).1

theorem KeepsEntry.accessed (h : m.KeepsEntry q w m') (ha : (m.process q).table.isAccessed w = true) :
    (m'.process q).table.isAccessed w = true := by
  rw [isAccessed_eq] at ha ⊢
  cases hx : m.pte? q w with
  | none => simp [hx] at ha
  | some x =>
    rw [hx] at ha
    rw [h x hx]
    exact ha

/-- An entry that is not pinned is not that of a page that is held. -/
theorem Shows.not_lodges (h : m.Shows v held) (hv : v.Sound) (hmem : i ∈ held) (hi : v.own q w = some i)
    (he : e ∈ m.frames.entries ∧ (m.page e.page).pinned = false) : ¬ m.Lodges e q w := by
  rintro ⟨rfl, hupage⟩
  obtain ⟨u, hu, -⟩ := (hv.housed.listed e.frame e.owner e.page).1 (h.tenants ▸ Multiset.mem_coe.2 he.1)
  rw [h.upage, hv.owned.upage hu] at hupage
  subst hupage
  obtain rfl := Option.some.inj (hi.symm.trans hu)
  have hpinned := (h.fit.pinned _).2 hmem
  simp [he.2] at hpinned

end Machine

namespace Kernel

open Machine

variable {φ : Type} [FileSystem φ] {m m' : Machine φ} {v : View φ} {held : Set PageId} {p q : ProcId}
  {u w : Nat} {i j : PageId} {f : Frame} {op : Op} {answer : Answer}

/-! ### What an eviction leaves of a page that is held, and all that evicts -/

theorem goes_evict (h : m.Shows v held) (hv : v.Sound) (hmem : i ∈ held) (hi : v.own q w = some i) :
    Goes (KeepsEntry q w) evict m := by
  cases hchoice : m.choice with
  | none =>
    rw [Goes, ends_of_eq (evict_of_choice_none h hv hchoice)]
    exact fun _ => id
  | some e =>
    have hkeeps : ∀ {t m'}, m.Ousts e t m' → m.KeepsEntry q w m' := fun housts x hx => by
      rw [housts.other q w (h.not_lodges hv hmem hi (mem_of_choice hchoice))
        fun e' he' => h.not_lodges hv hmem hi (mem_of_spared he'), hx]
    exact (ends_evict_of_choice h hv hchoice).imp (fun _ _ h => hkeeps h.2) fun _ _ h => hkeeps h

/-! ### Mapping files -/

omit [FileSystem φ] in
theorem moves_modifyProcess_of_table (p : ProcId) {f : Process → Process}
    (hf : ∀ proc, (f proc).table = proc.table) : Moves (KeepsEntry (φ := φ) q w) (modifyProcess p f) :=
  moves_modify fun m => keepsEntry_withProcess m p hf

omit [FileSystem φ] in
theorem moves_declare (p : ProcId) (u : Nat) (wr : Bool) (b : Backing) :
    Moves (KeepsEntry (φ := φ) q w) (declare p u wr b) := by
  refine moves_ite (moves_pure _) (moves_ite (moves_pure _) ?_)
  refine moves_bind (moves_process p) fun _ => moves_ite (moves_pure _) ?_
  refine moves_bind (moves_modifyGet fun m => keepsEntry_of_table rfl) fun _ => ?_
  exact moves_bind (moves_modifyProcess_of_table p fun _ => rfl) fun _ => moves_pure _

omit [FileSystem φ] in
theorem moves_declareTiles (p : ProcId) (addr : Nat) : ∀ (rs : List Region) (pages : Array Nat),
    Moves (KeepsEntry (φ := φ) q w) (declareTiles p addr rs pages)
  | [], _ => moves_pure _
  | r :: rs, pages => moves_bind (moves_ite (moves_pure _) (moves_declare p _ _ _)) fun result => by
    cases result with
    | error e => exact moves_pure _
    | ok _ => exact moves_declareTiles p addr rs _

/-- The pages that are given up when a mapping fails have only just been declared. -/
theorem goes_mapFile_of_held (h : m.Shows v held) (hv : v.Sound) (hdeclared : v.declared = v.own)
    (hlive : v.exited p = false) (hi : v.own q w = some i) (t : MapTable) (file : Handle) (addr : Nat) :
    Goes (KeepsEntry q w) (mapFile t p file addr) m := by
  have hfiles : ∀ (m : Machine φ) files, m.KeepsEntry q w (m.withFiles files) := fun _ _ =>
    keepsEntry_of_table rfl
  rw [mapFile]
  split
  · exact moves_pure _ m
  refine goes_bind (moves_modifyGet (fun m => hfiles m _) m) fun len m₁ hrun => ?_
  obtain ⟨-, h₁⟩ := (ends_fileLength (E := fun _ _ => True) h file).of_ok hrun
  split
  · exact moves_pure _ m₁
  split
  · exact moves_pure _ m₁
  refine goes_bind (moves_modifyGet (fun m => hfiles m _) m₁) fun handle m₂ hrun => ?_
  obtain ⟨-, h₂⟩ := (ends_reopenFile (E := fun _ _ => True) h₁ file).of_ok hrun
  refine goes_bind (moves_declareTiles p addr _ _ m₂) fun result m₃ hrun => ?_
  obtain ⟨pages, failure⟩ := result
  set v₂ := (v.setFiles (FileSystem.length v.files file).2).setFiles _ with hv₂
  have hlive₂ : v₂.exited p = false := hlive
  have htiles := ends_declareTiles (E := fun _ _ => True) hlive₂ handle addr (tiles handle len) #[] h₂
    ((hv.setFiles _).setFiles _) (.nil v₂ p handle hdeclared)
    fun r hr => ⟨file_of_mem_tiles hr, readLen_add_zeroLen_of_mem_tiles hr⟩
  obtain ⟨v₃, -, ht, -⟩ := htiles.of_ok hrun
  cases failure with
  | none => exact moves_bind (moves_process p) (fun _ => moves_bind (moves_emit _) fun _ => moves_pure _) m₃
  | some e =>
    have : Recedes p {u | u ∈ pages.toList} (KeepsEntry (φ := φ) q w) :=
      recedes_keepsEntry fun hpq hw => by
        have hfresh : v.own p w = none := ht.fresh w hw
        simp [hpq, hi] at hfresh
    have hpages : ∀ u ∈ pages.toList, u ∈ {u | u ∈ pages.toList} := fun _ hu => hu
    have hrelease : Moves (KeepsEntry q w) (releaseMapping p ⟨handle, pages⟩ : Kernel φ Unit) :=
      moves_releaseMapping (fun m _ _ _ => hfiles m _) (fun m _ => hfiles m _) hpages
    exact moves_bind hrelease (fun _ => moves_pure _) m₃

/-- Whatever a single operation does, but for the accesses, it keeps the entry of a page that is held. -/
theorem keepsEntry_of_basic (h : m.Settled held) (hlive : op.onTable = false → m.scene.exited p = false)
    (hop : op.basic = true) (htable : op.onTable = false) (hmem : i ∈ held)
    (hi : m.declaredAt q w = some i) (hrun : execute p op m = .ok answer m') : m.KeepsEntry q w m' := by
  have hkept := ((ends_execute h hlive hop).of_ok hrun).guards (by rintro a data rfl; simp [Op.onTable] at htable)
    |>.own hmem hi
  have hfiles : ∀ (m : Machine φ) files, m.KeepsEntry q w (m.withFiles files) := fun _ _ =>
    keepsEntry_of_table rfl
  suffices Goes (KeepsEntry q w) (execute p op) m from this.of_ok hrun
  have hshows := h.shows
  have hsound := h.sound
  have hfetch : op.fetches = true → Goes (KeepsEntry q w) (execute p op) m := fun hfetches =>
    goes_execute_of_fetches (fun hsub h => goes_evict h hsound (hsub hmem) hi) (fun _ _ => keepsEntry_of_table rfl)
      hshows hsound hfetches (fun _ _ _ _ m' => hfiles m' _)
      (fun _ _ _ => keepsEntry_of_table (table_withProcess _ p _ q fun _ => rfl)) rfl
  cases op with
  | declareFile u r wr =>
    refine goes_bind (moves_ite (moves_pure _) (moves_declare p u wr (.file r)) m) fun result m₁ _ => ?_
    cases result <;> exact moves_pure _ m₁
  | resolve | growStack | fault => exact hfetch rfl
  | mmap file a =>
    have hmap : Goes (KeepsEntry q w) (mmap p file a) m := by
      refine goes_bind (moves_process p m) fun proc m₁ hrun => ?_
      cases hrun
      refine goes_bind (goes_mapFile_of_held hshows hsound rfl (hlive rfl) hi _ file a) fun result m₁ _ => ?_
      exact goes_bind (moves_modifyProcess_of_table p (by intro; rfl) m₁) fun _ m₂ _ => moves_pure _ m₂
    refine goes_bind hmap fun result m₁ _ => ?_
    cases result <;> exact moves_pure _ m₁
  | munmap id =>
    refine goes_bind ?_ fun _ m₁ _ => moves_pure _ m₁
    refine goes_bind (moves_process p m) fun proc m₁ hrun => ?_
    cases hrun
    refine goes_bind ?_ fun t m₁ _ => moves_modifyProcess_of_table p (by intro; rfl) m₁
    rw [unmapFile]
    cases hid : (m.process p).mappings.live[id]? with
    | none => exact moves_pure _ m
    | some mp =>
      have : Recedes p {u | u ∈ mp.pages.toList} (KeepsEntry (φ := φ) q w) :=
        recedes_keepsEntry fun hpq hw => by
          subst hpq
          -- the page would have been lost
          obtain ⟨rfl, hdone⟩ := (ends_execute_munmap (E := fun _ _ => True) h (hlive rfl) id
            fun _ _ _ => trivial).of_ok hrun
          obtain ⟨-, ⟨hno, -⟩ | ⟨-, hunmaps⟩⟩ := hdone.does
          · simp at hno
          · rw [hunmaps.loses.own, if_pos] at hkept
            · simp at hkept
            · refine ⟨rfl, ?_⟩
              rw [MapTable.pagesOf, show (m.scene.mappings p).live[id]? = some mp from hid]
              exact hw
      have hpages : ∀ u ∈ mp.pages.toList, u ∈ {u | u ∈ mp.pages.toList} := fun _ hu => hu
      have hrelease : Moves (KeepsEntry q w) (releaseMapping p mp : Kernel φ Unit) :=
        moves_releaseMapping (fun m _ _ _ => hfiles m _) (fun m _ => hfiles m _) hpages
      exact moves_bind (moves_process p) (fun _ => moves_bind (moves_emit _) fun _ =>
        moves_bind hrelease fun _ => moves_pure _) m
  | exit =>
    have hpq : p ≠ q := by
      rintro rfl
      obtain ⟨rfl, hdone⟩ := (ends_execute_exit (E := fun _ _ => True) h (hlive rfl)
        fun _ _ _ => trivial).of_ok hrun
      obtain ⟨-, ⟨hno, -⟩ | ⟨-, hceases⟩⟩ := hdone.does
      · simp at hno
      · rw [hceases.gone] at hkept
        simp at hkept
    have : Recedes p Set.univ (KeepsEntry (φ := φ) q w) := recedes_keepsEntry fun h => absurd h hpq
    have hexit : Moves (KeepsEntry q w) (exit p : Kernel φ Unit) :=
      moves_exit (fun m _ _ _ => hfiles m _) fun m _ => hfiles m _
    exact moves_bind hexit (fun _ => moves_pure _) m
  | load | store | setAccessed => simp [Op.onTable] at htable
  | userLoad | userStore | validate | validateBuffer | validateString | copy => simp [Op.basic] at hop

end Kernel

/-- A write of the process to its memory. -/
def Op.Writes : Op → Prop
  | .store .. | .userStore .. => True
  | _ => False

/-- Operations of processes that have not exited, carried out one after the other and all answered. -/
inductive Undergoes {φ : Type} [FileSystem φ] : Machine φ → List (ProcId × Op) → Machine φ → Prop
  | nil (m : Machine φ) : Undergoes m [] m
  | cons {m m₁ m' : Machine φ} {p : ProcId} {op : Op} {answer : Answer} {steps : List (ProcId × Op)}
      (live : op.onTable = false → (m.process p).exited = false)
      (run : Kernel.execute p op m = .ok answer m₁) (rest : Undergoes m₁ steps m') :
      Undergoes m ((p, op) :: steps) m'

namespace Machine

variable {φ : Type} {m m' m'' : Machine φ} {held : Set PageId} {p q : ProcId} {w : Nat} {i : PageId}
  {f : Frame} {cleared cleared' stored stored' : Prop}

/-- Page `i`, which process `q` has at `w` in frame `f`, has stayed where it was. Its accessed bit has been
cleared only if `cleared`, and its bytes and its dirty bit have changed only if `stored`. -/
structure StaysPut (cleared stored : Prop) (m m' : Machine φ) (q : ProcId) (w : Nat) (i : PageId)
    (f : Frame) : Prop where
  declared : m'.declaredAt q w = some i
  page : m'.page i = m.page i
  entry : ⟨f, q, i⟩ ∈ m'.frames.entries
  mapping : (m'.process q).table.mapping? w = (m.process q).table.mapping? w
  accessed : ¬ cleared → (m.process q).table.isAccessed w = true → (m'.process q).table.isAccessed w = true
  bytes : ¬ stored → m'.pool.contents? f.cell = m.pool.contents? f.cell
  dirty : ¬ stored → (m'.process q).table.isDirty w = (m.process q).table.isDirty w

theorem StaysPut.mono (h : m.StaysPut cleared stored m' q w i f) (hcleared : cleared → cleared')
    (hstored : stored → stored') : m.StaysPut cleared' stored' m' q w i f :=
  ⟨h.declared, h.page, h.entry, h.mapping, fun hno => h.accessed fun hc => hno (hcleared hc),
    fun hno => h.bytes fun hs => hno (hstored hs), fun hno => h.dirty fun hs => hno (hstored hs)⟩

theorem StaysPut.trans (h : m.StaysPut cleared stored m' q w i f) (h' : m'.StaysPut cleared' stored' m'' q w i f) :
    m.StaysPut (cleared ∨ cleared') (stored ∨ stored') m'' q w i f where
  declared := h'.declared
  page := h'.page.trans h.page
  entry := h'.entry
  mapping := h'.mapping.trans h.mapping
  accessed hno ha := h'.accessed (fun hc => hno (.inr hc)) (h.accessed (fun hc => hno (.inl hc)) ha)
  bytes hno := (h'.bytes fun hs => hno (.inr hs)).trans (h.bytes fun hs => hno (.inl hs))
  dirty hno := (h'.dirty fun hs => hno (.inr hs)).trans (h.dirty fun hs => hno (.inl hs))

theorem Settled.entry (h : m.Settled held) (hi : m.declaredAt q w = some i) (hf : (m.page i).frame = some f) :
    ⟨f, q, i⟩ ∈ m.frames.entries :=
  Multiset.mem_coe.1 (h.shows.tenants ▸ h.sound.housed.mem_tenants hi hf)

/-- A page that is held stays where it is if it still belongs to its process and looks the same. -/
theorem Settled.staysPut (h : m.Settled held) (h' : m'.Settled held) (hi : m.declaredAt q w = some i)
    (hf : (m.page i).frame = some f) (hi' : m'.declaredAt q w = some i)
    (hface : (m'.page i).face = (m.page i).face)
    (haccessed : ¬ cleared → (m.process q).table.isAccessed w = true →
      (m'.process q).table.isAccessed w = true)
    (hbytes : ¬ stored → m'.pool.contents? f.cell = m.pool.contents? f.cell)
    (hdirty : ¬ stored → (m'.process q).table.isDirty w = (m.process q).table.isDirty w) :
    m.StaysPut cleared stored m' q w i f := by
  have hpage : m'.page i = m.page i := Page.eq_of_face hface (by
    rw [Bool.eq_iff_iff, h'.shows.fit.pinned, h.shows.fit.pinned])
  have hmapping := h.sound.housed.mapping?_of_frame hi hf
  have hmapping' := h'.sound.housed.mapping?_of_frame hi' (hpage ▸ hf)
  refine ⟨hi', hpage, h'.entry hi' (hpage ▸ hf), ?_, haccessed, hbytes, hdirty⟩
  show m'.scene.mapping? q w = m.scene.mapping? q w
  rw [hmapping', hmapping, show m'.scene.page i = m.scene.page i from hface]

end Machine

namespace Kernel

open Machine

variable {φ : Type} [FileSystem φ] {m m' : Machine φ} {held : Set PageId} {p q : ProcId} {w : Nat}
  {i : PageId} {f : Frame} {op : Op} {answer : Answer}

omit [FileSystem φ] in
theorem accessed_withTable (m : Machine φ) (p q : ProcId) {f : PageTable → PageTable}
    (hf : ∀ v, (m.process p).table.isAccessed v = true → (f (m.process p).table).isAccessed v = true)
    (ha : (m.process q).table.isAccessed w = true) : ((m.withTable p f).process q).table.isAccessed w = true := by
  rw [Machine.withTable, process_withProcess]
  split
  · rename_i hq
    obtain ⟨rfl, -⟩ := hq
    exact hf w ha
  · exact ha

/-- What becomes of the accessed bit of a page that is held. -/
theorem accessed_of_basic (h : m.Settled held) (hlive : op.onTable = false → m.scene.exited p = false)
    (hop : op.basic = true) (hmem : i ∈ held) (hi : m.declaredAt q w = some i)
    (hrun : execute p op m = .ok answer m') (hclear : ¬ (p = q ∧ op = .setAccessed w false))
    (ha : (m.process q).table.isAccessed w = true) : (m'.process q).table.isAccessed w = true := by
  cases htable : op.onTable with
  | false => exact (keepsEntry_of_basic h hlive hop htable hmem hi hrun).accessed ha
  | true =>
    cases op with
    | load a len =>
      have hends : Ends (execute p (.load a len)) m (fun _ m' => (m'.process q).table.isAccessed w = true)
          fun _ _ => True := by
        simp only [execute, load, ends_bind, ends_get, ends_modifyTable]
        have hkeeps := accessed_withTable m p q (f := fun _ => ((m.process p).table.load m.pool a len).table)
          (fun v => PageTable.load_accessed m.pool len _ a v) ha
        split
        · exact hkeeps
        · exact hkeeps
        · trivial
      exact hends.of_ok hrun
    | store a data =>
      have hends : Ends (execute p (.store a data)) m (fun _ m' => (m'.process q).table.isAccessed w = true)
          fun _ _ => True := by
        simp only [execute, store, ends_bind, ends_get, ends_modify, ends_modifyTable]
        have hkeeps := accessed_withTable (m.withPool ((m.process p).table.store m.pool a data).pool) p q
          (f := fun _ => ((m.process p).table.store m.pool a data).table)
          (fun v => PageTable.store_accessed data _ m.pool a v) ha
        split
        · exact hkeeps
        · exact hkeeps
        · trivial
      exact hends.of_ok hrun
    | setAccessed u b =>
      have hends : Ends (execute p (.setAccessed u b)) m (fun _ m' => (m'.process q).table.isAccessed w = true)
          fun _ _ => True := by
        simp only [execute, ends_bind, ends_modifyTable, ends_pure]
        rw [Machine.withTable, process_withProcess]
        split
        · rename_i hq
          obtain ⟨rfl, -⟩ := hq
          rw [PageTable.isAccessed_setAccessed]
          split
          · rename_i huw
            subst huw
            cases b with
            | false => exact absurd ⟨rfl, rfl⟩ hclear
            | true =>
              have hmapped : ((m.process p).table.frame? u).isSome = true := by
                rw [isAccessed_eq] at ha
                rw [PageTable.frame?, Option.isSome_map]
                cases hx : m.pte? p u with
                | none => simp [hx] at ha
                | some x => rw [show (m.process p).table.entries[u]? = some x from hx]; rfl
              rw [hmapped, Bool.and_self]
          · exact ha
        · exact ha
      exact hends.of_ok hrun
    | _ => simp [Op.onTable] at htable

/-- A write of another process does not reach the page. -/
theorem stays_of_store (h : m.Settled held) (hmem : i ∈ held) (hi : m.declaredAt q w = some i)
    (hf : (m.page i).frame = some f) {a : Nat} {data : List UInt8}
    (hrun : execute p (.store a data) m = .ok answer m') :
    m.StaysPut False (p = q) m' q w i f := by
  have hdone := (ends_execute h (by simp [Op.onTable]) rfl).of_ok hrun
  obtain ⟨fault, cell, dirty, -, hstores, heq⟩ := hdone.does
  have hown : m'.declaredAt = m.declaredAt := congrArg View.own heq
  have hface : (m'.page i).face = (m.page i).face := congrFun (congrArg View.page heq) i
  refine h.staysPut hdone.settled hi hf (by rw [hown, hi]) hface (fun _ => accessed_of_basic h (by simp [Op.onTable]) rfl hmem hi hrun (by simp)) (fun hne => ?_) fun hne => ?_
  · have hcell : m'.pool.contents? f.cell = cell f.cell := congrFun (congrArg View.cell heq) f.cell
    rw [hcell]
    refine hstores.other f.cell fun u r g hmapping hcell => hne ?_
    -- no frame is mapped by two processes
    obtain ⟨j, hj, hg, -⟩ := h.sound.housed.mapping?_eq_some hmapping
    have heq := h.sound.housed.eq_of_cell (h.sound.housed.mem_tenants hj hg)
      (h.sound.housed.mem_tenants hi hf) hcell
    exact congrArg Tenancy.owner heq
  · have hdirty : (m'.process q).table.isDirty w = dirty q w := congrFun (congrFun (congrArg View.dirty heq) q) w
    rw [hdirty, Bool.eq_iff_iff, hstores.dirty]
    exact ⟨fun h => h.resolve_right fun h => hne h.1.symm, .inl⟩

/-- A single operation leaves a page that is held where it is. -/
theorem stays_of_basic (h : m.Settled held) (hlive : op.onTable = false → m.scene.exited p = false)
    (hop : op.basic = true) (hmem : i ∈ held) (hi : m.declaredAt q w = some i)
    (hf : (m.page i).frame = some f) (hrun : execute p op m = .ok answer m') :
    m.StaysPut (p = q ∧ op = .setAccessed w false) (p = q ∧ op.Writes) m' q w i f := by
  by_cases hstore : ∃ a data, op = .store a data
  · obtain ⟨a, data, rfl⟩ := hstore
    exact (stays_of_store h hmem hi hf hrun).mono False.elim fun hpq => ⟨hpq, trivial⟩
  · have hdone := (ends_execute h hlive hop).of_ok hrun
    have hguards := hdone.guards fun a data hs => hstore ⟨a, data, hs⟩
    have hretains := hguards.retains hmem hi
    exact h.staysPut hdone.settled hi hf (hguards.own hmem hi) hretains.page
      (accessed_of_basic h hlive hop hmem hi hrun) (fun _ => hretains.cell f hf) fun _ => hretains.dirty

/-- So do the parts of an operation that is made up of others. -/
theorem stays_of_stages (hstages : Stages op p m m') (h : m.Settled held)
    (hlive : m.scene.exited p = false) (hmem : i ∈ held) (hi : m.declaredAt q w = some i)
    (hf : (m.page i).frame = some f) : m.StaysPut False (p = q ∧ op.Writes) m' q w i f := by
  induction hstages with
  | refl => exact h.staysPut h hi hf hi rfl (fun _ => id) (fun _ => rfl) fun _ => rfl
  | tail hstages hstep ih =>
    obtain ⟨o, answer, ho, hrun⟩ := hstep
    obtain ⟨hsettled, -, hexited⟩ := Stages.settled hstages h hlive
    have hstays := stays_of_basic hsettled (fun _ => by rw [hexited, hlive]) (basic_of_part ho) hmem
      ih.declared (by rw [ih.page, hf]) hrun
    refine (ih.trans hstays).mono (fun hc => hc.elim id fun hc => ?_) fun hs => hs.elim id fun hs => ⟨hs.1, ?_⟩
    · obtain ⟨-, rfl⟩ := hc
      exact ho
    · cases o with
      | store a data =>
        obtain ⟨esp, limit, rfl⟩ := ho
        trivial
      | fault | load => exact hs.2.elim
      | _ => exact ho.elim

/-- An operation that is answered leaves a page that is held where it is. -/
theorem stays_of_execute (h : m.Settled held) (hlive : op.onTable = false → m.scene.exited p = false)
    (hmem : i ∈ held) (hi : m.declaredAt q w = some i) (hf : (m.page i).frame = some f)
    (hrun : execute p op m = .ok answer m') :
    m.StaysPut (p = q ∧ op = .setAccessed w false) (p = q ∧ op.Writes) m' q w i f := by
  cases hop : op.basic with
  | true => exact stays_of_basic h hlive hop hmem hi hf hrun
  | false =>
    have hlive' : m.scene.exited p = false := hlive (by cases op <;> first | rfl | simp [Op.basic] at hop)
    obtain ⟨hstages, -⟩ := (staged_execute h hlive' hop).of_ok hrun
    exact (stays_of_stages hstages h hlive' hmem hi hf).mono False.elim id

/-- So do any number of operations. -/
theorem stays_of_undergoes {steps : List (ProcId × Op)} (hrun : Undergoes m steps m') (h : m.Settled held)
    (hmem : i ∈ held) (hi : m.declaredAt q w = some i) (hf : (m.page i).frame = some f) :
    m.StaysPut ((q, .setAccessed w false) ∈ steps) (∃ op, (q, op) ∈ steps ∧ op.Writes) m' q w i f := by
  induction hrun with
  | nil m => exact h.staysPut h hi hf hi rfl (fun _ => id) (fun _ => rfl) fun _ => rfl
  | @cons m m₁ m' p op answer steps live run rest ih =>
    have hfirst := stays_of_execute h live hmem hi hf run
    have hrest := ih (h.execute live run).1 hfirst.declared (by rw [hfirst.page, hf])
    refine (hfirst.trans hrest).mono ?_ ?_
    · rintro (⟨rfl, rfl⟩ | hc)
      · exact List.mem_cons_self
      · exact List.mem_cons_of_mem _ hc
    · rintro (⟨rfl, hop⟩ | ⟨o, ho, hc⟩)
      · exact ⟨op, List.mem_cons_self, hop⟩
      · exact ⟨o, List.mem_cons_of_mem _ ho, hc⟩

end Kernel

open Kernel

/-- What it means that a page is pinned. -/
structure Machine.PinsHold {φ : Type} [FileSystem φ] (m : Machine φ) : Prop where
  /-- An operation that is answered, be it with an error, leaves every page pinned or not, as it was. -/
  pinned : ∀ {p op answer m'}, (op.onTable = false → (m.process p).exited = false) →
    Kernel.execute p op m = .ok answer m' → ∀ i, (m'.page i).pinned = (m.page i).pinned
  /-- A page of the frame table that is pinned stays where it is, whatever operations are answered. Only
  its own process can clear its accessed bit or write to it. -/
  stays : ∀ {steps m'}, Undergoes m steps m' → ∀ e ∈ m.frames.entries, (m.page e.page).pinned = true →
    m.StaysPut ((e.owner, .setAccessed (m.page e.page).upage false) ∈ steps)
      (∃ op, (e.owner, op) ∈ steps ∧ op.Writes) m' e.owner (m.page e.page).upage e.page e.frame
  /-- If the pool has no frame to lend and every page in memory is pinned, the machine stops, and no
  table changes. -/
  starves : ∀ p i u zeroed x, (m.allocator.alloc (.forUser zeroed)).1 = .error x →
    (∀ e ∈ m.frames.entries, (m.page e.page).pinned = true) →
    Kernel.Ends (Kernel.lendFrame p i u zeroed) m (fun _ _ => False) fun s m' =>
      s = .halt .allPinned ∧ m.SameTables m'

/-- Pages that are held stay put, whatever memory is short of and whoever asks for it. -/
theorem Attended.pins_hold {φ : Type} [FileSystem φ] {m : Machine φ} (h : Attended m) : m.PinsHold := by
  have hm := h.settled
  refine ⟨fun hlive hrun i => ?_, fun hrun e he hpinned => ?_, fun p i u zeroed x halloc hall => ?_⟩
  · rw [Bool.eq_iff_iff, (hm.execute hlive hrun).1.shows.fit.pinned, hm.shows.fit.pinned]
  · obtain ⟨u, hu, hf⟩ := (hm.sound.housed.listed e.frame e.owner e.page).1
      (hm.shows.tenants ▸ Multiset.mem_coe.2 he)
    have hupage : (m.page e.page).upage = u := hm.sound.owned.upage hu
    subst hupage
    exact Kernel.stays_of_undergoes hrun hm hpinned hu hf
  · exact Kernel.ends_lendFrame_of_choice_none hm.shows hm.sound halloc (Machine.choice_eq_none_iff.2 hall)

/-- There are two frames, and one holds a pinned page. Another process grows its stack and gets the other
frame; then it is taken away again for a page that was there before. The pinned page stays. -/
theorem pins_hold_of_pressure : ∃ (m m' : Machine MemoryFiles) (e : Tenancy), Attended m ∧
    Undergoes m [(1, .growStack 0x7ffff000), (0, .resolve 0x7fffe000)] m' ∧
    m.frames.entries.map (·.page) = [0, 1] ∧ m'.frames.entries.map (·.page) = [0, 1] ∧
    m.swappedPages 1 = [] ∧ m'.swappedPages 1 = [(0x7ffff000, 1)] ∧
    e ∈ m.frames.entries ∧ (m.page e.page).pinned = true ∧ (m'.page e.page).pinned = true ∧
    m.StaysPut False False m' e.owner (m.page e.page).upage e.page e.frame := by
  obtain ⟨m, hm, -, hP⟩ := exists_reachable 2 4 (⟨#[]⟩ : MemoryFiles)
    [(0, .growStack 0x7ffff000), (0, .store 0x7ffff000 [5]), (0, .growStack 0x7fffe000)]
    (fun m => decide (0 < m.pages.next) && check (pin 0) (fun _ m => (m.page 0).pinned &&
      m.frames.entries.map (·.page) == [0, 1] && m.swappedPages 1 == [] && !(m.process 1).exited &&
      check (execute 1 (.growStack 0x7ffff000)) (fun _ m => !(m.process 0).exited &&
        check (execute 0 (.resolve 0x7fffe000)) (fun _ m => m.frames.entries.map (·.page) == [0, 1] &&
          m.swappedPages 1 == [(0x7ffff000, 1)]) m) m) m) (by decide +kernel)
  simp only [Bool.and_eq_true, decide_eq_true_eq] at hP
  obtain ⟨_, m₀, hpin, hP₀⟩ := exists_of_check hP.2
  simp only [Bool.and_eq_true, beq_iff_eq, Bool.not_eq_true'] at hP₀
  obtain ⟨⟨⟨⟨hpinned, hentries⟩, hswapped⟩, hlive₁⟩, hP₀⟩ := hP₀
  obtain ⟨_, m₁, hgrow, hP₁⟩ := exists_of_check hP₀
  simp only [Bool.and_eq_true, Bool.not_eq_true'] at hP₁
  obtain ⟨_, m', hresolve, hP'⟩ := exists_of_check hP₁.2
  simp only [Bool.and_eq_true, beq_iff_eq] at hP'
  have hattended : Attended m₀ := .pin (.run hm) hP.1 hpin
  have hrun : Undergoes m₀ [(1, .growStack 0x7ffff000), (0, .resolve 0x7fffe000)] m' :=
    .cons (fun _ => hlive₁) hgrow (.cons (fun _ => hP₁.1) hresolve (.nil m'))
  obtain ⟨e, rest, hcons, he, -⟩ := List.map_eq_cons_iff.1 hentries
  have hmem : e ∈ m₀.frames.entries := hcons ▸ List.mem_cons_self
  have hpinned' : (m₀.page e.page).pinned = true := he ▸ hpinned
  have hstays := hattended.pins_hold.stays hrun e hmem hpinned'
  refine ⟨m₀, m', e, hattended, hrun, hentries, hP'.1, hswapped, hP'.2, hmem, hpinned', ?_, ?_⟩
  · rw [hstays.page, hpinned']
  · refine hstays.mono (by simp) ?_
    rintro ⟨op, hop, hwrites⟩
    simp only [List.mem_cons, Prod.mk.injEq, List.not_mem_nil, or_false] at hop
    rcases hop with ⟨-, rfl⟩ | ⟨-, rfl⟩ <;> exact hwrites

end DemandPaging
