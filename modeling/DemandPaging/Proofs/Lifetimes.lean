import DemandPaging.File.Memory
import DemandPaging.Proofs.Handles
import DemandPaging.Proofs.Reachable

/-!
# The lifetimes of handles

A mapping has a handle of its own, which is opened for it and closed when it is released; the handles
that callers pass in are theirs to close. `Machine.Kept` relates the ledger of the calls to the live
mappings: the handles in use are theirs, and every page that a file stands behind uses one of these or
one of a caller. So no operation calls a handle that has been closed.
-/

namespace DemandPaging

variable {φ : Type}

namespace Op

/-- The handles that an operation of process `p` opens, and those that it closes: that of a new mapping
is opened, that of a mapping that cannot be made is closed again, and those of mappings that are released
are closed. -/
def Accounts (p : ProcId) (m : Machine φ) (answer : Answer) (m' : Machine φ) (opened closed : List Handle) :
    Op → Prop
  | mmap .. => (∃ id mp, answer = .mapping id ∧ (m'.process p).mappings.live[id]? = some mp ∧
      opened = [mp.file] ∧ closed = []) ∨ (∀ id, answer ≠ .mapping id) ∧ closed = opened
  | munmap id => opened = [] ∧ (answer = .exited ∧ closed = [] ∨
      answer = .done ∧ closed = ((m.process p).mappings.live[id]?.map (·.file)).toList)
  | exit => opened = [] ∧ (answer = .exited ∧ closed = [] ∨
      answer = .done ∧ closed = (m.process p).mappings.live.toList.map fun x => x.2.file)
  | _ => opened = [] ∧ closed = []

end Op

/-- From one journal to the other, the handles `opened` have been opened and those in `closed` closed, in
this order, and no handle has been called after it was closed. -/
structure Journal.Turns (j : Journal φ) (opened closed : List Handle) (j' : Journal φ) : Prop where
  opened : openings j'.calls.toList = openings j.calls.toList ++ opened
  closed : closings j'.calls.toList = closings j.calls.toList ++ closed
  silent : Silent j'.calls.toList

namespace View

variable {v v' : View φ} {given : Set Handle} {h : Handle}

/-- The handles of the live mappings. -/
def handles (v : View φ) : Set Handle :=
  {h | ∃ (p : ProcId) (k : Nat) (mp : Mapping), (v.mappings p).live[k]? = some mp ∧ mp.file = h}

theorem mem_handles {p : ProcId} {k : Nat} {mp : Mapping} (hk : (v.mappings p).live[k]? = some mp) :
    mp.file ∈ v.handles := ⟨p, k, mp, hk, rfl⟩

theorem handles_congr (h : v'.mappings = v.mappings) : v'.handles = v.handles := by rw [handles, h, handles]

/-- The pages of programs use handles of callers, and no two mappings have the same handle. -/
structure Bound (given : Set Handle) (v : View φ) : Prop where
  given : ∀ {p u i r}, v.own p u = some i → (v.page i).backing = .file r → r.file ∈ given
  apart : ∀ {p q} {k l : Nat} {mp mq : Mapping}, (v.mappings p).live[k]? = some mp →
    (v.mappings q).live[l]? = some mq → mp.file = mq.file → p = q ∧ k = l

/-- A page uses a handle of a caller, or that of a live mapping. -/
theorem Bound.mem_of_mem_sources (hb : v.Bound given) (hl : v.Listed) (hh : h ∈ v.sources) :
    h ∈ given ∨ h ∈ v.handles := by
  obtain ⟨q, u, i, r, hi, hr, rfl⟩ := hh
  cases hbacking : (v.page i).backing with
  | swap => simp [hbacking, Backing.region?] at hr
  | file r' =>
    rw [hbacking, Backing.region?, Option.some.injEq] at hr
    exact .inl (hr ▸ hb.given hi hbacking)
  | mapped r' =>
    rw [hbacking, Backing.region?, Option.some.injEq] at hr
    obtain ⟨k, mp, hk, -, hfile⟩ := hl q u i r' hi hbacking
    exact .inr (hr ▸ hfile ▸ mem_handles hk)

theorem Backs.bound (h : v.Backs v') (hb : v.Bound given) : v'.Bound given where
  given hi hr := by
    obtain ⟨hi', hbacking⟩ := h.old hi (by rw [hr]; rfl)
    exact hb.given hi' (hbacking.trans hr)
  apart hk hl := by
    rw [h.mappings] at hk hl
    exact hb.apart hk hl

/-- A page that a mapping lists uses the handle of that mapping. -/
theorem Charted.file_eq (hc : v.Charted) (hl : v.Listed) {p : ProcId} {k u : Nat} {mp : Mapping} {i : PageId}
    {r : Region} (hk : (v.mappings p).live[k]? = some mp) (hu : u ∈ mp.pages.toList)
    (hi : v.own p u = some i) (hr : (v.page i).backing = .mapped r) : r.file = mp.file := by
  obtain ⟨l, mq, hl', hu', hfile⟩ := hl p u i r hi hr
  have hkl : k = l := by
    by_contra hne
    exact hc.disjoint hk hl' hne hu hu'
  subst hkl
  rw [← hfile, Option.some.inj (hl'.symm.trans hk)]

end View

namespace Machine

variable {m m' : Machine (Journal φ)} {given : Set Handle} {cs : List FileCall}

/-- The handles in use are those of the live mappings. -/
structure Kept (given : Set Handle) (m : Machine (Journal φ)) : Prop where
  settled : m.Settled ∅
  bound : m.scene.Bound given
  ledger : Ledger given m.scene.handles m.files.opened.size m.files.calls.toList

theorem Called.turns (h : m.Called cs m') (hsilent : Silent m'.files.calls.toList) :
    m.files.Turns (openings cs) (closings cs) m'.files :=
  ⟨by rw [h, openings_append], by rw [h, closings_append], hsilent⟩

/-- The reads and writes of pages go through handles that are in use. -/
theorem Kept.use (h : m.Kept given) (huses : m.Uses m.scene.sources m') :
    Ledger given m.scene.handles m'.files.opened.size m'.files.calls.toList ∧ m.files.Turns [] [] m'.files := by
  obtain ⟨⟨cs, hcalled, hcs⟩, hopened⟩ := huses
  have hledger := h.ledger.use fun c hc =>
    ⟨(hcs c hc).1, h.bound.mem_of_mem_sources h.settled.listed (hcs c hc).2⟩
  rw [← hcalled] at hledger
  have hturns := hcalled.turns hledger.silent
  rw [openings_of_plain fun c hc => (hcs c hc).1, closings_of_plain fun c hc => (hcs c hc).1] at hturns
  rw [hopened]
  exact ⟨hledger, hturns⟩

theorem Kept.of_uses (h : m.Kept given) (hsettled : m'.Settled ∅) (hbound : m'.scene.Bound given)
    (hmappings : m'.scene.mappings = m.scene.mappings) (huses : m.Uses m.scene.sources m') :
    m'.Kept given ∧ m.files.Turns [] [] m'.files := by
  obtain ⟨hledger, hturns⟩ := h.use huses
  exact ⟨⟨hsettled, hbound, View.handles_congr hmappings ▸ hledger⟩, hturns⟩

end Machine

namespace Kernel

open Machine View

variable [FileSystem φ] {m m' : Machine (Journal φ)} {given : Set Handle} {p : ProcId} {op : Op}
  {answer : Answer}

/-! ### Operations that leave the mappings alone -/

/-- A page of a program uses the handle that the operation is passed. -/
theorem bound_of_declareFile (h : m.Kept given) (hlive : m.scene.exited p = false) {u : Nat} {r : Region}
    {w : Bool} (hr : r.file ∈ given) (hrun : execute p (.declareFile u r w) m = .ok answer m') :
    m'.scene.Bound given ∧ m'.scene.mappings = m.scene.mappings := by
  have hm := h.settled
  have hends : Ends (execute p (.declareFile u r w)) m (fun _ m' => m' = m ∨
      m'.Shows (m.scene.claim p u (.declared u w (.file r))) ∅) fun _ _ => True := by
    simp only [execute, declareFile, declareRegion, ends_bind, ends_ite, ends_pure]
    split
    · exact .inl trivial
    refine (ends_declare hm.shows hlive rfl hm.shows.next_notMem w (.file r)).returns ?_
    rintro (e | i) m₁ hresult
    · exact .inl hresult
    · exact .inr hresult.2.2
  rcases hends.of_ok hrun with rfl | hshows
  · exact ⟨h.bound, rfl⟩
  rw [← hshows.eq_scene rfl]
  refine ⟨⟨fun {q x i r'} hi hr' => ?_, fun hk hl => h.bound.apart hk hl⟩, rfl⟩
  rw [claim_own, setAt_apply] at hi
  split at hi
  · rw [← Option.some.inj hi, claim_page, Function.update_self, Page.declared, Backing.file.injEq] at hr'
    exact hr' ▸ hr
  · rw [claim_page, Function.update_of_ne (Nat.ne_of_lt (hm.sound.owned.lt hi))] at hr'
    exact h.bound.given hi hr'

/-- An operation that neither makes nor releases mappings leaves them with their handles. -/
theorem ends_execute_of_kept (h : m.Kept given) (hlive : op.onTable = false → m.scene.exited p = false)
    (hop : op.basic = true) (hremaps : op.remaps = false) (hhandles : ∀ h ∈ op.handles, h ∈ given) :
    Ends (execute p op) m (fun _ m' => m'.Kept given ∧ m.files.Turns [] [] m'.files) fun _ m' => m.files.Turns [] [] m'.files := by
  have huses := goes_execute_of_sources h.settled (p := p) hop hremaps
  have hcompletes := ends_execute h.settled hlive hop
  unfold Goes Ends at huses
  unfold Ends at hcompletes ⊢
  cases hrun : execute p op m with
  | error e m' =>
    rw [hrun] at huses
    exact (h.use huses).2
  | ok answer m' =>
    rw [hrun] at huses hcompletes
    obtain ⟨hsettled, hdoes, -⟩ := hcompletes
    suffices m'.scene.Bound given ∧ m'.scene.mappings = m.scene.mappings from
      h.of_uses hsettled this.1 this.2 huses
    have hfetched : m.scene.Fetched m'.scene →
        m'.scene.Bound given ∧ m'.scene.mappings = m.scene.mappings := by
      rintro (heq | ⟨i, -, hfetches⟩)
      · rw [heq]
        exact ⟨h.bound, rfl⟩
      · have hbacks := hfetches.path.backs (fun l hl => by
          cases l <;> first | exact hl.elim | exact ⟨trivial, by simp⟩) h.settled.sound
        exact ⟨hbacks.bound h.bound, hbacks.mappings⟩
    cases op with
    | declareFile u r w =>
      exact bound_of_declareFile h (hlive rfl) (hhandles _ List.mem_cons_self) hrun
    | resolve | growStack | fault => exact hfetched hdoes
    | load =>
      rw [hdoes.1]
      exact ⟨h.bound, rfl⟩
    | store =>
      obtain ⟨fault, cell, dirty, -, -, heq⟩ := hdoes
      rw [heq]
      exact ⟨⟨fun hi hr => h.bound.given hi hr, fun hk hl => h.bound.apart hk hl⟩, rfl⟩
    | setAccessed =>
      rw [show m'.scene = m.scene from hdoes]
      exact ⟨h.bound, rfl⟩
    | mmap | munmap | exit => simp [Op.remaps] at hremaps
    | userLoad | userStore | validate | validateBuffer | validateString | copy => simp [Op.basic] at hop

/-! ### Mapping files -/

omit [FileSystem φ] in
/-- Nothing is owed for pages that are not in memory. -/
theorem filterMap_due_of_away {v : View (Journal φ)} {us : List Nat}
    (haway : ∀ u ∈ us, ∀ i, v.own p u = some i → (v.page i).frame = none) : us.filterMap (v.due p) = [] := by
  refine List.filterMap_eq_nil_iff.2 fun u hu => ?_
  cases hi : v.own p u with
  | none => rw [due, hi, Option.bind_none]
  | some i =>
    cases hr : (v.page i).backing with
    | mapped r => rw [due_of_mapped hi hr, write?_of_away (haway u hu i hi)]
    | _ => exact due_eq_none hi (by simp [hr])

/-- What has become of an attempt of process `p` to map a file: it was turned down, and whatever handle was
opened for it has been closed, or there is a new mapping with a handle that was opened for it. -/
inductive MapOutcome (given : Set Handle) (p : ProcId) (m : Machine (Journal φ)) (v' : View (Journal φ))
    (j' : Journal φ) : Except MapError Nat → Prop
  | refused {e : MapError} (hs : List Handle) (mappings : v'.mappings = m.scene.mappings)
      (own : ∀ {q w i}, v'.own q w = some i → m.scene.own q w = some i)
      (ledger : Ledger given m.scene.handles j'.opened.size j'.calls.toList)
      (turns : m.files.Turns hs hs j') : MapOutcome given p m v' j' (.error e)
  | mapped {id : Nat} (mp : Mapping)
      (mappings : v'.mappings = Function.update m.scene.mappings p ((m.scene.mappings p).add mp))
      (number : id = (m.scene.mappings p).nextId)
      (own : ∀ {q w i}, v'.own q w = some i → m.scene.own q w = some i ∨
        ∃ r, (v'.page i).backing = .mapped r)
      (new : mp.file ∉ m.scene.handles)
      (ledger : Ledger given (insert mp.file m.scene.handles) j'.opened.size j'.calls.toList)
      (turns : m.files.Turns [mp.file] [] j') : MapOutcome given p m v' j' (.ok id)

/-- Nothing but the files has changed from `m` to `m'`: they have had `calls`, after which the handles in
`live` are in use. -/
structure Asked (given : Set Handle) (m : Machine (Journal φ)) (calls : List FileCall) (live : Set Handle)
    (m' : Machine (Journal φ)) : Prop where
  shows : m'.Shows (m.scene.setFiles m'.files) ∅
  called : m.Called calls m'
  ledger : Ledger given live m'.files.opened.size m'.files.calls.toList

section

variable {m₁ : Machine (Journal φ)} {calls : List FileCall} {live : Set Handle} {file n : Handle}
  {E : Stop → Machine (Journal φ) → Prop}

theorem ends_fileLength_asked (h : Asked given m calls live m₁) (hfile : file ∈ given) :
    Ends (fileLength file) m₁ (fun _ m' => Asked given m (calls ++ [.length file]) live m') E := by
  have hcalled : m₁.Called [.length file] (m₁.withFiles (FileSystem.length m₁.files file).2) :=
    Array.toList_push
  have hplain : ∀ c ∈ [FileCall.length file], c.Plain ∧ (c.handle ∈ given ∨ c.handle ∈ live) := by
    simp [FileCall.Plain, FileCall.opens?, FileCall.closes?, FileCall.handle, hfile]
  have hledger := h.ledger.use hplain
  rw [← hcalled] at hledger
  exact ⟨h.shows.setFiles _, h.called.trans hcalled, hledger⟩

theorem ends_reopenFile_asked (h : Asked given m calls live m₁) (hfile : file ∈ given) :
    Ends (reopenFile file) m₁ (fun n m' => n ∉ live ∧
      Asked given m (calls ++ [.reopen file n]) (insert n live) m') E := by
  have hcalled : m₁.Called [.reopen file m₁.files.opened.size]
      (m₁.withFiles (FileSystem.reopen m₁.files file).2) := Array.toList_push
  have hledger := h.ledger.reopen hfile
  rw [← hcalled, ← Array.size_push] at hledger
  exact ⟨fun hc => Nat.lt_irrefl _ (h.ledger.fresh _ ((h.ledger.live _).1 hc).1),
    h.shows.setFiles _, h.called.trans hcalled, hledger⟩

omit [FileSystem φ] in
/-- Where nobody has a new page and the mappings are as they were, the attempt was turned down. -/
theorem exists_refused {v' : View (Journal φ)} {e : MapError} (hs : List Handle) (hshows : m'.Shows v' ∅)
    (hdeclared : v'.declared = v'.own) (hexited : v'.exited = m.scene.exited)
    (hmappings : v'.mappings = m.scene.mappings)
    (hown : ∀ {q w i}, v'.own q w = some i → m.scene.own q w = some i)
    (hledger : Ledger given m.scene.handles m'.files.opened.size m'.files.calls.toList)
    (hturns : m.files.Turns hs hs m'.files) :
    ∃ v', m'.Shows v' ∅ ∧ v'.declared = v'.own ∧ v'.exited = m.scene.exited ∧
      MapOutcome given p m (v'.setMappings p (m.process p).mappings) m'.files (.error e) := by
  have hsame : v'.setMappings p (m.process p).mappings = v' := setMappings_self (congrFun hmappings p)
  refine ⟨v', hshows, hdeclared, hexited, ?_⟩
  rw [hsame]
  exact .refused hs hmappings hown hledger hturns

omit [FileSystem φ] in
theorem Asked.exists_refused {e : MapError} (h : Asked given m calls m.scene.handles m')
    (hplain : openings calls = [] ∧ closings calls = []) :
    ∃ v', m'.Shows v' ∅ ∧ v'.declared = v'.own ∧ v'.exited = m.scene.exited ∧
      MapOutcome given p m (v'.setMappings p (m.process p).mappings) m'.files (.error e) := by
  have hturns := h.called.turns h.ledger.silent
  rw [hplain.1, hplain.2] at hturns
  exact Kernel.exists_refused [] h.shows rfl rfl rfl id h.ledger hturns

/-- The handle of a mapping that cannot be made whole is closed, and the files have no other call. -/
theorem ends_takeBack_closes (hm : m.Settled ∅) {files : Journal φ} {v₁ : View (Journal φ)}
    {pages : Array Nat} (h : m₁.Shows v₁ ∅) (ht : (m.scene.setFiles files).Tiled p n pages.toList v₁)
    (hnew : n ∉ m.scene.handles)
    (hledger : Ledger given (insert n m.scene.handles) m₁.files.opened.size m₁.files.calls.toList) :
    Ends (releaseMapping p ⟨n, pages⟩) m₁ (fun _ m' => (∃ v', m'.Shows v' ∅ ∧ v'.declared = v'.own ∧
      v'.exited = m.scene.exited ∧ v'.mappings = m.scene.mappings ∧
      ∀ {q w i}, v'.own q w = some i → m.scene.own q w = some i) ∧ m₁.Called [.close n] m' ∧
      Ledger given m.scene.handles m'.files.opened.size m'.files.calls.toList) E := by
  have hv : (m.scene.setFiles files).Sound := hm.sound.setFiles _
  have hdue : pages.toList.filterMap (v₁.due p) = [] := filterMap_due_of_away ht.away
  have hcalls : Ends (releaseMapping p ⟨n, pages⟩) m₁
      (fun _ m' => m₁.Called (v₁.settling p ⟨n, pages⟩) m') fun _ _ => True :=
    called_releaseMapping h (ht.path.sound hv) ht.declared ht.maps ht.nodup
  have hreleases := (ends_takeBack (E := E) h hv (hm.charted.congr rfl fun hi hr => ⟨hi, hr⟩)
    ⟨n, pages⟩ ht fun hne => absurd hne Set.not_nonempty_empty).and
    (hcalls.and (moves_releaseMapping_of_sameHandles p ⟨n, pages⟩ m₁))
  refine hreleases.imp ?_ fun _ _ hstop => hstop.1
  rintro _ m' ⟨⟨v', h', -, hpath, hdeclared, hmappings, -, hown⟩, hcalled, hopened⟩
  rw [View.settling, hdue, List.nil_append] at hcalled
  refine ⟨⟨v', h', hdeclared, hpath.exited fun l hl => by cases l <;> trivial, hmappings, hown.1⟩,
    hcalled, ?_⟩
  have hnone : ∀ c ∈ ([] : List FileCall), c.Plain ∧ c.handle = n := by simp
  have hclose := hledger.close (Set.mem_insert _ _) hnone
  rw [Set.insert_sdiff_self_of_notMem hnew] at hclose
  rw [hcalled, hopened]
  exact hclose

end

theorem ends_mapFile_of_kept (h : m.Kept given) (hlive : m.scene.exited p = false) {file : Handle}
    (hfile : file ∈ given) (addr : Nat) {E : Stop → Machine (Journal φ) → Prop} :
    Ends (mapFile (m.process p).mappings p file addr) m (fun result m' => ∃ v', m'.Shows v' ∅ ∧
      v'.declared = v'.own ∧ v'.exited = m.scene.exited ∧
      MapOutcome given p m (v'.setMappings p result.2) m'.files result.1) E := by
  have hm := h.settled
  have hasked : Asked given m [] m.scene.handles m := ⟨hm.shows, by simp [Called], h.ledger⟩
  rw [mapFile, ends_ite]
  split
  · exact hasked.exists_refused ⟨rfl, rfl⟩
  rw [ends_bind]
  refine (ends_fileLength_asked hasked hfile).returns ?_
  intro len m₁ h₁
  rw [ends_ite]
  split
  · exact h₁.exists_refused ⟨rfl, rfl⟩
  rw [ends_ite]
  split
  · exact h₁.exists_refused ⟨rfl, rfl⟩
  rw [ends_bind]
  refine (ends_reopenFile_asked h₁ hfile).returns ?_
  rintro n m₂ ⟨hnew, h₂⟩
  have hv := hm.sound.setFiles m₂.files
  rw [ends_bind]
  refine (ends_declareTiles (v := m.scene.setFiles m₂.files) hlive n addr (tiles n len) #[] h₂.shows hv
    (.nil _ p n rfl) fun r hr => ⟨file_of_mem_tiles hr, readLen_add_zeroLen_of_mem_tiles hr⟩).returns ?_
  rintro ⟨pages, failure⟩ m₃ ⟨v₃, h₃, ht, -, -⟩
  have hfiles₃ : m₃.files = m₂.files := h₃.files.symm.trans ht.files
  have hcalled₃ := h₂.called.trans (called_of_files hfiles₃)
  have hledger₃ := hfiles₃ ▸ h₂.ledger
  cases failure with
  | none =>
    simp only [ends_bind, ends_process, ends_emit, ends_pure]
    refine ⟨v₃, h₃.report _, ht.declared, ht.path.exited (by rintro _ ⟨i, rfl⟩; trivial),
      .mapped ⟨n, pages⟩ ?_ rfl (fun hi => ?_) hnew hledger₃ (hcalled₃.turns hledger₃.silent)⟩
    · rw [setMappings_mappings, ht.mappings]
      rfl
    · rcases ht.added hi with hi | ⟨-, -, r, hr, -⟩
      · exact .inl hi
      · exact .inr ⟨r, hr⟩
  | some e =>
    rw [ends_bind]
    refine (ends_takeBack_closes hm h₃ ht hnew hledger₃).returns ?_
    rintro _ m₄ ⟨⟨v₄, h₄, hdeclared, hexited, hmappings, hown⟩, hcalled₄, hledger₄⟩
    exact exists_refused [n] h₄ hdeclared hexited hmappings hown hledger₄
      ((hcalled₃.trans hcalled₄).turns hledger₄.silent)

end Kernel

/-! ### Releasing mappings -/

namespace View

variable [FileSystem φ] {v v' : View (Journal φ)} {p : ProcId} {given live : Set Handle} {size : Nat}
  {calls : List FileCall} {mp : Mapping}

omit [FileSystem φ] in
/-- The writes that the pages of a mapping owe go through its handle. -/
theorem plain_of_due (hc : v.Charted) (hl : v.Listed) {k : Nat} (hk : (v.mappings p).live[k]? = some mp)
    {c : FileCall} (hmem : c ∈ mp.pages.toList.filterMap (v.due p)) : c.Plain ∧ c.handle = mp.file := by
  obtain ⟨u, hu, hdue⟩ := List.mem_filterMap.1 hmem
  obtain ⟨i, r, f, b, hi, hr, -, -, -, rfl⟩ := due_eq_some hdue
  exact ⟨⟨rfl, rfl⟩, hc.file_eq hl hk hu hi hr⟩

omit [FileSystem φ] in
theorem openings_settling (hplain : ∀ c ∈ mp.pages.toList.filterMap (v.due p), c.Plain ∧ c.handle = mp.file) :
    openings (v.settling p mp) = [] ∧ closings (v.settling p mp) = [mp.file] := by
  rw [settling, openings_append, closings_append, openings_of_plain fun c hc => (hplain c hc).1,
    closings_of_plain fun c hc => (hplain c hc).1]
  exact ⟨rfl, rfl⟩

omit [FileSystem φ] in
/-- The release of mappings, one after the other, is the end of their handles. -/
theorem ledger_settling : ∀ (ms : List (Nat × Mapping)) {live : Set Handle} {calls : List FileCall},
    Ledger given live size calls → (∀ x ∈ ms, x.2.file ∈ live) → (ms.map fun x => x.2.file).Nodup →
    (∀ x ∈ ms, ∀ c ∈ x.2.pages.toList.filterMap (v.due p), c.Plain ∧ c.handle = x.2.file) →
    Ledger given (live \ {h | h ∈ ms.map fun x => x.2.file}) size (calls ++ ms.flatMap fun x => v.settling p x.2) ∧
      openings (ms.flatMap fun x => v.settling p x.2) = [] ∧
      closings (ms.flatMap fun x => v.settling p x.2) = ms.map fun x => x.2.file
  | [], live, calls, hl, _, _, _ => by
    refine ⟨?_, rfl, rfl⟩
    simpa using hl
  | (k, mp) :: ms, live, calls, hl, hmem, hnodup, hplain => by
    rw [List.map_cons, List.nodup_cons] at hnodup
    have hfirst := hplain (k, mp) List.mem_cons_self
    have hclose := hl.close (hmem (k, mp) List.mem_cons_self) hfirst
    obtain ⟨hopens, hcloses⟩ := openings_settling hfirst
    obtain ⟨hrest, hopens', hcloses'⟩ := ledger_settling ms hclose (fun x hx => ⟨hmem x (List.mem_cons_of_mem _ hx),
      fun heq => hnodup.1 (List.mem_map.2 ⟨x, hx, heq⟩)⟩) hnodup.2 fun x hx => hplain x (List.mem_cons_of_mem _ hx)
    rw [List.flatMap_cons, openings_append, closings_append, hopens, hcloses, hopens', hcloses',
      ← List.append_assoc]
    refine ⟨?_, rfl, rfl⟩
    have hset : live \ {h | h ∈ ((k, mp) :: ms).map fun x => x.2.file} =
        (live \ {mp.file}) \ {h | h ∈ ms.map fun x => x.2.file} := by
      ext h
      simp only [List.map_cons, List.mem_cons, Set.mem_sdiff, Set.mem_ofPred_eq, Set.mem_singleton_iff, not_or,
        and_assoc]
    rw [hset]
    exact hrest

end View

namespace Kernel

open Machine View

variable [FileSystem φ] {m m' : Machine (Journal φ)} {given : Set Handle} {p : ProcId} {op : Op}
  {answer : Answer}

omit [FileSystem φ] in
/-- Once the mappings `ms` of process `p` are released, the other mappings keep their handles. -/
theorem kept_of_released (h : m.Kept given) (ms : List (Nat × Mapping))
    (hms : ∀ x ∈ ms, (m.scene.mappings p).live[x.1]? = some x.2) (hkeys : (ms.map (·.1)).Nodup)
    (hsettled : m'.Settled ∅) (hcalled : m.Called (ms.flatMap fun x => m.scene.settling p x.2) m')
    (hopened : m.SameHandles m')
    (hpages : ∀ {q w i}, m'.scene.own q w = some i → m.scene.own q w = some i ∧ m'.scene.page i = m.scene.page i)
    (hlive : ∀ q (k : Nat) mp, (m'.scene.mappings q).live[k]? = some mp ↔
      (m.scene.mappings q).live[k]? = some mp ∧ ¬ (q = p ∧ (k, mp) ∈ ms)) :
    m'.Kept given ∧ m.files.Turns [] (ms.map fun x => x.2.file) m'.files := by
  have hnodup : (ms.map fun x => x.2.file).Nodup := by
    refine List.Nodup.map_on (fun x hx y hy heq => ?_) (List.Nodup.of_map _ hkeys)
    have hkey := (h.bound.apart (hms x hx) (hms y hy) heq).2
    exact List.inj_on_of_nodup_map hkeys hx hy hkey
  obtain ⟨hledger, hopens, hcloses⟩ := ledger_settling (v := m.scene) (p := p) ms h.ledger
    (fun x hx => mem_handles (hms x hx)) hnodup
    fun x hx c hc => plain_of_due h.settled.charted h.settled.listed (hms x hx) hc
  rw [← hcalled, ← show m'.files.opened = m.files.opened from hopened] at hledger
  have hturns := hcalled.turns hledger.silent
  rw [hopens, hcloses] at hturns
  refine ⟨⟨hsettled, ⟨fun hi hr => ?_, fun hk hl => ?_⟩, ?_⟩, hturns⟩
  · obtain ⟨hi', hpage⟩ := hpages hi
    exact h.bound.given hi' (hpage ▸ hr)
  · exact h.bound.apart ((hlive _ _ _).1 hk).1 ((hlive _ _ _).1 hl).1
  · have hset : m'.scene.handles = m.scene.handles \ {h | h ∈ ms.map fun x => x.2.file} := by
      ext x
      simp only [View.handles, Set.mem_sdiff, Set.mem_ofPred_eq, List.mem_map, hlive]
      constructor
      · rintro ⟨q, k, mp, ⟨hk, hno⟩, rfl⟩
        refine ⟨⟨q, k, mp, hk, rfl⟩, ?_⟩
        rintro ⟨y, hy, heq⟩
        obtain ⟨rfl, hkey⟩ := h.bound.apart (hms y hy) hk heq
        have hmp : y.2 = mp := Option.some.inj ((hms y hy).symm.trans (hkey ▸ hk))
        exact hno ⟨rfl, by rwa [← hkey, ← hmp]⟩
      · rintro ⟨⟨q, k, mp, hk, rfl⟩, hno⟩
        exact ⟨q, k, mp, ⟨hk, fun hc => hno ⟨(k, mp), hc.2, rfl⟩⟩, rfl⟩
    rw [hset]
    exact hledger

/-- What unmapping asks of the file system. -/
theorem called_munmap (h : m.Settled ∅) (p : ProcId) (id : Nat) :
    Ends (execute p (.munmap id)) m (fun _ m' => m.Called
      ((((m.scene.mappings p).live[id]?.map (id, ·)).toList).flatMap fun x => m.scene.settling p x.2) m' ∧
        m.SameHandles m') fun _ _ => True := by
  simp only [execute, munmap, unmapFile, ends_bind, ends_process]
  rw [show (m.process p).mappings = m.scene.mappings p from rfl]
  cases hid : (m.scene.mappings p).live[id]? with
  | none =>
    simp only [ends_pure, ends_modifyProcess]
    exact ⟨called_of_files rfl, rfl⟩
  | some mp =>
    simp only [ends_bind, ends_process, ends_emit]
    refine ((called_releaseMapping (h.shows.report _) h.sound rfl (h.charted.maps hid) (h.charted.nodup hid)).and
      (moves_releaseMapping_of_sameHandles p mp _)).imp ?_ fun _ _ _ => trivial
    rintro _ m₁ ⟨hcalled, hopened⟩
    simp only [ends_pure, ends_modifyProcess]
    refine ⟨?_, hopened⟩
    simp only [Option.map_some, Option.toList_some, List.flatMap_cons, List.flatMap_nil, List.append_nil]
    exact hcalled

theorem ends_munmap_of_kept (h : m.Kept given) (hlive : m.scene.exited p = false) (id : Nat)
    {E : Stop → Machine (Journal φ) → Prop} :
    Ends (execute p (.munmap id)) m (fun answer m' => answer = .done ∧ m'.Kept given ∧
      m.files.Turns [] ((m.process p).mappings.live[id]?.map (·.file)).toList m'.files) E := by
  refine ((ends_execute_munmap (E := E) h.settled hlive id fun hne => absurd hne Set.not_nonempty_empty).and
    (called_munmap h.settled p id)).imp ?_ fun _ _ hstop => hstop.1
  rintro answer m' ⟨⟨rfl, hdone⟩, hcalled, hopened⟩
  obtain ⟨-, ⟨hno, -⟩ | ⟨-, hunmaps⟩⟩ := hdone.does
  · simp at hno
  have hkept := kept_of_released h ((m.scene.mappings p).live[id]?.map (id, ·)).toList (fun x hx => ?_) ?_
    hdone.settled hcalled hopened (fun hi => ⟨hunmaps.loses.own_of_own hi, hunmaps.loses.page hi⟩)
    fun q k mp => ?_
  · refine ⟨rfl, hkept.1, ?_⟩
    have hfiles : (((m.scene.mappings p).live[id]?.map (id, ·)).toList.map fun x => x.2.file) =
        ((m.process p).mappings.live[id]?.map (·.file)).toList := by
      rw [show (m.process p).mappings.live[id]? = (m.scene.mappings p).live[id]? from rfl]
      cases (m.scene.mappings p).live[id]? <;> rfl
    rw [← hfiles]
    exact hkept.2
  · obtain ⟨mp, hmp, rfl⟩ := Option.map_eq_some_iff.1 (Option.mem_toList.1 hx)
    exact hmp
  · cases (m.scene.mappings p).live[id]? <;> simp
  · rw [hunmaps.live]
    constructor
    · intro hk
      split at hk
      · simp at hk
      · rename_i hno
        refine ⟨hk, fun hc => hno ⟨hc.1, ?_⟩⟩
        obtain ⟨mq, -, heq⟩ := Option.map_eq_some_iff.1 (Option.mem_toList.1 hc.2)
        exact (congrArg Prod.fst heq).symm
    · rintro ⟨hk, hno⟩
      rw [if_neg, hk]
      rintro ⟨rfl, rfl⟩
      exact hno ⟨rfl, Option.mem_toList.2 (by rw [hk]; rfl)⟩

theorem ends_exit_of_kept (h : m.Kept given) (hlive : m.scene.exited p = false)
    {E : Stop → Machine (Journal φ) → Prop} :
    Ends (execute p .exit) m (fun answer m' => answer = .done ∧ m'.Kept given ∧
      m.files.Turns [] ((m.process p).mappings.live.toList.map fun x => x.2.file) m'.files) E := by
  have hm := h.settled
  have hcalls : Ends (execute p .exit) m (fun _ m' => m.Called
      ((m.scene.mappings p).live.toList.flatMap fun x => m.scene.settling p x.2) m' ∧ m.SameHandles m')
      fun _ _ => True := by
    simp only [execute, ends_bind, ends_pure]
    exact ((called_exit hm.shows hm.sound rfl hm.charted).and
      (moves_exit (R := SameHandles) (p := p) sameHandles_write sameHandles_close m)).imp (fun _ _ h => h)
        fun _ _ _ => trivial
  refine ((ends_execute_exit (E := E) hm hlive fun hne => absurd hne Set.not_nonempty_empty).and hcalls).imp ?_
    fun _ _ hstop => hstop.1
  rintro answer m' ⟨⟨rfl, hdone⟩, hcalled, hopened⟩
  obtain ⟨-, ⟨hno, -⟩ | ⟨-, hceases⟩⟩ := hdone.does
  · simp at hno
  obtain ⟨us, hloses⟩ := hceases.loses
  have hget : ∀ x, x ∈ (m.scene.mappings p).live.toList ↔ (m.scene.mappings p).live[x.1]? = some x.2 := fun x =>
    Std.ExtTreeMap.mem_toList_iff_getElem?_eq_some
  refine ⟨rfl, kept_of_released h _ (fun x hx => (hget x).1 hx) ?_ hdone.settled hcalled hopened
    (fun hi => ⟨hloses.own_of_own hi, hloses.page hi⟩) fun q k mp => ?_⟩
  · refine List.pairwise_map.2 (List.Pairwise.imp ?_ Std.ExtTreeMap.distinct_keys_toList)
    intro x y hne
    simpa using hne
  · rcases eq_or_ne q p with rfl | hq
    · rw [hceases.unmapped, Std.ExtTreeMap.getElem?_empty]
      exact ⟨fun hno => by simp at hno, fun hk => absurd ⟨rfl, (hget (k, mp)).2 hk.1⟩ hk.2⟩
    · rw [hceases.mappings q hq]
      simp [hq]

/-- Mapping a file leaves every other mapping with its handle. -/
theorem kept_of_mapOutcome (h : m.Kept given) (hsettled : m'.Settled ∅)
    (hpath : Path (fun _ => True) m.scene m'.scene) {result : Except MapError Nat}
    (hout : MapOutcome given p m m'.scene m'.files result) : m'.Kept given := by
  have hbound : ∀ {q w i r}, m'.scene.own q w = some i → m.scene.own q w = some i →
      (m'.scene.page i).backing = .file r → r.file ∈ given := fun hi hi' hr =>
    h.bound.given hi' (by rw [← (hpath.same (h.settled.sound.owned.lt hi')).backing, hr])
  cases hout with
  | refused hs hmappings hown hledger hturns =>
    refine ⟨hsettled, ⟨fun hi hr => hbound hi (hown hi) hr, fun hk hl => ?_⟩, ?_⟩
    · rw [hmappings] at hk hl
      exact h.bound.apart hk hl
    · rw [handles_congr hmappings]
      exact hledger
  | mapped mp hmappings hnumber hown hnew hledger hturns =>
    -- a live mapping is the new one, or was there before
    have hcases : ∀ {q} {k : Nat} {mq : Mapping}, (m'.scene.mappings q).live[k]? = some mq ↔
        (q = p ∧ k = (m.scene.mappings p).nextId ∧ mq = mp) ∨ (m.scene.mappings q).live[k]? = some mq := by
      intro q k mq
      rw [hmappings, Function.update_apply]
      split
      · rename_i hq
        subst hq
        rw [MapTable.live_add]
        split
        · rename_i hk
          subst hk
          have hfresh : (m.scene.mappings q).live[(m.scene.mappings q).nextId]? ≠ some mq := fun hold =>
            Nat.lt_irrefl _ (h.settled.charted.fresh hold)
          simp [hfresh, eq_comm]
        · rename_i hk
          simp [hk]
      · rename_i hq
        simp [hq]
    have hhandles : m'.scene.handles = insert mp.file m.scene.handles := by
      ext x
      simp only [View.handles, Set.mem_insert_iff, Set.mem_ofPred_eq, hcases]
      constructor
      · rintro ⟨q, k, mq, ⟨rfl, rfl, rfl⟩ | hk, rfl⟩
        · exact .inl rfl
        · exact .inr ⟨q, k, mq, hk, rfl⟩
      · rintro (rfl | ⟨q, k, mq, hk, rfl⟩)
        · exact ⟨p, _, mp, .inl ⟨rfl, rfl, rfl⟩, rfl⟩
        · exact ⟨q, k, mq, .inr hk, rfl⟩
    refine ⟨hsettled, ⟨fun hi hr => ?_, fun {q q' k l mq mq'} hk hl heq => ?_⟩, hhandles ▸ hledger⟩
    · rcases hown hi with hi' | ⟨r', hr'⟩
      · exact hbound hi hi' hr
      · simp [hr] at hr'
    · rcases hcases.1 hk with ⟨rfl, rfl, rfl⟩ | hk <;> rcases hcases.1 hl with ⟨rfl, rfl, rfl⟩ | hl
      · exact ⟨rfl, rfl⟩
      · exact absurd (heq ▸ mem_handles hl) hnew
      · exact absurd (heq ▸ mem_handles hk) hnew
      · exact h.bound.apart hk hl heq

theorem ends_mmap_of_kept (h : m.Kept given) (hlive : m.scene.exited p = false) {file : Handle}
    (hfile : file ∈ given) (addr : Nat) {E : Stop → Machine (Journal φ) → Prop} :
    Ends (execute p (.mmap file addr)) m (fun answer m' => m'.Kept given ∧ ∃ opened closed,
      m.files.Turns opened closed m'.files ∧ Op.Accounts p m answer m' opened closed (.mmap file addr)) E := by
  have hmap : Ends (execute p (.mmap file addr)) m (fun answer m' => ∃ result,
      (∀ id, answer = .mapping id ↔ result = .ok id) ∧ MapOutcome given p m m'.scene m'.files result) E := by
    simp only [execute, mmap, ends_bind, ends_process]
    refine (ends_mapFile_of_kept h hlive hfile addr).returns ?_
    rintro ⟨result, t⟩ m₁ ⟨v₁, h₁, hdeclared, hexited, hout⟩
    rw [ends_modifyProcess, ends_pure]
    have h₂ := h₁.setMappings (p := p) (h₁.lt_of_live (by rw [hexited, hlive])) t
    rw [h₂.eq_scene hdeclared] at hout
    cases result with
    | error e => exact ⟨_, by simp, hout⟩
    | ok id => exact ⟨_, by simp, hout⟩
  refine ((ends_execute h.settled (fun _ => hlive) rfl).and hmap).imp ?_ fun _ _ hstop => hstop.2
  rintro answer m' ⟨hcompletes, result, hanswer, hout⟩
  refine ⟨kept_of_mapOutcome h hcompletes.settled hcompletes.does.path hout, ?_⟩
  cases hout with
  | refused hs hmappings hown hledger hturns =>
    exact ⟨hs, hs, hturns, .inr ⟨fun id hid => by simpa using (hanswer id).1 hid, rfl⟩⟩
  | @mapped id mp hmappings hnumber hown hnew hledger hturns =>
    refine ⟨[mp.file], [], hturns, .inl ⟨id, mp, (hanswer id).2 rfl, ?_, rfl, rfl⟩⟩
    show (m'.scene.mappings p).live[id]? = some mp
    rw [hmappings, Function.update_self, hnumber]
    exact MapTable.live_add_nextId ..

end Kernel

end DemandPaging
