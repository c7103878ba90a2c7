import DemandPaging.Proofs.GivesBack
import DemandPaging.Proofs.MappedFile
import DemandPaging.Proofs.Reachable

/-!
# Releasing a mapping

As long as a mapping is not released, the process has its pages, whatever else happens, and sees its
file through them. When the mapping is released, its pages go and nothing else does, and the file has
what the process saw: a dirty page in memory is written back, a clean one agrees with the file, and the
file has had the bytes of a page that is not in memory since the page was evicted.
-/

namespace DemandPaging

variable {φ : Type} [FileSystem φ]

/-! ### Mappings that are kept -/

/-- Operations that do not release mapping `id` of process `p` leave it and its pages alone. -/
theorem Op.Does.keeps_mapping {op : Op} {p q : ProcId} {id : Nat} {v v' : View φ} {answer : Answer}
    {mp : Mapping} (h : op.Does q v answer v') (hbasic : op.basic = true)
    (hkept : q = p → op ≠ .munmap id ∧ op ≠ .exit) (hc : v.Charted)
    (hk : (v.mappings p).live[id]? = some mp) :
    (v'.mappings p).live[id]? = some mp ∧ ∀ u ∈ mp.pages.toList, v'.own p u = v.own p u := by
  have hextends : v.Extends v' → (v'.mappings p).live[id]? = some mp ∧
      ∀ u ∈ mp.pages.toList, v'.own p u = v.own p u := fun hext => by
    refine ⟨hext.live hk, fun u hu => ?_⟩
    obtain ⟨i, r, hi, -⟩ := hc.maps hk u hu
    rw [hi, hext.own hi]
  have hfetched : v.Fetched v' → v.Extends v' := fun h => by
    rcases h with rfl | ⟨i, -, hfetch⟩
    · exact .refl _
    · exact View.extends_of_path hfetch.path fun l hl => by cases l <;> first | exact hl.elim | trivial
  cases op with
  | declareFile =>
    rcases h.1 with rfl | he
    · exact hextends (.refl _)
    · exact hextends (View.extends_of_lasting he trivial)
  | resolve | growStack | fault => exact hextends (hfetched h)
  | mmap => exact hextends h.2.2.1
  | munmap k =>
    rcases h.2 with ⟨-, rfl⟩ | ⟨-, hunmaps⟩
    · exact ⟨hk, fun _ _ => rfl⟩
    · have hother : ¬ (p = q ∧ id = k) := fun hc => (hkept hc.1.symm).1 (by rw [hc.2])
      refine ⟨by rw [hunmaps.live, if_neg hother, hk], fun u hu => ?_⟩
      rw [hunmaps.loses.own, if_neg]
      rintro ⟨rfl, hu'⟩
      -- the pages of one mapping are in no other
      cases hlive : (v.mappings p).live[k]? with
      | none => simp [MapTable.pagesOf, hlive] at hu'
      | some mq =>
        rw [MapTable.pagesOf, hlive] at hu'
        exact hc.disjoint hk hlive (fun hid => hother ⟨rfl, hid⟩) hu hu'
  | exit =>
    rcases h.2 with ⟨-, rfl⟩ | ⟨-, hceases⟩
    · exact ⟨hk, fun _ _ => rfl⟩
    · have hpq : p ≠ q := fun hc => (hkept hc.symm).2 rfl
      obtain ⟨us, hloses⟩ := hceases.loses
      exact ⟨by rw [hceases.mappings p hpq, hk], fun u _ => by rw [hloses.own, if_neg fun hc => hpq hc.1]⟩
  | load =>
    rw [h.1]
    exact ⟨hk, fun _ _ => rfl⟩
  | store =>
    obtain ⟨_, _, _, -, -, rfl⟩ := h
    exact ⟨hk, fun _ _ => rfl⟩
  | setAccessed =>
    rw [show v' = v from h]
    exact ⟨hk, fun _ _ => rfl⟩
  | userLoad | userStore | validate | validateBuffer | validateString | copy =>
    simp [Op.basic] at hbasic

section

variable {H : FixedFile φ} {op : Op} {p q : ProcId} {id addr len : Nat} {handle : Handle} {v v' : View φ}
  {answer : Answer} {mp : Mapping}

/-- What a process sees of its file, mapping `id` showing it from `addr` on. -/
structure View.Exhibits (H : FixedFile φ) (v : View φ) (p : ProcId) (id addr : Nat) (handle : Handle)
    (len : Nat) (mp : Mapping) : Prop where
  live : (v.mappings p).live[id]? = some mp
  pages : mp.pages.toList = (tiles handle len).map (addr + ·.offset)
  sole : v.Sole H p mp.pages.toList
  portrays : v.Portrays H p addr handle len

open View

/-- Operations that do not release the mapping keep what the process sees of its file, but for what
they store. -/
theorem Op.Does.portrays (h : op.Does q v answer v') (hbasic : op.basic = true)
    (hkept : q = p → op ≠ .munmap id ∧ op ≠ .exit) (hv : v.Sound) (hc : v.Charted)
    (hx : v.Exhibits H p id addr handle len mp) :
    v'.Portrays H p addr handle len ∧
      ((∀ a data, op ≠ .store a data) → ∀ n < len, v'.shown H p addr n = v.shown H p addr n) := by
  have hown : ∀ r ∈ tiles handle len, v'.own p (addr + r.offset) = v.own p (addr + r.offset) :=
    fun r hr => (h.keeps_mapping hbasic hkept hc hx.live).2 _
      (by rw [hx.pages]; exact List.mem_map.2 ⟨r, hr, rfl⟩)
  have hsole := hx.sole
  rw [hx.pages] at hsole
  by_cases hstore : ∀ a data, op ≠ .store a data
  · obtain ⟨may, hpath, hnone, hcases⟩ := h.exists_path hbasic hstore
    obtain ⟨hp', hshown⟩ := hpath.portrays hnone (hcases.imp_right fun hold => ⟨hold, hsole⟩) hv
      hx.portrays hown
    exact ⟨hp', fun _ => hshown⟩
  · cases op with
    | store a data =>
      obtain ⟨fault, cell, dirty, -, hstores, rfl⟩ := h
      exact ⟨hstores.portrays hv hx.portrays, fun hno => absurd hno hstore⟩
    | _ => simp at hstore

/-- A part of an operation that is made up of others declares no part of a file. -/
theorem Op.Does.sole_of_part {us : List Nat} {o : Op} (h : o.Does q v answer v') (ho : op.Part o)
    (hv : v.Sound) (hsole : v.Sole H p us) : v'.Sole H p us := by
  cases o with
  | fault =>
    rcases h with rfl | ⟨i, -, hfetch⟩
    · exact hsole
    · refine hfetch.path.sole ?_ hv hsole
      rintro _ hl j rfl
      exact hl
  | load =>
    rw [h.1]
    exact hsole
  | store =>
    obtain ⟨_, _, _, -, -, rfl⟩ := h
    exact hsole
  | _ => exact ho.elim

end

open Machine Kernel View

/-- The parts of an operation leave a mapping alone. -/
theorem kept_of_part {op o : Op} (ho : op.Part o) (id : Nat) : o ≠ .munmap id ∧ o ≠ .exit := by
  cases o <;> first | exact ho.elim | simp

section

variable {H : FixedFile φ} {m m' : Machine φ} {op : Op} {p q : ProcId} {id addr len : Nat}
  {handle : Handle} {mp : Mapping}

theorem Kernel.Parts.keeps_mapping (h : Parts op q m m') (hm : m.Steady)
    (hk : (m.scene.mappings p).live[id]? = some mp) :
    (m'.scene.mappings p).live[id]? = some mp ∧ ∀ u ∈ mp.pages.toList, m'.scene.own p u = m.scene.own p u := by
  induction h with
  | refl => exact ⟨hk, fun _ _ => rfl⟩
  | @tail m₁ m' hparts hstep ih =>
    obtain ⟨o, answer, ho, hrun⟩ := hstep
    have hm₁ := (Parts.steady hparts hm).1
    have hdone := (ends_perform_basic hm₁ (basic_of_part ho)).of_ok hrun
    obtain ⟨hk', hown⟩ := hdone.does.keeps_mapping (basic_of_part ho) (fun _ => kept_of_part ho id)
      hm₁.charted ih.1
    exact ⟨hk', fun u hu => (hown u hu).trans (ih.2 u hu)⟩

theorem Kernel.Parts.exhibits (h : Parts op q m m') (hm : m.Steady)
    (hx : m.scene.Exhibits H p id addr handle len mp) :
    m'.scene.Exhibits H p id addr handle len mp ∧ ((∀ a data, ¬ op.Part (.store a data)) →
      ∀ n < len, m'.scene.shown H p addr n = m.scene.shown H p addr n) := by
  induction h with
  | refl => exact ⟨hx, fun _ _ _ => rfl⟩
  | @tail m₁ m' hparts hstep ih =>
    obtain ⟨o, answer, ho, hrun⟩ := hstep
    obtain ⟨hx₁, hshown⟩ := ih
    have hm₁ := (Parts.steady hparts hm).1
    have hbasic := basic_of_part ho
    have hdone := (ends_perform_basic hm₁ hbasic).of_ok hrun
    have hkept : q = p → o ≠ .munmap id ∧ o ≠ .exit := fun _ => kept_of_part ho id
    obtain ⟨hlive, -⟩ := hdone.does.keeps_mapping hbasic hkept hm₁.charted hx₁.live
    obtain ⟨hp', hshown'⟩ := hdone.does.portrays hbasic hkept hm₁.sound hm₁.charted hx₁
    refine ⟨⟨hlive, hx₁.pages, hdone.does.sole_of_part ho hm₁.sound hx₁.sole, hp'⟩, fun hno n hn => ?_⟩
    rw [hshown' (fun a data hc => hno a data (hc ▸ ho)) n hn, hshown hno n hn]

end

/-! ### What the file has in the end -/

namespace View

variable {H : FixedFile φ} {v v' : View φ} {p : ProcId} {id addr len : Nat} {handle : Handle}
  {mp : Mapping} {us : List Nat}

/-- A write that a page owes puts into the file what the process sees there. -/
theorem Portrays.shown_of_due (hp : v.Portrays H p addr handle len)
    (hsole : v.Sole H p ((tiles handle len).map (addr + ·.offset))) {u n : Nat} {c : FileCall} {x : UInt8}
    (hdue : v.due p u = some c) (hput : H.put? v.files n c = some x) : some x = v.shown H p addr n := by
  obtain ⟨i, r, f, b, hi, hr, -, hf, hb, rfl⟩ := due_eq_some hdue
  obtain ⟨hleads, o, ho, -, rfl, rfl⟩ := FixedFile.put?_slice_eq_some.1 hput
  obtain ⟨-, hmem, rfl⟩ := hp.mem_tiles hsole hi (by rw [hr]; rfl) hleads
  obtain ⟨i', ht⟩ := hp.tile r hmem
  obtain rfl := Option.some.inj (hi.symm.trans ht.own)
  rw [hp.shown_eq hmem ht ho, shownBy_of_frame hf hb]

/-- A byte that no page owes the file is there already: its page is clean or not in memory. -/
theorem Portrays.shown_of_unwritten (hp : v.Portrays H p addr handle len) (hv : v.Sound) {n : Nat}
    (hn : n < len) (hnone : ∀ r ∈ tiles handle len, ∀ c, v.due p (addr + r.offset) = some c →
      H.put? v.files n c = none) : (H.contents v.files)[n]? = v.shown H p addr n := by
  obtain ⟨r, hr, o, ho, rfl⟩ := exists_tile handle hn
  obtain ⟨i, ht⟩ := hp.tile r hr
  rw [hp.shown_eq hr ht ho]
  cases hf : (v.page i).frame with
  | none => rw [shownBy_of_away hf]
  | some f =>
    obtain ⟨b, hb⟩ := hv.housed.exists_cell ht.own hf
    rw [shownBy_of_frame hf hb]
    refine ht.clean f b hf hb ?_ o ho
    by_contra hd
    rw [Bool.not_eq_false] at hd
    have hdue := due_of_mapped ht.own ht.backing
    rw [write?_of_dirty hd hf hb] at hdue
    have hleads : H.leads v.files r.file = true := by rw [file_of_mem_tiles hr, hp.leads]
    have hsize := (bounds_of_mem_tiles hr).2.2.2
    have hput := hnone r hr _ hdue
    rw [FixedFile.put?_slice_eq_some.2 ⟨hleads, o, ho, Nat.lt_of_lt_of_le ho hsize, rfl, rfl⟩] at hput
    simp at hput

/-- When the pages of a mapping are given up, the file has what the process saw. -/
theorem Exhibits.contents_of_loses (hx : v.Exhibits H p id addr handle len mp) (hv : v.Sound)
    (h : v.Loses p us v') (hall : ∀ u ∈ mp.pages.toList, u ∈ us) :
    (H.contents v'.files).length = len ∧
      ∀ n < len, (H.contents v'.files)[n]? = v.shown H p addr n := by
  have hp := hx.portrays
  have hsole := hx.sole
  rw [hx.pages] at hsole hall
  have hknown : ∀ {g offset data}, .write g offset data ∈ us.filterMap (v.due p) →
      H.known v.files g = true := by
    intro g offset data hc
    obtain ⟨u, -, hdue⟩ := List.mem_filterMap.1 hc
    obtain ⟨i, r, f, b, hi, hr, -, -, -, hcall⟩ := due_eq_some hdue
    rw [(FileCall.write.inj hcall).1]
    exact (hsole p u i r hi (by rw [hr]; rfl)).1
  have hwant : ∀ c ∈ us.filterMap (v.due p), ∀ n x, H.put? v.files n c = some x →
      some x = v.shown H p addr n := by
    intro c hc n x hput
    obtain ⟨u, -, hdue⟩ := List.mem_filterMap.1 hc
    exact hp.shown_of_due hsole hdue hput
  obtain ⟨hlen, hbytes⟩ := FixedFile.contents_of_calls h.calls hknown hwant
  rw [hp.length] at hlen hbytes
  refine ⟨hlen, fun n hn => ?_⟩
  rcases hbytes n hn with hsame | ⟨hsame, hnone⟩
  · exact hsame
  · rw [hsame]
    exact hp.shown_of_unwritten hv hn fun r hr c hdue =>
      hnone c (List.mem_filterMap.2 ⟨_, hall _ (List.mem_map.2 ⟨r, hr, rfl⟩), hdue⟩)

/-- A file that has just been mapped is shown as it is. -/
theorem Attaches.portrays {file : Handle} (h : v.Attaches p file addr id handle len v')
    (hknown : H.known v.files file = true) (hleads : H.leads v.files file = true) :
    (H.contents v.files).length = len ∧ v'.Portrays H p addr handle len := by
  have hlen : (H.contents v.files).length = len := by rw [← h.length, H.length hknown hleads]
  obtain ⟨hknown₁, hleads₁⟩ := H.consulted (.length file) hknown
  obtain ⟨hknown₂, hleads₂⟩ := H.reopened hknown₁
  have hcontents : H.contents v'.files = H.contents v.files := by
    rw [h.files, H.unchanged (.reopen file), H.unchanged (.length file)]
  rw [h.opened, ← h.files] at hknown₂ hleads₂
  refine ⟨hlen, by rw [hcontents, hlen], h.aligned, hknown₂, by rw [hleads₂, hleads₁, hleads],
    fun r hr => ?_⟩
  obtain ⟨i, hi, hpage⟩ := h.tile r hr
  refine ⟨i, hi, by rw [hpage]; rfl, fun f b hf => ?_⟩
  rw [hpage] at hf
  simp [Page.declared] at hf

end View

namespace Machine

/-- The handles of all pages have been given out, and only the pages of mapping `id` of process `p` have
one that leads to the file. -/
def Sole (H : FixedFile φ) (p : ProcId) (id : Nat) (m : Machine φ) : Prop :=
  ∀ q w i r, m.declaredAt q w = some i → (m.page i).backing.region? = some r →
    H.known m.files r.file = true ∧
      (H.leads m.files r.file = true → q = p ∧ w ∈ (m.process p).mappings.pagesOf id)

/-- The byte at position `n` of the file as process `p` sees it from `addr` on: the frame of the page
has it while the page is in memory, and else the file. -/
def shown (H : FixedFile φ) (m : Machine φ) (p : ProcId) (addr n : Nat) : Option UInt8 :=
  (m.declaredAt p (pageBase (addr + n))).bind fun i =>
    match (m.page i).frame with
    | some f => some ((m.pool.read f).byte (pageOffset (addr + n)))
    | none => (H.contents m.files)[n]?

end Machine

/-- A run in which mapping `id` of process `p` is not released, all of its states being as `S` says. -/
inductive MappedSince (S : Machine φ → Prop) (p : ProcId) (id : Nat) (m₁ : Machine φ) : Machine φ → Prop
  | refl (state : S m₁) : MappedSince S p id m₁ m₁
  | spawn {m m' : Machine φ} {pid : UInt16} {limit : Option Nat} {q : ProcId}
      (before : MappedSince S p id m₁ m) (run : Kernel.spawn pid limit m = .ok q m') (state : S m') :
      MappedSince S p id m₁ m'
  | perform {m m' : Machine φ} {q : ProcId} {op : Op} {answer : Answer}
      (before : MappedSince S p id m₁ m) (kept : q = p → op ≠ .munmap id ∧ op ≠ .exit)
      (run : Kernel.perform q op m = .ok answer m') (state : S m') : MappedSince S p id m₁ m'

section

variable {S : Machine φ → Prop} {H : FixedFile φ} {m₁ m : Machine φ} {p : ProcId} {id addr len : Nat}
  {handle : Handle} {mp : Mapping}

theorem MappedSince.state (h : MappedSince S p id m₁ m) : S m := by
  cases h <;> assumption

theorem MappedSince.reachable (h : MappedSince S p id m₁ m) (h₁ : Reachable m₁) : Reachable m := by
  induction h with
  | refl => exact h₁
  | spawn _ run _ ih => exact .spawn ih run
  | perform _ _ run _ ih => exact .perform ih run

/-- The mapping stays, with its pages. -/
theorem MappedSince.keeps_mapping (h : MappedSince S p id m₁ m) (h₁ : Reachable m₁)
    (hk : (m₁.scene.mappings p).live[id]? = some mp) :
    (m.scene.mappings p).live[id]? = some mp ∧
      ∀ u ∈ mp.pages.toList, m.scene.own p u = m₁.scene.own p u := by
  induction h with
  | refl => exact ⟨hk, fun _ _ => rfl⟩
  | @spawn m m' pid limit q before run _ ih =>
    obtain ⟨-, rfl⟩ := EStateM.Result.ok.inj run
    rw [← ((before.reachable h₁).steady.shows_spawn pid limit).eq_scene rfl]
    exact ih
  | @perform m m' q op answer before kept run _ ih =>
    have hm := (before.reachable h₁).steady
    cases hop : op.basic with
    | true =>
      have hdone := (ends_perform_basic hm hop).of_ok run
      obtain ⟨hk', hown⟩ := hdone.does.keeps_mapping hop kept hm.charted ih.1
      exact ⟨hk', fun u hu => (hown u hu).trans (ih.2 u hu)⟩
    | false =>
      obtain ⟨hk', hown⟩ := ((splits_perform hm hop).of_ok run).1.keeps_mapping hm ih.1
      exact ⟨hk', fun u hu => (hown u hu).trans (ih.2 u hu)⟩

theorem Machine.Sole.scene (h : m.Sole H p id) (hk : (m.scene.mappings p).live[id]? = some mp) :
    m.scene.Sole H p mp.pages.toList := by
  intro q w i r hi hr
  obtain ⟨hknown, hleads⟩ := h q w i r hi hr
  refine ⟨hknown, fun hl => ?_⟩
  have hmem := hleads hl
  rwa [MapTable.pagesOf, show (m.process p).mappings.live[id]? = some mp from hk] at hmem

/-- The process goes on seeing its file through the mapping. -/
theorem MappedSince.exhibits (h : MappedSince (Machine.Sole H p id) p id m₁ m) (h₁ : Reachable m₁)
    (hk : (m₁.scene.mappings p).live[id]? = some mp)
    (hpages : mp.pages.toList = (tiles handle len).map (addr + ·.offset))
    (hp : m₁.scene.Portrays H p addr handle len) : m.scene.Exhibits H p id addr handle len mp := by
  induction h with
  | refl state => exact ⟨hk, hpages, state.scene hk, hp⟩
  | @spawn m m' pid limit q before run _ ih =>
    obtain ⟨-, rfl⟩ := EStateM.Result.ok.inj run
    rw [← ((before.reachable h₁).steady.shows_spawn pid limit).eq_scene rfl]
    exact ⟨ih.live, ih.pages, ih.sole, ih.portrays.length, ih.portrays.aligned, ih.portrays.known,
      ih.portrays.leads, fun r hr => (ih.portrays.tile r hr).imp fun i ht => ⟨ht.own, ht.backing, ht.clean⟩⟩
  | @perform m m' q op answer before kept run state ih =>
    have hm := (before.reachable h₁).steady
    have hk' := ((before.perform kept run state).keeps_mapping h₁ hk).1
    refine ⟨hk', hpages, state.scene hk', ?_⟩
    cases hop : op.basic with
    | true =>
      have hdone := (ends_perform_basic hm hop).of_ok run
      exact (hdone.does.portrays hop kept hm.sound hm.charted ih).1
    | false => exact (((splits_perform hm hop).of_ok run).1.exhibits hm ih).1.portrays

end

/-! ### The release of a mapping -/

namespace Machine

/-- In `m'` a file of `len` bytes has what process `p` saw of it in `m`, from `addr` on. -/
def Settles (H : FixedFile φ) (m m' : Machine φ) (p : ProcId) (addr len : Nat) : Prop :=
  (H.contents m'.files).length = len ∧ ∀ n < len, (H.contents m'.files)[n]? = m.shown H p addr n

/-- Where `bytes`, read at `a`, lie in the file of `len` bytes, they are what process `p` sees of it. -/
def Sees (H : FixedFile φ) (m : Machine φ) (p : ProcId) (addr len a : Nat) (bytes : List UInt8) :
    Prop :=
  ∀ j n, j < bytes.length → n < len → a + j = addr + n → bytes[j]? = m.shown H p addr n

end Machine

section

variable {H : FixedFile φ} {m m' : Machine φ} {p : ProcId} {id addr len : Nat} {handle : Handle}
  {mp : Mapping}

theorem Machine.Steady.shown (h : m.Steady) (p : ProcId) (addr n : Nat) :
    m.shown H p addr n = m.scene.shown H p addr n := by
  refine Option.bind_congr fun i hi => ?_
  have hface : (m.scene.page i).frame = (m.page i).frame := rfl
  cases hf : (m.page i).frame with
  | none => exact (shownBy_of_away (hface.trans hf) n _).symm
  | some f =>
    obtain ⟨b, hb⟩ := h.sound.housed.exists_cell hi (hface.trans hf)
    rw [shownBy_of_frame (hface.trans hf) hb, ← h.shows.read_of_cell hb]

/-- What is read is what is shown. -/
theorem View.Loads.shown {v : View φ} {a k : Nat} {bytes : List UInt8}
    {fault : Option PageTable.Fault} (h : v.Loads p a k bytes fault) (hv : v.Sound) {j n : Nat}
    (hj : j < bytes.length) (hn : a + j = addr + n) : bytes[j]? = v.shown H p addr n := by
  obtain ⟨r, f, b, hmap, hb, hbyte⟩ := h.byte j hj
  obtain ⟨i, hi, hf, -⟩ := hv.housed.mapping?_eq_some hmap
  rw [hn] at hi hbyte
  rw [hbyte, View.shown, hi, Option.bind_some, shownBy_of_frame hf hb,
    b.getElem?_eq_byte (pageOffset_lt _)]

theorem Machine.Steady.sees_of_load (hm : m.Steady) {a k : Nat} {bytes : List UInt8}
    {fault : Option PageTable.Fault} (hrun : Kernel.perform p (.load a k) m = .ok (.loaded bytes fault) m')
    (addr len : Nat) : m.Sees H p addr len a bytes := by
  obtain ⟨-, _, _, heq, hloads⟩ := ((ends_perform_basic hm rfl).of_ok hrun).does
  obtain ⟨rfl, rfl⟩ := Answer.loaded.inj heq
  intro j n hj _ hn
  rw [hm.shown, hloads.shown hm.sound hj hn]

/-- A read that goes through after page faults finds what was shown before them. -/
theorem View.Exhibits.sees_of_userLoad (hx : m.scene.Exhibits H p id addr handle len mp) (hm : m.Steady)
    {a k esp limit faults : Nat} {bytes : List UInt8}
    (hrun : Kernel.perform p (.userLoad a k esp limit) m = .ok (.retriedLoad (.done bytes faults)) m') :
    m.Sees H p addr len a bytes := by
  obtain ⟨hparts, hloads⟩ := (splits_userLoad hm a k esp limit).of_ok hrun
  have hm' := (hparts.steady hm).1
  have hshown := (hparts.exhibits hm hx).2 (by simp [Op.Part])
  intro j n hj hlt hn
  rw [hm.shown, ← hshown n hlt, (hloads bytes faults rfl).shown hm'.sound hj hn]

/-- However the mapping is released, the file has what the process saw. -/
theorem View.Exhibits.settles (hx : m.scene.Exhibits H p id addr handle len mp) (hm : m.Steady)
    {v' : View φ} {us : List Nat} (hfiles : v'.files = m'.files) (h : m.scene.Loses p us v')
    (hall : ∀ u ∈ mp.pages.toList, u ∈ us) : m.Settles H m' p addr len := by
  obtain ⟨hlen, hbytes⟩ := hx.contents_of_loses hm.sound h hall
  rw [hfiles] at hlen hbytes
  exact ⟨hlen, fun n hn => by rw [hbytes n hn, hm.shown]⟩

/-- When a mapping is released, its process gives back the pages of the mapping. -/
theorem ends_perform_munmap (hm : m.Steady) (hlive : m.scene.exited p = false)
    (hk : (m.scene.mappings p).live[id]? = some mp) {E : Stop → Machine φ → Prop} :
    Ends (Kernel.perform p (.munmap id)) m (fun answer m' => answer = .done ∧ m'.Steady ∧
      m.scene.Loses p mp.pages.toList m'.scene ∧ m.GivesBack m' p mp.pages.toList ∧
      ∀ q (k : Nat), (m'.scene.mappings q).live[k]? =
        if q = p ∧ k = id then none else (m.scene.mappings q).live[k]?) E := by
  rw [ends_perform_iff hm, if_neg (by simp [hlive])]
  refine (ends_munmap_of_steady hm hlive id).returns ?_
  rintro answer m' ⟨rfl, hdone⟩
  obtain ⟨-, ⟨hexited, -⟩ | ⟨-, hunmaps⟩⟩ := hdone.does
  · simp at hexited
  · have hloses := hunmaps.loses
    rw [MapTable.pagesOf, hk] at hloses
    exact ⟨rfl, hdone.steady, hloses, .of_loses hm hdone.steady.shows hdone.steady.sound rfl hloses
      (hm.charted.maps hk), hunmaps.live⟩

end

/-- When all mappings of a process are released, it gives back the pages of all of them. -/
theorem ends_unmapAll_of_steady {m : Machine φ} {p : ProcId} (hm : m.Steady)
    {E : Stop → Machine φ → Prop} :
    Ends (unmapAll (m.process p).mappings p) m (fun t m' => t.live = ∅ ∧ ∃ v' us, v'.files = m'.files ∧
      m.scene.Loses p us v' ∧ m.GivesBack m' p us ∧ ∀ u, u ∈ us ↔ ∃ (k : Nat) (mp : Mapping),
        (m.process p).mappings.live[k]? = some mp ∧ u ∈ mp.pages.toList) E := by
  refine (ends_unmapAll (p := p) hm.shows hm.sound rfl hm.charted hm.listed
    fun hne => absurd hne Set.not_nonempty_empty).returns ?_
  rintro t m' ⟨v', h', -, hpath, hdeclared, hgives, hempty, -⟩
  have hmem : ∀ u, u ∈ ((m.scene.mappings p).live.toList.flatMap fun x => x.2.pages.toList) ↔
      ∃ (k : Nat) (mp : Mapping), (m.process p).mappings.live[k]? = some mp ∧ u ∈ mp.pages.toList := by
    intro u
    simp only [List.mem_flatMap, Prod.exists, Std.ExtTreeMap.mem_toList_iff_getElem?_eq_some]
    rfl
  refine ⟨hempty, v', _, h'.files, hgives.toLoses, .of_loses hm h' (hpath.sound hm.sound) hdeclared
    hgives.toLoses fun u hu => ?_, hmem⟩
  obtain ⟨k, mp, hk, hu⟩ := (hmem u).1 hu
  exact hm.charted.maps (p := p) hk u hu

/-- The pages of a mapping stay declared until it is released, and then they go, with their frames, and
nothing else does, whatever the files do. If the file has a fixed size and no other page has a handle
that leads to it, it has in the end what the process saw through the mapping just before, and that is
what reads return. -/
theorem Reachable.unmaps {m₀ m₁ : Machine φ} {p : ProcId} {file : Handle} {addr id : Nat}
    (h₀ : Reachable m₀) (hmap : Kernel.perform p (.mmap file addr) m₀ = .ok (.mapping id) m₁) :
    (∃ us : List Nat, (∀ u, u ∈ us ↔ m₁.declaredAt p u ≠ m₀.declaredAt p u) ∧
      ∀ m, MappedSince (fun _ => True) p id m₁ m →
        (∀ u ∈ us, m.declaredAt p u = m₁.declaredAt p u) ∧
        Ends (Kernel.perform p (.munmap id)) m (fun answer m' => answer = .done ∧ m.GivesBack m' p us ∧
          ∀ q (k : Nat), (m'.process q).mappings.live[k]? =
            if q = p ∧ k = id then none else (m.process q).mappings.live[k]?) (fun _ _ => False) ∧
        Ends (unmapAll (m.process p).mappings p) m (fun t m' => t.live = ∅ ∧
          ∃ all, m.GivesBack m' p all ∧ ∀ u, u ∈ all ↔ ∃ (k : Nat) (mp : Mapping),
            (m.process p).mappings.live[k]? = some mp ∧ u ∈ mp.pages.toList) (fun _ _ => False)) ∧
    ∀ H : FixedFile φ, H.known m₀.files file = true → H.leads m₀.files file = true →
      ∀ m, MappedSince (Machine.Sole H p id) p id m₁ m →
        (∀ op, op = .munmap id ∨ op = .exit → Ends (Kernel.perform p op) m (fun answer m' =>
          answer = .done ∧ m.Settles H m' p addr (H.contents m₀.files).length) (fun _ _ => False)) ∧
        Ends (unmapAll (m.process p).mappings p) m
          (fun _ m' => m.Settles H m' p addr (H.contents m₀.files).length) (fun _ _ => False) ∧
        (∀ a k bytes fault m', Kernel.perform p (.load a k) m = .ok (.loaded bytes fault) m' →
          m.Sees H p addr (H.contents m₀.files).length a bytes) ∧
        ∀ a k esp limit bytes faults m',
          Kernel.perform p (.userLoad a k esp limit) m = .ok (.retriedLoad (.done bytes faults)) m' →
          m.Sees H p addr (H.contents m₀.files).length a bytes := by
  have h₁ : Reachable m₁ := .perform h₀ hmap
  obtain ⟨-, -, -, hattaches⟩ := ((ends_perform_basic h₀.steady rfl).of_ok hmap).does
  obtain ⟨handle, len, hatt⟩ := hattaches id rfl
  obtain ⟨pages, hk, hpages⟩ := hatt.live
  have hlive : ∀ {m : Machine φ} {S : Machine φ → Prop}, MappedSince S p id m₁ m →
      m.scene.exited p = false := by
    intro m S h
    obtain ⟨r, hr, -⟩ := exists_tile handle hatt.pos
    obtain ⟨i, hi, -⟩ := hatt.tile r hr
    have hu : addr + r.offset ∈ pages.toList := by
      rw [hpages]
      exact List.mem_map.2 ⟨r, hr, rfl⟩
    refine (h.reachable h₁).steady.sound.owned.live (u := addr + r.offset) (i := i) ?_
    rw [(h.keeps_mapping h₁ hk).2 _ hu, hi]
  refine ⟨⟨pages.toList, fun u => ?_, fun m h => ?_⟩, fun H hknown hleads m h => ?_⟩
  · rw [hpages]
    constructor
    · intro hu
      obtain ⟨r, hr, rfl⟩ := List.mem_map.1 hu
      obtain ⟨i, hi, -⟩ := hatt.tile r hr
      rw [show m₁.declaredAt p _ = some i from hi, show m₀.declaredAt p _ = none from hatt.fresh r hr]
      simp
    · intro hne
      by_contra hu
      exact hne (hatt.others p u fun hc => hu hc.2)
  · have hm := (h.reachable h₁).steady
    obtain ⟨hk', hown⟩ := h.keeps_mapping h₁ hk
    refine ⟨hown, ?_, ?_⟩
    · refine (ends_perform_munmap hm (hlive h) hk').returns ?_
      rintro answer m' ⟨rfl, -, -, hgives, hmappings⟩
      exact ⟨rfl, hgives, hmappings⟩
    · refine (ends_unmapAll_of_steady hm).returns ?_
      rintro t m' ⟨hempty, v', us, -, -, hgives, hmem⟩
      exact ⟨hempty, us, hgives, hmem⟩
  · have hm := (h.reachable h₁).steady
    obtain ⟨hlen, hportrays⟩ := hatt.portrays hknown hleads
    have hlen : (H.contents m₀.files).length = len := hlen
    have hx := h.exhibits h₁ hk hpages hportrays
    rw [hlen]
    refine ⟨?_, ?_, fun a k bytes fault m' hrun => hm.sees_of_load hrun addr len,
      fun a k esp limit bytes faults m' hrun => hx.sees_of_userLoad hm hrun⟩
    · rintro op (rfl | rfl)
      · refine (ends_perform_munmap hm (hlive h) hx.live).returns ?_
        rintro answer m' ⟨rfl, -, hloses, -⟩
        exact ⟨rfl, hx.settles hm rfl hloses fun _ hu => hu⟩
      · rw [ends_perform_iff hm, if_neg (by simp [hlive h])]
        refine (ends_exit_of_steady hm (hlive h)).returns ?_
        rintro answer m' ⟨rfl, hdone⟩
        obtain ⟨-, ⟨hexited, -⟩ | ⟨-, hceases⟩⟩ := hdone.does
        · simp at hexited
        obtain ⟨us, hloses⟩ := hceases.loses
        refine ⟨rfl, hx.settles hm rfl hloses fun u hu => ?_⟩
        -- the process has no page left, and this was one of its pages
        by_contra hno
        rw [hx.pages] at hu
        obtain ⟨r, hr, rfl⟩ := List.mem_map.1 hu
        obtain ⟨i, ht⟩ := hx.portrays.tile r hr
        have hgone := hceases.gone (addr + r.offset)
        rw [hloses.own, if_neg fun hc => hno hc.2, ht.own] at hgone
        simp at hgone
    · refine (ends_unmapAll_of_steady hm).returns ?_
      rintro t m' ⟨-, v', us, hfiles, hloses, -, hmem⟩
      exact hx.settles hm hfiles hloses fun u hu => (hmem u).2 ⟨id, _, hx.live, hu⟩

/-- The byte that has been stored in a mapped file of three bytes is in the file when the mapping has
been released. -/
theorem unmaps_of_stored : ∃ m₀ m₁ m : Machine MemoryFiles, Reachable m₀ ∧
    Kernel.perform 0 (.mmap 0 0x10000000) m₀ = .ok (.mapping 0) m₁ ∧
    (MemoryFiles.fixed 0).known m₀.files 0 = true ∧ (MemoryFiles.fixed 0).leads m₀.files 0 = true ∧
    MappedSince (Machine.Sole (MemoryFiles.fixed 0) 0 0) 0 0 m₁ m ∧
    m.shown (MemoryFiles.fixed 0) 0 0x10000000 1 = some 7 ∧
    Ends (Kernel.perform 0 (.munmap 0)) m (fun answer m' => answer = .done ∧
      ((MemoryFiles.fixed 0).contents m'.files)[1]? = some 7) fun _ _ => False := by
  have hsole : ∀ m : Machine MemoryFiles, m.Steady → (m.pages.next == 1 &&
      m.declaredAt 0 0x10000000 == some 0 && (m.process 0).mappings.pagesOf 0 == [0x10000000]) = true →
      m.Sole (MemoryFiles.fixed 0) 0 0 := by
    intro m hm hcheck
    simp only [Bool.and_eq_true, beq_iff_eq] at hcheck
    obtain ⟨⟨hnext, hdeclared⟩, hpages⟩ := hcheck
    intro q w i r hi hr
    refine ⟨rfl, fun _ => ?_⟩
    -- there is but one page
    have hlt : i < m.pages.next := hm.sound.owned.lt hi
    obtain rfl : i = 0 := Nat.lt_one_iff.1 (hnext ▸ hlt)
    obtain ⟨rfl, rfl⟩ := hm.sound.owned.eq_of_own hi hdeclared
    exact ⟨rfl, by rw [hpages]; exact List.mem_singleton.2 rfl⟩
  obtain ⟨m₀, h₀, -, hP⟩ := exists_reachable 1 1 (⟨#[⟨[1, 2, 3], none, none⟩]⟩ : MemoryFiles) []
    (fun m₀ => (MemoryFiles.fixed 0).leads m₀.files 0 &&
      ((MemoryFiles.fixed 0).contents m₀.files).length == 3 &&
      check (Kernel.perform 0 (.mmap 0 0x10000000)) (fun answer m₁ => answer.mapping? == some 0 &&
        (m₁.pages.next == 1 && m₁.declaredAt 0 0x10000000 == some 0 &&
          (m₁.process 0).mappings.pagesOf 0 == [0x10000000]) &&
        check (Kernel.perform 0 (.userStore 0x10000001 [7] 0 1)) (fun _ m =>
          (m.pages.next == 1 && m.declaredAt 0 0x10000000 == some 0 &&
            (m.process 0).mappings.pagesOf 0 == [0x10000000]) &&
          m.shown (MemoryFiles.fixed 0) 0 0x10000000 1 == some 7) m₁) m₀) (by decide +kernel)
  rw [Bool.and_eq_true, Bool.and_eq_true, beq_iff_eq] at hP
  obtain ⟨⟨hleads, hlen⟩, hP⟩ := hP
  obtain ⟨answer, m₁, hmap, hP⟩ := exists_of_check hP
  rw [Bool.and_eq_true, Bool.and_eq_true, beq_iff_eq] at hP
  obtain ⟨⟨hanswer, hcheck₁⟩, hP⟩ := hP
  obtain rfl := Answer.eq_of_mapping? hanswer
  obtain ⟨answer, m, hstore, hP⟩ := exists_of_check hP
  rw [Bool.and_eq_true, beq_iff_eq] at hP
  obtain ⟨hcheck, hshown⟩ := hP
  have h₁ : Reachable m₁ := .perform h₀ hmap
  have h : Reachable m := .perform h₁ hstore
  have hsince : MappedSince (Machine.Sole (MemoryFiles.fixed 0) 0 0) 0 0 m₁ m :=
    .perform (.refl (hsole m₁ h₁.steady hcheck₁)) (fun _ => ⟨by simp, by simp⟩) hstore
      (hsole m h.steady hcheck)
  have hends := ((h₀.unmaps hmap).2 (MemoryFiles.fixed 0) rfl hleads m hsince).1 _ (.inl rfl)
  refine ⟨m₀, m₁, m, h₀, hmap, rfl, hleads, hsince, hshown, hends.returns ?_⟩
  rintro answer m' ⟨rfl, -, hbytes⟩
  exact ⟨rfl, by rw [hbytes 1 (by rw [hlen]; decide), hshown]⟩

end DemandPaging
