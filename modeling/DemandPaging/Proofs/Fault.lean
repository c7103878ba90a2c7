import DemandPaging.Machine.Fault
import DemandPaging.Proofs.Access
import DemandPaging.Proofs.PageIn

/-!
# Accesses and page faults

An access goes through the page table, and cannot tell whether a page has been in swap space. A read
returns what the lent frames hold; the front of a write that goes through is one effect. A fault
that is resolved leaves its page in memory.
-/

namespace DemandPaging

/-- The front of `data` that a write at `a` got through before it met `fault`. -/
def written (a : Nat) (data : List UInt8) : Option PageTable.Fault → List UInt8
  | none => data
  | some f => data.take (f.addr - a)

namespace View

variable {φ : Type}

/-- What a read of `len` bytes of process `p` at `a` returns. -/
structure Loads (v : View φ) (p : ProcId) (a len : Nat) (bytes : List UInt8)
    (fault : Option PageTable.Fault) : Prop where
  whole : fault = none → bytes.length = len
  front : ∀ f, fault = some f → f.addr = a + bytes.length
  byte : ∀ j < bytes.length, ∃ r f b, v.mapping? p (pageBase (a + j)) = some (r, f) ∧
    v.cell f.cell = some b ∧ bytes[j]? = b.data[pageOffset (a + j)]?

end View

namespace Machine

open View

variable {φ : Type} {m : Machine φ} {v : View φ} {held : Set PageId} {p : ProcId}

/-- Page tables map pages of user space, and to user programs. -/
theorem Shows.proper (h : m.Shows v held) (hv : v.Sound) (p : ProcId) :
    (m.process p).table.Proper := by
  intro u r f hu
  rw [← h.mapping?] at hu
  obtain ⟨i, hi, -, hr⟩ := hv.housed.mapping?_eq_some hu
  simp only at hr
  rw [hr]
  exact ⟨rfl, rfl, hv.owned.user hi, hv.owned.aligned hi⟩

/-- The frames that a page table maps are lent, and no two pages share one. -/
theorem Shows.exclusive (h : m.Shows v held) (hv : v.Sound) (p : ProcId) :
    (m.process p).table.Exclusive m.pool where
  cell_lt u r f hu := by
    rw [← h.mapping?] at hu
    obtain ⟨i, hi, hf, -⟩ := hv.housed.mapping?_eq_some hu
    obtain ⟨b, hb⟩ := hv.housed.exists_cell hi hf
    exact Pool.lent_lt (h.lent_of_cell hb)
  inj u w r r' f g hu hw hcell := by
    rw [← h.mapping?] at hu hw
    obtain ⟨i, hi, hf, -⟩ := hv.housed.mapping?_eq_some hu
    obtain ⟨j, hj, hg, -⟩ := hv.housed.mapping?_eq_some hw
    have he := hv.housed.eq_of_cell (hv.housed.mem_tenants hi hf) (hv.housed.mem_tenants hj hg) hcell
    rw [Tenancy.mk.injEq] at he
    rw [← he.2.2] at hj
    exact (hv.owned.eq_of_own hi hj).2

/-- The machine after a write of process `p` that came to `res`. -/
def afterStore (m : Machine φ) (p : ProcId) (res : PageTable.Stored) : Machine φ :=
  (m.withPool res.pool).withTable p fun _ => res.table

theorem process_afterStore (m : Machine φ) (p q : ProcId) (res : PageTable.Stored) :
    (m.afterStore p res).process q =
      if p = q ∧ q < m.processes.size then { m.process q with table := res.table }
      else m.process q :=
  process_withProcess (m.withPool res.pool) p q fun proc => { proc with table := res.table }

theorem Shows.afterStore (h : m.Shows v held) {a : Nat} {data : List UInt8} {res : PageTable.Stored}
    (hres : (m.process p).table.store m.pool a data = res) :
    (m.afterStore p res).Shows { v with
      cell := res.pool.contents?
      dirty := fun q u => ((m.afterStore p res).process q).table.isDirty u } held where
  view := by
    have hkeeps := hres ▸ PageTable.store_keeps data (m.process p).table m.pool a
    conv_rhs => rw [← h.view]
    refine View.ext ?_ rfl (funext fun q => funext fun u => ?_) rfl rfl
      (funext fun q => funext fun u => ?_) rfl rfl hkeeps.inUse rfl rfl rfl (funext fun q => ?_)
      (funext fun q => ?_)
    · show (m.withPool res.pool).plant = m.plant
      simp [Machine.plant, withPool, Machine.pool, withAllocator, hkeeps.firstPfn, hkeeps.total]
    all_goals
      simp only [Machine.view, declaredAt, process_afterStore]
      split
      · rename_i hq
        obtain ⟨rfl, -⟩ := hq
        first | rfl | exact hkeeps.mapping? u
      · rfl
  fit := h.fit.congr rfl rfl rfl

/-- The front of a write that goes through is one effect. -/
theorem Shows.stores (h : m.Shows v held) (hv : v.Sound) {a : Nat} {data : List UInt8}
    {res : PageTable.Stored} (hres : (m.process p).table.store m.pool a data = res)
    (fault : Option PageTable.Fault) (hfault : res.trouble = fault.map .fault) :
    v.Stores p a (written a data fault) res.pool.contents?
      (fun q u => ((m.afterStore p res).process q).table.isDirty u) := by
  have hkeeps := hres ▸ PageTable.store_keeps data (m.process p).table m.pool a
  obtain ⟨k, hk⟩ := PageTable.exists_store_writes data _ _ a (h.proper hv p) (h.exclusive hv p)
  rw [hres] at hk
  have hwritten : written a data fault = data.take k := by
    cases fault with
    | none => rw [hk.whole hfault, List.take_length]; rfl
    | some f => rw [written, hk.fault f hfault, Nat.add_sub_cancel_left]
  have hlen : (data.take k).length = k := List.length_take_of_le hk.le
  have hcell : ∀ c, (res.pool.contents? c).isSome = (v.cell c).isSome := fun c => by
    rw [h.cell, Pool.contents?, Pool.contents?, hkeeps.lent]
    split <;> rfl
  rw [hwritten]
  refine ⟨fun j hj => ?_, fun q u => ?_, hcell, fun u r f b hu hb => ?_, fun c hc => ?_⟩
  · rw [hlen] at hj
    obtain ⟨r, f, hr, hw⟩ := hk.mapped j hj
    exact ⟨r, f, (h.mapping? p _).trans hr, hw⟩
  · rw [hlen, h.dirty]
    rw [process_afterStore]
    split
    · rename_i hq
      rw [← hq.1]
      simp only [true_and]
      exact hk.dirty u
    · rename_i hq
      refine ⟨.inl, fun hd => hd.elim id ?_⟩
      rintro ⟨rfl, j, hj, -⟩
      -- a process that was never started has nothing mapped
      obtain ⟨r, f, hr, -⟩ := hk.mapped j hj
      have habsent : m.process q = .absent :=
        process_of_le (Nat.le_of_not_lt fun hlt => hq ⟨rfl, hlt⟩)
      rw [habsent] at hr
      simp [Process.absent, Process.fresh] at hr
  · rw [hlen]
    have hlent : res.pool.lent f.cell = true := by
      rw [hkeeps.lent]
      exact h.lent_of_cell hb
    rw [h.mapping?] at hu
    refine ⟨_, Pool.contents?_of_lent hlent, fun o ho => ?_⟩
    rw [hk.read u r f hu o ho, show m.pool.read f = b from h.read_of_cell hb]
    split
    · rw [List.getElem?_take, if_pos (by omega)]
    · rfl
  · rw [h.cell, Pool.contents?, Pool.contents?, hkeeps.lent]
    split
    · rw [hk.other (res.pool.frameAt c) fun u r f hu => hc u r f ((h.mapping? p u).trans hu)]
      rw [m.pool.read_eq_of_cell (f := res.pool.frameAt c) (g := m.pool.frameAt c) rfl]
    · rfl

end Machine

namespace Kernel

open Machine View

variable {φ : Type} [FileSystem φ] {m : Machine φ} {v : View φ} {held : Set PageId}
  {p : ProcId} {late : Prop}

/-! ### Accesses -/

theorem ends_load (h : m.Shows v held) (hv : v.Sound) (p : ProcId) (a len : Nat) :
    Ends (load p a len) m (fun r m' => m'.Shows v held ∧ v.Loads p a len r.1 r.2)
      (Stops (wordLimit ≤ a) v) := by
  have hkeeps := PageTable.load_keeps m.pool len (m.process p).table a
  have hreads := PageTable.load_reads m.pool len (m.process p).table a
  have htrouble := (h.proper hv p).load_trouble m.pool len _ a
  simp only [load, ends_bind, ends_get, ends_modifyTable]
  generalize (m.process p).table.load m.pool a len = res at hkeeps hreads htrouble ⊢
  have h' := h.withTable (p := p) (f := fun _ => res.table) hkeeps.1 hkeeps.2
  have hloads : ∀ fault, res.trouble = fault.map .fault → v.Loads p a len res.bytes fault := by
    intro fault hfault
    refine ⟨fun hnone => hreads.whole (by rw [hfault, hnone]; rfl),
      fun f hf => hreads.fault f (by rw [hfault, hf]; rfl), fun j hj => ?_⟩
    obtain ⟨r, f, hr, hbyte⟩ := hreads.byte j hj
    have hr' := (h.mapping? p _).trans hr
    obtain ⟨i, hi, hf, -⟩ := hv.housed.mapping?_eq_some hr'
    obtain ⟨b, hb⟩ := hv.housed.exists_cell hi hf
    exact ⟨r, f, b, hr', hb, by rw [hbyte, show m.pool.read f = b from h.read_of_cell hb]⟩
  cases ht : res.trouble with
  | none => exact ⟨h', hloads none ht⟩
  | some e =>
    cases e with
    | fault f => exact ⟨h', hloads (some f) ht⟩
    | misuse e =>
      obtain ⟨rfl, hle⟩ := htrouble e ht
      exact .of_resembles hle h'.resembles

theorem ends_store (h : m.Shows v held) (hv : v.Sound) (p : ProcId) (a : Nat) (data : List UInt8) :
    Ends (store p a data) m (fun fault m' => ∃ cell dirty, v.Stores p a (written a data fault) cell dirty ∧
      m'.Shows { v with cell, dirty } held) (Stops (wordLimit ≤ a) v) := by
  have htrouble := (h.proper hv p).store_trouble data _ m.pool a
  simp only [store, ends_bind, ends_get, ends_modify, ends_modifyTable]
  cases hres : (m.process p).table.store m.pool a data with
  | mk pool table trouble =>
    rw [hres] at htrouble
    have h' := h.afterStore hres
    cases trouble with
    | none => exact ⟨_, _, h.stores hv hres none rfl, h'⟩
    | some e =>
      cases e with
      | fault f => exact ⟨_, _, h.stores hv hres (some f) rfl, h'⟩
      | misuse e =>
        obtain ⟨rfl, hle⟩ := htrouble e rfl
        exact .of_resembles hle ⟨h'.resembles.files, h'.resembles.frame, h'.resembles.declared⟩

omit [FileSystem φ] in
/-- A read goes through if all pages that it touches are mapped. -/
theorem exists_load_of_mapped (h : m.Shows v held) (hv : v.Sound) {a len : Nat} (ha : a < wordLimit)
    (hmapped : ∀ k < len, ((m.process p).table.mapping? (pageBase (a + k))).isSome = true) :
    ∃ bytes m', load p a len m = .ok (bytes, none) m' ∧ bytes.length = len := by
  obtain ⟨k, hmarks⟩ := PageTable.exists_load_marks m.pool len (m.process p).table a
  have hreads := PageTable.load_reads m.pool len (m.process p).table a
  have hmisuse := (h.proper hv p).load_trouble m.pool len _ a
  have htrouble : ((m.process p).table.load m.pool a len).trouble = none := by
    cases hres : ((m.process p).table.load m.pool a len).trouble with
    | none => rfl
    | some e =>
      rw [hres] at hmarks hmisuse
      cases e with
      | fault g =>
        obtain ⟨hk, -, -, hdenied⟩ := hmarks.fault g rfl
        obtain ⟨⟨r, f⟩, hr⟩ := Option.isSome_iff_exists.1 (hmapped k hk)
        simpa using (hdenied r f hr).1
      | misuse e => exact absurd (hmisuse e rfl).2 (Nat.not_le_of_lt ha)
  refine ⟨_, m.withTable p fun _ => ((m.process p).table.load m.pool a len).table,
    eq_ok_of_ends ?_, hreads.whole htrouble⟩
  simp only [load, ends_bind, ends_get, ends_modifyTable, htrouble, ends_pure, and_self]

/-- A read that the process would find to return `bytes` returns them. -/
theorem exists_load_of_loads (h : m.Shows v held) (hv : v.Sound) {a len : Nat} {bytes : List UInt8}
    (ha : a < wordLimit) (hloads : v.Loads p a len bytes none) : ∃ m', load p a len m = .ok (bytes, none) m' := by
  have hlen := hloads.whole rfl
  have hmapped : ∀ k < len, ((m.process p).table.mapping? (pageBase (a + k))).isSome = true := fun k hk => by
    obtain ⟨r, f, b, hmap, -⟩ := hloads.byte k (hlen.symm ▸ hk)
    rw [← h.mapping?, hmap]
    rfl
  obtain ⟨bytes', m', hrun, hlen'⟩ := exists_load_of_mapped h hv ha hmapped
  have hloads' := ((ends_load h hv p a len).of_ok hrun).2
  have hsame : bytes' = bytes := by
    refine List.ext_getElem? fun j => ?_
    rcases Nat.lt_or_ge j len with hj | hj
    · obtain ⟨r, f, b, hmap, hcell, hbyte⟩ := hloads.byte j (hlen.symm ▸ hj)
      obtain ⟨r', f', b', hmap', hcell', hbyte'⟩ := hloads'.byte j (hlen'.symm ▸ hj)
      obtain ⟨-, rfl⟩ := Prod.mk.inj (Option.some.inj (hmap.symm.trans hmap'))
      obtain rfl := Option.some.inj (hcell.symm.trans hcell')
      exact hbyte'.trans hbyte.symm
    · rw [List.getElem?_eq_none (hlen'.trans_le hj), List.getElem?_eq_none (hlen.trans_le hj)]
  exact ⟨m', hsame ▸ hrun⟩

omit [FileSystem φ] in
/-- What has been stored is what a read would find. -/
theorem loads_of_stores {a : Nat} {data : List UInt8} {cell : Nat → Option PageBytes}
    {dirty : ProcId → Nat → Bool} (h : v.Stores p a data cell dirty) (hv : v.Sound) :
    View.Loads { v with cell, dirty } p a data.length data none where
  whole _ := rfl
  front f hf := by simp at hf
  byte j hj := by
    obtain ⟨r, f, hmap, -⟩ := h.mapped j hj
    obtain ⟨i, hi, hf, -⟩ := hv.housed.mapping?_eq_some hmap
    obtain ⟨b, hb⟩ := hv.housed.exists_cell hi hf
    obtain ⟨b', hb', hbytes⟩ := h.bytes _ r f b hmap hb
    refine ⟨r, f, b', hmap, hb', ?_⟩
    rw [hbytes _ (pageOffset_lt _), pageBase_add_pageOffset, if_pos ⟨Nat.le_add_right _ _, by omega⟩,
      Nat.add_sub_cancel_left]

/-! ### Page faults -/

/-- What the handling of a fault of process `p` at `a` comes to. -/
structure Handles (v : View φ) (p : ProcId) (a : Nat) (result : Except FaultError Unit)
    (v' : View φ) : Prop where
  fetched : v.Fetched v'
  declared : v'.declared = v'.own
  resident : result = .ok () → ∃ i, v'.own p (pageBase a) = some i ∧
    (v'.page i).frame.isSome = true

theorem ends_decideFault (h : m.Shows v held) (hv : v.Sound) (hdeclared : v.declared = v.own)
    (hlive : v.exited p = false) (a esp : Nat) (write : Bool) :
    Ends (decideFault p a esp write) m (fun result m' => ∃ v', m'.Shows v' held ∧
      v.Guards held v' ∧ Handles v p a result v') (Stalls held late v) := by
  have hrefuse : ∀ e, ∃ v', m.Shows v' held ∧ v.Guards held v' ∧ Handles v p a (.error e) v' := fun e =>
    ⟨v, h, .refl _ _, .inl rfl, hdeclared, by simp⟩
  rw [decideFault, ends_ite]
  split
  · exact hrefuse _
  rw [ends_bind, ends_get]
  have hlookup : m.lookup p a = v.own p (pageBase a) := by
    rw [← hdeclared, h.declared]
    rfl
  cases hi : m.lookup p a with
  | some i =>
    rw [hlookup] at hi
    simp only [ends_bind, ends_ite, ends_pure, ends_page]
    have hresolve : Ends (resolve p i) m (fun result m' => ∃ v', m'.Shows v' held ∧
        v.Guards held v' ∧ Handles v p a (result.mapError (.pageIn a)) v') (Stalls held late v) := by
      refine (ends_resolve h hv hdeclared hi).returns ?_
      rintro result m' ⟨v', h', hguards, hfetched, hown, hdeclared', hresident⟩
      refine ⟨v', h', hguards, hfetched, by rw [hdeclared', hown, hdeclared], fun hok => ⟨i, ?_, ?_⟩⟩
      · rw [hown, hi]
      · cases result with
        | ok _ => exact hresident rfl
        | error e => simp [Except.mapError] at hok
    split
    · exact hrefuse _
    · exact hresolve
  | none =>
    simp only [ends_bind, ends_ite, ends_pure]
    split
    · refine (ends_growStack h hv hdeclared hlive a).returns ?_
      rintro result m' ⟨v', h', hguards, hfetched, hdeclared', hnew⟩
      cases result with
      | none => exact ⟨v', h', hguards, hfetched, hdeclared', by simp⟩
      | some i => exact ⟨v', h', hguards, hfetched, hdeclared', fun _ => ⟨i, hnew i rfl⟩⟩
    · exact hrefuse _

theorem ends_handleFault (h : m.Shows v held) (hv : v.Sound) (hdeclared : v.declared = v.own)
    (hlive : v.exited p = false) (a esp : Nat) (write : Bool) :
    Ends (handleFault p a esp write) m (fun result m' => ∃ v', m'.Shows v' held ∧
      v.Guards held v' ∧ Handles v p a result v') (Stalls held late v) := by
  rw [handleFault, ends_bind]
  refine (ends_decideFault h hv hdeclared hlive a esp write).returns ?_
  rintro result m₁ ⟨v₁, h₁, hguards, hhandles⟩
  cases result with
  | ok _ => exact ⟨v₁, h₁, hguards, hhandles⟩
  | error e =>
    simp only [ends_bind, ends_process, ends_emit, ends_pure]
    exact ⟨v₁, h₁.report _, hguards, hhandles⟩

end Kernel

end DemandPaging
