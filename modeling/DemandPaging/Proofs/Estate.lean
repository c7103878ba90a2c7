import DemandPaging.Proofs.LayoutSteps

/-!
# Runs with many tables of mappings

A process may keep tables of mappings beside its own, as long as it uses each of them with its own pages
only. In a run that makes use of that, and in which anything may happen meanwhile that leaves the layout
alone, the declared pages and the live mappings are in step, and every table numbers its mappings in
ascending order, without gaps.
-/

namespace DemandPaging

/-- A machine, the tables of mappings that processes keep beside their own, and the numbers that have been
given out. The table `none` of a process is its own. -/
structure Estate (φ : Type) where
  machine : Machine φ
  spare : ProcId → Nat → MapTable
  /-- The numbers of the mappings made in a table so far, in order. -/
  issued : ProcId → Option Nat → List Nat

namespace Estate

variable {φ : Type}

/-- Table `y` of process `p`. -/
def table (s : Estate φ) (p : ProcId) : Option Nat → MapTable
  | none => (s.machine.process p).mappings
  | some k => s.spare p k

/-- The numbers that have been given out, and those that table `y` of process `p` gives out now. -/
def issuing (s : Estate φ) (p : ProcId) (y : Option Nat) (new : List Nat) : ProcId → Option Nat → List Nat :=
  fun q z => if q = p ∧ z = y then s.issued q z ++ new else s.issued q z

variable [FileSystem φ]

/-- The estates that a run can come to. Every table is used by the process that it belongs to. -/
inductive Run : Estate φ → Prop
  | start {m : Machine φ} (unused : m.processes = #[]) : Run ⟨m, fun _ _ => .empty, fun _ _ => []⟩
  | spawn {s : Estate φ} {m' : Machine φ} {pid : UInt16} {limit : Option Nat} {p : ProcId} (reach : Run s)
      (run : Kernel.spawn pid limit s.machine = .ok p m') :
      Run ⟨m', Function.update s.spare p fun _ => .empty, Function.update s.issued p fun _ => []⟩
  | operate {s : Estate φ} {m' : Machine φ} {p : ProcId} {op : Op} {answer : Answer} (reach : Run s)
      (live : op.onTable = false → (s.machine.process p).exited = false)
      (other : ∀ file addr, op ≠ .mmap file addr)
      (run : Kernel.execute p op s.machine = .ok answer m') : Run { s with machine := m' }
  | mmap {s : Estate φ} {m' : Machine φ} {p : ProcId} {file : Handle} {addr : Nat}
      {result : Except MapError Nat} (reach : Run s) (live : (s.machine.process p).exited = false)
      (run : Kernel.mmap p file addr s.machine = .ok result m') :
      Run { s with machine := m', issued := s.issuing p none result.toOption.toList }
  | mapFile {s : Estate φ} {m' : Machine φ} {p : ProcId} {k : Nat} {file : Handle} {addr : Nat}
      {result : Except MapError Nat} {t : MapTable} (reach : Run s)
      (live : (s.machine.process p).exited = false)
      (run : Kernel.mapFile (s.spare p k) p file addr s.machine = .ok (result, t) m') :
      Run ⟨m', setAt s.spare p k t, s.issuing p (some k) result.toOption.toList⟩
  | unmapFile {s : Estate φ} {m' : Machine φ} {p : ProcId} {k id : Nat} {t : MapTable} (reach : Run s)
      (live : (s.machine.process p).exited = false)
      (run : Kernel.unmapFile (s.spare p k) p id s.machine = .ok t m') :
      Run { s with machine := m', spare := setAt s.spare p k t }
  | unmapAll {s : Estate φ} {m' : Machine φ} {p : ProcId} {k : Nat} {t : MapTable} (reach : Run s)
      (live : (s.machine.process p).exited = false)
      (run : Kernel.unmapAll (s.spare p k) p s.machine = .ok t m') :
      Run { s with machine := m', spare := setAt s.spare p k t }
  /-- Pins, memory, swap space, page tables, devices and files are free to change. -/
  | aside {s : Estate φ} {m' : Machine φ} (reach : Run s) (same : s.machine.SameLayout m') :
      Run { s with machine := m' }

/-- Declared pages are where they may be, those of mapped files are in step with the live mappings, and
every table has given out the numbers below its next one, in order. -/
structure Consistent (s : Estate φ) : Prop where
  /-- A page is declared at its own address, which is that of a page of user space. -/
  address : ∀ {p u i}, s.machine.declaredAt p u = some i → (s.machine.page i).upage = u ∧
    u % pageSize = 0 ∧ userBase ≤ u ∧ u < userTop
  whole : ∀ {p u i r}, s.machine.declaredAt p u = some i → (s.machine.page i).backing.region? = some r →
    r.readLen + r.zeroLen = pageSize
  /-- Memory without a file is stack. -/
  stack : ∀ {p u i}, s.machine.declaredAt p u = some i → (s.machine.page i).backing = .swap →
    (s.machine.page i).writable = true ∧ userTop - stackLimit ≤ u ∧ u < userTop
  /-- A page of a mapped file is listed once, by a single live mapping, and uses its handle. -/
  mapped : ∀ {p u i r}, s.machine.declaredAt p u = some i → (s.machine.page i).backing = .mapped r →
    (s.machine.page i).writable = true ∧ ∃ (y : Option Nat) (id : Nat) (mp : Mapping),
      (s.table p y).live[id]? = some mp ∧ mp.file = r.file ∧ mp.pages.toList.count u = 1 ∧
      ∀ (z : Option Nat) (j : Nat) (mp' : Mapping), (s.table p z).live[j]? = some mp' →
        u ∈ mp'.pages.toList → z = y ∧ j = id
  /-- What a live mapping lists are pages of its file. The tables that a process kept beside its own are
  out of use once it has exited. -/
  listed : ∀ {p : ProcId} {y : Option Nat} {id : Nat} {mp : Mapping},
    y = none ∨ (s.machine.process p).exited = false → (s.table p y).live[id]? = some mp →
    ∀ u ∈ mp.pages.toList, ∃ i r, s.machine.declaredAt p u = some i ∧
      (s.machine.page i).backing = .mapped r ∧ r.file = mp.file
  below : ∀ {p : ProcId} {y : Option Nat} {id : Nat} {mp : Mapping}, (s.table p y).live[id]? = some mp →
    id < (s.table p y).nextId
  issued : ∀ p y, s.issued p y = List.range (s.table p y).nextId

/-! ### The invariant of a run -/

section

variable {s s' : Estate φ} {m' : Machine φ} {p : ProcId} {y : Option Nat} {t : MapTable}

omit [FileSystem φ]

/-- The live mappings of live processes. -/
def catalogue (s : Estate φ) : Catalogue := fun key =>
  if (s.machine.process key.1).exited then none else (s.table key.1 key.2.1).live[key.2.2]?

theorem catalogue_of_live {id : Nat} (hlive : (s.machine.process p).exited = false) :
    s.catalogue (p, y, id) = (s.table p y).live[id]? := if_neg (by simp [hlive])

theorem catalogue_withTable (hlive : (s.machine.process p).exited = false) (y : Option Nat) :
    s.catalogue.withTable p y (s.table p y) = s.catalogue := by
  funext key
  rw [Catalogue.withTable]
  split
  · rename_i hkey
    obtain ⟨rfl, rfl⟩ := hkey
    exact (catalogue_of_live hlive).symm
  · rfl

/-- The layout is in step with the tables of live processes, and the tables have numbered their mappings
without gaps. -/
structure Orderly (s : Estate φ) : Prop where
  arranged : s.machine.Arranged s.catalogue
  below : ∀ {p : ProcId} {y : Option Nat} {id : Nat} {mp : Mapping}, (s.table p y).live[id]? = some mp →
    id < (s.table p y).nextId
  issued : ∀ p y, s.issued p y = List.range (s.table p y).nextId
  closed : ∀ p, (s.machine.process p).exited = true → (s.machine.process p).mappings.live = ∅

/-- The invariant, with the mappings of one table named. -/
theorem Orderly.arranged_withTable (h : s.Orderly) (hlive : (s.machine.process p).exited = false)
    (y : Option Nat) : s.machine.Arranged (s.catalogue.withTable p y (s.table p y)) := by
  rw [catalogue_withTable hlive]
  exact h.arranged

theorem Orderly.next_free (h : s.Orderly) (p : ProcId) (y : Option Nat) :
    (s.table p y).live[(s.table p y).nextId]? = none := by
  refine Option.eq_none_iff_forall_not_mem.2 fun mp hmp => ?_
  exact Nat.lt_irrefl _ (h.below hmp)

/-- Nothing happens to the tables. -/
theorem Orderly.of_sameBooks (h : s.Orderly) (hbooks : s.machine.SameBooks m')
    (harranged : m'.Arranged s.catalogue) : Orderly { s with machine := m' } := by
  have htable : ∀ p y, table { s with machine := m' } p y = s.table p y := by
    intro p y
    cases y with
    | none => exact (hbooks p).1
    | some k => rfl
  have hcatalogue : catalogue { s with machine := m' } = s.catalogue := by
    funext key
    rw [catalogue, htable, hbooks.exited, catalogue]
  refine ⟨hcatalogue ▸ harranged, fun {p y id mp} hmp => ?_, fun p y => ?_, fun p hexited => ?_⟩
  · rw [htable] at hmp ⊢
    exact h.below hmp
  · rw [htable]
    exact h.issued p y
  · rw [(hbooks p).1]
    exact h.closed p ((hbooks.exited p).symm.trans hexited)

/-- One table of a live process changes, and may give out numbers. -/
theorem Orderly.of_table (h : s.Orderly) (hlive : (s.machine.process p).exited = false)
    (hexited : ∀ q, (s'.machine.process q).exited = (s.machine.process q).exited)
    (htable : ∀ q z, s'.table q z = if q = p ∧ z = y then t else s.table q z)
    (new : List Nat) (hissued : s'.issued = s.issuing p y new)
    (harranged : s'.machine.Arranged (s.catalogue.withTable p y t))
    (hbelow : ∀ {id : Nat} {mp : Mapping}, t.live[id]? = some mp → id < t.nextId)
    (hnew : List.range (s.table p y).nextId ++ new = List.range t.nextId) : s'.Orderly := by
  have hcatalogue : s'.catalogue = s.catalogue.withTable p y t := by
    funext key
    rw [catalogue, hexited, htable, Catalogue.withTable]
    split
    · rename_i hgone
      rw [if_neg, catalogue, if_pos hgone]
      rintro ⟨rfl, -⟩
      simp [hlive] at hgone
    · rename_i hthere
      split
      · rfl
      · rw [catalogue, if_neg hthere]
  refine ⟨hcatalogue ▸ harranged, fun {q z id mp} hmp => ?_, fun q z => ?_, fun q hq => ?_⟩
  · rw [htable] at hmp ⊢
    split at hmp
    · rename_i hkey
      rw [if_pos hkey]
      exact hbelow hmp
    · rename_i hkey
      rw [if_neg hkey]
      exact h.below hmp
  · rw [hissued, issuing, htable]
    split
    · rename_i hkey
      rw [hkey.1, hkey.2, h.issued, hnew]
    · exact h.issued q z
  · have hown := htable q none
    rw [if_neg, table, table] at hown
    · rw [hown]
      exact h.closed q (hexited q ▸ hq)
    · rintro ⟨rfl, -⟩
      simp [hexited, hlive] at hq

/-- A file is mapped or not. -/
theorem Orderly.of_numbers (h : s.Orderly) (hlive : (s.machine.process p).exited = false)
    {result : Except MapError Nat} (hnumbers : (s.table p y).Numbers result t)
    (hexited : ∀ q, (s'.machine.process q).exited = (s.machine.process q).exited)
    (htable : ∀ q z, s'.table q z = if q = p ∧ z = y then t else s.table q z)
    (hissued : s'.issued = s.issuing p y result.toOption.toList)
    (harranged : s'.machine.Arranged (s.catalogue.withTable p y t)) : s'.Orderly := by
  refine h.of_table hlive hexited htable _ hissued harranged (fun {id mp} hmp => ?_) ?_
  · cases hnumbers with
    | made mp' =>
      rw [MapTable.live_add] at hmp
      split at hmp
      · rename_i heq
        exact Nat.lt_succ_of_le (Nat.le_of_eq heq)
      · exact Nat.lt_succ_of_lt (h.below hmp)
    | failed e => exact h.below hmp
  · cases hnumbers with
    | made mp => exact List.range_succ.symm
    | failed e => exact List.append_nil _

/-- Mappings are released. -/
theorem Orderly.of_shrinks (h : s.Orderly) (hlive : (s.machine.process p).exited = false)
    (hshrinks : (s.table p y).Shrinks t)
    (hexited : ∀ q, (s'.machine.process q).exited = (s.machine.process q).exited)
    (htable : ∀ q z, s'.table q z = if q = p ∧ z = y then t else s.table q z)
    (hissued : s'.issued = s.issued)
    (harranged : s'.machine.Arranged (s.catalogue.withTable p y t)) : s'.Orderly := by
  refine h.of_table hlive hexited htable [] ?_ harranged
    (fun hmp => hshrinks.nextId ▸ h.below (hshrinks.live hmp)) (by rw [hshrinks.nextId, List.append_nil])
  rw [hissued]
  funext q z
  rw [issuing, List.append_nil, ite_self]

end

/-! ### Each step of a run -/

section

open Machine Kernel

variable {s : Estate φ} {m m' : Machine φ} {p : ProcId}

omit [FileSystem φ] in
theorem orderly_start (hunused : m.processes = #[]) : Orderly ⟨m, fun _ _ => .empty, fun _ _ => []⟩ := by
  have hprocess : ∀ p, m.process p = .absent := fun p => process_of_le (by simp [hunused])
  have hdeclared : ∀ p u, m.declaredAt p u = none := fun p u => by
    rw [declaredAt, hprocess]
    exact Std.ExtTreeMap.getElem?_empty
  have hcatalogue : ∀ key, catalogue (⟨m, fun _ _ => .empty, fun _ _ => []⟩ : Estate φ) key = none := fun key => by
    rw [catalogue, hprocess]
    rfl
  have htable : ∀ p y, table (⟨m, fun _ _ => .empty, fun _ _ => []⟩ : Estate φ) p y = .empty := by
    intro p y
    cases y with
    | none => exact congrArg Process.mappings (hprocess p)
    | some k => rfl
  refine ⟨⟨fun hi => ?_, fun hi => ?_, fun hi => ?_, fun hk => ?_, fun hk => ?_, fun hk => ?_, fun hi => ?_⟩,
    fun {p y id mp} hmp => ?_, fun p y => ?_, fun p _ => ?_⟩
  any_goals simp [hdeclared] at hi
  any_goals simp [hcatalogue] at hk
  · rw [htable] at hmp
    simp [MapTable.empty] at hmp
  · rw [htable]
    rfl
  · rw [show (⟨m, fun _ _ => .empty, fun _ _ => []⟩ : Estate φ).machine.process p = .absent from hprocess p]
    rfl

omit [FileSystem φ] in
theorem Orderly.spawn (h : s.Orderly) {pid : UInt16} {limit : Option Nat}
    (hrun : Kernel.spawn pid limit s.machine = .ok p m') :
    Orderly ⟨m', Function.update s.spare p fun _ => .empty, Function.update s.issued p fun _ => []⟩ := by
  obtain ⟨rfl, rfl⟩ := EStateM.Result.ok.inj hrun
  set n := s.machine.processes.size with hn
  set s' : Estate φ := ⟨_, Function.update s.spare n fun _ => .empty, Function.update s.issued n fun _ => []⟩ with hs'
  have habsent : s.machine.process n = .absent := process_of_le (Nat.le_refl _)
  have hprocess : ∀ q, s'.machine.process q = if q = n then .fresh pid limit else s.machine.process q :=
    process_spawn s.machine pid limit
  have htable : ∀ q y, s'.table q y = if q = n then .empty else s.table q y := by
    intro q y
    cases y with
    | none =>
      rw [table, hprocess]
      split <;> rfl
    | some k =>
      rw [table, hs']
      simp only [Function.update_apply]
      split <;> rfl
  have hcatalogue : s'.catalogue = s.catalogue := by
    funext key
    rw [catalogue, hprocess, htable, catalogue]
    by_cases hkey : key.1 = n
    · rw [if_pos hkey, if_pos hkey, hkey, habsent]
      rfl
    · rw [if_neg hkey, if_neg hkey]
  refine ⟨?_, fun {q y id mp} hmp => ?_, fun q y => ?_, fun q hq => ?_⟩
  · rw [hcatalogue]
    refine h.arranged.of_declared (Nat.le_refl _) (fun _ _ => rfl) (fun q w => ?_) fun {q w i} hi => ?_
    · rw [declaredAt, hprocess]
      split
      · rename_i hq
        rw [hq, declaredAt, habsent]
        rfl
      · rfl
    · rw [hprocess, if_neg]
      · exact h.arranged.live hi
      · rintro rfl
        rw [declaredAt, habsent] at hi
        simp [Process.absent, Process.fresh] at hi
  · rw [htable] at hmp ⊢
    split at hmp
    · simp [MapTable.empty] at hmp
    · rename_i hq
      rw [if_neg hq]
      exact h.below hmp
  · rw [htable, hs']
    simp only [Function.update_apply]
    split
    · rfl
    · exact h.issued q y
  · rw [hprocess] at hq ⊢
    split at hq
    · simp [Process.fresh] at hq
    · rename_i hne
      rw [if_neg hne]
      exact h.closed q hq

/-! ### Tables that change -/

variable {m₁ : Machine φ} {t : MapTable}

omit [FileSystem φ] in
/-- The machine with other mappings for process `p`. -/
theorem table_of_own (hlive : (s.machine.process p).exited = false) (hbooks : s.machine.SameBooks m₁)
    {issued : ProcId → Option Nat → List Nat} (q : ProcId) (z : Option Nat) :
    table ⟨m₁.withProcess p fun proc => { proc with mappings := t }, s.spare, issued⟩ q z =
      if q = p ∧ z = none then t else s.table q z := by
  have hp : p < m₁.processes.size := lt_of_live ((hbooks.exited p).trans hlive)
  cases z with
  | none =>
    rw [table, process_withProcess]
    by_cases hq : p = q
    · subst hq
      rw [if_pos ⟨rfl, hp⟩, if_pos ⟨rfl, rfl⟩]
    · rw [if_neg fun h => hq h.1, if_neg fun h => hq h.1.symm]
      exact (hbooks q).1
  | some k => exact (if_neg (by simp)).symm

omit [FileSystem φ] in
theorem exited_of_own (hbooks : s.machine.SameBooks m₁) (q : ProcId) :
    ((m₁.withProcess p fun proc => { proc with mappings := t }).process q).exited =
      (s.machine.process q).exited := by
  rw [process_withProcess]
  split <;> exact hbooks.exited q

omit [FileSystem φ] in
/-- Another table that process `p` keeps beside its own. -/
theorem table_of_spare (hbooks : s.machine.SameBooks m₁) {issued : ProcId → Option Nat → List Nat} {k : Nat}
    (q : ProcId) (z : Option Nat) : table ⟨m₁, setAt s.spare p k t, issued⟩ q z =
      if q = p ∧ z = some k then t else s.table q z := by
  cases z with
  | none =>
    rw [if_neg (by simp)]
    exact (hbooks q).1
  | some j =>
    simp only [table, setAt_apply, Option.some.injEq]

theorem Orderly.mmap (h : s.Orderly) (hlive : (s.machine.process p).exited = false) (file : Handle) (addr : Nat) :
    Ends (Kernel.mmap p file addr) s.machine (fun result m' =>
      Orderly { s with machine := m', issued := s.issuing p none result.toOption.toList }) fun _ _ => True := by
  rw [Kernel.mmap, ends_bind, ends_process, ends_bind]
  refine (ends_mapFile_of_arranged hlive (h.arranged_withTable hlive none) (h.next_free p none) file addr).imp ?_ fun _ _ _ => trivial
  rintro ⟨result, t⟩ m₁ ⟨hnumbers, hbooks, h₁⟩
  exact h.of_numbers hlive hnumbers (exited_of_own hbooks) (table_of_own hlive hbooks) rfl
    (h₁.withProcess (fun _ => rfl) fun hi => h₁.live hi)

theorem Orderly.munmap (h : s.Orderly) (hlive : (s.machine.process p).exited = false) (id : Nat) :
    Ends (Kernel.munmap p id) s.machine (fun _ m' => Orderly { s with machine := m' }) fun _ _ => True := by
  rw [Kernel.munmap, ends_bind, ends_process, ends_bind]
  refine (ends_unmapFile_of_arranged hlive (h.arranged_withTable hlive none) id).imp ?_ fun _ _ _ => trivial
  rintro t m₁ ⟨hshrinks, hbooks, h₁⟩
  exact h.of_shrinks hlive hshrinks (exited_of_own hbooks) (table_of_own hlive hbooks) rfl
    (h₁.withProcess (fun _ => rfl) fun hi => h₁.live hi)

theorem Orderly.exit (h : s.Orderly) (hlive : (s.machine.process p).exited = false) :
    Ends (Kernel.exit p) s.machine (fun _ m' => Orderly { s with machine := m' }) fun _ _ => True := by
  refine (ends_exit_of_arranged hlive (h.arranged_withTable hlive none)).imp ?_ fun _ _ _ => trivial
  rintro _ m' ⟨h', hexited, hmappings, hothers⟩
  set s' : Estate φ := { s with machine := m' } with hs'
  have htable : ∀ {q y}, s'.table q y = s.table q y ∨ q = p ∧ s'.table q y = (s.table q y).clear := by
    intro q y
    cases y with
    | none =>
      by_cases hq : q = p
      · subst hq
        exact .inr ⟨rfl, hmappings⟩
      · exact .inl (hothers q hq).1
    | some k => exact .inl rfl
  have hshrinks : ∀ {q y}, (s.table q y).Shrinks (s'.table q y) := by
    intro q y
    rcases htable (q := q) (y := y) with hsame | ⟨-, hclear⟩
    · rw [hsame]
      exact ⟨rfl, fun hmp => hmp⟩
    · rw [hclear]
      exact MapTable.shrinks_clear _
  have hcatalogue : s'.catalogue = s.catalogue.without p := by
    funext key
    rw [catalogue, Catalogue.without]
    by_cases hkey : key.1 = p
    · rw [if_pos hkey, hkey, if_pos hexited]
    · rw [if_neg hkey, (hothers _ hkey).2, catalogue]
      rcases htable (q := key.1) (y := key.2.1) with hsame | ⟨hp, -⟩
      · rw [hsame]
      · exact absurd hp hkey
  refine ⟨hcatalogue ▸ h', fun {q y id mp} hmp => ?_, fun q y => ?_, fun q hq => ?_⟩
  · rw [hshrinks.nextId]
    exact h.below (hshrinks.live hmp)
  · rw [hshrinks.nextId]
    exact h.issued q y
  · by_cases hqp : q = p
    · rw [hqp, hmappings]
      rfl
    · rw [(hothers q hqp).1]
      exact h.closed q ((hothers q hqp).2 ▸ hq)

theorem Orderly.operate (h : s.Orderly) {op : Op} {answer : Answer}
    (hlive : op.onTable = false → (s.machine.process p).exited = false) (hother : ∀ file addr, op ≠ .mmap file addr)
    (hrun : execute p op s.machine = .ok answer m') : Orderly { s with machine := m' } := by
  by_cases htable : op.onTable = true
  · have hsame := (sameLayout_execute htable p s.machine).of_ok hrun
    exact h.of_sameBooks hsame.sameBooks (h.arranged.congr hsame)
  rw [Bool.not_eq_true] at htable
  by_cases hremaps : op.remaps = true
  · cases op with
    | mmap file addr => exact absurd rfl (hother file addr)
    | munmap id =>
      refine Ends.of_ok (Q := fun _ m' => Orderly { s with machine := m' }) (E := fun _ _ => True) ?_ hrun
      rw [execute, ends_bind]
      exact h.munmap (hlive rfl) id
    | exit =>
      refine Ends.of_ok (Q := fun _ m' => Orderly { s with machine := m' }) (E := fun _ _ => True) ?_ hrun
      rw [execute, ends_bind]
      exact h.exit (hlive rfl)
    | _ => simp [Op.remaps] at hremaps
  · have hstep := (inStep_execute (Bool.not_eq_true _ ▸ hremaps) p s.machine).of_ok hrun
    exact h.of_sameBooks hstep.books (hstep.arranged (hlive htable) _ h.arranged)

theorem Run.orderly (h : s.Run) : s.Orderly := by
  induction h with
  | start unused => exact orderly_start unused
  | spawn _ run ih => exact ih.spawn run
  | operate _ live other run ih => exact ih.operate live other run
  | mmap _ live run ih => exact (ih.mmap live _ _).of_ok run
  | @mapFile s m' p k file addr result t _ live run ih =>
    obtain ⟨hnumbers, hbooks, h'⟩ := (ends_mapFile_of_arranged live (ih.arranged_withTable live (some k))
      (ih.next_free p (some k)) file addr).of_ok run
    exact ih.of_numbers live hnumbers hbooks.exited (table_of_spare hbooks) rfl h'
  | @unmapFile s m' p k id t _ live run ih =>
    obtain ⟨hshrinks, hbooks, h'⟩ :=
      (ends_unmapFile_of_arranged live (ih.arranged_withTable live (some k)) id).of_ok run
    exact ih.of_shrinks live hshrinks hbooks.exited (table_of_spare hbooks) rfl h'
  | @unmapAll s m' p k t _ live run ih =>
    obtain ⟨rfl, hbooks, h'⟩ :=
      (ends_unmapAll_of_arranged live (ih.arranged_withTable live (some k))).of_ok run
    exact ih.of_shrinks live (MapTable.shrinks_clear _) hbooks.exited (table_of_spare hbooks) rfl h'
  | aside _ same ih => exact ih.of_sameBooks same.sameBooks (ih.arranged.congr same)

omit [FileSystem φ] in
theorem Orderly.consistent (h : s.Orderly) : s.Consistent := by
  have hplaced := @h.arranged.placed
  refine ⟨fun {p u i} hi => ?_, fun hi => (hplaced hi).whole _, fun {p u i} hi hswap => ?_,
    fun {p u i r} hi hr => ?_, fun {p y id mp} hy hmp u hu => ?_, h.below, h.issued⟩
  · have hpage := hplaced hi
    have haligned := hpage.aligned
    have huser := hpage.user
    simp only [isAligned, pageOffset, beq_iff_eq] at haligned
    simp only [isUser, Bool.and_eq_true, decide_eq_true_eq] at huser
    exact ⟨hpage.upage, haligned, huser.1, huser.2⟩
  · have huser := (hplaced hi).user
    simp only [isUser, Bool.and_eq_true, decide_eq_true_eq] at huser
    obtain ⟨hwritable, hlimit⟩ := (hplaced hi).stack hswap
    exact ⟨hwritable, by omega, huser.2⟩
  · have hlive := h.arranged.live hi
    obtain ⟨⟨y, id⟩, mp, hmp, hu⟩ := h.arranged.listed hi hr
    obtain ⟨j, r', hj, hr', hfile⟩ := h.arranged.shows hmp u hu
    obtain rfl := Option.some.inj (hj.symm.trans hi)
    obtain rfl := Backing.mapped.inj (hr'.symm.trans hr)
    refine ⟨(hplaced hi).mapped _ hr, y, id, mp, ?_, hfile.symm, ?_, fun z k mp' hmp' hu' => ?_⟩
    · rw [← catalogue_of_live hlive, hmp]
    · exact List.count_eq_one_of_mem (h.arranged.nodup hmp) hu
    · rw [← catalogue_of_live hlive] at hmp'
      exact Prod.mk.inj (h.arranged.unique hmp' hmp hu' hu)
  · have hlive : (s.machine.process p).exited = false := by
      rcases hy with rfl | hlive
      · -- an exited process has no mapping of its own
        refine (Bool.not_eq_true _).mp fun hexited => ?_
        rw [table, h.closed p hexited] at hmp
        simp at hmp
      · exact hlive
    rw [← catalogue_of_live hlive] at hmp
    exact h.arranged.shows hmp u hu

end

end Estate

namespace Machine

variable {φ : Type} {m m' : Machine φ} {p : ProcId} {u : Nat} {pg : Page}

/-- Process `p` has declared `pg` at `u`, and nothing else has happened. -/
structure Declares (m : Machine φ) (p : ProcId) (u : Nat) (pg : Page) (m' : Machine φ) : Prop where
  undisturbed : m.Undisturbed m'
  page : m'.page m.pages.next = pg
  next : m'.pages.next = m.pages.next + 1
  declared : ∀ q w, m'.declaredAt q w = if q = p ∧ w = u then some m.pages.next else m.declaredAt q w
  files : m'.files = m.files
  log : m'.log = m.log

theorem declares_declaring (hp : p < m.processes.size) : m.Declares p u pg (m.declaring p u pg) where
  undisturbed := undisturbed_declaring m p u pg
  page := by rw [page_declaring, if_pos rfl]
  next := next_declaring m p u pg
  declared := declaredAt_declaring hp
  files := rfl
  log := rfl

/-- The answer to a request to declare a part of a program's file at `u`. -/
def declaration (m : Machine φ) (p : ProcId) (u readLen zeroLen : Nat) : Except PageError PageId :=
  if readLen + zeroLen ≠ pageSize then .error (.badLength readLen zeroLen)
  else if u % pageSize ≠ 0 then .error (.misaligned u)
  else if u < userBase ∨ userTop ≤ u then .error (.notUser u)
  else if (m.declaredAt p u).isSome then .error (.declared u)
  else .ok m.pages.next

end Machine

namespace Kernel

open Machine

variable {φ : Type} {m : Machine φ} {p : ProcId}

/-- A part of a program's file is declared as it is asked for, or nothing happens. -/
theorem ends_declareFile_exact (hp : p < m.processes.size) (u : Nat) (r : Region) (writable : Bool) :
    Ends (declareFile p u r writable) m (fun result m' => result = m.declaration p u r.readLen r.zeroLen ∧
      ((∃ e, result = .error e) → m' = m) ∧
      ((∃ i, result = .ok i) → m.Declares p u (.declared u writable (.file r)) m')) fun _ _ => False := by
  have haligned : isAligned u = false ↔ u % pageSize ≠ 0 := by simp [isAligned, pageOffset]
  have huser : isUser u = false ↔ u < userBase ∨ userTop ≤ u := by
    rw [← Bool.not_eq_true, isUser, Bool.and_eq_true, decide_eq_true_eq, decide_eq_true_eq]
    omega
  rw [declareFile, declareRegion, ends_ite, declaration]
  split
  · exact ⟨rfl, fun _ => rfl, by simp⟩
  rw [Ends, declare_eq]
  simp only [haligned, huser]
  split_ifs
  · exact ⟨rfl, fun _ => rfl, by simp⟩
  · exact ⟨rfl, fun _ => rfl, by simp⟩
  · exact ⟨rfl, fun _ => rfl, by simp⟩
  · exact ⟨rfl, by simp, fun _ => declares_declaring hp⟩

end Kernel

open Machine Kernel

variable {φ : Type} [FileSystem φ]

/-- In every state of a run with any tables of mappings the declared pages and the live mappings are in
step, and a request to declare a part of a program's file is carried out as it stands or has no effect. -/
theorem Estate.Run.structured {s : Estate φ} (h : s.Run) : s.Consistent ∧
    ∀ p < s.machine.processes.size, ∀ (u : Nat) (r : Region) (writable : Bool),
      Ends (declareFile p u r writable) s.machine (fun result m' =>
        result = s.machine.declaration p u r.readLen r.zeroLen ∧
        ((∃ e, result = .error e) → m' = s.machine) ∧
        ((∃ i, result = .ok i) → s.machine.Declares p u (.declared u writable (.file r)) m'))
        fun _ _ => False :=
  ⟨h.orderly.consistent, fun _ hp u r writable => ends_declareFile_exact hp u r writable⟩

/-- A machine of a run has an estate whose processes keep nothing beside their own tables. -/
theorem Reachable.exists_estate {m : Machine φ} (h : Reachable m) :
    ∃ issued, Estate.Run ⟨m, fun _ _ => .empty, issued⟩ := by
  induction h with
  | @start frames base pool refuses files devices m create sizes run =>
    refine ⟨_, .start (Ends.of_ok (Q := fun _ m => m.processes = #[]) (E := fun _ _ => True) ?_ run)⟩
    simp only [Kernel.start, attachSwap, ends_bind, ends_get]
    split
    · trivial
    · exact rfl
  | @spawn m m' pid limit p reach run ih =>
    obtain ⟨issued, ih⟩ := ih
    have hrun := Estate.Run.spawn ih run
    rw [Function.update_eq_self] at hrun
    exact ⟨_, hrun⟩
  | @perform m m' p op answer reach run ih =>
    obtain ⟨issued, ih⟩ := ih
    suffices Ends (Kernel.perform p op) m (fun _ m' => ∃ issued, Estate.Run ⟨m', fun _ _ => .empty, issued⟩)
      fun _ _ => True from this.of_ok run
    rw [ends_perform_iff reach.steady]
    split
    · exact ⟨issued, ih⟩
    rename_i hturned
    have hlive : op.onTable = false → (m.process p).exited = false := fun htable =>
      (Bool.not_eq_true _).mp fun hexited => hturned ⟨hexited, htable⟩
    by_cases hmmap : ∃ file addr, op = .mmap file addr
    · obtain ⟨file, addr, rfl⟩ := hmmap
      rw [execute, ends_bind]
      refine (ends_any _ m).run.imp (fun result m₁ h₁ => ?_) fun _ _ _ => trivial
      have hrun := Estate.Run.mmap ih (hlive rfl) h₁.1
      cases result <;> exact ⟨_, hrun⟩
    · refine (ends_any _ m).run.imp (fun _ m₁ h₁ => ?_) fun _ _ _ => trivial
      exact ⟨issued, .operate ih hlive (fun file addr heq => hmmap ⟨file, addr, heq⟩) h₁.1⟩

/-- A process maps a file in its own table and another in one that it keeps beside it, and asks for a page
that the second mapping has. -/
theorem structured_of_two_tables : ∃ s : Estate MemoryFiles, s.Run ∧ (s.machine.process 0).exited = false ∧
    (s.machine.process 0).mappings.nextId = 1 ∧ (s.spare 0 0).nextId = 1 ∧ s.Consistent ∧
    Ends (declareFile 0 0x20000000 ⟨0, 0, 0, 4096⟩ true) s.machine (fun result m' =>
      result = .error (.declared 0x20000000) ∧ m' = s.machine) fun _ _ => False := by
  obtain ⟨m, hm, -, hP⟩ := exists_reachable 1 1
    (⟨#[⟨List.replicate 5000 0, none, none⟩]⟩ : MemoryFiles) [(0, .mmap 0 0x10000000), (0, .growStack 0x7ffff000)]
    (fun m => !(m.process 0).exited && check (mapFile .empty 0 0 0x20000000) (fun r m' => r.2.nextId == 1 &&
      !(m'.process 0).exited && (m'.process 0).mappings.nextId == 1 &&
      (m'.declaredAt 0 0x20000000).isSome) m) (by decide +kernel)
  simp only [Bool.and_eq_true, Bool.not_eq_true'] at hP
  obtain ⟨hlive, hcheck⟩ := hP
  obtain ⟨⟨result, t⟩, m', hrun, hP⟩ := exists_of_check hcheck
  simp only [Bool.and_eq_true, Bool.not_eq_true', beq_iff_eq] at hP
  obtain ⟨⟨⟨hnext, hlive'⟩, hown⟩, htaken⟩ := hP
  obtain ⟨issued, hestate⟩ := hm.exists_estate
  have hestate' := Estate.Run.mapFile (k := 0) hestate hlive hrun
  obtain ⟨hconsistent, hdeclare⟩ := hestate'.structured
  refine ⟨_, hestate', hlive', hown, (congrArg MapTable.nextId (setAt_self ..)).trans hnext, hconsistent, ?_⟩
  refine (hdeclare 0 (lt_of_live hlive') 0x20000000 ⟨0, 0, 0, 4096⟩ true).returns ?_
  rintro result _ ⟨hresult, hsame, -⟩
  have herror : result = .error (.declared 0x20000000) := by
    rw [hresult, Machine.declaration, if_neg (by decide), if_neg (by decide), if_neg (by decide), if_pos htaken]
  exact ⟨herror, hsame ⟨_, herror⟩⟩

end DemandPaging
