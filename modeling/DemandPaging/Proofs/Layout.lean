import DemandPaging.Proofs.Fetching
import DemandPaging.Proofs.WholeMapping

/-!
# Declared pages and the mappings that list them

What a page is declared as never changes, and only a few programs change which pages are declared. The
invariant `Arranged` says where pages may be declared, and that the pages of mapped files are in step
with a catalogue of mappings. The catalogue is an argument: it runs ahead of the tables of mappings while
a mapping is being made, and behind them while one is being released. All else that can happen to a
machine, `SameLayout`, does not concern it.
-/

namespace DemandPaging

/-- The page as it was when it was declared. -/
def Page.origin (pg : Page) : Page := .declared pg.upage pg.writable pg.backing

theorem Page.origin_eq_origin {pg pg' : Page} : pg'.origin = pg.origin ↔
    pg'.upage = pg.upage ∧ pg'.writable = pg.writable ∧ pg'.backing = pg.backing := by
  simp [origin, declared]

theorem Page.Mild.origin {f : Page → Page} (h : Page.Mild f) (pg : Page) : (f pg).origin = pg.origin := by
  obtain ⟨hupage, hbacking, hwritable⟩ := h pg
  exact Page.origin_eq_origin.2 ⟨hupage, hwritable, hbacking⟩

/-- The page may be declared at address `u`. -/
structure Page.Placed (u : Nat) (pg : Page) : Prop where
  upage : pg.upage = u
  aligned : isAligned u = true
  user : isUser u = true
  /-- The part of the file and the zeros make a page. -/
  whole : ∀ r, pg.backing.region? = some r → r.readLen + r.zeroLen = pageSize
  mapped : ∀ r, pg.backing = .mapped r → pg.writable = true
  stack : pg.backing = .swap → pg.writable = true ∧ userTop - u ≤ stackLimit

theorem Page.Placed.congr {u : Nat} {pg pg' : Page} (h : pg.Placed u) (horigin : pg'.origin = pg.origin) :
    pg'.Placed u := by
  obtain ⟨hupage, hwritable, hbacking⟩ := Page.origin_eq_origin.1 horigin
  refine ⟨hupage.trans h.upage, h.aligned, h.user, ?_, ?_, ?_⟩
  · rw [hbacking]
    exact h.whole
  · rw [hbacking, hwritable]
    exact h.mapped
  · rw [hbacking, hwritable]
    exact h.stack

/-- A process, one of its tables of mappings (its own, or one that it keeps beside it), and a number. -/
abbrev MappingKey := ProcId × Option Nat × Nat

/-- The mappings that there are. -/
abbrev Catalogue := MappingKey → Option Mapping

namespace Catalogue

variable (L : Catalogue) (p : ProcId) (y : Option Nat) (t : MapTable)

/-- The catalogue without the mappings of a process. -/
def without : Catalogue := fun key => if key.1 = p then none else L key

/-- The catalogue with other mappings in table `y` of process `p`. -/
def withTable : Catalogue := fun key => if key.1 = p ∧ key.2.1 = y then t.live[key.2.2]? else L key

@[simp] theorem withTable_self (id : Nat) : L.withTable p y t (p, y, id) = t.live[id]? := if_pos ⟨rfl, rfl⟩

theorem without_withTable : (L.withTable p y t).without p = L.without p := by
  funext key
  rw [without, without, withTable]
  split
  · rfl
  · exact if_neg fun h => absurd h.1 (by assumption)

theorem withTable_add (mp : Mapping) :
    L.withTable p y (t.add mp) = Function.update (L.withTable p y t) (p, y, t.nextId) (some mp) := by
  funext ⟨q, z, id⟩
  simp only [withTable, MapTable.live_add, Function.update_apply, Prod.mk.injEq]
  grind

theorem withTable_erase (id : Nat) :
    L.withTable p y (t.erase id) = Function.update (L.withTable p y t) (p, y, id) none := by
  funext ⟨q, z, j⟩
  simp only [withTable, MapTable.live_erase, Function.update_apply, Prod.mk.injEq]
  grind

theorem foldl_update_none (l : List (Nat × Mapping)) (L : Catalogue) (key : MappingKey) :
    l.foldl (fun L x => Function.update L (p, y, x.1) none) L key =
      if key.1 = p ∧ key.2.1 = y ∧ key.2.2 ∈ l.map (·.1) then none else L key := by
  induction l generalizing L with
  | nil => simp
  | cons x l ih =>
    rw [List.foldl_cons, ih, Function.update_apply]
    obtain ⟨q, z, id⟩ := key
    simp only [List.map_cons, List.mem_cons, Prod.mk.injEq]
    grind

/-- A table whose mappings go one after the other ends up without any. -/
theorem withTable_clear : t.live.toList.foldl (fun L x => Function.update L (p, y, x.1) none)
    (L.withTable p y t) = L.withTable p y t.clear := by
  funext key
  rw [foldl_update_none]
  split
  · rename_i hkey
    rw [withTable, if_pos ⟨hkey.1, hkey.2.1⟩]
    exact Std.ExtTreeMap.getElem?_empty.symm
  rename_i hkey
  by_cases htable : key.1 = p ∧ key.2.1 = y
  · rw [withTable, if_pos htable, withTable, if_pos htable]
    refine (Option.eq_none_iff_forall_not_mem.2 fun mp hmp => hkey ⟨htable.1, htable.2, ?_⟩).trans
      Std.ExtTreeMap.getElem?_empty.symm
    exact List.mem_map.2 ⟨(key.2.2, mp), Std.ExtTreeMap.mem_toList_iff_getElem?_eq_some.2 hmp, rfl⟩
  · rw [withTable, if_neg htable, withTable, if_neg htable]

end Catalogue

namespace Machine

variable {φ : Type} {m m' m'' : Machine φ} {L : Catalogue} {p q : ProcId} {k : Option Nat × Nat} {u w : Nat}
  {i : PageId} {pg : Page} {r : Region} {mp : Mapping}

/-! ### What the layout is not concerned with -/

/-- Pages may have come into memory or left it, but what was declared is still declared, nothing else is,
and processes have the mappings that they had. -/
structure SameLayout (m m' : Machine φ) : Prop where
  next : m.pages.next ≤ m'.pages.next
  page : ∀ i < m.pages.next, (m'.page i).origin = (m.page i).origin
  process : ∀ q, m'.process q = { m.process q with table := (m'.process q).table }

theorem sameLayout_of_eq (hpages : m'.pages = m.pages) (hprocesses : m'.processes = m.processes) :
    m.SameLayout m' := by
  have hprocess : ∀ q, m'.process q = m.process q := fun q => by
    rw [Machine.process, hprocesses, Machine.process]
  refine ⟨by rw [hpages], fun i _ => ?_, fun q => by rw [hprocess]⟩
  rw [Machine.page, hpages, Machine.page]

theorem sameLayout_withTable (m : Machine φ) (p : ProcId) (f : PageTable → PageTable) :
    m.SameLayout (m.withTable p f) := by
  refine ⟨Nat.le_refl _, fun i _ => rfl, fun q => ?_⟩
  rw [withTable, process_withProcess]
  split <;> rfl

theorem SameLayout.trans (h : m.SameLayout m') (h' : m'.SameLayout m'') : m.SameLayout m'' where
  next := Nat.le_trans h.next h'.next
  page i hi := (h'.page i (Nat.lt_of_lt_of_le hi h.next)).trans (h.page i hi)
  process q := by rw [h'.process q, h.process q]

instance : Kernel.Frees (SameLayout (φ := φ)) where
  refl _ := sameLayout_of_eq rfl rfl
  trans _ _ _ := SameLayout.trans
  report _ _ := sameLayout_of_eq rfl rfl
  page m i f hf := by
    refine ⟨by simp, fun j _ => ?_, fun _ => rfl⟩
    rw [page_withPage]
    split
    · exact hf.origin _
    · rfl
  memory _ _ := sameLayout_of_eq rfl rfl
  slots _ _ := sameLayout_of_eq rfl rfl
  devices _ _ := sameLayout_of_eq rfl rfl
  entries _ _ := sameLayout_of_eq rfl rfl

instance (p : ProcId) : Kernel.Installs p (SameLayout (φ := φ)) where
  map m {_ _ _ _} _ := sameLayout_withTable m p _

instance (p : ProcId) : Kernel.Unmaps p Set.univ (SameLayout (φ := φ)) where
  unmap m _ _ := sameLayout_withTable m p _

theorem SameLayout.declaredAt (h : m.SameLayout m') (q : ProcId) (w : Nat) :
    m'.declaredAt q w = m.declaredAt q w := by
  rw [Machine.declaredAt, h.process q, Machine.declaredAt]

theorem SameLayout.exited (h : m.SameLayout m') (q : ProcId) :
    (m'.process q).exited = (m.process q).exited := by rw [h.process q]

theorem SameLayout.mappings (h : m.SameLayout m') (q : ProcId) :
    (m'.process q).mappings = (m.process q).mappings := by rw [h.process q]

/-! ### The invariant -/

/-- Live processes have declared pages where they may be, and the pages of mapped files are those that
mappings of the catalogue list, each of them in one place of one mapping. -/
structure Arranged (m : Machine φ) (L : Catalogue) : Prop where
  live : ∀ {p u i}, m.declaredAt p u = some i → (m.process p).exited = false
  lt : ∀ {p u i}, m.declaredAt p u = some i → i < m.pages.next
  placed : ∀ {p u i}, m.declaredAt p u = some i → (m.page i).Placed u
  nodup : ∀ {key mp}, L key = some mp → mp.pages.toList.Nodup
  shows : ∀ {p k mp}, L (p, k) = some mp → ∀ u ∈ mp.pages.toList,
    ∃ i r, m.declaredAt p u = some i ∧ (m.page i).backing = .mapped r ∧ r.file = mp.file
  unique : ∀ {p k k' mp mp' u}, L (p, k) = some mp → L (p, k') = some mp' → u ∈ mp.pages.toList →
    u ∈ mp'.pages.toList → k = k'
  listed : ∀ {p u i r}, m.declaredAt p u = some i → (m.page i).backing = .mapped r →
    ∃ k mp, L (p, k) = some mp ∧ u ∈ mp.pages.toList

/-- What is declared is the same, and belongs to live processes. -/
theorem Arranged.of_declared (h : m.Arranged L) (hnext : m.pages.next ≤ m'.pages.next)
    (hpage : ∀ i < m.pages.next, (m'.page i).origin = (m.page i).origin)
    (hdeclared : ∀ q w, m'.declaredAt q w = m.declaredAt q w)
    (hlive : ∀ {q w i}, m.declaredAt q w = some i → (m'.process q).exited = false) : m'.Arranged L := by
  have hbacking : ∀ {p u i}, m.declaredAt p u = some i → (m'.page i).backing = (m.page i).backing :=
    fun hi => (Page.origin_eq_origin.1 (hpage _ (h.lt hi))).2.2
  refine ⟨fun {p u i} hi => ?_, fun {p u i} hi => ?_, fun {p u i} hi => ?_, h.nodup, fun {p k mp} hk u hu => ?_,
    h.unique, fun {p u i r} hi hr => ?_⟩
  · rw [hdeclared] at hi
    exact hlive hi
  · rw [hdeclared] at hi
    exact Nat.lt_of_lt_of_le (h.lt hi) hnext
  · rw [hdeclared] at hi
    exact (h.placed hi).congr (hpage i (h.lt hi))
  · obtain ⟨i, r, hi, hr, hfile⟩ := h.shows hk u hu
    exact ⟨i, r, by rw [hdeclared, hi], by rw [hbacking hi, hr], hfile⟩
  · rw [hdeclared] at hi
    rw [hbacking hi] at hr
    exact h.listed hi hr

theorem Arranged.congr (h : m.Arranged L) (hsame : m.SameLayout m') : m'.Arranged L :=
  h.of_declared hsame.next hsame.page hsame.declaredAt fun hi => by rw [hsame.exited, h.live hi]

/-- The tables of mappings are not asked, nor whether a process has exited that has no page. -/
theorem Arranged.withProcess (h : m.Arranged L) {f : Process → Process}
    (hdeclared : ∀ proc, (f proc).declared = proc.declared)
    (hlive : ∀ {w i}, m.declaredAt p w = some i → (f (m.process p)).exited = false) :
    (m.withProcess p f).Arranged L := by
  refine h.of_declared (Nat.le_refl _) (fun _ _ => rfl) (fun q w => ?_) fun {q w i} hi => ?_
  · rw [declaredAt, process_withProcess]
    split
    · rw [hdeclared]
      rfl
    · rfl
  · rw [process_withProcess]
    split
    · rename_i hq
      obtain ⟨rfl, -⟩ := hq
      exact hlive hi
    · exact h.live hi

/-- A mapping that lists no page may come or go. -/
theorem Arranged.update_of_nil (h : m.Arranged L) {key : MappingKey} {x : Option Mapping}
    (hold : ∀ mp, L key = some mp → mp.pages = #[]) (hnew : ∀ mp, x = some mp → mp.pages = #[]) :
    m.Arranged (Function.update L key x) := by
  have hcases : ∀ {key' mp}, Function.update L key x key' = some mp → L key' = some mp ∨ mp.pages = #[] := by
    intro key' mp hmp
    rw [Function.update_apply] at hmp
    split at hmp
    · exact .inr (hnew mp hmp)
    · exact .inl hmp
  refine ⟨h.live, h.lt, h.placed, fun {key' mp} hmp => ?_, fun {p k mp} hmp u hu => ?_,
    fun {p k k' mp mp' u} hmp hmp' hu hu' => ?_, fun {p u i r} hi hr => ?_⟩
  · rcases hcases hmp with hmp | hnil
    · exact h.nodup hmp
    · simp [hnil]
  · rcases hcases hmp with hmp | hnil
    · exact h.shows hmp u hu
    · simp [hnil] at hu
  · rcases hcases hmp with hmp | hnil
    · rcases hcases hmp' with hmp' | hnil
      · exact h.unique hmp hmp' hu hu'
      · simp [hnil] at hu'
    · simp [hnil] at hu
  · obtain ⟨k, mp, hmp, hu⟩ := h.listed hi hr
    have hne : (p, k) ≠ key := by
      rintro rfl
      simp [hold mp hmp] at hu
    exact ⟨k, mp, by rw [Function.update_of_ne hne, hmp], hu⟩

/-! ### Declaring pages -/

/-- What is declared once a page is declared at `u`: that page, or what was declared before. -/
theorem Arranged.declaring_cases (h : m.Arranged L) (hlive : (m.process p).exited = false)
    (hi : (m.declaring p u pg).declaredAt q w = some i) :
    (q = p ∧ w = u ∧ i = m.pages.next ∧ (m.declaring p u pg).page i = pg) ∨
      (m.declaredAt q w = some i ∧ (m.declaring p u pg).page i = m.page i) := by
  rw [declaredAt_declaring (lt_of_live hlive)] at hi
  split at hi
  · rename_i hnew
    obtain rfl := Option.some.inj hi
    exact .inl ⟨hnew.1, hnew.2, rfl, by rw [page_declaring, if_pos rfl]⟩
  · exact .inr ⟨hi, (undisturbed_declaring m p u pg).page i (h.lt hi)⟩

/-- What was declared before a page is declared at `u`, where nothing was, is still declared. -/
theorem Arranged.declaring_of_declared (h : m.Arranged L) (pg : Page) (hlive : (m.process p).exited = false)
    (hvacant : m.declaredAt p u = none) (hi : m.declaredAt q w = some i) :
    (m.declaring p u pg).declaredAt q w = some i ∧ (m.declaring p u pg).page i = m.page i := by
  refine ⟨?_, (undisturbed_declaring m p u pg).page i (h.lt hi)⟩
  rw [declaredAt_declaring (lt_of_live hlive), if_neg, hi]
  rintro ⟨rfl, rfl⟩
  simp [hvacant] at hi

/-- A page may be declared wherever there is none yet, if the mappings are kept in step with it. -/
theorem Arranged.of_declaring (h : m.Arranged L) (hlive : (m.process p).exited = false)
    (hpg : pg.Placed u) {L' : Catalogue} (nodup : ∀ {key mp}, L' key = some mp → mp.pages.toList.Nodup)
    (shows : ∀ {q k mp}, L' (q, k) = some mp → ∀ w ∈ mp.pages.toList, ∃ i r,
      (m.declaring p u pg).declaredAt q w = some i ∧
      ((m.declaring p u pg).page i).backing = .mapped r ∧ r.file = mp.file)
    (unique : ∀ {q k k' mp mp' w}, L' (q, k) = some mp → L' (q, k') = some mp' → w ∈ mp.pages.toList →
      w ∈ mp'.pages.toList → k = k')
    (hnew : ∀ r, pg.backing = .mapped r → ∃ k mp, L' (p, k) = some mp ∧ u ∈ mp.pages.toList)
    (hold : ∀ {q k mp w}, L (q, k) = some mp → w ∈ mp.pages.toList →
      ∃ mp', L' (q, k) = some mp' ∧ w ∈ mp'.pages.toList) : (m.declaring p u pg).Arranged L' := by
  refine ⟨fun {q w i} hi => ?_, fun {q w i} hi => ?_, fun {q w i} hi => ?_, nodup, shows, unique,
    fun {q w i r} hi hr => ?_⟩
  · rw [(undisturbed_declaring m p u pg).process]
    rcases h.declaring_cases hlive hi with ⟨rfl, -⟩ | ⟨hi, -⟩
    · exact hlive
    · exact h.live hi
  · rw [next_declaring]
    rcases h.declaring_cases hlive hi with ⟨-, -, rfl, -⟩ | ⟨hi, -⟩
    · exact Nat.lt_succ_self _
    · exact Nat.lt_succ_of_lt (h.lt hi)
  · rcases h.declaring_cases hlive hi with ⟨-, rfl, -, hpage⟩ | ⟨hi, hpage⟩
    · rwa [hpage]
    · rw [hpage]
      exact h.placed hi
  · rcases h.declaring_cases hlive hi with ⟨rfl, rfl, -, hpage⟩ | ⟨hi, hpage⟩
    · exact hnew r (hpage ▸ hr)
    · rw [hpage] at hr
      obtain ⟨k, mp, hmp, hw⟩ := h.listed hi hr
      obtain ⟨mp', hmp', hw'⟩ := hold hmp hw
      exact ⟨k, mp', hmp', hw'⟩

/-- A page that shows no mapped file may be declared without any mapping. -/
theorem Arranged.declaring (h : m.Arranged L) (hlive : (m.process p).exited = false)
    (hvacant : m.declaredAt p u = none) (hpg : pg.Placed u) (hplain : ∀ r, pg.backing ≠ .mapped r) :
    (m.declaring p u pg).Arranged L := by
  refine h.of_declaring hlive hpg h.nodup (fun {q k mp} hmp w hw => ?_) h.unique
    (fun r hr => absurd hr (hplain r)) fun hmp hw => ⟨_, hmp, hw⟩
  obtain ⟨i, r, hi, hr, hfile⟩ := h.shows hmp w hw
  obtain ⟨hi, hpage⟩ := h.declaring_of_declared pg hlive hvacant hi
  exact ⟨i, r, hi, by rw [hpage, hr], hfile⟩

/-- A page of a mapped file is declared and put at the end of the mapping. -/
theorem Arranged.declaring_mapped (h : m.Arranged L) (hlive : (m.process p).exited = false)
    (hvacant : m.declaredAt p u = none) (hpg : pg.Placed u) (hr : pg.backing = .mapped r)
    (hmp : L (p, k) = some mp) (hfile : r.file = mp.file) :
    (m.declaring p u pg).Arranged (Function.update L (p, k) (some ⟨mp.file, mp.pages.push u⟩)) := by
  -- nothing lists the new page yet
  have hfresh : ∀ {k' mp'}, L (p, k') = some mp' → u ∉ mp'.pages.toList := by
    intro k' mp' hmp' hu
    obtain ⟨i, -, hi, -⟩ := h.shows hmp' u hu
    simp [hvacant] at hi
  -- so a mapping lists what it listed, or it is the one that grows and lists the new page as well
  have hcases : ∀ {q k' mp'}, Function.update L (p, k) (some ⟨mp.file, mp.pages.push u⟩) (q, k') = some mp' →
      ∃ mp₀, L (q, k') = some mp₀ ∧ mp'.file = mp₀.file ∧ (mp'.pages.toList = mp₀.pages.toList ∨
        q = p ∧ k' = k ∧ mp'.pages.toList = mp₀.pages.toList ++ [u]) := by
    intro q k' mp' hmp'
    rw [Function.update_apply] at hmp'
    split at hmp'
    · rename_i heq
      obtain ⟨rfl, rfl⟩ := Prod.mk.inj heq
      obtain rfl := Option.some.inj hmp'
      exact ⟨mp, hmp, rfl, .inr ⟨rfl, rfl, Array.toList_push⟩⟩
    · exact ⟨mp', hmp', rfl, .inl rfl⟩
  refine h.of_declaring hlive hpg (fun {key mp'} hmp' => ?_) (fun {q k' mp'} hmp' w hw => ?_)
    (fun {q k₁ k₂ mp₁ mp₂ w} h₁ h₂ hw₁ hw₂ => ?_) (fun r' _ => ?_) fun {q k' mp' w} hmp' hw => ?_
  · obtain ⟨mp₀, hmp₀, -, hsame | ⟨rfl, rfl, hmore⟩⟩ := hcases hmp'
    · rw [hsame]
      exact h.nodup hmp₀
    · rw [hmore, ← List.concat_eq_append]
      exact (h.nodup hmp₀).concat (hfresh hmp₀)
  · obtain ⟨mp₀, hmp₀, hfile₀, hlist⟩ := hcases hmp'
    have hw' : w ∈ mp₀.pages.toList ∨ q = p ∧ k' = k ∧ w = u := by
      rcases hlist with hsame | ⟨rfl, rfl, hmore⟩
      · exact .inl (hsame ▸ hw)
      · rw [hmore, List.mem_append, List.mem_singleton] at hw
        exact hw.imp_right fun hw => ⟨rfl, rfl, hw⟩
    rcases hw' with hw | ⟨rfl, rfl, rfl⟩
    · obtain ⟨i, r', hi, hr', hfile'⟩ := h.shows hmp₀ w hw
      obtain ⟨hi, hpage⟩ := h.declaring_of_declared pg hlive hvacant hi
      exact ⟨i, r', hi, by rw [hpage, hr'], hfile'.trans hfile₀.symm⟩
    · obtain rfl := Option.some.inj (hmp.symm.trans hmp₀)
      refine ⟨m.pages.next, r, ?_, ?_, hfile.trans hfile₀.symm⟩
      · rw [declaredAt_declaring (lt_of_live hlive), if_pos ⟨rfl, rfl⟩]
      · rw [page_declaring, if_pos rfl, hr]
  · obtain ⟨mp₁', hmp₁, -, hlist₁⟩ := hcases h₁
    obtain ⟨mp₂', hmp₂, -, hlist₂⟩ := hcases h₂
    rcases hlist₁ with hsame₁ | ⟨rfl, rfl, hmore₁⟩
    · rw [hsame₁] at hw₁
      rcases hlist₂ with hsame₂ | ⟨rfl, rfl, hmore₂⟩
      · exact h.unique hmp₁ hmp₂ hw₁ (hsame₂ ▸ hw₂)
      · rw [hmore₂, List.mem_append, List.mem_singleton] at hw₂
        rcases hw₂ with hw₂ | rfl
        · exact h.unique hmp₁ hmp₂ hw₁ hw₂
        · exact absurd hw₁ (hfresh hmp₁)
    · rw [hmore₁, List.mem_append, List.mem_singleton] at hw₁
      rcases hlist₂ with hsame₂ | ⟨-, rfl, -⟩
      · rw [hsame₂] at hw₂
        rcases hw₁ with hw₁ | rfl
        · exact h.unique hmp₁ hmp₂ hw₁ hw₂
        · exact absurd hw₂ (hfresh hmp₂)
      · rfl
  · exact ⟨k, _, Function.update_self .., by simp⟩
  · rw [Function.update_apply]
    split
    · rename_i heq
      obtain rfl := Option.some.inj ((heq ▸ hmp').symm.trans hmp)
      exact ⟨_, rfl, by simp [hw]⟩
    · exact ⟨mp', hmp', hw⟩

/-! ### Forgetting pages -/

/-- Some of what was declared is forgotten, by the processes and by the mappings that list it. -/
theorem Arranged.of_forgetting (h : m.Arranged L) (m' : Machine φ) (keeps : ProcId → Nat → Prop)
    (hpages : m'.pages = m.pages) (hexited : ∀ q, (m'.process q).exited = (m.process q).exited)
    (hdeclared : ∀ {q w i}, m'.declaredAt q w = some i ↔ m.declaredAt q w = some i ∧ keeps q w)
    {L' : Catalogue} (hcases : ∀ {q k mp'}, L' (q, k) = some mp' → ∃ mp, L (q, k) = some mp ∧
      mp'.file = mp.file ∧ mp'.pages.toList.Nodup ∧ ∀ w ∈ mp'.pages.toList, w ∈ mp.pages.toList ∧ keeps q w)
    (hold : ∀ {q k mp w}, L (q, k) = some mp → w ∈ mp.pages.toList → keeps q w →
      ∃ mp', L' (q, k) = some mp' ∧ w ∈ mp'.pages.toList) : m'.Arranged L' := by
  have hpage : ∀ i, m'.page i = m.page i := fun i => by rw [Machine.page, hpages, Machine.page]
  refine ⟨fun {q w i} hi => ?_, fun {q w i} hi => ?_, fun {q w i} hi => ?_, fun {key mp'} hmp' => ?_,
    fun {q k mp'} hmp' w hw => ?_, fun {q k₁ k₂ mp₁ mp₂ w} h₁ h₂ hw₁ hw₂ => ?_, fun {q w i r} hi hr => ?_⟩
  · rw [hexited]
    exact h.live (hdeclared.1 hi).1
  · rw [hpages]
    exact h.lt (hdeclared.1 hi).1
  · rw [hpage]
    exact h.placed (hdeclared.1 hi).1
  · obtain ⟨-, -, -, hnodup, -⟩ := hcases hmp'
    exact hnodup
  · obtain ⟨mp, hmp, hfile, -, hlist⟩ := hcases hmp'
    obtain ⟨hw, hkept⟩ := hlist w hw
    obtain ⟨i, r, hi, hr, hfile'⟩ := h.shows hmp w hw
    exact ⟨i, r, hdeclared.2 ⟨hi, hkept⟩, by rw [hpage, hr], hfile'.trans hfile.symm⟩
  · obtain ⟨mp₁', hmp₁, -, -, hlist₁⟩ := hcases h₁
    obtain ⟨mp₂', hmp₂, -, -, hlist₂⟩ := hcases h₂
    exact h.unique hmp₁ hmp₂ (hlist₁ w hw₁).1 (hlist₂ w hw₂).1
  · obtain ⟨hi, hkept⟩ := hdeclared.1 hi
    rw [hpage] at hr
    obtain ⟨k, mp, hmp, hw⟩ := h.listed hi hr
    obtain ⟨mp', hmp', hw'⟩ := hold hmp hw hkept
    exact ⟨k, mp', hmp', hw'⟩

/-- The first page of a mapping is forgotten, by the process and by the mapping. -/
theorem Arranged.forgetting (h : m.Arranged L) (hlive : (m.process p).exited = false)
    (hmp : L (p, k) = some mp) {us : List Nat} (hpages : mp.pages.toList = u :: us) :
    (m.forgetting p u).Arranged (Function.update L (p, k) (some ⟨mp.file, us.toArray⟩)) := by
  obtain ⟨hu, hus⟩ := List.nodup_cons.1 (hpages ▸ h.nodup hmp)
  refine h.of_forgetting (m.forgetting p u) (fun q w => ¬ (q = p ∧ w = u)) rfl
    (fun q => by rw [(undisturbed_forgetting m p u).process]) (fun {q w i} => ?_) (fun {q k' mp'} hmp' => ?_)
    fun {q k' mp' w} hmp' hw hne => ?_
  · rw [declaredAt_forgetting (lt_of_live hlive)]
    split <;> simp_all
  · -- a mapping lists what it listed, but for the page that is forgotten
    rw [Function.update_apply] at hmp'
    split at hmp'
    · rename_i heq
      obtain ⟨rfl, rfl⟩ := Prod.mk.inj heq
      obtain rfl := Option.some.inj hmp'
      refine ⟨mp, hmp, rfl, hus, fun w hw => ⟨?_, ?_⟩⟩
      · rw [hpages]
        exact List.mem_cons_of_mem u hw
      · rintro ⟨-, rfl⟩
        exact hu hw
    · rename_i hne
      refine ⟨mp', hmp', rfl, h.nodup hmp', fun w hw => ⟨hw, ?_⟩⟩
      rintro ⟨rfl, rfl⟩
      exact hne (by rw [h.unique hmp' hmp hw (by simp [hpages])])
  · by_cases hkey : (q, k') = (p, k)
    · obtain ⟨rfl, rfl⟩ := Prod.mk.inj hkey
      obtain rfl := Option.some.inj (hmp'.symm.trans hmp)
      rw [hpages, List.mem_cons] at hw
      exact ⟨_, Function.update_self .., hw.resolve_left fun hwu => hne ⟨rfl, hwu⟩⟩
    · exact ⟨mp', by rw [Function.update_of_ne hkey, hmp'], hw⟩

/-- All pages of a process are forgotten, and all its mappings. -/
theorem Arranged.forgettingEverything (h : m.Arranged L) (p : ProcId) :
    (m.withProcess p fun proc => { proc with declared := ∅ }).Arranged (L.without p) := by
  refine h.of_forgetting (m.withProcess p _) (fun q _ => q ≠ p) rfl (fun q => ?_) (fun {q w i} => ?_)
    (fun {q k mp} hmp => ?_) fun {q k mp w} hmp hw hne => ⟨mp, ?_, hw⟩
  · rw [process_withProcess]
    split <;> rfl
  · rw [declaredAt, process_withProcess]
    split
    · rename_i hq
      simp [hq.1]
    · rename_i hq
      exact ⟨fun hi => ⟨hi, fun hqp => hq ⟨hqp.symm, lt_of_live (h.live hi)⟩⟩, And.left⟩
  · rw [Catalogue.without] at hmp
    split at hmp
    · simp at hmp
    · exact ⟨mp, hmp, rfl, h.nodup hmp, fun w hw => ⟨hw, by assumption⟩⟩
  · rw [Catalogue.without, if_neg hne, hmp]

end Machine

end DemandPaging
