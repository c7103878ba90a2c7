import DemandPaging.File.Memory
import DemandPaging.Proofs.Reachable

/-!
# Mapping a file, whole or not at all

`mapFile` is followed here step by step, on any machine and with any table of mappings. The pages of a
mapping are declared at addresses that are all different, so that the first one that cannot be declared
is one that was declared before; what has been declared by then is nowhere yet, and to forget it is to
undo it.
-/

namespace DemandPaging

/-- The addresses of the pages of a mapping of `len` bytes at `addr`, in ascending order. -/
def pagesAt (addr len : Nat) : List Nat := (List.range (pagesFor len)).map fun i => addr + i * pageSize

theorem Page.eq_of_away {p : Page} (h : p.frame = none) : { p with frame := none } = p := by
  cases p
  rw [← h]

/-- A mapping may start at the address. -/
def Mappable (addr : Nat) : Prop := addr ≠ 0 ∧ isAligned addr = true ∧ isUser addr = true

instance (addr : Nat) : Decidable (Mappable addr) :=
  inferInstanceAs (Decidable (addr ≠ 0 ∧ isAligned addr = true ∧ isUser addr = true))

theorem mem_pagesAt {addr len u : Nat} :
    u ∈ pagesAt addr len ↔ ∃ i < pagesFor len, u = addr + i * pageSize := by
  simp only [pagesAt, List.mem_map, List.mem_range, eq_comm]

/-- The `i`-th page of a mapping starts within the file. -/
theorem lt_of_lt_pagesFor {len i : Nat} (h : i < pagesFor len) : i * pageSize < len := by
  simp only [pagesFor, pageSize] at h ⊢
  omega

/-- The pages of a mapping that ends in user space are pages of user space. -/
theorem Mappable.page {addr len i : Nat} (h : Mappable addr) (htop : addr + len ≤ userTop)
    (hi : i < pagesFor len) :
    isAligned (addr + i * pageSize) = true ∧ isUser (addr + i * pageSize) = true := by
  have hlt := lt_of_lt_pagesFor hi
  obtain ⟨-, haligned, huser⟩ := h
  simp only [isAligned, pageOffset, beq_iff_eq] at haligned ⊢
  simp only [isUser, Bool.and_eq_true, decide_eq_true_eq] at huser ⊢
  exact ⟨by rw [Nat.add_mul_mod_self_right, haligned], by omega, by omega⟩

theorem tiles_map_addr (file : Handle) (addr len : Nat) :
    (tiles file len).map (addr + ·.offset) = pagesAt addr len := by
  simp [tiles, pagesAt, Function.comp_def]

theorem nodup_pagesAt (addr len : Nat) : (pagesAt addr len).Nodup := by
  refine List.Nodup.map ?_ List.nodup_range
  intro i j h
  have hpos : 0 < pageSize := by decide
  exact Nat.eq_of_mul_eq_mul_right hpos (Nat.add_left_cancel h)

namespace Machine

variable {φ : Type} {m m' : Machine φ} {p q : ProcId} {u w addr : Nat} {i : PageId} {pg : Page}

/-- The machine once process `p` has declared a new page at `u`. -/
def declaring (m : Machine φ) (p : ProcId) (u : Nat) (pg : Page) : Machine φ :=
  ({ m with pages := m.pages.add pg } : Machine φ).withProcess p fun proc =>
    { proc with declared := proc.declared.insert u m.pages.next }

/-- The machine once process `p` has declared the pages of a mapping at `addr`. -/
def tiled (m : Machine φ) (p : ProcId) (addr : Nat) (rs : List Region) : Machine φ :=
  rs.foldl (fun m r => m.declaring p (addr + r.offset) (.declared (addr + r.offset) true (.mapped r))) m

/-- The machine once process `p` has forgotten its page at `u`. -/
def forgetting (m : Machine φ) (p : ProcId) (u : Nat) : Machine φ :=
  m.withProcess p fun proc => { proc with declared := proc.declared.erase u }

/-- Pages have been declared or forgotten, and files called, but nothing else can have been noticed by
any page, process or part of the machine. -/
structure Undisturbed (m m' : Machine φ) : Prop where
  allocator : m'.allocator = m.allocator
  frames : m'.frames = m.frames
  swap : m'.swap = m.swap
  devices : m'.devices = m.devices
  next : m.pages.next ≤ m'.pages.next
  page : ∀ i < m.pages.next, m'.page i = m.page i
  /-- Page tables and mappings are the same, too. -/
  process : ∀ q, m'.process q = { m.process q with declared := (m'.process q).declared }

theorem Undisturbed.refl (m : Machine φ) : m.Undisturbed m :=
  ⟨rfl, rfl, rfl, rfl, Nat.le_refl _, fun _ _ => rfl, fun _ => rfl⟩

theorem Undisturbed.trans {m'' : Machine φ} (h : m.Undisturbed m') (h' : m'.Undisturbed m'') :
    m.Undisturbed m'' where
  allocator := h'.allocator.trans h.allocator
  frames := h'.frames.trans h.frames
  swap := h'.swap.trans h.swap
  devices := h'.devices.trans h.devices
  next := Nat.le_trans h.next h'.next
  page i hi := (h'.page i (Nat.lt_of_lt_of_le hi h.next)).trans (h.page i hi)
  process q := by rw [h'.process q, h.process q]

theorem undisturbed_withFiles (m : Machine φ) (files : φ) : m.Undisturbed (m.withFiles files) :=
  ⟨rfl, rfl, rfl, rfl, Nat.le_refl _, fun _ _ => rfl, fun _ => rfl⟩

theorem undisturbed_report (m : Machine φ) (e : Event) : m.Undisturbed (m.report e) :=
  ⟨rfl, rfl, rfl, rfl, Nat.le_refl _, fun _ _ => rfl, fun _ => rfl⟩

/-- A change of a page that leaves it as it is. -/
theorem withPage_of_same {f : Page → Page} (h : f (m.page i) = m.page i) : m.withPage i f = m := by
  have hpages : m.pages.modify i f = m.pages := by
    simp only [PageStore.modify]
    congr 1
    refine Array.ext_getElem? ?_
    intro j
    rw [Array.getElem?_modify]
    split
    · rename_i hij
      subst hij
      cases hj : m.pages.pages[i]? with
      | none => rfl
      | some pg =>
        have hpage : m.page i = pg := by simp [page, PageStore.get, Array.getD_eq_getD_getElem?, hj]
        rw [Option.map_some, ← hpage, h]
    · rfl
  rw [withPage, hpages]

/-! ### Declaring and forgetting -/

theorem process_declaring (m : Machine φ) (p q : ProcId) (u : Nat) (pg : Page) :
    (m.declaring p u pg).process q = if p = q ∧ q < m.processes.size
      then { m.process q with declared := (m.process q).declared.insert u m.pages.next }
      else m.process q :=
  process_withProcess { m with pages := m.pages.add pg } p q _

theorem page_declaring (m : Machine φ) (p : ProcId) (u : Nat) (pg : Page) (i : PageId) :
    (m.declaring p u pg).page i = if i = m.pages.next then pg else m.page i :=
  m.pages.get_add pg i

@[simp] theorem next_declaring (m : Machine φ) (p : ProcId) (u : Nat) (pg : Page) :
    (m.declaring p u pg).pages.next = m.pages.next + 1 := PageStore.next_add ..

@[simp] theorem processes_size_declaring (m : Machine φ) (p : ProcId) (u : Nat) (pg : Page) :
    (m.declaring p u pg).processes.size = m.processes.size := Array.size_modify ..

theorem declaredAt_declaring (hp : p < m.processes.size) (q : ProcId) (w : Nat) :
    (m.declaring p u pg).declaredAt q w =
      if q = p ∧ w = u then some m.pages.next else m.declaredAt q w := by
  rw [declaredAt, process_declaring]
  by_cases hq : p = q
  · subst hq
    simp only [hp, and_self, if_true, true_and, Std.ExtTreeMap.getElem?_insert, Nat.compare_eq_eq,
      eq_comm (a := u)]
    rfl
  · rw [if_neg fun h => hq h.1, if_neg fun h => hq h.1.symm]
    rfl

theorem undisturbed_declaring (m : Machine φ) (p : ProcId) (u : Nat) (pg : Page) :
    m.Undisturbed (m.declaring p u pg) where
  allocator := rfl
  frames := rfl
  swap := rfl
  devices := rfl
  next := by simp
  page i hi := by rw [page_declaring, if_neg (Nat.ne_of_lt hi)]
  process q := by
    rw [process_declaring]
    split <;> rfl

theorem process_forgetting (m : Machine φ) (p q : ProcId) (u : Nat) :
    (m.forgetting p u).process q = if p = q ∧ q < m.processes.size
      then { m.process q with declared := (m.process q).declared.erase u } else m.process q :=
  process_withProcess m p q _

theorem declaredAt_forgetting (hp : p < m.processes.size) (q : ProcId) (w : Nat) :
    (m.forgetting p u).declaredAt q w = if q = p ∧ w = u then none else m.declaredAt q w := by
  rw [declaredAt, process_forgetting]
  by_cases hq : p = q
  · subst hq
    simp only [hp, and_self, if_true, true_and, Std.ExtTreeMap.getElem?_erase, Nat.compare_eq_eq,
      eq_comm (a := u)]
    rfl
  · rw [if_neg fun h => hq h.1, if_neg fun h => hq h.1.symm]
    rfl

theorem undisturbed_forgetting (m : Machine φ) (p : ProcId) (u : Nat) :
    m.Undisturbed (m.forgetting p u) where
  allocator := rfl
  frames := rfl
  swap := rfl
  devices := rfl
  next := Nat.le_refl _
  page _ _ := rfl
  process q := by
    rw [process_forgetting]
    split <;> rfl

/-! ### All the pages of a mapping -/

theorem tiled_cons (m : Machine φ) (p : ProcId) (addr : Nat) (r : Region) (rs : List Region) :
    m.tiled p addr (r :: rs) =
      (m.declaring p (addr + r.offset) (.declared (addr + r.offset) true (.mapped r))).tiled p addr rs :=
  rfl

@[simp] theorem processes_size_tiled (p : ProcId) (addr : Nat) : ∀ (rs : List Region) (m : Machine φ),
    (m.tiled p addr rs).processes.size = m.processes.size
  | [], _ => rfl
  | r :: rs, m => by rw [tiled_cons, processes_size_tiled p addr rs, processes_size_declaring]

theorem undisturbed_tiled (p : ProcId) (addr : Nat) : ∀ (rs : List Region) (m : Machine φ),
    m.Undisturbed (m.tiled p addr rs)
  | [], m => .refl m
  | _ :: rs, m => (undisturbed_declaring m p _ _).trans (undisturbed_tiled p addr rs _)

theorem files_tiled (p : ProcId) (addr : Nat) : ∀ (rs : List Region) (m : Machine φ),
    (m.tiled p addr rs).files = m.files
  | [], _ => rfl
  | _ :: rs, _ => files_tiled p addr rs _

/-- Nothing else is declared, and nothing that was is forgotten. -/
theorem declaredAt_tiled_of_notMem (hp : p < m.processes.size) {rs : List Region}
    (hw : ¬ (q = p ∧ w ∈ rs.map (addr + ·.offset))) :
    (m.tiled p addr rs).declaredAt q w = m.declaredAt q w := by
  induction rs generalizing m with
  | nil => rfl
  | cons r rs ih =>
    rw [List.map_cons, List.mem_cons, not_and_or, not_or] at hw
    rw [tiled_cons, ih (by rwa [processes_size_declaring]), declaredAt_declaring hp, if_neg]
    · exact fun h => hw.elim (absurd h.1) fun hne => hne.1 h.2
    · exact fun h => hw.elim (absurd h.1) fun hne => hne.2 h.2

/-- Every page of the mapping is new, and as it is declared. -/
theorem declaredAt_tiled (hp : p < m.processes.size) {rs : List Region}
    (hnodup : (rs.map (addr + ·.offset)).Nodup) {r : Region} (hr : r ∈ rs) :
    ∃ i, m.pages.next ≤ i ∧ i < (m.tiled p addr rs).pages.next ∧
      (m.tiled p addr rs).declaredAt p (addr + r.offset) = some i ∧
      (m.tiled p addr rs).page i = .declared (addr + r.offset) true (.mapped r) := by
  induction rs generalizing m with
  | nil => simp at hr
  | cons r' rs ih =>
    rw [List.map_cons, List.nodup_cons] at hnodup
    rw [tiled_cons]
    have hundisturbed := undisturbed_tiled p addr rs
      (m.declaring p (addr + r'.offset) (.declared (addr + r'.offset) true (.mapped r')))
    have hnext := hundisturbed.next
    rw [next_declaring] at hnext
    rcases List.mem_cons.1 hr with rfl | hr
    · refine ⟨m.pages.next, Nat.le_refl _, hnext, ?_, ?_⟩
      · rw [declaredAt_tiled_of_notMem (by rwa [processes_size_declaring]) fun h => hnodup.1 h.2,
          declaredAt_declaring hp, if_pos ⟨rfl, rfl⟩]
      · rw [hundisturbed.page _ (by simp), page_declaring, if_pos rfl]
    · obtain ⟨i, hle, hlt, hi, hpage⟩ := ih
        (m := m.declaring p (addr + r'.offset) (.declared (addr + r'.offset) true (.mapped r')))
        (by rwa [processes_size_declaring]) hnodup.2 hr
      rw [next_declaring] at hle
      exact ⟨i, Nat.le_of_succ_le hle, hlt, hi, hpage⟩

/-! ### Forgetting them all -/

/-- The machine once process `p` has forgotten its pages at `us`. -/
def forgettingAll (m : Machine φ) (p : ProcId) (us : List Nat) : Machine φ :=
  us.foldl (·.forgetting p ·) m

theorem forgettingAll_cons (m : Machine φ) (p : ProcId) (u : Nat) (us : List Nat) :
    m.forgettingAll p (u :: us) = (m.forgetting p u).forgettingAll p us := rfl

theorem undisturbed_forgettingAll (p : ProcId) : ∀ (us : List Nat) (m : Machine φ),
    m.Undisturbed (m.forgettingAll p us)
  | [], m => .refl m
  | u :: us, m => (undisturbed_forgetting m p u).trans (undisturbed_forgettingAll p us _)

theorem pages_forgettingAll (p : ProcId) : ∀ (us : List Nat) (m : Machine φ),
    (m.forgettingAll p us).pages = m.pages
  | [], _ => rfl
  | _ :: us, _ => pages_forgettingAll p us _

theorem files_forgettingAll (p : ProcId) : ∀ (us : List Nat) (m : Machine φ),
    (m.forgettingAll p us).files = m.files
  | [], _ => rfl
  | _ :: us, _ => files_forgettingAll p us _

theorem processes_size_forgetting (m : Machine φ) (p : ProcId) (u : Nat) :
    (m.forgetting p u).processes.size = m.processes.size := Array.size_modify ..

theorem processes_size_forgettingAll (p : ProcId) : ∀ (us : List Nat) (m : Machine φ),
    (m.forgettingAll p us).processes.size = m.processes.size
  | [], _ => rfl
  | u :: us, m => by
    rw [forgettingAll_cons, processes_size_forgettingAll p us, processes_size_forgetting]

theorem declaredAt_forgettingAll (q : ProcId) (w : Nat) : ∀ (us : List Nat) {m : Machine φ},
    p < m.processes.size →
    (m.forgettingAll p us).declaredAt q w = if q = p ∧ w ∈ us then none else m.declaredAt q w
  | [], m, _ => by simp [forgettingAll]
  | u :: us, m, hp => by
    rw [forgettingAll_cons, declaredAt_forgettingAll q w us (by rwa [processes_size_forgetting]),
      declaredAt_forgetting hp]
    by_cases hq : q = p
    · by_cases hu : w = u <;> simp [hq, hu]
    · simp [hq]

/-- Processes that differ in what they declare at most, and declare the same, are the same. -/
theorem Undisturbed.processes (h : m.Undisturbed m') (hsize : m'.processes.size = m.processes.size)
    (hdeclared : m'.declaredAt = m.declaredAt) : m'.processes = m.processes := by
  refine Array.ext hsize ?_
  intro q hq hq'
  have hget : ∀ {n : Machine φ} (hn : q < n.processes.size), n.process q = n.processes[q] := by
    intro n hn
    simp [Machine.process, Array.getD_eq_getD_getElem?, hn]
  have hsame : (m'.process q).declared = (m.process q).declared :=
    Std.ExtTreeMap.ext_getElem? fun {w} => congrFun (congrFun hdeclared q) w
  rw [← hget hq, ← hget hq', h.process q, hsame]

end Machine

namespace Kernel

open Machine

variable {φ : Type} {m m' : Machine φ} {p : ProcId} {u w addr : Nat} {i : PageId}

theorem declare_of_vacant (haligned : isAligned u = true) (huser : isUser u = true)
    (hvacant : m.declaredAt p u = none) (writable : Bool) (backing : Backing) :
    declare p u writable backing m =
      .ok (.ok m.pages.next) (m.declaring p u (.declared u writable backing)) := by
  have hcontains : (m.process p).declared.contains u = false := by
    rw [Std.ExtTreeMap.contains_eq_isSome_getElem?]
    exact Option.isSome_eq_false_iff.2 (Option.isNone_iff_eq_none.2 hvacant)
  refine eq_ok_of_ends ?_
  simp only [declare, addPage, haligned, huser, hcontains, Bool.not_true, Bool.false_eq_true, if_false,
    ends_bind, ends_process, ends_modifyGet, ends_modifyProcess, ends_pure, true_and]
  rfl

theorem declare_of_occupied (haligned : isAligned u = true) (huser : isUser u = true)
    (hoccupied : (m.declaredAt p u).isSome = true) (writable : Bool) (backing : Backing) :
    declare p u writable backing m = .ok (.error (.declared u)) m := by
  have hcontains : (m.process p).declared.contains u = true := by
    rw [Std.ExtTreeMap.contains_eq_isSome_getElem?]
    exact hoccupied
  refine eq_ok_of_ends ?_
  simp only [declare, haligned, huser, hcontains, Bool.not_true, Bool.false_eq_true, if_false, if_true,
    ends_bind, ends_process, ends_pure, and_self]

/-- Pages at addresses that are free are declared one after the other. -/
theorem declareTiles_append (addr : Nat) (rest : List Region) : ∀ (rs : List Region) (pages : Array Nat)
    {m : Machine φ}, p < m.processes.size → (rs.map (addr + ·.offset)).Nodup →
    (∀ r ∈ rs, r.readLen + r.zeroLen = pageSize) →
    (∀ r ∈ rs, isAligned (addr + r.offset) = true ∧ isUser (addr + r.offset) = true ∧
      m.declaredAt p (addr + r.offset) = none) →
    declareTiles p addr (rs ++ rest) pages m =
      declareTiles p addr rest (pages ++ (rs.map (addr + ·.offset)).toArray) (m.tiled p addr rs)
  | [], pages, m, _, _, _, _ => by simp [tiled]
  | r :: rs, pages, m, hp, hnodup, hfits, hvacant => by
    obtain ⟨hwhole, hfits⟩ := List.forall_mem_cons.1 hfits
    obtain ⟨haligned, huser, hnone⟩ := hvacant r (List.mem_cons_self ..)
    rw [List.map_cons, List.nodup_cons] at hnodup
    have hstep : declareTiles p addr (r :: rs ++ rest) pages m =
        declareTiles p addr (rs ++ rest) (pages.push (addr + r.offset))
          (m.declaring p (addr + r.offset) (.declared (addr + r.offset) true (.mapped r))) := by
      rw [List.cons_append, declareTiles, declareMapped_of_fits hwhole]
      simp only [bind, EStateM.bind, declare_of_vacant haligned huser hnone]
    rw [hstep, declareTiles_append addr rest rs _ (by rwa [processes_size_declaring]) hnodup.2 hfits ?_,
      tiled_cons, List.map_cons, List.toArray_cons, ← Array.append_assoc, Array.push_eq_append]
    intro r' hr'
    obtain ⟨haligned', huser', hnone'⟩ := hvacant r' (List.mem_cons_of_mem _ hr')
    refine ⟨haligned', huser', ?_⟩
    rw [declaredAt_declaring hp, if_neg, hnone']
    exact fun h => hnodup.1 (h.2 ▸ List.mem_map_of_mem hr')

/-! ### Taking a mapping back -/

/-- To release a page that is nowhere is to forget it. -/
theorem releasePage_of_away [FileSystem φ] (hi : m.declaredAt p u = some i) (hlt : i < m.pages.next)
    (haway : (m.page i).frame = none) (hfree : (m.page i).pinned = false) :
    releasePage p u m = .ok () (m.forgetting p u) := by
  have hpin : pin i (m.forgetting p u) =
      .ok () ((m.forgetting p u).withPage i fun pg => { pg with pinned := true }) := by
    simp only [pin, bind, EStateM.bind, tryPin_of_free (m := m.forgetting p u) hfree, Bool.not_true,
      Bool.false_eq_true, if_false]
    rfl
  have hpinned : ((m.forgetting p u).withPage i fun pg => { pg with pinned := true }).page i =
      { m.page i with pinned := true } := by
    rw [page_withPage, if_pos ⟨rfl, hlt⟩]
    rfl
  refine eq_ok_of_ends ?_
  rw [releasePage, forget, ends_bind, ends_bind, ends_process, ends_bind, ends_modifyProcess, ends_pure,
    show (m.process p).declared[u]? = some i from hi]
  show Ends (dismiss p u i) (m.forgetting p u) _ _
  -- the page has no frame to give back, so that only the pin comes and goes
  rw [dismiss, ends_bind, ends_of_eq hpin, ends_bind, ends_page, hpinned, ends_bind, ends_modifyPage,
    withPage_of_same (by rw [hpinned]; exact Page.eq_of_away haway)]
  simp only [haway]
  rw [ends_of_eq (unpin_of_pinned (by rw [hpinned])), withPage_withPage _ (Page.eq_of_face rfl hfree.symm)]
  exact ⟨trivial, rfl⟩

/-- Pages that are nowhere are forgotten one after the other. -/
theorem releasePages_of_away [FileSystem φ] : ∀ (us : List Nat) {m : Machine φ}, p < m.processes.size →
    us.Nodup → (∀ u ∈ us, ∃ i, m.declaredAt p u = some i ∧ i < m.pages.next ∧
      (m.page i).frame = none ∧ (m.page i).pinned = false) →
    us.forM (releasePage p) m = .ok () (m.forgettingAll p us)
  | [], _, _, _, _ => rfl
  | u :: us, m, hp, hnodup, haway => by
    obtain ⟨hu, hnodup⟩ := List.nodup_cons.1 hnodup
    obtain ⟨i, hi, hlt, hframe, hfree⟩ := haway u (List.mem_cons_self ..)
    rw [List.forM_eq_forM, List.forM_cons]
    simp only [bind, EStateM.bind, releasePage_of_away hi hlt hframe hfree]
    refine releasePages_of_away us (by rwa [processes_size_forgetting]) hnodup ?_
    intro w hw
    obtain ⟨j, hj, hrest⟩ := haway w (List.mem_cons_of_mem _ hw)
    refine ⟨j, ?_, hrest⟩
    rw [declaredAt_forgetting hp, if_neg, hj]
    rintro ⟨-, rfl⟩
    exact hu hw

/-- A mapping whose pages have only just been declared is taken back without a trace. -/
theorem releaseMapping_of_tiled [FileSystem φ] (mp : Mapping) (hp : p < m.processes.size) {rs : List Region}
    (hnodup : (rs.map (addr + ·.offset)).Nodup)
    (hvacant : ∀ r ∈ rs, m.declaredAt p (addr + r.offset) = none)
    (hmp : mp.pages.toList = rs.map (addr + ·.offset)) :
    ∃ m', releaseMapping p mp (m.tiled p addr rs) = .ok () m' ∧ m.Undisturbed m' ∧
      m'.processes = m.processes ∧ m'.files = FileSystem.close m.files mp.file := by
  set us := rs.map (addr + ·.offset) with hus
  have hp' : p < (m.tiled p addr rs).processes.size := by rwa [processes_size_tiled]
  have hrelease : mp.pages.toList.forM (releasePage p) (m.tiled p addr rs) =
      .ok () ((m.tiled p addr rs).forgettingAll p us) := by
    rw [hmp]
    refine releasePages_of_away us hp' hnodup ?_
    intro u hu
    obtain ⟨r, hr, rfl⟩ := List.mem_map.1 hu
    obtain ⟨i, -, hlt, hi, hpage⟩ := declaredAt_tiled hp hnodup hr
    exact ⟨i, hi, hlt, by rw [hpage]; rfl, by rw [hpage]; rfl⟩
  have hundisturbed := (undisturbed_tiled p addr rs m).trans (undisturbed_forgettingAll p us _)
  refine ⟨_, ?_, hundisturbed.trans (undisturbed_withFiles _ (FileSystem.close m.files mp.file)), ?_, rfl⟩
  · simp only [releaseMapping, bind, EStateM.bind, hrelease, closeFile]
    rw [← files_tiled p addr rs, ← files_forgettingAll p us]
    rfl
  · refine hundisturbed.processes (by rw [processes_size_forgettingAll, processes_size_tiled]) ?_
    funext q w
    rw [declaredAt_forgettingAll q w us hp']
    split
    · rename_i hw
      obtain ⟨rfl, hw⟩ := hw
      obtain ⟨r, hr, rfl⟩ := List.mem_map.1 hw
      rw [hvacant r hr]
    · exact declaredAt_tiled_of_notMem hp (by assumption)

end Kernel

/-! ### Mapping a file -/

/-- What comes of mapping a file at `addr` for process `p`, when the file states the length `len` and
`handle` is what opening it again gives. -/
structure Machine.MapsWhole {φ : Type} [FileSystem φ] (m : Machine φ) (p : ProcId) (t : MapTable)
    (file : Handle) (addr len : Nat) (handle : Handle) (result : Except MapError Nat) (t' : MapTable)
    (m' : Machine φ) : Prop where
  /-- Memory, swap space, page tables and the pages that there are stay as they are. -/
  undisturbed : m.Undisturbed m'
  ok_iff : (∃ id, result = .ok id) ↔ Mappable addr ∧ 0 < len ∧ addr + len < wordLimit ∧
    addr + len ≤ userTop ∧ ∀ i < pagesFor len, m.declaredAt p (addr + i * pageSize) = none
  /-- A mapping is made under the next number, and lists its pages in order. -/
  number : ∀ id, result = .ok id → id = t.nextId ∧
    ∃ pages, pages.toList = pagesAt addr len ∧ t' = t.add ⟨handle, pages⟩
  /-- The pages are new, and each is what its part of the file asks for. -/
  page : ∀ id, result = .ok id → ∀ i < pagesFor len, ∃ k, m.pages.next ≤ k ∧
    m'.declaredAt p (addr + i * pageSize) = some k ∧
    m'.page k = .declared (addr + i * pageSize) true (.mapped ⟨handle, i * pageSize,
      min pageSize (len - i * pageSize), pageSize - min pageSize (len - i * pageSize)⟩)
  /-- Nothing else is declared or forgotten. -/
  others : ∀ id, result = .ok id → ∀ q w, ¬ (q = p ∧ w ∈ pagesAt addr len) →
    m'.declaredAt q w = m.declaredAt q w
  opened : ∀ id, result = .ok id →
    m'.files = (FileSystem.reopen (FileSystem.length m.files file).2 file).2
  /-- If no mapping is made, no process can tell. -/
  failed : ∀ e, result = .error e → t' = t ∧ m'.processes = m.processes
  unusable : ¬ Mappable addr → result = .error (.badAddress addr) ∧ m' = m
  empty : Mappable addr → len = 0 →
    result = .error .emptyFile ∧ m' = m.withFiles (FileSystem.length m.files file).2
  tooLong : Mappable addr → 0 < len → userTop < addr + len →
    result = .error (.badAddress addr) ∧ m' = m.withFiles (FileSystem.length m.files file).2
  /-- The lowest page that is declared already is named, and the handle is closed again. -/
  occupied : Mappable addr → 0 < len → addr + len ≤ userTop → ∀ u,
    (pagesAt addr len).find? (fun u => (m.declaredAt p u).isSome) = some u →
    result = .error (.page (.declared u)) ∧
      m'.files = FileSystem.close (FileSystem.reopen (FileSystem.length m.files file).2 file).2 handle

namespace Kernel

open Machine

variable {φ : Type} [FileSystem φ] {m m' : Machine φ} {p : ProcId} {t : MapTable} {file handle : Handle}
  {addr len : Nat}

theorem fileLength_eq (m : Machine φ) (file : Handle) : fileLength file m =
    .ok (FileSystem.length m.files file).1 (m.withFiles (FileSystem.length m.files file).2) := rfl

theorem reopenFile_eq (m : Machine φ) (file : Handle) : reopenFile file m =
    .ok (FileSystem.reopen m.files file).1 (m.withFiles (FileSystem.reopen m.files file).2) := rfl

theorem mappable_iff : (addr == 0 || !isAligned addr || !isUser addr) = false ↔ Mappable addr := by
  simp [Mappable, and_assoc]

/-- A request that is turned down before any page is declared. -/
theorem mapsWhole_of_refused {e : MapError} (hundisturbed : m.Undisturbed m')
    (hprocesses : m'.processes = m.processes)
    (hunusable : ¬ Mappable addr → e = .badAddress addr ∧ m' = m)
    (hempty : Mappable addr → len = 0 →
      e = .emptyFile ∧ m' = m.withFiles (FileSystem.length m.files file).2)
    (htooLong : Mappable addr → 0 < len → userTop < addr + len →
      e = .badAddress addr ∧ m' = m.withFiles (FileSystem.length m.files file).2)
    (hbad : ¬ (Mappable addr ∧ 0 < len ∧ addr + len ≤ userTop)) :
    m.MapsWhole p t file addr len handle (.error e) t m' where
  undisturbed := hundisturbed
  ok_iff := ⟨by rintro ⟨id, hid⟩; simp at hid, fun h => absurd ⟨h.1, h.2.1, h.2.2.2.1⟩ hbad⟩
  number id hid := by simp at hid
  page id hid := by simp at hid
  others id hid := by simp at hid
  opened id hid := by simp at hid
  failed _ _ := ⟨rfl, hprocesses⟩
  unusable h := ⟨by rw [(hunusable h).1], (hunusable h).2⟩
  empty h hlen := ⟨by rw [(hempty h hlen).1], (hempty h hlen).2⟩
  tooLong h hpos htop := ⟨by rw [(htooLong h hpos htop).1], (htooLong h hpos htop).2⟩
  occupied h hpos htop := absurd ⟨h, hpos, htop⟩ hbad

/-- All pages of the mapping are free, and are declared. -/
theorem mapsWhole_of_vacant (hp : p < m.processes.size) (hmappable : Mappable addr) (hpos : 0 < len)
    (htop : addr + len ≤ userTop)
    (hvacant : ∀ i < pagesFor len, m.declaredAt p (addr + i * pageSize) = none) {files : φ}
    (hfiles : files = (FileSystem.reopen (FileSystem.length m.files file).2 file).2) {pages : Array Nat}
    (hpages : pages.toList = pagesAt addr len) (e : Event) :
    m.MapsWhole p t file addr len handle (.ok t.nextId) (t.add ⟨handle, pages⟩)
      (((m.withFiles files).tiled p addr (tiles handle len)).report e) := by
  have hnodup : ((tiles handle len).map (addr + ·.offset)).Nodup := by
    rw [tiles_map_addr]
    exact nodup_pagesAt addr len
  have hword : addr + len < wordLimit := Nat.lt_of_le_of_lt htop (by decide)
  have hundisturbed := undisturbed_tiled p addr (tiles handle len) (m.withFiles files)
  refine ⟨((undisturbed_withFiles m files).trans hundisturbed).trans (undisturbed_report _ e),
    ⟨fun _ => ⟨hmappable, hpos, hword, htop, hvacant⟩, fun _ => ⟨_, rfl⟩⟩, fun id hid => ?_,
    fun id _ i hi => ?_, fun id _ q w hw => ?_, fun id _ => ?_, fun e he => by simp at he,
    fun hno => absurd hmappable hno, fun _ hlen => ?_, fun _ _ hlate => ?_, fun _ _ _ u hu => ?_⟩
  · exact ⟨(Except.ok.inj hid).symm, pages, hpages, rfl⟩
  · have hmem : (⟨handle, i * pageSize, min (len - i * pageSize) pageSize,
        pageSize - min (len - i * pageSize) pageSize⟩ : Region) ∈ tiles handle len :=
      List.mem_map.2 ⟨i, List.mem_range.2 hi, rfl⟩
    obtain ⟨k, hle, -, hk, hpage⟩ := declaredAt_tiled (m := m.withFiles files) hp hnodup hmem
    rw [Nat.min_comm] at hpage
    exact ⟨k, hle, hk, hpage⟩
  · exact declaredAt_tiled_of_notMem (m := m.withFiles files) hp (by rwa [tiles_map_addr])
  · exact (files_tiled p addr _ _).trans hfiles
  · omega
  · omega
  · obtain ⟨i, hi, rfl⟩ := mem_pagesAt.1 (List.mem_of_find?_eq_some hu)
    have hsome := List.find?_some hu
    simp [hvacant i hi] at hsome

/-- A page of the mapping is declared already, and what has been declared is taken back. -/
theorem mapsWhole_of_occupied (hmappable : Mappable addr) (hpos : 0 < len) (htop : addr + len ≤ userTop)
    {u : Nat} (hu : (pagesAt addr len).find? (fun u => (m.declaredAt p u).isSome) = some u)
    (hundisturbed : m.Undisturbed m') (hprocesses : m'.processes = m.processes)
    (hfiles : m'.files =
      FileSystem.close (FileSystem.reopen (FileSystem.length m.files file).2 file).2 handle) :
    m.MapsWhole p t file addr len handle (.error (.page (.declared u))) t m' := by
  refine ⟨hundisturbed, ⟨by rintro ⟨id, hid⟩; simp at hid, fun h => ?_⟩, fun id hid => by simp at hid,
    fun id hid => by simp at hid, fun id hid => by simp at hid, fun id hid => by simp at hid,
    fun _ _ => ⟨rfl, hprocesses⟩, fun hno => absurd hmappable hno, fun _ hlen => by omega,
    fun _ _ hlate => by omega, fun _ _ _ w hw => ?_⟩
  · obtain ⟨i, hi, rfl⟩ := mem_pagesAt.1 (List.mem_of_find?_eq_some hu)
    have hsome := List.find?_some hu
    simp [h.2.2.2.2 i hi] at hsome
  · rw [hu, Option.some.injEq] at hw
    rw [hw]
    exact ⟨rfl, hfiles⟩

/-- A file is mapped whole or not at all, on any machine and with any table of mappings: which of the
two it is, and why, depends on the address, the length that the file states and what is declared. -/
theorem maps_whole_or_not (m : Machine φ) (p : ProcId) (hlive : (m.process p).exited = false)
    (t : MapTable) (file : Handle) (addr : Nat) :
    Ends (mapFile t p file addr) m (fun r m' => m.MapsWhole p t file addr
      (FileSystem.length m.files file).1
      (FileSystem.reopen (FileSystem.length m.files file).2 file).1 r.1 r.2 m') fun _ _ => False := by
  have hp := lt_of_live hlive
  set len := (FileSystem.length m.files file).1 with hlen
  set handle := (FileSystem.reopen (FileSystem.length m.files file).2 file).1 with hhandle
  set files := (FileSystem.reopen (FileSystem.length m.files file).2 file).2 with hfiles
  have hconsulted := undisturbed_withFiles m (FileSystem.length m.files file).2
  rw [mapFile, ends_ite]
  split
  · rename_i hbad
    have hno : ¬ Mappable addr := by
      rw [← mappable_iff, hbad]
      simp
    exact mapsWhole_of_refused (.refl m) rfl (fun _ => ⟨rfl, rfl⟩) (fun h => absurd h hno)
      (fun h => absurd h hno) fun h => hno h.1
  rename_i hgood
  have hmappable : Mappable addr := mappable_iff.1 (by simpa using hgood)
  rw [ends_bind, ends_of_eq (fileLength_eq m file), ← hlen, ends_ite]
  split
  · rename_i hzero
    have hzero : len = 0 := by simpa using hzero
    exact mapsWhole_of_refused hconsulted rfl (fun h => absurd hmappable h)
      (fun _ _ => ⟨rfl, rfl⟩) (fun _ hpos => by omega) fun h => by omega
  rename_i hnonzero
  have hpos : 0 < len := Nat.pos_of_ne_zero (by simpa using hnonzero)
  rw [ends_ite]
  split
  · rename_i hlate
    have hlate : userTop < addr + len := hlate
    exact mapsWhole_of_refused hconsulted rfl (fun h => absurd hmappable h)
      (fun _ hzero => by omega) (fun _ _ _ => ⟨rfl, rfl⟩) fun h => by omega
  rename_i hearly
  have htop : addr + len ≤ userTop := Nat.le_of_not_lt hearly
  rw [ends_bind, ends_of_eq (reopenFile_eq _ file), withFiles_files, ← hhandle, ← hfiles, ends_bind]
  show Ends _ (m.withFiles files) _ _
  -- the pages before the first that is declared already are declared first
  have hplain : ∀ r ∈ tiles handle len, isAligned (addr + r.offset) = true ∧
      isUser (addr + r.offset) = true := by
    intro r hr
    obtain ⟨i, hi, rfl⟩ := List.mem_map.1 hr
    exact hmappable.page htop (List.mem_range.1 hi)
  have hnodup : ((tiles handle len).map (addr + ·.offset)).Nodup := by
    rw [tiles_map_addr]
    exact nodup_pagesAt addr len
  have hfits : ∀ r ∈ tiles handle len, r.readLen + r.zeroLen = pageSize := fun r hr =>
    readLen_add_zeroLen_of_mem_tiles hr
  have hp' : p < (m.withFiles files).processes.size := hp
  cases hfirst : (tiles handle len).find? fun r => (m.declaredAt p (addr + r.offset)).isSome with
  | none =>
    have hvacant : ∀ r ∈ tiles handle len, m.declaredAt p (addr + r.offset) = none := fun r hr => by
      simpa using List.find?_eq_none.1 hfirst r hr
    have hall := declareTiles_append addr [] (tiles handle len) #[] hp' hnodup hfits fun r hr =>
      ⟨(hplain r hr).1, (hplain r hr).2, hvacant r hr⟩
    rw [List.append_nil] at hall
    rw [ends_of_eq hall]
    simp only [ends_bind, ends_process, ends_emit, ends_pure]
    refine mapsWhole_of_vacant hp hmappable hpos htop (fun i hi => ?_) hfiles ?_ _
    · exact hvacant _ (List.mem_map.2 ⟨i, List.mem_range.2 hi, rfl⟩)
    · simp [tiles_map_addr]
  | some r =>
    obtain ⟨hoccupied, before, after, hsplit, hbefore⟩ := List.find?_eq_some_iff_append.1 hfirst
    have hr : r ∈ tiles handle len := by simp [hsplit]
    rw [hsplit, List.map_append, List.nodup_append] at hnodup
    have hvacant : ∀ r' ∈ before, m.declaredAt p (addr + r'.offset) = none := fun r' hr' => by
      simpa using hbefore r' hr'
    have hfront := declareTiles_append addr (r :: after) before #[] hp' hnodup.1 (fun r' hr' => hfits r' (by simp [hsplit, hr'])) fun r' hr' =>
      ⟨(hplain r' (by simp [hsplit, hr'])).1, (hplain r' (by simp [hsplit, hr'])).2, hvacant r' hr'⟩
    have hpages : (before.map (addr + ·.offset)).toArray.toList = before.map (addr + ·.offset) := rfl
    obtain ⟨m₁, hrelease, hundisturbed, hprocesses, hclosed⟩ :=
      releaseMapping_of_tiled ⟨handle, (before.map (addr + ·.offset)).toArray⟩ hp' hnodup.1 hvacant hpages
    have hstuck : declareTiles p addr (r :: after) (#[] ++ (before.map (addr + ·.offset)).toArray)
        ((m.withFiles files).tiled p addr before) =
          .ok ((before.map (addr + ·.offset)).toArray, some (.declared (addr + r.offset)))
            ((m.withFiles files).tiled p addr before) := by
      have hstill : ((m.withFiles files).tiled p addr before).declaredAt p (addr + r.offset) =
          m.declaredAt p (addr + r.offset) := by
        refine declaredAt_tiled_of_notMem (m := m.withFiles files) hp' fun h => ?_
        exact hnodup.2.2 _ h.2 _ (by simp) rfl
      rw [Array.empty_append, declareTiles, declareMapped_of_fits (hfits r hr)]
      simp only [bind, EStateM.bind,
        declare_of_occupied (hplain r hr).1 (hplain r hr).2 (by rw [hstill, hoccupied])]
      rfl
    rw [hsplit, ends_of_eq (hfront.trans hstuck)]
    simp only [ends_bind]
    rw [ends_of_eq hrelease, ends_pure]
    refine mapsWhole_of_occupied hmappable hpos htop ?_
      ((undisturbed_withFiles m files).trans hundisturbed) hprocesses ?_
    · rw [← tiles_map_addr handle, List.find?_map, Function.comp_def, hfirst]
      rfl
    · rw [hclosed, hfiles]
      rfl

/-- A file of two pages does not fit below a page that is declared already: that page is named, and the
page that had been declared before it is forgotten. -/
theorem maps_not_over_declared : ∃ m : Machine MemoryFiles, Reachable m ∧ (m.process 0).exited = false ∧
    m.declaredAt 0 0x8048000 = none ∧ (m.declaredAt 0 0x8049000).isSome = true ∧
    Ends (mapFile (m.process 0).mappings 0 0 0x8048000) m (fun r m' =>
      r.1 = .error (.page (.declared 0x8049000)) ∧ m'.processes = m.processes) fun _ _ => False := by
  obtain ⟨m, hm, -, hP⟩ := exists_reachable 1 1
    (⟨#[⟨List.replicate 5000 0, none, none⟩]⟩ : MemoryFiles) [(0, .declareFile 0x8049000 ⟨0, 0, 0, 4096⟩ true)]
    (fun m => !(m.process 0).exited && (FileSystem.length m.files 0).1 == 5000 &&
      (m.declaredAt 0 0x8048000).isNone && (m.declaredAt 0 0x8049000).isSome) (by decide +kernel)
  simp only [Bool.and_eq_true, Bool.not_eq_true', beq_iff_eq, Option.isNone_iff_eq_none] at hP
  obtain ⟨⟨⟨hlive, hlen⟩, hfree⟩, htaken⟩ := hP
  refine ⟨m, hm, hlive, hfree, htaken, (maps_whole_or_not m 0 hlive _ 0 0x8048000).returns ?_⟩
  intro r m' h
  rw [hlen] at h
  have hfirst : (pagesAt 0x8048000 5000).find? (fun u => (m.declaredAt 0 u).isSome) = some 0x8049000 := by
    rw [show pagesAt 0x8048000 5000 = [0x8048000, 0x8049000] by decide]
    simp [hfree, htaken]
  obtain ⟨hresult, -⟩ := h.occupied (by decide) (by decide) (by decide) _ hfirst
  exact ⟨hresult, (h.failed _ hresult).2⟩

end Kernel

end DemandPaging
