import DemandPaging.Proofs.Halts
import DemandPaging.Proofs.Honest
import DemandPaging.Proofs.Recency
import DemandPaging.Proofs.Retrying

/-!
# Repeated accesses go through

A user program that repeats an access after every fault gets through in the end, even though a fault may
cost the access a page that it has just used. Such a page is idle when the clock takes it only if the
clock has gone around and found no idle page. From then on no accessed bit is left but those that the
access itself sets, and as long as it needs no more pages than there are frames, there is always an idle
page that it does not need. So a page is needed twice at most.
-/

namespace DemandPaging

/-- The pages that the `n` bytes from `a` on lie in. -/
def touchedPages (a n : Nat) : Finset Nat := (Finset.range n).image fun i => pageBase (a + i)

theorem mem_touchedPages {a n u : Nat} : u ∈ touchedPages a n ↔ ∃ i < n, pageBase (a + i) = u := by
  simp [touchedPages]

theorem touchedPages_mono {a n n' : Nat} (h : n ≤ n') : touchedPages a n ⊆ touchedPages a n' :=
  Finset.image_subset_image (Finset.range_subset_range.2 h)

theorem touchedPages_succ (a n : Nat) :
    touchedPages a (n + 1) = insert (pageBase (a + n)) (touchedPages a n) := by
  rw [touchedPages, Finset.range_add_one, Finset.image_insert]
  rfl

namespace View

variable {φ : Type} [FileSystem φ] {v v' : View φ} {q : ProcId} {x : Nat} {l : Label} {i : PageId}

/-- Process `q` has no page at `x`, or one that the stack has grown by. -/
def Grows (v : View φ) (q : ProcId) (x : Nat) : Prop :=
  ∀ i, v.own q x = some i → (v.page i).writable = true ∧ (v.page i).backing = .swap

theorem grows_of_effect (he : Effect l v v') (hl : l.lasting) (hd : ∀ i, l ≠ .declare i)
    (hv : v.Sound) (h : v.Grows q x) : v'.Grows q x := by
  have hkept : ∀ i, v.own q x = some i → (v'.page i).writable = true ∧ (v'.page i).backing = .swap := by
    intro i hi
    have hsame := he.same (hv.owned.lt hi)
    rw [hsame.writable, hsame.backing]
    exact h i hi
  cases he with
  | declare => exact absurd rfl (hd _)
  | forget | release | flush | discard => exact hl.elim
  | grow vacant free =>
    intro i hi
    rw [occupy_own, claim_own, setAt_apply] at hi
    split at hi
    · obtain rfl := Option.some.inj hi
      rw [occupy_page, Function.update_self, claim_page, Function.update_self]
      exact ⟨rfl, rfl⟩
    · exact hkept i hi
  | _ => exact hkept

/-- What becomes of the pages of processes while pages are fetched. -/
structure Continues (v v' : View φ) : Prop where
  own : ∀ {q x i}, v.own q x = some i → v'.own q x = some i
  same : ∀ {i}, i < v.next → (v.page i).Same (v'.page i)
  grows : ∀ {q x}, v.Grows q x → v'.Grows q x

theorem Fetched.continues (h : v.Fetched v') (hv : v.Sound) : v.Continues v' := by
  rcases h with rfl | ⟨i, -, hfetches⟩
  · exact ⟨id, fun _ => .refl _, id⟩
  have hlasting : ∀ l, Label.fetching i l → l.lasting ∧ ∀ j, l ≠ .declare j := by
    intro l hl
    cases l <;> first | exact hl.elim | exact ⟨trivial, by simp⟩
  refine ⟨(extends_of_path hfetches.path fun l hl => (hlasting l hl).1).own, hfetches.path.same,
    fun {q x} hgrows => ?_⟩
  exact (hfetches.path.keeps (P := fun w => w.Sound ∧ w.Grows q x) ⟨hv, hgrows⟩ fun hl he hw =>
    ⟨he.sound hw.1, grows_of_effect he (hlasting _ hl).1 (hlasting _ hl).2 hw.1 hw.2⟩).2

end View

namespace Machine

variable {φ : Type} {m m' m₁ m₂ : Machine φ} {p : ProcId} {esp a len k faults : Nat} {w : Bool}

/-- Process `p` has the page at `u` in memory. -/
def InMemory (m : Machine φ) (p : ProcId) (u : Nat) : Prop :=
  ((m.process p).table.mapping? u).isSome = true

theorem inMemory_of_isAccessed {q : ProcId} {u : Nat} (h : (m.process q).table.isAccessed u = true) :
    m.InMemory q u := by
  rw [PageTable.isAccessed] at h
  rw [InMemory, PageTable.mapping?, Option.isSome_map]
  cases he : (m.process q).table.entries[u]? with
  | none => simp [he] at h
  | some x => rfl

theorem Steady.inMemory_of_frame (h : m.Steady) {q : ProcId} {u : Nat} {i : PageId}
    (hi : m.scene.own q u = some i) (hf : (m.scene.page i).frame.isSome = true) : m.InMemory q u := by
  obtain ⟨f, hf⟩ := Option.isSome_iff_exists.1 hf
  have hmapping : (m.process q).table.mapping? u = _ := h.sound.housed.mapping?_of_frame hi hf
  rw [InMemory, hmapping]
  rfl

/-- A page that is in memory has an entry in the frame table. -/
theorem Steady.inMemory_iff (h : m.Steady) {q : ProcId} {u : Nat} :
    m.InMemory q u ↔ ∃ e ∈ m.frames.entries, e.owner = q ∧ (m.page e.page).upage = u := by
  have hmapping : (m.process q).table.mapping? u = _ := h.sound.housed.mapping? q u
  have hlisted : ∀ e : Tenancy, e ∈ m.frames.entries ↔
      ∃ u, m.scene.own e.owner u = some e.page ∧ (m.scene.page e.page).frame = some e.frame :=
    fun e => Multiset.mem_coe.symm.trans (h.sound.housed.listed e.frame e.owner e.page)
  rw [InMemory, hmapping]
  constructor
  · intro hsome
    cases hi : m.scene.own q u with
    | none => simp [hi] at hsome
    | some i =>
      cases hf : (m.scene.page i).frame with
      | none => simp [hi, hf] at hsome
      | some f => exact ⟨⟨f, q, i⟩, (hlisted _).2 ⟨u, hi, hf⟩, rfl, h.sound.owned.upage hi⟩
  · rintro ⟨e, he, rfl, rfl⟩
    obtain ⟨u, hi, hf⟩ := (hlisted e).1 he
    have hu : (m.page e.page).upage = u := h.sound.owned.upage hi
    rw [hu, hi, Option.bind_some, hf]
    rfl

/-- An access of process `p` has got through `k` bytes and met a fault behind them. -/
structure Tries (m m' : Machine φ) (p : ProcId) (w : Bool) (a len k : Nat) (fault : PageTable.Fault) :
    Prop where
  lt : k < len
  addr : fault.addr = a + k
  write : fault.write = w
  mapped : ∀ i < k, m.InMemory p (pageBase (a + i))
  missing : ∀ r f, (m.process p).table.mapping? (pageBase (a + k)) = some (r, f) →
    w = true ∧ r.writable = false
  accessed : ∀ q u, (m'.process q).table.isAccessed u = true ↔
    (m.process q).table.isAccessed u = true ∨ q = p ∧ u ∈ touchedPages a k
  mapping? : ∀ q u, (m'.process q).table.mapping? u = (m.process q).table.mapping? u
  declared : ∀ q, (m'.process q).declared = (m.process q).declared
  limit : ∀ q, (m'.process q).table.limit = (m.process q).table.limit
  frames : m'.frames = m.frames
  pages : m'.pages = m.pages
  files : m'.files = m.files

/-- How far a repeated access has come by `faults` faults: its first pages are in memory. Either each
of them has cost a fault at most, or the clock has gone around, and only they have been accessed since. -/
def Advanced (m : Machine φ) (p : ProcId) (a len faults : Nat) : Prop :=
  ∃ n ≤ len, (∀ u ∈ touchedPages a n, m.InMemory p u) ∧
    (faults ≤ (touchedPages a n).card ∨
      faults ≤ (touchedPages a len).card + (touchedPages a n).card ∧
        ∀ q u, (m.process q).table.isAccessed u = true → q = p ∧ u ∈ touchedPages a n)

variable [FileSystem φ]

/-- Process `p` may access `len` bytes from `a` on, and nothing keeps it from getting at them. -/
structure Serves (m : Machine φ) (p : ProcId) (esp : Nat) (w : Bool) (a len : Nat) : Prop where
  steady : m.Steady
  live : m.scene.exited p = false
  unlimited : (m.process p).table.limit = none
  plenty : m.plant.Open
  room : (touchedPages a len).card ≤ m.pool.total
  allows : ∀ i < len, m.Allows p esp w (a + i)
  complete : ∀ i < len, ∀ j r, m.lookup p (a + i) = some j → (m.page j).backing.region? = some r →
    Complete m.files r

/-- The page that the fault is at is not in memory. -/
theorem Serves.missing {fault : PageTable.Fault} (h : m.Serves p esp w a len)
    (ht : m.Tries m' p w a len k fault) : ¬ m.InMemory p (pageBase (a + k)) := by
  intro hin
  obtain ⟨⟨r, f⟩, hr⟩ := Option.isSome_iff_exists.1 hin
  obtain ⟨rfl, hno⟩ := ht.missing r f hr
  obtain ⟨i, hi, -, hrights⟩ := h.steady.sound.housed.mapping?_eq_some
    (show m.scene.mapping? p (pageBase (a + k)) = some (r, f) from hr)
  have hallows := h.allows k ht.lt
  rw [Allows, show m.lookup p (a + k) = some i from hi] at hallows
  rw [show r.writable = (m.page i).writable from congrArg PageTable.Rights.writable hrights,
    hallows rfl] at hno
  simp at hno

/-- All pages before the fault are in memory, and its page is not one of them. -/
theorem Serves.notMem {fault : PageTable.Fault} (h : m.Serves p esp w a len)
    (ht : m.Tries m' p w a len k fault) : pageBase (a + k) ∉ touchedPages a k := by
  intro hmem
  obtain ⟨i, hi, heq⟩ := mem_touchedPages.1 hmem
  exact h.missing ht (heq ▸ ht.mapped i hi)

theorem Serves.card_lt {fault : PageTable.Fault} (h : m.Serves p esp w a len)
    (ht : m.Tries m' p w a len k fault) : (touchedPages a k).card < (touchedPages a len).card := by
  have hsub := Finset.card_le_card (touchedPages_mono (a := a) (Nat.succ_le_of_lt ht.lt))
  rw [Nat.succ_eq_add_one, touchedPages_succ, Finset.card_insert_of_notMem (h.notMem ht)] at hsub
  exact hsub

/-- The fault lies behind the pages that are known to be in memory. -/
theorem Serves.le_of_inMemory {fault : PageTable.Fault} {n : Nat} (h : m.Serves p esp w a len)
    (ht : m.Tries m' p w a len k fault) (hn : ∀ u ∈ touchedPages a n, m.InMemory p u) : n ≤ k := by
  by_contra hlt
  exact h.missing ht (hn _ (mem_touchedPages.2 ⟨k, Nat.lt_of_not_le hlt, rfl⟩))

omit [FileSystem φ] in
/-- There have been no more than two faults for each page. -/
theorem Advanced.le (had : m.Advanced p a len faults) : faults ≤ 2 * (touchedPages a len).card := by
  obtain ⟨n, hn, -, hfaults⟩ := had
  have hle := Finset.card_le_card (touchedPages_mono (a := a) hn)
  rcases hfaults with hfaults | ⟨hfaults, -⟩ <;> omega

/-- If there is a further fault, there have been fewer. -/
theorem Advanced.lt {fault : PageTable.Fault} (had : m.Advanced p a len faults)
    (h : m.Serves p esp w a len) (ht : m.Tries m' p w a len k fault) :
    faults < 2 * (touchedPages a len).card := by
  obtain ⟨n, -, hin, hfaults⟩ := had
  have hle := Finset.card_le_card (touchedPages_mono (a := a) (h.le_of_inMemory ht hin))
  have hlt := h.card_lt ht
  rcases hfaults with hfaults | ⟨hfaults, -⟩ <;> omega

omit [FileSystem φ] in
/-- No two entries are for the same page of a process. -/
theorem Distinct.length_le (hm : m.Distinct) {s : Finset Nat}
    (h : ∀ e ∈ m.frames.entries, e.owner = p ∧ (m.page e.page).upage ∈ s) :
    m.frames.entries.length ≤ s.card := by
  have hnodup : (m.frames.entries.map fun e => (m.page e.page).upage).Nodup :=
    hm.nodup.map_on fun e he e' he' heq =>
      hm.eq_of_address e' he' e he ((h e he).1.trans (h e' he').1.symm) heq
  rw [← List.length_map fun e => (m.page e.page).upage, ← List.toFinset_card_of_nodup hnodup]
  refine Finset.card_le_card fun u hu => ?_
  obtain ⟨e, he, rfl⟩ := List.mem_map.1 (List.mem_toFinset.1 hu)
  exact (h e he).2

/-- After a fault that has been resolved the access has come further. -/
theorem Advanced.step {fault : PageTable.Fault} (had : m.Advanced p a len faults)
    (h : m.Serves p esp w a len) (ht : m.Tries m₁ p w a len k fault)
    (hserves : m₁.Serves p esp w a len) (hgives : m₁.GivesWay m₂) (h₂ : m₂.Steady) (hin₂ : m₂.InMemory p (pageBase (a + k))) :
    m₂.Advanced p a len (faults + 1) := by
  obtain ⟨n, hn, hin, hfaults⟩ := had
  have h₁ := hserves.steady
  have hdistinct := h₁.shows.distinct h₁.sound.owned h₁.sound.housed
  have hnk := h.le_of_inMemory ht hin
  have hsub := touchedPages_mono (a := a) hnk
  have hle := Finset.card_le_card hsub
  have hcard : (touchedPages a (k + 1)).card = (touchedPages a k).card + 1 := by
    rw [touchedPages_succ, Finset.card_insert_of_notMem (h.notMem ht)]
  have hlt := h.card_lt ht
  have hin₁ : ∀ u ∈ touchedPages a k, m₁.InMemory p u := by
    intro u hu
    obtain ⟨i, hi, rfl⟩ := mem_touchedPages.1 hu
    rw [InMemory, ht.mapping?]
    exact ht.mapped i hi
  -- what the first `k` bytes need is still in memory, unless a page of it has given way
  have hgoes : (∀ u ∈ touchedPages a k, m₂.InMemory p u) → m₂.Advanced p a len (faults + 1) := by
    intro hstay
    refine ⟨k + 1, ht.lt, fun u hu => ?_, hfaults.imp (fun hfaults => by omega) ?_⟩
    · rw [touchedPages_succ, Finset.mem_insert] at hu
      rcases hu with rfl | hu
      · exact hin₂
      · exact hstay u hu
    · rintro ⟨hfaults, hbusy⟩
      refine ⟨by omega, fun q u hu => ?_⟩
      rw [touchedPages_succ, Finset.mem_insert]
      rcases (ht.accessed q u).1 (hgives.fades.accessed q u hu) with hu | ⟨rfl, hu⟩
      · exact ⟨(hbusy q u hu).1, .inr (hsub (hbusy q u hu).2)⟩
      · exact ⟨rfl, .inr hu⟩
  have hkeep : ∀ {e : Tenancy}, e ∈ m₁.frames.entries → e ∈ m₂.frames.entries →
      m₂.InMemory e.owner (m₁.page e.page).upage := by
    intro e he he₂
    rw [h₂.inMemory_iff]
    exact ⟨e, he₂, rfl, hgives.fades.upage _ (hdistinct.lt e he)⟩
  rcases hgives.stays with hall | ⟨e, he, hfull, hpicks, hothers⟩
  · refine hgoes fun u hu => ?_
    obtain ⟨e, he, rfl, rfl⟩ := h₁.inMemory_iff.1 (hin₁ u hu)
    exact hkeep he (hall e he)
  rcases hpicks.choice with hidle | hall
  · refine hgoes fun u hu => ?_
    obtain ⟨e', he', howner, rfl⟩ := h₁.inMemory_iff.1 (hin₁ u hu)
    -- it has just been accessed
    have hbusy : ¬ m₁.Idle e' := by
      rw [Idle, howner, Bool.not_eq_false]
      exact (ht.accessed p _).2 (.inr ⟨rfl, hu⟩)
    exact howner ▸ hkeep he' (hothers e' he' fun heq => hbusy (heq ▸ hidle))
  -- the clock has gone around
  rcases hfaults with hfaults | ⟨-, hbusy⟩
  · refine ⟨0, Nat.zero_le _, by simp [touchedPages], .inr ⟨by omega, fun q u hu => ?_⟩⟩
    obtain ⟨e', he', rfl, rfl⟩ := h₁.inMemory_iff.1
      (inMemory_of_isAccessed (hgives.fades.accessed q u hu))
    have hidle := (hall e' he').2
    rw [Idle, hgives.fades.upage _ (hdistinct.lt e' he'), hu] at hidle
    simp at hidle
  · -- then all that has been accessed would be pages of this access, which are too few
    have hlen := hdistinct.length_le (p := p) (s := touchedPages a k) fun e' he' => by
      have hbit := (hall e' he').1
      rw [Idle, Bool.not_eq_false, ht.accessed] at hbit
      exact hbit.elim (fun hu => ⟨(hbusy _ _ hu).1, hsub (hbusy _ _ hu).2⟩) id
    have hroom := hserves.room
    omega

/-- Nothing comes in the way of the access while it is repeated. -/
theorem Serves.congr (h : m.Serves p esp w a len) (hsteady : m'.Steady)
    (hplant : m'.plant = m.plant) (hlive : m'.scene.exited p = false)
    (hlimit : (m'.process p).table.limit = (m.process p).table.limit)
    (hcontinues : m.scene.Continues m'.scene) (hfiles : Traffic m.files m'.files) :
    m'.Serves p esp w a len := by
  have hown : ∀ i, m.lookup p (a + i) = m.scene.own p (pageBase (a + i)) := fun _ => rfl
  have hown' : ∀ i, m'.lookup p (a + i) = m'.scene.own p (pageBase (a + i)) := fun _ => rfl
  have hgrows : ∀ i, m.lookup p (a + i) = none → m'.scene.Grows p (pageBase (a + i)) := fun i hi =>
    hcontinues.grows fun j hj => by rw [← hown, hi] at hj; simp at hj
  refine ⟨hsteady, hlive, hlimit.trans h.unlimited, hplant ▸ h.plenty,
    h.room.trans_eq (congrArg Plant.total hplant).symm, fun i hi => ?_, fun i hi j r hj hr => ?_⟩
  · have hallows := h.allows i hi
    rw [Allows] at hallows ⊢
    cases hj : m.lookup p (a + i) with
    | some j =>
      rw [hj] at hallows
      rw [show m'.lookup p (a + i) = some j from hcontinues.own hj]
      have hwritable := (hcontinues.same (h.steady.sound.owned.lt hj)).writable
      exact fun hw => hwritable.trans (hallows hw)
    | none =>
      rw [hj] at hallows
      cases hj' : m'.lookup p (a + i) with
      | some j => exact fun _ => (hgrows i hj j hj').1
      | none => exact hallows
  · intro files' hfiles'
    cases hj' : m.lookup p (a + i) with
    | some j' =>
      obtain rfl : j' = j := Option.some.inj ((hcontinues.own hj').symm.trans hj)
      have hbacking : (m'.page j').backing = (m.page j').backing :=
        (hcontinues.same (h.steady.sound.owned.lt hj')).backing
      exact h.complete i hi j' r hj' (hbacking ▸ hr) files' (Relation.ReflTransGen.trans hfiles hfiles')
    | none =>
      have hbacking : (m'.page j).backing = .swap := (hgrows i hj' j hj).2
      rw [hbacking] at hr
      simp [Backing.region?] at hr

end Machine

namespace Kernel

open Machine View

variable {φ α : Type} {m m' : Machine φ} {p : ProcId} {esp a len : Nat} {w : Bool}

/-! ### One access -/

theorem tries_of_marks {t' : PageTable} {trouble : Option PageTable.Trouble} {k : Nat}
    (h : (m.process p).table.Marks w a len k trouble t') {fault : PageTable.Fault}
    (htrouble : trouble = some (.fault fault)) (hlive : m.scene.exited p = false)
    (hmapping : ∀ u, t'.mapping? u = (m.process p).table.mapping? u)
    (hprocess : ∀ q, m'.process q = if p = q ∧ q < m.processes.size then
      { m.process q with table := t' } else m.process q)
    (hframes : m'.frames = m.frames) (hpages : m'.pages = m.pages) (hfiles : m'.files = m.files) :
    m.Tries m' p w a len k fault := by
  have hlt : p < m.processes.size := lt_of_live hlive
  obtain ⟨hk, haddr, hwrite, hmissing⟩ := h.fault fault htrouble
  refine ⟨hk, haddr, hwrite, h.mapped, hmissing, fun q u => ?_, fun q u => ?_, fun q => ?_, fun q => ?_,
    hframes, hpages, hfiles⟩
  all_goals
    rw [hprocess]
    split
  · rename_i hq
    obtain ⟨rfl, -⟩ := hq
    rw [mem_touchedPages]
    simpa using h.accessed u
  · rename_i hq
    refine ⟨.inl, fun hu => hu.resolve_right ?_⟩
    rintro ⟨rfl, -⟩
    exact hq ⟨rfl, hlt⟩
  · rename_i hq
    obtain ⟨rfl, -⟩ := hq
    exact hmapping u
  · rfl
  · rfl
  · rfl
  · rename_i hq
    obtain ⟨rfl, -⟩ := hq
    exact h.limit
  · rfl

theorem tries_load (hlive : m.scene.exited p = false) (a len : Nat) :
    Ends (load p a len) m (fun r m' => ∀ fault, r.2 = some fault →
      ∃ k, m.Tries m' p false a len k fault) fun _ _ => True := by
  obtain ⟨k, hk⟩ := PageTable.exists_load_marks m.pool len (m.process p).table a
  have hkeeps := PageTable.load_keeps m.pool len (m.process p).table a
  simp only [load, ends_bind, ends_get, ends_modifyTable]
  generalize (m.process p).table.load m.pool a len = res at hk hkeeps ⊢
  have hprocess := fun q => process_withProcess m p q fun proc => { proc with table := res.table }
  cases ht : res.trouble with
  | none => exact fun fault hfault => absurd hfault (by simp)
  | some e =>
    cases e with
    | misuse e => trivial
    | fault f =>
      rintro fault hfault
      obtain rfl := Option.some.inj hfault
      exact ⟨k, tries_of_marks hk ht hlive hkeeps.1 hprocess rfl rfl rfl⟩

theorem tries_store (hlive : m.scene.exited p = false) (a : Nat) (data : List UInt8) :
    Ends (store p a data) m (fun fault? m' => ∀ fault, fault? = some fault →
      ∃ k, m.Tries m' p true a data.length k fault) fun _ _ => True := by
  obtain ⟨k, hk⟩ := PageTable.exists_store_marks data (m.process p).table m.pool a
  have hkeeps := PageTable.store_keeps data (m.process p).table m.pool a
  simp only [store, ends_bind, ends_get, ends_modify, ends_modifyTable]
  generalize (m.process p).table.store m.pool a data = res at hk hkeeps ⊢
  have hprocess := fun q => process_afterStore m p q res
  cases ht : res.trouble with
  | none => exact fun fault hfault => absurd hfault (by simp)
  | some e =>
    cases e with
    | misuse e => trivial
    | fault f =>
      rintro fault hfault
      obtain rfl := Option.some.inj hfault
      exact ⟨k, tries_of_marks hk ht hlive hkeeps.mapping? hprocess rfl rfl rfl⟩

/-! ### Repeated accesses -/

variable [FileSystem φ] {op : Op}

theorem serves_of_tries {k : Nat} {fault : PageTable.Fault} (h : m.Serves p esp w a len)
    (ht : m.Tries m' p w a len k fault) (hparts : Parts op p m m') : m'.Serves p esp w a len := by
  obtain ⟨hsteady, hpath, hexited⟩ := hparts.steady h.steady
  have hown : m'.scene.own = m.scene.own := funext fun q => funext fun u => by
    show (m'.process q).declared[u]? = (m.process q).declared[u]?
    rw [ht.declared]
  have hpage : m'.scene.page = m.scene.page := funext fun i => by
    show (m'.page i).face = (m.page i).face
    rw [Machine.page, ht.pages]
    rfl
  refine h.congr hsteady hpath.plant (by rw [hexited, h.live]) (ht.limit p) ⟨fun hi => ?_, fun _ => ?_,
    fun hgrows i hi => ?_⟩ (ht.files ▸ .refl)
  · rwa [hown]
  · rw [hpage]
    exact .refl _
  · rw [hown] at hi
    rw [hpage]
    exact hgrows i hi

/-- The fault of an access that a process may make is resolved, and the access has come further. -/
theorem ends_handleFault_of_tries {m₁ : Machine φ} {k faults : Nat} {fault : PageTable.Fault}
    (hop : op.basic = false) (had : m.Advanced p a len faults) (h : m.Serves p esp w a len)
    (ht : m.Tries m₁ p w a len k fault) (h₁ : m₁.Serves p esp w a len) :
    Ends (handleFault p fault.addr esp fault.write) m₁ (fun result m₂ => result = .ok () ∧
      m₂.Serves p esp w a len ∧ m₂.Advanced p a len (faults + 1)) fun _ _ => True := by
  rw [ht.addr, ht.write]
  have hmissing : ¬ m₁.InMemory p (pageBase (a + k)) := by
    rw [InMemory, ht.mapping?]
    exact h.missing ht
  have haway : ∀ i, m₁.scene.own p (pageBase (a + k)) = some i → (m₁.scene.page i).frame = none := by
    intro i hi
    by_contra hsome
    exact hmissing (h₁.steady.inMemory_of_frame hi (Option.isSome_iff_ne_none.2 hsome))
  have hparts := (staged_handleFault (steady_iff.1 h₁.steady) h₁.live hop (a + k) esp w).splits h₁.steady h₁.live
  have hgives := gives_handleFault h₁.steady.shows h₁.steady.sound rfl h₁.plenty h₁.unlimited
    (h₁.allows k ht.lt) haway fun i r hi hr => h₁.complete k ht.lt i r hi hr
  have hhandles : Ends (handleFault p (a + k) esp w) m₁ _ (Stalls ∅ False m₁.scene) :=
    ends_handleFault h₁.steady.shows h₁.steady.sound rfl h₁.live (a + k) esp w
  refine (hparts.and (hhandles.and hgives)).imp ?_ fun _ _ _ => trivial
  rintro result m₂ ⟨⟨hparts, hresident⟩, ⟨v₂, hv₂, -, hhandles⟩, rfl, hgives⟩
  obtain ⟨hsteady, hpath, hexited⟩ := hparts.steady h₁.steady
  have hscene := hv₂.eq_scene hhandles.declared
  have hcontinues : m₁.scene.Continues m₂.scene := hscene ▸ hhandles.fetched.continues h₁.steady.sound
  refine ⟨rfl, h₁.congr hsteady hpath.plant (by rw [hexited, h₁.live]) (hgives.fades.limit p) hcontinues
    hgives.files, had.step h ht h₁ hgives hsteady ?_⟩
  obtain ⟨i, hi, hframe⟩ := hresident rfl
  exact hsteady.inMemory_of_frame hi hframe

/-- An access that a process may make goes through, however it is repeated. -/
theorem ends_retrying (op : Op) (hop : op.basic = false) {access : Kernel φ (Except PageTable.Fault α)}
    (haccess : ∀ {m : Machine φ}, m.Serves p esp w a len → Ends access m (fun result m' =>
      Parts op p m m' ∧ ∀ fault, result = .error fault → ∃ k, m.Tries m' p w a len k fault)
        fun _ _ => True) :
    ∀ (limit faults : Nat) {m : Machine φ}, m.Serves p esp w a len → m.Advanced p a len faults →
      2 * (touchedPages a len).card ≤ limit + faults →
      Ends (retrying p esp access limit faults) m (fun result _ => ∃ b n, result = .done b n ∧
        n ≤ 2 * (touchedPages a len).card) fun _ _ => True := by
  intro limit
  induction limit with
  | zero =>
    intro faults m h had hlimit
    rw [retrying, ends_bind]
    refine (haccess h).returns ?_
    rintro (fault | b) m₁ ⟨hparts, hfault⟩
    · obtain ⟨k, ht⟩ := hfault fault rfl
      have := had.lt h ht
      omega
    · exact ⟨b, faults, rfl, had.le⟩
  | succ limit ih =>
    intro faults m h had hlimit
    rw [retrying, ends_bind]
    refine (haccess h).returns ?_
    rintro (fault | b) m₁ ⟨hparts, hfault⟩
    · obtain ⟨k, ht⟩ := hfault fault rfl
      rw [ends_bind]
      refine (ends_handleFault_of_tries hop had h ht (serves_of_tries h ht hparts)).returns ?_
      rintro result m₂ ⟨rfl, h₂, had₂⟩
      exact ih (faults + 1) h₂ had₂ (by omega)
    · exact ⟨b, faults, rfl, had.le⟩

theorem ends_loadRetrying {limit : Nat} (h : m.Serves p esp false a len)
    (hlimit : 2 * (touchedPages a len).card ≤ limit) :
    Ends (loadRetrying p a len esp limit) m (fun result _ => ∃ bytes n, result = .done bytes n ∧
      n ≤ 2 * (touchedPages a len).card) fun _ _ => True := by
  refine ends_retrying (.userLoad a len esp limit) rfl (fun {m} h => ?_) limit 0 h
    ⟨0, Nat.zero_le _, by simp [touchedPages], .inl (Nat.zero_le _)⟩ hlimit
  rw [ends_bind]
  refine (((staged_load (steady_iff.1 h.steady) ⟨esp, limit, rfl⟩).splits h.steady h.live).and (tries_load h.live a len)).imp ?_
    fun _ _ _ => trivial
  rintro ⟨bytes, fault⟩ m₁ ⟨⟨hparts, -⟩, htries⟩
  refine ⟨hparts, fun fault' hfault' => ?_⟩
  cases fault with
  | none => simp at hfault'
  | some fault =>
    obtain rfl := Except.error.inj hfault'
    exact htries fault rfl

theorem ends_storeRetrying {limit : Nat} {data : List UInt8} (h : m.Serves p esp true a data.length)
    (hlimit : 2 * (touchedPages a data.length).card ≤ limit) :
    Ends (storeRetrying p a data esp limit) m (fun result _ => ∃ b n, result = .done b n ∧
      n ≤ 2 * (touchedPages a data.length).card) fun _ _ => True := by
  refine ends_retrying (.userStore a data esp limit) rfl (fun {m} h => ?_) limit 0 h
    ⟨0, Nat.zero_le _, by simp [touchedPages], .inl (Nat.zero_le _)⟩ hlimit
  rw [ends_bind]
  refine (((staged_store ⟨esp, limit, rfl⟩).splits h.steady h.live).and (tries_store h.live a data)).imp ?_
    fun _ _ _ => trivial
  rintro fault m₁ ⟨⟨hparts, -⟩, htries⟩
  refine ⟨hparts, fun fault' hfault' => ?_⟩
  cases fault with
  | none => simp at hfault'
  | some fault =>
    obtain rfl := Except.error.inj hfault'
    exact htries fault rfl

end Kernel

/-- An operation that repeats an access to the `len` bytes from `a` on. -/
inductive Op.Repeats (a len esp limit : Nat) : (write : Bool) → Op → Prop
  | load : Repeats a len esp limit false (.userLoad a len esp limit)
  | store {data : List UInt8} (length : data.length = len) :
      Repeats a len esp limit true (.userStore a data esp limit)

open Machine Kernel

/-- An access that a process may make goes through if it is repeated after every fault, as long as its pages
are no more than there are frames. It meets at most two faults for each of them, which are all resolved, and
what it has read or written is in memory then. All that can stop it is that swap space is full. -/
theorem Reachable.goes_through {φ : Type} [FileSystem φ] {m : Machine φ} (h : Reachable m)
    (hm : m.Supplied) {p : ProcId} {a len esp limit : Nat} {write : Bool} {op : Op}
    (hop : op.Repeats a len esp limit write) (hlive : (m.process p).exited = false)
    (hunlimited : (m.process p).table.limit = none) (hpos : 0 < len)
    (hroom : (touchedPages a len).card ≤ m.pool.total)
    (hallows : ∀ i < len, m.Allows p esp write (a + i))
    (hcomplete : ∀ i < len, ∀ j r, m.lookup p (a + i) = some j →
      (m.page j).backing.region? = some r → Complete m.files r)
    (hlimit : 2 * (touchedPages a len).card ≤ limit) :
    Ends (Kernel.perform p op) m
      (fun answer m' => ∃ n ≤ 2 * (touchedPages a len).card, op.GoesThrough p m n m' answer)
      fun e m' => e = .halt (.swap (.full m.swap.slots)) ∧ m'.Evicting ∧ m'.SwapFull := by
  have hsteady := h.steady
  have hserves : m.Serves p esp write a len :=
    ⟨hsteady, hlive, hunlimited, ⟨hm.frames, hm.granted⟩, hroom, hallows, hcomplete⟩
  have hword : a < wordLimit := by
    have huser : isUser a = true := by
      have hallows := hallows 0 hpos
      rw [Allows, Nat.add_zero] at hallows
      cases hi : m.lookup p a with
      | some i => exact isUser_pageBase a ▸ hsteady.sound.owned.user hi
      | none =>
        rw [hi] at hallows
        exact hallows.1
    exact (isUser_iff.1 huser).2.trans (by decide)
  have hends : Ends (execute p op) m
      (fun answer m' => ∃ n ≤ 2 * (touchedPages a len).card, op.GoesThrough p m n m' answer)
      fun _ _ => True := by
    have hsettled := steady_iff.1 hsteady
    cases hop with
    | load =>
      rw [execute, ends_bind]
      refine (ends_loadRetrying hserves hlimit).run.returns ?_
      rintro result m' ⟨hrun, bytes, n, rfl, hn⟩
      exact ⟨n, hn, goesThrough_of_loadRetrying hsettled hlive hword hrun⟩
    | store hlength =>
      subst hlength
      rw [execute, ends_bind]
      refine (ends_storeRetrying hserves hlimit).run.returns ?_
      rintro result m' ⟨hrun, _, n, rfl, hn⟩
      exact ⟨n, hn, goesThrough_of_storeRetrying hsettled hlive hword hrun⟩
  have hrun : Ends (Kernel.perform p op) m
      (fun answer m' => ∃ n ≤ 2 * (touchedPages a len).card, op.GoesThrough p m n m' answer)
      fun _ _ => True := by
    rw [Ends, perform_eq_execute hsteady hlive]
    exact hends
  refine (hrun.and (h.returns_or_swapFull hm p op ?_)).imp (fun _ _ hq => hq.1) fun _ _ he => he.2
  cases hop <;> exact hword

/-! ### Files in memory -/

/-- Reads of what lies within a file in memory are complete. -/
theorem MemoryFiles.complete {s : MemoryFiles} {r : Region}
    (h : r.offset + r.readLen ≤ (s.contents r.file).length) : Complete s r := by
  intro s' htraffic
  have hlen : (s'.contents r.file).length = (s.contents r.file).length := by
    induction htraffic with
    | refl => rfl
    | tail _ hstep ih =>
      rcases hstep with ⟨file, offset, want, rfl⟩ | ⟨file, offset, data, rfl⟩
      · rw [MemoryFiles.consulted_eq (.read file offset want), ih]
      · rw [MemoryFiles.length_writeAt, ih]
  rw [← hlen, contents] at h
  simp only [FileSystem.readAt]
  cases hf : s'.files[r.file]? with
  | none =>
    rw [hf] at h
    exact (Nat.le_zero.1 ((Nat.le_add_left _ _).trans h)).symm
  | some f =>
    rw [hf] at h
    have hin : r.offset + r.readLen ≤ f.data.length := h
    simp only [MemoryFile.read, List.length_take, List.length_drop]
    omega

/-- With two frames, both of another process, a write to the last bytes of a mapped file and on to the
stack goes through. -/
theorem goes_through_of_mapped : ∃ m : Machine MemoryFiles, Reachable m ∧ m.Supplied ∧
    (m.lookup 0 0x7fffeffe).isSome = true ∧ m.lookup 0 0x7ffff000 = none ∧ m.residentPages 0 = [] ∧
    Ends (Kernel.perform 0 (.userStore 0x7fffeffe [1, 2, 3, 4] 0x7ffff000 4)) m
      (fun answer m' => ∃ n ≤ 4,
        (Op.userStore 0x7fffeffe [1, 2, 3, 4] 0x7ffff000 4).GoesThrough 0 m n m' answer)
      fun e m' => e = .halt (.swap (.full m.swap.slots)) ∧ m'.Evicting ∧ m'.SwapFull := by
  obtain ⟨m, hm, hopen, hP⟩ := exists_reachable 2 2 (⟨#[⟨[1, 2, 3], none, none⟩]⟩ : MemoryFiles)
    [(0, .mmap 0 0x7fffe000), (1, .growStack 0x7ffff000), (1, .growStack 0x7fffe000)]
    (fun m => m.pool.total == 2 && m.pool.firstPfn == 0 &&
      (m.devices.device? m.swap.device).all (fun d => d.size ≤ d.disk.sectors.size) &&
      !(m.process 0).exited && (m.process 0).table.limit.isNone && (m.lookup 0 0x7fffeffe).isSome &&
      (m.lookup 0 0x7ffff000).isNone && (m.residentPages 0).isEmpty &&
      (List.range 4).all fun i => decide (m.Allows 0 0x7ffff000 true (0x7fffeffe + i)) &&
        (m.lookup 0 (0x7fffeffe + i)).all fun j => (m.page j).backing.region?.all fun r =>
          decide (r.offset + r.readLen ≤ (m.files.contents r.file).length)) (by decide +kernel)
  simp only [Bool.and_eq_true, beq_iff_eq, Bool.not_eq_true', Option.isNone_iff_eq_none,
    List.isEmpty_iff, List.all_eq_true, List.mem_range, decide_eq_true_eq, Option.all_eq_true] at hP
  obtain ⟨⟨⟨⟨⟨⟨⟨⟨htotal, hfirst⟩, hsectors⟩, hlive⟩, hlimit⟩, hmapped⟩, hstack⟩, haway⟩, hbytes⟩ := hP
  have hpfn : m.pool.firstPfn + m.pool.total ≤ PageTable.Entry.pfnLimit := by
    rw [hfirst, htotal]
    decide
  have hm' : m.Supplied := ⟨by omega, hopen, hpfn, hsectors⟩
  refine ⟨m, hm, hm', hmapped, hstack, haway, ?_⟩
  exact hm.goes_through hm' (.store rfl) hlive hlimit (by decide) (htotal ▸ by decide)
    (fun i hi => (hbytes i hi).1) (fun i hi j r hj hr => MemoryFiles.complete ((hbytes i hi).2 j hj r hr))
    (by decide)

end DemandPaging
