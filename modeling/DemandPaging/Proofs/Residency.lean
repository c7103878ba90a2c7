import DemandPaging.File.Memory
import DemandPaging.Proofs.Reachable

/-!
# Which pages are in memory

Five parts of a machine speak of the pages in memory: the pages themselves, the frame table, the page
tables, the pool and the pins. Between operations they say the same, whatever has been evicted,
rolled back or refused on the way.
-/

namespace DemandPaging

namespace Machine

variable {φ : Type}

/-- The page table of process `p` maps the page to `f`, for user programs, with the rights of the
page. -/
def MapsTo (m : Machine φ) (p : ProcId) (pg : Page) (f : Frame) : Prop :=
  ∃ e, (m.process p).table.entries[pg.upage]? = some (e, f) ∧ e.present = true ∧ e.user = true ∧
    e.writable = pg.writable ∧ e.pfn = f.pfn

/-- The parts of the machine agree on which pages are in memory. -/
structure Residency (m : Machine φ) : Prop where
  /-- Declared pages belong to live processes, and are where they are declared. -/
  live : ∀ p u i, m.declaredAt p u = some i → (m.process p).exited = false ∧ (m.page i).upage = u
  /-- A page is in a frame if its only entry has that frame and the page table maps it there. -/
  resident : ∀ p u i f, m.declaredAt p u = some i →
    ((m.page i).frame = some f ↔
      (m.frames.entries.filter fun e => e.page = i) = [⟨f, p, i⟩] ∧ m.MapsTo p (m.page i) f)
  /-- A page that is in no frame has no entry and is not mapped. -/
  absent : ∀ p u i, m.declaredAt p u = some i → (m.page i).frame = none →
    (m.frames.entries.filter fun e => e.page = i) = [] ∧ (m.process p).table.entries[u]? = none
  /-- Nothing else is mapped. -/
  mapped : ∀ p u e f, (m.process p).table.entries[u]? = some (e, f) →
    ∃ i, m.declaredAt p u = some i ∧ (m.page i).frame = some f
  /-- Nothing else is listed. -/
  listed : ∀ e ∈ m.frames.entries, ∃ u, m.declaredAt e.owner u = some e.page ∧
    (m.page e.page).frame = some e.frame
  /-- No two entries share a frame. -/
  apart : (m.frames.entries.map (·.frame)).Nodup
  /-- The lent frames of the pool are those of the entries. -/
  lent : ∀ c, m.pool.lent c = true ↔ m.pool.frameAt c ∈ m.frames.entries.map (·.frame)
  /-- So many frames are lent as there are entries. -/
  inUse : m.pool.inUse = m.frames.entries.length
  unpinned : ∀ i, (m.page i).pinned = false

theorem mapping?_scene {m : Machine φ} {p : ProcId} {u : Nat} {e : PageTable.Entry} {f : Frame}
    (h : (m.process p).table.entries[u]? = some (e, f)) :
    m.scene.mapping? p u = some (e.rights, f) := by
  show (m.process p).table.mapping? u = _
  rw [PageTable.mapping?, h, Option.map_some]

theorem mapsTo_iff {m : Machine φ} {p : ProcId} {pg : Page} {f : Frame} :
    m.MapsTo p pg f ↔ m.scene.mapping? p pg.upage = some (.forUser f pg.writable, f) := by
  show _ ↔ (m.process p).table.mapping? pg.upage = _
  rw [PageTable.mapping?, Option.map_eq_some_iff]
  constructor
  · rintro ⟨e, he, hpresent, huser, hwritable, hpfn⟩
    exact ⟨(e, f), he, by
      simp only [PageTable.Entry.rights, PageTable.Rights.forUser, hpresent, huser, hwritable, hpfn]⟩
  · rintro ⟨⟨e, g⟩, he, heq⟩
    simp only [PageTable.Entry.rights, PageTable.Rights.forUser, Prod.mk.injEq,
      PageTable.Rights.mk.injEq] at heq
    obtain ⟨⟨hpresent, huser, hwritable, hpfn⟩, rfl⟩ := heq
    exact ⟨e, he, hpresent, huser, hwritable, hpfn⟩

/-- The entries for a page are the one with its frame and owner, or none. -/
theorem Steady.entries_of_page {m : Machine φ} (h : m.Steady) {p : ProcId} {u : Nat} {i : PageId}
    (hi : m.declaredAt p u = some i) :
    (m.frames.entries.filter fun e => e.page = i) =
      match (m.page i).frame with
      | some f => [⟨f, p, i⟩]
      | none => [] := by
  have hhoused := h.sound.housed
  have hmem : ∀ e ∈ m.frames.entries, e.page = i → (m.page i).frame = some e.frame ∧ e.owner = p := by
    rintro ⟨f, q, j⟩ he rfl
    obtain ⟨w, hj, hf⟩ := (hhoused.listed f q j).1 (Multiset.mem_coe.2 he)
    exact ⟨hf, h.sound.owned.owner hj hi⟩
  cases hf : (m.page i).frame with
  | none =>
    refine List.filter_eq_nil_iff.2 ?_
    intro e he hpage
    have hsome := (hmem e he (by simpa using hpage)).1
    simp [hf] at hsome
  | some f =>
    have hnodup : (m.frames.entries.filter fun e => e.page = i).Nodup :=
      (Multiset.coe_nodup.1 hhoused.nodup).filter _
    have hin : (⟨f, p, i⟩ : Tenancy) ∈ m.frames.entries.filter fun e => e.page = i :=
      List.mem_filter.2 ⟨Multiset.mem_coe.1 (hhoused.mem_tenants hi hf), by simp⟩
    refine List.perm_singleton.1 ((List.perm_ext_iff_of_nodup hnodup (List.nodup_singleton _)).2 ?_)
    intro e
    rw [List.mem_singleton]
    refine ⟨fun he => ?_, fun he => he ▸ hin⟩
    obtain ⟨he, hpage⟩ := List.mem_filter.1 he
    have hpage : e.page = i := by simpa using hpage
    obtain ⟨hframe, howner⟩ := hmem e he hpage
    rw [hf, Option.some.injEq] at hframe
    cases e
    simp_all

end Machine

open Machine

variable {φ : Type} [FileSystem φ] {m : Machine φ}

/-- Between operations, all parts of a machine agree on which pages are in memory. -/
theorem Reachable.residency (h : Reachable m) : m.Residency := by
  have hm := h.steady
  have hhoused := hm.sound.housed
  have hupage : ∀ {p u i}, m.declaredAt p u = some i → (m.page i).upage = u := fun hi =>
    hm.sound.owned.upage hi
  have hframeAt : ∀ e ∈ m.frames.entries, e.frame = m.pool.frameAt e.frame.cell := by
    rintro ⟨⟨pfn, c⟩, q, j⟩ he
    have hpfn := hhoused.pfn _ (Multiset.mem_coe.2 he)
    simp only at hpfn
    rw [hpfn]
    rfl
  refine ⟨fun p u i hi => ⟨hm.sound.owned.live hi, hupage hi⟩, fun p u i f hi => ?_,
    fun p u i hi hf => ?_, fun p u e f he => ?_, ?_, ?_, fun c => ?_, ?_, hm.unpinned⟩
  · rw [hm.entries_of_page hi, mapsTo_iff, hupage hi]
    constructor
    · intro hf
      refine ⟨by rw [hf], ?_⟩
      exact hhoused.mapping?_of_frame hi hf
    · rintro ⟨hentries, -⟩
      cases hf : (m.page i).frame with
      | none => simp [hf] at hentries
      | some g =>
        rw [hf] at hentries
        simpa using hentries
  · refine ⟨by rw [hm.entries_of_page hi, hf], ?_⟩
    have hnone : m.scene.mapping? p u = none := by
      rw [hhoused.mapping?, show m.scene.own p u = some i from hi, Option.bind_some,
        show (m.scene.page i).frame = none from hf, Option.map_none]
    exact Option.map_eq_none_iff.1 hnone
  · obtain ⟨i, hi, hf, -⟩ := hhoused.mapping?_eq_some (mapping?_scene he)
    exact ⟨i, hi, hf⟩
  · rintro ⟨f, q, j⟩ he
    exact (hhoused.listed f q j).1 (Multiset.mem_coe.2 he)
  · have honce : (m.frames.entries.map fun e => e.frame.cell).Nodup := Multiset.coe_nodup.1 hhoused.once
    rw [show (fun e : Tenancy => e.frame.cell) = (·.cell) ∘ (·.frame) from rfl, ← List.map_map] at honce
    exact honce.of_map
  · have hlent := hhoused.lent c
    rw [show (m.scene.cell c).isSome = m.pool.lent c by
      show (m.pool.contents? c).isSome = _
      rw [Pool.contents?]
      split <;> simp_all] at hlent
    rw [hlent, List.mem_map]
    refine exists_congr fun e => and_congr_right fun he => ?_
    have hframe := hframeAt e (Multiset.mem_coe.1 he)
    constructor
    · rintro rfl
      exact hframe
    · intro heq
      rw [heq]
      rfl
  · have hcount := hhoused.inUse
    rw [show m.scene.tenants.card = m.frames.entries.length from Multiset.coe_card _] at hcount
    exact hcount

/-- Two pages of the stack compete for one frame. -/
theorem residency_of_evicted :
    ∃ m : Machine MemoryFiles, Reachable m ∧ m.frames.entries.length = 1 ∧ m.pages.next = 2 ∧
      m.Residency := by
  obtain ⟨m, hm, -, hP⟩ := exists_reachable 1 1 (⟨#[]⟩ : MemoryFiles)
    [(0, .growStack 0x7ffff000), (0, .growStack 0x7fffe000)]
    (fun m => m.frames.entries.length == 1 && m.pages.next == 2) (by decide +kernel)
  obtain ⟨hlen, hnext⟩ := Bool.and_eq_true_iff.1 hP
  exact ⟨m, hm, beq_iff_eq.1 hlen, beq_iff_eq.1 hnext, hm.residency⟩

end DemandPaging
