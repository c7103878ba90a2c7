import DemandPaging.Proofs.Asks
import DemandPaging.Proofs.GivesBack

/-!
# The end of a process

A process that exits gives back all that it has, wherever its pages are: their frames, their entries in
the frame table and their slots. Its mappings are released on the way, each with the writes that its
pages owe. All that other processes have stays as it was, accessed bits and the order of the frame table
included. So when all processes have exited, nothing is lent and no slot is used.
-/

namespace DemandPaging

namespace Machine

variable {φ : Type}

/-- No process but `p` has changed, and no entry of the frame table is new or has moved past another. -/
structure Concerns (p : ProcId) (m m' : Machine φ) : Prop where
  process : ∀ q, q ≠ p → m'.process q = m.process q
  entries : m'.frames.entries.Sublist m.frames.entries

theorem concerns_of_eq {p : ProcId} {m m' : Machine φ} (hprocesses : m'.processes = m.processes)
    (hframes : m'.frames = m.frames) : m.Concerns p m' :=
  ⟨fun q _ => by rw [Machine.process, hprocesses, Machine.process], by rw [hframes]⟩

instance (p : ProcId) : Std.Refl (Concerns (φ := φ) p) := ⟨fun _ => concerns_of_eq rfl rfl⟩

instance (p : ProcId) : IsTrans (Machine φ) (Concerns p) where
  trans _ _ _ h h' := ⟨fun q hq => (h'.process q hq).trans (h.process q hq), h'.entries.trans h.entries⟩

instance (p : ProcId) : Kernel.Bears (Concerns (φ := φ) p) where
  report _ _ := concerns_of_eq rfl rfl
  page _ _ _ _ := concerns_of_eq rfl rfl
  memory _ _ := concerns_of_eq rfl rfl
  slots _ _ := concerns_of_eq rfl rfl
  devices _ _ := concerns_of_eq rfl rfl

theorem concerns_withProcess (m : Machine φ) (p : ProcId) (f : Process → Process) :
    m.Concerns p (m.withProcess p f) :=
  ⟨fun q hq => by rw [process_withProcess, if_neg fun h => hq h.1.symm], .refl _⟩

instance (p : ProcId) : Kernel.Frees (Concerns (φ := φ) p) where
  entries _ i := ⟨fun _ _ => rfl, List.eraseIdx_sublist _ i⟩

instance (p : ProcId) (us : Set Nat) : Kernel.Recedes p us (Concerns (φ := φ) p) where
  unmap m _ _ := concerns_withProcess m p _
  process m _ _ := concerns_withProcess m p _

/-- Process `p` has exited and has given back everything: it has no page, no mapping and nothing in its
page table. Its pages have left the frame table, their frames are free and their slots unused. Nothing
else has changed. -/
structure GivesAll (m m' : Machine φ) (p : ProcId) : Prop where
  exited : (m'.process p).exited = true
  declared : ∀ u, m'.declaredAt p u = none
  mapped : (m'.process p).table.mapped = 0
  mappings : (m'.process p).mappings.live = ∅
  /-- The entries that are left are in the order in which they were. -/
  entries : m'.frames.entries = m.frames.entries.filter fun e => e.owner ≠ p
  /-- The entries that are gone are those of the pages that were in memory. -/
  residents : ∀ f i, ⟨f, p, i⟩ ∈ m.frames.entries ↔
    ∃ u, m.declaredAt p u = some i ∧ (m.page i).frame = some f
  freed : ∀ u i f, m.declaredAt p u = some i → (m.page i).frame = some f →
    m'.pool.contents? f.cell = none
  lent : ∀ c, (∀ u i f, m.declaredAt p u = some i → (m.page i).frame = some f → f.cell ≠ c) →
    m'.pool.contents? c = m.pool.contents? c
  released : ∀ u i s, m.declaredAt p u = some i → (m.page i).slot = some s →
    m'.swap.contents? m'.devices s = none
  slot : ∀ s, (∀ u i, m.declaredAt p u = some i → (m.page i).slot ≠ some s) →
    m'.swap.contents? m'.devices s = m.swap.contents? m.devices s
  process : ∀ q, q ≠ p → m'.process q = m.process q
  page : ∀ q, q ≠ p → ∀ u i, m.declaredAt q u = some i → m'.page i = m.page i

/-- The calls that the release of a mapping of process `p` makes: what its pages owe is written, in
ascending order, and then its handle is closed. -/
def settling (m : Machine φ) (p : ProcId) (mp : Mapping) : List FileCall :=
  (mp.pages.toList.filterMap fun u => m.owes (p, u)) ++ [.close mp.file]

variable [FileSystem φ] {m m' : Machine φ} {p : ProcId}

theorem GivesAll.of_ceases (hm : m.Steady) (hm' : m'.Steady) (h : m.scene.Ceases p m'.scene)
    (hconcerns : m.Concerns p m') : m.GivesAll m' p := by
  have hv := hm.sound
  have hv' := hm'.sound
  obtain ⟨us, hloses⟩ := h.loses
  -- whatever the process had is among what it has lost
  have hlost : ∀ {u i}, m.scene.own p u = some i → u ∈ us := by
    intro u i hi
    by_contra hu
    have hgone := h.gone u
    rw [hloses.own, if_neg fun hc => hu hc.2, hi] at hgone
    simp at hgone
  have hlisted : ∀ f q i, (⟨f, q, i⟩ : Tenancy) ∈ m.frames.entries ↔
      ∃ u, m.declaredAt q u = some i ∧ (m.page i).frame = some f := fun f q i => by
    rw [← Multiset.mem_coe, ← hm.shows.tenants]
    exact hv.housed.listed f q i
  have hentries : ∀ e, e ∈ m'.frames.entries ↔ e ∈ m.frames.entries.filter fun e => e.owner ≠ p := by
    intro e
    have hmem := hloses.mem_tenants hv hv' e
    rw [hm'.shows.tenants, hm.shows.tenants, Multiset.mem_coe, Multiset.mem_coe] at hmem
    rw [hmem, List.mem_filter, decide_eq_true_iff]
    refine and_congr_right fun he => not_congr ⟨And.left, ?_⟩
    rintro rfl
    obtain ⟨u, hu, -⟩ := (hlisted e.frame e.owner e.page).1 he
    exact ⟨rfl, u, hlost hu, hu⟩
  have hnodup : m.frames.entries.Nodup := by
    have hnodup := hv.housed.nodup
    rwa [hm.shows.tenants, Multiset.coe_nodup] at hnodup
  refine ⟨h.exited, h.gone, ?_, h.unmapped, ?_, fun f i => hlisted f p i, fun u i f hi hf => ?_,
    fun c hc => ?_, fun u i s hi hs => ?_, fun s hs => ?_, hconcerns.process, fun q hq u i hi => ?_⟩
  · have hempty : (m'.process p).table.entries = ∅ := by
      refine Std.ExtTreeMap.ext_getElem? fun u => ?_
      have hnone : (m'.process p).table.mapping? u = none := by
        have hmapping := hv'.housed.mapping? p u
        rwa [h.gone, Option.bind_none] at hmapping
      rw [Option.map_eq_none_iff.1 hnone, Std.ExtTreeMap.getElem?_empty]
    rw [PageTable.mapped, hempty]
    rfl
  · -- both are parts of the table, in its order, with the same entries
    have hnodup' := hnodup.sublist hconcerns.entries
    exact (hnodup.perm_iff_eq_of_sublist hconcerns.entries List.filter_sublist).1
      ((List.perm_ext_iff_of_nodup hnodup' (hnodup.sublist List.filter_sublist)).2 hentries)
  · exact hloses.cell_of_lost hv hv' (hlost hi) hi hf
  · exact hloses.cell_of_kept hv hv' fun u _ i f hi hf => hc u i f hi hf
  · exact hloses.slot_of_lost hv hv' (hlost hi) hi hs
  · exact hloses.slot_of_kept hv hv' fun u _ i hi => hs u i hi
  · have hi' : m'.scene.own q u = some i := hloses.own_of_kept hi fun hc => hq hc.1
    exact Page.eq_of_face (hloses.page hi') ((hm'.unpinned i).trans (hm.unpinned i).symm)

omit [FileSystem φ] in
theorem Steady.settling {m : Machine (Journal φ)} (hm : m.Steady) {k : Nat} {mp : Mapping}
    (hk : (m.process p).mappings.live[k]? = some mp) : m.scene.settling p mp = m.settling p mp := by
  rw [View.settling, Machine.settling]
  congr 1
  refine List.filterMap_congr fun u hu => ?_
  obtain ⟨i, r, hi, hr⟩ := hm.charted.maps (p := p) hk u hu
  rw [hm.owes, View.due_eq_owes hi hr]

end Machine

open Machine Kernel

variable {φ : Type} [FileSystem φ]

/-- In every state of a run a live process can exit, whatever the files answer: it gives back all that it
has, its mappings are released one after the other, and nothing else happens. When all processes have
exited, no frame is lent and no slot is used. -/
theorem Reachable.exits {m : Machine (Journal φ)} (h : Reachable m) :
    (∀ p, (m.process p).exited = false →
      Ends (Kernel.perform p .exit) m (fun answer m' => answer = .done ∧ m.GivesAll m' p ∧
        m.Called ((m.process p).mappings.live.toList.flatMap fun x => m.settling p x.2) m')
        fun _ _ => False) ∧
    ((∀ p, (m.process p).exited = true) →
      m.frames.entries = [] ∧ m.pool.inUse = 0 ∧ m.swap.usedSlots = 0) := by
  have hm := h.steady
  refine ⟨fun p hlive => ?_, fun hexited => ?_⟩
  · have hlive' : m.scene.exited p = false := hlive
    rw [ends_perform_iff hm, if_neg (by simp [hlive'])]
    have hexit := ends_exit_of_steady (E := fun _ _ => False) hm hlive'
    simp only [execute, ends_bind, ends_pure, true_and] at hexit ⊢
    have hcalled := called_exit (p := p) hm.shows hm.sound rfl hm.charted
    have hconcerns := moves_exit (p := p) (R := Concerns p) (fun _ _ _ _ => concerns_of_eq rfl rfl)
      (fun _ _ => concerns_of_eq rfl rfl) m
    refine (hexit.and (hcalled.and hconcerns)).imp ?_ fun _ _ hstop => hstop.1
    rintro _ m' ⟨hdone, hcalled, hconcerns⟩
    obtain ⟨-, ⟨hno, -⟩ | ⟨-, hceases⟩⟩ := hdone.does
    · simp at hno
    refine ⟨.of_ceases hm hdone.steady hceases hconcerns, ?_⟩
    have hsettling : ((m.process p).mappings.live.toList.flatMap fun x => m.settling p x.2) =
        (m.scene.mappings p).live.toList.flatMap fun x => m.scene.settling p x.2 :=
      List.flatMap_congr fun x hx =>
        (hm.settling (Std.ExtTreeMap.mem_toList_iff_getElem?_eq_some.1 hx)).symm
    rw [hsettling]
    exact hcalled
  · -- a page belongs to a live process, so there is none
    have hnone : ∀ q u i, m.scene.own q u ≠ some i := fun q u i hi => by
      have hlive := hm.sound.owned.live hi
      rw [show m.scene.exited q = (m.process q).exited from rfl, hexited] at hlive
      simp at hlive
    have hentries : m.frames.entries = [] := by
      refine List.eq_nil_iff_forall_not_mem.2 fun e he => ?_
      rw [← Multiset.mem_coe, ← hm.shows.tenants] at he
      obtain ⟨u, hu, -⟩ := (hm.sound.housed.listed e.frame e.owner e.page).1 he
      exact hnone _ _ _ hu
    refine ⟨hentries, ?_, Bitmap.ones_eq_zero fun s => ?_⟩
    · have hinUse := hm.sound.housed.inUse
      rw [hm.shows.tenants, hentries] at hinUse
      exact hinUse
    · by_contra hs
      rw [Bool.not_eq_false] at hs
      obtain ⟨q, u, i, hi, -⟩ := (hm.sound.swapped.used s).1 (by
        rw [hm.shows.slot, Swap.contents?, if_pos hs]
        rfl)
      exact hnone q u i hi

/-- A process exits with a page in swap space and a mapped page that has been stored to. -/
theorem exits_of_stored : ∃ m : Machine (Journal MemoryFiles), Reachable m ∧
    (m.process 0).exited = false ∧ m.swappedPages 0 = [(0x7ffff000, 0)] ∧
    Ends (perform 0 .exit) m (fun answer m' => answer = .done ∧ m.GivesAll m' 0 ∧
      m.Called [.write 0 0 [1, 7, 3], .close 0] m') fun _ _ => False := by
  obtain ⟨m, hm, -, hP⟩ := exists_reachable 1 1
    (.start ⟨#[⟨[1, 2, 3], none, none⟩]⟩ : Journal MemoryFiles)
    [(0, .mmap 0 0x10000000), (0, .growStack 0x7ffff000), (0, .resolve 0x10000000),
      (0, .store 0x10000001 [7])]
    (fun m => !(m.process 0).exited && m.swappedPages 0 == [(0x7ffff000, 0)] &&
      ((m.process 0).mappings.live.toList.flatMap fun x => m.settling 0 x.2) ==
        [.write 0 0 [1, 7, 3], .close 0]) (by decide +kernel)
  simp only [Bool.and_eq_true, Bool.not_eq_true', beq_iff_eq] at hP
  obtain ⟨⟨hlive, hswapped⟩, hsettling⟩ := hP
  have hexits := hm.exits.1 0 hlive
  rw [hsettling] at hexits
  exact ⟨m, hm, hlive, hswapped, hexits⟩

end DemandPaging
