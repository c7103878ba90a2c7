import DemandPaging.File.Memory
import DemandPaging.Proofs.Arrival

/-!
# Pages that cannot be brought in

A page that cannot be brought in loses nothing: it is where it was, a slot that it has holds what it held,
and the frame that was taken for it is free again. If the pool had a free frame to begin with, the machine
is what it was; otherwise one other page has been evicted, and that is all.
-/

namespace DemandPaging

/-- An eviction takes nothing from a slot, and adds no entry anywhere. -/
theorem Effect.recedes {φ : Type} [FileSystem φ] {v v' : View φ} {j : PageId} (h : Effect (.evict j) v v') :
    (∀ s b, v.slot s = some b → v'.slot s = some b) ∧
    (∀ q x r, v'.mapping? q x = some r → v.mapping? q x = some r) ∧ ∀ e ∈ v'.tenants, e ∈ v.tenants := by
  have hmapping : ∀ {p u r q x}, setAt v.mapping? p u none q x = some r → v.mapping? q x = some r := by
    intro p u r q x hr
    rw [setAt_apply] at hr
    split at hr
    · simp at hr
    · exact hr
  cases h with
  | swapOut own frame holds disposal lt free =>
    refine ⟨fun s b hs => ?_, fun q x r => hmapping, fun e => Multiset.mem_of_mem_erase⟩
    refine (Function.update_of_ne ?_ _ _).trans hs
    rintro rfl
    simp [free] at hs
  | writeOut => exact ⟨fun _ _ hs => hs, fun q x r => hmapping, fun e => Multiset.mem_of_mem_erase⟩
  | drop => exact ⟨fun _ _ hs => hs, fun q x r => hmapping, fun e => Multiset.mem_of_mem_erase⟩

namespace Machine

variable {φ : Type} [FileSystem φ] {m m' n : Machine φ} {v : View φ} {held : Set PageId} {f : Frame}
  {p : ProcId} {i : PageId} {u : Nat}

/-- What is left of machine `m` once page `i` of process `p` could not be brought in at `u`. -/
structure Survives (m : Machine φ) (p : ProcId) (u : Nat) (i : PageId) (m' : Machine φ) : Prop where
  /-- The page is as it was: not in memory, not pinned, and with the slot and the flag that it had. -/
  page : m'.page i = m.page i ∧ (m.page i).frame = none ∧ (m.page i).pinned = false
  /-- A slot that it has is used, and holds what it held. -/
  slot : ∀ s, (m.page i).slot = some s → ∃ b, m.swap.contents? m.devices s = some b ∧
    m'.swap.contents? m'.devices s = some b
  declared : m'.declaredAt = m.declaredAt
  /-- No entry of the frame table and no mapping has been added. -/
  entries : (∀ e ∈ m'.frames.entries, e ∈ m.frames.entries ∧ e.page ≠ i) ∧
    (m'.process p).table.mapping? u = none ∧
    ∀ q x r, (m'.process q).table.mapping? x = some r → (m.process q).table.mapping? x = some r
  /-- The frame that was taken is free, and everything else is as it was after at most one eviction; the
  file of the page has been read at most. -/
  restored : ∃ n f, m.Readies n ∧ n.Restores f m' ∧ m'.pool.lent f.cell = false ∧ m'.files = n.consulted i
  /-- If the pool had a frame to give, nothing has been evicted. -/
  spared : m.allocator.refuses m.allocator.requests = false →
    (∃ c < m.pool.total, m.pool.lent c = false) → ∃ f, m.Restores f m' ∧ m'.files = m.consulted i
  /-- If it had none, one page has been evicted, which is another one. -/
  evicted : (∀ c < m.pool.total, m.pool.lent c = true) → ∃ e ∈ m.frames.entries, e.page ≠ i ∧
    ∃ n f, Effect (.evict e.page) m.scene n.scene ∧ m.Ousts e n.frames n ∧ n.Restores f m' ∧
      m'.files = n.consulted i

theorem Readies.recedes (h : m.Readies n) :
    (∀ s b, m.scene.slot s = some b → n.scene.slot s = some b) ∧
    (∀ q x r, n.scene.mapping? q x = some r → m.scene.mapping? q x = some r) ∧
    ∀ e ∈ n.scene.tenants, e ∈ m.scene.tenants := by
  cases h with
  | ready => exact ⟨fun _ _ hs => hs, fun _ _ _ hr => hr, fun _ he => he⟩
  | evicted _ _ effect => exact effect.recedes

theorem survives_of_restores (h : m.Shows v held) (hv : v.Sound) (hdeclared : v.declared = v.own)
    (haway : (m.page i).frame = none) (hfree : (m.page i).pinned = false)
    (hslot : ∀ s, (m.page i).slot = some s → (v.slot s).isSome = true) (hunmapped : v.mapping? p u = none)
    (hready : m.Readies n) (hrestores : n.Restores f m') (hfiles : m'.files = n.consulted i) :
    m.Survives p u i m' := by
  obtain rfl : v = m.scene := h.eq_scene hdeclared
  have hspares := hready.spares
  have hpage : n.page i = m.page i := hready.page haway
  obtain ⟨hslots, hmapping, htenants⟩ := hready.recedes
  have hprocess : ∀ q, m'.process q = n.process q := fun q => by
    rw [Machine.process, hrestores.processes, Machine.process]
  have hmapping' : ∀ q x r, (m'.process q).table.mapping? x = some r →
      (m.process q).table.mapping? x = some r := fun q x r hr => hmapping q x r (by rwa [hprocess] at hr)
  have haway' : ∀ e ∈ m.frames.entries, e.page ≠ i := by
    rintro e he rfl
    obtain ⟨x, -, hframe⟩ := (hv.housed.listed e.frame e.owner e.page).1 (Multiset.mem_coe.2 he)
    exact absurd (haway.symm.trans hframe) (by simp)
  refine ⟨⟨?_, haway, hfree⟩, fun s hs => ?_, ?_, ⟨fun e he => ?_, ?_, hmapping'⟩,
    ⟨n, f, hready, hrestores, hrestores.free, hfiles⟩, fun hopen hgives => ?_, fun hfull => ?_⟩
  · rw [Machine.page, hrestores.pages, ← hpage, Machine.page]
  · obtain ⟨b, hb⟩ := Option.isSome_iff_exists.1 (hslot s hs)
    refine ⟨b, hb, ?_⟩
    rw [hrestores.swap, hrestores.devices]
    exact hslots s b hb
  · funext q x
    refine (congrArg (·.declared[x]?) (hprocess q)).trans ?_
    exact congrFun (congrFun hspares.declared q) x
  · rw [hrestores.frames] at he
    have hmem : e ∈ m.frames.entries := Multiset.mem_coe.1 (htenants e (Multiset.mem_coe.2 he))
    exact ⟨hmem, haway' e hmem⟩
  · cases hmapped : (m'.process p).table.mapping? u with
    | none => rfl
    | some r =>
      have hr : m.scene.mapping? p u = some r := hmapping' p u r hmapped
      rw [hunmapped] at hr
      simp at hr
  · cases hready with
    | ready => exact ⟨f, hrestores, hfiles⟩
    | @evicted zeroed x _ _ refusal =>
      obtain ⟨c, hc, hcell⟩ := hgives
      obtain ⟨g, hg⟩ := Kernel.exists_alloc hopen hc hcell zeroed
      rw [refusal] at hg
      simp at hg
  · cases hready with
    | ready =>
      have hlent := hfull f.cell hrestores.cell_lt
      rw [← hrestores.lent, hrestores.free] at hlent
      simp at hlent
    | evicted _ choice effect ousts =>
      have hlisted := (mem_of_choice choice).1
      exact ⟨_, hlisted, haway' _ hlisted, n, f, effect, ousts, hrestores, hfiles⟩

end Machine

open Kernel Machine

/-- No page-in and no growth of the stack that fails loses anything. -/
structure Machine.LosesNothing {φ : Type} [FileSystem φ] (m : Machine φ) : Prop where
  /-- A page that is in memory already is left alone with everything else, and any other page that cannot be
  brought in has lost nothing. -/
  resolve : ∀ {p u i e} {m' : Machine φ}, m.declaredAt p u = some i → Kernel.resolve p i m = .ok (.error e) m' →
    e = .alreadyResident u ∧ (m.page i).resident = true ∧ m' = m ∨
      ((∃ len count, e = .shortRead len count) ∨ e = .mapFailed u) ∧ m.Survives p u i m'
  /-- If it can be brought in later, from where it was left, it holds what it should have held at once. -/
  later : ∀ {p u i} {m₁ m₂ : Machine φ}, Attended m₁ → m₁.declaredAt p u = some i → m₁.page i = m.page i →
    (∀ s, (m.page i).slot = some s → m₁.swap.contents? m₁.devices s = m.swap.contents? m.devices s) →
    Kernel.resolve p i m₁ = .ok (.ok ()) m₂ →
    ∃ n f b, m₁.Readies n ∧ (m₂.page i).frame = some f ∧ m₂.pool.contents? f.cell = some b ∧
      n.incoming i = some b ∧ ∀ s, (m.page i).slot = some s → m.swap.contents? m.devices s = some b
  /-- A stack page that is not added has not been declared either. -/
  growStack : ∀ {p a} {m' : Machine φ}, (m.process p).exited = false → Kernel.growStack p a m = .ok none m' →
    (∃ log, m' = { m with log }) ∨
      m.declaredAt p (pageBase a) = none ∧ m.Survives p (pageBase a) m.pages.next m'

/-- Whatever is asked for, and whatever callers hold meanwhile, a page that cannot be brought in has lost
nothing. -/
theorem Attended.loses_nothing {φ : Type} [FileSystem φ] {m : Machine φ} (h : Attended m) :
    m.LosesNothing := by
  have hm := h.settled
  refine ⟨fun {p u i e m'} hi hrun => ?_, fun {p u i m₁ m₂} h₁ hi hpage hslot hrun => ?_,
    fun {p a m'} hlive hrun => ?_⟩
  · obtain ⟨hfree, hexact⟩ := (ends_resolve_exact hm.shows hm.sound rfl hi).of_ok hrun
    by_cases hin : (m.page i).resident = true
    · rw [if_pos hin] at hexact
      exact .inl ⟨Except.error.inj hexact.1, hin, hexact.2⟩
    rw [if_neg hin] at hexact
    obtain ⟨n, hready, harrives⟩ := hexact
    have haway : (m.page i).frame = none := by simpa [Page.resident] using hin
    have hunmapped : m.scene.mapping? p u = none := by
      rw [hm.sound.housed.mapping?, show m.scene.own p u = some i from hi, Option.bind_some]
      exact congrArg (Option.map _) haway
    have hslot : ∀ s, (m.page i).slot = some s → (m.scene.slot s).isSome = true := fun s hs =>
      (hm.sound.swapped.used s).2 ⟨p, u, i, hi, hs⟩
    have hsurvives : ∀ {f : Frame}, n.Restores f m' → m'.files = n.consulted i → m.Survives p u i m' :=
      survives_of_restores hm.shows hm.sound rfl haway hfree hslot hunmapped hready
    generalize hresult : (Except.error e : Except PageError Unit) = result at harrives
    cases harrives with
    | shortRead _ _ restores files =>
      obtain rfl := Except.error.inj hresult
      exact .inr ⟨.inl ⟨_, _, rfl⟩, hsurvives restores files⟩
    | mapFailed _ _ restores files =>
      obtain rfl := Except.error.inj hresult
      exact .inr ⟨.inr rfl, hsurvives restores files⟩
    | arrived => simp at hresult
  · have hm₁ := h₁.settled
    obtain ⟨-, hexact⟩ := (ends_resolve_exact hm₁.shows hm₁.sound rfl hi).of_ok hrun
    by_cases hin : (m₁.page i).resident = true
    · rw [if_pos hin] at hexact
      simp at hexact
    rw [if_neg hin] at hexact
    obtain ⟨n, hready, harrives⟩ := hexact
    cases harrives with
    | @arrived f b _ _ _ incoming gains _ _ =>
    have hframe : (m₂.page i).frame = some f := by rw [gains.page, Function.update_self]
    refine ⟨n, f, b, hready, hframe, by rw [gains.contents, Function.update_self], incoming, fun s hs => ?_⟩
    have hs₁ : (m₁.page i).slot = some s := by rw [hpage, hs]
    obtain ⟨b₁, hb₁⟩ := Option.isSome_iff_exists.1 ((hm₁.sound.swapped.used s).2 ⟨p, u, i, hi, hs₁⟩)
    have hcoming : n.swap.contents? n.devices s = some b := by
      rw [Machine.incoming, hready.page (by simpa [Page.resident] using hin), hs₁] at incoming
      exact incoming
    have hsame : n.swap.contents? n.devices s = some b₁ := hready.recedes.1 s b₁ hb₁
    rw [← hslot s hs, ← hcoming, hsame]
    exact hb₁
  · have hexact := (ends_growStack_exact hm.shows hm.sound rfl hlive a).of_ok hrun
    split at hexact
    · obtain ⟨-, ev, rfl⟩ := hexact
      exact .inl ⟨_, rfl⟩
    split at hexact
    · obtain ⟨-, rfl⟩ := hexact
      exact .inl ⟨_, rfl⟩
    rename_i hvacant
    have hnone : m.declaredAt p (pageBase a) = none := by simpa using hvacant
    obtain ⟨n, hready, hgrows⟩ := hexact
    refine .inr ⟨hnone, ?_⟩
    have hnew : m.page m.pages.next = .declared 0 false .swap := by
      simp [Machine.page, PageStore.get, PageStore.next]
    have hunmapped : m.scene.mapping? p (pageBase a) = none := by
      rw [hm.sound.housed.mapping?, show m.scene.own p (pageBase a) = none from hnone, Option.bind_none]
    generalize hresult : (none : Option PageId) = result at hgrows
    cases hgrows with
    | refused _ restores files =>
      refine survives_of_restores hm.shows hm.sound rfl (by rw [hnew]; rfl) (by rw [hnew]; rfl)
        (fun s hs => ?_) hunmapped hready restores (files.trans ?_)
      · rw [hnew] at hs
        simp [Page.declared] at hs
      · rw [consulted, hready.page (by rw [hnew]; rfl), hnew]
        rfl
    | grown => simp at hresult

/-- A file is shorter than the page says. The page stays away, and its frame is free again. -/
theorem loses_nothing_of_shortRead : ∃ m m' : Machine MemoryFiles, Attended m ∧
    resolve 0 0 m = .ok (.error (.shortRead 100 3)) m' ∧ m.Survives 0 0x8048000 0 m' ∧
      ∃ f, m.Restores f m' ∧ m'.files = m.consulted 0 := by
  obtain ⟨m, hm, hopen, hP⟩ := exists_reachable 1 1 (⟨#[⟨[1, 2, 3], none, none⟩]⟩ : MemoryFiles)
    [(0, .declareFile 0x8048000 ⟨0, 0, 100, 3996⟩ true)]
    (fun m => m.declaredAt 0 0x8048000 == some 0 && decide (0 < m.pool.total) && !m.pool.lent 0 &&
      check (resolve 0 0) (fun r _ => decide (r = .error (.shortRead 100 3))) m) (by decide +kernel)
  simp only [Bool.and_eq_true, beq_iff_eq, decide_eq_true_eq, Bool.not_eq_true'] at hP
  obtain ⟨⟨⟨hi, htotal⟩, hfree⟩, hcheck⟩ := hP
  obtain ⟨result, m', hrun, hresult⟩ := exists_of_check hcheck
  obtain rfl := of_decide_eq_true hresult
  have hm : Attended m := .run hm
  have hsurvives := (hm.loses_nothing.resolve hi hrun).resolve_left fun h => by simp at h
  exact ⟨m, m', hm, hrun, hsurvives.2, hsurvives.2.spared (hopen _) ⟨0, htotal, hfree⟩⟩

end DemandPaging
