import DemandPaging.Proofs.Effect

/-!
# Pages that are left alone

An effect other than a store is about one page at most, its subject, and leaves all others where they
are and as they are.
-/

namespace DemandPaging

/-- The page that an effect is about, if it belongs to a process afterwards. -/
def Label.subject : Label → Option PageId
  | .evict i | .arrive i | .declare i | .grow i => some i
  | _ => none

namespace View

variable {φ : Type} {v v' v'' : View φ} {p q : ProcId} {u w : Nat} {i j : PageId} {f : Frame}
  {b : PageBytes} {s : Nat}

/-- Page `j`, which process `q` has at `w`, is where it was, with the bytes that it had. -/
structure Retains (v v' : View φ) (q : ProcId) (w : Nat) (j : PageId) : Prop where
  page : v'.page j = v.page j
  dirty : v'.dirty q w = v.dirty q w
  cell : ∀ f, (v.page j).frame = some f → v'.cell f.cell = v.cell f.cell
  slot : ∀ s, (v.page j).slot = some s → v'.slot s = v.slot s

theorem Retains.of_eq (hpage : v'.page = v.page) (hdirty : v'.dirty = v.dirty)
    (hcell : v'.cell = v.cell) (hslot : v'.slot = v.slot) : v.Retains v' q w j :=
  ⟨by rw [hpage], by rw [hdirty], fun _ _ => by rw [hcell], fun _ _ => by rw [hslot]⟩

theorem Retains.refl (v : View φ) (q : ProcId) (w : Nat) (j : PageId) : v.Retains v q w j :=
  .of_eq rfl rfl rfl rfl

theorem Retains.trans (h : v.Retains v' q w j) (h' : v'.Retains v'' q w j) :
    v.Retains v'' q w j where
  page := h'.page.trans h.page
  dirty := h'.dirty.trans h.dirty
  cell f hf := (h'.cell f (by rw [h.page, hf])).trans (h.cell f hf)
  slot s hs := (h'.slot s (by rw [h.page, hs])).trans (h.slot s hs)

theorem retains_setFiles (v : View φ) (files : φ) (q : ProcId) (w : Nat) (j : PageId) :
    v.Retains (v.setFiles files) q w j := .of_eq rfl rfl rfl rfl

theorem retains_setDeclared (v : View φ) (p : ProcId) (d : Nat → Option PageId) (q : ProcId) (w : Nat)
    (j : PageId) : v.Retains (v.setDeclared p d) q w j := .of_eq rfl rfl rfl rfl

theorem retains_setMappings (v : View φ) (p : ProcId) (t : MapTable) (q : ProcId) (w : Nat)
    (j : PageId) : v.Retains (v.setMappings p t) q w j := .of_eq rfl rfl rfl rfl

theorem retains_disown (v : View φ) (p : ProcId) (u : Nat) (q : ProcId) (w : Nat) (j : PageId) :
    v.Retains (v.disown p u) q w j := .of_eq rfl rfl rfl rfl

theorem retains_vacate (hv : v.Housed) (hi : v.own p u = some i) (hf : (v.page i).frame = some f)
    (hj : v.own q w = some j) (hne : j ≠ i) : v.Retains (v.vacate p u i f) q w j where
  page := by rw [vacate_page, Function.update_of_ne hne]
  dirty := by
    rw [vacate_dirty, setAt_of_ne]
    rintro ⟨rfl, rfl⟩
    exact hne (Option.some.inj (hj.symm.trans hi))
  cell g hg := by
    rw [vacate_cell, Function.update_of_ne]
    intro hc
    have he := hv.eq_of_cell (hv.mem_tenants hj hg) (hv.mem_tenants hi hf) hc
    rw [Tenancy.mk.injEq] at he
    exact hne he.2.2
  slot _ _ := rfl

theorem retains_occupy (hv : v.Housed) (hi : v.own p u = some i) (hfree : v.cell f.cell = none)
    (hj : v.own q w = some j) (hne : j ≠ i) : v.Retains (v.occupy p u i f b) q w j where
  page := by rw [occupy_page, Function.update_of_ne hne]
  dirty := by
    rw [occupy_dirty, setAt_of_ne]
    rintro ⟨rfl, rfl⟩
    exact hne (Option.some.inj (hj.symm.trans hi))
  cell g hg := by
    rw [occupy_cell, Function.update_of_ne]
    intro hc
    obtain ⟨c, hcell⟩ := hv.exists_cell hj hg
    rw [hc, hfree] at hcell
    simp at hcell
  slot _ _ := rfl

theorem retains_stash (hs : v.Swapped) (hfree : v.slot s = none) (hj : v.own q w = some j)
    (hne : j ≠ i) : v.Retains (v.stash i s b) q w j where
  page := by rw [stash_page, Function.update_of_ne hne]
  dirty := rfl
  cell _ _ := rfl
  slot t ht := by
    rw [stash_slot, Function.update_of_ne]
    rintro rfl
    have hused := (hs.used t).2 ⟨q, w, j, hj, ht⟩
    simp [hfree] at hused

theorem retains_unstash (hs : v.Swapped) (hi : v.own p u = some i) (hslot : (v.page i).slot = some s)
    (hj : v.own q w = some j) (hne : j ≠ i) : v.Retains (v.unstash i s) q w j where
  page := by rw [unstash_page, Function.update_of_ne hne]
  dirty := rfl
  cell _ _ := rfl
  slot t ht := by
    rw [unstash_slot, Function.update_of_ne]
    rintro rfl
    exact hne (hs.inj hj hi ht hslot)

theorem retains_claim (ho : v.Owned) {pg : Page} (hj : v.own q w = some j) :
    v.Retains (v.claim p u pg) q w j where
  page := by rw [claim_page, Function.update_of_ne (Nat.ne_of_lt (ho.lt hj))]
  dirty := rfl
  cell _ _ := rfl
  slot _ _ := rfl

/-! ### Pages that are held -/

/-- The pages in `base` still belong to their processes, and are where they were, with the bytes that they
had. -/
structure Guards (base : Set PageId) (v v' : View φ) : Prop where
  own : ∀ {q w j}, j ∈ base → v.own q w = some j → v'.own q w = some j
  retains : ∀ {q w j}, j ∈ base → v.own q w = some j → v.Retains v' q w j

variable {base base' : Set PageId}

theorem Guards.refl (base : Set PageId) (v : View φ) : Guards base v v :=
  ⟨fun _ => id, fun _ _ => .refl _ _ _ _⟩

theorem Guards.trans (h : Guards base v v') (h' : Guards base v' v'') : Guards base v v'' :=
  ⟨fun hb hj => h'.own hb (h.own hb hj),
    fun hb hj => (h.retains hb hj).trans (h'.retains hb (h.own hb hj))⟩

theorem Guards.mono (h : Guards base v v') (hsub : base' ⊆ base) : Guards base' v v' :=
  ⟨fun hb => h.own (hsub hb), fun hb => h.retains (hsub hb)⟩

theorem Guards.of_eq (hown : v'.own = v.own) (hpage : v'.page = v.page) (hdirty : v'.dirty = v.dirty)
    (hcell : v'.cell = v.cell) (hslot : v'.slot = v.slot) : Guards base v v' :=
  ⟨fun _ hj => by rw [hown, hj], fun _ _ => .of_eq hpage hdirty hcell hslot⟩

theorem Guards.setDeclared (base : Set PageId) (v : View φ) (p : ProcId) (d : Nat → Option PageId) :
    Guards base v (v.setDeclared p d) := .of_eq rfl rfl rfl rfl rfl

theorem Guards.setMappings (base : Set PageId) (v : View φ) (p : ProcId) (t : MapTable) :
    Guards base v (v.setMappings p t) := .of_eq rfl rfl rfl rfl rfl

theorem Guards.setExited (base : Set PageId) (v : View φ) (p : ProcId) (b : Bool) :
    Guards base v (v.setExited p b) := .of_eq rfl rfl rfl rfl rfl

end View

variable {φ : Type} [FileSystem φ] {l : Label} {v v' : View φ} {q : ProcId} {w : Nat} {j : PageId}

open View

/-- A page belongs to its process already, or is new. -/
theorem Effect.own_cases (he : Effect l v v') (hj : v'.own q w = some j) :
    v.own q w = some j ∨ j = v.next ∧ (l = .declare j ∨ l = .grow j) := by
  cases he with
  | declare vacant region fits =>
    rw [claim_own, setAt_apply] at hj
    split at hj
    · exact .inr ⟨(Option.some.inj hj).symm, .inl (by rw [Option.some.inj hj])⟩
    · exact .inl hj
  | grow vacant free =>
    rw [occupy_own, claim_own, setAt_apply] at hj
    split at hj
    · exact .inr ⟨(Option.some.inj hj).symm, .inr (by rw [Option.some.inj hj])⟩
    · exact .inl hj
  | forget | release | flush | discard => exact .inl (own_of_disown hj).1
  | _ => exact .inl hj

/-- The pages that belong to processes later on belonged to them before, or are new. -/
theorem Path.own_cases {may : Label → Prop} (h : Path may v v') :
    v.next ≤ v'.next ∧ ∀ {q u i}, v'.own q u = some i → v.own q u = some i ∨ v.next ≤ i := by
  refine h.keeps (P := fun w => v.next ≤ w.next ∧ ∀ {q u i}, w.own q u = some i →
    v.own q u = some i ∨ v.next ≤ i) ⟨Nat.le_refl _, .inl⟩ ?_
  rintro l w w' - he ⟨hnext, hown⟩
  refine ⟨hnext.trans he.next_le, fun {q u i} hi => ?_⟩
  rcases he.own_cases hi with hi | ⟨rfl, -⟩
  · exact hown hi
  · exact .inr hnext

/-- An effect other than a store leaves all pages alone but its subject. -/
theorem Effect.retains (he : Effect l v v') (hl : l ≠ .store) (hv : v.Sound)
    (hj : v.own q w = some j) (hj' : v'.own q w = some j) (hne : l.subject ≠ some j) :
    v.Retains v' q w j := by
  -- a page that is given up is not page `j`, which still belongs to its process
  have hgone : ∀ {p u i} {x : View φ}, v.own p u = some i → (x.disown p u).own q w = some j → j ≠ i := by
    rintro p u i x hi hx rfl
    exact (own_of_disown hx).2 (hv.owned.eq_of_own hj hi)
  have hsubject : ∀ {i}, l.subject = some i → j ≠ i := by
    rintro i hi rfl
    exact hne hi
  cases he with
  | @swapOut _ p u i f b s own frame holds disposal lt free =>
    refine (retains_stash (b := b) hv.swapped free hj (hsubject rfl)).trans ?_
    refine retains_vacate hv.housed.stash own ?_ hj (hsubject rfl)
    rw [stash_page, Function.update_self, frame]
  | writeOut own frame holds disposal region =>
    exact (retains_setFiles ..).trans (retains_vacate (hv.setFiles _).housed own frame hj (hsubject rfl))
  | drop own frame disposal => exact retains_vacate hv.housed own frame hj (hsubject rfl)
  | swapIn own away slot holds free =>
    exact (retains_unstash hv.swapped own slot hj (hsubject rfl)).trans
      (retains_occupy hv.housed.unstash own free.cell hj (hsubject rfl))
  | readIn own away slot region count free =>
    exact (retains_setFiles ..).trans (retains_occupy (hv.setFiles _).housed own free.cell hj (hsubject rfl))
  | declare vacant region fits => exact retains_claim hv.owned hj
  | @grow _ p u f vacant free =>
    refine (retains_claim hv.owned hj).trans (retains_occupy (hv.housed.claim hv.owned vacant rfl)
      (p := p) (u := u) ?_ free.cell hj' (hsubject rfl))
    rw [claim_own, setAt_self]
  | forget => exact retains_disown ..
  | release own frame =>
    exact (retains_vacate hv.housed own frame hj (hgone own hj')).trans (retains_disown ..)
  | @flush _ p u i f b r own frame holds backing =>
    have hleaves := retains_vacate (v := v.writeBack r b) (hv.setFiles _).housed own frame hj (hgone own hj')
    exact ((retains_setFiles ..).trans hleaves).trans (retains_disown ..)
  | discard own away slot =>
    exact (retains_unstash hv.swapped own slot hj (hgone own hj')).trans (retains_disown ..)
  | unlist | consult | remap | exit | spawn => exact .of_eq rfl rfl rfl rfl
  | store => exact absurd rfl hl

/-- An effect that takes no page of `base` from its process, and is not about one, leaves them alone. -/
theorem Effect.guards {base : Set PageId} (he : Effect l v v') (hl : l ≠ .store) (hv : v.Sound)
    (hown : ∀ {q w j}, j ∈ base → v.own q w = some j → v'.own q w = some j)
    (hbase : ∀ i, l = .evict i ∨ l = .arrive i → i ∉ base) : Guards base v v' := by
  refine ⟨hown, fun {q w j} hb hj => he.retains hl hv hj (hown hb hj) ?_⟩
  intro hsubject
  cases he with
  | declare | grow =>
    -- the page is new, and belonged to nobody
    obtain rfl := Option.some.inj hsubject
    exact absurd (hv.owned.lt hj) (Nat.lt_irrefl _)
  | swapOut | writeOut | drop =>
    obtain rfl := Option.some.inj hsubject
    exact hbase _ (.inl rfl) hb
  | swapIn | readIn =>
    obtain rfl := Option.some.inj hsubject
    exact hbase _ (.inr rfl) hb
  | _ => simp [Label.subject] at hsubject

/-- To evict a page is to leave the others alone. -/
theorem Effect.guards_of_evict {base : Set PageId} {i : PageId} (he : Effect (.evict i) v v') (hv : v.Sound)
    (hi : i ∉ base) : Guards base v v' := by
  refine he.guards (by simp) hv (fun _ hj => ?_) fun j hj => ?_
  · cases he <;> exact hj
  · rcases hj with hj | hj
    · rwa [← Label.evict.inj hj]
    · simp at hj

/-- So is to bring a page in. -/
theorem Effect.guards_of_arrive {base : Set PageId} {i : PageId} (he : Effect (.arrive i) v v') (hv : v.Sound) :
    Guards (base \ {i}) v v' := by
  refine he.guards (by simp) hv (fun _ hj => ?_) fun j hj hb => ?_
  · cases he <;> exact hj
  · rcases hj with hj | hj
    · simp at hj
    · exact hb.2 (Label.arrive.inj hj).symm

/-- To declare a page, and to grow the stack by one, is to leave all pages alone. -/
theorem Effect.guards_of_new {base : Set PageId} {i : PageId} (he : Effect l v v')
    (hl : l = .declare i ∨ l = .grow i) (hv : v.Sound) : Guards base v v' := by
  have hclaim : ∀ {p u q x j}, v.Vacant p u → v.own q x = some j →
      setAt v.own p u (some v.next) q x = some j := by
    intro p u q x j hvacant hj
    rw [setAt_of_ne _ _ ?_, hj]
    rintro ⟨rfl, rfl⟩
    simp [hvacant.own] at hj
  refine he.guards (by rcases hl with rfl | rfl <;> simp) hv (fun _ hj => ?_) fun j hj => ?_
  · cases he with
    | declare vacant region fits => exact hclaim vacant hj
    | grow vacant free => exact hclaim vacant hj
    | _ => simp at hl
  · rcases hl with rfl | rfl <;> simp at hj

/-- So is to declare any number of pages. -/
theorem Path.guards_of_declare {base : Set PageId} (h : Path (fun l => ∃ i, l = .declare i) v v')
    (hv : v.Sound) : Guards base v v' :=
  h.keeps (P := fun w => Guards base v w ∧ w.Sound) ⟨.refl _ _, hv⟩ (by
    rintro l w w' ⟨i, rfl⟩ he ⟨hguards, hw⟩
    exact ⟨hguards.trans (he.guards_of_new (.inl rfl) hw), he.sound hw⟩) |>.1

end DemandPaging
