import DemandPaging.Machine.Exit
import DemandPaging.Proofs.FileCalls
import DemandPaging.Proofs.PageIn

/-!
# Giving pages up

A page is given up when its mapping is released or its process ends. It must not keep a frame, nor a
slot: a page of a mapped file never has one, so that releasing a mapping need not look for it. What a
page owes its file is written, and nothing else. None of these programs ever stops, unless it has to
wait for a page that others hold.
-/

namespace DemandPaging

/-- The effects of giving pages up; without `loud`, of pages that are not in memory. -/
def Label.releasing (loud : Prop) : Label → Prop
  | .unlist | .forget | .consult | .remap => True
  | .release | .exit => loud
  | _ => False

namespace View

variable {φ : Type} {v v' v'' : View φ} {p : ProcId} {u s : Nat} {i : PageId} {f : Frame}

variable [FileSystem φ]

/-- Process `p` has lost its pages at `us`, and what they owed has been written, in this order; all
other pages have been left alone. -/
structure Loses (v : View φ) (p : ProcId) (us : List Nat) (v' : View φ) : Prop where
  nodup : us.Nodup
  own : ∀ q w, v'.own q w = if q = p ∧ w ∈ us then none else v.own q w
  retains : ∀ {q w j}, v'.own q w = some j → v.Retains v' q w j
  /-- A page that is not in memory does not come in. -/
  away : ∀ j, (v.page j).frame = none → (v'.page j).frame = none
  gone : ∀ {w j}, w ∈ us → v.own p w = some j → (v'.page j).frame = none
  calls : Calls v.files (us.filterMap (v.due p)) v'.files

/-- That is all that has happened to the processes. -/
structure GivesUp (v : View φ) (p : ProcId) (us : List Nat) (v' : View φ) : Prop extends
    v.Loses p us v' where
  mappings : v'.mappings = v.mappings
  exited : v'.exited = v.exited

theorem Loses.page {us : List Nat} (h : v.Loses p us v') {q : ProcId} {w : Nat} {j : PageId}
    (hj : v'.own q w = some j) : v'.page j = v.page j := (h.retains hj).page

theorem GivesUp.nil (v : View φ) (p : ProcId) : v.GivesUp p [] v :=
  ⟨⟨List.nodup_nil, fun q w => by simp, fun _ => .refl _ _ _ _, fun _ => id, by simp, .refl⟩, rfl, rfl⟩

/-- A page that still belongs to a process belonged to it before. -/
theorem Loses.own_of_own {us : List Nat} (h : v.Loses p us v') {q : ProcId} {w : Nat} {j : PageId}
    (hj : v'.own q w = some j) : v.own q w = some j := by
  rw [h.own] at hj
  split at hj
  · simp at hj
  · exact hj

theorem Loses.trans {us us' : List Nat} (h : v.Loses p us v') (h' : v'.Loses p us' v'')
    (hapart : us.Disjoint us') : v.Loses p (us ++ us') v'' := by
  have hkept : ∀ u ∈ us', v'.own p u = v.own p u := fun u hu => by
    rw [h.own, if_neg fun hc => hapart hc.2 hu]
  refine ⟨List.nodup_append'.2 ⟨h.nodup, h'.nodup, hapart⟩, fun q w => ?_,
    fun {q w j} hj => (h.retains (h'.own_of_own hj)).trans (h'.retains hj),
    fun j hj => h'.away j (h.away j hj), fun {w j} hw hj => ?_, ?_⟩
  · rw [h'.own, h.own]
    rcases eq_or_ne q p with hq | hq
    · by_cases hw : w ∈ us'
      · simp [hq, hw]
      · simp [hq, hw]
    · simp [hq]
  · rcases List.mem_append.1 hw with hw | hw
    · exact h'.away j (h.gone hw hj)
    · exact h'.gone hw (by rw [hkept w hw, hj])
  · -- the pages at `us'` owe after the first part what they owed before it
    have hdue : us'.filterMap (v'.due p) = us'.filterMap (v.due p) :=
      List.filterMap_congr fun u hu => due_congr (hkept u hu) fun i hi =>
        h.retains (by rw [hkept u hu, hi])
    rw [List.filterMap_append, ← hdue]
    exact h.calls.trans h'.calls

theorem GivesUp.trans {us us' : List Nat} (h : v.GivesUp p us v') (h' : v'.GivesUp p us' v'')
    (hapart : us.Disjoint us') : v.GivesUp p (us ++ us') v'' :=
  ⟨h.toLoses.trans h'.toLoses hapart, h'.mappings.trans h.mappings, h'.exited.trans h.exited⟩

/-! What processes have declared and mapped, and who has exited, makes no difference to what is lost. -/

theorem Loses.of_setDeclared {us : List Nat} {d : Nat → Option PageId}
    (h : (v.setDeclared p d).Loses p us v') : v.Loses p us v' :=
  ⟨h.nodup, h.own, fun hj => (retains_setDeclared ..).trans (h.retains hj), h.away, h.gone, h.calls⟩

theorem Loses.of_setMappings {us : List Nat} {t : MapTable}
    (h : (v.setMappings p t).Loses p us v') : v.Loses p us v' :=
  ⟨h.nodup, h.own, fun hj => (retains_setMappings ..).trans (h.retains hj), h.away, h.gone, h.calls⟩

theorem Loses.setMappings {us : List Nat} (h : v.Loses p us v') (t : MapTable) :
    v.Loses p us (v'.setMappings p t) :=
  ⟨h.nodup, h.own, fun hj => (h.retains hj).trans (retains_setMappings ..), h.away, h.gone, h.calls⟩

theorem Loses.setExited {us : List Nat} (h : v.Loses p us v') (b : Bool) :
    v.Loses p us (v'.setExited p b) :=
  ⟨h.nodup, h.own, fun hj => (h.retains hj).trans (.of_eq rfl rfl rfl rfl), h.away, h.gone, h.calls⟩

/-- Nor does a call of the file system that writes nothing. -/
theorem Loses.consult {us : List Nat} (h : v.Loses p us v') {files : φ} (hc : Consulted v'.files files) :
    v.Loses p us (v'.setFiles files) :=
  ⟨h.nodup, h.own, fun hj => (h.retains hj).trans (retains_setFiles ..), h.away, h.gone, h.calls.consult hc⟩

/-- Pages that are not lost are left alone. -/
theorem Loses.guards {us : List Nat} {base : Set PageId} (h : v.Loses p us v')
    (hus : ∀ u ∈ us, ∀ i, v.own p u = some i → i ∉ base) : v.Guards base v' := by
  have hkeep : ∀ {q w j}, j ∈ base → v.own q w = some j → v'.own q w = some j := by
    intro q w j hb hj
    rw [h.own, if_neg, hj]
    rintro ⟨rfl, hw⟩
    exact hus w hw j hj hb
  exact ⟨hkeep, fun hb hj => h.retains (hkeep hb hj)⟩

theorem GivesUp.guards_of_own {base : Set PageId} (h : v.GivesUp p [u] v') (hi : v.own p u = some i)
    (hout : i ∉ base) : v.Guards base v' := by
  refine h.guards fun w hw j hj => ?_
  obtain rfl := List.mem_singleton.1 hw
  rwa [← Option.some.inj (hi.symm.trans hj)]

omit [FileSystem φ] in
/-- The pages of process `p` at `us` are declared, and are pages of mapped files. -/
def Maps (v : View φ) (p : ProcId) (us : List Nat) : Prop :=
  ∀ u ∈ us, ∃ i r, v.own p u = some i ∧ (v.page i).backing = .mapped r

/-- A page that has left memory is given up. -/
theorem givesUp_disown (ho : v.Owned) (hi : v.own p u = some i) {w : View φ} (hown : w.own = v.own)
    (hretains : ∀ {q x j}, v.own q x = some j → j ≠ i → v.Retains w q x j)
    (hothers : ∀ j, j ≠ i → w.page j = v.page j) (haway : (w.page i).frame = none)
    (hcalls : Calls v.files (v.due p u).toList w.files) (hmappings : w.mappings = v.mappings)
    (hexited : w.exited = v.exited) : v.GivesUp p [u] (w.disown p u) := by
  refine ⟨⟨List.nodup_singleton u, fun q x => ?_, fun {q x j} hj => ?_, fun j hj => ?_,
    fun {x j} hx hj => ?_, ?_⟩, hmappings, hexited⟩
  · rw [disown_own, setAt_apply, hown]
    simp
  · obtain ⟨hj, hne⟩ := own_of_disown hj
    rw [hown] at hj
    refine (hretains hj ?_).trans (retains_disown ..)
    rintro rfl
    exact hne (ho.eq_of_own hj hi)
  · rw [disown_page]
    rcases eq_or_ne j i with rfl | hne
    · exact haway
    · rw [hothers j hne, hj]
  · rw [List.mem_singleton.1 hx, hi, Option.some.injEq] at hj
    rw [disown_page, ← hj, haway]
  · rw [List.filterMap_cons, List.filterMap_nil]
    cases hdue : v.due p u <;> rwa [hdue] at hcalls

/-- A page that is in memory gives back its frame. -/
theorem givesUp_vacate (hv : v.Sound) (hi : v.own p u = some i) (hf : (v.page i).frame = some f) {files : φ}
    (hcalls : Calls v.files (v.due p u).toList files) :
    v.GivesUp p [u] (((v.setFiles files).vacate p u i f).disown p u) := by
  refine givesUp_disown hv.owned hi rfl (fun hj hne => ?_) (fun j hj => ?_) ?_ hcalls rfl rfl
  · exact (retains_setFiles ..).trans (retains_vacate (hv.setFiles files).housed hi hf hj hne)
  · rw [vacate_page, Function.update_of_ne hj, setFiles_page]
  · rw [vacate_page, Function.update_self]

/-- One that is in swap space gives back its slot. -/
theorem givesUp_unstash (hv : v.Sound) (hi : v.own p u = some i) (hf : (v.page i).frame = none)
    (hs : (v.page i).slot = some s) (hdue : v.due p u = none) :
    v.GivesUp p [u] ((v.unstash i s).disown p u) := by
  refine givesUp_disown hv.owned hi rfl (retains_unstash hv.swapped hi hs) (fun j hj => ?_) ?_ ?_ rfl rfl
  · rw [unstash_page, Function.update_of_ne hj]
  · rw [unstash_page, Function.update_self, hf]
  · rw [hdue]
    exact .refl

theorem givesUp_of_away (ho : v.Owned) (hi : v.own p u = some i) (hf : (v.page i).frame = none)
    (hdue : v.due p u = none) : v.GivesUp p [u] (v.disown p u) := by
  refine givesUp_disown ho hi rfl (fun _ _ => .refl _ _ _ _) (fun _ _ => rfl) hf ?_ rfl rfl
  rw [hdue]
  exact .refl

/-- Process `p` has given up its pages at `us`, and no page that is held has been touched. -/
structure Yields (loud : Prop) (held : Set PageId) (v : View φ) (p : ProcId) (us : List Nat)
    (v' : View φ) : Prop where
  path : Path (Label.releasing loud) v v'
  gives : v.GivesUp p us v'
  guards : v.Guards held v'
  declared : v'.declared = v.declared

end View

namespace Kernel

open Machine View

variable {φ : Type} {m : Machine φ} {v : View φ} {p : ProcId} {i : PageId} {u : Nat} {f : Frame}
  {loud : Prop} {held : Set PageId} {E : Stop → Machine φ → Prop}

/-! ### Taking a page out -/

/-- The frame of a page whose mapping is gone goes back, and the page has left memory. -/
theorem ends_freeFrame_of_own {held : Set PageId} (hv : v.Sound) (hi : v.own p u = some i)
    (hf : (v.page i).frame = some f)
    (h : m.Shows ((v.setPage i { v.page i with frame := none }).setMapping p u none) held) :
    Ends (freeFrame f) m (fun _ m' => m'.Shows (v.vacate p u i f) held) E := by
  obtain ⟨b, hb⟩ := hv.housed.exists_cell hi hf
  have hmem := hv.housed.mem_tenants hi hf
  exact ends_freeFrame h (e := ⟨f, p, i⟩) hmem
    (fun e' he' hframe => hv.housed.eq_of_cell he' hmem (by rw [hframe])) hb
    (hv.housed.pfn _ hmem)

variable [FileSystem φ]

/-- A page that has left memory is given up for good once it is unpinned. -/
theorem ends_unpin_disown {w : View φ} {l : Label} (h : m.Shows w (insert i held)) (hfree : i ∉ held)
    (hi : v.own p u = some i) (hgives : v.GivesUp p [u] (w.disown p u)) (hdeclared : w.declared = v.declared)
    (hl : Label.releasing loud l) (he : Effect l v (w.disown p u)) :
    Ends (unpin i) m (fun _ m' => ∃ v', m'.Shows v' held ∧ v.Yields loud held p [u] v') E := by
  refine (ends_unpin h hfree).returns ?_
  intro _ m₁ h₁
  exact ⟨_, h₁.setOwn _, Path.single hl he, hgives, hgives.guards_of_own hi hfree, hdeclared⟩

/-- A page of a mapped file is taken out of memory, written back if need be, and given up. -/
theorem ends_dismiss (h : m.Shows v held) (hv : v.Sound) (hi : v.own p u = some i) {r : Region}
    (hr : (v.page i).backing = .mapped r) (hloud : (v.page i).frame.isSome = true → loud)
    (hwait : held.Nonempty → ∀ e m', E e m') :
    Ends (dismiss p u i) m (fun _ m' => ∃ v', m'.Shows v' held ∧ v.Yields loud held p [u] v') E := by
  have hlt := hv.owned.lt hi
  have hslot : (v.page i).slot = none := by
    have hs := hv.sourced _ _ _ hi
    rwa [Page.Sourced, if_neg (by simp [Page.keeping, hr])] at hs
  have hfits : r.readLen ≤ pageSize :=
    (hv.owned.fits hi (by rw [hr]; rfl)).le.trans' (Nat.le_add_right _ _)
  rw [dismiss, ends_bind]
  by_cases hfree : i ∈ held
  · exact ends_pin_of_mem h hfree (hwait ⟨i, hfree⟩ _ _)
  refine (ends_pin h hlt hfree).returns ?_
  intro _ m₁ h₁
  simp only [ends_bind, ends_page, ends_modifyPage]
  have h₂ := h₁.setPage (f := fun pg => { pg with frame := none }) hlt (fun _ => rfl) fun _ => rfl
  set m₂ := m₁.withPage i fun pg => { pg with frame := none } with hm₂
  have hframe : (m₁.page i).frame = (v.page i).frame := h₁.frame i
  have hbacking : (m₁.page i).backing = .mapped r := (h₁.backing i).trans hr
  rw [hframe, hbacking]
  cases hf : (v.page i).frame with
  | none =>
    have hsame : v.setPage i { v.page i with frame := none } = v := by
      rw [← hf, View.setPage, Function.update_eq_self]
    rw [hsame] at h₂
    have hdue : v.due p u = none := by rw [due_of_mapped hi hr, write?_of_away hf]
    exact ends_unpin_disown h₂ hfree hi (givesUp_of_away hv.owned hi hf hdue) rfl (l := .forget) trivial
      (.forget hi hf hslot)
  | some f =>
    obtain ⟨b, hb⟩ := hv.housed.exists_cell hi hf
    -- the end is the same whether the page has been written back or not
    have hleave : ∀ {files : φ} {m₃ : Machine φ}, Calls v.files (v.due p u).toList files →
        Effect .release v (((v.setFiles files).vacate p u i f).disown p u) →
        m₃.Shows (((v.setFiles files).setPage i { v.page i with frame := none }).setMapping p u none)
          (insert i held) →
        Ends (do freeFrame f; unpin i) m₃ (fun _ m' => ∃ v', m'.Shows v' held ∧
          v.Yields loud held p [u] v') E := by
      intro files m₃ hcalls heffect h₃
      rw [ends_bind]
      refine (ends_freeFrame_of_own (hv.setFiles files) hi hf h₃).returns ?_
      intro _ m₄ h₄
      exact ends_unpin_disown h₄ hfree hi (givesUp_vacate hv hi hf hcalls) rfl (l := .release)
        (hloud (by rw [hf]; rfl)) heffect
    rw [ends_bind]
    refine (ends_unmapPage h₂ p u).returns ?_
    intro dirty m₃ hunmapped
    have hdirty : v.dirty p u = dirty := hunmapped.1.symm
    have h₃ := hunmapped.2
    cases dirty with
    | false =>
      have hcalls : Calls v.files (v.due p u).toList v.files := by
        rw [due_of_mapped hi hr, write?_of_clean hdirty]
        exact .refl
      exact hleave hcalls (.release hi hf) h₃
    | true =>
      have hcalls : Calls v.files (v.due p u).toList (v.writeBack r b).files := by
        rw [due_of_mapped hi hr, write?_of_dirty hdirty hf hb]
        exact Calls.refl.write r.file r.offset (b.slice 0 r.readLen)
      simp only
      rw [ends_bind]
      refine (ends_writeRegion h₃ hfits hb).returns ?_
      intro n m₄ h₄
      rw [ends_ite]
      split
      · rw [ends_bind, ends_emit]
        exact hleave hcalls (.flush hi hf hb hr) (h₄.report _)
      · exact hleave hcalls (.flush hi hf hb hr) h₄

/-- A page of a process that ends gives back its frame or its slot; it is no page of a mapped file. -/
theorem ends_discard (h : m.Shows v held) (hv : v.Sound) (hi : v.own p u = some i)
    (hfile : ∀ r, (v.page i).backing ≠ .mapped r) (hloud : loud)
    (hwait : held.Nonempty → ∀ e m', E e m') :
    Ends (discard p i) m (fun _ m' => ∃ v', m'.Shows v' held ∧ v.Yields loud held p [u] v') E := by
  have hlt := hv.owned.lt hi
  have hdue := due_eq_none hi hfile
  rw [discard, ends_bind]
  by_cases hfree : i ∈ held
  · exact ends_pin_of_mem h hfree (hwait ⟨i, hfree⟩ _ _)
  refine (ends_pin h hlt hfree).returns ?_
  intro _ m₁ h₁
  simp only [ends_bind, ends_page, ends_modifyPage]
  have h₂ := h₁.setPage (f := fun pg => { pg with frame := none, slot := none }) hlt (fun _ => rfl)
    fun _ => rfl
  set m₂ := m₁.withPage i fun pg => { pg with frame := none, slot := none } with hm₂
  have hupage : (m₁.page i).upage = u := (h₁.upage i).trans (hv.owned.upage hi)
  have hframe : (m₁.page i).frame = (v.page i).frame := h₁.frame i
  have hslot : (m₁.page i).slot = (v.page i).slot := h₁.pageSlot i
  rw [hframe, hslot, hupage]
  cases hf : (v.page i).frame with
  | some f =>
    -- a page in memory has no slot
    have hs := (hv.sourced _ _ _ hi).slot_eq_none (by rw [hf]; rfl)
    rw [hs]
    have hsame : v.setPage i { v.page i with frame := none, slot := none } =
        v.setPage i { v.page i with frame := none } := by rw [← hs]
    rw [hsame] at h₂
    simp only [ends_bind]
    refine (ends_unmapPage h₂ p u).returns ?_
    rintro _ m₃ ⟨_, h₃⟩
    refine (ends_freeFrame_of_own hv hi hf h₃).returns ?_
    intro _ m₄ h₄
    have hcalls : Calls v.files (v.due p u).toList v.files := by
      rw [hdue]
      exact .refl
    exact ends_unpin_disown h₄ hfree hi (givesUp_vacate hv hi hf hcalls) rfl (l := .release) hloud (.release hi hf)
  | none =>
    have hsame : v.setPage i { v.page i with frame := none, slot := none } =
        v.setPage i { v.page i with slot := none } := by rw [← hf]
    rw [hsame] at h₂
    cases hs : (v.page i).slot with
    | some s =>
      simp only [ends_bind]
      have hused : (v.slot s).isSome = true := (hv.swapped.used s).2 ⟨p, u, i, hi, hs⟩
      obtain ⟨b, hb⟩ := Option.isSome_iff_exists.1 hused
      refine (ends_releaseSlot h₂ hb (hv.swapped.lt s hused)).returns ?_
      intro _ m₃ h₃
      exact ends_unpin_disown h₃ hfree hi (givesUp_unstash hv hi hf hs hdue) rfl (l := .release) hloud
        (.discard hi hf hs)
    | none =>
      have hsame' : v.setPage i { v.page i with slot := none } = v := by
        rw [← hs, View.setPage, Function.update_eq_self]
      rw [hsame'] at h₂
      exact ends_unpin_disown h₂ hfree hi (givesUp_of_away hv.owned hi hf hdue) rfl (l := .forget) trivial
        (.forget hi hf hs)

/-! ### Releasing the pages of a mapping -/

omit [FileSystem φ] in
theorem declared_erase (h : m.Shows v held) (hdeclared : v.declared = v.own) :
    Function.update v.declared p (((m.process p).declared.erase u)[·]?) =
      setAt v.own p u none := by
  have hp : v.own p = ((m.process p).declared[·]?) := by
    rw [← hdeclared, h.declared]
    rfl
  rw [hdeclared, setAt, hp]
  congr 1
  funext w
  rw [Std.ExtTreeMap.getElem?_erase, Function.update_apply]
  simp only [Nat.compare_eq_eq]
  rcases eq_or_ne u w with hw | hw
  · rw [if_pos hw, if_pos hw.symm]
  · rw [if_neg hw, if_neg (Ne.symm hw)]

/-- What the release of pages comes to. -/
structure Releases (loud : Prop) (v : View φ) (p : ProcId) (us : List Nat) (v' : View φ) : Prop where
  path : Path (Label.releasing loud) v v'
  gives : v.GivesUp p us v'
  declared : v'.declared = v'.own

theorem ends_releasePage (h : m.Shows v held) (hv : v.Sound) (hdeclared : v.declared = v.own)
    (hu : Maps v p [u]) (hloud : ∀ i, v.own p u = some i → (v.page i).frame.isSome = true → loud)
    (hwait : held.Nonempty → ∀ e m', E e m') :
    Ends (releasePage p u) m (fun _ m' => ∃ v', m'.Shows v' held ∧ Releases loud v p [u] v' ∧
      v.Guards held v') E := by
  obtain ⟨i, r, hi, hr⟩ := hu u (List.mem_singleton.2 rfl)
  have hd : (m.process p).declared[u]? = some i := by
    have hown := congrFun (congrFun h.declared p) u
    rw [hdeclared, hi] at hown
    exact hown.symm
  simp only [releasePage, forget, ends_bind, ends_process, ends_modifyProcess, ends_pure, hd]
  have h₁ := h.setDeclared (p := p) (h.lt_of_live (hv.owned.live hi)) (·.erase u)
  have heffect : Effect .unlist v (v.setDeclared p (((m.process p).declared.erase u)[·]?)) :=
    .unlist _
  refine (ends_dismiss h₁ (heffect.sound hv) hi hr (hloud i hi) hwait).returns ?_
  rintro _ m₂ ⟨v', h₂, hyields⟩
  have hown' : v'.own = setAt v.own p u none := by
    funext q w
    rw [hyields.gives.own, setAt_apply]
    simp
  refine ⟨v', h₂, ⟨(Path.single (l := .unlist) trivial heffect).trans hyields.path,
    ⟨hyields.gives.of_setDeclared, hyields.gives.mappings, hyields.gives.exited⟩, ?_⟩,
    (View.Guards.setDeclared held v p _).trans hyields.guards⟩
  rw [hyields.declared, hown', View.setDeclared_declared]
  exact declared_erase h hdeclared

/-- The pages of a list are released one after the other. -/
theorem ends_releasePages (hwait : held.Nonempty → ∀ e m', E e m') :
    ∀ (us : List Nat) {m : Machine φ} {v : View φ}, m.Shows v held → v.Sound →
      v.declared = v.own → Maps v p us → us.Nodup →
      (∀ u ∈ us, ∀ i, v.own p u = some i → (v.page i).frame.isSome = true → loud) →
      Ends (us.forM (releasePage p)) m (fun _ m' => ∃ v', m'.Shows v' held ∧ Releases loud v p us v' ∧
        v.Guards held v') E
  | [], m, v, h, _, hdeclared, _, _, _ => ⟨v, h, ⟨Path.refl _ _, .nil v p, hdeclared⟩, .refl _ _⟩
  | u :: us, m, v, h, hv, hdeclared, hmaps, hnodup, hloud => by
    rw [List.forM_eq_forM, List.forM_cons, ends_bind]
    obtain ⟨hu, hnodup⟩ := List.nodup_cons.1 hnodup
    refine (ends_releasePage h hv hdeclared (fun w hw => ?_) (hloud u List.mem_cons_self)
      hwait).returns fun _ m₁ ⟨v₁, h₁, hfirst, hguards⟩ => ?_
    · obtain rfl := List.mem_singleton.1 hw
      exact hmaps w List.mem_cons_self
    · -- the other pages are where they were
      have hkeep : ∀ w ∈ us, v₁.own p w = v.own p w := fun w hw => by
        rw [hfirst.gives.own, if_neg]
        rintro ⟨-, hwu⟩
        obtain rfl := List.mem_singleton.1 hwu
        exact hu hw
      have hmaps₁ : Maps v₁ p us := fun w hw => by
        obtain ⟨i, r, hi, hr⟩ := hmaps w (List.mem_cons_of_mem u hw)
        have hi₁ := (hkeep w hw).trans hi
        exact ⟨i, r, hi₁, by rw [hfirst.gives.page hi₁, hr]⟩
      refine (ends_releasePages hwait us h₁ (hfirst.path.sound hv) hfirst.declared hmaps₁ hnodup
        fun w hw i hi hframe => ?_).returns fun _ m₂ ⟨v₂, h₂, hrest, hguards'⟩ => ?_
      · rw [hfirst.gives.page hi] at hframe
        exact hloud w (List.mem_cons_of_mem u hw) i ((hkeep w hw).symm.trans hi) hframe
      · refine ⟨v₂, h₂, ⟨hfirst.path.trans hrest.path, hfirst.gives.trans hrest.gives ?_, hrest.declared⟩,
          hguards.trans hguards'⟩
        exact List.singleton_disjoint.2 hu

theorem ends_releaseMapping (loud : Prop) (h : m.Shows v held) (hv : v.Sound) (hdeclared : v.declared = v.own)
    {mp : Mapping} (hmaps : Maps v p mp.pages.toList) (hnodup : mp.pages.toList.Nodup)
    (hloud : ∀ u ∈ mp.pages.toList, ∀ i, v.own p u = some i →
      (v.page i).frame.isSome = true → loud) (hwait : held.Nonempty → ∀ e m', E e m') :
    Ends (releaseMapping p mp) m (fun _ m' => ∃ v', m'.Shows v' held ∧
      Releases loud v p mp.pages.toList v' ∧ v.Guards held v') E := by
  rw [releaseMapping, ends_bind]
  refine (ends_releasePages hwait _ h hv hdeclared hmaps hnodup hloud).returns ?_
  rintro _ m₁ ⟨v₁, h₁, hreleased, hguards⟩
  refine (ends_closeFile h₁ mp.file).returns ?_
  intro _ m₂ h₂
  exact ⟨_, h₂, ⟨hreleased.path.trans (Path.single (l := .consult) trivial
    (.consult (.close mp.file))), ⟨hreleased.gives.consult (.close mp.file), hreleased.gives.mappings,
      hreleased.gives.exited⟩, hreleased.declared⟩, hguards.trans (.of_eq rfl rfl rfl rfl rfl)⟩

end Kernel

end DemandPaging
