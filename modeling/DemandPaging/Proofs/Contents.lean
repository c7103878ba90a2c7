import DemandPaging.Proofs.Image
import DemandPaging.Proofs.Mapping

/-!
# How contents move

An effect other than a store moves the contents of at most one page, its subject. An evicted page
keeps its image but for what it drops, a page that comes in keeps all of it, and a declared page shows
what it is declared with. All other pages are left alone.
-/

namespace DemandPaging

variable {φ : Type} [FileSystem φ] {H : Honest φ} {l : Label} {v v' : View φ} {p q : ProcId}
  {u w : Nat} {i j : PageId} {r : Region} {o : Nat}

open View

namespace View

/-- What has been dropped reads as zero. -/
theorem image_of_drops (hs : (v.page i).Sourced) (hf : (v.page i).frame = none)
    (hd : (v.page i).drops o = true) : v.image H i o = 0 := by
  obtain ⟨r, hr, ho⟩ := Page.drops_iff.1 hd
  have hslot : (v.page i).slot = none := by
    have hk : (v.page i).keeping ≠ .swap := by simp [Page.keeping, hr]
    exact (if_neg hk).mp hs
  rw [image_of_file hf hslot, Honest.first, hr]
  exact if_neg (Nat.not_lt.2 ho)

/-- A page that is neither in memory nor dirty agrees with its file. -/
theorem Filed.of_away (hf : (v.page j).frame = none) (hd : v.dirty q w = false)
    (hk : ∀ r, (v.page j).backing.region? = some r → H.known v.files r.file = true) :
    v.Filed H q w j := by
  refine ⟨hk, fun hd' => by simp [hd] at hd', fun _ _ hf' => ?_, fun _ _ hf' => ?_⟩
  all_goals simp [hf] at hf'

end View

namespace Effect

theorem grow_eq (he : Effect (.grow i) v v') : i = v.next := by
  cases he
  rfl

/-! ### Files -/

/-- The handles lead to where they did. -/
theorem handles (he : Effect l v v') (hb : v.Backed H) : H.Same v.files v'.files := by
  have hwrite : ∀ {p u i b r}, v.own p u = some i → (v.page i).backing.region? = some r →
      H.Same v.files (v.writeBack r b).files := by
    intro p u i b r hi hr h hk
    exact H.kept ((hb hi).known r hr) hk _ _
  cases he with
  | writeOut own frame holds disposal region => exact hwrite own region
  | flush own frame holds backing => exact hwrite own (by rw [backing]; rfl)
  | readIn => exact fun h hk => H.consulted (.read _ _ _) hk
  | consult consulted => exact fun h hk => H.consulted consulted hk
  | _ => exact fun h hk => ⟨hk, rfl⟩

/-- The pages stay apart unless one is declared. -/
theorem apart (he : Effect l v v') (hl : ∀ i, l ≠ .declare i) (hv : v.Sound) (hb : v.Backed H)
    (ha : v.Apart H) : v'.Apart H := by
  have hsame := he.handles hb
  have hregion : ∀ {q w j r}, v'.own q w = some j → (v'.page j).backing.region? = some r →
      v.own q w = some j ∧ (v.page j).backing.region? = some r := by
    intro q w j r hj hr
    rcases he.own_cases hj with hold | ⟨hnew, hdeclare | hgrow⟩
    · exact ⟨hold, by rw [← (he.same (hv.owned.lt hold)).backing, hr]⟩
    · exact absurd hdeclare (hl j)
    · -- a stack page has no region
      subst hgrow
      cases he with
      | grow vacant free =>
        rw [occupy_page, Function.update_self, claim_page, Function.update_self] at hr
        simp [Page.declared, Backing.region?] at hr
  intro p q u w i j r r' hi hj hne hr hr' hmeets
  obtain ⟨hi, hir⟩ := hregion hi (Page.region?_of_target? hr)
  obtain ⟨hj, hjr⟩ := hregion hj hr'
  have hpage := he.same (hv.owned.lt hi)
  have htarget : (v.page i).target? = some r := by
    rw [← hr, Page.target?, Page.target?, hpage.backing, hpage.writable]
  refine ha hi hj hne htarget hjr ⟨?_, hmeets.2⟩
  rw [← (hsame _ ((hb hi).known r hir)).2, ← (hsame _ ((hb hj).known r' hjr)).2, hmeets.1]

/-! ### The other pages -/

/-- An effect other than a store leaves all pages alone but its subject. -/
theorem untouched (he : Effect l v v') (hl : l ≠ .store) (hv : v.Sound) (hb : v.Backed H)
    (ha : v.Apart H) (hj : v.own q w = some j) (hj' : v'.own q w = some j)
    (hne : l.subject ≠ some j) : v.Untouched H v' q w j := by
  have hkeeps := he.retains hl hv hj hj' hne
  cases he with
  | writeOut own frame holds disposal region =>
    obtain ⟨htarget, -⟩ := Page.target?_of_writtenBack disposal (hb own).rights region
    refine hkeeps.untouched_of_writeBack hb ha own htarget hj ?_ rfl
    rintro rfl
    exact hne rfl
  | flush own frame holds backing =>
    refine hkeeps.untouched_of_writeBack hb ha own (Page.target?_of_mapped backing) hj ?_ rfl
    rintro rfl
    exact (own_of_disown hj').2 (hv.owned.eq_of_own hj own)
  | readIn => exact hkeeps.untouched_of_consulted (.read _ _ _) (hb hj)
  | consult consulted => exact hkeeps.untouched_of_consulted consulted (hb hj)
  | _ => exact hkeeps.untouched rfl

/-! ### The subject -/

/-- A page that is evicted keeps its image, but for what it drops. -/
theorem evicted (he : Effect (.evict i) v v') (hv : v.Sound) (hb : v.Backed H)
    (hi : v.own q w = some i) : (v'.page i).frame = none ∧ v'.dirty q w = false ∧
      ∀ o < pageSize, (v.page i).drops o = false → v'.image H i o = v.image H i o := by
  have hslot : ∀ {f}, (v.page i).frame = some f → (v.page i).slot = none := fun hf =>
    (hv.sourced _ _ _ hi).slot_eq_none (by rw [hf]; rfl)
  cases he with
  | @swapOut _ p u _ f b s own frame holds disposal lt free =>
    obtain ⟨rfl, rfl⟩ := hv.owned.eq_of_own hi own
    have hpage : ((v.stash i s b).vacate q w i f).page i =
        { v.page i with slot := some s, anonymous := (v.page i).anonymousOnceSwapped, frame := none } := by
      rw [vacate_page, Function.update_self, stash_page, Function.update_self]
    refine ⟨by rw [hpage], by rw [vacate_dirty, setAt_self], fun o _ _ => ?_⟩
    rw [image_of_frame frame holds, image_of_slot (b := b) (by rw [hpage]) (by rw [hpage])]
    rw [vacate_slot, stash_slot, Function.update_self]
  | @writeOut _ p u _ f b r own frame holds disposal region =>
    obtain ⟨rfl, rfl⟩ := hv.owned.eq_of_own hi own
    have hpage : ((v.writeBack r b).vacate q w i f).page i = { v.page i with frame := none } := by
      rw [vacate_page, Function.update_self, writeBack_page]
    refine ⟨by rw [hpage], by rw [vacate_dirty, setAt_self], fun o ho hdrops => ?_⟩
    have hfits := hv.owned.fits own region
    have hin := (hb own).inside r f frame (Page.disposal_eq_writtenBack_iff.1 disposal).2.1 region
    have hlen : (b.slice 0 r.readLen).length = r.readLen := by
      rw [Bytes.length_slice]
      omega
    -- all that is not dropped lies in the region
    have hlt : o < r.readLen := by
      rcases (Page.target?_of_writtenBack disposal (hb own).rights region).2 with hmapped | hzero
      · by_contra hle
        simp [Page.drops_iff.2 ⟨r, hmapped, Nat.not_lt.1 hle⟩] at hdrops
      · omega
    rw [image_of_frame frame holds, image_of_file (by rw [hpage]) (by rw [hpage]; exact hslot frame)]
    rw [vacate_files, writeBack_files, hpage, Honest.first, region, Option.elim_some,
      H.byte_writeAt_self ((hb own).known r region) hin hlen, if_pos hlt, Bytes.getElem?_slice,
      if_pos hlt, Nat.zero_add, Bytes.byte]
  | @drop _ p u _ f own frame disposal =>
    obtain ⟨rfl, rfl⟩ := hv.owned.eq_of_own hi own
    have hpage : (v.vacate q w i f).page i = { v.page i with frame := none } := by
      rw [vacate_page, Function.update_self]
    refine ⟨by rw [hpage], by rw [vacate_dirty, setAt_self], fun o ho _ => ?_⟩
    obtain ⟨b, hcell⟩ := hv.housed.exists_cell own frame
    obtain ⟨hclean, hkeeping⟩ := Page.disposal_eq_dropped_iff.1 disposal
    rw [image_of_frame frame hcell, image_of_file (by rw [hpage]) (by rw [hpage]; exact hslot frame)]
    rw [(hb own).clean f b frame hkeeping hclean hcell o ho, hpage]
    rfl

/-- A page that comes in holds what it held before, and agrees with its file. -/
theorem arrived (he : Effect (.arrive i) v v') (hv : v.Sound) (hb : v.Backed H)
    (hi : v.own q w = some i) : (v.page i).frame = none ∧ v'.Filed H q w i ∧
      ∀ o < pageSize, v'.image H i o = v.image H i o := by
  have hsame := he.handles hb
  have hknown : ∀ r, (v'.page i).backing.region? = some r → H.known v'.files r.file = true := by
    intro r hr
    rw [(he.same (hv.owned.lt hi)).backing] at hr
    exact (hsame _ ((hb hi).known r hr)).1
  cases he with
  | @swapIn _ p u _ f b s own away slot holds free =>
    obtain ⟨rfl, rfl⟩ := hv.owned.eq_of_own hi own
    have hpage : ((v.unstash i s).occupy q w i f b).page i =
        { v.page i with frame := some f, slot := none } := by
      rw [occupy_page, Function.update_self, unstash_page, Function.update_self]
    -- only pages that are kept in swap space come in from there
    have hkeep : (((v.unstash i s).occupy q w i f b).page i).keeping = .swap := by
      rw [hpage]
      have hsourced := hv.sourced _ _ _ own
      by_contra hk
      have hnone : (v.page i).slot = none := (if_neg hk).mp hsourced
      rw [slot] at hnone
      simp at hnone
    have hclean : ((v.unstash i s).occupy q w i f b).dirty q w = false := by
      rw [occupy_dirty, setAt_self]
    refine ⟨away, ⟨hknown, fun hd => ?_, fun _ _ _ hk => absurd hkeep hk,
      fun _ _ _ hk => absurd hkeep hk⟩, fun o _ => ?_⟩
    · rw [hclean] at hd
      simp at hd
    · rw [image_of_slot away slot holds, image_of_frame (f := f) (b := b) (by rw [hpage])]
      rw [occupy_cell, Function.update_self]
  | @readIn _ p u _ f r own away slot region count free =>
    obtain ⟨rfl, rfl⟩ := hv.owned.eq_of_own hi own
    have hk := (hb own).known r region
    have hpage : ∀ c, ((v.setFiles (FileSystem.readAt v.files r.file r.offset r.readLen).2).occupy
        q w i f c).page i = { v.page i with frame := some f, slot := none } := by
      intro c
      rw [occupy_page, Function.update_self, setFiles_page]
    have hfirst : ∀ o, H.first (FileSystem.readAt v.files r.file r.offset r.readLen).2 (v.page i) o =
        H.first v.files (v.page i) o := by
      intro o
      rw [Honest.first, Honest.first, region, Option.elim_some, Option.elim_some,
        H.byte_consulted (.read _ _ _) hk]
    have hbyte : ∀ o < pageSize, Bytes.byte ((Bytes.zero pageSize).overlay 0
        ((FileSystem.readAt v.files r.file r.offset r.readLen).1.data.take r.readLen)) o =
          H.first v.files (v.page i) o := by
      intro o ho
      rw [Bytes.byte, H.byte_overlay_read hk count ho, Option.getD_some, Honest.first, region,
        Option.elim_some]
    refine ⟨away, ⟨hknown, fun hd => ?_, fun r' f' _ _ hr' => ?_, fun f' b' hf' _ _ hb' o ho => ?_⟩,
      fun o ho => ?_⟩
    · rw [occupy_dirty, setAt_self] at hd
      simp at hd
    · rw [hpage, region, Option.some.injEq] at hr'
      subst hr'
      rw [Honest.Inside, occupy_files, setFiles_files, H.data_consulted (.read _ _ _) hk]
      exact H.inside_of_count hk count
    · rw [hpage, Option.some.injEq] at hf'
      subst hf'
      rw [occupy_cell, Function.update_self, Option.some.injEq] at hb'
      subst hb'
      rw [hbyte o ho, hpage]
      exact (hfirst o).symm
    · rw [image_of_file away slot, ← hbyte o ho]
      refine image_of_frame (f := f) (by rw [hpage]) ?_
      rw [occupy_cell, Function.update_self]

/-- A new page of the stack is zero. -/
theorem grown (he : Effect (.grow i) v v') (hv : v.Sound) (hi : v'.own q w = some i) :
    (v'.page i).backing = .swap ∧ v'.dirty q w = false ∧ ∀ o, v'.image H i o = 0 := by
  cases he with
  | @grow _ p u f vacant free =>
    have hpage : ((v.claim p u (.declared u true .swap)).occupy p u v.next f (.zero pageSize)).page v.next =
        { Page.declared u true .swap with frame := some f } := by
      rw [occupy_page, Function.update_self, claim_page, Function.update_self]
      rfl
    have hat : q = p ∧ w = u := by
      rw [occupy_own, claim_own, setAt_apply] at hi
      split at hi
      · assumption
      · exact absurd (hv.owned.lt hi) (Nat.lt_irrefl _)
    refine ⟨by rw [hpage]; rfl, by rw [hat.1, hat.2, occupy_dirty, setAt_self], fun o => ?_⟩
    rw [image_of_frame (f := f) (b := .zero pageSize) (by rw [hpage]), Bytes.byte, Bytes.getElem?_zero]
    · split <;> rfl
    · rw [occupy_cell, Function.update_self]

/-- All pages stay in agreement with their files. -/
theorem backed (he : Effect l v v') (hl : l ≠ .store) (hd : ∀ i, l ≠ .declare i) (hv : v.Sound)
    (hb : v.Backed H) (ha : v.Apart H) : v'.Backed H := by
  have hsame := he.handles hb
  intro q w j hj'
  have hold := he.own_cases hj'
  rcases eq_or_ne l.subject (some j) with hs | hs
  · have hk : v.own q w = some j → ∀ r, (v'.page j).backing.region? = some r →
        H.known v'.files r.file = true := by
      intro hj r hr
      rw [(he.same (hv.owned.lt hj)).backing] at hr
      exact (hsame _ ((hb hj).known r hr)).1
    cases l with
    | declare i => exact absurd rfl (hd i)
    | grow i =>
      obtain rfl := Option.some.inj hs
      obtain ⟨hback, hd, -⟩ := he.grown (H := H) hv hj'
      have hregion : (v'.page i).backing.region? = none := by rw [hback]; rfl
      have hkeep : (v'.page i).keeping = .swap := by rw [Page.keeping, hback]
      exact ⟨fun r hr => by simp [hregion] at hr, fun hd' => by simp [hd] at hd',
        fun _ _ _ hk => absurd hkeep hk, fun _ _ _ hk => absurd hkeep hk⟩
    | evict i =>
      obtain rfl := Option.some.inj hs
      have hj : v.own q w = some i := by simpa using hold
      obtain ⟨hf, hd, -⟩ := he.evicted hv hb hj
      exact .of_away hf hd (hk hj)
    | arrive i =>
      obtain rfl := Option.some.inj hs
      have hj : v.own q w = some i := by simpa using hold
      exact (he.arrived hv hb hj).2.1
    | _ => simp [Label.subject] at hs
  · have hj : v.own q w = some j := by
      rcases hold with hj | ⟨-, rfl | rfl⟩
      · exact hj
      · exact absurd rfl hs
      · exact absurd rfl hs
    exact (he.untouched hl hv hb ha hj hj' hs).filed hsame (hb hj)

end Effect

/-! ### Stores -/

theorem pageBase_add_of_aligned (hw : isAligned w = true) (ho : o < pageSize) :
    pageBase (w + o) = w := by
  simp only [isAligned, beq_iff_eq, pageOffset, pageBase, pageSize] at *
  omega

theorem pageOffset_add_of_aligned (hw : isAligned w = true) (ho : o < pageSize) :
    pageOffset (w + o) = o := by
  simp only [isAligned, beq_iff_eq, pageOffset, pageSize] at *
  omega

namespace View.Stores

variable {a : Nat} {data : List UInt8} {cell : Nat → Option PageBytes} {dirty : ProcId → Nat → Bool}

omit [FileSystem φ] in
/-- A byte that is stored lies in a page that is in memory and may be written to. -/
theorem exists_frame (h : v.Stores p a data cell dirty) (hv : v.Sound) (hi : v.own p w = some i)
    {k : Nat} (hk : k < data.length) (hw : pageBase (a + k) = w) :
    ∃ f, (v.page i).frame = some f ∧ (v.page i).writable = true := by
  obtain ⟨r, f, hmap, hr⟩ := h.mapped k hk
  rw [hw] at hmap
  obtain ⟨j, hj, hf, hrights⟩ := hv.housed.mapping?_eq_some hmap
  obtain rfl := Option.some.inj (hi.symm.trans hj)
  refine ⟨f, hf, ?_⟩
  simp only at hrights
  rw [hrights] at hr
  exact hr

omit [FileSystem φ] in
/-- The stored bytes are in the frames of the pages that they have been stored to, and no other byte
has changed. -/
theorem byte (h : v.Stores p a data cell dirty) (hv : v.Sound) (hi : v.own q w = some i)
    (hf : (v.page i).frame = some f) (hb : v.cell f.cell = some b) : ∃ b', cell f.cell = some b' ∧
      ∀ o < pageSize, b'.byte o =
        if q = p ∧ a ≤ w + o ∧ w + o < a + data.length then data[w + o - a]?.getD 0 else b.byte o := by
  rcases eq_or_ne q p with rfl | hq
  · obtain ⟨b', hb', hbytes⟩ := h.bytes w _ f b (hv.housed.mapping?_of_frame hi hf) hb
    refine ⟨b', hb', fun o ho => ?_⟩
    rw [Bytes.byte, hbytes o ho]
    simp only [true_and]
    split
    · rfl
    · rfl
  · -- the frame is not mapped by the process that stores
    refine ⟨b, ?_, fun o _ => by rw [if_neg fun hc => hq hc.1]⟩
    rw [← hb]
    refine h.other f.cell fun x r g hx hc => hq ?_
    obtain ⟨j, hj, hg, -⟩ := hv.housed.mapping?_eq_some hx
    have he := hv.housed.eq_of_cell (hv.housed.mem_tenants hi hf) (hv.housed.mem_tenants hj hg) hc.symm
    rw [Tenancy.mk.injEq] at he
    exact he.2.1

omit [FileSystem φ] in
/-- A page that is clean afterwards has not been stored to, and was clean before. -/
theorem of_clean (h : v.Stores p a data cell dirty) (hv : v.Sound) (hi : v.own q w = some i)
    (hd : dirty q w = false) : v.dirty q w = false ∧
      ∀ o < pageSize, ¬ (q = p ∧ a ≤ w + o ∧ w + o < a + data.length) := by
  have hno : ¬ (v.dirty q w = true ∨ q = p ∧ ∃ j < data.length, pageBase (a + j) = w) := by
    rw [← h.dirty, hd]
    simp
  rw [not_or, Bool.not_eq_true] at hno
  refine ⟨hno.1, fun o ho hc => hno.2 ⟨hc.1, w + o - a, by omega, ?_⟩⟩
  rw [Nat.add_sub_cancel' hc.2.1, pageBase_add_of_aligned (hv.owned.aligned hi) ho]

/-- The stored bytes are found where they have been stored, and no other byte has changed. -/
theorem image (h : v.Stores p a data cell dirty) (hv : v.Sound) (hi : v.own q w = some i)
    (ho : o < pageSize) :
    View.image H { v with cell, dirty } i o =
      if q = p ∧ a ≤ w + o ∧ w + o < a + data.length then data[w + o - a]?.getD 0
      else v.image H i o := by
  have hbase : pageBase (w + o) = w := pageBase_add_of_aligned (hv.owned.aligned hi) ho
  cases hf : (v.page i).frame with
  | some f =>
    obtain ⟨b, hb⟩ := hv.housed.exists_cell hi hf
    obtain ⟨b', hb', hbytes⟩ := h.byte hv hi hf hb
    rw [image_of_frame hf hb, image_of_frame (v := { v with cell, dirty }) hf hb', hbytes o ho]
  | none =>
    rw [if_neg]
    · unfold View.image
      simp only [hf]
      cases (v.page i).slot <;> rfl
    · rintro ⟨rfl, hlo, hhi⟩
      obtain ⟨f, hf', -⟩ := h.exists_frame hv hi (k := w + o - a) (by omega) (by
        rw [Nat.add_sub_cancel' hlo, hbase])
      rw [hf] at hf'
      simp at hf'

theorem backed (h : v.Stores p a data cell dirty) (hv : v.Sound) (hb : v.Backed H) :
    View.Backed H { v with cell, dirty } := by
  intro q w i hi
  have hi' : v.own q w = some i := hi
  refine ⟨(hb hi').known, fun hd => ?_, (hb hi').inside, fun f b hf hk hd hc o ho => ?_⟩
  · rcases (h.dirty q w).1 hd with hd | ⟨rfl, k, hk, hw⟩
    · exact (hb hi').rights hd
    · exact (h.exists_frame hv hi' hk hw).choose_spec.2
  · obtain ⟨hd', hout⟩ := h.of_clean hv hi' hd
    obtain ⟨b', hb'⟩ := hv.housed.exists_cell hi' hf
    have himage := h.image (H := H) hv hi' ho
    rw [image_of_frame (v := { v with cell, dirty }) hf hc, if_neg (hout o ho),
      image_of_frame (v := v) hf hb', (hb hi').clean f b' hf hk hd' hb' o ho] at himage
    exact himage

end View.Stores

end DemandPaging
