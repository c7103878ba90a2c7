import DemandPaging.Proofs.Release

/-!
# Mapping files, and the end of a process

The pages of a mapping are all declared, all of mapped files, and listed once; two mappings of a
process share none. `Charted` says so. It makes the release of a mapping safe, and mapping and
unmapping files keep it.

A mapping that cannot be made whole is taken back: the pages that it has declared are not in memory
yet, so that nothing but forgetting them is left to do.
-/

namespace DemandPaging

/-- The pages that mapping `id` lists, if it is live. -/
def MapTable.pagesOf (t : MapTable) (id : Nat) : List Nat :=
  match t.live[id]? with
  | some mp => mp.pages.toList
  | none => []

/-- The effects of mapping a file. -/
def Label.mapping : Label → Prop
  | .declare _ | .unlist | .forget | .consult | .remap => True
  | _ => False

/-- The effects that take neither a page nor a mapping from a process. -/
def Label.lasting : Label → Prop
  | .forget | .release | .remap => False
  | _ => True

/-- The effects that may write to files. -/
def Label.writing : Label → Prop
  | .evict _ | .release => True
  | _ => False

/-- The effects between the start and the end of a process. -/
def Label.ongoing : Label → Prop
  | .exit | .spawn => False
  | _ => True

namespace View

variable {φ : Type} {v v' : View φ} {p q : ProcId} {u : Nat} {us : List Nat} {i : PageId}

/-- The pages that the live mappings list are declared pages of mapped files, each listed once. -/
structure Charted (v : View φ) : Prop where
  maps : ∀ {p} {k : Nat} {mp : Mapping}, (v.mappings p).live[k]? = some mp → v.Maps p mp.pages.toList
  nodup : ∀ {p} {k : Nat} {mp : Mapping}, (v.mappings p).live[k]? = some mp → mp.pages.toList.Nodup
  disjoint : ∀ {p} {k l : Nat} {mp mq : Mapping}, (v.mappings p).live[k]? = some mp →
    (v.mappings p).live[l]? = some mq → k ≠ l → mp.pages.toList.Disjoint mq.pages.toList
  fresh : ∀ {p} {k : Nat} {mp : Mapping}, (v.mappings p).live[k]? = some mp → k < (v.mappings p).nextId

/-- Every page of a mapped file is listed by a live mapping of its process, and uses its handle. -/
def Listed (v : View φ) : Prop :=
  ∀ p u i r, v.own p u = some i → (v.page i).backing = .mapped r →
    ∃ (k : Nat) (mp : Mapping), (v.mappings p).live[k]? = some mp ∧ u ∈ mp.pages.toList ∧ mp.file = r.file

/-- The pages of mapped files stay listed while no new ones are declared. -/
theorem Listed.congr (h : v.Listed) (hmappings : v'.mappings = v.mappings)
    (hold : ∀ {p u i r}, v'.own p u = some i → (v'.page i).backing = .mapped r →
      v.own p u = some i ∧ (v.page i).backing = .mapped r) : v'.Listed := by
  intro p u i r hi hr
  rw [hmappings]
  exact h p u i r (hold hi hr).1 (hold hi hr).2

/-- After process `p` has given up its pages at `us`, the other pages are listed by the mappings that
are left. -/
theorem Listed.of_givesUp [FileSystem φ] (h : v.Listed) (hgives : v.GivesUp p us v') {t : MapTable}
    (ht : ∀ (k : Nat) (mp : Mapping), (v.mappings p).live[k]? = some mp →
      t.live[k]? = some mp ∨ ∀ u ∈ mp.pages.toList, u ∈ us) :
    (v'.setMappings p t).Listed := by
  intro q u i r hi hr
  rw [setMappings_own, hgives.own] at hi
  rw [setMappings_page, hgives.page (by rw [hgives.own]; exact hi)] at hr
  split at hi
  · simp at hi
  rename_i hleft
  obtain ⟨k, mp, hk, hu⟩ := h q u i r hi hr
  rw [setMappings_mappings, Function.update_apply]
  split
  · rename_i hq
    subst hq
    rcases ht k mp hk with hk | hall
    · exact ⟨k, mp, hk, hu⟩
    · exact absurd ⟨rfl, hall u hu.1⟩ hleft
  · rw [hgives.mappings]
    exact ⟨k, mp, hk, hu⟩

/-- The pages of all mappings of a process are pages of mapped files, and none is listed twice. -/
theorem Charted.pages (h : v.Charted) (p : ProcId) :
    v.Maps p ((v.mappings p).live.toList.flatMap fun x => x.2.pages.toList) ∧
      ((v.mappings p).live.toList.flatMap fun x => x.2.pages.toList).Nodup := by
  have hget : ∀ x ∈ (v.mappings p).live.toList, (v.mappings p).live[x.1]? = some x.2 := fun x hx =>
    Std.ExtTreeMap.mem_toList_iff_getElem?_eq_some.1 hx
  refine ⟨fun u hu => ?_, List.nodup_flatMap.2 ⟨fun x hx => h.nodup (hget x hx), ?_⟩⟩
  · obtain ⟨x, hx, hu⟩ := List.mem_flatMap.1 hu
    exact h.maps (hget x hx) u hu
  · refine List.Pairwise.imp_of_mem ?_ (Std.ExtTreeMap.distinct_keys_toList (t := (v.mappings p).live))
    intro x y hx hy hne
    exact h.disjoint (hget x hx) (hget y hy) (by simpa using hne)

/-- The mappings stay charted while the processes keep their pages of mapped files. -/
theorem Charted.congr (h : v.Charted) (hmappings : v'.mappings = v.mappings)
    (hkeep : ∀ {p u i r}, v.own p u = some i → (v.page i).backing = .mapped r →
      v'.own p u = some i ∧ (v'.page i).backing = .mapped r) : v'.Charted where
  maps hk u hu := by
    rw [hmappings] at hk
    obtain ⟨i, r, hi, hr⟩ := h.maps hk u hu
    exact ⟨i, r, hkeep hi hr⟩
  nodup hk := h.nodup (by rwa [hmappings] at hk)
  disjoint hk hl hne := by
    rw [hmappings] at hk hl
    exact h.disjoint hk hl hne
  fresh hk := by
    rw [hmappings] at hk ⊢
    exact h.fresh hk

/-- After process `p` has given up its pages at `us`, the mappings are charted that list none of
them. -/
theorem Charted.of_givesUp [FileSystem φ] (h : v.Charted) (hgives : v.GivesUp p us v') {t : MapTable}
    (hnext : t.nextId = (v.mappings p).nextId)
    (ht : ∀ (k : Nat) (mp : Mapping), t.live[k]? = some mp →
      (v.mappings p).live[k]? = some mp ∧ mp.pages.toList.Disjoint us) :
    (v'.setMappings p t).Charted := by
  -- a mapping that is left was there before, and its pages are not among those given up
  have hold : ∀ {q} {k : Nat} {mp : Mapping}, ((v'.setMappings p t).mappings q).live[k]? = some mp →
      (v.mappings q).live[k]? = some mp ∧ (q = p → mp.pages.toList.Disjoint us) := by
    intro q k mp hk
    rw [setMappings_mappings, Function.update_apply] at hk
    split at hk
    · rename_i hqp
      obtain ⟨hk, hdisjoint⟩ := ht k mp hk
      exact ⟨hqp ▸ hk, fun _ => hdisjoint⟩
    · rename_i hqp
      exact ⟨by rwa [hgives.mappings] at hk, fun hq => absurd hq hqp⟩
  refine ⟨fun {q k mp} hk u hu => ?_, fun hk => h.nodup (hold hk).1,
    fun hk hl hne => h.disjoint (hold hk).1 (hold hl).1 hne, fun {q k mp} hk => ?_⟩
  · obtain ⟨hk, hdisjoint⟩ := hold hk
    obtain ⟨i, r, hi, hr⟩ := h.maps hk u hu
    have hi' : v'.own q u = some i := by
      rw [hgives.own, if_neg, hi]
      rintro ⟨hq, hus⟩
      exact hdisjoint hq hu hus
    exact ⟨i, r, hi', by rw [setMappings_page, hgives.page hi', hr]⟩
  · have hlt := h.fresh (hold hk).1
    rw [setMappings_mappings, Function.update_apply]
    split
    · rename_i hqp
      rw [hnext, ← hqp]
      exact hlt
    · rw [hgives.mappings]
      exact hlt

/-- A new mapping whose pages no other mapping lists. -/
theorem Charted.add (h : v.Charted) (mp : Mapping) (hmaps : v.Maps p mp.pages.toList)
    (hnodup : mp.pages.toList.Nodup)
    (hdisjoint : ∀ (k : Nat) (mq : Mapping), (v.mappings p).live[k]? = some mq →
      mp.pages.toList.Disjoint mq.pages.toList) :
    (v.setMappings p ((v.mappings p).add mp)).Charted := by
  have hcases : ∀ {q} {k : Nat} {mq : Mapping}, ((v.setMappings p ((v.mappings p).add mp)).mappings q).live[k]? = some mq →
      (q = p ∧ k = (v.mappings p).nextId ∧ mq = mp) ∨ (v.mappings q).live[k]? = some mq := by
    intro q k mq hk
    rw [setMappings_mappings, Function.update_apply] at hk
    split at hk
    · rename_i hqp
      rw [MapTable.live_add] at hk
      split at hk
      · rename_i hid
        exact .inl ⟨hqp, hid, (Option.some.inj hk).symm⟩
      · exact .inr (hqp ▸ hk)
    · exact .inr hk
  refine ⟨fun hk => ?_, fun hk => ?_, fun hk hl hne => ?_, fun {q k mq} hk => ?_⟩
  · rcases hcases hk with ⟨rfl, -, rfl⟩ | hk
    · exact hmaps
    · exact h.maps hk
  · rcases hcases hk with ⟨-, -, rfl⟩ | hk
    · exact hnodup
    · exact h.nodup hk
  · rcases hcases hk with ⟨rfl, hkid, rfl⟩ | hold <;> rcases hcases hl with ⟨hq, hlid, rfl⟩ | hold'
    · exact absurd (hkid.trans hlid.symm) hne
    · exact hdisjoint _ _ hold'
    · exact (hdisjoint _ _ (hq ▸ hold)).symm
    · exact h.disjoint hold hold' hne
  · rw [setMappings_mappings, Function.update_apply]
    rcases hcases hk with ⟨rfl, rfl, -⟩ | hk
    · rw [if_pos rfl]
      exact Nat.lt_succ_self _
    · have hlt := h.fresh hk
      split
      · rename_i hqp
        rw [← hqp]
        exact Nat.lt_succ_of_lt hlt
      · exact hlt

end View

variable {φ : Type} [FileSystem φ]

open View in
/-- As long as no page is given up and no mapping changes, the mappings stay charted. -/
theorem Effect.charted {l : Label} {v v' : View φ} (he : Effect l v v') (hl : l.lasting)
    (hv : v.Sound) (h : v.Charted) : v'.Charted := by
  have hbacking : ∀ {p u i r}, v.own p u = some i → (v.page i).backing = .mapped r →
      (v'.page i).backing = .mapped r := fun hi hr => by
    rw [(he.same (hv.owned.lt hi)).backing, hr]
  have hclaim : ∀ {p : ProcId} {u : Nat}, v.Vacant p u → v'.own = setAt v.own p u (some v.next) →
      v'.mappings = v.mappings → v'.Charted := by
    intro p u hvacant hown hmappings
    refine h.congr hmappings fun hi hr => ⟨?_, hbacking hi hr⟩
    rw [hown, setAt_of_ne _ _ ?_, hi]
    rintro ⟨rfl, rfl⟩
    simp [hvacant.own] at hi
  cases he with
  | declare vacant region fits => exact hclaim vacant rfl rfl
  | grow vacant free => exact hclaim vacant rfl rfl
  | forget | release | flush | discard | remap => exact hl.elim
  | swapOut | writeOut | drop | swapIn | readIn | unlist | store | consult | exit | spawn =>
    exact h.congr rfl fun hi hr => ⟨hi, hbacking hi hr⟩

namespace View

/-- The pages of files in `v'` were there in `v`. -/
def Retold (v v' : View φ) : Prop :=
  ∀ {q u i r}, v'.own q u = some i → (v'.page i).backing.region? = some r → v.own q u = some i

/-- The mappings are the same, and the pages that files stand behind were there before. -/
structure Backs (v v' : View φ) : Prop where
  mappings : v'.mappings = v.mappings
  old : ∀ {p u i r}, v'.own p u = some i → (v'.page i).backing.region? = some r →
    v.own p u = some i ∧ (v.page i).backing = (v'.page i).backing

omit [FileSystem φ] in
theorem Backs.trans {v v' v'' : View φ} (h : v.Backs v') (h' : v'.Backs v'') : v.Backs v'' where
  mappings := h'.mappings.trans h.mappings
  old hi hr := by
    obtain ⟨hi', hb'⟩ := h'.old hi hr
    obtain ⟨hi, hb⟩ := h.old hi' (hb' ▸ hr)
    exact ⟨hi, hb.trans hb'⟩

omit [FileSystem φ] in
theorem Backs.listed {v v' : View φ} (h : v.Backs v') (hl : v.Listed) : v'.Listed :=
  hl.congr h.mappings fun hi hr => by
    obtain ⟨hi, hb⟩ := h.old hi (by rw [hr]; rfl)
    exact ⟨hi, hb.trans hr⟩

end View

open View in
/-- Unless a page of a file is declared, a page of a file was there before. -/
theorem Effect.own_of_region {l : Label} {v v' : View φ} {q : ProcId} {u : Nat} {i : PageId} {r : Region}
    (he : Effect l v v') (hl : ∀ i, l ≠ .declare i) (hi : v'.own q u = some i)
    (hr : (v'.page i).backing.region? = some r) : v.own q u = some i := by
  cases he with
  | declare => exact absurd rfl (hl _)
  | grow =>
    rw [occupy_own, claim_own, setAt_apply] at hi
    split at hi
    · rw [← Option.some.inj hi, occupy_page, Function.update_self, claim_page,
        Function.update_self] at hr
      simp [Page.declared, Backing.region?] at hr
    · exact hi
  | forget | release | flush | discard => exact (own_of_disown hi).1
  | _ => exact hi

/-- As long as no page is declared or given up and no mapping changes, the pages of files are those that
were there before. -/
theorem Effect.backs {l : Label} {v v' : View φ} (he : Effect l v v') (hl : l.lasting)
    (hd : ∀ i, l ≠ .declare i) (hv : v.Sound) : v.Backs v' where
  mappings := by
    cases he with
    | forget | release | flush | discard | remap => exact hl.elim
    | _ => rfl
  old hi hr := by
    have hold := he.own_of_region hd hi hr
    exact ⟨hold, (he.same (hv.owned.lt hold)).backing.symm⟩

theorem Path.retold {may : Label → Prop} {v v' : View φ} (h : Path may v v')
    (hmay : ∀ l, may l → ∀ i, l ≠ .declare i) (hv : v.Sound) : v.Retold v' := by
  refine (h.keeps (P := fun w => w.Sound ∧ v.Retold w) ⟨hv, fun hi _ => hi⟩ ?_).2
  rintro l w w' hl he ⟨hw, hretold⟩
  refine ⟨he.sound hw, fun hi hr => ?_⟩
  have hold := he.own_of_region (hmay l hl) hi hr
  have hbacking := (he.same (hw.owned.lt hold)).backing
  exact hretold hold (hbacking ▸ hr)

theorem Path.backs {may : Label → Prop} {v v' : View φ} (h : Path may v v')
    (hmay : ∀ l, may l → l.lasting ∧ ∀ i, l ≠ .declare i) (hv : v.Sound) : v.Backs v' :=
  (h.keeps (P := fun w => w.Sound ∧ v.Backs w) ⟨hv, rfl, fun hi _ => ⟨hi, rfl⟩⟩ fun hm he hw =>
    ⟨he.sound hw.1, hw.2.trans (he.backs (hmay _ hm).1 (hmay _ hm).2 hw.1)⟩).2

theorem Path.charted {may : Label → Prop} {v v' : View φ} (h : Path may v v')
    (hmay : ∀ l, may l → l.lasting) (hv : v.Sound) (hc : v.Charted) : v'.Charted :=
  (h.keeps (P := fun w => w.Sound ∧ w.Charted) ⟨hv, hc⟩ fun hl he hw =>
    ⟨he.sound hw.1, he.charted (hmay _ hl) hw.1 hw.2⟩).2

theorem Path.exited {may : Label → Prop} {v v' : View φ} (h : Path may v v')
    (hmay : ∀ l, may l → l.ongoing) : v'.exited = v.exited := by
  refine h.keeps (P := fun w => w.exited = v.exited) rfl ?_
  intro l w w' hl he hw
  have hl := hmay l hl
  cases he with
  | exit | spawn => exact hl.elim
  | _ => exact hw

theorem Path.listed_of_own {may : Label → Prop} {v v' : View φ} (h : Path may v v') (hv : v.Sound)
    (hl : v.Listed) (hmappings : v'.mappings = v.mappings)
    (hown : ∀ {q w i}, v'.own q w = some i → v.own q w = some i) : v'.Listed :=
  hl.congr hmappings fun hi hr =>
    ⟨hown hi, by rw [← (h.same (hv.owned.lt (hown hi))).backing, hr]⟩

theorem file_of_mem_tiles {file : Handle} {len : Nat} {r : Region} (h : r ∈ tiles file len) :
    r.file = file := by
  obtain ⟨i, -, rfl⟩ := List.mem_map.1 h
  rfl

namespace View

variable {v v' : View φ} {p : ProcId} {u : Nat} {us : List Nat} {r : Region}

/-- The new pages show a file through the handle `file`, or through one that has been opened for them
from it. -/
def Adds (v : View φ) (file : Handle) (v' : View φ) : Prop :=
  ∀ q w i r, v'.own q w = some i → v.own q w ≠ some i → (v'.page i).backing.region? = some r →
    v'.files = v.files ∧ r.file = file ∨
      ∃ s, Consulted v.files s ∧ v'.files = (FileSystem.reopen s file).2 ∧
        r.file = (FileSystem.reopen s file).1

theorem Adds.of_own (h : ∀ {q w i}, v'.own q w = some i → v.own q w = some i) (file : Handle) :
    v.Adds file v' := fun _ _ _ _ hi hnew _ => absurd (h hi) hnew

/-- Process `p` has declared new pages of a mapped file at `us`, all with the handle `file`; nothing
else has happened. -/
structure Tiled (v : View φ) (p : ProcId) (file : Handle) (us : List Nat) (v' : View φ) : Prop where
  path : Path (fun l => ∃ i, l = .declare i) v v'
  declared : v'.declared = v'.own
  mappings : v'.mappings = v.mappings
  nodup : us.Nodup
  fresh : ∀ u ∈ us, v.own p u = none
  maps : v'.Maps p us
  away : ∀ u ∈ us, ∀ i, v'.own p u = some i → (v'.page i).frame = none
  files : v'.files = v.files
  added : ∀ {q w i}, v'.own q w = some i → v.own q w = some i ∨
    q = p ∧ w ∈ us ∧ ∃ r, (v'.page i).backing = .mapped r ∧ r.file = file

theorem Tiled.nil (v : View φ) (p : ProcId) (file : Handle) (hdeclared : v.declared = v.own) :
    v.Tiled p file [] v :=
  ⟨Path.refl _ _, hdeclared, rfl, List.nodup_nil, by simp, fun u hu => by simp at hu, by simp, rfl, .inl⟩

/-- Whatever belongs to a process stays its own, and as it is, while pages are declared. -/
theorem own_of_declare (h : Path (fun l => ∃ i, l = .declare i) v v') (hv : v.Sound) {q : ProcId}
    {w : Nat} {i : PageId} (hi : v.own q w = some i) :
    v'.own q w = some i ∧ v'.page i = v.page i := by
  refine (h.keeps (P := fun x => x.Sound ∧ x.own q w = some i ∧ x.page i = v.page i)
    ⟨hv, hi, rfl⟩ ?_).2
  rintro _ w₁ w₂ ⟨j, rfl⟩ he ⟨hsound, hw, hpage⟩
  refine ⟨he.sound hsound, ?_⟩
  cases he with
  | declare vacant region fits =>
    refine ⟨?_, ?_⟩
    · rw [claim_own, setAt_of_ne _ _ ?_, hw]
      rintro ⟨rfl, rfl⟩
      simp [vacant.own] at hw
    · rw [claim_page, Function.update_of_ne (Nat.ne_of_lt (hsound.owned.lt hw)), hpage]

theorem Tiled.snoc (h : v.Tiled p r.file us v') (hv : v.Sound) (hvacant : v'.Vacant p u)
    (hfits : r.readLen + r.zeroLen = pageSize) :
    v.Tiled p r.file (us ++ [u]) (v'.claim p u (.declared u true (.mapped r))) := by
  have hv' := h.path.sound hv
  have heffect : Effect (.declare v'.next) v' (v'.claim p u (.declared u true (.mapped r))) :=
    .declare hvacant rfl hfits
  have hnew : u ∉ us := fun hu => by
    obtain ⟨i, r', hi, -⟩ := h.maps u hu
    simp [hvacant.own] at hi
  -- a page at one of the addresses is an earlier one, or the new one
  have hcases : ∀ {w i}, w ∈ us ++ [u] → (v'.claim p u (.declared u true (.mapped r))).own p w = some i →
      (w ∈ us ∧ v'.own p w = some i ∧ i ≠ v'.next) ∨ (w = u ∧ i = v'.next) := by
    intro w i hw hi
    rw [claim_own, setAt_apply] at hi
    split at hi
    · rename_i hwu
      exact .inr ⟨hwu.2, (Option.some.inj hi).symm⟩
    · rename_i hwu
      have hmem : w ∈ us := by
        rcases List.mem_append.1 hw with hw | hw
        · exact hw
        · exact absurd ⟨rfl, List.mem_singleton.1 hw⟩ hwu
      exact .inl ⟨hmem, hi, Nat.ne_of_lt (hv'.owned.lt hi)⟩
  refine ⟨h.path.trans (Path.single (l := .declare v'.next) ⟨_, rfl⟩ heffect), ?_, h.mappings, ?_,
    fun w hw => ?_, fun w hw => ?_, fun w hw i hi => ?_, h.files, fun {q w i} hi => ?_⟩
  · rw [claim_declared, claim_own, h.declared]
  · exact List.nodup_append.2 ⟨h.nodup, List.nodup_singleton u, fun a ha b hb hab =>
      hnew (by rwa [← List.mem_singleton.1 hb, ← hab])⟩
  · rcases List.mem_append.1 hw with hw | hw
    · exact h.fresh w hw
    · rw [List.mem_singleton.1 hw]
      by_contra hsome
      obtain ⟨i, hi⟩ := Option.ne_none_iff_exists'.1 hsome
      have hsame := (own_of_declare h.path hv hi).1
      simp [hvacant.own] at hsame
  · rcases eq_or_ne w u with hwu | hwu
    · exact ⟨v'.next, r, by rw [claim_own, hwu, setAt_self],
        by rw [claim_page, Function.update_self]; rfl⟩
    · have hmem : w ∈ us := by simpa [hwu] using hw
      obtain ⟨i, r', hi, hr'⟩ := h.maps w hmem
      refine ⟨i, r', ?_, ?_⟩
      · rw [claim_own, setAt_of_ne _ _ fun hc => hwu hc.2, hi]
      · rw [claim_page, Function.update_of_ne (Nat.ne_of_lt (hv'.owned.lt hi)), hr']
  · rcases hcases hw hi with ⟨hmem, hi, hne⟩ | ⟨-, rfl⟩
    · rw [claim_page, Function.update_of_ne hne, h.away w hmem i hi]
    · rw [claim_page, Function.update_self]
      rfl
  · rw [claim_own, setAt_apply] at hi
    split at hi
    · rename_i hat
      rw [← Option.some.inj hi, claim_page, Function.update_self]
      exact .inr ⟨hat.1, by simp [hat.2], r, rfl, rfl⟩
    · rw [claim_page, Function.update_of_ne (Nat.ne_of_lt (hv'.owned.lt hi))]
      rcases h.added hi with hi | ⟨hq, hw, hr⟩
      · exact .inl hi
      · exact .inr ⟨hq, List.mem_append_left _ hw, hr⟩

/-- The new pages are listed by their mapping, the others by the mapping that they were listed by. -/
theorem Tiled.listed {file : Handle} {pages : Array Nat} (h : v.Tiled p file pages.toList v')
    (hv : v.Sound) (hl : v.Listed) (hc : v.Charted) :
    (v'.setMappings p ((v.mappings p).add ⟨file, pages⟩)).Listed := by
  intro q w i r hi hr
  rw [setMappings_page] at hr
  rw [setMappings_mappings, Function.update_apply, h.mappings]
  rcases h.added hi with hold | ⟨rfl, hw, r', hr', hfile⟩
  · obtain ⟨k, mp, hk, hu⟩ := hl q w i r hold (by rw [← (h.path.same (hv.owned.lt hold)).backing, hr])
    split
    · rename_i hq
      subst hq
      exact ⟨k, mp, MapTable.live_add_of_lt hk (hc.fresh hk) _, hu⟩
    · exact ⟨k, mp, hk, hu⟩
  · rw [if_pos rfl]
    rw [hr', Backing.mapped.injEq] at hr
    exact ⟨_, _, MapTable.live_add_nextId .., hw, hr ▸ hfile.symm⟩

/-- Process `p` has got mapping `id`, which shows a file of `len` bytes from `addr` on, through a handle
of its own. -/
structure Attaches (v : View φ) (p : ProcId) (file : Handle) (addr id : Nat) (handle : Handle)
    (len : Nat) (v' : View φ) : Prop where
  length : (FileSystem.length v.files file).1 = len
  opened : (FileSystem.reopen (FileSystem.length v.files file).2 file).1 = handle
  files : v'.files = (FileSystem.reopen (FileSystem.length v.files file).2 file).2
  aligned : isAligned addr = true
  pos : 0 < len
  top : addr + len ≤ userTop
  live : ∃ pages, (v'.mappings p).live[id]? = some ⟨handle, pages⟩ ∧
    pages.toList = (tiles handle len).map (addr + ·.offset)
  tile : ∀ r ∈ tiles handle len, ∃ i, v'.own p (addr + r.offset) = some i ∧
    v'.page i = .declared (addr + r.offset) true (.mapped r)
  fresh : ∀ r ∈ tiles handle len, v.own p (addr + r.offset) = none
  others : ∀ q w, ¬ (q = p ∧ w ∈ (tiles handle len).map (addr + ·.offset)) → v'.own q w = v.own q w

/-- No page and no mapping has been taken from a process. -/
structure Extends (v v' : View φ) : Prop where
  own : ∀ {q w i}, v.own q w = some i → v'.own q w = some i
  live : ∀ {q} {k : Nat} {mp}, (v.mappings q).live[k]? = some mp → (v'.mappings q).live[k]? = some mp

omit [FileSystem φ] in
theorem Extends.refl (v : View φ) : v.Extends v := ⟨id, id⟩

omit [FileSystem φ] in
theorem Extends.trans {v'' : View φ} (h : v.Extends v') (h' : v'.Extends v'') : v.Extends v'' :=
  ⟨fun hi => h'.own (h.own hi), fun hk => h'.live (h.live hk)⟩

/-- An effect that takes neither a page nor a mapping from a process. -/
theorem extends_of_lasting {l : Label} (he : Effect l v v') (hl : l.lasting) : v.Extends v' := by
  have hclaim : ∀ {p u q x i}, v.Vacant p u → v.own q x = some i →
      setAt v.own p u (some v.next) q x = some i := by
    intro p u q x i hvacant hi
    rw [setAt_of_ne _ _ ?_, hi]
    rintro ⟨rfl, rfl⟩
    simp [hvacant.own] at hi
  cases he with
  | declare vacant region fits => exact ⟨hclaim vacant, id⟩
  | grow vacant free => exact ⟨hclaim vacant, id⟩
  | forget | release | flush | discard | remap => exact hl.elim
  | _ => exact ⟨id, id⟩

theorem extends_of_path {may : Label → Prop} (h : Path may v v') (hmay : ∀ l, may l → l.lasting) :
    v.Extends v' :=
  h.keeps (.refl v) fun hl he hw => hw.trans (extends_of_lasting he (hmay _ hl))

/-- The pages that have been declared make up a mapping, and those of the other mappings are still listed
once. -/
theorem Tiled.charted {file : Handle} {pages : Array Nat} (h : v.Tiled p file pages.toList v')
    (hv : v.Sound) (hc : v.Charted) : (v'.setMappings p ((v.mappings p).add ⟨file, pages⟩)).Charted := by
  have hc' : v'.Charted := h.path.charted (by rintro _ ⟨i, rfl⟩; trivial) hv hc
  rw [← h.mappings]
  refine hc'.add ⟨file, pages⟩ h.maps h.nodup fun k mq hk u hu hus => ?_
  rw [h.mappings] at hk
  obtain ⟨i, r, hi, -⟩ := hc.maps hk u hus
  simp [h.fresh u hu] at hi

theorem Tiled.lasts {file : Handle} (h : v.Tiled p file us v') (hv : v.Sound) (hc : v.Charted) (mp : Mapping) :
    v.Extends (v'.setMappings p ((v.mappings p).add mp)) where
  own hi := (own_of_declare h.path hv hi).1
  live {q k mq} hk := by
    rw [setMappings_mappings, Function.update_apply, h.mappings]
    split
    · rename_i hq
      subst hq
      exact MapTable.live_add_of_lt hk (hc.fresh hk) _
    · exact hk

/-- The new pages show the file through the handle that has been opened for them. -/
theorem Tiled.adds {s : φ} {file : Handle} (hs : Consulted v.files s)
    (h : (v.setFiles (FileSystem.reopen s file).2).Tiled p (FileSystem.reopen s file).1 us v') :
    v.Adds file v' := by
  intro q w i r hi hnew hr
  refine .inr ⟨s, hs, h.files, ?_⟩
  rcases h.added hi with hi | ⟨-, -, r', hr', hfile⟩
  · exact absurd hi hnew
  · rw [hr', Backing.region?, Option.some.injEq] at hr
    rw [← hr, hfile]

/-- All pages of the file have been declared. -/
theorem Tiled.attaches {file : Handle} {addr len : Nat} {pages : Array Nat}
    (h : (v.setFiles (FileSystem.reopen (FileSystem.length v.files file).2 file).2).Tiled p
      (FileSystem.reopen (FileSystem.length v.files file).2 file).1 pages.toList v')
    (hv : v.Sound) (hlen : (FileSystem.length v.files file).1 = len) (haligned : isAligned addr = true)
    (hpos : 0 < len) (htop : addr + len ≤ userTop)
    (hpages : pages.toList =
      (tiles (FileSystem.reopen (FileSystem.length v.files file).2 file).1 len).map (addr + ·.offset))
    (htiles : ∀ r ∈ tiles (FileSystem.reopen (FileSystem.length v.files file).2 file).1 len,
      ∃ i, v'.own p (addr + r.offset) = some i ∧
        v'.page i = .declared (addr + r.offset) true (.mapped r)) :
    v.Attaches p file addr (v.mappings p).nextId
      (FileSystem.reopen (FileSystem.length v.files file).2 file).1 len
      (v'.setMappings p ((v.mappings p).add
        ⟨(FileSystem.reopen (FileSystem.length v.files file).2 file).1, pages⟩)) where
  length := hlen
  opened := rfl
  files := h.files
  aligned := haligned
  pos := hpos
  top := htop
  live := ⟨pages, by
    rw [setMappings_mappings, Function.update_self]
    exact MapTable.live_add_nextId .., hpages⟩
  tile := htiles
  fresh r hr := h.fresh _ (by
    rw [hpages]
    exact List.mem_map.2 ⟨r, hr, rfl⟩)
  others q w hw := by
    rw [← hpages] at hw
    refine Option.ext fun i => ⟨fun hi => ?_, fun hi => (own_of_declare h.path (hv.setFiles _) hi).1⟩
    exact (h.added hi).resolve_right fun hc => hw ⟨hc.1, hc.2.1⟩

/-- What an attempt of process `p` to map a file at `addr` comes to, `t` being the table of its mappings from
then on: nothing has been taken from a process, and if a mapping is returned it is a new one. -/
structure Attempts (held : Set PageId) (v : View φ) (p : ProcId) (file : Handle) (addr : Nat)
    (result : Except MapError Nat) (t : MapTable) (v' : View φ) : Prop where
  guards : v.Guards held v'
  path : Path Label.mapping v v'
  declared : v'.declared = v'.own
  charted : (v'.setMappings p t).Charted
  listed : (v'.setMappings p t).Listed
  adds : v.Adds file v'
  lasts : v.Extends (v'.setMappings p t)
  attaches : ∀ id, result = .ok id →
    ∃ handle len, v.Attaches p file addr id handle len (v'.setMappings p t)

/-- An attempt that fails leaves the pages and the mappings as they are. -/
theorem attempts_of_refused {held : Set PageId} {file : Handle} {addr : Nat} (hv : v.Sound) (hl : v.Listed)
    (hguards : v.Guards held v') (hpath : Path Label.mapping v v') (hdeclared : v'.declared = v'.own)
    (hc : v'.Charted) (hmappings : v'.mappings = v.mappings)
    (hown : ∀ {q w i}, v'.own q w = some i ↔ v.own q w = some i) (e : MapError) :
    v.Attempts held p file addr (.error e) (v.mappings p) v' := by
  have hsame : v'.setMappings p (v.mappings p) = v' := setMappings_self (congrFun hmappings p)
  refine ⟨hguards, hpath, hdeclared, ?_, ?_, .of_own hown.1 file, ?_, fun id hid => by simp at hid⟩
  · rwa [hsame]
  · rw [hsame]
    exact hpath.listed_of_own hv hl hmappings hown.1
  · rw [hsame]
    exact ⟨hown.2, fun hk => by rw [hmappings, hk]⟩

/-- What unmapping comes to: process `p` has lost the pages that its mapping `id` lists, and that
mapping. -/
structure Unmaps (v : View φ) (p : ProcId) (id : Nat) (v' : View φ) : Prop where
  loses : v.Loses p ((v.mappings p).pagesOf id) v'
  live : ∀ q (k : Nat), (v'.mappings q).live[k]? =
    if q = p ∧ k = id then none else (v.mappings q).live[k]?

/-- What the end of process `p` comes to: it has lost all its pages and mappings, and no other process a
mapping. -/
structure Ceases (v : View φ) (p : ProcId) (v' : View φ) : Prop where
  gone : ∀ u, v'.own p u = none
  loses : ∃ us, v.Loses p us v'
  mappings : ∀ q, q ≠ p → v'.mappings q = v.mappings q
  unmapped : (v'.mappings p).live = ∅
  exited : v'.exited p = true

end View

namespace Kernel

open Machine View

variable {m : Machine φ} {v : View φ} {p : ProcId} {held : Set PageId} {E : Stop → Machine φ → Prop}

theorem ends_declareTiles (hlive : v.exited p = false) (file : Handle) (addr : Nat) :
    ∀ (rs : List Region) (pages : Array Nat) {m : Machine φ} {v' : View φ}, m.Shows v' held → v.Sound →
      v.Tiled p file pages.toList v' → (∀ r ∈ rs, r.file = file ∧ r.readLen + r.zeroLen = pageSize) →
      Ends (declareTiles p addr rs pages) m (fun result m' => ∃ v'', m'.Shows v'' held ∧
        v.Tiled p file result.1.toList v'' ∧ Path (fun l => ∃ i, l = .declare i) v' v'' ∧
        (result.2 = none → result.1.toList = pages.toList ++ rs.map (addr + ·.offset) ∧
          ∀ r ∈ rs, ∃ i, v''.own p (addr + r.offset) = some i ∧
            v''.page i = .declared (addr + r.offset) true (.mapped r))) E
  | [], pages, m, v', h, _, ht, _ => ⟨v', h, ht, Path.refl _ _, fun _ => by simp⟩
  | r :: rs, pages, m, v', h, hv, ht, hfits => by
    have hv' := ht.path.sound hv
    have hlive' : v'.exited p = false := by
      rw [ht.path.exited (by rintro _ ⟨i, rfl⟩; trivial), hlive]
    obtain ⟨hfile, hlen⟩ := hfits r List.mem_cons_self
    rw [declareTiles, declareMapped_of_fits hlen, ends_bind]
    refine (ends_declare h hlive' ht.declared h.next_notMem true (.mapped r)).returns ?_
    intro result m₁ hresult
    cases result with
    | error e =>
      obtain rfl : m₁ = m := hresult
      exact ⟨v', h, ht, Path.refl _ _, by simp⟩
    | ok i =>
      obtain ⟨-, hvacant, h₁⟩ := hresult
      subst hfile
      have ht₁ := ht.snoc hv hvacant hlen
      have hpath₁ : Path (fun l => ∃ i, l = .declare i) v'
          (v'.claim p (addr + r.offset) (.declared (addr + r.offset) true (.mapped r))) :=
        Path.single (l := .declare v'.next) ⟨_, rfl⟩ (.declare hvacant rfl hlen)
      rw [← Array.toList_push] at ht₁
      refine (ends_declareTiles hlive r.file addr rs (pages.push (addr + r.offset)) h₁ hv ht₁
        fun r' hr' => hfits r' (List.mem_cons_of_mem r hr')).returns ?_
      rintro result m₂ ⟨v₂, h₂, ht₂, hpath₂, hall⟩
      refine ⟨v₂, h₂, ht₂, hpath₁.trans hpath₂, fun hnone => ?_⟩
      obtain ⟨hpages, htiles⟩ := hall hnone
      refine ⟨by simp [hpages], fun r' hr' => ?_⟩
      rcases List.mem_cons.1 hr' with rfl | hr'
      · obtain ⟨hown, hpage⟩ := own_of_declare hpath₂ (hpath₁.sound hv') (q := p) (w := addr + r'.offset)
          (by rw [claim_own, setAt_self])
        exact ⟨v'.next, hown, by rw [hpage, claim_page, Function.update_self]⟩
      · exact htiles r' hr'

/-- What an operation that changes the mappings of a process comes to. -/
structure Rewires (may : Label → Prop) (v v' : View φ) : Prop where
  path : Path may v v'
  declared : v'.declared = v'.own
  charted : v'.Charted
  listed : v'.Listed

/-- All pages of a mapping that cannot be made whole are given up again. -/
theorem ends_takeBack {v' : View φ} (h : m.Shows v' held) (hv : v.Sound) (hc : v.Charted)
    (mp : Mapping) {file : Handle} (ht : v.Tiled p file mp.pages.toList v')
    (hwait : held.Nonempty → ∀ e m', E e m') :
    Ends (releaseMapping p mp) m (fun _ m' => ∃ v'', m'.Shows v'' held ∧ v.Guards held v'' ∧
      Path Label.mapping v v'' ∧ v''.declared = v''.own ∧ v''.mappings = v.mappings ∧
      v''.Charted ∧ ∀ {q w i}, v''.own q w = some i ↔ v.own q w = some i) E := by
  refine (ends_releaseMapping False h (ht.path.sound hv) ht.declared ht.maps ht.nodup
    (fun u hu i hi hframe => by simp [ht.away u hu i hi] at hframe) hwait).returns ?_
  rintro _ m₁ ⟨v₁, h₁, hreleased, hguards⟩
  have hc' : v'.Charted := ht.path.charted (by rintro _ ⟨i, rfl⟩; trivial) hv hc
  have hsame : v₁.setMappings p (v'.mappings p) = v₁ := setMappings_self (congrFun hreleased.gives.mappings p)
  have hcharted := hc'.of_givesUp (p := p) hreleased.gives (t := v'.mappings p) rfl
    fun k mq hk => ⟨hk, fun u hu hus => by
      rw [ht.mappings] at hk
      obtain ⟨i, r, hi, -⟩ := hc.maps hk u hu
      simp [ht.fresh u hus] at hi⟩
  rw [hsame] at hcharted
  refine ⟨v₁, h₁, (ht.path.guards_of_declare hv).trans hguards,
    (ht.path.mono ?_).trans (hreleased.path.mono ?_), hreleased.declared,
    hreleased.gives.mappings.trans ht.mappings, hcharted, fun {q w i} => ⟨fun hi => ?_, fun hi => ?_⟩⟩
  · rintro _ ⟨i, rfl⟩
    trivial
  · rintro l hl
    cases l <;> trivial
  · rw [hreleased.gives.own] at hi
    split at hi
    · simp at hi
    · rename_i hne
      rcases ht.added hi with hi | ⟨hq, hw, -⟩
      · exact hi
      · exact absurd ⟨hq, hw⟩ hne
  · rw [hreleased.gives.own, if_neg, (own_of_declare ht.path hv hi).1]
    rintro ⟨rfl, hw⟩
    simp [ht.fresh w hw] at hi

/-- A file is mapped whole, or no page and no mapping changes hands. -/
theorem ends_mapFile (h : m.Shows v held) (hv : v.Sound) (hdeclared : v.declared = v.own)
    (hc : v.Charted) (hl : v.Listed) (hlive : v.exited p = false) (file : Handle) (addr : Nat)
    (hwait : held.Nonempty → ∀ e m', E e m') :
    Ends (mapFile (v.mappings p) p file addr) m (fun result m' => ∃ v', m'.Shows v' held ∧
      v.Attempts held p file addr result.1 result.2 v') E := by
  have hconsult : ∀ {w : View φ} {files : φ}, Consulted w.files files →
      Path Label.mapping w (w.setFiles files) := fun hfiles =>
    Path.single (l := .consult) trivial (.consult hfiles)
  rw [mapFile, ends_ite]
  split
  · exact ⟨v, h, attempts_of_refused hv hl (.refl _ _) (Path.refl _ _) hdeclared hc rfl Iff.rfl _⟩
  rename_i haddr
  rw [ends_bind]
  refine (ends_fileLength h file).returns ?_
  rintro len m₁ ⟨hlen, h₁⟩
  have hpath₁ := hconsult (w := v) (.length file)
  set v₁ := v.setFiles (FileSystem.length v.files file).2 with hv₁
  have hguards₁ : v.Guards held v₁ := .of_eq rfl rfl rfl rfl rfl
  have hstay : ∀ e, v.Attempts held p file addr (.error e) (v.mappings p) v₁ := fun e =>
    attempts_of_refused hv hl hguards₁ hpath₁ hdeclared (hc.congr rfl fun hi hr => ⟨hi, hr⟩) rfl Iff.rfl e
  rw [ends_ite]
  split
  · exact ⟨v₁, h₁, hstay _⟩
  rename_i hpos
  rw [ends_ite]
  split
  · exact ⟨v₁, h₁, hstay _⟩
  rename_i htop
  rw [ends_bind]
  refine (ends_reopenFile h₁ file).returns ?_
  rintro handle m₂ ⟨rfl, h₂⟩
  have hpath₂ := hpath₁.trans (hconsult (.reopen file))
  set v₂ := v₁.setFiles (FileSystem.reopen v₁.files file).2 with hv₂
  have hc₂ : v₂.Charted := hc.congr rfl fun hi hr => ⟨hi, hr⟩
  have hsound₂ : v₂.Sound := hpath₂.sound hv
  have hguards₂ : v.Guards held v₂ := .of_eq rfl rfl rfl rfl rfl
  have hlasts₂ : v.Extends v₂ := ⟨id, id⟩
  rw [ends_bind]
  refine (ends_declareTiles (v := v₂) hlive _ addr _ #[] h₂ hsound₂ (.nil v₂ p _ hdeclared)
    fun r hr => ⟨file_of_mem_tiles hr, readLen_add_zeroLen_of_mem_tiles hr⟩).returns ?_
  rintro ⟨pages, failure⟩ m₃ ⟨v₃, h₃, ht, -, hall⟩
  cases failure with
  | some e =>
    simp only [ends_bind]
    refine (ends_takeBack h₃ hsound₂ hc₂ ⟨_, pages⟩ ht hwait).returns ?_
    rintro _ m₄ ⟨v₄, h₄, hguards₄, hpath₄, hdeclared₄, hmappings, hc₄, hown⟩
    exact ⟨v₄, h₄, attempts_of_refused hv hl (hguards₂.trans hguards₄) (hpath₂.trans hpath₄) hdeclared₄ hc₄
      hmappings hown _⟩
  | none =>
    simp only [ends_bind, ends_process, ends_emit, ends_pure]
    obtain ⟨hpages, htiles⟩ := hall rfl
    simp only [Bool.or_eq_true, Bool.not_eq_true', not_or, Bool.not_eq_false] at haddr
    refine ⟨v₃, h₃.report _, hguards₂.trans (ht.path.guards_of_declare hsound₂),
      hpath₂.trans (ht.path.mono (by rintro _ ⟨i, rfl⟩; trivial)), ht.declared, ht.charted hsound₂ hc₂,
      ht.listed hsound₂ (hl.congr rfl fun hi hr => ⟨hi, hr⟩) hc₂, ht.adds (.length file),
      hlasts₂.trans (ht.lasts hsound₂ hc₂ _), fun id hid => ?_⟩
    obtain rfl := Except.ok.inj hid
    exact ⟨_, len, ht.attaches hv hlen.symm haddr.1.2 (by simpa [Nat.pos_iff_ne_zero] using hpos)
      (Nat.not_lt.1 htop) hpages htiles⟩

theorem ends_mmap (h : m.Shows v held) (hv : v.Sound) (hdeclared : v.declared = v.own) (hc : v.Charted)
    (hl : v.Listed) (hlive : v.exited p = false) (file : Handle) (addr : Nat)
    (hwait : held.Nonempty → ∀ e m', E e m') :
    Ends (mmap p file addr) m (fun result m' => ∃ v', m'.Shows v' held ∧ v.Guards held v' ∧ Rewires Label.mapping v v' ∧
      v.Adds file v' ∧ v.Extends v' ∧ ∀ id, result = .ok id →
        ∃ handle len, v.Attaches p file addr id handle len v') E := by
  rw [mmap, ends_bind, ends_process, ends_bind, ← h.mappings]
  refine (ends_mapFile h hv hdeclared hc hl hlive file addr hwait).returns ?_
  rintro result m₁ ⟨v₁, h₁, hattempts⟩
  have hexited := hattempts.path.exited fun l hl => by cases l <;> trivial
  rw [ends_bind, ends_modifyProcess, ends_pure]
  exact ⟨_, h₁.setMappings (h₁.lt_of_live (by rw [hexited, hlive])) result.2,
    hattempts.guards.trans (.setMappings held v₁ p _),
    ⟨hattempts.path.trans (Path.single (l := .remap) trivial (.remap result.2)), hattempts.declared,
      hattempts.charted, hattempts.listed⟩,
    hattempts.adds, hattempts.lasts, hattempts.attaches⟩

theorem ends_munmap (h : m.Shows v held) (hv : v.Sound) (hdeclared : v.declared = v.own)
    (hc : v.Charted) (hl : v.Listed) (hlive : v.exited p = false) (id : Nat)
    (hwait : held.Nonempty → ∀ e m', E e m') :
    Ends (munmap p id) m (fun _ m' => ∃ v', m'.Shows v' held ∧ v.Guards held v' ∧
      Rewires (Label.releasing True) v v' ∧ v.Unmaps p id v') E := by
  simp only [munmap, unmapFile, ends_bind, ends_process]
  rw [← h.mappings]
  cases hid : (v.mappings p).live[id]? with
  | none =>
    simp only [ends_pure, ends_modifyProcess]
    have hsame : v.setMappings p (v.mappings p) = v := setMappings_self rfl
    refine ⟨_, h.setMappings (h.lt_of_live hlive) _, .setMappings held v p _, ?_, ?_⟩
    · exact ⟨Path.single (l := .remap) trivial (.remap _), hdeclared, hsame.symm ▸ hc, hsame.symm ▸ hl⟩
    · rw [hsame]
      refine ⟨?_, fun q k => ?_⟩
      · rw [MapTable.pagesOf, hid]
        exact (GivesUp.nil v p).toLoses
      split
      · rename_i hq
        rw [hq.1, hq.2, hid]
      · rfl
  | some mp =>
    simp only [ends_bind, ends_process, ends_emit]
    refine (ends_releaseMapping True (h.report _) hv hdeclared (hc.maps hid) (hc.nodup hid)
      (fun _ _ _ _ _ => trivial) hwait).returns ?_
    rintro _ m₁ ⟨v₁, h₁, hreleased, hguards⟩
    rw [ends_pure, ends_modifyProcess]
    refine ⟨_, h₁.setMappings (h₁.lt_of_live (by rw [hreleased.gives.exited, hlive])) _,
      hguards.trans (.setMappings held v₁ p _), ⟨hreleased.path.trans (Path.single (l := .remap) trivial (.remap _)), hreleased.declared,
        hc.of_givesUp hreleased.gives rfl fun k mq hk => ?_,
        hl.of_givesUp hreleased.gives fun k mq hk => ?_⟩, ?_, fun q k => ?_⟩
    · rw [MapTable.live_erase] at hk
      split at hk
      · simp at hk
      · rename_i hne
        exact ⟨hk, hc.disjoint hk hid hne⟩
    · rw [MapTable.live_erase]
      rcases eq_or_ne k id with rfl | hne
      · rw [hid, Option.some.injEq] at hk
        exact .inr (by simp [hk])
      · exact .inl (by rw [if_neg hne, hk])
    · rw [MapTable.pagesOf, hid]
      exact hreleased.gives.setMappings _
    · rw [setMappings_mappings, Function.update_apply, hreleased.gives.mappings]
      rcases eq_or_ne q p with rfl | hq
      · rw [if_pos rfl, MapTable.live_erase]
        simp
      · simp [hq]

/-! ### The end of a process -/

/-- All pages of mappings are released, one mapping after the other. -/
theorem ends_releaseMappings (hwait : held.Nonempty → ∀ e m', E e m') :
    ∀ (ms : List (Nat × Mapping)) {m : Machine φ} {v : View φ},
      m.Shows v held → v.Sound → v.declared = v.own →
      v.Maps p (ms.flatMap fun x => x.2.pages.toList) →
      (ms.flatMap fun x => x.2.pages.toList).Nodup →
      Ends (ms.forM fun (_, mapping) => releaseMapping p mapping) m (fun _ m' => ∃ v', m'.Shows v' held ∧
        Releases True v p (ms.flatMap fun x => x.2.pages.toList) v' ∧ v.Guards held v') E
  | [], m, v, h, _, hdeclared, _, _ => ⟨v, h, ⟨Path.refl _ _, .nil v p, hdeclared⟩, .refl _ _⟩
  | (k, mp) :: ms, m, v, h, hv, hdeclared, hmaps, hnodup => by
    rw [List.flatMap_cons] at hmaps hnodup ⊢
    obtain ⟨hfirst, hrest, hapart⟩ := List.nodup_append.1 hnodup
    rw [List.forM_eq_forM, List.forM_cons, ends_bind]
    refine (ends_releaseMapping True h hv hdeclared
      (fun u hu => hmaps u (List.mem_append_left _ hu)) hfirst (fun _ _ _ _ _ => trivial) hwait).returns ?_
    rintro _ m₁ ⟨v₁, h₁, hreleased, hguards⟩
    have hmaps₁ : v₁.Maps p (ms.flatMap fun x => x.2.pages.toList) := fun u hu => by
      obtain ⟨i, r, hi, hr⟩ := hmaps u (List.mem_append_right _ hu)
      have hi₁ : v₁.own p u = some i := by
        rw [hreleased.gives.own, if_neg, hi]
        exact fun hc => hapart u hc.2 u hu rfl
      exact ⟨i, r, hi₁, by rw [hreleased.gives.page hi₁, hr]⟩
    refine (ends_releaseMappings hwait ms h₁ (hreleased.path.sound hv) hreleased.declared hmaps₁
      hrest).returns ?_
    rintro _ m₂ ⟨v₂, h₂, hrest, hguards'⟩
    exact ⟨v₂, h₂, ⟨hreleased.path.trans hrest.path, hreleased.gives.trans hrest.gives
      fun u hu hu' => hapart u hu u hu' rfl, hrest.declared⟩, hguards.trans hguards'⟩

/-- The pages of a list are discarded one after the other. -/
theorem ends_discards (hwait : held.Nonempty → ∀ e m', E e m') :
    ∀ (l : List (Nat × PageId)) {m : Machine φ} {v : View φ}, m.Shows v held →
      v.Sound → (∀ x ∈ l, v.own p x.1 = some x.2) → (∀ x ∈ l, ∀ r, (v.page x.2).backing ≠ .mapped r) →
      (l.map (·.1)).Nodup → Ends ((l.map (·.2)).forM (discard p)) m (fun _ m' => ∃ v', m'.Shows v' held ∧
        v.Yields True held p (l.map (·.1)) v') E
  | [], m, v, h, _, _, _, _ => ⟨v, h, Path.refl _ _, .nil v p, .refl _ _, rfl⟩
  | (u, i) :: l, m, v, h, hv, hown, hfile, hnodup => by
    rw [List.map_cons, List.map_cons] at *
    obtain ⟨hu, hnodup⟩ := List.nodup_cons.1 hnodup
    rw [List.forM_eq_forM, List.forM_cons, ends_bind]
    refine (ends_discard h hv (hown (u, i) List.mem_cons_self) (hfile (u, i) List.mem_cons_self)
      trivial hwait).returns ?_
    rintro _ m₁ ⟨v₁, h₁, hfirst⟩
    have hown₁ : ∀ x ∈ l, v₁.own p x.1 = some x.2 := by
      intro x hx
      rw [hfirst.gives.own, if_neg, hown x (List.mem_cons_of_mem _ hx)]
      rintro ⟨-, hmem⟩
      rw [← List.mem_singleton.1 hmem] at hu
      exact hu (List.mem_map.2 ⟨x, hx, rfl⟩)
    refine (ends_discards hwait l h₁ (hfirst.path.sound hv) hown₁ (fun x hx => ?_) hnodup).returns
      fun _ m₂ ⟨v₂, h₂, hrest⟩ => ?_
    · rw [hfirst.gives.page (hown₁ x hx)]
      exact hfile x (List.mem_cons_of_mem _ hx)
    · exact ⟨v₂, h₂, hfirst.path.trans hrest.path, hfirst.gives.trans hrest.gives (List.singleton_disjoint.2 hu),
        hfirst.guards.trans hrest.guards, hrest.declared.trans hfirst.declared⟩

theorem ends_unmapAll (h : m.Shows v held) (hv : v.Sound) (hdeclared : v.declared = v.own)
    (hc : v.Charted) (hl : v.Listed) (hwait : held.Nonempty → ∀ e m', E e m') :
    Ends (unmapAll (v.mappings p) p) m (fun t m' => ∃ v', m'.Shows v' held ∧ v.Guards held v' ∧
      Path (Label.releasing True) v v' ∧ v'.declared = v'.own ∧
      v.GivesUp p ((v.mappings p).live.toList.flatMap fun x => x.2.pages.toList) v' ∧
      t.live = ∅ ∧ (v'.setMappings p t).Charted ∧ (v'.setMappings p t).Listed) E := by
  obtain ⟨hmaps, hnodup⟩ := hc.pages p
  rw [unmapAll, ends_bind]
  refine (ends_releaseMappings hwait _ h hv hdeclared hmaps hnodup).returns
    fun _ m₁ ⟨v₁, h₁, hreleased, hguards⟩ => ?_
  exact ⟨v₁, h₁, hguards, hreleased.path, hreleased.declared, hreleased.gives, rfl,
    hc.of_givesUp hreleased.gives rfl fun k mp hk => by simp [MapTable.clear] at hk,
    hl.of_givesUp hreleased.gives fun k mp hk => .inr fun u hu =>
      List.mem_flatMap.2 ⟨(k, mp), Std.ExtTreeMap.mem_toList_iff_getElem?_eq_some.2 hk, hu⟩⟩

omit [FileSystem φ] in
/-- The declared pages of a process, in ascending order. -/
theorem own_of_mem_toList (h : m.Shows v held) (hdeclared : v.declared = v.own) :
    (∀ x ∈ (m.process p).declared.toList, v.own p x.1 = some x.2) ∧
      ((m.process p).declared.toList.map (·.1)).Nodup ∧
      ∀ u i, v.own p u = some i → u ∈ (m.process p).declared.toList.map (·.1) := by
  have hp : ∀ u, v.own p u = (m.process p).declared[u]? := fun u => by
    rw [← hdeclared, h.declared]
    rfl
  refine ⟨fun x hx => ?_, ?_, fun u i hi => ?_⟩
  · rw [hp]
    exact Std.ExtTreeMap.mem_toList_iff_getElem?_eq_some.1 hx
  · refine List.pairwise_map.2 (List.Pairwise.imp ?_ Std.ExtTreeMap.distinct_keys_toList)
    intro x y hne
    simpa using hne
  · rw [hp] at hi
    exact List.mem_map.2 ⟨(u, i), Std.ExtTreeMap.mem_toList_iff_getElem?_eq_some.2 hi, rfl⟩

theorem ends_destroy (h : m.Shows v held) (hv : v.Sound) (hdeclared : v.declared = v.own)
    (hlive : v.exited p = false) (hfile : ∀ u i r, v.own p u = some i → (v.page i).backing ≠ .mapped r)
    (hwait : held.Nonempty → ∀ e m', E e m') :
    Ends (destroy p) m (fun _ m' => ∃ v', m'.Shows v' held ∧ v.Guards held v' ∧ Path (Label.releasing True) v v' ∧
      v'.declared = v'.own ∧ (∀ u, v'.own p u = none) ∧
      ∃ us, (∀ u ∈ us, v.own p u ≠ none) ∧ v.GivesUp p us v') E := by
  obtain ⟨hown, hnodup, hall⟩ := own_of_mem_toList (p := p) h hdeclared
  simp only [destroy, ends_bind, ends_process, ends_modifyProcess]
  have h₁ := h.setDeclared (p := p) (h.lt_of_live hlive) fun _ => ∅
  have heffect : Effect .unlist v (v.setDeclared p ((∅ : Std.ExtTreeMap Nat PageId)[·]?)) := .unlist _
  refine (ends_discards hwait _ h₁ (heffect.sound hv) hown (fun x hx r => hfile x.1 x.2 r (hown x hx))
    hnodup).returns ?_
  rintro _ m₂ ⟨v₂, h₂, hyields⟩
  have hgone : ∀ u, v₂.own p u = none := by
    intro u
    rw [hyields.gives.own]
    split
    · rfl
    · rename_i hu
      cases hi : v.own p u with
      | none => exact hi
      | some i => exact absurd ⟨rfl, hall u i hi⟩ hu
  simp only [ends_emit]
  refine ⟨v₂, h₂.report _, (View.Guards.setDeclared held v p _).trans hyields.guards,
    (Path.single (l := .unlist) trivial heffect).trans hyields.path, ?_, hgone, _,
    fun u hu => ?_, hyields.gives.of_setDeclared, hyields.gives.mappings, hyields.gives.exited⟩
  swap
  · obtain ⟨x, hx, rfl⟩ := List.mem_map.1 hu
    simp [hown x hx]
  rw [hyields.declared]
  funext q u
  rw [setDeclared_declared, Function.update_apply]
  split
  · rename_i hq
    rw [hq, hgone]
    simp
  · rename_i hq
    rw [hyields.gives.own, if_neg fun hc => hq hc.1, hdeclared]
    rfl

/-- A process that exits gives up all its pages and mappings. -/
theorem ends_exit (h : m.Shows v held) (hv : v.Sound) (hdeclared : v.declared = v.own) (hc : v.Charted)
    (hl : v.Listed) (hlive : v.exited p = false) (hwait : held.Nonempty → ∀ e m', E e m') :
    Ends (exit p) m (fun _ m' => ∃ v', m'.Shows v' held ∧ v.Guards held v' ∧ Rewires (Label.releasing True) v v' ∧
      v.Ceases p v') E := by
  simp only [exit, ends_bind, ends_process, ends_emit, ends_modifyProcess]
  rw [show ((m.report _).process p).mappings = v.mappings p from (h.mappings p).symm]
  refine (ends_unmapAll (h.report _) hv hdeclared hc hl hwait).returns ?_
  rintro t m₁ ⟨v₁, h₁, hguards₁, hpath₁, hdeclared₁, hgives₁, hempty, hc₁, hl₁⟩
  have hexited₁ := hgives₁.exited
  have h₂ := h₁.setMappings (p := p) (h₁.lt_of_live (by rw [hexited₁, hlive])) t
  have hpath₂ : Path (Label.releasing True) v (v₁.setMappings p t) :=
    hpath₁.trans (Path.single (l := .remap) trivial (.remap t))
  -- a page of a mapped file would be listed by a mapping, and none is left
  have hfile : ∀ u i r, v₁.own p u = some i → (v₁.page i).backing ≠ .mapped r := by
    intro u i r hi hr
    obtain ⟨k, mp, hk, -⟩ := hl₁ p u i r hi hr
    rw [setMappings_mappings, Function.update_self, hempty] at hk
    simp at hk
  refine (ends_destroy (p := p) h₂ (hpath₂.sound hv) hdeclared₁ (by
    rw [setMappings_exited, hexited₁, hlive]) hfile hwait).returns ?_
  rintro _ m₃ ⟨v₃, h₃, hguards₃, hpath₃, hdeclared₃, hgone, us, hus, hgives⟩
  have hapart : List.Disjoint ((v.mappings p).live.toList.flatMap fun x => x.2.pages.toList) us := by
    intro u hu hu'
    exact hus u hu' (by rw [setMappings_own, hgives₁.own, if_pos ⟨rfl, hu⟩])
  have hexited₃ : v₃.exited = v.exited := hgives.exited.trans hexited₁
  have hlive₃ : v₃.exited p = false := by rw [hexited₃, hlive]
  have hmappings₃ : v₃.mappings p = t := by
    rw [hgives.mappings, setMappings_mappings, Function.update_self]
  have hc₃ : v₃.Charted := by
    have hcharted := hc₁.of_givesUp (p := p) (t := t) hgives
      (by rw [setMappings_mappings, Function.update_self]) fun k mp hk => by simp [hempty] at hk
    rwa [setMappings_self hmappings₃] at hcharted
  have hl₃ : v₃.Listed := hpath₃.listed_of_own (hpath₂.sound hv) hl₁ hgives.mappings fun hi => by
    rw [hgives.own] at hi
    split at hi
    · simp at hi
    · exact hi
  have hguards : v.Guards held (v₃.setExited p true) :=
    ((hguards₁.trans (.setMappings held v₁ p t)).trans hguards₃).trans (.setExited held v₃ p true)
  refine ⟨_, h₃.setExited (h₃.lt_of_live hlive₃), hguards, ⟨(hpath₂.trans hpath₃).trans
    (Path.single (l := .exit) trivial (.exit hgone)), hdeclared₃,
    hc₃.congr rfl fun hi hr => ⟨hi, hr⟩, hl₃.congr rfl fun hi hr => ⟨hi, hr⟩⟩, hgone, ?_, fun q hq => ?_, by
      rw [setExited_mappings, hmappings₃, hempty], Function.update_self ..⟩
  · exact ⟨_, (hgives₁.toLoses.trans hgives.of_setMappings hapart).setExited true⟩
  · rw [setExited_mappings, hgives.mappings, setMappings_mappings, Function.update_of_ne hq,
      hgives₁.mappings]

end Kernel

end DemandPaging
