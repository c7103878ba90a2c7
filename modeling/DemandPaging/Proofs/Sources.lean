import DemandPaging.File.Memory
import DemandPaging.Proofs.Loan
import DemandPaging.Proofs.Retrying

/-!
# Where a page is rebuilt from

A page that is not in memory can be rebuilt from one place, its slot or its file, and a slot is used
as long as a page is in it. A page of a program's file changes over to swap space once, when it is
evicted dirty and its file has no room for its zeros. A page gets dirty by stores only, and clean by leaving
memory, so the dirty bits before and after an operation tell what has been evicted dirty meanwhile; where
an operation stores and evicts by turns, they tell it from one turn to the next.
-/

namespace DemandPaging

namespace View

variable {φ : Type} {v v' : View φ}

/-- The anonymous flag of a page rises when the page is a dirty page of a program's file that zeros
fill up and is evicted, and at no other time; it never falls. -/
structure Flags (l : Label) (v v' : View φ) : Prop where
  rises : ∀ p u i, v.own p u = some i → ((v'.page i).anonymous = true ↔
    (v.page i).anonymous = true ∨ l = .evict i ∧ v.dirty p u = true ∧
      ∃ r, (v.page i).backing = .file r ∧ 0 < r.zeroLen)
  /-- It is not set on a page that is declared. -/
  fresh : ∀ p u i, v'.own p u = some i → v.own p u ≠ some i → (v'.page i).anonymous = false

/-- While nothing has been stored, the anonymous flags have risen on the pages of programs' files that zeros
fill up, that were dirty and have been evicted since, and on no others; none has fallen. -/
structure Flagged [FileSystem φ] (v v' : View φ) : Prop where
  /-- A page that was dirty and is not any more has been evicted. -/
  rises : ∀ p u i, v.own p u = some i → v'.own p u = some i → ((v'.page i).anonymous = true ↔
    (v.page i).anonymous = true ∨ (v.dirty p u = true ∧ v'.dirty p u = false) ∧
      ∃ r, (v.page i).backing = .file r ∧ 0 < r.zeroLen)
  /-- None is set on a page that has been declared since. -/
  fresh : ∀ p u i, v'.own p u = some i → v.own p u ≠ some i → (v'.page i).anonymous = false
  /-- The effects were no stores, and each of them has raised the flags that it should. -/
  trace : Relation.ReflTransGen (fun w w' => ∃ l, l ≠ .store ∧ Effect l w w' ∧ w.Flags l w') v v'

/-- All pages are what and whose they were. -/
def SamePages (v v' : View φ) : Prop :=
  v'.own = v.own ∧ v'.page = v.page

/-- An eviction of another page changes no flag. -/
theorem Flags.of_evict {p : ProcId} {u : Nat} {i : PageId} (ho : v.Owned)
    (hi : v.own p u = some i) (hown : v'.own = v.own)
    (hothers : ∀ j, j ≠ i → (v'.page j).anonymous = (v.page j).anonymous)
    (hflag : (v'.page i).anonymous = true ↔ (v.page i).anonymous = true ∨
      v.dirty p u = true ∧ ∃ r, (v.page i).backing = .file r ∧ 0 < r.zeroLen) :
    Flags (.evict i) v v' where
  rises q w j hj := by
    rcases eq_or_ne j i with rfl | hji
    · obtain ⟨rfl, rfl⟩ := ho.eq_of_own hi hj
      rw [hflag]
      simp
    · rw [hothers j hji]
      exact (or_iff_left fun hc => hji (Label.evict.inj hc.1).symm).symm
  fresh q w j hj hno := absurd (hown ▸ hj) hno

end View

variable {φ : Type} [FileSystem φ] {l : Label} {v v' w w' : View φ} {p : ProcId} {u : Nat} {i j : PageId}

open View

/-! ### Flags and dirty bits -/

/-- Nothing but an eviction changes the flag of a page that has been declared. -/
theorem Effect.anonymous_eq (he : Effect l v v') (hl : ∀ i, l ≠ .evict i) (hj : j < v.next) :
    (v'.page j).anonymous = (v.page j).anonymous := by
  cases he with
  | swapOut | writeOut | drop => exact absurd rfl (hl _)
  | swapIn => exact (congrArg Page.anonymous ((unplaced_occupy ..).trans (unplaced_unstash ..)) :)
  | @readIn _ p u i f => exact (congrArg Page.anonymous (unplaced_occupy v p u i f (.zero pageSize) j) :)
  | declare => rw [claim_page, Function.update_of_ne (Nat.ne_of_lt hj)]
  | grow =>
    rw [occupy_page, Function.update_of_ne (Nat.ne_of_lt hj), claim_page, Function.update_of_ne (Nat.ne_of_lt hj)]
  | @release _ p u i f => exact (congrArg Page.anonymous (unplaced_vacate v p u i f j) :)
  | @flush _ p u i f b r => exact (congrArg Page.anonymous (unplaced_vacate (v.writeBack r b) p u i f j) :)
  | @discard _ p u i s => exact (congrArg Page.anonymous (unplaced_unstash v i s j) :)
  | forget | unlist | store | consult | remap | exit | spawn => rfl

/-- A page that is declared is not flagged. -/
theorem Effect.anonymous_of_new (he : Effect l v v') (hl : l = .declare j ∨ l = .grow j) :
    (v'.page j).anonymous = false := by
  cases he with
  | declare =>
    obtain rfl : _ = j := by simpa using hl
    rw [claim_page, Function.update_self]
    rfl
  | grow =>
    obtain rfl : _ = j := by simpa using hl
    rw [occupy_page, Function.update_self, claim_page, Function.update_self]
    rfl
  | _ => simp at hl

theorem Effect.flags_of_evict (he : Effect (.evict i) v v') (hv : v.Sound) : Flags (.evict i) v v' := by
  cases he with
  | @swapOut _ p u _ f b s own frame holds disposal lt free =>
    refine .of_evict hv.owned own rfl (fun j hj => ?_) ?_
    · rw [vacate_page, Function.update_of_ne hj, stash_page, Function.update_of_ne hj]
    · rw [vacate_page, Function.update_self, stash_page, Function.update_self]
      exact Page.anonymousOnceSwapped_iff disposal
  | @writeOut _ p u _ f b r own frame holds disposal region =>
    refine .of_evict hv.owned own rfl (fun j hj => ?_) ?_
    · rw [vacate_page, Function.update_of_ne hj, writeBack_page]
    · rw [vacate_page, Function.update_self]
      refine (or_iff_left ?_).symm
      rintro ⟨-, r', hr', hz⟩
      exact Nat.ne_of_gt hz ((Page.disposal_eq_writtenBack_iff.1 disposal).2.2 r' hr')
  | @drop _ p u _ f own frame disposal =>
    have hclean := (Page.disposal_eq_dropped_iff.1 disposal).1
    refine .of_evict hv.owned own rfl (fun j hj => ?_) ?_
    · rw [vacate_page, Function.update_of_ne hj]
    · rw [vacate_page, Function.update_self]
      refine (or_iff_left ?_).symm
      rintro ⟨hdirty, -⟩
      simp [hdirty] at hclean

theorem Effect.flags (he : Effect l v v') (hv : v.Sound) : Flags l v v' := by
  by_cases hl : ∃ i, l = .evict i
  · obtain ⟨i, rfl⟩ := hl
    exact he.flags_of_evict hv
  · refine ⟨fun p u i hi => ?_, fun p u i hi hno => ?_⟩
    · rw [he.anonymous_eq (fun i hi => hl ⟨i, hi⟩) (hv.owned.lt hi)]
      exact (or_iff_left fun hc => hl ⟨i, hc.1⟩).symm
    · rcases he.own_cases hi with hi | ⟨-, hnew⟩
      · exact absurd hi hno
      · exact he.anonymous_of_new hnew

/-- Memory gets dirty by stores only. -/
theorem Effect.dirty_of_dirty (he : Effect l v v') (hl : l ≠ .store) (hd : v'.dirty p u = true) :
    v.dirty p u = true := by
  have hset : ∀ {q x}, setAt v.dirty q x false p u = true → v.dirty p u = true := by
    intro q x hq
    rw [setAt_apply] at hq
    split at hq
    · simp at hq
    · exact hq
  cases he with
  | swapOut | writeOut | drop | swapIn | readIn | grow | release | flush => exact hset hd
  | store => exact absurd rfl hl
  | _ => exact hd

theorem Effect.clean_of_clean (he : Effect l v v') (hl : l ≠ .store) (hclean : v.dirty p u = false) :
    v'.dirty p u = false := by
  rw [← Bool.not_eq_true]
  exact fun hd => by simp [he.dirty_of_dirty hl hd] at hclean

/-- A page that has been evicted is clean. -/
theorem Effect.clean_of_evict (he : Effect (.evict i) v v') (hv : v.Sound) (hi : v.own p u = some i) :
    v'.dirty p u = false := by
  cases he with
  | swapOut own | writeOut own | drop own =>
    obtain ⟨rfl, rfl⟩ := hv.owned.eq_of_own hi own
    exact setAt_self ..

/-- A page that stays with its process stays as dirty as it is, unless it is stored to or evicted. -/
theorem Effect.dirty_eq (he : Effect l v v') (hl : l ≠ .store) (hv : v.Sound) (hi : v.own p u = some i)
    (hi' : v'.own p u = some i) (hne : l ≠ .evict i) : v'.dirty p u = v.dirty p u := by
  by_cases hsubject : l.subject = some i
  · -- the page was not in memory before it came in
    suffices hclean : v.dirty p u = false by rw [hclean, he.clean_of_clean hl hclean]
    cases he with
    | swapOut | writeOut | drop => exact absurd (congrArg Label.evict (Option.some.inj hsubject)) hne
    | swapIn own away | readIn own away =>
      obtain rfl := Option.some.inj hsubject
      exact hv.housed.clean p u (by rw [hv.housed.mapping?, hi, Option.bind_some, away]; rfl)
    | declare | grow =>
      obtain rfl := Option.some.inj hsubject
      exact absurd (hv.owned.lt hi) (Nat.lt_irrefl _)
    | _ => simp [Label.subject] at hsubject
  · exact (he.retains hl hv hi hi' hsubject).dirty

/-- A page that is declared is clean. -/
theorem Effect.clean_of_new (he : Effect l v v') (hv : v.Sound) (hnew : l = .declare v.next ∨ l = .grow v.next)
    (hi : v'.own p u = some v.next) : v'.dirty p u = false := by
  have hlasting : l.lasting ∧ l ≠ .store := by rcases hnew with rfl | rfl <;> exact ⟨trivial, by simp⟩
  have hvacant : v.own p u = none := by
    by_contra hno
    obtain ⟨j, hj⟩ := Option.ne_none_iff_exists'.1 hno
    have hsame := (extends_of_lasting he hlasting.1).own hj
    rw [hi, Option.some.injEq] at hsame
    exact absurd (hsame ▸ hv.owned.lt hj) (Nat.lt_irrefl _)
  exact he.clean_of_clean hlasting.2 (hv.housed.clean p u (by rw [hv.housed.mapping?, hvacant, Option.bind_none]))

/-! ### Paths on which nothing is stored -/

/-- What is known on the way from `v` to `w`, as long as nothing is stored. -/
structure View.Unstored (v w : View φ) : Prop where
  sound : w.Sound
  next : v.next ≤ w.next
  same : ∀ {i}, i < v.next → (v.page i).Same (w.page i)
  flagged : v.Flagged w
  /-- What is dirty has been dirty all the time. -/
  dirty : ∀ {p u}, w.dirty p u = true → v.dirty p u = true
  /-- No page that has been declared since is dirty. -/
  clean : ∀ {p u i}, w.own p u = some i → v.own p u ≠ some i → w.dirty p u = false

theorem View.Unstored.refl (hv : v.Sound) : v.Unstored v where
  sound := hv
  next := Nat.le_refl _
  same _ := .refl _
  flagged :=
    { rises := fun p u i _ _ => (or_iff_left (by simp)).symm
      fresh := fun p u i hi hno => absurd hi hno
      trace := .refl }
  dirty := id
  clean hi hno := absurd hi hno

theorem Effect.unstored (he : Effect l w w') (hl : l ≠ .store) (hv : v.Sound) (h : v.Unstored w) :
    v.Unstored w' where
  sound := he.sound h.sound
  next := h.next.trans he.next_le
  same hi := (h.same hi).trans (he.same (Nat.lt_of_lt_of_le hi h.next))
  dirty hd := h.dirty (he.dirty_of_dirty hl hd)
  clean {p u i} hi hno := by
    rcases he.own_cases hi with hi | ⟨rfl, hnew⟩
    · exact he.clean_of_clean hl (h.clean hi hno)
    · exact he.clean_of_new h.sound hnew hi
  flagged :=
    { rises := fun p u i hi hi' => by
        have hlt := hv.owned.lt hi
        have hiw : w.own p u = some i := (he.own_cases hi').resolve_right fun hnew =>
          absurd (hnew.1 ▸ hlt) (Nat.not_lt.2 h.next)
        rw [(he.flags h.sound).rises p u i hiw, (h.same hlt).backing, h.flagged.rises p u i hi hiw]
        by_cases hevict : l = .evict i
        · -- a page that is dirty when it is evicted has been dirty since `v`
          subst hevict
          rw [he.clean_of_evict h.sound hiw]
          have hdirty := h.dirty (p := p) (u := u)
          cases hd : w.dirty p u <;> simp_all
        · rw [he.dirty_eq hl h.sound hiw hi' hevict]
          exact or_iff_left fun hc => hevict hc.1
      fresh := fun p u i hi hno => by
        by_cases hiw : w.own p u = some i
        · rw [← Bool.not_eq_true, (he.flags h.sound).rises p u i hiw, h.flagged.fresh p u i hiw hno,
            h.clean hiw hno]
          simp
        · exact (he.flags h.sound).fresh p u i hi hiw
      trace := h.flagged.trace.tail ⟨l, hl, he, he.flags h.sound⟩ }

/-- As long as nothing is stored, the dirty bits tell which flags have risen. -/
theorem Path.flagged (h : Path (· ≠ .store) v v') (hv : v.Sound) : v.Flagged v' :=
  (h.keeps (P := v.Unstored) (.refl hv) fun hl he hw => he.unstored hl hv hw).flagged

namespace Kernel

/-- `pageIn`, with `lost` standing where a page has neither a slot nor a file. -/
def pageInOr (lost : Kernel φ (Except PageError Unit)) (p : ProcId) (id : PageId) :
    Kernel φ (Except PageError Unit) := do
  let pg ← page id
  if pg.resident then return .error (.alreadyResident pg.upage)
  match pg.slot, pg.backing.region? with
  | some slot, _ => pageInFromSlot p id pg.upage slot
  | none, some r => pageInFromFile p id pg.upage r
  | none, none => lost

/-- `resolve`, with `lost` standing where a page has neither a slot nor a file. -/
def resolveOr (lost : Kernel φ (Except PageError Unit)) (p : ProcId) (id : PageId) :
    Kernel φ (Except PageError Unit) := do
  pin id
  let result ← pageInOr lost p id
  unpin id
  return result

theorem pageIn_eq_pageInOr {m : Machine φ} {i : PageId}
    (h : (m.page i).frame = none → (m.page i).slot = none → (m.page i).backing.region? ≠ none)
    (lost : Kernel φ (Except PageError Unit)) (p : ProcId) :
    pageIn p i m = pageInOr lost p i m := by
  have hrun : ∀ {x y : Page → Kernel φ (Except PageError Unit)}, x (m.page i) m = y (m.page i) m →
      (page i >>= x) m = (page i >>= y) m := fun hxy => hxy
  refine hrun ?_
  cases hf : (m.page i).frame with
  | some f => simp [Page.resident, hf]
  | none =>
    simp only [Page.resident, hf, Option.isSome_none, Bool.false_eq_true, if_false]
    cases hs : (m.page i).slot with
    | some s => rfl
    | none =>
      cases hr : (m.page i).backing.region? with
      | some r => rfl
      | none => exact absurd hr (h hf hs)

end Kernel

namespace Machine

/-- Every page can be rebuilt from one place, and no slot is used in vain. -/
structure Sources (m : Machine φ) : Prop where
  /-- The used slots are those of the pages of live processes. -/
  used : ∀ s, m.swap.used.bit s = true ↔ ∃ p u i, (m.process p).exited = false ∧
    m.declaredAt p u = some i ∧ (m.page i).slot = some s
  /-- No two pages have the same slot. -/
  distinct : ∀ p q u w i j s, m.declaredAt p u = some i → m.declaredAt q w = some j →
    (m.page i).slot = some s → (m.page j).slot = some s → i = j
  /-- No page has both a frame and a slot. -/
  apart : ∀ p u i, m.declaredAt p u = some i →
    ¬ ((m.page i).frame.isSome = true ∧ (m.page i).slot.isSome = true)
  /-- A page that is kept in swap space has one of them. -/
  swapped : ∀ p u i, m.declaredAt p u = some i →
    (m.page i).backing = .swap ∨ (∃ r, (m.page i).backing = .file r) ∧ (m.page i).anonymous = true →
    ((m.page i).frame.isSome = true ↔ (m.page i).slot = none)
  /-- Any other page has no slot. -/
  filed : ∀ p u i, m.declaredAt p u = some i →
    (∃ r, (m.page i).backing = .mapped r) ∨
      (∃ r, (m.page i).backing = .file r) ∧ (m.page i).anonymous = false →
    (m.page i).slot = none

omit [FileSystem φ] in
/-- A page that is not in memory and in no slot has a file. -/
theorem Steady.region_ne_none {m : Machine φ} (h : m.Steady) {p : ProcId} {u : Nat} {i : PageId}
    (hi : m.declaredAt p u = some i) (hf : (m.page i).frame = none) (hs : (m.page i).slot = none) :
    (m.page i).backing.region? ≠ none := by
  obtain ⟨r, hr⟩ := Kernel.exists_region_of_sourced (h.sound.sourced p u i hi) hf hs
  rw [show (m.page i).backing.region? = some r from hr]
  simp

omit [FileSystem φ] in
theorem Steady.sources_of_steady {m : Machine φ} (h : m.Steady) : m.Sources := by
  have hsourced : ∀ {p u i}, m.declaredAt p u = some i → (m.page i).face.Sourced := fun hi =>
    h.sound.sourced _ _ _ hi
  refine ⟨fun s => ?_, fun p q u w i j s hi hj hs hs' => h.sound.swapped.inj hi hj hs hs',
    fun p u i hi => ?_, fun p u i hi hk => ?_, fun p u i hi hk => ?_⟩
  · have hused := h.sound.swapped.used s
    rw [show (m.scene.slot s).isSome = m.swap.used.bit s by
      show (m.swap.contents? m.devices s).isSome = _
      rw [Swap.contents?]
      split <;> simp_all] at hused
    rw [hused]
    constructor
    · rintro ⟨p, u, i, hi, hs⟩
      exact ⟨p, u, i, h.sound.owned.live hi, hi, hs⟩
    · rintro ⟨p, u, i, -, hi, hs⟩
      exact ⟨p, u, i, hi, hs⟩
  · rintro ⟨hf, hs⟩
    have hnone : (m.page i).slot = none := (hsourced hi).slot_eq_none hf
    simp [hnone] at hs
  · have hs := hsourced hi
    rw [Page.Sourced, if_pos ((m.page i).face.keeping_eq_swap_iff.2 hk)] at hs
    simp only [Page.frame_face, Page.slot_face] at hs
    cases hf : (m.page i).frame <;> cases hsl : (m.page i).slot <;> simp_all
  · have hs := hsourced hi
    have hkeep : (m.page i).keeping ≠ .swap := fun hswap => by
      rcases (m.page i).keeping_eq_swap_iff.1 hswap with hb | ⟨⟨r, hb⟩, ha⟩ <;> simp_all
    exact (if_neg hkeep).mp hs

end Machine

/-- A page that is brought in is never one that has neither a slot nor a file. -/
theorem Machine.Steady.resolve_eq_resolveOr {m : Machine φ} (h : m.Steady) (hi : m.declaredAt p u = some i)
    (lost : Kernel φ (Except PageError Unit)) : Kernel.resolve p i m = Kernel.resolveOr lost p i m := by
  have hpin := Kernel.pin_of_free (h.unpinned i)
  have hpage : (m.withPage i fun pg => { pg with pinned := true }).page i = { m.page i with pinned := true } := by
    rw [page_withPage, if_pos ⟨rfl, h.sound.owned.lt hi⟩]
  have hpageIn := Kernel.pageIn_eq_pageInOr (m := m.withPage i fun pg => { pg with pinned := true }) (i := i)
    (fun hf hs => by
      rw [hpage] at hf hs ⊢
      exact h.region_ne_none hi hf hs) lost p
  simp only [Kernel.resolve, Kernel.resolveOr, bind, EStateM.bind, hpin, hpageIn]

/-! ### Operations -/

/-- What becomes of the anonymous flags in an operation of process `p`. A store changes none. An access that
stores and is repeated is told by its stores and faults, in their order: pages get dirty by the former and are
evicted in the latter. -/
def Machine.FlagsIn (p : ProcId) (m : Machine φ) (answer : Answer) (m' : Machine φ) : Op → Prop
  | .store .. => m.scene.SamePages m'.scene
  | .userStore a data esp _ => m.scene.exited p = true ∧ answer = .exited ∧ m' = m ∨
      ∃ result, answer = .retriedStore result ∧
        Kernel.Repeats (fun x a' y => Kernel.StorePasses p a data x a' y ∧ x.scene.SamePages y.scene)
          (fun x fault y => Kernel.StoreFaults p a data x fault y ∧ x.scene.SamePages y.scene)
          (fun fault r x y => Kernel.DealsWith p esp fault r x y ∧ x.scene.Flagged y.scene) m result m'
  | _ => m.scene.Flagged m'.scene

open Machine Kernel

/-- An operation that is no store makes no store on its way. -/
theorem Op.Does.unstored {op : Op} {answer : Answer} (h : op.Does p v answer v') (hbasic : op.basic = true)
    (hstore : ∀ a data, op ≠ .store a data) : Path (· ≠ .store) v v' := by
  obtain ⟨may, hpath, hmay, -⟩ := h.exists_path hbasic hstore
  exact hpath.mono hmay

section

variable {m m' : Machine φ} {held : Set PageId} {op : Op} {a esp : Nat} {data : List UInt8}
  {fault : Option PageTable.Fault} {write : Bool} {result : Except FaultError Unit}

theorem Machine.Settled.samePages_of_store (h : m.Settled held) (hrun : store p a data m = .ok fault m') :
    m.scene.SamePages m'.scene := by
  obtain ⟨cell, dirty, -, hshows⟩ := (ends_store h.shows h.sound p a data).of_ok hrun
  rw [← hshows.eq_scene rfl]
  exact ⟨rfl, rfl⟩

theorem Machine.Settled.flagged_of_handleFault (h : m.Settled held) (hlive : m.scene.exited p = false)
    (hrun : handleFault p a esp write m = .ok result m') : m.scene.Flagged m'.scene := by
  have hends : Ends (handleFault p a esp write) m _ (Stalls held False m.scene) :=
    ends_handleFault h.shows h.sound rfl hlive a esp write
  obtain ⟨v', hshows, -, hhandles⟩ := hends.of_ok hrun
  have hdoes : (Op.fault a esp write).Does p m.scene .done v' := hhandles.fetched
  rw [← hshows.eq_scene hhandles.declared]
  exact (hdoes.unstored rfl (by simp)).flagged h.sound

/-- The parts of an operation are stores only where a store is repeated. -/
theorem Kernel.Parts.unstored (h : Parts op p m m') (hm : m.Steady)
    (hop : ∀ a data esp limit, op ≠ .userStore a data esp limit) : Path (· ≠ .store) m.scene m'.scene := by
  induction h with
  | refl => exact Path.refl _ _
  | tail hparts hstep ih =>
    obtain ⟨o, answer, ho, hrun⟩ := hstep
    have hdone := (ends_perform_basic (Parts.steady hparts hm).1 (basic_of_part ho)).of_ok hrun
    refine ih.trans (hdone.does.unstored (basic_of_part ho) ?_)
    rintro a data rfl
    obtain ⟨esp, limit, rfl⟩ := ho
    exact hop _ _ _ _ rfl

theorem Kernel.flags_of_storeRetrying {limit : Nat} (hm : m.Settled held) (hlive : m.scene.exited p = false) :
    Ends (execute p (.userStore a data esp limit)) m
      (fun answer m' => m.FlagsIn p answer m' (.userStore a data esp limit)) fun _ _ => True := by
  have hpart : (Op.userStore a data esp limit).Part (.store a data) := ⟨esp, limit, rfl⟩
  rw [execute, ends_bind]
  refine (ends_storeRetrying_exact p a data esp limit m).returns fun result m' hrepeats => .inr ⟨result, rfl, ?_⟩
  refine hrepeats.refine (I := fun x => x.Settled held ∧ x.scene.exited p = false) ⟨hm, hlive⟩ ?_ ?_ ?_
  · rintro x _ y ⟨hx, -⟩ hrun
    exact ⟨hrun, hx.samePages_of_store hrun⟩
  · rintro x fault y ⟨hx, hlive⟩ ⟨hwrite, hrun⟩
    obtain ⟨hy, -, hexited⟩ := (stages_of_store hpart hrun).settled hx hlive
    exact ⟨⟨hy, by rw [hexited, hlive]⟩, ⟨hwrite, hrun⟩, hx.samePages_of_store hrun⟩
  · rintro x fault r y ⟨hx, hlive⟩ hrun
    have hop : (Op.userStore a data esp limit).basic = false := rfl
    obtain ⟨hy, -, hexited⟩ := (stages_of_handleFault hop hrun).settled hx hlive
    exact ⟨⟨hy, by rw [hexited, hlive]⟩, hrun, hx.flagged_of_handleFault hlive hrun⟩

theorem Kernel.flagged_of_perform (hm : m.Steady) (hstore : ∀ a data, op ≠ .store a data)
    (huser : ∀ a data esp limit, op ≠ .userStore a data esp limit) :
    Ends (perform p op) m (fun _ m' => m.scene.Flagged m'.scene) fun _ _ => True := by
  cases hop : op.basic with
  | true =>
    exact (ends_perform_basic hm hop).imp (fun _ _ hdone => (hdone.does.unstored hop hstore).flagged hm.sound)
      fun _ _ _ => trivial
  | false =>
    exact Ends.imp (splits_perform hm hop) (fun _ _ hdone => (hdone.1.unstored hm huser).flagged hm.sound)
      fun _ _ _ => trivial

/-- The flags rise as they should in every operation. -/
theorem Kernel.flags_of_perform (hm : m.Steady) (p : ProcId) (op : Op) :
    Ends (perform p op) m (fun answer m' => m.FlagsIn p answer m' op) fun _ _ => True := by
  cases op with
  | store a data =>
    refine (ends_perform_basic hm rfl).imp (fun answer m' hdone => ?_) fun _ _ _ => trivial
    obtain ⟨fault, cell, dirty, -, -, hscene⟩ := hdone.does
    exact ⟨by rw [hscene], by rw [hscene]⟩
  | userStore a data esp limit =>
    rw [ends_perform_iff hm]
    split
    · rename_i hexited
      exact .inl ⟨hexited.1, rfl, rfl⟩
    · rename_i hgo
      exact flags_of_storeRetrying (steady_iff.1 hm) (by simpa [Op.onTable] using hgo)
  | _ => exact flagged_of_perform hm (by simp) (by simp)

/-- An eviction raises the flag of the page that it takes, if it has to. -/
theorem Kernel.flags_of_evict {e : Tenancy} (hm : m.Steady) (hchoice : m.choice = some e) :
    Ends evict m (fun _ m' => m.scene.Flags (.evict e.page) m'.scene) fun _ _ => True := by
  refine (ends_evict_effect hm.shows hm.sound rfl hchoice).imp ?_ fun _ _ _ => trivial
  rintro _ m' ⟨-, -, v', heffect, hshows⟩
  have hspares := spares_of_evict heffect
  rw [← hshows.eq_scene (by rw [hspares.declared, hspares.own]; rfl)]
  exact heffect.flags hm.sound

end

/-- Between operations every page can be rebuilt from one place. The anonymous flags rise when they should, in
an eviction and in whole operations; no unused slot is read, and no page that is brought in has neither
a slot nor a file, so that it does not matter what would become of such a page. -/
theorem Reachable.sources {m : Machine φ} (h : Reachable m) :
    m.Sources ∧
    (∀ e, m.choice = some e →
      Ends evict m (fun _ m' => m.scene.Flags (.evict e.page) m'.scene) fun _ _ => True) ∧
    (∀ p op, Ends (Kernel.perform p op) m (fun answer m' => m.FlagsIn p answer m' op)
      fun e _ => ∀ s, e ≠ .halt (.swap (.loadUnused s))) ∧
    ∀ p u i, m.declaredAt p u = some i → ∀ lost, resolve p i m = resolveOr lost p i m := by
  have hm := h.steady
  refine ⟨hm.sources_of_steady, fun e => flags_of_evict hm, fun p op => ?_, fun p u i => hm.resolve_eq_resolveOr⟩
  refine ((flags_of_perform hm p op).and (ends_perform hm p op)).imp (fun _ _ hdone => hdone.1) ?_
  rintro e m' ⟨-, hexcused⟩ s rfl
  exact hexcused

/-- A page of a program's file that has been written to is evicted when the stack of another process grows: its
flag rises, and it is in a slot from then on. -/
theorem sources_of_changed_file :
    ∃ (m m' : Machine MemoryFiles) (answer : Answer), Reachable m ∧ m.Sources ∧
      (m.page 0).anonymous = false ∧ m.scene.dirty 0 0x8048000 = true ∧
      Kernel.perform 1 (.growStack 0x7ffff000) m = .ok answer m' ∧ m.scene.Flagged m'.scene ∧
      (m'.page 0).anonymous = true ∧ (m'.page 0).slot = some 0 := by
  obtain ⟨m, hm, -, hP⟩ := exists_reachable 1 2 (⟨#[⟨[1, 2, 3], none, none⟩]⟩ : MemoryFiles)
    [(0, .declareFile 0x8048000 ⟨0, 0, 3, 4093⟩ true), (0, .resolve 0x8048000),
      (0, .store 0x8048001 [7])]
    (fun m => !(m.page 0).anonymous && (m.process 0).table.isDirty 0x8048000 &&
      check (Kernel.perform 1 (.growStack 0x7ffff000))
        (fun _ m' => (m'.page 0).anonymous && (m'.page 0).slot == some 0) m) (by decide +kernel)
  simp only [Bool.and_eq_true, Bool.not_eq_true'] at hP
  obtain ⟨answer, m', hrun, hP'⟩ := exists_of_check hP.2
  obtain ⟨hflag, hslot⟩ := Bool.and_eq_true_iff.1 hP'
  exact ⟨m, m', answer, hm, hm.sources.1, hP.1.1, hP.1.2, hrun, (hm.sources.2.2.1 1 _).of_ok hrun, hflag,
    beq_iff_eq.1 hslot⟩

end DemandPaging
