import DemandPaging.Proofs.Image
import DemandPaging.Proofs.Sources
import DemandPaging.Proofs.Still

/-!
# Which pages are written back

A page leaves memory when it is evicted, or when its process gives it up. If it has been stored to
since it came in, its file is owed a write then: on eviction, when the file has room for all of the page
or is mapped, and otherwise only when the page is given up with its mapping. `View.WritesBack` says
that the writes of an operation are those that the pages owe which it takes out of memory, and that
nothing else is written.

`View.Carries` is the other half of the story: a page is dirty as long as it stays, and clean when it
comes in.
-/

namespace DemandPaging

variable {φ : Type} {v v' w : View φ} {p q : ProcId} {u : Nat} {i j k : PageId} {r : Region}
  {us : List (ProcId × Nat)}

namespace View

/-- The write that the page of a process at an address owes its file when it leaves memory. -/
def owes (v : View φ) (x : ProcId × Nat) : Option FileCall :=
  (v.own x.1 x.2).bind fun i => (v.page i).target?.bind fun r => v.write? x.1 x.2 i r

/-- What is true of the marks on a page. -/
structure Marked (v : View φ) : Prop where
  /-- A page that has been stored to may be stored to. -/
  rights : ∀ {p u i}, v.own p u = some i → v.dirty p u = true → (v.page i).writable = true
  /-- A page of a program's file lives in swap space only if zeros fill it up. -/
  tail : ∀ {p u i}, v.own p u = some i → (v.page i).anonymous = true →
    ∃ r, (v.page i).backing = .file r ∧ 0 < r.zeroLen

/-- A page that was in memory is not any more, either because it has been evicted or because the
mapping of its file has been released. -/
def Sheds (v v' : View φ) (x : ProcId × Nat) : Prop :=
  ∃ i, v.own x.1 x.2 = some i ∧ (v.page i).frame.isSome = true ∧ (v'.page i).frame = none ∧
    (v'.own x.1 x.2 = some i ∨ ∃ r, (v.page i).backing = .mapped r)

/-- The pages `us` have been shed, in this order, and what they owed has been written. -/
structure WritesBack [FileSystem φ] (v v' : View φ) (us : List (ProcId × Nat)) : Prop where
  nodup : us.Nodup
  mem : ∀ x, x ∈ us ↔ v.Sheds v' x
  calls : Calls v.files (us.filterMap v.owes) v'.files

/-- A page that is in memory has come in, and has not been stored to since, or it was there before and
has been left alone. -/
structure Carries (v v' : View φ) : Prop where
  came_or_stayed : ∀ {q u k}, v'.own q u = some k → (v'.page k).frame.isSome = true →
    v'.dirty q u = false ∧ (v.page k).frame = none ∨ v.own q u = some k ∧ v.Retains v' q u k

/-! ### What pages owe -/

theorem owes_of_target? (hi : v.own p u = some i) (hr : (v.page i).target? = some r) :
    v.owes (p, u) = v.write? p u i r := by
  simp only [owes, hi, Option.bind_some, hr]

theorem owes_of_clean (hd : v.dirty p u = false) : v.owes (p, u) = none := by
  simp only [owes, write?_of_clean hd, Option.bind_fun_none]

theorem owes_of_away (hi : v.own p u = some i) (hf : (v.page i).frame = none) :
    v.owes (p, u) = none := by
  simp only [owes, hi, Option.bind_some, write?_of_away hf, Option.bind_fun_none]

/-- Nothing is lost that a page of a mapped file owes when it is given up. -/
theorem due_eq_owes (hi : v.own p u = some i) (hr : (v.page i).backing = .mapped r) :
    v.due p u = v.owes (p, u) := by
  rw [due_of_mapped hi hr, owes_of_target? hi (Page.target?_of_mapped hr)]

end View

open View

variable [FileSystem φ]

/-! ### Marks -/

theorem Effect.marked {l : Label} (he : Effect l v v') (hv : v.Sound) (hm : v.Marked) : v'.Marked where
  rights := by
    intro q x k hk hd
    rcases he.own_cases hk with hk | ⟨rfl, hnew⟩
    · rw [(he.same (hv.owned.lt hk)).writable]
      by_cases hl : l = .store
      · cases he with
        | store stores =>
          rcases (stores.dirty q x).1 hd with hd | ⟨rfl, n, hn, rfl⟩
          · exact hm.rights hk hd
          · obtain ⟨rights, f, hmap, hwritable⟩ := stores.mapped n hn
            obtain ⟨k', hk', -, hrights⟩ := hv.housed.mapping?_eq_some hmap
            rw [hk, Option.some.injEq] at hk'
            rw [hk', ← hwritable, show rights = _ from hrights]
            rfl
        | _ => simp at hl
      · exact hm.rights hk (he.dirty_of_dirty hl hd)
    · -- a new page is where no page was, so nothing there is dirty
      cases he with
      | declare vacant region fits =>
        rw [claim_own, setAt_apply] at hk
        split at hk
        · rename_i hat
          have hclean := hv.housed.clean q x (by rw [hv.housed.mapping?, hat.1, hat.2, vacant.own]; rfl)
          exact absurd (hclean.symm.trans hd) (by simp)
        · exact absurd (hv.owned.lt hk) (Nat.lt_irrefl _)
      | grow vacant free =>
        rw [occupy_page, Function.update_self, claim_page, Function.update_self]
        rfl
      | _ => simp at hnew
  tail := by
    intro q x k hk ha
    have hflags := he.flags hv
    by_cases hold : v.own q x = some k
    · rw [(he.same (hv.owned.lt hold)).backing]
      rcases (hflags.rises q x k hold).1 ha with ha | ⟨-, -, hr⟩
      · exact hm.tail hold ha
      · exact hr
    · rw [hflags.fresh q x k hk hold] at ha
      simp at ha

theorem Path.marked {may : Label → Prop} (h : Path may v v') (hv : v.Sound) (hm : v.Marked) :
    v'.Marked :=
  (h.keeps (P := fun w => w.Sound ∧ w.Marked) ⟨hv, hm⟩
    fun _ he hw => ⟨he.sound hw.1, he.marked hw.1 hw.2⟩).2

namespace View

/-! ### Writes -/

/-- Nothing is written while all pages in memory stay there. -/
theorem writesBack_nil (hstay : ∀ {q u j}, v.own q u = some j → (v.page j).frame.isSome = true →
    (v'.page j).frame ≠ none) (hcalls : Calls v.files [] v'.files) : v.WritesBack v' [] where
  nodup := List.nodup_nil
  mem x := by
    refine ⟨fun hx => absurd hx List.not_mem_nil, ?_⟩
    rintro ⟨j, hj, hf, hnone, -⟩
    exact absurd hnone (hstay hj hf)
  calls := hcalls

/-- Whatever comes after that leaves the pages where they are and writes nothing makes no
difference. -/
theorem WritesBack.congr (h : v.WritesBack w us)
    (hstay : ∀ {q u j}, v.own q u = some j → (v.page j).frame.isSome = true →
      (v'.own q u = some j ↔ w.own q u = some j) ∧ ((v'.page j).frame = none ↔ (w.page j).frame = none))
    (hcalls : Calls w.files [] v'.files) : v.WritesBack v' us where
  nodup := h.nodup
  mem x := by
    rw [h.mem]
    refine exists_congr fun j => and_congr_right fun hj => and_congr_right fun hf => ?_
    rw [(hstay hj hf).1, (hstay hj hf).2]
  calls := by simpa using h.calls.trans hcalls

/-- What a page owes is written when it is evicted, and nothing else. -/
theorem writesBack_of_evict (he : Effect (.evict i) v w) (hv : v.Sound) (hm : v.Marked) :
    ∃ us, v.WritesBack w us := by
  -- one page leaves memory, so only its write has to be looked at
  have hone : ∀ {p u f}, v.own p u = some i → (v.page i).frame = some f → w.own = v.own →
      (w.page i).frame = none → (∀ j, j ≠ i → (w.page j).frame = (v.page j).frame) →
      Calls v.files (v.owes (p, u)).toList w.files → v.WritesBack w [(p, u)] := by
    intro p u f hi hf hown hgone hothers hcalls
    refine ⟨List.nodup_singleton _, fun x => ?_, ?_⟩
    · rw [List.mem_singleton]
      constructor
      · rintro rfl
        exact ⟨i, hi, by rw [hf]; rfl, hgone, .inl (by rw [hown, hi])⟩
      · rintro ⟨j, hj, hin, hout, -⟩
        have hji : j = i := by
          by_contra hne
          rw [hothers j hne] at hout
          simp [hout] at hin
        rw [hji] at hj
        obtain ⟨hp, hu⟩ := hv.owned.eq_of_own hj hi
        exact Prod.ext hp hu
    · rw [List.filterMap_cons, List.filterMap_nil]
      cases howes : v.owes (p, u) <;> rwa [howes] at hcalls
  cases he with
  | @swapOut _ p u i f b s own frame holds disposal lt free =>
    refine ⟨_, hone own frame rfl (by rw [vacate_page, Function.update_self]) (fun j hj => ?_) ?_⟩
    · rw [vacate_page, Function.update_of_ne hj, stash_page, Function.update_of_ne hj]
    · have hnone : v.owes (p, u) = none := by
        simp only [owes, own, Option.bind_some, Page.target?_of_swappedOut disposal (hm.tail own), Option.bind_none]
      rw [hnone]
      exact .refl
  | @writeOut _ p u i f b r own frame holds disposal region =>
    refine ⟨_, hone own frame rfl (by rw [vacate_page, Function.update_self]) (fun j hj => ?_) ?_⟩
    · rw [vacate_page, Function.update_of_ne hj, writeBack_page]
    · obtain ⟨ht, -⟩ := Page.target?_of_writtenBack disposal (hm.rights own) region
      rw [owes_of_target? own ht, write?_of_dirty (Page.disposal_eq_writtenBack_iff.1 disposal).1 frame holds]
      exact Calls.refl.write _ _ _
  | @drop _ p u i f own frame disposal =>
    refine ⟨_, hone own frame rfl (by rw [vacate_page, Function.update_self]) (fun j hj => ?_) ?_⟩
    · rw [vacate_page, Function.update_of_ne hj]
    · rw [owes_of_clean (Page.disposal_eq_dropped_iff.1 disposal).1]
      exact .refl

theorem MakesRoom.writesBack (h : v.MakesRoom w) (hv : v.Sound) (hm : v.Marked) :
    ∃ us, v.WritesBack w us := by
  rcases h with rfl | ⟨i, he⟩
  · refine ⟨[], writesBack_nil (fun _ hf hnone => ?_) .refl⟩
    simp [hnone] at hf
  · exact writesBack_of_evict he hv hm

/-- Bringing in a page writes back the page that makes room for it. -/
theorem Fetched.writesBack (h : v.Fetched v') (hv : v.Sound) (hm : v.Marked) :
    ∃ us, v.WritesBack v' us := by
  rcases h with rfl | ⟨i, haway, w, hroom, hcases⟩
  · exact MakesRoom.writesBack (.inl rfl) hv hm
  obtain ⟨us, hus⟩ := hroom.writesBack hv hm
  have hsame : v'.own = w.own → (∀ j, j ≠ i → v'.page j = w.page j) → Calls w.files [] v'.files →
      v.WritesBack v' us := fun hown hpage hcalls => hus.congr (fun {q u j} _ hf => by
    have hne : j ≠ i := by
      rintro rfl
      simp [haway] at hf
    rw [hown, hpage j hne]
    exact ⟨Iff.rfl, Iff.rfl⟩) hcalls
  rcases hcases with rfl | he | he | he
  · exact ⟨us, hus⟩
  · cases he with
    | consult consulted => exact ⟨us, hsame rfl (fun _ _ => rfl) (.consult .refl consulted)⟩
  · cases he with
    | swapIn own away slot holds free =>
      refine ⟨us, hsame rfl (fun j hj => ?_) .refl⟩
      rw [occupy_page, Function.update_of_ne hj, unstash_page, Function.update_of_ne hj]
    | readIn own away slot region count free =>
      refine ⟨us, hsame rfl (fun j hj => ?_) (.consult .refl (.read ..))⟩
      rw [occupy_page, Function.update_of_ne hj, setFiles_page]
  · cases he with
    | @grow _ p u f vacant free =>
      refine ⟨us, hus.congr (fun {q x j} hj hf => ?_) .refl⟩
      have hj' : w.own q x = some j := by rw [hroom.spares.own, hj]
      have hlt := (hroom.sound hv).owned.lt hj'
      rw [occupy_page, Function.update_of_ne (Nat.ne_of_lt hlt), claim_page,
        Function.update_of_ne (Nat.ne_of_lt hlt), occupy_own, claim_own, setAt_of_ne]
      · exact ⟨Iff.rfl, Iff.rfl⟩
      · rintro ⟨rfl, rfl⟩
        rw [vacant.own] at hj'
        simp at hj'

theorem Still.writesBack (h : v.Still v') (hv : v.Sound) : v.WritesBack v' [] :=
  writesBack_nil (fun hj hf hnone => by simp [← h.page (hv.owned.lt hj), hnone] at hf) h.calls

open Classical in
/-- Giving up pages writes back those of them that are in memory and show a mapped file. -/
theorem Loses.writesBack {xs : List Nat} (h : v.Loses p xs v') : ∃ us, v.WritesBack v' us := by
  set mapped : Nat → Prop := fun u => ∃ i r, v.own p u = some i ∧ (v.page i).backing = .mapped r ∧
    (v.page i).frame.isSome = true with hmapped
  refine ⟨(xs.filter fun u => decide (mapped u)).map (p, ·), ?_, fun x => ?_, ?_⟩
  · exact (h.nodup.filter _).map fun a b hab => (Prod.mk.inj hab).2
  · simp only [List.mem_map, List.mem_filter, decide_eq_true_eq]
    constructor
    · rintro ⟨u, ⟨hu, i, r, hi, hr, hf⟩, rfl⟩
      exact ⟨i, hi, hf, h.gone hu hi, .inr ⟨r, hr⟩⟩
    · obtain ⟨q, u⟩ := x
      rintro ⟨i, hi, hf, hnone, hcases⟩
      by_cases hu : q = p ∧ u ∈ xs
      · have hgone : v'.own q u = none := by rw [h.own, if_pos hu]
        rcases hcases with hcontra | ⟨r, hr⟩
        · simp [hgone] at hcontra
        · exact ⟨u, ⟨hu.2, i, r, hu.1 ▸ hi, hr, hf⟩, by rw [hu.1]⟩
      · -- a page that is not among them has been left alone
        have hi' : v'.own q u = some i := by rw [h.own, if_neg hu, hi]
        rw [h.page hi'] at hnone
        simp [hnone] at hf
  · rw [List.filterMap_map, List.filterMap_filter]
    have hdue : xs.filterMap (v.due p) =
        xs.filterMap fun u => if decide (mapped u) = true then (v.owes ∘ (p, ·)) u else none := by
      refine List.filterMap_congr fun u _ => ?_
      by_cases hu : mapped u
      · rw [if_pos (by simpa using hu)]
        obtain ⟨i, r, hi, hr, -⟩ := hu
        rw [due_eq_owes hi hr]
        rfl
      · rw [if_neg (by simpa using hu)]
        cases hi : v.own p u with
        | none => rw [due, hi, Option.bind_none]
        | some i =>
          by_cases hr : ∃ r, (v.page i).backing = .mapped r
          · obtain ⟨r, hr⟩ := hr
            have hf : (v.page i).frame = none := by
              by_contra hf
              exact hu ⟨i, r, hi, hr, Option.isSome_iff_ne_none.2 hf⟩
            rw [due_eq_owes hi hr, owes_of_away hi hf]
          · exact due_eq_none hi fun r hc => hr ⟨r, hc⟩
    rw [← hdue]
    exact h.calls

/-! ### Pages in memory -/

omit [FileSystem φ] in
theorem Carries.refl (v : View φ) : v.Carries v := ⟨fun hk _ => .inr ⟨hk, .refl _ _ _ _⟩⟩

omit [FileSystem φ] in
theorem carries_of_retains (h : ∀ {q u k}, v'.own q u = some k → (v'.page k).frame.isSome = true →
    v.own q u = some k ∧ v.Retains v' q u k) : v.Carries v' := ⟨fun hk hf => .inr (h hk hf)⟩

theorem Fetched.carries (h : v.Fetched v') (hv : v.Sound) : v.Carries v' := by
  rcases h with rfl | ⟨i, haway, w, hroom, hcases⟩
  · exact .refl _
  -- a page that is in memory when room has been made was there before
  have hbefore : ∀ {q u k}, w.own q u = some k → (w.page k).frame.isSome = true →
      v.own q u = some k ∧ v.Retains w q u k := by
    intro q u k hk hf
    rcases hroom with rfl | ⟨j, he⟩
    · exact ⟨hk, .refl _ _ _ _⟩
    · have hown := (spares_of_evict he).own
      refine ⟨hown ▸ hk, he.retains (by simp) hv (hown ▸ hk) hk ?_⟩
      rintro hc
      rw [Label.subject, Option.some.injEq] at hc
      subst hc
      cases he <;> simp [vacate_page] at hf
  have hw := hroom.sound hv
  have hother : ∀ {l q u k}, Effect l w v' → l ≠ .store → l.subject ≠ some k →
      (∀ n, l = .declare n ∨ l = .grow n → l.subject = some n) →
      v'.own q u = some k → (v'.page k).frame.isSome = true →
      v.own q u = some k ∧ v.Retains v' q u k := by
    intro l q u k he hl hne hnew hk hf
    rcases he.own_cases hk with hkw | ⟨-, hnew'⟩
    · have hr := he.retains hl hw hkw hk hne
      rw [hr.page] at hf
      obtain ⟨hkv, hr'⟩ := hbefore hkw hf
      exact ⟨hkv, hr'.trans hr⟩
    · exact absurd (hnew k hnew') hne
  rcases hcases with rfl | he | he | he
  · exact carries_of_retains hbefore
  · exact carries_of_retains (hother he (by simp) (by simp [Label.subject]) (by simp))
  · refine ⟨fun {q u k} hk hf => ?_⟩
    by_cases hki : k = i
    · refine .inl ⟨?_, hki ▸ haway⟩
      subst hki
      cases he with
      | swapIn own away slot holds free =>
        obtain ⟨rfl, rfl⟩ := hw.owned.eq_of_own hk own
        rw [occupy_dirty, setAt_self]
      | readIn own away slot region count free =>
        obtain ⟨rfl, rfl⟩ := hw.owned.eq_of_own hk own
        rw [occupy_dirty, setAt_self]
    · refine .inr (hother he (by simp) ?_ (by simp) hk hf)
      simpa [Label.subject] using Ne.symm hki
  · refine ⟨fun {q u k} hk hf => ?_⟩
    by_cases hki : k = i
    · refine .inl ⟨?_, hki ▸ haway⟩
      subst hki
      have hv' := he.sound hw
      cases he with
      | grow vacant free =>
        have hnew := hv'.owned.eq_of_own hk (by rw [occupy_own, claim_own, setAt_self])
        rw [hnew.1, hnew.2, occupy_dirty, setAt_self]
    · refine .inr (hother he (by simp) ?_ (by simp [Label.subject]) hk hf)
      simpa [Label.subject] using Ne.symm hki

theorem Still.carries (h : v.Still v') (hv : v.Sound) : v.Carries v' := by
  refine carries_of_retains fun {q u k} hk hf => ?_
  rcases Nat.lt_or_ge k v.next with hlt | hge
  · have hk' := h.own hk hlt
    exact ⟨hk', h.retains hv hk'⟩
  · simp [(h.new hk hge).1] at hf

theorem Loses.carries {xs : List Nat} (h : v.Loses p xs v') : v.Carries v' :=
  carries_of_retains fun hk _ => ⟨h.own_of_own hk, h.retains hk⟩

/-- The page has been in memory all along. -/
def Stays (v v' : View φ) (x : ProcId × Nat) : Prop :=
  ∃ i f, v.own x.1 x.2 = some i ∧ v'.own x.1 x.2 = some i ∧ (v.page i).frame = some f ∧
    (v'.page i).frame = some f

omit [FileSystem φ] in
/-- As long as it stays, a page is as dirty as it was, and it is clean when it comes in. -/
theorem Carries.dirty_iff (h : v.Carries v') (hv' : v'.Sound) :
    v'.dirty p u = true ↔ v.dirty p u = true ∧ v.Stays v' (p, u) := by
  constructor
  · intro hd
    have hmap : v'.mapping? p u ≠ none := fun hnone => by
      simp [hv'.housed.clean p u hnone] at hd
    obtain ⟨x, hx⟩ := Option.ne_none_iff_exists'.1 hmap
    obtain ⟨i, hi, hf, -⟩ := hv'.housed.mapping?_eq_some hx
    rcases h.came_or_stayed hi (by rw [hf]; rfl) with ⟨hclean, -⟩ | ⟨hi', hr⟩
    · simp [hclean] at hd
    · refine ⟨by rw [← hr.dirty, hd], i, x.2, hi', hi, ?_, hf⟩
      rw [← hr.page, hf]
  · rintro ⟨hd, i, f, -, hi, hf, hf'⟩
    rcases h.came_or_stayed hi (by rw [hf']; rfl) with ⟨-, hnone⟩ | ⟨-, hr⟩
    · simp [hf] at hnone
    · rw [hr.dirty, hd]

end View

/-! ### Operations -/

/-- A declaration moves no contents. -/
theorem still_of_declare (h : v' = v ∨ Effect (.declare v.next) v v') (hv : v.Sound) : v.Still v' := by
  rcases h with rfl | he
  · exact .refl hv
  · have hpath : Path Label.mapping v v' := Path.single (l := .declare v.next) trivial he
    exact hpath.still hv

/-- An operation writes back the pages that it takes out of memory. -/
theorem Op.Does.writesBack {op : Op} {answer : Answer} (h : op.Does p v answer v')
    (hbasic : op.basic = true) (hv : v.Sound) (hm : v.Marked) : ∃ us, v.WritesBack v' us := by
  cases op with
  | declareFile => exact ⟨[], (still_of_declare h.1 hv).writesBack hv⟩
  | resolve | growStack | fault => exact View.Fetched.writesBack h hv hm
  | mmap => exact ⟨[], (Path.still h.1 hv).writesBack hv⟩
  | munmap =>
    rcases h.2 with ⟨-, heq⟩ | ⟨-, hunmaps⟩
    · exact MakesRoom.writesBack (.inl heq) hv hm
    · exact hunmaps.loses.writesBack
  | exit =>
    rcases h.2 with ⟨-, heq⟩ | ⟨-, hceases⟩
    · exact MakesRoom.writesBack (.inl heq) hv hm
    · obtain ⟨_, hloses⟩ := hceases.loses
      exact hloses.writesBack
  | load => exact MakesRoom.writesBack (.inl h.1) hv hm
  | setAccessed => exact MakesRoom.writesBack (.inl h) hv hm
  | store =>
    obtain ⟨_, _, _, -, -, rfl⟩ := h
    refine ⟨[], writesBack_nil (fun _ hf hnone => ?_) .refl⟩
    rw [hnone] at hf
    simp at hf
  | userLoad | userStore | validate | validateBuffer | validateString | copy =>
    simp [Op.basic] at hbasic

/-- Only a store makes a page dirty that was there. -/
theorem Op.Does.carries {op : Op} {answer : Answer} (h : op.Does p v answer v')
    (hbasic : op.basic = true) (hstore : ∀ a data, op ≠ .store a data) (hv : v.Sound) :
    v.Carries v' := by
  cases op with
  | declareFile => exact (still_of_declare h.1 hv).carries hv
  | resolve | growStack | fault => exact View.Fetched.carries h hv
  | mmap => exact (Path.still h.1 hv).carries hv
  | munmap =>
    rcases h.2 with ⟨-, rfl⟩ | ⟨-, hunmaps⟩
    · exact .refl _
    · exact hunmaps.loses.carries
  | exit =>
    rcases h.2 with ⟨-, rfl⟩ | ⟨-, hceases⟩
    · exact .refl _
    · obtain ⟨_, hloses⟩ := hceases.loses
      exact hloses.carries
  | load =>
    rw [h.1]
    exact .refl _
  | setAccessed =>
    rw [show v' = v from h]
    exact .refl _
  | store a data => exact absurd rfl (hstore a data)
  | userLoad | userStore | validate | validateBuffer | validateString | copy =>
    simp [Op.basic] at hbasic

end DemandPaging
