import DemandPaging.PageTable.Basic

/-!
# What a page table says

A table is looked at in three ways: `mapping?` says which frame a page is mapped to and with which
rights, `isDirty` and `isAccessed` read the two bits that the hardware sets. Each operation has one
law for each of them.
-/

namespace DemandPaging

namespace PageTable

/-- What an entry allows, and the number of the frame it names. -/
structure Rights where
  present : Bool
  user : Bool
  writable : Bool
  pfn : Nat
  deriving DecidableEq, Repr

/-- The rights under which a page of a user program is mapped to a frame. -/
def Rights.forUser (f : Frame) (writable : Bool) : Rights := ⟨true, true, writable, f.pfn⟩

/-- An entry without its accessed and dirty bits. -/
def Entry.rights (e : Entry) : Rights := ⟨e.present, e.user, e.writable, e.pfn⟩

@[simp] theorem Entry.rights_setAccessed (e : Entry) (v : Bool) :
    (e.setAccessed v).rights = e.rights := by simp [rights]

@[simp] theorem Entry.rights_touch (e : Entry) (w : Bool) : (e.touch w).rights = e.rights := by
  simp [rights]

theorem Entry.rights_ofFrame {f : Frame} (h : f.pfn < pfnLimit) (w : Bool) :
    (ofFrame f w).rights = .forUser f w := by simp [rights, Rights.forUser, pfn_ofFrame h]

/-- The rights and the frame of a mapped page. -/
def mapping? (t : PageTable) (u : Nat) : Option (Rights × Frame) :=
  t.entries[u]?.map fun x => (x.1.rights, x.2)

variable {t t' : PageTable} {u : Nat} {f : Frame} {w : Bool}

@[simp] theorem mapping?_empty (limit : Option Nat) : (empty limit).mapping? u = none := by
  simp [mapping?, empty]

@[simp] theorem isDirty_empty (limit : Option Nat) : (empty limit).isDirty u = false := by
  simp [isDirty, empty]

theorem mapping?_insert (t : PageTable) (u v : Nat) (e : Entry) (f : Frame) :
    PageTable.mapping? { t with entries := t.entries.insert u (e, f) } v =
      if u = v then some (e.rights, f) else t.mapping? v := by
  simp only [mapping?, Std.ExtTreeMap.getElem?_insert, Nat.compare_eq_eq]
  split <;> simp

theorem isDirty_insert (t : PageTable) (u v : Nat) (e : Entry) (f : Frame) :
    PageTable.isDirty { t with entries := t.entries.insert u (e, f) } v =
      if u = v then e.dirty else t.isDirty v := by
  simp only [isDirty, Std.ExtTreeMap.getElem?_insert, Nat.compare_eq_eq]
  by_cases h : u = v <;> simp [h]

theorem isAccessed_insert (t : PageTable) (u v : Nat) (e : Entry) (f : Frame) :
    PageTable.isAccessed { t with entries := t.entries.insert u (e, f) } v =
      if u = v then e.accessed else t.isAccessed v := by
  simp only [isAccessed, Std.ExtTreeMap.getElem?_insert, Nat.compare_eq_eq]
  by_cases h : u = v <;> simp [h]

/-! ### Mapping and unmapping -/

/-- What mapping a page comes to: the frame number is too wide, or the table does not take the page,
or the page is mapped from then on, neither accessed nor written to yet. -/
theorem map_cases (hu : isAligned u = true) :
    t.map u f w = .error .wideFrame ∧ Entry.pfnLimit ≤ f.pfn ∨
    t.map u f w = .ok none ∧ ((t.mapping? u).isSome = true ∨ t.full = true) ∨
    ∃ t', t.map u f w = .ok (some t') ∧ t.mapping? u = none ∧ t'.limit = t.limit ∧
      (∀ v, t'.mapping? v = if u = v then some (.forUser f w, f) else t.mapping? v) ∧
      (∀ v, t'.isDirty v = if u = v then false else t.isDirty v) ∧
      ∀ v, t'.isAccessed v = if u = v then false else t.isAccessed v := by
  simp only [map, hu, Bool.not_true, Bool.false_eq_true, if_false]
  by_cases hin : (t.entries.contains u || t.full) = true
  · refine .inr (.inl ⟨by rw [if_pos hin], ?_⟩)
    simpa [mapping?] using hin
  · rw [if_neg hin]
    have hfree : t.mapping? u = none := by
      simp only [Bool.or_eq_true, not_or, Bool.not_eq_true] at hin
      have hnone : t.entries[u]? = none := Std.ExtTreeMap.getElem?_eq_none_of_contains_eq_false hin.1
      simp [mapping?, hnone]
    by_cases hpfn : Entry.pfnLimit ≤ f.pfn
    · exact .inl ⟨by rw [if_pos hpfn], hpfn⟩
    · rw [if_neg hpfn]
      refine .inr (.inr ⟨_, rfl, hfree, rfl, fun v => ?_, fun v => ?_, fun v => ?_⟩)
      · rw [mapping?_insert, Entry.rights_ofFrame (Nat.lt_of_not_le hpfn)]
      · rw [isDirty_insert, Entry.dirty_ofFrame]
      · rw [isAccessed_insert, Entry.accessed_ofFrame]

/-- To map a page is to leave the entries alone that there are. -/
theorem entries_map (h : t.map u f w = .ok (some t')) {v : Nat} {x : Entry × Frame}
    (hx : t.entries[v]? = some x) : t'.entries[v]? = some x := by
  unfold map at h
  split at h
  · simp at h
  split at h
  · simp at h
  rename_i hin
  split at h
  · simp at h
  obtain rfl := Option.some.inj (Except.ok.inj h)
  rw [Std.ExtTreeMap.getElem?_insert, if_neg, hx]
  -- the address that is mapped has no entry yet
  simp only [Nat.compare_eq_eq]
  rintro rfl
  have hcontains : t.entries.contains u = true := by
    rw [Std.ExtTreeMap.contains_eq_isSome_getElem?, hx]
    rfl
  simp [hcontains] at hin

theorem mapping?_unmap (t : PageTable) (u v : Nat) :
    (t.unmap u).mapping? v = if u = v then none else t.mapping? v := by
  simp only [mapping?, unmap, Std.ExtTreeMap.getElem?_erase, Nat.compare_eq_eq]
  split <;> simp

theorem isDirty_unmap (t : PageTable) (u v : Nat) :
    (t.unmap u).isDirty v = if u = v then false else t.isDirty v := by
  simp only [isDirty, unmap, Std.ExtTreeMap.getElem?_erase, Nat.compare_eq_eq]
  by_cases h : u = v <;> simp [h]

theorem isAccessed_unmap (t : PageTable) (u v : Nat) :
    (t.unmap u).isAccessed v = if u = v then false else t.isAccessed v := by
  simp only [isAccessed, unmap, Std.ExtTreeMap.getElem?_erase, Nat.compare_eq_eq]
  by_cases h : u = v <;> simp [h]

theorem Entry.setAccessed_setAccessed (e : Entry) (a b : Bool) :
    (e.setAccessed a).setAccessed b = e.setAccessed b := by
  simp only [setAccessed, Entry.mk.injEq]
  refine BitArray.ext_test fun i => ?_
  rw [BitArray.test_put _ (by decide), BitArray.test_put _ (by decide), BitArray.test_put _ (by decide)]
  split <;> rfl

theorem entries_setAccessed (t : PageTable) (u : Nat) (a : Bool) (w : Nat) :
    (t.setAccessed u a).entries[w]? =
      if u = w then t.entries[w]?.map fun x => (x.1.setAccessed a, x.2) else t.entries[w]? := by
  unfold setAccessed
  split
  · rename_i hu
    simp only [Std.ExtTreeMap.getElem?_insert, Nat.compare_eq_eq]
    split
    · rename_i huw
      rw [← huw, hu, Option.map_some]
    · rfl
  · rename_i hu
    split
    · rename_i huw
      rw [← huw, hu, Option.map_none]
    · rfl

theorem mapping?_setAccessed (t : PageTable) (u : Nat) (a : Bool) (v : Nat) :
    (t.setAccessed u a).mapping? v = t.mapping? v := by
  unfold setAccessed
  split
  · rename_i e f he
    rw [mapping?_insert]
    split
    · rename_i huv
      simp [mapping?, ← huv, he]
    · rfl
  · rfl

theorem isDirty_setAccessed (t : PageTable) (u : Nat) (a : Bool) (v : Nat) :
    (t.setAccessed u a).isDirty v = t.isDirty v := by
  unfold setAccessed
  split
  · rename_i e f he
    rw [isDirty_insert]
    split
    · rename_i huv
      simp [isDirty, ← huv, he]
    · rfl
  · rfl

@[simp] theorem limit_setAccessed (t : PageTable) (u : Nat) (a : Bool) :
    (t.setAccessed u a).limit = t.limit := by
  unfold setAccessed
  split <;> rfl

/-! ### Touching a page -/

/-- What a touch that goes through tells of the page and does to the table. -/
structure Touches (t : PageTable) (a : Nat) (w : Bool) (f : Frame) (t' : PageTable) : Prop where
  lt : a < wordLimit
  mapped : ∃ r : Rights, t.mapping? (pageBase a) = some (r, f) ∧ (w = true → r.writable = true)
  mapping? : ∀ v, t'.mapping? v = t.mapping? v
  isDirty : ∀ v, t'.isDirty v = (t.isDirty v || (w && pageBase a == v))
  isAccessed : ∀ v, t'.isAccessed v = (t.isAccessed v || pageBase a == v)
  limit : t'.limit = t.limit

/-- A page that can be touched is touched, and otherwise the fault names its address. -/
theorem touch_cases (t : PageTable) (a : Nat) (w : Bool) :
    (∃ f t', t.touch a w = .ok (f, t') ∧ t.Touches a w f t') ∨
    (∃ p, t.touch a w = .error (.fault ⟨a, w, p⟩) ∧
      ∀ r f, t.mapping? (pageBase a) = some (r, f) → w = true ∧ r.writable = false) ∨
    (t.touch a w = .error (.misuse .pastEnd) ∧ wordLimit ≤ a) ∨
    (t.touch a w = .error (.misuse .notUserPage) ∧
      ∃ r f, t.mapping? (pageBase a) = some (r, f) ∧ ¬ (r.present = true ∧ r.user = true)) := by
  unfold touch
  by_cases ha : wordLimit ≤ a
  · exact .inr (.inr (.inl ⟨by rw [if_pos ha], ha⟩))
  rw [if_neg ha]
  cases he : t.entries[pageBase a]? with
  | none => exact .inr (.inl ⟨false, rfl, by simp [PageTable.mapping?, he]⟩)
  | some x =>
    obtain ⟨e, f⟩ := x
    have hmap : t.mapping? (pageBase a) = some (e.rights, f) := by simp [PageTable.mapping?, he]
    simp only
    by_cases huser : (e.present && e.user) = true
    · by_cases hw : (w && !e.writable) = true
      · refine .inr (.inl ⟨true, by simp [huser, hw], fun r g hr => ?_⟩)
        rw [hmap] at hr
        simp only [Option.some.injEq, Prod.mk.injEq] at hr
        obtain ⟨rfl, -⟩ := hr
        simpa [Entry.rights] using hw
      · have hok : (if (!(e.present && e.user)) = true then Except.error (Trouble.misuse .notUserPage)
            else if (w && !e.writable) = true then .error (.fault ⟨a, w, true⟩)
            else .ok (f, { t with entries := t.entries.insert (pageBase a) (e.touch w, f) })) =
            .ok (f, { t with entries := t.entries.insert (pageBase a) (e.touch w, f) }) := by
          simp [huser, hw]
        refine .inl ⟨_, _, hok, Nat.lt_of_not_le ha, ⟨_, hmap, fun h => ?_⟩, fun v => ?_, fun v => ?_,
          fun v => ?_, rfl⟩
        · simpa [h, Entry.rights] using hw
        · rw [mapping?_insert, Entry.rights_touch]
          split
          · rename_i hv
            rw [← hv, hmap]
          · rfl
        · rw [isDirty_insert, Entry.dirty_touch]
          by_cases hv : pageBase a = v
          · have hd : t.isDirty v = e.dirty := by simp [PageTable.isDirty, ← hv, he]
            simp [hv, hd]
          · simp [hv]
        · rw [isAccessed_insert, Entry.accessed_touch]
          by_cases hv : pageBase a = v <;> simp [hv]
    · refine .inr (.inr (.inr ⟨by simp [huser], _, _, hmap, ?_⟩))
      simpa [Entry.rights] using huser

theorem touches_of_touch {a : Nat} (h : t.touch a w = .ok (f, t')) : t.Touches a w f t' := by
  rcases t.touch_cases a w with ⟨f₁, t₁, h₁, ht⟩ | ⟨p, h₁, -⟩ | ⟨h₁, -⟩ | ⟨h₁, -⟩ <;> rw [h₁] at h
  · simp only [Except.ok.injEq, Prod.mk.injEq] at h
    obtain ⟨rfl, rfl⟩ := h
    exact ht
  all_goals simp at h

end PageTable

end DemandPaging
