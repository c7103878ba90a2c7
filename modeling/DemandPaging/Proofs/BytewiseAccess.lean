import DemandPaging.Proofs.Access
import DemandPaging.Proofs.Pool

/-!
# Accesses byte by byte

An access that moves whole pieces of pages at a time comes to the same as one access for each byte,
in ascending order, up to the first byte that cannot be accessed. The reference `loadBytes` and
`storeBytes` is easy to describe, since each step is about one byte of one page: `Passes` and `Fills`
are proved for it by induction on the length, and hold of the real accesses because the two are
equal. No step asks how the pages are mapped to frames, so several of them may share one.
-/

namespace DemandPaging

namespace Pool

/-- To put one byte into a frame is to change this byte of the memory and no other. -/
theorem getElem?_read_put (p : Pool) (f g : Frame) (pos o : Nat) (x : UInt8) (h : pos < pageSize) :
    ((p.write f ((p.read f).overlay pos [x])).read g).data[o]? =
      if f.cell < p.total ∧ f.cell = g.cell ∧ pos = o then some x else (p.read g).data[o]? := by
  rcases Nat.lt_or_ge f.cell p.total with hf | hf
  · rw [read_write p hf]
    by_cases hcell : f.cell = g.cell
    · rw [if_pos hcell, p.read_eq_of_cell hcell]
      by_cases ho : pos = o
      · subst ho
        rw [Bytes.getElem?_overlay _ _ _ h, if_pos (by simp), if_pos ⟨hf, hcell, rfl⟩, Nat.sub_self]
        rfl
      · rw [if_neg fun hall => ho hall.2.2]
        rcases Nat.lt_or_ge o pageSize with hlt | hge
        · rw [Bytes.getElem?_overlay _ _ _ hlt, if_neg (by rw [List.length_singleton]; omega)]
        · rw [Bytes.getElem?_data_eq_none _ hge, Bytes.getElem?_data_eq_none _ hge]
    · rw [if_neg hcell, if_neg fun hall => hcell hall.2.1]
  · rw [write_of_le hf, if_neg fun hall => absurd hall.1 (Nat.not_lt.2 hf)]

end Pool

namespace Bytes

variable {n : Nat}

/-- To overlay a run of bytes is to overlay the first and then the others behind it. -/
theorem overlay_cons (b : Bytes n) (pos : Nat) (x : UInt8) (xs : List UInt8) :
    b.overlay pos (x :: xs) = (b.overlay pos [x]).overlay (pos + 1) xs := by
  refine ext_getElem? fun i => ?_
  rcases Nat.lt_or_ge i n with hi | hi
  · simp only [getElem?_overlay _ _ _ hi, List.length_cons, List.length_nil]
    by_cases hpos : i = pos
    · subst hpos
      rw [if_pos (by omega), if_neg (by omega), if_pos (by omega), Nat.sub_self]
      rfl
    · by_cases hin : pos + 1 ≤ i ∧ i < pos + 1 + xs.length
      · rw [if_pos (by omega), if_pos hin, show i - pos = i - (pos + 1) + 1 by omega,
          List.getElem?_cons_succ]
      · rw [if_neg (by omega), if_neg hin, if_neg (by omega)]
  · rw [getElem?_data_eq_none _ hi, getElem?_data_eq_none _ hi]

theorem slice_succ (b : Bytes n) (pos len : Nat) :
    b.slice pos (len + 1) = b.slice pos 1 ++ b.slice (pos + 1) len := by
  rw [slice, slice, slice, Nat.add_comm len 1, List.take_add, List.drop_drop]

end Bytes

namespace PageTable

/-- Reads the `len` bytes from `a` on one after the other, up to the first that cannot be read. -/
def loadBytes (t : PageTable) (pool : Pool) (a : Nat) : Nat → Loaded
  | 0 => ⟨[], t, none⟩
  | len + 1 =>
    let first := t.load pool a 1
    match first.trouble with
    | some _ => first
    | none =>
      let later := first.table.loadBytes pool (a + 1) len
      { later with bytes := first.bytes ++ later.bytes }

/-- Writes the bytes of `data` from `a` on one after the other, up to the first that cannot be
written. -/
def storeBytes (t : PageTable) (pool : Pool) (a : Nat) : List UInt8 → Stored
  | [] => ⟨pool, t, none⟩
  | x :: rest =>
    let first := t.store pool a [x]
    match first.trouble with
    | some _ => first
    | none => first.table.storeBytes first.pool (a + 1) rest

variable {t t' : PageTable} {pool : Pool} {f : Frame} {a b : Nat} {w : Bool} {e : Trouble}

/-! ### One byte -/

theorem load_one (t : PageTable) (pool : Pool) (a : Nat) :
    t.load pool a 1 =
      match t.touch a false with
      | .error e => ⟨[], t, some e⟩
      | .ok (f, t') => ⟨(pool.read f).slice (pageOffset a) 1, t', none⟩ := by
  have hfirst : inFirst a 1 = 1 := by
    have := pageOffset_lt a
    rw [inFirst]
    omega
  rw [load_cons t pool Nat.one_pos, hfirst]
  cases t.touch a false with
  | error e => rfl
  | ok x => simp [load, loadSpans]

theorem store_one (t : PageTable) (pool : Pool) (a : Nat) (x : UInt8) :
    t.store pool a [x] =
      match t.touch a true with
      | .error e => ⟨pool, t, some e⟩
      | .ok (f, t') => ⟨pool.write f ((pool.read f).overlay (pageOffset a) [x]), t', none⟩ := by
  have hfirst : inFirst a 1 = 1 := by
    have := pageOffset_lt a
    rw [inFirst]
    omega
  have hpos : 0 < [x].length := Nat.one_pos
  rw [store_cons t pool hpos]
  cases t.touch a true with
  | error e => rfl
  | ok y => simp [store, storeSpans, hfirst]

theorem loadBytes_succ (t : PageTable) (pool : Pool) (a len : Nat) :
    t.loadBytes pool a (len + 1) =
      match t.touch a false with
      | .error e => ⟨[], t, some e⟩
      | .ok (f, t') =>
        let later := t'.loadBytes pool (a + 1) len
        { later with bytes := (pool.read f).slice (pageOffset a) 1 ++ later.bytes } := by
  rw [loadBytes, load_one]
  cases t.touch a false <;> rfl

theorem storeBytes_cons (t : PageTable) (pool : Pool) (a : Nat) (x : UInt8) (rest : List UInt8) :
    t.storeBytes pool a (x :: rest) =
      match t.touch a true with
      | .error e => ⟨pool, t, some e⟩
      | .ok (f, t') =>
        t'.storeBytes (pool.write f ((pool.read f).overlay (pageOffset a) [x])) (a + 1) rest := by
  rw [storeBytes, store_one]
  cases t.touch a true <;> rfl

/-! ### One page -/

theorem pageBase_succ (h : pageOffset a + 1 < pageSize) :
    pageBase (a + 1) = pageBase a ∧ pageOffset (a + 1) = pageOffset a + 1 := by
  simp only [pageBase, pageOffset, pageSize] at *
  omega

theorem Entry.touch_touch (e : Entry) (w : Bool) : (e.touch w).touch w = e.touch w := by
  simp only [touch, Entry.mk.injEq, setDirty, setAccessed]
  refine BitArray.ext_test fun i => ?_
  simp only [BitArray.test_put _ (show 5 < 32 by decide), BitArray.test_put _ (show 6 < 32 by decide),
    dirty]
  split
  · simp
  · split <;> rfl

theorem touch_eq_ok (h : t.touch a w = .ok (f, t')) :
    ∃ e, t.entries[pageBase a]? = some (e, f) ∧ (e.present && e.user) = true ∧
      (w && !e.writable) = false ∧ a < wordLimit ∧
      t' = { t with entries := t.entries.insert (pageBase a) (e.touch w, f) } := by
  unfold touch at h
  split at h
  · simp at h
  rename_i hlt
  split at h
  · simp at h
  rename_i e g he
  split at h
  · simp at h
  rename_i huser
  split at h
  · simp at h
  rename_i hw
  simp only [Except.ok.injEq, Prod.mk.injEq] at h
  obtain ⟨rfl, rfl⟩ := h
  exact ⟨e, he, by simpa using huser, by simpa using hw, by omega, rfl⟩

/-- Once a page has been accessed, further accesses of the same kind leave its entry as it is. -/
theorem touch_again (h : t.touch a w = .ok (f, t')) (hb : pageBase b = pageBase a) :
    t'.touch b w = .ok (f, t') := by
  obtain ⟨e, he, huser, hw, hlt, rfl⟩ := touch_eq_ok h
  have hblt : ¬ wordLimit ≤ b := by
    simp only [pageBase, pageSize, wordLimit] at *
    omega
  have hentry : (t.entries.insert (pageBase a) (e.touch w, f))[pageBase a]? = some (e.touch w, f) := by
    simp
  have hinsert : (t.entries.insert (pageBase a) (e.touch w, f)).insert (pageBase a) (e.touch w, f) =
      t.entries.insert (pageBase a) (e.touch w, f) := by
    refine Std.ExtTreeMap.ext_getElem? fun v => ?_
    simp only [Std.ExtTreeMap.getElem?_insert, Nat.compare_eq_eq]
    split <;> rfl
  simp only [touch, if_neg hblt, hb, hentry, Entry.present_touch, Entry.user_touch, huser,
    Entry.writable_touch, hw, Entry.touch_touch, hinsert, Bool.not_true, Bool.false_eq_true, if_false]

/-- Reading byte by byte takes what it wants of a page in one piece. -/
theorem loadBytes_page (pool : Pool) (m : Nat) : ∀ (n : Nat) (t : PageTable) (a : Nat),
    t.touch a false = .ok (f, t') → pageOffset a + (n + 1) ≤ pageSize →
    t.loadBytes pool a (n + 1 + m) =
      let later := t'.loadBytes pool (a + (n + 1)) m
      { later with bytes := (pool.read f).slice (pageOffset a) (n + 1) ++ later.bytes } := by
  intro n
  induction n with
  | zero =>
    intro t a htouch _
    rw [Nat.zero_add, Nat.add_comm 1 m, loadBytes_succ, htouch]
  | succ n ih =>
    intro t a htouch hfits
    have hnext := pageBase_succ (a := a) (by omega)
    have hrest := ih t' (a + 1) (touch_again htouch hnext.1) (by rw [hnext.2]; omega)
    rw [show n + 1 + 1 + m = n + 1 + m + 1 by omega, loadBytes_succ, htouch]
    simp only [hrest, hnext.2, Bytes.slice_succ _ _ (n + 1), List.append_assoc,
      show a + 1 + (n + 1) = a + (n + 1 + 1) by omega]

/-- Writing byte by byte fills what it wants of a page in one piece. -/
theorem storeBytes_page (rest : List UInt8) :
    ∀ (xs : List UInt8) (x : UInt8) (t : PageTable) (pool : Pool) (a : Nat),
    t.touch a true = .ok (f, t') → pageOffset a + (xs.length + 1) ≤ pageSize →
    t.storeBytes pool a (x :: xs ++ rest) =
      t'.storeBytes (pool.write f ((pool.read f).overlay (pageOffset a) (x :: xs)))
        (a + (xs.length + 1)) rest := by
  intro xs
  induction xs with
  | nil =>
    intro x t pool a htouch _
    rw [List.singleton_append, storeBytes_cons, htouch]
    rfl
  | cons y ys ih =>
    intro x t pool a htouch hfits
    rw [List.length_cons] at hfits
    have hnext := pageBase_succ (a := a) (by omega)
    have hrest := ih y t' (pool.write f ((pool.read f).overlay (pageOffset a) [x])) (a + 1)
      (touch_again htouch hnext.1) (by rw [hnext.2]; omega)
    -- both writes go to the one frame
    have hpool : (pool.write f ((pool.read f).overlay (pageOffset a) [x])).write f
          (((pool.write f ((pool.read f).overlay (pageOffset a) [x])).read f).overlay
            (pageOffset (a + 1)) (y :: ys)) =
        pool.write f ((pool.read f).overlay (pageOffset a) (x :: y :: ys)) := by
      rcases Nat.lt_or_ge f.cell pool.total with hcell | hcell
      · rw [Pool.write_write, Pool.read_write _ hcell, if_pos rfl, Bytes.overlay_cons _ _ x (y :: ys),
          hnext.2]
      · simp only [Pool.write_of_le hcell]
    rw [List.cons_append, storeBytes_cons, htouch]
    simp only [hrest, hpool, List.length_cons,
      show a + 1 + (ys.length + 1) = a + (ys.length + 1 + 1) by omega]

/-! ### The whole range -/

theorem pageOffset_add_inFirst_le (a len : Nat) : pageOffset a + inFirst a len ≤ pageSize := by
  have := pageOffset_lt a
  rw [inFirst]
  omega

/-- A read is the same as one read for each byte. -/
theorem load_eq_loadBytes (pool : Pool) : ∀ (len : Nat) (t : PageTable) (a : Nat),
    t.load pool a len = t.loadBytes pool a len := by
  intro len
  induction len using Nat.strongRecOn with
  | ind len ih =>
    intro t a
    rcases Nat.eq_zero_or_pos len with rfl | hpos
    · rfl
    have hfirst := inFirst_pos (a := a) hpos
    have hle := inFirst_le a len
    have hfits := pageOffset_add_inFirst_le a len
    rw [load_cons t pool hpos]
    generalize inFirst a len = n at hfirst hle hfits
    cases htouch : t.touch a false with
    | error e =>
      rw [show len = len - 1 + 1 by omega, loadBytes_succ, htouch]
    | ok x =>
      obtain ⟨f, t'⟩ := x
      have hpage := loadBytes_page pool (len - n) (n - 1) t a htouch (by omega)
      rw [show n - 1 + 1 = n by omega, show n + (len - n) = len by omega] at hpage
      simp only [hpage, ih (len - n) (by omega)]

/-- A write is the same as one write for each byte. -/
theorem store_eq_storeBytes : ∀ (data : List UInt8) (t : PageTable) (pool : Pool) (a : Nat),
    t.store pool a data = t.storeBytes pool a data := by
  intro data
  induction hlen : data.length using Nat.strongRecOn generalizing data with
  | ind len ih =>
    subst hlen
    intro t pool a
    cases data with
    | nil => rfl
    | cons x xs =>
      have hpos : 0 < (x :: xs).length := Nat.succ_pos _
      have hfirst := inFirst_pos (a := a) hpos
      have hle := inFirst_le a (x :: xs).length
      have hfits := pageOffset_add_inFirst_le a (x :: xs).length
      rw [store_cons t pool hpos]
      generalize inFirst a (x :: xs).length = n at hfirst hle hfits
      obtain ⟨n, rfl⟩ := Nat.exists_eq_add_one_of_ne_zero (Nat.ne_of_gt hfirst)
      rw [List.length_cons] at hle
      cases htouch : t.touch a true with
      | error e => rw [storeBytes_cons, htouch]
      | ok y =>
        obtain ⟨f, t'⟩ := y
        have hlen : (xs.take n).length = n := by rw [List.length_take]; omega
        have hpage := storeBytes_page (xs.drop n) (xs.take n) x t pool a htouch (by rw [hlen]; omega)
        rw [List.cons_append, List.take_append_drop, hlen] at hpage
        simp only [hpage, List.take_succ_cons, List.drop_succ_cons]
        exact ih _ (by rw [List.length_drop, List.length_cons]; omega) (xs.drop n) rfl t' _ _

/-! ### How far an access gets -/

/-- The page of `a` is mapped, and may be written to if `w`. -/
def Allows (t : PageTable) (w : Bool) (a : Nat) : Prop :=
  ∃ r f, t.mapping? (pageBase a) = some (r, f) ∧ (w = true → r.writable = true)

/-- Every mapped page may be used by user programs. -/
def Usable (t : PageTable) : Prop :=
  ∀ u r f, t.mapping? u = some (r, f) → r.present = true ∧ r.user = true

/-- Why the byte at `a` cannot be accessed: its page is not mapped, or it is and may not be written
to. -/
structure Denies (t : PageTable) (w : Bool) (a : Nat) (e : Trouble) : Prop where
  trouble : ∃ present, e = .fault ⟨a, w, present⟩ ∧
    (present = false ∧ t.mapping? (pageBase a) = none ∨
      present = true ∧ w = true ∧ ∃ r f, t.mapping? (pageBase a) = some (r, f) ∧ r.writable = false)

theorem Denies.not_allows (h : t.Denies w a e) : ¬ t.Allows w a := by
  rintro ⟨r, f, hr, hw⟩
  obtain ⟨present, -, ⟨-, hnone⟩ | ⟨-, hwrite, r', g, hr', hno⟩⟩ := h.trouble
  · rw [hnone] at hr
    simp at hr
  · rw [hr'] at hr
    simp only [Option.some.injEq, Prod.mk.injEq] at hr
    rw [hr.1, hw hwrite] at hno
    simp at hno

/-- An access to `len` bytes from `a` on that gets past the first `k` of them and no further: all of
them, or up to one that cannot be accessed. The entries of their pages have recorded it. -/
structure Passes (t : PageTable) (w : Bool) (a len k : Nat) (trouble : Option Trouble)
    (t' : PageTable) : Prop where
  le : k ≤ len
  allows : ∀ i < k, t.Allows w (a + i)
  none_iff : trouble = none ↔ k = len
  denies : ∀ e, trouble = some e → t.Denies w (a + k) e
  entries : ∀ v, t'.entries[v]? =
    if ∃ i < k, pageBase (a + i) = v then t.entries[v]?.map fun x => (x.1.touch w, x.2)
    else t.entries[v]?
  limit : t'.limit = t.limit
  mapped : t'.mapped = t.mapped

section

variable {len k : Nat} {trouble : Option Trouble} {later : PageTable}

theorem Passes.nil (t : PageTable) (w : Bool) (a : Nat) : t.Passes w a 0 0 none t where
  le := Nat.le_refl _
  allows i hi := absurd hi (Nat.not_lt_zero i)
  none_iff := by simp
  denies e he := by simp at he
  entries v := by simp
  limit := rfl
  mapped := rfl

theorem Usable.denies (h : t.Usable) (ha : a < wordLimit) (he : t.touch a w = .error e) :
    t.Denies w a e := by
  unfold touch at he
  rw [if_neg (Nat.not_le.2 ha)] at he
  split at he
  · rename_i hnone
    exact ⟨false, (Except.error.inj he).symm, .inl ⟨rfl, by simp [mapping?, hnone]⟩⟩
  rename_i entry f hentry
  have hmap : t.mapping? (pageBase a) = some (entry.rights, f) := by simp [mapping?, hentry]
  obtain ⟨hpresent, huser⟩ := h _ _ _ hmap
  have huse : (entry.present && entry.user) = true := by
    rw [Bool.and_eq_true]
    exact ⟨hpresent, huser⟩
  rw [huse, Bool.not_true, if_neg Bool.false_ne_true] at he
  split at he
  · rename_i hw
    rw [Bool.and_eq_true, Bool.not_eq_true'] at hw
    exact ⟨true, (Except.error.inj he).symm, .inr ⟨rfl, hw.1, _, f, hmap, hw.2⟩⟩
  · simp at he

theorem Passes.stop (h : t.Usable) (ha : a < wordLimit) (he : t.touch a w = .error e) :
    t.Passes w a (len + 1) 0 (some e) t where
  le := Nat.zero_le _
  allows i hi := absurd hi (Nat.not_lt_zero i)
  none_iff := by simp
  denies e' he' := Option.some.inj he' ▸ h.denies ha he
  entries v := by simp
  limit := rfl
  mapped := rfl

/-- To get past the first byte and `k` more is to get past `k + 1`. -/
theorem Passes.succ (ht : t.touch a w = .ok (f, t'))
    (h : t'.Passes w (a + 1) len k trouble later) : t.Passes w a (len + 1) (k + 1) trouble later := by
  have hmap := (touches_of_touch ht).mapping?
  have hallows : ∀ b, t'.Allows w b ↔ t.Allows w b := fun b => by simp only [Allows, hmap]
  obtain ⟨entry, hentry, -, -, -, rfl⟩ := touch_eq_ok ht
  refine ⟨Nat.succ_le_succ h.le, fun i hi => ?_, by rw [h.none_iff]; omega, fun e he => ?_,
    fun v => ?_, h.limit, ?_⟩
  · cases i with
    | zero =>
      obtain ⟨r, hr, hw⟩ := (touches_of_touch ht).mapped
      exact ⟨r, f, hr, hw⟩
    | succ i =>
      have := (hallows _).1 (h.allows i (by omega))
      rwa [Nat.add_right_comm] at this
  · have hdeny := (h.denies e he).trouble
    rw [Nat.add_right_comm, hmap] at hdeny
    exact ⟨hdeny⟩
  · have hshift : (∃ i < k + 1, pageBase (a + i) = v) ↔
        pageBase a = v ∨ ∃ i < k, pageBase (a + 1 + i) = v := by
      constructor
      · rintro ⟨_ | i, hi, hv⟩
        · exact .inl hv
        · exact .inr ⟨i, by omega, by rw [← hv]; congr 1; omega⟩
      · rintro (hv | ⟨i, hi, hv⟩)
        · exact ⟨0, by omega, hv⟩
        · exact ⟨i + 1, by omega, by rw [← hv]; congr 1; omega⟩
    simp only [h.entries, Std.ExtTreeMap.getElem?_insert, Nat.compare_eq_eq, hshift]
    by_cases hv : pageBase a = v
    · -- the entry of a page is the same after one access of it and after several
      subst hv
      simp [hentry, Entry.touch_touch]
    · simp [hv]
  · rw [h.mapped]
    have hcontains : t.entries.contains (pageBase a) = true := by
      rw [Std.ExtTreeMap.contains_eq_isSome_getElem?, hentry]
      rfl
    simp [PageTable.mapped, Std.ExtTreeMap.size_insert, hcontains]

/-- An access ends well exactly if every page of its range allows it. -/
theorem Passes.none_iff_allows (h : t.Passes w a len k trouble t') :
    trouble = none ↔ ∀ i < len, t.Allows w (a + i) := by
  constructor
  · intro hnone i hi
    exact h.allows i (h.none_iff.1 hnone ▸ hi)
  · intro hall
    rcases Nat.lt_or_ge k len with hlt | hge
    · cases htrouble : trouble with
      | none => rfl
      | some e => exact absurd (hall k hlt) (h.denies e htrouble).not_allows
    · exact h.none_iff.2 (Nat.le_antisymm h.le hge)

/-- What an access to `k` bytes from `a` on leaves behind in the table: accessed bits, dirty bits if
it is a write, and nothing else. -/
structure Records (t : PageTable) (w : Bool) (a k : Nat) (t' : PageTable) : Prop where
  accessed : ∀ v, t'.isAccessed v = true ↔
    t.isAccessed v = true ∨ ∃ i < k, pageBase (a + i) = v
  dirty : ∀ v, t'.isDirty v = true ↔
    t.isDirty v = true ∨ w = true ∧ ∃ i < k, pageBase (a + i) = v
  mapping? : ∀ v, t'.mapping? v = t.mapping? v
  others : ∀ v, (∀ i < k, pageBase (a + i) ≠ v) → t'.entries[v]? = t.entries[v]?
  limit : t'.limit = t.limit
  mapped : t'.mapped = t.mapped

theorem Passes.records (h : t.Passes w a len k trouble t') : t.Records w a k t' := by
  have hsome : ∀ v, (∃ i < k, pageBase (a + i) = v) → ∃ e f, t.entries[v]? = some (e, f) := by
    rintro v ⟨i, hi, rfl⟩
    obtain ⟨r, f, hr, -⟩ := h.allows i hi
    rw [PageTable.mapping?, Option.map_eq_some_iff] at hr
    obtain ⟨x, hx, -⟩ := hr
    exact ⟨x.1, x.2, hx⟩
  refine ⟨fun v => ?_, fun v => ?_, fun v => ?_, fun v hv => ?_, h.limit, h.mapped⟩
  · by_cases hin : ∃ i < k, pageBase (a + i) = v
    · obtain ⟨e, f, he⟩ := hsome v hin
      simp only [isAccessed, h.entries, hin, if_true, he, Option.map_some, Entry.accessed_touch, or_true]
    · simp only [isAccessed, h.entries, hin, if_false, or_false]
  · by_cases hin : ∃ i < k, pageBase (a + i) = v
    · obtain ⟨e, f, he⟩ := hsome v hin
      simp only [isDirty, h.entries, hin, if_true, he, Option.map_some, Entry.dirty_touch,
        Bool.or_eq_true, and_true]
    · simp only [isDirty, h.entries, hin, if_false, and_false, or_false]
  · simp only [PageTable.mapping?, h.entries]
    split
    · simp [Option.map_map, Function.comp_def]
    · rfl
  · rw [h.entries, if_neg]
    rintro ⟨i, hi, hiv⟩
    exact hv i hi hiv

end

theorem Usable.congr (h : t.Usable) (heq : ∀ v, t'.mapping? v = t.mapping? v) : t'.Usable :=
  fun u r f hu => h u r f (by rw [← heq u, hu])

/-! ### Which bytes move -/

/-- Byte `o` of frame `g` is what user programs see at `a`. -/
def Sees (t : PageTable) (a : Nat) (g : Frame) (o : Nat) : Prop :=
  ∃ r f, t.mapping? (pageBase a) = some (r, f) ∧ f.cell = g.cell ∧ pageOffset a = o

theorem sees_iff {r : Rights} (h : t.mapping? (pageBase a) = some (r, f)) (g : Frame) (o : Nat) :
    t.Sees a g o ↔ f.cell = g.cell ∧ pageOffset a = o := by
  constructor
  · rintro ⟨r', f', h', hsees⟩
    rw [h] at h'
    simp only [Option.some.injEq, Prod.mk.injEq] at h'
    exact h'.2 ▸ hsees
  · exact fun hsees => ⟨r, f, h, hsees⟩

/-- The reader's buffer after a read: the bytes that were read, in front of what it held before. -/
def Loaded.into (res : Loaded) (buf : List UInt8) : List UInt8 := res.bytes ++ buf.drop res.bytes.length

/-- A read into `buf` that gets past `k` bytes fills these from the frames they lie in, and leaves
the rest of the buffer. -/
structure Loaded.Fills (res : Loaded) (t : PageTable) (pool : Pool) (a : Nat) (buf : List UInt8)
    (k : Nat) : Prop where
  passes : t.Passes false a buf.length k res.trouble res.table
  byte : ∀ i < k, ∀ g o, t.Sees (a + i) g o → (res.into buf)[i]? = (pool.read g).data[o]?
  rest : ∀ i, k ≤ i → (res.into buf)[i]? = buf[i]?

/-- A write of `data` that gets past `k` bytes puts these into the frames they lie in, where several
of them meet in one place the last one, and changes nothing else about the memory. -/
structure Stored.Fills (res : Stored) (t : PageTable) (pool : Pool) (a : Nat) (data : List UInt8)
    (k : Nat) : Prop where
  passes : t.Passes true a data.length k res.trouble res.table
  byte : ∀ i < k, ∀ (g : Frame) (o : Nat), g.cell < pool.total → t.Sees (a + i) g o →
    (∀ j, i < j → j < k → ¬ t.Sees (a + j) g o) → (res.pool.read g).data[o]? = data[i]?
  rest : ∀ (g : Frame) (o : Nat), (∀ i < k, ¬ t.Sees (a + i) g o) →
    (res.pool.read g).data[o]? = (pool.read g).data[o]?
  status : ∀ c : Nat, res.pool.cells[c]?.map Cell.status = pool.cells[c]?.map Cell.status
  firstPfn : res.pool.firstPfn = pool.firstPfn
  next : res.pool.next = pool.next
  inUse : res.pool.inUse = pool.inUse

theorem loadBytes_passes (pool : Pool) : ∀ (len : Nat) (t : PageTable) (a : Nat), t.Usable →
    a + len ≤ wordLimit → ∃ k, (t.loadBytes pool a len).bytes.length = k ∧
      t.Passes false a len k (t.loadBytes pool a len).trouble (t.loadBytes pool a len).table ∧
      ∀ i < k, ∀ g o, t.Sees (a + i) g o →
        (t.loadBytes pool a len).bytes[i]? = (pool.read g).data[o]? := by
  intro len
  induction len with
  | zero => exact fun t a _ _ => ⟨0, rfl, .nil t false a, fun i hi => absurd hi (Nat.not_lt_zero i)⟩
  | succ len ih =>
    intro t a ht ha
    rw [loadBytes_succ]
    cases htouch : t.touch a false with
    | error e =>
      exact ⟨0, rfl, .stop ht (by omega) htouch, fun i hi => absurd hi (Nat.not_lt_zero i)⟩
    | ok x =>
      obtain ⟨f, t'⟩ := x
      have htouches := touches_of_touch htouch
      obtain ⟨k, hlen, hpasses, hbyte⟩ := ih t' (a + 1) (ht.congr htouches.mapping?) (by omega)
      have hone : ((pool.read f).slice (pageOffset a) 1).length = 1 := by
        have := pageOffset_lt a
        rw [Bytes.length_slice]
        omega
      refine ⟨k + 1, ?_, hpasses.succ htouch, fun i hi g o hsees => ?_⟩
      · rw [List.length_append, hone, hlen, Nat.add_comm]
      · cases i with
        | zero =>
          obtain ⟨r, hr, -⟩ := htouches.mapped
          obtain ⟨hcell, rfl⟩ := (sees_iff hr g o).1 hsees
          rw [List.getElem?_append_left (by omega), Bytes.getElem?_slice, if_pos Nat.one_pos,
            pool.read_eq_of_cell hcell]
          rfl
        | succ i =>
          rw [List.getElem?_append_right (by omega), hone, Nat.add_sub_cancel]
          refine hbyte i (by omega) g o ?_
          rw [Sees, htouches.mapping?, Nat.add_right_comm]
          exact hsees

theorem storeBytes_fills : ∀ (data : List UInt8) (t : PageTable) (pool : Pool) (a : Nat), t.Usable →
    a + data.length ≤ wordLimit → ∃ k, (t.storeBytes pool a data).Fills t pool a data k := by
  intro data
  induction data with
  | nil =>
    exact fun t pool a _ _ => ⟨0, .nil t true a, fun i hi => absurd hi (Nat.not_lt_zero i),
      fun g o _ => rfl, fun c => rfl, rfl, rfl, rfl⟩
  | cons x xs ih =>
    intro t pool a ht ha
    rw [List.length_cons] at ha
    rw [storeBytes_cons]
    cases htouch : t.touch a true with
    | error e =>
      exact ⟨0, .stop ht (by omega) htouch, fun i hi => absurd hi (Nat.not_lt_zero i),
        fun g o _ => rfl, fun c => rfl, rfl, rfl, rfl⟩
    | ok y =>
      obtain ⟨f, t'⟩ := y
      have htouches := touches_of_touch htouch
      obtain ⟨r, hr, -⟩ := htouches.mapped
      set pool₁ := pool.write f ((pool.read f).overlay (pageOffset a) [x]) with hpool₁
      obtain ⟨k, h⟩ := ih t' pool₁ (a + 1) (ht.congr htouches.mapping?) (by omega)
      have hnext : ∀ i g o, t'.Sees (a + 1 + i) g o ↔ t.Sees (a + (i + 1)) g o := fun i g o => by
        simp only [Sees, htouches.mapping?, show a + 1 + i = a + (i + 1) by omega]
      have hhere := sees_iff hr
      have hput := fun g o => pool.getElem?_read_put f g (pageOffset a) o x (pageOffset_lt a)
      refine ⟨k + 1, h.passes.succ htouch, fun i hi g o hg hsees hlast => ?_, fun g o hno => ?_,
        fun c => ?_, h.firstPfn, h.next, h.inUse⟩
      · cases i with
        | zero =>
          -- nothing that follows meets the first byte
          rw [h.rest g o fun j hj hmeet => hlast (j + 1) (by omega) (by omega) ((hnext j g o).1 hmeet)]
          obtain ⟨hcell, ho⟩ := (hhere g o).1 hsees
          rw [hpool₁, hput, if_pos ⟨hcell ▸ hg, hcell, ho⟩]
          rfl
        | succ i =>
          refine h.byte i (by omega) g o ?_ ((hnext i g o).2 hsees) fun j hij hj hmeet => ?_
          · rw [hpool₁, Pool.total_write]
            exact hg
          · exact hlast (j + 1) (by omega) (by omega) ((hnext j g o).1 hmeet)
      · rw [h.rest g o fun i hi hmeet => hno (i + 1) (by omega) ((hnext i g o).1 hmeet), hpool₁, hput,
          if_neg fun hall => hno 0 (by omega) ((hhere g o).2 hall.2)]
      · rw [h.status, hpool₁, Pool.status_write]

/-- A table that is the outcome of a series of operations, each on what the one before it left. The
memory that the accesses go to may be any, and need not be the same each time. -/
inductive Built : PageTable → Prop where
  | empty (limit : Option Nat) : Built (.empty limit)
  | map {t t' : PageTable} {u : Nat} {f : Frame} {w : Bool} :
    Built t → t.map u f w = .ok (some t') → Built t'
  | unmap {t : PageTable} (u : Nat) : Built t → Built (t.unmap u)
  | setAccessed {t : PageTable} (u : Nat) (v : Bool) : Built t → Built (t.setAccessed u v)
  | load {t : PageTable} (pool : Pool) (a len : Nat) : Built t → Built (t.load pool a len).table
  | store {t : PageTable} (pool : Pool) (a : Nat) (data : List UInt8) :
    Built t → Built (t.store pool a data).table

theorem Usable.map {u : Nat} (h : t.Usable) (hmap : t.map u f w = .ok (some t')) : t'.Usable := by
  unfold PageTable.map at hmap
  split at hmap
  · simp at hmap
  split at hmap
  · simp at hmap
  split at hmap
  · simp at hmap
  obtain rfl := Option.some.inj (Except.ok.inj hmap)
  intro v r g hv
  rw [mapping?_insert] at hv
  split at hv
  · simp only [Option.some.injEq, Prod.mk.injEq] at hv
    obtain ⟨rfl, -⟩ := hv
    exact ⟨Entry.present_ofFrame .., Entry.user_ofFrame ..⟩
  · exact h v r g hv

theorem Usable.unmap (h : t.Usable) (u : Nat) : (t.unmap u).Usable := by
  intro v r g hv
  rw [mapping?_unmap] at hv
  split at hv
  · simp at hv
  · exact h v r g hv

/-- Whatever is done to a table, the pages it maps are pages for user programs. -/
theorem Built.usable (h : t.Built) : t.Usable := by
  induction h with
  | empty limit => exact fun u r f hu => by simp at hu
  | map _ hmap ih => exact ih.map hmap
  | unmap u _ ih => exact ih.unmap u
  | setAccessed u v _ ih => exact ih.congr fun w => mapping?_setAccessed _ u v w
  | load pool a len _ ih => exact ih.congr (load_keeps pool len _ a).1
  | store pool a data _ ih => exact ih.congr (store_keeps data _ pool a).mapping?

/-- A read gets past the bytes in front of the first one in a page that is not mapped. -/
theorem Usable.exists_load_fills (h : t.Usable) (pool : Pool) (a : Nat) (buf : List UInt8)
    (ha : a + buf.length ≤ wordLimit) : ∃ k, (t.load pool a buf.length).Fills t pool a buf k := by
  rw [load_eq_loadBytes]
  obtain ⟨k, hlen, hpasses, hbyte⟩ := loadBytes_passes pool buf.length t a h ha
  refine ⟨k, hpasses, fun i hi g o hsees => ?_, fun i hi => ?_⟩
  · rw [Loaded.into, List.getElem?_append_left (hlen.symm ▸ hi), hbyte i hi g o hsees]
  · rw [Loaded.into, List.getElem?_append_right (hlen.symm ▸ hi), hlen, List.getElem?_drop]
    congr 1
    omega

/-- A read or a write comes to the same as one access for each byte in ascending order, up to the
first that cannot be made. -/
theorem Built.access_bytewise (h : t.Built) (pool : Pool) (a : Nat) :
    (∀ buf : List UInt8, a + buf.length ≤ wordLimit →
      t.load pool a buf.length = t.loadBytes pool a buf.length ∧
      ((t.load pool a buf.length).trouble = none ↔ ∀ i < buf.length, t.Allows false (a + i)) ∧
      ∃ k, (t.load pool a buf.length).Fills t pool a buf k ∧
        t.Records false a k (t.load pool a buf.length).table) ∧
    ∀ data : List UInt8, a + data.length ≤ wordLimit →
      t.store pool a data = t.storeBytes pool a data ∧
      ((t.store pool a data).trouble = none ↔ ∀ i < data.length, t.Allows true (a + i)) ∧
      ∃ k, (t.store pool a data).Fills t pool a data k ∧
        t.Records true a k (t.store pool a data).table := by
  constructor
  · intro buf ha
    obtain ⟨k, hk⟩ := h.usable.exists_load_fills pool a buf ha
    exact ⟨load_eq_loadBytes pool _ t a, hk.passes.none_iff_allows, k, hk, hk.passes.records⟩
  · intro data ha
    obtain ⟨k, hk⟩ := storeBytes_fills data t pool a h.usable ha
    rw [store_eq_storeBytes data t pool a]
    exact ⟨rfl, hk.passes.none_iff_allows, k, hk, hk.passes.records⟩

/-- Two pages mapped to one frame, and a third that may not be written to. -/
def twoViews : PageTable where
  entries := ((Std.ExtTreeMap.empty.insert 0x1000 (Entry.ofFrame ⟨256, 0⟩ true, ⟨256, 0⟩)).insert
    0x2000 (Entry.ofFrame ⟨256, 0⟩ true, ⟨256, 0⟩)).insert
    0x3000 (Entry.ofFrame ⟨257, 1⟩ false, ⟨257, 1⟩)
  limit := none

theorem built_twoViews : twoViews.Built :=
  .map (u := 0x3000) (f := ⟨257, 1⟩) (w := false) (.map (u := 0x2000) (f := ⟨256, 0⟩) (w := true)
    (.map (u := 0x1000) (f := ⟨256, 0⟩) (w := true) (.empty none) rfl) rfl) rfl

/-- The two frames that these pages are mapped to. -/
def twoFrames : Pool := ⟨256, #[⟨.free, .zero pageSize⟩, ⟨.free, .zero pageSize⟩], 0, 0⟩

/-- A write over the end of the second view stops at the page behind it. -/
theorem access_bytewise_twoViews :
    twoViews.Built ∧ 0x2ffe + [9, 9, 9, (9 : UInt8)].length ≤ wordLimit ∧
    (twoViews.store twoFrames 0x2ffe [1, 2, 3, 4]).trouble = some (.fault ⟨0x3000, true, true⟩) ∧
    (twoViews.load twoFrames 0x2ffe 4 = twoViews.loadBytes twoFrames 0x2ffe 4 ∧
      ((twoViews.load twoFrames 0x2ffe 4).trouble = none ↔
        ∀ i < 4, twoViews.Allows false (0x2ffe + i)) ∧
      ∃ k, (twoViews.load twoFrames 0x2ffe 4).Fills twoViews twoFrames 0x2ffe [9, 9, 9, 9] k ∧
        twoViews.Records false 0x2ffe k (twoViews.load twoFrames 0x2ffe 4).table) ∧
    twoViews.store twoFrames 0x2ffe [1, 2, 3, 4] = twoViews.storeBytes twoFrames 0x2ffe [1, 2, 3, 4] ∧
    ((twoViews.store twoFrames 0x2ffe [1, 2, 3, 4]).trouble = none ↔
      ∀ i < 4, twoViews.Allows true (0x2ffe + i)) ∧
    ∃ k, (twoViews.store twoFrames 0x2ffe [1, 2, 3, 4]).Fills twoViews twoFrames 0x2ffe [1, 2, 3, 4] k ∧
      twoViews.Records true 0x2ffe k (twoViews.store twoFrames 0x2ffe [1, 2, 3, 4]).table := by
  have hle : 0x2ffe + [9, 9, 9, (9 : UInt8)].length ≤ wordLimit := by decide
  obtain ⟨hload, hstore⟩ := built_twoViews.access_bytewise twoFrames 0x2ffe
  exact ⟨built_twoViews, hle, by decide +kernel, hload [9, 9, 9, 9] hle, hstore [1, 2, 3, 4] hle⟩

end PageTable

end DemandPaging
