import DemandPaging.Proofs.PageTable
import Mathlib.Tactic.Set

/-!
# Accesses through a page table

An access goes over the pieces of its range one after the other. `load_cons` and `store_cons` take
off the first piece, and everything else follows by induction on the length: an access keeps what
the table maps, it comes to grief only at a page that is not mapped for it, a read returns the bytes
of the frames behind its range, and a write changes these bytes and no others.
-/

namespace DemandPaging

/-- How many of `len` bytes from `a` on lie in the page of `a`. -/
def inFirst (a len : Nat) : Nat := min len (pageSize - pageOffset a)

theorem inFirst_le (a len : Nat) : inFirst a len ≤ len := Nat.min_le_left ..

theorem inFirst_pos {a len : Nat} (h : 0 < len) : 0 < inFirst a len := by
  have := pageOffset_lt a
  unfold inFirst
  omega

theorem pageBase_add_of_lt_inFirst {a len i : Nat} (h : i < inFirst a len) :
    pageBase (a + i) = pageBase a ∧ pageOffset (a + i) = pageOffset a + i := by
  simp only [inFirst, pageBase, pageOffset, pageSize] at *
  omega

/-- The pages of a range are that of its first piece and those of the rest. -/
theorem exists_page_iff {a len k v : Nat} (hpos : 0 < len) :
    (∃ i < inFirst a len + k, pageBase (a + i) = v) ↔
      pageBase a = v ∨ ∃ i < k, pageBase (a + inFirst a len + i) = v := by
  constructor
  · rintro ⟨i, hi, hv⟩
    rcases Nat.lt_or_ge i (inFirst a len) with hin | hin
    · exact .inl (by rw [← hv, (pageBase_add_of_lt_inFirst hin).1])
    · refine .inr ⟨i - inFirst a len, by omega, ?_⟩
      rw [← hv, Nat.add_assoc, Nat.add_sub_cancel' hin]
  · rintro (hv | ⟨i, hi, hv⟩)
    · have hfirst := inFirst_pos (a := a) hpos
      exact ⟨0, by omega, hv⟩
    · exact ⟨inFirst a len + i, by omega, by rw [← hv, Nat.add_assoc]⟩

theorem forall_page {P : Nat → Prop} {a len k : Nat} (hfirst : P (pageBase a))
    (hrest : ∀ i < k, P (pageBase (a + inFirst a len + i))) :
    ∀ i < inFirst a len + k, P (pageBase (a + i)) := by
  intro i hi
  rcases Nat.lt_or_ge i (inFirst a len) with hin | hin
  · rwa [(pageBase_add_of_lt_inFirst hin).1]
  · have h := hrest (i - inFirst a len) (by omega)
    rwa [Nat.add_assoc, Nat.add_sub_cancel' hin] at h

/-- A range that stays within its first page is one piece. -/
theorem spans_of_le {a len : Nat} (h : 0 < len) (hle : len ≤ pageSize - pageOffset a) :
    spans a len = [⟨a, len⟩] := by
  have hoff := pageOffset_lt a
  have hcount : spanCount a len = 1 := by
    rw [spanCount, if_neg (Nat.ne_of_gt h)]
    simp only [pageOffset, pageSize] at *
    omega
  have hfirst : span a len 0 = ⟨a, len⟩ := by
    simp only [span, pageBase, pageOffset, pageSize, Span.mk.injEq] at *
    omega
  rw [spans, hcount, List.range_one, List.map_singleton, hfirst]

/-- The first piece of a longer range ends where the next page begins. -/
theorem spans_of_lt {a len : Nat} (hlt : pageSize - pageOffset a < len) :
    spans a len = ⟨a, pageSize - pageOffset a⟩ ::
      spans (a + (pageSize - pageOffset a)) (len - (pageSize - pageOffset a)) := by
  have hoff := pageOffset_lt a
  have hcount : spanCount a len =
      spanCount (a + (pageSize - pageOffset a)) (len - (pageSize - pageOffset a)) + 1 := by
    rw [spanCount, spanCount, if_neg (by omega), if_neg (by omega)]
    simp only [pageOffset, pageSize] at *
    omega
  have hfirst : span a len 0 = ⟨a, pageSize - pageOffset a⟩ := by
    simp only [span, pageBase, pageOffset, pageSize, Span.mk.injEq] at *
    omega
  have hrest : ∀ i, span a len (i + 1) =
      span (a + (pageSize - pageOffset a)) (len - (pageSize - pageOffset a)) i := by
    intro i
    have hend : pageBase a + pageSize = a + (pageSize - pageOffset a) := by
      have := pageBase_add_pageOffset a
      omega
    have hstart : pageBase (a + (pageSize - pageOffset a)) = a + (pageSize - pageOffset a) := by
      simp only [pageBase, pageOffset, pageSize] at *
      omega
    simp only [span, hstart, Nat.succ_mul, Span.mk.injEq]
    generalize i * pageSize = x
    omega
  rw [spans, hcount, List.range_succ_eq_map, List.map_cons, List.map_map, hfirst, spans]
  congr 1
  exact List.map_congr_left fun i _ => hrest i

/-- A range is its first piece and what follows it. -/
theorem spans_cons {a len : Nat} (h : 0 < len) :
    spans a len = ⟨a, inFirst a len⟩ :: spans (a + inFirst a len) (len - inFirst a len) := by
  rcases Nat.lt_or_ge (pageSize - pageOffset a) len with hlt | hle
  · rw [inFirst, Nat.min_eq_right (Nat.le_of_lt hlt), ← spans_of_lt hlt]
  · rw [inFirst, Nat.min_eq_left hle, Nat.sub_self, spans_zero, spans_of_le h hle]

/-- A user page ends within user space. -/
theorem isUser_iff {a : Nat} : isUser a = true ↔ userBase ≤ a ∧ a < userTop := by
  simp [isUser]

/-- User space begins and ends between pages. -/
theorem isUser_pageBase (a : Nat) : isUser (pageBase a) = isUser a := by
  rw [Bool.eq_iff_iff, isUser_iff, isUser_iff]
  simp only [pageBase, pageSize, userBase, userTop]
  omega

theorem lt_userTop_of_isUser {a n : Nat} (h : isUser (pageBase a) = true)
    (hn : n ≤ pageSize - pageOffset a) : a + n ≤ userTop := by
  have := (isUser_iff.1 h).2
  simp only [pageBase, pageOffset, pageSize, userTop] at *
  omega

namespace PageTable

variable {t : PageTable} {pool : Pool}

/-- A read takes the first piece and goes on behind it. -/
theorem load_cons (t : PageTable) (pool : Pool) {a len : Nat} (h : 0 < len) :
    t.load pool a len =
      match t.touch a false with
      | .error e => ⟨[], t, some e⟩
      | .ok (f, t') =>
        let later := t'.load pool (a + inFirst a len) (len - inFirst a len)
        { later with bytes := (pool.read f).slice (pageOffset a) (inFirst a len) ++ later.bytes } := by
  rw [load, spans_cons h]
  rfl

/-- A write puts the first piece in place and goes on behind it. -/
theorem store_cons (t : PageTable) (pool : Pool) {a : Nat} {data : List UInt8}
    (h : 0 < data.length) :
    t.store pool a data =
      match t.touch a true with
      | .error e => ⟨pool, t, some e⟩
      | .ok (f, t') =>
        let n := inFirst a data.length
        t'.store (pool.write f ((pool.read f).overlay (pageOffset a) (data.take n))) (a + n)
          (data.drop n) := by
  rw [store, spans_cons h, storeSpans]
  cases t.touch a true with
  | error e => rfl
  | ok x => simp only [store, List.length_drop]

/-- What holds of a read by taking off one piece after the other. -/
theorem load_induction (pool : Pool) {P : PageTable → Nat → Nat → Loaded → Prop}
    (nil : ∀ t a, P t a 0 ⟨[], t, none⟩)
    (stop : ∀ t a len e, 0 < len → t.touch a false = .error e → P t a len ⟨[], t, some e⟩)
    (step : ∀ t a len f t' later, 0 < len → t.Touches a false f t' →
      P t' (a + inFirst a len) (len - inFirst a len) later →
      P t a len
        { later with bytes := (pool.read f).slice (pageOffset a) (inFirst a len) ++ later.bytes }) :
    ∀ (len : Nat) (t : PageTable) (a : Nat), P t a len (t.load pool a len) := by
  intro len
  induction len using Nat.strongRecOn with
  | ind len ih =>
    intro t a
    rcases Nat.eq_zero_or_pos len with rfl | hpos
    · exact nil t a
    rw [load_cons t pool hpos]
    cases h : t.touch a false with
    | error e => exact stop t a len e hpos h
    | ok x =>
      obtain ⟨f, t'⟩ := x
      exact step t a len f t' _ hpos (touches_of_touch h)
        (ih _ (Nat.sub_lt hpos (inFirst_pos hpos)) t' _)

/-- What holds of a write by taking off one piece after the other. -/
theorem store_induction {P : PageTable → Pool → Nat → List UInt8 → Stored → Prop}
    (nil : ∀ t pool a, P t pool a [] ⟨pool, t, none⟩)
    (stop : ∀ t pool a data e, 0 < data.length → t.touch a true = .error e →
      P t pool a data ⟨pool, t, some e⟩)
    (step : ∀ t (pool : Pool) a data f t' later, 0 < data.length → t.Touches a true f t' →
      P t' (pool.write f ((pool.read f).overlay (pageOffset a)
          (data.take (inFirst a data.length)))) (a + inFirst a data.length)
        (data.drop (inFirst a data.length)) later →
      P t pool a data later) :
    ∀ (data : List UInt8) (t : PageTable) (pool : Pool) (a : Nat),
      P t pool a data (t.store pool a data) := by
  intro data
  induction h : data.length using Nat.strongRecOn generalizing data with
  | ind len ih =>
    subst h
    intro t pool a
    rcases Nat.eq_zero_or_pos data.length with hzero | hpos
    · obtain rfl := List.length_eq_zero_iff.1 hzero
      exact nil t pool a
    rw [store_cons t pool hpos]
    cases h : t.touch a true with
    | error e => exact stop t pool a data e hpos h
    | ok x =>
      obtain ⟨f, t'⟩ := x
      refine step t pool a data f t' _ hpos (touches_of_touch h) (ih _ ?_ _ rfl t' _ _)
      rw [List.length_drop]
      exact Nat.sub_lt hpos (inFirst_pos hpos)

/-! ### What accesses keep -/

/-- A read keeps what the table maps and which pages are dirty. -/
theorem load_keeps (pool : Pool) : ∀ (len : Nat) (t : PageTable) (a : Nat),
    (∀ v, (t.load pool a len).table.mapping? v = t.mapping? v) ∧
      ∀ v, (t.load pool a len).table.isDirty v = t.isDirty v := by
  refine load_induction pool (P := fun t _ _ res =>
    (∀ v, res.table.mapping? v = t.mapping? v) ∧ ∀ v, res.table.isDirty v = t.isDirty v)
    (fun t a => ⟨fun _ => rfl, fun _ => rfl⟩) (fun t a len e _ _ => ⟨fun _ => rfl, fun _ => rfl⟩) ?_
  rintro t a len f t' later - ht ⟨hmap, hdirty⟩
  exact ⟨fun v => (hmap v).trans (ht.mapping? v), fun v => (hdirty v).trans (by simp [ht.isDirty])⟩

/-- A read clears no accessed bit. -/
theorem load_accessed (pool : Pool) : ∀ (len : Nat) (t : PageTable) (a : Nat),
    ∀ v, t.isAccessed v = true → (t.load pool a len).table.isAccessed v = true := by
  refine load_induction pool (P := fun t _ _ res => ∀ v, t.isAccessed v = true → res.table.isAccessed v = true)
    (fun t a _ => id) (fun t a len e _ _ _ => id) ?_
  intro t a len f t' later _ ht ih v hv
  exact ih v (by rw [ht.isAccessed, hv, Bool.true_or])

/-- Nor does a write. -/
theorem store_accessed : ∀ (data : List UInt8) (t : PageTable) (pool : Pool) (a : Nat),
    ∀ v, t.isAccessed v = true → (t.store pool a data).table.isAccessed v = true := by
  refine store_induction (P := fun t _ _ _ res => ∀ v, t.isAccessed v = true → res.table.isAccessed v = true)
    (fun t pool a _ => id) (fun t pool a data e _ _ _ => id) ?_
  intro t pool a data f t' later _ ht ih v hv
  exact ih v (by rw [ht.isAccessed, hv, Bool.true_or])

/-- What a write keeps: what the table maps, and which frames are lent. -/
structure Stored.Keeps (t : PageTable) (pool : Pool) (res : Stored) : Prop where
  mapping? : ∀ v, res.table.mapping? v = t.mapping? v
  firstPfn : res.pool.firstPfn = pool.firstPfn
  total : res.pool.total = pool.total
  inUse : res.pool.inUse = pool.inUse
  lent : ∀ c, res.pool.lent c = pool.lent c

theorem store_keeps : ∀ (data : List UInt8) (t : PageTable) (pool : Pool) (a : Nat),
    (t.store pool a data).Keeps t pool := by
  refine store_induction (P := fun t pool _ _ res => res.Keeps t pool)
    (fun t pool a => ⟨fun _ => rfl, rfl, rfl, rfl, fun _ => rfl⟩)
    (fun t pool a data e _ _ => ⟨fun _ => rfl, rfl, rfl, rfl, fun _ => rfl⟩) ?_
  intro t pool a data f t' later _ ht h
  refine ⟨fun v => (h.mapping? v).trans (ht.mapping? v), h.firstPfn, ?_, h.inUse, fun c => ?_⟩
  · rw [h.total, Pool.total_write]
  · rw [h.lent, Pool.lent_write]

/-! ### Where accesses stop -/

/-- Every mapped page belongs to user space and may be used by user programs. -/
def Proper (t : PageTable) : Prop :=
  ∀ u r f, t.mapping? u = some (r, f) →
    r.present = true ∧ r.user = true ∧ isUser u = true ∧ isAligned u = true

theorem Proper.congr {t' : PageTable} (h : t.Proper) (heq : ∀ v, t'.mapping? v = t.mapping? v) :
    t'.Proper := fun u r f hu => h u r f (by rw [← heq u, hu])

theorem Proper.of_touches {a : Nat} {w : Bool} {f : Frame} {t' : PageTable} (h : t.Proper)
    (ht : t.Touches a w f t') (len : Nat) : t'.Proper ∧ a + inFirst a len < wordLimit := by
  obtain ⟨r, hr, -⟩ := ht.mapped
  refine ⟨h.congr ht.mapping?, ?_⟩
  have htop := lt_userTop_of_isUser (h _ _ _ hr).2.2.1 (Nat.min_le_right len (pageSize - pageOffset a))
  refine Nat.lt_of_le_of_lt htop ?_
  decide

/-- Through a proper table, a touch fails only with a fault, or past the last address. -/
theorem Proper.of_touch_error {a : Nat} {w : Bool} {e : Trouble} (h : t.Proper)
    (he : t.touch a w = .error e) :
    (∃ p, e = .fault ⟨a, w, p⟩) ∨ e = .misuse .pastEnd ∧ wordLimit ≤ a := by
  rcases t.touch_cases a w with ⟨f, t', h₁, -⟩ | ⟨p, h₁, -⟩ | ⟨h₁, hle⟩ | ⟨-, r, f, hr, hno⟩
  · rw [h₁] at he
    simp at he
  · rw [h₁] at he
    exact .inl ⟨p, by simpa [eq_comm] using he⟩
  · rw [h₁] at he
    exact .inr ⟨by simpa [eq_comm] using he, hle⟩
  · exact absurd ⟨(h _ _ _ hr).1, (h _ _ _ hr).2.1⟩ hno

/-- A read through a proper table ends well or with a fault, unless it starts past the last
address. -/
theorem Proper.load_trouble (pool : Pool) : ∀ (len : Nat) (t : PageTable) (a : Nat), t.Proper →
    ∀ e, (t.load pool a len).trouble = some (.misuse e) → e = .pastEnd ∧ wordLimit ≤ a := by
  refine load_induction pool
    (P := fun t a _ res => t.Proper →
      ∀ e, res.trouble = some (.misuse e) → e = .pastEnd ∧ wordLimit ≤ a) (fun t a _ e => by simp) ?_ ?_
  · intro t a len e' _ he ht e heq
    rw [Option.some.injEq] at heq
    rcases ht.of_touch_error he with ⟨p, rfl⟩ | ⟨rfl, hle⟩
    · simp at heq
    · exact ⟨by simpa [eq_comm] using heq, hle⟩
  · intro t a len f t' later _ htouch ih ht e heq
    obtain ⟨ht', ha'⟩ := ht.of_touches htouch len
    exact absurd (ih ht' e heq).2 (Nat.not_le.2 ha')

/-- A write through a proper table ends well or with a fault, unless it starts past the last
address. -/
theorem Proper.store_trouble : ∀ (data : List UInt8) (t : PageTable) (pool : Pool) (a : Nat),
    t.Proper → ∀ e, (t.store pool a data).trouble = some (.misuse e) →
      e = .pastEnd ∧ wordLimit ≤ a := by
  refine store_induction
    (P := fun t _ a _ res => t.Proper →
      ∀ e, res.trouble = some (.misuse e) → e = .pastEnd ∧ wordLimit ≤ a) (fun t pool a _ e => by simp)
    ?_ ?_
  · intro t pool a data e' _ he ht e heq
    rw [Option.some.injEq] at heq
    rcases ht.of_touch_error he with ⟨p, rfl⟩ | ⟨rfl, hle⟩
    · simp at heq
    · exact ⟨by simpa [eq_comm] using heq, hle⟩
  · intro t pool a data f t' later _ htouch ih ht e heq
    obtain ⟨ht', ha'⟩ := ht.of_touches htouch data.length
    exact absurd (ih ht' e heq).2 (Nat.not_le.2 ha')

/-! ### What accesses move -/

/-- What a read returns: the bytes behind the front of its range, all of it unless it faults. -/
structure Loaded.Reads (t : PageTable) (pool : Pool) (a len : Nat) (res : Loaded) : Prop where
  whole : res.trouble = none → res.bytes.length = len
  fault : ∀ f, res.trouble = some (.fault f) → f.addr = a + res.bytes.length
  byte : ∀ i < res.bytes.length, ∃ r f, t.mapping? (pageBase (a + i)) = some (r, f) ∧
    res.bytes[i]? = (pool.read f).data[pageOffset (a + i)]?

theorem addr_of_touch {t : PageTable} {a : Nat} {w : Bool} {f : Fault}
    (h : t.touch a w = .error (.fault f)) : f.addr = a := by
  rcases t.touch_cases a w with ⟨f₁, t', h₁, -⟩ | ⟨p, h₁, -⟩ | ⟨h₁, -⟩ | ⟨h₁, -⟩ <;> rw [h₁] at h <;>
    simp only [reduceCtorEq, Except.error.injEq, Trouble.fault.injEq] at h
  rw [← h]

theorem load_reads (pool : Pool) : ∀ (len : Nat) (t : PageTable) (a : Nat),
    (t.load pool a len).Reads t pool a len := by
  refine load_induction pool (P := fun t a len res => res.Reads t pool a len)
    (fun t a => ⟨fun _ => rfl, by simp, by simp⟩) ?_ ?_
  · intro t a len e hpos he
    refine ⟨by simp, fun f hf => ?_, by simp⟩
    simp only [Option.some.injEq] at hf
    rw [hf] at he
    exact addr_of_touch he
  · intro t a len f t' later hpos ht ih
    set n := inFirst a len with hn
    have hnle : n ≤ len := inFirst_le a len
    have hlen : ((pool.read f).slice (pageOffset a) n).length = n := by
      rw [Bytes.length_slice, hn, inFirst]
      omega
    refine ⟨fun h => ?_, fun g hg => ?_, fun i hi => ?_⟩
    · rw [List.length_append, hlen, ih.whole h]
      omega
    · rw [ih.fault g hg, List.length_append, hlen]
      omega
    · rw [List.length_append, hlen] at hi
      rcases Nat.lt_or_ge i n with hin | hin
      · -- the first piece
        obtain ⟨hbase, hoff⟩ := pageBase_add_of_lt_inFirst hin
        obtain ⟨r, hr, -⟩ := ht.mapped
        refine ⟨r, f, by rw [hbase, hr], ?_⟩
        rw [List.getElem?_append_left (by omega), Bytes.getElem?_slice, if_pos hin, hoff]
      · obtain ⟨r, g, hr, hb⟩ := ih.byte (i - n) (by omega)
        rw [show a + n + (i - n) = a + i by omega] at hr hb
        refine ⟨r, g, by rw [← ht.mapping?, hr], ?_⟩
        rw [List.getElem?_append_right (by omega), hlen, hb]

/-- What an access to `len` bytes from `a` on, of which `k` go through, does to the table: their pages
are accessed from then on. If it faults, the page of the next byte is not mapped for it. -/
structure Marks (t : PageTable) (w : Bool) (a len k : Nat) (trouble : Option Trouble) (t' : PageTable) :
    Prop where
  le : k ≤ len
  whole : trouble = none → k = len
  fault : ∀ f, trouble = some (.fault f) → k < len ∧ f.addr = a + k ∧ f.write = w ∧
    ∀ r g, t.mapping? (pageBase (a + k)) = some (r, g) → w = true ∧ r.writable = false
  mapped : ∀ i < k, (t.mapping? (pageBase (a + i))).isSome = true
  accessed : ∀ v, t'.isAccessed v = true ↔ t.isAccessed v = true ∨ ∃ i < k, pageBase (a + i) = v
  limit : t'.limit = t.limit

section

variable {t' : PageTable} {w : Bool} {a len k : Nat} {e : Trouble} {trouble : Option Trouble}
  {f : Frame}

theorem Marks.nil (t : PageTable) (w : Bool) (a : Nat) : t.Marks w a 0 0 none t where
  le := Nat.le_refl _
  whole _ := rfl
  fault f hf := by simp at hf
  mapped i hi := absurd hi (Nat.not_lt_zero i)
  accessed v := by simp
  limit := rfl

theorem Marks.stop (hpos : 0 < len) (he : t.touch a w = .error e) : t.Marks w a len 0 (some e) t where
  le := Nat.zero_le _
  whole h := by simp at h
  fault f hf := by
    obtain rfl := Option.some.inj hf
    rcases t.touch_cases a w with ⟨f', t', h, -⟩ | ⟨p, h, hno⟩ | ⟨h, -⟩ | ⟨h, -⟩ <;> rw [h] at he <;>
      simp only [reduceCtorEq, Except.error.injEq, Trouble.fault.injEq] at he
    rw [← he]
    exact ⟨hpos, rfl, rfl, hno⟩
  mapped i hi := absurd hi (Nat.not_lt_zero i)
  accessed v := by simp
  limit := rfl

/-- An access marks the page of its first piece, and then the pages of the others. -/
theorem Marks.first {later : PageTable} (hpos : 0 < len) (ht : t.Touches a w f t')
    (h : t'.Marks w (a + inFirst a len) (len - inFirst a len) k trouble later) :
    t.Marks w a len (inFirst a len + k) trouble later := by
  have hle := h.le
  have hfirst := inFirst_le a len
  refine ⟨by omega, fun hnone => ?_, fun g hg => ?_, fun i hi => ?_, fun v => ?_,
    h.limit.trans ht.limit⟩
  · rw [h.whole hnone]
    omega
  · obtain ⟨hlt, haddr, hwrite, hno⟩ := h.fault g hg
    rw [Nat.add_assoc] at haddr hno
    exact ⟨by omega, haddr, hwrite, fun r g hr => hno r g (by rw [ht.mapping?, hr])⟩
  · refine forall_page (P := fun v => (t.mapping? v).isSome = true) ?_ (fun i hi => ?_) i hi
    · obtain ⟨r, hr, -⟩ := ht.mapped
      rw [hr]
      rfl
    · rw [← ht.mapping?]
      exact h.mapped i hi
  · rw [h.accessed, ht.isAccessed, exists_page_iff hpos, Bool.or_eq_true, beq_iff_eq, or_assoc]

end

theorem exists_load_marks (pool : Pool) : ∀ (len : Nat) (t : PageTable) (a : Nat),
    ∃ k, t.Marks false a len k (t.load pool a len).trouble (t.load pool a len).table := by
  refine load_induction pool (P := fun t a len res => ∃ k, t.Marks false a len k res.trouble res.table)
    (fun t a => ⟨0, .nil t false a⟩) (fun t a len e hpos he => ⟨0, .stop hpos he⟩) ?_
  rintro t a len f t' later hpos ht ⟨k, h⟩
  exact ⟨_, .first hpos ht h⟩

theorem exists_store_marks : ∀ (data : List UInt8) (t : PageTable) (pool : Pool) (a : Nat),
    ∃ k, t.Marks true a data.length k (t.store pool a data).trouble (t.store pool a data).table := by
  refine store_induction
    (P := fun t _ a data res => ∃ k, t.Marks true a data.length k res.trouble res.table)
    (fun t _ a => ⟨0, .nil t true a⟩) (fun t _ a data e hpos he => ⟨0, .stop hpos he⟩) ?_
  rintro t pool a data f t' later hpos ht ⟨k, h⟩
  rw [List.length_drop] at h
  exact ⟨_, .first hpos ht h⟩

/-- No two pages share a frame, and the frames are those of the pool. -/
structure Exclusive (t : PageTable) (pool : Pool) : Prop where
  cell_lt : ∀ u r f, t.mapping? u = some (r, f) → f.cell < pool.total
  inj : ∀ u v r r' f g, t.mapping? u = some (r, f) → t.mapping? v = some (r', g) →
    f.cell = g.cell → u = v

/-- What a write of which `k` bytes go through does: these bytes change, and their pages are dirty
from then on. -/
structure Stored.Writes (t : PageTable) (pool : Pool) (a : Nat) (data : List UInt8) (k : Nat)
    (res : Stored) : Prop where
  le : k ≤ data.length
  whole : res.trouble = none → k = data.length
  fault : ∀ f, res.trouble = some (.fault f) → f.addr = a + k
  mapped : ∀ i < k, ∃ r f, t.mapping? (pageBase (a + i)) = some (r, f) ∧ r.writable = true
  dirty : ∀ v, res.table.isDirty v = true ↔ t.isDirty v = true ∨ ∃ i < k, pageBase (a + i) = v
  read : ∀ u r f, t.mapping? u = some (r, f) → ∀ o < pageSize, (res.pool.read f).data[o]? =
    if a ≤ u + o ∧ u + o < a + k then data[u + o - a]? else (pool.read f).data[o]?
  other : ∀ g : Frame, (∀ u r f, t.mapping? u = some (r, f) → f.cell ≠ g.cell) →
    res.pool.read g = pool.read g

theorem Stored.Writes.nothing {t : PageTable} {pool : Pool} {a : Nat} {data : List UInt8}
    {trouble : Option Trouble} (hwhole : trouble = none → data = [])
    (hfault : ∀ f, trouble = some (.fault f) → f.addr = a) :
    Stored.Writes t pool a data 0 ⟨pool, t, trouble⟩ where
  le := Nat.zero_le _
  whole h := by rw [hwhole h]; rfl
  fault := hfault
  mapped i hi := absurd hi (Nat.not_lt_zero i)
  dirty v := by simp
  read u r f _ o _ := by rw [if_neg (by omega)]
  other g _ := rfl

/-- What a page holds once the first piece of `data` has been written to it. -/
theorem getElem?_overlay_first (b : PageBytes) {a o : Nat} (data : List UInt8) (ho : o < pageSize) :
    (b.overlay (pageOffset a) (data.take (inFirst a data.length))).data[o]? =
      if a ≤ pageBase a + o ∧ pageBase a + o < a + inFirst a data.length then data[pageBase a + o - a]?
      else b.data[o]? := by
  have hbase := pageBase_add_pageOffset a
  rw [Bytes.getElem?_overlay _ _ _ ho, List.length_take, Nat.min_eq_left (inFirst_le a data.length)]
  by_cases hin : a ≤ pageBase a + o ∧ pageBase a + o < a + inFirst a data.length
  · rw [if_pos hin, if_pos (by omega), List.getElem?_take, if_pos (by omega)]
    congr 1
    omega
  · rw [if_neg hin, if_neg (by omega)]

/-- A place in a range lies in its first piece or in the rest. -/
theorem ite_pieces {data : List UInt8} {a n k x : Nat} {y : Option UInt8} :
    (if a + n ≤ x ∧ x < a + n + k then (data.drop n)[x - (a + n)]?
      else if a ≤ x ∧ x < a + n then data[x - a]? else y) =
      if a ≤ x ∧ x < a + (n + k) then data[x - a]? else y := by
  rcases Nat.lt_or_ge x (a + n) with hbelow | habove
  · rw [if_neg (by omega)]
    by_cases hin : a ≤ x
    · rw [if_pos ⟨hin, hbelow⟩, if_pos (by omega)]
    · rw [if_neg (by omega), if_neg (by omega)]
  · by_cases hin : x < a + n + k
    · rw [if_pos ⟨habove, hin⟩, if_pos (by omega), List.getElem?_drop]
      congr 1
      omega
    · rw [if_neg (by omega), if_neg (by omega), if_neg (by omega)]

theorem not_mem_first {a len u o : Nat} (hu : isAligned u = true) (ho : o < pageSize)
    (h : pageBase a ≠ u) : ¬ (a ≤ u + o ∧ u + o < a + inFirst a len) := by
  simp only [isAligned, beq_iff_eq, inFirst, pageBase, pageOffset, pageSize] at *
  omega

theorem Exclusive.write {t t' : PageTable} {pool : Pool} (h : t.Exclusive pool)
    (hmapping : ∀ u, t'.mapping? u = t.mapping? u) (f : Frame) (b : PageBytes) :
    t'.Exclusive (pool.write f b) where
  cell_lt u r g hu := by
    rw [Pool.total_write]
    exact h.cell_lt u r g (by rw [← hmapping, hu])
  inj u v r r' g g' hu hv := h.inj u v r r' g g' (by rw [← hmapping, hu]) (by rw [← hmapping, hv])

/-- A write changes the bytes of its first piece, and then those of the others. -/
theorem Stored.Writes.first {t t' : PageTable} {pool : Pool} {a k : Nat} {data : List UInt8} {f : Frame}
    {later : Stored} (hpos : 0 < data.length) (ht : t.Touches a true f t') (hproper : t.Proper)
    (hexcl : t.Exclusive pool)
    (h : Stored.Writes t' (pool.write f ((pool.read f).overlay (pageOffset a)
      (data.take (inFirst a data.length)))) (a + inFirst a data.length) (data.drop (inFirst a data.length))
      k later) : Stored.Writes t pool a data (inFirst a data.length + k) later := by
  set n := inFirst a data.length with hn
  have hnle : n ≤ data.length := inFirst_le a data.length
  obtain ⟨r, hr, hwritable⟩ := ht.mapped
  have hle := h.le
  rw [List.length_drop] at hle
  refine ⟨by omega, fun hnone => ?_, fun g hg => ?_, fun i hi => ?_, fun v => ?_, ?_, ?_⟩
  · have hwhole := h.whole hnone
    rw [List.length_drop] at hwhole
    omega
  · rw [h.fault g hg]
    omega
  · refine forall_page (P := fun v => ∃ r f, t.mapping? v = some (r, f) ∧ r.writable = true)
      ⟨r, f, hr, hwritable rfl⟩ (fun i hi => ?_) i hi
    obtain ⟨r', g, hg, hw⟩ := h.mapped i hi
    exact ⟨r', g, by rw [← ht.mapping?, hg], hw⟩
  · rw [h.dirty, ht.isDirty, exists_page_iff hpos, ← hn]
    simp only [Bool.true_and, Bool.or_eq_true, beq_iff_eq, or_assoc]
  · intro u r' g hg o ho
    have haligned := (hproper _ _ _ hg).2.2.2
    rw [h.read u r' g (by rw [ht.mapping?, hg]) o ho, Pool.read_write pool (hexcl.cell_lt _ _ _ hr),
      ← ite_pieces]
    by_cases hu : pageBase a = u
    · -- the page of the first piece
      subst hu
      obtain rfl : f = g := by
        rw [hg] at hr
        simp only [Option.some.injEq, Prod.mk.injEq] at hr
        exact hr.2.symm
      rw [if_pos rfl, getElem?_overlay_first _ _ ho]
    · have hfg : f.cell ≠ g.cell := fun hcell => hu (hexcl.inj _ _ _ _ _ _ hr hg hcell)
      have hout := @not_mem_first a data.length _ _ haligned ho hu
      rw [if_neg hfg, if_neg hout]
  · intro g hg
    rw [h.other g fun u r f hu => hg u r f (by rw [← ht.mapping?, hu]),
      Pool.read_write pool (hexcl.cell_lt _ _ _ hr), if_neg (hg _ _ _ hr)]

theorem exists_store_writes : ∀ (data : List UInt8) (t : PageTable) (pool : Pool) (a : Nat),
    t.Proper → t.Exclusive pool → ∃ k, (t.store pool a data).Writes t pool a data k := by
  refine store_induction
    (P := fun t pool a data res => t.Proper → t.Exclusive pool → ∃ k, res.Writes t pool a data k)
    (fun t pool a _ _ => ⟨0, .nothing (fun _ => rfl) (by simp)⟩) ?_ ?_
  · intro t pool a data e hpos he _ _
    refine ⟨0, .nothing (by simp) fun f hf => ?_⟩
    simp only [Option.some.injEq] at hf
    rw [hf] at he
    exact addr_of_touch he
  · intro t pool a data f t' later hpos ht ih hproper hexcl
    obtain ⟨k, hk⟩ := ih (hproper.congr ht.mapping?) (hexcl.write ht.mapping? _ _)
    exact ⟨_, .first hpos ht hproper hexcl hk⟩

end PageTable

end DemandPaging
