import DemandPaging.Proofs.Bitmap
import Mathlib.Data.Finset.Card
import Mathlib.Order.Bounds.Defs

/-!
# A bitmap is a set of indices

A bitmap of length `n` stands for a set of indices below `n`: `StandsFor`. What its operations return
and what they make of it is said of the set alone in `ActsOn`, for every index, those past the length
included. An acquisition takes the first of the `missing` indices, so that acquisitions in a row take
all of them in ascending order.

A copy of a bitmap goes its own way from then on. `Run` therefore keeps all the bitmaps that have been
made out of a new one, each with a set of its own.
-/

namespace DemandPaging

namespace Bitmap

/-- The indices below `n` that are not in `A`, in ascending order. -/
def missing (n : Nat) (A : Finset Nat) : List Nat := (List.range n).filter (· ∉ A)

/-- The set `A` after index `i` has been set or cleared. -/
def changed (A : Finset Nat) (i : Nat) (v : Bool) : Finset Nat := if v then insert i A else A.erase i

/-- A bitmap of length `n` whose set bits are those of `A`, and no others. -/
structure StandsFor (b : Bitmap) (n : Nat) (A : Finset Nat) : Prop where
  len : b.len = n
  sized : b.Sized
  lt : ∀ i ∈ A, i < n
  bit : ∀ i, b.bit i = decide (i ∈ A)

/-- What the operations on a bitmap of length `n` that stands for `A` return, and what they make of
it. -/
structure ActsOn (b : Bitmap) (n : Nat) (A : Finset Nat) : Prop where
  test : ∀ i, b.test i = if i < n then .ok (decide (i ∈ A)) else .error ⟨i, n⟩
  set : ∀ i v, i < n → ∃ b', b.set i v = .ok b' ∧ b'.StandsFor n (changed A i v)
  set_past : ∀ i v, n ≤ i → b.set i v = .error ⟨i, n⟩
  acquire : A ≠ Finset.range n → ∃ i b', b.acquire = some (i, b') ∧
    IsLeast {j | j < n ∧ j ∉ A} i ∧ b'.StandsFor n (insert i A)
  full : b.acquire = none ↔ A = Finset.range n
  ones : b.ones = A.card
  isEmpty : b.isEmpty = decide (n = 0)
  /-- There are no more words than it takes, and the bits of the last one past `n` are clear. -/
  words : b.words.size = (n + (wordBits - 1)) / wordBits
  spare : ∀ k word, b.words[k]? = some word → ∀ i < wordBits, n ≤ k * wordBits + i →
    word.test i = false
  acquireMany : ∀ m, (b.acquireMany m).1 = (List.range m).map (fun k => (missing n A)[k]?) ∧
    (b.acquireMany m).2.StandsFor n (A ∪ ((missing n A).take m).toFinset)

variable {b b' : Bitmap} {n i : Nat} {A : Finset Nat} {rest : List Nat}

/-! ### Missing indices -/

theorem mem_missing : i ∈ missing n A ↔ i < n ∧ i ∉ A := by simp [missing]

theorem missing_eq_nil (h : ∀ i ∈ A, i < n) : missing n A = [] ↔ A = Finset.range n := by
  rw [missing, List.filter_eq_nil_iff]
  constructor
  · intro hall
    ext i
    refine ⟨fun hi => Finset.mem_range.2 (h i hi), fun hi => ?_⟩
    simpa using hall i (List.mem_range.2 (Finset.mem_range.1 hi))
  · rintro rfl
    simp

/-- The missing indices come in ascending order, each of them once. -/
theorem pairwise_missing (n : Nat) (A : Finset Nat) : (missing n A).Pairwise (· < ·) :=
  List.Pairwise.filter _ List.pairwise_lt_range

theorem isLeast_of_missing (h : missing n A = i :: rest) : IsLeast {j | j < n ∧ j ∉ A} i := by
  refine ⟨mem_missing.1 (h ▸ List.mem_cons_self), fun j hj => ?_⟩
  rcases List.mem_cons.1 (h ▸ mem_missing.2 hj) with rfl | hrest
  · exact Nat.le_refl j
  · have hsorted := pairwise_missing n A
    rw [h, List.pairwise_cons] at hsorted
    exact Nat.le_of_lt (hsorted.1 j hrest)

/-- Once the first missing index is in the set, the others are missing. -/
theorem missing_insert (h : missing n A = i :: rest) : missing n (insert i A) = rest := by
  have hsorted := pairwise_missing n A
  rw [h, List.pairwise_cons] at hsorted
  have hfilter : missing n (insert i A) = (missing n A).filter (· ≠ i) := by
    rw [missing, missing, List.filter_filter]
    exact List.filter_congr fun j _ => by simp [not_or]
  rw [hfilter, h, List.filter_cons_of_neg (by simp), List.filter_eq_self]
  intro j hj
  simpa using Nat.ne_of_gt (hsorted.1 j hj)

/-! ### One operation -/

theorem standsFor_ofLength (n : Nat) : (ofLength n).StandsFor n ∅ :=
  ⟨rfl, sized_ofLength n, by simp, by simp⟩

theorem StandsFor.tidy (h : b.StandsFor n A) : b.Tidy := by
  intro i hi
  rw [h.bit, decide_eq_false_iff_not]
  intro hmem
  exact Nat.not_lt.2 (h.len ▸ hi) (h.lt i hmem)

/-- To set or clear a bit of an index is to add the index to the set or to take it out. -/
theorem StandsFor.putBit (h : b.StandsFor n A) (hi : i < n) (v : Bool) :
    (b.putBit i v).StandsFor n (changed A i v) where
  len := h.len
  sized := h.sized.putBit i v
  lt j hj := by
    cases v with
    | true =>
      rcases Finset.mem_insert.1 hj with rfl | hA
      · exact hi
      · exact h.lt j hA
    | false => exact h.lt j (Finset.mem_of_mem_erase hj)
  bit j := by
    rw [h.sized.bit_putBit (h.len ▸ hi), h.bit]
    by_cases hij : i = j
    · subst hij
      cases v <;> simp [changed]
    · cases v <;> simp [changed, hij, Ne.symm hij]

/-- An acquisition takes the first missing index. -/
theorem StandsFor.acquire_eq (h : b.StandsFor n A) :
    b.acquire = (missing n A).head?.map fun i => (i, b.putBit i true) := by
  rw [h.sized.acquire_eq, h.len, missing, List.head?_filter]
  simp only [h.bit, ← decide_not]

theorem StandsFor.acquire_of_missing (h : b.StandsFor n A) (hmissing : missing n A = i :: rest) :
    b.acquire = some (i, b.putBit i true) ∧ (b.putBit i true).StandsFor n (insert i A) := by
  have hi : i < n := (mem_missing.1 (hmissing ▸ List.mem_cons_self)).1
  exact ⟨by rw [h.acquire_eq, hmissing, List.head?_cons, Option.map_some], h.putBit hi true⟩

theorem StandsFor.acquire_eq_none (h : b.StandsFor n A) :
    b.acquire = none ↔ A = Finset.range n := by
  rw [h.acquire_eq, Option.map_eq_none_iff, List.head?_eq_none_iff, missing_eq_nil h.lt]

/-- The number of set bits is the size of the set. -/
theorem StandsFor.ones_eq (h : b.StandsFor n A) : b.ones = A.card := by
  have hmembers : b.members.toFinset = A := by
    ext i
    simpa [members, h.len, h.bit] using h.lt i
  have hnodup : b.members.Nodup := List.nodup_range.filter _
  rw [h.tidy.ones_eq h.sized, ← hmembers, List.toFinset_card_of_nodup hnodup]

/-- No bit past the length is set in the last word. -/
theorem StandsFor.test_spare (h : b.StandsFor n A) {k : Nat} {word : BitArray wordBits}
    (hword : b.words[k]? = some word) (hi : i < wordBits) (hpast : n ≤ k * wordBits + i) :
    word.test i = false := by
  rw [← word_of_bit b hword hi]
  exact h.tidy _ (h.len ▸ hpast)

/-! ### Acquisitions in a row -/

/-- Acquisitions in a row take the missing indices one after the other, until none is left. -/
theorem StandsFor.acquireMany_eq (m : Nat) : ∀ {b : Bitmap} {A : Finset Nat}, b.StandsFor n A →
    (b.acquireMany m).1 = (List.range m).map (fun k => (missing n A)[k]?) ∧
      (b.acquireMany m).2.StandsFor n (A ∪ ((missing n A).take m).toFinset) := by
  induction m with
  | zero => exact fun h => ⟨rfl, by simpa [Bitmap.acquireMany] using h⟩
  | succ m ih =>
    intro b A h
    cases hmissing : missing n A with
    | nil =>
      have hnone : b.acquire = none := by rw [h.acquire_eq, hmissing]; rfl
      obtain ⟨hanswers, hlast⟩ := ih h
      rw [hmissing] at hanswers hlast
      simp only [Bitmap.acquireMany, hnone, hanswers, List.range_succ_eq_map]
      exact ⟨by simp [Function.comp_def], by simpa using hlast⟩
    | cons i rest =>
      obtain ⟨hacquire, hnext⟩ := h.acquire_of_missing hmissing
      obtain ⟨hanswers, hlast⟩ := ih hnext
      rw [missing_insert hmissing] at hanswers hlast
      simp only [Bitmap.acquireMany, hacquire, hanswers, List.range_succ_eq_map]
      refine ⟨by simp, ?_⟩
      rw [List.take_succ_cons, List.toFinset_cons, Finset.union_insert, ← Finset.insert_union]
      exact hlast

theorem StandsFor.actsOn (h : b.StandsFor n A) : b.ActsOn n A where
  test i := by rw [Bitmap.test, h.len, h.bit]
  set i v hi := ⟨b.putBit i v, by rw [Bitmap.set, h.len, if_pos hi], h.putBit hi v⟩
  set_past i v hi := by rw [Bitmap.set, h.len, if_neg (Nat.not_lt.2 hi)]
  acquire hne := by
    cases hmissing : missing n A with
    | nil => exact absurd ((missing_eq_nil h.lt).1 hmissing) hne
    | cons i rest =>
      obtain ⟨hacquire, hnext⟩ := h.acquire_of_missing hmissing
      exact ⟨i, _, hacquire, isLeast_of_missing hmissing, hnext⟩
  full := h.acquire_eq_none
  ones := h.ones_eq
  isEmpty := by rw [isEmpty, h.len]; rfl
  words := by rw [h.sized, h.len]
  spare k word hword i hi hpast := h.test_spare hword hi hpast
  acquireMany m := h.acquireMany_eq m

/-! ### Runs -/

/-- The bitmaps that come of a new one of length `n` by updates, acquisitions and copies, each with the
set that its own updates and acquisitions make. -/
inductive Run (n : Nat) : List (Bitmap × Finset Nat) → Prop
  | new : Run n [(.ofLength n, ∅)]
  | copy {kept : List (Bitmap × Finset Nat)} {x : Bitmap × Finset Nat} (reach : Run n kept)
      (original : x ∈ kept) : Run n (kept ++ [x])
  | set {kept : List (Bitmap × Finset Nat)} {k i : Nat} {b b' : Bitmap} {A : Finset Nat} {v : Bool}
      (reach : Run n kept) (pick : kept[k]? = some (b, A)) (run : b.set i v = .ok b') :
      Run n (kept.set k (b', changed A i v))
  | acquire {kept : List (Bitmap × Finset Nat)} {k i : Nat} {b b' : Bitmap} {A : Finset Nat}
      (reach : Run n kept) (pick : kept[k]? = some (b, A)) (run : b.acquire = some (i, b')) :
      Run n (kept.set k (b', insert i A))

namespace Run

variable {kept : List (Bitmap × Finset Nat)}

/-- Along every run, each of the bitmaps stands for its own set. -/
theorem standsFor (h : Run n kept) : ∀ x ∈ kept, x.1.StandsFor n x.2 := by
  induction h with
  | new => simpa using standsFor_ofLength n
  | copy _ original ih =>
    intro x hx
    rcases List.mem_append.1 hx with hx | hx
    · exact ih x hx
    · exact List.mem_singleton.1 hx ▸ ih _ original
  | @set kept k i b b' A v _ pick run ih =>
    have hb := ih _ (List.mem_of_getElem? pick)
    intro x hx
    rcases List.mem_or_eq_of_mem_set hx with hx | rfl
    · exact ih x hx
    · rw [Bitmap.set, hb.len] at run
      split at run
      · rename_i hi
        obtain rfl := Except.ok.inj run
        exact hb.putBit hi v
      · simp at run
  | @acquire kept k i b b' A _ pick run ih =>
    have hb := ih _ (List.mem_of_getElem? pick)
    intro x hx
    rcases List.mem_or_eq_of_mem_set hx with hx | rfl
    · exact ih x hx
    · obtain ⟨hi, -, -, rfl⟩ := acquire_eq_some run
      exact hb.putBit (hb.len ▸ hi) true

/-- A bitmap is a set of the indices below its length, with first-fit allocation: whatever has been
done to it and to its copies, every operation acts on the set. -/
theorem finite_set (h : Run n kept) (hb : (b, A) ∈ kept) : A ⊆ Finset.range n ∧ b.ActsOn n A := by
  have hstands := h.standsFor (b, A) hb
  exact ⟨fun i hi => Finset.mem_range.2 (hstands.lt i hi), hstands.actsOn⟩

/-- Of a bitmap of 66 indices, with index 65 set, a copy is made, and an index acquired in the copy. -/
theorem finite_set_of_copied : ∃ original copied : Bitmap,
    Run 66 [(original, {65}), (copied, {0, 65})] ∧
    (copied, {0, 65}) ∈ [(original, ({65} : Finset Nat)), (copied, {0, 65})] ∧
    ({0, 65} : Finset Nat) ⊆ Finset.range 66 ∧ copied.ActsOn 66 {0, 65} := by
  have hset : Run 66 [((ofLength 66).putBit 65 true, {65})] :=
    Run.new.set (k := 0) (i := 65) (v := true) rfl rfl
  have hcopy := hset.copy List.mem_cons_self
  have hleast : ((ofLength 66).putBit 65 true).acquire =
      some (0, ((ofLength 66).putBit 65 true).putBit 0 true) := by decide +kernel
  have hacquire := hcopy.acquire (k := 1) rfl hleast
  have hmem := List.mem_cons_of_mem ((ofLength 66).putBit 65 true, ({65} : Finset Nat))
    (List.mem_singleton_self (((ofLength 66).putBit 65 true).putBit 0 true, ({0, 65} : Finset Nat)))
  exact ⟨_, _, hacquire, hmem, finite_set hacquire hmem⟩

end Run

end Bitmap

end DemandPaging
