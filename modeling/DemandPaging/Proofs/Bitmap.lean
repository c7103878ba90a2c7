import DemandPaging.Bitmap

/-!
# Acquiring indices of a bitmap

A bitmap has exactly the words that its length calls for, `Sized`, and every operation keeps it so.
Then an acquisition takes an index that was clear, and fails only when every index is set. In a
`Tidy` bitmap the spare bits of the last word are clear, so that a count of the bits counts indices.
-/

namespace DemandPaging

namespace Bitmap

variable {b b' : Bitmap} {i : Nat}

/-- There are as many words as hold `len` bits. -/
def Sized (b : Bitmap) : Prop := b.words.size = (b.len + (wordBits - 1)) / wordBits

theorem sized_ofLength (len : Nat) : (ofLength len).Sized := by simp [Sized, ofLength]

theorem Sized.putBit (h : b.Sized) (i : Nat) (v : Bool) : (b.putBit i v).Sized := by
  simpa [Sized] using h

theorem Sized.word_lt (h : b.Sized) (hi : i < b.len) : i / wordBits < b.words.size := by
  rw [h]
  simp only [wordBits]
  omega

/-- An update of a sized bitmap changes the bit it names and no other. -/
theorem Sized.bit_putBit (h : b.Sized) (hi : i < b.len) (v : Bool) (j : Nat) :
    (b.putBit i v).bit j = if i = j then v else b.bit j :=
  Bitmap.bit_putBit b (h.word_lt hi) v j

theorem word_of_bit (b : Bitmap) {k i : Nat} {word : BitArray wordBits} (hk : b.words[k]? = some word)
    (hi : i < wordBits) : b.bit (k * wordBits + i) = word.test i := by
  have hdiv : (k * wordBits + i) / wordBits = k := by simp only [wordBits] at *; omega
  have hmod : (k * wordBits + i) % wordBits = i := by simp only [wordBits] at *; omega
  simp only [bit, hdiv, hk, hmod]

/-- A first clear bit is clear, and everything below it is set. -/
theorem firstClear_spec (h : b.firstClear = some i) :
    b.bit i = false ∧ ∀ j < i, b.bit j = true := by
  simp only [firstClear, Option.bind_eq_bind, Option.bind_eq_some_iff, Option.some.injEq,
    Option.pure_def] at h
  obtain ⟨k, hk, word, hword, c, hc, rfl⟩ := h
  obtain ⟨hc64, hclear, hbelow⟩ := BitArray.firstClear_eq_some hc
  refine ⟨by rw [word_of_bit b hword hc64, hclear], fun j hj => ?_⟩
  have hjk : j / wordBits ≤ k := by simp only [wordBits] at *; omega
  have hjm : j % wordBits < wordBits := Nat.mod_lt _ (by decide)
  have hj' : j / wordBits * wordBits + j % wordBits = j := Nat.div_add_mod' j wordBits
  obtain ⟨hks, -, hfull⟩ := Array.findIdx?_eq_some_iff_getElem.1 hk
  rcases Nat.lt_or_eq_of_le hjk with hlt | heq
  · -- an earlier word is full
    have hw : b.words[j / wordBits] = fullWord := by simpa using hfull _ hlt
    rw [← hj', word_of_bit b (Array.getElem?_eq_getElem (by omega)) hjm, hw]
    simp [fullWord, hjm]
  · rw [← hj', heq, word_of_bit b hword hjm]
    exact hbelow _ (by simp only [wordBits] at *; omega)

theorem eq_fullWord_of_firstClear_eq_none (h : b.firstClear = none) {word : BitArray wordBits}
    (hw : word ∈ b.words) : word = fullWord := by
  simp only [firstClear, Option.bind_eq_bind, Option.bind_eq_none_iff] at h
  cases hk : b.words.findIdx? fun word => word != fullWord with
  | none =>
    have := Array.findIdx?_eq_none_iff.1 hk word hw
    simpa using this
  | some k =>
    -- the first word that is not full has a clear bit
    obtain ⟨hks, hne, -⟩ := Array.findIdx?_eq_some_iff_getElem.1 hk
    have hnone := h k hk _ (Array.getElem?_eq_getElem hks)
    cases hc : b.words[k].firstClear with
    | none =>
      have hfull := (BitArray.eq_full_iff _).2 (BitArray.firstClear_eq_none hc)
      simp [hfull, fullWord] at hne
    | some c => exact absurd (hnone c hc) (by simp)

/-- An acquired index was the lowest clear one. -/
theorem acquire_eq_some (h : b.acquire = some (i, b')) :
    i < b.len ∧ b.bit i = false ∧ (∀ j < i, b.bit j = true) ∧ b' = b.putBit i true := by
  unfold acquire at h
  split at h
  · rename_i c hc
    split at h
    · rename_i hlt
      simp only [Option.some.injEq, Prod.mk.injEq] at h
      obtain ⟨rfl, rfl⟩ := h
      exact ⟨hlt, (firstClear_spec hc).1, (firstClear_spec hc).2, rfl⟩
    · simp at h
  · simp at h

/-- Nothing can be acquired only if every index is set. -/
theorem acquire_eq_none (hb : b.Sized) (h : b.acquire = none) : ∀ j < b.len, b.bit j = true := by
  intro j hj
  unfold acquire at h
  split at h
  · rename_i c hc
    split at h
    · simp at h
    · rename_i hle
      exact (firstClear_spec hc).2 j (by omega)
  · rename_i hnone
    have hword := Array.getElem?_eq_getElem (hb.word_lt hj)
    have hj' : j / wordBits * wordBits + j % wordBits = j := Nat.div_add_mod' j wordBits
    rw [← hj', word_of_bit b hword (Nat.mod_lt _ (by decide)),
      eq_fullWord_of_firstClear_eq_none hnone (Array.getElem_mem (hb.word_lt hj))]
    simp [fullWord, Nat.mod_lt _ (show 0 < wordBits by decide)]

/-- An acquisition takes the lowest clear index, if there is one. -/
theorem Sized.acquire_eq (h : b.Sized) :
    b.acquire = ((List.range b.len).find? fun i => !b.bit i).map fun i => (i, b.putBit i true) := by
  cases hacquire : b.acquire with
  | none =>
    have hfull := acquire_eq_none h hacquire
    rw [List.find?_eq_none.2 fun i hi => by simp [hfull i (List.mem_range.1 hi)], Option.map_none]
  | some x =>
    obtain ⟨i, b'⟩ := x
    obtain ⟨hlt, hclear, hbelow, rfl⟩ := acquire_eq_some hacquire
    have hfind : (List.range b.len).find? (fun i => !b.bit i) = some i := by
      rw [List.find?_range_eq_some]
      refine ⟨by simp [hclear], List.mem_range.2 hlt, fun j hj => by simp [hbelow j hj]⟩
    rw [hfind, Option.map_some]

/-- A bitmap without a set bit has no ones. -/
theorem ones_eq_zero (h : ∀ i, b.bit i = false) : b.ones = 0 := by
  have hword : ∀ (k : Nat) (hk : k < b.words.size), b.words[k].ones = 0 := by
    intro k hk
    refine List.countP_eq_zero.2 fun j hj => ?_
    rw [← word_of_bit b (Array.getElem?_eq_getElem hk) (List.mem_range.1 hj), h]
    simp
  refine Array.foldl_induction (motive := fun _ n => n = 0) rfl ?_
  intro k n hn
  rw [hn, Nat.zero_add]
  exact hword k k.isLt

/-! ### Counting the set bits -/

/-- No bit past the length is set. -/
def Tidy (b : Bitmap) : Prop := ∀ i, b.len ≤ i → b.bit i = false

theorem tidy_ofLength (len : Nat) : (ofLength len).Tidy := fun i _ => bit_ofLength len i

/-- An update of an index of the bitmap leaves the spare bits clear. -/
theorem Tidy.putBit (ht : b.Tidy) (hs : b.Sized) (hi : i < b.len) (v : Bool) :
    (b.putBit i v).Tidy := by
  intro j hj
  rw [len_putBit] at hj
  rw [hs.bit_putBit hi, if_neg (by omega), ht j hj]

/-- The bits of the first words are counted word after word. -/
theorem countP_words (b : Bitmap) : ∀ k, k ≤ b.words.size →
    (List.range (k * wordBits)).countP b.bit = (b.words.toList.take k).foldl (fun n w => n + w.ones) 0 := by
  intro k
  induction k with
  | zero => intro _; simp
  | succ k ih =>
    intro hk
    have hword := Array.getElem?_eq_getElem (show k < b.words.size by omega)
    -- the bits of word `k` come behind those of the words before it
    have hshift : (List.range wordBits).countP (b.bit ∘ (k * wordBits + ·)) = b.words[k].ones := by
      refine List.countP_congr fun i hi => ?_
      rw [Function.comp_apply, word_of_bit b hword (List.mem_range.1 hi)]
    rw [Nat.succ_mul, List.range_add, List.countP_append, ih (by omega), List.countP_map, hshift,
      List.take_add_one, Array.getElem?_toList, hword, List.foldl_append]
    rfl

/-- The number of set bits is the number of members. -/
theorem Tidy.ones_eq (ht : b.Tidy) (hs : b.Sized) : b.ones = b.members.length := by
  have hle : b.len ≤ b.words.size * wordBits := by
    rw [hs]
    simp only [wordBits]
    omega
  obtain ⟨spare, hspare⟩ := Nat.exists_eq_add_of_le hle
  have hclear : (List.range spare).countP (b.bit ∘ (b.len + ·)) = 0 :=
    List.countP_eq_zero.2 fun i _ => by simp [ht (b.len + i) (Nat.le_add_right ..)]
  have hwords := countP_words b b.words.size (Nat.le_refl _)
  rw [List.take_of_length_le (by simp), hspare, List.range_add, List.countP_append, List.countP_map,
    hclear, Nat.add_zero] at hwords
  rw [ones, ← Array.foldl_toList, ← hwords, members, List.countP_eq_length_filter]

end Bitmap

end DemandPaging
