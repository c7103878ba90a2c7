/-!
# Bit arrays

A bit array of width `w` is a word of `w` bits, indexed from the least significant bit. `test` and
`put` are the total access; `test?` and `put?` refuse an index past the width. The one law of an
update is `test_put`: it changes the bit it names and no other.
-/

namespace DemandPaging

/-- `w` bits in one word. -/
structure BitArray (w : Nat) where
  word : BitVec w
  deriving DecidableEq

namespace BitArray

/-- Why an access to a bit fails: the word is shifted by its width or more. -/
inductive Overflow where | right | left
  deriving DecidableEq, Repr

/-- The text of a failed shift. -/
def Overflow.message : Overflow → String
  | .right => "attempt to shift right with overflow"
  | .left => "attempt to shift left with overflow"

/-- All bits clear. -/
def clear (w : Nat) : BitArray w := ⟨0#w⟩

/-- The bits of `n`, those past the width dropped. -/
def ofNat (w n : Nat) : BitArray w := ⟨BitVec.ofNat w n⟩

def toNat {w : Nat} (a : BitArray w) : Nat := a.word.toNat

/-- Whether bit `i` is set; no bit is set past the width. -/
def test {w : Nat} (a : BitArray w) (i : Nat) : Bool := a.word.getLsbD i

/-- Bit `i` becomes `v`. -/
def put {w : Nat} (a : BitArray w) (i : Nat) (v : Bool) : BitArray w :=
  ⟨if v then a.word ||| BitVec.twoPow w i else a.word &&& ~~~ BitVec.twoPow w i⟩

/-- Bit `i`, which must lie within the width: the word is shifted right to it. -/
def test? {w : Nat} (a : BitArray w) (i : Nat) : Except Overflow Bool :=
  if i < w then .ok (a.test i) else .error .right

/-- Bit `i`, which must lie within the width, becomes `v`: a mask is shifted left to it. -/
def put? {w : Nat} (a : BitArray w) (i : Nat) (v : Bool) : Except Overflow (BitArray w) :=
  if i < w then .ok (a.put i v) else .error .left

/-- All bits set. -/
def full (w : Nat) : BitArray w := ⟨BitVec.allOnes w⟩

/-- The lowest clear bit. -/
def firstClear {w : Nat} (a : BitArray w) : Option Nat := (List.range w).find? fun i => !a.test i

/-- The number of set bits. -/
def ones {w : Nat} (a : BitArray w) : Nat := (List.range w).countP a.test

def text {w : Nat} (a : BitArray w) : String := s!"BitArray({a.toNat})"

@[simp] theorem test_clear (w i : Nat) : (clear w).test i = false := by simp [clear, test]

theorem test_eq_false {w : Nat} (a : BitArray w) {i : Nat} (h : w ≤ i) : a.test i = false :=
  BitVec.getLsbD_of_ge _ _ h

/-- An update changes the bit it names and no other. -/
theorem test_put {w : Nat} (a : BitArray w) {i : Nat} (h : i < w) (v : Bool) (j : Nat) :
    (a.put i v).test j = if i = j then v else a.test j := by
  by_cases hj : j < w
  · by_cases hij : i = j
    · subst hij
      cases v <;> simp [put, test, h]
    · cases v <;> simp [put, test, hj, hij, Ne.symm hij]
  · have hij : i ≠ j := by omega
    simp [test, hij, BitVec.getLsbD_of_ge _ _ (Nat.le_of_not_lt hj)]

/-- Equal bits make equal words. -/
theorem ext_test {w : Nat} {a b : BitArray w} (h : ∀ i, a.test i = b.test i) : a = b := by
  cases a; cases b
  congr
  exact BitVec.eq_of_getLsbD_eq fun i _ => h i

@[simp] theorem test_full (w i : Nat) : (full w).test i = decide (i < w) := by simp [full, test]

theorem firstClear_eq_some {w : Nat} {a : BitArray w} {i : Nat} (h : a.firstClear = some i) :
    i < w ∧ a.test i = false ∧ ∀ j < i, a.test j = true := by
  have hf := List.find?_eq_some_iff_getElem.1 h
  obtain ⟨hi, k, hk, rfl, hlt⟩ := hf
  simp at hk
  refine ⟨by simpa using hk, by simpa using hi, fun j hj => ?_⟩
  have := hlt j (by simpa using hj)
  simpa using this

theorem eq_full_iff {w : Nat} (a : BitArray w) : a = full w ↔ ∀ i < w, a.test i = true := by
  refine ⟨fun h i hi => by simp [h, hi], fun h => ext_test fun i => ?_⟩
  by_cases hi : i < w
  · simp [h i hi, hi]
  · simp [hi, test_eq_false a (Nat.le_of_not_lt hi)]

theorem firstClear_eq_none {w : Nat} {a : BitArray w} (h : a.firstClear = none) :
    ∀ j < w, a.test j = true := by
  intro j hj
  have := List.find?_eq_none.1 h j (List.mem_range.2 hj)
  simpa using this

end BitArray

end DemandPaging
