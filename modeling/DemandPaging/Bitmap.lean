import DemandPaging.Bits

/-!
# Bitmaps

A bitmap of length `len` is a row of 64-bit words that hold one bit per index below `len`; the last
word may have bits to spare. Its meaning is the set of indices whose bit is set. `test` and `set`
refuse an index past the length, and `acquire` sets the lowest clear bit and returns its index.
-/

namespace DemandPaging

/-- Bits in a word of a bitmap. -/
def wordBits : Nat := 64

/-- A word with every bit set. -/
def fullWord : BitArray wordBits := .full wordBits

/-- A row of `len` bits. -/
structure Bitmap where
  words : Array (BitArray wordBits)
  len : Nat
  deriving DecidableEq

namespace Bitmap

/-- An index past the length of the bitmap. -/
structure OutOfRange where
  idx : Nat
  len : Nat
  deriving DecidableEq, Repr

/-- The text of an access past the length. -/
def OutOfRange.message (e : OutOfRange) : String := s!"bit {e.idx} out of range (len {e.len})"

/-- A bitmap of `len` clear bits. -/
def ofLength (len : Nat) : Bitmap :=
  ⟨Array.replicate ((len + (wordBits - 1)) / wordBits) (.clear wordBits), len⟩

def isEmpty (b : Bitmap) : Bool := b.len == 0

/-- Whether the bit for `i` is set in its word; a missing word has no bits set. -/
def bit (b : Bitmap) (i : Nat) : Bool :=
  match b.words[i / wordBits]? with
  | some word => word.test (i % wordBits)
  | none => false

/-- The bit for `i` becomes `v`. -/
def putBit (b : Bitmap) (i : Nat) (v : Bool) : Bitmap :=
  { b with words := b.words.modify (i / wordBits) fun word => word.put (i % wordBits) v }

/-- Whether `i`, an index of the bitmap, is set. -/
def test (b : Bitmap) (i : Nat) : Except OutOfRange Bool :=
  if i < b.len then .ok (b.bit i) else .error ⟨i, b.len⟩

/-- Sets or clears `i`, an index of the bitmap. -/
def set (b : Bitmap) (i : Nat) (v : Bool) : Except OutOfRange Bitmap :=
  if i < b.len then .ok (b.putBit i v) else .error ⟨i, b.len⟩

/-- The lowest clear bit of the first word that is not full, spare bits of the last word included. -/
def firstClear (b : Bitmap) : Option Nat := do
  let k ← b.words.findIdx? fun word => word != fullWord
  let word ← b.words[k]?
  let i ← word.firstClear
  return k * wordBits + i

/-- Sets the lowest clear bit and returns its index, or `none` if every index is set. A spare bit of
the last word is never taken. -/
def acquire (b : Bitmap) : Option (Nat × Bitmap) :=
  match b.firstClear with
  | some i => if i < b.len then some (i, b.putBit i true) else none
  | none => none

/-- `n` acquisitions one after the other, with what each of them returned. -/
def acquireMany (b : Bitmap) : Nat → List (Option Nat) × Bitmap
  | 0 => ([], b)
  | n + 1 =>
    match b.acquire with
    | some (i, b') => let (rest, last) := b'.acquireMany n; (some i :: rest, last)
    | none => let (rest, last) := b.acquireMany n; (none :: rest, last)

/-- Sets or clears the indices from `lo` up to, not including, `hi`. -/
def setRange (b : Bitmap) (lo hi : Nat) (v : Bool) : Except OutOfRange Bitmap :=
  (List.range (hi - lo)).foldlM (fun b k => b.set (lo + k) v) b

/-- The number of set bits. -/
def ones (b : Bitmap) : Nat := b.words.foldl (fun n w => n + w.ones) 0

/-- The set indices in ascending order. -/
def members (b : Bitmap) : List Nat := (List.range b.len).filter b.bit

def text (b : Bitmap) : String :=
  "Bitmap \x7b words: [" ++ ", ".intercalate (b.words.toList.map (·.text)) ++
    s!"], len: {b.len} \x7d"

@[simp] theorem len_putBit (b : Bitmap) (i : Nat) (v : Bool) : (b.putBit i v).len = b.len := rfl

@[simp] theorem size_putBit (b : Bitmap) (i : Nat) (v : Bool) :
    (b.putBit i v).words.size = b.words.size := by simp [putBit]

@[simp] theorem bit_ofLength (len i : Nat) : (ofLength len).bit i = false := by
  simp only [bit, ofLength, Array.getElem?_replicate]
  split
  · rename_i h
    split at h <;> simp_all
    simp [← h]
  · rfl

/-- An update changes the bit it names and no other. -/
theorem bit_putBit (b : Bitmap) {i : Nat} (h : i / wordBits < b.words.size) (v : Bool) (j : Nat) :
    (b.putBit i v).bit j = if i = j then v else b.bit j := by
  have hlt : i % wordBits < wordBits := Nat.mod_lt _ (by decide)
  simp only [bit, putBit, Array.getElem?_modify]
  by_cases hw : i / wordBits = j / wordBits
  · have hj : j / wordBits < b.words.size := hw ▸ h
    have hiff : i % wordBits = j % wordBits ↔ i = j := by simp only [wordBits] at *; omega
    simp only [hw, if_true, Array.getElem?_eq_getElem hj, Option.map_some,
      BitArray.test_put _ hlt, hiff]
  · have hij : i ≠ j := fun e => hw (e ▸ rfl)
    simp only [hw, hij, if_false]

end Bitmap

end DemandPaging
