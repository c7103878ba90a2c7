import DemandPaging.Bits
import DemandPaging.Frame

/-!
# Page table entries

An entry is a word of 32 bits. Five single bits say how the page may be used and how it has been
used; the upper 20 bits hold a physical frame number. Bits without a meaning are kept as they are.
-/

namespace DemandPaging

namespace PageTable

/-- One entry of a page table. -/
structure Entry where
  bits : BitArray 32
  deriving DecidableEq

namespace Entry

/-- Frame numbers in an entry have 20 bits and lie below this bound. -/
def pfnLimit : Nat := 0x100000

/-- The position of the frame number in an entry. -/
def pfnShift : Nat := 12

/-- No bit set. -/
def empty : Entry := ⟨.clear 32⟩

/-- The page is mapped. -/
def present (e : Entry) : Bool := e.bits.test 0

/-- The page may be written to. -/
def writable (e : Entry) : Bool := e.bits.test 1

/-- The page may be used by user programs. -/
def user (e : Entry) : Bool := e.bits.test 2

/-- The page has been read or written since this bit was last cleared. -/
def accessed (e : Entry) : Bool := e.bits.test 5

/-- The page has been written since it was mapped. -/
def dirty (e : Entry) : Bool := e.bits.test 6

/-- The frame number. -/
def pfn (e : Entry) : Nat := (e.bits.word >>> pfnShift).toNat

def setAccessed (e : Entry) (v : Bool) : Entry := ⟨e.bits.put 5 v⟩

def setDirty (e : Entry) (v : Bool) : Entry := ⟨e.bits.put 6 v⟩

/-- The frame number becomes `n`, of which 20 bits are kept. -/
def setPfn (e : Entry) (n : Nat) : Entry :=
  ⟨⟨(e.bits.word &&& BitVec.ofNat 32 (1 <<< pfnShift - 1)) ||| (BitVec.ofNat 32 n <<< pfnShift)⟩⟩

/-- The entry after an access: accessed, and dirty if it was dirty or the access is a write. -/
def touch (e : Entry) (write : Bool) : Entry := (e.setAccessed true).setDirty (e.dirty || write)

/-- The entry that maps a user page to a frame, neither accessed nor dirty. -/
def ofFrame (frame : Frame) (writable : Bool) : Entry :=
  setPfn ⟨(((BitArray.clear 32).put 0 true).put 2 true).put 1 writable⟩ frame.pfn

theorem test_setPfn (e : Entry) (n : Nat) {i : Nat} (h : i < pfnShift) :
    (e.setPfn n).bits.test i = e.bits.test i := by
  simp only [pfnShift] at h
  have h32 : i < 32 := by omega
  simp only [setPfn, pfnShift, BitArray.test, BitVec.getLsbD_or, BitVec.getLsbD_and,
    BitVec.getLsbD_ofNat, BitVec.getLsbD_shiftLeft, Nat.one_shiftLeft, Nat.testBit_two_pow_sub_one,
    h, h32, decide_true, Bool.and_true, Bool.not_true, Bool.and_false, Bool.false_and, Bool.or_false]

theorem pfn_setPfn (e : Entry) {n : Nat} (h : n < pfnLimit) : (e.setPfn n).pfn = n := by
  have hbits : ((e.setPfn n).bits.word >>> pfnShift) = BitVec.ofNat 32 n := by
    apply BitVec.eq_of_getLsbD_eq
    intro i hi
    simp only [setPfn, pfnShift, BitVec.getLsbD_ushiftRight, BitVec.getLsbD_or, BitVec.getLsbD_and,
      BitVec.getLsbD_ofNat, BitVec.getLsbD_shiftLeft, Nat.one_shiftLeft,
      Nat.testBit_two_pow_sub_one]
    have h12 : ¬ 12 + i < 12 := by omega
    by_cases h20 : 12 + i < 32
    · simp [h20, h12, hi]
    · have hpow : Nat.pow 2 20 ≤ Nat.pow 2 i := Nat.pow_le_pow_right (by decide) (by omega)
      have hn : n.testBit i = false := Nat.testBit_lt_two_pow (Nat.lt_of_lt_of_le h hpow)
      simp [h20, hn]
  simp only [pfnLimit] at h
  rw [pfn, hbits, BitVec.toNat_ofNat, Nat.mod_eq_of_lt (by omega)]

/-- A change of a flag keeps the frame number. -/
theorem pfn_put (b : BitArray 32) {i : Nat} (h : i < pfnShift) (v : Bool) :
    pfn ⟨b.put i v⟩ = pfn ⟨b⟩ := by
  simp only [pfnShift] at h
  simp only [pfn]
  congr 1
  apply BitVec.eq_of_getLsbD_eq
  intro j _
  have hput := BitArray.test_put b (i := i) (by omega) v (pfnShift + j)
  have hne : i ≠ pfnShift + j := by simp only [pfnShift]; omega
  simpa [BitArray.test, hne] using hput

@[simp] theorem present_ofFrame (f : Frame) (w : Bool) : (ofFrame f w).present = true := by
  rw [ofFrame, present, test_setPfn _ _ (by decide)]; simp [BitArray.test_put]

@[simp] theorem user_ofFrame (f : Frame) (w : Bool) : (ofFrame f w).user = true := by
  rw [ofFrame, user, test_setPfn _ _ (by decide)]; simp [BitArray.test_put]

@[simp] theorem writable_ofFrame (f : Frame) (w : Bool) : (ofFrame f w).writable = w := by
  rw [ofFrame, writable, test_setPfn _ _ (by decide)]; simp [BitArray.test_put]

@[simp] theorem accessed_ofFrame (f : Frame) (w : Bool) : (ofFrame f w).accessed = false := by
  rw [ofFrame, accessed, test_setPfn _ _ (by decide)]; simp [BitArray.test_put]

@[simp] theorem dirty_ofFrame (f : Frame) (w : Bool) : (ofFrame f w).dirty = false := by
  rw [ofFrame, dirty, test_setPfn _ _ (by decide)]; simp [BitArray.test_put]

theorem pfn_ofFrame {f : Frame} (h : f.pfn < pfnLimit) (w : Bool) : (ofFrame f w).pfn = f.pfn :=
  pfn_setPfn _ h

@[simp] theorem accessed_setAccessed (e : Entry) (v : Bool) : (e.setAccessed v).accessed = v := by
  simp [setAccessed, accessed, BitArray.test_put]

@[simp] theorem dirty_setAccessed (e : Entry) (v : Bool) : (e.setAccessed v).dirty = e.dirty := by
  simp [setAccessed, dirty, BitArray.test_put]

@[simp] theorem writable_setAccessed (e : Entry) (v : Bool) :
    (e.setAccessed v).writable = e.writable := by
  simp [setAccessed, writable, BitArray.test_put]

@[simp] theorem present_setAccessed (e : Entry) (v : Bool) :
    (e.setAccessed v).present = e.present := by
  simp [setAccessed, present, BitArray.test_put]

@[simp] theorem user_setAccessed (e : Entry) (v : Bool) : (e.setAccessed v).user = e.user := by
  simp [setAccessed, user, BitArray.test_put]

@[simp] theorem pfn_setAccessed (e : Entry) (v : Bool) : (e.setAccessed v).pfn = e.pfn :=
  pfn_put _ (by decide) _

@[simp] theorem accessed_touch (e : Entry) (w : Bool) : (e.touch w).accessed = true := by
  simp [touch, setDirty, setAccessed, accessed, BitArray.test_put]

@[simp] theorem dirty_touch (e : Entry) (w : Bool) : (e.touch w).dirty = (e.dirty || w) := by
  simp [touch, setDirty, setAccessed, dirty, BitArray.test_put]

@[simp] theorem writable_touch (e : Entry) (w : Bool) : (e.touch w).writable = e.writable := by
  simp [touch, setDirty, setAccessed, writable, BitArray.test_put]

@[simp] theorem present_touch (e : Entry) (w : Bool) : (e.touch w).present = e.present := by
  simp [touch, setDirty, setAccessed, present, BitArray.test_put]

@[simp] theorem user_touch (e : Entry) (w : Bool) : (e.touch w).user = e.user := by
  simp [touch, setDirty, setAccessed, user, BitArray.test_put]

@[simp] theorem pfn_touch (e : Entry) (w : Bool) : (e.touch w).pfn = e.pfn :=
  (pfn_put _ (by decide) _).trans (pfn_put _ (by decide) _)

end Entry

end PageTable

end DemandPaging
