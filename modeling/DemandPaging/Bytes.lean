import DemandPaging.Address

/-!
# Byte blocks

A block of `n` bytes, the contents of a page or of a sector. `overlay` writes a run of bytes at a
position and keeps the rest; `slice` reads a run. What lies past the end of the block is neither
written nor read.
-/

namespace DemandPaging

/-- A block of `n` bytes. -/
structure Bytes (n : Nat) where
  data : List UInt8
  length_data : data.length = n
  deriving DecidableEq, Repr

/-- The contents of a page. -/
abbrev PageBytes := Bytes pageSize

namespace Bytes

variable {n : Nat}

/-- `n` zero bytes. -/
def zero (n : Nat) : Bytes n := ⟨List.replicate n 0, List.length_replicate⟩

/-- The first `n` bytes of `data`, filled up with zeros. -/
def ofList (n : Nat) (data : List UInt8) : Bytes n :=
  ⟨(data ++ List.replicate n 0).take n, by simp⟩

/-- The block with `data` written from position `pos` on. -/
def overlay (b : Bytes n) (pos : Nat) (data : List UInt8) : Bytes n :=
  ⟨(b.data.take pos ++ data ++ b.data.drop (pos + data.length)).take n, by
    have := b.length_data
    simp; omega⟩

/-- The `len` bytes from position `pos` on, as far as the block reaches. -/
def slice (b : Bytes n) (pos len : Nat) : List UInt8 := (b.data.drop pos).take len

/-- How far past position `pos` the first zero byte lies, if there is one. -/
def zeroAfter (b : Bytes n) (pos : Nat) : Option Nat := (b.data.drop pos).findIdx? (· == 0)

theorem ext_getElem? {a b : Bytes n} (h : ∀ i : Nat, a.data[i]? = b.data[i]?) : a = b := by
  cases a; cases b
  congr
  exact List.ext_getElem? h

@[simp] theorem getElem?_data_eq_none (b : Bytes n) {i : Nat} (h : n ≤ i) : b.data[i]? = none :=
  List.getElem?_eq_none (b.length_data.symm ▸ h)

theorem getElem?_zero (i : Nat) : (zero n).data[i]? = if i < n then some 0 else none := by
  simp [zero, List.getElem?_replicate]

/-- An overlay changes the bytes it covers and no others. -/
theorem getElem?_overlay (b : Bytes n) (pos : Nat) (data : List UInt8) {i : Nat} (h : i < n) :
    (b.overlay pos data).data[i]? =
      if pos ≤ i ∧ i < pos + data.length then data[i - pos]? else b.data[i]? := by
  have hb := b.length_data
  simp only [overlay, List.getElem?_take, h, if_true, List.append_assoc, List.getElem?_append,
    List.length_take, hb]
  by_cases h1 : i < pos
  · have hlo : i < min pos n := by omega
    simp [h1, hlo, Nat.not_le.2 h1]
  · have hlo : ¬ i < min pos n := by omega
    have hsub : i - min pos n = i - pos := by omega
    by_cases h2 : i - pos < data.length
    · have hin : pos ≤ i ∧ i < pos + data.length := by omega
      simp [hlo, hsub, h2, hin]
    · have hd : pos + data.length + (i - pos - data.length) = i := by omega
      have hout : ¬ (pos ≤ i ∧ i < pos + data.length) := by omega
      simp [hlo, hsub, h2, hout, hd]

theorem length_slice (b : Bytes n) (pos len : Nat) :
    (b.slice pos len).length = min len (n - pos) := by simp [slice, b.length_data]

theorem getElem?_slice (b : Bytes n) (pos len i : Nat) :
    (b.slice pos len)[i]? = if i < len then b.data[pos + i]? else none := by
  simp [slice, List.getElem?_take]

/-- The whole block is its slice of full length. -/
@[simp] theorem slice_zero_self (b : Bytes n) : b.slice 0 n = b.data := by
  simp [slice, List.take_of_length_le (Nat.le_of_eq b.length_data)]

@[simp] theorem ofList_data (b : Bytes n) : ofList n b.data = b := by
  refine ext_getElem? fun i => ?_
  simp only [ofList, List.take_append, b.length_data, Nat.sub_self, List.take_zero,
    List.append_nil, List.take_of_length_le (Nat.le_of_eq b.length_data)]

end Bytes

end DemandPaging
