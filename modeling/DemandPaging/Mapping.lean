import DemandPaging.Address
import DemandPaging.Page
import Std.Data.ExtTreeMap

/-!
# Mappings of files

A mapping lists the pages that show a file, and holds the handle that they use. Mappings are known
by numbers that are given out in ascending order and never again.
-/

namespace DemandPaging

/-- A mapped file. -/
structure Mapping where
  file : Handle
  /-- The addresses of the pages, in ascending order. -/
  pages : Array Nat
  deriving DecidableEq, Repr

/-- The live mappings of a process, by number. -/
structure MapTable where
  /-- The number of the next mapping. -/
  nextId : Nat
  live : Std.ExtTreeMap Nat Mapping

namespace MapTable

def empty : MapTable := ⟨0, ∅⟩

/-- Adds a mapping, under the number `t.nextId`. -/
def add (t : MapTable) (m : Mapping) : MapTable := ⟨t.nextId + 1, t.live.insert t.nextId m⟩

/-- Forgets mapping `id`. -/
def erase (t : MapTable) (id : Nat) : MapTable := { t with live := t.live.erase id }

/-- Forgets every mapping; numbers go on from where they are. -/
def clear (t : MapTable) : MapTable := { t with live := ∅ }

theorem live_add (t : MapTable) (m : Mapping) (k : Nat) :
    (t.add m).live[k]? = if k = t.nextId then some m else t.live[k]? := by
  simp only [add, Std.ExtTreeMap.getElem?_insert, Nat.compare_eq_eq, eq_comm (a := t.nextId)]

@[simp] theorem live_add_nextId (t : MapTable) (m : Mapping) : (t.add m).live[t.nextId]? = some m := by
  rw [live_add, if_pos rfl]

/-- A mapping that has a number keeps it when one is added. -/
theorem live_add_of_lt {t : MapTable} {k : Nat} {m' : Mapping} (hk : t.live[k]? = some m')
    (hlt : k < t.nextId) (m : Mapping) : (t.add m).live[k]? = some m' := by
  rw [live_add, if_neg (Nat.ne_of_lt hlt), hk]

theorem live_erase (t : MapTable) (id k : Nat) :
    (t.erase id).live[k]? = if k = id then none else t.live[k]? := by
  simp only [erase, Std.ExtTreeMap.getElem?_erase, Nat.compare_eq_eq, eq_comm (a := id)]

end MapTable

/-- How many pages a file of `len` bytes fills. -/
def pagesFor (len : Nat) : Nat := (len + (pageSize - 1)) / pageSize

/-- The pieces of a file of `len` bytes, one for each page: whole pages, and a last one that zeros
fill up. -/
def tiles (file : Handle) (len : Nat) : List Region :=
  (List.range (pagesFor len)).map fun i =>
    let readLen := min (len - i * pageSize) pageSize
    ⟨file, i * pageSize, readLen, pageSize - readLen⟩

theorem length_tiles (file : Handle) (len : Nat) : (tiles file len).length = pagesFor len := by
  simp [tiles]

theorem readLen_add_zeroLen_of_mem_tiles {file : Handle} {len : Nat} {r : Region}
    (h : r ∈ tiles file len) : r.readLen + r.zeroLen = pageSize := by
  obtain ⟨i, -, rfl⟩ := List.mem_map.1 h
  show min _ _ + (_ - min _ _) = _
  omega

end DemandPaging
