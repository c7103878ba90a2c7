import DemandPaging.File.Memory
import DemandPaging.Proofs.Effect

/-!
# Honest files

Paging can keep the contents of a page in its file only if the file plays along. An honest file
system has files of a fixed size, reads and writes all that lies inside them, and changes them for
no other reason. `Honest.byte` is what a page has from its file, and the laws below say what a write
to one region does to another.
-/

namespace DemandPaging

/-- What it takes to keep pages in files. -/
structure Honest (φ : Type) [FileSystem φ] where
  /-- Whether the handle has been given out. -/
  known : φ → Handle → Bool
  /-- The file behind a handle. -/
  file : φ → Handle → Nat
  /-- The contents of a file. -/
  contents : φ → Nat → List UInt8
  /-- A call other than a write changes no file. -/
  unchanged : ∀ {s s' : φ}, Consulted s s' → contents s' = contents s
  /-- It leaves the handles alone that have been given out. -/
  consulted : ∀ {s s' : φ} {h : Handle}, Consulted s s' → known s h = true →
    known s' h = true ∧ file s' h = file s h
  /-- A handle that is opened again leads to the same file. -/
  reopened : ∀ {s : φ} {h : Handle}, known s h = true →
    known (FileSystem.reopen s h).2 (FileSystem.reopen s h).1 = true ∧
      file (FileSystem.reopen s h).2 (FileSystem.reopen s h).1 = file s h
  /-- A read returns all that lies between its offset and the end of the file. -/
  read : ∀ {s : φ} {h : Handle}, known s h = true → ∀ offset want,
    (FileSystem.readAt s h offset want).1.data = ((contents s (file s h)).drop offset).take want ∧
      (FileSystem.readAt s h offset want).1.count =
        (((contents s (file s h)).drop offset).take want).length
  /-- A write leaves the handles alone. -/
  kept : ∀ {s : φ} {h h' : Handle}, known s h = true → known s h' = true → ∀ offset data,
    known (FileSystem.writeAt s h offset data).2 h' = true ∧
      file (FileSystem.writeAt s h offset data).2 h' = file s h'
  /-- It changes what it covers of its file, and nothing else. -/
  written : ∀ {s : φ} {h : Handle}, known s h = true → ∀ offset data n (i : Nat),
    (contents (FileSystem.writeAt s h offset data).2 n)[i]? =
      if n = file s h ∧ offset ≤ i ∧ i < offset + data.length ∧ i < (contents s n).length then
        data[i - offset]?
      else (contents s n)[i]?

namespace Honest

variable {φ : Type} [FileSystem φ] (H : Honest φ) {s s' : φ} {h : Handle} {r r' : Region} {o : Nat}

/-- The contents of the file behind a handle. -/
def data (s : φ) (h : Handle) : List UInt8 := H.contents s (H.file s h)

/-- The byte at offset `o` of a page that takes region `r` from its file. -/
def byte (s : φ) (r : Region) (o : Nat) : UInt8 :=
  if o < r.readLen then (H.data s r.file)[r.offset + o]?.getD 0 else 0

/-- The byte at offset `o` of a page as it is declared. -/
def first (s : φ) (pg : Page) (o : Nat) : UInt8 := pg.backing.region?.elim 0 (H.byte s · o)

/-- Two regions have a byte of a file in common. -/
def Meets (s : φ) (r r' : Region) : Prop :=
  H.file s r.file = H.file s r'.file ∧
    max r.offset r'.offset < min (r.offset + r.readLen) (r'.offset + r'.readLen)

instance (s : φ) (r r' : Region) : Decidable (H.Meets s r r') := by
  unfold Meets
  infer_instance

/-- What the region takes from its file is there. -/
def Inside (s : φ) (r : Region) : Prop :=
  ∀ o < r.readLen, r.offset + o < (H.data s r.file).length

/-! ### Calls other than writes -/

theorem data_consulted (hc : Consulted s s') (hk : H.known s h = true) :
    H.data s' h = H.data s h := by
  rw [data, data, (H.consulted hc hk).2, H.unchanged hc]

theorem byte_consulted (hc : Consulted s s') (hk : H.known s r.file = true) (o : Nat) :
    H.byte s' r o = H.byte s r o := by rw [byte, byte, H.data_consulted hc hk]

/-- A region of which all has been read lies within its file. -/
theorem inside_of_count (hk : H.known s r.file = true)
    (hcount : (FileSystem.readAt s r.file r.offset r.readLen).1.count = r.readLen) :
    H.Inside s r := by
  intro o ho
  have hlen := (H.read hk r.offset r.readLen).2
  rw [hcount, List.length_take, List.length_drop] at hlen
  rw [data]
  omega

/-- A page that has been read in holds what its file has. -/
theorem byte_overlay_read (hk : H.known s r.file = true)
    (hcount : (FileSystem.readAt s r.file r.offset r.readLen).1.count = r.readLen)
    (ho : o < pageSize) :
    ((Bytes.zero pageSize).overlay 0
        ((FileSystem.readAt s r.file r.offset r.readLen).1.data.take r.readLen)).data[o]? =
      some (H.byte s r o) := by
  obtain ⟨hdata, hlen⟩ := H.read hk r.offset r.readLen
  rw [hcount] at hlen
  rw [Bytes.getElem?_overlay _ _ _ ho, hdata, List.take_take, Nat.min_self, ← hlen, Bytes.getElem?_zero,
    if_pos ho, byte, data]
  by_cases hr : o < r.readLen
  · rw [if_pos ⟨Nat.zero_le _, by omega⟩, if_pos hr, Nat.sub_zero, List.getElem?_take_of_lt hr,
      List.getElem?_drop]
    have hin := H.inside_of_count hk hcount o hr
    rw [data] at hin
    rw [List.getElem?_eq_getElem hin, Option.getD_some]
  · rw [if_neg (by omega), if_neg hr]

/-! ### Writes -/

variable {data : List UInt8}

theorem length_writeAt (hk : H.known s h = true) (offset : Nat) (data : List UInt8) (n : Nat) :
    (H.contents (FileSystem.writeAt s h offset data).2 n).length = (H.contents s n).length := by
  -- neither has a byte where the other has none
  have hnone : ∀ i : Nat, (H.contents (FileSystem.writeAt s h offset data).2 n)[i]? = none ↔
      (H.contents s n)[i]? = none := by
    intro i
    rw [H.written hk]
    split
    · rename_i hi
      rw [List.getElem?_eq_none_iff, List.getElem?_eq_none_iff]
      omega
    · rfl
  simp only [List.getElem?_eq_none_iff] at hnone
  exact Nat.le_antisymm ((hnone _).2 (Nat.le_refl _)) ((hnone _).1 (Nat.le_refl _))

theorem inside_writeAt (hk : H.known s h = true) (hr : H.known s r.file = true) (offset : Nat)
    (data : List UInt8) :
    H.Inside (FileSystem.writeAt s h offset data).2 r ↔ H.Inside s r := by
  simp only [Inside, Honest.data, (H.kept hk hr offset data).2, H.length_writeAt hk]

/-- A write to a region does not change what another region has, unless they meet. -/
theorem byte_writeAt_of_not_meets (hk : H.known s r.file = true) (hk' : H.known s r'.file = true)
    (hmeets : ¬ H.Meets s r r') (hlen : data.length ≤ r.readLen) (o : Nat) :
    H.byte (FileSystem.writeAt s r.file r.offset data).2 r' o = H.byte s r' o := by
  rw [byte, byte]
  split
  · rename_i ho
    rw [Honest.data, Honest.data, (H.kept hk hk' r.offset data).2, H.written hk, if_neg]
    rintro ⟨hfile, hlo, hhi, -⟩
    exact hmeets ⟨hfile.symm, by omega⟩
  · rfl

/-- A region has what has been written to it. -/
theorem byte_writeAt_self (hk : H.known s r.file = true) (hin : H.Inside s r)
    (hlen : data.length = r.readLen) (o : Nat) :
    H.byte (FileSystem.writeAt s r.file r.offset data).2 r o =
      if o < r.readLen then data[o]?.getD 0 else 0 := by
  rw [byte]
  split
  · rename_i ho
    rw [Honest.data, (H.kept hk hk r.offset data).2, H.written hk, if_pos, Nat.add_sub_cancel_left]
    exact ⟨rfl, Nat.le_add_right _ _, by omega, hin o ho⟩
  · rfl

end Honest

/-! ### Files in memory -/

/-- A write to a file that stores all there is room for. -/
theorem MemoryFile.getElem?_write {f : MemoryFile} (hcap : f.writeCap = none) (offset : Nat)
    (data : List UInt8) (i : Nat) :
    (f.write offset data).data[i]? =
      if offset ≤ i ∧ i < offset + data.length ∧ i < f.data.length then data[i - offset]?
      else f.data[i]? := by
  have hroom : f.room offset data.length = min data.length (f.data.length - offset) := by
    rw [room, hcap]
  have hstored : (data.take (f.room offset data.length)).length = f.room offset data.length := by
    rw [List.length_take, hroom]
    omega
  simp only [write, hstored, List.append_assoc, List.getElem?_append, List.length_take]
  rcases Nat.lt_or_ge i (min offset f.data.length) with hlo | hlo
  · rw [if_pos hlo, if_neg (by omega), List.getElem?_take_of_lt (by omega)]
  · rw [if_neg (Nat.not_lt.2 hlo)]
    rcases Nat.lt_or_ge (i - min offset f.data.length) (f.room offset data.length) with hin | hin
    · -- something is stored, so that the file reaches beyond the offset
      have hoffset : min offset f.data.length = offset := by omega
      rw [hoffset] at hlo hin ⊢
      rw [if_pos hin, if_pos (by omega), List.getElem?_take_of_lt hin]
    · rw [if_neg (Nat.not_lt.2 hin), if_neg (by omega), List.getElem?_drop]
      rcases Nat.lt_or_ge i f.data.length with hi | hi
      · congr 1
        omega
      · rw [List.getElem?_eq_none (by omega), List.getElem?_eq_none hi]

/-- A write does not change the size of the file. -/
theorem MemoryFile.length_write (f : MemoryFile) (offset : Nat) (data : List UInt8) :
    (f.write offset data).data.length = f.data.length := by
  have hroom : f.room offset data.length ≤ min data.length (f.data.length - offset) := by
    rw [room]
    cases f.writeCap with
    | none => exact Nat.le_refl _
    | some cap => exact Nat.min_le_left _ _
  simp only [write, List.length_append, List.length_take, List.length_drop]
  omega

namespace MemoryFiles

/-- The file of the handle exists and stores all of each write. -/
def isOpen (s : MemoryFiles) (h : Handle) : Bool := s.files[h]?.any (·.writeCap.isNone)

theorem consulted_eq {s s' : MemoryFiles} (hc : Consulted s s') : s' = s := by
  cases hc with
  | length h =>
    simp only [FileSystem.length]
    split <;> rfl
  | reopen h | close h => rfl
  | read h offset want =>
    simp only [FileSystem.readAt]
    split <;> rfl

theorem exists_of_isOpen {s : MemoryFiles} {h : Handle} (hopen : s.isOpen h = true) :
    ∃ f, s.files[h]? = some f ∧ f.writeCap = none := by
  obtain ⟨f, hf, hcap⟩ := (Option.any_eq_true _ _).1 hopen
  exact ⟨f, hf, Option.isNone_iff_eq_none.1 hcap⟩

theorem contents_writeAt {s : MemoryFiles} {h : Handle} {f : MemoryFile} (hf : s.files[h]? = some f)
    (offset : Nat) (data : List UInt8) (n : Nat) :
    contents (FileSystem.writeAt s h offset data).2 n =
      if n = h then (f.write offset data).data else s.contents n := by
  simp only [FileSystem.writeAt, hf, contents, Array.getElem?_modify]
  rcases eq_or_ne h n with rfl | hne
  · simp [hf]
  · simp [hne, hne.symm]

theorem length_writeAt (s : MemoryFiles) (h : Handle) (offset : Nat) (data : List UInt8) (n : Nat) :
    (contents (FileSystem.writeAt s h offset data).2 n).length = (s.contents n).length := by
  cases hf : s.files[h]? with
  | none => simp only [FileSystem.writeAt, hf]
  | some f =>
    rw [contents_writeAt hf]
    split
    · rename_i heq
      rw [f.length_write, contents, heq, hf]
    · rfl

/-- Files in memory are honest, but for those that cut writes short. -/
def honest : Honest MemoryFiles where
  known := isOpen
  file _ h := h
  contents := contents
  unchanged hc := by rw [consulted_eq hc]
  consulted hc hk := by
    rw [consulted_eq hc]
    exact ⟨hk, rfl⟩
  reopened hk := ⟨hk, rfl⟩
  read hk offset want := by
    obtain ⟨f, hf, -⟩ := exists_of_isOpen hk
    simp only [FileSystem.readAt, hf, contents]
    exact ⟨rfl, rfl⟩
  kept {s h h'} hk hk' offset data := by
    obtain ⟨f, hf, hcap⟩ := exists_of_isOpen hk
    refine ⟨?_, rfl⟩
    obtain ⟨f', hf', hcap'⟩ := exists_of_isOpen hk'
    simp only [FileSystem.writeAt, hf, isOpen, Array.getElem?_modify, hf', Option.map_some]
    split
    · simpa [MemoryFile.write] using hcap'
    · simpa using hcap'
  written {s h} hk offset data n i := by
    obtain ⟨f, hf, hcap⟩ := exists_of_isOpen hk
    rw [contents_writeAt hf]
    rcases eq_or_ne n h with rfl | hne
    · rw [if_pos rfl, MemoryFile.getElem?_write hcap, contents, hf]
      simp only [true_and]
    · rw [if_neg hne, if_neg fun hc => hne hc.1]

end MemoryFiles

end DemandPaging
