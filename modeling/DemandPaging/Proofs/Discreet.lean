import DemandPaging.Proofs.Honest

/-!
# Discreet files

A discreet file system gives nothing away about the contents of a file but to a read of that file.
Two states that are alike, which differ in contents alone, answer all calls in the same way, bytes
read aside; a file that is the same in both gives the same bytes, and stays the same when the same is
written to it. Files may be of any length, say what they like of it, and cut reads and writes short.
-/

namespace DemandPaging

/-- What it takes to keep the contents of files apart. -/
structure Discreet (φ : Type) [FileSystem φ] where
  /-- Whether the handle has been given out. -/
  known : φ → Handle → Bool
  /-- The file behind a handle. -/
  file : φ → Handle → Nat
  /-- The contents of a file. -/
  contents : φ → Nat → List UInt8
  /-- The two states differ in the contents of files at most, and not in how long these are. -/
  alike : φ → φ → Prop
  /-- A call other than a write changes no file. -/
  unchanged : ∀ {s s' : φ}, Consulted s s' → contents s' = contents s
  /-- It leaves the handles alone that have been given out. -/
  consulted : ∀ {s s' : φ} {h : Handle}, Consulted s s' → known s h = true →
    known s' h = true ∧ file s' h = file s h
  /-- So does a write. -/
  kept : ∀ {s : φ} {h h' : Handle}, known s h' = true → ∀ offset data,
    known (FileSystem.writeAt s h offset data).2 h' = true ∧
      file (FileSystem.writeAt s h offset data).2 h' = file s h'
  /-- The handle of a file that is opened once more is given out. -/
  reopened : ∀ {s : φ} {h : Handle}, known s h = true →
    known (FileSystem.reopen s h).2 (FileSystem.reopen s h).1 = true
  /-- A write changes no other file. -/
  elsewhere : ∀ {s : φ} {h : Handle}, known s h = true → ∀ offset data n, n ≠ file s h →
    contents (FileSystem.writeAt s h offset data).2 n = contents s n
  /-- States that are alike have the same handles. -/
  handles : ∀ {s t : φ}, alike s t → ∀ h, known s h = known t h ∧ file s h = file t h
  length : ∀ {s t : φ}, alike s t → ∀ h, (FileSystem.length s h).1 = (FileSystem.length t h).1 ∧
    alike (FileSystem.length s h).2 (FileSystem.length t h).2
  reopen : ∀ {s t : φ}, alike s t → ∀ h, (FileSystem.reopen s h).1 = (FileSystem.reopen t h).1 ∧
    alike (FileSystem.reopen s h).2 (FileSystem.reopen t h).2
  close : ∀ {s t : φ}, alike s t → ∀ h, alike (FileSystem.close s h) (FileSystem.close t h)
  read : ∀ {s t : φ}, alike s t → ∀ h offset want,
    (FileSystem.readAt s h offset want).1.count = (FileSystem.readAt t h offset want).1.count ∧
      alike (FileSystem.readAt s h offset want).2 (FileSystem.readAt t h offset want).2
  /-- The bytes that are read depend on no file but the one that is read. -/
  readSame : ∀ {s t : φ} {h : Handle}, alike s t → known s h = true →
    contents s (file s h) = contents t (file s h) → ∀ offset want,
    (FileSystem.readAt s h offset want).1.data = (FileSystem.readAt t h offset want).1.data
  write : ∀ {s t : φ}, alike s t → ∀ h offset {data data' : List UInt8}, data.length = data'.length →
    (FileSystem.writeAt s h offset data).1 = (FileSystem.writeAt t h offset data').1 ∧
      alike (FileSystem.writeAt s h offset data).2 (FileSystem.writeAt t h offset data').2
  /-- What a write makes of a file depends on no other file. -/
  writeSame : ∀ {s t : φ} {h : Handle}, alike s t → known s h = true →
    contents s (file s h) = contents t (file s h) → ∀ offset data,
    contents (FileSystem.writeAt s h offset data).2 (file s h) =
      contents (FileSystem.writeAt t h offset data).2 (file s h)

namespace Discreet

variable {φ : Type} [FileSystem φ] (F : Discreet φ) {S : Set Nat} {s s' t t' : φ} {h : Handle}

/-- The two states are alike, and the files that are not in `S` are the same in both. -/
structure Same (S : Set Nat) (s t : φ) : Prop where
  alike : F.alike s t
  contents : ∀ n ∉ S, F.contents s n = F.contents t n

/-- The handles that have been given out lead where they led. -/
def Keeps (s s' : φ) : Prop :=
  ∀ h, F.known s h = true → F.known s' h = true ∧ F.file s' h = F.file s h

variable {F}

theorem Keeps.refl (s : φ) : F.Keeps s s := fun _ hk => ⟨hk, rfl⟩

theorem Keeps.trans {s'' : φ} (h : F.Keeps s s') (h' : F.Keeps s' s'') : F.Keeps s s'' := fun g hk =>
  ⟨(h' g (h g hk).1).1, (h' g (h g hk).1).2.trans (h g hk).2⟩

theorem keeps_of_consulted (hc : Consulted s s') : F.Keeps s s' := fun _ hk => F.consulted hc hk

theorem keeps_writeAt (s : φ) (h : Handle) (offset : Nat) (data : List UInt8) :
    F.Keeps s (FileSystem.writeAt s h offset data).2 := fun _ hk => F.kept hk offset data

/-- Calls other than writes leave the files the same. -/
theorem Same.consult (hst : F.Same S s t) (hs : Consulted s s') (ht : Consulted t t')
    (halike : F.alike s' t') : F.Same S s' t' where
  alike := halike
  contents n hn := by rw [F.unchanged hs, F.unchanged ht, hst.contents n hn]

/-- Writes leave them the same if the same is written, or to a file that may differ. -/
theorem Same.write (hst : F.Same S s t) (hk : F.known s h = true) (offset : Nat)
    {data data' : List UInt8} (hlen : data.length = data'.length)
    (hdata : F.file s h ∉ S → data = data') :
    F.Same S (FileSystem.writeAt s h offset data).2 (FileSystem.writeAt t h offset data').2 where
  alike := (F.write hst.alike h offset hlen).2
  contents n hn := by
    obtain ⟨hknown, hfile⟩ := F.handles hst.alike h
    rcases eq_or_ne n (F.file s h) with rfl | hne
    · rw [← hdata hn]
      exact F.writeSame hst.alike hk (hst.contents _ hn) offset data
    · rw [F.elsewhere hk offset data n hne, hst.contents n hn,
        F.elsewhere (hknown ▸ hk) offset data' n (hfile ▸ hne)]

end Discreet

/-! ### Files in memory -/

/-- The file, its contents aside. -/
def MemoryFile.outline (f : MemoryFile) : Nat × Option Nat × Option Nat :=
  (f.data.length, f.stated, f.writeCap)

theorem MemoryFile.outline_write (f : MemoryFile) (offset : Nat) (data : List UInt8) :
    (f.write offset data).outline = f.outline := by
  rw [outline, outline, f.length_write]
  rfl

namespace MemoryFiles

/-- The files, their contents aside. -/
def outline (s : MemoryFiles) (i : Nat) : Option (Nat × Option Nat × Option Nat) :=
  s.files[i]?.map MemoryFile.outline

/-- A file is there in both states, with contents of the same length, or in neither. -/
theorem outline_cases {s t : MemoryFiles} (h : s.outline = t.outline) (i : Nat) :
    s.files[i]? = none ∧ t.files[i]? = none ∨ ∃ f g, s.files[i]? = some f ∧ t.files[i]? = some g ∧
      f.data.length = g.data.length ∧ f.stated = g.stated ∧ f.writeCap = g.writeCap := by
  have hi := congrFun h i
  simp only [outline] at hi
  cases hs : s.files[i]? <;> cases ht : t.files[i]? <;> simp [hs, ht, MemoryFile.outline] at hi
  · exact .inl ⟨rfl, rfl⟩
  · exact .inr ⟨_, _, rfl, rfl, hi⟩

theorem outline_writeAt (s : MemoryFiles) (h offset : Nat) (data : List UInt8) :
    outline (FileSystem.writeAt s h offset data).2 = s.outline := by
  funext i
  simp only [FileSystem.writeAt]
  split
  · simp only [outline, Array.getElem?_modify]
    split
    · cases s.files[i]? with
      | none => rfl
      | some f => simp only [Option.map_some, f.outline_write]
    · rfl
  · rfl

section

variable {s t : MemoryFiles} {h : Handle}

theorem contents_writeAt_of_ne {n : Nat} (hn : n ≠ h) (offset : Nat) (data : List UInt8) :
    contents (FileSystem.writeAt s h offset data).2 n = contents s n := by
  cases hf : s.files[h]? with
  | none => simp only [FileSystem.writeAt, hf]
  | some f => rw [contents_writeAt hf, if_neg hn]

theorem length_eq_of_outline (hst : s.outline = t.outline) (h : Handle) :
    (FileSystem.length s h).1 = (FileSystem.length t h).1 ∧
      outline (FileSystem.length s h).2 = outline (FileSystem.length t h).2 := by
  simp only [FileSystem.length]
  rcases outline_cases hst h with ⟨hs, ht⟩ | ⟨f, g, hs, ht, hlen, hstated, -⟩
  · rw [hs, ht]
    exact ⟨rfl, hst⟩
  · rw [hs, ht]
    exact ⟨by simp only [hlen, hstated], hst⟩

theorem count_eq_of_outline (hst : s.outline = t.outline) (h : Handle) (offset want : Nat) :
    (FileSystem.readAt s h offset want).1.count = (FileSystem.readAt t h offset want).1.count ∧
      outline (FileSystem.readAt s h offset want).2 = outline (FileSystem.readAt t h offset want).2 := by
  simp only [FileSystem.readAt]
  rcases outline_cases hst h with ⟨hs, ht⟩ | ⟨f, g, hs, ht, hlen, -, -⟩
  · rw [hs, ht]
    exact ⟨rfl, hst⟩
  · rw [hs, ht]
    exact ⟨by simp [MemoryFile.read, hlen], hst⟩

theorem readAt_eq_of_contents (hst : s.outline = t.outline) (hcontents : contents s h = contents t h)
    (offset want : Nat) :
    (FileSystem.readAt s h offset want).1.data = (FileSystem.readAt t h offset want).1.data := by
  simp only [FileSystem.readAt]
  rcases outline_cases hst h with ⟨hs, ht⟩ | ⟨f, g, hs, ht, -, -, -⟩
  · rw [hs, ht]
  · simp only [contents, hs, ht] at hcontents
    simp only [hs, ht, MemoryFile.read, hcontents]

theorem writeAt_eq_of_outline (hst : s.outline = t.outline) (h offset : Nat) {data data' : List UInt8}
    (hlen : data.length = data'.length) :
    (FileSystem.writeAt s h offset data).1 = (FileSystem.writeAt t h offset data').1 ∧
      outline (FileSystem.writeAt s h offset data).2 = outline (FileSystem.writeAt t h offset data').2 := by
  refine ⟨?_, by rw [outline_writeAt, outline_writeAt, hst]⟩
  simp only [FileSystem.writeAt]
  rcases outline_cases hst h with ⟨hs, ht⟩ | ⟨f, g, hs, ht, hsize, -, hcap⟩
  · rw [hs, ht]
  · simp only [hs, ht, MemoryFile.room, hsize, hcap, hlen]

theorem contents_writeAt_eq_of_contents (hst : s.outline = t.outline)
    (hcontents : contents s h = contents t h) (offset : Nat) (data : List UInt8) :
    contents (FileSystem.writeAt s h offset data).2 h = contents (FileSystem.writeAt t h offset data).2 h := by
  rcases outline_cases hst h with ⟨hs, ht⟩ | ⟨f, g, hs, ht, -, -, hcap⟩
  · simp only [FileSystem.writeAt, hs, ht]
    exact hcontents
  · simp only [contents, hs, ht] at hcontents
    rw [contents_writeAt hs, contents_writeAt ht, if_pos rfl, if_pos rfl]
    simp only [MemoryFile.write, MemoryFile.room, hcontents, hcap]

end

theorem contents_of_consulted {s s' : MemoryFiles} (hc : Consulted s s') : contents s' = contents s := by
  rw [consulted_eq hc]

/-- All handles on a file are the number of the file, and are known from the start. -/
theorem handle_known (h : Handle) : true = true ∧ h = h := ⟨rfl, rfl⟩

theorem reopen_eq_of_outline {s t : MemoryFiles} (hst : s.outline = t.outline) (h : Handle) :
    (FileSystem.reopen s h).1 = (FileSystem.reopen t h).1 ∧
      outline (FileSystem.reopen s h).2 = outline (FileSystem.reopen t h).2 := ⟨rfl, hst⟩

/-- Files in memory are discreet, whatever they state and wherever they cut writes short. -/
def discreet : Discreet MemoryFiles where
  known _ _ := true
  file _ h := h
  contents := contents
  alike s t := s.outline = t.outline
  unchanged := contents_of_consulted
  consulted {_ _ h} _ _ := handle_known h
  kept {_ _ h} _ _ _ := handle_known h
  reopened _ := rfl
  elsewhere _ offset data _ hn := contents_writeAt_of_ne hn offset data
  handles _ h := handle_known h
  length := length_eq_of_outline
  reopen := reopen_eq_of_outline
  close hst _ := hst
  read := count_eq_of_outline
  readSame hst _ hcontents := readAt_eq_of_contents hst hcontents
  write hst h offset _ _ hlen := writeAt_eq_of_outline hst h offset hlen
  writeSame hst _ hcontents := contents_writeAt_eq_of_contents hst hcontents

end MemoryFiles

end DemandPaging
