import DemandPaging.Proofs.FileCalls
import DemandPaging.File.Memory
import DemandPaging.Proofs.Honest

/-!
# A file of fixed size

What it takes of one file to be mapped: it has a fixed size, a read returns what is there, a write
stores all that lies inside, and it changes for no other reason. Nothing is asked of other files, but
that writing to them leaves this one alone. `FixedFile.contents_of_calls` says what a list of writes
makes of the file when no two of them disagree about a byte.
-/

namespace DemandPaging

/-- A file of a file system with states `φ`. -/
structure FixedFile (φ : Type) [FileSystem φ] where
  /-- Whether the handle has been given out, for any file. -/
  known : φ → Handle → Bool
  /-- Whether the handle leads to the file. -/
  leads : φ → Handle → Bool
  contents : φ → List UInt8
  /-- A call other than a write does not change the file. -/
  unchanged : ∀ {s s' : φ}, Consulted s s' → contents s' = contents s
  /-- It leaves the handles alone that have been given out. -/
  consulted : ∀ {s s' : φ} {h : Handle}, Consulted s s' → known s h = true →
    known s' h = true ∧ leads s' h = leads s h
  /-- A handle that is opened again leads to the same file. -/
  reopened : ∀ {s : φ} {h : Handle}, known s h = true →
    known (FileSystem.reopen s h).2 (FileSystem.reopen s h).1 = true ∧
      leads (FileSystem.reopen s h).2 (FileSystem.reopen s h).1 = leads s h
  /-- The file says how long it is. -/
  length : ∀ {s : φ} {h : Handle}, known s h = true → leads s h = true →
    (FileSystem.length s h).1 = (contents s).length
  /-- A read returns all that lies between its offset and the end of the file. -/
  read : ∀ {s : φ} {h : Handle}, known s h = true → leads s h = true → ∀ offset want,
    (FileSystem.readAt s h offset want).1.data = ((contents s).drop offset).take want
  /-- A write leaves the handles alone. -/
  kept : ∀ {s : φ} {h h' : Handle}, known s h = true → known s h' = true → ∀ offset data,
    known (FileSystem.writeAt s h offset data).2 h' = true ∧
      leads (FileSystem.writeAt s h offset data).2 h' = leads s h'
  /-- A write to the file changes what it covers of it, and nothing else. -/
  written : ∀ {s : φ} {h : Handle}, known s h = true → leads s h = true → ∀ offset data (i : Nat),
    (contents (FileSystem.writeAt s h offset data).2)[i]? =
      if offset ≤ i ∧ i < offset + data.length ∧ i < (contents s).length then data[i - offset]?
      else (contents s)[i]?
  /-- A write to another file does not change it. -/
  elsewhere : ∀ {s : φ} {h : Handle}, known s h = true → leads s h = false → ∀ offset data,
    contents (FileSystem.writeAt s h offset data).2 = contents s

namespace FixedFile

variable {φ : Type} [FileSystem φ] (H : FixedFile φ) {s s' : φ} {h : Handle} {calls : List FileCall}
  {offset i : Nat} {data : List UInt8}

/-- The byte that a call puts at position `i` of the file. -/
def put? (s : φ) (i : Nat) : FileCall → Option UInt8
  | .write h offset data => if H.leads s h = true ∧ offset ≤ i then data[i - offset]? else none
  | _ => none

/-- The handle has been given out, and leads where it led. -/
def Keeps (s s' : φ) (h : Handle) : Prop := H.known s' h = true ∧ H.leads s' h = H.leads s h

variable {H}

/-- A byte that a write does not put into the file is as it was. -/
theorem getElem?_writeAt (hk : H.known s h = true) (hi : i < (H.contents s).length) :
    (H.contents (FileSystem.writeAt s h offset data).2)[i]? =
      (H.put? s i (.write h offset data)).or (H.contents s)[i]? := by
  rw [put?]
  cases hl : H.leads s h with
  | false => simp [H.elsewhere hk hl]
  | true =>
    rw [H.written hk hl]
    simp only [true_and]
    by_cases hlo : offset ≤ i
    · by_cases hhi : i < offset + data.length
      · rw [if_pos ⟨hlo, hhi, hi⟩, if_pos hlo, List.getElem?_eq_getElem (by omega), Option.some_or]
      · rw [if_neg (by omega), if_pos hlo, List.getElem?_eq_none (l := data) (by omega), Option.none_or]
    · rw [if_neg (by omega), if_neg hlo, Option.none_or]

theorem length_writeAt (hk : H.known s h = true) (offset : Nat) (data : List UInt8) :
    (H.contents (FileSystem.writeAt s h offset data).2).length = (H.contents s).length := by
  cases hl : H.leads s h with
  | false => rw [H.elsewhere hk hl]
  | true =>
    -- neither has a byte where the other has none
    have hnone : ∀ i : Nat, (H.contents (FileSystem.writeAt s h offset data).2)[i]? = none ↔
        (H.contents s)[i]? = none := by
      intro i
      rw [H.written hk hl]
      split
      · rename_i hi
        rw [List.getElem?_eq_none_iff, List.getElem?_eq_none_iff]
        omega
      · rfl
    simp only [List.getElem?_eq_none_iff] at hnone
    exact Nat.le_antisymm ((hnone _).2 (Nat.le_refl _)) ((hnone _).1 (Nat.le_refl _))

/-- Handles that have been given out go on leading where they led, whatever is written. -/
theorem keeps_of_calls (h : Calls s calls s')
    (hknown : ∀ {g offset data}, .write g offset data ∈ calls → H.known s g = true) :
    ∀ g, H.known s g = true → H.Keeps s s' g := by
  induction h with
  | refl => exact fun g hg => ⟨hg, rfl⟩
  | consult _ consulted ih =>
    intro g hg
    obtain ⟨hg', hleads⟩ := ih hknown g hg
    obtain ⟨hg'', hleads'⟩ := H.consulted consulted hg'
    exact ⟨hg'', hleads'.trans hleads⟩
  | write _ file offset data ih =>
    intro g hg
    have ih' := ih fun hc => hknown (List.mem_append_left _ hc)
    have hfile := (ih' file (hknown (List.mem_append_right _ List.mem_cons_self))).1
    obtain ⟨hg', hleads⟩ := ih' g hg
    obtain ⟨hg'', hleads'⟩ := H.kept hfile hg' offset data
    exact ⟨hg'', hleads'.trans hleads⟩

/-- When all writes that reach a byte put there what is wanted, it is there in the end, or the byte has
not been reached. -/
theorem contents_of_calls (h : Calls s calls s')
    (hknown : ∀ {g offset data}, .write g offset data ∈ calls → H.known s g = true)
    {want : Nat → Option UInt8} (hwant : ∀ c ∈ calls, ∀ i b, H.put? s i c = some b → some b = want i) :
    (H.contents s').length = (H.contents s).length ∧
      ∀ i < (H.contents s).length, (H.contents s')[i]? = want i ∨
        (H.contents s')[i]? = (H.contents s)[i]? ∧ ∀ c ∈ calls, H.put? s i c = none := by
  induction h with
  | refl => exact ⟨rfl, fun i _ => .inr ⟨rfl, by simp⟩⟩
  | consult _ consulted ih =>
    rw [H.unchanged consulted]
    exact ih hknown hwant
  | @write calls s' before file offset data ih =>
    have hknown' : ∀ {g offset data}, .write g offset data ∈ calls → H.known s g = true := fun hc =>
      hknown (List.mem_append_left _ hc)
    obtain ⟨hlen, hbytes⟩ := ih hknown' fun c hc => hwant c (List.mem_append_left _ hc)
    have hfile := hknown (List.mem_append_right calls List.mem_cons_self)
    obtain ⟨hfile', hleads⟩ := keeps_of_calls before hknown' file hfile
    refine ⟨(length_writeAt hfile' offset data).trans hlen, fun i hi => ?_⟩
    have hput : H.put? s' i (.write file offset data) = H.put? s i (.write file offset data) := by
      rw [put?, put?, hleads]
    rw [getElem?_writeAt hfile' (by rwa [hlen]), hput]
    cases hc : H.put? s i (.write file offset data) with
    | some b =>
      exact .inl (hwant _ (List.mem_append_right calls List.mem_cons_self) i b hc)
    | none =>
      rw [Option.none_or]
      refine (hbytes i hi).imp_right fun ⟨hsame, hnone⟩ => ⟨hsame, fun c hc' => ?_⟩
      rcases List.mem_append.1 hc' with hc' | hc'
      · exact hnone c hc'
      · rw [List.mem_singleton.1 hc', hc]

end FixedFile

/-! ### Files in memory -/

namespace MemoryFiles

/-- File `n` exists, states its true length and stores all of each write. -/
def isPlain (s : MemoryFiles) (n : Nat) : Bool :=
  s.files[n]?.any fun f => f.writeCap.isNone && f.stated.isNone

theorem exists_of_isPlain {s : MemoryFiles} {n : Nat} (h : s.isPlain n = true) :
    ∃ f, s.files[n]? = some f ∧ f.writeCap = none ∧ f.stated = none := by
  obtain ⟨f, hf, hplain⟩ := (Option.any_eq_true _ _).1 h
  simp only [Bool.and_eq_true, Option.isNone_iff_eq_none] at hplain
  exact ⟨f, hf, hplain⟩

theorem isPlain_writeAt (s : MemoryFiles) (h offset : Nat) (data : List UInt8) (n : Nat) :
    isPlain (FileSystem.writeAt s h offset data).2 n = s.isPlain n := by
  simp only [FileSystem.writeAt]
  split
  · simp only [isPlain, Array.getElem?_modify]
    split
    · cases s.files[n]? <;> rfl
    · rfl
  · rfl

/-- Each file in memory has a fixed size, as long as it says so and cuts no write short. -/
def fixed (n : Nat) : FixedFile MemoryFiles where
  known _ _ := true
  leads s h := h == n && s.isPlain n
  contents s := if s.isPlain n then s.contents n else []
  unchanged hc := by rw [consulted_eq hc]
  consulted hc _ := by
    rw [consulted_eq hc]
    exact ⟨rfl, rfl⟩
  reopened _ := ⟨rfl, rfl⟩
  length {s h} _ hl := by
    simp only [Bool.and_eq_true, beq_iff_eq] at hl
    obtain ⟨f, hf, -, hstated⟩ := exists_of_isPlain hl.2
    simp [FileSystem.length, contents, hl.1, hl.2, hf, hstated]
  read {s h} _ hl offset want := by
    simp only [Bool.and_eq_true, beq_iff_eq] at hl
    obtain ⟨f, hf, -, -⟩ := exists_of_isPlain hl.2
    simp [FileSystem.readAt, contents, hl.1, hl.2, hf, MemoryFile.read]
  kept _ _ _ _ := by
    rw [isPlain_writeAt]
    exact ⟨rfl, rfl⟩
  written {s h} _ hl offset data i := by
    simp only [Bool.and_eq_true, beq_iff_eq] at hl
    obtain ⟨f, hf, hcap, -⟩ := exists_of_isPlain hl.2
    rw [isPlain_writeAt, if_pos hl.2, if_pos hl.2, hl.1, contents_writeAt hf, if_pos rfl,
      MemoryFile.getElem?_write hcap, contents, hf]
  elsewhere {s h} _ hl offset data := by
    rw [isPlain_writeAt]
    split
    · rename_i hplain
      have hne : h ≠ n := by simpa [hplain] using hl
      simp only [FileSystem.writeAt]
      split
      · simp [contents, Array.getElem?_modify, hne]
      · rfl
    · rfl

end MemoryFiles

end DemandPaging
