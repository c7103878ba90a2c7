import DemandPaging.File.Journal
import DemandPaging.Proofs.Retain

/-!
# The writes that pages owe

A dirty page in memory that shows a mapped file owes the file a write when it is given up. `Calls` says
which writes a file system has seen on the way from one state to another, whatever else it was asked
and whatever it answered.
-/

namespace DemandPaging

/-- From `s` the file system has come to another state, with the writes `calls` in this order; it may
have been called in other ways in between. -/
inductive Calls {φ : Type} [FileSystem φ] (s : φ) : List FileCall → φ → Prop
  | refl : Calls s [] s
  | consult {calls : List FileCall} {s' s'' : φ} (before : Calls s calls s')
      (consulted : Consulted s' s'') : Calls s calls s''
  | write {calls : List FileCall} {s' : φ} (before : Calls s calls s') (file : Handle) (offset : Nat)
      (data : List UInt8) :
      Calls s (calls ++ [.write file offset data]) (FileSystem.writeAt s' file offset data).2

theorem Calls.trans {φ : Type} [FileSystem φ] {s s' s'' : φ} {calls calls' : List FileCall}
    (h : Calls s calls s') (h' : Calls s' calls' s'') : Calls s (calls ++ calls') s'' := by
  induction h' with
  | refl => simpa using h
  | consult _ consulted ih => exact ih.consult consulted
  | write _ file offset data ih =>
    rw [← List.append_assoc]
    exact ih.write file offset data

namespace View

variable {φ : Type} {v v' : View φ} {p : ProcId} {u : Nat} {i : PageId} {f : Frame} {b : PageBytes}
  {r : Region}

/-- The write of page `i`, which process `p` has at `u`, to region `r`, if the page is in memory and
dirty. -/
def write? (v : View φ) (p : ProcId) (u : Nat) (i : PageId) (r : Region) : Option FileCall :=
  if v.dirty p u then
    (v.page i).frame.bind fun f => (v.cell f.cell).map fun b =>
      .write r.file r.offset (b.slice 0 r.readLen)
  else none

/-- The write that the page of process `p` at `u` owes when it is given up: a page that is not of a
mapped file is lost. -/
def due (v : View φ) (p : ProcId) (u : Nat) : Option FileCall :=
  (v.own p u).bind fun i =>
    match (v.page i).backing with
    | .mapped r => v.write? p u i r
    | _ => none

theorem write?_of_dirty (hd : v.dirty p u = true) (hf : (v.page i).frame = some f)
    (hb : v.cell f.cell = some b) (r : Region) :
    v.write? p u i r = some (.write r.file r.offset (b.slice 0 r.readLen)) := by
  rw [write?, if_pos hd, hf, Option.bind_some, hb, Option.map_some]

theorem write?_of_clean (hd : v.dirty p u = false) (i : PageId) (r : Region) :
    v.write? p u i r = none := by rw [write?, if_neg (by simp [hd])]

theorem write?_of_away (hf : (v.page i).frame = none) (r : Region) : v.write? p u i r = none := by
  rw [write?, hf, Option.bind_none, ite_self]

theorem due_of_mapped (hi : v.own p u = some i) (hr : (v.page i).backing = .mapped r) :
    v.due p u = v.write? p u i r := by simp only [due, hi, Option.bind_some, hr]

theorem due_eq_none (hi : v.own p u = some i) (hr : ∀ r, (v.page i).backing ≠ .mapped r) :
    v.due p u = none := by
  rw [due, hi, Option.bind_some]
  cases hb : (v.page i).backing with
  | mapped r => exact absurd hb (hr r)
  | _ => rfl

/-- A write that is owed comes from a dirty page of a mapped file, in memory. -/
theorem due_eq_some {c : FileCall} (h : v.due p u = some c) : ∃ i r f b, v.own p u = some i ∧
    (v.page i).backing = .mapped r ∧ v.dirty p u = true ∧ (v.page i).frame = some f ∧
    v.cell f.cell = some b ∧ c = .write r.file r.offset (b.slice 0 r.readLen) := by
  obtain ⟨i, hi, hdue⟩ := Option.bind_eq_some_iff.1 h
  cases hr : (v.page i).backing with
  | swap | file => simp [hr] at hdue
  | mapped r =>
    rw [hr] at hdue
    obtain ⟨hd, hdue⟩ := Option.ite_none_right_eq_some.1 hdue
    obtain ⟨f, hf, hdue⟩ := Option.bind_eq_some_iff.1 hdue
    obtain ⟨b, hb, rfl⟩ := Option.map_eq_some_iff.1 hdue
    exact ⟨i, r, f, b, hi, hr, hd, hf, hb, rfl⟩

/-- What a page owes depends on nothing but the page. -/
theorem Retains.write? (h : v.Retains v' p u i) (r : Region) : v'.write? p u i r = v.write? p u i r := by
  rw [View.write?, View.write?, h.page, h.dirty]
  cases hf : (v.page i).frame with
  | none => rfl
  | some f => rw [Option.bind_some, Option.bind_some, h.cell f hf]

theorem due_congr (hown : v'.own p u = v.own p u)
    (hpage : ∀ i, v.own p u = some i → v.Retains v' p u i) : v'.due p u = v.due p u := by
  rw [due, due, hown]
  cases hi : v.own p u with
  | none => rfl
  | some i =>
    simp only [Option.bind_some, (hpage i hi).page, (hpage i hi).write?]

end View

end DemandPaging
