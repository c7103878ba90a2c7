import DemandPaging.File.Journal
import Mathlib.Data.List.Nodup
import Mathlib.Data.Set.Insert

/-!
# The life of a handle

A ledger of the calls that have been made: which handles they have opened, which of those are still in
use, and that nothing has been asked of a handle since it was closed. It can be carried on by calls on
handles that are not closed, by the opening of a new handle, and by the end of one that is in use.
-/

namespace DemandPaging

namespace FileCall

/-- The handle that the call has opened. -/
def opens? : FileCall → Option Handle
  | .reopen _ h => some h
  | _ => none

/-- The handle that the call has closed. -/
def closes? : FileCall → Option Handle
  | .close h => some h
  | _ => none

/-- A call that neither opens nor closes a handle. -/
def Plain (c : FileCall) : Prop := c.opens? = none ∧ c.closes? = none

end FileCall

/-- The handles that calls have opened, in order. -/
def openings (calls : List FileCall) : List Handle := calls.filterMap FileCall.opens?

/-- The handles that calls have closed, in order. -/
def closings (calls : List FileCall) : List Handle := calls.filterMap FileCall.closes?

/-- No handle is called after it has been closed. -/
def Silent (calls : List FileCall) : Prop := calls.Pairwise fun c c' => c.closes? ≠ some c'.handle

variable {given live : Set Handle} {size size' : Nat} {calls cs : List FileCall} {h file : Handle}

@[simp] theorem openings_append : openings (calls ++ cs) = openings calls ++ openings cs :=
  List.filterMap_append

@[simp] theorem closings_append : closings (calls ++ cs) = closings calls ++ closings cs :=
  List.filterMap_append

theorem openings_of_plain (h : ∀ c ∈ cs, c.Plain) : openings cs = [] :=
  List.filterMap_eq_nil_iff.2 fun c hc => (h c hc).1

theorem closings_of_plain (h : ∀ c ∈ cs, c.Plain) : closings cs = [] :=
  List.filterMap_eq_nil_iff.2 fun c hc => (h c hc).2

/-- Calls on handles that are not closed, of which at most the last closes one. -/
theorem Silent.append (hs : Silent calls) (hcs : ∀ c ∈ cs, c.closes? = none ∧ c.handle ∉ closings calls)
    {c : FileCall} (hc : c.handle ∉ closings calls) : Silent (calls ++ cs ++ [c]) := by
  have hlast : ∀ c' ∈ calls ++ cs, c'.closes? ≠ some c.handle := by
    intro c' hc' hcloses
    rcases List.mem_append.1 hc' with hc' | hc'
    · exact hc (List.mem_filterMap.2 ⟨c', hc', hcloses⟩)
    · simp [(hcs c' hc').1] at hcloses
  refine List.pairwise_append.2 ⟨List.pairwise_append.2 ⟨hs, ?_, fun a ha b hb hcloses => ?_⟩,
    List.pairwise_singleton _ _, fun a ha b hb => ?_⟩
  · refine List.pairwise_of_forall_mem_list fun a ha _ _ => ?_
    simp [(hcs a ha).1]
  · exact (hcs b hb).2 (List.mem_filterMap.2 ⟨a, ha, hcloses⟩)
  · rw [List.mem_singleton.1 hb]
    exact hlast a ha

/-- Handles are numbered from `0` to `size`. Callers have opened those in `given`, and the calls have
opened others, each once; of these the ones in `live` are in use, and the rest have been closed. -/
structure Ledger (given live : Set Handle) (size : Nat) (calls : List FileCall) : Prop where
  given : ∀ h ∈ given, h < size ∧ h ∉ openings calls
  fresh : ∀ h ∈ openings calls, h < size
  nodup : (openings calls).Nodup
  opened : ∀ h ∈ closings calls, h ∈ openings calls
  live : ∀ h, h ∈ live ↔ h ∈ openings calls ∧ h ∉ closings calls
  silent : Silent calls

namespace Ledger

/-- Before any call. -/
theorem nil : Ledger ∅ ∅ 0 [] :=
  ⟨by simp, by simp [openings], List.nodup_nil, by simp [closings], by simp [openings], List.Pairwise.nil⟩

theorem notMem_closings (hl : Ledger given live size calls) (hh : h ∈ given ∨ h ∈ live) :
    h ∉ closings calls := by
  rcases hh with hh | hh
  · exact fun hc => (hl.given h hh).2 (hl.opened h hc)
  · exact ((hl.live h).1 hh).2

/-- A caller opens a handle. -/
theorem give (hl : Ledger given live size calls) : Ledger (insert size given) live (size + 1) calls where
  given h hh := by
    rcases hh with rfl | hh
    · exact ⟨Nat.lt_succ_self _, fun hc => Nat.lt_irrefl _ (hl.fresh _ hc)⟩
    · exact ⟨Nat.lt_succ_of_lt (hl.given h hh).1, (hl.given h hh).2⟩
  fresh h hh := Nat.lt_succ_of_lt (hl.fresh h hh)
  nodup := hl.nodup
  opened := hl.opened
  live := hl.live
  silent := hl.silent

/-- Calls on handles that are in use. -/
theorem use (hl : Ledger given live size calls)
    (hcs : ∀ c ∈ cs, c.Plain ∧ (c.handle ∈ given ∨ c.handle ∈ live)) : Ledger given live size (calls ++ cs) := by
  have hopenings : openings (calls ++ cs) = openings calls := by
    rw [openings_append, openings_of_plain fun c hc => (hcs c hc).1, List.append_nil]
  have hclosings : closings (calls ++ cs) = closings calls := by
    rw [closings_append, closings_of_plain fun c hc => (hcs c hc).1, List.append_nil]
  refine ⟨?_, ?_, ?_, ?_, ?_, ?_⟩
  · rw [hopenings]
    exact hl.given
  · rw [hopenings]
    exact hl.fresh
  · rw [hopenings]
    exact hl.nodup
  · rw [hopenings, hclosings]
    exact hl.opened
  · rw [hopenings, hclosings]
    exact hl.live
  · rcases List.eq_nil_or_concat cs with rfl | ⟨cs', c, rfl⟩
    · rw [List.append_nil]
      exact hl.silent
    · rw [List.concat_eq_append] at hcs ⊢
      rw [← List.append_assoc]
      have hnot : ∀ c' ∈ cs' ++ [c], c'.closes? = none ∧ c'.handle ∉ closings calls := fun c' hc' =>
        ⟨(hcs c' hc').1.2, hl.notMem_closings (hcs c' hc').2⟩
      exact hl.silent.append (fun c' hc' => hnot c' (List.mem_append_left _ hc')) (hnot c (by simp)).2

/-- A handle is opened. -/
theorem reopen (hl : Ledger given live size calls) (hfile : file ∈ given) :
    Ledger given (insert size live) (size + 1) (calls ++ [.reopen file size]) := by
  have hnew : size ∉ openings calls := fun hc => Nat.lt_irrefl _ (hl.fresh _ hc)
  have hopenings : openings (calls ++ [.reopen file size]) = openings calls ++ [size] := openings_append
  have hclosings : closings (calls ++ [.reopen file size]) = closings calls := by
    rw [closings_append]
    exact List.append_nil _
  refine ⟨fun h hh => ?_, fun h hh => ?_, ?_, fun h hh => ?_, fun h => ?_, ?_⟩
  · obtain ⟨hlt, hno⟩ := hl.given h hh
    rw [hopenings, List.mem_append, List.mem_singleton]
    exact ⟨Nat.lt_succ_of_lt hlt, fun hc => hc.elim hno (Nat.ne_of_lt hlt)⟩
  · rw [hopenings, List.mem_append, List.mem_singleton] at hh
    rcases hh with hh | rfl
    · exact Nat.lt_succ_of_lt (hl.fresh h hh)
    · exact Nat.lt_succ_self _
  · rw [hopenings]
    exact List.nodup_append.2 ⟨hl.nodup, List.nodup_singleton _, fun a ha b hb hab =>
      hnew (by rwa [← List.mem_singleton.1 hb, ← hab])⟩
  · rw [hopenings]
    exact List.mem_append_left _ (hl.opened h (hclosings ▸ hh))
  · rw [hopenings, hclosings, List.mem_append, List.mem_singleton, Set.mem_insert_iff, hl.live]
    refine ⟨?_, ?_⟩
    · rintro (rfl | ⟨ho, hc⟩)
      · exact ⟨.inr rfl, fun hc => hnew (hl.opened _ hc)⟩
      · exact ⟨.inl ho, hc⟩
    · rintro ⟨ho | rfl, hc⟩
      · exact .inr ⟨ho, hc⟩
      · exact .inl rfl
  · have hnone : ∀ c ∈ ([] : List FileCall), c.closes? = none ∧ c.handle ∉ closings calls := by simp
    have hsilent := hl.silent.append hnone (c := .reopen file size) (hl.notMem_closings (.inl hfile))
    rwa [List.append_nil] at hsilent

/-- A handle that is in use is called for the last time, and closed. -/
theorem close (hl : Ledger given live size calls) (hh : h ∈ live)
    (hcs : ∀ c ∈ cs, c.Plain ∧ c.handle = h) : Ledger given (live \ {h}) size (calls ++ (cs ++ [.close h])) := by
  have huse := hl.use fun c hc => ⟨(hcs c hc).1, .inr ((hcs c hc).2 ▸ hh)⟩
  rw [← List.append_assoc]
  have hopenings : openings (calls ++ cs ++ [.close h]) = openings (calls ++ cs) := by
    rw [openings_append]
    exact List.append_nil _
  have hclosings : closings (calls ++ cs ++ [.close h]) = closings (calls ++ cs) ++ [h] := closings_append
  refine ⟨?_, ?_, ?_, fun h' hh' => ?_, fun h' => ?_, ?_⟩
  · rw [hopenings]
    exact huse.given
  · rw [hopenings]
    exact huse.fresh
  · rw [hopenings]
    exact huse.nodup
  · rw [hopenings]
    rw [hclosings, List.mem_append, List.mem_singleton] at hh'
    rcases hh' with hh' | rfl
    · exact huse.opened h' hh'
    · exact ((huse.live h').1 hh).1
  · rw [hopenings, hclosings, List.mem_append, List.mem_singleton, Set.mem_sdiff, Set.mem_singleton_iff,
      huse.live, not_or, and_assoc]
  · refine hl.silent.append (fun c hc => ⟨(hcs c hc).1.2, ?_⟩) (hl.notMem_closings (.inr hh))
    exact (hcs c hc).2 ▸ hl.notMem_closings (.inr hh)

end Ledger

end DemandPaging
