import DemandPaging.Proofs.Mapping

/-!
# Declaring pages of files

While pages are declared, and given up again before they have come into memory, nothing that was there
changes: no page moves, and no file is written to.
-/

namespace DemandPaging

variable {φ : Type} [FileSystem φ] {l : Label} {v v' v'' : View φ} {q : ProcId} {w : Nat} {j : PageId}

namespace View

/-- What is known when pages of files have been declared since, and given up perhaps: nothing that was
there has changed. -/
structure Still (v v' : View φ) : Prop where
  dirty : v'.dirty = v.dirty
  cell : v'.cell = v.cell
  slot : v'.slot = v.slot
  next : v.next ≤ v'.next
  page : ∀ {j}, j < v.next → v'.page j = v.page j
  calls : Calls v.files [] v'.files
  own : ∀ {q w j}, v'.own q w = some j → j < v.next → v.own q w = some j
  new : ∀ {q w j}, v'.own q w = some j → v.next ≤ j →
    (v'.page j).frame = none ∧ (v'.page j).slot = none ∧ v'.dirty q w = false

theorem Still.refl (hv : v.Sound) : v.Still v :=
  ⟨rfl, rfl, rfl, Nat.le_refl _, fun _ => rfl, .refl, fun hj _ => hj,
    fun hj hle => absurd (hv.owned.lt hj) (Nat.not_lt.2 hle)⟩

theorem Still.tail (h : v.Still v') (hv' : v'.Sound) (he : Effect l v' v'') (hl : l.mapping) :
    v.Still v'' := by
  have hown : ∀ {q w j}, v''.own q w = some j → j < v.next → v.own q w = some j := by
    intro q w j hj hlt
    rcases he.own_cases hj with hj | ⟨rfl, -⟩
    · exact h.own hj hlt
    · exact absurd hlt (Nat.not_lt.2 h.next)
  cases he with
  | @declare _ p u x backing r vacant region fits =>
    refine ⟨h.dirty, h.cell, h.slot, Nat.le_succ_of_le h.next, fun hlt => ?_, h.calls,
      hown, fun {q w j} hj hle => ?_⟩
    · rw [claim_page, Function.update_of_ne (Nat.ne_of_lt (Nat.lt_of_lt_of_le hlt h.next)), h.page hlt]
    · rw [claim_own, setAt_apply] at hj
      split at hj
      · rename_i hat
        rw [← Option.some.inj hj, claim_page, Function.update_self]
        refine ⟨rfl, rfl, hv'.housed.clean q w ?_⟩
        rw [hv'.housed.mapping?, hat.1, hat.2, vacant.own]
        rfl
      · rw [claim_page, Function.update_of_ne (Nat.ne_of_lt (hv'.owned.lt hj))]
        exact h.new hj hle
  | forget own away slot =>
    exact ⟨h.dirty, h.cell, h.slot, h.next, h.page, h.calls, hown,
      fun hj hle => h.new (own_of_disown hj).1 hle⟩
  | unlist | remap =>
    exact ⟨h.dirty, h.cell, h.slot, h.next, h.page, h.calls, hown, h.new⟩
  | consult consulted =>
    exact ⟨h.dirty, h.cell, h.slot, h.next, h.page, h.calls.consult consulted, hown, h.new⟩
  | _ => exact hl.elim

theorem Still.retains (h : v.Still v') (hv : v.Sound) (hj : v.own q w = some j) : v.Retains v' q w j :=
  ⟨h.page (hv.owned.lt hj), by rw [h.dirty], fun _ _ => by rw [h.cell], fun _ _ => by rw [h.slot]⟩

end View

open View

/-- Mapping a file moves no contents. -/
theorem Path.still (h : Path Label.mapping v v') (hv : v.Sound) : v.Still v' := by
  refine (h.keeps (P := fun w => w.Sound ∧ v.Still w) ⟨hv, .refl hv⟩ ?_).2
  rintro l w w' hl he ⟨hw, hstill⟩
  exact ⟨he.sound hw, hstill.tail hw he hl⟩

end DemandPaging
