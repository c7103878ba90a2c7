import DemandPaging.File.Memory
import DemandPaging.Proofs.Clock
import DemandPaging.Proofs.Footprint
import DemandPaging.Proofs.Reachable

/-!
# The rounds of the clock

The entries of the frame table form a circle, and the hand of the clock goes around it: `Around` says what
it meets on its way. It goes on when a frame is asked for and the request is turned down, for two rounds at
most: `hunt`. A `Course` is a sequence of frames that are lent and freed, together with the entries that
the hand has met and those that have come or gone meanwhile. The entries that stay are met in turn, as if
there were no others. All this depends on nothing but the place of the hand: which pages are pinned or
mapped, and what the pool has to lend, may change in any way at any time.
-/

namespace DemandPaging

/-- Going around the circle `l`, one meets `es`, and then `l'` is what is ahead. -/
structure Around {α : Type} (l es l' : List α) : Prop where
  ahead : l' = l.rotate es.length
  met : ∀ j < es.length, es[j]? = l[j % l.length]?

section

variable {α : Type} {l es es' l' l'' rest : List α} {a : α} {p : α → Bool} {n : Nat}

theorem around_nil (l : List α) : Around l [] l := ⟨(List.rotate_zero l).symm, by simp⟩

theorem Around.of_nil (h : Around l [] l') : l' = l := h.ahead.trans (List.rotate_zero l)

/-- Once it has been met, an entry is behind all others. -/
theorem around_cons : Around (a :: rest) (a :: es) l' ↔ Around (rest ++ [a]) es l' := by
  have hturn : ∀ j, (a :: rest)[(j + 1) % (a :: rest).length]? = (rest ++ [a])[j % (rest ++ [a]).length]? := by
    intro j
    have hlen : (rest ++ [a]).length = (a :: rest).length := by simp
    have hlt : j % (a :: rest).length < (a :: rest).length := Nat.mod_lt _ (Nat.succ_pos _)
    calc (a :: rest)[(j + 1) % (a :: rest).length]?
        = (a :: rest)[(j % (a :: rest).length + 1) % (a :: rest).length]? := by rw [Nat.mod_add_mod]
      _ = ((a :: rest).rotate 1)[j % (a :: rest).length]? := (List.getElem?_rotate hlt).symm
      _ = (rest ++ [a])[j % (rest ++ [a]).length]? := by rw [List.rotate_cons_succ, List.rotate_zero, hlen]
  constructor
  · rintro ⟨hahead, hmet⟩
    refine ⟨by rw [hahead, List.length_cons, List.rotate_cons_succ], fun j hj => ?_⟩
    rw [← hturn, ← hmet (j + 1) (Nat.succ_lt_succ hj), List.getElem?_cons_succ]
  · rintro ⟨hahead, hmet⟩
    refine ⟨by rw [hahead, List.length_cons, List.rotate_cons_succ], fun j hj => ?_⟩
    cases j with
    | zero => rw [Nat.zero_mod]; rfl
    | succ j => rw [hturn, ← hmet j (Nat.lt_of_succ_lt_succ hj), List.getElem?_cons_succ]

theorem Around.exists_cons (h : Around l (a :: es) l') : ∃ rest, l = a :: rest := by
  have hhead := h.met 0 (Nat.succ_pos _)
  rw [Nat.zero_mod, List.getElem?_cons_zero] at hhead
  cases l with
  | nil => simp at hhead
  | cons b rest => exact ⟨rest, by rw [Option.some.inj hhead]⟩

theorem Around.trans (h : Around l es l') (h' : Around l' es' l'') : Around l (es ++ es') l'' := by
  induction es generalizing l with
  | nil => rwa [h.of_nil] at h'
  | cons a es ih =>
    obtain ⟨rest, rfl⟩ := h.exists_cons
    exact around_cons.2 (ih (around_cons.1 h))

/-- To leave some entries out of account makes no difference to the others. -/
theorem Around.filter (p : α → Bool) (h : Around l es l') :
    Around (l.filter p) (es.filter p) (l'.filter p) := by
  induction es generalizing l with
  | nil =>
    rw [h.of_nil]
    exact around_nil _
  | cons a es ih =>
    obtain ⟨rest, rfl⟩ := h.exists_cons
    have hnext := ih (around_cons.1 h)
    rw [List.filter_append] at hnext
    cases ha : p a with
    | true =>
      rw [List.filter_cons_of_pos ha, List.filter_cons_of_pos ha, around_cons]
      rwa [List.filter_cons_of_pos ha, List.filter_nil] at hnext
    | false =>
      have hno : ¬ p a = true := by simp [ha]
      rw [List.filter_cons_of_neg hno, List.filter_cons_of_neg hno]
      rwa [List.filter_cons_of_neg hno, List.filter_nil, List.append_nil] at hnext

theorem filter_eraseIdx (h : l[n]? = some a) (ha : p a = false) :
    (l.eraseIdx n).filter p = l.filter p := by
  obtain ⟨hn, rfl⟩ := List.getElem?_eq_some_iff.1 h
  have hno : ¬ p l[n] = true := by simp [ha]
  conv_rhs => rw [← List.take_append_drop n l, List.drop_eq_getElem_cons hn, List.filter_append,
    List.filter_cons_of_neg hno]
  rw [List.eraseIdx_eq_take_drop_succ, List.filter_append]

theorem filter_insertIdx (h : n ≤ l.length) (ha : p a = false) :
    (l.insertIdx n a).filter p = l.filter p := by
  have hget : (l.insertIdx n a)[n]? = some a := by rw [List.getElem?_insertIdx_self, if_pos h]
  rw [← filter_eraseIdx hget ha, List.eraseIdx_insertIdx_self]

end

namespace Kernel

variable {φ : Type}

/-- The entries that the clock looks at in up to `n` looks; if it takes one, that is the last. -/
def met : Nat → Machine φ → List Tenancy
  | 0, _ => []
  | n + 1, m => m.frames.current?.toList ++
    match look m with
    | .ok none m' => met n m'
    | _ => []

end Kernel

namespace Machine

variable {φ : Type} [FileSystem φ]

/-- What the clock does when a frame is asked for: the entries that it looks at, and the one it takes. If
the request is not turned down, it does nothing. -/
def hunt (m : Machine φ) (zeroed : Bool) : List Tenancy × Option Tenancy :=
  match Kernel.takeFrame (.forUser zeroed) m with
  | .ok (.error _) m₁ =>
    let looks := 2 * m₁.frames.entries.length
    (Kernel.met looks m₁, match Kernel.sweep looks m₁ with
      | .ok taken _ => taken
      | .error _ _ => none)
  | _ => ([], none)

/-- A frame is lent or freed, or something happens that is not about the frame table. `met` are the
entries that the clock looks at meanwhile, and `moved` those that come or go. -/
inductive Turn : Machine φ → List Tenancy → List Tenancy → Machine φ → Prop
  | lend {m m' : Machine φ} {p : ProcId} {i : PageId} {u : Nat} {zeroed : Bool} {f : Frame}
      (run : Kernel.lendFrame p i u zeroed m = .ok f m') :
      Turn m (m.hunt zeroed).1 (⟨f, p, i⟩ :: (m.hunt zeroed).2.toList) m'
  | free {m m' : Machine φ} {f : Frame} (run : Kernel.freeFrame f m = .ok () m') :
      Turn m [] (m.frames.entries.find? (·.frame == f)).toList m'
  /-- Pages are pinned, mapped and used, and whatever else there is to a machine changes. -/
  | other {m m' : Machine φ} (same : m'.frames = m.frames) : Turn m [] [] m'

/-- One turn after the other. -/
inductive Course : Machine φ → List Tenancy → List Tenancy → Machine φ → Prop
  | none (m : Machine φ) : Course m [] [] m
  | next {m m₁ m' : Machine φ} {met moved es es' : List Tenancy} (course : Course m met moved m₁)
      (turn : Turn m₁ es es' m') : Course m (met ++ es) (moved ++ es') m'

/-- The frame table has been empty, and nothing has changed it since but frames that were lent or freed. -/
def Tended (m : Machine φ) : Prop :=
  ∃ m₀ met moved, m₀.frames = .empty ∧ Course m₀ met moved m

end Machine

namespace Kernel

open Machine

variable {φ : Type} {m m' : Machine φ} {e : Tenancy}

/-- The frame table is the same. -/
def SameFrames (m m' : Machine φ) : Prop := m'.frames = m.frames

instance : Bears (SameFrames (φ := φ)) where
  refl _ := rfl
  trans _ _ _ h h' := h'.trans h
  report _ _ := rfl
  page _ _ _ _ := rfl
  memory _ _ := rfl
  slots _ _ := rfl
  devices _ _ := rfl

/-! ### What the clock does to the circle -/

theorem look_of_empty (hcur : m.frames.current? = none) : look m = .ok none m := by
  refine eq_ok_of_ends ?_
  simp only [look, ends_bind, ends_get, hcur]
  exact ⟨rfl, rfl⟩

/-- The hand moves on from an entry, which may be taken out. -/
theorem ends_look_frames (hcur : m.frames.current? = some e) :
    Ends look m (fun taken m' => taken = none ∧ m'.frames = m.frames.advance ∨
      taken = some e ∧ m'.frames = m.frames.advance.remove m.frames.hand) fun _ _ => True := by
  simp only [look, ends_bind, ends_get, hcur, ends_modify]
  refine (moves_tryPin (R := SameFrames) e.page _).imp (fun pinned m₁ h₁ => ?_) fun _ _ _ => trivial
  have h₁ : m₁.frames = m.frames.advance := h₁
  cases pinned with
  | false => exact .inl ⟨rfl, h₁⟩
  | true =>
    simp only [Bool.not_true, Bool.false_eq_true, if_false, ends_bind, ends_page, ends_process]
    split
    · simp only [ends_bind, ends_modifyTable]
      refine (moves_unpin (R := SameFrames) e.page _).imp (fun _ m₂ h₂ => ?_) fun _ _ _ => trivial
      exact .inl ⟨rfl, Eq.trans h₂ h₁⟩
    · exact .inr ⟨rfl, congrArg (FrameTable.remove · m.frames.hand) h₁⟩

/-- The clock goes around the circle, and the entry that it takes is the last one that it meets. -/
theorem ends_sweep_around (n : Nat) (h : m.frames.Poised) :
    Ends (sweep n) m (fun taken m' => m'.frames.Poised ∧
      Around m.frames.circular (met n m) (m'.frames.circular ++ taken.toList) ∧
      (taken = none → m'.frames.entries = m.frames.entries)) fun _ _ => True := by
  induction n generalizing m with
  | zero =>
    refine ⟨h, ?_, fun _ => rfl⟩
    rw [Option.toList_none, List.append_nil]
    exact around_nil _
  | succ n ih =>
    rw [sweep, ends_bind]
    cases hcur : m.frames.current? with
    | none =>
      rw [ends_of_eq (look_of_empty hcur)]
      simpa only [met, hcur, look_of_empty hcur, Option.toList_none, List.nil_append] using ih h
    | some e =>
      obtain ⟨rest, hrest, hadvance⟩ := h.exists_circular hcur
      refine (ends_look_frames hcur).run.returns ?_
      rintro taken m₁ ⟨hlook, ⟨rfl, hframes⟩ | ⟨rfl, hframes⟩⟩
      · have hentries : m₁.frames.entries = m.frames.entries := by rw [hframes]; rfl
        refine (ih (hframes ▸ h.advance hcur)).returns ?_
        rintro taken m' ⟨hpoised, haround, hsame⟩
        refine ⟨hpoised, ?_, fun hnone => (hsame hnone).trans hentries⟩
        rw [hframes, hadvance] at haround
        simp only [met, hcur, hlook, hrest]
        exact around_cons.2 haround
      · refine ⟨hframes ▸ FrameTable.poised_remove _ _, ?_, by simp⟩
        simp only [met, hcur, hlook, hrest]
        rw [hframes, Option.toList_some, ← h.circular_take hcur, hadvance]
        exact around_cons.2 (around_nil _)

variable [FileSystem φ] {p : ProcId} {i : PageId} {u : Nat} {zeroed : Bool} {f : Frame}

theorem sameFrames_pageOut (e : Tenancy) : Moves SameFrames (pageOut e : Kernel φ Unit) := by
  intro m
  have hunmapped := ends_pageOut_unmapped (R := SameFrames) (m := m) (e := e) (fun _ _ _ _ _ => rfl) rfl
  -- to unmap the page leaves the frame table alone
  exact hunmapped

/-- An eviction takes the entry that the sweep takes. -/
theorem ends_evict_frames (m : Machine φ) :
    Ends evict m (fun done m' => ∃ taken m₁, sweep (2 * m.frames.entries.length) m = .ok taken m₁ ∧
      done = taken.isSome ∧ m'.frames = m₁.frames) fun _ _ => True := by
  simp only [evict, ends_bind, ends_get]
  refine (ends_any _ m).run.returns ?_
  rintro taken m₁ ⟨hsweep, -⟩
  cases taken with
  | none => exact ⟨none, m₁, hsweep, rfl, rfl⟩
  | some e =>
    simp only [ends_bind, ends_pure]
    refine (sameFrames_pageOut e m₁).imp (fun _ m₂ h₂ => ?_) fun _ _ _ => trivial
    refine (moves_returnFrame (R := SameFrames) _ m₂).imp (fun _ m₃ h₃ => ?_) fun _ _ _ => trivial
    refine (moves_unpin (R := SameFrames) _ m₃).imp (fun _ m₄ h₄ => ?_) fun _ _ _ => trivial
    exact ⟨some e, m₁, hsweep, rfl, Eq.trans h₄ (Eq.trans h₃ h₂)⟩

/-- What was hunted is gone when there is a frame to lend. -/
theorem ends_obtainFrame_around (h : m.frames.Poised) (zeroed : Bool) :
    Ends (obtainFrame (.forUser zeroed)) m (fun _ m' => m'.frames.Poised ∧
      Around m.frames.circular (m.hunt zeroed).1 (m'.frames.circular ++ (m.hunt zeroed).2.toList))
      fun _ _ => True := by
  rw [obtainFrame, ends_bind]
  refine (moves_takeFrame (R := SameFrames) _ m).run.imp (fun result m₁ => ?_) fun _ _ _ => trivial
  rintro ⟨htake, hframes⟩
  have hframes : m₁.frames = m.frames := hframes
  cases result with
  | ok f =>
    simp only [ends_pure, hunt, htake, hframes, Option.toList_none, List.append_nil]
    exact ⟨h, around_nil _⟩
  | error x =>
    rw [ends_bind]
    refine (ends_evict_frames m₁).returns ?_
    rintro done m₂ ⟨taken, m₃, hsweep, rfl, hframes₂⟩
    cases taken with
    | none => exact trivial
    | some e =>
      have hsweeps := (ends_sweep_around (2 * m₁.frames.entries.length) (hframes ▸ h)).of_ok hsweep
      rw [← hframes₂] at hsweeps
      have hdone : ∀ m' : Machine φ, m'.frames = m₂.frames → m'.frames.Poised ∧
          Around m.frames.circular (m.hunt zeroed).1 (m'.frames.circular ++ (m.hunt zeroed).2.toList) := by
        intro m' hm'
        simp only [hunt, htake, hsweep, hm', ← hframes]
        exact ⟨hsweeps.1, hsweeps.2.1⟩
      simp only [Option.isSome_some, Bool.not_true, Bool.false_eq_true, if_false]
      rw [ends_bind]
      refine (moves_takeFrame (R := SameFrames) _ m₂).imp (fun result m' hm' => ?_) fun _ _ _ => trivial
      cases result with
      | ok f => exact hdone m' hm'
      | error y => exact trivial

/-- The page that is lent a frame is entered behind all others. -/
theorem ends_lendFrame_around (h : m.frames.Poised) :
    Ends (lendFrame p i u zeroed) m (fun f m' => ∃ t : FrameTable, t.Poised ∧
      Around m.frames.circular (m.hunt zeroed).1 (t.circular ++ (m.hunt zeroed).2.toList) ∧
      m'.frames = t.add ⟨f, p, i⟩) fun _ _ => True := by
  rw [lendFrame, ends_bind]
  refine (ends_obtainFrame_around h zeroed).returns ?_
  rintro f m₁ ⟨hpoised, haround⟩
  exact ⟨m₁.frames, hpoised, haround, rfl⟩

omit [FileSystem φ] in
theorem ends_freeFrame_frames (m : Machine φ) (f : Frame) :
    Ends (freeFrame f) m (fun _ m' => ∃ i, m.frames.position? f = some i ∧ m'.frames = m.frames.remove i)
      fun _ _ => True := by
  rw [freeFrame, ends_bind, ends_get]
  split
  · trivial
  · rename_i i hi
    rw [ends_bind, ends_modify]
    refine (moves_returnFrame (R := SameFrames) f _).imp (fun _ m' h' => ?_) fun _ _ _ => trivial
    exact ⟨i, hi, h'⟩

end Kernel

namespace FrameTable

variable {t : FrameTable} {f : Frame} {i : Nat}

/-- The entry that is freed is the one at that position. -/
theorem find?_of_position? (h : t.position? f = some i) :
    i < t.entries.length ∧ t.entries[i]? = t.entries.find? (·.frame == f) := by
  obtain ⟨hlt, hi⟩ := List.findIdx?_eq_some_iff_findIdx_eq.1 h
  exact ⟨hlt, by rw [List.find?_eq_getElem?_findIdx, hi]⟩

end FrameTable

namespace Machine

open Kernel

variable {φ : Type} [FileSystem φ] {m m' : Machine φ} {met moved : List Tenancy} {stays : Tenancy → Bool}

theorem Turn.poised (h : Turn m met moved m') (hm : m.frames.Poised) : m'.frames.Poised := by
  cases h with
  | lend run =>
    obtain ⟨t, ht, -, hframes⟩ := (ends_lendFrame_around hm).of_ok run
    rw [hframes]
    exact FrameTable.poised_add ht _
  | free run =>
    obtain ⟨i, -, hframes⟩ := (ends_freeFrame_frames m _).of_ok run
    rw [hframes]
    exact FrameTable.poised_remove _ _
  | other same => rwa [same]

theorem Course.poised (h : Course m met moved m') (hm : m.frames.Poised) : m'.frames.Poised := by
  induction h with
  | none => exact hm
  | next _ turn ih => exact turn.poised ih

theorem Tended.poised (h : Tended m) : m.frames.Poised := by
  obtain ⟨m₀, met, moved, hempty, hcourse⟩ := h
  exact hcourse.poised (hempty ▸ .inr rfl)

/-- What stays on the circle is met in its order, and its order stays. -/
theorem Turn.around (h : Turn m met moved m') (hm : m.frames.Poised)
    (hstays : ∀ e ∈ moved, stays e = false) :
    Around (m.frames.circular.filter stays) (met.filter stays) (m'.frames.circular.filter stays) := by
  cases h with
  | @lend _ p i u zeroed f run =>
    obtain ⟨t, ht, haround, hframes⟩ := (ends_lendFrame_around hm).of_ok run
    have hnew : stays ⟨f, p, i⟩ = false := hstays _ List.mem_cons_self
    have hgone : (m.hunt zeroed).2.toList.filter stays = [] :=
      List.filter_eq_nil_iff.2 fun e he => by simp [hstays e (List.mem_cons_of_mem _ he)]
    have hfilter := haround.filter stays
    rw [List.filter_append, hgone, List.append_nil] at hfilter
    have hle : t.entries.length - t.hand ≤ t.circular.length := t.length_circular ▸ Nat.sub_le _ _
    rwa [hframes, FrameTable.circular_add ht.le, filter_insertIdx hle hnew]
  | @free _ f run =>
    obtain ⟨i, hi, hframes⟩ := (ends_freeFrame_frames m f).of_ok run
    obtain ⟨hlt, hentry⟩ := FrameTable.find?_of_position? hi
    have hgone : stays m.frames.entries[i] = false := by
      refine hstays _ ?_
      rw [← hentry, List.getElem?_eq_getElem hlt]
      exact List.mem_singleton_self _
    have hcircular := FrameTable.getElem?_circular hm.le hlt
    rw [List.getElem?_eq_getElem hlt] at hcircular
    rw [hframes, FrameTable.circular_remove hm.le hlt, filter_eraseIdx hcircular hgone]
    exact around_nil _
  | other same =>
    rw [same]
    exact around_nil _

theorem Course.around (h : Course m met moved m') (hm : m.frames.Poised)
    (hstays : ∀ e ∈ moved, stays e = false) :
    Around (m.frames.circular.filter stays) (met.filter stays) (m'.frames.circular.filter stays) := by
  induction h with
  | none => exact around_nil _
  | next course turn ih =>
    have hpast := ih fun e he => hstays e (List.mem_append_left _ he)
    have hnow := turn.around (course.poised hm) fun e he => hstays e (List.mem_append_right _ he)
    rw [List.filter_append]
    exact hpast.trans hnow

end Machine

namespace Kernel

open Machine

variable {φ : Type} {m m' : Machine φ} {k : Nat}

/-- After looks that take nothing, a sweep goes on as it would from there. -/
theorem sweep_add (h : sweep k m = .ok none m') (n : Nat) : sweep (k + n) m = sweep n m' := by
  induction k generalizing m with
  | zero =>
    obtain rfl : m = m' := (EStateM.Result.ok.inj h).2
    rw [Nat.zero_add]
  | succ k ih =>
    rw [Nat.add_right_comm]
    cases hlook : look m with
    | error s m₁ => simp [sweep, bind, EStateM.bind, hlook] at h
    | ok taken m₁ =>
      cases taken with
      | some e =>
        rw [sweep_of_look_some hlook] at h
        simp at h
      | none =>
        rw [sweep_of_look_none hlook] at h ⊢
        exact ih h

end Kernel

open Kernel

/-- The hand of the clock keeps its place among the entries of the frame table, whatever comes and goes. -/
structure Machine.KeepsPlace {φ : Type} [FileSystem φ] (m : Machine φ) : Prop where
  /-- The hand is on an entry, if there is one. -/
  hand : (m.frames.entries = [] → m.frames.hand = 0) ∧
    (m.frames.entries ≠ [] → m.frames.hand < m.frames.entries.length)
  /-- Without entry `i`, the hand meets the others in the order in which it would have met them. -/
  removes : ∀ i < m.frames.entries.length,
    m.frames.circular[m.frames.distance i]? = m.frames.entries[i]? ∧
    (m.frames.remove i).circular = m.frames.circular.eraseIdx (m.frames.distance i)
  /-- It stays on its entry, and goes on to the next one if it is that which is removed. -/
  stays : 1 < m.frames.entries.length → ∀ i < m.frames.entries.length, (m.frames.remove i).current? =
    if i = m.frames.hand then m.frames.advance.current? else m.frames.current?
  /-- It stays on its entry too when one is added, which it meets before the first one. -/
  adds : ∀ e, (m.frames.add e).circular =
      m.frames.circular.insertIdx (m.frames.entries.length - m.frames.hand) e ∧
    (m.frames.add e).current? = some (m.frames.current?.getD e)
  /-- To free a frame is to remove one entry. -/
  frees : ∀ f m', freeFrame f m = .ok () m' → ∃ i < m.frames.entries.length,
    m.frames.position? f = some i ∧ m'.frames = m.frames.remove i
  /-- For a frame to be lent the hand goes around, and the entry that it takes is the last one it has met.
  Then one is added. -/
  lends : ∀ p i u zeroed f m', lendFrame p i u zeroed m = .ok f m' → ∃ t : FrameTable,
    Around m.frames.circular (m.hunt zeroed).1 (t.circular ++ (m.hunt zeroed).2.toList) ∧
    m'.frames = t.add ⟨f, p, i⟩ ∧ m'.frames.current? = some (t.current?.getD ⟨f, p, i⟩)
  /-- Whenever an eviction looks at an entry, there is one under the hand, and all entries are there. -/
  looks : ∀ k < 2 * m.frames.entries.length, ∀ m', sweep k m = .ok none m' →
    sweep (2 * m.frames.entries.length) m = sweep (2 * m.frames.entries.length - k) m' ∧
    m'.frames.entries = m.frames.entries ∧ m'.frames.hand < m'.frames.entries.length
  /-- Whatever comes and goes, the entries that stay are met in turn: none is passed by, and none is met
  again before all others have been. -/
  rounds : ∀ met moved m', m.Course met moved m' →
    ∀ stays : Tenancy → Bool, (∀ e ∈ moved, stays e = false) →
    Around (m.frames.circular.filter stays) (met.filter stays) (m'.frames.circular.filter stays)

namespace Machine

variable {φ : Type} [FileSystem φ] {m : Machine φ}

theorem Tended.keeps_place (h : Tended m) : m.KeepsPlace where
  hand := ⟨fun hnil => by simpa [hnil] using h.poised.le, h.poised.lt⟩
  removes i hi := ⟨FrameTable.getElem?_circular h.poised.le hi, FrameTable.circular_remove h.poised.le hi⟩
  stays hlen _ hi := h.poised.current?_remove hlen hi
  adds e := ⟨FrameTable.circular_add h.poised.le e, h.poised.current?_add e⟩
  frees f m' hrun := by
    obtain ⟨i, hi, hframes⟩ := (ends_freeFrame_frames m f).of_ok hrun
    exact ⟨i, (FrameTable.find?_of_position? hi).1, hi, hframes⟩
  lends p i u zeroed f m' hrun := by
    obtain ⟨t, ht, haround, hframes⟩ := (ends_lendFrame_around h.poised).of_ok hrun
    exact ⟨t, haround, hframes, hframes ▸ ht.current?_add _⟩
  looks k hk m' hrun := by
    obtain ⟨hpoised, -, hentries⟩ := (ends_sweep_around k h.poised).of_ok hrun
    have hsplit := sweep_add hrun (2 * m.frames.entries.length - k)
    rw [Nat.add_sub_cancel' (Nat.le_of_lt hk)] at hsplit
    have hne : m'.frames.entries ≠ [] := by
      rw [hentries rfl]
      rintro hnil
      simp [hnil] at hk
    exact ⟨hsplit, hentries rfl, hpoised.lt hne⟩
  rounds met moved m' hcourse stays hstays := hcourse.around h.poised hstays

end Machine

/-- Of four pages three have frames. The first is pinned, so that the clock has taken the second for the
fourth. Its hand is on the third, where it stays when the frame of the first is freed. -/
theorem Machine.keeps_place_of_freed : ∃ m m' : Machine MemoryFiles, Tended m ∧ m.KeepsPlace ∧
    m.frames.hand = 1 ∧ m.frames.circular.map (·.page) = [2, 3, 0] ∧ freeFrame ⟨0, 0⟩ m = .ok () m' ∧
    m'.frames.hand = 0 ∧ m'.frames.circular.map (·.page) = [2, 3] := by
  obtain ⟨m₀, -, -, hP⟩ := exists_reachable 3 1 (⟨#[]⟩ : MemoryFiles)
    ([0x10000000, 0x10001000, 0x10002000, 0x10003000].map fun u => (0, .declareFile u ⟨0, 0, 0, 4096⟩ true))
    (check (pin 0) fun _ m₁ => m₁.frames == .empty &&
      check (lendFrame 0 0 0x10000000 true) (fun _ => check (lendFrame 0 1 0x10001000 true) fun _ =>
        check (lendFrame 0 2 0x10002000 true) fun _ => check (lendFrame 0 3 0x10003000 true) fun _ m =>
          m.frames.hand == 1 && m.frames.circular.map (·.page) == [2, 3, 0] &&
            check (freeFrame ⟨0, 0⟩) (fun _ m' =>
              m'.frames.hand == 0 && m'.frames.circular.map (·.page) == [2, 3]) m) m₁) (by decide +kernel)
  obtain ⟨-, m₁, -, hP⟩ := exists_of_check hP
  obtain ⟨hempty, hP⟩ := Bool.and_eq_true_iff.1 hP
  obtain ⟨_, m₂, hlend₀, hP⟩ := exists_of_check hP
  obtain ⟨_, m₃, hlend₁, hP⟩ := exists_of_check hP
  obtain ⟨_, m₄, hlend₂, hP⟩ := exists_of_check hP
  obtain ⟨_, m, hlend₃, hP⟩ := exists_of_check hP
  simp only [Bool.and_eq_true, beq_iff_eq] at hempty hP
  obtain ⟨⟨hhand, hcircular⟩, hP⟩ := hP
  obtain ⟨_, m', hfree, hP⟩ := exists_of_check hP
  simp only [Bool.and_eq_true, beq_iff_eq] at hP
  have htended : Tended m := ⟨m₁, _, _, hempty,
    .next (.next (.next (.next (.none m₁) (.lend hlend₀)) (.lend hlend₁)) (.lend hlend₂)) (.lend hlend₃)⟩
  exact ⟨m, m', htended, htended.keeps_place, hhand, hcircular, hfree, hP⟩

end DemandPaging
