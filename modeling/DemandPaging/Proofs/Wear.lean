import DemandPaging.Proofs.Progress
import DemandPaging.Proofs.Transparency

/-!
# Wear

However often pages are brought in, and others evicted for them, the pages have the bytes that they had,
with one exception: what has been stored past the end of a mapped file is zero once the page has been
evicted. So whatever is read after page faults is what the process should find.
-/

namespace DemandPaging

open Kernel

namespace View

variable {φ : Type} [FileSystem φ] {H : Honest φ} {v v' v'' : View φ} {q : ProcId} {w o : Nat} {j : PageId}

variable (H) in
/-- What has become of the pages when pages have been brought in, any number of times: they have their
bytes, but for what has been dropped, and new pages are zero. -/
structure Worn (v v' : View φ) : Prop where
  sound : v'.Sound
  backed : v'.Backed H
  apart : v'.Apart H
  next : v.next ≤ v'.next
  same : ∀ {j}, j < v.next → (v.page j).Same (v'.page j)
  kept : ∀ {q w j}, v.own q w = some j → v'.own q w = some j
  own : ∀ {q w j}, v'.own q w = some j → j < v.next → v.own q w = some j
  old : ∀ {q w j}, v.own q w = some j → ∀ o < pageSize,
    v'.image H j o = v.image H j o ∨ (v'.page j).drops o = true ∧ v'.image H j o = 0
  new : ∀ {q w j}, v'.own q w = some j → v.next ≤ j → (v'.page j).backing = .swap ∧
    ∀ o < pageSize, v'.image H j o = 0

theorem Worn.refl (hv : v.Sound) (hb : v.Backed H) (ha : v.Apart H) : v.Worn H v :=
  ⟨hv, hb, ha, Nat.le_refl _, fun _ => .refl _, fun hj => hj, fun hj _ => hj, fun _ _ _ => .inl rfl,
    fun hj hle => absurd (hv.owned.lt hj) (Nat.not_lt.2 hle)⟩

/-- A page that is brought in takes no more away than what is dropped. -/
theorem Worn.tail (h : v.Worn H v') (hf : v'.Fetched v'') : v.Worn H v'' := by
  have hmoved := (View.Fetched.moving hf).moved h.sound h.backed h.apart
  have hcontinues := View.Fetched.continues hf h.sound
  have hdrops : ∀ {q w j}, v'.own q w = some j → ∀ o, (v''.page j).drops o = (v'.page j).drops o :=
    fun hj o => by rw [Page.drops, Page.drops, (hmoved.same (h.sound.owned.lt hj)).backing]
  have hold : ∀ {q w j}, v'.own q w = some j → ∀ o < pageSize,
      v''.image H j o = v'.image H j o ∨ (v''.page j).drops o = true ∧ v''.image H j o = 0 := by
    intro q w j hj o ho
    have hj'' := hcontinues.own hj
    rcases hmoved.old hj hj'' o ho with hsame | ⟨hd, hnone⟩
    · exact .inl hsame
    · exact .inr ⟨hd, image_of_drops (hmoved.sound.sourced _ _ _ hj'') hnone hd⟩
  refine ⟨hmoved.sound, hmoved.backed, hmoved.apart, h.next.trans hmoved.next,
    fun hlt => (h.same hlt).trans (hmoved.same (Nat.lt_of_lt_of_le hlt h.next)),
    fun hj => hcontinues.own (h.kept hj),
    fun hj hlt => h.own (hmoved.own hj (Nat.lt_of_lt_of_le hlt h.next)) hlt, fun hj o ho => ?_,
    fun {q w j} hj hle => ?_⟩
  · rcases hold (h.kept hj) o ho with hsame | hlost
    · rw [hsame, hdrops (h.kept hj)]
      exact h.old hj o ho
    · exact .inr hlost
  · rcases Nat.lt_or_ge j v'.next with hlt | hge
    · have hj' := hmoved.own hj hlt
      obtain ⟨hback, hzero⟩ := h.new hj' hle
      refine ⟨(hmoved.same hlt).backing.trans hback, fun o ho => ?_⟩
      rcases hold hj' o ho with hsame | hlost
      · rw [hsame, hzero o ho]
      · exact hlost.2
    · exact hmoved.stack hj hge

end View

namespace Machine

variable {φ : Type} {m : Machine φ} {p : ProcId} {x : Nat}

/-- What lies past the end of a mapped file may be lost. -/
def Lossy (m : Machine φ) (p : ProcId) (x : Nat) : Prop :=
  ∃ i, m.lookup p x = some i ∧ (m.page i).drops (pageOffset x) = true

/-- What process `p` should find at `x`: what the memory has, or zero where its stack has yet to grow, and
also where it has been lost. -/
def Expects (m : Machine φ) (g : Memory) (p : ProcId) (x : Nat) (y : UInt8) : Prop :=
  (∃ i, m.lookup p x = some i) ∧ y = g p x ∨ m.lookup p x = none ∧ y = 0 ∨ m.Lossy p x ∧ y = 0

/-- There is no more than one such byte, unless some may be lost. -/
theorem Expects.unique {g : Memory} {y y' : UInt8} (h : m.Expects g p x y) (h' : m.Expects g p x y') :
    m.Lossy p x ∨ y = y' := by
  rcases h with ⟨⟨i, hi⟩, rfl⟩ | ⟨hnone, rfl⟩ | ⟨hlossy, -⟩
  · rcases h' with ⟨-, rfl⟩ | ⟨hnone, -⟩ | ⟨hlossy, -⟩
    · exact .inr rfl
    · simp [hi] at hnone
    · exact .inl hlossy
  · rcases h' with ⟨⟨i, hi⟩, -⟩ | ⟨-, rfl⟩ | ⟨hlossy, -⟩
    · simp [hnone] at hi
    · exact .inr rfl
    · exact .inl hlossy
  · exact .inl hlossy

end Machine

namespace Kernel

open Machine View

variable {φ : Type} [FileSystem φ] {H : Honest φ} {g : Memory} {op : Op} {m m' : Machine φ} {p : ProcId}
  {x : Nat} {b : PageBytes}

/-- Page faults and reads do no more than wear the pages. -/
theorem Stages.worn (h : Stages op p m m') (hm : Tracks H m g) (hlive : m.scene.exited p = false)
    (hstore : ∀ a data, ¬ op.Part (.store a data)) : m.scene.Worn H m'.scene := by
  have hsettled : m.Settled ∅ := steady_iff.1 hm.steady
  induction h with
  | refl => exact .refl hsettled.sound hm.backed hm.apart
  | tail hstages hstep ih =>
    obtain ⟨o, answer, ho, hrun⟩ := hstep
    obtain ⟨hsettled₁, -, hexited⟩ := Stages.settled hstages hsettled hlive
    have hdone := (ends_execute hsettled₁ (fun _ => by rw [hexited, hlive]) (basic_of_part ho)).of_ok hrun
    have hdoes := hdone.does
    cases o with
    | fault => exact ih.tail hdoes
    | load =>
      rw [hdoes.1]
      exact ih
    | store a data => exact absurd ho (hstore a data)
    | _ => exact ho.elim

/-- After page faults and reads, a byte of a page in memory is the one that the process should find. -/
theorem Stages.expects (h : Stages op p m m') (hm : Tracks H m g) (hlive : m.scene.exited p = false)
    (hstore : ∀ a data, ¬ op.Part (.store a data)) (hholds : m'.Holds p x b) :
    m.Expects g p x (b.byte (pageOffset x)) := by
  have hworn := h.worn hm hlive hstore
  obtain ⟨hsettled, -, -⟩ := h.settled (steady_iff.1 hm.steady) hlive
  obtain ⟨j, f, hj, hf, hread⟩ := hholds
  obtain ⟨b', hcell⟩ := hsettled.sound.housed.exists_cell hj hf
  obtain rfl : b' = b := (hsettled.shows.read_of_cell hcell).symm.trans hread
  have hoffset := pageOffset_lt x
  have himage : m'.scene.image H j (pageOffset x) = b'.byte (pageOffset x) := image_of_frame hf hcell
  cases hi : m.lookup p x with
  | some i =>
    have hij : some i = some j := (hworn.kept hi).symm.trans hj
    obtain rfl := Option.some.inj hij
    rcases hworn.old hi _ hoffset with hsame | ⟨hdrops, hzero⟩
    · refine .inl ⟨⟨i, hi⟩, ?_⟩
      rw [← himage, hsame, hm.mirrors p _ i hi _ hoffset, pageBase_add_pageOffset]
    · refine .inr (.inr ⟨⟨i, hi, ?_⟩, himage.symm.trans hzero⟩)
      have hback : (m'.scene.page i).backing = (m.page i).backing :=
        (hworn.same (hm.steady.sound.owned.lt hi)).backing
      rwa [Page.drops, hback] at hdrops
  | none =>
    refine .inr (.inl ⟨hi, ?_⟩)
    have hnew : m.scene.next ≤ j := by
      by_contra hlt
      have hold : m.lookup p x = some j := hworn.own hj (Nat.not_le.1 hlt)
      rw [hi] at hold
      simp at hold
    rw [← himage, (hworn.new hj hnew).2 _ hoffset]

end Kernel

end DemandPaging
