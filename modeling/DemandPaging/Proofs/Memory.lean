import DemandPaging.Proofs.Contents
import DemandPaging.Proofs.Still
import DemandPaging.Proofs.UserMemory

/-!
# Memory without paging

A `Memory` is what a program may think it has: a byte at every address, the one that was last stored
there. `Memory.after` says what becomes of it in an operation, from what has been declared, stored and,
for what a mapped file has no room for, evicted. A view mirrors a memory when every page holds the bytes
of the memory at its addresses, and every operation keeps it so.
-/

namespace DemandPaging

/-- What every process should find at every address. -/
abbrev Memory := ProcId → Nat → UInt8

namespace Memory

variable {φ : Type} [FileSystem φ]

/-- The memory after process `p` has stored `data` from `a` on. -/
def stored (g : Memory) (p : ProcId) (a : Nat) (data : List UInt8) : Memory := fun q x =>
  if q = p ∧ a ≤ x ∧ x < a + data.length then data[x - a]?.getD 0 else g q x

/-- The memory after an operation that stores nothing: a page that has been declared has the bytes it is
declared with, and a page that is not in memory has no bytes that are `lost` with its frame. -/
def renewed (g : Memory) (H : Honest φ) (lost : Page → Nat → Bool) (m m' : Machine φ) : Memory :=
  fun q x =>
    match m'.declaredAt q (pageBase x) with
    | none => g q x
    | some i =>
      if m.declaredAt q (pageBase x) ≠ some i then H.first m'.files (m'.page i) (pageOffset x)
      else if (m'.page i).resident = false ∧ lost (m'.page i) (pageOffset x) = true then 0
      else g q x

/-- The memory after an operation of process `p`. -/
def after (g : Memory) (H : Honest φ) (lost : Page → Nat → Bool) (p : ProcId) (op : Op)
    (answer : Answer) (m m' : Machine φ) : Memory :=
  match op, answer with
  | .store a data, .stored fault => g.stored p a (written a data fault)
  | _, _ => g.renewed H lost m m'

end Memory

variable {φ : Type} [FileSystem φ] {H : Honest φ} {l : Label} {v v' v'' : View φ} {p q : ProcId}
  {u w : Nat} {i j : PageId} {r : Region} {o : Nat}

namespace View

variable (H) in
/-- Every page holds the bytes of the memory at its addresses. -/
def Mirrors (v : View φ) (g : Memory) : Prop :=
  ∀ p u i, v.own p u = some i → ∀ o < pageSize, v.image H i o = g p (u + o)

variable (H) in
/-- What has become of the pages. -/
structure Since (v v' : View φ) : Prop where
  own : ∀ {q w j}, v'.own q w = some j → j < v.next → v.own q w = some j
  /-- A page that was there before has its bytes still, unless they have been dropped. -/
  old : ∀ {q w j}, v.own q w = some j → v'.own q w = some j → ∀ o < pageSize,
    v'.image H j o = v.image H j o ∨ (v'.page j).drops o = true ∧ (v'.page j).frame = none
  /-- A page that was not has the bytes it has been declared with. -/
  new : ∀ {q w j}, v'.own q w = some j → v.next ≤ j → ∀ o < pageSize,
    v'.image H j o = H.first v'.files (v'.page j) o

/-- What mirrored a memory mirrors the renewed memory. -/
theorem Since.mirrors {m m' : Machine φ} {g : Memory} (h : m.scene.Since H m'.scene)
    (hm' : m'.Steady) (hg : m.scene.Mirrors H g) :
    m'.scene.Mirrors H (g.renewed H Page.drops m m') := by
  intro q w j hj o ho
  have haligned := hm'.sound.owned.aligned hj
  have hbase : pageBase (w + o) = w := pageBase_add_of_aligned haligned ho
  have hoffset : pageOffset (w + o) = o := pageOffset_add_of_aligned haligned ho
  rw [Memory.renewed, hbase, hoffset, show m'.declaredAt q w = some j from hj]
  simp only
  split
  · rename_i hnew
    refine h.new hj ?_ o ho
    by_contra hlt
    exact hnew (h.own hj (Nat.not_le.1 hlt))
  · rename_i hold
    have hi : m.scene.own q w = some j := not_not.1 hold
    split
    · rename_i hlost
      have hf : (m'.scene.page j).frame = none := by
        have hnone : (m'.page j).frame = none := by simpa [Page.resident] using hlost.1
        exact hnone
      exact image_of_drops (hm'.sound.sourced _ _ _ hj) hf hlost.2
    · rename_i hkept
      rcases h.old hi hj o ho with himage | ⟨hdrops, hf⟩
      · rw [himage, hg q w j hi o ho]
      · refine absurd ⟨?_, hdrops⟩ hkept
        have hnone : (m'.page j).frame = none := hf
        simp [Page.resident, hnone]

end View

/-! ### Moving pages -/

/-- The effects of moving pages, those coming in that were not in memory in `v`. -/
def Label.moving (v : View φ) : Label → Prop
  | .store | .declare _ => False
  | .arrive i => (v.page i).frame = none
  | _ => True

namespace View

variable (H) in
/-- What is known when no page has been declared since but for the stack. -/
structure Moved (v v' : View φ) : Prop where
  sound : v'.Sound
  backed : v'.Backed H
  apart : v'.Apart H
  next : v.next ≤ v'.next
  same : ∀ {j}, j < v.next → (v.page j).Same (v'.page j)
  own : ∀ {q w j}, v'.own q w = some j → j < v.next → v.own q w = some j
  old : ∀ {q w j}, v.own q w = some j → v'.own q w = some j → ∀ o < pageSize,
    v'.image H j o = v.image H j o ∨ (v'.page j).drops o = true ∧ (v'.page j).frame = none
  stack : ∀ {q w j}, v'.own q w = some j → v.next ≤ j →
    (v'.page j).backing = .swap ∧ ∀ o < pageSize, v'.image H j o = 0

theorem Moved.refl (hv : v.Sound) (hb : v.Backed H) (ha : v.Apart H) : v.Moved H v :=
  ⟨hv, hb, ha, Nat.le_refl _, fun _ => .refl _, fun hj _ => hj, fun _ _ _ _ => .inl rfl,
    fun hj hle => absurd (hv.owned.lt hj) (Nat.not_lt.2 hle)⟩

theorem first_of_swap {s : φ} {pg : Page} (h : pg.backing = .swap) (o : Nat) : H.first s pg o = 0 := by
  rw [Honest.first, h]
  rfl

theorem Moved.since (h : v.Moved H v') : v.Since H v' :=
  ⟨h.own, h.old, fun hj hle o ho => by
    obtain ⟨hback, himage⟩ := h.stack hj hle
    rw [himage o ho, first_of_swap hback]⟩

/-- A page that was there before keeps its bytes, or drops them. -/
theorem Moved.old_tail (h : v.Moved H v') (hv : v.Sound) (he : Effect l v' v'') (hl : l.moving v)
    (hj : v.own q w = some j) (hj' : v'.own q w = some j) (hj'' : v''.own q w = some j)
    (ho : o < pageSize) :
    v''.image H j o = v.image H j o ∨ (v''.page j).drops o = true ∧ (v''.page j).frame = none := by
  have hdrops : (v''.page j).drops o = (v'.page j).drops o := by
    rw [Page.drops, Page.drops, (he.same (h.sound.owned.lt hj')).backing]
  rcases eq_or_ne l.subject (some j) with hs | hs
  · cases l with
    | store | declare => exact hl.elim
    | evict i =>
      obtain rfl := Option.some.inj hs
      obtain ⟨hf, -, himage⟩ := he.evicted h.sound h.backed hj'
      cases hd : (v'.page i).drops o with
      | true => exact .inr ⟨hdrops.trans hd, hf⟩
      | false =>
        rcases h.old hj hj' o ho with hsame | ⟨hd', -⟩
        · exact .inl ((himage o ho hd).trans hsame)
        · simp [hd] at hd'
    | arrive i =>
      obtain rfl := Option.some.inj hs
      obtain ⟨hf', -, himage⟩ := he.arrived h.sound h.backed hj'
      refine .inl ((himage o ho).trans ?_)
      rcases h.old hj hj' o ho with hsame | ⟨hd, -⟩
      · exact hsame
      · -- what has been dropped was not there at first either
        have hd' : (v.page i).drops o = true := by
          rw [← hd, Page.drops, Page.drops, (h.same (hv.owned.lt hj)).backing]
        rw [image_of_drops (h.sound.sourced _ _ _ hj') hf' hd,
          image_of_drops (hv.sourced _ _ _ hj) hl hd']
    | grow i =>
      obtain rfl := Option.some.inj hs
      exact absurd (h.sound.owned.lt hj') (Nat.not_lt.2 (Nat.le_of_eq he.grow_eq.symm))
    | _ => simp [Label.subject] at hs
  · have hstore : l ≠ .store := by
      rintro rfl
      exact hl
    have hun := he.untouched hstore h.sound h.backed h.apart hj' hj'' hs
    rw [hun.image, hdrops, hun.page]
    exact h.old hj hj' o ho

/-- A new page of the stack stays zero, since nothing is stored. -/
theorem Moved.stack_tail (h : v.Moved H v') (he : Effect l v' v'') (hl : l.moving v)
    (hj'' : v''.own q w = some j) (hle : v.next ≤ j) :
    (v''.page j).backing = .swap ∧ ∀ o < pageSize, v''.image H j o = 0 := by
  rcases he.own_cases hj'' with hj' | ⟨-, rfl | rfl⟩
  · obtain ⟨hback, hzero⟩ := h.stack hj' hle
    refine ⟨(he.same (h.sound.owned.lt hj')).backing.trans hback, fun o ho => ?_⟩
    rcases eq_or_ne l.subject (some j) with hs | hs
    · cases l with
      | store | declare => exact hl.elim
      | evict i =>
        obtain rfl := Option.some.inj hs
        obtain ⟨-, -, himage⟩ := he.evicted h.sound h.backed hj'
        rw [himage o ho (by rw [Page.drops, hback]), hzero o ho]
      | arrive i =>
        obtain rfl := Option.some.inj hs
        obtain ⟨-, -, himage⟩ := he.arrived h.sound h.backed hj'
        rw [himage o ho, hzero o ho]
      | grow i =>
        obtain rfl := Option.some.inj hs
        exact absurd (h.sound.owned.lt hj') (Nat.not_lt.2 (Nat.le_of_eq he.grow_eq.symm))
      | _ => simp [Label.subject] at hs
    · have hstore : l ≠ .store := by
        rintro rfl
        exact hl
      rw [(he.untouched hstore h.sound h.backed h.apart hj' hj'' hs).image, hzero o ho]
  · exact hl.elim
  · obtain ⟨hback, -, hzero⟩ := he.grown (H := H) h.sound hj''
    exact ⟨hback, fun o _ => hzero o⟩

theorem Moved.tail (h : v.Moved H v') (hv : v.Sound) (he : Effect l v' v'') (hl : l.moving v) :
    v.Moved H v'' := by
  have hstore : l ≠ .store := by
    rintro rfl
    exact hl
  have hdeclare : ∀ i, l ≠ .declare i := by
    rintro i rfl
    exact hl
  have hown : ∀ {q w j}, v''.own q w = some j → j < v.next → v'.own q w = some j := by
    intro q w j hj hlt
    rcases he.own_cases hj with hj | ⟨rfl, -⟩
    · exact hj
    · exact absurd hlt (Nat.not_lt.2 h.next)
  refine ⟨he.sound h.sound, he.backed hstore hdeclare h.sound h.backed h.apart,
    he.apart hdeclare h.sound h.backed h.apart, h.next.trans he.next_le,
    fun hlt => (h.same hlt).trans (he.same (Nat.lt_of_lt_of_le hlt h.next)),
    fun hj hlt => h.own (hown hj hlt) hlt, fun hj hj'' o ho => ?_, fun hj hle => h.stack_tail he hl hj hle⟩
  exact h.old_tail hv he hl hj (hown hj'' (hv.owned.lt hj)) hj'' ho

end View

/-- Moving pages about changes none of them. -/
theorem Path.moved (h : Path (Label.moving v) v v') (hv : v.Sound) (hb : v.Backed H)
    (ha : v.Apart H) : v.Moved H v' := by
  induction h with
  | refl => exact .refl hv hb ha
  | tail _ he ih =>
    obtain ⟨l, hl, he⟩ := he
    exact ih.tail hv he hl

/-- What a page fault may do is to move pages. -/
theorem View.Fetched.moving (h : v.Fetched v') : Path (Label.moving v) v v' := by
  rcases h with rfl | ⟨i, haway, h⟩
  · exact Path.refl _ _
  · refine h.path.mono ?_
    intro l hl
    cases l with
    | arrive j =>
      obtain rfl : j = i := hl
      exact haway
    | evict | consult | grow => trivial
    | _ => exact hl.elim

/-- So is all that is done when pages are given up. -/
theorem Path.moving_of_releasing {loud : Prop} (h : Path (Label.releasing loud) v v') :
    Path (Label.moving v) v v' := by
  refine h.mono ?_
  intro l hl
  cases l with
  | unlist | forget | consult | remap | release | exit => trivial
  | _ => exact hl.elim

/-! ### Declaring pages of files -/

namespace View

theorem Still.untouched (h : v.Still v') (hv : v.Sound) (hb : v.Backed H) (hj : v.own q w = some j) :
    v.Untouched H v' q w j := by
  obtain ⟨hcontents, hhandles⟩ := H.unwritten h.calls
  have hdata : ∀ r, (v.page j).backing.region? = some r →
      H.data v'.files r.file = H.data v.files r.file := by
    intro r hr
    rw [Honest.data, Honest.data, hcontents, (hhandles _ ((hb hj).known r hr)).2]
  refine ⟨h.retains hv hj, fun r hr hin => ?_, fun o => ?_⟩
  · rw [Honest.Inside, hdata r hr]
    exact hin
  · rw [Honest.first, Honest.first]
    cases hr : (v.page j).backing.region? with
    | none => rfl
    | some r =>
      simp only [Option.elim_some, Honest.byte, hdata r hr]

theorem Still.since (h : v.Still v') (hv : v.Sound) (hb : v.Backed H) : v.Since H v' := by
  refine ⟨h.own, fun hj hj' o _ => .inl ((h.untouched hv hb hj).image o), fun hj hle o _ => ?_⟩
  obtain ⟨hf, hs, -⟩ := h.new hj hle
  exact image_of_file hf hs

/-- The new pages have handles that have been given out, if they were made from one. -/
theorem Adds.known {file : Handle} (h : v.Adds file v') (hk : H.known v.files file = true)
    (hj : v'.own q w = some j) (hnew : v.own q w ≠ some j) (hr : (v'.page j).backing.region? = some r) :
    H.known v'.files r.file = true := by
  rcases h q w j r hj hnew hr with ⟨hfiles, rfl⟩ | ⟨s, hs, hfiles, hr⟩
  · rw [hfiles, hk]
  · rw [hfiles, hr]
    exact (H.reopened (H.consulted hs hk).1).1

theorem Still.backed (h : v.Still v') (hv : v.Sound) (hb : v.Backed H) {file : Handle}
    (hadds : v.Adds file v') (hk : H.known v.files file = true) : v'.Backed H := by
  intro q w j hj
  rcases eq_or_ne (v.own q w) (some j) with hold | hold
  · exact (h.untouched hv hb hold).filed (H.unwritten h.calls).2 (hb hold)
  · have hle : v.next ≤ j := by
      by_contra hlt
      exact hold (h.own hj (Nat.not_le.1 hlt))
    obtain ⟨hf, -, hd⟩ := h.new hj hle
    exact .of_away hf hd fun r hr => hadds.known hk hj hold hr

end View

/-! ### Operations -/

/-- The machine mirrors the memory, and all that makes it go on doing so. -/
structure Tracks (H : Honest φ) (m : Machine φ) (g : Memory) : Prop where
  steady : m.Steady
  backed : m.scene.Backed H
  apart : m.scene.Apart H
  mirrors : m.scene.Mirrors H g

open View Kernel

variable {m m' : Machine φ} {g g' : Memory} {op : Op} {answer : Answer}

/-- An operation that moves pages. -/
theorem Tracks.of_moving (h : Tracks H m g) (hm' : m'.Steady)
    (hpath : Path (Label.moving m.scene) m.scene m'.scene) :
    Tracks H m' (g.renewed H Page.drops m m') := by
  have hmoved := hpath.moved h.steady.sound h.backed h.apart
  exact ⟨hm', hmoved.backed, hmoved.apart, hmoved.since.mirrors hm' h.mirrors⟩

/-- An operation that declares pages of files. -/
theorem Tracks.of_mapping (h : Tracks H m g) (hm' : m'.Steady)
    (hpath : Path Label.mapping m.scene m'.scene) {file : Handle} (hadds : m.scene.Adds file m'.scene)
    (hk : H.known m.files file = true) (ha : m'.scene.Apart H) :
    Tracks H m' (g.renewed H Page.drops m m') := by
  have hstill := hpath.still h.steady.sound
  exact ⟨hm', hstill.backed h.steady.sound h.backed hadds hk, ha,
    (hstill.since h.steady.sound h.backed).mirrors hm' h.mirrors⟩

/-- A store. -/
theorem Tracks.of_stores (h : Tracks H m g) (hm' : m'.Steady) {a : Nat} {data : List UInt8}
    {cell : Nat → Option PageBytes} {dirty : ProcId → Nat → Bool}
    (hstores : m.scene.Stores p a data cell dirty)
    (heq : m'.scene = { m.scene with cell, dirty }) : Tracks H m' (g.stored p a data) := by
  have hv := h.steady.sound
  refine ⟨hm', ?_, ?_, fun q w j hj o ho => ?_⟩
  · rw [heq]
    exact hstores.backed hv h.backed
  · rw [heq]
    exact h.apart
  · rw [heq] at hj ⊢
    have hj' : m.scene.own q w = some j := hj
    rw [hstores.image hv hj' ho, h.mirrors q w j hj' o ho, Memory.stored]

/-- An operation that is not made up of others. -/
theorem Tracks.perform (h : Tracks H m g) (hbasic : op.basic = true)
    (hknown : ∀ f ∈ op.handles, H.known m.files f = true)
    (hrun : Kernel.perform p op m = .ok answer m') (ha : op.handles ≠ [] → m'.scene.Apart H) :
    Tracks H m' (g.after H Page.drops p op answer m m') := by
  have hdone := (ends_perform_basic h.steady hbasic).of_ok hrun
  have hm' := hdone.steady
  have hdoes := hdone.does
  have hsame : m'.scene = m.scene → Tracks H m' (g.renewed H Page.drops m m') := fun heq =>
    h.of_moving hm' (by rw [heq]; exact Path.refl _ _)
  cases op with
  | declareFile u r x =>
    have hpath : Path Label.mapping m.scene m'.scene := by
      rcases hdoes.1 with heq | he
      · rw [heq]
        exact Path.refl _ _
      · exact Path.single (l := .declare m.scene.next) trivial he
    exact h.of_mapping hm' hpath hdoes.2 (hknown _ List.mem_cons_self) (ha (List.cons_ne_nil _ _))
  | mmap file a =>
    exact h.of_mapping hm' hdoes.1 hdoes.2.1 (hknown _ List.mem_cons_self) (ha (List.cons_ne_nil _ _))
  | resolve | growStack | fault => exact h.of_moving hm' (View.Fetched.moving hdoes)
  | munmap | exit => exact h.of_moving hm' (Path.moving_of_releasing hdoes.1)
  | load a len => exact hsame hdoes.1
  | setAccessed => exact hsame hdoes
  | store a data =>
    obtain ⟨fault, cell, dirty, rfl, hstores, heq⟩ := hdoes
    exact h.of_stores hm' hstores heq
  | userLoad | userStore | validate | validateBuffer | validateString | copy => simp [Op.basic] at hbasic

end DemandPaging
