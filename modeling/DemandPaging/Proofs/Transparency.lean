import DemandPaging.Proofs.Memory
import DemandPaging.Proofs.Reachable

/-!
# Paging is transparent

A `History` is a run of the machine together with the memory that its processes may think they have.
Whatever a read returns is what that memory has, no matter what has been evicted, swapped and read in
again meanwhile; but what a program stores past the end of a mapped file is gone once the page has been
evicted. If the files are honest and no page is written back over another one, every run has a history.
-/

namespace DemandPaging

open Machine Kernel View

variable {φ : Type} [FileSystem φ]

section

variable (H : Honest φ) (lost : Page → Nat → Bool)

/-- A single operation of process `p` and what becomes of the memory. -/
def Remembers (p : ProcId) (op : Op) (x y : Machine φ × Memory) : Prop :=
  ∃ answer, perform p op x.1 = .ok answer y.1 ∧ y.2 = x.2.after H lost p op answer x.1 y.1

/-- An operation of process `p` and what becomes of the memory, part after part if there are any. -/
inductive Recalls (p : ProcId) (op : Op) : Machine φ × Memory → Machine φ × Memory → Prop
  | single {x y : Machine φ × Memory} (basic : op.basic = true) (step : Remembers H lost p op x y) :
      Recalls p op x y
  | parts {x y : Machine φ × Memory} (basic : op.basic = false)
      (steps : Relation.ReflTransGen (fun x y => ∃ o, op.Part o ∧ Remembers H lost p o x y) x y) :
      Recalls p op x y

/-- The machines that a run can come to between operations, and the memory its processes should find.
Every handle that an operation is given has been given out, and whatever is declared, no page is written
back over another one. -/
inductive History : Machine φ → Memory → Prop
  | start {frames base : Nat} {pool : Pool} {refuses : Nat → Bool} {files : φ} {devices : Registry}
      {m : Machine φ} (create : Pool.create frames base = .ok pool)
      (sizes : ∀ d ∈ devices.devices, d.size < Swap.sectorLimit)
      (run : Kernel.start { Machine.bare ⟨pool, 0, refuses⟩ files with devices } = .ok () m) :
      History m fun _ _ => 0
  | spawn {m m' : Machine φ} {g : Memory} {pid : UInt16} {limit : Option Nat} {p : ProcId}
      (past : History m g) (run : Kernel.spawn pid limit m = .ok p m') : History m' g
  | perform {m m' : Machine φ} {g g' : Memory} {p : ProcId} {op : Op} {answer : Answer}
      (past : History m g) (known : ∀ f ∈ op.handles, H.known m.files f = true)
      (run : Kernel.perform p op m = .ok answer m') (apart : m'.scene.Apart H)
      (recalls : Recalls H lost p op (m, g) (m', g')) : History m' g'

end

/-- Whatever a read returns is what the memory has, and lies in declared pages. -/
def Machine.Finds (m : Machine φ) (g : Memory) : Prop :=
  ∀ p a len bytes fault m', perform p (.load a len) m = .ok (.loaded bytes fault) m' →
    ∀ j < bytes.length, (∃ i, m.declaredAt p (pageBase (a + j)) = some i) ∧
      bytes[j]? = some (g p (a + j))

variable {H : Honest φ} {lost : Page → Nat → Bool} {m m' : Machine φ} {g g' : Memory} {p : ProcId}
  {op : Op} {answer : Answer}

/-! ### Operations and their parts -/

/-- The memory goes along with the parts of an operation. -/
theorem Kernel.Parts.exists_memory (H : Honest φ) (lost : Page → Nat → Bool) (h : Parts op p m m')
    (g : Memory) : ∃ g', Relation.ReflTransGen (fun x y => ∃ o, op.Part o ∧ Remembers H lost p o x y)
      (m, g) (m', g') := by
  induction h with
  | refl => exact ⟨g, .refl⟩
  | @tail m₁ m₂ _ hstep ih =>
    obtain ⟨g₁, hpast⟩ := ih
    obtain ⟨o, answer, ho, hrun⟩ := hstep
    exact ⟨g₁.after H lost p o answer m₁ m₂, hpast.tail ⟨o, ho, answer, hrun, rfl⟩⟩

/-- The memory goes along with every operation. -/
theorem exists_recalls (H : Honest φ) (lost : Page → Nat → Bool) (hm : m.Steady)
    (hrun : perform p op m = .ok answer m') (g : Memory) :
    ∃ g', Recalls H lost p op (m, g) (m', g') := by
  cases hop : op.basic with
  | true => exact ⟨g.after H lost p op answer m m', .single hop ⟨answer, hrun, rfl⟩⟩
  | false =>
    have hsplits := splits_perform (p := p) hm hop
    obtain ⟨hparts, -⟩ := Ends.of_ok hsplits hrun
    obtain ⟨g', hsteps⟩ := hparts.exists_memory H lost g
    exact ⟨g', .parts hop hsteps⟩

theorem Tracks.parts {x y : Machine φ × Memory}
    (hsteps : Relation.ReflTransGen (fun x y => ∃ o, op.Part o ∧ Remembers H Page.drops p o x y) x y)
    (h : Tracks H x.1 x.2) : Tracks H y.1 y.2 := by
  induction hsteps with
  | refl => exact h
  | tail _ hstep ih =>
    obtain ⟨o, ho, answer, hrun, hmemory⟩ := hstep
    have hnone := handles_of_part ho
    rw [hmemory]
    exact ih.perform (basic_of_part ho) (by simp [hnone]) hrun fun hne => absurd hnone hne

/-- Every operation keeps track of the memory. -/
theorem Tracks.recalls (h : Tracks H m g) (hknown : ∀ f ∈ op.handles, H.known m.files f = true)
    (ha : m'.scene.Apart H) (hrecalls : Recalls H Page.drops p op (m, g) (m', g')) : Tracks H m' g' := by
  cases hrecalls with
  | single hbasic hstep =>
    obtain ⟨answer, hrun, hmemory⟩ := hstep
    simp only at hrun hmemory
    rw [hmemory]
    exact h.perform hbasic hknown hrun fun _ => ha
  | parts _ hsteps => exact Tracks.parts hsteps h

/-! ### Runs -/

/-- At the start there is nothing to keep track of. -/
theorem Tracks.of_start {frames base : Nat} {pool : Pool} {refuses : Nat → Bool} {files : φ}
    {devices : Registry} (hcreate : Pool.create frames base = .ok pool)
    (hsizes : ∀ d ∈ devices.devices, d.size < Swap.sectorLimit)
    (hrun : Kernel.start { Machine.bare ⟨pool, 0, refuses⟩ files with devices } = .ok () m) :
    Tracks H m fun _ _ => 0 := by
  have hnone : ∀ q w, m.scene.own q w = none := declaredAt_of_start hrun
  refine ⟨steady_of_start hcreate hsizes hrun, ?_, ?_, ?_⟩
  · intro q w i hi
    simp [hnone] at hi
  · intro q q' w w' i i' r r' hi
    simp [hnone] at hi
  · intro q w i hi
    simp [hnone] at hi

theorem Tracks.spawn (h : Tracks H m g) (pid : UInt16) (limit : Option Nat) :
    Tracks H { m with processes := m.processes.push (.fresh pid limit) } g := by
  have heq := (h.steady.shows_spawn pid limit).eq_scene rfl
  have huntouched : ∀ q w j, m.scene.Untouched H (m.scene.setExited m.processes.size false) q w j :=
    fun q w j => View.Retains.untouched (.of_eq rfl rfl rfl rfl) rfl
  refine ⟨h.steady.spawn pid limit, ?_, ?_, ?_⟩
  all_goals rw [← heq]
  · exact fun hi => (huntouched _ _ _).filed (fun f hk => ⟨hk, rfl⟩) (h.backed hi)
  · exact h.apart
  · intro q w i hi o ho
    rw [(huntouched q w i).image]
    exact h.mirrors q w i hi o ho

/-- The machine of a history keeps track of its memory. -/
theorem History.tracks (h : History H Page.drops m g) : Tracks H m g := by
  induction h with
  | start create sizes run => exact .of_start create sizes run
  | spawn _ run ih =>
    obtain ⟨-, rfl⟩ := EStateM.Result.ok.inj run
    exact ih.spawn _ _
  | perform _ known run apart recalls ih => exact ih.recalls known apart recalls

/-- What is read is what the memory has. -/
theorem Tracks.finds (h : Tracks H m g) : m.Finds g := by
  intro p a len bytes fault m' hrun j hj
  have hv := h.steady.sound
  have hbasic : (Op.load a len).basic = true := rfl
  have hdone := (ends_perform_basic h.steady hbasic).of_ok hrun
  obtain ⟨-, bytes', fault', heq, hloads⟩ := hdone.does
  obtain ⟨rfl, rfl⟩ := Answer.loaded.inj heq
  obtain ⟨r, f, b, hmap, hcell, hbyte⟩ := hloads.byte j hj
  obtain ⟨i, hi, hf, -⟩ := hv.housed.mapping?_eq_some hmap
  have hoffset : pageOffset (a + j) < pageSize := pageOffset_lt _
  refine ⟨⟨i, hi⟩, ?_⟩
  rw [hbyte, b.getElem?_eq_byte hoffset, ← image_of_frame (H := H) hf hcell,
    h.mirrors p _ i hi _ hoffset, pageBase_add_pageOffset]

/-- In every run the memory that reads find is the one that the operations have left behind; and every
operation that leaves no page to be written back over another one has a place in the history. -/
theorem History.transparent (h : History H Page.drops m g) :
    m.Finds g ∧
    ∀ p op answer m', (∀ f ∈ op.handles, H.known m.files f = true) →
      Kernel.perform p op m = .ok answer m' → m'.scene.Apart H →
      ∃ g', Recalls H Page.drops p op (m, g) (m', g') ∧ History H Page.drops m' g' := by
  refine ⟨h.tracks.finds, fun p op answer m' hknown hrun ha => ?_⟩
  obtain ⟨g', hrecalls⟩ := exists_recalls H Page.drops h.tracks.steady hrun g
  exact ⟨g', hrecalls, .perform h hknown hrun ha hrecalls⟩

/-! ### Histories that can be computed -/

/-- No page that was ever declared may be written back over another one. -/
def Machine.separate (H : Honest φ) (m : Machine φ) : Bool :=
  (List.range m.pages.next).all fun i => (List.range m.pages.next).all fun j =>
    i == j || match (m.page i).target?, (m.page j).backing.region? with
      | some r, some r' => !decide (H.Meets m.files r r')
      | _, _ => true

/-- The machine and the memory after the operations of a list, if each of them can be a step of a
history. -/
def Machine.replay (H : Honest φ) (lost : Page → Nat → Bool) :
    List (ProcId × Op) → Machine φ × Memory → Option (Machine φ × Memory)
  | [], x => some x
  | (p, op) :: ops, (m, g) =>
    match perform p op m with
    | .ok answer m' =>
      if op.basic && op.handles.all (H.known m.files) && m'.separate H then
        replay H lost ops (m', g.after H lost p op answer m m')
      else none
    | .error _ _ => none

theorem apart_of_separate (hm : m.Steady) (h : m.separate H = true) : m.scene.Apart H := by
  intro p q u w i j r r' hi hj hne hr hr' hmeets
  simp only [separate, List.all_eq_true, List.mem_range] at h
  have hpair := h i (hm.sound.owned.lt hi) j (hm.sound.owned.lt hj)
  have hr₁ : (m.page i).target? = some r := hr
  have hr₂ : (m.page j).backing.region? = some r' := hr'
  have hmeets' : H.Meets m.files r r' := hmeets
  simp [hne, hr₁, hr₂, hmeets'] at hpair

theorem History.reachable (h : History H lost m g) : Reachable m := by
  induction h with
  | start create sizes run => exact .start create sizes run
  | spawn _ run ih => exact .spawn ih run
  | perform _ _ run _ _ ih => exact .perform ih run

theorem History.replay : ∀ {ops : List (ProcId × Op)} {m m' : Machine φ} {g g' : Memory},
    History H lost m g → Machine.replay H lost ops (m, g) = some (m', g') → History H lost m' g'
  | [], m, m', g, g', h, hrun => by
    obtain ⟨rfl, rfl⟩ := Prod.mk.inj (Option.some.inj hrun)
    exact h
  | (p, op) :: ops, m, m', g, g', h, hrun => by
    rw [Machine.replay] at hrun
    split at hrun
    · rename_i answer m₁ hperform
      rw [Option.ite_none_right_eq_some, Bool.and_eq_true, Bool.and_eq_true, List.all_eq_true] at hrun
      obtain ⟨⟨⟨hbasic, hknown⟩, hseparate⟩, hrun⟩ := hrun
      have hsteady : m₁.Steady := ((ends_perform h.reachable.steady p op).of_ok hperform).steady
      refine History.replay (.perform h hknown hperform (apart_of_separate hsteady hseparate) ?_) hrun
      exact .single hbasic ⟨answer, hperform, rfl⟩
    · simp at hrun

/-- A history that can be computed. -/
theorem exists_history (H : Honest φ) (lost : Page → Nat → Bool) (frames slots : Nat) (files : φ)
    (ops : List (ProcId × Op)) (P : Machine φ × Memory → Bool)
    (h : ((boot frames slots files).bind fun m => replay H lost ops (m, fun _ _ => 0)).any P = true) :
    ∃ m g, History H lost m g ∧ P (m, g) = true := by
  obtain ⟨⟨m, g⟩, hm, hP⟩ := (Option.any_eq_true _ _).1 h
  obtain ⟨m₀, hboot, hrun⟩ := Option.bind_eq_some_iff.1 hm
  have hstart : History H lost m₀ fun _ _ => 0 :=
    boot_induction (P := fun m => History H lost m fun _ _ => 0) .start .spawn hboot
  exact ⟨m, g, hstart.replay hrun, hP⟩

/-- A byte that has been stored in a page of a program's file is found after the page has been in swap
space. -/
theorem transparent_of_swapped :
    ∃ (m : Machine MemoryFiles) (g : Memory), History MemoryFiles.honest Page.drops m g ∧
      (m.page 0).anonymous = true ∧ g 0 0x8048001 = 7 ∧ m.Finds g := by
  obtain ⟨m, g, h, hP⟩ := exists_history MemoryFiles.honest Page.drops 1 2 ⟨#[⟨[1, 2, 3], none, none⟩]⟩
    [(0, .declareFile 0x8048000 ⟨0, 0, 3, 4093⟩ true), (0, .resolve 0x8048000),
      (0, .store 0x8048001 [7]), (1, .growStack 0x7ffff000), (0, .resolve 0x8048000)]
    (fun x => (x.1.page 0).anonymous && x.2 0 0x8048001 == 7) (by decide +kernel)
  obtain ⟨hflag, hbyte⟩ := Bool.and_eq_true_iff.1 hP
  exact ⟨m, g, h, hflag, beq_iff_eq.1 hbyte, h.transparent.1⟩

/-- Something is lost: a byte that has been stored past the end of a mapped file of three bytes is gone
when the page has been evicted. -/
theorem not_finds_past_end : ¬ ∀ (m : Machine MemoryFiles) (g : Memory),
    History MemoryFiles.honest (fun _ _ => false) m g → m.Finds g := by
  intro hfinds
  obtain ⟨m, g, h, hP⟩ := exists_history MemoryFiles.honest (fun _ _ => false) 1 2
    ⟨#[⟨[1, 2, 3], none, none⟩]⟩
    [(0, .mmap 0 0x10000000), (0, .resolve 0x10000000), (0, .store 0x10000003 [7]),
      (0, .growStack 0x7ffff000), (0, .resolve 0x10000000)]
    (fun x => x.2 0 0x10000003 == 7 &&
      check (perform 0 (.load 0x10000003 1)) (fun answer _ => answer.bytes? == some [0]) x.1)
    (by decide +kernel)
  obtain ⟨hstored, hloaded⟩ := Bool.and_eq_true_iff.1 hP
  obtain ⟨answer, m', hrun, hbytes⟩ := exists_of_check hloaded
  obtain ⟨fault, rfl⟩ := Answer.exists_of_bytes? (beq_iff_eq.1 hbytes)
  obtain ⟨-, hbyte⟩ := hfinds m g h 0 0x10000003 1 [0] fault m' hrun 0 (by decide)
  have hg : g 0 0x10000003 = 7 := beq_iff_eq.1 hstored
  rw [Nat.add_zero, hg] at hbyte
  simp at hbyte

end DemandPaging
