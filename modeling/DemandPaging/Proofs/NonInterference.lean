import DemandPaging.Proofs.Reachable
import DemandPaging.Proofs.TwinAccess

/-!
# Non-interference

Two runs are told to do the same, but for the bytes that process `b` stores, and they start with the same
files, but for the contents of some that only process `b` ever has pages of. In step with one another they
do the same: they give the same answers and stop for the same reasons, with the same pages in the same
frames and slots, the same mappings and the same reports. What other processes read, and what is in the
files that process `b` has no pages of, is the same in both. A frame or a slot that held bytes of process
`b` is filled from end to end before anyone else may read it.
-/

namespace DemandPaging

open Machine Kernel View

variable {φ : Type} [FileSystem φ] {F : Discreet φ} {S : Set Nat} {b p : ProcId} {op op' : Op}

/-- What process `p` does in one run and in the other. Process `b` may store other bytes in the other run,
as many of them. It has no strings looked at, whose lengths would tell of its bytes. -/
inductive Op.Mates (b : ProcId) : ProcId → Op → Op → Prop
  | same {p : ProcId} {op : Op} (unread : p = b → ∀ a esp, op ≠ .validateString a esp) : Mates b p op op
  | store {a : Nat} {data data' : List UInt8} (length : data.length = data'.length) :
      Mates b b (.store a data) (.store a data')
  | userStore {a esp limit : Nat} {data data' : List UInt8} (length : data.length = data'.length) :
      Mates b b (.userStore a data esp limit) (.userStore a data' esp limit)

/-- The answer, the bytes aside that have been read. -/
def Answer.outline : Answer → Answer
  | .loaded bytes fault => .loaded (.replicate bytes.length 0) fault
  | .retriedLoad r => .retriedLoad (r.map fun bytes => .replicate bytes.length 0)
  | .copied bytes => .copied (.replicate bytes.length 0)
  | answer => answer

/-- Two runs in step. They start with files that are the same but for those in `S`, and do the same, but
for the bytes that process `b` stores. Every handle that an operation is given has been given out. Whatever
is declared, process `b` has pages of files in `S` alone, and no other process has a page of one. -/
inductive Paired (F : Discreet φ) (S : Set Nat) (b : ProcId) : Machine φ → Machine φ → Prop
  | start {frames base : Nat} {pool : Pool} {refuses : Nat → Bool} {files files' : φ} {devices : Registry}
      {m n : Machine φ} (create : Pool.create frames base = .ok pool)
      (sizes : ∀ d ∈ devices.devices, d.size < Swap.sectorLimit) (same : F.Same S files files')
      (run : Kernel.start { bare ⟨pool, 0, refuses⟩ files with devices } = .ok () m)
      (run' : Kernel.start { bare ⟨pool, 0, refuses⟩ files' with devices } = .ok () n) : Paired F S b m n
  | spawn {m n m' n' : Machine φ} {pid : UInt16} {limit : Option Nat} {p p' : ProcId}
      (past : Paired F S b m n) (run : Kernel.spawn pid limit m = .ok p m')
      (run' : Kernel.spawn pid limit n = .ok p' n') : Paired F S b m' n'
  | perform {m n m' n' : Machine φ} {p : ProcId} {op op' : Op} {answer answer' : Answer}
      (past : Paired F S b m n) (mates : op.Mates b p op') (known : ∀ f ∈ op.handles, F.known m.files f = true)
      (run : Kernel.perform p op m = .ok answer m') (run' : Kernel.perform p op' n = .ok answer' n')
      (parted : m'.scene.Parted F S b) : Paired F S b m' n'

/-! ### Operations, side by side -/

/-- The new pages have handles that have been given out, if they were made from one. -/
theorem View.Adds.handed {v v' : View φ} {file : Handle} {q : ProcId} {u : Nat} {i : PageId} {r : Region}
    (h : v.Adds file v') (hk : F.known v.files file = true) (hi : v'.own q u = some i)
    (hnew : v.own q u ≠ some i) (hr : (v'.page i).backing.region? = some r) :
    F.known v'.files r.file = true := by
  rcases h q u i r hi hnew hr with ⟨hfiles, rfl⟩ | ⟨s, hs, hfiles, hr⟩
  · rw [hfiles, hk]
  · rw [hfiles, hr]
    exact F.reopened (F.consulted hs hk).1

theorem Op.Does.handed {v v' : View φ} {op : Op} {answer : Answer} {q : ProcId} {u : Nat} {i : PageId}
    {r : Region} (h : op.Does p v answer v') (hop : op.basic = true) (hv : v.Sound)
    (hknown : ∀ f ∈ op.handles, F.known v.files f = true) (hi : v'.own q u = some i)
    (hnew : v.own q u ≠ some i) (hr : (v'.page i).backing.region? = some r) :
    F.known v'.files r.file = true := by
  cases op with
  | declareFile => exact h.2.handed (hknown _ List.mem_cons_self) hi hnew hr
  | mmap => exact h.2.1.handed (hknown _ List.mem_cons_self) hi hnew hr
  | resolve | growStack | fault => exact absurd (View.Fetched.retold h hv hi hr) hnew
  | munmap | exit =>
    have hretold : v.Retold v' := Path.retold h.1 (fun l hl j hj => by rw [hj] at hl; exact hl) hv
    exact absurd (hretold hi hr) hnew
  | load =>
    obtain ⟨rfl, -⟩ := h
    exact absurd hi hnew
  | store =>
    obtain ⟨fault, cell, dirty, -, -, rfl⟩ := h
    exact absurd hi hnew
  | setAccessed =>
    obtain rfl := h
    exact absurd hi hnew
  | userLoad | userStore | validate | validateBuffer | validateString | copy => simp [Op.basic] at hop

namespace Machine

variable {m n : Machine φ}

/-- All pages of a process may go to their files. -/
theorem Hides.mayLeave (h : m.Hides F S b n) (p : ProcId) : m.MayLeave F S n p :=
  fun _ _ hi _ _ hf hr => h.veils.mayWrite h.sealed hi hf hr

theorem Twin.mayWait (h : m.Twin F S n) (p : ProcId) (op : Op) : op.mayWait n p = op.mayWait m p := by
  have hany : n.anyPinned p = m.anyPinned p := by
    rw [anyPinned, anyPinned, h.process]
    exact congrArg _ (funext fun i => by rw [h.page])
  cases op <;> simp only [Op.mayWait, hany, h.lookup, h.page]

end Machine

theorem Op.Mates.onTable (h : op.Mates b p op') : op'.onTable = op.onTable := by cases h <;> rfl

omit [FileSystem φ] in
theorem Op.Mates.mayWait (h : op.Mates b p op') (m : Machine φ) : op'.mayWait m p = op.mayWait m p := by
  cases h <;> rfl

namespace Kernel

variable {m n : Machine φ}

/-- An operation that is made up of no others and reads and stores no bytes. -/
theorem veiled_execute (h : m.Twin F S n) (hm : m.Hides F S b n) (hop : op.basic = true)
    (hload : ∀ a len, op ≠ .load a len) (hstore : ∀ a data, op ≠ .store a data) :
    Veiled F S b m.scene (execute p op) m n := by
  have hs := hm.settled
  have hsince : ∀ {x : Kernel φ Answer}, BlindSince F S m n x → Veiled F S b m.scene x m n := fun hx =>
    (hx.run h (.refl _ _)).imp fun _ _ _ _ _ hdone => ⟨hdone.1, hm.veils.keeps hdone.2⟩
  cases op with
  | declareFile u r w =>
    refine hsince (since_bind (.of_blind (blind_declareRegion p u w .file r)) fun result => ?_)
    cases result <;> exact .of_blind (blind_pure _)
  | resolve a =>
    refine twins_get ?_
    rw [h.lookup]
    cases hi : m.lookup p a with
    | none => exact veiled_pure h hm.veils _
    | some i =>
      refine veiled_bind (veiled_resolve h hs.shows hs.sound rfl hm.sealed hm.veils hi)
        fun result m₁ n₁ h₁ hveils₁ => ?_
      cases result <;> exact veiled_pure h₁ hveils₁ _
  | growStack a =>
    exact veiled_bind (veiled_growStack h hs.shows hs.sound rfl hm.sealed hm.veils p a)
      fun _ m₁ n₁ h₁ hveils₁ => veiled_pure h₁ hveils₁ _
  | fault a esp w =>
    refine veiled_bind (veiled_handleFault h hs.shows hs.sound rfl hm.sealed hm.veils p a esp w)
      fun result m₁ n₁ h₁ hveils₁ => ?_
    cases result <;> exact veiled_pure h₁ hveils₁ _
  | mmap file a =>
    refine hsince (since_bind (since_mmap (hm.mayLeave p) file a) fun result => ?_)
    cases result <;> exact .of_blind (blind_pure _)
  | munmap id => exact hsince (since_bind (since_munmap (hm.mayLeave p) id) fun _ => .of_blind (blind_pure _))
  | setAccessed u v =>
    exact hsince (since_bind (.of_blind (blind_modifyTable p _)) fun _ => .of_blind (blind_pure _))
  | exit => exact hsince (since_bind (since_exit (hm.mayLeave p)) fun _ => .of_blind (blind_pure _))
  | load a len => exact absurd rfl (hload a len)
  | store a data => exact absurd rfl (hstore a data)
  | userLoad | userStore | validate | validateBuffer | validateString | copy => simp [Op.basic] at hop

/-- Side by side, process `p` is given answers that are alike, and what process `b` has stays hidden. -/
def Answers (F : Discreet φ) (S : Set Nat) (b p : ProcId) (x y : Kernel φ Answer) (m n : Machine φ) : Prop :=
  Twins F S x y m n fun a m' a' n' => Alike Answer.outline (p ≠ b) a a' ∧ m'.Shields F b n'

theorem answers_pure (h : m.Twin F S n) (hm : m.Hides F S b n) {a a' : Answer}
    (halike : Alike Answer.outline (p ≠ b) a a') : Answers F S b p (pure a) (pure a') m n :=
  twins_pure h ⟨halike, hm.toShields⟩

/-- The answer is what the parts of an operation have come to. -/
theorem Hidden.answers {β : Type} {R : β → β → Prop} {x y : Kernel φ β} {g g' : β → Kernel φ Answer}
    (hx : Hidden F S b p x y m n R) (hg : ∀ c c' m' n', m'.Twin F S n' → m'.Hides F S b n' → R c c' →
      Answers F S b p (g c) (g' c') m' n') : Answers F S b p (x >>= g) (y >>= g') m n := by
  refine twins_bind hx ?_
  rintro c m' c' n' h' ⟨hR, hm', -⟩
  exact hg c c' m' n' h' hm' hR

/-- A store is answered with its fault, whatever the bytes. -/
theorem answers_store (h : m.Twin F S n) (hm : m.Hides F S b n) (a : Nat) {data data' : List UInt8}
    (hlen : data.length = data'.length) (hdata : p ≠ b → data = data') :
    Answers F S b p (execute p (.store a data)) (execute p (.store a data')) m n := by
  refine (hidden_store h hm a hlen hdata).answers ?_
  rintro fault _ m₁ n₁ h₁ hm₁ rfl
  exact answers_pure h₁ hm₁ (.refl _ _ _)

theorem answers_userStore (h : m.Twin F S n) (hm : m.Hides F S b n) (hlive : m.scene.exited p = false)
    (a : Nat) {data data' : List UInt8} (hlen : data.length = data'.length) (hdata : p ≠ b → data = data')
    (esp limit : Nat) :
    Answers F S b p (execute p (.userStore a data esp limit)) (execute p (.userStore a data' esp limit)) m n := by
  refine (hidden_storeRetrying h hm hlive a hlen hdata esp limit).answers ?_
  rintro r _ m₁ n₁ h₁ hm₁ rfl
  exact answers_pure h₁ hm₁ (.refl _ _ _)

theorem answers_execute_unread (h : m.Twin F S n) (hm : m.Hides F S b n)
    (hlive : op.onTable = false → m.scene.exited p = false)
    (hknown : ∀ f ∈ op.handles, F.known m.files f = true) (hop : op.basic = true)
    (hload : ∀ a len, op ≠ .load a len) (hstore : ∀ a data, op ≠ .store a data) :
    Answers F S b p (execute p op) (execute p op) m n := by
  have htwins := veiled_execute (p := p) h hm hop hload hstore
  refine (htwins.left (ends_execute hm.settled hlive hop)).imp ?_
  rintro a m' _ n' - ⟨⟨rfl, hveils⟩, hdone⟩
  exact ⟨.refl _ _ _, hm.toShields.onward hdone.settled hdone.does.path hveils fun hi hnew hr =>
    hdone.does.handed hop hm.settled.sound hknown hi hnew hr⟩

/-- Each operation is answered alike, and goes on hiding what process `b` has. -/
theorem answers_execute (h : m.Twin F S n) (hm : m.Hides F S b n)
    (hlive : op.onTable = false → m.scene.exited p = false)
    (hknown : ∀ f ∈ op.handles, F.known m.files f = true)
    (hunread : p = b → ∀ a esp, op ≠ .validateString a esp) :
    Answers F S b p (execute p op) (execute p op) m n := by
  cases op with
  | load a len =>
    refine (hidden_load h hm a len).answers ?_
    rintro ⟨bytes, fault⟩ ⟨bytes', fault'⟩ m₁ n₁ h₁ hm₁ halike
    refine answers_pure h₁ hm₁ (halike.map (fun x => Answer.loaded x.1 x.2) fun x y hxy => ?_)
    obtain ⟨hlen, hfault⟩ := Prod.mk.inj hxy
    rw [Answer.outline, Answer.outline, hlen, hfault]
  | store a data => exact answers_store h hm a rfl fun _ => rfl
  | userLoad a len esp limit =>
    refine (hidden_loadRetrying h hm (hlive rfl) a len esp limit).answers ?_
    rintro r r' m₁ n₁ h₁ hm₁ halike
    refine answers_pure h₁ hm₁ (halike.map Answer.retriedLoad fun x y hxy => ?_)
    cases x <;> cases y <;> simp_all [Answer.outline, Retried.map]
  | userStore a data esp limit => exact answers_userStore h hm (hlive rfl) a rfl (fun _ => rfl) esp limit
  | validate a esp w =>
    refine (hidden_validate h hm (hlive rfl) a esp w).answers ?_
    rintro r _ m₁ n₁ h₁ hm₁ rfl
    cases r <;> exact answers_pure h₁ hm₁ (.refl _ _ _)
  | validateBuffer a len esp w =>
    refine Hidden.answers (R := Eq) ?_ ?_
    · rw [validateBuffer]
      split
      · exact hidden_pure h hm rfl
      · exact hidden_validateSpans esp w _ h hm (hlive rfl)
    · rintro r _ m₁ n₁ h₁ hm₁ rfl
      cases r <;> exact answers_pure h₁ hm₁ (.refl _ _ _)
  | validateString a esp =>
    have hp : p ≠ b := fun hp => hunread hp a esp rfl
    refine (hidden_scanString hp a esp _ 0 h hm (hlive rfl)).answers ?_
    rintro r _ m₁ n₁ h₁ hm₁ rfl
    cases r <;> exact answers_pure h₁ hm₁ (.refl _ _ _)
  | copy a len esp =>
    refine Hidden.answers (R := Alike (Except.map List.length) (p ≠ b)) ?_ ?_
    · rw [copy]
      split
      · exact hidden_pure h hm (.refl _ _ _)
      · exact hidden_copySpans esp _ h hm (hlive rfl)
    · rintro r r' m₁ n₁ h₁ hm₁ ⟨hmask, hsame⟩
      cases r <;> cases r' <;> simp [Except.map] at hmask
      · obtain rfl := hmask
        exact answers_pure h₁ hm₁ (.refl _ _ _)
      · exact answers_pure h₁ hm₁ ⟨by simp [Answer.outline, hmask], fun hp => by simpa using hsame hp⟩
  | declareFile | resolve | growStack | fault | mmap | munmap | setAccessed | exit =>
    exact answers_execute_unread h hm hlive hknown rfl (by simp) (by simp)

/-- Process `b` may store other bytes in the other run. -/
theorem answers_execute_mates (h : m.Twin F S n) (hm : m.Hides F S b n)
    (hlive : op.onTable = false → m.scene.exited p = false)
    (hknown : ∀ f ∈ op.handles, F.known m.files f = true) (hmates : op.Mates b p op') :
    Answers F S b p (execute p op) (execute p op') m n := by
  cases hmates with
  | same hunread => exact answers_execute h hm hlive hknown hunread
  | store hlen => exact answers_store h hm _ hlen fun hne => absurd rfl hne
  | userStore hlen => exact answers_userStore h hm (hlive rfl) _ hlen (fun hne => absurd rfl hne) _ _

/-- Both runs turn the operation away, or neither does. -/
theorem answers_perform (h : m.Twin F S n) (hm : m.Hides F S b n)
    (hknown : ∀ f ∈ op.handles, F.known m.files f = true) (hmates : op.Mates b p op') :
    Answers F S b p (perform p op) (perform p op') m n := by
  have hnowait : ∀ o : Op, o.mayWait m p = false := (steady_iff.2 hm.settled).mayWait p
  refine twins_get ?_
  rw [h.process, hmates.onTable, h.mayWait, hnowait op, hnowait op']
  cases hexited : (m.process p).exited && !op.onTable with
  | true => exact answers_pure h hm (.refl _ _ _)
  | false =>
    refine answers_execute_mates h hm (fun hop => ?_) hknown hmates
    rw [hop, Bool.not_false, Bool.and_true] at hexited
    exact hexited

/-- Machines with the same memory and devices start in the same way. -/
theorem twins_start {allocator : Allocator} {files files' : φ} (hsame : F.Same S files files')
    (devices : Registry) : Twins F S start start { bare allocator files with devices }
      { bare allocator files' with devices } fun _ _ _ _ => True := by
  have h : Twin F S { bare allocator files with devices } { bare allocator files' with devices } :=
    ⟨rfl, rfl, rfl, rfl, rfl, rfl, hsame, rfl⟩
  refine twins_bind (R := fun _ _ _ _ => True) (twins_get ?_) ?_
  · dsimp only
    cases Swap.attach devices with
    | error e => exact twins_throw h
    | ok x => exact ⟨{ h with swap := rfl, log := rfl }, trivial⟩
  · rintro _ m _ n h -
    refine twins_get ?_
    rw [Pool.total_eq_of_outline h.pool, h.swap]
    exact ((blind_emit _).run h).imp fun _ _ _ _ _ _ => trivial

theorem twins_spawn (h : m.Twin F S n) (pid : UInt16) (limit : Option Nat) :
    Twins F S (spawn pid limit) (spawn pid limit) m n fun p _ p' _ => p = p' :=
  ⟨{ h with processes := congrArg (·.push (.fresh pid limit)) h.processes },
    congrArg Array.size h.processes⟩

end Kernel

/-! ### Runs -/

theorem Machine.Hides.spawn {m n : Machine φ} (h : m.Hides F S b n) (pid : UInt16) (limit : Option Nat) :
    Hides F S b { m with processes := m.processes.push (.fresh pid limit) }
      { n with processes := n.processes.push (.fresh pid limit) } := by
  have hscene := (h.settled.shows_spawn pid limit).eq_scene rfl
  have hpath : Path (fun _ => True) m.scene (m.scene.setExited m.processes.size false) :=
    Path.single trivial Effect.spawn
  refine h.onward (h.settled.spawn pid limit) (hscene ▸ hpath) (h.veils.congr rfl rfl rfl rfl rfl rfl) ?_
  rw [← hscene]
  exact fun hi _ => hi

/-- At the start there are no pages. -/
theorem hides_of_start {m n : Machine φ} {frames base : Nat} {pool : Pool} {refuses : Nat → Bool} {files : φ}
    {devices : Registry} (hcreate : Pool.create frames base = .ok pool)
    (hsizes : ∀ d ∈ devices.devices, d.size < Swap.sectorLimit)
    (hrun : Kernel.start { bare ⟨pool, 0, refuses⟩ files with devices } = .ok () m) : m.Hides F S b n := by
  have hnone : ∀ q u, m.scene.own q u = none := declaredAt_of_start hrun
  have hsettled := steady_iff.1 (steady_of_start hcreate hsizes hrun)
  refine ⟨⟨hsettled, fun {q u i r} hi => ?_, fun i hi => ?_, .refl _⟩, fun {q u i r} hi => ?_⟩
  · simp [hnone] at hi
  · rcases hi with hle | ⟨q, u, -, hi⟩
    · obtain ⟨hframe, hslot⟩ := hsettled.shows.away hle
      exact ⟨fun f hf => by simp [hframe] at hf, fun s hs => by simp [hslot] at hs⟩
    · simp [hnone] at hi
  · simp [hnone] at hi

namespace Paired

variable {m n : Machine φ}

/-- Twins stay twins, and what process `b` has stays hidden. -/
theorem hides (h : Paired F S b m n) : m.Twin F S n ∧ m.Hides F S b n := by
  induction h with
  | start create sizes same run run' =>
    exact ⟨((twins_start same _).of_ok run run').1, hides_of_start create sizes run⟩
  | spawn _ run run' ih =>
    obtain ⟨-, rfl⟩ := EStateM.Result.ok.inj run
    obtain ⟨-, rfl⟩ := EStateM.Result.ok.inj run'
    exact ⟨((twins_spawn ih.1 _ _).of_ok run run').1, ih.2.spawn _ _⟩
  | perform _ mates known run run' parted ih =>
    obtain ⟨h, -, hshields⟩ := (answers_perform ih.1 ih.2 known mates).of_ok run run'
    exact ⟨h, hshields, parted⟩

/-- In two runs that are in step, everything is the same but for bytes, and these too in the pages of other
processes than `b` and in files that are not in `S`; and whatever the processes go on to do, both runs
answer alike, to others than `b` with the same bytes, or stop for the same reason. -/
theorem noninterference (h : Paired F S b m n) :
    m.Twin F S n ∧ (∀ q u i, q ≠ b → m.declaredAt q u = some i → m.Agrees n i) ∧
    (∀ pid limit, Twins F S (Kernel.spawn pid limit) (Kernel.spawn pid limit) m n fun p _ p' _ => p = p') ∧
    ∀ (p : ProcId) (op op' : Op), op.Mates b p op' → (∀ f ∈ op.handles, F.known m.files f = true) →
      Twins F S (Kernel.perform p op) (Kernel.perform p op') m n fun a _ a' _ =>
        Alike Answer.outline (p ≠ b) a a' := by
  obtain ⟨htwin, hhides⟩ := h.hides
  refine ⟨htwin, fun q u i hq hi => hhides.veils.agrees i (mem_others hi hq), twins_spawn htwin, ?_⟩
  intro p op op' hmates hknown
  exact (answers_perform htwin hhides hknown hmates).imp fun _ _ _ _ _ h => h.1

end Paired

/-! ### Runs in step that can be computed -/

/-- The pages of process `b` show files in `c` if they show any, and no other pages do. -/
def Machine.divided (F : Discreet φ) (c : Nat → Bool) (b : ProcId) (m : Machine φ) : Bool :=
  (List.range m.processes.size).all fun q => (m.process q).pages.all fun i =>
    match (m.page i).backing.region? with
    | some r => c (F.file m.files r.file) == (q == b)
    | none => true

/-- An operation of a process, and what it asks for instead in the other run. -/
structure Op.Pair (b : ProcId) where
  process : ProcId
  op : Op
  other : Op
  mates : op.Mates b process other

/-- The machines after the operations of a list, if each of them can be a step of two runs. -/
def Machine.replayBoth (F : Discreet φ) (c : Nat → Bool) (b : ProcId) :
    List (Op.Pair b) → Machine φ × Machine φ → Option (Machine φ × Machine φ)
  | [], x => some x
  | o :: os, (m, n) =>
    match perform o.process o.op m, perform o.process o.other n with
    | .ok _ m', .ok _ n' =>
      if o.op.handles.all (F.known m.files) && m'.divided F c b then replayBoth F c b os (m', n') else none
    | _, _ => none

section

variable {m n m' n' : Machine φ} {c : Nat → Bool}

theorem parted_of_divided (h : m.divided F c b = true) : m.scene.Parted F {k | c k = true} b := by
  intro q u i r hi hr
  have hown : (m.process q).declared[u]? = some i := hi
  have hq : q < m.processes.size := by
    by_contra hle
    rw [process_of_le (Nat.not_lt.1 hle)] at hown
    simp [Process.absent, Process.fresh] at hown
  have hpage : i ∈ (m.process q).pages :=
    List.mem_map.2 ⟨(u, i), Std.ExtTreeMap.mem_toList_iff_getElem?_eq_some.2 hown, rfl⟩
  simp only [Machine.divided, List.all_eq_true, List.mem_range] at h
  have hcheck := h q hq i hpage
  rw [show (m.page i).backing.region? = some r from hr] at hcheck
  have hsame : c (F.file m.files r.file) = (q == b) := beq_iff_eq.1 hcheck
  show c (F.file m.files r.file) = true ↔ q = b
  rw [hsame, beq_iff_eq]

theorem Paired.replay : ∀ {os : List (Op.Pair b)} {m n m' n' : Machine φ},
    Paired F {k | c k = true} b m n → replayBoth F c b os (m, n) = some (m', n') →
      Paired F {k | c k = true} b m' n'
  | [], m, n, m', n', h, hrun => by
    obtain ⟨rfl, rfl⟩ := Prod.mk.inj (Option.some.inj hrun)
    exact h
  | o :: os, m, n, m', n', h, hrun => by
    rw [replayBoth] at hrun
    split at hrun
    · rename_i answer m₁ answer' n₁ hx hy
      rw [Option.ite_none_right_eq_some, Bool.and_eq_true, List.all_eq_true] at hrun
      obtain ⟨⟨hknown, hdivided⟩, hrun⟩ := hrun
      exact Paired.replay (.perform h o.mates hknown hx hy (parted_of_divided hdivided)) hrun
    · simp at hrun

/-- Machines that have been booted with files that are the same outside `S`. -/
theorem Paired.boot {frames slots : Nat} {files files' : φ} (hsame : F.Same S files files')
    (h : DemandPaging.boot frames slots files = some m)
    (h' : DemandPaging.boot frames slots files' = some n) : Paired F S b m n := by
  obtain ⟨pool, m₁, p, m₂, q, hcreate, hstart, hspawn, hspawn'⟩ := exists_of_boot h
  obtain ⟨pool', n₁, p', n₂, q', hcreate', hstart', hspawn₁, hspawn₂⟩ := exists_of_boot h'
  obtain rfl := Except.ok.inj (hcreate.symm.trans hcreate')
  have hpast : Paired F S b m₁ n₁ :=
    .start hcreate (fun _ => size_lt_of_mem_bootDevices) hsame hstart hstart'
  exact .spawn (.spawn hpast hspawn hspawn₁) hspawn' hspawn₂

/-- Two runs in step that can be computed. -/
theorem exists_paired (F : Discreet φ) (c : Nat → Bool) (b : ProcId) (frames slots : Nat) {files files' : φ}
    (hsame : F.Same {k | c k = true} files files') (os : List (Op.Pair b))
    (P : Machine φ × Machine φ → Bool)
    (h : ((DemandPaging.boot frames slots files).bind fun m => (DemandPaging.boot frames slots files').bind
      fun n => replayBoth F c b os (m, n)).any P = true) :
    ∃ m n, Paired F {k | c k = true} b m n ∧ P (m, n) = true := by
  obtain ⟨⟨m', n'⟩, hrun, hP⟩ := (Option.any_eq_true _ _).1 h
  obtain ⟨m, hm, hrun⟩ := Option.bind_eq_some_iff.1 hrun
  obtain ⟨n, hn, hrun⟩ := Option.bind_eq_some_iff.1 hrun
  exact ⟨m', n', (Paired.boot hsame hm hn).replay hrun, hP⟩

end

/-- Process 1 has a page in the frame that a page of process 0 was in, which is in a slot now and holds
other bytes in one run than in the other. What process 1 reads there is the same. -/
theorem noninterference_of_recycled : ∃ m n : Machine MemoryFiles,
    Paired MemoryFiles.discreet {k | (k == 1) = true} 0 m n ∧ ¬ m.Agrees n 0 ∧
    (m.page 1).frame.map Frame.cell = some 0 ∧ m.Twin MemoryFiles.discreet {k | (k == 1) = true} n ∧
    Twins MemoryFiles.discreet {k | (k == 1) = true} (perform 1 (.load 0x7ffff000 4096))
      (perform 1 (.load 0x7ffff000 4096)) m n fun a _ a' _ => a = a' := by
  have hsame : MemoryFiles.discreet.Same {k | (k == 1) = true}
      ⟨#[⟨[1, 2, 3], none, none⟩, ⟨[4, 4], none, none⟩]⟩
      ⟨#[⟨[1, 2, 3], none, none⟩, ⟨[5, 5], none, none⟩]⟩ := by
    refine ⟨funext fun i => ?_, fun k hk => ?_⟩
    · rcases i with _ | _ | i <;> rfl
    · rcases k with _ | _ | k
      · rfl
      · exact absurd rfl hk
      · rfl
  obtain ⟨m, n, h, hP⟩ := exists_paired MemoryFiles.discreet (· == 1) 0 1 2 hsame
    [⟨0, .declareFile 0x8048000 ⟨1, 0, 2, 4094⟩ true, _, .same (by simp)⟩,
      ⟨0, .resolve 0x8048000, _, .same (by simp)⟩,
      ⟨0, .store 0x8048001 [7], .store 0x8048001 [8], .store rfl⟩,
      ⟨1, .growStack 0x7ffff000, _, .same (by simp)⟩]
    (fun x => (x.1.page 0).slot == some 0 && !(x.1.slotBytes 0 == x.2.slotBytes 0) &&
      (x.1.page 1).frame.map Frame.cell == some 0) (by decide +kernel)
  simp only [Bool.and_eq_true, beq_iff_eq, Bool.not_eq_true', beq_eq_false_iff_ne] at hP
  obtain ⟨⟨hslot, hbytes⟩, hframe⟩ := hP
  obtain ⟨htwin, -, -, hstep⟩ := h.noninterference
  refine ⟨m, n, h, fun hagrees => hbytes (hagrees.slot 0 hslot), hframe, htwin, ?_⟩
  exact (hstep 1 _ _ (.same (by simp)) (by simp [Op.handles])).imp fun _ _ _ _ _ halike =>
    halike.2 (by decide)

end DemandPaging
