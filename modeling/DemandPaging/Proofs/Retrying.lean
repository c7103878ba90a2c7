import DemandPaging.Proofs.Reachable

/-!
# Accesses that are repeated

A user program makes an access again after every fault that has been resolved. `Retries` follows the
machine from one fault to the next: each fault is met on the machine that the handling of the one before has
left, so what the whole repetition does is told by single accesses and single faults, in their order.
-/

namespace DemandPaging

namespace Kernel

variable {φ α : Type}

/-- A read of the `len` bytes from `a` on goes through. -/
def LoadPasses (p : ProcId) (a len : Nat) (m : Machine φ) (bytes : List UInt8) (m' : Machine φ) : Prop :=
  load p a len m = .ok (bytes, none) m'

/-- A read of the `len` bytes from `a` on meets a fault. -/
def LoadFaults (p : ProcId) (a len : Nat) (m : Machine φ) (fault : PageTable.Fault) (m' : Machine φ) : Prop :=
  fault.write = false ∧ ∃ bytes, load p a len m = .ok (bytes, some fault) m'

/-- A write of `data` from `a` on goes through. -/
def StorePasses (p : ProcId) (a : Nat) (data : List UInt8) (m : Machine φ) (_ : Unit) (m' : Machine φ) : Prop :=
  store p a data m = .ok none m'

/-- A write of `data` from `a` on meets a fault. -/
def StoreFaults (p : ProcId) (a : Nat) (data : List UInt8) (m : Machine φ) (fault : PageTable.Fault)
    (m' : Machine φ) : Prop :=
  fault.write = true ∧ store p a data m = .ok (some fault) m'

/-- The fault is handled, and this is the answer. -/
def DealsWith [FileSystem φ] (p : ProcId) (esp : Nat) (fault : PageTable.Fault) (result : Except FaultError Unit)
    (m m' : Machine φ) : Prop :=
  handleFault p fault.addr esp fault.write m = .ok result m'

section

variable (passes : Machine φ → α → Machine φ → Prop) (meets : Machine φ → PageTable.Fault → Machine φ → Prop)
  (handles : PageTable.Fault → Except FaultError Unit → Machine φ → Machine φ → Prop)

/-- An access meets `n` faults, one after the other, which are all resolved. -/
inductive Retries : Nat → Machine φ → Machine φ → Prop
  | none {m : Machine φ} : Retries 0 m m
  | again {n : Nat} {fault : PageTable.Fault} {m m₁ m₂ m' : Machine φ} (met : meets m fault m₁)
      (handled : handles fault (.ok ()) m₁ m₂) (rest : Retries n m₂ m') : Retries (n + 1) m m'

/-- How a repeated access ends on machine `m`, which it has come to by `n` faults. -/
inductive Concludes (n : Nat) (m : Machine φ) : Retried α → Machine φ → Prop
  | done {a : α} {m' : Machine φ} (passed : passes m a m') : Concludes n m (.done a n) m'
  | refused {fault : PageTable.Fault} {e : FaultError} {m₁ m' : Machine φ} (met : meets m fault m₁)
      (handled : handles fault (.error e) m₁ m') : Concludes n m (.refused e fault n) m'
  | gaveUp {fault : PageTable.Fault} {m' : Machine φ} (met : meets m fault m') : Concludes n m .gaveUp m'

/-- An access that is repeated comes to this result and this machine. -/
def Repeats (m : Machine φ) (result : Retried α) (m' : Machine φ) : Prop :=
  ∃ n m₁, Retries meets handles n m m₁ ∧ Concludes passes meets handles n m₁ result m'

end

variable {passes passes' : Machine φ → α → Machine φ → Prop}
  {meets meets' : Machine φ → PageTable.Fault → Machine φ → Prop}
  {handles handles' : PageTable.Fault → Except FaultError Unit → Machine φ → Machine φ → Prop}
  {m m' : Machine φ} {p : ProcId} {a len esp n : Nat} {data bytes : List UInt8} {fault : PageTable.Fault}
  {result : Retried α}

/-- What accesses and faults preserve, repeated accesses do; and then more may be said of each of them. -/
theorem Retries.refine {I : Machine φ → Prop} (h : Retries meets handles n m m') (hm : I m)
    (hmeets : ∀ {m fault m'}, I m → meets m fault m' → I m' ∧ meets' m fault m')
    (hhandles : ∀ {m fault r m'}, I m → handles fault r m m' → I m' ∧ handles' fault r m m') :
    I m' ∧ Retries meets' handles' n m m' := by
  induction h with
  | none => exact ⟨hm, .none⟩
  | again met handled _ ih =>
    obtain ⟨hm₁, hmet⟩ := hmeets hm met
    obtain ⟨hm₂, hhandled⟩ := hhandles hm₁ handled
    obtain ⟨hm', hrest⟩ := ih hm₂
    exact ⟨hm', .again hmet hhandled hrest⟩

theorem Repeats.refine {I : Machine φ → Prop} (h : Repeats passes meets handles m result m') (hm : I m)
    (hpasses : ∀ {m a m'}, I m → passes m a m' → passes' m a m')
    (hmeets : ∀ {m fault m'}, I m → meets m fault m' → I m' ∧ meets' m fault m')
    (hhandles : ∀ {m fault r m'}, I m → handles fault r m m' → I m' ∧ handles' fault r m m') :
    Repeats passes' meets' handles' m result m' := by
  obtain ⟨n, m₁, hretries, hconcludes⟩ := h
  obtain ⟨hm₁, hretries'⟩ := hretries.refine hm hmeets hhandles
  refine ⟨n, m₁, hretries', ?_⟩
  cases hconcludes with
  | done passed => exact .done (hpasses hm₁ passed)
  | refused met handled =>
    obtain ⟨hm₂, hmet⟩ := hmeets hm₁ met
    exact .refused hmet (hhandles hm₂ handled).2
  | gaveUp met => exact .gaveUp (hmeets hm₁ met).2

/-! ### One access -/

theorem loadFaults_of_load (h : load p a len m = .ok (bytes, some fault) m') :
    LoadFaults p a len m fault m' := by
  refine ⟨?_, bytes, h⟩
  obtain ⟨k, hmarks⟩ := PageTable.exists_load_marks m.pool len (m.process p).table a
  have hflag : Ends (load p a len) m (fun r _ => ∀ fault, r.2 = some fault → fault.write = false)
      fun _ _ => True := by
    simp only [load, ends_bind, ends_get, ends_modifyTable]
    generalize (m.process p).table.load m.pool a len = res at hmarks ⊢
    split
    · exact fun _ hf => by simp at hf
    · rename_i f hf
      rintro _ ⟨rfl⟩
      exact (hmarks.fault f hf).2.2.1
    · trivial
  exact hflag.of_ok h fault rfl

theorem storeFaults_of_store (h : store p a data m = .ok (some fault) m') :
    StoreFaults p a data m fault m' := by
  refine ⟨?_, h⟩
  obtain ⟨k, hmarks⟩ := PageTable.exists_store_marks data (m.process p).table m.pool a
  have hflag : Ends (store p a data) m (fun fault? _ => ∀ fault, fault? = some fault → fault.write = true)
      fun _ _ => True := by
    simp only [store, ends_bind, ends_get, ends_modify, ends_modifyTable]
    generalize (m.process p).table.store m.pool a data = res at hmarks ⊢
    split
    · exact fun _ hf => by simp at hf
    · rename_i f hf
      rintro _ ⟨rfl⟩
      exact (hmarks.fault f hf).2.2.1
    · trivial
  exact hflag.of_ok h fault rfl

/-! ### What a repetition comes to -/

variable [FileSystem φ] {op : Op}

theorem stages_of_load {result : List UInt8 × Option PageTable.Fault} (ho : op.Part (.load a len))
    (hrun : load p a len m = .ok result m') : Stages op p m m' := by
  have hstaged : Staged ∅ op p (load p a len) m fun _ _ => True :=
    staged_of_part ho rfl (fun r _ => ⟨.loaded r.1 r.2, rfl⟩) fun _ _ _ => trivial
  exact (hstaged.of_ok hrun).1

theorem stages_of_store {result : Option PageTable.Fault} (ho : op.Part (.store a data))
    (hrun : store p a data m = .ok result m') : Stages op p m m' := by
  have hstaged : Staged ∅ op p (store p a data) m fun _ _ => True := staged_store ho
  exact (hstaged.of_ok hrun).1

theorem stages_of_handleFault {w : Bool} {result : Except FaultError Unit} (hop : op.basic = false)
    (hrun : handleFault p a esp w m = .ok result m') : Stages op p m m' := by
  have hstaged : Staged ∅ op p (handleFault p a esp w) m fun _ _ => True := by
    refine staged_of_part (o := .fault a esp w) hop rfl ?_ fun _ _ _ => trivial
    rintro (e | _) m'
    · exact ⟨.faultError e, rfl⟩
    · exact ⟨.done, rfl⟩
  exact (hstaged.of_ok hrun).1

/-- The machines that a repeated access comes to are those that its single accesses and faults lead to. -/
theorem Retries.stages (h : Retries meets (DealsWith p esp) n m m') (hop : op.basic = false)
    (hmeets : ∀ {x fault y}, meets x fault y → Stages op p x y) : Stages op p m m' := by
  induction h with
  | none => exact Relation.ReflTransGen.refl
  | again met handled _ ih => exact ((hmeets met).trans (stages_of_handleFault hop handled)).trans ih

/-- A repeated access meets faults that are resolved, and then it ends. -/
theorem ends_retrying_exact {access : Kernel φ (Except PageTable.Fault α)}
    (haccess : ∀ m, Ends access m (fun result m' => (∀ a, result = .ok a → passes m a m') ∧
      ∀ fault, result = .error fault → meets m fault m') fun _ _ => True) :
    ∀ (limit faults : Nat) (m : Machine φ), Ends (retrying p esp access limit faults) m
      (fun result m' => ∃ n m₁, Retries meets (DealsWith p esp) n m m₁ ∧
        Concludes passes meets (DealsWith p esp) (faults + n) m₁ result m') fun _ _ => True := by
  intro limit
  induction limit with
  | zero =>
    intro faults m
    rw [retrying, ends_bind]
    refine (haccess m).returns ?_
    rintro (fault | b) m₁ ⟨hpasses, hmeets⟩
    · exact ⟨0, m, .none, .gaveUp (hmeets fault rfl)⟩
    · exact ⟨0, m, .none, .done (hpasses b rfl)⟩
  | succ limit ih =>
    intro faults m
    rw [retrying, ends_bind]
    refine (haccess m).returns ?_
    rintro (fault | b) m₁ ⟨hpasses, hmeets⟩
    · rw [ends_bind]
      refine (ends_any _ m₁).run.returns ?_
      rintro (e | _) m₂ ⟨hfault, -⟩
      · exact ⟨0, m, .none, .refused (hmeets fault rfl) hfault⟩
      · refine (ih (faults + 1) m₂).returns ?_
        rintro result m' ⟨n, m₃, hretries, hconcludes⟩
        -- the rest has counted on from `faults + 1`
        rw [Nat.add_right_comm, Nat.add_assoc] at hconcludes
        exact ⟨n + 1, m₃, .again (hmeets fault rfl) hfault hretries, hconcludes⟩
    · exact ⟨0, m, .none, .done (hpasses b rfl)⟩

theorem ends_loadRetrying_exact (p : ProcId) (a len esp limit : Nat) (m : Machine φ) :
    Ends (loadRetrying p a len esp limit) m
      (Repeats (LoadPasses p a len) (LoadFaults p a len) (DealsWith p esp) m) fun _ _ => True := by
  refine (ends_retrying_exact (fun m => ?_) limit 0 m).returns fun result m' h => by simpa [Repeats] using h
  rw [ends_bind]
  refine (ends_any (load p a len) m).run.returns ?_
  rintro ⟨bytes, _ | fault⟩ m₁ ⟨hrun, -⟩
  · exact ⟨fun _ h => Except.ok.inj h ▸ hrun, by simp⟩
  · exact ⟨by simp, fun _ h => Except.error.inj h ▸ loadFaults_of_load hrun⟩

theorem ends_storeRetrying_exact (p : ProcId) (a : Nat) (data : List UInt8) (esp limit : Nat) (m : Machine φ) :
    Ends (storeRetrying p a data esp limit) m
      (Repeats (StorePasses p a data) (StoreFaults p a data) (DealsWith p esp) m) fun _ _ => True := by
  refine (ends_retrying_exact (fun m => ?_) limit 0 m).returns fun result m' h => by simpa [Repeats] using h
  rw [ends_bind]
  refine (ends_any (store p a data) m).run.returns ?_
  rintro (_ | fault) m₁ ⟨hrun, -⟩
  · exact ⟨fun _ _ => hrun, by simp⟩
  · exact ⟨by simp, fun _ h => Except.error.inj h ▸ storeFaults_of_store hrun⟩

end Kernel

open Kernel

variable {φ : Type} [FileSystem φ] {m m' : Machine φ} {p : ProcId} {a len esp limit n : Nat}
  {data bytes : List UInt8}

/-- An operation that repeats an access of process `p` has gone through, after `n` faults that have all been
resolved. What it has read or written is what the process finds on the machine that it has come to. -/
inductive Op.GoesThrough (p : ProcId) (m : Machine φ) (n : Nat) (m' : Machine φ) : Op → Answer → Prop
  | load {a len esp limit : Nat} {m₁ : Machine φ} {bytes : List UInt8}
      (faults : Retries (LoadFaults p a len) (DealsWith p esp) n m m₁)
      (run : Kernel.load p a len m₁ = .ok (bytes, none) m') (length : bytes.length = len)
      (found : ∃ m'', Kernel.load p a len m' = .ok (bytes, none) m'') :
      GoesThrough p m n m' (.userLoad a len esp limit) (.retriedLoad (.done bytes n))
  | store {a esp limit : Nat} {data : List UInt8} {m₁ : Machine φ}
      (faults : Retries (StoreFaults p a data) (DealsWith p esp) n m m₁)
      (run : Kernel.store p a data m₁ = .ok none m')
      (found : ∃ m'', Kernel.load p a data.length m' = .ok (data, none) m'') :
      GoesThrough p m n m' (.userStore a data esp limit) (.retriedStore (.done () n))

theorem goesThrough_of_loadRetrying (hm : m.Settled ∅) (hlive : m.scene.exited p = false) (ha : a < wordLimit)
    (hrun : loadRetrying p a len esp limit m = .ok (.done bytes n) m') :
    Op.GoesThrough p m n m' (.userLoad a len esp limit) (.retriedLoad (.done bytes n)) := by
  obtain ⟨_, m₁, hretries, hconcludes⟩ := (ends_loadRetrying_exact p a len esp limit m).of_ok hrun
  cases hconcludes with
  | done passed =>
    have hpart : (Op.userLoad a len esp limit).Part (.load a len) := ⟨esp, limit, rfl⟩
    have hstages := hretries.stages rfl fun ⟨_, _, hmet⟩ => stages_of_load hpart hmet
    obtain ⟨hm₁, -, -⟩ := hstages.settled hm hlive
    obtain ⟨hm', -, -⟩ := Stages.settled (hstages.trans (stages_of_load hpart passed)) hm hlive
    obtain ⟨-, hloads⟩ := (staged_load hm₁ hpart).of_ok passed
    exact .load hretries passed (hloads.whole rfl) (exists_load_of_loads hm'.shows hm'.sound ha hloads)

theorem goesThrough_of_storeRetrying (hm : m.Settled ∅) (hlive : m.scene.exited p = false) (ha : a < wordLimit)
    (hrun : storeRetrying p a data esp limit m = .ok (.done () n) m') :
    Op.GoesThrough p m n m' (.userStore a data esp limit) (.retriedStore (.done () n)) := by
  obtain ⟨_, m₁, hretries, hconcludes⟩ := (ends_storeRetrying_exact p a data esp limit m).of_ok hrun
  cases hconcludes with
  | done passed =>
    have hpart : (Op.userStore a data esp limit).Part (.store a data) := ⟨esp, limit, rfl⟩
    have hstages := hretries.stages rfl fun ⟨_, hmet⟩ => stages_of_store hpart hmet
    obtain ⟨hm₁, -, -⟩ := hstages.settled hm hlive
    obtain ⟨cell, dirty, hstores, hshows⟩ := (ends_store hm₁.shows hm₁.sound p a data).of_ok passed
    exact .store hretries passed (exists_load_of_loads hshows ((Effect.store hstores).sound hm₁.sound) ha
      (loads_of_stores hstores hm₁.sound))

end DemandPaging
