import DemandPaging.Proofs.UserMemory

/-!
# Runs of a machine

A run starts a machine with a new pool and any devices, starts processes and lets them perform
operations, in any order. Between operations every machine of a run is steady.
-/

namespace DemandPaging

variable {φ : Type} [FileSystem φ]

/-- The machines that a run can come to, between operations. -/
inductive Reachable : Machine φ → Prop
  /-- The sizes of devices are numbers of 32 bits. -/
  | start {frames base : Nat} {pool : Pool} {refuses : Nat → Bool} {files : φ} {devices : Registry}
      {m : Machine φ} (create : Pool.create frames base = .ok pool)
      (sizes : ∀ d ∈ devices.devices, d.size < Swap.sectorLimit)
      (run : Kernel.start { Machine.bare ⟨pool, 0, refuses⟩ files with devices } = .ok () m) :
      Reachable m
  | spawn {m m' : Machine φ} {pid : UInt16} {limit : Option Nat} {p : ProcId} (reach : Reachable m)
      (run : Kernel.spawn pid limit m = .ok p m') : Reachable m'
  | perform {m m' : Machine φ} {p : ProcId} {op : Op} {answer : Answer} (reach : Reachable m)
      (run : Kernel.perform p op m = .ok answer m') : Reachable m'

/-- Swap space is set up on a device in the swap role, with as many slots as it has pages. -/
theorem Swap.attach_eq_ok {r : Registry} {d : Device} {s : Swap} (h : Swap.attach r = .ok (d, s)) :
    r.devices[s.device]? = some d ∧ d.role = .swap ∧ s.used = .ofLength (d.size / sectorsPerPage) := by
  rw [Swap.attach] at h
  cases hfirst : r.firstInRole? .swap with
  | none => simp [hfirst] at h
  | some x =>
    obtain ⟨i, d'⟩ := x
    simp only [hfirst] at h
    split at h
    · simp at h
    · simp only [Except.ok.injEq, Prod.mk.injEq] at h
      obtain ⟨rfl, rfl⟩ := h
      simp only [Registry.firstInRole?, Option.bind_eq_bind, Option.pure_def,
        Option.bind_eq_some_iff] at hfirst
      obtain ⟨j, hj, d, hd, heq⟩ := hfirst
      simp only [Option.some.injEq, Prod.mk.injEq] at heq
      obtain ⟨rfl, rfl⟩ := heq
      obtain ⟨hlt, hrole, -⟩ := Array.findIdx?_eq_some_iff_getElem.1 hj
      have hget : r.devices[j]? = some d := hd
      rw [Array.getElem?_eq_getElem hlt, Option.some.injEq] at hget
      exact ⟨hd, by simpa [hget] using hrole, rfl⟩

namespace Machine

variable {m m' : Machine φ}

omit [FileSystem φ] in
/-- A machine without pages, with free memory and unused swap space. -/
theorem steady_of_empty {allocator : Allocator} {files : φ} {devices : Registry} {swap : Swap}
    {log : Array Event} (hinUse : allocator.pool.inUse = 0) (hfree : ∀ c, allocator.pool.lent c = false)
    (hsized : swap.used.Sized) (hunused : ∀ s, swap.used.bit s = false)
    (hwired : ∃ size sectors, devices.spec swap.device = some (.swap, size, sectors) ∧
      swap.slots = size / sectorsPerPage ∧ size ≤ Swap.sectorLimit) :
    Steady ({ bare allocator files with devices, swap, log } : Machine φ) := by
  set m : Machine φ := { bare allocator files with devices, swap, log } with hm
  have hprocess : ∀ p, m.process p = .absent := fun p => process_of_le (Nat.zero_le _)
  have hown : ∀ p u, m.scene.own p u = none := fun p u => by
    show (m.process p).declared[u]? = none
    rw [hprocess]
    exact Std.ExtTreeMap.getElem?_empty
  have hmapping : ∀ p u, m.scene.mapping? p u = none := fun p u => by
    show (m.process p).table.mapping? u = none
    rw [hprocess]
    exact PageTable.mapping?_empty _
  have hcell : ∀ c, m.scene.cell c = none := fun c => by
    show m.pool.contents? c = none
    rw [Pool.contents?, if_neg]
    rw [show m.pool.lent c = false from hfree c]
    simp
  have hslot : ∀ s, m.scene.slot s = none := fun s => by
    show m.swap.contents? m.devices s = none
    rw [Swap.contents?, if_neg]
    simp [hm, hunused]
  have htenants : m.scene.tenants = 0 := rfl
  have hlive : ∀ p (k : Nat), (m.scene.mappings p).live[k]? = none := fun p k => by
    show (m.process p).mappings.live[k]? = none
    rw [hprocess]
    exact Std.ExtTreeMap.getElem?_empty
  refine ⟨⟨rfl, hsized, .inr rfl, fun i => ?_⟩, ⟨hwired, ?_, ?_, ?_, ?_⟩, ?_,
    fun p u i r h => by simp [hown] at h⟩
  · simp [hm, page, bare, PageStore.get, PageStore.empty, Page.declared]
  · exact ⟨fun h => by simp [hown] at h, fun h => by simp [hown] at h, fun h => by simp [hown] at h,
      fun h => by simp [hown] at h, fun h => by simp [hown] at h, fun h => by simp [hown] at h,
      fun h => by simp [hown] at h⟩
  · refine ⟨fun p u => by rw [hmapping, hown]; rfl, fun p u _ => ?_, fun f p i => ?_, ?_, ?_, fun c => ?_,
      fun c hc => by simp [hcell] at hc, hinUse⟩
    · show (m.process p).table.isDirty u = false
      rw [hprocess]
      exact PageTable.isDirty_empty _
    all_goals simp [htenants, hown, hcell]
  · exact ⟨fun s => by simp [hslot, hown], fun h => by simp [hown] at h,
      fun s hs => by simp [hslot] at hs⟩
  · exact fun p u i h => by simp [hown] at h
  · exact ⟨fun h => by simp [hlive] at h, fun h => by simp [hlive] at h, fun h => by simp [hlive] at h,
      fun h => by simp [hlive] at h⟩

omit [FileSystem φ] in
/-- A machine that has just started is steady. -/
theorem steady_of_start {frames base : Nat} {pool : Pool} {refuses : Nat → Bool} {files : φ}
    {devices : Registry} (hcreate : Pool.create frames base = .ok pool)
    (hsizes : ∀ d ∈ devices.devices, d.size < Swap.sectorLimit)
    (hrun : Kernel.start { bare ⟨pool, 0, refuses⟩ files with devices } = .ok () m) : m.Steady := by
  refine Kernel.Ends.of_ok (Q := fun _ m => m.Steady) (E := fun _ _ => True) ?_ hrun
  simp only [Kernel.start, Kernel.attachSwap, Kernel.ends_bind, Kernel.ends_get]
  cases hattach : Swap.attach devices with
  | error e => trivial
  | ok x =>
    obtain ⟨d, swap⟩ := x
    obtain ⟨hd, hrole, hused⟩ := Swap.attach_eq_ok hattach
    have hsized : swap.used.Sized := hused ▸ Bitmap.sized_ofLength _
    have hunused : ∀ s, swap.used.bit s = false := fun s => hused ▸ Bitmap.bit_ofLength _ s
    have hspec : devices.spec swap.device = some (.swap, d.size, d.disk.sectors.size) := by
      rw [Registry.spec, hd, Option.map_some, hrole]
    have hslots : swap.slots = d.size / sectorsPerPage := by
      rw [Swap.slots, hused]
      rfl
    have hlimit : d.size ≤ Swap.sectorLimit := Nat.le_of_lt (hsizes d (Array.mem_of_getElem? hd))
    simp only [Kernel.ends_bind, Kernel.ends_modify, Kernel.ends_emit]
    exact steady_of_empty (Pool.inUse_create hcreate) (Pool.lent_create hcreate) hsized hunused
      ⟨d.size, d.disk.sectors.size, hspec, hslots, hlimit⟩

omit [FileSystem φ] in
/-- A machine that has just started has no pages. -/
theorem declaredAt_of_start {pool : Pool} {refuses : Nat → Bool} {files : φ}
    {devices : Registry}
    (hrun : Kernel.start { bare ⟨pool, 0, refuses⟩ files with devices } = .ok () m) (p : ProcId)
    (u : Nat) : m.declaredAt p u = none := by
  refine Kernel.Ends.of_ok (Q := fun _ m => m.declaredAt p u = none) (E := fun _ _ => True) ?_ hrun
  simp only [Kernel.start, Kernel.attachSwap, Kernel.ends_bind, Kernel.ends_get]
  split
  · trivial
  · simp only [Kernel.ends_bind, Kernel.ends_modify, Kernel.ends_emit]
    exact Std.ExtTreeMap.getElem?_empty

omit [FileSystem φ] in
theorem Settled.shows_spawn {held : Set PageId} (h : m.Settled held) (pid : UInt16)
    (limit : Option Nat) : Shows { m with processes := m.processes.push (.fresh pid limit) }
      (m.scene.setExited m.processes.size false) held :=
  ⟨view_spawn pid limit, h.shows.fit.congr rfl rfl rfl⟩

/-- A process that starts has nothing yet. -/
theorem Settled.spawn {held : Set PageId} (h : m.Settled held) (pid : UInt16) (limit : Option Nat) :
    Settled { m with processes := m.processes.push (.fresh pid limit) } held := by
  have heffect := Effect.spawn (v := m.scene) (p := m.processes.size)
  exact (h.shows_spawn pid limit).settled (heffect.sound h.sound) rfl
    (heffect.charted trivial h.sound h.charted)
    ((heffect.backs trivial (by simp) h.sound).listed h.listed)

omit [FileSystem φ] in
theorem Steady.shows_spawn (h : m.Steady) (pid : UInt16) (limit : Option Nat) :
    Shows { m with processes := m.processes.push (.fresh pid limit) }
      (m.scene.setExited m.processes.size false) ∅ :=
  (steady_iff.1 h).shows_spawn pid limit

theorem Steady.spawn (h : m.Steady) (pid : UInt16) (limit : Option Nat) :
    Steady { m with processes := m.processes.push (.fresh pid limit) } :=
  steady_iff.2 ((steady_iff.1 h).spawn pid limit)

end Machine

open Machine Kernel

/-- Every machine of a run is steady. -/
theorem Reachable.steady {m : Machine φ} (h : Reachable m) : m.Steady := by
  induction h with
  | start create sizes run => exact steady_of_start create sizes run
  | spawn _ run ih =>
    obtain ⟨-, rfl⟩ := EStateM.Result.ok.inj run
    exact ih.spawn _ _
  | perform _ run ih => exact ((ends_perform ih _ _).of_ok run).steady

/-- What a part of an operation leads to is reachable as well. -/
theorem Kernel.Parts.reachable {m m' : Machine φ} {op : Op} {p : ProcId} (h : Parts op p m m')
    (hm : Reachable m) : Reachable m' := by
  induction h with
  | refl => exact hm
  | tail _ hstep ih =>
    obtain ⟨o, answer, -, hrun⟩ := hstep
    exact .perform ih hrun

/-! ### Runs that can be computed -/

/-- The machine after the operations of a list, one after the other, if none of them stops it. -/
def Machine.run : List (ProcId × Op) → Machine φ → Option (Machine φ)
  | [], m => some m
  | (p, op) :: ops, m =>
    match perform p op m with
    | .ok _ m' => m'.run ops
    | .error _ _ => none

/-- A machine of `frames` frames and `slots` slots with two processes. -/
def boot (frames slots : Nat) (files : φ) : Option (Machine φ) :=
  match Pool.create frames 0 with
  | .error _ => none
  | .ok pool =>
    let devices := Registry.empty.register .swap "swap" (slots * sectorsPerPage % Swap.sectorLimit)
      (.blank (slots * sectorsPerPage))
    match (do Kernel.start; let _ ← Kernel.spawn 1 none; let _ ← Kernel.spawn 2 none)
      { Machine.bare (.always pool) files with devices } with
    | .ok _ m => some m
    | .error _ _ => none

theorem Reachable.run : ∀ {ops : List (ProcId × Op)} {m m' : Machine φ}, Reachable m →
    m.run ops = some m' → Reachable m' ∧ m'.plant = m.plant
  | [], m, m', h, hrun => by
    obtain rfl := Option.some.inj hrun
    exact ⟨h, rfl⟩
  | (p, op) :: ops, m, m', h, hrun => by
    rw [Machine.run] at hrun
    split at hrun
    · rename_i answer m₁ hperform
      have hdone := (ends_perform h.steady p op).of_ok hperform
      obtain ⟨hreach, hplant⟩ := Reachable.run (.perform h hperform) hrun
      exact ⟨hreach, hplant.trans hdone.does.path.plant⟩
    · simp at hrun

omit [FileSystem φ] in
/-- The devices of a machine that is booted. -/
def bootDevices (slots : Nat) : Registry :=
  Registry.empty.register .swap "swap" (slots * sectorsPerPage % Swap.sectorLimit)
    (.blank (slots * sectorsPerPage))

theorem size_lt_of_mem_bootDevices {slots : Nat} {d : Device} (hd : d ∈ (bootDevices slots).devices) :
    d.size < Swap.sectorLimit := by
  simp only [bootDevices, Registry.register, Registry.empty, List.push_toArray, List.nil_append,
    List.mem_toArray, List.mem_singleton] at hd
  rw [hd]
  exact Nat.mod_lt _ (by decide)

omit [FileSystem φ] in
/-- A machine that is booted starts, and then its two processes do. -/
theorem exists_of_boot {frames slots : Nat} {files : φ} {m : Machine φ} (h : boot frames slots files = some m) :
    ∃ pool m₁ p m₂ p', Pool.create frames 0 = .ok pool ∧
      Kernel.start { Machine.bare (.always pool) files with devices := bootDevices slots } = .ok () m₁ ∧
      Kernel.spawn 1 none m₁ = .ok p m₂ ∧ Kernel.spawn 2 none m₂ = .ok p' m := by
  rw [boot] at h
  split at h
  · simp at h
  rename_i pool hcreate
  simp only [bind, EStateM.bind] at h
  split at h
  · rename_i hrun
    obtain rfl := Option.some.inj h
    split at hrun
    · rename_i m₁ hstart
      obtain ⟨-, rfl⟩ := EStateM.Result.ok.inj hrun
      exact ⟨pool, m₁, _, _, _, hcreate, hstart, rfl, rfl⟩
    · simp at hrun
  · simp at h

omit [FileSystem φ] in
/-- What holds of a machine that has started, and goes on to hold when a process starts. -/
theorem boot_induction {P : Machine φ → Prop} {frames slots : Nat} {files : φ} {m : Machine φ}
    (hstart : ∀ {pool : Pool} {devices : Registry} {m : Machine φ}, Pool.create frames 0 = .ok pool →
      (∀ d ∈ devices.devices, d.size < Swap.sectorLimit) →
      Kernel.start { Machine.bare (.always pool) files with devices } = .ok () m → P m)
    (hspawn : ∀ {m m' : Machine φ} {pid : UInt16} {p : ProcId}, P m →
      Kernel.spawn pid none m = .ok p m' → P m')
    (h : boot frames slots files = some m) : P m := by
  obtain ⟨pool, m₁, p, m₂, p', hcreate, hrun, hspawn₁, hspawn₂⟩ := exists_of_boot h
  exact hspawn (hspawn (hstart hcreate (fun _ => size_lt_of_mem_bootDevices) hrun) hspawn₁) hspawn₂

theorem Reachable.boot {frames slots : Nat} {files : φ} {m : Machine φ}
    (h : boot frames slots files = some m) : Reachable m ∧ ∀ n, m.plant.refuses n = false := by
  refine boot_induction (P := fun m => Reachable m ∧ ∀ n, m.plant.refuses n = false) ?_ ?_ h
  · intro pool devices m hcreate hsizes hrun
    refine ⟨.start hcreate hsizes hrun, ?_⟩
    refine Ends.of_ok (Q := fun _ m => ∀ n, m.plant.refuses n = false) (E := fun _ _ => True) ?_ hrun
    simp only [Kernel.start, attachSwap, ends_bind, ends_get]
    split
    · trivial
    · exact fun _ => rfl
  · rintro m m' pid p ⟨hreach, hopen⟩ hrun
    refine ⟨.spawn hreach hrun, ?_⟩
    obtain ⟨-, rfl⟩ := EStateM.Result.ok.inj hrun
    exact hopen

/-- A run that can be computed ends in a machine that can be reached. -/
theorem exists_reachable (frames slots : Nat) (files : φ) (ops : List (ProcId × Op))
    (P : Machine φ → Bool) (h : ((boot frames slots files).bind (·.run ops)).any P = true) :
    ∃ m, Reachable m ∧ (∀ n, m.allocator.refuses n = false) ∧ P m = true := by
  obtain ⟨m, hm, hP⟩ := (Option.any_eq_true _ _).1 h
  obtain ⟨m₀, hboot, hrun⟩ := Option.bind_eq_some_iff.1 hm
  obtain ⟨hreach₀, hopen⟩ := Reachable.boot hboot
  obtain ⟨hreach, hplant⟩ := hreach₀.run hrun
  refine ⟨m, hreach, fun n => ?_, hP⟩
  rw [← hopen n, ← hplant]
  rfl

/-- Whether the program returns from `m`, with a value and a machine that pass `P`. -/
def Kernel.check {α : Type} (x : Kernel φ α) (P : α → Machine φ → Bool) (m : Machine φ) : Bool :=
  match x m with
  | .ok a m' => P a m'
  | .error _ _ => false

omit [FileSystem φ] in
theorem Kernel.exists_of_check {α : Type} {x : Kernel φ α} {P : α → Machine φ → Bool} {m : Machine φ}
    (h : check x P m = true) : ∃ a m', x m = .ok a m' ∧ P a m' = true := by
  rw [check] at h
  split at h
  · exact ⟨_, _, ‹_›, h⟩
  · simp at h

/-- The number of the mapping that has been made. -/
def Answer.mapping? : Answer → Option Nat
  | .mapping id => some id
  | _ => none

/-- The bytes that have been read. -/
def Answer.bytes? : Answer → Option (List UInt8)
  | .loaded bytes _ => some bytes
  | _ => none

theorem Answer.eq_of_mapping? {answer : Answer} {id : Nat} (h : answer.mapping? = some id) :
    answer = .mapping id := by
  cases answer <;> simp_all [mapping?]

theorem Answer.exists_of_bytes? {answer : Answer} {bytes : List UInt8} (h : answer.bytes? = some bytes) :
    ∃ fault, answer = .loaded bytes fault := by
  cases answer <;> simp_all [bytes?]

end DemandPaging
