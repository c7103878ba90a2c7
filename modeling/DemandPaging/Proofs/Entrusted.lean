import DemandPaging.Proofs.Lifetimes

/-!
# Handles on loan

Callers open files and pass their handles in; the machine opens others from them. Whatever the processes
do, and whatever the file system answers: a handle that the machine has opened is closed once, when its
mapping is released or within the attempt to map that it was opened for, and it is not used afterwards.
The handles of callers are never closed. So the handles that have been opened and not closed are those of
the live mappings.
-/

namespace DemandPaging

variable {φ : Type}

theorem Silent.nodup_closings {calls : List FileCall} (h : Silent calls) : (closings calls).Nodup := by
  refine List.Pairwise.filterMap _ (fun c c' hcc h₁ hh₁ h₂ hh₂ heq => ?_) h
  subst heq
  cases c' with
  | close x => exact hcc (hh₁.trans hh₂.symm)
  | _ => simp [FileCall.closes?] at hh₂

theorem Journal.Turns.trans {j j' j'' : Journal φ} {opened opened' closed closed' : List Handle}
    (h : j.Turns opened closed j') (h' : j'.Turns opened' closed' j'') :
    j.Turns (opened ++ opened') (closed ++ closed') j'' :=
  ⟨by rw [h'.opened, h.opened, List.append_assoc], by rw [h'.closed, h.closed, List.append_assoc], h'.silent⟩

namespace Machine

/-- The live mappings with their numbers, process by process. -/
def liveMappings (m : Machine φ) : List (Nat × Mapping) :=
  (List.range m.processes.size).flatMap fun p => (m.process p).mappings.live.toList

/-- The handles of the live mappings. -/
def liveHandles (m : Machine φ) : List Handle := m.liveMappings.map fun x => x.2.file

theorem mem_liveHandles {m : Machine φ} {h : Handle} : h ∈ m.liveHandles ↔ h ∈ m.scene.handles := by
  simp only [liveHandles, liveMappings, List.mem_map, List.mem_flatMap, List.mem_range, Prod.exists, View.handles,
    Set.mem_ofPred_eq, Std.ExtTreeMap.mem_toList_iff_getElem?_eq_some]
  constructor
  · rintro ⟨k, mp, ⟨p, -, hk⟩, rfl⟩
    exact ⟨p, k, mp, hk, rfl⟩
  · rintro ⟨p, k, mp, hk, rfl⟩
    refine ⟨k, mp, ⟨p, Nat.lt_of_not_le fun hle => ?_, hk⟩, rfl⟩
    rw [show (m.scene.mappings p).live = (Process.absent).mappings.live by rw [← process_of_le hle]; rfl] at hk
    exact absurd hk (by simp [Process.absent, Process.fresh, MapTable.empty])

variable {m m' : Machine (Journal φ)} {given : Set Handle} {p : ProcId}

theorem Kept.nodup_liveHandles (h : m.Kept given) : m.liveHandles.Nodup := by
  have hget : ∀ {p} {x : Nat × Mapping}, x ∈ (m.process p).mappings.live.toList →
      (m.scene.mappings p).live[x.1]? = some x.2 := fun hx =>
    Std.ExtTreeMap.mem_toList_iff_getElem?_eq_some.1 hx
  rw [liveHandles, liveMappings, List.map_flatMap]
  refine List.nodup_flatMap.2 ⟨fun p _ => ?_, ?_⟩
  · refine List.pairwise_map.2 (List.Pairwise.imp_of_mem ?_
      (Std.ExtTreeMap.distinct_keys_toList (t := (m.process p).mappings.live)))
    intro x y hx hy hne heq
    exact hne (by simpa using (h.bound.apart (hget hx) (hget hy) heq).2)
  · refine List.Pairwise.imp ?_ List.nodup_range
    intro p q hne x hx hy
    obtain ⟨y, hmem, rfl⟩ := List.mem_map.1 hx
    obtain ⟨z, hmem', heq⟩ := List.mem_map.1 hy
    exact hne (h.bound.apart (hget hmem) (hget hmem') heq.symm).1

end Machine

namespace Kernel

open Machine View

variable [FileSystem φ] {m m' : Machine (Journal φ)} {given : Set Handle} {p : ProcId} {op o : Op}

/-- The parts of an operation neither make nor release mappings, and are passed no handles. -/
theorem ends_execute_of_part (h : m.Kept given) (hlive : m.scene.exited p = false) (ho : op.Part o) :
    Ends (execute p o) m (fun _ m' => m'.Kept given ∧ m.files.Turns [] [] m'.files)
      fun _ m' => m.files.Turns [] [] m'.files := by
  have hremaps : o.remaps = false := by
    cases o <;> first | rfl | exact ho.elim
  exact ends_execute_of_kept h (fun _ => hlive) (basic_of_part ho) hremaps (by simp [handles_of_part ho])

theorem Stages.kept (h : Stages op p m m') (hm : m.Kept given) (hlive : m.scene.exited p = false) :
    m'.Kept given ∧ m.files.Turns [] [] m'.files := by
  induction h with
  | refl => exact ⟨hm, by simp, by simp, hm.ledger.silent⟩
  | tail hstages hstep ih =>
    obtain ⟨o, answer, ho, hrun⟩ := hstep
    obtain ⟨hkept, hturns⟩ := ih
    obtain ⟨-, -, hexited⟩ := Stages.settled hstages hm.settled hlive
    obtain ⟨hkept', hturns'⟩ := (ends_execute_of_part hkept (by rw [hexited, hlive]) ho).of_ok hrun
    exact ⟨hkept', hturns.trans hturns'⟩

/-- An operation that is made up of others leaves the mappings with their handles. -/
theorem ends_execute_of_stages (h : m.Kept given) (hlive : m.scene.exited p = false) (hop : op.basic = false) :
    Ends (execute p op) m (fun _ m' => m'.Kept given ∧ m.files.Turns [] [] m'.files)
      fun _ m' => m.files.Turns [] [] m'.files := by
  refine (staged_execute h.settled hlive hop).imp (fun _ _ hdone => hdone.1.kept h hlive) fun e m' hstop => ?_
  obtain ⟨m₁, o, hstages, ho, hrun⟩ := hstop.resolve_right Set.not_nonempty_empty
  obtain ⟨hkept, hturns⟩ := hstages.kept h hlive
  obtain ⟨-, -, hexited⟩ := hstages.settled h.settled hlive
  exact hturns.trans ((ends_execute_of_part hkept (by rw [hexited, hlive]) ho).of_error hrun)

/-- Every operation accounts for the handles that it opens and closes. -/
theorem ends_perform_of_kept (h : m.Kept given) (hhandles : ∀ h ∈ op.handles, h ∈ given) :
    Ends (perform p op) m (fun answer m' => m'.Kept given ∧ ∃ opened closed,
      m.files.Turns opened closed m'.files ∧ op.Accounts p m answer m' opened closed)
      fun _ m' => m.files.Turns [] [] m'.files := by
  rw [ends_perform_iff (steady_iff.2 h.settled)]
  split
  · have hnone : op.Accounts p m .exited m [] [] := by
      cases op with
      | mmap => exact .inr ⟨by simp, rfl⟩
      | munmap | exit => exact ⟨rfl, .inl ⟨rfl, rfl⟩⟩
      | _ => exact ⟨rfl, rfl⟩
    exact ⟨h, [], [], ⟨by simp, by simp, h.ledger.silent⟩, hnone⟩
  rename_i hexited
  have hlive : op.onTable = false → m.scene.exited p = false := fun htable => by simpa [htable] using hexited
  cases hop : op.basic with
  | false =>
    have hlive' := hlive (by cases op <;> first | rfl | simp [Op.basic] at hop)
    refine (ends_execute_of_stages h hlive' hop).returns fun answer m' hdone => ⟨hdone.1, [], [], hdone.2, ?_⟩
    cases op <;> first | exact ⟨rfl, rfl⟩ | simp [Op.basic] at hop
  | true =>
    cases hremaps : op.remaps with
    | false =>
      refine (ends_execute_of_kept h hlive hop hremaps hhandles).returns fun answer m' hdone =>
        ⟨hdone.1, [], [], hdone.2, ?_⟩
      cases op <;> first | exact ⟨rfl, rfl⟩ | simp [Op.remaps] at hremaps
    | true =>
      cases op with
      | mmap file a => exact ends_mmap_of_kept h (hlive rfl) (hhandles _ List.mem_cons_self) a
      | munmap id =>
        exact (ends_munmap_of_kept h (hlive rfl) id).returns fun answer m' hdone =>
          ⟨hdone.2.1, [], _, hdone.2.2, rfl, .inr ⟨hdone.1, rfl⟩⟩
      | exit =>
        exact (ends_exit_of_kept h (hlive rfl)).returns fun answer m' hdone =>
          ⟨hdone.2.1, [], _, hdone.2.2, rfl, .inr ⟨hdone.1, rfl⟩⟩
      | _ => simp [Op.remaps] at hremaps

end Kernel

/-- The machines that a run can come to, between operations, while callers open the handles in `given`.
The file system keeps a journal from the start on. -/
inductive Entrusted [FileSystem φ] : Set Handle → Machine (Journal φ) → Prop
  | start {frames base : Nat} {pool : Pool} {refuses : Nat → Bool} {inner : φ} {devices : Registry}
      {m : Machine (Journal φ)} (create : Pool.create frames base = .ok pool)
      (sizes : ∀ d ∈ devices.devices, d.size < Swap.sectorLimit)
      (run : Kernel.start { Machine.bare ⟨pool, 0, refuses⟩ (Journal.start inner) with devices } = .ok () m) :
      Entrusted ∅ m
  | spawn {given : Set Handle} {m m' : Machine (Journal φ)} {pid : UInt16} {limit : Option Nat} {p : ProcId}
      (reach : Entrusted given m) (run : Kernel.spawn pid limit m = .ok p m') : Entrusted given m'
  /-- A caller opens a file. -/
  | give {given : Set Handle} {m : Machine (Journal φ)} (reach : Entrusted given m) (inner : Handle) :
      Entrusted (insert (m.files.adopt inner).1 given) (m.withFiles (m.files.adopt inner).2)
  /-- An operation is passed handles that callers have opened. -/
  | perform {given : Set Handle} {m m' : Machine (Journal φ)} {p : ProcId} {op : Op} {answer : Answer}
      (reach : Entrusted given m) (known : ∀ h ∈ op.handles, h ∈ given)
      (run : Kernel.perform p op m = .ok answer m') : Entrusted given m'

open Machine Kernel

variable [FileSystem φ] {m m' : Machine (Journal φ)} {given : Set Handle}

omit [FileSystem φ] in
theorem kept_of_start {pool : Pool} {refuses : Nat → Bool} {inner : φ} {devices : Registry} (hsteady : m.Steady)
    (hrun : Kernel.start { Machine.bare ⟨pool, 0, refuses⟩ (Journal.start inner) with devices } = .ok () m) :
    m.Kept ∅ := by
  have hfresh : m.processes = #[] ∧ m.files = Journal.start inner := by
    refine Ends.of_ok (Q := fun _ m => m.processes = #[] ∧ m.files = Journal.start inner)
      (E := fun _ _ => True) ?_ hrun
    simp only [Kernel.start, attachSwap, ends_bind, ends_get]
    split
    · trivial
    · simp only [ends_bind, ends_modify, ends_emit]
      exact ⟨rfl, rfl⟩
  have habsent : ∀ p, m.process p = .absent := fun p => process_of_le (by rw [hfresh.1]; exact Nat.zero_le _)
  have hlive : ∀ p (k : Nat), (m.scene.mappings p).live[k]? = none := fun p k => by
    show (m.process p).mappings.live[k]? = none
    rw [habsent]
    exact Std.ExtTreeMap.getElem?_empty
  have hhandles : m.scene.handles = ∅ := Set.eq_empty_of_forall_notMem fun x hx => by
    obtain ⟨p, k, mp, hk, -⟩ := hx
    simp [hlive] at hk
  refine ⟨steady_iff.1 hsteady, ⟨fun {p u i r} hi _ => ?_, fun hk => by simp [hlive] at hk⟩, ?_⟩
  · have hnone : m.declaredAt p u = none := declaredAt_of_start hrun p u
    simp [show m.declaredAt p u = some i from hi] at hnone
  · rw [hhandles, hfresh.2]
    exact .nil

theorem Entrusted.kept (h : Entrusted given m) : m.Kept given := by
  induction h with
  | start create sizes run => exact kept_of_start (steady_of_start create sizes run) run
  | @spawn given m m' pid limit p reach run ih =>
    obtain ⟨-, rfl⟩ := EStateM.Result.ok.inj run
    have hscene := (ih.settled.shows_spawn pid limit).eq_scene rfl
    refine ⟨ih.settled.spawn pid limit, ?_, ?_⟩
    · rw [← hscene]
      exact ⟨fun hi hr => ih.bound.given hi hr, fun hk hl => ih.bound.apart hk hl⟩
    · rw [← hscene]
      exact ih.ledger
  | @give given m reach inner ih =>
    have hshows := ih.settled.shows.setFiles (m.files.adopt inner).2
    have hscene := hshows.eq_scene rfl
    refine ⟨hshows.settled (ih.settled.sound.setFiles _) rfl (ih.settled.charted.congr rfl fun hi hr => ⟨hi, hr⟩)
      (ih.settled.listed.congr rfl fun hi hr => ⟨hi, hr⟩), ?_, ?_⟩
    · rw [← hscene]
      exact ⟨fun hi hr => .inr (ih.bound.given hi hr), fun hk hl => ih.bound.apart hk hl⟩
    · rw [← hscene, show (m.withFiles (m.files.adopt inner).2).files.opened.size = m.files.opened.size + 1 from
        Array.size_push _]
      exact ih.ledger.give
  | perform _ known run ih => exact ((ends_perform_of_kept ih known).of_ok run).1

/-- The handles are in good hands. -/
structure Machine.TendsHandles (given : Set Handle) (m : Machine (Journal φ)) : Prop where
  /-- As many more handles have been opened than closed as mappings are live. -/
  balance : (openings m.files.calls.toList).length =
    (closings m.files.calls.toList).length + m.liveMappings.length
  /-- Whatever has been closed was opened by the machine. -/
  opened : ∀ h ∈ closings m.files.calls.toList, h ∈ openings m.files.calls.toList
  nodup_openings : (openings m.files.calls.toList).Nodup
  nodup_closings : (closings m.files.calls.toList).Nodup
  /-- A handle has been closed unless it is that of a live mapping. -/
  closed : ∀ h ∈ openings m.files.calls.toList, h ∈ closings m.files.calls.toList ↔ h ∉ m.liveHandles
  silent : Silent m.files.calls.toList
  callers : ∀ h ∈ given, h ∉ closings m.files.calls.toList
  /-- Every operation accounts for the handles that it opens and closes; one that stops the machine opens
  and closes none, and uses none that is closed. -/
  step : ∀ p op, (∀ h ∈ op.handles, h ∈ given) →
    Ends (perform p op) m (fun answer m' => ∃ opened closed,
      m.files.Turns opened closed m'.files ∧ op.Accounts p m answer m' opened closed)
      fun _ m' => m.files.Turns [] [] m'.files

/-- In every run, the handles that the machine opens are closed once and not used afterwards, and those of
callers are not closed. -/
theorem Entrusted.tends_handles (h : Entrusted given m) : m.TendsHandles given := by
  have hkept := h.kept
  have hledger := hkept.ledger
  have hperm : (openings m.files.calls.toList).Perm (closings m.files.calls.toList ++ m.liveHandles) := by
    refine (List.perm_ext_iff_of_nodup hledger.nodup (List.nodup_append.2
      ⟨hledger.silent.nodup_closings, hkept.nodup_liveHandles, fun x hx y hy hxy => ?_⟩)).2 fun x => ?_
    · exact ((hledger.live y).1 (mem_liveHandles.1 hy)).2 (hxy ▸ hx)
    · rw [List.mem_append, mem_liveHandles, hledger.live]
      constructor
      · intro hx
        by_cases hc : x ∈ closings m.files.calls.toList
        · exact .inl hc
        · exact .inr ⟨hx, hc⟩
      · rintro (hc | ⟨hx, -⟩)
        · exact hledger.opened x hc
        · exact hx
  refine ⟨?_, hledger.opened, hledger.nodup, hledger.silent.nodup_closings, fun x hx => ?_, hledger.silent,
    fun x hx => hledger.notMem_closings (.inl hx), fun p op hknown => ?_⟩
  · rw [hperm.length_eq, List.length_append, liveHandles, List.length_map]
  · rw [mem_liveHandles, hledger.live, not_and, not_not]
    exact ⟨fun hc _ => hc, fun hc => hc hx⟩
  · exact (ends_perform_of_kept hkept hknown).returns fun _ _ hdone => hdone.2

theorem Entrusted.run : ∀ {ops : List (ProcId × Op)} {m m' : Machine (Journal φ)}, Entrusted given m →
    (∀ x ∈ ops, ∀ h ∈ x.2.handles, h ∈ given) → m.run ops = some m' → Entrusted given m'
  | [], m, m', h, _, hrun => Option.some.inj hrun ▸ h
  | (p, op) :: ops, m, m', h, hknown, hrun => by
    rw [Machine.run] at hrun
    split at hrun
    · rename_i answer m₁ hperform
      exact (h.perform (hknown _ List.mem_cons_self) hperform).run
        (fun x hx => hknown x (List.mem_cons_of_mem _ hx)) hrun
    · simp at hrun

theorem Entrusted.boot {frames slots : Nat} {inner : φ} (h : boot frames slots (.start inner) = some m) :
    Entrusted ∅ m := by
  refine boot_induction (P := Entrusted ∅) (fun {pool devices m} hcreate hsizes hrun => ?_)
    (fun hreach hrun => .spawn hreach hrun) h
  exact .start hcreate hsizes hrun

/-- A file is mapped, and mapped again at the same place, in vain. A page is stored to and evicted; the
mapping is released, and the file is mapped once more. -/
theorem tends_handles_of_remapped : ∃ m : Machine (Journal MemoryFiles), Entrusted {0} m ∧
    openings m.files.calls.toList = [1, 2, 3] ∧ closings m.files.calls.toList = [2, 1] ∧
    m.liveHandles = [3] ∧ (m.files.calls.toList.filter FileCall.isWrite).map (·.handle) = [1] ∧
    m.TendsHandles {0} := by
  let ops : List (ProcId × Op) := [(0, .mmap 0 0x10000000), (1, .mmap 0 0), (0, .mmap 0 0x10000000),
    (0, .resolve 0x10000000), (0, .store 0x10000001 [7]), (1, .growStack 0x7ffff000), (0, .munmap 0),
    (1, .mmap 0 0x10000000)]
  have hrun : ((boot 1 2 (.start ⟨#[⟨[1, 2, 3], none, none⟩]⟩ : Journal MemoryFiles)).bind fun m =>
      if m.files.opened.size = 0 then (m.withFiles (m.files.adopt 0).2).run ops else none).any (fun m =>
        openings m.files.calls.toList == [1, 2, 3] && closings m.files.calls.toList == [2, 1] &&
        m.liveHandles == [3] && (m.files.calls.toList.filter FileCall.isWrite).map (·.handle) == [1]) = true := by
    decide +kernel
  obtain ⟨m, hm, hP⟩ := (Option.any_eq_true _ _).1 hrun
  obtain ⟨m₀, hboot, hm⟩ := Option.bind_eq_some_iff.1 hm
  split at hm
  · rename_i hsize
    have hgiven := (Entrusted.boot hboot).give 0
    rw [show (m₀.files.adopt 0).1 = 0 from hsize, insert_empty_eq] at hgiven
    have hentrusted : Entrusted {0} m := hgiven.run (by decide) hm
    simp only [Bool.and_eq_true, beq_iff_eq] at hP
    exact ⟨m, hentrusted, hP.1.1.1, hP.1.1.2, hP.1.2, hP.2, hentrusted.tends_handles⟩
  · simp at hm

end DemandPaging
