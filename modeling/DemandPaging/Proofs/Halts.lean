import DemandPaging.File.Memory
import DemandPaging.Proofs.Reachable

/-!
# What stops a machine

When memory and the swap device are what they are said to be, one thing can stop a machine: a page
has to be evicted and swap space is full. Then every slot holds a page of a live process.
-/

namespace DemandPaging

/-- The addresses that an operation uses directly are machine words. -/
def Op.InWords : Op → Prop
  | load a _ | store a _ | userLoad a .. | userStore a .. => a < wordLimit
  | _ => True

theorem Op.InWords.not_late {op : Op} (h : op.InWords) : ¬ op.Late := by
  cases op <;> first | exact Nat.not_le.2 h | exact id

namespace Machine

variable {φ : Type}

/-- There is memory, and no request for it is turned down while a frame is free. -/
structure Supplied (m : Machine φ) : Prop where
  frames : 0 < m.pool.total
  granted : ∀ n, m.allocator.refuses n = false
  /-- The frame numbers fit into the entries of page tables. -/
  pfn : m.pool.firstPfn + m.pool.total ≤ PageTable.Entry.pfnLimit
  /-- The swap device has all the sectors that it is registered with. -/
  sectors : ∀ d, m.devices.device? m.swap.device = some d → d.size ≤ d.disk.sectors.size

end Machine

open Machine Kernel

variable {φ : Type} [FileSystem φ] {m : Machine φ}

/-- Every operation returns, unless a page has to be evicted while every slot holds a page of a live
process. -/
theorem Reachable.returns_or_swapFull (h : Reachable m) (hm : m.Supplied) (p : ProcId) (op : Op)
    (hop : op.InWords) :
    Ends (Kernel.perform p op) m (fun _ _ => True) fun e m' =>
      e = .halt (.swap (.full m.swap.slots)) ∧ m'.Evicting ∧ m'.SwapFull := by
  have hopen : m.plant.Open := ⟨hm.frames, hm.granted⟩
  have hwhole : m.plant.Whole := by
    intro role size sectors hdisk
    obtain ⟨d, hd, heq⟩ := Option.map_eq_some_iff.1 hdisk
    simp only [Prod.mk.injEq] at heq
    obtain ⟨-, rfl, rfl⟩ := heq
    exact hm.sectors d hd
  refine (ends_perform h.steady p op).imp (fun _ _ _ => trivial) ?_
  intro e m' hexcused
  cases e with
  | wait => exact hexcused.elim
  | halt cause =>
    cases cause with
    | pool | untracked | notPinned | pastFrame => exact hexcused.elim
    | allPinned | shortage => exact absurd hopen hexcused
    | table e =>
      cases e with
      | wideFrame => exact absurd hexcused (Nat.not_lt.2 hm.pfn)
      | pastEnd => exact absurd hexcused hop.not_late
      | _ => exact hexcused.elim
    | swap e =>
      cases e with
      | full slots =>
        obtain ⟨rfl, hevicting, hfull⟩ := hexcused
        exact ⟨rfl, hevicting, hfull⟩
      | readRefused | writeRefused => exact absurd hwhole hexcused
      | _ => exact hexcused.elim

/-- With one frame and one slot, a third page of the stack finds swap space full. -/
theorem swapFull_of_third_page :
    ∃ m m' : Machine MemoryFiles, Reachable m ∧ m.Supplied ∧
      perform 0 (.growStack 0x7fffd000) m = .error (.halt (.swap (.full 1))) m' ∧
      m'.Evicting ∧ m'.SwapFull := by
  obtain ⟨m, hm, hopen, hP⟩ := exists_reachable 1 1 (⟨#[]⟩ : MemoryFiles)
    [(0, .growStack 0x7ffff000), (0, .growStack 0x7fffe000)]
    (fun m => m.pool.total == 1 && m.pool.firstPfn == 0 &&
      (m.devices.device? m.swap.device).all (fun d => d.size ≤ d.disk.sectors.size) &&
      match perform 0 (.growStack 0x7fffd000) m with
      | .ok .. => false
      | .error e _ => e == .halt (.swap (.full 1))) (by decide +kernel)
  simp only [Bool.and_eq_true, beq_iff_eq, Option.all_eq_true, decide_eq_true_eq] at hP
  obtain ⟨⟨⟨htotal, hfirst⟩, hsectors⟩, hrun⟩ := hP
  have hpfn : m.pool.firstPfn + m.pool.total ≤ PageTable.Entry.pfnLimit := by
    rw [hfirst, htotal]
    decide
  have hm' : m.Supplied := ⟨by omega, hopen, hpfn, hsectors⟩
  cases hperform : perform 0 (.growStack 0x7fffd000) m with
  | ok answer m' => simp [hperform] at hrun
  | error e m' =>
    have hends := hm.returns_or_swapFull hm' 0 (.growStack 0x7fffd000) trivial
    obtain ⟨-, hevicting, hfull⟩ := hends.of_error hperform
    rw [hperform] at hrun
    exact ⟨m, m', hm, hm', by rw [hperform, beq_iff_eq.1 hrun], hevicting, hfull⟩

end DemandPaging
