import DemandPaging.File.Memory
import DemandPaging.Proofs.Arrival

/-!
# The decision of a page fault

A fault is turned down for its address, for the page that is declared there, or because that page is in
memory already: `denial`. What any other fault comes to is decided once a frame has been found for the page,
by the read of its file and by the room that is left in the page table: `verdict`. When the fault is
resolved, its page alone has come into memory, and the access goes through if it is made again.
-/

namespace DemandPaging

namespace Machine

variable {φ : Type} {m m' n : Machine φ} {v : View φ} {held : Set PageId} {f : Frame} {p : ProcId}
  {i : PageId} {u a len esp : Nat} {write : Bool}

/-! ### An access that is made again -/

theorem lt_wordLimit_of_isUser (ha : isUser a = true) : a < wordLimit :=
  (isUser_iff.1 ha).2.trans (by decide)

theorem pageBase_within {k : Nat} (hle : len ≤ pageSize - pageOffset a) (hk : k < len) :
    pageBase (a + k) = pageBase a :=
  (pageBase_add_of_lt_inFirst (Nat.lt_min.2 ⟨hk, Nat.lt_of_lt_of_le hk hle⟩)).1

/-- A read within a page that is mapped goes through. -/
theorem Shows.load_within (h : m.Shows v held) (hv : v.Sound) (ha : isUser a = true) {r : PageTable.Rights}
    (hmapped : (m.process p).table.mapping? (pageBase a) = some (r, f))
    (hle : len ≤ pageSize - pageOffset a) :
    ∃ bytes m', Kernel.load p a len m = .ok (bytes, none) m' ∧ bytes.length = len := by
  refine Kernel.exists_load_of_mapped h hv (lt_wordLimit_of_isUser ha) fun k hk => ?_
  rw [pageBase_within hle hk, hmapped]
  rfl

/-- A write within a page that is mapped to be written goes through. -/
theorem Shows.store_within (h : m.Shows v held) (hv : v.Sound) (ha : isUser a = true) {r : PageTable.Rights}
    (hmapped : (m.process p).table.mapping? (pageBase a) = some (r, f)) (hr : r.writable = true)
    {data : List UInt8} (hle : data.length ≤ pageSize - pageOffset a) :
    ∃ m', Kernel.store p a data m = .ok none m' := by
  obtain ⟨k, hmarks⟩ := PageTable.exists_store_marks data (m.process p).table m.pool a
  have hmisuse := (h.proper hv p).store_trouble data _ m.pool a
  have htrouble : ((m.process p).table.store m.pool a data).trouble = none := by
    cases hres : ((m.process p).table.store m.pool a data).trouble with
    | none => rfl
    | some e =>
      rw [hres] at hmarks hmisuse
      cases e with
      | fault g =>
        obtain ⟨hk, -, -, hdenied⟩ := hmarks.fault g rfl
        rw [pageBase_within hle hk] at hdenied
        simpa [hr] using (hdenied r f hmapped).2
      | misuse e =>
        exact absurd (hmisuse e rfl).2 (Nat.not_le_of_lt (lt_wordLimit_of_isUser ha))
  refine ⟨m.afterStore p ((m.process p).table.store m.pool a data), Kernel.eq_ok_of_ends ?_⟩
  simp only [Kernel.store, Kernel.ends_bind, Kernel.ends_get, Kernel.ends_modify, Kernel.ends_modifyTable,
    htrouble, Kernel.ends_pure, true_and]
  rfl

/-! ### The decision -/

variable [FileSystem φ]

/-- What bringing in page `i` of process `p` at `u` comes to on machine `n`, which has a frame for it. -/
def landing (n : Machine φ) (p : ProcId) (u : Nat) (i : PageId) : Except PageError Unit :=
  let mapped := if (n.process p).table.full then .error (.mapFailed u) else .ok ()
  match (n.page i).slot, (n.page i).backing.region? with
  | none, some r =>
    let count := (FileSystem.readAt n.files r.file r.offset r.readLen).1.count
    if count ≠ r.readLen then .error (.shortRead r.readLen count) else mapped
  | _, _ => mapped

theorem landing_of_whole (hwhole : ∀ r count, n.ReadsIn i r count → count = r.readLen) :
    n.landing p u i = if (n.process p).table.full then .error (.mapFailed u) else .ok () := by
  rw [landing]
  split
  · rename_i r hslot hregion
    exact if_neg (Classical.not_not.2 (hwhole r _ ⟨hslot, hregion, rfl⟩))
  · rfl

theorem Arrives.eq_landing {result : Except PageError Unit} (h : n.Arrives p u i result m') :
    result = n.landing p u i := by
  cases h with
  | shortRead reads short =>
    obtain ⟨hslot, hregion, rfl⟩ := reads
    rw [landing, hslot, hregion]
    exact (if_pos short).symm
  | mapFailed whole full => rw [landing_of_whole whole, if_pos full]
  | arrived whole room => rw [landing_of_whole whole, room, if_neg (by simp)]

omit [FileSystem φ] in
/-- The error of a fault of process `p` at `a` that is turned down as things are on machine `m`, before a
frame is asked for. -/
def denial (m : Machine φ) (p : ProcId) (a esp : Nat) (write : Bool) : Option FaultError :=
  if isUser a = false then some (.notUser a)
  else match m.lookup p a with
    | some i =>
      if write = true ∧ (m.page i).writable = false then some (.readOnly a)
      else if (m.page i).resident = true then some (.pageIn a (.alreadyResident (pageBase a)))
      else none
    | none =>
      if esp ≤ min (a + stackSlack) (wordLimit - 1) ∧ userTop - pageBase a ≤ stackLimit then none
      else some (.unmapped a)

/-- What any other fault comes to, when `n` is the machine that has a frame for the page. -/
def verdict (m n : Machine φ) (p : ProcId) (a : Nat) : Except FaultError Unit :=
  match m.lookup p a with
  | some i => (n.landing p (pageBase a) i).mapError (.pageIn a)
  | none => if (n.process p).table.full then .error (.unmapped a) else .ok ()

/-- What a fault of process `p` at `a` has come to that is not turned down at once, when `n` is the machine
that has a frame for the page. -/
structure Decides (m : Machine φ) (p : ProcId) (a esp : Nat) (write : Bool) (n : Machine φ)
    (r : Except FaultError Unit) (m' : Machine φ) : Prop where
  admitted : m.denial p a esp write = none
  decision : r = m.verdict n p a
  /-- A declared page has come in, with the rights that it was declared with, and nothing else has. -/
  resolved : r = .ok () → ∀ i, m.lookup p a = some i → ∃ f b, n.incoming i = some b ∧
    n.Gains p (pageBase a) i f { m.page i with frame := some f, slot := none } b m' ∧
    m'.declaredAt = m.declaredAt
  /-- A zeroed page has been added to the stack, and nothing else has. -/
  grown : r = .ok () → m.lookup p a = none → ∃ f,
    n.Gains p (pageBase a) m.pages.next f { Page.declared (pageBase a) true .swap with frame := some f }
      (.zero pageSize) m' ∧
    m'.declaredAt = setAt m.declaredAt p (pageBase a) (some m.pages.next)
  /-- The same access goes through now, as far as it stays within the page. -/
  retried : r = .ok () →
    (write = false → ∀ len ≤ pageSize - pageOffset a, ∃ bytes m'',
      Kernel.load p a len m' = .ok (bytes, none) m'' ∧ bytes.length = len) ∧
    (write = true → ∀ data : List UInt8, data.length ≤ pageSize - pageOffset a →
      ∃ m'', Kernel.store p a data m' = .ok none m'')
  /-- Otherwise the frame has gone back, and no page is declared, comes in or is mapped. -/
  failed : ∀ e, r = .error e → m'.declaredAt = m.declaredAt ∧ ∃ f, n.Restores f m'

/-- What a fault of process `p` at `a` has come to: it has been turned down, and nothing has changed but the
log, or it has been decided on the machine that has a frame for the page. -/
inductive FaultsTo (m : Machine φ) (p : ProcId) (a esp : Nat) (write : Bool) :
    Except FaultError Unit → Machine φ → Prop
  | denied {e : FaultError} (denial : m.denial p a esp write = some e) (log : Array Event) :
      FaultsTo m p a esp write (.error e) { m with log }
  | decided {n m' : Machine φ} {r : Except FaultError Unit} (ready : m.Readies n)
      (decides : m.Decides p a esp write n r m') : FaultsTo m p a esp write r m'

omit [FileSystem φ] in
theorem isUser_of_admitted (h : m.denial p a esp write = none) : isUser a = true := by
  by_contra hno
  rw [denial, if_pos (by simpa using hno)] at h
  simp at h

/-- A fault that is resolved has not been turned down. -/
theorem FaultsTo.of_ok (h : m.FaultsTo p a esp write (.ok ()) m') :
    ∃ n, m.Readies n ∧ m.Decides p a esp write n (.ok ()) m' := by
  generalize hr : (Except.ok () : Except FaultError Unit) = r at h
  cases h with
  | denied => simp at hr
  | decided ready decides => exact ⟨_, ready, hr ▸ decides⟩

/-- A fault that comes to nothing after a frame has been taken. -/
theorem decides_of_restores {e : FaultError} (hready : m.Readies n)
    (hadmitted : m.denial p a esp write = none) (hverdict : m.verdict n p a = .error e) (h : n.Restores f m') :
    m.Decides p a esp write n (.error e) m' where
  admitted := hadmitted
  decision := hverdict.symm
  resolved h := by simp at h
  grown h := by simp at h
  retried h := by simp at h
  failed _ _ := by
    refine ⟨?_, f, h⟩
    have hdeclared : m'.declaredAt = n.declaredAt := by
      funext q x
      rw [declaredAt, Machine.process, h.processes]
      rfl
    exact hdeclared.trans hready.spares.declared

theorem FaultsTo.report {e : FaultError} (h : m.FaultsTo p a esp write (.error e) m') (ev : Event) :
    m.FaultsTo p a esp write (.error e) (m'.report ev) := by
  cases h with
  | denied denial => exact .denied denial _
  | decided ready decides =>
    refine .decided ready { decides with
      resolved := fun h => by simp at h, grown := fun h => by simp at h, retried := fun h => by simp at h,
      failed := fun e' he => ?_ }
    obtain ⟨hdeclared, f, hf⟩ := decides.failed e' he
    exact ⟨hdeclared, f, { hf with }⟩

omit [FileSystem φ] in
/-- Once its page has come in, the access goes through. -/
theorem Gains.retried {pg : Page} {b : PageBytes} (hgains : n.Gains p (pageBase a) i f pg b m')
    (h : m'.Shows v held) (hv : v.Sound) (ha : isUser a = true) (hw : write = true → pg.writable = true) :
    (write = false → ∀ len ≤ pageSize - pageOffset a, ∃ bytes m'',
      Kernel.load p a len m' = .ok (bytes, none) m'' ∧ bytes.length = len) ∧
    (write = true → ∀ data : List UInt8, data.length ≤ pageSize - pageOffset a →
      ∃ m'', Kernel.store p a data m' = .ok none m'') :=
  ⟨fun _ _ hlen => h.load_within hv ha hgains.mapping? hlen,
    fun hwrite _ hlen => h.store_within hv ha hgains.mapping? (hw hwrite) hlen⟩

end Machine

namespace Kernel

open Machine View

variable {φ : Type} [FileSystem φ] {m m' n : Machine φ} {v : View φ} {held : Set PageId} {p : ProcId}
  {i : PageId} {a esp : Nat} {write : Bool}

/-- A fault at a declared page that may be accessed. -/
theorem ends_resolve_decides (h : m.Shows v held) (hv : v.Sound) (hdeclared : v.declared = v.own)
    (ha : isUser a = true) (hi : m.lookup p a = some i)
    (hw : ¬ (write = true ∧ (m.page i).writable = false)) :
    Ends (resolve p i) m (fun result m' => m.FaultsTo p a esp write (result.mapError (.pageIn a)) m')
      fun _ _ => True := by
  have hi' : v.own p (pageBase a) = some i := by rw [← hdeclared, h.declared, ← hi]; rfl
  have hview : Ends (resolve p i) m _ (Stalls held False v) := ends_resolve h hv hdeclared hi'
  refine ((ends_resolve_exact h hv hdeclared hi').and hview).imp ?_ fun _ _ _ => trivial
  rintro result m₁ ⟨⟨-, hexact⟩, v', h₁, -, hfetched, -⟩
  have hdenial : m.denial p a esp write =
      if (m.page i).resident = true then some (.pageIn a (.alreadyResident (pageBase a))) else none := by
    rw [denial, ha, if_neg (by simp), hi]
    exact if_neg hw
  by_cases hin : (m.page i).resident = true
  · rw [if_pos hin] at hexact
    obtain ⟨rfl, rfl⟩ := hexact
    exact .denied (hdenial.trans (if_pos hin)) m₁.log
  rw [if_neg hin] at hexact
  obtain ⟨n, hready, harrives⟩ := hexact
  have hadmitted := hdenial.trans (if_neg hin)
  have haway : (m.page i).frame = none := by simpa [Page.resident] using hin
  have hpage : n.page i = m.page i := hready.page haway
  have hdecision : m.verdict n p a = result.mapError (.pageIn a) := by
    rw [verdict, hi, harrives.eq_landing]
  refine .decided hready ?_
  cases harrives with
  | shortRead _ _ restores => exact decides_of_restores hready hadmitted hdecision restores
  | mapFailed _ _ restores => exact decides_of_restores hready hadmitted hdecision restores
  | @arrived f b _ _ _ incoming gains declared =>
    rw [hpage] at gains
    refine ⟨hadmitted, hdecision.symm, fun _ j hj => ?_, fun _ hj => ?_, fun _ => ?_,
      fun e he => by simp [Except.mapError] at he⟩
    · obtain rfl : i = j := Option.some.inj (hi.symm.trans hj)
      exact ⟨f, b, incoming, gains, declared.trans hready.spares.declared⟩
    · rw [hi] at hj
      simp at hj
    · refine gains.retried h₁ (hfetched.path.sound hv) ha fun hwrite => ?_
      simpa [hwrite] using hw

/-- A fault at an address that no declared page holds. -/
theorem ends_growStack_decides (write : Bool) (h : m.Shows v held) (hv : v.Sound)
    (hdeclared : v.declared = v.own) (hlive : v.exited p = false) (ha : isUser a = true)
    (hi : m.lookup p a = none)
    (hw : esp ≤ min (a + stackSlack) (wordLimit - 1)) :
    Ends (growStack p a) m (fun result m' =>
      m.FaultsTo p a esp write (if result.isSome then .ok () else .error (.unmapped a)) m')
      fun _ _ => True := by
  have hview : Ends (growStack p a) m _ (Stalls held False v) := ends_growStack h hv hdeclared hlive a
  refine ((ends_growStack_exact h hv hdeclared hlive a).and hview).imp ?_ fun _ _ _ => trivial
  rintro result m₁ ⟨hexact, v', h₁, -, hfetched, -⟩
  have hdenial : m.denial p a esp write =
      if userTop - pageBase a ≤ stackLimit then none else some (.unmapped a) := by
    rw [denial, ha, if_neg (by simp), hi]
    simp only [hw, true_and]
  split at hexact
  · rename_i hbounds
    obtain ⟨rfl, ev, rfl⟩ := hexact
    have hdeep : ¬ userTop - pageBase a ≤ stackLimit := by
      simp only [isUser_pageBase, ha, Bool.not_true, Bool.false_or, decide_eq_true_eq] at hbounds
      exact Nat.not_le_of_lt hbounds
    exact .denied (hdenial.trans (if_neg hdeep)) _
  rename_i hbounds
  have hshallow : userTop - pageBase a ≤ stackLimit := by
    simp only [isUser_pageBase, ha, Bool.not_true, Bool.false_or, decide_eq_true_eq] at hbounds
    exact Nat.le_of_not_lt hbounds
  have hadmitted := hdenial.trans (if_pos hshallow)
  rw [show m.declaredAt p (pageBase a) = none from hi, if_neg (by simp)] at hexact
  obtain ⟨n, hready, hgrows⟩ := hexact
  have hverdict : m.verdict n p a = if (n.process p).table.full then .error (.unmapped a) else .ok () := by
    rw [verdict, hi]
  refine .decided hready ?_
  cases hgrows with
  | refused full restores =>
    exact decides_of_restores hready hadmitted (hverdict.trans (if_pos full)) restores
  | @grown f _ room gains declared =>
    have hnext : n.pages.next = m.pages.next := hready.spares.next
    have hsame : n.declaredAt = m.declaredAt := hready.spares.declared
    rw [hnext, hsame] at declared
    rw [hnext] at gains
    refine ⟨hadmitted, (hverdict.trans (by rw [room]; rfl)).symm, fun _ j hj => ?_,
      fun _ _ => ⟨f, gains, declared⟩, fun _ => gains.retried h₁ (hfetched.path.sound hv) ha fun _ => rfl,
      fun e he => by simp at he⟩
    rw [hi] at hj
    simp at hj

theorem ends_decideFault_exact (h : m.Shows v held) (hv : v.Sound) (hdeclared : v.declared = v.own)
    (hlive : v.exited p = false) (a esp : Nat) (write : Bool) :
    Ends (decideFault p a esp write) m (m.FaultsTo p a esp write) fun _ _ => True := by
  rw [decideFault, ends_ite]
  split
  · rename_i hno
    exact .denied (if_pos (by simpa using hno)) m.log
  rename_i hyes
  have ha : isUser a = true := by simpa using hyes
  rw [ends_bind, ends_get]
  cases hi : m.lookup p a with
  | some i =>
    simp only [ends_bind, ends_page, ends_ite, ends_pure]
    split
    · rename_i hdenied
      refine .denied ?_ m.log
      rw [denial, ha, if_neg (by simp), hi]
      exact if_pos (by simpa using hdenied)
    · rename_i hadmitted
      exact ends_resolve_decides h hv hdeclared ha hi (by simpa using hadmitted)
  | none =>
    simp only [ends_ite, ends_bind, ends_pure]
    split
    · rename_i hw
      refine (ends_growStack_decides write h hv hdeclared hlive ha hi hw).returns ?_
      intro result m₁ h₁
      split
      · rename_i hsome
        rwa [if_pos hsome] at h₁
      · rename_i hnone
        rwa [if_neg hnone] at h₁
    · rename_i hw
      refine .denied ?_ m.log
      rw [denial, ha, if_neg (by simp), hi]
      exact if_neg fun h => hw h.1

theorem ends_handleFault_exact (h : m.Shows v held) (hv : v.Sound) (hdeclared : v.declared = v.own)
    (hlive : v.exited p = false) (a esp : Nat) (write : Bool) :
    Ends (handleFault p a esp write) m (m.FaultsTo p a esp write) fun _ _ => True := by
  rw [handleFault, ends_bind]
  refine (ends_decideFault_exact h hv hdeclared hlive a esp write).returns ?_
  intro r m₁ hfaults
  cases r with
  | ok _ => exact hfaults
  | error e =>
    simp only [ends_bind, ends_process, ends_emit, ends_pure]
    exact hfaults.report _

end Kernel

open Kernel Machine

/-- When nobody holds a page, the fault of a live process is answered unless the machine halts, and the
answer is the one that the address, the page and the room in memory call for. -/
theorem Reachable.decides_faults {φ : Type} [FileSystem φ] {m : Machine φ} (h : Reachable m) {p : ProcId}
    (hlive : (m.process p).exited = false) (a esp : Nat) (write : Bool) :
    Ends (handleFault p a esp write) m (m.FaultsTo p a esp write) fun s _ => ∃ cause, s = .halt cause := by
  have hm := h.steady
  have hview : Ends (handleFault p a esp write) m _ (Stalls ∅ False m.scene) :=
    ends_handleFault hm.shows hm.sound rfl hlive a esp write
  refine ((ends_handleFault_exact hm.shows hm.sound rfl hlive a esp write).and hview).imp
    (fun _ _ h => h.1) ?_
  rintro s m' ⟨-, hstalls⟩
  cases s with
  | halt cause => exact ⟨cause, rfl⟩
  | wait u => exact hstalls.stops.excused.elim

/-- There is one frame, and the stack takes it from a page that it has swapped out to grow. A fault at the
page brings it back in, and the write that met the fault goes through. -/
theorem decides_faults_of_evicted : ∃ m m' n : Machine MemoryFiles, Reachable m ∧
    handleFault 0 0x7ffff004 0x7fffe000 true m = .ok (.ok ()) m' ∧ m.Readies n ∧
    m.Decides 0 0x7ffff004 0x7fffe000 true n (.ok ()) m' ∧ ∃ m'', store 0 0x7ffff004 [7] m' = .ok none m'' := by
  obtain ⟨m, hm, -, hP⟩ := exists_reachable 1 2 (⟨#[]⟩ : MemoryFiles)
    [(0, .growStack 0x7ffff000), (0, .growStack 0x7fffe000)]
    (fun m => !(m.process 0).exited &&
      check (handleFault 0 0x7ffff004 0x7fffe000 true) (fun r _ => decide (r = .ok ())) m) (by decide +kernel)
  simp only [Bool.and_eq_true, Bool.not_eq_true'] at hP
  obtain ⟨r, m', hrun, hr⟩ := exists_of_check hP.2
  obtain rfl := of_decide_eq_true hr
  have hfaults := (hm.decides_faults hP.1 0x7ffff004 0x7fffe000 true).of_ok hrun
  obtain ⟨n, hready, hdecides⟩ := hfaults.of_ok
  exact ⟨m, m', n, hm, hrun, hready, hdecides, (hdecides.retried rfl).2 rfl [7] (by decide)⟩

end DemandPaging
