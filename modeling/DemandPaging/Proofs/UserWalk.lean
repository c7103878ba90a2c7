import DemandPaging.Proofs.FaultDecision

/-!
# Walks over user memory

A range of user memory is looked at page after page, in the order of the addresses. A page that is in
memory is looked at where it is, and any other is brought in by a page fault first; so each page has its
turn on the machine that the pages before it have left behind. The first page that cannot be had ends the
walk, with the error that a fault at its first address in the range comes to.
-/

namespace DemandPaging

namespace Machine

variable {φ : Type} {m m' m₁ n : Machine φ} {p : ProcId} {a len esp : Nat} {write : Bool} {b : PageBytes}

/-- Process `p` has the page of `a` in memory, and may write to it if it is asked for that. -/
def Offers (m : Machine φ) (p : ProcId) (a : Nat) (write : Bool) : Prop :=
  ∃ i, m.lookup p a = some i ∧ (m.page i).resident = true ∧ (write = true → (m.page i).writable = true)

/-- It is all the same which address of the page is given. -/
theorem Holds.congr (h : m.Holds p a b) {x : Nat} (hx : pageBase x = pageBase a) : m.Holds p x b := by
  obtain ⟨i, f, hi, hrest⟩ := h
  refine ⟨i, f, ?_, hrest⟩
  rw [lookup, Process.lookup, hx]
  exact hi

/-- What a look finds is in memory. -/
theorem holds_of_glimpse (h : m.glimpse p a write = .ok (some b)) : m.Offers p a write ∧ m.Holds p a b := by
  rw [glimpse] at h
  split at h
  · simp at h
  · rename_i i hi
    split at h
    · simp at h
    · rename_i hw
      obtain ⟨f, hf, hb⟩ := Option.map_eq_some_iff.1 (Except.ok.inj h)
      exact ⟨⟨i, hi, by simp [Page.resident, hf], by simpa using hw⟩, i, f, hi, hf, hb⟩

/-- What is offered is found. -/
theorem Offers.exists_glimpse (h : m.Offers p a write) : ∃ b, m.glimpse p a write = .ok (some b) := by
  obtain ⟨i, hi, hin, hw⟩ := h
  obtain ⟨f, hf⟩ := Option.isSome_iff_exists.1 hin
  refine ⟨m.pool.read f, ?_⟩
  rw [glimpse, hi]
  simpa [hf] using hw

/-- The page tables are as on `m`, or on what one eviction makes of `m`, but for the entry of process `p` for
`u`. -/
def Shifts [FileSystem φ] (m : Machine φ) (p : ProcId) (u : Nat) (m' : Machine φ) : Prop :=
  ∃ n, (n = m ∨ m.Readies n) ∧ ∀ q x, ¬ (q = p ∧ x = u) → m'.pte? q x = n.pte? q x

theorem Shifts.refl [FileSystem φ] (m : Machine φ) (p : ProcId) (u : Nat) : m.Shifts p u m :=
  ⟨m, .inl rfl, fun _ _ _ => rfl⟩

variable [FileSystem φ]

/-- The page of `a` is there for process `p` to use, or is there once a page fault has been handled. -/
inductive Opens (m : Machine φ) (p : ProcId) (a esp : Nat) (write : Bool) : Machine φ → Prop
  | offered (here : m.Offers p a write) : Opens m p a esp write m
  | faulted {m' n : Machine φ} (away : ¬ m.Offers p a write)
      (run : Kernel.handleFault p a esp write m = .ok (.ok ()) m') (readies : m.Readies n)
      (decides : m.Decides p a esp write n (.ok ()) m') : Opens m p a esp write m'

/-- The page of `a` is not there for process `p` to use, and a page fault comes to `e`. If it is plain that
it would, no fault is handled. -/
structure Refuses (m : Machine φ) (p : ProcId) (a esp : Nat) (write : Bool) (e : FaultError)
    (m' : Machine φ) : Prop where
  away : ¬ m.Offers p a write
  fault : ∃ m'', Kernel.handleFault p a esp write m = .ok (.error e) m'' ∧ (m' = m ∨ m' = m'')
  shifts : m.Shifts p (pageBase a) m'

/-- The first `n` pages of the `len` bytes from `a` on have been opened to process `p`, `stage k` being the
machine on which page `k` has its turn, and on machine `m'` the answer is `r`. -/
structure Walks (p : ProcId) (a len esp : Nat) (write : Bool) (m : Machine φ) (stage : Nat → Machine φ)
    (n : Nat) (r : Except FaultError Unit) (m' : Machine φ) : Prop where
  start : stage 0 = m
  le : n ≤ spanCount a len
  opened : ∀ k < n, (stage k).Opens p (span a len k).addr esp write (stage (k + 1))
  shifts : ∀ k < n, (stage k).Shifts p (pageBase (span a len k).addr) (stage (k + 1))
  /-- All pages have been opened. -/
  passed : r = .ok () → n = spanCount a len ∧ m' = stage n
  /-- The next page cannot be had. -/
  refused : ∀ e, r = .error e → n < spanCount a len ∧
    (stage n).Refuses p (span a len n).addr esp write e m'

/-- `bytes` are the `len` bytes from `a` on, each as its page held it when the page had had its turn. -/
structure Gathers (p : ProcId) (a len : Nat) (stage : Nat → Machine φ) (bytes : List UInt8) : Prop where
  length : bytes.length = len
  byte : ∀ i < len, ∃ b, (stage ((pageOffset a + i) / pageSize + 1)).Holds p (a + i) b ∧
    bytes[i]? = b.data[pageOffset (a + i)]?

/-! ### One page -/

/-- The page of a fault that has been resolved is there. -/
theorem Decides.offers (h : m.Decides p a esp write n (.ok ()) m') : m'.Offers p a write := by
  have hadmitted := h.admitted
  rw [denial, if_neg (by simp [isUser_of_admitted h.admitted])] at hadmitted
  cases hi : m.lookup p a with
  | some i =>
    rw [hi] at hadmitted
    simp only at hadmitted
    split at hadmitted
    · simp at hadmitted
    rename_i hw
    obtain ⟨f, b, -, hgains, hdeclared⟩ := h.resolved rfl i hi
    have hlookup : m'.lookup p a = m.lookup p a := congrFun (congrFun hdeclared p) (pageBase a)
    refine ⟨i, hlookup.trans hi, ?_, ?_⟩
    · rw [hgains.page, Function.update_self]
      rfl
    · rw [hgains.page, Function.update_self]
      simpa using hw
  | none =>
    obtain ⟨f, hgains, hdeclared⟩ := h.grown rfl hi
    have hlookup : m'.lookup p a = some m.pages.next := by
      refine (congrFun (congrFun hdeclared p) (pageBase a)).trans ?_
      exact setAt_self _ _ _ _
    refine ⟨m.pages.next, hlookup, ?_, fun _ => ?_⟩
    · rw [hgains.page, Function.update_self]
      rfl
    · rw [hgains.page, Function.update_self]
      rfl

theorem Decides.shifts {r : Except FaultError Unit} (h : m.Decides p a esp write n r m')
    (hready : m.Readies n) : m.Shifts p (pageBase a) m' := by
  refine ⟨n, .inr hready, ?_⟩
  cases r with
  | ok _ =>
    cases hi : m.lookup p a with
    | some i =>
      obtain ⟨f, b, -, hgains, -⟩ := h.resolved rfl i hi
      exact hgains.pte?
    | none =>
      obtain ⟨f, hgains, -⟩ := h.grown rfl hi
      exact hgains.pte?
  | error e =>
    obtain ⟨-, f, hrestores⟩ := h.failed e rfl
    intro q x _
    rw [pte?, Machine.process, hrestores.processes, pte?, Machine.process]

theorem FaultsTo.shifts {r : Except FaultError Unit} (h : m.FaultsTo p a esp write r m') :
    m.Shifts p (pageBase a) m' := by
  cases h with
  | denied => exact ⟨m, .inl rfl, fun _ _ _ => rfl⟩
  | decided ready decides => exact decides.shifts ready

/-- To open a page is to evict one at most, and to bring it in. -/
theorem Opens.shifts (h : m.Opens p a esp write m') : m.Shifts p (pageBase a) m' := by
  cases h with
  | offered => exact .refl m p _
  | faulted _ _ readies decides => exact decides.shifts readies

/-! ### The pages of a range -/

theorem span_zero {a len : Nat} : (span a len 0).addr = a := by
  simp only [span, Nat.zero_mul, Nat.add_zero]
  exact Nat.max_eq_left (pageBase_le a)

theorem spanCount_succ (hpos : 0 < len) :
    spanCount a len = spanCount (a + inFirst a len) (len - inFirst a len) + 1 := by
  have h := congrArg List.length (spans_cons (a := a) hpos)
  simpa [spans] using h

/-- The pages of the rest of a range are the later pages of the range. -/
theorem span_succ (hpos : 0 < len) {k : Nat}
    (hk : k < spanCount (a + inFirst a len) (len - inFirst a len)) :
    span a len (k + 1) = span (a + inFirst a len) (len - inFirst a len) k := by
  have h := congrArg (·[k + 1]?) (spans_cons (a := a) hpos)
  have hlt : k + 1 < spanCount a len := by
    rw [spanCount_succ hpos]
    omega
  simpa [spans, hk, hlt] using h

/-- The sequence that starts with `m` and goes on with `stage`. -/
def startingWith (m : Machine φ) (stage : Nat → Machine φ) : Nat → Machine φ
  | 0 => m
  | k + 1 => stage k

omit [FileSystem φ] in
@[simp] theorem startingWith_zero (m : Machine φ) (stage : Nat → Machine φ) : startingWith m stage 0 = m := rfl

omit [FileSystem φ] in
@[simp] theorem startingWith_succ (m : Machine φ) (stage : Nat → Machine φ) (k : Nat) :
    startingWith m stage (k + 1) = stage k := rfl

theorem walks_nil (m : Machine φ) (p : ProcId) (a esp : Nat) (write : Bool) :
    Walks p a 0 esp write m (fun _ => m) 0 (.ok ()) m where
  start := rfl
  le := Nat.zero_le _
  opened k hk := absurd hk (Nat.not_lt_zero k)
  shifts k hk := absurd hk (Nat.not_lt_zero k)
  passed _ := ⟨rfl, rfl⟩
  refused e he := by simp at he

/-- The first page cannot be had. -/
theorem Refuses.walks {e : FaultError} (h : m.Refuses p a esp write e m') (hpos : 0 < len) :
    Walks p a len esp write m (fun _ => m) 0 (.error e) m' where
  start := rfl
  le := Nat.zero_le _
  opened k hk := absurd hk (Nat.not_lt_zero k)
  shifts k hk := absurd hk (Nat.not_lt_zero k)
  passed h := by simp at h
  refused e' he := by
    obtain rfl := Except.error.inj he
    refine ⟨?_, by rwa [span_zero]⟩
    rw [spanCount_succ hpos]
    exact Nat.succ_pos _

/-- The first page is opened, and the walk goes on behind it. -/
theorem Walks.cons {stage : Nat → Machine φ} {k : Nat} {r : Except FaultError Unit} (hpos : 0 < len)
    (hopens : m.Opens p a esp write m₁)
    (h : Walks p (a + inFirst a len) (len - inFirst a len) esp write m₁ stage k r m') :
    Walks p a len esp write m (startingWith m stage) (k + 1) r m' where
  start := rfl
  le := by
    rw [spanCount_succ hpos]
    exact Nat.succ_le_succ h.le
  opened j hj := by
    cases j with
    | zero => simpa [span_zero, h.start] using hopens
    | succ j =>
      have hlt : j < k := Nat.lt_of_succ_lt_succ hj
      rw [startingWith_succ, startingWith_succ, span_succ hpos (Nat.lt_of_lt_of_le hlt h.le)]
      exact h.opened j hlt
  shifts j hj := by
    cases j with
    | zero => simpa [span_zero, h.start] using hopens.shifts
    | succ j =>
      have hlt : j < k := Nat.lt_of_succ_lt_succ hj
      rw [startingWith_succ, startingWith_succ, span_succ hpos (Nat.lt_of_lt_of_le hlt h.le)]
      exact h.shifts j hlt
  passed hr := by
    obtain ⟨hk, hm'⟩ := h.passed hr
    exact ⟨by rw [spanCount_succ hpos, hk], by rw [startingWith_succ, hm']⟩
  refused e he := by
    obtain ⟨hk, hrefuses⟩ := h.refused e he
    rw [startingWith_succ, span_succ hpos hk, spanCount_succ hpos]
    exact ⟨Nat.succ_lt_succ hk, hrefuses⟩

omit [FileSystem φ] in
theorem gathers_nil (p : ProcId) (a : Nat) (stage : Nat → Machine φ) : Gathers p a 0 stage [] where
  length := rfl
  byte i hi := absurd hi (Nat.not_lt_zero i)

omit [FileSystem φ] in
/-- The bytes of the first page are put before the others. -/
theorem Gathers.cons {stage : Nat → Machine φ} {bytes : List UInt8} (hholds : (stage 0).Holds p a b)
    (h : Gathers p (a + inFirst a len) (len - inFirst a len) stage bytes) :
    Gathers p a len (startingWith m stage) (b.slice (pageOffset a) (inFirst a len) ++ bytes) := by
  have hle : inFirst a len ≤ pageSize - pageOffset a := Nat.min_le_right ..
  have hslice : (b.slice (pageOffset a) (inFirst a len)).length = inFirst a len := by
    rw [Bytes.length_slice, Nat.min_eq_left hle]
  have hfirst := inFirst_le a len
  refine ⟨by rw [List.length_append, hslice, h.length]; omega, fun i hi => ?_⟩
  rcases Nat.lt_or_ge i (inFirst a len) with hlt | hge
  · obtain ⟨hbase, hoffset⟩ := pageBase_add_of_lt_inFirst hlt
    have hindex : (pageOffset a + i) / pageSize = 0 := Nat.div_eq_of_lt (by omega)
    refine ⟨b, ?_, ?_⟩
    · rw [hindex]
      exact hholds.congr hbase
    · rw [List.getElem?_append_left (by rwa [hslice]), Bytes.getElem?_slice, if_pos hlt, hoffset]
  · -- there is more than the first page, so that the rest begins with a page
    have hwhole : inFirst a len = pageSize - pageOffset a := by
      rw [inFirst] at hge ⊢
      omega
    obtain ⟨b', hholds', hbyte⟩ := h.byte (i - inFirst a len) (by omega)
    have haddr : a + inFirst a len + (i - inFirst a len) = a + i := by omega
    have hindex : (pageOffset (a + inFirst a len) + (i - inFirst a len)) / pageSize + 1 =
        (pageOffset a + i) / pageSize := by
      have hoffset := pageOffset_lt a
      simp only [pageOffset, pageSize] at *
      omega
    rw [haddr, hindex] at hholds'
    refine ⟨b', hholds', ?_⟩
    rw [List.getElem?_append_right (by rwa [hslice]), hslice, hbyte, haddr]

end Machine

namespace Kernel

open Machine View

variable {φ : Type} [FileSystem φ] {m m' : Machine φ} {p : ProcId} {a len esp : Nat} {write : Bool}

/-- A page fault, when nobody holds a page. -/
theorem ends_fault (hm : m.Settled ∅) (hlive : m.scene.exited p = false) (a esp : Nat) (write : Bool) :
    Ends (handleFault p a esp write) m (fun r m' => m'.Settled ∅ ∧ m'.scene.exited p = false ∧
      m.FaultsTo p a esp write r m') fun s _ => ∃ cause, s = .halt cause := by
  have hview : Ends (handleFault p a esp write) m _ (Stalls ∅ False m.scene) :=
    ends_handleFault hm.shows hm.sound rfl hlive a esp write
  have hop : (Op.copy a 0 esp).basic = false := rfl
  have hstaged := staged_handleFault hm hlive hop a esp write
  refine ((ends_handleFault_exact hm.shows hm.sound rfl hlive a esp write).and
    (Ends.and hstaged hview)).imp ?_ ?_
  · rintro r m₁ ⟨hexact, ⟨hstages, -⟩, -⟩
    obtain ⟨hsettled, -, hexited⟩ := hstages.settled hm hlive
    exact ⟨hsettled, by rw [hexited, hlive], hexact⟩
  · rintro s m₁ ⟨-, -, hstalls⟩
    cases s with
    | halt cause => exact ⟨cause, rfl⟩
    | wait u => exact hstalls.stops.excused.elim

/-- A page that cannot be had is refused as a fault would refuse it. -/
theorem refuses_of_glimpse {e : FaultError} (hm : m.Settled ∅)
    (h : isUser a = false ∧ e = .notUser a ∨ isUser a = true ∧ m.glimpse p a write = .error e) :
    m.Refuses p a esp write e m := by
  have hshifts := Shifts.refl m p (pageBase a)
  rcases h with ⟨hno, rfl⟩ | ⟨hyes, herror⟩
  · refine ⟨?_, ⟨m.report (.faultRefused (m.process p).pid (.notUser a)), ?_, .inl rfl⟩, hshifts⟩
    · -- declared pages are user pages
      rintro ⟨i, hi, hin, -⟩
      obtain ⟨f, hf⟩ := Option.isSome_iff_exists.1 hin
      have hmapped := hm.sound.housed.mapping?_of_frame hi hf
      obtain ⟨-, -, huser, -⟩ := hm.shows.proper hm.sound p _ _ _ hmapped
      rw [isUser_pageBase, hno] at huser
      simp at huser
    · refine eq_ok_of_ends ?_
      rw [handleFault, ends_bind, decideFault, ends_ite, if_pos (by simp [hno]), ends_pure]
      simp only [ends_bind, ends_process, ends_emit, ends_pure]
      exact ⟨trivial, trivial⟩
  · rw [glimpse] at herror
    split at herror
    · simp at herror
    rename_i i hi
    split at herror
    · rename_i hw
      obtain rfl := Except.error.inj herror
      refine ⟨?_, ⟨m.report (.faultRefused (m.process p).pid (.readOnly a)), ?_, .inl rfl⟩, hshifts⟩
      · rintro ⟨j, hj, -, hwritable⟩
        obtain rfl : i = j := Option.some.inj (hi.symm.trans hj)
        simp only [Bool.and_eq_true, Bool.not_eq_true'] at hw
        simp [hwritable hw.1] at hw
      · refine eq_ok_of_ends ?_
        rw [handleFault, ends_bind, decideFault, ends_ite, if_neg (by simp [hyes]), ends_bind, ends_get, hi]
        simp only [ends_bind, ends_page, ends_ite, if_pos hw, ends_pure, ends_process, ends_emit]
        exact ⟨trivial, trivial⟩
    · simp at herror

/-- A page that is visited is opened and looked at, or it is refused. -/
theorem ends_visit (hm : m.Settled ∅) (hlive : m.scene.exited p = false) (a esp : Nat) (write : Bool) :
    Ends (visit p a esp write) m (fun r m' => m'.Settled ∅ ∧ m'.scene.exited p = false ∧
      (∀ b, r = .ok b → m.Opens p a esp write m' ∧ m'.Holds p a b) ∧
      ∀ e, r = .error e → m.Refuses p a esp write e m') fun s _ => ∃ cause, s = .halt cause := by
  have hrefuse : ∀ e, m.Refuses p a esp write e m → m.Settled ∅ ∧ m.scene.exited p = false ∧
      (∀ b, (.error e : Except FaultError PageBytes) = .ok b → m.Opens p a esp write m ∧ m.Holds p a b) ∧
      ∀ e', (.error e : Except FaultError PageBytes) = .error e' → m.Refuses p a esp write e' m :=
    fun e he => ⟨hm, hlive, by simp, fun e' he' => Except.error.inj he' ▸ he⟩
  rw [visit, ends_ite]
  split
  · rename_i hno
    exact hrefuse _ (refuses_of_glimpse hm (.inl ⟨by simpa using hno, rfl⟩))
  rename_i hyes
  have hyes : isUser a = true := by simpa using hyes
  rw [ends_bind]
  refine (ends_peek hm a write fun hne => absurd hne Set.not_nonempty_empty).returns ?_
  rintro result m₁ ⟨rfl, hglimpse⟩
  rcases result with e | (_ | b)
  · exact hrefuse e (refuses_of_glimpse hm (.inr ⟨hyes, hglimpse.symm⟩))
  · have haway : ¬ m₁.Offers p a write := fun h => by
      obtain ⟨b, hb⟩ := h.exists_glimpse
      simp [hb] at hglimpse
    rw [ends_bind]
    refine (ends_fault hm hlive a esp write).run.returns ?_
    rintro (e | _) m₂ ⟨hrun, hm₂, hlive₂, hfaults⟩
    · rw [ends_pure]
      refine ⟨hm₂, hlive₂, by simp, fun e' he' => ?_⟩
      obtain rfl := Except.error.inj he'
      exact ⟨haway, ⟨m₂, hrun, .inr rfl⟩, hfaults.shifts⟩
    · obtain ⟨n, hready, hdecides⟩ := hfaults.of_ok
      rw [ends_bind]
      refine (ends_peek hm₂ a write fun hne => absurd hne Set.not_nonempty_empty).returns ?_
      rintro result m₃ ⟨rfl, hsight⟩
      obtain ⟨b, hb⟩ := hdecides.offers.exists_glimpse
      obtain rfl := hsight.trans hb
      refine ⟨hm₂, hlive₂, fun b' hb' => ?_, by simp⟩
      obtain rfl := Except.ok.inj hb'
      exact ⟨.faulted haway hrun hready hdecides, (holds_of_glimpse hb).2⟩
  · obtain ⟨hoffers, hholds⟩ := holds_of_glimpse hglimpse.symm
    refine ⟨hm, hlive, fun b' hb' => ?_, by simp⟩
    obtain rfl := Except.ok.inj hb'
    exact ⟨.offered hoffers, hholds⟩

/-! ### Ranges -/

/-- The pages of a range are checked one after the other. -/
theorem ends_validateSpans (p : ProcId) (esp : Nat) (write : Bool) :
    ∀ (len a : Nat) {m : Machine φ}, m.Settled ∅ → m.scene.exited p = false →
      Ends (validateSpans p esp write (spans a len)) m
        (fun r m' => ∃ stage n, Walks p a len esp write m stage n r m') fun s _ => ∃ cause, s = .halt cause := by
  intro len
  induction len using Nat.strongRecOn with
  | ind len ih =>
    intro a m hm hlive
    rcases Nat.eq_zero_or_pos len with rfl | hpos
    · exact ⟨_, _, walks_nil m p a esp write⟩
    have hshorter : len - inFirst a len < len := Nat.sub_lt hpos (inFirst_pos hpos)
    rw [spans_cons hpos, validateSpans, ends_bind, validate, ends_bind]
    refine (ends_visit hm hlive a esp write).returns ?_
    rintro (e | b) m₁ ⟨hm₁, hlive₁, hopened, hrefused⟩
    · exact ⟨_, _, (hrefused e rfl).walks hpos⟩
    · refine (ih _ hshorter _ hm₁ hlive₁).returns ?_
      rintro r m₂ ⟨stage, n, hwalks⟩
      exact ⟨_, _, hwalks.cons hpos (hopened b rfl).1⟩

/-- The pages of a range are copied one after the other. -/
theorem ends_copySpans (p : ProcId) (esp : Nat) :
    ∀ (len a : Nat) {m : Machine φ}, m.Settled ∅ → m.scene.exited p = false →
      Ends (copySpans p esp (spans a len)) m (fun r m' => ∃ stage n,
        Walks p a len esp false m stage n (r.map fun _ => ()) m' ∧
        ∀ bytes, r = .ok bytes → Gathers p a len stage bytes) fun s _ => ∃ cause, s = .halt cause := by
  intro len
  induction len using Nat.strongRecOn with
  | ind len ih =>
    intro a m hm hlive
    rcases Nat.eq_zero_or_pos len with rfl | hpos
    · refine ⟨_, _, walks_nil m p a esp false, fun bytes hbytes => ?_⟩
      obtain rfl := Except.ok.inj hbytes
      exact gathers_nil p a _
    have hshorter : len - inFirst a len < len := Nat.sub_lt hpos (inFirst_pos hpos)
    rw [spans_cons hpos, copySpans, ends_bind]
    refine (ends_visit hm hlive a esp false).returns ?_
    rintro (e | b) m₁ ⟨hm₁, hlive₁, hopened, hrefused⟩
    · exact ⟨_, _, (hrefused e rfl).walks hpos, by simp⟩
    obtain ⟨hopens, hholds⟩ := hopened b rfl
    rw [ends_bind]
    refine (ih _ hshorter _ hm₁ hlive₁).returns ?_
    rintro r m₂ ⟨stage, n, hwalks, hgathers⟩
    cases r with
    | error e => exact ⟨_, _, hwalks.cons hpos hopens, by simp [Except.map]⟩
    | ok rest =>
      refine ⟨_, _, hwalks.cons hpos hopens, fun bytes hbytes => ?_⟩
      obtain rfl := Except.ok.inj hbytes
      exact (hgathers rest rfl).cons (by rwa [hwalks.start])

/-- To copy a range is to check it, but for the bytes. -/
theorem validateSpans_eq (p : ProcId) (esp : Nat) : ∀ l : List Span,
    validateSpans (φ := φ) p esp false l = Except.map (fun _ => ()) <$> copySpans p esp l
  | [] => rfl
  | s :: l => by
    rw [validateSpans, copySpans, validate, validateSpans_eq p esp l]
    simp only [bind_assoc, pure_bind, map_bind]
    congr 1
    funext r
    cases r with
    | error e => rfl
    | ok b =>
      simp only [Except.map, map_bind, map_pure]
      rw [← bind_pure_comp]
      congr 1
      funext r
      cases r <;> rfl

end Kernel

end DemandPaging
