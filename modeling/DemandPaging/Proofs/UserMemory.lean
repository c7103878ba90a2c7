import DemandPaging.Proofs.Operation

/-!
# Operations made up of others

Everything that a system call does with the memory of its caller, and every access that a user
program repeats, is a sequence of single accesses and page faults: looking at a page while it is
pinned leaves no trace. So `Staged` takes such an operation apart, whoever holds pages meanwhile, and
all that is known of single operations carries over to it. `Splits` says the same in the terms of a
machine on which nobody holds a page.
-/

namespace DemandPaging

/-- The single operations that an operation is made up of. -/
def Op.Part (op : Op) : Op → Prop
  | .fault .. => op.basic = false
  | .load a len => ∃ esp limit, op = .userLoad a len esp limit
  | .store a data => ∃ esp limit, op = .userStore a data esp limit
  | _ => False

namespace Machine

variable {φ : Type}

/-- What a look at the page of process `p` that holds `a` finds: its contents, if it is in memory. -/
def glimpse (m : Machine φ) (p : ProcId) (a : Nat) (write : Bool) :
    Except FaultError (Option PageBytes) :=
  match m.lookup p a with
  | none => .ok none
  | some i =>
    if write && !(m.page i).writable then .error (.readOnly a)
    else .ok ((m.page i).frame.map m.pool.read)

/-- Process `p` has the page of `a` in memory, and it holds `b`. -/
def Holds (m : Machine φ) (p : ProcId) (a : Nat) (b : PageBytes) : Prop :=
  ∃ i f, m.lookup p a = some i ∧ (m.page i).frame = some f ∧ m.pool.read f = b

/-- A page of which nothing is seen is not in memory. -/
theorem frame_of_glimpse {m : Machine φ} {p : ProcId} {a : Nat} {write : Bool} {i : PageId}
    (h : m.glimpse p a write = .ok none) (hi : m.lookup p a = some i) : (m.page i).frame = none := by
  rw [glimpse, hi] at h
  simp only at h
  split at h
  · simp at h
  · simpa using h

end Machine

namespace Kernel

open Machine View

variable {φ : Type} [FileSystem φ] {m m' : Machine φ} {p : ProcId} {op o : Op} {held : Set PageId}

/-- `m'` comes of `m` by carrying out parts of `op`, all for process `p`. -/
def Stages (op : Op) (p : ProcId) : Machine φ → Machine φ → Prop :=
  Relation.ReflTransGen fun m m' => ∃ o answer, op.Part o ∧ execute p o m = .ok answer m'

theorem basic_of_part (h : op.Part o) : o.basic = true := by
  cases o <;> first | rfl | exact h.elim

theorem handles_of_part (h : op.Part o) : o.handles = [] := by
  cases o <;> first | rfl | exact h.elim

/-- A part leaves the processes that have exited as they are. -/
theorem exited_of_part (ho : op.Part o) {v v' : View φ} {answer : Answer}
    (hdoes : o.Does p v answer v') : v'.exited = v.exited := by
  cases o with
  | fault =>
    rcases hdoes with rfl | ⟨i, -, hfetch⟩
    · rfl
    · exact hfetch.path.exited fun l hl => by cases l <;> trivial
  | load => rw [hdoes.1]
  | store =>
    obtain ⟨fault, cell, dirty, -, -, rfl⟩ := hdoes
    rfl
  | _ => exact ho.elim

theorem Stages.single {a : Answer} (ho : op.Part o) (h : execute p o m = .ok a m') :
    Stages op p m m' := Relation.ReflTransGen.single ⟨o, a, ho, h⟩

/-- Stages keep a machine settled, and their effects make up a path. -/
theorem Stages.settled (h : Stages op p m m') (hm : m.Settled held) (hlive : m.scene.exited p = false) :
    m'.Settled held ∧ Path (fun _ => True) m.scene m'.scene ∧ m'.scene.exited = m.scene.exited := by
  induction h with
  | refl => exact ⟨hm, Path.refl _ _, rfl⟩
  | tail _ hstep ih =>
    obtain ⟨o, answer, ho, hrun⟩ := hstep
    obtain ⟨hsettled, hpath, hexited⟩ := ih
    have hdone := (ends_execute hsettled (fun _ => by rw [hexited, hlive]) (basic_of_part ho)).of_ok hrun
    exact ⟨hdone.settled, hpath.trans hdone.does.path, (exited_of_part ho hdone.does).trans hexited⟩

/-- A program of process `p` that runs as parts of `op`, and returns with `Q`. It stops where a part
stops, or where a page that others hold makes it wait. -/
def Staged {α : Type} (held : Set PageId) (op : Op) (p : ProcId) (x : Kernel φ α) (m : Machine φ)
    (Q : α → Machine φ → Prop) : Prop :=
  Ends x m (fun a m' => Stages op p m m' ∧ Q a m') fun e m' =>
    (∃ m₁ o, Stages op p m m₁ ∧ op.Part o ∧ execute p o m₁ = .error e m') ∨ held.Nonempty

variable {α β : Type} {Q : α → Machine φ → Prop}

theorem staged_pure {a : α} (h : Q a m) : Staged held op p (pure a) m Q :=
  ⟨Relation.ReflTransGen.refl, h⟩

theorem staged_bind {x : Kernel φ β} {f : β → Kernel φ α} {R : β → Machine φ → Prop}
    (hm : m.Settled held) (hlive : m.scene.exited p = false) (hx : Staged held op p x m R)
    (hf : ∀ b m', m'.Settled held → m'.scene.exited p = false → R b m' →
      Staged held op p (f b) m' Q) : Staged held op p (x >>= f) m Q := by
  rw [Staged, ends_bind]
  refine hx.returns ?_
  rintro b m₁ ⟨hstages, hb⟩
  obtain ⟨hsettled, -, hexited⟩ := hstages.settled hm hlive
  refine (hf b m₁ hsettled (by rw [hexited, hlive]) hb).imp (fun a m₂ ⟨hrest, ha⟩ => ?_) ?_
  · exact ⟨hstages.trans hrest, ha⟩
  · rintro e m₂ (⟨m₃, o, hrest, ho, hrun⟩ | hheld)
    · exact .inl ⟨m₃, o, hstages.trans hrest, ho, hrun⟩
    · exact .inr hheld

/-- A program that runs as `execute` runs a part, but for the form of the answer. -/
theorem staged_of_part {x : Kernel φ α} (ho : op.Part o) {g : α → Kernel φ Answer}
    (hx : execute p o = x >>= g) (hg : ∀ a m', ∃ answer, g a m' = .ok answer m')
    (hQ : ∀ a m', x m = .ok a m' → Q a m') : Staged held op p x m Q := by
  unfold Staged Ends
  cases h : x m with
  | ok a m' =>
    obtain ⟨answer, hanswer⟩ := hg a m'
    refine ⟨Stages.single (a := answer) ho ?_, hQ a m' h⟩
    rw [hx]
    simp only [bind, EStateM.bind, h, hanswer]
  | error e m' =>
    refine .inl ⟨m, o, Relation.ReflTransGen.refl, ho, ?_⟩
    rw [hx]
    simp only [bind, EStateM.bind, h]

/-! ### Page faults and looks at a page -/

theorem staged_handleFault (hm : m.Settled held) (hlive : m.scene.exited p = false)
    (hop : op.basic = false) (a esp : Nat) (w : Bool) :
    Staged held op p (handleFault p a esp w) m fun result m' => result = .ok () →
      ∃ i, m'.scene.own p (pageBase a) = some i ∧ (m'.scene.page i).frame.isSome = true := by
  refine staged_of_part (o := .fault a esp w) hop rfl ?_ ?_
  · rintro (e | _) m'
    · exact ⟨.faultError e, rfl⟩
    · exact ⟨.done, rfl⟩
  · intro result m' hrun hok
    have hends : Ends (handleFault p a esp w) m _ (Stalls held False m.scene) :=
      ends_handleFault hm.shows hm.sound rfl hlive a esp w
    obtain ⟨v', h', -, hhandles⟩ := hends.of_ok hrun
    rw [← h'.eq_scene hhandles.declared]
    exact hhandles.resident hok

omit [FileSystem φ] in
/-- A look at a page leaves the machine as it was. It waits only for a page that others hold. -/
theorem ends_peek (hm : m.Settled held) (a : Nat) (w : Bool) {E : Stop → Machine φ → Prop}
    (hwait : held.Nonempty → ∀ e m', E e m') :
    Ends (peek p a w) m (fun result m' => m' = m ∧ result = m.glimpse p a w) E := by
  rw [peek, ends_bind, ends_get, glimpse]
  cases hlookup : m.lookup p a with
  | none => exact ⟨rfl, rfl⟩
  | some i =>
    have hi : m.scene.own p (pageBase a) = some i := hlookup
    simp only [ends_bind, ends_page, ends_ite, ends_pure, ends_get]
    have hlt : i < m.pages.next := hm.sound.owned.lt hi
    split
    · exact ⟨trivial, rfl⟩
    by_cases hmem : i ∈ held
    · exact ends_pin_of_mem hm.shows hmem (hwait ⟨i, hmem⟩ _ _)
    have hfree : (m.page i).pinned = false := by
      have hpin := hm.shows.fit.pinned i
      simpa [hmem] using hpin
    set m₁ := m.withPage i fun pg => { pg with pinned := true } with hm₁
    have hpage : m₁.page i = { m.page i with pinned := true } := by
      rw [hm₁, page_withPage, if_pos ⟨rfl, hlt⟩]
    have hback : (m₁.withPage i fun pg => { pg with pinned := false }) = m := by
      refine withPage_withPage m ?_
      rw [← hfree]
    have hpin : Ends (pin i) m (fun _ m' => Ends (unpin i) m' (fun _ m'' => m'' = m ∧
        (.ok ((m'.page i).frame.map m'.pool.read) : Except FaultError (Option PageBytes)) =
          .ok ((m.page i).frame.map m.pool.read)) E) E := by
      simp only [pin, tryPin, ends_bind, ends_page, ends_ite, ends_pure, ends_modifyPage, hfree]
      simp only [Bool.false_eq_true, if_false, Bool.not_true, unpin, ends_bind, ends_page,
        ends_modifyPage, ends_ite]
      rw [← hm₁, hpage]
      simp only [Bool.not_true, Bool.false_eq_true, if_false]
      exact ⟨hback, rfl⟩
    exact hpin

theorem staged_visit (hm : m.Settled held) (hlive : m.scene.exited p = false) (hop : op.basic = false)
    (a esp : Nat) (w : Bool) : Staged held op p (visit p a esp w) m fun _ _ => True := by
  rw [visit]
  split
  · exact staged_pure trivial
  rw [Staged, ends_bind]
  refine (ends_peek hm a w fun hne _ _ => .inr hne).returns ?_
  rintro result m₁ ⟨rfl, -⟩
  rcases result with e | (_ | bytes)
  · exact staged_pure trivial
  · refine staged_bind hm hlive (staged_handleFault hm hlive hop a esp w) ?_
    intro result m₂ hm₂ _ hresident
    cases result with
    | error e => exact staged_pure trivial
    | ok _ =>
      obtain ⟨i, hi, hframe⟩ := hresident rfl
      rw [Staged, ends_bind]
      refine (ends_peek hm₂ a w fun hne _ _ => .inr hne).returns ?_
      rintro result m₃ ⟨rfl, hglimpse⟩
      rcases result with e | (_ | bytes)
      · exact staged_pure trivial
      · -- the page is in memory now
        have hnone := frame_of_glimpse hglimpse.symm hi
        have hsome : (m₃.page i).frame.isSome = true := hframe
        simp [hnone] at hsome
      · exact staged_pure trivial
  · exact staged_pure trivial

/-! ### Checks and copies -/

theorem staged_validate (hm : m.Settled held) (hlive : m.scene.exited p = false) (hop : op.basic = false)
    (a esp : Nat) (w : Bool) : Staged held op p (validate p a esp w) m fun _ _ => True :=
  staged_bind hm hlive (staged_visit hm hlive hop a esp w) fun _ _ _ _ _ => staged_pure trivial

theorem staged_validateSpans (hop : op.basic = false) (esp : Nat) (w : Bool) :
    ∀ (l : List Span) {m : Machine φ}, m.Settled held → m.scene.exited p = false →
      Staged held op p (validateSpans p esp w l) m fun _ _ => True
  | [], m, _, _ => staged_pure trivial
  | s :: l, m, hm, hlive => by
    refine staged_bind hm hlive (staged_validate hm hlive hop s.addr esp w) ?_
    intro result m₁ hm₁ hlive₁ _
    cases result with
    | error e => exact staged_pure trivial
    | ok _ => exact staged_validateSpans hop esp w l hm₁ hlive₁

theorem staged_copySpans (hop : op.basic = false) (esp : Nat) :
    ∀ (l : List Span) {m : Machine φ}, m.Settled held → m.scene.exited p = false →
      Staged held op p (copySpans p esp l) m fun _ _ => True
  | [], m, _, _ => staged_pure trivial
  | s :: l, m, hm, hlive => by
    refine staged_bind hm hlive (staged_visit hm hlive hop s.addr esp false) ?_
    intro result m₁ hm₁ hlive₁ _
    cases result with
    | error e => exact staged_pure trivial
    | ok _ =>
      exact staged_bind hm₁ hlive₁ (staged_copySpans hop esp l hm₁ hlive₁)
        fun _ _ _ _ _ => staged_pure trivial

theorem staged_scanString (hop : op.basic = false) (a esp : Nat) :
    ∀ (n len : Nat) {m : Machine φ}, m.Settled held → m.scene.exited p = false →
      Staged held op p (scanString p a esp n len) m fun _ _ => True
  | 0, len, m, _, _ => staged_pure trivial
  | n + 1, len, m, hm, hlive => by
    refine staged_bind hm hlive (staged_visit hm hlive hop (a + len) esp false) ?_
    intro result m₁ hm₁ hlive₁ _
    cases result with
    | error e => exact staged_pure trivial
    | ok contents =>
      simp only
      split
      · exact staged_pure trivial
      · exact staged_scanString hop a esp n _ hm₁ hlive₁

/-! ### Repeated accesses -/

theorem staged_retrying (hop : op.basic = false) (esp : Nat)
    {access : Kernel φ (Except PageTable.Fault α)}
    (haccess : ∀ {m : Machine φ}, m.Settled held → m.scene.exited p = false →
      Staged held op p access m fun result m' => ∀ a, result = .ok a → Q a m') :
    ∀ (limit faults : Nat) {m : Machine φ}, m.Settled held → m.scene.exited p = false →
      Staged held op p (retrying p esp access limit faults) m
        fun result m' => ∀ a n, result = .done a n → Q a m' := by
  intro limit
  induction limit with
  | zero =>
    intro faults m hm hlive
    rw [retrying]
    refine staged_bind hm hlive (haccess hm hlive) ?_
    intro result _ _ _ hresult
    cases result with
    | ok a => exact staged_pure fun b n hb => hresult b (congrArg Except.ok (Retried.done.inj hb).1)
    | error fault => exact staged_pure (by simp)
  | succ limit ih =>
    intro faults m hm hlive
    rw [retrying]
    refine staged_bind hm hlive (haccess hm hlive) ?_
    intro result m₁ hm₁ hlive₁ hresult
    cases result with
    | ok a => exact staged_pure fun b n hb => hresult b (congrArg Except.ok (Retried.done.inj hb).1)
    | error fault =>
      refine staged_bind hm₁ hlive₁ (staged_handleFault hm₁ hlive₁ hop fault.addr esp fault.write) ?_
      intro result m₂ hm₂ hlive₂ _
      cases result with
      | error e => exact staged_pure (by simp)
      | ok _ => exact ih (faults + 1) hm₂ hlive₂

theorem staged_load (hm : m.Settled held) {a len : Nat} (ho : op.Part (.load a len)) :
    Staged held op p (load p a len) m fun r m' => m'.scene.Loads p a len r.1 r.2 := by
  refine staged_of_part ho rfl (fun r _ => ⟨.loaded r.1 r.2, rfl⟩) fun r m' hrun => ?_
  obtain ⟨h', hloads⟩ := (ends_load hm.shows hm.sound p a len).of_ok hrun
  rwa [← h'.eq_scene rfl]

/-- A read that is repeated until it goes through returns what the page table maps in the end. -/
theorem staged_loadRetrying (hm : m.Settled held) (hlive : m.scene.exited p = false)
    (a len esp limit : Nat) :
    Staged held (.userLoad a len esp limit) p (loadRetrying p a len esp limit) m fun result m' =>
      ∀ bytes n, result = .done bytes n → m'.scene.Loads p a len bytes none := by
  refine staged_retrying (Q := fun bytes m' => m'.scene.Loads p a len bytes none) rfl esp
    (fun hm hlive => ?_) limit 0 hm hlive
  refine staged_bind hm hlive (staged_load hm ⟨esp, limit, rfl⟩) ?_
  rintro ⟨bytes, fault⟩ m₁ hm₁ hlive₁ hloads
  refine staged_pure fun bytes' hok => ?_
  cases fault with
  | none =>
    obtain rfl := Except.ok.inj hok
    exact hloads
  | some f => simp at hok

theorem staged_store {a : Nat} {data : List UInt8} (ho : op.Part (.store a data)) : Staged held op p (store p a data) m fun _ _ => True :=
  staged_of_part ho rfl (fun fault _ => ⟨.stored fault, rfl⟩) fun _ _ _ => trivial

/-- An operation that is made up of others runs as its parts. -/
theorem staged_execute (hm : m.Settled held) (hlive : m.scene.exited p = false) (hop : op.basic = false) :
    Staged held op p (execute p op) m fun _ _ => True := by
  cases op with
  | userLoad a len esp limit =>
    exact staged_bind hm hlive (staged_loadRetrying hm hlive a len esp limit)
      fun _ _ _ _ _ => staged_pure trivial
  | userStore a data esp limit =>
    refine staged_bind hm hlive (staged_retrying (Q := fun _ _ => True) hop esp (fun hm hlive => ?_)
      limit 0 hm hlive) fun _ _ _ _ _ => staged_pure trivial
    exact staged_bind hm hlive (staged_store ⟨esp, limit, rfl⟩)
      fun _ _ _ _ _ => staged_pure fun _ _ => trivial
  | validate a esp w =>
    refine staged_bind hm hlive (staged_validate hm hlive hop a esp w) ?_
    intro result _ _ _ _
    cases result <;> exact staged_pure trivial
  | validateBuffer a len esp w =>
    refine staged_bind (R := fun _ _ => True) hm hlive ?_ fun result _ _ _ _ => ?_
    · rw [validateBuffer]
      split
      · exact staged_pure trivial
      · exact staged_validateSpans hop esp w _ hm hlive
    · cases result <;> exact staged_pure trivial
  | validateString a esp =>
    refine staged_bind hm hlive (staged_scanString hop a esp _ 0 hm hlive) ?_
    intro result _ _ _ _
    cases result <;> exact staged_pure trivial
  | copy a len esp =>
    refine staged_bind (R := fun _ _ => True) hm hlive ?_ fun result _ _ _ _ => ?_
    · rw [copy]
      split
      · exact staged_pure trivial
      · exact staged_copySpans hop esp _ hm hlive
    · cases result <;> exact staged_pure trivial
  | _ => simp [Op.basic] at hop

/-! ### On a machine on which nobody holds a page -/

/-- `m'` comes of `m` by parts of `op`, all of process `p`. -/
def Parts (op : Op) (p : ProcId) : Machine φ → Machine φ → Prop :=
  Relation.ReflTransGen fun m m' => ∃ o answer, op.Part o ∧ perform p o m = .ok answer m'

theorem perform_eq_execute (h : m.Steady) (hlive : m.scene.exited p = false) (op : Op) :
    perform p op m = execute p op m := by
  have hexited : (m.process p).exited = false := hlive
  have hget : (get : Kernel φ (Machine φ)) m = .ok m m := rfl
  simp [perform, bind, EStateM.bind, hget, hexited, h.mayWait]

/-- Parts keep a machine steady, and their effects make up a path. -/
theorem Parts.steady (h : Parts op p m m') (hm : m.Steady) :
    m'.Steady ∧ Path (fun _ => True) m.scene m'.scene ∧ m'.scene.exited = m.scene.exited := by
  induction h with
  | refl => exact ⟨hm, Path.refl _ _, rfl⟩
  | tail _ hstep ih =>
    obtain ⟨o, answer, ho, hrun⟩ := hstep
    obtain ⟨hsteady, hpath, hexited⟩ := ih
    have hdone := (ends_perform_basic hsteady (basic_of_part ho)).of_ok hrun
    exact ⟨hdone.steady, hpath.trans hdone.does.path, (exited_of_part ho hdone.does).trans hexited⟩

theorem Stages.parts (h : Stages op p m m') (hm : m.Steady) (hlive : m.scene.exited p = false) :
    Parts op p m m' := by
  induction h with
  | refl => exact Relation.ReflTransGen.refl
  | tail hstages hstep ih =>
    obtain ⟨o, answer, ho, hrun⟩ := hstep
    obtain ⟨hsettled, -, hexited⟩ := Stages.settled hstages (steady_iff.1 hm) hlive
    refine ih.tail ⟨o, answer, ho, ?_⟩
    rw [perform_eq_execute (steady_iff.2 hsettled) (by rw [hexited, hlive]), hrun]

/-- A program of process `p` that runs as parts of `op`, and returns with `Q`. -/
def Splits {α : Type} (op : Op) (p : ProcId) (x : Kernel φ α) (m : Machine φ)
    (Q : α → Machine φ → Prop) : Prop :=
  Ends x m (fun a m' => Parts op p m m' ∧ Q a m') fun e m' =>
    ∃ m₁ o, Parts op p m m₁ ∧ op.Part o ∧ perform p o m₁ = .error e m'

theorem Staged.splits {x : Kernel φ α} (h : Staged ∅ op p x m Q) (hm : m.Steady)
    (hlive : m.scene.exited p = false) : Splits op p x m Q := by
  refine Ends.imp h (fun a m₁ ⟨hstages, ha⟩ => ⟨hstages.parts hm hlive, ha⟩) fun e m₁ hstop => ?_
  obtain ⟨m₂, o, hstages, ho, hrun⟩ := hstop.resolve_right Set.not_nonempty_empty
  obtain ⟨hsettled, -, hexited⟩ := hstages.settled (steady_iff.1 hm) hlive
  refine ⟨m₂, o, hstages.parts hm hlive, ho, ?_⟩
  rw [perform_eq_execute (steady_iff.2 hsettled) (by rw [hexited, hlive]), hrun]

/-! ### All operations -/

/-- A part is late only if the whole is. -/
theorem late_of_part (ho : op.Part o) (h : o.Late) : op.Late := by
  cases o with
  | load a len =>
    obtain ⟨esp, limit, rfl⟩ := ho
    exact h
  | store a data =>
    obtain ⟨esp, limit, rfl⟩ := ho
    exact h
  | _ => first | exact h.elim | exact ho.elim

theorem does_of_path (hop : op.basic = false) {v v' : View φ} (h : Path (fun _ => True) v v')
    (answer : Answer) : op.Does p v answer v' := by
  cases op with
  | userLoad | userStore | validate | validateBuffer | validateString | copy => exact h
  | _ => simp [Op.basic] at hop

/-- An operation that is made up of others is performed as its parts. -/
theorem splits_perform (hm : m.Steady) (hop : op.basic = false) :
    Splits op p (perform p op) m fun _ _ => True := by
  rw [Splits, ends_perform_iff hm]
  split
  · exact ⟨Relation.ReflTransGen.refl, trivial⟩
  · rename_i hgo
    have htable : op.onTable = false := by cases op <;> first | rfl | simp [Op.basic] at hop
    have hlive : m.scene.exited p = false := by simpa [htable] using hgo
    exact (staged_execute (steady_iff.1 hm) hlive hop).splits hm hlive

/-- What a read that goes through returns is what the page table maps in the end. -/
theorem splits_userLoad (hm : m.Steady) (a len esp limit : Nat) :
    Splits (.userLoad a len esp limit) p (perform p (.userLoad a len esp limit)) m fun answer m' =>
      ∀ bytes n, answer = .retriedLoad (.done bytes n) → m'.scene.Loads p a len bytes none := by
  rw [Splits, ends_perform_iff hm]
  split
  · exact ⟨Relation.ReflTransGen.refl, by simp⟩
  · rename_i hgo
    have hlive : m.scene.exited p = false := by simpa [Op.onTable] using hgo
    refine (staged_bind (steady_iff.1 hm) hlive
      (staged_loadRetrying (steady_iff.1 hm) hlive a len esp limit) ?_).splits hm hlive
    intro result m₁ _ _ hloads
    exact staged_pure fun bytes n h => hloads bytes n (Answer.retriedLoad.inj h)

/-- Every operation keeps a machine steady and does what it is said to do; a stop that it comes to
is excused. -/
theorem ends_perform (hm : m.Steady) (p : ProcId) (op : Op) :
    Ends (perform p op) m (Done op p m) (Excused op.Late m.plant) := by
  cases hop : op.basic with
  | true => exact (ends_perform_basic hm hop).imp (fun _ _ hdone => hdone) fun _ _ hs => hs.excused
  | false =>
    refine Ends.imp (splits_perform hm hop) (fun answer m₁ ⟨hparts, _⟩ => ?_) ?_
    · obtain ⟨hsteady, hpath, -⟩ := hparts.steady hm
      exact ⟨hsteady, does_of_path hop hpath answer⟩
    · rintro e m₁ ⟨m₂, o, hparts, ho, hrun⟩
      obtain ⟨hsteady, hpath, -⟩ := hparts.steady hm
      have hexcused := ((ends_perform_basic hsteady (basic_of_part ho)).of_error hrun).excused
      rw [hpath.plant] at hexcused
      exact hexcused.mono (late_of_part ho)

end Kernel

end DemandPaging
