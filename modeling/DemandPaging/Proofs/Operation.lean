import DemandPaging.Proofs.Fault
import DemandPaging.Proofs.Mapping

/-!
# Single operations

Between operations a machine is `Settled`: the pages that are pinned are those that callers hold, what
it declares is what its processes own, and the invariants hold. Every operation that is not made up of
others keeps it so, leaves the held pages alone, and does what `Op.Does` says of it. When nobody holds
a page the machine is `Steady`, and a stop that it may come to is excused.
-/

namespace DemandPaging

/-- What is true of a machine between operations. -/
structure Machine.Steady {φ : Type} (m : Machine φ) : Prop where
  shows : m.Shows m.scene ∅
  sound : m.scene.Sound
  charted : m.scene.Charted
  listed : m.scene.Listed

/-- The same while callers hold the pages in `held`. -/
structure Machine.Settled {φ : Type} (m : Machine φ) (held : Set PageId) : Prop where
  shows : m.Shows m.scene held
  sound : m.scene.Sound
  charted : m.scene.Charted
  listed : m.scene.Listed

theorem Machine.steady_iff {φ : Type} {m : Machine φ} : m.Steady ↔ m.Settled ∅ :=
  ⟨fun h => ⟨h.shows, h.sound, h.charted, h.listed⟩, fun h => ⟨h.shows, h.sound, h.charted, h.listed⟩⟩

namespace Op

/-- An operation that is not made up of others. -/
def basic : Op → Bool
  | declareFile .. | resolve _ | growStack _ | fault .. | mmap .. | munmap _ | load .. | store ..
  | setAccessed .. | exit => true
  | _ => false

/-- The handles that an operation is given. -/
def handles : Op → List Handle
  | .declareFile _ r _ => [r.file]
  | .mmap file _ => [file]
  | _ => []

/-- An access that starts past the last address. -/
def Late : Op → Prop
  | load a _ | store a _ | userLoad a .. | userStore a .. => wordLimit ≤ a
  | _ => False

/-- What an operation of process `p` that is answered does, seen from outside. -/
def Does {φ : Type} [FileSystem φ] (p : ProcId) (v : View φ) (answer : Answer) (v' : View φ) :
    Op → Prop
  | declareFile _ r _ => (v' = v ∨ Effect (.declare v.next) v v') ∧ v.Adds r.file v'
  | resolve _ | growStack _ | fault .. => v.Fetched v'
  | mmap file addr => Path Label.mapping v v' ∧ v.Adds file v' ∧ v.Extends v' ∧
      ∀ id, answer = .mapping id → ∃ handle len, v.Attaches p file addr id handle len v'
  | munmap id => Path (Label.releasing True) v v' ∧
      (answer = .exited ∧ v' = v ∨ answer = .done ∧ v.Unmaps p id v')
  | exit => Path (Label.releasing True) v v' ∧
      (answer = .exited ∧ v' = v ∨ answer = .done ∧ v.Ceases p v')
  | load a len => v' = v ∧ ∃ bytes fault, answer = .loaded bytes fault ∧ v.Loads p a len bytes fault
  | store a data => ∃ fault cell dirty, answer = .stored fault ∧
      v.Stores p a (written a data fault) cell dirty ∧ v' = { v with cell, dirty }
  | setAccessed .. => v' = v
  | _ => Path (fun _ => True) v v'

/-- Whatever an operation does is a sequence of effects. -/
theorem Does.path {φ : Type} [FileSystem φ] {p : ProcId} {v v' : View φ} {answer : Answer} {op : Op}
    (h : op.Does p v answer v') : Path (fun _ => True) v v' := by
  cases op with
  | declareFile =>
    rcases h.1 with rfl | h
    · exact Path.refl _ _
    · exact Path.single (l := .declare v.next) trivial h
  | resolve | growStack | fault => exact View.Fetched.path h
  | mmap | munmap | exit => exact Path.mono h.1 fun _ _ => trivial
  | load =>
    rw [h.1]
    exact Path.refl _ _
  | store =>
    obtain ⟨fault, cell, dirty, -, hstores, rfl⟩ := h
    exact Path.single (l := .store) trivial (.store hstores)
  | setAccessed =>
    rw [show v' = v from h]
    exact Path.refl _ _
  | userLoad | userStore | validate | validateBuffer | validateString | copy => exact h

/-- An operation that is no store makes no store on its way, and what may write to files in it declares
nothing. -/
theorem Does.exists_path {φ : Type} [FileSystem φ] {op : Op} {q : ProcId} {v v' : View φ} {answer : Answer}
    (h : op.Does q v answer v') (hbasic : op.basic = true) (hstore : ∀ a data, op ≠ .store a data) :
    ∃ may : Label → Prop, Path may v v' ∧ (∀ l, may l → l ≠ .store) ∧
      ((∀ l, may l → ¬ l.writing) ∨ ∀ l, may l → ∀ j, l ≠ .declare j) := by
  have hsame : v' = v → ∃ may : Label → Prop, Path may v v' ∧ (∀ l, may l → l ≠ .store) ∧
      ((∀ l, may l → ¬ l.writing) ∨ ∀ l, may l → ∀ j, l ≠ .declare j) := by
    rintro rfl
    exact ⟨fun _ => False, Path.refl _ _, fun _ hl => hl.elim, .inl fun _ hl => hl.elim⟩
  have hmapping : (∀ l, Label.mapping l → l ≠ .store) ∧ ∀ l, Label.mapping l → ¬ l.writing := by
    refine ⟨?_, fun l hl => ?_⟩
    · rintro _ hl rfl
      exact hl
    · cases l <;> first | exact hl.elim | simp [Label.writing]
  cases op with
  | declareFile =>
    rcases h.1 with heq | he
    · exact hsame heq
    · exact ⟨Label.mapping, Path.single (l := .declare v.next) trivial he, hmapping.1, .inl hmapping.2⟩
  | mmap => exact ⟨_, h.1, hmapping.1, .inl hmapping.2⟩
  | resolve | growStack | fault =>
    rcases h with heq | ⟨i, -, hfetch⟩
    · exact hsame heq
    · refine ⟨_, hfetch.path, ?_, .inr ?_⟩
      · rintro _ hl rfl
        exact hl
      · rintro _ hl j rfl
        exact hl
  | munmap | exit =>
    refine ⟨_, h.1, ?_, .inr ?_⟩
    · rintro _ hl rfl
      exact hl
    · rintro _ hl j rfl
      exact hl
  | load => exact hsame h.1
  | store a data => exact absurd rfl (hstore a data)
  | setAccessed => exact hsame h
  | userLoad | userStore | validate | validateBuffer | validateString | copy =>
    simp [Op.basic] at hbasic

end Op

namespace Machine

variable {φ : Type} {m m' : Machine φ} {v : View φ} {p : ProcId} {held : Set PageId}

/-- When the declared pages are those that belong to the processes, the view is the scene. -/
theorem Shows.eq_scene (h : m.Shows v held) (hdeclared : v.declared = v.own) :
    v = m.scene := by
  conv_lhs => rw [← h.view, ← hdeclared, h.declared]
  rfl

theorem Shows.settled (h : m.Shows v held) (hv : v.Sound) (hdeclared : v.declared = v.own)
    (hc : v.Charted) (hl : v.Listed) : m.Settled held := by
  have hscene := h.eq_scene hdeclared
  rw [hscene] at h hv hc hl
  exact ⟨h, hv, hc, hl⟩

namespace Steady

theorem unpinned (h : m.Steady) (i : PageId) : (m.page i).pinned = false := by
  have hpin := h.shows.fit.pinned i
  simpa using hpin

theorem mayWait (h : m.Steady) (p : ProcId) (op : Op) : op.mayWait m p = false := by
  have hnone : m.anyPinned p = false := by simp [anyPinned, h.unpinned]
  cases op <;> simp only [Op.mayWait, hnone]
  all_goals split <;> simp [h.unpinned]

theorem lookup (_ : m.Steady) (p : ProcId) (a : Nat) : m.lookup p a = m.scene.own p (pageBase a) :=
  rfl

end Steady

end Machine

namespace Kernel

open Machine View

variable {φ : Type} [FileSystem φ] {m : Machine φ} {v : View φ} {p : ProcId} {op : Op}
  {held : Set PageId}

/-- What is true of a machine that was settled, once an operation has been answered. -/
structure Completes (held : Set PageId) (op : Op) (p : ProcId) (m : Machine φ) (answer : Answer)
    (m' : Machine φ) : Prop where
  settled : m'.Settled held
  does : op.Does p m.scene answer m'.scene
  guards : (∀ a data, op ≠ .store a data) → m.scene.Guards held m'.scene

/-- What is true of a machine that was steady, once an operation has been answered. -/
structure Done (op : Op) (p : ProcId) (m : Machine φ) (answer : Answer) (m' : Machine φ) : Prop where
  steady : m'.Steady
  does : op.Does p m.scene answer m'.scene

theorem Completes.done {m' : Machine φ} {answer : Answer} (h : Completes ∅ op p m answer m') :
    Done op p m answer m' :=
  ⟨steady_iff.2 h.settled, h.does⟩

theorem Completes.of_shows {m' : Machine φ} {v' : View φ} {answer : Answer} (h : m.Settled held)
    (h' : m'.Shows v' held) (hdeclared : v'.declared = v'.own) (hc : v'.Charted) (hl : v'.Listed)
    (hdoes : op.Does p m.scene answer v')
    (hguards : (∀ a data, op ≠ .store a data) → m.scene.Guards held v') :
    Completes held op p m answer m' := by
  have hsettled := h'.settled (hdoes.path.sound h.sound) hdeclared hc hl
  rw [h'.eq_scene hdeclared] at hdoes hguards
  exact ⟨hsettled, hdoes, hguards⟩

/-- Bringing in a page keeps the mappings charted, and all pages listed. -/
theorem Completes.of_fetched {m' : Machine φ} {v' : View φ} {answer : Answer} (h : m.Settled held)
    (h' : m'.Shows v' held) (hdeclared : v'.declared = v'.own) (hfetched : m.scene.Fetched v')
    (hdoes : op.Does p m.scene answer v') (hguards : m.scene.Guards held v') :
    Completes held op p m answer m' := by
  rcases hfetched with rfl | ⟨i, -, hfetches⟩
  · exact .of_shows h h' hdeclared h.charted h.listed hdoes fun _ => hguards
  · have hlasting : ∀ l, Label.fetching i l → l.lasting ∧ ∀ j, l ≠ .declare j := by
      intro l hl
      cases l <;> first | exact hl.elim | exact ⟨trivial, by simp⟩
    exact .of_shows h h' hdeclared (hfetches.path.charted (fun l hl => (hlasting l hl).1) h.sound h.charted)
      ((hfetches.path.backs hlasting h.sound).listed h.listed) hdoes fun _ => hguards

theorem ends_declareFile (h : m.Settled held) (hlive : m.scene.exited p = false) (u : Nat)
    (r : Region) (w : Bool) {E : Stop → Machine φ → Prop} :
    Ends (execute p (.declareFile u r w)) m (Completes held (.declareFile u r w) p m) E := by
  have hsame : ∀ answer, Completes held (.declareFile u r w) p m answer m := fun _ =>
    ⟨h, ⟨.inl rfl, .of_own id _⟩, fun _ => .refl _ _⟩
  simp only [execute, declareFile, declareRegion, ends_bind, ends_ite, ends_pure]
  split
  · exact hsame _
  rename_i hfits
  refine (ends_declare h.shows hlive rfl h.shows.next_notMem w (.file r)).returns ?_
  intro result m₁ hresult
  cases result with
  | error e =>
    obtain rfl : m₁ = m := hresult
    exact hsame _
  | ok i =>
    obtain ⟨-, hvacant, h₁⟩ := hresult
    have heffect : Effect (.declare m.scene.next) m.scene
        (m.scene.claim p u (.declared u w (.file r))) := .declare hvacant rfl (not_not.1 hfits)
    have hcases : ∀ {q x i}, (m.scene.claim p u (.declared u w (.file r))).own q x = some i →
        i = m.scene.next ∨ m.scene.own q x = some i := by
      intro q x i hi
      rw [claim_own, setAt_apply] at hi
      split at hi
      · exact .inl (Option.some.inj hi).symm
      · exact .inr hi
    refine .of_shows h h₁ rfl (heffect.charted trivial h.sound h.charted)
      (h.listed.congr rfl fun hi hr => ?_) ⟨.inr heffect, fun q x i r' hi hnew hr => ?_⟩
      fun _ => heffect.guards_of_new (.inl rfl) h.sound
    · rcases hcases hi with rfl | hi
      · rw [claim_page, Function.update_self] at hr
        simp [Page.declared] at hr
      · rw [claim_page, Function.update_of_ne (Nat.ne_of_lt (h.sound.owned.lt hi))] at hr
        exact ⟨hi, hr⟩
    · rcases hcases hi with rfl | hi
      · rw [claim_page, Function.update_self] at hr
        rw [← Option.some.inj hr]
        exact .inl ⟨rfl, rfl⟩
      · exact absurd hi hnew

/-- Releasing mappings never stops, unless it has to wait for a page that others hold. -/
theorem ends_execute_munmap (h : m.Settled held) (hlive : m.scene.exited p = false) (id : Nat)
    {E : Stop → Machine φ → Prop} (hwait : held.Nonempty → ∀ e m', E e m') :
    Ends (execute p (.munmap id)) m
      (fun answer m' => answer = .done ∧ Completes held (.munmap id) p m answer m') E := by
  simp only [execute, ends_bind]
  refine (ends_munmap h.shows h.sound rfl h.charted h.listed hlive id hwait).returns ?_
  rintro result m₁ ⟨v₁, h₁, hguards, hrewires, hunmaps⟩
  exact ⟨rfl, .of_shows h h₁ hrewires.declared hrewires.charted hrewires.listed
    ⟨hrewires.path, .inr ⟨rfl, hunmaps⟩⟩ fun _ => hguards⟩

theorem ends_execute_exit (h : m.Settled held) (hlive : m.scene.exited p = false)
    {E : Stop → Machine φ → Prop} (hwait : held.Nonempty → ∀ e m', E e m') :
    Ends (execute p .exit) m
      (fun answer m' => answer = .done ∧ Completes held .exit p m answer m') E := by
  simp only [execute, ends_bind]
  refine (ends_exit h.shows h.sound rfl h.charted h.listed hlive hwait).returns ?_
  rintro result m₁ ⟨v₁, h₁, hguards, hrewires, hceases⟩
  exact ⟨rfl, .of_shows h h₁ hrewires.declared hrewires.charted hrewires.listed
    ⟨hrewires.path, .inr ⟨rfl, hceases⟩⟩ fun _ => hguards⟩

/-- On a machine on which nobody holds a page, releasing mappings never stops. -/
theorem ends_munmap_of_steady (h : m.Steady) (hlive : m.scene.exited p = false) (id : Nat)
    {E : Stop → Machine φ → Prop} :
    Ends (execute p (.munmap id)) m
      (fun answer m' => answer = .done ∧ Done (.munmap id) p m answer m') E :=
  (ends_execute_munmap (steady_iff.1 h) hlive id fun hne => absurd hne Set.not_nonempty_empty).imp
    (fun _ _ hdone => ⟨hdone.1, hdone.2.done⟩) fun _ _ h => h

theorem ends_exit_of_steady (h : m.Steady) (hlive : m.scene.exited p = false)
    {E : Stop → Machine φ → Prop} :
    Ends (execute p .exit) m (fun answer m' => answer = .done ∧ Done .exit p m answer m') E :=
  (ends_execute_exit (steady_iff.1 h) hlive fun hne => absurd hne Set.not_nonempty_empty).imp
    (fun _ _ hdone => ⟨hdone.1, hdone.2.done⟩) fun _ _ h => h

/-- Each operation that is not made up of others does what it is said to do. -/
theorem ends_execute (h : m.Settled held) (hlive : op.onTable = false → m.scene.exited p = false)
    (hbasic : op.basic = true) :
    Ends (execute p op) m (Completes held op p m) (Stalls held op.Late m.scene) := by
  have hwait : held.Nonempty → ∀ e m', Stalls held op.Late m.scene e m' := fun hne _ _ => .inr hne
  cases op with
  | declareFile u r w => exact ends_declareFile h (hlive rfl) u r w
  | resolve a =>
    simp only [execute, ends_bind, ends_get]
    rw [show m.lookup p a = m.scene.own p (pageBase a) from rfl]
    cases hi : m.scene.own p (pageBase a) with
    | none => exact ⟨h, .inl rfl, fun _ => .refl _ _⟩
    | some i =>
      simp only [ends_bind]
      refine (ends_resolve h.shows h.sound rfl hi).returns ?_
      rintro result m₁ ⟨v₁, h₁, hguards, hfetched, hown, hdeclared, _⟩
      have hd : v₁.declared = v₁.own := by rw [hdeclared, hown]; rfl
      cases result <;> exact .of_fetched h h₁ hd hfetched hfetched hguards
  | growStack a =>
    simp only [execute, ends_bind]
    refine (ends_growStack h.shows h.sound rfl (hlive rfl) a).returns ?_
    rintro result m₁ ⟨v₁, h₁, hguards, hfetched, hd, _⟩
    exact .of_fetched h h₁ hd hfetched hfetched hguards
  | fault a esp w =>
    simp only [execute, ends_bind]
    refine (ends_handleFault h.shows h.sound rfl (hlive rfl) a esp w).returns ?_
    rintro result m₁ ⟨v₁, h₁, hguards, hhandles⟩
    cases result <;> exact .of_fetched h h₁ hhandles.declared hhandles.fetched hhandles.fetched hguards
  | mmap file a =>
    simp only [execute, ends_bind]
    refine (ends_mmap h.shows h.sound rfl h.charted h.listed (hlive rfl) file a hwait).returns ?_
    rintro result m₁ ⟨v₁, h₁, hguards, hrewires, hadds, hextends, hattaches⟩
    have hnone : ∀ answer, (∀ id, answer = .mapping id → result = .ok id) →
        Completes held (.mmap file a) p m answer m₁ := fun answer hid =>
      .of_shows h h₁ hrewires.declared hrewires.charted hrewires.listed
        ⟨hrewires.path, hadds, hextends, fun id h => hattaches id (hid id h)⟩ fun _ => hguards
    cases result with
    | error e => exact hnone _ (by simp)
    | ok k => exact hnone _ fun id hid => by rw [Answer.mapping.inj hid]
  | munmap id => exact (ends_execute_munmap h (hlive rfl) id hwait).returns fun _ _ hdone => hdone.2
  | load a len =>
    simp only [execute, ends_bind]
    refine ((ends_load h.shows h.sound p a len).imp (fun _ _ h => h) fun _ _ h => .inl h).returns ?_
    rintro result m₁ ⟨h₁, hloads⟩
    exact .of_shows h h₁ rfl h.charted h.listed ⟨rfl, _, _, rfl, hloads⟩ fun _ => .refl _ _
  | store a data =>
    simp only [execute, ends_bind]
    refine ((ends_store h.shows h.sound p a data).imp (fun _ _ h => h) fun _ _ h => .inl h).returns ?_
    rintro fault m₁ ⟨cell, dirty, hstores, h₁⟩
    exact .of_shows h h₁ rfl (h.charted.congr rfl fun hi hr => ⟨hi, hr⟩)
      (h.listed.congr rfl fun hi hr => ⟨hi, hr⟩) ⟨fault, cell, dirty, rfl, hstores, rfl⟩
      fun hstore => absurd rfl (hstore a data)
  | setAccessed u b =>
    simp only [execute, ends_bind, ends_modifyTable, ends_pure]
    exact .of_shows h (h.shows.withTable (PageTable.mapping?_setAccessed _ _ _)
      (PageTable.isDirty_setAccessed _ _ _)) rfl h.charted h.listed rfl fun _ => .refl _ _
  | exit => exact (ends_execute_exit h (hlive rfl) hwait).returns fun _ _ hdone => hdone.2
  | userLoad | userStore | validate | validateBuffer | validateString | copy => simp [Op.basic] at hbasic

/-- Nothing is done for a process that has exited. -/
theorem does_of_exited (h : op.onTable = false) (v : View φ) : op.Does p v .exited v := by
  cases op with
  | load | store | setAccessed => simp [Op.onTable] at h
  | declareFile => exact ⟨.inl rfl, .of_own id _⟩
  | resolve | growStack | fault => exact .inl rfl
  | mmap => exact ⟨Path.refl _ _, .of_own id _, ⟨id, id⟩, by simp⟩
  | munmap | exit => exact ⟨Path.refl _ _, .inl ⟨rfl, rfl⟩⟩
  | _ => exact Path.refl _ _

/-- An operation is executed unless its process has exited. -/
theorem ends_perform_iff (h : m.Steady) {Q : Answer → Machine φ → Prop}
    {E : Stop → Machine φ → Prop} :
    Ends (perform p op) m Q E ↔
      if m.scene.exited p = true ∧ op.onTable = false then Q .exited m
      else Ends (execute p op) m Q E := by
  simp only [perform, ends_bind, ends_get, ends_ite, ends_pure, h.mayWait]
  have hexited : m.scene.exited p = (m.process p).exited := rfl
  simp [hexited]

theorem ends_perform_basic (h : m.Steady) (hbasic : op.basic = true) :
    Ends (perform p op) m (Done op p m) (Stops op.Late m.scene) := by
  rw [ends_perform_iff h]
  split
  · rename_i hexited
    exact ⟨h, does_of_exited hexited.2 _⟩
  · rename_i hlive
    exact (ends_execute (steady_iff.1 h) (fun htable => by simpa [htable] using hlive) hbasic).imp
      (fun _ _ hcompletes => hcompletes.done) fun _ _ hstop => hstop.stops

end Kernel

end DemandPaging
