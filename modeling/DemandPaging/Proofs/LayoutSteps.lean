import DemandPaging.Proofs.Layout

/-!
# What programs do to the layout

Programs that bring pages in, evict them or access memory keep the layout. A stack that grows and a part
of a program's file that is declared add a page that no mapping lists. To map a file is to declare one
page after the other, each of them listed at once; to release a mapping is to forget them in the order in
which they are listed. So in either case the loop keeps `Arranged`, with a catalogue that follows it.
-/

namespace DemandPaging

namespace MapTable

/-- A file is mapped under the next number, or the table stays as it is. -/
inductive Numbers (t : MapTable) : Except MapError Nat → MapTable → Prop
  | made (mp : Mapping) : Numbers t (.ok t.nextId) (t.add mp)
  | failed (e : MapError) : Numbers t (.error e) t

/-- Mappings may have gone from the table, and numbers go on from where they were. -/
structure Shrinks (t t' : MapTable) : Prop where
  nextId : t'.nextId = t.nextId
  live : ∀ {id : Nat} {mp : Mapping}, t'.live[id]? = some mp → t.live[id]? = some mp

theorem shrinks_erase (t : MapTable) (id : Nat) : t.Shrinks (t.erase id) := by
  refine ⟨rfl, fun {j mp} hj => ?_⟩
  rw [live_erase] at hj
  split at hj
  · simp at hj
  · exact hj

theorem shrinks_clear (t : MapTable) : t.Shrinks t.clear := ⟨rfl, fun {j mp} hj => by simp [clear] at hj⟩

end MapTable

namespace Machine

variable {φ : Type} {m m' m'' : Machine φ}

/-- Processes have the mappings that they had, and the same ones have exited. -/
def SameBooks (m m' : Machine φ) : Prop := ∀ q, (m'.process q).mappings = (m.process q).mappings ∧
  (m'.process q).exited = (m.process q).exited

theorem SameBooks.refl (m : Machine φ) : m.SameBooks m := fun _ => ⟨rfl, rfl⟩

theorem SameBooks.trans (h : m.SameBooks m') (h' : m'.SameBooks m'') : m.SameBooks m'' := fun q =>
  ⟨(h' q).1.trans (h q).1, (h' q).2.trans (h q).2⟩

theorem SameBooks.exited (h : m.SameBooks m') (q : ProcId) : (m'.process q).exited = (m.process q).exited :=
  (h q).2

theorem SameLayout.sameBooks (h : m.SameLayout m') : m.SameBooks m' := fun q => ⟨h.mappings q, h.exited q⟩

theorem Undisturbed.sameBooks (h : m.Undisturbed m') : m.SameBooks m' := fun q => by
  rw [h.process q]
  exact ⟨rfl, rfl⟩

/-- If process `p` is live, then what was in step with a catalogue still is. -/
structure InStep (p : ProcId) (m m' : Machine φ) : Prop where
  books : m.SameBooks m'
  arranged : (m.process p).exited = false → ∀ L, m.Arranged L → m'.Arranged L

theorem SameLayout.inStep (h : m.SameLayout m') (p : ProcId) : m.InStep p m' :=
  ⟨h.sameBooks, fun _ _ harranged => harranged.congr h⟩

instance (p : ProcId) : Kernel.Bears (InStep (φ := φ) p) where
  refl m := ⟨.refl m, fun _ _ h => h⟩
  trans _ _ _ h h' := ⟨h.books.trans h'.books, fun hlive L harranged =>
    h'.arranged ((h.books.exited p).trans hlive) L (h.arranged hlive L harranged)⟩
  report m e := SameLayout.inStep (Kernel.Bears.report m e) p
  page m i _ hf := SameLayout.inStep (Kernel.Bears.page m i hf) p
  memory m a := SameLayout.inStep (Kernel.Bears.memory m a) p
  slots m s := SameLayout.inStep (Kernel.Bears.slots m s) p
  devices m r := SameLayout.inStep (Kernel.Bears.devices m r) p

end Machine

namespace Kernel

open Machine

variable {φ α : Type} {m m' : Machine φ} {p q : ProcId} {u : Nat}

/-! ### Programs that keep the layout -/

theorem Moves.inStep {x : Kernel φ α} (h : Moves SameLayout x) (p : ProcId) : Moves (InStep p) x :=
  fun m => (h m).imp (fun _ _ h => h.inStep p) fun _ _ h => h.inStep p

theorem sameLayout_modifyTable (q : ProcId) (f : PageTable → PageTable) :
    Moves (SameLayout (φ := φ)) (modifyTable q f) := moves_modify fun m => sameLayout_withTable m q f

theorem sameLayout_look : Moves SameLayout (look : Kernel φ (Option Tenancy)) := by
  refine moves_bind moves_get fun m => ?_
  dsimp only
  split
  · exact moves_pure none
  rename_i e _
  refine moves_bind (moves_modify fun m => sameLayout_of_eq rfl rfl) fun _ => ?_
  refine moves_bind (moves_tryPin e.page) fun pinned => moves_ite (moves_pure none) ?_
  refine moves_bind (moves_page e.page) fun _ => moves_bind (moves_process e.owner) fun _ => moves_ite ?_ ?_
  · exact moves_bind (sameLayout_modifyTable _ _) fun _ => moves_bind (moves_unpin _) fun _ => moves_pure none
  · exact moves_bind (moves_modify fun m => sameLayout_of_eq rfl rfl) fun _ => moves_pure (some e)

theorem sameLayout_sweep : ∀ n, Moves SameLayout (sweep n : Kernel φ (Option Tenancy))
  | 0 => moves_pure none
  | n + 1 => by
    refine moves_bind sameLayout_look fun e => ?_
    cases e with
    | none => exact sameLayout_sweep n
    | some e => exact moves_pure (some e)

variable [FileSystem φ]

omit [FileSystem φ] in
theorem sameLayout_files (m : Machine φ) (files : φ) : m.SameLayout (m.withFiles files) :=
  sameLayout_of_eq rfl rfl

theorem sameLayout_evict : Moves SameLayout (evict : Kernel φ Bool) := by
  refine moves_bind moves_get fun m => moves_bind (sameLayout_sweep _) fun e => ?_
  cases e with
  | none => exact moves_pure false
  | some e =>
    have hpageOut : Moves SameLayout (pageOut e : Kernel φ Unit) := fun m => by
      have hunmapped := sameLayout_withTable m e.owner (·.unmap (m.page e.page).upage)
      have hrest := ends_pageOut_unmapped (R := SameLayout) (m := m) (e := e)
        (fun _ _ m' _ _ => sameLayout_files m' _) rfl
      exact hrest.imp (fun _ _ h => hunmapped.trans h) fun _ _ h => hunmapped.trans h
    exact moves_bind hpageOut fun _ => moves_bind (moves_returnFrame _) fun _ =>
      moves_bind (moves_unpin _) fun _ => moves_pure true

theorem sameLayout_lendFrame (p : ProcId) (i : PageId) (u : Nat) (zeroed : Bool) :
    Moves SameLayout (lendFrame p i u zeroed : Kernel φ Frame) := fun _ =>
  goes_lendFrame (fun _ m₁ _ => sameLayout_evict m₁) fun _ _ => sameLayout_of_eq rfl rfl

theorem sameLayout_resolve (p : ProcId) (i : PageId) :
    Moves SameLayout (resolve p i : Kernel φ (Except PageError Unit)) := fun _ =>
  goes_resolve (fun m₁ _ u zeroed => sameLayout_lendFrame p i u zeroed m₁) fun _ _ m' => sameLayout_files m' _

omit [FileSystem φ] in
theorem sameLayout_load (p : ProcId) (a len : Nat) :
    Moves SameLayout (load p a len : Kernel φ (List UInt8 × Option PageTable.Fault)) := by
  refine moves_bind moves_get fun m => moves_bind (sameLayout_modifyTable p _) fun _ => ?_
  split
  · exact moves_pure _
  · exact moves_pure _
  · exact moves_halt _

omit [FileSystem φ] in
theorem sameLayout_store (p : ProcId) (a : Nat) (data : List UInt8) :
    Moves SameLayout (store p a data : Kernel φ (Option PageTable.Fault)) := by
  refine moves_bind moves_get fun m => moves_bind (moves_modify fun m => sameLayout_of_eq rfl rfl) fun _ =>
    moves_bind (sameLayout_modifyTable p _) fun _ => ?_
  split
  · exact moves_pure _
  · exact moves_pure _
  · exact moves_halt _

omit [FileSystem φ] in
theorem sameLayout_peek (p : ProcId) (a : Nat) (write : Bool) :
    Moves SameLayout (peek p a write : Kernel φ (Except FaultError (Option PageBytes))) := by
  refine moves_bind moves_get fun m => ?_
  split
  · exact moves_pure _
  · refine moves_bind (moves_page _) fun _ => moves_ite (moves_pure _) ?_
    exact moves_bind (moves_pin _) fun _ => moves_bind (moves_page _) fun _ => moves_bind moves_get fun _ =>
      moves_bind (moves_unpin _) fun _ => moves_pure _

/-! ### Pages that no mapping lists -/

omit [FileSystem φ] in
/-- Process `p` declares a page that shows no mapped file. -/
theorem inStep_declaring {pg : Page} (hvacant : m.declaredAt p u = none) (hpg : pg.Placed u)
    (hplain : ∀ r, pg.backing ≠ .mapped r) : m.InStep p (m.declaring p u pg) :=
  ⟨(undisturbed_declaring m p u pg).sameBooks, fun hlive _ h => h.declaring hlive hvacant hpg hplain⟩

omit [FileSystem φ] in
theorem declaredAt_of_contains (h : ¬ (m.process p).declared.contains u = true) : m.declaredAt p u = none := by
  rw [Std.ExtTreeMap.contains_eq_isSome_getElem?] at h
  exact Option.not_isSome_iff_eq_none.1 h

theorem inStep_growStack (p : ProcId) (a : Nat) : Moves (InStep p) (growStack p a : Kernel φ (Option PageId)) := by
  rw [growStack_eq]
  intro m
  refine goes_bind (moves_process p m) fun proc m₁ hrun => ?_
  cases hrun
  dsimp only
  split
  · exact moves_bind (moves_emit _) (fun _ => moves_pure none) m
  rename_i hplace
  split
  · exact moves_pure none m
  rename_i hfree
  have hvacant := declaredAt_of_contains hfree
  refine goes_bind (moves_get m) fun m' m₁ hrun => ?_
  cases hrun
  -- the page is declared on a machine of the same layout
  have hlend := sameLayout_lendFrame p m.pages.next (pageBase a) true m
  rw [Goes, ends_bind]
  refine hlend.imp (fun f m₁ h₁ => ?_) fun _ _ h => h.inStep p
  have hmap : Moves (SameLayout (φ := φ)) (mapPage p (pageBase a) f true) := moves_mapPage _ f true
  rw [ends_bind]
  refine (hmap m₁).imp (fun done m₂ h₂ => ?_) fun _ _ h => (h₁.trans h).inStep p
  have hlayout := h₁.trans h₂
  rw [ends_ite]
  split
  · have hvacant₂ : m₂.declaredAt p (pageBase a) = none := by rw [hlayout.declaredAt, hvacant]
    simp only [Bool.or_eq_true, Bool.not_eq_true', decide_eq_true_eq, not_or, Bool.not_eq_false, Nat.not_lt]
      at hplace
    have hplaced : ({ Page.declared (pageBase a) true .swap with frame := some f } : Page).Placed (pageBase a) :=
      ⟨rfl, isAligned_pageBase a, hplace.1, by simp [Page.declared, Backing.region?], by simp [Page.declared],
        fun _ => ⟨rfl, hplace.2⟩⟩
    have hgrown := inStep_declaring hvacant₂ hplaced (by simp [Page.declared])
    simp only [addPage, ends_bind, ends_modifyGet, ends_modifyProcess, ends_emit, ends_pure]
    exact trans_of (InStep p) (hlayout.inStep p) (trans_of (InStep p) hgrown (Bears.report _ _))
  · have hfreed : Moves (SameLayout (φ := φ)) (do freeFrame f; return none : Kernel φ (Option PageId)) :=
      moves_bind (moves_freeFrame f) fun _ => moves_pure none
    exact (hfreed m₂).imp (fun _ _ h => (hlayout.trans h).inStep p) fun _ _ h => (hlayout.trans h).inStep p

theorem inStep_handleFault (p : ProcId) (a esp : Nat) (write : Bool) :
    Moves (InStep p) (handleFault p a esp write : Kernel φ (Except FaultError Unit)) := fun m =>
  goes_handleFault (fun i _ => (sameLayout_resolve p i).inStep p m) fun _ => inStep_growStack p a m

omit [FileSystem φ] in
/-- A page is declared at an address that is a page of user space and holds none yet. -/
theorem declare_eq (m : Machine φ) (p : ProcId) (u : Nat) (writable : Bool) (backing : Backing) :
    declare p u writable backing m =
      if isAligned u = false then .ok (.error (.misaligned u)) m
      else if isUser u = false then .ok (.error (.notUser u)) m
      else if (m.declaredAt p u).isSome then .ok (.error (.declared u)) m
      else .ok (.ok m.pages.next) (m.declaring p u (.declared u writable backing)) := by
  split
  · rename_i haligned
    refine eq_ok_of_ends ?_
    simp only [declare, haligned, Bool.not_false, if_true, ends_pure, and_self]
  rename_i haligned
  rw [Bool.not_eq_false] at haligned
  split
  · rename_i huser
    refine eq_ok_of_ends ?_
    simp only [declare, haligned, huser, Bool.not_true, Bool.not_false, Bool.false_eq_true, if_true, if_false,
      ends_pure, and_self]
  rename_i huser
  rw [Bool.not_eq_false] at huser
  split
  · exact declare_of_occupied haligned huser (by assumption) writable backing
  · rename_i hvacant
    exact declare_of_vacant haligned huser (Option.not_isSome_iff_eq_none.1 hvacant) writable backing

omit [FileSystem φ] in
/-- Either no page is declared and nothing happens, or there was room for it. -/
theorem declare_cases (m : Machine φ) (p : ProcId) (u : Nat) (writable : Bool) (backing : Backing) :
    (∃ e, declare p u writable backing m = .ok (.error e) m) ∨
      (isAligned u = true ∧ isUser u = true ∧ m.declaredAt p u = none ∧ declare p u writable backing m =
        .ok (.ok m.pages.next) (m.declaring p u (.declared u writable backing))) := by
  rw [declare_eq]
  split
  · exact .inl ⟨_, rfl⟩
  split
  · exact .inl ⟨_, rfl⟩
  split
  · exact .inl ⟨_, rfl⟩
  · exact .inr ⟨by simpa using ‹¬ isAligned u = false›, by simpa using ‹¬ isUser u = false›,
      Option.not_isSome_iff_eq_none.1 (by assumption), rfl⟩

omit [FileSystem φ] in
theorem inStep_declareFile (p : ProcId) (u : Nat) (r : Region) (writable : Bool) :
    Moves (InStep p) (declareFile p u r writable : Kernel φ (Except PageError PageId)) := by
  intro m
  rw [Goes, declareFile, declareRegion, ends_ite]
  split
  · exact refl_of (InStep p) m
  rename_i hwhole
  rcases declare_cases m p u writable (.file r) with ⟨e, hrun⟩ | ⟨haligned, huser, hvacant, hrun⟩
  · rw [ends_of_eq hrun]
    exact refl_of (InStep p) m
  · rw [ends_of_eq hrun]
    have hplaced : (Page.declared u writable (.file r)).Placed u := ⟨rfl, haligned, huser,
      by simpa [Page.declared, Backing.region?] using hwhole, by simp [Page.declared], by simp [Page.declared]⟩
    exact inStep_declaring hvacant hplaced (by simp [Page.declared])

/-! ### Access by the process and on its behalf -/

theorem inStep_visit (p : ProcId) (a esp : Nat) (write : Bool) :
    Moves (InStep p) (visit p a esp write : Kernel φ (Except FaultError PageBytes)) := by
  have hpeek : Moves (InStep p) (peek p a write : Kernel φ _) := (sameLayout_peek p a write).inStep p
  refine moves_ite (moves_pure _) (moves_bind hpeek fun seen => ?_)
  split
  · exact moves_pure _
  · exact moves_pure _
  refine moves_bind (inStep_handleFault p a esp write) fun result => ?_
  split
  · exact moves_pure _
  refine moves_bind hpeek fun seen => ?_
  split
  · exact moves_pure _
  · exact moves_pure _
  · exact moves_throw _

theorem inStep_validate (p : ProcId) (a esp : Nat) (write : Bool) :
    Moves (InStep p) (validate p a esp write : Kernel φ (Except FaultError Unit)) :=
  moves_bind (inStep_visit p a esp write) fun _ => moves_pure _

theorem inStep_validateSpans (p : ProcId) (esp : Nat) (write : Bool) : ∀ spans : List Span,
    Moves (InStep p) (validateSpans p esp write spans : Kernel φ (Except FaultError Unit))
  | [] => moves_pure _
  | s :: spans => by
    refine moves_bind (inStep_validate p s.addr esp write) fun result => ?_
    cases result with
    | error e => exact moves_pure _
    | ok _ => exact inStep_validateSpans p esp write spans

theorem inStep_copySpans (p : ProcId) (esp : Nat) : ∀ spans : List Span,
    Moves (InStep p) (copySpans p esp spans : Kernel φ (Except FaultError (List UInt8)))
  | [] => moves_pure _
  | s :: spans => by
    refine moves_bind (inStep_visit p s.addr esp false) fun result => ?_
    cases result with
    | error e => exact moves_pure _
    | ok _ => exact moves_bind (inStep_copySpans p esp spans) fun _ => moves_pure _

theorem inStep_scanString (p : ProcId) (a esp : Nat) : ∀ n len : Nat,
    Moves (InStep p) (scanString p a esp n len : Kernel φ (Except FaultError Nat))
  | 0, _ => moves_pure _
  | n + 1, len => by
    refine moves_bind (inStep_visit p (a + len) esp false) fun result => ?_
    cases result with
    | error e => exact moves_pure _
    | ok contents =>
      dsimp only
      split
      · exact moves_pure _
      · exact inStep_scanString p a esp n _

theorem inStep_retrying {access : Kernel φ (Except PageTable.Fault α)} (p : ProcId) (esp : Nat)
    (haccess : Moves (InStep p) access) : ∀ limit faults : Nat,
    Moves (InStep p) (retrying p esp access limit faults) := by
  intro limit
  induction limit with
  | zero =>
    intro faults
    rw [retrying]
    refine moves_bind haccess fun result => ?_
    cases result <;> exact moves_pure _
  | succ limit ih =>
    intro faults
    rw [retrying]
    refine moves_bind haccess fun result => ?_
    cases result with
    | ok a => exact moves_pure _
    | error fault =>
      refine moves_bind (inStep_handleFault p fault.addr esp fault.write) fun result => ?_
      cases result with
      | error e => exact moves_pure _
      | ok _ => exact ih (faults + 1)

/-- An operation that uses nothing but the page table. -/
theorem sameLayout_execute {op : Op} (hop : op.onTable = true) (p : ProcId) :
    Moves SameLayout (execute p op : Kernel φ Answer) := by
  cases op with
  | load a len => exact moves_bind (sameLayout_load p a len) fun _ => moves_pure _
  | store a data => exact moves_bind (sameLayout_store p a data) fun _ => moves_pure _
  | setAccessed u v => exact moves_bind (sameLayout_modifyTable p _) fun _ => moves_pure _
  | _ => simp [Op.onTable] at hop

/-- An operation that neither makes nor releases mappings. -/
theorem inStep_execute {op : Op} (hop : op.remaps = false) (p : ProcId) :
    Moves (InStep p) (execute p op : Kernel φ Answer) := by
  cases op with
  | declareFile u r w =>
    refine moves_bind (inStep_declareFile p u r w) fun result => ?_
    cases result <;> exact moves_pure _
  | resolve a =>
    refine moves_bind moves_get fun m => ?_
    split
    · exact moves_pure _
    · refine moves_bind ((sameLayout_resolve p _).inStep p) fun result => ?_
      cases result <;> exact moves_pure _
  | growStack a => exact moves_bind (inStep_growStack p a) fun _ => moves_pure _
  | fault a esp w =>
    refine moves_bind (inStep_handleFault p a esp w) fun result => ?_
    cases result <;> exact moves_pure _
  | mmap | munmap | exit => simp [Op.remaps] at hop
  | load | store | setAccessed => exact (sameLayout_execute rfl p).inStep p
  | userLoad a len esp limit =>
    refine moves_bind (inStep_retrying p esp ?_ limit 0) fun _ => moves_pure _
    exact moves_bind ((sameLayout_load p a len).inStep p) fun _ => moves_pure _
  | userStore a data esp limit =>
    refine moves_bind (inStep_retrying p esp ?_ limit 0) fun _ => moves_pure _
    exact moves_bind ((sameLayout_store p a data).inStep p) fun _ => moves_pure _
  | validate a esp w =>
    refine moves_bind (inStep_validate p a esp w) fun result => ?_
    cases result <;> exact moves_pure _
  | validateBuffer a len esp w =>
    refine moves_bind (moves_ite (moves_pure _) (inStep_validateSpans p esp w _)) fun result => ?_
    cases result <;> exact moves_pure _
  | validateString a esp =>
    refine moves_bind (inStep_scanString p a esp _ 0) fun result => ?_
    cases result <;> exact moves_pure _
  | copy a len esp =>
    refine moves_bind (moves_ite (moves_pure _) (inStep_copySpans p esp _)) fun result => ?_
    cases result <;> exact moves_pure _

/-! ### Mapping files -/

section

variable {L : Catalogue} {k : Option Nat × Nat} {y : Option Nat} {t : MapTable} {mp : Mapping} {handle : Handle}

omit [FileSystem φ] in
/-- As many pages as can be are declared, and put at the end of the mapping. -/
theorem ends_declareTiles_of_arranged (addr : Nat) : ∀ (rs : List Region) (pages : Array Nat) {m : Machine φ},
    (m.process p).exited = false → m.Arranged (Function.update L (p, k) (some ⟨handle, pages⟩)) →
    (∀ r ∈ rs, r.file = handle ∧ r.readLen + r.zeroLen = pageSize) →
    Ends (declareTiles p addr rs pages) m (fun x m' => m.SameBooks m' ∧
      m'.Arranged (Function.update L (p, k) (some ⟨handle, x.1⟩))) fun _ _ => False := by
  intro rs
  induction rs with
  | nil => exact fun pages m _ h _ => ⟨.refl m, h⟩
  | cons r rs ih =>
    intro pages m hlive h htiles
    obtain ⟨⟨hfile, hwhole⟩, htiles⟩ := List.forall_mem_cons.1 htiles
    rw [declareTiles, declareMapped_of_fits hwhole, ends_bind]
    rcases declare_cases m p (addr + r.offset) true (.mapped r) with
      ⟨e, hrun⟩ | ⟨haligned, huser, hvacant, hrun⟩
    · rw [ends_of_eq hrun]
      exact ⟨.refl m, h⟩
    · rw [ends_of_eq hrun]
      have hplaced : (Page.declared (addr + r.offset) true (.mapped r)).Placed (addr + r.offset) :=
        ⟨rfl, haligned, huser, by simpa [Page.declared, Backing.region?] using hwhole, by simp [Page.declared],
          by simp [Page.declared]⟩
      have hbooks := (undisturbed_declaring m p (addr + r.offset)
        (.declared (addr + r.offset) true (.mapped r))).sameBooks
      have hlonger := h.declaring_mapped hlive hvacant hplaced (r := r) rfl (Function.update_self ..) hfile
      rw [Function.update_idem] at hlonger
      exact (ih _ ((hbooks.exited p).trans hlive) hlonger htiles).returns fun x m' h' =>
        ⟨hbooks.trans h'.1, h'.2⟩

/-- The first page of a mapping is released. -/
theorem ends_releasePage_of_arranged (hlive : (m.process p).exited = false) (h : m.Arranged L)
    (hmp : L (p, k) = some mp) {us : List Nat} (hpages : mp.pages.toList = u :: us) :
    Ends (releasePage p u) m (fun _ m' => m.SameBooks m' ∧
      m'.Arranged (Function.update L (p, k) (some ⟨mp.file, us.toArray⟩))) fun _ _ => True := by
  obtain ⟨i, -, hi, -⟩ := h.shows hmp u (by simp [hpages])
  rw [releasePage, forget, ends_bind, ends_bind, ends_process, ends_bind, ends_modifyProcess, ends_pure,
    show (m.process p).declared[u]? = some i from hi]
  have hforgotten := h.forgetting hlive hmp hpages
  have hdismiss : Moves SameLayout (dismiss p u i : Kernel φ Unit) :=
    moves_dismiss (fun m _ _ _ => sameLayout_files m _) (Set.mem_univ u) i
  exact (hdismiss (m.forgetting p u)).imp (fun _ _ h' =>
    ⟨(undisturbed_forgetting m p u).sameBooks.trans h'.sameBooks, hforgotten.congr h'⟩) fun _ _ _ => trivial

theorem ends_releasePages_of_arranged : ∀ (us : List Nat) {m : Machine φ}, (m.process p).exited = false →
    m.Arranged (Function.update L (p, k) (some ⟨handle, us.toArray⟩)) →
    Ends (us.forM (releasePage p)) m (fun _ m' => m.SameBooks m' ∧
      m'.Arranged (Function.update L (p, k) (some ⟨handle, #[]⟩))) fun _ _ => True := by
  intro us
  induction us with
  | nil => exact fun _ h => ⟨.refl _, h⟩
  | cons u us ih =>
    intro m hlive h
    rw [List.forM_eq_forM, List.forM_cons, ends_bind]
    refine (ends_releasePage_of_arranged hlive h (Function.update_self ..) rfl).imp
      (fun _ m₁ h₁ => ?_) fun _ _ _ => trivial
    obtain ⟨hbooks, h₁⟩ := h₁
    rw [Function.update_idem] at h₁
    exact (ih ((hbooks.exited p).trans hlive) h₁).returns fun _ m' h' => ⟨hbooks.trans h'.1, h'.2⟩

/-- A mapping is released. -/
theorem ends_releaseMapping_of_arranged (hlive : (m.process p).exited = false) (h : m.Arranged L)
    (hmp : L (p, k) = some mp) :
    Ends (releaseMapping p mp) m (fun _ m' => m.SameBooks m' ∧ m'.Arranged (Function.update L (p, k) none))
      fun _ _ => True := by
  have hstart : m.Arranged (Function.update L (p, k) (some ⟨mp.file, mp.pages.toList.toArray⟩)) := by
    rw [Function.update_eq_self_iff.2 hmp.symm]
    exact h
  rw [releaseMapping, ends_bind]
  refine (ends_releasePages_of_arranged _ hlive hstart).imp (fun _ m₁ h₁ => ?_) fun _ _ _ => trivial
  obtain ⟨hbooks, h₁⟩ := h₁
  have hclosed := sameLayout_files m₁ (FileSystem.close m₁.files mp.file)
  have hgone : m₁.Arranged (Function.update _ (p, k) none) := h₁.update_of_nil (by simp) (by simp)
  rw [Function.update_idem] at hgone
  exact ⟨hbooks.trans hclosed.sameBooks, hgone.congr hclosed⟩

/-- The mappings of a list are released one after the other. -/
theorem ends_releaseMappings_of_arranged : ∀ (l : List (Nat × Mapping)) {L : Catalogue} {m : Machine φ},
    (m.process p).exited = false → m.Arranged L → (∀ x ∈ l, L (p, y, x.1) = some x.2) →
    (l.map (·.1)).Nodup →
    Ends (l.forM fun (_, mp) => releaseMapping p mp) m (fun _ m' => m.SameBooks m' ∧
      m'.Arranged (l.foldl (fun L x => Function.update L (p, y, x.1) none) L)) fun _ _ => True := by
  intro l
  induction l with
  | nil => exact fun _ h _ _ => ⟨.refl _, h⟩
  | cons x l ih =>
    intro L m hlive h hlist hnodup
    obtain ⟨hx, hlist⟩ := List.forall_mem_cons.1 hlist
    rw [List.map_cons, List.nodup_cons] at hnodup
    rw [List.forM_eq_forM, List.forM_cons, ends_bind]
    refine (ends_releaseMapping_of_arranged hlive h hx).imp (fun _ m₁ h₁ => ?_) fun _ _ _ => trivial
    obtain ⟨hbooks, h₁⟩ := h₁
    refine (ih ((hbooks.exited p).trans hlive) h₁ (fun x' hx' => ?_) hnodup.2).returns fun _ m' h' =>
      ⟨hbooks.trans h'.1, h'.2⟩
    rw [Function.update_of_ne, hlist x' hx']
    intro heq
    simp only [Prod.mk.injEq, true_and] at heq
    exact hnodup.1 (heq ▸ List.mem_map_of_mem hx')

/-! ### Whole tables -/

theorem ends_mapFile_of_arranged (hlive : (m.process p).exited = false) (h : m.Arranged (L.withTable p y t))
    (hfree : t.live[t.nextId]? = none) (file : Handle) (addr : Nat) :
    Ends (mapFile t p file addr) m (fun r m' => t.Numbers r.1 r.2 ∧ m.SameBooks m' ∧
      m'.Arranged (L.withTable p y r.2)) fun _ _ => True := by
  have hrefused : ∀ {files : φ} e, t.Numbers (.error e) t ∧ m.SameBooks (m.withFiles files) ∧
      (m.withFiles files).Arranged (L.withTable p y t) := fun {files} e =>
    ⟨.failed e, (sameLayout_files m files).sameBooks, h.congr (sameLayout_files m files)⟩
  rw [mapFile, ends_ite]
  split
  · exact ⟨.failed _, .refl m, h⟩
  rw [ends_bind, ends_of_eq (fileLength_eq m file), ends_ite]
  split
  · exact hrefused _
  rw [ends_ite]
  split
  · exact hrefused _
  rw [ends_bind, ends_of_eq (reopenFile_eq _ file), ends_bind]
  set handle := (FileSystem.reopen (m.withFiles (FileSystem.length m.files file).2).files file).1
  set m₁ := (m.withFiles _).withFiles _ with hm₁
  have hbooks₁ : m.SameBooks m₁ := (sameLayout_files m _).sameBooks
  have hkey : L.withTable p y t (p, y, t.nextId) = none := by rw [Catalogue.withTable_self, hfree]
  -- the mapping is there from the start, with no page yet
  have h₁ : m₁.Arranged (L.withTable p y t) := h.congr (sameLayout_files m _)
  have hempty : m₁.Arranged (Function.update (L.withTable p y t) (p, y, t.nextId) (some ⟨handle, #[]⟩)) :=
    h₁.update_of_nil (by simp [hkey]) (by simp)
  refine (ends_declareTiles_of_arranged addr _ #[] ((hbooks₁.exited p).trans hlive) hempty
    fun r hr => ⟨file_of_mem_tiles hr, readLen_add_zeroLen_of_mem_tiles hr⟩).imp ?_ fun _ _ hno => hno.elim
  rintro ⟨pages, failure⟩ m₂ ⟨hbooks₂, h₂⟩
  have hbooks₂ := hbooks₁.trans hbooks₂
  cases failure with
  | none =>
    simp only [ends_bind, ends_process, ends_emit, ends_pure]
    refine ⟨.made _, hbooks₂.trans (SameLayout.sameBooks (Bears.report _ _)), ?_⟩
    rw [Catalogue.withTable_add]
    exact h₂.congr (Bears.report _ _)
  | some e =>
    rw [ends_bind]
    refine (ends_releaseMapping_of_arranged ((hbooks₂.exited p).trans hlive) h₂
      (Function.update_self ..)).imp (fun _ m₃ h₃ => ?_) fun _ _ _ => trivial
    obtain ⟨hbooks₃, h₃⟩ := h₃
    rw [Function.update_idem, Function.update_eq_self_iff.2 hkey.symm] at h₃
    exact ⟨.failed _, hbooks₂.trans hbooks₃, h₃⟩

theorem ends_unmapFile_of_arranged (hlive : (m.process p).exited = false)
    (h : m.Arranged (L.withTable p y t)) (id : Nat) :
    Ends (unmapFile t p id) m (fun t' m' => t.Shrinks t' ∧ m.SameBooks m' ∧
      m'.Arranged (L.withTable p y t')) fun _ _ => True := by
  rw [unmapFile]
  cases hid : t.live[id]? with
  | none => exact ⟨⟨rfl, fun h => h⟩, .refl m, h⟩
  | some mp =>
    simp only [ends_bind, ends_process, ends_emit]
    set m₁ := m.report (.fileUnmapped (m.process p).pid id) with hm₁
    have hreport : m.SameLayout m₁ := Bears.report _ _
    refine (ends_releaseMapping_of_arranged (m := m₁) (k := (y, id)) hlive (h.congr hreport) ?_).imp
      (fun _ m₂ h₂ => ?_) fun _ _ _ => trivial
    · rw [Catalogue.withTable_self, hid]
    · refine ⟨t.shrinks_erase id, hreport.sameBooks.trans h₂.1, ?_⟩
      rw [Catalogue.withTable_erase]
      exact h₂.2

theorem ends_unmapAll_of_arranged (hlive : (m.process p).exited = false)
    (h : m.Arranged (L.withTable p y t)) :
    Ends (unmapAll t p) m (fun t' m' => t' = t.clear ∧ m.SameBooks m' ∧
      m'.Arranged (L.withTable p y t')) fun _ _ => True := by
  have hlist : ∀ x ∈ t.live.toList, L.withTable p y t (p, y, x.1) = some x.2 := by
    intro x hx
    rw [Catalogue.withTable_self]
    exact Std.ExtTreeMap.mem_toList_iff_getElem?_eq_some.1 hx
  have hnodup : (t.live.toList.map (·.1)).Nodup := by
    rw [List.nodup_iff_pairwise_ne, List.pairwise_map]
    exact Std.ExtTreeMap.distinct_keys_toList.imp fun hne heq => hne (Nat.compare_eq_eq.2 heq)
  rw [unmapAll, ends_bind]
  refine (ends_releaseMappings_of_arranged _ hlive h hlist hnodup).imp (fun _ m₁ h₁ => ?_) fun _ _ _ => trivial
  rw [Catalogue.withTable_clear] at h₁
  exact ⟨rfl, h₁.1, h₁.2⟩

/-! ### The end of a process -/

omit [FileSystem φ] in
/-- All pages of a process are forgotten and discarded. -/
theorem ends_destroy_of_arranged (hlive : (m.process p).exited = false) (h : m.Arranged L) :
    Ends (destroy p) m (fun _ m' => m.SameBooks m' ∧ m'.Arranged (L.without p) ∧
      ∀ u, m'.declaredAt p u = none) fun _ _ => True := by
  rw [destroy, ends_bind, ends_process, ends_bind, ends_modifyProcess]
  set m₁ := m.withProcess p fun proc => { proc with declared := ∅ } with hm₁
  have hbooks₁ : m.SameBooks m₁ := fun q => by
    rw [hm₁, process_withProcess]
    split <;> exact ⟨rfl, rfl⟩
  have hgone : ∀ u, m₁.declaredAt p u = none := fun u => by
    rw [declaredAt, hm₁, process_withProcess, if_pos ⟨rfl, lt_of_live hlive⟩]
    exact Std.ExtTreeMap.getElem?_empty
  have hrest : ∀ pages : List PageId, Moves SameLayout (do
      pages.forM (discard p)
      emit (.destroyed (← process p).pid) : Kernel φ Unit) := fun pages =>
    moves_bind (moves_forM pages fun i _ => moves_discard i) fun _ => moves_bind (moves_process p) fun _ =>
      moves_emit _
  refine (hrest _ m₁).imp (fun _ m₂ h₂ => ?_) fun _ _ _ => trivial
  refine ⟨hbooks₁.trans h₂.sameBooks, (h.forgettingEverything p).congr h₂, fun u => ?_⟩
  rw [h₂.declaredAt, hgone]

/-- A process that exits leaves no page and no mapping. -/
theorem ends_exit_of_arranged (hlive : (m.process p).exited = false)
    (h : m.Arranged (L.withTable p none (m.process p).mappings)) :
    Ends (exit p) m (fun _ m' => m'.Arranged (L.without p) ∧ (m'.process p).exited = true ∧
      (m'.process p).mappings = (m.process p).mappings.clear ∧
      ∀ q, q ≠ p → (m'.process q).mappings = (m.process q).mappings ∧
        (m'.process q).exited = (m.process q).exited) fun _ _ => True := by
  have hreport : m.SameLayout (m.report (.exiting (m.process p).pid)) := Bears.report _ _
  rw [exit, ends_bind, ends_process, ends_bind, ends_emit, ends_bind, ends_process, ends_bind]
  refine (ends_unmapAll_of_arranged (m := m.report _) (t := (m.process p).mappings) hlive
    (h.congr hreport)).imp ?_ fun _ _ _ => trivial
  rintro _ m₁ ⟨rfl, hbooks₁, h₁⟩
  have hlive₁ : (m₁.process p).exited = false := (hbooks₁.exited p).trans hlive
  rw [ends_bind, ends_modifyProcess, ends_bind]
  set m₂ := m₁.withProcess p fun proc => { proc with mappings := (m.process p).mappings.clear } with hm₂
  have h₂ : m₂.Arranged (L.withTable p none (m.process p).mappings.clear) :=
    h₁.withProcess (fun _ => rfl) fun hi => h₁.live hi
  have hown₂ : m₂.process p = { m₁.process p with mappings := (m.process p).mappings.clear } := by
    rw [hm₂, process_withProcess, if_pos ⟨rfl, lt_of_live hlive₁⟩]
  have hlive₂ : (m₂.process p).exited = false := by
    rw [hown₂]
    exact hlive₁
  refine (ends_destroy_of_arranged hlive₂ h₂).imp ?_ fun _ _ _ => trivial
  rintro _ m₃ ⟨hbooks₃, h₃, hgone⟩
  have hp₃ : p < m₃.processes.size := lt_of_live ((hbooks₃.exited p).trans hlive₂)
  rw [Catalogue.without_withTable] at h₃
  rw [ends_modifyProcess]
  refine ⟨h₃.withProcess (fun _ => rfl) fun {w i} hi => ?_, ?_, ?_, fun q hq => ?_⟩
  · -- nothing is declared any more
    simp [hgone] at hi
  · rw [process_withProcess, if_pos ⟨rfl, hp₃⟩]
  · rw [process_withProcess, if_pos ⟨rfl, hp₃⟩]
    exact (hbooks₃ p).1.trans (by rw [hown₂])
  · have hother : m₂.process q = m₁.process q := by
      rw [hm₂, process_withProcess, if_neg fun hqp => hq hqp.1.symm]
    rw [process_withProcess, if_neg fun hqp => hq hqp.1.symm]
    exact ⟨(hbooks₃ q).1.trans (by rw [hother, (hbooks₁ q).1]; rfl),
      (hbooks₃ q).2.trans (by rw [hother, (hbooks₁ q).2]; rfl)⟩

end

end Kernel

end DemandPaging
