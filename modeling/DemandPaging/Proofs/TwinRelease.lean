import DemandPaging.Proofs.Blind

/-!
# Giving pages up, side by side

Two runs give up the same pages in the same way. The one thing that bytes go into is a file, when a
changed page of a mapped file is written back. So it takes a condition: a page that is in memory `MayGo`
to its file if the file may differ, or else holds the same in both runs. Nothing that happens on the way
brings a page in or changes what a frame holds, so the condition is put on the machines at the start, and
`BlindSince` carries it along.
-/

namespace DemandPaging

variable {φ α β : Type} [FileSystem φ] {F : Discreet φ} {S : Set Nat}

namespace Machine

variable {m n m' n' : Machine φ} {i : PageId} {f : Frame} {r : Region}

/-- Frame `f` may be written to the region: the handle has been given out, and a file that is the same
in both runs is given the same bytes. -/
structure MayWrite (F : Discreet φ) (S : Set Nat) (m n : Machine φ) (f : Frame) (r : Region) : Prop where
  known : F.known m.files r.file = true
  same : F.file m.files r.file ∉ S → m.pool.read f = n.pool.read f

/-- Page `i` may be written to its file, if it is in memory and has one. -/
def MayGo (F : Discreet φ) (S : Set Nat) (m n : Machine φ) (i : PageId) : Prop :=
  ∀ f r, (m.page i).frame = some f → (m.page i).backing.region? = some r → m.MayWrite F S n f r

theorem Keeps.mayWrite (h : m.Keeps F ∅ n m' n') (hw : m.MayWrite F S n f r) : m'.MayWrite F S n' f r := by
  obtain ⟨hknown, hfile⟩ := h.files _ hw.known
  exact ⟨hknown, fun hout => h.cell f (Set.notMem_empty _) (hw.same (hfile ▸ hout))⟩

theorem Keeps.mayGo (h : m.Keeps F ∅ n m' n') (hi : m.MayGo F S n i) : m'.MayGo F S n' i := by
  intro f r hf hr
  obtain ⟨hf, hbacking⟩ := h.frame hf
  exact h.mayWrite (hi f r hf (hbacking ▸ hr))

theorem mayGo_of_away (haway : (m.page i).frame = none) : m.MayGo F S n i := fun f r hf => by
  simp [haway] at hf

/-- All pages of process `p` may be written to their files. -/
def MayLeave (F : Discreet φ) (S : Set Nat) (m n : Machine φ) (p : ProcId) : Prop :=
  ∀ u i, m.declaredAt p u = some i → m.MayGo F S n i

theorem Keeps.mayLeave {p : ProcId} (h : m.Keeps F ∅ n m' n') (hp : m.MayLeave F S n p) :
    m'.MayLeave F S n' p := by
  intro u i hi
  rcases h.declared hi with hold | haway
  · exact h.mayGo (hp u i hold)
  · exact mayGo_of_away haway.1

end Machine

namespace Kernel

open Machine

variable {m n : Machine φ} {p : ProcId} {u : Nat} {i : PageId} {f : Frame} {r : Region}

/-! ### Programs that are run later on -/

/-- Twins that have come of `m` and `n`, all that was the same being so still, do the same in the
program. -/
structure BlindSince (F : Discreet φ) (S : Set Nat) (m n : Machine φ) (x : Kernel φ α) : Prop where
  run : ∀ {m' n' : Machine φ}, m'.Twin F S n' → m.Keeps F ∅ n m' n' →
    Twins F S x x m' n' fun a m'' b n'' => a = b ∧ m.Keeps F ∅ n m'' n''

theorem BlindSince.of_blind {x : Kernel φ α} (h : Blind F S x) : BlindSince F S m n x := by
  refine ⟨fun htwin hkeeps => (h.run htwin).imp ?_⟩
  rintro a m' b n' - ⟨hab, hkeeps'⟩
  exact ⟨hab, hkeeps.trans hkeeps'⟩

theorem since_bind {x : Kernel φ β} {g : β → Kernel φ α} (hx : BlindSince F S m n x)
    (hg : ∀ a, BlindSince F S m n (g a)) : BlindSince F S m n (x >>= g) := by
  refine ⟨fun htwin hkeeps => twins_bind (hx.run htwin hkeeps) ?_⟩
  rintro a m' _ n' htwin' ⟨rfl, hkeeps'⟩
  exact (hg a).run htwin' hkeeps'

theorem since_forM {x : α → Kernel φ Unit} : ∀ {l : List α}, (∀ a ∈ l, BlindSince F S m n (x a)) →
    BlindSince F S m n (l.forM x)
  | [], _ => .of_blind (blind_pure _)
  | a :: l, hx => by
    rw [List.forM_eq_forM, List.forM_cons]
    exact since_bind (hx a List.mem_cons_self) fun _ => since_forM fun b hb => hx b (List.mem_cons_of_mem a hb)

/-- A page that is in memory later was in memory before, and had the same file. -/
theorem since_page {g : Page → Kernel φ α} (hg : ∀ pg : Page, (∀ f, pg.frame = some f →
      (m.page i).frame = some f ∧ (m.page i).backing = pg.backing) → BlindSince F S m n (g pg)) :
    BlindSince F S m n (page i >>= g) := by
  refine ⟨fun {m' n'} htwin hkeeps => ?_⟩
  refine twins_bind (R := fun a m₁ b n₁ => (a = m'.page i ∧ b = m'.page i) ∧ m₁ = m' ∧ n₁ = n')
    ⟨htwin, ⟨rfl, htwin.page i⟩, rfl, rfl⟩ ?_
  rintro _ _ _ _ - ⟨⟨rfl, rfl⟩, rfl, rfl⟩
  refine (hg _ fun f hf => ?_).run htwin hkeeps
  obtain ⟨hf, hbacking⟩ := hkeeps.frame hf
  exact ⟨hf, hbacking.symm⟩

theorem since_writeRegion (h : m.MayWrite F S n f r) : BlindSince F S m n (writeRegion r f) := by
  refine ⟨fun htwin hkeeps => ?_⟩
  have hwrite := hkeeps.mayWrite h
  refine (twins_writeRegion htwin r f hwrite.known hwrite.same).imp ?_
  rintro a m' b n' - ⟨hab, hkeeps'⟩
  exact ⟨hab, hkeeps.trans hkeeps'⟩

/-! ### Mapped files -/

theorem since_dismiss (hi : m.MayGo F S n i) (p : ProcId) (u : Nat) : BlindSince F S m n (dismiss p u i) := by
  refine since_bind (.of_blind (blind_pin i)) fun _ => since_page fun pg hpg => ?_
  refine since_bind (.of_blind (blind_modifyPage i (fun _ => .inr rfl) (fun _ => .inl rfl) fun _ => rfl)) fun _ => ?_
  cases hframe : pg.frame with
  | none => exact .of_blind (blind_unpin i)
  | some f =>
    refine since_bind (.of_blind (blind_unmapPage p u)) fun dirty => ?_
    have hrest : BlindSince F S m n (do freeFrame f; unpin i) :=
      .of_blind (blind_bind (blind_freeFrame f) fun _ => blind_unpin i)
    cases dirty with
    | false => exact hrest
    | true =>
      cases hbacking : pg.backing with
      | swap => exact hrest
      | file r => exact hrest
      | mapped r =>
        obtain ⟨hf, hback⟩ := hpg f hframe
        have hwrite : m.MayWrite F S n f r := hi f r hf (by rw [hback, hbacking]; rfl)
        refine since_bind (since_writeRegion hwrite) fun written => ?_
        dsimp only
        split
        · exact since_bind (.of_blind (blind_emit _)) fun _ => hrest
        · exact hrest

/-- The page that was declared at `u` is one that may go, or has been declared since and is not in
memory. -/
theorem since_releasePage (hp : m.MayLeave F S n p) (u : Nat) : BlindSince F S m n (releasePage p u) := by
  refine ⟨fun {m' n'} htwin hkeeps => ?_⟩
  have hforget : Ends (forget p u) m' (fun found _ => found = m'.declaredAt p u) fun _ _ => True := rfl
  refine twins_bind ((blind_forget p u).run htwin |>.left hforget) ?_
  rintro found m₁ _ n₁ htwin₁ ⟨⟨rfl, hkeeps₁⟩, hfound⟩
  cases found with
  | none => exact twins_pure htwin₁ ⟨rfl, hkeeps.trans hkeeps₁⟩
  | some i =>
    have hgo : m₁.MayGo F S n₁ i := hkeeps₁.mayGo (hkeeps.mayLeave hp u i hfound.symm)
    refine ((since_dismiss hgo p u).run htwin₁ (.refl _ _)).imp ?_
    rintro a m₂ b n₂ - ⟨hab, hkeeps₂⟩
    exact ⟨hab, (hkeeps.trans hkeeps₁).trans hkeeps₂⟩

theorem since_releaseMapping (hp : m.MayLeave F S n p) (mp : Mapping) :
    BlindSince F S m n (releaseMapping p mp) :=
  since_bind (since_forM fun u _ => since_releasePage hp u) fun _ => .of_blind (blind_closeFile mp.file)

theorem since_mapFile (hp : m.MayLeave F S n p) (t : MapTable) (file : Handle) (addr : Nat) :
    BlindSince F S m n (mapFile t p file addr) := by
  rw [mapFile]
  split
  · exact .of_blind (blind_pure _)
  refine since_bind (.of_blind (blind_fileLength file)) fun len => ?_
  split
  · exact .of_blind (blind_pure _)
  split
  · exact .of_blind (blind_pure _)
  refine since_bind (.of_blind (blind_reopenFile file)) fun handle => ?_
  refine since_bind (.of_blind (blind_declareTiles p addr _ _)) fun x => ?_
  obtain ⟨pages, failure⟩ := x
  cases failure with
  | some e => exact since_bind (since_releaseMapping hp _) fun _ => .of_blind (blind_pure _)
  | none =>
    exact .of_blind (blind_bind (blind_process p) fun proc => blind_bind (blind_emit _) fun _ => blind_pure _)

theorem since_mmap (hp : m.MayLeave F S n p) (file : Handle) (addr : Nat) :
    BlindSince F S m n (mmap p file addr) := by
  refine since_bind (.of_blind (blind_process p)) fun proc => since_bind (since_mapFile hp _ file addr) fun x => ?_
  exact .of_blind (blind_bind (blind_modifyProcess p fun _ _ _ hi => hi) fun _ => blind_pure _)

theorem since_munmap (hp : m.MayLeave F S n p) (id : Nat) : BlindSince F S m n (munmap p id) := by
  have hunmap : ∀ t : MapTable, BlindSince F S m n (unmapFile t p id) := by
    intro t
    rw [unmapFile]
    split
    · exact .of_blind (blind_pure _)
    · refine since_bind (.of_blind (blind_process p)) fun proc => since_bind (.of_blind (blind_emit _)) fun _ => ?_
      exact since_bind (since_releaseMapping hp _) fun _ => .of_blind (blind_pure _)
  refine since_bind (.of_blind (blind_process p)) fun proc => since_bind (hunmap _) fun t => ?_
  exact .of_blind (blind_modifyProcess p fun _ _ _ hi => hi)

/-! ### The end of a process -/

theorem since_exit (hp : m.MayLeave F S n p) : BlindSince F S m n (exit p) := by
  have hunmap : ∀ t : MapTable, BlindSince F S m n (unmapAll t p) := fun t =>
    since_bind (since_forM fun x _ => since_releaseMapping hp x.2) fun _ => .of_blind (blind_pure _)
  refine since_bind (.of_blind (blind_process p)) fun proc => since_bind (.of_blind (blind_emit _)) fun _ => ?_
  refine since_bind (.of_blind (blind_process p)) fun proc => since_bind (hunmap _) fun t => ?_
  refine since_bind (.of_blind (blind_modifyProcess p fun _ _ _ hi => hi)) fun _ => ?_
  exact since_bind (.of_blind (blind_destroy p)) fun _ => .of_blind (blind_modifyProcess p fun _ _ _ hi => hi)

end Kernel

end DemandPaging
