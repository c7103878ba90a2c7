import DemandPaging.Proofs.FileCalls
import DemandPaging.Proofs.Honest

/-!
# What a page holds

A page holds the same bytes whether it is in a frame, in a slot or in its file, and `View.image` reads
them wherever they are. A page in memory that is kept in its file agrees with it until it is written
to; `View.Filed` says so. An effect leaves all pages alone but one, and that one keeps its image, with
one exception: what has been stored past the end of a mapped file goes when the page is evicted.
-/

namespace DemandPaging

/-- The byte at offset `o` of the contents of a page. -/
def Bytes.byte (b : PageBytes) (o : Nat) : UInt8 := b.data[o]?.getD 0

theorem Bytes.getElem?_eq_byte (b : PageBytes) {o : Nat} (ho : o < pageSize) :
    b.data[o]? = some (b.byte o) := by
  rw [byte, List.getElem?_eq_getElem (by rw [b.length_data]; exact ho), Option.getD_some]

namespace Page

/-- The region that the page may be written back to. -/
def target? (pg : Page) : Option Region :=
  match pg.backing with
  | .swap => none
  | .file r => if pg.writable = true ∧ r.zeroLen = 0 then some r else none
  | .mapped r => some r

/-- What is stored at offset `o` goes when the page is evicted: it lies past the end of a mapped
file. -/
def drops (pg : Page) (o : Nat) : Bool :=
  match pg.backing with
  | .mapped r => r.readLen ≤ o
  | _ => false

theorem drops_iff {pg : Page} {o : Nat} :
    pg.drops o = true ↔ ∃ r, pg.backing = .mapped r ∧ r.readLen ≤ o := by
  unfold drops
  cases pg.backing <;> simp

theorem region?_of_target? {pg : Page} {r : Region} (h : pg.target? = some r) :
    pg.backing.region? = some r := by
  unfold target? at h
  cases hb : pg.backing with
  | swap => simp [hb] at h
  | file r' =>
    simp only [hb, Option.ite_none_right_eq_some] at h
    exact h.2
  | mapped r' => simpa [hb, Backing.region?] using h

theorem target?_of_mapped {pg : Page} {r : Region} (h : pg.backing = .mapped r) :
    pg.target? = some r := by rw [target?, h]

/-- What a page that is written back on eviction is like. -/
theorem target?_of_writtenBack {pg : Page} {dirty : Bool} (h : pg.disposal dirty = .writtenBack)
    (hw : dirty = true → pg.writable = true) {r : Region} (hr : pg.backing.region? = some r) :
    pg.target? = some r ∧ (pg.backing = .mapped r ∨ r.zeroLen = 0) := by
  obtain ⟨hdirty, -, hroom⟩ := disposal_eq_writtenBack_iff.1 h
  unfold target?
  cases hb : pg.backing with
  | swap => simp [hb, Backing.region?] at hr
  | mapped r' =>
    rw [hb, Backing.region?, Option.some.injEq] at hr
    subst hr
    exact ⟨rfl, .inl rfl⟩
  | file r' =>
    rw [hb, Backing.region?, Option.some.injEq] at hr
    subst hr
    exact ⟨if_pos ⟨hw hdirty, hroom r' hb⟩, .inr (hroom r' hb)⟩

/-- A page that goes to swap space on eviction has no place in its file, if its flag is set only for want of
room. -/
theorem target?_of_swappedOut {pg : Page} {dirty : Bool} (h : pg.disposal dirty = .swappedOut)
    (hflag : pg.anonymous = true → ∃ r, pg.backing = .file r ∧ 0 < r.zeroLen) : pg.target? = none := by
  have hfull : ∀ {r : Region}, pg.backing = .file r → 0 < r.zeroLen → pg.target? = none := fun hb hz => by
    simp [target?, hb, Nat.pos_iff_ne_zero.1 hz]
  rcases disposal_eq_swappedOut_iff.1 h with hkept | ⟨-, r, hb, hz⟩
  · rcases pg.keeping_eq_swap_iff.1 hkept with hb | ⟨-, ha⟩
    · rw [target?, hb]
    · obtain ⟨r, hb, hz⟩ := hflag ha
      exact hfull hb hz
  · exact hfull hb hz

end Page

variable {φ : Type} [FileSystem φ] (H : Honest φ)

/-- The handles that have been given out lead to the same files. -/
def Honest.Same (s s' : φ) : Prop :=
  ∀ h, H.known s h = true → H.known s' h = true ∧ H.file s' h = H.file s h

variable {H} in
/-- As long as nothing is written, the files have what they had, and the handles lead to them. -/
theorem Honest.unwritten {s s' : φ} (h : Calls s [] s') :
    H.contents s' = H.contents s ∧ H.Same s s' := by
  generalize hnil : ([] : List FileCall) = calls at h
  induction h with
  | refl => exact ⟨rfl, fun _ hk => ⟨hk, rfl⟩⟩
  | consult _ consulted ih =>
    obtain ⟨hcontents, hsame⟩ := ih hnil
    refine ⟨(H.unchanged consulted).trans hcontents, fun f hk => ?_⟩
    obtain ⟨hk', hfile'⟩ := hsame f hk
    obtain ⟨hk'', hfile''⟩ := H.consulted consulted hk'
    exact ⟨hk'', hfile''.trans hfile'⟩
  | write => simp at hnil

namespace View

/-- The byte at offset `o` of page `i`, wherever the page is. -/
def image (v : View φ) (i : PageId) (o : Nat) : UInt8 :=
  match (v.page i).frame, (v.page i).slot with
  | some f, _ => (v.cell f.cell).elim 0 (·.byte o)
  | none, some s => (v.slot s).elim 0 (·.byte o)
  | none, none => H.first v.files (v.page i) o

/-- No region that a page may be written back to meets the region of another page. -/
def Apart (v : View φ) : Prop :=
  ∀ {p q u w i j r r'}, v.own p u = some i → v.own q w = some j → i ≠ j →
    (v.page i).target? = some r → (v.page j).backing.region? = some r' → ¬ H.Meets v.files r r'

/-- What the page of process `p` at `u` has to do with its file. -/
structure Filed (v : View φ) (p : ProcId) (u : Nat) (i : PageId) : Prop where
  known : ∀ r, (v.page i).backing.region? = some r → H.known v.files r.file = true
  rights : v.dirty p u = true → (v.page i).writable = true
  inside : ∀ r f, (v.page i).frame = some f → (v.page i).keeping ≠ .swap →
    (v.page i).backing.region? = some r → H.Inside v.files r
  clean : ∀ f b, (v.page i).frame = some f → (v.page i).keeping ≠ .swap → v.dirty p u = false →
    v.cell f.cell = some b → ∀ o < pageSize, b.byte o = H.first v.files (v.page i) o

/-- Every page agrees with its file as far as it has to. -/
def Backed (v : View φ) : Prop := ∀ {p u i}, v.own p u = some i → v.Filed H p u i

/-- Nothing has happened to page `j`, which process `q` has at `w`, nor to what its file has of it. -/
structure Untouched (v v' : View φ) (q : ProcId) (w : Nat) (j : PageId) : Prop extends
    v.Retains v' q w j where
  inside : ∀ r, (v.page j).backing.region? = some r → H.Inside v.files r → H.Inside v'.files r
  first : ∀ o, H.first v'.files (v.page j) o = H.first v.files (v.page j) o

variable {H} {v v' v'' : View φ} {p q : ProcId} {u w : Nat} {i j : PageId} {f : Frame} {b : PageBytes}
  {s : Nat} {r : Region} {o : Nat}

/-! ### Images -/

theorem image_of_frame (hf : (v.page i).frame = some f) (hb : v.cell f.cell = some b) :
    v.image H i o = b.byte o := by
  unfold image
  rw [hf]
  simp only [hb, Option.elim_some]

theorem image_of_slot (hf : (v.page i).frame = none) (hs : (v.page i).slot = some s)
    (hb : v.slot s = some b) : v.image H i o = b.byte o := by
  unfold image
  rw [hf, hs]
  simp only [hb, Option.elim_some]

theorem image_of_file (hf : (v.page i).frame = none) (hs : (v.page i).slot = none) :
    v.image H i o = H.first v.files (v.page i) o := by
  unfold image
  rw [hf, hs]

/-! ### Pages that are left alone -/

/-- A page that is left alone is untouched when the files are. -/
theorem Retains.untouched (h : v.Retains v' q w j) (hfiles : v'.files = v.files) :
    v.Untouched H v' q w j :=
  ⟨h, fun _ _ hin => by rwa [hfiles], fun _ => by rw [hfiles]⟩

theorem Untouched.image (h : v.Untouched H v' q w j) (o : Nat) : v'.image H j o = v.image H j o := by
  unfold View.image
  rw [h.page]
  cases hf : (v.page j).frame with
  | some f => simp only [h.cell f hf]
  | none =>
    cases hs : (v.page j).slot with
    | some s => simp only [h.slot s hs]
    | none => exact h.first o

theorem Untouched.filed (h : v.Untouched H v' q w j) (hsame : H.Same v.files v'.files)
    (hj : v.Filed H q w j) : v'.Filed H q w j where
  known r hr := by
    rw [h.page] at hr
    exact (hsame r.file (hj.known r hr)).1
  rights hd := by
    rw [h.dirty] at hd
    rw [h.page, hj.rights hd]
  inside r f hf hk hr := by
    rw [h.page] at hf hk hr
    exact h.inside r hr (hj.inside r f hf hk hr)
  clean f b hf hk hd hb o ho := by
    rw [h.page] at hf hk ⊢
    rw [h.dirty] at hd
    rw [h.cell f hf] at hb
    rw [h.first, hj.clean f b hf hk hd hb o ho]

/-- A page that is left alone is untouched when the file system has been called, but not to write. -/
theorem Retains.untouched_of_consulted (h : v.Retains v' q w j) (hc : Consulted v.files v'.files)
    (hj : v.Filed H q w j) : v.Untouched H v' q w j := by
  refine ⟨h, fun r hr hin => ?_, fun o => ?_⟩
  · rw [Honest.Inside, H.data_consulted hc (hj.known r hr)]
    exact hin
  · rw [Honest.first, Honest.first]
    cases hr : (v.page j).backing.region? with
    | none => rfl
    | some r => exact H.byte_consulted hc (hj.known r hr) o

/-- A page that is left alone is untouched when another page has been written back, since their
regions do not meet. -/
theorem Retains.untouched_of_writeBack (h : v.Retains v' q w j) (hb : v.Backed H) (ha : v.Apart H)
    (hi : v.own p u = some i) (hr : (v.page i).target? = some r) (hj : v.own q w = some j)
    (hne : j ≠ i) (hfiles : v'.files = (v.writeBack r b).files) : v.Untouched H v' q w j := by
  have hknown := (hb hi).known r (Page.region?_of_target? hr)
  have hlen : (b.slice 0 r.readLen).length ≤ r.readLen := by
    rw [Bytes.length_slice]
    exact Nat.min_le_left _ _
  refine ⟨h, fun r' hr' hin => ?_, fun o => ?_⟩
  · rw [hfiles]
    exact (H.inside_writeAt hknown ((hb hj).known r' hr') _ _).2 hin
  · rw [hfiles, writeBack_files, Honest.first, Honest.first]
    cases hr' : (v.page j).backing.region? with
    | none => rfl
    | some r' =>
      exact H.byte_writeAt_of_not_meets hknown ((hb hj).known r' hr')
        (ha hi hj hne.symm hr hr') hlen o

end View

end DemandPaging
