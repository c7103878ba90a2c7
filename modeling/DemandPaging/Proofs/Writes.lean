import DemandPaging.File.Memory
import DemandPaging.Proofs.WriteBack

/-!
# When files are written to

A file is written to when a page leaves memory that has been stored to since it came in, and at no
other time. `Chronicle` goes along with a run and notes which pages have been stored to since;
`Machine.WritesBack` compares the journal of the file system before and after an operation with the
pages that have left memory in between. Nothing is assumed of the files.
-/

namespace DemandPaging

/-- Whether the call is a write. -/
def FileCall.isWrite : FileCall → Bool
  | .write .. => true
  | _ => false

namespace Journal

variable {φ : Type} [FileSystem φ]

/-- The writes that have been made, in order. -/
def writes (j : Journal φ) : List FileCall := j.calls.toList.filter FileCall.isWrite

/-- The journal has all writes, and only them. -/
theorem writes_of_calls {j j' : Journal φ} {calls : List FileCall} (h : Calls j calls j') :
    j'.writes = j.writes ++ calls := by
  induction h with
  | refl => rw [List.append_nil]
  | consult _ consulted ih =>
    rw [← ih]
    cases consulted <;>
      simp [writes, FileSystem.length, FileSystem.reopen, FileSystem.close, FileSystem.readAt,
        FileCall.isWrite]
  | write _ file offset data ih =>
    rw [← List.append_assoc, ← ih]
    simp [writes, FileSystem.writeAt, FileCall.isWrite]

end Journal

namespace Machine

variable {φ : Type}

/-- The write that the page of a process at an address owes when it leaves memory: the part of its
frame that its file has room for, to its own region. Only a page of a mapped file, or a page of a
program's file that may be written to and that no zeros fill up, can owe one, and only if it is in
memory and dirty. -/
def owes (m : Machine φ) (x : ProcId × Nat) : Option FileCall :=
  (m.declaredAt x.1 x.2).bind fun i => (m.page i).target?.bind fun r =>
    if (m.process x.1).table.isDirty x.2 then
      (m.page i).frame.map fun f => .write r.file r.offset ((m.pool.read f).slice 0 r.readLen)
    else none

/-- A page that was in memory is not any more, either because it has been evicted or because the
mapping of its file has been released. -/
def Sheds (m m' : Machine φ) (x : ProcId × Nat) : Prop :=
  ∃ i, m.declaredAt x.1 x.2 = some i ∧ (m.page i).frame.isSome = true ∧ (m'.page i).frame = none ∧
    (m'.declaredAt x.1 x.2 = some i ∨ ∃ r, (m.page i).backing = .mapped r)

/-- The pages `us` have been shed, in this order, and each has had written what it owed, once; no other
write has been made. -/
structure WritesBack (m m' : Machine (Journal φ)) (us : List (ProcId × Nat)) : Prop where
  nodup : us.Nodup
  mem : ∀ x, x ∈ us ↔ m.Sheds m' x
  writes : m'.files.calls.toList.filter FileCall.isWrite =
    m.files.calls.toList.filter FileCall.isWrite ++ us.filterMap m.owes
  /-- A write covers the region of a page that may be written to, through its own handle. -/
  within : ∀ x ∈ us, ∀ c, m.owes x = some c → ∃ i r data, m.declaredAt x.1 x.2 = some i ∧
    (m.page i).target? = some r ∧ (m.page i).writable = true ∧
    c = .write r.file r.offset data ∧ data.length = r.readLen

/-- The page has been in memory all along. -/
def Stays (m m' : Machine φ) (x : ProcId × Nat) : Prop :=
  ∃ i f, m.declaredAt x.1 x.2 = some i ∧ m'.declaredAt x.1 x.2 = some i ∧
    (m.page i).frame = some f ∧ (m'.page i).frame = some f

/-- The pages that have been stored to since they came in, after an operation, when `hits` are those
before it. -/
def hitsAfter (m m' : Machine φ) (p : ProcId) (hits : Set (ProcId × Nat)) :
    Op → Answer → Set (ProcId × Nat)
  | .store a data, .stored fault =>
    hits ∪ {x | x.1 = p ∧ ∃ j < (written a data fault).length, pageBase (a + j) = x.2}
  | _, _ => {x ∈ hits | m.Stays m' x}

end Machine

variable {φ : Type} [FileSystem φ]

/-- A run, and the pages that have been stored to since they came in last. An operation that is made
up of others goes into it part by part. -/
inductive Chronicle : Machine φ → Set (ProcId × Nat) → Prop
  | start {frames base : Nat} {pool : Pool} {refuses : Nat → Bool} {files : φ} {devices : Registry}
      {m : Machine φ} (create : Pool.create frames base = .ok pool)
      (sizes : ∀ d ∈ devices.devices, d.size < Swap.sectorLimit)
      (run : Kernel.start { Machine.bare ⟨pool, 0, refuses⟩ files with devices } = .ok () m) :
      Chronicle m ∅
  | spawn {m m' : Machine φ} {hits : Set (ProcId × Nat)} {pid : UInt16} {limit : Option Nat}
      {p : ProcId} (before : Chronicle m hits) (run : Kernel.spawn pid limit m = .ok p m') :
      Chronicle m' hits
  | perform {m m' : Machine φ} {hits : Set (ProcId × Nat)} {p : ProcId} {op : Op} {answer : Answer}
      (before : Chronicle m hits) (basic : op.basic = true)
      (run : Kernel.perform p op m = .ok answer m') : Chronicle m' (m.hitsAfter m' p hits op answer)

open Machine Kernel View

variable {m m' : Machine φ} {hits : Set (ProcId × Nat)} {p q : ProcId} {u : Nat} {op : Op}

/-! ### The pages that have been stored to -/

theorem Chronicle.reachable (h : Chronicle m hits) : Reachable m := by
  induction h with
  | start create sizes run => exact .start create sizes run
  | spawn _ run ih => exact .spawn ih run
  | perform _ _ run ih => exact .perform ih run

theorem Kernel.Parts.chronicle (h : Parts op p m m') (hm : Chronicle m hits) :
    ∃ hits', Chronicle m' hits' := by
  induction h with
  | refl => exact ⟨hits, hm⟩
  | tail _ hstep ih =>
    obtain ⟨o, answer, ho, hrun⟩ := hstep
    obtain ⟨hits', hm'⟩ := ih
    exact ⟨_, .perform hm' (basic_of_part ho) hrun⟩

/-- Every run has its chronicle. -/
theorem Reachable.exists_chronicle (h : Reachable m) : ∃ hits, Chronicle m hits := by
  induction h with
  | start create sizes run => exact ⟨∅, .start create sizes run⟩
  | spawn _ run ih =>
    obtain ⟨hits, hm⟩ := ih
    exact ⟨hits, .spawn hm run⟩
  | @perform m m' p op answer reach run ih =>
    obtain ⟨hits, hm⟩ := ih
    cases hop : op.basic with
    | true => exact ⟨_, .perform hm hop run⟩
    | false =>
      obtain ⟨hparts, -⟩ := (splits_perform reach.steady hop).of_ok run
      exact hparts.chronicle hm

/-- The dirty pages are those that have been stored to since they came in. -/
theorem Chronicle.dirty_iff (h : Chronicle m hits) : ∀ q u,
    m.scene.dirty q u = true ↔ (q, u) ∈ hits := by
  induction h with
  | @start _ _ _ _ _ _ m create sizes run =>
    intro q u
    have hm := steady_of_start create sizes run
    have hnone : m.scene.own q u = none := declaredAt_of_start run q u
    have hclean := hm.sound.housed.clean q u (by rw [hm.sound.housed.mapping?, hnone, Option.bind_none])
    simp [hclean]
  | @spawn m m' hits pid limit p before run ih =>
    obtain ⟨-, rfl⟩ := EStateM.Result.ok.inj run
    have hshows := before.reachable.steady.shows_spawn pid limit
    rw [← hshows.eq_scene rfl]
    exact ih
  | @perform m m' hits p op answer before basic run ih =>
    have hm := before.reachable.steady
    have hdone := (ends_perform_basic hm basic).of_ok run
    intro q u
    have hkeeps : (∀ a data, op ≠ .store a data) →
        (m'.scene.dirty q u = true ↔ (q, u) ∈ {x ∈ hits | m.Stays m' x}) := fun hop => by
      rw [(hdone.does.carries basic hop hm.sound).dirty_iff hdone.steady.sound, ih]
      rfl
    cases op with
    | store a data =>
      obtain ⟨fault, cell, dirty, rfl, hstores, heq⟩ := hdone.does
      rw [heq, hstores.dirty, ih]
      rfl
    | _ => exact hkeeps (by simp)

theorem Reachable.marked (h : Reachable m) : m.scene.Marked := by
  induction h with
  | @start _ _ _ _ _ _ m create sizes run =>
    have hnone : ∀ p u, m.scene.own p u = none := declaredAt_of_start run
    exact ⟨fun hi => by simp [hnone] at hi, fun hi => by simp [hnone] at hi⟩
  | @spawn m m' pid limit p reach run ih =>
    obtain ⟨-, rfl⟩ := EStateM.Result.ok.inj run
    rw [← (reach.steady.shows_spawn pid limit).eq_scene rfl]
    exact Effect.spawn.marked reach.steady.sound ih
  | @perform m m' p op answer reach run ih =>
    have hdone := (ends_perform reach.steady p op).of_ok run
    exact hdone.does.path.marked reach.steady.sound ih

/-! ### The writes -/

omit [FileSystem φ] in
theorem Machine.Steady.owes (h : m.Steady) (x : ProcId × Nat) : m.owes x = m.scene.owes x := by
  have hframe : ∀ {i f}, m.scene.own x.1 x.2 = some i → (m.scene.page i).frame = some f →
      m.scene.cell f.cell = some (m.pool.read f) := by
    intro i f hi hf
    obtain ⟨b, hb⟩ := h.sound.housed.exists_cell hi hf
    rw [hb, h.shows.read_of_cell hb]
  rw [Machine.owes, View.owes]
  refine Option.bind_congr fun i hi => Option.bind_congr fun r _ => ?_
  cases hf : (m.page i).frame with
  | none => rw [write?_of_away hf, Option.map_none, ite_self]
  | some f =>
    have hf' : (m.scene.page i).frame = some f := hf
    rw [View.write?, hf', Option.bind_some, hframe hi hf', Option.map_some, Option.map_some]
    rfl

/-- What the view says of the writes, the journal says. -/
theorem Machine.WritesBack.of_view {m m' : Machine (Journal φ)} {w : View (Journal φ)}
    {us : List (ProcId × Nat)} (hm : m.Steady) (hmarked : m.scene.Marked)
    (h : m.scene.WritesBack w us) (hw : w.declared = w.own) (hm' : m'.Resembles w) :
    m.WritesBack m' us where
  nodup := h.nodup
  mem x := by
    rw [h.mem]
    refine exists_congr fun i => ?_
    show _ ∧ _ ∧ (w.page i).frame = none ∧ (w.own _ _ = _ ∨ _) ↔
      _ ∧ _ ∧ (m'.page i).frame = none ∧ (m'.declaredAt _ _ = _ ∨ _)
    rw [hm'.frame, hm'.declared, hw]
    rfl
  writes := by
    rw [funext hm.owes]
    have hwrites := Journal.writes_of_calls h.calls
    rwa [← hm'.files] at hwrites
  within := by
    rintro ⟨p, u⟩ - c hc
    obtain ⟨i, hi, hc⟩ := Option.bind_eq_some_iff.1 hc
    obtain ⟨r, hr, hc⟩ := Option.bind_eq_some_iff.1 hc
    rw [Option.ite_none_right_eq_some] at hc
    obtain ⟨hd, hc⟩ := hc
    obtain ⟨f, -, rfl⟩ := Option.map_eq_some_iff.1 hc
    refine ⟨i, r, _, hi, hr, hmarked.rights hi hd, rfl, ?_⟩
    have hfits : r.readLen + r.zeroLen = pageSize :=
      hm.sound.owned.fits (p := p) (u := u) hi (Page.region?_of_target? hr)
    rw [Bytes.length_slice]
    omega

/-- In every state of a run, whatever the files do, the dirty pages are those that have been stored to
since they came in last. An operation that is not made up of others makes those writes that the pages
owe which it takes out of memory, whether it is answered or stops; an operation that is made up of
others runs as its parts. -/
theorem Reachable.writes_back {m : Machine (Journal φ)} (h : Reachable m) (p : ProcId) (op : Op) :
    (∃ hits, Chronicle m hits) ∧
    (∀ hits, Chronicle m hits → ∀ q u, (m.process q).table.isDirty u = true ↔ (q, u) ∈ hits) ∧
    (op.basic = true → Ends (Kernel.perform p op) m (fun _ m' => ∃ us, m.WritesBack m' us)
      fun _ m' => ∃ us, m.WritesBack m' us) ∧
    (op.basic = false → Splits op p (Kernel.perform p op) m fun _ _ => True) := by
  have hm := h.steady
  refine ⟨h.exists_chronicle, fun hits hc => hc.dirty_iff, fun hbasic => ?_, splits_perform hm⟩
  refine (ends_perform_basic hm hbasic).imp (fun answer m' hdone => ?_) fun e m' hstops => ?_
  · obtain ⟨us, hus⟩ := hdone.does.writesBack hbasic hm.sound h.marked
    exact ⟨us, .of_view hm h.marked hus rfl hdone.steady.shows.resembles⟩
  · obtain ⟨-, w, w', hroom, hcases, hresembles⟩ := hstops
    obtain ⟨us, hus⟩ := hroom.writesBack hm.sound h.marked
    have hdeclared : w.declared = w.own := by
      rw [hroom.spares.declared, hroom.spares.own]
      rfl
    rcases hcases with rfl | he
    · exact ⟨us, .of_view hm h.marked hus hdeclared hresembles⟩
    · cases he with
      | @consult _ files consulted =>
        have hus' : m.scene.WritesBack (w.setFiles files) us :=
          hus.congr (fun _ _ => ⟨Iff.rfl, Iff.rfl⟩) (.consult .refl consulted)
        exact ⟨us, .of_view hm h.marked hus' hdeclared hresembles⟩

/-- A page of a mapped file of three bytes has been stored to when its mapping is released. -/
theorem writes_back_of_unmapped : ∃ m : Machine (Journal MemoryFiles), Reachable m ∧
    m.owes (0, 0x10000000) = some (.write 0 0 [1, 7, 3]) ∧
    (∃ hits, Chronicle m hits) ∧
    (∀ hits, Chronicle m hits → ∀ q u, (m.process q).table.isDirty u = true ↔ (q, u) ∈ hits) ∧
    Ends (perform 0 (.munmap 0)) m (fun _ m' => ∃ us, m.WritesBack m' us)
      fun _ m' => ∃ us, m.WritesBack m' us := by
  obtain ⟨m, hm, -, hP⟩ := exists_reachable 1 1
    (.start ⟨#[⟨[1, 2, 3], none, none⟩]⟩ : Journal MemoryFiles)
    [(0, .mmap 0 0x10000000), (0, .resolve 0x10000000), (0, .store 0x10000001 [7])]
    (fun m => m.owes (0, 0x10000000) == some (.write 0 0 [1, 7, 3])) (by decide +kernel)
  obtain ⟨hchronicle, hdirty, hwrites, -⟩ := hm.writes_back 0 (.munmap 0)
  exact ⟨m, hm, beq_iff_eq.1 hP, hchronicle, hdirty, hwrites rfl⟩

end DemandPaging
