import DemandPaging.Proofs.Footprint
import DemandPaging.Proofs.Writes

/-!
# What the file system is asked

`Machine.Asks` compares the journal of the file system before and after a run: no call is lost, and every
call in between is of some kind. The release of a mapping asks the file system for nothing but the writes
that its pages owe, in the order of the pages, and for the end of its handle after them.
-/

namespace DemandPaging

variable {φ : Type}

/-- From one machine to the other, the calls `calls` have been made, in this order. -/
def Machine.Called (m : Machine (Journal φ)) (calls : List FileCall) (m' : Machine (Journal φ)) : Prop :=
  m'.files.calls.toList = m.files.calls.toList ++ calls

/-- From one machine to the other, no calls have been made but of the kind `kind`. -/
def Machine.Asks (kind : FileCall → Prop) (m m' : Machine (Journal φ)) : Prop :=
  ∃ calls, m.Called calls m' ∧ ∀ c ∈ calls, kind c

namespace Machine

variable {m m' m'' : Machine (Journal φ)} {kind : FileCall → Prop} {calls calls' : List FileCall}

theorem called_of_files (h : m'.files = m.files) : m.Called [] m' := by
  rw [Called, h, List.append_nil]

theorem Called.trans (h : m.Called calls m') (h' : m'.Called calls' m'') :
    m.Called (calls ++ calls') m'' := by
  rw [Called, ← List.append_assoc, ← h, h']

theorem Called.unique (h : m.Called calls m') (h' : m.Called calls' m') : calls = calls' :=
  List.append_cancel_left (h.symm.trans h')

theorem asks_of_files (h : m'.files = m.files) : m.Asks kind m' :=
  ⟨[], called_of_files h, by simp⟩

theorem Asks.mono {kind' : FileCall → Prop} (h : m.Asks kind m') (hkind : ∀ c, kind c → kind' c) :
    m.Asks kind' m' := by
  obtain ⟨calls, hcalls, hall⟩ := h
  exact ⟨calls, hcalls, fun c hc => hkind c (hall c hc)⟩

instance : Std.Refl (Asks (φ := φ) kind) := ⟨fun _ => asks_of_files rfl⟩

instance : IsTrans (Machine (Journal φ)) (Asks kind) where
  trans := by
    rintro m m' m'' ⟨calls, hcalls, hall⟩ ⟨calls', hcalls', hall'⟩
    exact ⟨_, hcalls.trans hcalls', fun c hc => (List.mem_append.1 hc).elim (hall c) (hall' c)⟩

instance : Kernel.Bears (Asks (φ := φ) kind) where
  report _ _ := asks_of_files rfl
  page _ _ _ _ := asks_of_files rfl
  memory _ _ := asks_of_files rfl
  slots _ _ := asks_of_files rfl
  devices _ _ := asks_of_files rfl

instance : Kernel.Frees (Asks (φ := φ) kind) where
  entries _ _ := asks_of_files rfl

instance (p : ProcId) (us : Set Nat) : Kernel.Recedes p us (Asks (φ := φ) kind) where
  unmap _ _ _ := asks_of_files rfl
  process _ _ _ := asks_of_files rfl

variable [FileSystem φ]

theorem called_close (m : Machine (Journal φ)) (h : Handle) :
    m.Called [.close h] (m.withFiles (FileSystem.close m.files h)) := Array.toList_push

theorem called_write (m : Machine (Journal φ)) (h : Handle) (offset : Nat) (data : List UInt8) :
    m.Called [.write h offset data] (m.withFiles (FileSystem.writeAt m.files h offset data).2) :=
  Array.toList_push

theorem asks_write (m : Machine (Journal φ)) (h : Handle) (offset : Nat) (data : List UInt8) :
    m.Asks (fun c => c.isWrite = true) (m.withFiles (FileSystem.writeAt m.files h offset data).2) :=
  ⟨_, called_write m h offset data, by simp [FileCall.isWrite]⟩

/-- Where nothing but writes has been asked for, the writes are all that has been asked for. -/
theorem Asks.called (h : m.Asks (fun c => c.isWrite = true) m') (hcalls : Calls m.files calls m'.files) :
    m.Called calls m' := by
  obtain ⟨all, hall, hwrite⟩ := h
  have hwrites := Journal.writes_of_calls hcalls
  rw [Journal.writes, hall, List.filter_append, List.filter_eq_self.2 hwrite] at hwrites
  rwa [← List.append_cancel_left hwrites]

end Machine

namespace View

variable [FileSystem φ] {v v' : View (Journal φ)} {p : ProcId}

/-- The calls that the release of a mapping of process `p` makes: what its pages owe is written, in
ascending order, and then its handle is closed. -/
def settling (v : View (Journal φ)) (p : ProcId) (mp : Mapping) : List FileCall :=
  mp.pages.toList.filterMap (v.due p) ++ [.close mp.file]

omit [FileSystem φ] in
theorem settling_congr {mp : Mapping} (h : ∀ u ∈ mp.pages.toList, v'.due p u = v.due p u) :
    v'.settling p mp = v.settling p mp := by rw [settling, settling, List.filterMap_congr h]

end View

namespace Kernel

open Machine View

variable [FileSystem φ] {m : Machine (Journal φ)} {v : View (Journal φ)} {p : ProcId} {held : Set PageId}

/-- The release of a mapping asks for the writes that are owed, and for nothing else before its handle is
closed. -/
theorem called_releaseMapping (h : m.Shows v held) (hv : v.Sound) (hdeclared : v.declared = v.own)
    {mp : Mapping} (hmaps : Maps v p mp.pages.toList) (hnodup : mp.pages.toList.Nodup) :
    Ends (releaseMapping p mp) m (fun _ m' => m.Called (v.settling p mp) m') fun _ _ => True := by
  have hreleases : Ends (mp.pages.toList.forM (releasePage p)) m (fun _ m' => ∃ v', m'.Shows v' held ∧
      Releases True v p mp.pages.toList v' ∧ v.Guards held v') fun _ _ => True :=
    ends_releasePages (fun _ _ _ => trivial) _ h hv hdeclared hmaps hnodup fun _ _ _ _ _ => trivial
  have hasks := moves_forM mp.pages.toList
    (fun u _ => moves_releasePage (p := p) asks_write (Set.mem_univ u)) m
  rw [releaseMapping, ends_bind]
  refine (hreleases.and hasks).imp ?_ fun _ _ _ => trivial
  rintro _ m₁ ⟨⟨v₁, h₁, hreleased, -⟩, hasks⟩
  have hcalls := hreleased.gives.calls
  rw [h.files, h₁.files] at hcalls
  exact (hasks.called hcalls).trans (called_close m₁ mp.file)

theorem called_releaseMappings : ∀ (ms : List (Nat × Mapping)) {m : Machine (Journal φ)}
    {v : View (Journal φ)}, m.Shows v held → v.Sound → v.declared = v.own →
    v.Maps p (ms.flatMap fun x => x.2.pages.toList) →
    (ms.flatMap fun x => x.2.pages.toList).Nodup →
    Ends (ms.forM fun (_, mapping) => releaseMapping p mapping) m
      (fun _ m' => m.Called (ms.flatMap fun x => v.settling p x.2) m') fun _ _ => True
  | [], m, v, _, _, _, _, _ => called_of_files rfl
  | (k, mp) :: ms, m, v, h, hv, hdeclared, hmaps, hnodup => by
    rw [List.flatMap_cons] at hmaps hnodup ⊢
    obtain ⟨hfirst, hrest, hapart⟩ := List.nodup_append.1 hnodup
    have hmaps' : v.Maps p mp.pages.toList := fun u hu => hmaps u (List.mem_append_left _ hu)
    rw [List.forM_eq_forM, List.forM_cons, ends_bind]
    have hreleases := ends_releaseMapping (E := fun _ _ => True) True h hv hdeclared hmaps' hfirst
      (fun _ _ _ _ _ => trivial) fun _ _ _ => trivial
    refine (hreleases.and (called_releaseMapping h hv hdeclared hmaps' hfirst)).imp ?_ fun _ _ h => h.2
    rintro _ m₁ ⟨⟨v₁, h₁, hreleased, -⟩, hcalled⟩
    -- the pages of the other mappings are where they were, and owe what they owed
    have hkept : ∀ x ∈ ms, ∀ u ∈ x.2.pages.toList, v₁.own p u = v.own p u := by
      intro x hx u hu
      rw [hreleased.gives.own, if_neg]
      exact fun hc => hapart u hc.2 u (List.mem_flatMap.2 ⟨x, hx, hu⟩) rfl
    have hmaps₁ : v₁.Maps p (ms.flatMap fun x => x.2.pages.toList) := fun u hu => by
      obtain ⟨x, hx, hux⟩ := List.mem_flatMap.1 hu
      obtain ⟨i, r, hi, hr⟩ := hmaps u (List.mem_append_right _ hu)
      have hi₁ := (hkept x hx u hux).trans hi
      exact ⟨i, r, hi₁, by rw [hreleased.gives.page hi₁, hr]⟩
    have hsettling : (ms.flatMap fun x => v₁.settling p x.2) = ms.flatMap fun x => v.settling p x.2 := by
      refine List.flatMap_congr fun x hx => settling_congr fun u hu => ?_
      exact due_congr (hkept x hx u hu) fun i hi =>
        hreleased.gives.retains ((hkept x hx u hu).trans hi)
    refine (called_releaseMappings ms h₁ (hreleased.path.sound hv) hreleased.declared hmaps₁
      hrest).returns fun _ m₂ hcalled' => ?_
    rw [← hsettling]
    exact hcalled.trans hcalled'

/-- A process that exits has its mappings released, one after the other, and asks the file system for
nothing else. -/
theorem called_exit (h : m.Shows v held) (hv : v.Sound) (hdeclared : v.declared = v.own) (hc : v.Charted) :
    Ends (exit p) m (fun _ m' => m.Called
      ((v.mappings p).live.toList.flatMap fun x => v.settling p x.2) m') fun _ _ => True := by
  obtain ⟨hmaps, hnodup⟩ := hc.pages p
  simp only [exit, unmapAll, ends_bind, ends_process, ends_emit, ends_modifyProcess, ends_pure]
  rw [show ((m.report _).process p).mappings = v.mappings p from (h.mappings p).symm]
  refine (called_releaseMappings _ (h.report _) hv hdeclared hmaps hnodup).returns fun _ m₁ hcalled => ?_
  refine ((moves_destroy (p := p) (R := Asks fun _ => False)) _).imp ?_ fun _ _ _ => trivial
  rintro _ m₂ ⟨calls, hcalls, hnone⟩
  obtain rfl := List.eq_nil_iff_forall_not_mem.2 hnone
  rw [← List.append_nil (List.flatMap _ _)]
  exact hcalled.trans hcalls

end Kernel

end DemandPaging
