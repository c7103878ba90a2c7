import DemandPaging.Machine.Eviction
import DemandPaging.Proofs.Custody
import Mathlib.Logic.Relation

/-!
# What a machine does

Whatever an operation does to a machine is, seen from outside, a sequence of effects: a page leaves
memory, comes in, is declared, is given up, and a few more. `Effect` lists them with what each one
needs. Every effect keeps a view `Sound`: each of the four invariants has a lemma for each change of
the view, and `Effect.sound` puts them together.
-/

namespace DemandPaging

/-- The kinds of effects. -/
inductive Label where
  /-- A page leaves memory to make room. -/
  | evict (i : PageId)
  /-- A page comes into memory. -/
  | arrive (i : PageId)
  /-- A page is declared. -/
  | declare (i : PageId)
  /-- A stack page is declared and comes into memory at once. -/
  | grow (i : PageId)
  /-- A process gives up a page that is not in memory and in no slot. -/
  | forget
  /-- A process gives up a page with its frame or slot. -/
  | release
  /-- Declarations are dropped. -/
  | unlist
  /-- Memory is written to. -/
  | store
  /-- The file system is called, but for writes. -/
  | consult
  /-- The mappings of a process change. -/
  | remap
  /-- A process ends. -/
  | exit
  /-- A process starts. -/
  | spawn

/-- What a call of the file system other than a write may leave behind. -/
inductive Consulted {φ : Type} [FileSystem φ] (s : φ) : φ → Prop
  | length (file : Handle) : Consulted s (FileSystem.length s file).2
  | reopen (file : Handle) : Consulted s (FileSystem.reopen s file).2
  | close (file : Handle) : Consulted s (FileSystem.close s file)
  | read (file : Handle) (offset want : Nat) :
      Consulted s (FileSystem.readAt s file offset want).2

namespace View

variable {φ : Type}

/-- The view after page `i` has been put into slot `s`, which holds `b` then. -/
@[simps -fullyApplied] def stash (v : View φ) (i : PageId) (s : Nat) (b : PageBytes) : View φ :=
  { v with
    page := Function.update v.page i
      { v.page i with slot := some s, anonymous := (v.page i).anonymousOnceSwapped }
    slot := Function.update v.slot s (some b) }

/-- The view after slot `s` of page `i` has been given back. -/
@[simps -fullyApplied] def unstash (v : View φ) (i : PageId) (s : Nat) : View φ :=
  { v with
    page := Function.update v.page i { v.page i with slot := none }
    slot := Function.update v.slot s none }

/-- The view after a page that holds `b` has been written back to its region. -/
@[simps! -fullyApplied] def writeBack [FileSystem φ] (v : View φ) (r : Region) (b : PageBytes) :
    View φ :=
  v.setFiles (FileSystem.writeAt v.files r.file r.offset (b.slice 0 r.readLen)).2

/-- The view after process `p` has declared a new page at `u`. -/
@[simps -fullyApplied] def claim (v : View φ) (p : ProcId) (u : Nat) (pg : Page) : View φ :=
  { v with
    own := setAt v.own p u (some v.next)
    declared := setAt v.declared p u (some v.next)
    page := Function.update v.page v.next pg
    next := v.next + 1 }

/-- The view after process `p` has given up its page at `u`. -/
@[simps -fullyApplied] def disown (v : View φ) (p : ProcId) (u : Nat) : View φ :=
  { v with own := setAt v.own p u none }

/-- A free frame of the pool. -/
structure Free (v : View φ) (f : Frame) : Prop where
  cell : v.cell f.cell = none
  total : f.cell < v.plant.total
  pfn : f.pfn = v.plant.firstPfn + f.cell

/-- A new page of process `p` may be declared at `u`. -/
structure Vacant (v : View φ) (p : ProcId) (u : Nat) : Prop where
  own : v.own p u = none
  live : v.exited p = false
  aligned : isAligned u = true
  user : isUser u = true

/-- Process `p` writes `data` from `a` on: its bytes change, and their pages are dirty from then
on. -/
structure Stores (v : View φ) (p : ProcId) (a : Nat) (data : List UInt8)
    (cell : Nat → Option PageBytes) (dirty : ProcId → Nat → Bool) : Prop where
  mapped : ∀ j < data.length, ∃ r f, v.mapping? p (pageBase (a + j)) = some (r, f) ∧
    r.writable = true
  dirty : ∀ q u, dirty q u = true ↔
    v.dirty q u = true ∨ q = p ∧ ∃ j < data.length, pageBase (a + j) = u
  lent : ∀ c, (cell c).isSome = (v.cell c).isSome
  bytes : ∀ u r f b, v.mapping? p u = some (r, f) → v.cell f.cell = some b → ∃ b',
    cell f.cell = some b' ∧ ∀ o < pageSize, b'.data[o]? =
      if a ≤ u + o ∧ u + o < a + data.length then data[u + o - a]? else b.data[o]?
  other : ∀ c, (∀ u r f, v.mapping? p u = some (r, f) → f.cell ≠ c) → cell c = v.cell c

end View

/-- What a machine does at a time, seen from outside. -/
inductive Effect {φ : Type} [FileSystem φ] : Label → View φ → View φ → Prop
  /-- A page is evicted to swap space. -/
  | swapOut {v : View φ} {p u i f b s} (own : v.own p u = some i) (frame : (v.page i).frame = some f)
      (holds : v.cell f.cell = some b)
      (disposal : (v.page i).disposal (v.dirty p u) = .swappedOut)
      (lt : s < v.plant.slots) (free : v.slot s = none) :
      Effect (.evict i) v ((v.stash i s b).vacate p u i f)
  /-- A page is evicted to its file. -/
  | writeOut {v : View φ} {p u i f b r} (own : v.own p u = some i)
      (frame : (v.page i).frame = some f) (holds : v.cell f.cell = some b)
      (disposal : (v.page i).disposal (v.dirty p u) = .writtenBack)
      (region : (v.page i).backing.region? = some r) :
      Effect (.evict i) v ((v.writeBack r b).vacate p u i f)
  /-- A page that its file has anyway is evicted. -/
  | drop {v : View φ} {p u i f} (own : v.own p u = some i) (frame : (v.page i).frame = some f)
      (disposal : (v.page i).disposal (v.dirty p u) = .dropped) :
      Effect (.evict i) v (v.vacate p u i f)
  /-- A page comes in from its slot. -/
  | swapIn {v : View φ} {p u i f b s} (own : v.own p u = some i) (away : (v.page i).frame = none)
      (slot : (v.page i).slot = some s) (holds : v.slot s = some b) (free : v.Free f) :
      Effect (.arrive i) v ((v.unstash i s).occupy p u i f b)
  /-- A page comes in from its file, which says that it has read all of it. -/
  | readIn {v : View φ} {p u i f r} (own : v.own p u = some i) (away : (v.page i).frame = none)
      (slot : (v.page i).slot = none) (region : (v.page i).backing.region? = some r)
      (count : (FileSystem.readAt v.files r.file r.offset r.readLen).1.count = r.readLen)
      (free : v.Free f) :
      Effect (.arrive i) v
        ((v.setFiles (FileSystem.readAt v.files r.file r.offset r.readLen).2).occupy p u i f
          ((Bytes.zero pageSize).overlay 0
            ((FileSystem.readAt v.files r.file r.offset r.readLen).1.data.take r.readLen)))
  /-- A part of a file is declared as a page. -/
  | declare {v : View φ} {p u w backing r} (vacant : v.Vacant p u)
      (region : backing.region? = some r) (fits : r.readLen + r.zeroLen = pageSize) :
      Effect (.declare v.next) v (v.claim p u (.declared u w backing))
  /-- The stack grows by a page. -/
  | grow {v : View φ} {p u f} (vacant : v.Vacant p u) (free : v.Free f) :
      Effect (.grow v.next) v
        ((v.claim p u (.declared u true .swap)).occupy p u v.next f (.zero pageSize))
  /-- A page that is nowhere is given up. -/
  | forget {v : View φ} {p u i} (own : v.own p u = some i) (away : (v.page i).frame = none)
      (slot : (v.page i).slot = none) : Effect .forget v (v.disown p u)
  /-- A page in memory is given up. -/
  | release {v : View φ} {p u i f} (own : v.own p u = some i) (frame : (v.page i).frame = some f) :
      Effect .release v ((v.vacate p u i f).disown p u)
  /-- A page of a mapped file is written back and given up. -/
  | flush {v : View φ} {p u i f b r} (own : v.own p u = some i) (frame : (v.page i).frame = some f)
      (holds : v.cell f.cell = some b) (backing : (v.page i).backing = .mapped r) :
      Effect .release v (((v.writeBack r b).vacate p u i f).disown p u)
  /-- A page in swap space is given up. -/
  | discard {v : View φ} {p u i s} (own : v.own p u = some i) (away : (v.page i).frame = none)
      (slot : (v.page i).slot = some s) : Effect .release v ((v.unstash i s).disown p u)
  | unlist {v : View φ} {p} (d : Nat → Option PageId) : Effect .unlist v (v.setDeclared p d)
  | store {v : View φ} {p a data cell dirty} (stores : v.Stores p a data cell dirty) :
      Effect .store v { v with cell, dirty }
  | consult {v : View φ} {files} (consulted : Consulted v.files files) :
      Effect .consult v (v.setFiles files)
  | remap {v : View φ} {p} (t : MapTable) : Effect .remap v (v.setMappings p t)
  | exit {v : View φ} {p} (own : ∀ u, v.own p u = none) : Effect .exit v (v.setExited p true)
  | spawn {v : View φ} {p} : Effect .spawn v (v.setExited p false)

/-- What comes of a sequence of effects, all with labels that satisfy `may`. -/
def Path {φ : Type} [FileSystem φ] (may : Label → Prop) : View φ → View φ → Prop :=
  Relation.ReflTransGen fun v v' => ∃ l, may l ∧ Effect l v v'

/-- The swap device is as it was registered: with at least the sectors that the slots need, and with
sector numbers that are not cut off. -/
def Plant.Wired (plant : Plant) : Prop :=
  ∃ size sectors, plant.disk = some (.swap, size, sectors) ∧ plant.slots = size / sectorsPerPage ∧
    size ≤ Swap.sectorLimit

namespace Page

variable {p : Page} {dirty : Bool}

/-- A page that goes to a slot is kept in swap space from then on. -/
theorem sourced_of_swappedOut (h : p.disposal dirty = .swappedOut) {s : Nat} :
    Sourced { p with slot := some s, anonymous := p.anonymousOnceSwapped, frame := none } := by
  have hk : Page.keeping { p with
      slot := some s, anonymous := p.anonymousOnceSwapped, frame := none } = .swap := by
    rw [keeping_eq_swap_iff, anonymousOnceSwapped_iff h]
    rcases disposal_eq_swappedOut_iff.1 h with hkept | ⟨hdirty, r, hb, hz⟩
    · exact (p.keeping_eq_swap_iff.1 hkept).imp_right fun hfile => ⟨hfile.1, .inl hfile.2⟩
    · exact .inr ⟨⟨r, hb⟩, .inr ⟨hdirty, r, hb, hz⟩⟩
  rw [Sourced, if_pos hk]
  simp

/-- A page of a file needs no slot to begin with. -/
theorem sourced_declared {u : Nat} {w : Bool} {backing : Backing} {r : Region}
    (h : backing.region? = some r) : (declared u w backing).Sourced := by
  cases backing with
  | swap => simp [Backing.region?] at h
  | file _ => simp [Sourced, keeping, declared]
  | mapped _ => simp [Sourced, keeping, declared]

end Page

namespace View

variable {φ : Type}

/-- Which page is where, and that nothing is lost. -/
structure Sound (v : View φ) : Prop where
  wired : v.plant.Wired
  owned : v.Owned
  housed : v.Housed
  swapped : v.Swapped
  sourced : v.Sourced

variable {v : View φ} {p q : ProcId} {u w : Nat} {i j : PageId} {f : Frame} {b : PageBytes} {s : Nat}

/-! ### Declaring and giving up pages -/

theorem Owned.claim (h : v.Owned) (hv : v.Vacant p u) {w : Bool} {backing : Backing}
    (hfits : ∀ r, backing.region? = some r → r.readLen + r.zeroLen = pageSize) :
    (v.claim p u (.declared u w backing)).Owned := by
  -- a page is the new one at its address, or belongs to a process already
  have hcases : ∀ {q x i}, (v.claim p u (.declared u w backing)).own q x = some i →
      (q = p ∧ x = u ∧ i = v.next) ∨ (v.own q x = some i ∧ i ≠ v.next) := by
    intro q x i hi
    rw [claim_own, setAt_apply] at hi
    split at hi
    · rename_i hqx
      exact .inl ⟨hqx.1, hqx.2, by simpa [eq_comm] using hi⟩
    · exact .inr ⟨hi, Nat.ne_of_lt (h.lt hi)⟩
  refine ⟨fun hi => ?_, fun hi => ?_, fun hi => ?_, fun hi => ?_, fun hi => ?_, fun hi hj => ?_,
    fun hi hr => ?_⟩
  · rcases hcases hi with ⟨-, -, rfl⟩ | ⟨hi, -⟩
    · exact Nat.lt_succ_self _
    · exact Nat.lt_succ_of_lt (h.lt hi)
  · rcases hcases hi with ⟨rfl, -, -⟩ | ⟨hi, -⟩
    · exact hv.live
    · exact h.live hi
  · rcases hcases hi with ⟨-, rfl, rfl⟩ | ⟨hi, hne⟩
    · rw [claim_page, Function.update_self]
      rfl
    · rw [claim_page, Function.update_of_ne hne, h.upage hi]
  · rcases hcases hi with ⟨-, rfl, -⟩ | ⟨hi, -⟩
    · exact hv.aligned
    · exact h.aligned hi
  · rcases hcases hi with ⟨-, rfl, -⟩ | ⟨hi, -⟩
    · exact hv.user
    · exact h.user hi
  · rcases hcases hi with ⟨rfl, -, rfl⟩ | ⟨hi, hne⟩ <;> rcases hcases hj with ⟨rfl, -, hjn⟩ | ⟨hj, hne'⟩
    · rfl
    · exact absurd rfl hne'
    · exact absurd hjn hne
    · exact h.owner hi hj
  · rcases hcases hi with ⟨-, -, rfl⟩ | ⟨hi, hne⟩
    · rw [claim_page, Function.update_self] at hr
      exact hfits _ hr
    · rw [claim_page, Function.update_of_ne hne] at hr
      exact h.fits hi hr

theorem Housed.claim (h : v.Housed) (ho : v.Owned) (hv : v.Vacant p u) {pg : Page}
    (hpg : pg.frame = none) : (v.claim p u pg).Housed where
  mapping? q x := by
    rw [claim_mapping?, h.mapping?, claim_own, claim_page, setAt_apply]
    split
    · rename_i hqx
      rw [hqx.1, hqx.2, hv.own, Option.bind_none, Option.bind_some, Function.update_self, hpg,
        Option.map_none]
    · cases hj : v.own q x with
      | none => rfl
      | some j =>
        rw [Option.bind_some, Option.bind_some, Function.update_of_ne (Nat.ne_of_lt (ho.lt hj))]
  clean := h.clean
  listed g q j := by
    rw [claim_tenants, h.listed, claim_own, claim_page]
    refine exists_congr ?_
    intro x
    rw [setAt_apply]
    split
    · rename_i hqx
      rw [hqx.1, hqx.2, hv.own]
      refine ⟨fun hno => by simp at hno, ?_⟩
      rintro ⟨hj, hg⟩
      rw [← Option.some.inj hj, Function.update_self, hpg] at hg
      simp at hg
    · exact and_congr_right fun hj => by rw [Function.update_of_ne (Nat.ne_of_lt (ho.lt hj))]
  once := h.once
  pfn := h.pfn
  lent := h.lent
  total := h.total
  inUse := h.inUse

/-- A page that is not in memory can be given up. -/
theorem Housed.disown (h : v.Housed) (hi : v.own p u = some i) (hnone : (v.page i).frame = none) :
    (v.disown p u).Housed where
  mapping? q x := by
    rw [disown_mapping?, h.mapping?, disown_own, disown_page, setAt_apply]
    split
    · rename_i hqx
      rw [hqx.1, hqx.2, hi, Option.bind_some, hnone, Option.map_none, Option.bind_none]
    · rfl
  clean := h.clean
  listed g q j := by
    rw [disown_tenants, h.listed, disown_own, disown_page]
    refine exists_congr ?_
    intro x
    rw [setAt_apply]
    split
    · rename_i hqx
      rw [hqx.1, hqx.2, hi]
      refine ⟨fun ⟨hj, hg⟩ => ?_, fun ⟨hno, _⟩ => by simp at hno⟩
      rw [← Option.some.inj hj, hnone] at hg
      simp at hg
    · rfl
  once := h.once
  pfn := h.pfn
  lent := h.lent
  total := h.total
  inUse := h.inUse

theorem own_of_disown {x : Nat} (hj : (v.disown p u).own q x = some j) :
    v.own q x = some j ∧ ¬ (q = p ∧ x = u) := by
  rw [disown_own, setAt_apply] at hj
  split at hj
  · simp at hj
  · exact ⟨hj, ‹_›⟩

theorem Owned.disown (h : v.Owned) : (v.disown p u).Owned :=
  h.congr (fun hj => (own_of_disown hj).1) (Nat.le_refl _) rfl fun _ => ⟨rfl, rfl⟩

/-! ### Slots -/

theorem Owned.vacate (h : v.Owned) : (v.vacate p u i f).Owned :=
  h.congr id (Nat.le_refl _) rfl fun {_ _ j} _ => by
    rcases eq_or_ne j i with hj | hj
    · rw [hj, vacate_page, Function.update_self]
      exact ⟨rfl, rfl⟩
    · rw [vacate_page, Function.update_of_ne hj]
      exact ⟨rfl, rfl⟩

theorem Owned.stash (h : v.Owned) : (v.stash i s b).Owned :=
  h.congr id (Nat.le_refl _) rfl fun {_ _ j} _ => by
    rcases eq_or_ne j i with hj | hj
    · rw [hj, stash_page, Function.update_self]
      exact ⟨rfl, rfl⟩
    · rw [stash_page, Function.update_of_ne hj]
      exact ⟨rfl, rfl⟩

theorem Owned.unstash (h : v.Owned) : (v.unstash i s).Owned :=
  h.congr id (Nat.le_refl _) rfl fun {_ _ j} _ => by
    rcases eq_or_ne j i with hj | hj
    · rw [hj, unstash_page, Function.update_self]
      exact ⟨rfl, rfl⟩
    · rw [unstash_page, Function.update_of_ne hj]
      exact ⟨rfl, rfl⟩

theorem Housed.stash (h : v.Housed) : (v.stash i s b).Housed :=
  h.congr rfl rfl rfl (fun _ _ => .inl) rfl rfl (fun _ => rfl) fun {_ _ j} _ => by
    rcases eq_or_ne j i with hj | hj
    · rw [hj, stash_page, Function.update_self]
      exact ⟨rfl, rfl⟩
    · rw [stash_page, Function.update_of_ne hj]
      exact ⟨rfl, rfl⟩

theorem Housed.unstash (h : v.Housed) : (v.unstash i s).Housed :=
  h.congr rfl rfl rfl (fun _ _ => .inl) rfl rfl (fun _ => rfl) fun {_ _ j} _ => by
    rcases eq_or_ne j i with hj | hj
    · rw [hj, unstash_page, Function.update_self]
      exact ⟨rfl, rfl⟩
    · rw [unstash_page, Function.update_of_ne hj]
      exact ⟨rfl, rfl⟩

/-- `Swapped` speaks of slots only. -/
theorem Swapped.congr {v' : View φ} (h : v.Swapped) (hplant : v'.plant = v.plant)
    (hown : v'.own = v.own) (hslot : ∀ s, (v'.slot s).isSome = (v.slot s).isSome)
    (hpage : ∀ {p u i}, v.own p u = some i → (v'.page i).slot = (v.page i).slot) : v'.Swapped where
  used s := by
    rw [hslot, h.used, hown]
    exact exists_congr fun p => exists_congr fun u => exists_congr fun i =>
      and_congr_right fun hi => by rw [hpage hi]
  inj hi hj hs hs' := by
    rw [hown] at hi hj
    exact h.inj hi hj (by rwa [hpage hi] at hs) (by rwa [hpage hj] at hs')
  lt s hs := by rw [hplant]; exact h.lt s (by rwa [hslot] at hs)

theorem Swapped.vacate (h : v.Swapped) : (v.vacate p u i f).Swapped :=
  h.congr rfl rfl (fun _ => rfl) fun {_ _ j} _ => by
    rcases eq_or_ne j i with hj | hj
    · rw [hj, vacate_page, Function.update_self]
    · rw [vacate_page, Function.update_of_ne hj]

theorem Swapped.stash (h : v.Swapped) (hi : v.own p u = some i) (hnone : (v.page i).slot = none)
    (hfree : v.slot s = none) (hlt : s < v.plant.slots) : (v.stash i s b).Swapped := by
  have hold : ∀ {q x j}, v.own q x = some j → (v.page j).slot ≠ some s := by
    intro q x j hj hs
    have hused := (h.used s).2 ⟨q, x, j, hj, hs⟩
    simp [hfree] at hused
  refine ⟨fun t => ?_, ?_, fun t ht => ?_⟩
  · rw [stash_slot, stash_own, stash_page, Function.update_apply]
    split
    · rename_i hts
      exact ⟨fun _ => ⟨p, u, i, hi, by rw [Function.update_self, hts]⟩, fun _ => rfl⟩
    · rename_i hts
      rw [h.used]
      refine exists_congr fun q => exists_congr fun x => exists_congr fun j =>
        and_congr_right fun hj => ?_
      rcases eq_or_ne j i with hji | hji
      · rw [hji, Function.update_self, hnone]
        simp [Ne.symm hts]
      · rw [Function.update_of_ne hji]
  · intro q q' x x' j k t hj hk hs hs'
    rw [stash_page] at hs hs'
    by_cases hji : j = i <;> by_cases hki : k = i
    · rw [hji, hki]
    · rw [hji, Function.update_self] at hs
      rw [Function.update_of_ne hki, ← hs] at hs'
      exact absurd hs' (hold hk)
    · rw [hki, Function.update_self] at hs'
      rw [Function.update_of_ne hji, ← hs'] at hs
      exact absurd hs (hold hj)
    · rw [Function.update_of_ne hji] at hs
      rw [Function.update_of_ne hki] at hs'
      exact h.inj hj hk hs hs'
  · rw [stash_slot, Function.update_apply] at ht
    split at ht
    · rename_i hts
      rw [hts]
      exact hlt
    · exact h.lt t ht

theorem Swapped.unstash (h : v.Swapped) (hi : v.own p u = some i) (hs : (v.page i).slot = some s) :
    (v.unstash i s).Swapped := by
  refine ⟨fun t => ?_, ?_, fun t ht => ?_⟩
  · rw [unstash_slot, unstash_own, unstash_page, Function.update_apply]
    split
    · rename_i hts
      refine ⟨fun hno => by simp at hno, ?_⟩
      rintro ⟨q, x, j, hj, hjt⟩
      rcases eq_or_ne j i with hji | hji
      · rw [hji, Function.update_self] at hjt
        simp at hjt
      · rw [Function.update_of_ne hji, hts] at hjt
        exact absurd (h.inj hj hi hjt hs) hji
    · rename_i hts
      rw [h.used]
      refine exists_congr fun q => exists_congr fun x => exists_congr fun j =>
        and_congr_right fun hj => ?_
      rcases eq_or_ne j i with hji | hji
      · rw [hji, Function.update_self, hs]
        simp [Ne.symm hts]
      · rw [Function.update_of_ne hji]
  · intro q q' x x' j k t hj hk hjt hkt
    rw [unstash_page] at hjt hkt
    rcases eq_or_ne j i with hji | hji
    · rw [hji, Function.update_self] at hjt
      simp at hjt
    · rcases eq_or_ne k i with hki | hki
      · rw [hki, Function.update_self] at hkt
        simp at hkt
      · rw [Function.update_of_ne hji] at hjt
        rw [Function.update_of_ne hki] at hkt
        exact h.inj hj hk hjt hkt
  · rw [unstash_slot, Function.update_apply] at ht
    split at ht
    · simp at ht
    · exact h.lt t ht

theorem Swapped.claim (h : v.Swapped) (ho : v.Owned) (hv : v.Vacant p u) {pg : Page}
    (hpg : pg.slot = none) : (v.claim p u pg).Swapped := by
  have hcases : ∀ {q x j t}, (v.claim p u pg).own q x = some j →
      ((v.claim p u pg).page j).slot = some t → v.own q x = some j ∧ (v.page j).slot = some t := by
    intro q x j t hj hjt
    rw [claim_own, setAt_apply] at hj
    split at hj
    · rw [← Option.some.inj hj, claim_page, Function.update_self, hpg] at hjt
      simp at hjt
    · rw [claim_page, Function.update_of_ne (Nat.ne_of_lt (ho.lt hj))] at hjt
      exact ⟨hj, hjt⟩
  refine ⟨fun t => ?_, fun hj hk hjt hkt => ?_, h.lt⟩
  · rw [claim_slot, h.used]
    constructor
    · rintro ⟨q, x, j, hj, hjt⟩
      refine ⟨q, x, j, ?_, ?_⟩
      · rw [claim_own, setAt_of_ne _ _ ?_, hj]
        rintro ⟨rfl, rfl⟩
        simp [hv.own] at hj
      · rw [claim_page, Function.update_of_ne (Nat.ne_of_lt (ho.lt hj)), hjt]
    · rintro ⟨q, x, j, hj, hjt⟩
      exact ⟨q, x, j, hcases hj hjt⟩
  · exact h.inj (hcases hj hjt).1 (hcases hk hkt).1 (hcases hj hjt).2 (hcases hk hkt).2

theorem Swapped.disown (h : v.Swapped) (hi : v.own p u = some i) (hnone : (v.page i).slot = none) :
    (v.disown p u).Swapped := by
  refine ⟨fun t => ?_, fun hj hk hjt hkt => ?_, h.lt⟩
  · rw [disown_slot, h.used]
    constructor
    · rintro ⟨q, x, j, hj, hjt⟩
      refine ⟨q, x, j, ?_, hjt⟩
      rw [disown_own, setAt_of_ne _ _ ?_, hj]
      rintro ⟨rfl, rfl⟩
      rw [hi, Option.some.injEq] at hj
      rw [← hj, hnone] at hjt
      simp at hjt
    · rintro ⟨q, x, j, hj, hjt⟩
      exact ⟨q, x, j, (own_of_disown hj).1, hjt⟩
  · exact h.inj (own_of_disown hj).1 (own_of_disown hk).1 hjt hkt

/-! ### Sources -/

/-- A change of one page keeps the sources of all others. -/
theorem Sourced.of_others {v' : View φ} (h : v.Sourced)
    (hown : ∀ {q x j}, v'.own q x = some j → v.own q x = some j ∨ j = i)
    (hpage : ∀ {j}, j ≠ i → v'.page j = v.page j)
    (hi : ∀ {q x}, v'.own q x = some i → (v'.page i).Sourced) : v'.Sourced := by
  intro q x j hj
  rcases eq_or_ne j i with hji | hji
  · rw [hji] at hj ⊢
    exact hi hj
  · rw [hpage hji]
    exact h q x j ((hown hj).resolve_right hji)

/-! ### Coming and going -/

/-- A page that its file has leaves memory. -/
theorem Sound.vacate (h : v.Sound) (hi : v.own p u = some i) (hf : (v.page i).frame = some f)
    (hk : (v.page i).keeping ≠ .swap) : (v.vacate p u i f).Sound where
  wired := h.wired
  owned := h.owned.vacate
  housed := h.housed.vacate h.owned hi hf
  swapped := h.swapped.vacate
  sourced := by
    have hs := (h.sourced _ _ _ hi).slot_eq_none (by rw [hf]; rfl)
    refine h.sourced.of_others .inl (fun hj => by rw [vacate_page, Function.update_of_ne hj]) ?_
    intro q x _
    rw [vacate_page, Function.update_self]
    exact (if_neg hk).mpr hs

/-- A page comes into memory. -/
theorem Sound.of_occupy (hwired : v.plant.Wired) (ho : v.Owned) (hh : v.Housed) (hs : v.Swapped)
    (hothers : ∀ {q x j}, v.own q x = some j → j ≠ i → (v.page j).Sourced)
    (hi : v.own p u = some i) (haway : (v.page i).frame = none) (hslot : (v.page i).slot = none)
    (hfree : v.Free f) : (v.occupy p u i f b).Sound where
  wired := hwired
  owned := ho.congr id (Nat.le_refl _) rfl fun {_ _ j} _ => by
    rcases eq_or_ne j i with hj | hj
    · rw [hj, occupy_page, Function.update_self]
      exact ⟨rfl, rfl⟩
    · rw [occupy_page, Function.update_of_ne hj]
      exact ⟨rfl, rfl⟩
  housed := hh.occupy ho hi haway hfree.cell hfree.total hfree.pfn
  swapped := hs.congr rfl rfl (fun _ => rfl) fun {_ _ j} _ => by
    rcases eq_or_ne j i with hj | hj
    · rw [hj, occupy_page, Function.update_self, hslot]
    · rw [occupy_page, Function.update_of_ne hj]
  sourced := by
    intro q x j hj
    rcases eq_or_ne j i with hji | hji
    · rw [hji, occupy_page, Function.update_self]
      exact .of_resident rfl rfl
    · rw [occupy_page, Function.update_of_ne hji]
      exact hothers hj hji

theorem Sound.stash_vacate (h : v.Sound) (hi : v.own p u = some i)
    (hf : (v.page i).frame = some f) {dirty : Bool} (hd : (v.page i).disposal dirty = .swappedOut)
    (hlt : s < v.plant.slots) (hfree : v.slot s = none) : ((v.stash i s b).vacate p u i f).Sound where
  wired := h.wired
  owned := h.owned.stash.vacate
  housed := by
    refine h.housed.stash.vacate h.owned.stash hi ?_
    rw [stash_page, Function.update_self, hf]
  swapped := (h.swapped.stash hi ((h.sourced _ _ _ hi).slot_eq_none (by rw [hf]; rfl)) hfree hlt).vacate
  sourced := by
    refine h.sourced.of_others (i := i) .inl (fun hj => ?_) ?_
    · rw [vacate_page, Function.update_of_ne hj, stash_page, Function.update_of_ne hj]
    · intro q x _
      rw [vacate_page, Function.update_self, stash_page, Function.update_self]
      exact Page.sourced_of_swappedOut hd

/-- A page in memory is given up. -/
theorem Sound.vacate_disown (h : v.Sound) (hi : v.own p u = some i)
    (hf : (v.page i).frame = some f) : ((v.vacate p u i f).disown p u).Sound where
  wired := h.wired
  owned := h.owned.vacate.disown
  housed := by
    refine (h.housed.vacate h.owned hi hf).disown hi ?_
    rw [vacate_page, Function.update_self]
  swapped := by
    refine h.swapped.vacate.disown hi ?_
    rw [vacate_page, Function.update_self]
    exact (h.sourced _ _ _ hi).slot_eq_none (by rw [hf]; rfl)
  sourced := by
    refine h.sourced.of_others (i := i) (fun hj => .inl (own_of_disown hj).1) (fun hj => ?_) ?_
    · rw [disown_page, vacate_page, Function.update_of_ne hj]
    · intro q x hx
      obtain ⟨hx, hne⟩ := own_of_disown hx
      exact absurd (h.owned.eq_of_own hx hi) hne

/-- A page that is not in memory is given up, and its slot if it has one has been given back. -/
theorem Sound.of_disown (hwired : v.plant.Wired) (ho : v.Owned) (hh : v.Housed) (hs : v.Swapped)
    (hothers : ∀ {q x j}, v.own q x = some j → j ≠ i → (v.page j).Sourced)
    (hi : v.own p u = some i) (haway : (v.page i).frame = none) (hslot : (v.page i).slot = none) :
    (v.disown p u).Sound where
  wired := hwired
  owned := ho.disown
  housed := hh.disown hi haway
  swapped := hs.disown hi hslot
  sourced := by
    intro q x j hj
    obtain ⟨hj, hne⟩ := own_of_disown hj
    refine hothers hj ?_
    rintro rfl
    exact hne (ho.eq_of_own hj hi)

/-- Whatever is not part of the invariants may change. -/
theorem Sound.congr {v' : View φ} (h : v.Sound) (hplant : v'.plant = v.plant)
    (hown : v'.own = v.own) (hpage : v'.page = v.page) (hnext : v'.next = v.next)
    (hmapping : v'.mapping? = v.mapping?)
    (hdirty : ∀ p u, v'.dirty p u = true → v.dirty p u = true ∨ (v.mapping? p u).isSome = true)
    (htenants : v'.tenants = v.tenants) (hinUse : v'.inUse = v.inUse)
    (hcell : ∀ c, (v'.cell c).isSome = (v.cell c).isSome) (hslot : v'.slot = v.slot)
    (hexited : ∀ {p u i}, v.own p u = some i → v'.exited p = v.exited p) : v'.Sound where
  wired := by rw [hplant]; exact h.wired
  owned :=
    { lt := fun hi => by rw [hnext]; exact h.owned.lt (by rwa [hown] at hi)
      live := fun hi => by
        rw [hown] at hi
        rw [hexited hi, h.owned.live hi]
      upage := fun hi => by rw [hpage]; exact h.owned.upage (by rwa [hown] at hi)
      aligned := fun hi => h.owned.aligned (by rwa [hown] at hi)
      user := fun hi => h.owned.user (by rwa [hown] at hi)
      owner := fun hi hj => h.owned.owner (by rwa [hown] at hi) (by rwa [hown] at hj)
      fits := fun hi hr => h.owned.fits (by rwa [hown] at hi) (by rwa [hpage] at hr) }
  housed := h.housed.congr hplant hown hmapping hdirty htenants hinUse hcell fun _ => by
    rw [hpage]
    exact ⟨rfl, rfl⟩
  swapped := h.swapped.congr hplant hown (fun s => by rw [hslot]) fun _ => by rw [hpage]
  sourced p u i hi := by
    rw [hown] at hi
    rw [hpage]
    exact h.sourced _ _ _ hi

theorem Sound.setFiles (h : v.Sound) (files : φ) : (v.setFiles files).Sound :=
  h.congr rfl rfl rfl rfl rfl (fun _ _ => .inl) rfl rfl (fun _ => rfl) rfl fun _ => rfl

end View

/-- Every effect keeps a view sound. -/
theorem Effect.sound {φ : Type} [FileSystem φ] {l : Label} {v v' : View φ} (he : Effect l v v')
    (h : v.Sound) : v'.Sound := by
  cases he with
  | swapOut own frame holds disposal lt free => exact h.stash_vacate own frame disposal lt free
  | writeOut own frame holds disposal region =>
    exact (h.setFiles _).vacate own frame (Page.disposal_eq_writtenBack_iff.1 disposal).2.1
  | drop own frame disposal =>
    exact h.vacate own frame (Page.disposal_eq_dropped_iff.1 disposal).2
  | @swapIn _ p u i f b s own away slot holds free =>
    refine View.Sound.of_occupy h.wired h.owned.unstash h.housed.unstash
      (h.swapped.unstash own slot) (fun hj hji => ?_) own ?_ ?_ ⟨free.cell, free.total, free.pfn⟩
    · rw [View.unstash_page, Function.update_of_ne hji]
      exact h.sourced _ _ _ hj
    · rw [View.unstash_page, Function.update_self, away]
    · rw [View.unstash_page, Function.update_self]
  | @readIn _ p u i f r own away slot region count free =>
    have h' := h.setFiles (FileSystem.readAt v.files r.file r.offset r.readLen).2
    exact .of_occupy h'.wired h'.owned h'.housed h'.swapped (fun hj _ => h.sourced _ _ _ hj) own away slot
      ⟨free.cell, free.total, free.pfn⟩
  | @declare _ p u w backing r vacant region fits =>
    refine ⟨h.wired, h.owned.claim vacant fun r' hr' => ?_, h.housed.claim h.owned vacant rfl,
      h.swapped.claim h.owned vacant rfl, h.sourced.of_others (i := v.next) (fun hj => ?_) (fun hj => ?_)
      fun _ => ?_⟩
    · rw [region, Option.some.injEq] at hr'
      rw [← hr', fits]
    · rw [View.claim_own, setAt_apply] at hj
      split at hj
      · exact .inr (Option.some.inj hj).symm
      · exact .inl hj
    · rw [View.claim_page, Function.update_of_ne hj]
    · rw [View.claim_page, Function.update_self]
      exact Page.sourced_declared region
  | @grow _ p u f vacant free =>
    refine .of_occupy h.wired (h.owned.claim vacant (by simp [Backing.region?]))
      (h.housed.claim h.owned vacant rfl) (h.swapped.claim h.owned vacant rfl) (fun hj hji => ?_)
      (by rw [View.claim_own, setAt_self]) (by rw [View.claim_page, Function.update_self]; rfl)
      (by rw [View.claim_page, Function.update_self]; rfl) ⟨free.cell, free.total, free.pfn⟩
    rw [View.claim_page, Function.update_of_ne hji]
    rw [View.claim_own, setAt_apply] at hj
    split at hj
    · exact absurd (Option.some.inj hj).symm hji
    · exact h.sourced _ _ _ hj
  | forget own away slot =>
    exact .of_disown h.wired h.owned h.housed h.swapped (fun hj _ => h.sourced _ _ _ hj) own away slot
  | release own frame => exact h.vacate_disown own frame
  | flush own frame holds backing => exact (h.setFiles _).vacate_disown own frame
  | @discard _ p u i s own away slot =>
    refine View.Sound.of_disown h.wired h.owned.unstash h.housed.unstash (h.swapped.unstash own slot)
      (fun hj hji => ?_) own ?_ ?_
    · rw [View.unstash_page, Function.update_of_ne hji]
      exact h.sourced _ _ _ hj
    · rw [View.unstash_page, Function.update_self, away]
    · rw [View.unstash_page, Function.update_self]
  | unlist d =>
    exact h.congr rfl rfl rfl rfl rfl (fun _ _ => .inl) rfl rfl (fun _ => rfl) rfl fun _ => rfl
  | store stores =>
    refine h.congr rfl rfl rfl rfl rfl (fun q x hd => ?_) rfl rfl stores.lent rfl fun _ => rfl
    rcases (stores.dirty q x).1 hd with hd | ⟨rfl, j, hj, rfl⟩
    · exact .inl hd
    · obtain ⟨r, f, hr, -⟩ := stores.mapped j hj
      exact .inr (by rw [hr]; rfl)
  | consult _ => exact h.setFiles _
  | remap t =>
    exact h.congr rfl rfl rfl rfl rfl (fun _ _ => .inl) rfl rfl (fun _ => rfl) rfl fun _ => rfl
  | @exit _ p own =>
    refine h.congr rfl rfl rfl rfl rfl (fun _ _ => .inl) rfl rfl (fun _ => rfl) rfl ?_
    intro q x j hj
    have hqp : q ≠ p := by
      rintro rfl
      simp [own] at hj
    rw [View.setExited_exited, Function.update_of_ne hqp]
  | @spawn _ p =>
    refine h.congr rfl rfl rfl rfl rfl (fun _ _ => .inl) rfl rfl (fun _ => rfl) rfl ?_
    intro q x j hj
    rw [View.setExited_exited, Function.update_apply]
    split
    · exact (h.owned.live hj).symm
    · rfl

/-! ### What never changes about a page -/

/-- A page stays where it was declared, and so do its rights and its backing. -/
structure Page.Same (p p' : Page) : Prop where
  upage : p'.upage = p.upage
  writable : p'.writable = p.writable
  backing : p'.backing = p.backing

theorem Page.Same.refl (p : Page) : p.Same p := ⟨rfl, rfl, rfl⟩

theorem Page.Same.trans {p p' p'' : Page} (h : p.Same p') (h' : p'.Same p'') : p.Same p'' :=
  ⟨h'.upage.trans h.upage, h'.writable.trans h.writable, h'.backing.trans h.backing⟩

/-- The page, wherever its bytes are. -/
def Page.unplaced (p : Page) : Page := { p with frame := none, slot := none }

theorem Page.Same.of_unplaced {p p' : Page} (h : p'.unplaced = p.unplaced) : p.Same p' :=
  ⟨(congrArg Page.upage h :), (congrArg Page.writable h :), (congrArg Page.backing h :)⟩

theorem Page.unplaced_update {g : PageId → Page} {i : PageId} {p : Page}
    (h : p.unplaced = (g i).unplaced) (j : PageId) :
    (Function.update g i p j).unplaced = (g j).unplaced := by
  rcases eq_or_ne j i with rfl | hj
  · rw [Function.update_self, h]
  · rw [Function.update_of_ne hj]

namespace View

variable {φ : Type} (v : View φ) (p : ProcId) (u : Nat) (i : PageId) (f : Frame) (b : PageBytes)
  (s : Nat) (j : PageId)

theorem unplaced_unstash : ((v.unstash i s).page j).unplaced = (v.page j).unplaced := by
  rw [unstash_page]
  exact Page.unplaced_update (by rfl) j

theorem unplaced_vacate : ((v.vacate p u i f).page j).unplaced = (v.page j).unplaced := by
  rw [vacate_page]
  exact Page.unplaced_update (by rfl) j

theorem unplaced_occupy : ((v.occupy p u i f b).page j).unplaced = (v.page j).unplaced := by
  rw [occupy_page]
  exact Page.unplaced_update (by rfl) j

theorem same_stash : (v.page j).Same ((v.stash i s b).page j) := by
  rw [stash_page]
  rcases eq_or_ne j i with rfl | hj
  · rw [Function.update_self]
    exact ⟨rfl, rfl, rfl⟩
  · rw [Function.update_of_ne hj]
    exact .refl _

theorem same_claim {pg : Page} (hj : j < v.next) : (v.page j).Same ((v.claim p u pg).page j) := by
  rw [claim_page, Function.update_of_ne (Nat.ne_of_lt hj)]
  exact .refl _

end View

open View in
theorem Effect.same {φ : Type} [FileSystem φ] {l : Label} {v v' : View φ} (he : Effect l v v')
    {j : PageId} (hj : j < v.next) : (v.page j).Same (v'.page j) := by
  cases he with
  | swapOut => exact (same_stash ..).trans (.of_unplaced (unplaced_vacate ..))
  | swapIn => exact .of_unplaced ((unplaced_occupy ..).trans (unplaced_unstash ..))
  | @drop _ p u i f | @release _ p u i f => exact .of_unplaced (unplaced_vacate v p u i f j)
  | @writeOut _ p u i f b r | @flush _ p u i f b r =>
    exact .of_unplaced (unplaced_vacate (v.writeBack r b) p u i f j)
  | @readIn _ p u i f => exact .of_unplaced (unplaced_occupy v p u i f (.zero pageSize) j)
  | @discard _ p u i s => exact .of_unplaced (unplaced_unstash v i s j)
  | declare => exact same_claim _ _ _ _ hj
  | grow => exact (same_claim _ _ _ _ hj).trans (.of_unplaced (unplaced_occupy ..))
  | forget | unlist | store | consult | remap | exit | spawn => exact .refl _

theorem Effect.next_le {φ : Type} [FileSystem φ] {l : Label} {v v' : View φ} (he : Effect l v v') :
    v.next ≤ v'.next := by
  cases he with
  | declare | grow => exact Nat.le_succ _
  | _ => exact Nat.le_refl _

/-! ### Paths -/

namespace Path

variable {φ : Type} [FileSystem φ] {may may' : Label → Prop} {v v' v'' : View φ}

theorem refl (may : Label → Prop) (v : View φ) : Path may v v := Relation.ReflTransGen.refl

theorem single {l : Label} (hl : may l) (h : Effect l v v') : Path may v v' :=
  Relation.ReflTransGen.single ⟨l, hl, h⟩

theorem trans (h : Path may v v') (h' : Path may v' v'') : Path may v v'' :=
  Relation.ReflTransGen.trans h h'

theorem mono (h : Path may v v') (himp : ∀ l, may l → may' l) : Path may' v v' := by
  refine Relation.ReflTransGen.mono ?_ v v' h
  rintro w w' ⟨l, hl, he⟩
  exact ⟨l, himp l hl, he⟩

/-- What every effect keeps, a path keeps. -/
theorem keeps {P : View φ → Prop} (h : Path may v v') (hv : P v)
    (hstep : ∀ {l w w'}, may l → Effect l w w' → P w → P w') : P v' := by
  induction h with
  | refl => exact hv
  | tail _ he ih =>
    obtain ⟨l, hl, he⟩ := he
    exact hstep hl he ih

/-- A path keeps a view sound. -/
theorem sound (h : Path may v v') (hv : v.Sound) : v'.Sound :=
  h.keeps hv fun _ he hw => he.sound hw

/-- A page stays what it is along a path. -/
theorem same (h : Path may v v') {j : PageId} (hj : j < v.next) : (v.page j).Same (v'.page j) :=
  (h.keeps (P := fun w => (v.page j).Same (w.page j) ∧ v.next ≤ w.next) ⟨.refl _, Nat.le_refl _⟩
    fun _ he hw => ⟨hw.1.trans (he.same (Nat.lt_of_lt_of_le hj hw.2)), hw.2.trans he.next_le⟩).1

theorem plant (h : Path may v v') : v'.plant = v.plant :=
  h.keeps (P := fun w => w.plant = v.plant) rfl fun _ he hw => by cases he <;> exact hw

end Path

end DemandPaging
