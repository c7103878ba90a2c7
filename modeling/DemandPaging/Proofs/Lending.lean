import DemandPaging.Proofs.Pool
import DemandPaging.Proofs.Program
import Mathlib.Data.List.Nodup

/-!
# A pool lends each frame to one user at a time

The users of a pool know which frames are live, that is lent and not returned, and which frame was lent
last: `Loans`. Nothing more is needed to say how the pool answers. A request is turned down if it is not
for a user program or every frame is live, and otherwise gets the first frame that is not live, counted
from the one behind the last: `Answers`. A frame that is returned must be live: `Accepts`. The books
that the pool keeps on its own, a status for each cell, a count and a cursor, agree with this at any
time: `Books`.
-/

namespace DemandPaging

namespace Pool

/-- The frames that are lent and not returned, and the frame that was lent last. -/
structure Loans where
  live : List Frame
  last : Option Frame

/-- The `i`-th frame of a pool that starts at physical address `base`. -/
def frameOf (base i : Nat) : Frame := ⟨base / pageSize + i, i⟩

/-- Which of `frames` frames the search starts from: the one behind the frame that was lent last, going
around, and the first one if none has been lent. -/
def Loans.cursor (σ : Loans) (frames : Nat) : Nat :=
  match σ.last with
  | some f => (f.cell + 1) % frames
  | none => 0

/-- The frame does not lie in a pool of `frames` frames from `base` on. -/
def Outside (frames base : Nat) (f : Frame) : Prop :=
  f.pfn < base / pageSize ∨ base / pageSize + frames ≤ f.pfn

/-- The memory that the handle names is that of the frame with its number. -/
def Matched (base : Nat) (f : Frame) : Prop := f = frameOf base (f.pfn - base / pageSize)

/-- What a pool of `frames` frames from `base` on has written down agrees with the loans. -/
structure Balances (p : Pool) (frames base : Nat) (σ : Loans) : Prop where
  total : p.total = frames
  distinct : (σ.live.map Frame.pfn).Nodup
  inside : ∀ f ∈ σ.live, ¬ Outside frames base f ∧ Matched base f
  /-- Frame numbers have 32 bits and are not cut off. -/
  narrow : ∀ f ∈ σ.live, f.pfn < UInt32.size
  length_le : σ.live.length ≤ frames
  inUse : p.inUse = σ.live.length
  marked : p.inUse = (List.range frames).countP p.lent
  next : p.next = σ.cursor frames

/-- How a request is answered. The frame that is lent is the first from the cursor on, going around,
that is not live; it is cleared if that has been asked for. -/
structure Answers (p : Pool) (frames base : Nat) (σ : Loans) (r : Frame.Request) : Prop where
  refuses : (∃ e, p.alloc r = .error e) ↔ r.user = false ∨ ∀ i < frames, frameOf base i ∈ σ.live
  lends : ∀ f p', p.alloc r = .ok (f, p') → f ∉ σ.live ∧ ∃ k < frames,
    f = frameOf base ((σ.cursor frames + k) % frames) ∧
      ∀ j < k, frameOf base ((σ.cursor frames + j) % frames) ∈ σ.live
  bytes : ∀ f p', p.alloc r = .ok (f, p') → ∀ g : Frame, p'.read g =
    if r.zeroed = true ∧ g.cell = f.cell then .zero pageSize else p.read g

/-- How the return of a frame ends. -/
structure Accepts (p : Pool) (frames base : Nat) (σ : Loans) (f : Frame) : Prop where
  halts_iff : Matched base f ∨ Outside frames base f →
    ((∃ e, p.dealloc f = .error e) ↔ Outside frames base f ∨ f ∉ σ.live)
  foreign : Outside frames base f → p.dealloc f = .error (.foreign f)
  mismatched : ¬ Outside frames base f → ¬ Matched base f → p.dealloc f = .error .mismatched
  notLent : ¬ Outside frames base f → Matched base f → f ∉ σ.live →
    p.dealloc f = .error (.notLent f)
  frees : ∀ p', p.dealloc f = .ok p' → f ∈ σ.live ∧ p'.next = p.next ∧
    (∀ i, p'.lent i = (p.lent i && i != f.cell)) ∧ ∀ g : Frame, p'.read g = p.read g

/-- The pools that requests, returns and writes to frames make of a new one, with the loans. A request
that is turned down and a return that halts the machine leave the pool as it is. -/
inductive Run (frames base : Nat) : Pool → Loans → Prop
  | create {p : Pool} (run : Pool.create frames base = .ok p) : Run frames base p ⟨[], none⟩
  | alloc {p p' : Pool} {σ : Loans} {r : Frame.Request} {f : Frame} (reach : Run frames base p σ)
      (run : p.alloc r = .ok (f, p')) : Run frames base p' ⟨f :: σ.live, some f⟩
  | dealloc {p p' : Pool} {σ : Loans} {f : Frame} (reach : Run frames base p σ)
      (run : p.dealloc f = .ok p') : Run frames base p' { σ with live := σ.live.erase f }
  | write {p : Pool} {σ : Loans} (reach : Run frames base p σ) (f : Frame) (bytes : PageBytes) :
      Run frames base (p.write f bytes) σ

variable {p p' : Pool} {f : Frame} {r : Frame.Request} {frames base i : Nat} {σ : Loans}

/-! ### What the operations do to the cursor -/

theorem create_eq_ok (h : create frames base = .ok p) :
    base % pageSize = 0 ∧ base / pageSize + frames ≤ pfnLimit ∧ p.firstPfn = base / pageSize ∧
      p.total = frames ∧ p.next = 0 := by
  unfold create at h
  split at h
  · simp at h
  rename_i haligned
  split at h
  · simp at h
  rename_i hlimit
  obtain rfl := Except.ok.inj h
  exact ⟨by simpa using haligned, Nat.le_of_not_lt hlimit, rfl, by simp [total], rfl⟩

/-- The search goes on from the cursor and skips the lent cells. -/
theorem nextFit_eq (h : p.nextFit = some i) : ∃ k < p.total, i = (p.next + k) % p.total ∧
    ∀ j < k, p.lent ((p.next + j) % p.total) = true := by
  rw [nextFit, searchOrder, List.find?_map, Option.map_eq_some_iff] at h
  obtain ⟨k, hk, rfl⟩ := h
  rw [List.find?_range_eq_some] at hk
  refine ⟨k, List.mem_range.1 hk.2.1, rfl, fun j hj => ?_⟩
  simpa using hk.2.2 j hj

theorem alloc_eq_ok (h : p.alloc r = .ok (f, p')) :
    r.user = true ∧ p.nextFit = some f.cell ∧ p'.next = (f.cell + 1) % p.total := by
  unfold alloc at h
  split at h
  · simp at h
  rename_i huser
  split at h
  · simp at h
  rename_i i hi
  simp only [Except.ok.injEq, Prod.mk.injEq] at h
  obtain ⟨rfl, rfl⟩ := h
  exact ⟨by simpa using huser, hi, rfl⟩

theorem dealloc_eq (p : Pool) (f : Frame) : p.dealloc f =
    if f.pfn < p.firstPfn ∨ p.total ≤ f.pfn - p.firstPfn then .error (.foreign f)
    else if f.cell ≠ f.pfn - p.firstPfn then .error .mismatched
    else if p.lent f.cell = true then .ok { p with
      cells := p.cells.modify f.cell fun cell => { cell with status := .free }
      inUse := p.inUse - 1 }
    else .error (.notLent f) := by
  simp only [dealloc, cellOf]
  split_ifs with houtside hcell hlent
  · rfl
  · rfl
  · rw [← not_not.1 hcell]
    simp only [bind, Except.bind, hlent, if_true]
    rfl
  · rw [← not_not.1 hcell]
    simp only [bind, Except.bind, hlent]
    rfl

theorem eq_frameAt_iff (p : Pool) (f : Frame) : f = p.frameAt f.cell ↔ f.pfn = p.firstPfn + f.cell := by
  cases f
  simp [frameAt]

/-- A frame that can be returned is a lent one. -/
theorem dealloc_eq_ok (h : p.dealloc f = .ok p') :
    f = p.frameAt f.cell ∧ p.lent f.cell = true ∧ p'.next = p.next ∧ p.TakesBack f p' := by
  have hdealloc := h
  rw [dealloc_eq] at h
  split_ifs at h with houtside hcell hlent
  have hframe : f = p.frameAt f.cell := by
    rw [eq_frameAt_iff, not_not.1 hcell]
    omega
  obtain ⟨p₁, hp₁, htakes⟩ := exists_dealloc hframe hlent
  obtain rfl := Except.ok.inj (hp₁.symm.trans hdealloc)
  exact ⟨hframe, hlent, by rw [← Except.ok.inj h], htakes⟩

/-! ### The books of a pool -/

/-- What the pool has written down of each cell, how many it counts and where it goes on are what the
loans say. -/
structure Books (p : Pool) (frames base : Nat) (σ : Loans) : Prop where
  firstPfn : p.firstPfn = base / pageSize
  total : p.total = frames
  limit : base / pageSize + frames ≤ pfnLimit
  nodup : σ.live.Nodup
  live : ∀ f, f ∈ σ.live ↔ f = p.frameAt f.cell ∧ p.lent f.cell = true
  inUse : p.inUse = σ.live.length
  next : p.next = σ.cursor frames

theorem Books.frameAt (h : p.Books frames base σ) (i : Nat) : p.frameAt i = frameOf base i := by
  rw [Pool.frameAt, h.firstPfn, frameOf]

theorem Books.lent_iff (h : p.Books frames base σ) (i : Nat) :
    p.lent i = true ↔ frameOf base i ∈ σ.live := by
  rw [h.live, ← h.frameAt i]
  exact ⟨fun hi => ⟨rfl, hi⟩, fun hi => hi.2⟩

theorem books_of_create (h : create frames base = .ok p) : p.Books frames base ⟨[], none⟩ where
  firstPfn := (create_eq_ok h).2.2.1
  total := (create_eq_ok h).2.2.2.1
  limit := (create_eq_ok h).2.1
  nodup := List.nodup_nil
  live f := by simp [lent_create h]
  inUse := inUse_create h
  next := (create_eq_ok h).2.2.2.2

/-- A frame that is lent is not live by then. -/
theorem Books.fresh (h : p.Books frames base σ) (halloc : p.alloc r = .ok (f, p')) :
    f ∉ σ.live := fun hmem => by
  have hlent := ((h.live f).1 hmem).2
  rw [(lends_of_alloc halloc).free] at hlent
  simp at hlent

theorem Books.alloc (h : p.Books frames base σ) (halloc : p.alloc r = .ok (f, p')) :
    p'.Books frames base ⟨f :: σ.live, some f⟩ := by
  have hlends := lends_of_alloc halloc
  have hframeAt : ∀ i, p'.frameAt i = p.frameAt i := fun i => by
    rw [Pool.frameAt, Pool.frameAt, hlends.firstPfn]
  refine ⟨hlends.firstPfn.trans h.firstPfn, hlends.total.trans h.total, h.limit,
    List.nodup_cons.2 ⟨h.fresh halloc, h.nodup⟩, fun g => ?_,
    by rw [hlends.inUse, h.inUse, List.length_cons], ?_⟩
  · rw [List.mem_cons, h.live, hframeAt, hlends.lent, Bool.or_eq_true, beq_iff_eq]
    constructor
    · rintro (rfl | ⟨hg, hlent⟩)
      · exact ⟨hlends.frame, .inr rfl⟩
      · exact ⟨hg, .inl hlent⟩
    · rintro ⟨hg, hlent | hcell⟩
      · exact .inr ⟨hg, hlent⟩
      · rw [hg, hcell]
        exact .inl hlends.frame.symm
  · rw [(alloc_eq_ok halloc).2.2, h.total]
    rfl

theorem Books.dealloc (h : p.Books frames base σ) (hdealloc : p.dealloc f = .ok p') :
    p'.Books frames base { σ with live := σ.live.erase f } := by
  obtain ⟨hf, hlent, hnext, htakes⟩ := dealloc_eq_ok hdealloc
  have hframeAt : ∀ i, p'.frameAt i = p.frameAt i := fun i => by
    rw [Pool.frameAt, Pool.frameAt, htakes.firstPfn]
  refine ⟨htakes.firstPfn.trans h.firstPfn, htakes.total.trans h.total, h.limit, h.nodup.erase f,
    fun g => ?_, ?_, hnext.trans h.next⟩
  · rw [h.nodup.mem_erase_iff, h.live, hframeAt, htakes.lent, Bool.and_eq_true, bne_iff_ne]
    constructor
    · rintro ⟨hne, hg, hl⟩
      refine ⟨hg, hl, fun hcell => hne ?_⟩
      rw [hg, hf, hcell]
    · rintro ⟨hg, hl, hcell⟩
      exact ⟨fun heq => hcell (heq ▸ rfl), hg, hl⟩
  · rw [htakes.inUse, h.inUse, List.length_erase_of_mem ((h.live f).2 ⟨hf, hlent⟩)]

theorem Books.write (h : p.Books frames base σ) (f : Frame) (bytes : PageBytes) :
    (p.write f bytes).Books frames base σ where
  firstPfn := h.firstPfn
  total := (total_write p f bytes).trans h.total
  limit := h.limit
  nodup := h.nodup
  live g := by
    rw [lent_write]
    exact h.live g
  inUse := h.inUse
  next := h.next

/-- The live frames are those of the lent cells. -/
theorem Books.perm (h : p.Books frames base σ) :
    σ.live.Perm (((List.range frames).filter p.lent).map (frameOf base)) := by
  have hinj : Function.Injective (frameOf base) := fun i j hij => congrArg Frame.cell hij
  refine (List.perm_ext_iff_of_nodup h.nodup ((List.nodup_range.filter _).map hinj)).2 fun f => ?_
  simp only [List.mem_map, List.mem_filter, List.mem_range]
  constructor
  · intro hf
    obtain ⟨hframe, hlent⟩ := (h.live f).1 hf
    exact ⟨f.cell, ⟨h.total ▸ lent_lt hlent, hlent⟩, by rw [← h.frameAt, ← hframe]⟩
  · rintro ⟨i, ⟨-, hlent⟩, rfl⟩
    exact (h.lent_iff i).1 hlent

theorem Books.balances (h : p.Books frames base σ) : p.Balances frames base σ := by
  have hframe : ∀ f ∈ σ.live, f.pfn = base / pageSize + f.cell ∧ f.cell < frames := fun f hf => by
    obtain ⟨hf, hlent⟩ := (h.live f).1 hf
    rw [eq_frameAt_iff, h.firstPfn] at hf
    exact ⟨hf, h.total ▸ lent_lt hlent⟩
  have hlength : σ.live.length = (List.range frames).countP p.lent := by
    rw [h.perm.length_eq, List.length_map, List.countP_eq_length_filter]
  refine ⟨h.total, ?_, fun f hf => ?_, fun f hf => ?_, ?_, h.inUse, h.inUse.trans hlength, h.next⟩
  · refine (List.nodup_map_iff_inj_on h.nodup).2 fun f hf g hg hpfn => ?_
    rw [((h.live f).1 hf).1, ((h.live g).1 hg).1]
    congr 1
    have := hframe f hf
    have := hframe g hg
    omega
  · obtain ⟨hpfn, hlt⟩ := hframe f hf
    refine ⟨by rw [Outside]; omega, ?_⟩
    have hmatched := ((h.live f).1 hf).1
    rw [Matched, hpfn, Nat.add_sub_cancel_left, ← h.frameAt]
    exact hmatched
  · have := hframe f hf
    have := h.limit
    rw [pfnLimit] at this
    rw [UInt32.size]
    omega
  · rw [hlength]
    exact Nat.le_trans List.countP_le_length (Nat.le_of_eq List.length_range)

theorem Books.answers (h : p.Books frames base σ) (r : Frame.Request) :
    p.Answers frames base σ r where
  refuses := by
    constructor
    · rintro ⟨e, halloc⟩
      cases huser : r.user with
      | false => exact .inl rfl
      | true =>
        refine .inr fun i hi => (h.lent_iff i).1 ?_
        exact lent_of_alloc_error halloc huser (h.total.symm ▸ hi)
    · intro hno
      cases halloc : p.alloc r with
      | error e => exact ⟨e, rfl⟩
      | ok x =>
        obtain ⟨f, p'⟩ := x
        have hlends := lends_of_alloc halloc
        rcases hno with huser | hall
        · rw [(alloc_eq_ok halloc).1] at huser
          simp at huser
        · have hmem := hall f.cell (h.total ▸ hlends.cell_lt)
          rw [← h.frameAt, ← hlends.frame] at hmem
          exact absurd hmem (h.fresh halloc)
  lends f p' halloc := by
    have hlends := lends_of_alloc halloc
    obtain ⟨k, hk, hcell, hbefore⟩ := nextFit_eq (alloc_eq_ok halloc).2.1
    rw [h.total, h.next] at hcell
    refine ⟨h.fresh halloc, k, h.total ▸ hk, ?_, fun j hj => ?_⟩
    · rw [← hcell, ← h.frameAt]
      exact hlends.frame
    · rw [← h.lent_iff, ← h.next, ← h.total]
      exact hbefore j hj
  bytes f p' halloc g := by
    rw [(lends_of_alloc halloc).read]
    by_cases hcell : g.cell = f.cell
    · simp [hcell]
    · simp [hcell]

theorem Books.outside_iff (h : p.Books frames base σ) (f : Frame) :
    Outside frames base f ↔ f.pfn < p.firstPfn ∨ p.total ≤ f.pfn - p.firstPfn := by
  rw [Outside, h.firstPfn, h.total]
  omega

theorem Books.matched_iff (h : p.Books frames base σ) (hin : ¬ Outside frames base f) :
    Matched base f ↔ f.cell = f.pfn - p.firstPfn := by
  rw [Matched, ← h.frameAt, h.firstPfn]
  rw [Outside] at hin
  constructor
  · intro hf
    exact congrArg Frame.cell hf
  · intro hcell
    rw [← hcell, eq_frameAt_iff, h.firstPfn]
    omega

theorem Books.accepts (h : p.Books frames base σ) (f : Frame) : p.Accepts frames base σ f := by
  have houtside := h.outside_iff f
  have hforeign : Outside frames base f → p.dealloc f = .error (.foreign f) := fun hout => by
    rw [dealloc_eq, if_pos (houtside.1 hout)]
  have hnotLent : ¬ Outside frames base f → Matched base f → f ∉ σ.live →
      p.dealloc f = .error (.notLent f) := fun hin hmatched hfree => by
    have hcell := (h.matched_iff hin).1 hmatched
    have hlent : ¬ p.lent f.cell = true := fun hlent => hfree ((h.live f).2 ⟨by
      rw [hcell, h.frameAt, h.firstPfn]
      exact hmatched, hlent⟩)
    rw [dealloc_eq, if_neg fun hout => hin (houtside.2 hout), if_neg (not_not.2 hcell), if_neg hlent]
  have hok : ∀ p', p.dealloc f = .ok p' → f ∈ σ.live := fun p' hdealloc =>
    (h.live f).2 ⟨(dealloc_eq_ok hdealloc).1, (dealloc_eq_ok hdealloc).2.1⟩
  refine ⟨fun hf => ⟨?_, ?_⟩, hforeign, fun hin hmatched => ?_, hnotLent, fun p' hdealloc => ?_⟩
  · rintro ⟨e, hdealloc⟩
    by_contra hno
    rw [not_or, not_not] at hno
    obtain ⟨hframe, hlent⟩ := (h.live f).1 hno.2
    obtain ⟨p', hp', -⟩ := exists_dealloc hframe hlent
    rw [hp'] at hdealloc
    simp at hdealloc
  · rintro hno
    by_cases hout : Outside frames base f
    · exact ⟨_, hforeign hout⟩
    · exact ⟨_, hnotLent hout (hf.resolve_right hout) (hno.resolve_left hout)⟩
  · rw [dealloc_eq, if_neg fun hout => hin (houtside.2 hout),
      if_pos fun hcell => hmatched ((h.matched_iff hin).2 hcell)]
  · obtain ⟨-, -, hnext, htakes⟩ := dealloc_eq_ok hdealloc
    exact ⟨hok p' hdealloc, hnext, htakes.lent, htakes.read⟩

/-! ### Runs -/

theorem Run.books (h : Run frames base p σ) : p.Books frames base σ := by
  induction h with
  | create run => exact books_of_create run
  | alloc _ run ih => exact ih.alloc run
  | dealloc _ run ih => exact ih.dealloc run
  | write _ f bytes ih => exact ih.write f bytes

/-- A machine on which a request is turned down or a return fails keeps its pool. -/
structure Unmoved (p : Pool) : Prop where
  refused : ∀ {φ : Type} (m m' : Machine φ) (r : Frame.Request) (e : Frame.Shortage), m.pool = p →
    Kernel.takeFrame r m = .ok (.error e) m' → m'.pool = p
  halted : ∀ {φ : Type} (m : Machine φ) (f : Frame) (e : Misuse), m.pool = p → p.dealloc f = .error e →
    Kernel.returnFrame f m = .error (.halt (.pool e)) m

/-- A request that the gate or the pool turns down changes how many have been made. -/
theorem pool_of_alloc_error {a a' : Allocator} {e : Frame.Shortage} (h : a.alloc r = (.error e, a')) :
    a'.pool = a.pool := by
  unfold Allocator.alloc at h
  split_ifs at h with hrefuse
  · rw [← (Prod.mk.inj h).2]
  · split at h
    · simp at h
    · rw [← (Prod.mk.inj h).2]

theorem unmoved (p : Pool) : p.Unmoved where
  refused m m' r e hp htake := by
    have hends : Kernel.Ends (Kernel.takeFrame r) m
        (fun result m' => result = .error e → m'.pool = p) fun _ _ => True := by
      simp only [Kernel.takeFrame, Kernel.ends_bind, Kernel.ends_modifyGet]
      split
      · rename_i e' halloc
        intro _
        exact (pool_of_alloc_error (Prod.ext halloc rfl)).trans hp
      · intro hok
        simp at hok
    exact hends.of_ok htake rfl
  halted {φ} m f e hp hdealloc := by
    subst hp
    have hget : (get : Kernel φ (Machine φ)) m = .ok m m := rfl
    simp only [Kernel.returnFrame, bind, EStateM.bind, hget, hdealloc]
    rfl

/-- A pool keeps its books, lends the frames that are not live in their order and takes back those that
are. -/
theorem Run.lends_next_fit (h : Run frames base p σ) : p.Balances frames base σ ∧
    (∀ r, p.Answers frames base σ r) ∧ (∀ f, p.Accepts frames base σ f) ∧ p.Unmoved :=
  ⟨h.books.balances, h.books.answers, h.books.accepts, p.unmoved⟩

/-- Of two frames both have been lent and the first one has been returned: the next request gets it
again, and that it is returned twice is noticed. -/
theorem Run.lends_next_fit_around :
    ∃ (p : Pool) (σ : Loans), σ = ⟨[⟨257, 1⟩], some ⟨257, 1⟩⟩ ∧ Run 2 defaultBase p σ ∧
    (p.Balances 2 defaultBase σ ∧ (∀ r, p.Answers 2 defaultBase σ r) ∧
      (∀ f, p.Accepts 2 defaultBase σ f) ∧ p.Unmoved) ∧
    (∃ p', p.alloc (.forUser true) = .ok (⟨256, 0⟩, p')) ∧
    p.dealloc ⟨256, 0⟩ = .error (.notLent ⟨256, 0⟩) := by
  obtain ⟨p₀, h₀, p₁, h₁, p₂, h₂, p, h, halloc, hdealloc⟩ :
      ∃ p₀, Pool.create 2 defaultBase = .ok p₀ ∧
      ∃ p₁, p₀.alloc (.forUser false) = .ok (⟨256, 0⟩, p₁) ∧
      ∃ p₂, p₁.alloc (.forUser true) = .ok (⟨257, 1⟩, p₂) ∧ ∃ p, p₂.dealloc ⟨256, 0⟩ = .ok p ∧
      (∃ p', p.alloc (.forUser true) = .ok (⟨256, 0⟩, p')) ∧
      p.dealloc ⟨256, 0⟩ = .error (.notLent ⟨256, 0⟩) :=
    ⟨_, rfl, _, rfl, _, rfl, _, rfl, ⟨_, rfl⟩, rfl⟩
  have hrun : Run 2 defaultBase p ⟨[⟨257, 1⟩], some ⟨257, 1⟩⟩ :=
    .dealloc (.alloc (.alloc (.create h₀) h₁) h₂) h
  exact ⟨p, _, rfl, hrun, hrun.lends_next_fit, halloc, hdealloc⟩

end Pool

end DemandPaging
