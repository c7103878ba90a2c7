import DemandPaging.Proofs.UserCopy

/-!
# Strings in user memory

A string is looked for its end page after page, as a copy of it would go over its pages. What is read is
text, bytes that are not zero, and then either the zero byte that ends it, on a page behind which nothing
is looked at, or a page that cannot be had. Each page is looked at when it has its turn. Where paging can
keep its pages in their files, what is read is what the process should find.
-/

namespace DemandPaging

/-! ### The first zero byte of a page -/

namespace Bytes

variable {n : Nat} {b : Bytes n} {pos k : Nat}

theorem zeroAfter_eq_some_iff : b.zeroAfter pos = some k ↔
    b.data[pos + k]? = some 0 ∧ ∀ j < k, b.data[pos + j]? ≠ some 0 := by
  simp only [zeroAfter, List.findIdx?_eq_some_iff_getElem, ← List.getElem?_drop]
  constructor
  · rintro ⟨hk, hzero, hbefore⟩
    refine ⟨?_, fun j hj => ?_⟩
    · rw [List.getElem?_eq_getElem hk]
      simpa using hzero
    · rw [List.getElem?_eq_getElem (Nat.lt_trans hj hk)]
      simpa using hbefore j hj
  · rintro ⟨hzero, hbefore⟩
    obtain ⟨hk, hzero⟩ := List.getElem?_eq_some_iff.1 hzero
    refine ⟨hk, by simpa using hzero, fun j hj => ?_⟩
    have hne := hbefore j hj
    rw [List.getElem?_eq_getElem (Nat.lt_trans hj hk)] at hne
    simpa using hne

theorem zeroAfter_eq_none_iff : b.zeroAfter pos = none ↔ ∀ j, b.data[pos + j]? ≠ some 0 := by
  simp only [zeroAfter, List.findIdx?_eq_none_iff, ← List.getElem?_drop]
  constructor
  · intro h j hj
    simpa using h 0 (List.mem_of_getElem? hj)
  · intro h y hy
    obtain ⟨j, hj⟩ := List.getElem?_of_mem hy
    have hne := h j
    rw [hj] at hne
    simpa using hne

/-- Bytes of a slice that are not zero. -/
theorem ne_zero_of_mem_slice (h : ∀ j < k, b.data[pos + j]? ≠ some 0) : ∀ y ∈ b.slice pos k, y ≠ 0 := by
  rintro y hy rfl
  obtain ⟨j, hj⟩ := List.getElem?_of_mem hy
  rw [getElem?_slice] at hj
  split at hj
  · exact h j (by assumption) hj
  · simp at hj

/-- A zero byte is found behind text. -/
theorem slice_of_zeroAfter (h : b.zeroAfter pos = some k) :
    ∃ text : List UInt8, text.length = k ∧ (∀ y ∈ text, y ≠ 0) ∧ b.slice pos (k + 1) = text ++ [0] ∧
      pos + k < n := by
  obtain ⟨hzero, hbefore⟩ := zeroAfter_eq_some_iff.1 h
  have hlt : pos + k < n := by
    by_contra hge
    simp [b.getElem?_data_eq_none (Nat.le_of_not_lt hge)] at hzero
  refine ⟨b.slice pos k, ?_, ne_zero_of_mem_slice hbefore, ?_, hlt⟩
  · rw [length_slice]
    omega
  · rw [slice, slice, List.take_add_one, List.getElem?_drop, hzero]
    rfl

end Bytes

open Kernel

namespace Machine

variable {φ : Type} [FileSystem φ] {m m' m₁ : Machine φ} {p : ProcId} {a len esp x : Nat} {write : Bool}
  {b : PageBytes} {stage : Nat → Machine φ} {bytes : List UInt8}

/-! ### What a scan comes to -/

/-- The pages of the `len` bytes from `a` on are opened one after the other, and `bytes` are these bytes,
each as its page holds it when the page has had its turn. -/
structure Reads (m : Machine φ) (p : ProcId) (a len esp : Nat) (stage : Nat → Machine φ)
    (bytes : List UInt8) : Prop where
  walks : Walks p a len esp false m stage (spanCount a len) (.ok ()) (stage (spanCount a len))
  gathers : Gathers p a len stage bytes

/-- What the search for the end of the string at `a` comes to. -/
inductive Scans (m : Machine φ) (p : ProcId) (a esp : Nat) : Except FaultError Nat → Machine φ → Prop
  /-- Behind the text there is a zero byte. Its page is the last that is looked at. -/
  | found {stage : Nat → Machine φ} {text : List UInt8} (plain : ∀ y ∈ text, y ≠ 0)
      (reads : m.Reads p a (text.length + 1) esp stage (text ++ [0])) :
      Scans m p a esp (.ok text.length) (stage (spanCount a (text.length + 1)))
  /-- The text goes on to the end of its last page, and the next page cannot be had. -/
  | refused {stage : Nat → Machine φ} {text : List UInt8} {e : FaultError} {m' : Machine φ}
      (plain : ∀ y ∈ text, y ≠ 0) (reads : m.Reads p a text.length esp stage text)
      (whole : text = [] ∨ pageOffset (a + text.length) = 0) (within : a + text.length ≤ max a userTop)
      (refuses : (stage (spanCount a text.length)).Refuses p (a + text.length) esp false e m') :
      Scans m p a esp (.error e) m'

/-! ### One page and the rest -/

/-- A page that is opened is a page of user space. -/
theorem Opens.isUser (h : m.Opens p a esp write m') (hm : m.Settled ∅) : isUser a = true := by
  cases h with
  | offered here =>
    obtain ⟨i, hi, hin, -⟩ := here
    obtain ⟨f, hf⟩ := Option.isSome_iff_exists.1 hin
    have hmapped := hm.sound.housed.mapping?_of_frame hi hf
    obtain ⟨-, -, huser, -⟩ := hm.shows.proper hm.sound p _ _ _ hmapped
    rwa [isUser_pageBase] at huser
  | faulted _ _ _ decides => exact isUser_of_admitted decides.admitted

theorem reads_nil (m : Machine φ) (p : ProcId) (a esp : Nat) : m.Reads p a 0 esp (fun _ => m) [] :=
  ⟨walks_nil m p a esp false, gathers_nil p a _⟩

/-- The bytes of the first page are put before the others. -/
theorem Reads.cons {k : Nat} (hpos : 0 < k) (hfirst : inFirst a (k + len) = k)
    (hopens : m.Opens p a esp false m₁) (hholds : m₁.Holds p a b)
    (h : m₁.Reads p (a + k) len esp stage bytes) :
    m.Reads p a (k + len) esp (startingWith m stage) (b.slice (pageOffset a) k ++ bytes) := by
  have hpos' : 0 < k + len := Nat.add_pos_left hpos len
  have hrest : m₁.Reads p (a + inFirst a (k + len)) (k + len - inFirst a (k + len)) esp stage bytes := by
    rwa [hfirst, Nat.add_sub_cancel_left]
  have hgathers := hrest.gathers.cons (m := m) (by rwa [hrest.walks.start])
  have hwalks := hrest.walks.cons hpos' hopens
  rw [← spanCount_succ hpos'] at hwalks
  rw [hfirst] at hgathers
  refine ⟨?_, hgathers⟩
  rw [spanCount_succ hpos'] at hwalks ⊢
  exact hwalks

/-- The number of pages, when the first one is looked at to its end or to the end of what is read. -/
theorem spanCount_add {k : Nat} (hpos : 0 < k) (hfirst : inFirst a (k + len) = k) :
    spanCount a (k + len) = spanCount (a + k) len + 1 := by
  rw [spanCount_succ (Nat.add_pos_left hpos len), hfirst, Nat.add_sub_cancel_left]

/-- The zero byte is on the first page. -/
theorem scans_of_zeroAfter {k : Nat} (hopens : m.Opens p a esp false m₁) (hholds : m₁.Holds p a b)
    (hzero : b.zeroAfter (pageOffset a) = some k) : m.Scans p a esp (.ok k) m₁ := by
  obtain ⟨text, rfl, hplain, hslice, hlt⟩ := Bytes.slice_of_zeroAfter hzero
  have hfirst : inFirst a (text.length + 1 + 0) = text.length + 1 := Nat.min_eq_left (by omega)
  have hreads := Reads.cons (Nat.succ_pos _) hfirst hopens hholds (reads_nil m₁ p (a + (text.length + 1)) esp)
  have hcount := spanCount_add (Nat.succ_pos _) hfirst
  rw [hslice, List.append_nil] at hreads
  have hfound := Scans.found hplain hreads
  rw [Nat.add_zero] at hcount
  rw [hcount, startingWith_succ] at hfound
  exact hfound

omit [FileSystem φ] in
theorem pageOffset_next (a : Nat) : pageOffset (a + (pageSize - pageOffset a)) = 0 := by
  simp only [pageOffset, pageSize]
  omega

/-- There is text up to the end of the first page, and the search goes on behind it. -/
theorem Scans.cons {r : Except FaultError Nat} (ha : isUser a = true) (hopens : m.Opens p a esp false m₁)
    (hholds : m₁.Holds p a b) (hnone : b.zeroAfter (pageOffset a) = none)
    (h : m₁.Scans p (a + (pageSize - pageOffset a)) esp r m') :
    m.Scans p a esp (r.map (pageSize - pageOffset a + ·)) m' := by
  set k := pageSize - pageOffset a with hk
  have hpos : 0 < k := Nat.sub_pos_of_lt (pageOffset_lt a)
  have hfirst : ∀ len, inFirst a (k + len) = k := fun len => Nat.min_eq_right (Nat.le_add_right k len)
  set front := b.slice (pageOffset a) k with hfront
  have hlength : front.length = k := by
    rw [hfront, Bytes.length_slice, hk, Nat.min_self]
  have hplain' : ∀ y ∈ front, y ≠ 0 := Bytes.ne_zero_of_mem_slice fun j _ =>
    Bytes.zeroAfter_eq_none_iff.1 hnone j
  cases h with
  | @found stage text plain reads =>
    have hreads := Reads.cons hpos (hfirst _) hopens hholds reads
    have hcount := spanCount_add hpos (hfirst (text.length + 1))
    have htext : (front ++ text).length = k + text.length := by rw [List.length_append, hlength]
    rw [← hfront, ← List.append_assoc, ← Nat.add_assoc, ← htext] at hreads
    have hfound := Scans.found (List.forall_mem_append.2 ⟨hplain', plain⟩) hreads
    rw [← Nat.add_assoc, ← htext] at hcount
    rw [hcount, htext, startingWith_succ] at hfound
    exact hfound
  | @refused stage text e m' plain reads whole within refuses =>
    have hreads := Reads.cons hpos (hfirst _) hopens hholds reads
    have hcount := spanCount_add hpos (hfirst text.length)
    have htext : (front ++ text).length = k + text.length := by rw [List.length_append, hlength]
    have haddr : a + (front ++ text).length = a + k + text.length := by omega
    have hnext : a + k ≤ userTop := lt_userTop_of_isUser ((isUser_pageBase a).trans ha) (Nat.le_of_eq hk)
    rw [← hfront, ← htext] at hreads
    refine Scans.refused (List.forall_mem_append.2 ⟨hplain', plain⟩) hreads (.inr ?_) ?_ ?_
    · rw [haddr]
      rcases whole with rfl | hwhole
      · rw [List.length_nil, Nat.add_zero]
        exact pageOffset_next a
      · exact hwhole
    · rw [haddr]
      omega
    · rw [haddr, htext, hcount, startingWith_succ]
      exact refuses

/-- The first page cannot be had. -/
theorem scans_of_refuses {e : FaultError} (h : m.Refuses p a esp false e m') : m.Scans p a esp (.error e) m' :=
  .refused (List.forall_mem_nil (· ≠ 0)) (reads_nil m p a esp) (.inl rfl) (Nat.le_max_left ..) h

/-! ### Where the pages of a string begin -/

/-- The offset in the string at `a` at which its `k`-th page begins. -/
def pageStart (a k : Nat) : Nat := max a (pageBase a + k * pageSize) - a

omit [FileSystem φ] in
theorem pageStart_zero (a : Nat) : pageStart a 0 = 0 := by
  have hle := pageBase_le a
  simp only [pageStart]
  omega

omit [FileSystem φ] in
theorem add_pageStart (a len k : Nat) : a + pageStart a k = (span a len k).addr := by
  simp only [pageStart, span]
  omega

omit [FileSystem φ] in
theorem pageStart_succ (a k : Nat) :
    pageStart a (k + 1) = pageStart a k + (pageSize - pageOffset (a + pageStart a k)) := by
  simp only [pageStart, pageBase, pageOffset, pageSize]
  omega

omit [FileSystem φ] in
/-- The bytes of a page by their offsets, in the string and in the page. -/
theorem index_pageStart {k j : Nat} (h : pageOffset (a + pageStart a k) + j < pageSize) :
    (pageOffset a + (pageStart a k + j)) / pageSize = k ∧
      pageOffset (a + (pageStart a k + j)) = pageOffset (a + pageStart a k) + j := by
  simp only [pageStart, pageBase, pageOffset, pageSize] at *
  omega

omit [FileSystem φ] in
theorem pageStart_lt {k : Nat} (hk : k < spanCount a len) : pageStart a k < len := by
  simp only [spanCount] at hk
  split at hk
  · omega
  · simp only [pageStart, pageBase, pageOffset, pageSize] at *
    omega

omit [FileSystem φ] in
theorem spanCount_mono {len' : Nat} (h : len ≤ len') : spanCount a len ≤ spanCount a len' := by
  simp only [spanCount]
  split
  · exact Nat.zero_le _
  · rw [if_neg (by omega)]
    exact Nat.div_le_div_right (by omega)

omit [FileSystem φ] in
/-- There is a page past the top of user space that may be looked at. -/
theorem userTop_lt_of_spanCount (a : Nat) :
    userTop < pageBase a + (spanCount a (userTop - a) + 1) * pageSize := by
  have hoffset := pageOffset_lt a
  have hbase := pageBase_add_pageOffset a
  simp only [spanCount]
  split
  · omega
  · simp only [pageSize] at *
    omega

omit [FileSystem φ] in
/-- Behind pages that end with the range the next page begins. -/
theorem pageStart_spanCount (h : len = 0 ∨ pageOffset (a + len) = 0) : pageStart a (spanCount a len) = len := by
  rcases Nat.eq_zero_or_pos len with rfl | hpos
  · exact pageStart_zero a
  · have hend := h.resolve_left (Nat.ne_of_gt hpos)
    simp only [spanCount, if_neg (Nat.ne_of_gt hpos), pageStart, pageBase, pageOffset, pageSize] at *
    omega

omit [FileSystem φ] in
/-- All bytes of such pages are in the range. -/
theorem lt_of_index_lt {i : Nat} (h : len = 0 ∨ pageOffset (a + len) = 0)
    (hi : (pageOffset a + i) / pageSize < spanCount a len) : i < len := by
  rcases Nat.eq_zero_or_pos len with rfl | hpos
  · exact absurd hi (Nat.not_lt_zero _)
  · have hend := h.resolve_left (Nat.ne_of_gt hpos)
    simp only [spanCount, if_neg (Nat.ne_of_gt hpos), pageOffset, pageSize] at *
    omega

/-! ### What has been read -/

theorem Reads.settled (h : m.Reads p a len esp stage bytes) (hm : m.Settled ∅)
    (hlive : m.scene.exited p = false) {k : Nat} (hk : k ≤ spanCount a len) : (stage k).Settled ∅ := by
  have hstages : Stages (.copy a len esp) p m (stage k) := h.walks.stages rfl k hk
  exact (hstages.settled hm hlive).1

omit [FileSystem φ] in
/-- A page in memory has but one contents. -/
theorem Holds.unique {b' : PageBytes} (h : m.Holds p x b) (h' : m.Holds p x b') : b = b' := by
  obtain ⟨i, f, hi, hf, rfl⟩ := h
  obtain ⟨i', f', hi', hf', rfl⟩ := h'
  obtain rfl := Option.some.inj (hi.symm.trans hi')
  obtain rfl := Option.some.inj (hf.symm.trans hf')
  rfl

/-- A page that has been read held the bytes that have been read of it. -/
theorem Reads.page (h : m.Reads p a len esp stage bytes) {k : Nat} (hk : k < spanCount a len) :
    ∃ b, (stage (k + 1)).Holds p (a + pageStart a k) b ∧
      ∀ i < len, (pageOffset a + i) / pageSize = k → bytes[i]? = b.data[pageOffset (a + i)]? := by
  have hfirst : (pageOffset a + pageStart a k) / pageSize = k :=
    (index_pageStart (a := a) (j := 0) (pageOffset_lt _)).1
  obtain ⟨b, hholds, -⟩ := h.gathers.byte _ (pageStart_lt hk)
  rw [hfirst] at hholds
  refine ⟨b, hholds, fun i hi hindex => ?_⟩
  obtain ⟨b', hholds', hbyte⟩ := h.gathers.byte i hi
  rw [hindex] at hholds'
  have hbase : pageBase (a + pageStart a k) = pageBase (a + i) := by
    rw [add_pageStart a len, ← hindex, ← (addr_le a len i).1]
  rw [(hholds'.congr hbase).unique hholds] at hbyte
  exact hbyte

/-- A page that has been read and is all text. -/
theorem Reads.page_of_plain (h : m.Reads p a len esp stage bytes) {k : Nat} (hk : k < spanCount a len)
    (hplain : ∀ i, (pageOffset a + i) / pageSize = k → ∃ y, bytes[i]? = some y ∧ y ≠ 0) :
    ∃ b, (stage (k + 1)).Holds p (a + pageStart a k) b ∧
      b.zeroAfter (pageOffset (a + pageStart a k)) = none := by
  obtain ⟨b, hholds, hbyte⟩ := h.page hk
  refine ⟨b, hholds, Bytes.zeroAfter_eq_none_iff.2 fun j hj => ?_⟩
  have hin : pageOffset (a + pageStart a k) + j < pageSize := by
    by_contra hout
    simp [b.getElem?_data_eq_none (Nat.le_of_not_lt hout)] at hj
  obtain ⟨hindex, hoffset⟩ := index_pageStart (a := a) (k := k) hin
  obtain ⟨y, hy, hne⟩ := hplain (pageStart a k + j) hindex
  have hlt : pageStart a k + j < len := by
    rw [← h.gathers.length]
    exact (List.getElem?_eq_some_iff.1 hy).1
  rw [hbyte _ hlt hindex, hoffset, hj] at hy
  exact hne (Option.some.inj hy).symm

/-- The page that has been read last, with the zero byte behind the text. -/
theorem Reads.page_of_zero {text : List UInt8} (plain : ∀ y ∈ text, y ≠ 0)
    (h : m.Reads p a (text.length + 1) esp stage (text ++ [0])) :
    ∃ k < spanCount a (text.length + 1), k = (pageOffset a + text.length) / pageSize ∧
      pageStart a k ≤ text.length ∧ pageBase (a + pageStart a k) = pageBase (a + text.length) ∧
      ∃ b, (stage (k + 1)).Holds p (a + pageStart a k) b ∧
        b.zeroAfter (pageOffset (a + pageStart a k)) = some (text.length - pageStart a k) := by
  set k := (pageOffset a + text.length) / pageSize with hk
  have hcount : k < spanCount a (text.length + 1) := index_lt (text.length + 1) (Nat.lt_succ_self _)
  have hbase : pageBase (a + pageStart a k) = pageBase (a + text.length) := by
    rw [add_pageStart a (text.length + 1), hk, ← (addr_le a (text.length + 1) text.length).1]
  have hstart : pageStart a k ≤ text.length := Nat.le_of_lt_succ (pageStart_lt hcount)
  have hoffset : pageOffset (a + text.length) =
      pageOffset (a + pageStart a k) + (text.length - pageStart a k) := by
    have h₁ := pageBase_add_pageOffset (a + text.length)
    have h₂ := pageBase_add_pageOffset (a + pageStart a k)
    omega
  obtain ⟨b, hholds, hbyte⟩ := h.page hcount
  refine ⟨k, hcount, rfl, hstart, hbase, b, hholds, Bytes.zeroAfter_eq_some_iff.2 ⟨?_, fun j hj hzero => ?_⟩⟩
  · rw [← hoffset, ← hbyte _ (Nat.lt_succ_self _) hk.symm]
    simp
  · have hin : pageOffset (a + pageStart a k) + j < pageSize := by
      have := pageOffset_lt (a + text.length)
      omega
    obtain ⟨hindex, hpos⟩ := index_pageStart (a := a) (k := k) hin
    have hlt : pageStart a k + j < text.length := by omega
    have hbyte := hbyte _ (Nat.lt_succ_of_lt hlt) hindex
    rw [hpos, hzero, List.getElem?_append_left hlt] at hbyte
    exact plain 0 (List.mem_of_getElem? hbyte) rfl

/-! ### Pages that the stack grows by -/

/-- To open a page is to declare no other page. -/
theorem Opens.lookup (h : m.Opens p a esp write m') {x : Nat} (hx : pageBase x ≠ pageBase a) :
    m'.lookup p x = m.lookup p x := by
  cases h with
  | offered => rfl
  | faulted _ _ _ decides =>
    cases hi : m.lookup p a with
    | some i =>
      obtain ⟨f, b, -, -, hdeclared⟩ := decides.resolved rfl i hi
      exact congrFun (congrFun hdeclared p) (pageBase x)
    | none =>
      obtain ⟨f, -, hdeclared⟩ := decides.grown rfl hi
      refine (congrFun (congrFun hdeclared p) (pageBase x)).trans (setAt_of_ne _ _ ?_)
      exact fun h => hx h.2

/-- A page that has not been declared when its turn comes holds zeros from then on. -/
theorem Opens.zero_of_undeclared (h : m.Opens p a esp write m') (hm' : m'.Settled ∅) (hnone : m.lookup p a = none)
    (hholds : m'.Holds p a b) : b = .zero pageSize := by
  cases h with
  | offered here =>
    obtain ⟨i, hi, -⟩ := here
    simp [hnone] at hi
  | faulted _ _ _ decides =>
    obtain ⟨f, hgains, hdeclared⟩ := decides.grown rfl hnone
    have hlookup : m'.lookup p a = some m.pages.next :=
      (congrFun (congrFun hdeclared p) (pageBase a)).trans (setAt_self ..)
    refine hholds.unique ⟨m.pages.next, f, hlookup, ?_, hm'.shows.read_of_cell ?_⟩
    · rw [hgains.page, Function.update_self]
    · refine (congrFun hgains.contents f.cell).trans ?_
      exact Function.update_self ..

/-- The pages before its turn leave a page undeclared. -/
theorem Reads.lookup (h : m.Reads p a len esp stage bytes) {x : Nat} : ∀ k ≤ spanCount a len,
    (∀ j < k, pageBase x ≠ pageBase (a + pageStart a j)) → (stage k).lookup p x = m.lookup p x := by
  intro k
  induction k with
  | zero =>
    intro _ _
    rw [h.walks.start]
  | succ k ih =>
    intro hk hother
    have hopens := h.walks.opened k hk
    rw [← add_pageStart] at hopens
    rw [hopens.lookup (hother k (Nat.lt_succ_self k)),
      ih (Nat.le_of_lt hk) fun j hj => hother j (Nat.lt_succ_of_lt hj)]

/-- What is read of pages that the stack grows by on the way is zero. -/
theorem Reads.zero_of_undeclared (h : m.Reads p a len esp stage bytes) (hm : m.Settled ∅)
    (hlive : m.scene.exited p = false) {i : Nat} (hi : i < len) (hnone : m.lookup p (a + i) = none) :
    bytes[i]? = some 0 := by
  set k := (pageOffset a + i) / pageSize with hk
  have hcount := index_lt (a := a) len hi
  have hbase : ∀ j, pageBase (a + pageStart a j) = pageBase a + j * pageSize := fun j => by
    simp only [pageStart, pageBase, pageSize]
    omega
  have hbase' : pageBase (a + i) = pageBase a + k * pageSize := by
    simp only [hk, pageBase, pageOffset, pageSize]
    omega
  obtain ⟨b, hholds, hbyte⟩ := h.page hcount
  have hopens := h.walks.opened k hcount
  rw [← add_pageStart] at hopens
  have hundeclared : (stage k).lookup p (a + pageStart a k) = none := by
    have hsame : ∀ n : Machine φ, n.lookup p (a + pageStart a k) = n.lookup p (a + i) := fun n => by
      rw [Machine.lookup, Machine.lookup, Process.lookup, Process.lookup, hbase, hbase']
    rw [hsame, h.lookup k (Nat.le_of_lt hcount), hnone]
    intro j hj heq
    rw [hbase, hbase'] at heq
    have hpos : 0 < pageSize := by decide
    exact Nat.ne_of_gt hj (Nat.eq_of_mul_eq_mul_right hpos (Nat.add_left_cancel heq))
  rw [hbyte i hi rfl, hopens.zero_of_undeclared (h.settled hm hlive hcount) hundeclared hholds,
    Bytes.getElem?_zero, if_pos (pageOffset_lt _)]

end Machine

namespace Kernel

open Machine

variable {φ : Type} [FileSystem φ] {m m' : Machine φ} {p : ProcId} {a esp : Nat}

/-! ### The search -/

/-- The length of the part that is behind already is added to what the search for the rest comes to. -/
theorem scanString_add (p : ProcId) (a esp k : Nat) : ∀ n len : Nat, scanString (φ := φ) p a esp n (k + len) =
    Except.map (k + ·) <$> scanString p (a + k) esp n len
  | 0, len => by
    rw [scanString, scanString, map_pure, Nat.add_assoc]
    rfl
  | n + 1, len => by
    rw [scanString, scanString, map_bind, show a + (k + len) = a + k + len from (Nat.add_assoc ..).symm]
    refine bind_congr fun r => ?_
    cases r with
    | error e => rfl
    | ok b =>
      dsimp only
      split
      · rw [map_pure, Nat.add_assoc]
        rfl
      · rw [Nat.add_assoc, scanString_add p a esp k n]

/-- The search comes to an end by the top of user space, without running out of pages to look at. -/
theorem ends_scanString (p : ProcId) (esp : Nat) : ∀ (n a : Nat) {m : Machine φ}, m.Settled ∅ →
    m.scene.exited p = false → userTop < pageBase a + n * pageSize → a ≤ userTop ∨ 0 < n →
    Ends (scanString p a esp n 0) m (m.Scans p a esp) fun s _ => ∃ cause, s = .halt cause := by
  intro n
  induction n with
  | zero =>
    intro a m _ _ hbound hstart
    have hle := pageBase_le a
    omega
  | succ n ih =>
    intro a m hm hlive hbound _
    rw [scanString, ends_bind, Nat.add_zero]
    refine (ends_visit hm hlive a esp false).returns ?_
    rintro (e | b) m₁ ⟨hm₁, hlive₁, hopened, hrefused⟩
    · exact scans_of_refuses (hrefused e rfl)
    obtain ⟨hopens, hholds⟩ := hopened b rfl
    dsimp only
    cases hzero : b.zeroAfter (pageOffset a) with
    | some k =>
      rw [ends_pure, Nat.zero_add]
      exact scans_of_zeroAfter hopens hholds hzero
    | none =>
      have ha : isUser a = true := hopens.isUser hm
      have hnext := lt_userTop_of_isUser ((isUser_pageBase a).trans ha) (Nat.le_refl (pageSize - pageOffset a))
      have hbase : pageBase (a + (pageSize - pageOffset a)) = pageBase a + pageSize := by
        simp only [pageBase, pageOffset, pageSize]
        omega
      have hrest := ih (a + (pageSize - pageOffset a)) hm₁ hlive₁ (by rw [hbase, Nat.succ_mul] at *; omega)
        (.inl hnext)
      rw [Nat.zero_add, show pageSize - pageOffset a = pageSize - pageOffset a + 0 from rfl, scanString_add,
        map_eq_pure_bind, ends_bind]
      exact hrest.returns fun r m' h => h.cons ha hopens hholds hzero

/-! ### What the pages make the search do -/

/-- A fault outside user space is refused for that. -/
theorem error_of_notUser {e : FaultError} {write : Bool} (huser : isUser a = false)
    (hrun : handleFault p a esp write m = .ok (.error e) m') : e = .notUser a := by
  have hends : Ends (handleFault p a esp write) m (fun r _ => r = .error (.notUser a)) fun _ _ => True := by
    rw [handleFault, ends_bind, decideFault, ends_ite, if_pos (by simp [huser]), ends_pure]
    simp only [ends_bind, ends_process, ends_emit, ends_pure]
  exact Except.error.inj (hends.of_ok hrun)

variable {m₁ : Machine φ} {b : PageBytes} {write : Bool} {len : Nat} {stage : Nat → Machine φ}
  {bytes : List UInt8}

omit [FileSystem φ] in
theorem peek_eq (hm : m.Settled ∅) (a : Nat) (write : Bool) : peek p a write m = .ok (m.glimpse p a write) m := by
  have hends := ends_peek (p := p) (E := fun _ _ => False) hm a write fun hne => absurd hne Set.not_nonempty_empty
  exact eq_ok_of_ends (hends.returns fun _ _ h => h.symm)

omit [FileSystem φ] in
theorem glimpse_of_holds (h : m.Holds p a b) : m.glimpse p a false = .ok (some b) := by
  obtain ⟨i, f, hi, hf, rfl⟩ := h
  rw [glimpse, hi]
  simp [hf]

omit [FileSystem φ] in
theorem glimpse_of_away (h : ¬ m.Offers p a false) : m.glimpse p a false = .ok none := by
  rw [glimpse]
  cases hi : m.lookup p a with
  | none => rfl
  | some i =>
    cases hf : (m.page i).frame with
    | none => simp [hf]
    | some f => exact absurd ⟨i, hi, by simp [Page.resident, hf], by simp⟩ h

/-- A page that can be opened is visited. -/
theorem visit_of_opens (hopens : m.Opens p a esp false m₁) (hholds : m₁.Holds p a b) (hm : m.Settled ∅)
    (hm₁ : m₁.Settled ∅) : visit p a esp false m = .ok (.ok b) m₁ := by
  have huser := hopens.isUser hm
  have hseen : peek p a false m₁ = .ok (.ok (some b)) m₁ := by rw [peek_eq hm₁, glimpse_of_holds hholds]
  refine eq_ok_of_ends ?_
  rw [visit, ends_ite, if_neg (by simp [huser]), ends_bind]
  cases hopens with
  | offered =>
    rw [ends_of_eq hseen]
    exact ⟨rfl, rfl⟩
  | faulted away run =>
    rw [ends_of_eq (peek_eq hm a false), glimpse_of_away away]
    simp only [ends_bind]
    rw [ends_of_eq run]
    simp only [ends_bind]
    rw [ends_of_eq hseen]
    exact ⟨rfl, rfl⟩

/-- A page that cannot be had is refused. -/
theorem visit_of_refuses {e : FaultError} (h : m.Refuses p a esp false e m₁) (hm : m.Settled ∅) :
    ∃ m', visit p a esp false m = .ok (.error e) m' := by
  obtain ⟨m'', hrun, -⟩ := h.fault
  cases huser : isUser a with
  | true =>
    refine ⟨m'', eq_ok_of_ends ?_⟩
    rw [visit, ends_ite, if_neg (by simp [huser]), ends_bind, ends_of_eq (peek_eq hm a false),
      glimpse_of_away h.away]
    simp only [ends_bind]
    rw [ends_of_eq hrun]
    exact ⟨rfl, rfl⟩
  | false =>
    refine ⟨m, eq_ok_of_ends ?_⟩
    rw [visit, ends_ite, if_pos (by simp [huser]), ends_pure, error_of_notUser huser hrun]
    exact ⟨rfl, rfl⟩

/-- The search looks at a page, and goes on if it has no zero byte. -/
theorem scanString_of_opens {d : Nat} (hopens : m.Opens p (a + d) esp false m₁) (hholds : m₁.Holds p (a + d) b)
    (hm : m.Settled ∅) (hm₁ : m₁.Settled ∅) (n : Nat) :
    scanString p a esp (n + 1) d m = match b.zeroAfter (pageOffset (a + d)) with
      | some k => .ok (.ok (d + k)) m₁
      | none => scanString p a esp n (d + (pageSize - pageOffset (a + d))) m₁ := by
  rw [scanString]
  simp only [bind, EStateM.bind, visit_of_opens hopens hholds hm hm₁]
  cases b.zeroAfter (pageOffset (a + d)) <;> rfl

/-- Pages that have been read and hold no zero byte are behind. -/
theorem scanString_of_reads (h : m.Reads p a len esp stage bytes) (hm : m.Settled ∅)
    (hlive : m.scene.exited p = false) : ∀ (k n : Nat), k ≤ spanCount a len →
    (∀ i, (pageOffset a + i) / pageSize < k → ∃ y, bytes[i]? = some y ∧ y ≠ 0) →
    scanString p a esp (k + n) 0 m = scanString p a esp n (pageStart a k) (stage k) := by
  intro k
  induction k with
  | zero =>
    intro n _ _
    rw [Nat.zero_add, pageStart_zero, h.walks.start]
  | succ k ih =>
    intro n hk hplain
    obtain ⟨b, hholds, hnone⟩ := h.page_of_plain hk fun i hi => hplain i (Nat.lt_succ_of_le (Nat.le_of_eq hi))
    have hopens := h.walks.opened k hk
    rw [← add_pageStart] at hopens
    have hstep := scanString_of_opens hopens hholds (h.settled hm hlive (Nat.le_of_lt hk))
      (h.settled hm hlive hk) n
    rw [show k + 1 + n = k + (n + 1) by omega, ih (n + 1) (Nat.le_of_lt hk)
      fun i hi => hplain i (Nat.lt_succ_of_lt hi), hstep, hnone, pageStart_succ]

/-- What the search comes to does not depend on how many pages may be looked at, as long as they reach to
the top of user space. -/
theorem scanString_of_scans {r : Except FaultError Nat} (h : m.Scans p a esp r m') (hm : m.Settled ∅)
    (hlive : m.scene.exited p = false) :
    ∃ m'', ∀ n, spanCount a (userTop - a) < n → scanString p a esp n 0 m = .ok r m'' := by
  cases h with
  | @found stage text plain reads =>
    obtain ⟨k, hcount, hk, hstart, hbase, b, hholds, hzero⟩ := reads.page_of_zero plain
    have hopens := reads.walks.opened k hcount
    rw [← add_pageStart] at hopens
    have hm' := reads.settled hm hlive (Nat.le_of_lt hcount)
    have huser : isUser (a + text.length) = true := by
      rw [← isUser_pageBase, ← hbase, isUser_pageBase]
      exact hopens.isUser hm'
    have htop := (isUser_iff.1 huser).2
    refine ⟨stage (k + 1), fun n hn => ?_⟩
    have hle : k < n := by
      have hmono := spanCount_mono (a := a) (show text.length + 1 ≤ userTop - a by omega)
      omega
    obtain ⟨n, rfl⟩ : ∃ n', n = k + (n' + 1) := ⟨n - k - 1, by omega⟩
    rw [scanString_of_reads reads hm hlive k _ (Nat.le_of_lt hcount) fun i hi => ?_,
      scanString_of_opens hopens hholds hm' (reads.settled hm hlive hcount), hzero]
    · simp only
      rw [Nat.add_sub_cancel' hstart]
    · have hlt : i < text.length := by
        rw [hk] at hi
        by_contra hge
        exact absurd hi (Nat.not_lt.2 (Nat.div_le_div_right (by omega)))
      refine ⟨text[i], ?_, plain _ (List.getElem_mem hlt)⟩
      rw [List.getElem?_append_left hlt, List.getElem?_eq_getElem hlt]
  | @refused stage text e m' plain reads whole within refuses =>
    have hstart : pageStart a (spanCount a text.length) = text.length := by
      refine pageStart_spanCount (whole.imp_left fun hnil => by rw [hnil]; rfl)
    obtain ⟨m'', hvisit⟩ := visit_of_refuses refuses (reads.settled hm hlive (Nat.le_refl _))
    refine ⟨m'', fun n hn => ?_⟩
    have hle : spanCount a text.length < n := by
      rcases Nat.eq_zero_or_pos text.length with hnil | hpos
      · rw [hnil]
        exact Nat.lt_of_le_of_lt (Nat.zero_le _) hn
      · have hmono := spanCount_mono (a := a) (show text.length ≤ userTop - a by omega)
        omega
    obtain ⟨n, rfl⟩ : ∃ n', n = spanCount a text.length + (n' + 1) :=
      ⟨n - spanCount a text.length - 1, by omega⟩
    rw [scanString_of_reads reads hm hlive _ _ (Nat.le_refl _) fun i hi => ?_, hstart, scanString]
    · simp only [bind, EStateM.bind, hvisit]
      rfl
    · have hlt : i < text.length := lt_of_index_lt (whole.imp_left fun hnil => by rw [hnil]; rfl) hi
      exact ⟨text[i], List.getElem?_eq_getElem hlt, plain _ (List.getElem_mem hlt)⟩

end Kernel

open Machine

variable {φ : Type} [FileSystem φ]

/-- When nobody holds a page, the search for the end of a string comes to an end unless the machine halts: it
returns the length of the text before the first zero byte, and has looked at no page behind it, or the
error that a fault at the first page comes to that cannot be had, if there is no zero byte before it. What
it reads is what reads of one byte return when the page has its turn, faults being handled, and zero where
the stack grows on the way. Where paging can keep the pages in their files, it is what reads of one byte
would have returned before, but for what lies past the end of a mapped file. -/
theorem Reachable.scans {m : Machine φ} (h : Reachable m) {p : ProcId}
    (hlive : (m.process p).exited = false) (a esp : Nat) :
    Ends (validateString p a esp) m (m.Scans p a esp) (fun s _ => ∃ cause, s = .halt cause) ∧
    (∀ r, (∃ m', m.Scans p a esp r m') ↔ ∃ m', validateString p a esp m = .ok r m') ∧
    (∀ r m', validateString p a esp m = .ok r m' → ∀ n, spanCount a (userTop - a) < n →
      scanString p a esp n 0 m = .ok r m') ∧
    (isUser a = false → validateString p a esp m = .ok (.error (.notUser a)) m) ∧
    (∀ (n m' : Machine φ) e, n.Refuses p userTop esp false e m' → e = .notUser userTop) ∧
    ∀ len stage bytes, m.Reads p a len esp stage bytes → Copies p a len esp stage bytes ∧
      (∀ i < len, m.lookup p (a + i) = none → bytes[i]? = some 0) ∧
      ∀ (H : Honest φ) (g : Memory), History H Page.drops m g → ∀ i < len, ∃ y, bytes[i]? = some y ∧
        m.Expects g p (a + i) y ∧
        ∀ limit read faults m₁, loadRetrying p (a + i) 1 esp limit m = .ok (.done read faults) m₁ →
          m.Lossy p (a + i) ∨ read = [y] := by
  have hm : m.Settled ∅ := steady_iff.1 h.steady
  have hends : Ends (validateString p a esp) m (m.Scans p a esp) fun s _ => ∃ cause, s = .halt cause :=
    ends_scanString p esp _ a hm hlive (userTop_lt_of_spanCount a) (.inr (Nat.succ_pos _))
  have hrun : ∀ {r m'}, validateString p a esp m = .ok r m' → ∀ n, spanCount a (userTop - a) < n →
      scanString p a esp n 0 m = .ok r m' := by
    intro r m' hr n hn
    obtain ⟨m'', hscan⟩ := scanString_of_scans (hends.of_ok hr) hm hlive
    have hsame := hr.symm.trans (hscan _ (Nat.lt_succ_self _))
    rw [hsame]
    exact hscan n hn
  refine ⟨hends, fun r => ⟨?_, ?_⟩, fun r m' => hrun, fun hno => ?_, fun n m' e hrefuses => ?_,
    fun len stage bytes hreads => ⟨hreads.gathers.copies_of_walks hreads.walks hm hlive,
      fun i hi => hreads.zero_of_undeclared hm hlive hi, fun H g hist i hi => ?_⟩⟩
  · rintro ⟨m', hscans⟩
    obtain ⟨m'', hscan⟩ := scanString_of_scans hscans hm hlive
    exact ⟨m'', hscan _ (Nat.lt_succ_self _)⟩
  · rintro ⟨m', hr⟩
    exact ⟨m', hends.of_ok hr⟩
  · refine eq_ok_of_ends ?_
    rw [validateString, scanString, ends_bind, Nat.add_zero, visit, ends_ite, if_pos (by simp [hno]), ends_pure]
    exact ⟨rfl, rfl⟩
  · obtain ⟨m'', hfault, -⟩ := hrefuses.fault
    exact error_of_notUser (by decide) hfault
  · have htracks := hist.tracks
    obtain ⟨y, hy, hexpects⟩ := hreads.gathers.expects hreads.walks htracks hlive i hi
    refine ⟨y, hy, hexpects, fun limit read faults m₁ hread => ?_⟩
    obtain ⟨y', rfl, hexpects'⟩ := expects_of_loadRetrying htracks hlive hread
    exact (hexpects'.unique hexpects).imp_right fun heq => by rw [heq]

/-- With one frame, the search for the end of a string that goes over two pages of the stack evicts the first
page to get at the second, and comes to the length of the text that was stored. -/
theorem scans_of_evicted : ∃ (m m' : Machine MemoryFiles) (g : Memory),
    History MemoryFiles.honest Page.drops m g ∧ m.pool.total = 1 ∧
    validateString 0 0x7fffeffe 0x7fffe000 m = .ok (.ok 3) m' ∧
    m.Scans 0 0x7fffeffe 0x7fffe000 (.ok 3) m' ∧
    ∀ len stage bytes, m.Reads 0 0x7fffeffe len 0x7fffe000 stage bytes → ∀ i < len, ∃ y, bytes[i]? = some y ∧
      m.Expects g 0 (0x7fffeffe + i) y := by
  obtain ⟨m, g, h, hP⟩ := exists_history MemoryFiles.honest Page.drops 1 2 (⟨#[]⟩ : MemoryFiles)
    [(0, .growStack 0x7ffff000), (0, .store 0x7ffff000 [3, 0, 4]), (0, .growStack 0x7fffe000),
      (0, .store 0x7fffeffe [1, 2])]
    (fun x => !(x.1.process 0).exited && x.1.pool.total == 1 &&
      check (validateString 0 0x7fffeffe 0x7fffe000) (fun r _ => decide (r = .ok 3)) x.1)
    (by decide +kernel)
  simp only [Bool.and_eq_true, Bool.not_eq_true', beq_iff_eq] at hP
  obtain ⟨⟨hlive, htotal⟩, hcheck⟩ := hP
  obtain ⟨r, m', hrun, hr⟩ := exists_of_check hcheck
  obtain rfl := of_decide_eq_true hr
  obtain ⟨hends, -, -, -, -, hreads⟩ := h.reachable.scans hlive 0x7fffeffe 0x7fffe000
  refine ⟨m, m', g, h, htotal, hrun, hends.of_ok hrun, fun len stage bytes hread i hi => ?_⟩
  obtain ⟨-, -, hmemory⟩ := hreads len stage bytes hread
  obtain ⟨y, hy, hexpects, -⟩ := hmemory MemoryFiles.honest g h i hi
  exact ⟨y, hy, hexpects⟩

/-- The file of a page may be the file of another page, which has been stored to, too. Then the string need
not end where reads before would have found its end, if the page is evicted first and the other page next. -/
theorem not_scans_loads : ¬ ∀ (m : Machine MemoryFiles) (p a esp n : Nat) (m' : Machine MemoryFiles),
    Reachable m → (m.process p).exited = false → validateString p a esp m = .ok (.ok n) m' →
    ∀ i ≤ n, ∀ limit read faults m₁, loadRetrying p (a + i) 1 esp limit m = .ok (.done read faults) m₁ →
      m.Lossy p (a + i) ∨ (read = [0] ↔ i = n) := by
  intro hloads
  obtain ⟨m, hm, -, hP⟩ := exists_reachable 2 2
    (⟨#[⟨List.replicate 4096 1, none, none⟩, ⟨[2], none, none⟩]⟩ : MemoryFiles)
    [(0, .declareFile 0x10000000 ⟨0, 0, 4096, 0⟩ false), (0, .mmap 1 0x10001000), (0, .mmap 1 0x20000000),
      (0, .resolve 0x10001000), (0, .store 0x10001000 [7]), (0, .resolve 0x20000000),
      (0, .store 0x20000000 [0])]
    (fun m => !(m.process 0).exited && (m.lookup 0 0x10001000).all (fun i => !(m.page i).drops 0) &&
      check (validateString 0 0x10000fff 0x7ffff000) (fun r _ => decide (r = .ok 1)) m &&
      check (load 0 0x10001000 1) (fun r _ => decide (r = ([7], none))) m)
    (by decide +kernel)
  simp only [Bool.and_eq_true, Bool.not_eq_true'] at hP
  obtain ⟨⟨⟨hlive, hkept⟩, hstring⟩, hload⟩ := hP
  obtain ⟨r, m', hrun, hr⟩ := exists_of_check hstring
  obtain rfl := of_decide_eq_true hr
  obtain ⟨r, m₁, hread, hr⟩ := exists_of_check hload
  obtain rfl := of_decide_eq_true hr
  rcases hloads m 0 0x10000fff 0x7ffff000 1 _ hm hlive hrun 1 (Nat.le_refl 1) 0 _ _ _
    (retrying_of_ok (access_of_load hread) _ _) with ⟨i, hi, hdrops⟩ | hend
  · have hi' : m.lookup 0 0x10001000 = some i := hi
    have hdrops' : (m.page i).drops 0 = true := hdrops
    simp [hi', hdrops'] at hkept
  · simp at hend

end DemandPaging
