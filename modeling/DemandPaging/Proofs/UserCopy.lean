import DemandPaging.Proofs.UserWalk
import DemandPaging.Proofs.Wear

/-!
# Copies of user memory

A copy returns every byte of its range as a read of that byte would return it when its page has its turn,
and stops at the first page that a fault does not bring in. A check of the range does the same without
the bytes. The pages before may have evicted it by then, and what is evicted may not come back as it was if
its file has two pages or cuts writes short; but with files that paging can keep its pages in, the bytes
are those that the process should find.
-/

namespace DemandPaging

open Kernel

namespace Machine

variable {φ : Type} [FileSystem φ] {m m' m₁ : Machine φ} {p : ProcId} {a x len esp : Nat} {write : Bool}
  {b : PageBytes}

/-! ### Reads of one byte -/

/-- A byte of a page in memory can be read. -/
theorem Holds.exists_load (h : m.Holds p x b) (hm : m.Settled ∅) :
    ∃ m₁, load p x 1 m = .ok ([b.byte (pageOffset x)], none) m₁ := by
  obtain ⟨i, f, hi, hf, rfl⟩ := h
  have hmapped := hm.sound.housed.mapping?_of_frame hi hf
  obtain ⟨-, -, huser, -⟩ := hm.shows.proper hm.sound p _ _ _ hmapped
  have hin : 1 ≤ pageSize - pageOffset x := by
    have := pageOffset_lt x
    omega
  obtain ⟨bytes, m₁, hrun, hlength⟩ :=
    hm.shows.load_within hm.sound (isUser_pageBase x ▸ huser) hmapped hin
  obtain ⟨-, hloads⟩ := (ends_load hm.shows hm.sound p x 1).of_ok hrun
  obtain ⟨r, f', b, hmap, hcell, hbyte⟩ := hloads.byte 0 (by rw [hlength]; exact Nat.one_pos)
  rw [Nat.add_zero] at hmap hbyte
  obtain ⟨y, rfl⟩ := List.length_eq_one_iff.1 hlength
  obtain ⟨-, rfl⟩ := Prod.mk.inj (Option.some.inj (hmapped.symm.trans hmap))
  have hread : m.pool.read f = b := hm.shows.read_of_cell hcell
  rw [b.getElem?_eq_byte (pageOffset_lt x), List.getElem?_cons_zero] at hbyte
  rw [hread, ← Option.some.inj hbyte]
  exact ⟨m₁, hrun⟩

omit [FileSystem φ] in
/-- A read of a byte whose page is not in memory comes to a fault, and leaves the machine as it was. -/
theorem load_of_away (haway : ¬ m.Offers p x false) (hm : m.Settled ∅) (hx : x < wordLimit) :
    load p x 1 m = .ok ([], some ⟨x, false, false⟩) m := by
  have hnone : (m.process p).table.entries[pageBase x]? = none := by
    have hmapping : (m.process p).table.mapping? (pageBase x) = none := by
      cases hentry : (m.process p).table.mapping? (pageBase x) with
      | none => rfl
      | some r =>
        obtain ⟨i, hi, hf, -⟩ := hm.sound.housed.mapping?_eq_some hentry
        have hframe : (m.page i).frame = some r.2 := hf
        exact absurd ⟨i, hi, by simp [Page.resident, hframe], by simp⟩ haway
    simpa [PageTable.mapping?] using hmapping
  have hload : (m.process p).table.load m.pool x 1 = ⟨[], (m.process p).table, some (.fault ⟨x, false, false⟩)⟩ := by
    rw [PageTable.load_cons _ _ Nat.one_pos, PageTable.touch, if_neg (Nat.not_le_of_lt hx), hnone]
  refine eq_ok_of_ends ?_
  simp only [load, ends_bind, ends_get, ends_modifyTable, hload, ends_pure]
  exact ⟨trivial, withProcess_self rfl⟩

/-- The stack that grows by the page of an address grows by it for every address of the page. -/
theorem growStack_within {i : PageId} (hrun : growStack p a m = .ok (some i) m')
    (hbase : pageBase x = pageBase a) : growStack p x m = .ok (some i) m' := by
  by_cases hrefused : (!isUser (pageBase a) || decide (stackLimit < userTop - pageBase a)) = true
  · have hnone : Ends (growStack p a) m (fun r _ => r = none) fun _ _ => True := by
      simp only [growStack_eq, ends_bind, ends_process, if_pos hrefused, ends_emit, ends_pure]
    simpa using hnone.of_ok hrun
  · have heq : growStack (φ := φ) p x = growStack p a := by
      simp only [growStack_eq, hbase, if_neg hrefused]
    rw [heq, hrun]

/-- What resolves a fault at an address resolves it at the later addresses of the page. -/
theorem decideFault_within (hbase : pageBase x = pageBase a) (hle : a ≤ x) :
    Ends (decideFault p a esp write) m (fun r m' => r = .ok () →
      decideFault p x esp write m = .ok (.ok ()) m') fun _ _ => True := by
  have hlookup : m.lookup p x = m.lookup p a := by rw [lookup, lookup, Process.lookup, Process.lookup, hbase]
  have huser : isUser x = isUser a := by rw [← isUser_pageBase x, hbase, isUser_pageBase]
  rw [decideFault, ends_ite]
  split
  · simp [ends_pure]
  rename_i hyes
  rw [ends_bind, ends_get]
  cases hi : m.lookup p a with
  | some i =>
    simp only [ends_bind, ends_page, ends_ite, ends_pure]
    split
    · simp
    rename_i hw
    refine (ends_any (resolve p i) m).run.returns ?_
    rintro (e | _) m₁ ⟨hresolve, -⟩ hr
    · simp [Except.mapError] at hr
    · refine eq_ok_of_ends ?_
      rw [decideFault, ends_ite, huser, if_neg hyes, ends_bind, ends_get, hlookup, hi]
      simp only [ends_bind, ends_page, ends_ite, if_neg hw]
      rw [ends_of_eq hresolve, ends_pure]
      exact ⟨rfl, rfl⟩
  | none =>
    simp only [ends_bind, ends_ite, ends_pure]
    split
    · rename_i hw
      refine (ends_any (growStack p a) m).run.returns ?_
      rintro (_ | i) m₁ ⟨hgrow, -⟩
      · simp
      · intro _
        have hw' : esp ≤ min (x + stackSlack) (wordLimit - 1) := by omega
        refine eq_ok_of_ends ?_
        rw [decideFault, ends_ite, huser, if_neg hyes, ends_bind, ends_get, hlookup, hi]
        simp only [ends_bind, ends_ite, if_pos hw']
        rw [ends_of_eq (growStack_within hgrow hbase), Option.isSome_some, if_pos rfl, ends_pure]
        exact ⟨rfl, rfl⟩
    · simp

/-- A fault that is resolved at an address is resolved at the later addresses of its page. -/
theorem handleFault_within (hrun : handleFault p a esp write m = .ok (.ok ()) m')
    (hbase : pageBase x = pageBase a) (hle : a ≤ x) : handleFault p x esp write m = .ok (.ok ()) m' := by
  have hends : Ends (handleFault p a esp write) m (fun r m₁ => r = .ok () →
      handleFault p x esp write m = .ok (.ok ()) m₁) fun _ _ => True := by
    rw [handleFault, ends_bind]
    refine (decideFault_within hbase hle).returns ?_
    rintro (e | _) m₁ hdecides
    · simp only [ends_bind, ends_process, ends_emit, ends_pure]
      simp
    · intro _
      refine eq_ok_of_ends ?_
      rw [handleFault, ends_bind, ends_of_eq (hdecides rfl)]
      exact ⟨rfl, rfl⟩
  exact hends.of_ok hrun rfl

/-- An access that goes through is not repeated. -/
theorem retrying_of_ok {α : Type} {access : Kernel φ (Except PageTable.Fault α)} {r : α}
    (h : access m = .ok (.ok r) m') (limit faults : Nat) :
    retrying p esp access limit faults m = .ok (.done r faults) m' := by
  refine eq_ok_of_ends ?_
  cases limit with
  | zero =>
    rw [retrying, ends_bind, ends_of_eq h]
    exact ⟨rfl, rfl⟩
  | succ limit =>
    rw [retrying, ends_bind, ends_of_eq h]
    exact ⟨rfl, rfl⟩

omit [FileSystem φ] in
/-- A read without a fault is an access that goes through. -/
theorem access_of_load {bytes : List UInt8} (h : load p x len m = .ok (bytes, none) m₁) :
    (do let (bytes, fault) ← load p x len
        return fault.elim (.ok bytes) .error : Kernel φ (Except PageTable.Fault (List UInt8))) m =
      .ok (.ok bytes) m₁ := by
  refine eq_ok_of_ends ?_
  rw [ends_bind, ends_of_eq h]
  exact ⟨rfl, rfl⟩

/-- A read of one byte that is repeated after its fault, once it is clear that the fault is resolved. -/
theorem Opens.exists_loadRetrying (h : m.Opens p a esp false m') (hm : m.Settled ∅) (hm' : m'.Settled ∅)
    (hbase : pageBase x = pageBase a) (hle : a ≤ x) (hholds : m'.Holds p x b) (limit : Nat) :
    ∃ faults m₁, loadRetrying p x 1 esp (limit + 1) m = .ok (.done [b.byte (pageOffset x)] faults) m₁ := by
  obtain ⟨m₁, hload⟩ := hholds.exists_load hm'
  cases h with
  | offered => exact ⟨0, m₁, retrying_of_ok (access_of_load hload) _ _⟩
  | faulted away run _ decides =>
    have haway : ¬ m.Offers p x false := fun ⟨i, hi, hrest⟩ => by
      refine away ⟨i, ?_, hrest⟩
      rw [← hi, lookup, lookup, Process.lookup, Process.lookup, hbase]
    have huser : isUser a = true := isUser_of_admitted decides.admitted
    have hx : x < wordLimit := lt_wordLimit_of_isUser (by rw [← isUser_pageBase x, hbase, isUser_pageBase, huser])
    refine ⟨1, m₁, eq_ok_of_ends ?_⟩
    rw [loadRetrying, retrying, ends_bind, ends_bind, ends_of_eq (load_of_away haway hm hx)]
    simp only [Option.elim_some, ends_pure, ends_bind]
    rw [ends_of_eq (handleFault_within run hbase hle), ends_of_eq (retrying_of_ok (access_of_load hload) _ _)]
    exact ⟨rfl, rfl⟩

/-! ### Walks -/

variable {H : Honest φ} {g : Memory} {op : Op} {stage : Nat → Machine φ} {n : Nat}
  {r : Except FaultError Unit} {bytes : List UInt8}

/-- To open a page is to handle a page fault at most. -/
theorem Opens.stages (h : m.Opens p a esp write m') (hop : op.basic = false) : Stages op p m m' := by
  cases h with
  | offered => exact Relation.ReflTransGen.refl
  | faulted _ run =>
    have hrun : execute p (.fault a esp write) m = .ok .done m' := by
      refine eq_ok_of_ends ?_
      rw [execute, ends_bind, ends_of_eq run]
      exact ⟨rfl, rfl⟩
    exact Stages.single (o := .fault a esp write) hop hrun

/-- The pages before its turn are all that comes between a page and the start. -/
theorem Walks.stages (h : Walks p a len esp write m stage n r m') (hop : op.basic = false) :
    ∀ k ≤ n, Stages op p m (stage k) := by
  intro k
  induction k with
  | zero =>
    intro _
    rw [h.start]
    exact Relation.ReflTransGen.refl
  | succ k ih =>
    intro hk
    exact (ih (Nat.le_of_lt hk)).trans (Opens.stages (h.opened k hk) hop)

/-- The page of a byte, by its number in the range. -/
theorem index_lt (len : Nat) {i : Nat} (hi : i < len) : (pageOffset a + i) / pageSize < spanCount a len := by
  rw [spanCount, if_neg (by omega)]
  simp only [pageSize]
  omega

theorem addr_le (a len i : Nat) :
    pageBase (a + i) = pageBase (span a len ((pageOffset a + i) / pageSize)).addr ∧
      (span a len ((pageOffset a + i) / pageSize)).addr ≤ a + i := by
  simp only [span, pageBase, pageOffset, pageSize]
  omega

/-- Each of the `len` bytes from `a` on is the one that a read of it returns when its page has had its turn,
and also the one that a read returns when its page has its turn, faults being handled. -/
structure Copies (p : ProcId) (a len esp : Nat) (stage : Nat → Machine φ)
    (bytes : List UInt8) : Prop where
  length : bytes.length = len
  byte : ∀ i < len, ∃ y, bytes[i]? = some y ∧
    (∃ m₁, load p (a + i) 1 (stage ((pageOffset a + i) / pageSize + 1)) = .ok ([y], none) m₁) ∧
    ∀ limit, ∃ faults m₁, loadRetrying p (a + i) 1 esp (limit + 1) (stage ((pageOffset a + i) / pageSize)) =
      .ok (.done [y] faults) m₁

/-- The bytes that a walk gathers are those that reads of one byte return. -/
theorem Gathers.copies_of_walks (h : Gathers p a len stage bytes)
    (hwalks : Walks p a len esp false m stage (spanCount a len) (.ok ()) m') (hm : m.Settled ∅)
    (hlive : m.scene.exited p = false) : Copies p a len esp stage bytes := by
  refine ⟨h.length, fun i hi => ?_⟩
  have hk := index_lt (a := a) len hi
  obtain ⟨hbase, hle⟩ := addr_le a len i
  obtain ⟨b, hholds, hbyte⟩ := h.byte i hi
  have hstages : ∀ k ≤ spanCount a len, Stages (.copy a len esp) p m (stage k) := hwalks.stages rfl
  have hsettled : ∀ k ≤ spanCount a len, (stage k).Settled ∅ := fun k hk =>
    ((hstages k hk).settled hm hlive).1
  refine ⟨b.byte (pageOffset (a + i)), ?_, hholds.exists_load (hsettled _ hk), fun limit => ?_⟩
  · rw [hbyte, b.getElem?_eq_byte (pageOffset_lt _)]
  · exact (hwalks.opened _ hk).exists_loadRetrying (hsettled _ (Nat.le_of_lt hk)) (hsettled _ hk) hbase hle
      hholds limit

/-- They are those that the process should find. -/
theorem Gathers.expects (h : Gathers p a len stage bytes)
    (hwalks : Walks p a len esp false m stage (spanCount a len) (.ok ()) m') (hm : Tracks H m g)
    (hlive : m.scene.exited p = false) :
    ∀ i < len, ∃ y, bytes[i]? = some y ∧ m.Expects g p (a + i) y := by
  intro i hi
  obtain ⟨b, hholds, hbyte⟩ := h.byte i hi
  refine ⟨b.byte (pageOffset (a + i)), ?_, ?_⟩
  · rw [hbyte, b.getElem?_eq_byte (pageOffset_lt _)]
  · have hstages : ∀ k ≤ spanCount a len, Stages (.copy a len esp) p m (stage k) := hwalks.stages rfl
    refine (hstages _ (index_lt len hi)).expects hm hlive (fun a data hpart => ?_) hholds
    obtain ⟨_, _, hpart⟩ := hpart
    simp at hpart

omit [FileSystem φ] in
/-- What is read is in memory. -/
theorem exists_holds_of_loads (h : m.scene.Loads p x 1 bytes none) (hm : m.Settled ∅) :
    ∃ b, m.Holds p x b ∧ bytes = [b.byte (pageOffset x)] := by
  obtain ⟨y, rfl⟩ := List.length_eq_one_iff.1 (h.whole rfl)
  obtain ⟨r, f, b, hmap, hcell, hbyte⟩ := h.byte 0 Nat.one_pos
  rw [Nat.add_zero] at hmap hbyte
  obtain ⟨i, hi, hf, -⟩ := hm.sound.housed.mapping?_eq_some hmap
  refine ⟨b, ⟨i, f, hi, hf, hm.shows.read_of_cell hcell⟩, ?_⟩
  rw [b.getElem?_eq_byte (pageOffset_lt x), List.getElem?_cons_zero] at hbyte
  rw [Option.some.inj hbyte]

/-- What a read of one byte returns that is repeated after its faults is what the process should find. -/
theorem expects_of_loadRetrying (hm : Tracks H m g) (hlive : m.scene.exited p = false) {limit faults : Nat}
    (hrun : loadRetrying p x 1 esp limit m = .ok (.done bytes faults) m₁) :
    ∃ y, bytes = [y] ∧ m.Expects g p x y := by
  have hsettled := steady_iff.1 hm.steady
  have hstaged := staged_loadRetrying hsettled hlive x 1 esp limit
  obtain ⟨hstages, hloads⟩ := Ends.of_ok hstaged hrun
  obtain ⟨hsettled₁, -, -⟩ := hstages.settled hsettled hlive
  obtain ⟨b, hholds, rfl⟩ := exists_holds_of_loads (hloads bytes faults rfl) hsettled₁
  exact ⟨_, rfl, hstages.expects hm hlive (fun _ _ ⟨_, _, h⟩ => by simp at h) hholds⟩

end Machine

open Machine

variable {φ : Type} [FileSystem φ]

/-- When nobody holds a page, a range past the top of user space is refused and nothing is touched. Any other
range is walked over page after page, unless the machine halts: a copy returns all its bytes, or the error
that a fault at the first page comes to that cannot be had, and so does a check, which for reading leaves the
same machine behind. Where paging can keep the pages in their files, the bytes are those that reads of one
byte would have returned before, but for what lies past the end of a mapped file. -/
theorem Reachable.copies {m : Machine φ} (h : Reachable m) {p : ProcId}
    (hlive : (m.process p).exited = false) (a len esp : Nat) :
    (userTop < a + len → copy p a len esp m = .ok (.error (.notUser a)) m ∧
      ∀ write, validateBuffer p a len esp write m = .ok (.error (.notUser a)) m) ∧
    (a + len ≤ userTop →
      Ends (copy p a len esp) m (fun r m' => ∃ stage n,
          Walks p a len esp false m stage n (r.map fun _ => ()) m' ∧
          ∀ bytes, r = .ok bytes → Copies p a len esp stage bytes) (fun s _ => ∃ cause, s = .halt cause) ∧
      ∀ write, Ends (validateBuffer p a len esp write) m
        (fun r m' => ∃ stage n, Walks p a len esp write m stage n r m') fun s _ => ∃ cause, s = .halt cause) ∧
    validateBuffer (φ := φ) p a len esp false = Except.map (fun _ => ()) <$> copy p a len esp ∧
    ∀ (H : Honest φ) (g : Memory), History H Page.drops m g →
      ∀ bytes m', copy p a len esp m = .ok (.ok bytes) m' → ∀ i < len, ∃ y, bytes[i]? = some y ∧
        m.Expects g p (a + i) y ∧
        ∀ limit read faults m₁, loadRetrying p (a + i) 1 esp limit m = .ok (.done read faults) m₁ →
          m.Lossy p (a + i) ∨ read = [y] := by
  have hm : m.Settled ∅ := steady_iff.1 h.steady
  have hnear : a + len ≤ userTop → copy (φ := φ) p a len esp = copySpans p esp (spans a len) := fun hle =>
    if_neg (Nat.not_lt_of_le hle)
  have hfar : userTop < a + len → copy p a len esp m = .ok (.error (.notUser a)) m := fun hlt => by
    rw [copy, if_pos hlt]
    rfl
  refine ⟨fun hlt => ⟨hfar hlt, fun write => ?_⟩, fun hle => ⟨?_, fun write => ?_⟩, ?_,
    fun H g hist bytes m' hrun i hi => ?_⟩
  · rw [validateBuffer, if_pos hlt]
    rfl
  · rw [hnear hle]
    refine (ends_copySpans p esp len a hm hlive).returns ?_
    rintro r m' ⟨stage, n, hwalks, hgathers⟩
    refine ⟨stage, n, hwalks, fun bytes hbytes => ?_⟩
    subst hbytes
    obtain ⟨rfl, -⟩ := hwalks.passed rfl
    exact (hgathers bytes rfl).copies_of_walks hwalks hm hlive
  · rw [validateBuffer, ends_ite, if_neg (Nat.not_lt_of_le hle)]
    exact ends_validateSpans p esp write len a hm hlive
  · rw [validateBuffer, copy]
    split
    · rfl
    · exact validateSpans_eq p esp _
  · have htracks := hist.tracks
    have hle : a + len ≤ userTop := by
      by_contra hlt
      rw [hfar (Nat.not_le.1 hlt)] at hrun
      simp at hrun
    rw [hnear hle] at hrun
    obtain ⟨stage, n, hwalks, hgathers⟩ := (ends_copySpans p esp len a hm hlive).of_ok hrun
    obtain ⟨rfl, -⟩ := hwalks.passed rfl
    obtain ⟨y, hy, hexpects⟩ := (hgathers bytes rfl).expects hwalks htracks hlive i hi
    refine ⟨y, hy, hexpects, fun limit read faults m₁ hread => ?_⟩
    obtain ⟨y', rfl, hexpects'⟩ := expects_of_loadRetrying htracks hlive hread
    exact (hexpects'.unique hexpects).imp_right fun heq => by rw [heq]

/-- With one frame, a copy of the end of one page of the stack and the start of the next evicts the first
page to get at the second, and has the bytes that were stored. -/
theorem copies_of_evicted : ∃ (m m' : Machine MemoryFiles) (g : Memory),
    History MemoryFiles.honest Page.drops m g ∧ m.pool.total = 1 ∧
    copy 0 0x7fffeffe 4 0x7fffe000 m = .ok (.ok [1, 2, 3, 4]) m' ∧
    ∀ i < 4, ∃ y, [1, 2, 3, 4][i]? = some y ∧ m.Expects g 0 (0x7fffeffe + i) y := by
  obtain ⟨m, g, h, hP⟩ := exists_history MemoryFiles.honest Page.drops 1 2 (⟨#[]⟩ : MemoryFiles)
    [(0, .growStack 0x7ffff000), (0, .store 0x7ffff000 [3, 4]), (0, .growStack 0x7fffe000),
      (0, .store 0x7fffeffe [1, 2])]
    (fun x => !(x.1.process 0).exited && x.1.pool.total == 1 &&
      check (copy 0 0x7fffeffe 4 0x7fffe000) (fun r _ => decide (r = .ok [1, 2, 3, 4])) x.1)
    (by decide +kernel)
  simp only [Bool.and_eq_true, Bool.not_eq_true', beq_iff_eq] at hP
  obtain ⟨⟨hlive, htotal⟩, hcheck⟩ := hP
  obtain ⟨r, m', hrun, hr⟩ := exists_of_check hcheck
  obtain rfl := of_decide_eq_true hr
  obtain ⟨-, -, -, hmemory⟩ := h.reachable.copies hlive 0x7fffeffe 4 0x7fffe000
  refine ⟨m, m', g, h, htotal, hrun, fun i hi => ?_⟩
  obtain ⟨y, hy, hexpects, -⟩ := hmemory MemoryFiles.honest g h _ _ hrun i hi
  exact ⟨y, hy, hexpects⟩

/-- The file of a page may be the file of another page, which has been stored to, too. Then a copy does not
return what reads would have returned before, if the page is evicted first and the other page next. -/
theorem not_copies_loads : ¬ ∀ (m : Machine MemoryFiles) (p a len esp : Nat) (bytes : List UInt8)
    (m' : Machine MemoryFiles), Reachable m → (m.process p).exited = false →
    copy p a len esp m = .ok (.ok bytes) m' → ∀ i < len, ∀ limit read faults m₁,
      loadRetrying p (a + i) 1 esp limit m = .ok (.done read faults) m₁ →
      m.Lossy p (a + i) ∨ read = [bytes.getD i 0] := by
  intro hloads
  obtain ⟨m, hm, -, hP⟩ := exists_reachable 2 2 (⟨#[⟨[1], none, none⟩, ⟨[2], none, none⟩]⟩ : MemoryFiles)
    [(0, .declareFile 0x10000000 ⟨0, 0, 1, 4095⟩ false), (0, .mmap 1 0x10001000), (0, .mmap 1 0x20000000),
      (0, .resolve 0x10001000), (0, .store 0x10001000 [7]), (0, .resolve 0x20000000),
      (0, .store 0x20000000 [9])]
    (fun m => !(m.process 0).exited && (m.lookup 0 0x10001000).all (fun i => !(m.page i).drops 0) &&
      check (copy 0 0x10000fff 2 0x7ffff000) (fun r _ => decide (r = .ok [0, 9])) m &&
      check (load 0 0x10001000 1) (fun r _ => decide (r = ([7], none))) m)
    (by decide +kernel)
  simp only [Bool.and_eq_true, Bool.not_eq_true'] at hP
  obtain ⟨⟨⟨hlive, hkept⟩, hcopy⟩, hload⟩ := hP
  obtain ⟨r, m', hrun, hr⟩ := exists_of_check hcopy
  obtain rfl := of_decide_eq_true hr
  obtain ⟨r, m₁, hread, hr⟩ := exists_of_check hload
  obtain rfl := of_decide_eq_true hr
  rcases hloads m 0 0x10000fff 2 0x7ffff000 _ _ hm hlive hrun 1 (by decide) 0 _ _ _
    (retrying_of_ok (access_of_load hread) _ _) with ⟨i, hi, hdrops⟩ | hbytes
  · have hi' : m.lookup 0 0x10001000 = some i := hi
    have hdrops' : (m.page i).drops 0 = true := hdrops
    simp [hi', hdrops'] at hkept
  · simp at hbytes

end DemandPaging
