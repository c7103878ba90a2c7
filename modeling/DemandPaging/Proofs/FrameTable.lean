import DemandPaging.FrameTable
import Mathlib.Data.List.Rotate
import Mathlib.Data.Multiset.AddSub

/-!
# The hand of the clock

`FrameTable.circular` lists the entries in the order in which the hand meets them: moving the hand on
turns the list around, and taking out the entry under the hand takes its head away. Whichever entry is
removed, it is missing from the list and nothing else changes, and an added one is put in where the hand
comes to the first entry again.
-/

namespace DemandPaging

namespace FrameTable

variable {t t' : FrameTable} {e : Tenancy} {es rest : List Tenancy} {i : Nat}

/-- The table with the hand moved on by `k` entries. -/
def passing (t : FrameTable) (k : Nat) : FrameTable :=
  { t with hand := (t.hand + k) % t.entries.length }

/-- Table `t'` is `t` without its entry `e`; its hand is on the entry that followed `e`, or on the first
one if `e` was the last. -/
def Drops (t : FrameTable) (e : Tenancy) (t' : FrameTable) : Prop :=
  ∃ before after, t.entries = before ++ e :: after ∧ t'.entries = before ++ after ∧
    t'.hand = if after = [] then 0 else before.length

/-- The hand is on an entry, or in front of the first one if there is none. -/
def Poised (t : FrameTable) : Prop := t.hand < t.entries.length ∨ t.hand = 0

theorem Poised.le (h : t.Poised) : t.hand ≤ t.entries.length := by
  rcases h with h | h
  · exact Nat.le_of_lt h
  · exact h ▸ Nat.zero_le _

theorem Poised.lt (h : t.Poised) (hne : t.entries ≠ []) : t.hand < t.entries.length := by
  rcases h with h | h
  · exact h
  · exact h ▸ List.length_pos_of_ne_nil hne

theorem circular_eq_rotate (h : t.hand ≤ t.entries.length) : t.circular = t.entries.rotate t.hand :=
  (List.rotate_eq_drop_append_take h).symm

@[simp] theorem length_circular (t : FrameTable) : t.circular.length = t.entries.length := by
  simp only [circular, List.length_append, List.length_drop, List.length_take]
  omega

theorem mem_circular : e ∈ t.circular ↔ e ∈ t.entries := by
  rw [circular, List.mem_append, or_comm, ← List.mem_append, List.take_append_drop]

theorem nodup_circular (h : t.entries.Nodup) : t.circular.Nodup := by
  rw [circular, List.nodup_append_comm, List.take_append_drop]
  exact h

theorem circular_passing (h : t.hand ≤ t.entries.length) (k : Nat) :
    (t.passing k).circular = t.circular.rotate k := by
  rw [circular_eq_rotate h, List.rotate_rotate]
  rcases Nat.eq_zero_or_pos t.entries.length with hlen | hlen
  · have hnil := List.eq_nil_of_length_eq_zero hlen
    simp [circular, passing, hnil]
  · rw [circular_eq_rotate (Nat.le_of_lt (Nat.mod_lt _ hlen)), passing, List.rotate_mod]

theorem passing_passing (t : FrameTable) (j k : Nat) : (t.passing j).passing k = t.passing (j + k) := by
  simp only [passing, Nat.mod_add_mod, Nat.add_assoc]

/-- Once around, the hand is where it was. -/
theorem passing_length (h : t.Poised) : t.passing t.entries.length = t := by
  have hhand : (t.hand + t.entries.length) % t.entries.length = t.hand := by
    rw [Nat.add_mod_right]
    rcases h with h | h
    · exact Nat.mod_eq_of_lt h
    · rw [h, Nat.zero_mod]
  rw [passing, hhand]

theorem current?_eq_head? (h : t.Poised) : t.current? = t.circular.head? := by
  rw [current?, circular]
  rcases h with h | h
  · rw [List.drop_eq_getElem_cons h, List.getElem?_eq_getElem h]
    rfl
  · rw [h, List.drop_zero, List.take_zero, List.append_nil, List.head?_eq_getElem?]

theorem poised_passing (h : t.Poised) {k : Nat} (hk : k ≤ t.entries.length) : (t.passing k).Poised := by
  show (t.hand + k) % t.entries.length < t.entries.length ∨ (t.hand + k) % t.entries.length = 0
  rcases Nat.eq_zero_or_pos t.entries.length with hzero | hpos
  · have hle := h.le
    rw [hzero, Nat.mod_zero]
    omega
  · exact .inl (Nat.mod_lt _ hpos)

/-- The hand gets to the entry behind those that it passes. -/
theorem current?_passing (h : t.Poised) (hc : t.circular = es ++ e :: rest) :
    (t.passing es.length).current? = some e := by
  have hlen : es.length ≤ t.entries.length := by
    rw [← length_circular, hc, List.length_append]
    exact Nat.le_add_right _ _
  rw [current?_eq_head? (poised_passing h hlen), circular_passing h.le, hc, List.rotate_append_length_eq]
  rfl

theorem hand_advance (h : t.hand < t.entries.length) :
    t.advance.hand = if t.hand + 1 = t.entries.length then 0 else t.hand + 1 := by
  show (t.hand + 1) % t.entries.length = _
  split
  · rename_i hlast
    rw [hlast, Nat.mod_self]
  · exact Nat.mod_eq_of_lt (by omega)

/-- The hand moves on before the entry that it was on is taken out. -/
theorem drops_remove (h : t.current? = some e) : t.Drops e (t.advance.remove t.hand) := by
  obtain ⟨hlt, he⟩ := List.getElem?_eq_some_iff.1 h
  refine ⟨t.entries.take t.hand, t.entries.drop (t.hand + 1), ?_, ?_, ?_⟩
  · rw [← he, ← List.drop_eq_getElem_cons hlt, List.take_append_drop]
  · simp only [remove, advance, List.eraseIdx_eq_take_drop_succ]
  · have hlen : (t.entries.eraseIdx t.hand).length = t.entries.length - 1 := List.length_eraseIdx_of_lt hlt
    have hadvance := hand_advance hlt
    have hlast : t.entries.drop (t.hand + 1) = [] ↔ t.hand + 1 = t.entries.length := by
      rw [List.drop_eq_nil_iff]
      omega
    simp only [remove, show t.advance.entries = t.entries from rfl, hlen, hlast, List.length_take]
    split at hadvance
    · simp [hadvance, ‹t.hand + 1 = _›]
    · rw [hadvance, if_pos (Nat.lt_succ_self _), if_neg (by omega), if_neg ‹_›]
      omega

theorem coe_eraseIdx {l : List Tenancy} {n : Nat} {e : Tenancy} (h : l[n]? = some e) :
    (l.eraseIdx n : Multiset Tenancy) = (l : Multiset Tenancy).erase e := by
  obtain ⟨hn, rfl⟩ := List.getElem?_eq_some_iff.1 h
  have hperm : (l[n] :: l.eraseIdx n : Multiset Tenancy) = l :=
    Multiset.coe_eq_coe.2 (List.getElem_cons_eraseIdx_perm hn)
  rw [← hperm, ← Multiset.cons_coe, Multiset.erase_cons_head]

theorem poised_remove (t : FrameTable) (n : Nat) : (t.remove n).Poised := by
  simp only [Poised, remove]
  generalize (if n < t.hand then t.hand - 1 else t.hand) = h
  split
  · exact .inr rfl
  · exact .inl (Nat.lt_of_not_le ‹_›)

theorem Drops.of_entries {s : FrameTable} (h : s.Drops e t') (hs : s.entries = t.entries) :
    t.Drops e t' := by
  obtain ⟨before, after, hentries, hrest⟩ := h
  exact ⟨before, after, hs ▸ hentries, hrest⟩

/-! ### The hand among the entries -/

/-- How many entries the hand passes on its way to entry `i`. -/
def distance (t : FrameTable) (i : Nat) : Nat :=
  if t.hand ≤ i then i - t.hand else i + (t.entries.length - t.hand)

/-- The hand parts the entries into those behind it and those ahead. -/
theorem exists_halves (h : t.hand ≤ t.entries.length) :
    ∃ behind ahead, t = ⟨behind ++ ahead, behind.length⟩ := by
  refine ⟨t.entries.take t.hand, t.entries.drop t.hand, ?_⟩
  rw [List.take_append_drop, List.length_take, Nat.min_eq_left h]

theorem circular_halves (behind ahead : List Tenancy) :
    circular ⟨behind ++ ahead, behind.length⟩ = ahead ++ behind := by
  rw [circular, List.drop_left, List.take_left]

/-- Behind the last entry the hand is in front of the first one. -/
theorem circular_wrap {es : List Tenancy} {n : Nat} (h : n ≤ es.length) :
    circular ⟨es, if es.length ≤ n then 0 else n⟩ = circular ⟨es, n⟩ := by
  split
  · have hn : n = es.length := Nat.le_antisymm h ‹_›
    rw [hn, circular, circular, List.drop_length, List.take_length, List.drop_zero, List.take_zero,
      List.append_nil, List.nil_append]
  · rfl

theorem getElem?_circular (h : t.hand ≤ t.entries.length) (hi : i < t.entries.length) :
    t.circular[t.distance i]? = t.entries[i]? := by
  obtain ⟨behind, ahead, rfl⟩ := exists_halves h
  rw [circular_halves, distance]
  simp only [List.length_append, Nat.add_sub_cancel_left] at hi ⊢
  split
  · rename_i hle
    rw [List.getElem?_append_left (by omega), List.getElem?_append_right hle]
  · rename_i hlt
    rw [List.getElem?_append_right (Nat.le_add_left _ _), Nat.add_sub_cancel,
      List.getElem?_append_left (by omega)]

/-- Without entry `i`, the circle is what it was otherwise. -/
theorem circular_remove (h : t.hand ≤ t.entries.length) (hi : i < t.entries.length) :
    (t.remove i).circular = t.circular.eraseIdx (t.distance i) := by
  obtain ⟨behind, ahead, rfl⟩ := exists_halves h
  rw [circular_halves]
  simp only [remove, distance, List.length_append, Nat.add_sub_cancel_left] at hi ⊢
  rcases Nat.lt_or_ge i behind.length with hlt | hge
  · have hhand : behind.length - 1 = (behind.eraseIdx i).length := (List.length_eraseIdx_of_lt hlt).symm
    rw [if_pos hlt, if_neg (Nat.not_le.2 hlt), List.eraseIdx_append_of_lt_length hlt, hhand,
      circular_wrap (by simp), circular_halves, List.eraseIdx_append_of_length_le (Nat.le_add_left _ _),
      Nat.add_sub_cancel]
  · rw [if_neg (Nat.not_lt.2 hge), if_pos hge, List.eraseIdx_append_of_length_le hge, circular_wrap (by simp),
      circular_halves, List.eraseIdx_append_of_lt_length (by omega)]

/-- An added entry comes behind those ahead of the hand, and before the others. -/
theorem circular_add (h : t.hand ≤ t.entries.length) (e : Tenancy) :
    (t.add e).circular = t.circular.insertIdx (t.entries.length - t.hand) e := by
  obtain ⟨behind, ahead, rfl⟩ := exists_halves h
  rw [circular_halves, add, List.append_assoc, circular_halves, List.append_assoc]
  have hinsert := List.insertIdx_eraseIdx_getElem (l := ahead ++ e :: behind) (n := ahead.length) (by simp)
  rw [List.eraseIdx_append_of_length_le (Nat.le_refl _), Nat.sub_self, List.eraseIdx_cons_zero,
    List.getElem_append_right (Nat.le_refl _)] at hinsert
  simpa using hinsert.symm

theorem poised_add (h : t.Poised) (e : Tenancy) : (t.add e).Poised := by
  have hlen : (t.add e).entries.length = t.entries.length + 1 := by simp [add]
  have hle : (t.add e).hand ≤ t.entries.length := h.le
  exact .inl (by omega)

theorem Poised.entries_eq_nil (h : t.Poised) (hcur : t.current? = none) : t.entries = [] := by
  by_contra hne
  rw [current?, List.getElem?_eq_none_iff] at hcur
  exact absurd (h.lt hne) (Nat.not_lt.2 hcur)

theorem Poised.advance (h : t.Poised) (hcur : t.current? = some e) : t.advance.Poised :=
  poised_passing h (Nat.zero_lt_of_lt (List.getElem?_eq_some_iff.1 hcur).1)

/-- From an entry the hand goes on to the next, and the entry is the last one that it will meet. -/
theorem Poised.exists_circular (h : t.Poised) (hcur : t.current? = some e) :
    ∃ rest, t.circular = e :: rest ∧ t.advance.circular = rest ++ [e] := by
  obtain ⟨rest, hrest⟩ : ∃ rest, t.circular = e :: rest := by
    rwa [current?_eq_head? h, List.head?_eq_some_iff] at hcur
  have hadvance : t.advance.circular = t.circular.rotate 1 := circular_passing h.le 1
  exact ⟨rest, hrest, by rw [hadvance, hrest, List.rotate_cons_succ, List.rotate_zero]⟩

/-- If the entry is taken out then, nothing else changes. -/
theorem Poised.circular_take (h : t.Poised) (hcur : t.current? = some e) :
    t.advance.circular = (t.advance.remove t.hand).circular ++ [e] := by
  obtain ⟨rest, hrest, hadvance⟩ := h.exists_circular hcur
  have hlt : t.hand < t.entries.length := (List.getElem?_eq_some_iff.1 hcur).1
  have hlen : t.entries.length = rest.length + 1 := by
    rw [← length_circular, hrest, List.length_cons]
  have hdistance : t.advance.distance t.hand = rest.length := by
    simp only [distance, hand_advance hlt, show t.advance.entries = t.entries from rfl]
    split_ifs <;> omega
  rw [circular_remove (h.advance hcur).le hlt, hdistance, hadvance,
    List.eraseIdx_append_of_length_le (Nat.le_refl _), Nat.sub_self, List.eraseIdx_cons_zero, List.append_nil]

/-- The hand stays on its entry when another one is removed, and goes on from one that is. -/
theorem Poised.current?_remove (h : t.Poised) (hlen : 1 < t.entries.length) (hi : i < t.entries.length) :
    (t.remove i).current? = if i = t.hand then t.advance.current? else t.current? := by
  have hhand := h.lt (List.ne_nil_of_length_pos (Nat.zero_lt_of_lt hlen))
  have hcur : t.current? = some (t.entries[t.hand]) := List.getElem?_eq_getElem hhand
  obtain ⟨rest, hrest, hadvance⟩ := h.exists_circular hcur
  rw [current?_eq_head? (poised_remove t i), circular_remove h.le hi, hrest]
  split
  · rename_i hremoved
    have hdistance : t.distance i = 0 := by rw [distance, hremoved, if_pos (Nat.le_refl _), Nat.sub_self]
    rw [current?_eq_head? (h.advance hcur), hadvance, hdistance, List.eraseIdx_cons_zero]
    cases rest with
    | nil =>
      rw [← length_circular, hrest] at hlen
      exact absurd hlen (Nat.lt_irrefl 1)
    | cons e rest => rfl
  · rename_i hother
    obtain ⟨n, hn⟩ : ∃ n, t.distance i = n + 1 := by
      refine Nat.exists_eq_add_one.2 ?_
      rw [distance]
      split <;> omega
    rw [hn, List.eraseIdx_cons_succ, List.head?_cons, hcur]

/-- It stays on its entry when one is added, which it is on if there is no other. -/
theorem Poised.current?_add (h : t.Poised) (e : Tenancy) : (t.add e).current? = some (t.current?.getD e) := by
  show (t.entries ++ [e])[t.hand]? = _
  cases hcur : t.current? with
  | none =>
    have hnil := h.entries_eq_nil hcur
    have hzero : t.hand = 0 := by simpa [hnil] using h.le
    rw [hnil, hzero]
    rfl
  | some e' =>
    rw [List.getElem?_append_left (List.getElem?_eq_some_iff.1 hcur).1]
    exact hcur

end FrameTable

end DemandPaging
