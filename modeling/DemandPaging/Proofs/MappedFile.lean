import DemandPaging.Proofs.Contents
import DemandPaging.Proofs.FixedFile
import DemandPaging.Proofs.Still

/-!
# What a mapping shows

The pages of a mapping are the tiles of its file, and each of them shows its part of the file: what its
frame holds while it is in memory, and what the file has while it is not. `View.Portrays` says that the
tiles are there and that a clean one agrees with the file. Every effect but a store keeps what the
tiles show, be it that a dirty tile is evicted and the file changes; this is the statement of
`Effect.portrays`. All that it takes is that no other page writes to the file.
-/

namespace DemandPaging

/-! ### Tiles -/

section

variable {file : Handle} {len n : Nat} {r r' : Region}

theorem mem_tiles : r ∈ tiles file len ↔ ∃ k < pagesFor len, r =
    ⟨file, k * pageSize, min (len - k * pageSize) pageSize,
      pageSize - min (len - k * pageSize) pageSize⟩ := by
  simp only [tiles, List.mem_map, List.mem_range]
  exact exists_congr fun k => and_congr_right fun _ => eq_comm

/-- A tile lies within the file and within a page. -/
theorem bounds_of_mem_tiles (h : r ∈ tiles file len) :
    pageSize ∣ r.offset ∧ r.offset + r.readLen ≤ len ∧ 0 < r.readLen ∧ r.readLen ≤ pageSize := by
  obtain ⟨k, hk, rfl⟩ := mem_tiles.1 h
  refine ⟨⟨k, Nat.mul_comm ..⟩, ?_⟩
  simp only [pagesFor, pageSize] at *
  omega

/-- Every byte of the file is in a tile. -/
theorem exists_tile (file : Handle) (h : n < len) :
    ∃ r ∈ tiles file len, ∃ o < r.readLen, n = r.offset + o := by
  refine ⟨_, mem_tiles.2 ⟨n / pageSize, ?_, rfl⟩, n % pageSize, ?_, ?_⟩
  all_goals
    simp only [pagesFor, pageSize]
    omega

/-- Tiles that have a byte in common are the same. -/
theorem eq_of_mem_tiles (h : r ∈ tiles file len) (h' : r' ∈ tiles file len) (o o' : Nat)
    (ho : o < pageSize) (ho' : o' < pageSize) (heq : r.offset + o = r'.offset + o') : r = r' := by
  obtain ⟨k, -, rfl⟩ := mem_tiles.1 h
  obtain ⟨k', -, rfl⟩ := mem_tiles.1 h'
  have hk : k = k' := by
    simp only [pageSize] at *
    omega
  rw [hk]

/-- The address of a byte of a tile lies in the page of the tile. -/
theorem page_of_tile {addr o : Nat} (haddr : isAligned addr = true) (h : r ∈ tiles file len)
    (ho : o < r.readLen) :
    pageBase (addr + (r.offset + o)) = addr + r.offset ∧ pageOffset (addr + (r.offset + o)) = o := by
  obtain ⟨⟨k, hk⟩, -, -, hle⟩ := bounds_of_mem_tiles h
  have haligned : isAligned (addr + r.offset) = true := by
    simp only [isAligned, beq_iff_eq, pageOffset, pageSize] at *
    omega
  rw [← Nat.add_assoc]
  exact ⟨pageBase_add_of_aligned haligned (Nat.lt_of_lt_of_le ho hle),
    pageOffset_add_of_aligned haligned (Nat.lt_of_lt_of_le ho hle)⟩

end

variable {φ : Type} [FileSystem φ] (H : FixedFile φ)

namespace View

/-- The byte at position `n` of the file as page `i` shows it, at offset `o`: the frame has it while
the page is in memory, and else the file. -/
def shownBy (v : View φ) (i : PageId) (n o : Nat) : Option UInt8 :=
  match (v.page i).frame with
  | some f => (v.cell f.cell).map (·.byte o)
  | none => (H.contents v.files)[n]?

/-- The byte at position `n` of the file as process `p` sees it from `addr` on. -/
def shown (v : View φ) (p : ProcId) (addr n : Nat) : Option UInt8 :=
  (v.own p (pageBase (addr + n))).bind fun i => v.shownBy H i n (pageOffset (addr + n))

/-- Page `i` of process `p` at `a` shows tile `r` of the file, and agrees with it while it is clean. -/
structure Tile (v : View φ) (p : ProcId) (a : Nat) (r : Region) (i : PageId) : Prop where
  own : v.own p a = some i
  backing : (v.page i).backing = .mapped r
  clean : ∀ f b, (v.page i).frame = some f → v.cell f.cell = some b → v.dirty p a = false →
    ∀ o < r.readLen, (H.contents v.files)[r.offset + o]? = some (b.byte o)

/-- From `addr` on, process `p` has the tiles of a file of `len` bytes, with a handle that leads to the
file. -/
structure Portrays (v : View φ) (p : ProcId) (addr : Nat) (handle : Handle) (len : Nat) : Prop where
  length : (H.contents v.files).length = len
  aligned : isAligned addr = true
  known : H.known v.files handle = true
  leads : H.leads v.files handle = true
  tile : ∀ r ∈ tiles handle len, ∃ i, v.Tile H p (addr + r.offset) r i

/-- The handles of all pages have been given out, and only pages of process `p` at `us` have one that
leads to the file. -/
def Sole (v : View φ) (p : ProcId) (us : List Nat) : Prop :=
  ∀ q w i r, v.own q w = some i → (v.page i).backing.region? = some r →
    H.known v.files r.file = true ∧ (H.leads v.files r.file = true → q = p ∧ w ∈ us)

end View

open View

variable {H} {l : Label} {v v' w : View φ} {p q : ProcId} {i j : PageId} {r : Region} {f : Frame}
  {b : PageBytes} {addr len a o : Nat} {handle : Handle}

/-! ### Files -/

/-- What the write of the front of a page puts at position `x` of the file. -/
theorem FixedFile.put?_slice_eq_some {s : φ} {x n : Nat} {c : UInt8} :
    H.put? s x (.write handle a (b.slice 0 n)) = some c ↔
      H.leads s handle = true ∧ ∃ o < n, o < pageSize ∧ x = a + o ∧ c = b.byte o := by
  rw [put?, Option.ite_none_right_eq_some, and_assoc]
  refine and_congr_right fun _ => ⟨?_, ?_⟩
  · rintro ⟨hle, hc⟩
    rw [Bytes.getElem?_slice, Option.ite_none_right_eq_some, Nat.zero_add] at hc
    have hsize : x - a < pageSize := by
      rw [← b.length_data]
      exact (List.getElem?_eq_some_iff.1 hc.2).1
    rw [Bytes.getElem?_eq_byte b hsize, Option.some.injEq] at hc
    exact ⟨x - a, hc.1, hsize, (Nat.add_sub_of_le hle).symm, hc.2.symm⟩
  · rintro ⟨o, ho, hsize, rfl, rfl⟩
    rw [Nat.add_sub_cancel_left, Bytes.getElem?_slice, if_pos ho, Nat.zero_add,
      Bytes.getElem?_eq_byte b hsize]
    exact ⟨Nat.le_add_right _ _, rfl⟩

/-- What an effect does to the files: it writes the region of a page, or makes another call, or none. -/
theorem Effect.files_cases (he : Effect l v v') :
    v'.files = v.files ∨ Consulted v.files v'.files ∨ l.writing ∧ ∃ q x j r b, v.own q x = some j ∧
      (v.page j).backing.region? = some r ∧ l ≠ .store ∧ (v'.own q x = some j → l.subject = some j) ∧
      v'.files = (v.writeBack r b).files := by
  cases he with
  | @writeOut _ p u i f b r own frame holds disposal region =>
    exact .inr (.inr ⟨trivial, p, u, i, r, b, own, region, by simp, fun _ => rfl, rfl⟩)
  | @flush _ p u i f b r own frame holds backing =>
    refine .inr (.inr ⟨trivial, p, u, i, r, b, own, by rw [backing]; rfl, by simp, fun hown => ?_, rfl⟩)
    rw [disown_own, setAt_self] at hown
    simp at hown
  | readIn own away slot region count free => exact .inr (.inl (.read ..))
  | consult consulted => exact .inr (.inl consulted)
  | _ => exact .inl rfl

namespace View

/-- A page with a handle that leads to the file is a tile. -/
theorem Portrays.mem_tiles (hp : v.Portrays H p addr handle len)
    (hsole : v.Sole H p ((tiles handle len).map (addr + ·.offset))) {x : Nat}
    (hj : v.own q x = some j) (hr : (v.page j).backing.region? = some r)
    (hleads : H.leads v.files r.file = true) :
    q = p ∧ r ∈ tiles handle len ∧ x = addr + r.offset := by
  obtain ⟨hq, hx⟩ := (hsole q x j r hj hr).2 hleads
  obtain ⟨r', hr', rfl⟩ := List.mem_map.1 hx
  obtain ⟨i, ht⟩ := hp.tile r' hr'
  have hji : j = i := Option.some.inj (hj.symm.trans (hq ▸ ht.own))
  rw [hji, ht.backing, Backing.region?, Option.some.injEq] at hr
  rw [← hr]
  exact ⟨hq, hr', rfl⟩

end View

/-- The handle of the mapping goes on leading to the file, which keeps its length. -/
theorem Effect.portrays_file (he : Effect l v v')
    (hsole : l.writing → v.Sole H p ((tiles handle len).map (addr + ·.offset))) :
    (∀ h, H.known v.files h = true → H.Keeps v.files v'.files h) ∧
      (H.contents v'.files).length = (H.contents v.files).length := by
  rcases he.files_cases with heq | hc | ⟨hl, q, x, j, r, b, hj, hr, -, -, heq⟩
  · rw [heq]
    exact ⟨fun h hk => ⟨hk, rfl⟩, rfl⟩
  · exact ⟨fun h hk => H.consulted hc hk, by rw [H.unchanged hc]⟩
  · have hk := (hsole hl q x j r hj hr).1
    rw [heq]
    exact ⟨fun h hk' => H.kept hk hk' _ _, FixedFile.length_writeAt hk _ _⟩

/-- What the file has of a tile changes only with the page of the tile. -/
theorem Effect.contents_of_tile (he : Effect l v v')
    (hsole : l.writing → v.Sole H p ((tiles handle len).map (addr + ·.offset)))
    (hp : v.Portrays H p addr handle len) (hr : r ∈ tiles handle len)
    (ht : v.Tile H p (addr + r.offset) r i) (hown : v'.own p (addr + r.offset) = some i)
    (hne : l.subject ≠ some i) (ho : o < r.readLen) :
    (H.contents v'.files)[r.offset + o]? = (H.contents v.files)[r.offset + o]? := by
  rcases he.files_cases with heq | hc | ⟨hl, q, x, j, r', b, hj, hr', -, hleft, heq⟩
  · rw [heq]
  · rw [H.unchanged hc]
  · obtain ⟨-, hin, -, hle⟩ := bounds_of_mem_tiles hr
    have hk := (hsole hl q x j r' hj hr').1
    rw [heq, writeBack_files, FixedFile.getElem?_writeAt hk (by rw [hp.length]; omega)]
    suffices hput : H.put? v.files (r.offset + o)
        (.write r'.file r'.offset (b.slice 0 r'.readLen)) = none by rw [hput, Option.none_or]
    rw [Option.eq_none_iff_forall_ne_some]
    intro c hc
    obtain ⟨hleads, o', ho', -, heqo, -⟩ := FixedFile.put?_slice_eq_some.1 hc
    obtain ⟨rfl, hmem, rfl⟩ := hp.mem_tiles (hsole hl) hj hr' hleads
    obtain ⟨-, -, -, hle'⟩ := bounds_of_mem_tiles hmem
    -- the tiles would have a byte in common, so they would be the same
    obtain rfl : r = r' := eq_of_mem_tiles hr hmem o o' (by omega) (by omega) heqo
    have hji : j = i := Option.some.inj (hj.symm.trans ht.own)
    exact hne (hji ▸ hleft (hji ▸ hown))

/-! ### Tiles -/

namespace View

theorem shownBy_of_frame (hf : (v.page i).frame = some f) (hb : v.cell f.cell = some b)
    (n o : Nat) : v.shownBy H i n o = some (b.byte o) := by
  simp only [shownBy, hf, hb, Option.map_some]

theorem shownBy_of_away (hf : (v.page i).frame = none) (n o : Nat) :
    v.shownBy H i n o = (H.contents v.files)[n]? := by
  simp only [shownBy, hf]

/-- A tile that is left alone goes on showing what it showed. -/
theorem Tile.of_retains (ht : v.Tile H p a r i) (h : v.Retains v' p a i) (hown : v'.own p a = some i)
    (hsame : ∀ o < r.readLen,
      (H.contents v'.files)[r.offset + o]? = (H.contents v.files)[r.offset + o]?) :
    v'.Tile H p a r i ∧ ∀ o < r.readLen,
      v'.shownBy H i (r.offset + o) o = v.shownBy H i (r.offset + o) o := by
  refine ⟨⟨hown, by rw [h.page, ht.backing], fun f b hf hb hd o ho => ?_⟩, fun o ho => ?_⟩
  · rw [h.page] at hf
    rw [h.cell f hf] at hb
    rw [h.dirty] at hd
    rw [hsame o ho, ht.clean f b hf hb hd o ho]
  · cases hf : (v.page i).frame with
    | some f =>
      have hf' : (v'.page i).frame = some f := by rw [h.page, hf]
      simp only [shownBy, hf, hf', h.cell f hf]
    | none => rw [shownBy_of_away hf, shownBy_of_away (by rw [h.page, hf]), hsame o ho]

/-- A tile that is evicted goes on showing what it showed: the file has it then. -/
theorem Tile.of_evict (ht : v.Tile H p a r i) (he : Effect (.evict i) v v') (hv : v.Sound)
    (hknown : H.known v.files r.file = true) (hleads : H.leads v.files r.file = true)
    (hin : r.offset + r.readLen ≤ (H.contents v.files).length) (hle : r.readLen ≤ pageSize) :
    v'.Tile H p a r i ∧ ∀ o < r.readLen,
      v'.shownBy H i (r.offset + o) o = v.shownBy H i (r.offset + o) o := by
  -- all that has to be seen is that the file has what the page held
  have hput : ∀ {f b}, (v.page i).frame = some f → v.cell f.cell = some b → v'.own = v.own →
      (v'.page i).backing = (v.page i).backing → (v'.page i).frame = none →
      (∀ o < r.readLen, (H.contents v'.files)[r.offset + o]? = some (b.byte o)) →
      v'.Tile H p a r i ∧ ∀ o < r.readLen,
        v'.shownBy H i (r.offset + o) o = v.shownBy H i (r.offset + o) o := by
    intro f b hf hb hown hbacking hgone hbytes
    refine ⟨⟨by rw [hown, ht.own], by rw [hbacking, ht.backing], fun f' b' hf' => ?_⟩, fun o ho => ?_⟩
    · rw [hgone] at hf'
      simp at hf'
    · rw [shownBy_of_away hgone, shownBy_of_frame hf hb, hbytes o ho]
  cases he with
  | swapOut own frame holds disposal lt free =>
    simp [Page.disposal_eq_swappedOut_iff, Page.keeping, ht.backing] at disposal
  | @writeOut _ q x _ f b r' own frame holds disposal region =>
    rw [ht.backing, Backing.region?, Option.some.injEq] at region
    subst region
    refine hput frame holds rfl ?_ (by rw [vacate_page, Function.update_self]) fun o ho => ?_
    · rw [vacate_page, Function.update_self, writeBack_page]
    · rw [vacate_files, writeBack_files, FixedFile.getElem?_writeAt hknown (by omega),
        FixedFile.put?_slice_eq_some.2 ⟨hleads, o, ho, Nat.lt_of_lt_of_le ho hle, rfl, rfl⟩,
        Option.some_or]
  | @drop _ q x _ f own frame disposal =>
    obtain ⟨rfl, rfl⟩ := hv.owned.eq_of_own own ht.own
    obtain ⟨b, hb⟩ := hv.housed.exists_cell own frame
    refine hput frame hb rfl ?_ (by rw [vacate_page, Function.update_self]) ?_
    · rw [vacate_page, Function.update_self]
    · exact ht.clean f b frame hb (Page.disposal_eq_dropped_iff.1 disposal).1

/-- A tile that comes in shows what the file has. -/
theorem Tile.of_arrive (ht : v.Tile H p a r i) (he : Effect (.arrive i) v v') (hv : v.Sound)
    (hknown : H.known v.files r.file = true) (hleads : H.leads v.files r.file = true)
    (hin : r.offset + r.readLen ≤ (H.contents v.files).length) (hle : r.readLen ≤ pageSize) :
    v'.Tile H p a r i ∧ ∀ o < r.readLen,
      v'.shownBy H i (r.offset + o) o = v.shownBy H i (r.offset + o) o := by
  cases he with
  | swapIn own away slot holds free =>
    -- a page of a mapped file is in no slot
    have hsourced := hv.sourced _ _ _ own
    rw [Page.Sourced, if_neg (by simp [Page.keeping, ht.backing]), slot] at hsourced
    simp at hsourced
  | @readIn _ q x _ f r' own away slot region count free =>
    rw [ht.backing, Backing.region?, Option.some.injEq] at region
    subst region
    set x₀ := FileSystem.readAt v.files r.file r.offset r.readLen with hx
    have hbytes : ∀ o < r.readLen, (H.contents v.files)[r.offset + o]? =
        some (((Bytes.zero pageSize).overlay 0 (x₀.1.data.take r.readLen)).byte o) := by
      intro o ho
      have hlen : (x₀.1.data.take r.readLen).length = r.readLen := by
        rw [hx, H.read hknown hleads, List.length_take, List.length_take, List.length_drop]
        omega
      rw [← Bytes.getElem?_eq_byte _ (Nat.lt_of_lt_of_le ho hle),
        Bytes.getElem?_overlay _ _ _ (Nat.lt_of_lt_of_le ho hle), if_pos ⟨Nat.zero_le _, by omega⟩,
        Nat.sub_zero, hx, H.read hknown hleads, List.take_take, Nat.min_self,
        List.getElem?_take_of_lt ho, List.getElem?_drop]
    have hsame : H.contents x₀.2 = H.contents v.files := H.unchanged (.read ..)
    refine ⟨⟨ht.own, ?_, fun g b hg hb _ o ho => ?_⟩, fun o ho => ?_⟩
    · rw [occupy_page, Function.update_self, setFiles_page, ht.backing]
    · rw [occupy_page, Function.update_self, Option.some.injEq] at hg
      rw [← hg, occupy_cell, Function.update_self, Option.some.injEq] at hb
      rw [occupy_files, setFiles_files, hsame, hbytes o ho, hb]
    · rw [shownBy_of_away away, hbytes o ho, shownBy_of_frame (f := f)]
      · rw [occupy_page, Function.update_self]
      · rw [occupy_cell, Function.update_self]

end View

/-- An effect keeps what a tile shows, as long as the page belongs to its process and no store is
made. -/
theorem Effect.tile (he : Effect l v v') (hl : l ≠ .store) (hv : v.Sound)
    (hsole : l.writing → v.Sole H p ((tiles handle len).map (addr + ·.offset)))
    (hp : v.Portrays H p addr handle len) (hr : r ∈ tiles handle len)
    (ht : v.Tile H p (addr + r.offset) r i) (hown : v'.own p (addr + r.offset) = some i) :
    v'.Tile H p (addr + r.offset) r i ∧ ∀ o < r.readLen,
      v'.shownBy H i (r.offset + o) o = v.shownBy H i (r.offset + o) o := by
  obtain ⟨-, hin, -, hle⟩ := bounds_of_mem_tiles hr
  have hknown : H.known v.files r.file = true := by rw [file_of_mem_tiles hr, hp.known]
  have hleads : H.leads v.files r.file = true := by rw [file_of_mem_tiles hr, hp.leads]
  rw [← hp.length] at hin
  by_cases hs : l.subject = some i
  · cases l with
    | evict j =>
      obtain rfl := Option.some.inj hs
      exact ht.of_evict he hv hknown hleads hin hle
    | arrive j =>
      obtain rfl := Option.some.inj hs
      exact ht.of_arrive he hv hknown hleads hin hle
    | declare j | grow j =>
      -- a page that is declared is a new one
      obtain rfl := Option.some.inj hs
      cases he
      exact absurd (hv.owned.lt ht.own) (Nat.lt_irrefl _)
    | _ => simp [Label.subject] at hs
  · exact ht.of_retains (he.retains hl hv ht.own hown hs) hown
      fun o ho => he.contents_of_tile hsole hp hr ht hown hs ho

/-! ### What is shown -/

namespace View

theorem Portrays.shown_eq (hp : v.Portrays H p addr handle len) (hr : r ∈ tiles handle len)
    (ht : v.Tile H p (addr + r.offset) r i) (ho : o < r.readLen) :
    v.shown H p addr (r.offset + o) = v.shownBy H i (r.offset + o) o := by
  obtain ⟨hbase, hoffset⟩ := page_of_tile hp.aligned hr ho
  rw [shown, hbase, hoffset, ht.own, Option.bind_some]

/-- What has to be known of each tile when something has happened. -/
theorem Portrays.of_tiles (hp : v.Portrays H p addr handle len)
    (hkeeps : H.Keeps v.files v'.files handle)
    (hlength : (H.contents v'.files).length = (H.contents v.files).length)
    (htiles : ∀ r ∈ tiles handle len, ∀ i, v.Tile H p (addr + r.offset) r i →
      v'.Tile H p (addr + r.offset) r i ∧ ∀ o < r.readLen,
        v'.shownBy H i (r.offset + o) o = v.shownBy H i (r.offset + o) o) :
    v'.Portrays H p addr handle len ∧ ∀ n < len, v'.shown H p addr n = v.shown H p addr n := by
  have hp' : v'.Portrays H p addr handle len := by
    refine ⟨hlength.trans hp.length, hp.aligned, hkeeps.1, hkeeps.2.trans hp.leads, fun r hr => ?_⟩
    obtain ⟨i, ht⟩ := hp.tile r hr
    exact ⟨i, (htiles r hr i ht).1⟩
  refine ⟨hp', fun n hn => ?_⟩
  obtain ⟨r, hr, o, ho, rfl⟩ := exists_tile handle hn
  obtain ⟨i, ht⟩ := hp.tile r hr
  obtain ⟨ht', hsame⟩ := htiles r hr i ht
  rw [hp'.shown_eq hr ht' ho, hp.shown_eq hr ht ho, hsame o ho]

end View

/-- An effect other than a store keeps what is shown, as long as the tiles belong to the process. -/
theorem Effect.portrays (he : Effect l v v') (hl : l ≠ .store) (hv : v.Sound)
    (hsole : l.writing → v.Sole H p ((tiles handle len).map (addr + ·.offset)))
    (hp : v.Portrays H p addr handle len)
    (hown : ∀ r ∈ tiles handle len, v'.own p (addr + r.offset) = v.own p (addr + r.offset)) :
    v'.Portrays H p addr handle len ∧ ∀ n < len, v'.shown H p addr n = v.shown H p addr n := by
  obtain ⟨hkeeps, hlength⟩ := he.portrays_file hsole
  refine hp.of_tiles (hkeeps handle hp.known) hlength fun r hr i ht => ?_
  exact he.tile hl hv hsole hp hr ht (by rw [hown r hr, ht.own])

/-- A store goes to the pages, and not to the file. -/
theorem View.Stores.portrays {data : List UInt8} {cell : Nat → Option PageBytes}
    {dirty : ProcId → Nat → Bool} (h : v.Stores q a data cell dirty) (hv : v.Sound)
    (hp : v.Portrays H p addr handle len) :
    View.Portrays H { v with cell, dirty } p addr handle len := by
  refine ⟨hp.length, hp.aligned, hp.known, hp.leads, fun r hr => ?_⟩
  obtain ⟨i, ht⟩ := hp.tile r hr
  refine ⟨i, ht.own, ht.backing, fun f b' hf hb' hd o ho => ?_⟩
  have ho' := Nat.lt_of_lt_of_le ho (bounds_of_mem_tiles hr).2.2.2
  obtain ⟨hclean, hout⟩ := h.of_clean hv ht.own hd
  obtain ⟨b, hb⟩ := hv.housed.exists_cell ht.own hf
  obtain ⟨b'', hb'', hbytes⟩ := h.byte hv ht.own hf hb
  rw [show cell f.cell = some b' from hb', Option.some.injEq] at hb''
  rw [hb'', hbytes o ho', if_neg (hout o ho')]
  exact ht.clean f b hf hb hclean o ho

/-! ### Paths -/

/-- As long as no part of a file is declared, no page gets a handle that leads to the file. -/
theorem Effect.sole {us : List Nat} (he : Effect l v v') (hl : ∀ j, l ≠ .declare j) (hv : v.Sound)
    (hsole : v.Sole H p us) : v'.Sole H p us := by
  have hkeeps : ∀ h, H.known v.files h = true → H.Keeps v.files v'.files h := by
    rcases he.files_cases with heq | hc | ⟨-, q, x, j, r, b, hj, hr, -, -, heq⟩
    · rw [heq]
      exact fun h hk => ⟨hk, rfl⟩
    · exact fun h hk => H.consulted hc hk
    · rw [heq]
      exact fun h hk => H.kept (hsole q x j r hj hr).1 hk _ _
  intro q x i r hi hr
  rcases he.own_cases hi with hi | ⟨rfl, hnew⟩
  · rw [(he.same (hv.owned.lt hi)).backing] at hr
    obtain ⟨hknown, hleads⟩ := hsole q x i r hi hr
    obtain ⟨hknown', hleads'⟩ := hkeeps r.file hknown
    exact ⟨hknown', fun h => hleads (hleads' ▸ h)⟩
  · cases he with
    | grow vacant free =>
      rw [occupy_page, Function.update_self, claim_page, Function.update_self] at hr
      simp [Page.declared, Backing.region?] at hr
    | declare => exact absurd rfl (hl _)
    | _ => simp at hnew

theorem Path.sole {may : Label → Prop} {us : List Nat} (h : Path may v v')
    (hmay : ∀ l, may l → ∀ j, l ≠ .declare j) (hv : v.Sound) (hsole : v.Sole H p us) :
    v'.Sole H p us :=
  (h.keeps (P := fun w => w.Sound ∧ w.Sole H p us) ⟨hv, hsole⟩
    fun hl he hw => ⟨he.sound hw.1, he.sole (hmay _ hl) hw.1 hw.2⟩).2

/-- A path without stores keeps what is shown. If it writes to files, no new page may come to show the
file. -/
theorem Path.portrays {may : Label → Prop} (h : Path may v v') (hstore : ∀ l, may l → l ≠ .store)
    (hcases : (∀ l, may l → ¬ l.writing) ∨ (∀ l, may l → ∀ j, l ≠ .declare j) ∧
      v.Sole H p ((tiles handle len).map (addr + ·.offset)))
    (hv : v.Sound) (hp : v.Portrays H p addr handle len)
    (hown : ∀ r ∈ tiles handle len, v'.own p (addr + r.offset) = v.own p (addr + r.offset)) :
    v'.Portrays H p addr handle len ∧ ∀ n < len, v'.shown H p addr n = v.shown H p addr n := by
  suffices hall : v.next ≤ v'.next ∧
      ((∀ r ∈ tiles handle len, v'.own p (addr + r.offset) = v.own p (addr + r.offset)) →
        v'.Portrays H p addr handle len ∧ ∀ n < len, v'.shown H p addr n = v.shown H p addr n) from
    hall.2 hown
  clear hown
  induction h with
  | refl => exact ⟨Nat.le_refl _, fun _ => ⟨hp, fun _ _ => rfl⟩⟩
  | @tail w v' hpath hstep ih =>
    obtain ⟨l, hl, he⟩ := hstep
    obtain ⟨hnext, ih⟩ := ih
    refine ⟨Nat.le_trans hnext he.next_le, fun hown => ?_⟩
    have hw : Path may v w := hpath
    -- a page that has been given up does not come back
    have hown' : ∀ r ∈ tiles handle len, w.own p (addr + r.offset) = v.own p (addr + r.offset) := by
      intro r hr
      obtain ⟨i, ht⟩ := hp.tile r hr
      rw [ht.own]
      rcases he.own_cases ((hown r hr).trans ht.own) with hi | ⟨rfl, -⟩
      · exact hi
      · exact absurd (hv.owned.lt ht.own) (Nat.not_lt.2 hnext)
    obtain ⟨hp', hshown⟩ := ih hown'
    have hsole : l.writing → w.Sole H p ((tiles handle len).map (addr + ·.offset)) := fun hwrites => by
      rcases hcases with hquiet | ⟨hold, hsole⟩
      · exact absurd hwrites (hquiet l hl)
      · exact hw.sole hold hv hsole
    obtain ⟨hp'', hshown'⟩ := he.portrays (hstore l hl) (hw.sound hv) hsole hp' fun r hr => by
      rw [hown r hr, hown' r hr]
    exact ⟨hp'', fun n hn => (hshown' n hn).trans (hshown n hn)⟩

end DemandPaging
