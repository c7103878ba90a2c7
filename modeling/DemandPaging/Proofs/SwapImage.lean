import DemandPaging.Proofs.Bitmap
import DemandPaging.Swap
import Mathlib.Data.List.Range
import Mathlib.Logic.Function.Basic

/-!
# What a slot holds

The image of a slot is the page that its eight sectors make up. A page that is put into a slot is
its image from then on, the images of the other slots stay, and a fetch returns the image. Slots
share no sector as long as sector numbers are not cut off.
-/

namespace DemandPaging

namespace Device

variable {d d' : Device} {n : Nat}

/-- A read of a whole sector succeeds exactly below both bounds, and counts. -/
theorem read_eq_ok_iff {b : SectorBytes} :
    d.read n sectorSize = .ok (b, d') ↔
      n < d.size ∧ d.disk.sectors[n]? = some b ∧ d' = { d with reads := d.reads + 1 } := by
  by_cases hn : d.size ≤ n
  · simp [read, check, hn, bind, Except.bind, Nat.not_lt.2 hn]
  · cases hs : d.disk.sectors[n]? with
    | none => simp [read, check, hn, Disk.read, hs, bind, Except.bind]
    | some b' =>
      simp [read, check, hn, Disk.read, hs, bind, Except.bind, pure, Except.pure, eq_comm,
        Nat.lt_of_not_le hn]

/-- A write of a whole sector succeeds exactly below both bounds on a device that is not foreign. -/
theorem write_eq_ok_iff {b : SectorBytes} :
    d.write n b.data = .ok d' ↔
      n < d.size ∧ d.role ≠ .foreign ∧ n < d.disk.sectors.size ∧
        d' = { d with disk := ⟨d.disk.sectors.setIfInBounds n b⟩, writes := d.writes + 1 } := by
  have hlen := b.length_data
  by_cases hn : d.size ≤ n
  · simp [write, check, hn, bind, Except.bind, Nat.not_lt.2 hn]
  · rcases eq_or_ne d.role .foreign with hr | hr
    · simp [write, check, hn, hlen, hr, bind, Except.bind, throw, throwThe, MonadExceptOf.throw]
    · by_cases hs : n < d.disk.sectors.size
      · simp [write, check, hn, hlen, hr, Disk.write, hs, bind, Except.bind, pure, Except.pure,
          eq_comm, Nat.lt_of_not_le hn]
      · simp [write, check, hn, hlen, hr, Disk.write, hs, bind, Except.bind]

end Device

namespace Registry

variable {r r' : Registry} {dev n : Nat}

/-- Role, registered size and number of sectors of device `dev`, none of which ever change. -/
def spec (r : Registry) (dev : Nat) : Option (Role × Nat × Nat) :=
  r.devices[dev]?.map fun d => (d.role, d.size, d.disk.sectors.size)

/-- The contents of sector `n` of device `dev`; zeros if there is no such sector. -/
def sectorAt (r : Registry) (dev n : Nat) : SectorBytes :=
  match r.devices[dev]? with
  | some d => d.disk.sectors.getD n (.zero sectorSize)
  | none => .zero sectorSize

theorem read_eq_ok_iff {b : SectorBytes} :
    r.read dev n sectorSize = .ok (b, r') ↔
      ∃ d d', r.devices[dev]? = some d ∧ d.read n sectorSize = .ok (b, d') ∧
        r' = ⟨r.devices.setIfInBounds dev d'⟩ := by
  unfold read
  cases hd : r.devices[dev]? with
  | none => simp
  | some d =>
    cases hr : d.read n sectorSize with
    | error e => simp [bind, Except.bind, hr]
    | ok x =>
      obtain ⟨b', d'⟩ := x
      simp [bind, Except.bind, pure, Except.pure, hr, eq_comm, and_assoc]

theorem write_eq_ok_iff {b : SectorBytes} :
    r.write dev n b.data = .ok r' ↔
      ∃ d d', r.devices[dev]? = some d ∧ d.write n b.data = .ok d' ∧
        r' = ⟨r.devices.setIfInBounds dev d'⟩ := by
  unfold write
  cases hd : r.devices[dev]? with
  | none => simp
  | some d =>
    cases hr : d.write n b.data with
    | error e => simp [bind, Except.bind, hr]
    | ok d' => simp [bind, Except.bind, pure, Except.pure, hr, eq_comm]

/-- A read returns what is there and changes nothing that can be read. -/
theorem read_spec {b : SectorBytes} (h : r.read dev n sectorSize = .ok (b, r')) :
    b = r.sectorAt dev n ∧ (∀ k, r'.sectorAt dev k = r.sectorAt dev k) ∧
      r'.spec dev = r.spec dev := by
  obtain ⟨d, d', hd, hread, rfl⟩ := read_eq_ok_iff.1 h
  obtain ⟨-, hb, rfl⟩ := Device.read_eq_ok_iff.1 hread
  obtain ⟨hlt, rfl⟩ := Array.getElem?_eq_some_iff.1 hd
  exact ⟨by simp [sectorAt, hlt, hb], fun k => by simp [sectorAt, hlt], by simp [spec, hlt]⟩

/-- A write changes the sector it names and no other. -/
theorem write_spec {b : SectorBytes} (h : r.write dev n b.data = .ok r') :
    (∀ k, r'.sectorAt dev k = if k = n then b else r.sectorAt dev k) ∧
      r'.spec dev = r.spec dev := by
  obtain ⟨d, d', hd, hwrite, rfl⟩ := write_eq_ok_iff.1 h
  obtain ⟨-, -, hn, rfl⟩ := Device.write_eq_ok_iff.1 hwrite
  obtain ⟨hlt, rfl⟩ := Array.getElem?_eq_some_iff.1 hd
  refine ⟨fun k => ?_, by simp [spec, hlt]⟩
  rcases eq_or_ne k n with rfl | hk
  · simp [sectorAt, hlt, hn]
  · simp [sectorAt, hlt, hk, Ne.symm hk]

/-- Below the registered size and the number of sectors, a read succeeds. -/
theorem exists_read {role : Role} {size sectors : Nat} (hs : r.spec dev = some (role, size, sectors))
    (hsize : n < size) (hn : n < sectors) : ∃ x, r.read dev n sectorSize = .ok x := by
  obtain ⟨d, hd, hspec⟩ := Option.map_eq_some_iff.1 hs
  simp only [Prod.mk.injEq] at hspec
  obtain ⟨-, rfl, rfl⟩ := hspec
  exact ⟨_, read_eq_ok_iff.2 ⟨d, _, hd,
    Device.read_eq_ok_iff.2 ⟨hsize, Array.getElem?_eq_getElem hn, rfl⟩, rfl⟩⟩

/-- Below the registered size and the number of sectors, a write to a device that is not foreign
succeeds. -/
theorem exists_write {role : Role} {size sectors : Nat}
    (hs : r.spec dev = some (role, size, sectors)) (hr : role ≠ .foreign) (hsize : n < size)
    (hn : n < sectors) (b : SectorBytes) : ∃ r', r.write dev n b.data = .ok r' := by
  obtain ⟨d, hd, hspec⟩ := Option.map_eq_some_iff.1 hs
  simp only [Prod.mk.injEq] at hspec
  obtain ⟨rfl, rfl, rfl⟩ := hspec
  exact ⟨_, write_eq_ok_iff.2 ⟨d, _, hd, Device.write_eq_ok_iff.2 ⟨hsize, hr, hn, rfl⟩, rfl⟩⟩

end Registry

namespace Swap

variable {s : Swap} {r r' : Registry} {dev slot i : Nat} {page : PageBytes}

/-! ### Sectors of a slot -/

/-- Sector `i` of a page. -/
def sectorOfPage (page : PageBytes) (i : Nat) : SectorBytes :=
  .ofList sectorSize (page.slice (i * sectorSize) sectorSize)

theorem data_sectorOfPage (page : PageBytes) (hi : i < sectorsPerPage) :
    (sectorOfPage page i).data = page.slice (i * sectorSize) sectorSize := by
  have hlen : (page.slice (i * sectorSize) sectorSize).length = sectorSize := by
    rw [Bytes.length_slice]
    simp only [sectorsPerPage, pageSize, sectorSize] at *
    omega
  simp only [sectorOfPage, Bytes.ofList]
  rw [List.take_append_of_le_length (by omega), List.take_of_length_le (by omega)]

/-- Sectors of slots below the limit are different. -/
theorem sectorOf_inj {t j : Nat} (hi : i < sectorsPerPage) (hj : j < sectorsPerPage)
    (hs : (slot + 1) * sectorsPerPage ≤ sectorLimit) (ht : (t + 1) * sectorsPerPage ≤ sectorLimit)
    (h : sectorOf slot i = sectorOf t j) : slot = t ∧ i = j := by
  simp only [sectorOf, sectorsPerPage, sectorLimit, pageSize, sectorSize] at *
  omega

/-- The page that the sectors of a slot make up. -/
def image (r : Registry) (dev slot : Nat) : PageBytes :=
  .ofList pageSize ((List.range sectorsPerPage).flatMap fun i =>
    (r.sectorAt dev (sectorOf slot i)).data)

theorem image_congr {t : Nat}
    (h : ∀ i < sectorsPerPage, r'.sectorAt dev (sectorOf slot i) = r.sectorAt dev (sectorOf t i)) :
    image r' dev slot = image r dev t := by
  unfold image
  congr 1
  refine List.flatMap_congr ?_
  intro i hi
  rw [h i (List.mem_range.1 hi)]

/-- A list cut into pieces of length `k` is the pieces one behind the other. -/
theorem flatMap_pieces {α : Type} (l : List α) (k n : Nat) :
    ((List.range n).flatMap fun i => (l.drop (i * k)).take k) = l.take (n * k) := by
  induction n with
  | zero => simp
  | succ n ih =>
    rw [List.range_succ, List.flatMap_append, ih, List.flatMap_singleton, Nat.succ_mul,
      List.take_add]

theorem image_of_sectors (h : ∀ i < sectorsPerPage,
    r.sectorAt dev (sectorOf slot i) = sectorOfPage page i) : image r dev slot = page := by
  have hflat : ((List.range sectorsPerPage).flatMap fun i =>
      (r.sectorAt dev (sectorOf slot i)).data) = page.data := by
    have hpieces := flatMap_pieces page.data sectorSize sectorsPerPage
    rw [List.take_of_length_le (by rw [page.length_data]; decide)] at hpieces
    rw [← hpieces]
    refine List.flatMap_congr ?_
    intro i hi
    rw [h i (List.mem_range.1 hi), data_sectorOfPage page (List.mem_range.1 hi), Bytes.slice]
  rw [image, hflat, Bytes.ofList_data]

/-! ### Transfers -/

/-- What is read are the sectors, and they stay as they are. -/
theorem readSectors_spec : ∀ (is : List Nat) {r r' : Registry} {bytes : List UInt8},
    readSectors dev slot is r = (r', .ok bytes) →
      (bytes = is.flatMap fun i => (r.sectorAt dev (sectorOf slot i)).data) ∧
        (∀ k, r'.sectorAt dev k = r.sectorAt dev k) ∧ r'.spec dev = r.spec dev
  | [], r, r', bytes, h => by
    simp only [readSectors, Prod.mk.injEq, Except.ok.injEq] at h
    obtain ⟨rfl, rfl⟩ := h
    exact ⟨rfl, fun _ => rfl, rfl⟩
  | i :: rest, r, r', bytes, h => by
    simp only [readSectors] at h
    split at h
    · rename_i sector r₁ hread
      obtain ⟨hb, hsame, hspec⟩ := Registry.read_spec hread
      cases hlater : (readSectors dev slot rest r₁).2 with
      | error e => simp [hlater, Except.map] at h
      | ok later =>
        simp only [hlater, Except.map, Prod.mk.injEq, Except.ok.injEq] at h
        obtain ⟨rfl, rfl⟩ := h
        obtain ⟨hl, hsame', hspec'⟩ := readSectors_spec rest (Prod.ext rfl hlater)
        refine ⟨?_, fun k => (hsame' k).trans (hsame k), hspec'.trans hspec⟩
        simp only [List.flatMap_cons, hl, hb, hsame]
    · simp at h

/-- A page that is fetched is the image of its slot, and the device keeps what it holds. -/
theorem fetch_spec (h : s.fetch r slot = (r', .ok page)) :
    page = image r s.device slot ∧ (∀ t, image r' s.device t = image r s.device t) ∧
      r'.spec s.device = r.spec s.device := by
  unfold fetch at h
  cases hres : (readSectors s.device slot (List.range sectorsPerPage) r).2 with
  | error e => simp [hres, Except.map, Except.mapError] at h
  | ok bytes =>
    simp only [hres, Except.map, Except.mapError, Prod.mk.injEq, Except.ok.injEq] at h
    obtain ⟨rfl, rfl⟩ := h
    obtain ⟨rfl, hsame, hspec⟩ := readSectors_spec _ (Prod.ext rfl hres)
    exact ⟨rfl, fun t => image_congr fun i _ => hsame _, hspec⟩

/-- The sectors that are written hold what was written; the others stay as they are. -/
theorem writeSectors_spec : ∀ (is : List Nat) {r r' : Registry}, (∀ i ∈ is, i < sectorsPerPage) →
    writeSectors dev slot page is r = (r', .ok ()) →
      (∀ k, r'.sectorAt dev k = r.sectorAt dev k ∧ (∀ i ∈ is, k ≠ sectorOf slot i) ∨
        ∃ i ∈ is, k = sectorOf slot i ∧ r'.sectorAt dev k = sectorOfPage page i) ∧
      r'.spec dev = r.spec dev
  | [], r, r', _, h => by
    simp only [writeSectors, Prod.mk.injEq, and_true] at h
    subst h
    exact ⟨fun k => .inl ⟨rfl, by simp⟩, rfl⟩
  | i :: rest, r, r', hlt, h => by
    simp only [writeSectors] at h
    rw [← data_sectorOfPage page (hlt i List.mem_cons_self)] at h
    split at h
    · rename_i r₁ hwrite
      obtain ⟨hput, hspec⟩ := Registry.write_spec hwrite
      obtain ⟨hrest, hspec'⟩ :=
        writeSectors_spec rest (fun j hj => hlt j (List.mem_cons_of_mem i hj)) h
      refine ⟨fun k => ?_, hspec'.trans hspec⟩
      rcases hrest k with ⟨hk, hne⟩ | ⟨j, hj, hkj, hk⟩
      · rw [hput] at hk
        split at hk
        · exact .inr ⟨i, List.mem_cons_self, ‹_›, hk⟩
        · refine .inl ⟨hk, fun j hj => ?_⟩
          rcases List.mem_cons.1 hj with rfl | hj
          · assumption
          · exact hne j hj
      · exact .inr ⟨j, List.mem_cons_of_mem i hj, hkj, hk⟩
    · simp at h

/-- A page that is put into a slot is its image; slots below the limit do not disturb each other. -/
theorem put_spec (h : s.put r slot page = (r', .ok ()))
    (hs : (slot + 1) * sectorsPerPage ≤ sectorLimit) :
    image r' s.device slot = page ∧
      (∀ t, (t + 1) * sectorsPerPage ≤ sectorLimit → t ≠ slot →
        image r' s.device t = image r s.device t) ∧
      r'.spec s.device = r.spec s.device := by
  unfold put at h
  cases hres : (writeSectors s.device slot page (List.range sectorsPerPage) r).2 with
  | error e => simp [hres, Except.mapError] at h
  | ok u =>
    simp only [hres, Except.mapError, Prod.mk.injEq, and_true] at h
    subst h
    obtain ⟨hput, hspec⟩ := writeSectors_spec _ (fun i hi => List.mem_range.1 hi) (Prod.ext rfl hres)
    refine ⟨image_of_sectors fun i hi => ?_, fun t ht hne => image_congr fun i hi => ?_, hspec⟩
    · rcases hput (sectorOf slot i) with ⟨-, hno⟩ | ⟨j, hj, hij, hdata⟩
      · exact absurd rfl (hno i (List.mem_range.2 hi))
      · rw [hdata, (sectorOf_inj hi (List.mem_range.1 hj) hs hs hij).2]
    · rcases hput (sectorOf t i) with ⟨hsame, -⟩ | ⟨j, hj, hij, -⟩
      · exact hsame
      · exact absurd (sectorOf_inj hi (List.mem_range.1 hj) ht hs hij).1 hne

/-! ### Transfers that succeed -/

section

variable {role : Role} {size sectors : Nat}

theorem sectorOf_lt (hi : i < sectorsPerPage) (hslot : (slot + 1) * sectorsPerPage ≤ size)
    (hlim : size ≤ sectorLimit) : sectorOf slot i < size := by
  simp only [sectorOf, sectorsPerPage, sectorLimit, pageSize, sectorSize] at *
  omega

theorem exists_readSectors : ∀ (is : List Nat) {r : Registry}, (∀ i ∈ is, i < sectorsPerPage) →
    r.spec dev = some (role, size, sectors) → (slot + 1) * sectorsPerPage ≤ size →
    size ≤ sectorLimit → size ≤ sectors → ∃ bytes, (readSectors dev slot is r).2 = .ok bytes
  | [], _, _, _, _, _, _ => ⟨[], rfl⟩
  | i :: rest, r, hlt, hspec, hslot, hlim, hfull => by
    have hsec := sectorOf_lt (hlt i List.mem_cons_self) hslot hlim
    obtain ⟨⟨b, r₁⟩, hread⟩ := Registry.exists_read hspec hsec (Nat.lt_of_lt_of_le hsec hfull)
    have hspec₁ : r₁.spec dev = some (role, size, sectors) :=
      (Registry.read_spec hread).2.2.trans hspec
    obtain ⟨later, hlater⟩ := exists_readSectors rest (fun j hj => hlt j (List.mem_cons_of_mem i hj))
      hspec₁ hslot hlim hfull
    exact ⟨b.data ++ later, by simp [readSectors, hread, hlater, Except.map]⟩

/-- A device with all its sectors gives back any slot. -/
theorem exists_fetch (hspec : r.spec s.device = some (role, size, sectors))
    (hslot : (slot + 1) * sectorsPerPage ≤ size) (hlim : size ≤ sectorLimit)
    (hfull : size ≤ sectors) : ∃ page, (s.fetch r slot).2 = .ok page := by
  obtain ⟨bytes, hb⟩ := exists_readSectors (List.range sectorsPerPage)
    (fun i hi => List.mem_range.1 hi) hspec hslot hlim hfull
  exact ⟨.ofList pageSize bytes, by simp [fetch, hb, Except.map, Except.mapError]⟩

theorem exists_writeSectors : ∀ (is : List Nat) {r : Registry}, (∀ i ∈ is, i < sectorsPerPage) →
    r.spec dev = some (role, size, sectors) → role ≠ .foreign →
    (slot + 1) * sectorsPerPage ≤ size → size ≤ sectorLimit → size ≤ sectors →
    (writeSectors dev slot page is r).2 = .ok ()
  | [], _, _, _, _, _, _, _ => rfl
  | i :: rest, r, hlt, hspec, hrole, hslot, hlim, hfull => by
    have hi := hlt i List.mem_cons_self
    have hsec := sectorOf_lt hi hslot hlim
    obtain ⟨r₁, hwrite⟩ := Registry.exists_write hspec hrole hsec (Nat.lt_of_lt_of_le hsec hfull)
      (sectorOfPage page i)
    have hspec₁ : r₁.spec dev = some (role, size, sectors) :=
      (Registry.write_spec hwrite).2.trans hspec
    have hlater := exists_writeSectors rest
      (fun j hj => hlt j (List.mem_cons_of_mem i hj)) hspec₁ hrole hslot hlim hfull
    rw [data_sectorOfPage page hi] at hwrite
    simp [writeSectors, hwrite, hlater]

/-- A device with all its sectors that is not foreign takes a page into any slot. -/
theorem exists_put (hspec : r.spec s.device = some (role, size, sectors)) (hrole : role ≠ .foreign)
    (hslot : (slot + 1) * sectorsPerPage ≤ size) (hlim : size ≤ sectorLimit)
    (hfull : size ≤ sectors) (page : PageBytes) : (s.put r slot page).2 = .ok () := by
  simp [put, exists_writeSectors (List.range sectorsPerPage)
    (fun i hi => List.mem_range.1 hi) hspec hrole hslot hlim hfull, Except.mapError]

end

/-! ### Used slots -/

/-- What slot `t` holds, if it is used. -/
def contents? (s : Swap) (r : Registry) (t : Nat) : Option PageBytes :=
  if s.used.bit t then some (image r s.device t) else none

theorem contents?_putBit (hsized : s.used.Sized) (hslot : slot < s.slots) (v : Bool) :
    contents? { s with used := s.used.putBit slot v } r =
      Function.update (s.contents? r) slot (if v then some (image r s.device slot) else none) := by
  funext t
  simp only [contents?, Function.update_apply, hsized.bit_putBit hslot]
  rcases eq_or_ne t slot with ht | ht
  · simp [ht]
  · simp [ht, Ne.symm ht]

theorem contents?_congr (h : ∀ t, image r' s.device t = image r s.device t) :
    s.contents? r' = s.contents? r := by
  funext t
  rw [contents?, contents?, h]

theorem contents?_put (hused : s.used.bit slot = true) (himage : image r' s.device slot = page)
    (hothers : ∀ t, s.used.bit t = true → t ≠ slot → image r' s.device t = image r s.device t) :
    s.contents? r' = Function.update (s.contents? r) slot (some page) := by
  funext t
  rw [Function.update_apply, contents?, contents?]
  rcases eq_or_ne t slot with ht | ht
  · rw [if_pos ht, ht, if_pos hused, himage]
  · rw [if_neg ht]
    by_cases hbit : s.used.bit t = true
    · rw [if_pos hbit, if_pos hbit, hothers t hbit ht]
    · rw [if_neg hbit, if_neg hbit]

end Swap

end DemandPaging
