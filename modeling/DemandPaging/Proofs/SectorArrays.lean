import DemandPaging.Device.Registry
import Mathlib.Data.List.Basic

/-!
# Registered devices are independent arrays of sectors

What has been done to a registry, in order, is a list of `DeviceAct`s, and all that can be asked of the
registry is read off this list: `plates` are the devices that have been registered, `held` is what has
last been written to a sector, and `readsOf` and `writesOf` count the transfers that the counters show.
`Tells` ties the list to the registry. A transfer is refused for a reason that only the `Nameplate` of
the device decides, and then there is nothing to add to the list.
-/

namespace DemandPaging

/-- What a device has been registered as, and how many sectors its disk has. None of it ever changes. -/
structure Nameplate where
  role : Role
  name : String
  size : Nat
  sectors : Nat
  deriving DecidableEq

/-- Why a transfer of `len` bytes to or from a sector is refused, if it is. The bounds of the disk come
last. -/
def Nameplate.refusal (plate : Nameplate) (writing : Bool) (sector len : Nat) : Option TransferError :=
  if plate.size ≤ sector then some .outOfBounds
  else if len ≠ sectorSize then some .badBuffer
  else if writing = true ∧ plate.role = .foreign then some .readOnly
  else if plate.sectors ≤ sector then some .outOfBounds
  else none

theorem Nameplate.refusal_eq_none_iff {plate : Nameplate} {writing : Bool} {sector len : Nat} :
    plate.refusal writing sector len = none ↔ sector < plate.size ∧ sector < plate.sectors ∧
      len = sectorSize ∧ (writing = true → plate.role ≠ .foreign) := by
  unfold refusal
  split_ifs with hsize hlen hforeign hsectors
  · simp [Nat.not_lt.2 hsize]
  · simp [hlen]
  · simp [hforeign.1, hforeign.2]
  · simp [Nat.not_lt.2 hsectors]
  · simp only [ne_eq, not_not, not_and] at hlen hforeign
    simpa [Nat.lt_of_not_le hsize, Nat.lt_of_not_le hsectors, hlen] using hforeign

/-- Something that is done to a registry: a device is registered, or a sector read or written. -/
inductive DeviceAct where
  | register (plate : Nameplate)
  | read (dev sector : Nat)
  | write (dev sector : Nat) (data : List UInt8)

namespace DeviceAct

/-- The device that the act registers. -/
def plate? : DeviceAct → Option Nameplate
  | .register plate => some plate
  | _ => none

/-- The number of the device that a transfer is about. -/
def dev? : DeviceAct → Option Nat
  | .register _ => none
  | .read dev _ | .write dev _ _ => some dev

/-- Whether the act reads a sector of device `k`. -/
def reads (k : Nat) : DeviceAct → Bool
  | .read dev _ => dev == k
  | _ => false

/-- Whether the act writes a sector of device `k`. -/
def writes (k : Nat) : DeviceAct → Bool
  | .write dev _ _ => dev == k
  | _ => false

/-- What the act writes to sector `n` of device `k`. -/
def written? (k n : Nat) : DeviceAct → Option (List UInt8)
  | .write dev sector data => if dev = k ∧ sector = n then some data else none
  | _ => none

end DeviceAct

/-- The devices that have been registered, in order. -/
def plates (acts : List DeviceAct) : List Nameplate := acts.filterMap DeviceAct.plate?

/-- How many times device `k` has been read. -/
def readsOf (acts : List DeviceAct) (k : Nat) : Nat := acts.countP (·.reads k)

/-- How many times device `k` has been written. -/
def writesOf (acts : List DeviceAct) (k : Nat) : Nat := acts.countP (·.writes k)

/-- What has been written last to sector `n` of device `k`; zeros if nothing has. -/
def held (acts : List DeviceAct) (k n : Nat) : List UInt8 :=
  (acts.filterMap (·.written? k n)).getLast?.getD (List.replicate sectorSize 0)

/-- The answer of a search for the first device for which `p` holds. -/
def IsFirst (p : Nameplate → Prop) (listed : List Nameplate) : Option Nat → Prop
  | some k => (∃ plate, listed[k]? = some plate ∧ p plate) ∧
      ∀ j < k, ∀ plate, listed[j]? = some plate → ¬ p plate
  | none => ∀ plate ∈ listed, ¬ p plate

theorem isFirst_findIdx? (p : Nameplate → Bool) (listed : List Nameplate) :
    IsFirst (fun plate => p plate = true) listed (listed.findIdx? p) := by
  cases hfind : listed.findIdx? p with
  | none => exact fun plate hplate => by simpa using List.findIdx?_eq_none_iff.1 hfind plate hplate
  | some k =>
    obtain ⟨hk, hp, hbelow⟩ := List.findIdx?_eq_some_iff_getElem.1 hfind
    refine ⟨⟨_, List.getElem?_eq_getElem hk, hp⟩, fun j hj plate hplate => ?_⟩
    obtain ⟨hlt, rfl⟩ := List.getElem?_eq_some_iff.1 hplate
    exact hbelow j hj

section

variable {acts : List DeviceAct} {a : DeviceAct} {k n : Nat}

theorem plates_concat (acts : List DeviceAct) (a : DeviceAct) :
    plates (acts ++ [a]) = plates acts ++ a.plate?.toList := by
  cases h : a.plate? <;> simp [plates, h]

theorem readsOf_concat (acts : List DeviceAct) (a : DeviceAct) (k : Nat) :
    readsOf (acts ++ [a]) k = readsOf acts k + if a.reads k then 1 else 0 := by
  simp [readsOf, List.countP_append, List.countP_cons]

theorem writesOf_concat (acts : List DeviceAct) (a : DeviceAct) (k : Nat) :
    writesOf (acts ++ [a]) k = writesOf acts k + if a.writes k then 1 else 0 := by
  simp [writesOf, List.countP_append, List.countP_cons]

theorem held_concat (acts : List DeviceAct) (a : DeviceAct) (k n : Nat) :
    held (acts ++ [a]) k n = (a.written? k n).getD (held acts k n) := by
  cases h : a.written? k n <;> simp [held, h]

/-- An act on another device leaves nothing to tell of device `k`. -/
theorem apart (h : a.dev? ≠ some k) :
    a.reads k = false ∧ a.writes k = false ∧ ∀ n, a.written? k n = none := by
  cases a with
  | register plate => exact ⟨rfl, rfl, fun n => rfl⟩
  | read dev sector =>
    have hdev : dev ≠ k := fun heq => h (congrArg some heq)
    exact ⟨beq_false_of_ne hdev, rfl, fun n => rfl⟩
  | write dev sector data =>
    have hdev : dev ≠ k := fun heq => h (congrArg some heq)
    exact ⟨rfl, beq_false_of_ne hdev, fun n => if_neg fun hboth => hdev hboth.1⟩

/-- Nothing is told of a device on which nobody has acted. -/
theorem untold (h : ∀ a ∈ acts, a.dev? ≠ some k) :
    readsOf acts k = 0 ∧ writesOf acts k = 0 ∧ ∀ n, held acts k n = List.replicate sectorSize 0 := by
  refine ⟨List.countP_eq_zero.2 fun a ha => by simp [(apart (h a ha)).1],
    List.countP_eq_zero.2 fun a ha => by simp [(apart (h a ha)).2.1], fun n => ?_⟩
  have hnone : acts.filterMap (·.written? k n) = [] :=
    List.filterMap_eq_nil_iff.2 fun a ha => (apart (h a ha)).2.2 n
  rw [held, hnone]
  rfl

end

/-! ### One transfer -/

namespace Device

variable {d : Device}

/-- What the device is registered as. -/
def plate (d : Device) : Nameplate := ⟨d.role, d.name, d.size, d.disk.sectors.size⟩

theorem read_eq (d : Device) (n len : Nat) : d.read n len =
    match d.plate.refusal false n len with
    | some e => .error e
    | none => .ok (d.disk.sectors.getD n (.zero sectorSize), { d with reads := d.reads + 1 }) := by
  by_cases hsize : d.size ≤ n
  · simp [read, check, Nameplate.refusal, plate, hsize, bind, Except.bind]
  by_cases hlen : len = sectorSize
  · rcases Nat.lt_or_ge n d.disk.sectors.size with hn | hn
    · simp [read, check, Nameplate.refusal, plate, hsize, hlen, Disk.read, hn, Nat.not_le.2 hn, bind,
        Except.bind, pure, Except.pure]
    · simp [read, check, Nameplate.refusal, plate, hsize, hlen, Disk.read, hn, bind, Except.bind]
  · simp [read, check, Nameplate.refusal, plate, hsize, hlen, bind, Except.bind]

theorem write_eq (d : Device) (n : Nat) (data : List UInt8) : d.write n data =
    match d.plate.refusal true n data.length with
    | some e => .error e
    | none => .ok { d with
        disk := ⟨d.disk.sectors.setIfInBounds n (.ofList sectorSize data)⟩, writes := d.writes + 1 } := by
  by_cases hsize : d.size ≤ n
  · simp [write, check, Nameplate.refusal, plate, hsize, bind, Except.bind]
  by_cases hlen : data.length = sectorSize
  · have hdata : Bytes.ofList sectorSize data = ⟨data, hlen⟩ := Bytes.ofList_data ⟨data, hlen⟩
    by_cases hrole : d.role = .foreign
    · simp [write, check, Nameplate.refusal, plate, hsize, hlen, hrole, bind, Except.bind, throw,
        throwThe, MonadExceptOf.throw]
    rcases Nat.lt_or_ge n d.disk.sectors.size with hn | hn
    · simp [write, check, Nameplate.refusal, plate, hsize, hlen, hrole, Disk.write, hn, hdata,
        Nat.not_le.2 hn, bind, Except.bind, pure, Except.pure]
    · simp [write, check, Nameplate.refusal, plate, hsize, hlen, hrole, Disk.write, hn,
        Nat.not_lt.2 hn, bind, Except.bind]
  · simp [write, check, Nameplate.refusal, plate, hsize, hlen, bind, Except.bind]

end Device

/-- A sector that is written holds what was written, and the others hold what they held. -/
theorem map_data_setIfInBounds {sectors : Array SectorBytes} {n : Nat} {data : List UInt8}
    (hn : n < sectors.size) (hlen : data.length = sectorSize) (m : Nat) :
    (sectors.setIfInBounds n (.ofList sectorSize data))[m]?.map Bytes.data =
      if m = n then some data else sectors[m]?.map Bytes.data := by
  have hdata : Bytes.ofList sectorSize data = ⟨data, hlen⟩ := Bytes.ofList_data ⟨data, hlen⟩
  rcases eq_or_ne m n with rfl | hm
  · simp [hn, hdata]
  · simp [hm, Ne.symm hm]

namespace Registry

variable {r r' : Registry} {k : Nat} {d : Device}

theorem read_of_device (h : r.device? k = some d) (n len : Nat) :
    r.read k n len = match d.plate.refusal false n len with
      | some e => .error e
      | none => .ok (d.disk.sectors.getD n (.zero sectorSize),
          ⟨r.devices.setIfInBounds k { d with reads := d.reads + 1 }⟩) := by
  rw [device?] at h
  simp only [read, h, Device.read_eq]
  cases d.plate.refusal false n len <;> rfl

theorem write_of_device (h : r.device? k = some d) (n : Nat) (data : List UInt8) :
    r.write k n data = match d.plate.refusal true n data.length with
      | some e => .error e
      | none => .ok ⟨r.devices.setIfInBounds k { d with
          disk := ⟨d.disk.sectors.setIfInBounds n (.ofList sectorSize data)⟩,
          writes := d.writes + 1 }⟩ := by
  rw [device?] at h
  simp only [write, h, Device.write_eq]
  cases d.plate.refusal true n data.length <;> rfl

theorem exists_device_of_read {n len : Nat} {x : SectorBytes × Registry}
    (h : r.read k n len = .ok x) : ∃ d, r.device? k = some d := by
  cases hd : r.devices[k]? with
  | none => simp [read, hd] at h
  | some d => exact ⟨d, hd⟩

theorem exists_device_of_write {n : Nat} {data : List UInt8} (h : r.write k n data = .ok r') :
    ∃ d, r.device? k = some d := by
  cases hd : r.devices[k]? with
  | none => simp [write, hd] at h
  | some d => exact ⟨d, hd⟩

theorem device?_set (h : r.device? k = some d) (d' : Device) (j : Nat) :
    Registry.device? ⟨r.devices.setIfInBounds k d'⟩ j = if k = j then some d' else r.device? j := by
  obtain ⟨hlt, -⟩ := Array.getElem?_eq_some_iff.1 h
  simp only [device?, Array.getElem?_setIfInBounds, hlt, if_true]

/-- How reads and writes of device `k` end, after the acts that the registry has seen: `d` is the device
by then. -/
structure Transfers (r : Registry) (acts : List DeviceAct) (k : Nat) (d : Device) : Prop where
  reads_iff : ∀ n len, (∃ x, r.read k n len = .ok x) ↔
    n < d.size ∧ n < d.disk.sectors.size ∧ len = sectorSize
  refuses_read : ∀ n len e, r.read k n len = .error e ↔ d.plate.refusal false n len = some e
  reads : ∀ n len b r', r.read k n len = .ok (b, r') → b.data = held acts k n ∧
    ∀ j, r'.device? j = if k = j then some { d with reads := d.reads + 1 } else r.device? j
  writes_iff : ∀ n data, (∃ r', r.write k n data = .ok r') ↔
    n < d.size ∧ n < d.disk.sectors.size ∧ data.length = sectorSize ∧ d.role ≠ .foreign
  refuses_write : ∀ n data e, r.write k n data = .error e ↔
    d.plate.refusal true n data.length = some e
  writes : ∀ n data r', r.write k n data = .ok r' → ∃ disk : Disk,
    (∀ j, r'.device? j =
      if k = j then some { d with disk, writes := d.writes + 1 } else r.device? j) ∧
    ∀ m, disk.sectors[m]?.map Bytes.data =
      if m = n then some data else d.disk.sectors[m]?.map Bytes.data

/-- The acts tell what there is in the registry. -/
structure Tells (r : Registry) (acts : List DeviceAct) : Prop where
  plate : ∀ k, (r.device? k).map Device.plate = (plates acts)[k]?
  reads : ∀ k d, r.device? k = some d → d.reads = .ofNat (readsOf acts k)
  writes : ∀ k d, r.device? k = some d → d.writes = .ofNat (writesOf acts k)
  holds : ∀ k d n b, r.device? k = some d → d.disk.sectors[n]? = some b → b.data = held acts k n
  acted : ∀ k, r.device? k = none → ∀ a ∈ acts, a.dev? ≠ some k

variable {acts : List DeviceAct} {a : DeviceAct}

theorem tells_empty : Registry.empty.Tells [] := by
  constructor <;> simp [empty, device?, plates]

theorem Tells.size (h : r.Tells acts) : r.devices.size = (plates acts).length := by
  have hiff : ∀ k, r.devices.size ≤ k ↔ (plates acts).length ≤ k := fun k => by
    rw [← Array.getElem?_eq_none_iff, ← List.getElem?_eq_none_iff, ← h.plate k, Option.map_eq_none_iff]
    rfl
  exact Nat.le_antisymm ((hiff _).2 (Nat.le_refl _)) ((hiff _).1 (Nat.le_refl _))

/-- An act on device `k`, which is `d'` by then, leaves what is told of the others. -/
theorem Tells.update (h : r.Tells acts) {d' : Device}
    (hdevice : ∀ j, r'.device? j = if k = j then some d' else r.device? j)
    (hother : ∀ j, k ≠ j → a.dev? ≠ some j)
    (hplate : ∀ j, (r'.device? j).map Device.plate = (plates (acts ++ [a]))[j]?)
    (hreads : d'.reads = .ofNat (readsOf (acts ++ [a]) k))
    (hwrites : d'.writes = .ofNat (writesOf (acts ++ [a]) k))
    (hholds : ∀ n b, d'.disk.sectors[n]? = some b → b.data = held (acts ++ [a]) k n) :
    r'.Tells (acts ++ [a]) := by
  have hcases : ∀ j e, r'.device? j = some e →
      (k = j ∧ d' = e) ∨ (k ≠ j ∧ r.device? j = some e) := fun j e he => by
    rw [hdevice] at he
    split at he
    · exact .inl ⟨‹k = j›, Option.some.inj he⟩
    · exact .inr ⟨‹k ≠ j›, he⟩
  refine ⟨hplate, fun j e he => ?_, fun j e he => ?_, fun j e n b he hb => ?_, fun j he a' ha => ?_⟩
  · rcases hcases j e he with ⟨rfl, rfl⟩ | ⟨hj, he⟩
    · exact hreads
    · rw [readsOf_concat, (apart (hother j hj)).1, h.reads j e he]
      rfl
  · rcases hcases j e he with ⟨rfl, rfl⟩ | ⟨hj, he⟩
    · exact hwrites
    · rw [writesOf_concat, (apart (hother j hj)).2.1, h.writes j e he]
      rfl
  · rcases hcases j e he with ⟨rfl, rfl⟩ | ⟨hj, he⟩
    · exact hholds n b hb
    · rw [held_concat, (apart (hother j hj)).2.2]
      exact h.holds j e n b he hb
  · rw [hdevice] at he
    split at he
    · simp at he
    · rename_i hj
      rcases List.mem_append.1 ha with ha | ha
      · exact h.acted j he a' ha
      · exact List.mem_singleton.1 ha ▸ hother j hj

/-- A new device has the next number, and nobody has acted on it. -/
theorem Tells.register (h : r.Tells acts) (plate : Nameplate) :
    (r.register plate.role plate.name plate.size (.blank plate.sectors)).Tells
      (acts ++ [.register plate]) := by
  have hdevice : ∀ k, (r.register plate.role plate.name plate.size (.blank plate.sectors)).device? k =
      if r.devices.size = k then
        some ⟨plate.name, plate.role, plate.size, .blank plate.sectors, 0, 0⟩ else r.device? k :=
    fun k => by
      simp only [eq_comm (a := r.devices.size)]
      exact Array.getElem?_push
  obtain ⟨hreads, hwrites, hheld⟩ :=
    untold (h.acted r.devices.size (Array.getElem?_eq_none (Nat.le_refl _)))
  refine h.update hdevice (fun j _ => by simp [DeviceAct.dev?]) (fun k => ?_) ?_ ?_ fun n b hb => ?_
  · rw [hdevice, plates_concat]
    rcases eq_or_ne r.devices.size k with rfl | hk
    · simp [h.size, DeviceAct.plate?, Device.plate, Disk.blank]
    · rw [if_neg hk, h.plate]
      simp only [DeviceAct.plate?, Option.toList]
      rcases Nat.lt_or_ge k (plates acts).length with hlt | hge
      · rw [List.getElem?_append_left hlt]
      · rw [List.getElem?_eq_none hge, List.getElem?_eq_none]
        rw [List.length_append, List.length_singleton]
        have := h.size
        omega
  · rw [readsOf_concat, hreads]
    rfl
  · rw [writesOf_concat, hwrites]
    rfl
  · simp only [Disk.blank, Array.getElem?_replicate] at hb
    split at hb
    · rw [held_concat, ← Option.some.inj hb]
      exact (hheld n).symm
    · simp at hb

/-- A transfer of device `k` that leaves the device as `d'`. -/
theorem Tells.transfer (h : r.Tells acts) (hd : r.device? k = some d) (hk : a.dev? = some k)
    {d' : Device} (hplate : d'.plate = d.plate)
    (hreads : d'.reads = d.reads + if a.reads k then 1 else 0)
    (hwrites : d'.writes = d.writes + if a.writes k then 1 else 0)
    (hholds : ∀ n b, d'.disk.sectors[n]? = some b → b.data = (a.written? k n).getD (held acts k n)) :
    Tells ⟨r.devices.setIfInBounds k d'⟩ (acts ++ [a]) := by
  have hregister : a.plate? = none := by
    cases a with
    | register plate => simp [DeviceAct.dev?] at hk
    | read dev sector => rfl
    | write dev sector data => rfl
  refine h.update (device?_set hd d')
    (fun j hj heq => hj (Option.some.inj (hk.symm.trans heq))) (fun j => ?_) ?_ ?_ fun n b hb => ?_
  · rw [device?_set hd, plates_concat, hregister, Option.toList_none, List.append_nil, ← h.plate]
    split
    · rename_i hj
      rw [← hj, hd, Option.map_some, Option.map_some, hplate]
    · rfl
  · rw [readsOf_concat, hreads, h.reads k d hd, UInt32.ofNat_add]
    split <;> rfl
  · rw [writesOf_concat, hwrites, h.writes k d hd, UInt32.ofNat_add]
    split <;> rfl
  · rw [held_concat]
    exact hholds n b hb

/-- What the acts tell decides how every transfer of a device ends. -/
theorem Tells.transfers (h : r.Tells acts) (hd : r.device? k = some d) : r.Transfers acts k d where
  reads_iff n len := by
    have hok : (∃ x, r.read k n len = .ok x) ↔ d.plate.refusal false n len = none := by
      rw [read_of_device hd]
      cases d.plate.refusal false n len <;> simp
    rw [hok, Nameplate.refusal_eq_none_iff]
    simp [Device.plate]
  refuses_read n len e := by
    rw [read_of_device hd]
    cases d.plate.refusal false n len <;> simp
  reads n len b r' hread := by
    rw [read_of_device hd] at hread
    cases hrefusal : d.plate.refusal false n len with
    | some e => simp [hrefusal] at hread
    | none =>
      have hn : n < d.disk.sectors.size := (Nameplate.refusal_eq_none_iff.1 hrefusal).2.1
      simp only [hrefusal, Except.ok.injEq, Prod.mk.injEq] at hread
      obtain ⟨rfl, rfl⟩ := hread
      refine ⟨h.holds k d n _ hd ?_, device?_set hd _⟩
      rw [Array.getElem?_eq_getElem hn, Array.getD, dif_pos hn]
      rfl
  writes_iff n data := by
    have hok : (∃ r', r.write k n data = .ok r') ↔
        d.plate.refusal true n data.length = none := by
      rw [write_of_device hd]
      cases d.plate.refusal true n data.length <;> simp
    rw [hok, Nameplate.refusal_eq_none_iff]
    simp [Device.plate]
  refuses_write n data e := by
    rw [write_of_device hd]
    cases d.plate.refusal true n data.length <;> simp
  writes n data r' hwrite := by
    rw [write_of_device hd] at hwrite
    cases hrefusal : d.plate.refusal true n data.length with
    | some e => simp [hrefusal] at hwrite
    | none =>
      obtain ⟨-, hn, hlen, -⟩ := Nameplate.refusal_eq_none_iff.1 hrefusal
      simp only [hrefusal, Except.ok.injEq] at hwrite
      subst hwrite
      refine ⟨_, device?_set hd _, fun m => ?_⟩
      exact map_data_setIfInBounds hn hlen m

theorem Tells.map_plate (h : r.Tells acts) : r.devices.toList.map Device.plate = plates acts := by
  refine List.ext_getElem? fun k => ?_
  rw [List.getElem?_map, Array.getElem?_toList]
  exact h.plate k

theorem Tells.byName_eq (h : r.Tells acts) (name : String) :
    r.byName name = (plates acts).findIdx? (·.name == name) := by
  rw [byName, ← h.map_plate, List.findIdx?_map, ← List.findIdx?_toArray]
  rfl

theorem Tells.byRole_eq (h : r.Tells acts) (role : Role) :
    r.byRole role = (plates acts).findIdx? (·.role == role) := by
  rw [byRole, ← h.map_plate, List.findIdx?_map, ← List.findIdx?_toArray]
  rfl

/-! ### Runs -/

/-- A registry and what it comes to by the acts in the list. A transfer that is refused leaves the
registry as it is and is no act. -/
inductive Run (r₀ : Registry) : List DeviceAct → Registry → Prop
  | start : Run r₀ [] r₀
  | register {acts : List DeviceAct} {r : Registry} (reach : Run r₀ acts r) (plate : Nameplate) :
      Run r₀ (acts ++ [.register plate])
        (r.register plate.role plate.name plate.size (.blank plate.sectors))
  | read {acts : List DeviceAct} {r r' : Registry} {k n len : Nat} {b : SectorBytes}
      (reach : Run r₀ acts r) (run : r.read k n len = .ok (b, r')) : Run r₀ (acts ++ [.read k n]) r'
  | write {acts : List DeviceAct} {r r' : Registry} {k n : Nat} {data : List UInt8}
      (reach : Run r₀ acts r) (run : r.write k n data = .ok r') :
      Run r₀ (acts ++ [.write k n data]) r'

/-- What is found in `r`, and under which number, is found in `r'`. -/
structure Persists (r r' : Registry) : Prop where
  device : ∀ k d, r.device? k = some d → ∃ d', r'.device? k = some d' ∧ d'.plate = d.plate
  byName : ∀ name k, r.byName name = some k → r'.byName name = some k
  byRole : ∀ role k, r.byRole role = some k → r'.byRole role = some k

namespace Run

variable {r₀ : Registry} {later : List DeviceAct}

theorem trans (h : Run r₀ acts r) (h' : Run r later r') : Run r₀ (acts ++ later) r' := by
  induction h' with
  | start => simpa using h
  | register _ plate ih => simpa [List.append_assoc] using ih.register plate
  | read _ run ih => simpa [List.append_assoc] using ih.read run
  | write _ run ih => simpa [List.append_assoc] using ih.write run

/-- Along every run, the acts tell what there is. -/
theorem tells (h : Run .empty acts r) : r.Tells acts := by
  induction h with
  | start => exact tells_empty
  | register _ plate ih => exact ih.register plate
  | @read acts r r' k n len b _ run ih =>
    obtain ⟨d, hd⟩ := exists_device_of_read run
    rw [read_of_device hd] at run
    cases hrefusal : d.plate.refusal false n len with
    | some e => simp [hrefusal] at run
    | none =>
      simp only [hrefusal, Except.ok.injEq, Prod.mk.injEq] at run
      obtain ⟨-, rfl⟩ := run
      exact ih.transfer hd rfl rfl (by simp [DeviceAct.reads]) (by simp [DeviceAct.writes])
        fun m b hb => ih.holds k d m b hd hb
  | @write acts r r' k n data _ run ih =>
    obtain ⟨d, hd⟩ := exists_device_of_write run
    rw [write_of_device hd] at run
    cases hrefusal : d.plate.refusal true n data.length with
    | some e => simp [hrefusal] at run
    | none =>
      obtain ⟨-, hn, hlen, -⟩ := Nameplate.refusal_eq_none_iff.1 hrefusal
      simp only [hrefusal, Except.ok.injEq] at run
      subst run
      refine ih.transfer hd rfl (by simp [Device.plate]) (by simp [DeviceAct.reads])
        (by simp [DeviceAct.writes]) fun m b hb => ?_
      have hdata := map_data_setIfInBounds hn hlen m
      rw [hb, Option.map_some] at hdata
      by_cases hm : n = m
      · rw [if_pos hm.symm] at hdata
        simpa [DeviceAct.written?, hm] using hdata
      · rw [if_neg (Ne.symm hm)] at hdata
        obtain ⟨b', hb', hsame⟩ := Option.map_eq_some_iff.1 hdata.symm
        simpa [DeviceAct.written?, hm, ← hsame] using ih.holds k d m b' hd hb'

/-- What has been registered stays, and is found as before. -/
theorem persists (h : Run .empty acts r) (h' : Run r later r') : r.Persists r' := by
  have htells := h.tells
  have hlater := (h.trans h').tells
  have hplates : plates (acts ++ later) = plates acts ++ plates later := List.filterMap_append
  have hfirst : ∀ (p : Nameplate → Bool) (k : Nat), (plates acts).findIdx? p = some k →
      (plates (acts ++ later)).findIdx? p = some k := fun p k hk => by
    rw [hplates, List.findIdx?_append, hk]
    rfl
  refine ⟨fun k d hd => ?_, fun name k hk => ?_, fun role k hk => ?_⟩
  · have hplate := htells.plate k
    rw [hd, Option.map_some] at hplate
    have hkept : (r'.device? k).map Device.plate = some d.plate := by
      rw [hlater.plate, hplates, List.getElem?_append_left, ← hplate]
      exact (List.getElem?_eq_some_iff.1 hplate.symm).1
    exact Option.map_eq_some_iff.1 hkept
  · rw [htells.byName_eq] at hk
    rw [hlater.byName_eq]
    exact hfirst _ k hk
  · rw [htells.byRole_eq] at hk
    rw [hlater.byRole_eq]
    exact hfirst _ k hk

/-- Registered devices are independent arrays of sectors: whatever has been done to a registry, device
`k` is the `k`-th that has been registered, a search finds the first that fits and goes on finding it,
and transfers read and write the sectors of one device each. -/
theorem sector_arrays (h : Run .empty acts r) :
    r.devices.size = (plates acts).length ∧
    (∀ k, (r.device? k).map Device.plate = (plates acts)[k]?) ∧
    (∀ name, IsFirst (fun plate => plate.name = name) (plates acts) (r.byName name)) ∧
    (∀ role, IsFirst (fun plate => plate.role = role) (plates acts) (r.byRole role)) ∧
    (∀ later r', Run r later r' → r.Persists r') ∧
    ∀ k d, r.device? k = some d →
      d.reads.toNat = readsOf acts k % UInt32.size ∧ d.writes.toNat = writesOf acts k % UInt32.size ∧
      (∀ n b, d.disk.sectors[n]? = some b → b.data = held acts k n) ∧ r.Transfers acts k d := by
  have htells := h.tells
  refine ⟨htells.size, htells.plate, fun name => ?_, fun role => ?_, fun later r' => h.persists,
    fun k d hd => ⟨?_, ?_, fun n b => htells.holds k d n b hd, htells.transfers hd⟩⟩
  · simpa [htells.byName_eq] using isFirst_findIdx? (·.name == name) (plates acts)
  · simpa [htells.byRole_eq] using isFirst_findIdx? (·.role == role) (plates acts)
  · rw [htells.reads k d hd, UInt32.toNat_ofNat']
  · rw [htells.writes k d hd, UInt32.toNat_ofNat']

/-- Of two devices of one name, the first is foreign and larger than its disk. The second has been
written to and read. -/
theorem sector_arrays_of_namesakes : ∃ (r : Registry) (acts : List DeviceAct) (d : Device),
    Run .empty acts r ∧ r.byName "hda" = some 0 ∧ r.device? 1 = some d ∧
    d.reads.toNat = 1 ∧ d.writes.toNat = 1 ∧ held acts 1 2 = List.replicate sectorSize 7 ∧
    r.read 0 5 sectorSize = .error .outOfBounds ∧
    r.write 0 1 (List.replicate sectorSize 7) = .error .readOnly ∧ r.Transfers acts 1 d := by
  have hempty : Run .empty [] .empty := .start
  have hstart := (hempty.register ⟨.foreign, "hda", 8, 4⟩).register ⟨.raw, "hda", 3, 6⟩
  obtain ⟨-, -, -, -, hpersists, hdevices⟩ := hstart.sector_arrays
  obtain ⟨-, -, -, htransfers⟩ := hdevices 1 _ rfl
  obtain ⟨r₁, hwrite⟩ := (htransfers.writes_iff 2 (List.replicate sectorSize 7)).2
    ⟨by decide, by decide, by simp, by decide⟩
  obtain ⟨d₁, hd₁, hplate₁⟩ := (hpersists _ r₁ (Run.start.write hwrite)).device 1 _ rfl
  have h₁ := hstart.write hwrite
  obtain ⟨-, -, -, -, -, hdevices₁⟩ := h₁.sector_arrays
  obtain ⟨-, -, -, htransfers₁⟩ := hdevices₁ 1 d₁ hd₁
  simp only [Device.plate, Nameplate.mk.injEq] at hplate₁
  obtain ⟨⟨b, r₂⟩, hread⟩ := (htransfers₁.reads_iff 2 sectorSize).2
    ⟨by rw [hplate₁.2.2.1]; decide, by rw [hplate₁.2.2.2]; decide, rfl⟩
  have h₂ := h₁.read hread
  obtain ⟨-, -, -, -, -, hdevices₂⟩ := h₂.sector_arrays
  have hpersists₂ := hpersists _ r₂ ((Run.start.write hwrite).read hread)
  obtain ⟨d₂, hd₂, -⟩ := hpersists₂.device 1 _ rfl
  obtain ⟨d₀, hd₀, hplate₀⟩ := hpersists₂.device 0 _ rfl
  obtain ⟨hreads, hwrites, -, htransfers₂⟩ := hdevices₂ 1 d₂ hd₂
  obtain ⟨-, -, -, htransfers₀⟩ := hdevices₂ 0 d₀ hd₀
  refine ⟨r₂, _, d₂, h₂, hpersists₂.byName "hda" 0 (by decide +kernel), hd₂, hreads, hwrites, rfl,
    ?_, ?_, htransfers₂⟩
  · rw [htransfers₀.refuses_read, hplate₀]
    decide
  · rw [htransfers₀.refuses_write, hplate₀, List.length_replicate]
    decide

end Run

end Registry

end DemandPaging
