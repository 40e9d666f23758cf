import Mathlib.Data.List.Forall2
import BootExtractor.Lib.Hex
import BootExtractor.Part.Geometry

/-!
# What a GPT describes

The slots of a table and a disk that carries them. The scanner finds every slot in use,
in order, under the number of its slot; the texts of different GUIDs differ.
-/

namespace BootExtractor.Part.Gpt

open Bytes

/-- A GUID as it is stored. -/
abbrev Guid := { g : Bytes // g.length = 16 }

/-- The name of a slot: code units without a terminator. -/
structure Name where
  units : List Nat
  length_le : units.length ≤ 36
  unit : ∀ u ∈ units, u ≠ 0 ∧ u < 2 ^ 16

/-- What a slot holds. -/
structure Slot where
  typeGuid : Guid
  uniqueGuid : Guid
  first : Nat
  last : Nat
  name : Name
  first_lt : first < 2 ^ 54
  last_lt : last < 2 ^ 54

section Meaning

/-- All bytes are zero. -/
def Guid.isZero (g : Guid) : Bool := g.val.all (· == 0)

/-- The canonical text: three numbers stored least significant byte first, and two stored
the other way. -/
def Guid.text (g : Guid) : Str :=
  Str.hex 8 (le (slice g.val 0 4)) ++ '-' :: Str.hex 4 (le (slice g.val 4 2)) ++
    '-' :: Str.hex 4 (le (slice g.val 6 2)) ++ '-' :: Str.hex 4 (be (slice g.val 8 2)) ++
    '-' :: Str.hex 12 (be (slice g.val 10 6))

/-- The slot has a type and a range that is not empty. -/
def Slot.inUse (s : Slot) : Bool := !s.typeGuid.isZero && decide (s.first ≤ s.last)

/-- The slots in use, with their numbers. -/
def inUse (slots : List (Option Slot)) : List (Nat × Slot) :=
  slots.zipIdx.filterMap fun (slot, i) => (slot.filter Slot.inUse).map fun s => (i, s)

/-- The partition is what a slot holds. -/
structure Slot.IsPartition (s : Slot) (i : Nat) (p : Partition) : Prop where
  index : p.index = i + 1
  start : p.startByte = 512 * s.first
  size : p.sizeBytes = 512 * (s.last - s.first + 1)
  typeId : p.typeId = s.typeGuid.text
  partUuid : p.partUuid = if s.uniqueGuid.isZero then none else some s.uniqueGuid.text
  name : p.name = if s.name.units = [] then none else some (Utf16.fromLossy s.name.units)
  /-- A name that is a text is that text. -/
  text : ∀ text, text ≠ [] → s.name.units = Utf16.encode text → p.name = some text

/-- The entry holds the slot. Behind a name there is a terminator if there is room for one. -/
structure Slot.At (s : Slot) (e : Bytes) : Prop where
  typeGuid : Bytes.At e 0 s.typeGuid.val
  uniqueGuid : Bytes.At e 16 s.uniqueGuid.val
  first : Bytes.At e 32 (toLe 8 s.first)
  last : Bytes.At e 40 (toLe 8 s.last)
  name : Bytes.At e 56 (s.name.units.flatMap (toLe 2))
  terminator : s.name.units.length < 36 → Bytes.At e (56 + 2 * s.name.units.length) [0, 0]

/-- The entry is that of the slot; an empty slot has no type. -/
def Holds (e : Bytes) : Option Slot → Prop
  | none => Bytes.At e 0 (List.replicate 16 0)
  | some s => s.At e

/-- The disk carries a header at the second sector and a table of the slots. -/
structure Carries (disk : Device) (lba size : Nat) (slots : List (Option Slot)) : Prop where
  size_ge : 128 ≤ size
  size_le : size ≤ 4096
  count_le : slots.length ≤ 4096
  header : ∃ header, disk.readAt sector 92 = .ok header ∧ Bytes.At header 0 signature ∧
    Bytes.At header 72 (toLe 8 lba) ∧ Bytes.At header 80 (toLe 4 slots.length) ∧
    Bytes.At header 84 (toLe 4 size)
  inRange : lba * sector + slots.length * size ≤ disk.size
  table : ∃ table, disk.readAt (lba * sector) (slots.length * size) = .ok table ∧
    ∀ i slot, slots[i]? = some slot → Holds (entry table size i) slot

end Meaning

section Guids

private theorem hexBytes_append (a b : Bytes) : hexBytes (a ++ b) = hexBytes a ++ hexBytes b :=
  List.flatMap_append

/-- Bytes in two-digit hexadecimal are the number they store, most significant byte first. -/
theorem hexBytes_reverse {b : Bytes} (h : b ≠ []) :
    hexBytes b.reverse = Str.hex (2 * b.length) (le b) := by
  induction b with
  | nil => exact absurd rfl h
  | cons x rest ih =>
    by_cases hrest : rest = []
    · subst hrest
      simp [hexBytes, le]
    · have hpos := List.length_pos_iff.mpr hrest
      have hx : x.toNat < 256 := UInt8.toNat_lt x
      rw [List.reverse_cons, hexBytes_append, ih hrest, List.length_cons, Nat.mul_succ, le,
        Str.hex_byte (by omega) _ hx]
      simp [hexBytes]

private theorem hexBytes_be {b : Bytes} (h : b ≠ []) :
    hexBytes b = Str.hex (2 * b.length) (be b) := by
  have hrev := hexBytes_reverse (b := b.reverse) (by simpa using h)
  rwa [List.reverse_reverse, List.length_reverse] at hrev

/-- A slice of a GUID is as long as asked. -/
theorem Guid.length_slice (g : Guid) {off len : Nat} (h : off + len ≤ 16) :
    (slice g.val off len).length = len :=
  length_slice_of_le (by rw [g.property]; exact h)

/-- A slice of a GUID is not empty. -/
theorem Guid.slice_ne_nil (g : Guid) (off len : Nat) (h : off + len ≤ 16) (hlen : 0 < len) :
    slice g.val off len ≠ [] :=
  List.ne_nil_of_length_pos (by rw [g.length_slice h]; exact hlen)

private theorem formatGuid_eq_text (g : Guid) : formatGuid g.val = g.text := by
  have h1 := hexBytes_reverse (g.slice_ne_nil 0 4 (by decide) (by decide))
  have h2 := hexBytes_reverse (g.slice_ne_nil 4 2 (by decide) (by decide))
  have h3 := hexBytes_reverse (g.slice_ne_nil 6 2 (by decide) (by decide))
  have h4 := hexBytes_be (g.slice_ne_nil 8 2 (by decide) (by decide))
  have h5 := hexBytes_be (g.slice_ne_nil 10 6 (by decide) (by decide))
  rw [g.length_slice (by decide)] at h1 h2 h3 h4 h5
  rw [formatGuid, h1, h2, h3, h4, h5, Guid.text]

private theorem hex_byte_length (x : UInt8) : (Str.hex 2 x.toNat).length = 2 := by
  have hx : x.toNat < 256 := UInt8.toNat_lt x
  generalize x.toNat = n at hx
  revert n
  decide +kernel

private theorem hex_byte_inj {x y : UInt8} (h : Str.hex 2 x.toNat = Str.hex 2 y.toNat) : x = y := by
  have hread : ∀ n < 256, ((Str.hex 2 n).mapM Str.hexDigit?).map Str.hexValue = some n := by
    decide +kernel
  have hx := hread x.toNat (UInt8.toNat_lt x)
  rw [h, hread y.toNat (UInt8.toNat_lt y)] at hx
  exact (UInt8.toNat_inj.mp (Option.some.inj hx)).symm

private theorem length_hexBytes (b : Bytes) : (hexBytes b).length = 2 * b.length := by
  induction b with
  | nil => rfl
  | cons x rest ih =>
    rw [hexBytes, List.flatMap_cons, List.length_append, hex_byte_length, List.length_cons]
    change 2 + (hexBytes rest).length = _
    omega

/-- Hex texts of the same length come from the same bytes. -/
private theorem hexBytes_inj {a b : Bytes} (hlen : a.length = b.length)
    (h : hexBytes a = hexBytes b) :
    a = b := by
  induction a generalizing b with
  | nil => exact (List.eq_nil_of_length_eq_zero hlen.symm).symm
  | cons x a ih =>
    cases b with
    | nil => cases hlen
    | cons y b =>
      obtain ⟨hbyte, hrest⟩ := List.append_inj h (by rw [hex_byte_length, hex_byte_length])
      rw [hex_byte_inj hbyte, ih (Nat.succ.inj hlen) hrest]

/-- A GUID is its five fields. -/
theorem Guid.ext_slices {g h : Guid} (h1 : slice g.val 0 4 = slice h.val 0 4)
    (h2 : slice g.val 4 2 = slice h.val 4 2) (h3 : slice g.val 6 2 = slice h.val 6 2)
    (h4 : slice g.val 8 2 = slice h.val 8 2) (h5 : slice g.val 10 6 = slice h.val 10 6) :
    g = h := by
  have hfields : ∀ g : Guid, g.val = slice g.val 0 4 ++ slice g.val 4 2 ++ slice g.val 6 2 ++
      slice g.val 8 2 ++ slice g.val 10 6 := by
    intro g
    have hall : slice g.val 0 (4 + 2 + 2 + 2 + 6) = g.val :=
      List.take_of_length_le (Nat.le_of_eq g.property)
    rw [slice_add, slice_add, slice_add, slice_add] at hall
    exact hall.symm
  apply Subtype.ext
  rw [hfields g, hfields h, h1, h2, h3, h4, h5]

/-- Different GUIDs have different texts. -/
theorem formatGuid_injective : Function.Injective fun g : Guid => formatGuid g.val := by
  intro g h heq
  have hfield : ∀ {off len : Nat}, off + len ≤ 16 →
      (slice g.val off len).length = (slice h.val off len).length := fun hle => by
    rw [g.length_slice hle, h.length_slice hle]
  have hlen : ∀ {off len : Nat}, off + len ≤ 16 →
      (hexBytes (slice g.val off len).reverse).length =
        (hexBytes (slice h.val off len).reverse).length := fun hle => by
    simp only [length_hexBytes, List.length_reverse, hfield hle]
  have hlen' : ∀ {off len : Nat}, off + len ≤ 16 →
      (hexBytes (slice g.val off len)).length = (hexBytes (slice h.val off len)).length :=
    fun hle => by simp only [length_hexBytes, hfield hle]
  have hrev : ∀ {off len : Nat}, off + len ≤ 16 →
      hexBytes (slice g.val off len).reverse = hexBytes (slice h.val off len).reverse →
      slice g.val off len = slice h.val off len := fun hle he =>
    List.reverse_injective
      (hexBytes_inj (by rw [List.length_reverse, List.length_reverse, hfield hle]) he)
  simp only [formatGuid, List.append_assoc, List.cons_append] at heq
  obtain ⟨h1, heq⟩ := List.append_inj heq (hlen (by decide))
  obtain ⟨h2, heq⟩ := List.append_inj (List.cons.inj heq).2 (hlen (by decide))
  obtain ⟨h3, heq⟩ := List.append_inj (List.cons.inj heq).2 (hlen (by decide))
  obtain ⟨h4, heq⟩ := List.append_inj (List.cons.inj heq).2 (hlen' (by decide))
  have h5 := (List.cons.inj heq).2
  exact Guid.ext_slices (hrev (by decide) h1) (hrev (by decide) h2) (hrev (by decide) h3)
    (hexBytes_inj (hfield (by decide)) h4) (hexBytes_inj (hfield (by decide)) h5)

end Guids

section Entries

variable {e : Bytes} {s : Slot}

/-- The name's units are stored one by one. -/
theorem Slot.At.slice_name (h : s.At e) {i : Nat} (hi : i < s.name.units.length) :
    slice e (56 + 2 * i) 2 = toLe 2 s.name.units[i] := by
  have hlen : (s.name.units.flatMap (toLe 2)).length = s.name.units.length * 2 :=
    length_flatMap_const (length_toLe 2) _
  have hname := h.name.slice
  rw [hlen] at hname
  have hpart := slice_flatMap (f := toLe 2) (length_toLe 2) hi
  rw [← hname, slice_slice (by omega), Nat.mul_comm i 2] at hpart
  exact hpart

/-- The units up to the terminator are the name. -/
theorem nameUnits_of_at (h : s.At e) : nameUnits e = s.name.units := by
  have hsplit : List.range 36 =
      List.range s.name.units.length ++
        (List.range (36 - s.name.units.length)).map (s.name.units.length + ·) := by
    rw [← List.range_add, Nat.add_sub_cancel' s.name.length_le]
  have hunits : (List.range s.name.units.length).map (fun i => le (slice e (56 + 2 * i) 2)) =
      s.name.units := by
    refine List.ext_getElem (by simp) fun i hi hi' => ?_
    rw [List.getElem_map, List.getElem_range, h.slice_name hi']
    exact le_toLe (s.name.unit _ (List.getElem_mem hi')).2
  have hne : ∀ u ∈ s.name.units, decide (u ≠ 0) = true := fun u hu =>
    decide_eq_true (s.name.unit u hu).1
  rw [nameUnits, hsplit, List.map_append, hunits, List.takeWhile_append_of_pos hne]
  -- behind the name is the terminator, or the end of the field
  by_cases hfull : s.name.units.length < 36
  · have hzero : le (slice e (56 + 2 * s.name.units.length) 2) = 0 := by
      have hterm : slice e (56 + 2 * s.name.units.length) 2 = [0, 0] := (h.terminator hfull).slice
      rw [hterm]
      rfl
    obtain ⟨k, hk⟩ : ∃ k, 36 - s.name.units.length = k + 1 := ⟨35 - s.name.units.length, by omega⟩
    rw [hk, List.range_succ_eq_map, List.map_cons, List.map_cons, Nat.add_zero, hzero,
      List.takeWhile_cons_of_neg (by decide), List.append_nil]
  · have hk : 36 - s.name.units.length = 0 := by omega
    rw [hk]
    simp

/-- Both GUIDs are stored as they are. -/
theorem Slot.At.slice_guids (h : s.At e) :
    slice e 0 16 = s.typeGuid.val ∧ slice e 16 16 = s.uniqueGuid.val := by
  have htype := h.typeGuid.slice
  have hunique := h.uniqueGuid.slice
  rw [s.typeGuid.property] at htype
  rw [s.uniqueGuid.property] at hunique
  exact ⟨htype, hunique⟩

/-- The first and last block are read back. -/
theorem Slot.At.numbers (h : s.At e) : le64 e 32 = s.first ∧ le64 e 40 = s.last := by
  have hfirst : slice e 32 8 = toLe 8 s.first := h.first.slice
  have hlast : slice e 40 8 = toLe 8 s.last := h.last.slice
  have hf := s.first_lt
  have hl := s.last_lt
  rw [le64, le64, hfirst, hlast, le_toLe (by omega), le_toLe (by omega)]
  exact ⟨rfl, rfl⟩

/-- A slot in use is a partition. -/
theorem partitionOf_inUse (h : s.At e) (huse : s.inUse = true) (i : Nat) :
    ∃ p, partitionOf e i = some p ∧ s.IsPartition i p := by
  obtain ⟨htype, hunique⟩ := h.slice_guids
  obtain ⟨hfirst, hlast⟩ := h.numbers
  simp only [Slot.inUse, Guid.isZero, Bool.and_eq_true, Bool.not_eq_true', decide_eq_true_eq]
    at huse
  obtain ⟨hzero, hrange⟩ := huse
  have hf := s.first_lt
  have hl := s.last_lt
  have hsector : sector = 512 := rfl
  have hstart : wrappingMul s.first sector = 512 * s.first := by
    rw [wrappingMul_eq (by rw [hsector]; omega), hsector, Nat.mul_comm]
  have hsize : wrappingMul (wrappingAdd (s.last - s.first) 1) sector =
      512 * (s.last - s.first + 1) := by
    rw [wrappingAdd_eq (by omega), wrappingMul_eq (by rw [hsector]; omega), hsector, Nat.mul_comm]
  have hpart : ∃ p, partitionOf e i = some p ∧ p.index = i + 1 ∧
      p.startByte = wrappingMul s.first sector ∧
      p.sizeBytes = wrappingMul (wrappingAdd (s.last - s.first) 1) sector ∧
      p.typeId = formatGuid s.typeGuid.val ∧
      p.partUuid = (if s.uniqueGuid.isZero then none else some (formatGuid s.uniqueGuid.val)) ∧
      p.name = if s.name.units = [] then none else some (Utf16.fromLossy s.name.units) := by
    simp only [partitionOf, htype, hunique, hfirst, hlast, hzero, nameUnits_of_at h,
      if_neg (Nat.not_lt.mpr hrange), Bool.false_eq_true, if_false]
    exact ⟨_, rfl, rfl, rfl, rfl, rfl, rfl, rfl⟩
  obtain ⟨p, hp, hindex, hps, hpz, hpt, hpu, hpn⟩ := hpart
  rw [hstart] at hps
  rw [hsize] at hpz
  rw [formatGuid_eq_text] at hpt hpu
  refine ⟨p, hp, hindex, hps, hpz, hpt, hpu, hpn, ?_⟩
  intro text hne htext
  rw [hpn, htext, if_neg (Utf16.encode_ne_nil hne), Utf16.fromLossy_encode]

/-- Another slot is none. -/
theorem partitionOf_not_inUse {slot : Option Slot} (h : Holds e slot)
    (huse : slot.filter Slot.inUse = none) (i : Nat) : partitionOf e i = none := by
  by_contra hsome
  obtain ⟨p, hp⟩ := Option.ne_none_iff_exists'.mp hsome
  obtain ⟨htype, hrange⟩ := partitionOf_eq_some_iff.mp ⟨p, hp⟩
  cases slot with
  | none =>
    have hzero : slice e 0 16 = List.replicate 16 0 := At.slice h
    rw [hzero] at htype
    revert htype
    decide
  | some s =>
    obtain ⟨hguid, -⟩ := Slot.At.slice_guids h
    obtain ⟨hfirst, hlast⟩ := Slot.At.numbers h
    rw [first, last, hfirst, hlast] at hrange
    rw [hguid] at htype
    have huse' : s.inUse = true := by
      simp only [Slot.inUse, Guid.isZero, htype, Bool.not_false, Bool.true_and, decide_eq_true_eq]
      exact hrange
    rw [Option.filter_some, if_pos huse'] at huse
    cases huse

end Entries

section Scan

variable {disk : Device} {lba size : Nat} {slots : List (Option Slot)}

/-- A disk that carries a table reads as one. -/
theorem Carries.reads (h : Carries disk lba size slots) (hlarge : 2 * sector + 92 ≤ disk.size) :
    ∃ table, Reads disk lba slots.length size table ∧
      ∀ i slot, slots[i]? = some slot → Holds (entry table size i) slot := by
  obtain ⟨header, hread, hsig, hlba, hcount, hsize⟩ := h.header
  obtain ⟨table, htable, hholds⟩ := h.table
  have hle := h.size_le
  have hn := h.count_le
  have hdisk := disk.size_lt
  have hrange := h.inRange
  have hsector : sector = 512 := rfl
  have hmul : lba * sector < 2 ^ 64 := by omega
  refine ⟨table, ⟨⟨hlarge, ⟨header, hread, hsig.slice, ?_, ?_, ?_⟩, h.size_ge, hle, hn⟩, ?_⟩,
    hholds⟩
  · have hat : slice header 72 8 = toLe 8 lba := hlba.slice
    rw [le64, hat, le_toLe]
    rw [hsector] at hmul
    omega
  · have hat : slice header 80 4 = toLe 4 slots.length := hcount.slice
    rw [le32, hat, le_toLe]
    omega
  · have hat : slice header 84 4 = toLe 4 size := hsize.slice
    rw [le32, hat, le_toLe]
    omega
  · rw [wrappingMul_eq hmul, htable]

/-- Two ways to fill a list from the same places agree if they agree at every place. -/
theorem forall₂_filterMap {α β γ : Type} {r : β → γ → Prop} {f : α → Option β} {g : α → Option γ}
    {xs : List α} (h : ∀ x ∈ xs, Option.Rel r (f x) (g x)) :
    List.Forall₂ r (xs.filterMap f) (xs.filterMap g) := by
  induction xs with
  | nil => exact .nil
  | cons x xs ih =>
    have hrest := ih fun y hy => h y (List.mem_cons_of_mem _ hy)
    have hx := h x List.mem_cons_self
    rw [List.filterMap_cons, List.filterMap_cons]
    revert hx
    cases f x <;> cases g x <;> rintro (_ | _)
    · exact hrest
    · rename_i hr
      exact .cons hr hrest

private theorem inUse_eq (slots : List (Option Slot)) :
    inUse slots = (List.range slots.length).filterMap fun i =>
      (slots[i]?.join.filter Slot.inUse).map fun s => (i, s) := by
  rw [inUse, Mbr.zipIdx_eq_map_range, List.filterMap_map]
  refine List.filterMap_congr fun i hi => ?_
  have hlt := List.mem_range.mp hi
  simp only [Function.comp_apply, List.getElem?_eq_getElem hlt, Option.join_some]
  rw [getElem!_pos slots i hlt]

/-- The scanner lists the slots in use, in order and with their numbers. No table lists none. -/
def Lists (disk : Device) (slots : List (Option Slot)) : Prop :=
  ∃ found, scan disk = .ok found ∧
    List.Forall₂ (fun slot p => slot.2.IsPartition slot.1 p) (inUse slots)
      ((found.map (·.partitions)).getD [])

/-- On a disk that is as long as the scanner asks for, a table is found and its slots are. -/
theorem lists_of_large (h : Carries disk lba size slots) (hlarge : 2 * sector + 92 ≤ disk.size) :
    ∃ table, scan disk = .ok (some table) ∧
      List.Forall₂ (fun slot p => slot.2.IsPartition slot.1 p) (inUse slots) table.partitions := by
  obtain ⟨table, hreads, hholds⟩ := h.reads hlarge
  refine ⟨_, scan_eq_some_iff.mpr ⟨_, _, _, _, hreads, rfl⟩, ?_⟩
  rw [inUse_eq]
  refine forall₂_filterMap fun i hi => ?_
  have hlt := List.mem_range.mp hi
  have hslot := hholds i slots[i] (List.getElem?_eq_getElem hlt)
  simp only [List.getElem?_eq_getElem hlt, Option.join_some]
  cases huse : slots[i].filter Slot.inUse with
  | none =>
    rw [partitionOf_not_inUse hslot huse]
    exact .none
  | some s =>
    obtain ⟨heq, hs⟩ := Option.filter_eq_some_iff.mp huse
    rw [heq] at hslot
    obtain ⟨p, hp, hpart⟩ := partitionOf_inUse hslot hs i
    rw [hp]
    exact .some hpart

/-- A shorter disk is not looked at. -/
theorem scan_of_small (hsmall : disk.size < 2 * sector + 92) : scan disk = .ok none := by
  rw [scan, if_pos hsmall]

/-- The scanner finds the slots in use, in order and with their numbers, exactly if the disk
has the bytes it asks for or there is nothing to find. It asks for a sector more than it
reads, so a table in front of the header can lie on a disk that is too short for it. -/
theorem scan_slots_iff (h : Carries disk lba size slots) :
    (Lists disk slots ↔ 2 * sector + 92 ≤ disk.size ∨ inUse slots = []) ∧
      (2 * sector + 92 ≤ disk.size → ∃ table, scan disk = .ok (some table)) ∧
      Function.Injective fun g : Guid => formatGuid g.val := by
  refine ⟨⟨?_, ?_⟩, ?_, formatGuid_injective⟩
  · rintro ⟨found, hfound, hlisted⟩
    by_cases hlarge : 2 * sector + 92 ≤ disk.size
    · exact Or.inl hlarge
    · rw [scan_of_small (Nat.not_le.mp hlarge)] at hfound
      cases hfound
      exact Or.inr (List.forall₂_nil_right_iff.mp hlisted)
  · intro hcond
    by_cases hlarge : 2 * sector + 92 ≤ disk.size
    · obtain ⟨table, hscan, hlisted⟩ := lists_of_large h hlarge
      exact ⟨some table, hscan, hlisted⟩
    · refine ⟨none, scan_of_small (Nat.not_le.mp hlarge), ?_⟩
      rw [hcond.resolve_left hlarge]
      exact .nil
  · intro hlarge
    obtain ⟨table, hscan, -⟩ := lists_of_large h hlarge
    exact ⟨table, hscan⟩

/-- A slot with the root file system of a guest. -/
def rootSlot : Slot where
  typeGuid := ⟨[0xaf, 0x3d, 0xc6, 0x0f, 0x83, 0x84, 0x72, 0x47, 0x8e, 0x79, 0x3d, 0x69, 0xd8, 0x47,
    0x7d, 0xe4], by decide⟩
  uniqueGuid := ⟨List.replicate 15 0 ++ [7], by decide⟩
  first := 2048
  last := 4095
  name := ⟨[0x72, 0x6f, 0x6f, 0x74], by decide, by decide⟩
  first_lt := by decide
  last_lt := by decide

/-- The same with a range that ends before it begins. -/
def backwardSlot : Slot := { rootSlot with last := 2047, last_lt := by decide }

/-- The entry of a slot in a table with entries of `size` bytes. -/
def encode (size : Nat) : Option Slot → Bytes
  | none => List.replicate size 0
  | some s =>
    let e := s.typeGuid.val ++ s.uniqueGuid.val ++ toLe 8 s.first ++ toLe 8 s.last ++
      List.replicate 8 0 ++ s.name.units.flatMap (toLe 2)
    e ++ List.replicate (size - e.length) 0

/-- A header of 92 bytes. -/
def header (lba count size : Nat) : Bytes :=
  signature ++ List.replicate 64 0 ++ toLe 8 lba ++ toLe 4 count ++ toLe 4 size ++
    List.replicate 4 0

/-- An empty slot, a slot in use, one that is not, and one in use again. -/
def fourSlots : List (Option Slot) := [none, some rootSlot, some backwardSlot, some rootSlot]

/-- A disk with four slots of 136 bytes behind the header. -/
def fourSlotDisk : Disk where
  content := List.replicate 512 0 ++ header 2 4 136 ++ List.replicate 420 0 ++
    fourSlots.flatMap (encode 136)
  length_lt := by decide +kernel

private theorem fourSlotDisk_length : fourSlotDisk.content.length = 1568 := by decide +kernel

/-- That disk carries the four slots. -/
private theorem fourSlotDisk_carries : Carries fourSlotDisk.device 2 136 fourSlots where
  size_ge := by decide
  size_le := by decide
  count_le := by decide
  header := ⟨slice fourSlotDisk.content 512 92,
    Disk.readAt_of_le (by rw [fourSlotDisk_length]; decide), by decide +kernel⟩
  inRange := by decide +kernel
  table := by
    refine ⟨slice fourSlotDisk.content 1024 544,
      Disk.readAt_of_le (by rw [fourSlotDisk_length]; decide), ?_⟩
    intro i slot hslot
    match i, hslot with
    | 0, hslot =>
      obtain rfl := Option.some.inj hslot
      change Bytes.At _ 0 (List.replicate 16 0)
      decide +kernel
    | 1, hslot =>
      obtain rfl := Option.some.inj hslot
      exact ⟨by decide +kernel, by decide +kernel, by decide +kernel, by decide +kernel,
        by decide +kernel, fun _ => by decide +kernel⟩
    | 2, hslot =>
      obtain rfl := Option.some.inj hslot
      exact ⟨by decide +kernel, by decide +kernel, by decide +kernel, by decide +kernel,
        by decide +kernel, fun _ => by decide +kernel⟩
    | 3, hslot =>
      obtain rfl := Option.some.inj hslot
      exact ⟨by decide +kernel, by decide +kernel, by decide +kernel, by decide +kernel,
        by decide +kernel, fun _ => by decide +kernel⟩

/-- The second and the last slot are found under their numbers. -/
theorem scan_fourSlotDisk : inUse fourSlots = [(1, rootSlot), (3, rootSlot)] ∧
    (Lists fourSlotDisk.device fourSlots ↔
      2 * sector + 92 ≤ fourSlotDisk.device.size ∨ inUse fourSlots = []) ∧
    (2 * sector + 92 ≤ fourSlotDisk.device.size →
      ∃ table, scan fourSlotDisk.device = .ok (some table)) ∧
    Function.Injective fun g : Guid => formatGuid g.val :=
  ⟨rfl, scan_slots_iff fourSlotDisk_carries⟩

/-- A disk that ends with the header, and a slot in use in front of it. -/
def shortDisk : Disk where
  content := encode 128 (some rootSlot) ++ List.replicate 384 0 ++ header 0 1 128
  length_lt := by decide +kernel

private theorem shortDisk_length : shortDisk.content.length = 604 := by decide +kernel

/-- The disk carries a slot in use, and no table is found on it. -/
theorem scan_shortDisk : Carries shortDisk.device 0 128 [some rootSlot] ∧
    inUse [some rootSlot] = [(0, rootSlot)] ∧ scan shortDisk.device = .ok none ∧
    ¬Lists shortDisk.device [some rootSlot] := by
  have hsmall : shortDisk.device.size < 2 * sector + 92 := by
    change shortDisk.content.length < _
    rw [shortDisk_length]
    decide
  refine ⟨?_, rfl, scan_of_small hsmall, ?_⟩
  · refine ⟨by decide, by decide, by decide, ⟨slice shortDisk.content 512 92,
      Disk.readAt_of_le (by rw [shortDisk_length]; decide), by decide +kernel⟩,
      by decide +kernel, ⟨slice shortDisk.content 0 128,
        Disk.readAt_of_le (by rw [shortDisk_length]; decide), ?_⟩⟩
    intro i slot hslot
    match i, hslot with
    | 0, hslot =>
      obtain rfl := Option.some.inj hslot
      exact ⟨by decide +kernel, by decide +kernel, by decide +kernel, by decide +kernel,
        by decide +kernel, fun _ => by decide +kernel⟩
  · rintro ⟨found, hfound, hlisted⟩
    rw [scan_of_small hsmall] at hfound
    cases hfound
    cases hlisted

end Scan

end BootExtractor.Part.Gpt
