import BootExtractor.Cli.EntryJson
import BootExtractor.Lib.JsonPrint

/-!
# Reading the JSON of the entries

Every raw text is the shortest text of a JSON value, so the glued text is the one of
an object with these values. Decoding it loses nothing.
-/

namespace BootExtractor.Cli

open Boot Fsys Guest Kernel BootExtractor.Part

private theorem jstr_eq (s : Str) : jstr s = Json.print (.str s) := by
  rw [Json.print]
  rfl

private theorem jnull_eq : jnull = Json.print .null := by
  rw [Json.print]
  rfl

private theorem jopt_eq (s : Option Str) : jopt s = Json.print (.opt .str s) := by
  cases s with
  | none => exact jnull_eq
  | some s => exact jstr_eq s

private theorem dec_eq (n : Nat) : Str.dec n = Json.print (.nat n) := by
  rw [Json.nat, Json.print, if_pos rfl, List.append_nil, Json.int, if_neg (by omega),
    Int.natAbs_natCast]

private theorem jsize_eq (n : Option Nat) : jsize n = Json.print (.opt .nat n) := by
  cases n with
  | none => exact jnull_eq
  | some n => exact dec_eq n

private theorem jbool_eq (b : Bool) : jbool b = Json.print (.bool b) := by
  rw [Json.print]
  rfl

private theorem opt_map_eq {α : Type} {f : α → Str} {g : α → Json} (h : ∀ a, f a = Json.print (g a))
    (o : Option α) : (o.map f).getD jnull = Json.print (.opt g o) := by
  cases o with
  | none => exact jnull_eq
  | some a => exact h a

/-- Printed items between commas are the items of a printed array. -/
private theorem join_print (items : List Json) :
    Str.join ",".toList (items.map Json.print) = Json.printItems items := by
  induction items with
  | nil =>
    rw [Json.printItems]
    rfl
  | cons v rest ih =>
    cases rest with
    | nil =>
      rw [Json.printItems]
      simp [Str.join]
    | cons w rest =>
      rw [List.map_cons, List.map_cons, Str.join_cons_cons, ← List.map_cons, ih, Json.printItems]
      simp

/-- An array is glued together from the texts of its items. -/
theorem brackets_print (items : List Json) :
    brackets (items.map Json.print) = Json.print (.arr items) := by
  rw [brackets, join_print, Json.print]

/-- A name without characters to escape. -/
def Plain (name : Str) : Prop := name.flatMap Json.escape = name

/-- Printed fields between commas are the fields of a printed object. -/
private theorem join_fields {fields : List (Str × Json)} (h : ∀ f ∈ fields, Plain f.1) :
    Str.join ",".toList (fields.map fun f => '"' :: f.1 ++ "\":".toList ++ Json.print f.2) =
      Json.printFields fields := by
  induction fields with
  | nil =>
    rw [Json.printFields]
    rfl
  | cons f rest ih =>
    obtain ⟨k, v⟩ := f
    have hk : Json.quote k = '"' :: k ++ ['"'] := by
      have hplain : Plain k := h (k, v) List.mem_cons_self
      rw [Json.quote, hplain]
    have hrest := ih fun f hf => h f (List.mem_cons_of_mem _ hf)
    cases rest with
    | nil =>
      rw [Json.printFields, hk]
      simp [Str.join]
    | cons g rest =>
      rw [List.map_cons] at hrest
      rw [List.map_cons, List.map_cons, Str.join_cons_cons, hrest, Json.printFields, hk]
      simp

/-- An object is glued together from its names and the texts of its values. -/
theorem braces_print {fields : List (Str × Json)} (h : ∀ f ∈ fields, Plain f.1) :
    braces (fields.map fun f => (f.1, Json.print f.2)) = Json.print (.obj fields) := by
  rw [braces, Json.print, List.map_map, ← join_fields h]
  rfl

section Items

variable (c : Codecs) (i : Item) (quick : Bool)

/-- The sizes of the ramdisks; none where a size is not known. -/
def Item.initrdSizes : List (Option Nat) :=
  i.entry.initrd.map fun path =>
    (i.probed quick).bind fun fs => (fs.fileSize path).toOption

/-- What is emitted for an entry, field by field. -/
def Item.fields : List (Str × Json) := [
  ("partition".toList, .nat i.part),
  ("default".toList, .bool i.isDefault),
  ("type".toList, .str i.entry.kind.display),
  ("source".toList, .str i.entry.source.display),
  ("title".toList, .opt .str i.entry.title),
  ("version".toList, .opt .str i.entry.version),
  ("id".toList, .opt .str i.entry.id),
  ("kernel".toList, .opt .str (i.entry.kernel.map (uri i.part))),
  ("kernel_size".toList, .opt .nat ((i.probed quick).bind fun fs =>
    i.entry.kernel.bind fun k => (fs.fileSize k).toOption)),
  ("initrd".toList, .arr (i.entry.initrd.map fun path => .str (uri i.part path))),
  ("initrd_size".toList, .arr ((i.initrdSizes quick).map (.opt .nat))),
  ("cmdline".toList, .opt .str i.entry.cmdline),
  ("cmdline_fixed".toList, .opt .str i.fixed),
  ("dma_restricted_pool".toList, .opt .bool i.dma),
  ("kernel_compression".toList, .opt .str ((i.probed quick).bind fun fs =>
    (kernelCompression c fs i.entry).map (·.label))),
  ("firmware".toList, .opt .str (i.entry.windows.map (·.firmware.display))),
  ("arch".toList, .opt .str (i.entry.windows.bind (·.arch))),
  ("loader".toList, .opt .str (i.entry.windows.bind (·.loader)))]

/-- The names of the fields, in order. -/
def fieldNames : List Str := [
  "partition".toList, "default".toList, "type".toList, "source".toList, "title".toList,
  "version".toList, "id".toList, "kernel".toList, "kernel_size".toList, "initrd".toList,
  "initrd_size".toList, "cmdline".toList, "cmdline_fixed".toList, "dma_restricted_pool".toList,
  "kernel_compression".toList, "firmware".toList, "arch".toList, "loader".toList]

private theorem fields_names : (i.fields c quick).map Prod.fst = fieldNames := rfl

private theorem nodup_fieldNames : fieldNames.Nodup := by decide +kernel

private theorem plain_fieldNames : ∀ name ∈ fieldNames, Plain name := by
  have h : (fieldNames.all fun name => name.flatMap Json.escape == name) = true := by
    decide +kernel
  intro name hname
  exact eq_of_beq (List.all_eq_true.mp h name hname)

private theorem kernelSize_eq :
    i.kernelSize quick = Json.print (.opt .nat ((i.probed quick).bind fun fs =>
    i.entry.kernel.bind fun k => (fs.fileSize k).toOption)) := by
  unfold Item.kernelSize
  cases i.probed quick with
  | none => exact jnull_eq
  | some fs => exact jsize_eq _

private theorem initrdSize_eq :
    i.initrdSize quick = ((i.initrdSizes quick).map (Json.opt .nat)).map Json.print := by
  unfold Item.initrdSize Item.initrdSizes
  rw [List.map_map, List.map_map]
  cases i.probed quick with
  | none =>
    apply List.map_congr_left
    intro path _
    exact jnull_eq
  | some fs =>
    apply List.map_congr_left
    intro path _
    exact jsize_eq _

private theorem compression_eq :
    i.compression c quick = Json.print (.opt .str ((i.probed quick).bind fun fs =>
    (kernelCompression c fs i.entry).map (·.label))) := by
  unfold Item.compression
  cases i.probed quick with
  | none => exact jnull_eq
  | some fs =>
    simp only [Option.bind_some]
    cases kernelCompression c fs i.entry with
    | none => exact jnull_eq
    | some w => exact jstr_eq _

private theorem windows_eq : i.windows =
    (Json.print (.opt .str (i.entry.windows.map (·.firmware.display))),
      Json.print (.opt .str (i.entry.windows.bind (·.arch))),
      Json.print (.opt .str (i.entry.windows.bind (·.loader)))) := by
  unfold Item.windows
  cases i.entry.windows with
  | none =>
    simp only [jnull_eq]
    rfl
  | some w =>
    simp only [jstr_eq, jopt_eq]
    rfl

private theorem kernel_eq : (i.entry.kernel.map fun k => jstr (uri i.part k)).getD jnull =
    Json.print (.opt .str (i.entry.kernel.map (uri i.part))) := by
  cases i.entry.kernel with
  | none => exact jnull_eq
  | some k => exact jstr_eq _

private theorem initrd_eq : (i.entry.initrd.map fun path => jstr (uri i.part path)) =
    (i.entry.initrd.map fun path => Json.str (uri i.part path)).map Json.print := by
  rw [List.map_map]
  apply List.map_congr_left
  intro path _
  exact jstr_eq _

/-- The text of an entry is the text of the object with its fields. -/
theorem entryJson_eq : entryJson c i quick = Json.print (.obj (i.fields c quick)) := by
  have hplain : ∀ f ∈ i.fields c quick, Plain f.1 := by
    intro f hf
    apply plain_fieldNames
    rw [← fields_names c i quick]
    exact List.mem_map_of_mem hf
  rw [← braces_print hplain, entryJson, kernel_eq, kernelSize_eq, initrd_eq, initrdSize_eq,
    compression_eq, windows_eq, opt_map_eq jbool_eq, brackets_print, brackets_print]
  simp only [dec_eq, jbool_eq, jstr_eq, jopt_eq]
  rfl

end Items

/-- The printed line of a list of entries is read as the array of their objects. -/
theorem parse_entriesLine (c : Codecs) (quick : Bool) (items : List Item) :
    Json.parse (entriesLine c quick items) =
      some (.arr (items.map fun i => .obj (i.fields c quick))) := by
  have htexts : (items.map fun i => entryJson c i quick) =
      (items.map fun i => Json.obj (i.fields c quick)).map Json.print := by
    rw [List.map_map]
    apply List.map_congr_left
    intro i _
    exact entryJson_eq c i quick
  rw [entriesLine, htexts, brackets_print, Json.parse_print_line]

/-- What `boot-info` emits. -/
def bootInfoFields (c : Codecs) (part : Nat) (e : BootEntry) (fixed : Option Str)
    (configs : List Str) (fs : Option FileSystem) : List (Str × Json) := [
  ("entry".toList, .obj (Item.fields c
    ⟨part, true, e, fixed, fs, fs.bind fun fs => dmaRestrictedPool fs e⟩ false)),
  ("configs".toList, .arr (configs.map fun path => .str (uri part path)))]

/-- The text of `boot-info` reads back as its fields. -/
theorem parse_bootInfoJson (c : Codecs) (part : Nat) (e : BootEntry) (fixed : Option Str)
    (configs : List Str) (fs : Option FileSystem) :
    Json.parse (bootInfoJson c part e fixed configs fs ++ ['\n']) =
      some (.obj (bootInfoFields c part e fixed configs fs)) := by
  have hplain : ∀ f ∈ bootInfoFields c part e fixed configs fs, Plain f.1 := by
    intro f hf
    rcases List.mem_pair.mp hf with rfl | rfl <;> rfl
  have hconfigs : (configs.map fun path => jstr (uri part path)) =
      (configs.map fun path => Json.str (uri part path)).map Json.print := by
    rw [List.map_map]
    apply List.map_congr_left
    intro path _
    exact jstr_eq _
  have htext : bootInfoJson c part e fixed configs fs =
      Json.print (.obj (bootInfoFields c part e fixed configs fs)) := by
    simp only [← braces_print hplain, bootInfoJson, entryJson_eq, hconfigs, brackets_print]
    rfl
  rw [htext, Json.parse_print_line]

/-- The entries of a partition with their numbers, whichever of them is the default. -/
def listed (pb : PartitionBoot) (i : Nat) (entries : List BootEntry) :
    List (Nat × Bool × BootEntry) :=
  (entries.zipIdx i).map fun (e, i) => (pb.partition.index, some i == pb.scan.default, e)

/-- What the listing fixes of an entry: its place, whether it is the default, and itself. -/
def Item.listed (i : Item) : Nat × Bool × BootEntry := (i.part, i.isDefault, i.entry)

/-- The items of a partition are its listed entries. -/
private theorem partItems_listed {table : PartitionTable} {pb : PartitionBoot} {cache : DmaCache}
    {i : Nat}
    {entries : List BootEntry} {items : List Item}
    (h : partItems table pb cache i entries = .ok items) :
    items.map Item.listed = listed pb i entries := by
  induction entries generalizing cache i items with
  | nil =>
    cases h
    rfl
  | cons e rest ih =>
    obtain ⟨fixed, _, h⟩ := Effect.bind_eq_ok_iff.mp h
    obtain ⟨more, hmore, h⟩ := Effect.bind_eq_ok_iff.mp h
    cases h
    rw [List.map_cons, ih hmore]
    rfl

/-- The items are the listed entries of every partition. -/
private theorem allItems_listed {table : PartitionTable} {parts : List PartitionBoot}
    {items : List Item}
    (h : allItems table parts = .ok items) :
    items.map Item.listed = parts.flatMap fun pb => listed pb 0 pb.scan.entries := by
  induction parts generalizing items with
  | nil =>
    cases h
    rfl
  | cons pb rest ih =>
    obtain ⟨first, hfirst, h⟩ := Effect.bind_eq_ok_iff.mp h
    obtain ⟨more, hmore, h⟩ := Effect.bind_eq_ok_iff.mp h
    cases h
    rw [List.map_append, partItems_listed hfirst, ih hmore, List.flatMap_cons]

/-- The JSON that the commands print is lossless. Decoding the line of a list of entries gives
an array with one object for each entry, in order, whose fields are the emitted values under
distinct names, with as many ramdisk sizes as ramdisks; `boot-info` prints such an entry with
its configs; and `entries` prints the line of all entries of all partitions. -/
theorem entries_json_lossless (c : Codecs) :
    (∀ quick items, Json.parse (entriesLine c quick items) =
      some (.arr (items.map fun i => .obj (i.fields c quick)))) ∧
    (∀ quick i, ((Item.fields c i quick).map Prod.fst).Nodup ∧ ∃ uris sizes,
      ("initrd".toList, .arr uris) ∈ i.fields c quick ∧
        ("initrd_size".toList, .arr sizes) ∈ i.fields c quick ∧ uris.length = sizes.length) ∧
    (∀ part e fixed configs fs, Json.parse (bootInfoJson c part e fixed configs fs ++ ['\n']) =
      some (.obj (bootInfoFields c part e fixed configs fs))) ∧
    ∀ readers disk quick text, cmdEntriesJson readers c disk quick = .ok text →
      ∃ parts items, bootable readers disk = .ok parts ∧ text = entriesLine c quick items ∧
        items.map Item.listed = parts.flatMap fun pb => listed pb 0 pb.scan.entries := by
  refine ⟨parse_entriesLine c, ?_, parse_bootInfoJson c, ?_⟩
  · intro quick i
    constructor
    · rw [fields_names]
      exact nodup_fieldNames
    · refine ⟨i.entry.initrd.map fun path => .str (uri i.part path),
        (i.initrdSizes quick).map (.opt .nat), ?_, ?_, ?_⟩
      · exact List.mem_of_getElem? (i := 9) rfl
      · exact List.mem_of_getElem? (i := 10) rfl
      · rw [List.length_map, List.length_map, Item.initrdSizes, List.length_map]
  · intro readers disk quick text h
    obtain ⟨table, _, h⟩ := Effect.bind_eq_ok_iff.mp h
    obtain ⟨parts, hparts, h⟩ := Effect.bind_eq_ok_iff.mp h
    obtain ⟨items, hitems, h⟩ := Effect.bind_eq_ok_iff.mp h
    cases h
    exact ⟨parts, items, hparts, rfl, allItems_listed hitems⟩

end BootExtractor.Cli
