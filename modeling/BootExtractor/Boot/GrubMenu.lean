import BootExtractor.Boot.Grub

/-!
# Menus

A menu as a configurator writes it to a grub.cfg: entries, submenus of entries, and a
default that names one of them by position, id or title. The text of a menu may be
indented in any way and have comments and blank lines anywhere.
-/

namespace BootExtractor.Boot.Grub

/-- A title or an id. -/
structure IsName (s : Str) : Prop where
  ne_nil : s ≠ []
  trimmed : Str.trim s = s
  oneLine : '\n' ∉ s
  noIndex : Str.parseUsize s = none
  clean : ∀ c ∈ s, c ≠ '\'' ∧ c ≠ '"' ∧ c ≠ '$' ∧ c ≠ '>'

/-- An argument of a command. -/
structure IsWord (s : Str) : Prop where
  ne_nil : s ≠ []
  clean : ∀ c ∈ s, Str.isWhitespace c = false ∧ c ≠ '\'' ∧ c ≠ '"' ∧ c ≠ '$' ∧ c ≠ '\x7b'

/-- An absolute path as an argument. -/
structure IsPath (s : Str) : Prop extends IsWord s where
  absolute : Str.startsWith s "/".toList

instance : DecidablePred IsName := fun s =>
  decidable_of_iff
    (s ≠ [] ∧ Str.trim s = s ∧ '\n' ∉ s ∧ Str.parseUsize s = none ∧
      s.all (fun c => decide (c ≠ '\'' ∧ c ≠ '"' ∧ c ≠ '$' ∧ c ≠ '>')) = true)
    ⟨fun ⟨hne, htrim, hline, hindex, hclean⟩ =>
      ⟨hne, htrim, hline, hindex, Str.forall_of_all hclean⟩,
    fun h => ⟨h.ne_nil, h.trimmed, h.oneLine, h.noIndex,
      List.all_eq_true.mpr fun c hc => decide_eq_true (h.clean c hc)⟩⟩

instance : DecidablePred IsWord := fun s =>
  decidable_of_iff
    (s ≠ [] ∧ s.all (fun c => decide (Str.isWhitespace c = false ∧ c ≠ '\'' ∧ c ≠ '"' ∧ c ≠ '$' ∧
      c ≠ '\x7b')) = true)
    ⟨fun ⟨hne, hclean⟩ => ⟨hne, Str.forall_of_all hclean⟩,
    fun h => ⟨h.ne_nil, List.all_eq_true.mpr fun c hc => decide_eq_true (h.clean c hc)⟩⟩

instance : DecidablePred IsPath := fun s =>
  decidable_of_iff (IsWord s ∧ Str.startsWith s "/".toList)
    ⟨fun ⟨hword, habs⟩ => ⟨hword, habs⟩, fun h => ⟨h.toIsWord, h.absolute⟩⟩

/-- A title or an id. -/
abbrev Name := { s : Str // IsName s }

/-- A word of a command line. -/
abbrev Word := { s : Str // IsWord s }

/-- A path of a file. -/
abbrev Path := { s : Str // IsPath s }

/-- A menu entry that boots a kernel. -/
structure MenuEntry where
  title : Name
  id : Name
  kernel : Path
  args : List Word
  initrd : List Path

/-- An item of the top level. A submenu has a first child. -/
inductive Item where
  | entry (e : MenuEntry)
  | submenu (title id : Name) (first : MenuEntry) (rest : List MenuEntry)

/-- The items of a menu in their order. -/
abbrev Menu := List Item

section Meaning

/-- The entry that a scan reports. -/
def MenuEntry.parsed (e : MenuEntry) : BootEntry where
  title := some e.title.val
  id := some e.id.val
  kernel := some e.kernel.val
  initrd := e.initrd.map Subtype.val
  cmdline := if e.args = [] then none else some (Str.join " ".toList (e.args.map Subtype.val))
  source := .grub

/-- What an entry is called. -/
def MenuEntry.names (e : MenuEntry) : List Str := [e.title.val, e.id.val]

/-- The entry has this name. -/
def MenuEntry.Named (e : MenuEntry) (n : Name) : Prop := n.val ∈ e.names

/-- The entries of an item. -/
def Item.entries : Item → List MenuEntry
  | .entry e => [e]
  | .submenu _ _ first rest => first :: rest

/-- The place of an entry inside its submenu. -/
def Item.place : Item → Nat → Option Nat
  | .entry _, _ => none
  | .submenu .., j => some j

/-- The title and the id of the item itself. -/
def Item.own : Item → List Str
  | .entry e => e.names
  | .submenu title id _ _ => [title.val, id.val]

/-- The item has this name. -/
def Item.Named (item : Item) (n : Name) : Prop := n.val ∈ item.own

/-- All titles and ids in an item. -/
def Item.names : Item → List Str
  | .entry e => e.names
  | .submenu title id first rest =>
    [title.val, id.val] ++ (first :: rest).flatMap MenuEntry.names

/-- All titles and ids are different. -/
def Distinct (menu : Menu) : Prop := (menu.flatMap Item.names).Nodup

/-- The entries of a menu, in order. -/
def entries (menu : Menu) : List MenuEntry := menu.flatMap Item.entries

/-- The position of the first entry of an item. -/
def offset (menu : Menu) (k : Nat) : Nat := (entries (menu.take k)).length

/-- A component of a default. -/
inductive Component where
  | index (i : Nat) (h : i < 2 ^ 64)
  | name (n : Name)

/-- A default: an item or an entry, or an item and a child of it. -/
inductive Spec where
  | item (c : Component)
  | path (head child : Component)

/-- The items of the top level that a component stands for. -/
inductive Heads (menu : Menu) : Component → Nat → Prop where
  | index {k : Nat} {h : k < 2 ^ 64} (hk : k < menu.length) : Heads menu (.index k h) k
  | name {n : Name} {k : Nat} {item : Item} (hitem : menu[k]? = some item) (hn : item.Named n) :
      Heads menu (.name n) k

/-- The children of an item that a component stands for; only a submenu has children. -/
inductive Item.IsChild (item : Item) : Component → Nat → Prop where
  | index {j : Nat} {h : j < 2 ^ 64} {e : MenuEntry} (he : item.entries[j]? = some e)
      (hplace : item.place j = some j) : item.IsChild (.index j h) j
  | name {n : Name} {j : Nat} {e : MenuEntry} (he : item.entries[j]? = some e)
      (hplace : item.place j = some j) (hn : e.Named n) : item.IsChild (.name n) j

/-- The entry that a default stands for, by its position among all entries. -/
inductive Chosen (menu : Menu) : Spec → Nat → Prop where
  /-- An item by its position, or the first child of a submenu. -/
  | top {k : Nat} {h : k < 2 ^ 64} (hk : k < menu.length) :
      Chosen menu (.item (.index k h)) (offset menu k)
  /-- An entry at any level. -/
  | named {n : Name} {p : Nat} {e : MenuEntry} (he : (entries menu)[p]? = some e)
      (hn : e.Named n) : Chosen menu (.item (.name n)) p
  /-- The first child of a submenu. -/
  | submenu {n : Name} {k : Nat} {item : Item} (hitem : menu[k]? = some item)
      (hn : item.Named n) : Chosen menu (.item (.name n)) (offset menu k)
  | child {head c : Component} {k j : Nat} {item : Item} (hhead : Heads menu head k)
      (hitem : menu[k]? = some item) (hchild : item.IsChild c j) :
      Chosen menu (.path head c) (offset menu k + j)
  /-- Without such a child, the item as a whole. -/
  | whole {head c : Component} {k : Nat} {item : Item} (hhead : Heads menu head k)
      (hitem : menu[k]? = some item) (hchild : ∀ j, ¬item.IsChild c j) :
      Chosen menu (.path head c) (offset menu k)
  /-- Below an item that is not there, an entry of the name of the child. -/
  | stale {n m : Name} {p : Nat} {e : MenuEntry} (hhead : ∀ k, ¬Heads menu (.name n) k)
      (he : (entries menu)[p]? = some e) (hm : e.Named m) :
      Chosen menu (.path (.name n) (.name m)) p
  /-- A default that stands for nothing is the first entry. -/
  | outside {k : Nat} {h : k < 2 ^ 64} (hk : menu.length ≤ k) :
      Chosen menu (.item (.index k h)) 0
  | unknown {n : Name} (he : ∀ e ∈ entries menu, ¬e.Named n)
      (hhead : ∀ k, ¬Heads menu (.name n) k) : Chosen menu (.item (.name n)) 0
  | outsidePath {k : Nat} {h : k < 2 ^ 64} {c : Component} (hk : menu.length ≤ k) :
      Chosen menu (.path (.index k h) c) 0
  | lost {n : Name} {c : Component} (hhead : ∀ k, ¬Heads menu (.name n) k)
      (hc : ∀ m, c = .name m → ∀ e ∈ entries menu, ¬e.Named m) :
      Chosen menu (.path (.name n) c) 0

end Meaning

section Text

/-- The text of a component. -/
def Component.text : Component → Str
  | .index i _ => Str.dec i
  | .name n => n.val

/-- The text of a default. -/
def Spec.text : Spec → Str
  | .item c => c.text
  | .path head child => head.text ++ '>' :: child.text

/-- A text in single quotes. -/
def quoted (s : Str) : Str := '\'' :: s ++ ['\'']

/-- The tokens of the line that opens a block. -/
def blockRow (kw : Str) (title id : Name) : List Str :=
  [kw, quoted title.val, "$menuentry_id_option".toList, quoted id.val, "\x7b".toList]

/-- The lines in the body of an entry. -/
def MenuEntry.body (e : MenuEntry) : List (List Str) :=
  ("linux".toList :: e.kernel.val :: e.args.map Subtype.val) ::
    if e.initrd = [] then [] else ["initrd".toList :: e.initrd.map Subtype.val]

/-- The rows of an entry, word by word. -/
def MenuEntry.rows (e : MenuEntry) : List (List Str) :=
  blockRow "menuentry".toList e.title e.id :: e.body ++ [["\x7d".toList]]

/-- The rows of an item, word by word. -/
def Item.rows : Item → List (List Str)
  | .entry e => e.rows
  | .submenu title id first rest =>
    blockRow "submenu".toList title id :: (first :: rest).flatMap MenuEntry.rows ++
      [["\x7d".toList]]

/-- The tokens of the line that sets the default. -/
def defaultRow (spec : Spec) : List Str :=
  ["set".toList, "default=\"".toList ++ spec.text ++ ['"']]

/-- The rows of a config: its default and its items. -/
def menuRows (spec : Spec) (menu : Menu) : List (List Str) :=
  defaultRow spec :: menu.flatMap Item.rows

/-- Blanks inside of one line. -/
def IsBlank (s : Str) : Prop := ∀ c ∈ s, Str.isWhitespace c = true ∧ c ≠ '\n'

/-- A line of tokens with blanks between them. -/
inductive Spaced : List Str → Str → Prop where
  | last (text : Str) : Spaced [text] text
  | cons {text gap line : Str} {texts : List Str} (hne : gap ≠ []) (hgap : IsBlank gap)
      (h : Spaced texts line) : Spaced (text :: texts) (text ++ (gap ++ line))

/-- Lines with indentation, and with blank lines and comments between them. -/
inductive Laid : List (List Str) → List Str → Prop where
  | nil : Laid [] []
  | blank {indent : Str} {rows : List (List Str)} {ls : List Str} (hindent : IsBlank indent)
      (h : Laid rows ls) : Laid rows (indent :: ls)
  | comment {indent rest : Str} {rows : List (List Str)} {ls : List Str}
      (hindent : IsBlank indent) (hrest : '\n' ∉ rest) (h : Laid rows ls) :
      Laid rows ((indent ++ '#' :: rest) :: ls)
  | line {indent line trail : Str} {row : List Str} {rows : List (List Str)} {ls : List Str}
      (hindent : IsBlank indent) (htrail : IsBlank trail) (hline : Spaced row line)
      (h : Laid rows ls) : Laid (row :: rows) ((indent ++ line ++ trail) :: ls)

/-- The text is the menu in some layout. -/
def Renders (spec : Spec) (menu : Menu) (text : Str) : Prop :=
  ∃ ls, Laid (menuRows spec menu) ls ∧ text = ls.flatMap (· ++ ['\n'])

end Text

end BootExtractor.Boot.Grub
