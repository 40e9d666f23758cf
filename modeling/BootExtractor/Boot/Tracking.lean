import BootExtractor.Boot.Scan

/-!
# The default through a scan

Every source yields a valid default, so no part of a keep mask is out of range, and
filtering moves the default as a pointer into a filtered list moves. What a scan
returns is decided by the authoritative source alone.
-/

namespace BootExtractor.Boot

open Renumber

/-- An index that was found is in range. -/
theorem findIdx?_lt {α : Type} {p : α → Bool} {xs : List α} {i : Nat}
    (h : xs.findIdx? p = some i) : i < xs.length :=
  (List.findIdx?_eq_some_iff_findIdx_eq.mp h).1

/-- A result that is kept was a success. -/
theorem ok_of_toOption {ε α : Type} {x : Except ε α} {a : α} (h : x.toOption = some a) :
    x = .ok a := by
  cases x with
  | error e => cases h
  | ok b => exact congrArg Except.ok (Option.some.inj h)

namespace Grub

variable {entries : List RawEntry} {submenus : List RawSubmenu}

private theorem flat_lt {name : Str} {i : Nat} (h : flat entries name = some i) :
    i < entries.length := by
  rcases Option.or_eq_some_iff.mp h with h | ⟨_, h⟩
  · exact findIdx?_lt h
  · exact findIdx?_lt h

private theorem firstOfTop_lt {top i : Nat} (h : firstOfTop entries top = some i) :
    i < entries.length := by
  rcases Option.or_eq_some_iff.mp h with h | ⟨_, h⟩
  · exact findIdx?_lt h
  · exact findIdx?_lt h

private theorem resolveChild_lt {top i : Nat} {child : Str}
    (h : resolveChild entries top child = some i) : i < entries.length := by
  unfold resolveChild at h
  split at h
  · exact findIdx?_lt h
  · exact findIdx?_lt h

/-- A single name leads to an entry. -/
private theorem resolveSingle_lt {head : Str} {i : Nat}
    (h : resolveSingle entries submenus head = some i) : i < entries.length := by
  unfold resolveSingle at h
  split at h
  · exact firstOfTop_lt h
  · rcases Option.or_eq_some_iff.mp h with h | ⟨_, h⟩
    · exact flat_lt h
    · obtain ⟨s, _, hs⟩ := Option.bind_eq_some_iff.mp h
      exact firstOfTop_lt hs

/-- A path of names leads to an entry. -/
private theorem resolvePath_lt {comps : List Str} {i : Nat}
    (h : resolvePath entries submenus comps = some i) : i < entries.length := by
  match comps, h with
  | [head], h => exact resolveSingle_lt h
  | head :: child :: more, h =>
    rw [resolvePath] at h
    split at h
    · exact flat_lt h
    · rcases Option.or_eq_some_iff.mp h with h | ⟨_, h⟩
      · exact resolveChild_lt h
      · exact firstOfTop_lt h

/-- Whatever the spec, the default is an entry if there is one. -/
theorem points_resolveDefault (entries : List RawEntry) (submenus : List RawSubmenu)
    (spec : Str) : Points entries.length (resolveDefault entries submenus spec) := by
  unfold resolveDefault
  cases entries with
  | nil => rfl
  | cons e rest =>
    simp only [List.isEmpty_cons, Bool.false_eq_true, if_false]
    cases hres : resolvePath (e :: rest) submenus
        ((Str.split '>' (if spec = [] then "0".toList else spec)).map Str.trim) with
    | none => exact Nat.zero_lt_succ _
    | some i => exact resolvePath_lt hres

/-- A GRUB default points into its entries. -/
private theorem parseStr_valid (text : Str) (env : Env) :
    Found.Valid ((parseStr text env).entries, (parseStr text env).default) := by
  simp only [Found.Valid, parseStr, List.length_map]
  exact points_resolveDefault _ _ _

private theorem parse_valid {fs : FileSystem} {path : Str} {env : Env} {g : GrubScan}
    (h : parse fs path env = .ok g) : Found.Valid (g.entries, g.default) := by
  unfold parse at h
  cases hread : fs.readFile path with
  | error e =>
    rw [hread] at h
    cases h
  | ok data =>
    rw [hread] at h
    cases h
    exact parseStr_valid _ _

end Grub

namespace Bls

private theorem findDefault_lt {env : Env} {sdDefault : Option Str} {items : List Item} {i : Nat}
    (h : findDefault env sdDefault items = some i) : i < items.length := by
  rcases Option.or_eq_some_iff.mp h with h | ⟨_, h⟩
  · exact findIdx?_lt h
  · obtain ⟨pat, _, hp⟩ := Option.bind_eq_some_iff.mp h
    exact findIdx?_lt hp

/-- A BLS default points into its entries. -/
private theorem parseDir_valid {fs : FileSystem} {dir : Str} {env : Env} {sd : Option Str}
    {r : BlsScan × List Str} (h : parseDir fs dir env sd = .ok r) :
    Found.Valid (r.1.entries, r.1.default) := by
  unfold parseDir at h
  cases hread : fs.readDir dir with
  | error e =>
    rw [hread] at h
    cases h
  | ok listing =>
    rw [hread] at h
    cases h
    apply points_orFirst
    intro i hi
    rw [List.length_map]
    exact findDefault_lt hi

end Bls

namespace Extlinux

/-- An extlinux default points into its entries. -/
private theorem parseStr_valid (text baseDir : Str) :
    Found.Valid ((parseStr text baseDir).entries, (parseStr text baseDir).default) := by
  apply points_orFirst
  intro i hi
  obtain ⟨d, _, hd⟩ := Option.bind_eq_some_iff.mp hi
  exact findIdx?_lt hd

private theorem parse_valid {fs : FileSystem} {path : Str} {e : ExtlinuxScan}
    (h : parse fs path = .ok e) : Found.Valid (e.entries, e.default) := by
  unfold parse at h
  cases hread : fs.readFile path with
  | error err =>
    rw [hread] at h
    cases h
  | ok data =>
    rw [hread] at h
    cases h
    exact parseStr_valid _ _

end Extlinux

private theorem fallbackScan_valid (fs : FileSystem) : (fallbackScan fs).Valid := by
  apply points_orFirst
  intro i hi
  obtain ⟨link, _, hlink⟩ := List.exists_of_findSome?_eq_some hi
  obtain ⟨target, _, htarget⟩ := Option.bind_eq_some_iff.mp hlink
  exact findIdx?_lt htarget

section Sources

variable {fs : FileSystem}

/-- A GRUB result comes from a config that parsed. -/
theorem exists_of_mem_grubScans {g : Grub.GrubScan} (h : g ∈ grubScans fs) :
    ∃ path, Grub.parse fs path (Grubenv.load fs) = .ok g := by
  obtain ⟨path, _, hpath⟩ := List.mem_filterMap.mp h
  exact ⟨path, ok_of_toOption hpath⟩

/-- A BLS result comes from a directory that parsed. -/
theorem exists_of_mem_blsScans {b : Bls.BlsScan × List Str} (h : b ∈ blsScans fs) :
    ∃ dir, Bls.parseDir fs dir (Grubenv.load fs) (loaderConfDefault fs).1 = .ok b := by
  obtain ⟨dir, _, hdir⟩ := List.mem_filterMap.mp h
  exact ⟨dir, ok_of_toOption hdir⟩

/-- An extlinux result comes from a config that parsed. -/
theorem exists_of_mem_extlinuxScans {e : Extlinux.ExtlinuxScan} (h : e ∈ extlinuxScans fs) :
    ∃ path, Extlinux.parse fs path = .ok e := by
  obtain ⟨path, _, hpath⟩ := List.mem_filterMap.mp h
  exact ⟨path, ok_of_toOption hpath⟩

private theorem valid_of_grub {g : Grub.GrubScan} (h : (consult fs).grub = some g) :
    Found.Valid (g.entries, g.default) := by
  obtain ⟨path, hpath⟩ := exists_of_mem_grubScans (List.mem_of_find?_eq_some h)
  exact Grub.parse_valid hpath

private theorem valid_of_bls {b : Bls.BlsScan} (h : (consult fs).bls = some b) :
    Found.Valid (b.entries, b.default) := by
  obtain ⟨r, hr, rfl⟩ := Option.map_eq_some_iff.mp h
  obtain ⟨dir, hdir⟩ := exists_of_mem_blsScans (List.mem_of_find?_eq_some hr)
  exact Bls.parseDir_valid hdir

private theorem valid_of_extlinux {e : Extlinux.ExtlinuxScan} (h : (consult fs).extlinux = some e) :
    Found.Valid (e.entries, e.default) := by
  obtain ⟨path, hpath⟩ := exists_of_mem_extlinuxScans (List.mem_of_find?_eq_some h)
  exact Extlinux.parse_valid hpath

/-- Where the entries of the authoritative source come from. -/
theorem choose_cases (fs : FileSystem) :
    (∃ g, (consult fs).grub = some g ∧ choose fs (consult fs) = (g.entries, g.default)) ∨
    (∃ b, (consult fs).bls = some b ∧ choose fs (consult fs) = (b.entries, b.default)) ∨
    (∃ e, (consult fs).extlinux = some e ∧ choose fs (consult fs) = (e.entries, e.default)) ∨
    choose fs (consult fs) = fallbackScan fs := by
  unfold choose
  split
  · rename_i b hb
    split at hb
    · exact Or.inr (Or.inl ⟨b, hb, rfl⟩)
    · cases hb
  · split
    · rename_i g hg
      exact Or.inl ⟨g, hg, rfl⟩
    · split
      · rename_i b hb
        exact Or.inr (Or.inl ⟨b, hb, rfl⟩)
      · split
        · rename_i e he
          exact Or.inr (Or.inr (Or.inl ⟨e, he, rfl⟩))
        · exact Or.inr (Or.inr (Or.inr rfl))

/-- The authoritative source has a valid default. -/
theorem choose_valid (fs : FileSystem) : (choose fs (consult fs)).Valid := by
  rcases choose_cases fs with ⟨g, hg, h⟩ | ⟨b, hb, h⟩ | ⟨e, he, h⟩ | h
  · rw [h]
    exact valid_of_grub hg
  · rw [h]
    exact valid_of_bls hb
  · rw [h]
    exact valid_of_extlinux he
  · rw [h]
    exact fallbackScan_valid fs

end Sources

section Retain

variable {f : BootEntry → Option BootEntry}

/-- A mask made by a partial function keeps what the function gives. -/
theorem kept_map (f : BootEntry → Option BootEntry) (entries : List BootEntry) :
    kept (entries.map fun e => (f e).getD e) (entries.map fun e => (f e).isSome) =
      entries.filterMap f := by
  induction entries with
  | nil => rfl
  | cons e rest ih =>
    have hrest : kept (rest.map fun e => (f e).getD e) (rest.map fun e => (f e).isSome) =
        rest.filterMap f := ih
    cases hf : f e with
    | none =>
      rw [List.filterMap_cons, hf]
      simpa [kept, hf] using hrest
    | some e' =>
      rw [List.filterMap_cons, hf]
      simpa [kept, hf] using hrest

/-- Counting the marks in front of the default is its rank. -/
theorem countP_mask (f : BootEntry → Option BootEntry) (entries : List BootEntry) (d : Nat) :
    ((entries.map fun e => (f e).isSome).take d).countP id = rank f entries d := by
  rw [rank, ← List.map_take]
  induction entries.take d with
  | nil => rfl
  | cons e rest ih =>
    cases hf : f e with
    | none => simpa [hf] using ih
    | some e' => simpa [hf] using ih

/-- With a valid default nothing is out of range, and `retain` renumbers. -/
theorem retain_eq (f : BootEntry → Option BootEntry) {found : Found} (h : found.Valid) :
    retain (found.1.map fun e => (f e).getD e) found.2 (found.1.map fun e => (f e).isSome) =
      .ok (renumber f found) := by
  obtain ⟨entries, default⟩ := found
  simp only [retain, kept_map, renumber, List.isEmpty_iff]
  cases default with
  | none =>
    rw [move_lost (by intro i hi; cases hi)]
    rfl
  | some d =>
    have hd : d < entries.length := h
    have hget : (entries.map fun e => (f e).isSome)[d]? = some (f entries[d]).isSome := by
      rw [List.getElem?_map, List.getElem?_eq_getElem hd]
      rfl
    have hlen : ¬(entries.map fun e => (f e).isSome).length < d := by
      rw [List.length_map]
      omega
    rw [newDefault, if_neg hlen, hget]
    simp only [countP_mask]
    have hx : entries[d]? = some entries[d] := List.getElem?_eq_getElem hd
    cases hf : f entries[d] with
    | some e' =>
      rw [move_kept hx hf]
      have hne : entries.filterMap f ≠ [] := List.length_pos_iff.mp
        (Nat.lt_of_le_of_lt (Nat.zero_le _) (rank_lt hx hf))
      simp [hne]
    | none =>
      rw [move_lost]
      · simp
      · rintro i ⟨⟩
        rw [hx]
        exact hf

end Retain

/-- The sweep of `drop_stale_entries` as a partial function. -/
def surviving (fs : FileSystem) (e : BootEntry) : Option BootEntry :=
  if survives fs e then some e else none

/-- Dropping the stale entries renumbers the default and never fails. -/
private theorem dropStaleEntries_eq (fs : FileSystem) {found : Found} (h : found.Valid) :
    dropStaleEntries fs found = .ok (renumber (surviving fs) found) := by
  have hmask : (found.1.map fun e => (surviving fs e).isSome) = found.1.map (survives fs) := by
    apply List.map_congr_left
    intro e _
    unfold surviving
    split <;> simp_all
  have hsame : (found.1.map fun e => (surviving fs e).getD e) = found.1 := by
    rw [List.map_congr_left (g := id), List.map_id]
    intro e _
    unfold surviving
    split <;> rfl
  have heq := retain_eq (surviving fs) h
  rwa [hmask, hsame] at heq

/-- The survivors of the authoritative source, with the default renumbered among them. -/
def scanned (fs : FileSystem) : BootScan :=
  let found := renumber (surviving fs) (choose fs (consult fs))
  ⟨found.1, found.2, configsOf fs⟩

/-- A scan never fails. -/
theorem scan_eq (fs : FileSystem) : scan fs = .ok (scanned fs) := by
  rw [scan, dropStaleEntries_eq fs (choose_valid fs)]
  rfl

/-- The scan keeps exactly the chosen entries whose files are there. -/
theorem mem_scanned {fs : FileSystem} {e : BootEntry} :
    e ∈ (scanned fs).entries ↔ e ∈ (choose fs (consult fs)).1 ∧ survives fs e = true := by
  simp only [scanned, renumber, List.mem_filterMap, surviving, Option.ite_none_right_eq_some,
    Option.some.injEq]
  constructor
  · rintro ⟨e', he', hs, rfl⟩
    exact ⟨he', hs⟩
  · rintro ⟨he, hs⟩
    exact ⟨e, he, hs, rfl⟩

end BootExtractor.Boot
