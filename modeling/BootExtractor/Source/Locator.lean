import BootExtractor.Lib.Str

/-!
# Locators

An image is named by a file path or by a URL. A reference from one image to another
is resolved against the locator of the first; from a URL it never leads to a file.
-/

namespace BootExtractor

/-- Is the locator an http(s) URL rather than a file path? -/
def isUrl (locator : Str) : Bool :=
  Str.startsWith locator "http://".toList || Str.startsWith locator "https://".toList

/-- `resolve_relative`: a full URL, or an absolute path on a local base, stands on its
own; anything else is a sibling of the base. -/
def resolveRelative (base name : Str) : Str :=
  if isUrl name || (Str.startsWith name "/".toList && !isUrl base) then name
  else
    match Str.rsplitOnce '/' base with
    | some (dir, _) => dir ++ '/' :: name
    | none => name

/-- What ends in a separator and begins a path also begins its directory. -/
theorem prefix_dir {p dir rest : Str} {c : Char} (h : p ++ [c] <+: dir ++ c :: rest)
    (hrest : c ∉ rest) : p ++ [c] <+: dir ++ [c] := by
  have hdir : dir ++ [c] <+: dir ++ c :: rest := ⟨rest, by simp⟩
  rcases List.prefix_or_prefix_of_prefix h hdir with hp | ⟨more, hmore⟩
  · exact hp
  · rcases List.eq_nil_or_concat more with rfl | ⟨more', x, rfl⟩
    · rw [List.append_nil] at hmore
      rw [hmore]
    · -- the extra part would end in the separator and lie behind the last one
      have hlast : x = c := by
        have := congrArg List.getLast? hmore
        simpa [← List.append_assoc] using this
      subst hlast
      rw [← hmore] at h
      have hmem : more' ++ [x] <+: rest := by
        have : dir ++ [x] ++ (more' ++ [x]) <+: dir ++ [x] ++ rest := by simpa using h
        exact (List.prefix_append_right_inj _).mp this
      exact absurd (hmem.subset (by simp)) hrest

/-- From a URL every reference leads to a URL. -/
theorem isUrl_resolveRelative {base : Str} (h : isUrl base) (name : Str) :
    isUrl (resolveRelative base name) := by
  unfold resolveRelative
  split
  · rename_i hname
    simpa [h] using hname
  · have hstart : ∃ scheme : Str, (scheme = "http:/".toList ∨ scheme = "https:/".toList) ∧
        scheme ++ ['/'] <+: base := by
      simp only [isUrl, Bool.or_eq_true, Str.startsWith_iff] at h
      rcases h with h | h
      · exact ⟨_, Or.inl rfl, h⟩
      · exact ⟨_, Or.inr rfl, h⟩
    obtain ⟨scheme, hscheme, hbase⟩ := hstart
    cases hsplit : Str.rsplitOnce '/' base with
    | none =>
      exact absurd (hbase.subset (by simp)) (Str.rsplitOnce_eq_none.mp hsplit)
    | some parts =>
      obtain ⟨dir, rest⟩ := parts
      obtain ⟨rfl, hrest⟩ := Str.rsplitOnce_eq_some hsplit
      have hdir := prefix_dir hbase hrest
      have hres : scheme ++ ['/'] <+: dir ++ '/' :: name :=
        hdir.trans ⟨name, by simp⟩
      simp only [isUrl, Bool.or_eq_true, Str.startsWith_iff]
      rcases hscheme with rfl | rfl
      · exact Or.inl hres
      · exact Or.inr hres

end BootExtractor
