import BootExtractor.Boot.Tracking

/-!
# Where entries come from

A parser marks its entries with their source and knows nothing of Windows. So every
entry of a scan is as its parser made it, and only a later pass makes it a Windows
entry.
-/

namespace BootExtractor.Boot

/-- An entry as the parser of a source makes it. -/
structure BootEntry.From (s : Source) (e : BootEntry) : Prop where
  source : e.source = s
  windows : e.windows = none

/-- A fold keeps what each of its steps keeps. -/
theorem foldl_keeps {α β : Type} {P : β → Prop} {f : β → α → β} {b : β} {xs : List α} (hb : P b)
    (hf : ∀ b x, P b → P (f b x)) : P (xs.foldl f b) := by
  induction xs generalizing b with
  | nil => exact hb
  | cons x rest ih => exact ih (hf b x hb)

namespace Grub

/-- All entries that the machine holds are entries of a grub.cfg. -/
structure State.Clean (st : State) : Prop where
  raw : ∀ r ∈ st.raw, r.entry.From .grub
  current : ∀ c, st.current = some c → c.2.entry.From .grub

/-- A line inside of an entry leaves its origin alone. -/
private theorem from_bodyLine {env : Env} {kw : Str} {words : List Str} {e : BootEntry}
    (h : e.From .grub) : (bodyLine env kw words e).From .grub := by
  obtain ⟨hsource, hwindows⟩ := h
  unfold bodyLine
  split
  · exact ⟨hsource, hwindows⟩
  split
  · exact ⟨hsource, hwindows⟩
  split
  · exact ⟨hsource, hwindows⟩
  · exact ⟨hsource, hwindows⟩

namespace State.Clean

variable {st : State}

/-- The entry that is opened comes from this config. -/
theorem openEntry {words : List Str} (h : st.Clean) : (openEntry words st).Clean := by
  unfold Grub.openEntry
  split
  · constructor
    · exact h.raw
    · rintro c ⟨⟩
      exact ⟨rfl, rfl⟩
  · constructor
    · exact h.raw
    · rintro c ⟨⟩
      exact ⟨rfl, rfl⟩

/-- A set line changes no entry. -/
theorem setVariable {env : Env} {words : List Str} (h : st.Clean) :
    (setVariable env words st).Clean := by
  unfold Grub.setVariable
  split
  · exact ⟨h.raw, h.current⟩
  · exact h

/-- A keyword line outside of an entry keeps the entries' origin. -/
theorem outerLine {env : Env} {kw : Str} {words : List Str} {opensBlock : Bool} (h : st.Clean) :
    (outerLine env kw words opensBlock st).Clean := by
  have hline : ∀ st' : State, st'.Clean →
      (if "blscfg".toList ∈ words then { st' with usesBls := true } else st').Clean := by
    intro st' h'
    split
    · exact ⟨h'.raw, h'.current⟩
    · exact h'
  apply hline
  split
  · exact h.openEntry
  split
  · exact ⟨h.raw, h.current⟩
  split
  · exact h.setVariable
  · exact h

/-- A keyword line keeps the entries' origin. -/
theorem keywordLine {env : Env} {words : List Str} {opensBlock : Bool} (h : st.Clean) :
    (keywordLine env words opensBlock st).Clean := by
  simp only [Grub.keywordLine]
  split
  · rename_i d cur hcur
    constructor
    · exact h.raw
    · rintro c ⟨⟩
      exact from_bodyLine (h.current _ hcur)
  · exact h.outerLine

/-- Closing a submenu changes no entry. -/
theorem closeSubmenu (h : st.Clean) : (closeSubmenu st).Clean := by
  unfold Grub.closeSubmenu
  split
  · split
    · exact ⟨h.raw, h.current⟩
    · exact h
  · exact h

/-- Closing a block keeps the entries' origin. -/
theorem closeBlock (h : st.Clean) : (closeBlock st).Clean := by
  have houter : ({ st with depth := st.depth - 1 } : State).Clean := ⟨h.raw, h.current⟩
  simp only [Grub.closeBlock]
  split
  · rename_i d r hcur
    split
    · constructor
      · intro r' hr
        rcases List.mem_append.mp hr with hr | hr
        · exact h.raw r' hr
        · rw [List.mem_singleton.mp hr]
          exact h.current _ hcur
      · rintro c ⟨⟩
    · exact houter.closeSubmenu
  · exact houter.closeSubmenu

/-- A line's braces keep the entries' origin. -/
theorem braces {line : Str} {opensBlock : Bool} (h : st.Clean) :
    (braces line opensBlock st).Clean := by
  unfold Grub.braces
  split
  · exact ⟨h.raw, h.current⟩
  split
  · exact h.closeBlock
  · exact h

/-- One line keeps the machine clean. -/
theorem step (env : Env) (line : Str) (h : st.Clean) : (step env st line).Clean := by
  simp only [Grub.step]
  split
  · exact h
  split
  · exact h
  · exact h.keywordLine.braces

end State.Clean

private theorem from_parseStr {text : Str} {env : Env} {e : BootEntry}
    (h : e ∈ (parseStr text env).entries) : e.From .grub := by
  have hclean : (run env (Str.lines text)).Clean :=
    foldl_keeps ⟨by simp, by simp⟩ fun st line hst => hst.step env line
  obtain ⟨r, hr, rfl⟩ := List.mem_map.mp h
  rcases List.mem_append.mp hr with hr | hr
  · exact hclean.raw r hr
  · obtain ⟨c, hc, rfl⟩ := Option.map_eq_some_iff.mp (Option.mem_toList.mp hr)
    exact hclean.current c hc

private theorem from_parse {fs : FileSystem} {path : Str} {env : Env} {g : GrubScan}
    (h : parse fs path env = .ok g) {e : BootEntry} (he : e ∈ g.entries) : e.From .grub := by
  unfold parse at h
  cases hread : fs.readFile path with
  | error err =>
    rw [hread] at h
    cases h
  | ok data =>
    rw [hread] at h
    cases h
    exact from_parseStr he

end Grub

namespace Bls

private theorem from_parseLine {env : Env} {acc : Parsed} {line : Str} (h : acc.1.From .bls) :
    (parseLine env acc line).1.From .bls := by
  obtain ⟨hsource, hwindows⟩ := h
  simp only [parseLine]
  repeat' split
  all_goals exact ⟨hsource, hwindows⟩

private theorem from_parseEntry (env : Env) (stem text : Str) :
    (parseEntry env stem text).From .bls := by
  have hfold : ((Str.lines text).foldl (parseLine env)
      ({ id := some stem, source := .bls }, [])).1.From .bls :=
    foldl_keeps (P := fun acc : Parsed => acc.1.From .bls) ⟨rfl, rfl⟩
      fun acc line hacc => from_parseLine hacc
  simp only [parseEntry]
  split
  · exact hfold
  · exact ⟨hfold.source, hfold.windows⟩

/-- The entries of a BLS directory come from BLS. -/
private theorem from_parseDir {fs : FileSystem} {dir : Str} {env : Env} {sd : Option Str}
    {r : BlsScan × List Str} (h : parseDir fs dir env sd = .ok r) {e : BootEntry}
    (he : e ∈ r.1.entries) : e.From .bls := by
  unfold parseDir at h
  cases hread : fs.readDir dir with
  | error err =>
    rw [hread] at h
    cases h
  | ok listing =>
    rw [hread] at h
    cases h
    obtain ⟨item, hitem, rfl⟩ := List.mem_map.mp he
    obtain ⟨read, hread, rfl⟩ := List.mem_map.mp (mem_sortNewestFirst.mp hitem)
    obtain ⟨f, _, hf⟩ := List.mem_filterMap.mp hread
    unfold readItem at hf
    split at hf
    · cases hf
    · simp only at hf
      split at hf
      · cases hf
      · cases hf
        exact from_parseEntry _ _ _

end Bls

namespace Extlinux

/-- All stanzas are entries of an extlinux config. -/
def State.Clean (st : State) : Prop := ∀ e ∈ st.finished, e.From .extlinux

/-- A change of the open stanza keeps the entries' origin where it keeps the stanza's. -/
theorem State.Clean.modifyCurrent {st : State} {f : BootEntry → BootEntry} (h : st.Clean)
    (hf : ∀ e : BootEntry, e.From .extlinux → (f e).From .extlinux) :
    (st.modifyCurrent f).Clean := by
  intro e he
  rcases List.mem_append.mp he with he | he
  · exact h e (List.mem_append_left _ he)
  · obtain ⟨c, hc, rfl⟩ := Option.map_eq_some_iff.mp (Option.mem_toList.mp he)
    exact hf c (h c (List.mem_append_right _ (Option.mem_toList.mpr hc)))

/-- Every keyword keeps the entries' origin. -/
theorem State.Clean.keyword {baseDir kw rest : Str} {st : State} (h : st.Clean) :
    (keyword baseDir st kw rest).Clean := by
  simp only [Extlinux.keyword]
  split
  · exact h
  split
  · intro e he
    rcases List.mem_append.mp he with he | he
    · exact h e he
    · rw [Option.mem_toList.mp he |> Option.some.inj |>.symm]
      exact ⟨rfl, rfl⟩
  split
  · exact h.modifyCurrent fun e he => ⟨he.source, he.windows⟩
  split
  · exact h.modifyCurrent fun e he => ⟨he.source, he.windows⟩
  split
  · exact h.modifyCurrent fun e he => ⟨he.source, he.windows⟩
  · exact h

/-- Every line keeps the entries' origin. -/
theorem State.Clean.step {baseDir line : Str} {st : State} (h : st.Clean) :
    (step baseDir st line).Clean := by
  simp only [Extlinux.step]
  split
  · exact h
  split
  · exact h
  · exact h.keyword

private theorem from_parse {fs : FileSystem} {path : Str} {x : ExtlinuxScan}
    (h : parse fs path = .ok x) {e : BootEntry} (he : e ∈ x.entries) : e.From .extlinux := by
  unfold parse at h
  cases hread : fs.readFile path with
  | error err =>
    rw [hread] at h
    cases h
  | ok data =>
    rw [hread] at h
    cases h
    exact foldl_keeps (P := State.Clean) (by simp [State.Clean, State.finished])
      (fun st line hst => hst.step) e he

end Extlinux

/-- The entries of the fallback scan come from it. -/
private theorem from_fallbackScan {fs : FileSystem} {e : BootEntry} (h : e ∈ (fallbackScan fs).1) :
    e.From .fallback := by
  unfold fallbackScan at h
  obtain ⟨dir, _, hdir⟩ := List.mem_flatMap.mp (mem_sortNewestFirst.mp h)
  unfold fallbackDir at hdir
  split at hdir
  · cases hdir
  · obtain ⟨kernel, _, rfl⟩ := List.mem_map.mp hdir
    exact ⟨rfl, rfl⟩

/-- The entries of the authoritative source are as its parser made them. -/
theorem exists_from_choose {fs : FileSystem} {e : BootEntry} (h : e ∈ (choose fs (consult fs)).1) :
    ∃ s, s ≠ .windows ∧ e.From s := by
  rcases choose_cases fs with ⟨g, hg, heq⟩ | ⟨b, hb, heq⟩ | ⟨x, hx, heq⟩ | heq
  · rw [heq] at h
    obtain ⟨path, hpath⟩ := exists_of_mem_grubScans (List.mem_of_find?_eq_some hg)
    exact ⟨.grub, by decide, Grub.from_parse hpath h⟩
  · rw [heq] at h
    obtain ⟨r, hr, rfl⟩ := Option.map_eq_some_iff.mp hb
    obtain ⟨dir, hdir⟩ := exists_of_mem_blsScans (List.mem_of_find?_eq_some hr)
    exact ⟨.bls, by decide, Bls.from_parseDir hdir h⟩
  · rw [heq] at h
    obtain ⟨path, hpath⟩ := exists_of_mem_extlinuxScans (List.mem_of_find?_eq_some hx)
    exact ⟨.extlinux, by decide, Extlinux.from_parse hpath h⟩
  · rw [heq] at h
    exact ⟨.fallback, by decide, from_fallbackScan h⟩

end BootExtractor.Boot
