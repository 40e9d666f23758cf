import BootExtractor.Cli.ShellRun
import BootExtractor.Lib.TreeWalk

/-!
# Paths as walks

Resolving a path walks from the root of the filesystem: first along the working directory,
if the path is relative, and then along the path. Its text names the place where the walk
ends, so resolving it again leads there from anywhere, and one path after another is the
two of them in one.
-/

namespace BootExtractor.Cli

open TreeWalk

/-- The move that a segment of a path stands for. -/
def moveOf (seg : Str) : Move Str :=
  if seg = [] ∨ seg = ".".toList then .stay
  else if seg = "..".toList then .up
  else .down seg

/-- The moves of a path, one for each segment. -/
def way (path : Str) : List (Move Str) := (Str.split '/' path).map moveOf

/-- The text of a place. -/
def pathTo (place : List Str) : Str := '/' :: Str.join "/".toList place

/-- Does the path start at the working directory? -/
def Relative (path : Str) : Prop := Str.startsWith path "/".toList = false

/-- Where a path leads to from a working directory. -/
def placeOf (cwd path : Str) : List Str :=
  walk (if Str.startsWith path "/".toList then [] else walk [] (way cwd)) (way path)

/-- The moves of a path from the root on, behind those of the working directory if the path is
relative. -/
def fullWay (cwd path : Str) : List (Move Str) :=
  if Str.startsWith path "/".toList then way path else way cwd ++ way path

section Walks

variable {cwd a b : Str}

private theorem pushSegment_eq (place : List Str) (seg : Str) :
    pushSegment place seg = (moveOf seg).from place := by
  unfold pushSegment moveOf
  split
  · rfl
  · split <;> rfl

private theorem moveOf_name {seg : Str} (h : IsName seg) : moveOf seg = .down seg := by
  obtain ⟨hne, hdot, hdotdot, -⟩ := h
  rw [moveOf, if_neg (not_or.mpr ⟨hne, hdot⟩), if_neg hdotdot]

private theorem foldl_pushSegment (place segs : List Str) :
    segs.foldl pushSegment place = walk place (segs.map moveOf) := by
  rw [walk, List.foldl_map]
  exact congrArg (fun f => segs.foldl f place) (funext₂ pushSegment_eq)

private theorem resolve_eq (cwd path : Str) : resolve cwd path = pathTo (placeOf cwd path) := by
  rw [resolve, foldl_pushSegment, List.map_append, walk_append, placeOf]
  cases Str.startsWith path "/".toList <;> rfl

private theorem placeOf_relative (h : Relative a) :
    placeOf cwd a = walk (walk [] (way cwd)) (way a) := by
  rw [placeOf, h]
  rfl

private theorem placeOf_absolute (h : ¬Relative a) : placeOf cwd a = walk [] (way a) := by
  rw [placeOf, Bool.eq_true_of_not_eq_false h]
  rfl

/-- A place is made of names. -/
private theorem names_placeOf (cwd path : Str) : ∀ seg ∈ placeOf cwd path, IsName seg := by
  have hnames : ∀ (place : List Str) (path : Str), (∀ seg ∈ place, IsName seg) →
      ∀ seg ∈ walk place (way path), IsName seg := by
    intro place path hplace
    rw [way, ← foldl_pushSegment]
    exact foldl_pushSegment_names hplace fun seg hseg => Str.not_mem_of_mem_split hseg
  have hroot : ∀ seg ∈ ([] : List Str), IsName seg := fun seg hseg => absurd hseg List.not_mem_nil
  refine hnames _ path ?_
  split
  · exact hroot
  · exact hnames [] cwd hroot

private theorem split_slash (a b : Str) :
    Str.split '/' (a ++ '/' :: b) = Str.split '/' a ++ Str.split '/' b :=
  List.splitOn_append_cons_self a b

/-- A path behind another one is the two ways. -/
theorem way_slash (a b : Str) : way (a ++ '/' :: b) = way a ++ way b := by
  rw [way, split_slash, List.map_append, way, way]

private theorem relative_slash (hne : a ≠ []) (b : Str) :
    Relative (a ++ '/' :: b) ↔ Relative a := by
  obtain ⟨c, rest, rfl⟩ := List.exists_cons_of_ne_nil hne
  exact Iff.rfl

private theorem not_relative_pathTo (place : List Str) : ¬Relative (pathTo place) :=
  fun h => Bool.noConfusion h

/-- The walk to a place by the text of the place. -/
theorem walk_pathTo {place : List Str} (h : ∀ seg ∈ place, IsName seg) :
    walk [] (way (pathTo place)) = place := by
  cases place with
  | nil => rfl
  | cons seg place =>
    have hjoin : Str.split '/' (Str.join "/".toList (seg :: place)) = seg :: place :=
      List.splitOn_intercalate '/' (fun s hs => (h s hs).2.2.2) (List.cons_ne_nil seg place)
    have hsplit : Str.split '/' (pathTo (seg :: place)) = [] :: seg :: place := by
      have hcut := split_slash [] (Str.join "/".toList (seg :: place))
      rwa [hjoin] at hcut
    have hdown : (seg :: place).map moveOf = (seg :: place).map .down :=
      List.map_congr_left fun s hs => moveOf_name (h s hs)
    rw [way, hsplit, List.map_cons, hdown, walk_cons, walk_down]
    rfl

/-- A resolved path is the same from everywhere. -/
theorem resolve_resolve (x cwd path : Str) : resolve x (resolve cwd path) = resolve cwd path := by
  rw [resolve_eq cwd, resolve_eq x, placeOf_absolute (not_relative_pathTo _),
    walk_pathTo (names_placeOf cwd path)]

/-- A relative path from where another one leads is the two of them in one. -/
theorem resolve_slash (hne : a ≠ []) (hb : Relative b) :
    resolve (resolve cwd a) b = resolve cwd (a ++ '/' :: b) := by
  rw [resolve_eq, placeOf_relative hb, resolve_eq cwd a, walk_pathTo (names_placeOf cwd a),
    resolve_eq]
  by_cases ha : Relative a
  · rw [placeOf_relative ha, placeOf_relative ((relative_slash hne b).mpr ha), way_slash,
      walk_append]
  · rw [placeOf_absolute ha, placeOf_absolute (mt (relative_slash hne b).mp ha), way_slash,
      walk_append]

/-- The segments of a resolved path are the names that no later `..` takes back. -/
theorem resolve_kept (cwd path : Str) : resolve cwd path = pathTo (kept (fullWay cwd path)) := by
  rw [resolve_eq, placeOf, fullWay, ← walk_root]
  split
  · rfl
  · rw [walk_append]

/-- Up from the root leads to the root. -/
theorem resolve_up_root : resolve "/".toList "..".toList = "/".toList := rfl

/-- Resolving a path keeps the names that no later `..` takes back. Every resolved path is
normalised and the same from everywhere; a relative path from where another one leads is the two
of them in one; and up from the root leads to the root. -/
theorem resolve_walks :
    (∀ cwd path, resolve cwd path = pathTo (kept (fullWay cwd path))) ∧
    (∀ cwd path, Normalised (resolve cwd path)) ∧
    (∀ x cwd path, resolve x (resolve cwd path) = resolve cwd path) ∧
    (∀ cwd a b, a ≠ [] → Relative b →
      resolve (resolve cwd a) b = resolve cwd (a ++ '/' :: b)) ∧
    (∀ cwd a, a ≠ [] → resolve cwd a = "/".toList →
      resolve cwd (a ++ "/..".toList) = "/".toList) ∧
    ∀ b, Relative b → resolve "/".toList ("../".toList ++ b) = resolve "/".toList b := by
  refine ⟨resolve_kept, normalised_resolve, resolve_resolve, fun cwd a b => resolve_slash, ?_, ?_⟩
  · intro cwd a hne hroot
    have hup := @resolve_slash cwd a "..".toList hne rfl
    rw [hroot, resolve_up_root] at hup
    exact hup.symm
  · intro b hb
    have hup := @resolve_slash "/".toList "..".toList b (by decide) hb
    rw [resolve_up_root] at hup
    exact hup.symm

end Walks

end BootExtractor.Cli
