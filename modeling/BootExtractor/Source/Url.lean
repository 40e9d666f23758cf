import BootExtractor.Error
import BootExtractor.Source.Locator

/-!
# URLs on the wire

A URL is split into what a connection and a request line need. A `Location` leads to the
next one: an absolute URL is parsed afresh, and anything else is put into the path as it
is.
-/

namespace BootExtractor.Http

/-- `Url` -/
structure Url where
  https : Bool
  host : Str
  port : Nat
  /-- Path plus optional query. -/
  path : Str
  deriving DecidableEq, Repr

/-- What ends the authority of a URL. -/
def isDelimiter (c : Char) : Bool := c == '/' || c == '?' || c == '#'

namespace Url

/-- `p.parse::<u16>()` of decimal digits. -/
def parsePort (p : Str) : Option Nat := (Str.parseUsize p).filter (· < 2 ^ 16)

/-- The host and the port of an authority without userinfo. -/
def hostPort (s : Str) (https : Bool) (authority : Str) : Except Error (Str × Nat) :=
  match Str.rsplitOnce ':' authority with
  | some (h, p) =>
    if p ≠ [] ∧ p.all Char.isDigit then
      match parsePort p with
      | some port => .ok (h, port)
      | none => .error (.http ("bad port in ".toList ++ s))
    else .ok (authority, if https then 443 else 80)
  | none => .ok (authority, if https then 443 else 80)

/-- A path without its fragment, which is never sent to the server. -/
def withoutFragment (path : Str) : Str :=
  match Str.splitOnce (· == '#') path with
  | some (p, _) => p
  | none => path

/-- The path that goes with what follows the authority. -/
def pathOf (rest : Str) : Str :=
  match withoutFragment (if rest = [] then ['/'] else rest) with
  | [] => ['/']
  | path => path

/-- `Url::parse` behind the scheme. -/
def parseRest (s : Str) (https : Bool) (rest : Str) : Except Error Url :=
  let authority := Str.afterLast '@' (rest.takeWhile (!isDelimiter ·))
  match hostPort s https authority with
  | .error e => .error e
  | .ok (host, port) =>
    if host = [] then .error (.http ("missing host in URL: ".toList ++ s))
    else .ok ⟨https, host, port, pathOf (rest.dropWhile (!isDelimiter ·))⟩

/-- `Url::parse`. -/
def parse (s : Str) : Except Error Url :=
  match Str.stripPrefix "https://".toList s with
  | some rest => parseRest s true rest
  | none =>
    match Str.stripPrefix "http://".toList s with
    | some rest => parseRest s false rest
    | none => .error (.http ("not an http(s) URL: ".toList ++ s))

/-- The path up to its last `/`. -/
def dir (u : Url) : Str :=
  match Str.rsplitOnce '/' u.path with
  | some (d, _) => d ++ ['/']
  | none => ['/']

/-- `with_path` -/
def withPath (u : Url) (path : Str) : Url := { u with path := path }

/-- `Url::join`: resolve a `Location` header against a URL. -/
def join (u : Url) (location : Str) : Except Error Url :=
  if isUrl location then parse location
  else
    match Str.stripPrefix ['/'] location with
    | some stripped => .ok (u.withPath ('/' :: stripped))
    | none => .ok (u.withPath (u.dir ++ location))

/-- The URL as it is shown. -/
def display (u : Url) : Str :=
  (if u.https then "https".toList else "http".toList) ++ "://".toList ++ u.host ++
    ':' :: Str.dec u.port ++ u.path

/-- What a request line and a `Host` header take for granted. -/
structure WellFormed (u : Url) : Prop where
  path_slash : u.path.head? = some '/'
  no_fragment : '#' ∉ u.path
  host_ne_nil : u.host ≠ []
  host_plain : ∀ c ∈ u.host, isDelimiter c = false ∧ c ≠ '@'

/-- A query directly behind the authority, without a path. -/
def BareQuery (s : Str) : Prop :=
  ∃ scheme rest, (scheme = "http://".toList ∨ scheme = "https://".toList) ∧ s = scheme ++ rest ∧
    (rest.dropWhile (!isDelimiter ·)).head? = some '?'

/-- A `Location` that keeps URLs as they should be. -/
def Plain (location : Str) : Prop :=
  (isUrl location → ¬BareQuery location) ∧ (¬isUrl location → '#' ∉ location)

section Authority

private theorem mem_of_mem_afterLast {c x : Char} {s : Str} (h : x ∈ Str.afterLast c s) :
    x ∈ s ∧ x ≠ c := by
  unfold Str.afterLast at h
  cases hsplit : Str.rsplitOnce c s with
  | none =>
    rw [hsplit] at h
    exact ⟨h, fun he => Str.rsplitOnce_eq_none.mp hsplit (he ▸ h)⟩
  | some parts =>
    obtain ⟨a, b⟩ := parts
    rw [hsplit] at h
    obtain ⟨rfl, hb⟩ := Str.rsplitOnce_eq_some hsplit
    exact ⟨List.mem_append_right _ (List.mem_cons_of_mem _ h), fun he => hb (he ▸ h)⟩

/-- The host is a part of the authority. -/
theorem mem_of_hostPort {s authority host : Str} {https : Bool} {port : Nat}
    (h : hostPort s https authority = .ok (host, port)) {c : Char} (hc : c ∈ host) :
    c ∈ authority := by
  unfold hostPort at h
  split at h
  · rename_i a p hsplit
    split at h
    · split at h
      · cases h
        obtain ⟨rfl, -⟩ := Str.rsplitOnce_eq_some hsplit
        exact List.mem_append_left _ hc
      · cases h
    · cases h
      exact hc
  · cases h
    exact hc

end Authority

section Path

private theorem not_mem_withoutFragment (path : Str) : '#' ∉ withoutFragment path := by
  unfold withoutFragment
  split
  · rename_i p rest hsplit
    obtain ⟨c, -, -, hp⟩ := Str.splitOnce_eq_some hsplit
    exact fun hmem => absurd (hp '#' hmem) (by decide)
  · rename_i hsplit
    exact fun hmem => absurd (Str.splitOnce_eq_none.mp hsplit '#' hmem) (by decide)

private theorem withoutFragment_cons {c : Char} (hc : c ≠ '#') (path : Str) :
    (withoutFragment (c :: path)).head? = some c := by
  have hbeq : (c == '#') = false := beq_eq_false_iff_ne.mpr hc
  unfold withoutFragment
  rw [Str.splitOnce, hbeq]
  cases Str.splitOnce (· == '#') path <;> rfl

private theorem not_mem_pathOf (rest : Str) : '#' ∉ pathOf rest := by
  unfold pathOf
  split
  · decide
  · exact not_mem_withoutFragment _

/-- The path begins as what follows the authority, if that is not a fragment. -/
theorem pathOf_cons {c : Char} (hc : c ≠ '#') (rest : Str) :
    (pathOf (c :: rest)).head? = some c := by
  have hhead := withoutFragment_cons hc rest
  unfold pathOf
  rw [if_neg (List.cons_ne_nil c rest)]
  cases hpath : withoutFragment (c :: rest) with
  | nil =>
    rw [hpath] at hhead
    cases hhead
  | cons x xs =>
    rw [hpath] at hhead
    exact hhead

private theorem pathOf_fragment (rest : Str) : pathOf ('#' :: rest) = ['/'] := rfl

/-- A path begins with a slash, but for a query in its place. -/
theorem pathOf_head_iff (rest : Str) :
    (pathOf (rest.dropWhile (!isDelimiter ·))).head? = some '/' ↔
      (rest.dropWhile (!isDelimiter ·)).head? ≠ some '?' := by
  cases hdrop : rest.dropWhile (!isDelimiter ·) with
  | nil =>
    simp only [List.head?_nil, ne_eq, reduceCtorEq, not_false_eq_true, iff_true]
    rfl
  | cons c more =>
    have hdelim : isDelimiter c = true := by
      have hne : rest.dropWhile (!isDelimiter ·) ≠ [] := by
        rw [hdrop]
        exact List.cons_ne_nil _ _
      have hhead := List.head_dropWhile_not (!isDelimiter ·) hne
      simp only [hdrop, List.head_cons] at hhead
      simpa using hhead
    simp only [isDelimiter, Bool.or_eq_true, beq_iff_eq] at hdelim
    rcases hdelim with (rfl | rfl) | rfl
    · rw [pathOf_cons (by decide), List.head?_cons]
      decide
    · rw [pathOf_cons (by decide), List.head?_cons]
      decide
    · rw [pathOf_fragment, List.head?_cons, List.head?_cons]
      decide

/-- The directory of a path leads to it. -/
private theorem dir_isPrefix {u : Url} (h : u.path.head? = some '/') :
    u.dir <+: u.path ∧ u.dir.head? = some '/' := by
  unfold dir
  cases hsplit : Str.rsplitOnce '/' u.path with
  | none =>
    exact absurd (List.mem_of_mem_head? h) (Str.rsplitOnce_eq_none.mp hsplit)
  | some parts =>
    obtain ⟨d, file⟩ := parts
    obtain ⟨hpath, -⟩ := Str.rsplitOnce_eq_some hsplit
    refine ⟨⟨file, by rw [hpath, List.append_assoc]; rfl⟩, ?_⟩
    cases d with
    | nil => rfl
    | cons c cs =>
      rw [hpath] at h
      exact h

end Path

section Parsing

variable {s location : Str} {u v : Url} {https : Bool} {rest : Str}

/-- A parse gives a host and a path. -/
private theorem parseRest_spec (h : parseRest s https rest = .ok u) :
    u.host ≠ [] ∧ (∀ c ∈ u.host, isDelimiter c = false ∧ c ≠ '@') ∧
      u.path = pathOf (rest.dropWhile (!isDelimiter ·)) := by
  simp only [parseRest] at h
  split at h
  · cases h
  · rename_i host port hhost
    split at h
    · cases h
    · rename_i hne
      cases h
      refine ⟨hne, fun c hc => ?_, rfl⟩
      obtain ⟨hmem, hat⟩ := mem_of_mem_afterLast (mem_of_hostPort hhost hc)
      exact ⟨by simpa using List.mem_takeWhile_imp hmem, hat⟩

/-- What remains behind a leading text. -/
theorem stripPrefix_eq_some {p a b : Str} : Str.stripPrefix p a = some b ↔ a = p ++ b := by
  unfold Str.stripPrefix
  constructor
  · intro h
    obtain ⟨⟨more, rfl⟩, hb⟩ := Option.ite_none_right_eq_some.mp h
    rw [List.drop_left] at hb
    rw [Option.some.inj hb]
  · rintro rfl
    rw [if_pos (List.prefix_append _ _), List.drop_left]

/-- What a URL is parsed from. -/
theorem parse_spec (h : parse s = .ok u) :
    ∃ scheme https rest, (scheme = "http://".toList ∨ scheme = "https://".toList) ∧
      s = scheme ++ rest ∧ parseRest s https rest = .ok u := by
  unfold parse at h
  split at h
  · rename_i rest hrest
    exact ⟨_, _, rest, Or.inr rfl, stripPrefix_eq_some.mp hrest, h⟩
  · split at h
    · rename_i rest hrest
      exact ⟨_, _, rest, Or.inl rfl, stripPrefix_eq_some.mp hrest, h⟩
    · cases h

/-- The scheme of a text is determined. -/
theorem scheme_unique {a b a' b' : Str} (ha : a = "http://".toList ∨ a = "https://".toList)
    (ha' : a' = "http://".toList ∨ a' = "https://".toList) (h : a ++ b = a' ++ b') : b = b' := by
  rcases ha with rfl | rfl <;> rcases ha' with rfl | rfl
  · exact List.append_cancel_left h
  · cases h
  · cases h
  · exact List.append_cancel_left h

/-- A parsed URL is well formed unless a bare query stands for its path. -/
private theorem parse_wellFormed_iff (h : parse s = .ok u) : u.WellFormed ↔ ¬BareQuery s := by
  obtain ⟨scheme, https, rest, hscheme, rfl, hrest⟩ := parse_spec h
  obtain ⟨hne, hplain, hpath⟩ := parseRest_spec hrest
  have hquery : BareQuery (scheme ++ rest) ↔
      (rest.dropWhile (!isDelimiter ·)).head? = some '?' := by
    constructor
    · rintro ⟨scheme', rest', hscheme', heq, hhead⟩
      rwa [scheme_unique hscheme hscheme' heq]
    · exact fun hhead => ⟨scheme, rest, hscheme, rfl, hhead⟩
  rw [hquery, ← Ne, ← pathOf_head_iff, ← hpath]
  constructor
  · exact fun hwell => hwell.path_slash
  · exact fun hslash => ⟨hslash, hpath ▸ not_mem_pathOf _, hne, hplain⟩

private theorem withPath_wellFormed_iff (h : u.WellFormed) {path : Str}
    (hslash : path.head? = some '/') :
    (u.withPath path).WellFormed ↔ '#' ∉ path := by
  constructor
  · exact fun hwell => hwell.no_fragment
  · exact fun hfragment => ⟨hslash, hfragment, h.host_ne_nil, h.host_plain⟩

/-- One redirect keeps a URL as it should be exactly if its `Location` is plain. -/
theorem join_wellFormed_iff (h : u.WellFormed) (hjoin : u.join location = .ok v) :
    v.WellFormed ↔ Plain location := by
  unfold join at hjoin
  by_cases hurl : isUrl location
  · rw [if_pos hurl] at hjoin
    rw [parse_wellFormed_iff hjoin]
    exact ⟨fun hbare => ⟨fun _ => hbare, fun hnot => absurd hurl hnot⟩, fun hplain => hplain.1 hurl⟩
  · rw [if_neg hurl] at hjoin
    have hplain : Plain location ↔ '#' ∉ location :=
      ⟨fun hplain => hplain.2 hurl, fun hno => ⟨fun hyes => absurd hyes hurl, fun _ => hno⟩⟩
    rw [hplain]
    split at hjoin
    · rename_i stripped hstripped
      obtain rfl := stripPrefix_eq_some.mp hstripped
      cases hjoin
      exact withPath_wellFormed_iff h rfl
    · cases hjoin
      obtain ⟨⟨file, hfile⟩, hhead⟩ := dir_isPrefix h.path_slash
      have hdir : '#' ∉ u.dir := by
        intro hmem
        refine h.no_fragment ?_
        rw [← hfile]
        exact List.mem_append_left _ hmem
      have hslash : (u.dir ++ location).head? = some '/' := by
        rw [List.head?_append, hhead]
        rfl
      rw [withPath_wellFormed_iff h hslash, List.mem_append, not_or]
      exact ⟨fun hboth => hboth.2, fun hlocation => ⟨hdir, hlocation⟩⟩

end Parsing

section Redirects

variable {s : Str} {u v : Url} {locations : List Str}

/-- All URLs of a redirect chain are as they should be exactly if all its `Location`s are
plain. -/
theorem follow_wellFormed_iff (h : u.WellFormed) (hfollow : locations.foldlM join u = .ok v) :
    (∀ k w, (locations.take k).foldlM join u = .ok w → w.WellFormed) ↔
      ∀ location ∈ locations, Plain location := by
  induction locations generalizing u with
  | nil =>
    refine ⟨fun _ _ hmem => absurd hmem List.not_mem_nil, fun _ k w hw => ?_⟩
    rw [List.take_nil] at hw
    cases hw
    exact h
  | cons location more ih =>
    rw [List.foldlM_cons] at hfollow
    cases hjoin : u.join location with
    | error e =>
      rw [hjoin] at hfollow
      cases hfollow
    | ok next =>
      rw [hjoin] at hfollow
      have hstep := join_wellFormed_iff h hjoin
      have htake : ∀ k, ((location :: more).take (k + 1)).foldlM join u =
          (more.take k).foldlM join next := by
        intro k
        rw [List.take_succ_cons, List.foldlM_cons, hjoin]
        rfl
      constructor
      · intro hall
        have hnext : next.WellFormed := hall 1 next (htake 0)
        rw [List.forall_mem_cons]
        refine ⟨hstep.mp hnext, (ih hnext hfollow).mp fun k w hw => ?_⟩
        exact hall (k + 1) w ((htake k).trans hw)
      · intro hplain k w hw
        rw [List.forall_mem_cons] at hplain
        cases k with
        | zero =>
          cases hw
          exact h
        | succ k =>
          rw [htake] at hw
          exact (ih (hstep.mpr hplain.1) hfollow).mpr hplain.2 k w hw

/-- Every URL that a text and the redirects from it lead to is well formed exactly if
neither the text nor an absolute `Location` has a query directly behind its authority,
and no other `Location` has a `#`. -/
theorem reached_wellFormed_iff (hparse : parse s = .ok u)
    (hfollow : locations.foldlM join u = .ok v) :
    (∀ k w, (locations.take k).foldlM join u = .ok w → w.WellFormed) ↔
      ¬BareQuery s ∧ ∀ location ∈ locations, Plain location := by
  have hstart := parse_wellFormed_iff hparse
  constructor
  · intro hall
    have hwell : u.WellFormed := hall 0 u rfl
    exact ⟨hstart.mp hwell, (follow_wellFormed_iff hwell hfollow).mp hall⟩
  · rintro ⟨hbare, hplain⟩
    exact (follow_wellFormed_iff (hstart.mpr hbare) hfollow).mpr hplain

/-- A relative reference, a path and another server. -/
theorem reached_wellFormed_chain :
    (∀ k w, (["c".toList, "/d?x".toList, "https://e:8443".toList].take k).foldlM join
        ⟨false, ['h'], 80, "/a/b".toList⟩ = .ok w → w.WellFormed) ↔
      ¬BareQuery "http://u@h/a/b#f".toList ∧
        ∀ location ∈ ["c".toList, "/d?x".toList, "https://e:8443".toList], Plain location :=
  reached_wellFormed_iff rfl rfl

/-- The query stands where the path should be: the request line is `GET ?x HTTP/1.1`. -/
theorem bare_query_reached :
    ¬ ∀ (s : Str) (u v : Url) (locations : List Str), parse s = .ok u →
      locations.foldlM join u = .ok v → v.WellFormed := by
  intro h
  have hwell := h "http://h?x".toList ⟨false, ['h'], 80, "?x".toList⟩ _ [] rfl rfl
  exact absurd hwell.path_slash (by decide)

end Redirects

end Url

end BootExtractor.Http
