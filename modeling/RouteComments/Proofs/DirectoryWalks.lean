import RouteComments.Proofs.DiscoveredFiles
import RouteComments.Proofs.PathParents

set_option autoImplicit false

namespace RouteComments

open Text

namespace FileTree

variable {tree : FileTree} {path above : Path} {place lower home : List Text}

section Steps

variable {root : Entry} {start upper : List Text} {segment : Path} {segments : List Path}

def LeadsTo (tree : FileTree) (path : Path) (place : List Text) : Prop :=
  tree.walk path = .ok place ∧ ∃ entries, tree.root.at? place = some (.directory entries)

theorem LeadsTo.unique {other : List Text} (leads : tree.LeadsTo path place) (leadsToo : tree.LeadsTo path other) :
    place = other :=
  Except.ok.inj (leads.1.symm.trans leadsToo.1)

theorem directory_of_follow_cons (led : follow root start (segment :: segments) = .ok place) :
    ∃ entries, root.at? start = some (.directory entries) := by
  rw [follow] at led
  split at led
  · rename_i entries here
    exact ⟨entries, here⟩
  · cases led
  · cases led

theorem follow_trivial {entries : List (Text × Entry)} (here : root.at? start = some (.directory entries))
    (trivial : Path.isTrivial segment = true) (segments : List Path) :
    follow root start (segment :: segments) = follow root start segments := by
  simp only [follow, here, trivial, if_true]

/-- On the way to a directory only the steps count. -/
theorem follow_filter_iff (ends : ∃ entries, root.at? place = some (.directory entries)) :
    follow root start (segments.filter (!Path.isTrivial ·)) = .ok place ↔ follow root start segments = .ok place := by
  induction segments generalizing start with
  | nil => exact Iff.rfl
  | cons segment rest ih =>
    by_cases trivial : Path.isTrivial segment = true
    · rw [List.filter_cons_of_neg (by simp [trivial]), ih]
      constructor
      · intro led
        -- a trivial segment stands behind a directory only, also where nothing else follows
        have directory : ∃ entries, root.at? start = some (.directory entries) := by
          cases rest with
          | nil => exact Except.ok.inj led ▸ ends
          | cons next others => exact directory_of_follow_cons led
        obtain ⟨entries, here⟩ := directory
        rw [follow_trivial here trivial, led]
      · intro led
        obtain ⟨entries, here⟩ := directory_of_follow_cons led
        rwa [follow_trivial here trivial] at led
    · rw [List.filter_cons_of_pos (by simp [trivial])]
      rw [follow, follow]
      split
      · simp only [trivial, Bool.false_eq_true, if_false]
        split
        · exact ih
        · split
          · exact ih
          · exact Iff.rfl
          · exact Iff.rfl
      · exact Iff.rfl
      · exact Iff.rfl

/-- One segment leads nowhere else, to the directory above, or to an entry. -/
theorem follow_segment (led : follow root upper [segment] = .ok lower) :
    (Path.isTrivial segment = true ∧ lower = upper) ∨ (segment = Path.twoDots ∧ lower = upper.dropLast) ∨
      ∃ name, lower = upper ++ [name] := by
  rw [follow] at led
  split at led
  · split at led
    · rename_i trivial
      exact .inl ⟨trivial, (Except.ok.inj led).symm⟩
    · split at led
      · rename_i dots
        exact .inr (.inl ⟨dots, (Except.ok.inj led).symm⟩)
      · split at led
        · rename_i name found
          exact .inr (.inr ⟨name, (Except.ok.inj led).symm⟩)
        · cases led
        · cases led
  · cases led
  · cases led

/-- What is at or above the end of a step is the end itself, or at or above its start. -/
theorem neighbour_of_follow (led : follow root upper [segment] = .ok lower) {other : List Text}
    (encloses : other <+: lower) : other = lower ∨ other <+: upper := by
  rcases follow_segment led with ⟨-, rfl⟩ | ⟨-, rfl⟩ | ⟨name, rfl⟩
  · exact .inr encloses
  · exact .inr (encloses.trans (List.dropLast_prefix upper))
  · exact List.prefix_concat_iff.mp encloses

theorem prefix_of_follow (led : follow root upper [segment] = .ok lower) (forward : segment ≠ Path.twoDots) :
    upper <+: lower := by
  rcases follow_segment led with ⟨-, rfl⟩ | ⟨dots, -⟩ | ⟨name, rfl⟩
  · exact List.prefix_refl _
  · exact absurd dots forward
  · exact List.prefix_append _ _

theorem filter_route (tree : FileTree) (path : Path) :
    (tree.route path).2.filter (!Path.isTrivial ·) = path.stepSegments := by
  unfold route
  split
  · rfl
  · rfl

theorem route_of_isAbsolute (same : above.isAbsolute = path.isAbsolute) :
    (tree.route above).1 = (tree.route path).1 := by
  have start : ∀ path : Path, (tree.route path).1 = if path.isAbsolute then [] else tree.current := by
    intro path
    cases path with
    | nil => rfl
    | cons first rest =>
      by_cases root : first = .char '/'
      · subst root
        rfl
      · rw [route_relative tree root]
        simp [Path.isAbsolute, root]
  rw [start, start, same]

theorem leadsTo_iff : tree.LeadsTo path place ↔
    follow tree.root (tree.route path).1 path.stepSegments = .ok place ∧
      ∃ entries, tree.root.at? place = some (.directory entries) := by
  rw [← filter_route tree path]
  exact and_congr_left fun ends => (follow_filter_iff ends).symm

/-- The path above leads to a neighbour of the directory; unless it goes back up, to one at or above it. -/
theorem LeadsTo.parent (leads : tree.LeadsTo path lower) (up : path.parent? = some above) :
    ∃ upper, tree.LeadsTo above upper ∧ (∀ other, other <+: lower → other = lower ∨ other <+: upper) ∧
      (Path.twoDots ∉ path.stepSegments → upper <+: lower) := by
  obtain ⟨-, absolute, steps⟩ := Path.isParent_of_parent? up
  obtain ⟨led, ends⟩ := leadsTo_iff.mp leads
  rw [← route_of_isAbsolute absolute] at led
  rcases steps with ⟨none, noneToo⟩ | ⟨last, split⟩
  · rw [noneToo, ← none] at led
    exact ⟨lower, leadsTo_iff.mpr ⟨led, ends⟩, fun _ encloses => .inr encloses, fun _ => List.prefix_refl _⟩
  · rw [split] at led
    obtain ⟨upper, toUpper, toLower⟩ := exists_of_follow_append led
    refine ⟨upper, leadsTo_iff.mpr ⟨toUpper, directory_of_follow_cons toLower⟩,
      fun _ => neighbour_of_follow toLower, fun straight => prefix_of_follow toLower ?_⟩
    rintro rfl
    exact straight (split ▸ List.mem_append_right _ (List.mem_singleton.mpr rfl))

end Steps

section Climbing

variable {hit other : Path} {before after : List Path}

theorem LeadsTo.climb (leads : tree.LeadsTo path home) (member : other ∈ path.upward) :
    ∃ place, tree.LeadsTo other place := by
  induction path using Path.upward.induct generalizing home with
  | case1 path ih =>
    cases up : path.parent? with
    | none =>
      rw [Path.upward_of_top up] at member
      exact ⟨home, List.mem_singleton.mp member ▸ leads⟩
    | some above =>
      rw [Path.upward_of_parent? up] at member
      rcases List.mem_cons.mp member with rfl | higher
      · exact ⟨home, leads⟩
      · obtain ⟨upper, leadsAbove, -, -⟩ := leads.parent up
        exact ih above up leadsAbove higher

/-- A way up passes every directory at or above its start before it comes to a directory that is not below. The
invariant of the way is that what is at or above its start was passed or is at or above the place where it is. -/
theorem LeadsTo.passes (leads : tree.LeadsTo path home) (way : path.upward = before ++ hit :: after)
    (there : tree.LeadsTo hit place) {outer : List Text} (encloses : outer <+: home) :
    outer <+: place ∨ ∃ passed ∈ before, tree.LeadsTo passed outer := by
  induction path using Path.upward.induct generalizing home before with
  | case1 path ih =>
    cases before with
    | nil =>
      have start : path = hit := by
        rw [Path.upward] at way
        exact (List.cons.inj way).1
      subst start
      exact .inl (there.unique leads ▸ encloses)
    | cons first before =>
      cases up : path.parent? with
      | none =>
        rw [Path.upward_of_top up] at way
        have lengths := congrArg List.length way
        simp at lengths
      | some above =>
        rw [Path.upward_of_parent? up] at way
        obtain ⟨rfl, onward⟩ := List.cons.inj way
        obtain ⟨upper, leadsAbove, neighbour, -⟩ := leads.parent up
        rcases neighbour outer encloses with rfl | higher
        · exact .inr ⟨path, List.mem_cons_self, leads⟩
        · refine (ih above up leadsAbove onward higher).imp_right ?_
          rintro ⟨passed, member, led⟩
          exact ⟨passed, List.mem_cons_of_mem _ member, led⟩

/-- Without steps back up the way up leads to directories at or above its start only. -/
theorem LeadsTo.prefix_of_straight (leads : tree.LeadsTo path home) (straight : Path.twoDots ∉ path.stepSegments)
    (member : hit ∈ path.upward) (there : tree.LeadsTo hit place) : place <+: home := by
  induction path using Path.upward.induct generalizing home with
  | case1 path ih =>
    cases up : path.parent? with
    | none =>
      rw [Path.upward_of_top up] at member
      obtain rfl := List.mem_singleton.mp member
      exact there.unique leads ▸ List.prefix_refl _
    | some above =>
      rw [Path.upward_of_parent? up] at member
      rcases List.mem_cons.mp member with rfl | higher
      · exact there.unique leads ▸ List.prefix_refl _
      · obtain ⟨upper, leadsAbove, -, down⟩ := leads.parent up
        have straightAbove : Path.twoDots ∉ above.stepSegments :=
          fun dots => straight ((Path.isParent_of_parent? up).stepSegments_isPrefix.subset dots)
        exact (ih above up leadsAbove straightAbove higher).trans (down straight)

end Climbing

section Joining

variable {other : Path} {name : Text} {found : Entry}

theorem entry_eq_ok_iff :
    tree.entry path = .ok found ↔ ∃ place, tree.locate path = .ok place ∧ tree.root.at? place = some found := by
  constructor
  · intro here
    unfold entry at here
    split at here
    · cases here
    · rename_i place located
      split at here
      · rename_i inner there
        cases here
        exact ⟨place, located, there⟩
      · cases here
  · rintro ⟨place, located, there⟩
    simp only [entry, located, there]

theorem route_of_not_isAbsolute (relative : path.isAbsolute = false) :
    tree.route path = (tree.current, Path.segments path) := by
  cases path with
  | nil => rfl
  | cons first rest => exact route_relative tree (by simpa [Path.isAbsolute] using relative) rest

theorem walk_append_slash (filled : path ≠ []) (led : tree.walk path = .ok place) (back : Path) :
    tree.walk (path ++ .char '/' :: back) = follow tree.root place (Path.segments back) := by
  rw [walk, route_append_slash tree filled, follow_append]
  show (tree.walk path).bind _ = _
  rw [led]
  rfl

/-- A relative path that is joined to the path of a directory leads on from there. -/
theorem LeadsTo.walk_join (leads : tree.LeadsTo path place) (relative : other.isAbsolute = false) :
    tree.walk (path.join other) = follow tree.root place (Path.segments other) := by
  rw [Path.join, if_neg (by simp [relative])]
  rcases List.eq_nil_or_concat' path with rfl | ⟨front, last, rfl⟩
  · have start : tree.current = place := Except.ok.inj (leadsTo_iff.mp leads).1
    rw [if_pos (by simp), List.nil_append, walk, route_of_not_isAbsolute relative, start]
  · by_cases slash : last = .char '/'
    · subst slash
      rw [if_pos (by simp), List.append_assoc, List.singleton_append]
      by_cases empty : front = []
      · subst empty
        have start : [] = place := Except.ok.inj (leadsTo_iff.mp leads).1
        rw [← start]
        rfl
      · obtain ⟨led, ends⟩ := leads
        -- the slash at the end leads nowhere else, so the name may follow it directly
        rw [walk, route_append_slash tree empty] at led
        obtain ⟨middle, toMiddle, toPlace⟩ := exists_of_follow_append led
        have stays : follow tree.root middle [[]] = .ok place := toPlace
        obtain ⟨entries, here⟩ := directory_of_follow_cons stays
        rw [follow_trivial here rfl] at stays
        cases stays
        exact walk_append_slash empty toMiddle other
    · rw [if_neg (by simp [slash])]
      exact walk_append_slash (by simp) leads.1 other

theorem segments_ofText (text : Text) : Path.segments (.ofText text) = (pieces '/' text).map Path.ofText := by
  induction text with
  | nil => rfl
  | cons c rest ih =>
    have split : Path.segments (.ofText (c :: rest)) =
        if Glyph.char c = .char '/' then [] :: Path.segments (.ofText rest)
        else consFirst (.char c) (Path.segments (.ofText rest)) := rfl
    rw [split, ih, pieces]
    by_cases slash : c = '/'
    · subst slash
      rfl
    · obtain ⟨first, others, shape⟩ := List.exists_cons_of_ne_nil (pieces_ne_nil '/' rest)
      rw [if_neg (by simpa using slash), if_neg slash, shape]
      rfl

/-- A step of a path that is looked up as a name, and is not too long for one. -/
def isPlainStep (step : Text) : Bool :=
  isFileName step && !step.contains '\x00' && (Path.ofText step).bytes.length ≤ nameLimit

theorem find?_ofText (entries : List (Text × Entry)) (short : (Path.ofText name).bytes.length ≤ nameLimit) :
    find? entries (.ofText name) = .ok ((some name).filter fun text => (entries.lookup text).isSome) := by
  rw [find?, if_neg (by omega), Path.text?_ofText]

/-- Names lead to what stands behind them. -/
theorem follow_ofText {root : Entry} {steps target : List Text} (plain : ∀ step ∈ steps, isPlainStep step = true) :
    follow root place (steps.map Path.ofText) = .ok target ∧ root.at? target = some found ↔
      target = place ++ steps ∧ root.at? (place ++ steps) = some found := by
  induction steps generalizing place with
  | nil =>
    rw [List.map_nil, follow, List.append_nil, Except.ok.injEq]
    constructor
    · rintro ⟨rfl, there⟩
      exact ⟨rfl, there⟩
    · rintro ⟨rfl, there⟩
      exact ⟨rfl, there⟩
  | cons step rest ih =>
    obtain ⟨first, others⟩ := List.forall_mem_cons.mp plain
    simp only [isPlainStep, Bool.and_eq_true, decide_eq_true_eq] at first
    rw [List.map_cons, follow]
    cases here : root.at? place with
    | none => simp [Entry.at?_append, here]
    | some inner =>
      cases inner with
      | file content => simp [Entry.at?_append, here, Entry.at?, Entry.child?]
      | directory entries =>
        simp only [Path.isTrivial_ofText first.1.1, Path.ofText_ne_twoDots first.1.1, find?_ofText entries first.2,
          Option.filter_some, Bool.false_eq_true, if_false]
        cases child : entries.lookup step with
        | none => simp [Entry.at?_append, here, Entry.at?, Entry.child?, child]
        | some below =>
          rw [show place ++ step :: rest = place ++ [step] ++ rest by simp]
          exact ih others

section Plain

variable (plain : ∀ step ∈ pieces '/' name, isPlainStep step = true)

include plain

theorem not_isAbsolute_of_plain : (Path.ofText name).isAbsolute = false := by
  cases name with
  | nil => rfl
  | cons c rest =>
    by_cases slash : c = '/'
    · subst slash
      exact absurd (plain [] List.mem_cons_self) (by decide)
    · simpa [Path.isAbsolute, Path.ofText] using slash

theorem ne_nil_of_plain : name ≠ [] := by
  rintro rfl
  exact absurd (plain [] List.mem_cons_self) (by decide)

theorem zero_not_mem_of_plain : '\x00' ∉ name := by
  have steps : ∀ step ∈ pieces '/' name, '\x00' ∉ step := by
    intro step member zero
    have here := plain step member
    simp only [isPlainStep, Bool.and_eq_true, List.contains_iff_mem.mpr zero, Bool.not_true, Bool.false_eq_true] at here
    exact here.1.2
  have separator : '\x00' ∉ ['/'] := by decide
  have whole := not_mem_joinWith separator steps
  rwa [joinWith_pieces] at whole

/-- A name in a directory leads to what stands there, if the path to it is not too long. -/
theorem LeadsTo.locate_join (leads : tree.LeadsTo path place) (whole : .char '\x00' ∉ path) {target : List Text} :
    tree.locate (path.join (.ofText name)) = .ok target ∧ tree.root.at? target = some found ↔
      (path.join (.ofText name)).bytes.length < pathLimit ∧ target = place ++ pieces '/' name ∧
        tree.root.at? (place ++ pieces '/' name) = some found := by
  have spelled : spellingFault? (path.join (.ofText name)) = none ↔
      (path.join (.ofText name)).bytes.length < pathLimit := by
    obtain ⟨front, joined, shape⟩ := Path.exists_join_eq path (.ofText name)
    have filled : path.join (.ofText name) ≠ [] := by
      rw [joined]
      simp [Path.ofText, ne_nil_of_plain plain]
    have noZero : .char '\x00' ∉ path.join (.ofText name) := by
      have inName : Glyph.char '\x00' ∉ Path.ofText name := by
        simpa [Path.ofText] using zero_not_mem_of_plain plain
      rw [joined, List.mem_append, not_or]
      refine ⟨?_, inName⟩
      rcases shape with rfl | rfl | rfl
      · exact List.not_mem_nil
      · exact whole
      · simpa using whole
    simp only [spellingFault?_eq_none_iff, noZero, filled, not_false_eq_true, ne_eq, true_and]
  rw [locate_eq_ok_iff, leads.walk_join (not_isAbsolute_of_plain plain), segments_ofText, and_assoc,
    follow_ofText plain, spelled]

end Plain

end Joining

end FileTree

end RouteComments
