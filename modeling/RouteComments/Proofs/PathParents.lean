import RouteComments.Proofs.FileUris

set_option autoImplicit false

namespace RouteComments

open Text

namespace Path

section Parents

variable {path above : Path} {segments kept : List Path}

theorem filter_dropWhile_isTrivial (segments : List Path) :
    (segments.dropWhile isTrivial).filter (!isTrivial ·) = segments.filter (!isTrivial ·) := by
  induction segments with
  | nil => rfl
  | cons segment rest ih =>
    by_cases trivial : isTrivial segment = true
    · simp [trivial, ih]
    · simp [trivial]

theorem dropLastStep?_eq_none (none : dropLastStep? segments = none) : segments.filter (!isTrivial ·) = [] := by
  unfold dropLastStep? at none
  split at none
  · rename_i empty
    have reversed := filter_dropWhile_isTrivial segments.reverse
    rw [empty, List.filter_reverse] at reversed
    exact List.reverse_eq_nil_iff.mp reversed.symm
  · cases none

/-- One step is dropped. -/
theorem filter_of_dropLastStep? (dropped : dropLastStep? segments = some kept) :
    kept <+: segments ∧ ∃ last, segments.filter (!isTrivial ·) = kept.filter (!isTrivial ·) ++ [last] := by
  constructor
  · obtain ⟨rest, shape, -⟩ := dropLastStep?_eq_some dropped
    exact ⟨rest, shape.symm⟩
  · unfold dropLastStep? at dropped
    split at dropped
    · cases dropped
    · rename_i last before behind
      cases dropped
      have step : isTrivial last = false := by
        have stops := List.head?_dropWhile_not isTrivial segments.reverse
        rw [behind] at stops
        simpa using stops
      have reversed := filter_dropWhile_isTrivial segments.reverse
      rw [behind, List.filter_cons_of_pos (by simp [step]), ← filter_dropWhile_isTrivial before,
        List.filter_reverse] at reversed
      refine ⟨last, ?_⟩
      rw [List.filter_reverse, ← List.reverse_cons, reversed, List.reverse_reverse]

theorem stepSegments_cons_slash (rest : Path) : stepSegments (.char '/' :: rest) = stepSegments rest := rfl

theorem not_isAbsolute_of_isPrefix (front : above <+: path) (relative : path.isAbsolute = false) :
    above.isAbsolute = false := by
  obtain ⟨back, rfl⟩ := front
  cases above with
  | nil => rfl
  | cons first rest => exact relative

/-- One path is the spelling of another without its last step. Where the other has no step, it is a dot, and the path
above it is empty. -/
structure IsParent (above path : Path) : Prop where
  spelled : above <+: path
  absolute : above.isAbsolute = path.isAbsolute
  steps : (above.stepSegments = [] ∧ path.stepSegments = []) ∨
    ∃ last, path.stepSegments = above.stepSegments ++ [last]

theorem IsParent.stepSegments_isPrefix (parent : IsParent above path) : above.stepSegments <+: path.stepSegments := by
  rcases parent.steps with ⟨none, -⟩ | ⟨last, steps⟩
  · exact none ▸ List.nil_prefix
  · exact ⟨[last], steps.symm⟩

theorem isParent_of_root {rest : Path} (dropped : dropLastStep? rest.segments = some kept) :
    IsParent (.char '/' :: joinWith [.char '/'] kept) (.char '/' :: rest) := by
  obtain ⟨before, last, steps⟩ := filter_of_dropLastStep? dropped
  have unbroken : ∀ segment ∈ kept, Glyph.char '/' ∉ segment :=
    fun segment member => not_mem_of_mem_pieces (before.subset member)
  refine ⟨?_, rfl, .inr ⟨last, ?_⟩⟩
  · obtain ⟨back, shape⟩ := before
    have front := joinWith_prefix [.char '/'] kept back
    rw [shape, Path.segments, joinWith_pieces] at front
    exact (List.prefix_cons_inj _).mpr front
  · rw [stepSegments_cons_slash, stepSegments_cons_slash, stepSegments_joinWith unbroken]
    exact steps

theorem isParent_of_relative {first : Path} {rest : List Path} (relative : path.isAbsolute = false)
    (split : path.segments = first :: rest) (dropped : dropLastStep? rest = some kept) :
    IsParent (joinWith [.char '/'] (first :: kept)) path := by
  obtain ⟨before, last, steps⟩ := filter_of_dropLastStep? dropped
  have unbroken : ∀ segment ∈ first :: kept, Glyph.char '/' ∉ segment := by
    intro segment member
    have listed : segment ∈ path.segments := split ▸ ((List.prefix_cons_inj first).mpr before).subset member
    exact not_mem_of_mem_pieces listed
  have spelled : joinWith [.char '/'] (first :: kept) <+: path := by
    obtain ⟨back, shape⟩ := before
    have front := joinWith_prefix [.char '/'] (first :: kept) back
    rw [List.cons_append, shape, ← split, Path.segments, joinWith_pieces] at front
    exact front
  refine ⟨spelled, (not_isAbsolute_of_isPrefix spelled relative).trans relative.symm, .inr ⟨last, ?_⟩⟩
  rw [stepSegments_joinWith unbroken, stepSegments, split, List.filter_cons, List.filter_cons, steps]
  split <;> rfl

/-- The path without its last component is the spelling without the last step. -/
theorem isParent_of_parent? (up : path.parent? = some above) : IsParent above path := by
  unfold parent? at up
  split at up
  · obtain ⟨kept, dropped, rfl⟩ := Option.map_eq_some_iff.mp up
    exact isParent_of_root dropped
  · rename_i notRoot
    have relative : path.isAbsolute = false := by
      cases path with
      | nil => rfl
      | cons first rest => simpa [isAbsolute] using fun same : first = .char '/' => notRoot rest (same ▸ rfl)
    split at up
    · cases up
    · rename_i first rest split
      split at up
      · rename_i kept dropped
        cases up
        exact isParent_of_relative relative split dropped
      · rename_i none
        split at up
        · cases up
        · cases up
          have steps : path.stepSegments = if !isTrivial first then [first] else [] := by
            rw [stepSegments, split, List.filter_cons, dropLastStep?_eq_none none]
          refine ⟨List.nil_prefix, relative.symm, ?_⟩
          rw [steps]
          split
          · exact .inr ⟨first, rfl⟩
          · exact .inl ⟨rfl, rfl⟩

theorem stepSegments_of_parent?_eq_none (top : path.parent? = none) : path.stepSegments = [] := by
  unfold parent? at top
  split at top
  · rw [stepSegments_cons_slash]
    exact dropLastStep?_eq_none (Option.map_eq_none_iff.mp top)
  · split at top
    · rename_i empty
      rw [stepSegments, empty]
      rfl
    · rename_i first rest split
      split at top
      · cases top
      · rename_i none
        split at top
        · rename_i empty
          rw [stepSegments, split, List.filter_cons_of_neg (by simp [isTrivial, empty]), dropLastStep?_eq_none none]
        · cases top

end Parents

section Upward

variable {path above : Path}

theorem upward_of_parent? (up : path.parent? = some above) : path.upward = path :: above.upward := by
  rw [upward]
  split
  · rename_i other found
    cases up.symm.trans found
    rfl
  · rename_i none
    rw [up] at none
    cases none

theorem upward_of_top (top : path.parent? = none) : path.upward = [path] := by
  rw [upward]
  split
  · rename_i other found
    rw [top] at found
    cases found
  · rfl

/-- The way up is hardly longer than its path. -/
theorem length_upward_le (path : Path) : path.upward.length ≤ path.length + 1 := by
  induction path using upward.induct with
  | case1 path ih =>
    cases up : path.parent? with
    | none => simp [upward_of_top up]
    | some above =>
      have shorter := length_lt_of_parent? up
      have higher := ih above up
      rw [upward_of_parent? up, List.length_cons]
      omega

theorem prefix_of_mem_upward {other : Path} (member : other ∈ path.upward) : other <+: path := by
  induction path using upward.induct with
  | case1 path ih =>
    cases up : path.parent? with
    | none =>
      rw [upward_of_top up] at member
      exact List.mem_singleton.mp member ▸ List.prefix_refl _
    | some above =>
      rw [upward_of_parent? up] at member
      rcases List.mem_cons.mp member with rfl | higher
      · exact List.prefix_refl _
      · exact (ih above up higher).trans (isParent_of_parent? up).spelled

end Upward

/-- A path without a component that leads back up has no such step. -/
theorem twoDots_not_mem_stepSegments {path : Path} (forward : .parent ∉ path.components) :
    twoDots ∉ path.stepSegments := by
  intro dots
  have parent : ∀ segments : List Path, twoDots ∈ segments.filter (!isTrivial ·) → .parent ∈ steps segments :=
    fun segments member => List.mem_map.mpr ⟨twoDots, member, if_pos rfl⟩
  apply forward
  unfold components
  split
  · rw [stepSegments_cons_slash] at dots
    exact List.mem_cons_of_mem _ (parent _ dots)
  · unfold stepSegments at dots
    split
    · rename_i split
      rw [split] at dots
      exact List.mem_cons_of_mem _ (parent _ dots)
    · exact parent _ dots

/-- A joined path ends in the path that is joined to it. -/
theorem exists_join_eq (path other : Path) :
    ∃ front, path.join other = front ++ other ∧ (front = [] ∨ front = path ∨ front = path ++ [.char '/']) := by
  unfold join
  split
  · exact ⟨[], rfl, .inl rfl⟩
  · split
    · exact ⟨path, rfl, .inr (.inl rfl)⟩
    · exact ⟨path ++ [.char '/'], by simp, .inr (.inr rfl)⟩

theorem length_bytes_join_le (path other : Path) :
    (path.join other).bytes.length ≤ path.bytes.length + other.bytes.length + 1 := by
  obtain ⟨front, joined, shape⟩ := exists_join_eq path other
  have slash : (bytes [.char '/']).length = 1 := by decide
  rw [joined, bytes_append, List.length_append]
  rcases shape with rfl | rfl | rfl
  · simp only [bytes, List.flatMap_nil, List.length_nil]
    omega
  · omega
  · rw [bytes_append, List.length_append]
    omega

end Path

end RouteComments
