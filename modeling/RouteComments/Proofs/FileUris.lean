import Mathlib.Data.List.Basic
import RouteComments.Editor.Uri.Basic
import RouteComments.Path.Map
import RouteComments.Proofs.GlyphBytes
import RouteComments.Proofs.Texts

set_option autoImplicit false

namespace RouteComments

open Text

namespace Path

/-- A path whose glyphs are the ones that its bytes are read as. -/
def IsRead (path : Path) : Prop :=
  glyphs path.bytes = path

theorem bytes_append (front back : Path) : bytes (front ++ back) = bytes front ++ bytes back := by
  simp [bytes]

theorem bytes_cons_slash (path : Path) : bytes (.char '/' :: path) = 0x2f :: bytes path := rfl

theorem isRead_glyphs (bytes : List UInt8) : IsRead (glyphs bytes) := by
  rw [IsRead, Path.bytes, bytes_glyphs]

theorem isRead_ofText (text : Text) : IsRead (ofText text) := by
  have written : (ofText text).bytes = encode text := by
    simp [ofText, bytes, encode, List.flatMap_map, Glyph.bytes]
  rw [IsRead, written, glyphs_encode, ofText]

theorem glyphs_append_slash (front back : List UInt8) :
    glyphs (front ++ 0x2f :: back) = glyphs front ++ .char '/' :: glyphs back :=
  glyphs_append_ascii (by decide) front back

/-- What stands between two slashes that are one has no bytes. -/
theorem eq_of_append_slash {front back between longer rest : Path} (shape : longer = front ++ between)
    (slash : .char '/' :: rest = between ++ .char '/' :: back) (sizes : longer.bytes.length = front.bytes.length) :
    longer = front := by
  cases between with
  | nil => rw [shape, List.append_nil]
  | cons glyph others =>
    obtain ⟨rfl, -⟩ := List.cons.inj slash
    rw [shape, bytes_append, bytes_cons_slash, List.length_append, List.length_cons] at sizes
    omega

/-- A path is read part by part between its slashes. -/
theorem isRead_append_slash {front back : Path} :
    IsRead (front ++ .char '/' :: back) ↔ IsRead front ∧ IsRead back := by
  have parts : glyphs (bytes (front ++ .char '/' :: back)) = glyphs front.bytes ++ .char '/' :: glyphs back.bytes := by
    rw [bytes_append, bytes_cons_slash, glyphs_append_slash]
  constructor
  · intro read
    rw [IsRead, parts] at read
    have kept : Path.bytes (glyphs front.bytes) = front.bytes := bytes_glyphs _
    have aligned : glyphs front.bytes = front := by
      rcases List.append_eq_append_iff.mp read with ⟨between, shape, slash⟩ | ⟨between, shape, slash⟩
      · exact (eq_of_append_slash shape slash (by rw [kept])).symm
      · exact eq_of_append_slash shape slash (by rw [kept])
    rw [aligned] at read
    exact ⟨aligned, (List.cons.inj (List.append_cancel_left read)).2⟩
  · rintro ⟨first, second⟩
    rw [IsRead, parts, first, second]

theorem isRead_nil : IsRead [] := by
  simp [IsRead, bytes, glyphs]

theorem IsRead.join {path other : Path} (first : IsRead path) (second : IsRead other) : IsRead (path.join other) := by
  unfold Path.join
  split
  · exact second
  · split
    · rename_i joins
      rcases List.eq_nil_or_concat path with rfl | ⟨front, last, rfl⟩
      · exact second
      · rw [List.concat_eq_append] at joins first ⊢
        have slash : last = .char '/' := by simpa using joins
        rw [slash] at first ⊢
        rw [List.append_assoc, List.singleton_append]
        exact isRead_append_slash.mpr ⟨(isRead_append_slash.mp first).1, second⟩
    · exact isRead_append_slash.mpr ⟨first, second⟩

theorem IsRead.segment {path segment : Path} (read : IsRead path) (member : segment ∈ path.segments) :
    IsRead segment := by
  by_cases slash : Glyph.char '/' ∈ path
  · obtain ⟨front, back, rfl⟩ := List.append_of_mem slash
    obtain ⟨first, second⟩ := isRead_append_slash.mp read
    rw [segments, pieces_append_separator] at member
    rcases List.mem_append.mp member with inFront | inBack
    · exact first.segment inFront
    · exact second.segment inBack
  · rw [segments, pieces_eq_singleton slash, List.mem_singleton] at member
    rwa [member]
termination_by path.length

/-- An absolute path that is read from its bytes. -/
structure Rooted (path : Path) : Prop where
  read : path.IsRead
  absolute : path.isAbsolute = true

theorem Rooted.join {path : Path} (rooted : path.Rooted) (name : Text) : (path.join (ofText name)).Rooted where
  read := rooted.read.join (isRead_ofText name)
  absolute := by
    have start := rooted.absolute
    unfold Path.join
    split
    · assumption
    · cases path with
      | nil => cases start
      | cons first rest =>
        split
        · exact start
        · exact start

def stepSegments (path : Path) : List Path :=
  path.segments.filter (!isTrivial ·)

theorem components_absolute (rest : Path) :
    components (.char '/' :: rest) = .root :: rest.stepSegments.map fun segment =>
      if segment = twoDots then .parent else .name segment := rfl

/-- The path that goes through some segments from the root. -/
def throughSegments (segments : List Path) : Path :=
  segments.flatMap (.char '/' :: ·)

theorem throughSegments_eq_joinWith {segments : List Path} (filled : segments ≠ []) :
    throughSegments segments = .char '/' :: joinWith [.char '/'] segments := by
  match segments, filled with
  | [segment], _ => simp [throughSegments, joinWith]
  | segment :: next :: rest, _ =>
    have later := throughSegments_eq_joinWith (List.cons_ne_nil next rest)
    simp only [throughSegments, List.flatMap_cons] at later ⊢
    simp [joinWith, later]

/-- A path through segments has those of them as steps that are not trivial. -/
theorem stepSegments_joinWith {segments : List Path} (unbroken : ∀ segment ∈ segments, .char '/' ∉ segment) :
    stepSegments (joinWith [.char '/'] segments) = segments.filter (!isTrivial ·) := by
  cases segments with
  | nil => rfl
  | cons first rest =>
    have single : ∀ segment ∈ first :: rest, pieces (.char '/') segment = [segment] :=
      fun segment member => pieces_eq_singleton (unbroken segment member)
    rw [stepSegments, Path.segments, pieces_joinWith _ (List.cons_ne_nil first rest), List.flatMap_congr single,
      List.flatMap_singleton']

theorem IsRead.append_throughSegments {front : Path} {segments : List Path} (first : IsRead front)
    (read : ∀ segment ∈ segments, IsRead segment) : IsRead (front ++ throughSegments segments) := by
  induction segments generalizing front with
  | nil => simpa [throughSegments] using first
  | cons segment rest ih =>
    have longer : IsRead (front ++ .char '/' :: segment) :=
      isRead_append_slash.mpr ⟨first, read segment List.mem_cons_self⟩
    have whole := ih longer fun other member => read other (List.mem_cons_of_mem _ member)
    simpa [throughSegments] using whole

/-- A slash at the end does not count. -/
theorem components_append_slash (rest : Path) :
    components (.char '/' :: rest ++ [.char '/']) = components (.char '/' :: rest) := by
  have steps : stepSegments (rest ++ [.char '/']) = rest.stepSegments := by
    rw [stepSegments, segments, pieces_append_separator, List.filter_append]
    simp [stepSegments, segments, pieces, isTrivial]
  rw [List.cons_append, components_absolute, components_absolute, steps]

end Path

namespace Editor.Uri

theorem hexValue?_upperHex {n : Nat} (small : n < 16) : hexValue? (upperHex n) = some n := by
  have all : ∀ n < 16, hexValue? (upperHex n) = some n := by decide
  exact all n small

theorem decodeBytes_percentByte (byte : UInt8) (rest : Text) :
    decodeBytes (percentByte byte ++ rest) = byte :: decodeBytes rest := by
  have bound := byte.toNat_lt
  have number : 16 * (byte.toNat / 16) + byte.toNat % 16 = byte.toNat := Nat.div_add_mod _ _
  rw [percentByte, List.cons_append, List.cons_append, List.cons_append, List.nil_append, decodeBytes,
    hexValue?_upperHex (by omega), hexValue?_upperHex (by omega)]
  simp only [number, UInt8.ofNat_toNat]

theorem decodeBytes_percentBytes (bytes : List UInt8) (rest : Text) :
    decodeBytes (bytes.flatMap percentByte ++ rest) = bytes ++ decodeBytes rest := by
  induction bytes with
  | nil => rfl
  | cons byte others ih =>
    rw [List.flatMap_cons, List.append_assoc, decodeBytes_percentByte, ih, List.cons_append]

theorem decodeBytes_cons {c : Char} (plain : c ≠ '%') (rest : Text) :
    decodeBytes (c :: rest) = String.utf8EncodeChar c ++ decodeBytes rest := by
  rw [decodeBytes]
  intro high low others same
  exact absurd same plain

/-- The bytes of a name are what its text in a URI stands for. -/
theorem decodeBytes_encodeName (name : Path) (rest : Text) :
    decodeBytes (encodeName inNameSet name ++ rest) = name.bytes ++ decodeBytes rest := by
  induction name with
  | nil => rfl
  | cons glyph others ih =>
    have split : encodeName inNameSet (glyph :: others) =
        encodeName inNameSet [glyph] ++ encodeName inNameSet others := by
      simp [encodeName]
    have parts : Path.bytes (glyph :: others) = glyph.bytes ++ Path.bytes others := rfl
    rw [split, List.append_assoc, parts, List.append_assoc, ← ih]
    cases glyph with
    | broken bytes => simpa [encodeName, Glyph.bytes] using decodeBytes_percentBytes bytes _
    | char c =>
      by_cases inSet : inNameSet c = true
      · simpa [encodeName, encode, inSet, Glyph.bytes] using decodeBytes_percentBytes (String.utf8EncodeChar c) _
      · have plain : c ≠ '%' := by
          rintro rfl
          exact inSet rfl
        simpa [encodeName, encode, inSet, Glyph.bytes] using decodeBytes_cons plain _

theorem componentText_of_segment (segment : Path) :
    componentText (if segment = Path.twoDots then .parent else .name segment) =
      '/' :: encodeName inNameSet segment := by
  split
  · rename_i same
    rw [same]
    rfl
  · rfl

def fileText (path : Path) : Text :=
  let written := path.components.flatMap componentText
  if written.isEmpty then ['/'] else written

/-- The text of a file that is not the root has its steps behind slashes. -/
theorem fileText_eq {rest : Path} (filled : rest.stepSegments ≠ []) :
    fileText (.char '/' :: rest) = rest.stepSegments.flatMap fun segment => '/' :: encodeName inNameSet segment := by
  have written : (Path.components (.char '/' :: rest)).flatMap componentText =
      rest.stepSegments.flatMap fun segment => '/' :: encodeName inNameSet segment := by
    rw [Path.components_absolute, List.flatMap_cons, List.flatMap_map]
    simp only [componentText_of_segment]
    rfl
  cases steps : rest.stepSegments with
  | nil => exact absurd steps filled
  | cons segment others =>
    rw [steps] at written
    simp [fileText, written]

theorem fileText_root {rest : Path} (none : rest.stepSegments = []) : fileText (.char '/' :: rest) = ['/'] := by
  rw [fileText, Path.components_absolute, none]
  rfl

theorem head?_fileText (rest : Path) : (fileText (.char '/' :: rest)).head? = some '/' := by
  by_cases filled : rest.stepSegments = []
  · rw [fileText_root filled]
    rfl
  · rw [fileText_eq filled]
    cases steps : rest.stepSegments with
    | nil => exact absurd steps filled
    | cons segment others => rfl

/-- The names in a URI stand for the path through them. -/
theorem decodeBytes_segments (segments : List Path) :
    decodeBytes (segments.flatMap fun segment => '/' :: encodeName inNameSet segment) =
      (Path.throughSegments segments).bytes := by
  induction segments with
  | nil => rfl
  | cons segment others ih =>
    have slash : String.utf8EncodeChar '/' = [0x2f] := rfl
    rw [List.flatMap_cons, List.cons_append, decodeBytes_cons (by decide), decodeBytes_encodeName, ih, slash]
    simp [Path.throughSegments, Path.bytes, slash, Glyph.bytes]

/-- The text of an absolute path is read as a path with the same steps. -/
theorem glyphs_decodeBytes_fileText {rest : Path} (read : Path.IsRead (.char '/' :: rest)) :
    ∃ behind : Path, glyphs (decodeBytes (fileText (.char '/' :: rest))) = .char '/' :: behind ∧
      behind.stepSegments = rest.stepSegments := by
  by_cases filled : rest.stepSegments = []
  · refine ⟨[], ?_, by rw [filled]; rfl⟩
    have byte : decodeBytes ['/'] = [] ++ 0x2f :: [] := rfl
    rw [fileText_root filled, byte, Path.glyphs_append_slash]
    simp [glyphs]
  · have split : Path.IsRead ([] ++ .char '/' :: rest) := read
    have readRest : rest.IsRead := (Path.isRead_append_slash.mp split).2
    have readSteps : ∀ segment ∈ rest.stepSegments, segment.IsRead := fun segment member =>
      readRest.segment (List.mem_filter.mp member).1
    have whole : (Path.throughSegments rest.stepSegments).IsRead := Path.isRead_nil.append_throughSegments readSteps
    have unbroken : ∀ segment ∈ rest.stepSegments, Glyph.char '/' ∉ segment := fun segment member =>
      not_mem_of_mem_pieces (List.mem_filter.mp member).1
    refine ⟨joinWith [.char '/'] rest.stepSegments, ?_, ?_⟩
    · rw [fileText_eq filled, decodeBytes_segments, whole, Path.throughSegments_eq_joinWith filled]
    · rw [Path.stepSegments_joinWith unbroken, Path.stepSegments, List.filter_filter]
      simp only [Bool.and_self]

theorem exists_of_isAbsolute {path : Path} (absolute : path.isAbsolute = true) :
    ∃ rest : Path, path = .char '/' :: rest := by
  cases path with
  | nil => cases absolute
  | cons first rest =>
    simp only [Path.isAbsolute, List.head?_cons, beq_iff_eq, Option.some.injEq] at absolute
    exact ⟨rest, by rw [absolute]⟩

/-- The URI of an absolute path names a file with the components of the path. -/
theorem filePath?_ofPath? {path : Path} {uri : Uri} (read : path.IsRead) (named : ofPath? path = some uri) :
    ∃ file, uri.filePath? = some file ∧ file.same path = true := by
  unfold ofPath? at named
  split at named
  · rename_i absolute
    obtain ⟨rest, rfl⟩ := exists_of_isAbsolute absolute
    obtain ⟨behind, decoded, steps⟩ := glyphs_decodeBytes_fileText read
    have components : Path.components (.char '/' :: behind) = Path.components (.char '/' :: rest) := by
      rw [Path.components_absolute, Path.components_absolute, steps]
    have spelled : uri.path = fileText (.char '/' :: rest) := by
      cases named
      rfl
    have here : (uri.isLocal && decide (uri.path.head? = some '/') && !uri.rootless) = true := by
      rw [spelled, head?_fileText]
      cases named
      rfl
    rw [filePath?, if_pos here, spelled, decoded]
    refine ⟨_, rfl, ?_⟩
    rw [PathMap.same_iff, ← components]
    split
    · exact Path.components_append_slash behind
    · rfl
  · cases named

theorem exists_uri {path : Path} (rooted : path.Rooted) : ∃ uri, ofPath? path = some uri := by
  rw [ofPath?, if_pos rooted.absolute]
  exact ⟨_, rfl⟩

/-- Paths with the same components have no two URIs. -/
theorem eq_of_same {first second : Path} {uri uriToo : Uri} (named : ofPath? first = some uri)
    (namedToo : ofPath? second = some uriToo) (same : first.same second = true) : uri = uriToo := by
  rw [PathMap.same_iff] at same
  unfold ofPath? at named namedToo
  split at named
  · split at namedToo
    · rw [same] at named
      exact Option.some.inj (named.symm.trans namedToo)
    · cases namedToo
  · cases named

/-- Absolute paths have one URI exactly if they have the same components. -/
theorem ofPath?_eq_iff {first second : Path} (rooted : first.Rooted) (rootedToo : second.Rooted) :
    ofPath? first = ofPath? second ↔ first.same second = true := by
  constructor
  · intro one
    obtain ⟨uri, named⟩ := exists_uri rooted
    obtain ⟨file, found, same⟩ := filePath?_ofPath? rooted.read named
    obtain ⟨fileToo, foundToo, sameToo⟩ := filePath?_ofPath? rootedToo.read (one ▸ named)
    cases found.symm.trans foundToo
    rw [PathMap.same_iff] at same sameToo ⊢
    exact same.symm.trans sameToo
  · intro same
    obtain ⟨uri, named⟩ := exists_uri rooted
    obtain ⟨uriToo, namedToo⟩ := exists_uri rootedToo
    rw [named, namedToo, eq_of_same named namedToo same]

theorem text_ofPath? {path : Path} {uri : Uri} (named : ofPath? path = some uri) :
    uri.text = "file://".toList ++ uri.path ∧
      uri = { scheme := fileScheme, authority := some Authority.blank, path := uri.path, rootless := false,
              tail := [] } := by
  unfold ofPath? at named
  split at named
  · cases named
    exact ⟨by simp [text, fileScheme, Authority.blank, Authority.text], rfl⟩
  · cases named

/-- URIs of files are told apart by their texts. -/
theorem eq_of_text_eq {first second : Path} {uri uriToo : Uri} (named : ofPath? first = some uri)
    (namedToo : ofPath? second = some uriToo) (same : uri.text = uriToo.text) : uri = uriToo := by
  obtain ⟨text, shape⟩ := text_ofPath? named
  obtain ⟨textToo, shapeToo⟩ := text_ofPath? namedToo
  rw [text, textToo] at same
  rw [shape, shapeToo, List.append_cancel_left same]

/-- A URI names an absolute path that is read from its bytes. -/
theorem rooted_filePath? {uri : Uri} {path : Path} (named : uri.filePath? = some path) : path.Rooted := by
  unfold filePath? at named
  split at named
  · rename_i here
    simp only [Bool.and_eq_true, decide_eq_true_eq] at here
    obtain ⟨rest, spelled⟩ : ∃ rest, uri.path = '/' :: rest := List.head?_eq_some_iff.mp here.1.2
    have bytes : decodeBytes uri.path = [] ++ 0x2f :: decodeBytes rest := by
      rw [spelled, decodeBytes_cons (by decide)]
      rfl
    have decoded : glyphs (decodeBytes uri.path) = .char '/' :: glyphs (decodeBytes rest) := by
      rw [bytes, Path.glyphs_append_slash]
      simp [glyphs]
    have read : Path.IsRead (glyphs (decodeBytes uri.path)) := Path.isRead_glyphs _
    simp only [Option.some.injEq] at named
    rw [← named]
    split
    · exact ⟨Path.isRead_append_slash.mpr ⟨read, Path.isRead_nil⟩, by rw [decoded]; rfl⟩
    · exact ⟨read, by rw [decoded]; rfl⟩
  · cases named

end Editor.Uri

end RouteComments
