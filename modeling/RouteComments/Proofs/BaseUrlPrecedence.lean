import RouteComments.Editor.Snapshot
import RouteComments.Proofs.Texts
import RouteComments.Workspace.Disk

set_option autoImplicit false

namespace RouteComments

open Text

namespace Config

/-- A text without characters other than blanks. -/
def Blank (text : Text) : Prop :=
  ∀ c ∈ text, isBlank c = true

instance (text : Text) : Decidable (Blank text) :=
  inferInstanceAs (Decidable (∀ c ∈ text, isBlank c = true))

theorem trim_eq_nil_iff {text : Text} : trim text = [] ↔ Blank text :=
  dropAround_eq_nil_iff

theorem nonblank?_of_blank {text : Text} (blank : Blank text) : nonblank? text = none := by
  rw [nonblank?, trim_eq_nil_iff.mpr blank]

theorem nonblank?_of_not_blank {text : Text} (solid : ¬ Blank text) : nonblank? text = some (trim text) := by
  unfold nonblank?
  split
  · rename_i empty
    exact absurd (trim_eq_nil_iff.mp empty) solid
  · rfl

theorem bind_nonblank?_eq_none {value : Option Text} (absent : ∀ text ∈ value, Blank text) :
    value.bind nonblank? = none :=
  Option.bind_eq_none_iff.mpr fun text present => nonblank?_of_blank (absent text present)

/-- A value that counts is present and not blank; any other is missing or blank. -/
theorem present_or_absent (value : Option Text) :
    (∃ given, value = some given ∧ ¬ Blank given) ∨ ∀ text ∈ value, Blank text := by
  cases value with
  | none => exact .inr fun text present => nomatch present
  | some given =>
    by_cases blank : Blank given
    · exact .inr fun text present => Option.mem_some.mp present ▸ blank
    · exact .inl ⟨given, rfl, blank⟩

section Precedence

variable {override configured : Option Text} {derived url : Text}

/-- The base URL that goes before the others: `override` is the value of the command line or the editor, `configured`
the one of the configuration file, and `derived` what the project gives. -/
inductive Preferred (override configured : Option Text) (derived : Text) : Text → Prop
  | override {given : Text} (present : override = some given) (solid : ¬ Blank given) :
      Preferred override configured derived (trim given)
  | configured {given : Text} (absent : ∀ text ∈ override, Blank text) (present : configured = some given)
      (solid : ¬ Blank given) : Preferred override configured derived (trim given)
  | derived (absent : ∀ text ∈ override, Blank text) (unconfigured : ∀ text ∈ configured, Blank text) :
      Preferred override configured derived derived

/-- A blank value that stands in front of one of the configuration file, where the latter makes a difference. -/
def Hides (override configured : Option Text) (derived : Text) : Prop :=
  ∃ blank given, override = some blank ∧ Blank blank ∧
    configured = some given ∧ ¬ Blank given ∧ trim given ≠ derived

theorem preferred_iff :
    Preferred override configured derived url ↔
      ((override.bind nonblank?).or (configured.bind nonblank?)).getD derived = url := by
  constructor
  · rintro (⟨rfl, solid⟩ | ⟨absent, rfl, solid⟩ | ⟨absent, unconfigured⟩)
    · rw [Option.bind_some, nonblank?_of_not_blank solid, Option.some_or, Option.getD_some]
    · rw [bind_nonblank?_eq_none absent, Option.none_or, Option.bind_some, nonblank?_of_not_blank solid,
        Option.getD_some]
    · rw [bind_nonblank?_eq_none absent, Option.none_or, bind_nonblank?_eq_none unconfigured, Option.getD_none]
  · rintro rfl
    obtain ⟨given, rfl, solid⟩ | absent := present_or_absent override
    · rw [Option.bind_some, nonblank?_of_not_blank solid, Option.some_or, Option.getD_some]
      exact .override rfl solid
    · rw [bind_nonblank?_eq_none absent, Option.none_or]
      obtain ⟨given, rfl, solid⟩ | unconfigured := present_or_absent configured
      · rw [Option.bind_some, nonblank?_of_not_blank solid, Option.getD_some]
        exact .configured absent rfl solid
      · rw [bind_nonblank?_eq_none unconfigured, Option.getD_none]
        exact .derived absent unconfigured

instance : Decidable (Preferred override configured derived url) :=
  decidable_of_iff _ preferred_iff.symm

theorem baseUrl_withBaseUrl (config : Config) (override : Option Text) :
    (config.withBaseUrl override).baseUrl = override.or config.baseUrl := by
  cases override <;> rfl

/-- The first value that is present decides even if it is blank. -/
theorem preferred_first_iff :
    Preferred override configured derived (((override.or configured).bind nonblank?).getD derived) ↔
      ¬ Hides override configured derived := by
  rw [preferred_iff]
  cases override with
  | none => simp [Hides]
  | some text =>
    by_cases blank : Blank text
    -- The blank value is taken and dropped, so the value behind it counts in the rule only.
    · obtain ⟨given, rfl, solid⟩ | unconfigured := present_or_absent configured
      · simp [Hides, nonblank?_of_blank blank, nonblank?_of_not_blank solid, blank, solid]
      · have notHidden : ¬ Hides (some text) configured derived := by
          rintro ⟨-, given, -, -, present, solid, -⟩
          exact solid (unconfigured given present)
        simp [nonblank?_of_blank blank, bind_nonblank?_eq_none unconfigured, notHidden]
    · simp [Hides, nonblank?_of_not_blank blank, blank]

theorem first_of_hides (hides : Hides override configured derived) :
    ((override.or configured).bind nonblank?).getD derived = derived := by
  obtain ⟨text, given, rfl, blank, -⟩ := hides
  simp [nonblank?_of_blank blank]

end Precedence

end Config

/-- The configuration that an editor finds for a scope, before its own base URL is put in front. -/
def Editor.Snapshot.foundConfig (tree : FileTree) (scope : Option Path) : Config :=
  match scope.map tree.discoverConfig with
  | some (.ok config) => config
  | _ => Config.standard

namespace Host

variable {σ : Type}

/-- The address of the local server of the project. -/
def localUrl (host : Host σ) (state : σ) : Text :=
  LocalServer.baseUrl (LocalServer.port (host.projectFile state))

section Reads

variable {host : Host σ} {state : σ} {config : Config} {override : Option Text}

theorem baseUrl_of_reads (reads : host.setting state = (config.withBaseUrl override).value?) :
    host.baseUrl state = ((override.or config.baseUrl).bind Config.nonblank?).getD (host.localUrl state) := by
  have isKey : Config.baseUrlKeys.contains "baseUrl".toList = true := by decide
  rw [baseUrl, reads, Config.value?, if_pos isKey, Config.baseUrl_withBaseUrl, localUrl]
  cases (override.or config.baseUrl).bind Config.nonblank? <;> rfl

/-- What a host does that reads its settings from a configuration with a base URL put in front. -/
theorem preferred_of_reads (reads : host.setting state = (config.withBaseUrl override).value?) :
    (Config.Preferred override config.baseUrl (host.localUrl state) (host.baseUrl state) ↔
        ¬ Config.Hides override config.baseUrl (host.localUrl state)) ∧
      (Config.Preferred override config.baseUrl (host.localUrl state) (host.baseUrl state) ∨
        host.baseUrl state = host.localUrl state) := by
  rw [baseUrl_of_reads reads, Config.preferred_first_iff]
  refine ⟨Iff.rfl, ?_⟩
  by_cases hides : Config.Hides override config.baseUrl (host.localUrl state)
  · exact .inr (Config.first_of_hides hides)
  · exact .inl hides

end Reads

/-- The base URL is the preferred one unless a blank value hides that of the configuration file, and any other is
the address of the local server. -/
theorem baseUrl_preferred_iff (tree : FileTree) (override : Option Text) :
    (∀ (target : Path) (config : Config) (writes : Bool) (state : FileTree),
      let host := ({ Disk.ofTarget tree target (config.withBaseUrl override) with writes } : Disk).host
      (Config.Preferred override config.baseUrl (host.localUrl state) (host.baseUrl state) ↔
          ¬ Config.Hides override config.baseUrl (host.localUrl state)) ∧
        (Config.Preferred override config.baseUrl (host.localUrl state) (host.baseUrl state) ∨
          host.baseUrl state = host.localUrl state)) ∧
      ∀ (scope : Option Path) (buffers : PathMap Text) (edits : Editor.Edits),
        let host := (Editor.Snapshot.ofScope tree scope override buffers).host tree
        let configured := (Editor.Snapshot.foundConfig tree scope).baseUrl
        (Config.Preferred override configured (host.localUrl edits) (host.baseUrl edits) ↔
            ¬ Config.Hides override configured (host.localUrl edits)) ∧
          (Config.Preferred override configured (host.localUrl edits) (host.baseUrl edits) ∨
            host.baseUrl edits = host.localUrl edits) := by
  constructor
  · intro target config writes state
    exact preferred_of_reads rfl
  · intro scope buffers edits
    have reads : (Editor.Snapshot.ofScope tree scope override buffers).config =
        (Editor.Snapshot.foundConfig tree scope).withBaseUrl override := rfl
    exact preferred_of_reads (congrArg Config.value? reads)

section Examples

def configuredTree : FileTree where
  root := .directory [("w".toList, .directory
    [(Config.fileName, .file (.text "base_url = \"http://file\"\n".toList))])]
  current := []

theorem blankOverride_hides_configured :
    let scope := Path.ofText "/w".toList
    let blank := some "  ".toList
    let config := Editor.Snapshot.foundConfig configuredTree (some scope)
    let files := (Disk.ofTarget configuredTree scope (config.withBaseUrl blank)).host
    let editor := (Editor.Snapshot.ofScope configuredTree (some scope) blank []).host configuredTree
    config.baseUrl = some "http://file".toList ∧
      files.baseUrl configuredTree = "https://localhost:8080".toList ∧
      ¬ Config.Preferred blank config.baseUrl (files.localUrl configuredTree) (files.baseUrl configuredTree) ∧
      editor.baseUrl [] = "https://localhost:8080".toList ∧
      ¬ Config.Preferred blank config.baseUrl (editor.localUrl []) (editor.baseUrl []) := by
  decide +kernel

end Examples

end Host

end RouteComments
