import Homonym.Declaration.Json
import Homonym.Settings.Basic

/-!
# Settings as JSON

The names of the fields are words joined by underscores; a name is also read when its words are
joined by capitals. Fields that are left out take their defaults.
-/

namespace Homonym

namespace RuleSet

/-- Rules as an object. -/
def toJson (r : RuleSet) : Json :=
  .obj [("allow_same_file_overloads", .bool r.allowSameFileOverloads),
    ("allow_cross_module_duplicates", .bool r.allowCrossModuleDuplicates),
    ("max_duplicates_per_name", .int r.maxDuplicatesPerName.toInt)]

/-- Reads rules. -/
def ofJson? (json : Json) : Option RuleSet := do
  let d : RuleSet := {}
  let fields ← json.fields? 3
  return {
    allowSameFileOverloads := ← fields.getElse?
      ["allow_same_file_overloads", "allowSameFileOverloads"] 0 Json.bool? d.allowSameFileOverloads
    allowCrossModuleDuplicates := ← fields.getElse?
      ["allow_cross_module_duplicates", "allowCrossModuleDuplicates"] 1 Json.bool?
      d.allowCrossModuleDuplicates
    maxDuplicatesPerName := ← fields.getElse?
      ["max_duplicates_per_name", "maxDuplicatesPerName"] 2 Json.int64? d.maxDuplicatesPerName }

end RuleSet

namespace Settings

/-- Settings as an object. -/
def toJson (s : Settings) : Json :=
  .obj [("include_internal", .bool s.includeInternal),
    ("include_patterns", .arr (s.includes.map .str)),
    ("exclude_patterns", .arr (s.excludes.map .str)),
    ("ignore_types", .arr (s.ignoredKinds.map fun k => .str k.label)),
    ("ignore_names", .arr (s.ignoredNames.map .str)),
    ("follow_symlinks", .bool s.followLinks),
    ("skip_hidden", .bool s.skipHidden),
    ("respect_gitignore", .bool s.respectIgnoreFile),
    ("rules", s.rules.toJson)]

/-- Reads settings. -/
def ofJson? (json : Json) : Option Settings := do
  let d : Settings := {}
  let fields ← json.fields? 9
  return {
    includeInternal := ← fields.getElse? ["include_internal", "includeInternal"] 0 Json.bool?
      d.includeInternal
    includes := ← fields.getElse? ["include_patterns", "includePatterns"] 1
      (Json.list? Json.string?) d.includes
    excludes := ← fields.getElse? ["exclude_patterns", "excludePatterns"] 2
      (Json.list? Json.string?) d.excludes
    ignoredKinds := ← fields.getElse? ["ignore_types", "ignoreTypes"] 3
      (Json.list? Kind.ofJson?) d.ignoredKinds
    ignoredNames := ← fields.getElse? ["ignore_names", "ignoreNames"] 4
      (Json.list? Json.string?) d.ignoredNames
    followLinks := ← fields.getElse? ["follow_symlinks", "followSymlinks"] 5 Json.bool?
      d.followLinks
    skipHidden := ← fields.getElse? ["skip_hidden", "skipHidden"] 6 Json.bool? d.skipHidden
    respectIgnoreFile := ← fields.getElse? ["respect_gitignore", "respectGitignore"] 7 Json.bool?
      d.respectIgnoreFile
    rules := ← fields.getElse? ["rules"] 8 RuleSet.ofJson? d.rules }

end Settings

end Homonym
