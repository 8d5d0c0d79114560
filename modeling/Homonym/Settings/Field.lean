import Homonym.Settings.Basic
import Homonym.Value

/-!
# The settings by name

Every setting has a key: words joined by underscores, which may also be joined by capitals.
-/

namespace Homonym

/-- The settings of a rule set. -/
inductive RuleField where
  | allowSameFileOverloads
  | allowCrossModuleDuplicates
  | maxDuplicatesPerName
deriving DecidableEq

namespace RuleField

/-- All settings of a rule set, in order. -/
def all : List RuleField :=
  [.allowSameFileOverloads, .allowCrossModuleDuplicates, .maxDuplicatesPerName]

/-- The key of a setting. -/
def key : RuleField → String
  | .allowSameFileOverloads => "allow_same_file_overloads"
  | .allowCrossModuleDuplicates => "allow_cross_module_duplicates"
  | .maxDuplicatesPerName => "max_duplicates_per_name"

/-- The other spelling of the key. -/
def otherKey : RuleField → String
  | .allowSameFileOverloads => "allowSameFileOverloads"
  | .allowCrossModuleDuplicates => "allowCrossModuleDuplicates"
  | .maxDuplicatesPerName => "maxDuplicatesPerName"

/-- The setting with a key, in either spelling. -/
def ofKey? (text : String) : Option RuleField :=
  all.find? fun field => field.key == text || field.otherKey == text

end RuleField

/-- The settings. -/
inductive SettingsField where
  | includeInternal
  | includes
  | excludes
  | ignoredKinds
  | ignoredNames
  | followLinks
  | skipHidden
  | respectIgnoreFile
  | rules
deriving DecidableEq

namespace SettingsField

/-- All settings, in order. -/
def all : List SettingsField :=
  [.includeInternal, .includes, .excludes, .ignoredKinds, .ignoredNames, .followLinks, .skipHidden,
    .respectIgnoreFile, .rules]

/-- The key of a setting. -/
def key : SettingsField → String
  | .includeInternal => "include_internal"
  | .includes => "include_patterns"
  | .excludes => "exclude_patterns"
  | .ignoredKinds => "ignore_types"
  | .ignoredNames => "ignore_names"
  | .followLinks => "follow_symlinks"
  | .skipHidden => "skip_hidden"
  | .respectIgnoreFile => "respect_gitignore"
  | .rules => "rules"

/-- The other spelling of the key. -/
def otherKey : SettingsField → String
  | .includeInternal => "includeInternal"
  | .includes => "includePatterns"
  | .excludes => "excludePatterns"
  | .ignoredKinds => "ignoreTypes"
  | .ignoredNames => "ignoreNames"
  | .followLinks => "followSymlinks"
  | .skipHidden => "skipHidden"
  | .respectIgnoreFile => "respectGitignore"
  | .rules => "rules"

/-- The setting with a key, in either spelling. -/
def ofKey? (text : String) : Option SettingsField :=
  all.find? fun field => field.key == text || field.otherKey == text

end SettingsField

/-- Rules as a value. -/
def RuleSet.toValue (r : RuleSet) : Value :=
  .dict (Value.ofList [
    (RuleField.allowSameFileOverloads.key, .bool r.allowSameFileOverloads),
    (RuleField.allowCrossModuleDuplicates.key, .bool r.allowCrossModuleDuplicates),
    (RuleField.maxDuplicatesPerName.key, .int r.maxDuplicatesPerName.toInt)])

/-- Settings as a value. -/
def Settings.toValue (s : Settings) : Value :=
  .dict (Value.ofList [
    (SettingsField.includeInternal.key, .bool s.includeInternal),
    (SettingsField.includes.key, .arr (s.includes.map .str)),
    (SettingsField.excludes.key, .arr (s.excludes.map .str)),
    (SettingsField.ignoredKinds.key, .arr (s.ignoredKinds.map fun k => .str k.label)),
    (SettingsField.ignoredNames.key, .arr (s.ignoredNames.map .str)),
    (SettingsField.followLinks.key, .bool s.followLinks),
    (SettingsField.skipHidden.key, .bool s.skipHidden),
    (SettingsField.respectIgnoreFile.key, .bool s.respectIgnoreFile),
    (SettingsField.rules.key, s.rules.toValue)])

end Homonym
