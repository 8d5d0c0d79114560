import Homonym.CommandLine.Arguments
import Homonym.Settings.Basic

/-!
# Settings and the command line

The command line has the last word on settings: patterns to include replace those of the settings,
patterns to exclude and things to ignore are added to them, and flags can only be turned one way.
-/

namespace Homonym

/-- A list with the elements of another added, those that it does not have yet. -/
def unite {α : Type} [DecidableEq α] (own others : List α) : List α :=
  others.foldl (fun l x => if x ∈ l then l else l ++ [x]) own

namespace Settings

/-- Settings as the command line changes them. -/
def withArguments (s : Settings) (a : CommandLine.ScanArguments) : Settings :=
  { s with
    includes := if a.includes.isEmpty then s.includes else a.includes
    excludes := s.excludes ++ a.excludes
    includeInternal := s.includeInternal || a.includeInternal
    ignoredKinds := unite s.ignoredKinds a.ignoredKinds
    ignoredNames := unite s.ignoredNames a.ignoredNames
    followLinks := s.followLinks || a.followLinks
    respectIgnoreFile := s.respectIgnoreFile && !a.noIgnoreFile
    rules :=
      { allowSameFileOverloads := s.rules.allowSameFileOverloads && !a.separateOverloads
        allowCrossModuleDuplicates := s.rules.allowCrossModuleDuplicates || a.allowCrossModule
        maxDuplicatesPerName := a.maxDuplicates.getD s.rules.maxDuplicatesPerName } }

end Settings

end Homonym
