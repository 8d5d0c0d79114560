import Homonym.Discovery.Options
import Homonym.Duplicates.Filter
import Homonym.Duplicates.Rules

/-!
# Settings

Everything that a scan can be told, apart from where it looks and where its report goes. The parts
of a scan take their own share: `filter`, `discovery` and `rules`.
-/

namespace Homonym

/-- The settings of a scan. -/
structure Settings where
  includeInternal : Bool := false
  includes : List String := defaultIncludes
  excludes : List String := defaultExcludes
  ignoredKinds : List Kind := []
  ignoredNames : List String := []
  followLinks : Bool := false
  skipHidden : Bool := true
  respectIgnoreFile : Bool := true
  rules : RuleSet := {}
deriving DecidableEq

namespace Settings

/-- Which occurrences count. -/
def filter (s : Settings) : Filter :=
  { includeInternal := s.includeInternal
    ignoredKinds := s.ignoredKinds
    ignoredNames := s.ignoredNames }

/-- Which files are scanned. -/
def discovery (s : Settings) : DiscoveryOptions :=
  { followLinks := s.followLinks
    skipHidden := s.skipHidden
    respectIgnoreFile := s.respectIgnoreFile
    includes := s.includes
    excludes := s.excludes }

end Settings

end Homonym
