/-!
# What a discovery looks for

The include patterns say which files are wanted, the exclude patterns which files and directories
are passed over. The defaults take the files of a project that are written by hand.
-/

namespace Homonym

/-- The patterns of the files that are scanned unless others are given. -/
def defaultIncludes : List String := ["**/*.ts", "**/*.tsx"]

/-- The patterns of what is passed over unless others are given. -/
def defaultExcludes : List String :=
  ["**/*.test.ts", "**/*.spec.ts", "**/*.d.ts", "**/node_modules/**", "**/dist/**", "**/build/**"]

/-- How files are discovered below a root. -/
structure DiscoveryOptions where
  /-- Links are followed, and not passed over. -/
  followLinks : Bool := false
  /-- Names that begin with a dot are passed over. -/
  skipHidden : Bool := true
  /-- The ignore file of the root is honoured. -/
  respectIgnoreFile : Bool := true
  includes : List String := defaultIncludes
  excludes : List String := defaultExcludes

end Homonym
