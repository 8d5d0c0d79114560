import Homonym.Expression.Reader
import Homonym.Expression.Search
import Homonym.Log.Basic
import Homonym.Text.Split

/-!
# Which log entries are shown

A filter is a list of directives, each with a limit for the sources whose names begin in a certain
way. Of the directives that fit a source the one with the longest beginning decides. A filter is
made from how much the command line asks to be told, or it is read from a text such as
`warn,namedupe::config=debug`. Behind a slash that text may hold a regular expression, which the
message of an entry must then contain; one that cannot be read counts for nothing.
-/

namespace Homonym.Log

/-- The last level that is shown, or none. -/
abbrev Limit := Option Level

/-- The limit admits a level. -/
def Limit.admits (limit : Limit) (level : Level) : Bool :=
  match limit with
  | none => false
  | some last => level.rank ≤ last.rank

/-- Reads a limit, in any case of ASCII. -/
def Limit.ofWord? (word : String) : Option Limit :=
  match String.ofList (word.toList.map Char.toLower) with
  | "off" => some none
  | "error" => some (some .error)
  | "warn" => some (some .warn)
  | "info" => some (some .info)
  | "debug" => some (some .debug)
  | "trace" => some (some .trace)
  | _ => none

/-- A limit for some sources. -/
structure Directive where
  /-- How the names of the sources begin; without it the limit is for all of them. -/
  lead : Option String
  limit : Limit
deriving DecidableEq

/-- What is shown of a log. -/
structure Filter where
  directives : List Directive
  /-- What the message of an entry must contain to be shown. -/
  wanted : Option Expression := none

namespace Directive

/-- The directive is for a source. -/
def fits (d : Directive) (source : Source) : Bool :=
  match d.lead with
  | none => true
  | some lead => lead.toList.isPrefixOf source.target.toList

/-- How long a beginning the directive asks for. -/
def width (d : Directive) : Nat :=
  match d.lead with
  | none => 0
  | some lead => lead.utf8ByteSize

/-- Reads a directive: a limit, a beginning, or both with an equals sign between them. -/
def parse? (text : List Char) : Option Directive :=
  match Text.splitAt '=' text with
  | [single] =>
    let word := String.ofList single
    match Limit.ofWord? word with
    | some limit => some { lead := none, limit }
    | none => some { lead := some word, limit := some .trace }
  | [lead, right] =>
    match Text.trim right with
    | [] => some { lead := some (String.ofList lead), limit := some .trace }
    | word =>
      (Limit.ofWord? (String.ofList word)).map fun limit =>
        { lead := some (String.ofList lead), limit }
  | _ => none

/-- Directives with one more, which takes the place of one with the same beginning. -/
def insert (d : Directive) : List Directive → List Directive
  | [] => [d]
  | old :: rest => if old.lead = d.lead then d :: rest else old :: insert d rest

end Directive

namespace Filter

/-- The filter for how much the command line asks to be told. -/
def ofVolume (verbosity : Nat) (quiet : Bool) : Filter :=
  let limit : Level :=
    if quiet then .error
    else
      match verbosity with
      | 0 => .warn
      | 1 => .info
      | 2 => .debug
      | _ => .trace
  { directives := [{ lead := none, limit := some limit }] }

/-- Reads directives between commas. What cannot be read is left out, and with nothing left only
errors are shown. -/
def readDirectives (text : List Char) : List Directive :=
  let words := ((Text.splitAt ',' text).map Text.trim).filter fun word => !word.isEmpty
  match (words.filterMap Directive.parse?).foldl (fun ds d => d.insert ds) [] with
  | [] => [{ lead := none, limit := some .error }]
  | directives => directives

/-- Reads a filter: directives, and behind a slash an expression. -/
def parse (text : String) : Filter :=
  match Text.splitAt '/' text.toList with
  | [directives] => { directives := readDirectives directives }
  | [directives, wanted] =>
    { directives := readDirectives directives, wanted := Expression.parse? wanted }
  | _ => { directives := readDirectives [] }

/-- The limit for a source: that of the longest beginning, and of the last among equals. -/
def limit (filter : Filter) (source : Source) : Limit :=
  let sorted := filter.directives.mergeSort fun a b => a.width ≤ b.width
  match (sorted.filter fun d => d.fits source).getLast? with
  | some d => d.limit
  | none => none

/-- The entry is shown, where `duration` is the duration in its message. -/
def shows (filter : Filter) (duration : String) (entry : Entry) : Bool :=
  (filter.limit entry.source).admits entry.level &&
    match filter.wanted with
    | none => true
    | some wanted => wanted.isFoundIn (entry.message duration).toList

end Filter

end Homonym.Log
