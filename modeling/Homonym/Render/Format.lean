import Homonym.Duplicates.ReportJson
import Homonym.Render.Console
import Homonym.Render.Csv
import Homonym.Render.Markdown

/-!
# Output formats
-/

namespace Homonym

/-- The formats in which a report is written. -/
inductive OutputFormat where
  | console
  | json
  | markdown
  | csv
deriving DecidableEq

namespace OutputFormat

/-- All formats. -/
def all : List OutputFormat := [.console, .json, .markdown, .csv]

/-- The name of a format. -/
def label : OutputFormat → String
  | .console => "console"
  | .json => "json"
  | .markdown => "markdown"
  | .csv => "csv"

/-- The format with exactly this name. -/
def ofLabel? (text : String) : Option OutputFormat :=
  all.find? fun format => format.label == text

end OutputFormat

/-- A report as text. Only the terminal's format knows colour. -/
def Report.render (r : Report) (format : OutputFormat) (colored : Bool) : String :=
  match format with
  | .console => Render.console colored r
  | .json => r.toJson.pretty ++ "\n"
  | .markdown => Render.markdown r
  | .csv => Render.csv r

end Homonym
