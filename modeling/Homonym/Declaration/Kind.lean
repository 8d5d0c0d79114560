import Homonym.Text.CaseFold

/-!
# Kinds of declarations

The seven forms of declaration that are told apart. Each has a lower-case label, which is how a kind
is written in reports, in settings and on the command line.
-/

namespace Homonym

/-- The form of a declaration. -/
inductive Kind where
  | function
  | classType
  | interfaceType
  | typeAlias
  | binding
  | enumeration
  | nameSpace
deriving DecidableEq

namespace Kind

/-- All kinds, in their order of rank. -/
def all : List Kind :=
  [.function, .classType, .interfaceType, .typeAlias, .binding, .enumeration, .nameSpace]

/-- The label of a kind. -/
def label : Kind → String
  | .function => "function"
  | .classType => "class"
  | .interfaceType => "interface"
  | .typeAlias => "type"
  | .binding => "variable"
  | .enumeration => "enum"
  | .nameSpace => "namespace"

/-- The kind with exactly this label. -/
def ofLabel? (text : String) : Option Kind :=
  all.find? fun kind => kind.label == text

/-- The kind with this label, when case is ignored. -/
def ofLabelAnyCase? (text : String) : Option Kind :=
  ofLabel? (String.ofList (Text.foldAscii text.toList))

/-- The place of a kind among all kinds. -/
def rank (kind : Kind) : Nat :=
  all.idxOf kind

theorem mem_all (kind : Kind) : kind ∈ all := by
  cases kind <;> decide

theorem ofLabel?_label (kind : Kind) : ofLabel? kind.label = some kind := by
  cases kind <;> decide

theorem label_injective {a b : Kind} (h : a.label = b.label) : a = b := by
  have := ofLabel?_label a
  rw [h, ofLabel?_label b] at this
  exact (Option.some.inj this).symm

end Kind

end Homonym
