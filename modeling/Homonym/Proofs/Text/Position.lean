import Mathlib.Data.Prod.Lex
import Homonym.Declaration.Occurrence

/-!
# Positions in a text

A position is a place between two characters, given by its line and column, which both count from
`1`; positions are ordered as they come in a text. `Position.pass` moves a position over some text,
and `textBefore` is the converse: the part of a text that lies in front of a position.

* `Position.lt_pass`: reading on moves a position forward, so a position occurs at most once in a
  text.
* `textBefore_pass`: the text in front of the position behind `front` is `front`.
-/

namespace Homonym.Text

/-- A place between two characters of a text. -/
@[ext]
structure Position where
  line : Nat := 1
  column : Nat := 1
deriving DecidableEq

namespace Position

/-- The position behind one character more. -/
def next (p : Position) (c : Char) : Position :=
  if c = '\n' then ⟨p.line + 1, 1⟩ else ⟨p.line, p.column + 1⟩

/-- The position behind some more text. -/
def pass (p : Position) (text : List Char) : Position :=
  text.foldl next p

instance : LinearOrder Position :=
  LinearOrder.lift' (fun p : Position => toLex (p.line, p.column)) fun p q h => by
    have h : (p.line, p.column) = (q.line, q.column) := h
    exact Position.ext (congrArg Prod.fst h) (congrArg Prod.snd h)

theorem lt_iff {p q : Position} :
    p < q ↔ p.line < q.line ∨ p.line = q.line ∧ p.column < q.column :=
  Prod.Lex.lt_iff

theorem le_iff {p q : Position} :
    p ≤ q ↔ p.line < q.line ∨ p.line = q.line ∧ p.column ≤ q.column :=
  Prod.Lex.le_iff

@[simp]
theorem pass_nil (p : Position) : p.pass [] = p := rfl

@[simp]
theorem pass_cons (p : Position) (c : Char) (text : List Char) :
    p.pass (c :: text) = (p.next c).pass text := rfl

theorem pass_append (p : Position) (front back : List Char) :
    p.pass (front ++ back) = (p.pass front).pass back :=
  List.foldl_append

theorem lt_next (p : Position) (c : Char) : p < p.next c := by
  rw [lt_iff, next]
  split
  · exact Or.inl (Nat.lt_succ_self _)
  · exact Or.inr ⟨rfl, Nat.lt_succ_self _⟩

theorem le_pass (p : Position) (text : List Char) : p ≤ p.pass text := by
  induction text generalizing p with
  | nil => exact le_rfl
  | cons c text ih => exact (lt_next p c).le.trans (ih (p.next c))

theorem lt_pass (p : Position) {text : List Char} (h : text ≠ []) : p < p.pass text := by
  cases text with
  | nil => exact absurd rfl h
  | cons c text => exact (lt_next p c).trans_le (le_pass _ _)

/-- Within a line only the column moves. -/
theorem pass_of_noBreak (p : Position) {text : List Char} (h : '\n' ∉ text) :
    p.pass text = ⟨p.line, p.column + text.length⟩ := by
  induction text generalizing p with
  | nil => rfl
  | cons c text ih =>
    obtain ⟨hc, hText⟩ := not_or.1 (List.mem_cons.not.1 h)
    rw [pass_cons, ih _ hText, next, if_neg (Ne.symm hc), List.length_cons]
    ext
    · rfl
    · simp only
      omega

/-- Only the line feeds and the number of the characters count. -/
theorem pass_map (p : Position) (text : List Char) {f : Char → Char}
    (hf : ∀ c, f c = '\n' ↔ c = '\n') : p.pass (text.map f) = p.pass text := by
  induction text generalizing p with
  | nil => rfl
  | cons c text ih =>
    have hNext : p.next (f c) = p.next c := by simp only [next, hf c]
    rw [List.map_cons, pass_cons, pass_cons, hNext, ih]

end Position

/-- The part of a text in front of a position, where the text begins at `here`. -/
def textBefore (p here : Position) : List Char → List Char
  | [] => []
  | c :: rest => if here = p then [] else c :: textBefore p (here.next c) rest

/-- The position behind `front` has `front` before it, whatever follows. -/
theorem textBefore_pass (here : Position) (front back : List Char) :
    textBefore (here.pass front) here (front ++ back) = front := by
  induction front generalizing here with
  | nil => cases back <;> simp [textBefore]
  | cons c front ih =>
    have hPassed : here ≠ here.pass (c :: front) := (here.lt_pass (List.cons_ne_nil _ _)).ne
    rw [List.cons_append, textBefore, if_neg hPassed, Position.pass_cons, ih]

end Homonym.Text

namespace Homonym

/-- Where an occurrence begins. -/
def Occurrence.position (o : Occurrence) : Text.Position :=
  ⟨o.line, o.column⟩

end Homonym
