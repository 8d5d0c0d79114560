import Mathlib.Tactic.SplitIfs
import Homonym.Source.Statement

/-!
# Where the front of a statement ends

The readers of a statement look at its front: words and blanks, names, and a few marks. None of them
goes over a slash, a quote or a backtick. So what stands behind such a stop does not count for the
modifiers (`modifiers_stop`), for the forms that declare a single name (`single?_stop`) and for the
name of a binding (`bindingName?_stop`); it is only handed on in a list of bindings
(`bindingList?_stop`).
-/

namespace Homonym.Source

open Text

/-- A character that no reader of a statement's front goes over. -/
def isStop (c : Char) : Bool :=
  c == '/' || c == '\'' || c == '"' || c == '\x60'

theorem eq_of_isStop {c : Char} (hc : isStop c = true) :
    c = '/' ∨ c = '\'' ∨ c = '"' ∨ c = '\x60' := by
  simpa only [isStop, Bool.or_eq_true, beq_iff_eq, or_assoc] using hc

section Stop

variable {c : Char} (hc : isStop c = true) (text behind : List Char)

include hc

theorem isBlank_stop : isBlank c = false := by
  rcases eq_of_isStop hc with rfl | rfl | rfl | rfl <;> decide

theorem isIdentifierPart_stop : isIdentifierPart c = false := by
  rcases eq_of_isStop hc with rfl | rfl | rfl | rfl <;> decide

theorem trimStart_stop : trimStart (text ++ c :: behind) = trimStart text ++ c :: behind := by
  have hStop : (c :: behind).dropWhile isBlank = c :: behind := by
    rw [List.dropWhile_cons, isBlank_stop hc]
    rfl
  rw [trimStart, List.dropWhile_append, hStop, trimStart]
  split
  · next hNil => rw [List.isEmpty_iff.1 hNil, List.nil_append]
  · rfl

theorem afterBlanks?_stop :
    afterBlanks? (text ++ c :: behind) = (afterBlanks? text).map (· ++ c :: behind) := by
  cases text with
  | nil => simp only [List.nil_append, afterBlanks?, isBlank_stop hc, Option.map_none]; rfl
  | cons d text =>
    simp only [List.cons_append, afterBlanks?, trimStart_stop hc]
    split <;> rfl

theorem after?_stop {word : List Char} (hWord : word.all (fun w => !isStop w) = true) :
    after? word (text ++ c :: behind) = (after? word text).map (· ++ c :: behind) := by
  induction word generalizing text with
  | nil => rfl
  | cons w word ih =>
    rw [List.all_cons, Bool.and_eq_true] at hWord
    cases text with
    | nil =>
      have hw : w ≠ c := by
        rintro rfl
        rw [hc] at hWord
        exact absurd hWord.1 (by decide)
      simp [after?, hw]
    | cons d text =>
      simp only [List.cons_append, after?, ih text hWord.2]
      split <;> rfl

theorem keyword?_stop {word : String} (hWord : word.toList.all (fun w => !isStop w) = true) :
    keyword? word (text ++ c :: behind) = (keyword? word text).map (· ++ c :: behind) := by
  rw [keyword?, keyword?, after?_stop hc text behind hWord]
  cases after? word.toList text with
  | none => rfl
  | some rest => exact afterBlanks?_stop hc rest behind

theorem skipKeyword_stop {word : String} (hWord : word.toList.all (fun w => !isStop w) = true) :
    skipKeyword word (text ++ c :: behind) = skipKeyword word text ++ c :: behind := by
  rw [skipKeyword, skipKeyword, keyword?_stop hc text behind hWord]
  cases keyword? word text <;> rfl

theorem identifier?_stop :
    identifier? (text ++ c :: behind) =
      (identifier? text).map fun (name, rest) => (name, rest ++ c :: behind) := by
  have hStart : isIdentifierStart c = false := by
    have hPart := isIdentifierPart_stop hc
    rw [isIdentifierPart, Bool.or_eq_false_iff] at hPart
    exact hPart.1
  cases text with
  | nil => simp [identifier?, hStart]
  | cons d text =>
    simp only [List.cons_append, identifier?]
    split
    · have hTake : (text ++ c :: behind).takeWhile isIdentifierPart =
          text.takeWhile isIdentifierPart := by
        rw [List.takeWhile_append, List.takeWhile_cons, isIdentifierPart_stop hc]
        split
        · next hAll =>
          have hWhole := (List.takeWhile_prefix isIdentifierPart).eq_of_length hAll
          rw [hWhole]
          exact List.append_nil text
        · rfl
      have hDrop : (text ++ c :: behind).dropWhile isIdentifierPart =
          text.dropWhile isIdentifierPart ++ c :: behind := by
        rw [List.dropWhile_append, List.dropWhile_cons, isIdentifierPart_stop hc]
        split
        · next hNil => rw [List.isEmpty_iff.1 hNil]; rfl
        · rfl
      rw [hTake, hDrop]
      rfl
    · rfl

theorem modifiers_stop :
    modifiers (text ++ c :: behind) = ((modifiers text).1, (modifiers text).2 ++ c :: behind) := by
  have hInner : ∀ rest : List Char,
      modifiers.inner (rest ++ c :: behind) = modifiers.inner rest ++ c :: behind := fun rest => by
    simp only [modifiers.inner]
    rw [skipKeyword_stop hc _ _ (by decide), skipKeyword_stop hc _ _ (by decide),
      skipKeyword_stop hc _ _ (by decide)]
  rw [modifiers, modifiers, keyword?_stop hc text behind (by decide)]
  cases keyword? "export" text with
  | none => simp only [Option.map_none, hInner]
  | some rest =>
    simp only [Option.map_some]
    rw [skipKeyword_stop hc rest behind (by decide), hInner]

theorem functionName?_stop : functionName? (text ++ c :: behind) = functionName? text := by
  rw [functionName?, functionName?, after?_stop hc text behind (by decide)]
  cases after? "function".toList text with
  | none => rfl
  | some rest =>
    have hHead : (rest ++ c :: behind).head?.any isWordPart = rest.head?.any isWordPart := by
      cases rest with
      | nil => rcases eq_of_isStop hc with rfl | rfl | rfl | rfl <;> rfl
      | cons d rest => rfl
    have hStar :
        (after? ['*'] (trimStart rest ++ c :: behind)).getD (trimStart rest ++ c :: behind) =
        (after? ['*'] (trimStart rest)).getD (trimStart rest) ++ c :: behind := by
      rw [after?_stop hc _ _ (by decide)]
      cases after? ['*'] (trimStart rest) <;> rfl
    simp only [Option.map_some, hHead, trimStart_stop hc, hStar, identifier?_stop hc,
      Option.map_map]
    rfl

theorem namedBy?_stop {word : String} (hWord : word.toList.all (fun w => !isStop w) = true) :
    namedBy? word (text ++ c :: behind) = namedBy? word text := by
  rw [namedBy?, namedBy?, keyword?_stop hc text behind hWord]
  cases keyword? word text with
  | none => rfl
  | some rest =>
    simp only [Option.map_some, Option.bind_some, identifier?_stop hc rest behind, Option.map_map]
    rfl

/-- Behind the name of a type alias the stop itself counts: it is not the end of the text. -/
theorem aliasName?_stop : aliasName? (text ++ c :: behind) = aliasName? (text ++ [c]) := by
  rw [aliasName?, aliasName?, keyword?_stop hc text behind (by decide),
    keyword?_stop hc text [] (by decide)]
  cases keyword? "type" text with
  | none => rfl
  | some rest =>
    simp only [Option.map_some, Option.bind_some, identifier?_stop hc]
    cases identifier? rest with
    | none => rfl
    | some found =>
      simp only [Option.map_some, trimStart_stop hc]
      cases trimStart found.2 <;> rfl

theorem enumName?_stop : enumName? (text ++ c :: behind) = enumName? text := by
  rw [enumName?, enumName?, skipKeyword_stop hc text behind (by decide),
    namedBy?_stop hc _ _ (by decide)]

/-- A dotted name ends in front of the stop, and any bound that reaches there gives all of it. -/
theorem dottedTail_stop (bound bound' : Nat) (h : text.length ≤ bound) (h' : text.length ≤ bound') :
    dottedTail bound (text ++ c :: behind) = dottedTail bound' text := by
  induction bound generalizing text bound' with
  | zero =>
    obtain rfl : text = [] := List.eq_nil_of_length_eq_zero (Nat.le_zero.1 h)
    cases bound' <;> rfl
  | succ bound ih =>
    cases text with
    | nil =>
      rcases eq_of_isStop hc with rfl | rfl | rfl | rfl <;> cases bound' <;> rfl
    | cons d text =>
      cases bound' with
      | zero => cases h'
      | succ bound' =>
        by_cases hd : d = '.'
        · subst hd
          simp only [List.cons_append, dottedTail, identifier?_stop hc]
          cases hName : identifier? text with
          | none => rfl
          | some found =>
            have hLength := congrArg List.length (identifier?_append hName)
            simp only [List.length_append, List.length_cons] at hLength h h'
            simp only [Option.map_some]
            rw [ih found.2 bound' (by omega) (by omega)]
        · have hNone : ∀ n rest, dottedTail (n + 1) (d :: rest) = [] := fun n rest => by
            rw [dottedTail]
            exact fun _ hDot => absurd (List.cons.inj hDot).1 hd
          rw [List.cons_append, hNone, hNone]

theorem dottedName?_stop : dottedName? (text ++ c :: behind) = dottedName? text := by
  rw [dottedName?, dottedName?, identifier?_stop hc]
  cases identifier? text with
  | none => rfl
  | some found =>
    simp only [Option.map_some]
    rw [dottedTail_stop hc found.2 behind _ found.2.length
      (by simp only [List.length_append]; omega) (Nat.le_refl _)]

theorem namespaceName?_stop : namespaceName? (text ++ c :: behind) = namespaceName? text := by
  rw [namespaceName?, namespaceName?, keyword?_stop hc text behind (by decide),
    keyword?_stop hc text behind (by decide)]
  cases keyword? "namespace" text with
  | some rest => exact dottedName?_stop hc rest behind
  | none =>
    cases keyword? "module" text with
    | some rest => exact dottedName?_stop hc rest behind
    | none => rfl

theorem bindingList?_stop :
    bindingList? (text ++ c :: behind) = (bindingList? text).map (· ++ c :: behind) := by
  rw [bindingList?, bindingList?, keyword?_stop hc text behind (by decide),
    keyword?_stop hc text behind (by decide), keyword?_stop hc text behind (by decide)]
  cases keyword? "const" text with
  | some rest => rfl
  | none =>
    cases keyword? "let" text with
    | some rest => rfl
    | none => rfl

theorem single?_stop : single? (text ++ c :: behind) = single? (text ++ [c]) := by
  have hClass : ∀ rest, namedBy? "class" (text ++ c :: rest) = namedBy? "class" text :=
    fun rest => namedBy?_stop hc text rest (by decide)
  have hInterface : ∀ rest, namedBy? "interface" (text ++ c :: rest) = namedBy? "interface" text :=
    fun rest => namedBy?_stop hc text rest (by decide)
  simp only [single?, singleForms, List.findSome?_cons, List.findSome?_nil, functionName?_stop hc,
    hClass, hInterface, aliasName?_stop hc text behind, enumName?_stop hc, namespaceName?_stop hc]

theorem bindingName?_stop : bindingName? (text ++ c :: behind) = bindingName? (text ++ [c]) := by
  simp only [bindingName?, trimStart_stop hc, identifier?_stop hc]
  cases identifier? (trimStart text) with
  | none => rfl
  | some found =>
    simp only [Option.map_some, trimStart_stop hc]
    cases trimStart found.2 <;> rfl

end Stop

end Homonym.Source
