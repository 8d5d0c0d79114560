import Homonym.Proofs.Path.Below
import Homonym.Proofs.Pattern.OnePath

/-!
# Patterns for every depth

A pattern that begins with a double star looks at a path from any of its names on. Two kinds of such
patterns are common:

* `**/*` and an ending matches the paths whose last name has this ending (`Glob.accepts_ending`);
* `**/`, a name and `/**` matches the paths that lead through a directory of this name
  (`Glob.accepts_inside`). Of the directory itself it says nothing.

Names and endings are texts, while globs are matched byte by byte. But the byte of a slash belongs
to no other character, and the bytes of a text end with those of another only if the text ends with
the other (`bytes_suffix_iff`): the first byte of a character is never one of its later bytes.
-/

namespace Homonym.Pattern

open Text

/-! ## Bytes -/

theorem bytes_append (a b : List Char) : bytes (a ++ b) = bytes a ++ bytes b :=
  List.flatMap_append

theorem slash_ne_byte {n : Nat} (hn : 0x80 ≤ n) (hn' : n < 256) : slash ≠ .ofNat n := by
  have hSlash : slash = .ofNat 0x2F := rfl
  rw [hSlash, ne_eq, byte_eq_byte (by omega) hn']
  omega

theorem eq_of_slash_mem {c : Char} (hMem : slash ∈ String.utf8EncodeChar c) : c = '/' := by
  have hSlash : slash = .ofNat 0x2F := rfl
  obtain ⟨hc, hcs⟩ | ⟨hc, hc', hcs⟩ | ⟨hc, hc', hcs⟩ | ⟨hc, hc', hcs⟩ := utf8EncodeChar_cases c
  · rw [hcs, hSlash, List.mem_singleton, byte_eq_byte (by omega) (by omega)] at hMem
    exact Char.ext (UInt32.toNat_inj.1 hMem.symm)
  all_goals
    simp (disch := omega) only [hcs, List.mem_cons, List.not_mem_nil, slash_ne_byte, or_false]
      at hMem

/-- Only a slash has the byte of a slash. -/
theorem slash_mem_bytes {text : List Char} : slash ∈ bytes text ↔ '/' ∈ text := by
  rw [bytes, List.mem_flatMap]
  constructor
  · rintro ⟨c, hMem, hByte⟩
    exact eq_of_slash_mem hByte ▸ hMem
  · exact fun hMem => ⟨'/', hMem, by decide⟩

/-- A character begins with its first byte and with no other. -/
theorem utf8EncodeChar_eq_cons (c : Char) :
    ∃ first rest, String.utf8EncodeChar c = first :: rest ∧ first.IsUTF8FirstByte ∧
      ∀ b ∈ rest, ¬b.IsUTF8FirstByte := by
  obtain ⟨first, rest, hCode⟩ := List.exists_cons_of_ne_nil (String.utf8EncodeChar_ne_nil (c := c))
  refine ⟨first, rest, hCode, ?_, fun b hMem hFirst => ?_⟩
  · have hZero := @UInt8.isUTF8FirstByte_getElem_utf8EncodeChar c 0 (by simp [hCode])
    simpa only [hCode, List.getElem_cons_zero, iff_true] using hZero
  · obtain ⟨i, hi, rfl⟩ := List.getElem_of_mem hMem
    have hLater := @UInt8.isUTF8FirstByte_getElem_utf8EncodeChar c (i + 1)
      (by simpa [hCode] using hi)
    simp only [hCode, List.getElem_cons_succ] at hLater
    exact Nat.succ_ne_zero i (hLater.1 hFirst)

theorem bytes_cons (c : Char) (text : List Char) :
    bytes (c :: text) = String.utf8EncodeChar c ++ bytes text :=
  List.flatMap_cons

theorem isUTF8FirstByte_of_bytes {text : List Char} {b : UInt8} {rest : Bytes}
    (hBytes : bytes text = b :: rest) : b.IsUTF8FirstByte := by
  cases text with
  | nil => cases hBytes
  | cons c text =>
    obtain ⟨first, more, hCode, hFirst, -⟩ := utf8EncodeChar_eq_cons c
    rw [bytes_cons, hCode] at hBytes
    exact (List.cons.inj hBytes).1 ▸ hFirst

/-- **The bytes of a text end with those of another exactly if the text ends with the other.** -/
theorem bytes_suffix_iff {text ending : List Char} :
    bytes ending <:+ bytes text ↔ ending <:+ text := by
  constructor
  · intro hSuffix
    induction text with
    | nil =>
      have hEmpty : bytes ending = bytes [] := List.suffix_nil.1 hSuffix
      exact bytes_injective hEmpty ▸ List.suffix_rfl
    | cons c text ih =>
      obtain ⟨front, hFront⟩ := hSuffix
      obtain ⟨first, rest, hCode, -, hLater⟩ := utf8EncodeChar_eq_cons c
      -- The ending begins at the character in front, inside its bytes or behind them.
      cases front with
      | nil => exact bytes_injective hFront ▸ List.suffix_rfl
      | cons b front =>
        rw [bytes_cons, hCode] at hFront
        obtain ⟨-, hFront⟩ := List.cons.inj hFront
        rcases List.append_eq_append_iff.1 hFront with ⟨part, hPart, hRest⟩ | ⟨more, -, hMore⟩
        · cases part with
          | nil => exact bytes_injective hRest ▸ List.suffix_cons c text
          | cons b part =>
            have hInside : b ∈ rest := hPart ▸ List.mem_append_right _ List.mem_cons_self
            exact absurd (isUTF8FirstByte_of_bytes hRest) (hLater b hInside)
        · exact (ih ⟨more, hMore.symm⟩).trans (List.suffix_cons c text)
  · rintro ⟨front, rfl⟩
    exact ⟨bytes front, (bytes_append front ending).symm⟩

/-! ## What tests hold after -/

theorem expect_iff {test : Bytes → Bool} {word text : Bytes} :
    expect test word text = true ↔ ∃ rest, text = word ++ rest ∧ test rest = true := by
  induction word generalizing text with
  | nil => simp [expect]
  | cons w word ih =>
    cases text with
    | nil => simp [expect, one]
    | cons b text => simp [expect, one, ih, and_assoc]

theorem skipName_iff {test : Bytes → Bool} {text : Bytes} :
    skipName test text = true ↔
      ∃ front rest, text = front ++ rest ∧ slash ∉ front ∧ test rest = true := by
  induction text with
  | nil => simp [skipName]
  | cons b text ih =>
    simp only [skipName, Bool.or_eq_true, Bool.and_eq_true, bne_iff_ne, ih]
    constructor
    · rintro (hHere | ⟨hb, front, rest, rfl, hFront, hRest⟩)
      · exact ⟨[], _, rfl, List.not_mem_nil, hHere⟩
      · exact ⟨b :: front, rest, rfl, by simp [Ne.symm hb, hFront], hRest⟩
    · rintro ⟨front, rest, hText, hFront, hRest⟩
      cases front with
      | nil => exact .inl (hText ▸ hRest)
      | cons c front =>
        obtain ⟨rfl, rfl⟩ := List.cons.inj hText
        rw [List.mem_cons, not_or] at hFront
        exact .inr ⟨Ne.symm hFront.1, front, rest, rfl, hFront.2, hRest⟩

theorem skipDirs_append {test : Bytes → Bool} {front : Bytes} (hFront : slash ∉ front)
    (rest : Bytes) : skipDirs test (front ++ rest) = skipDirs test rest := by
  induction front with
  | nil => rfl
  | cons b front ih =>
    rw [List.mem_cons, not_or] at hFront
    have hb : (b == slash) = false := by simpa using Ne.symm hFront.1
    rw [List.cons_append, skipDirs, hb, Bool.false_and, Bool.false_or, ih hFront.2]

/-- Every text is a name, or has a last name behind a slash. -/
theorem skipDirs_skipName (text : Bytes) :
    (skipName List.isEmpty text || skipDirs (skipName List.isEmpty) text) = true := by
  induction text with
  | nil => rfl
  | cons b text ih =>
    by_cases hb : b = slash
    · simpa [skipName, skipDirs, hb] using ih
    · simpa [skipName, skipDirs, hb] using ih

theorem runAll_append (front back : List Token) (test : Bytes → Bool) (text : Bytes) :
    runAll (front ++ back) test text = runAll front (runAll back test) text := by
  induction front generalizing text with
  | nil => rw [List.nil_append, runAll]
  | cons token front ih =>
    rw [List.cons_append, runAll, runAll]
    exact congrArg (token.run · text) (funext ih)

/-! ## Paths of names -/

/-- The bytes of a path of names. -/
def pathBytes (names : List String) : Bytes :=
  bytes ("/".intercalate names).toList

theorem pathBytes_single (name : String) : pathBytes [name] = bytes name.toList := rfl

theorem pathBytes_cons (first next : String) (rest : List String) :
    pathBytes (first :: next :: rest) =
      bytes first.toList ++ slash :: pathBytes (next :: rest) := by
  rw [pathBytes, Path.toList_intercalate_cons, bytes_append, bytes_cons]
  rfl

theorem slash_notMem_name {name : String} (hName : Path.isName name = true) :
    slash ∉ bytes name.toList :=
  fun hMem => (Path.isName_iff.1 hName).2.2 (slash_mem_bytes.1 hMem)

/-- An end of a list that is not empty is the list, or one of its tail. -/
theorem exists_end_cons {p : List String → Prop} {first : String} {names : List String} :
    (∃ way rest, first :: names = way ++ rest ∧ rest ≠ [] ∧ p rest) ↔
      p (first :: names) ∨ ∃ way rest, names = way ++ rest ∧ rest ≠ [] ∧ p rest := by
  constructor
  · rintro ⟨way, rest, hSplit, hRest, hEnd⟩
    rcases List.cons_eq_append_iff.1 hSplit with ⟨-, rfl⟩ | ⟨way, -, rfl⟩
    · exact .inl hEnd
    · exact .inr ⟨way, rest, rfl, hRest, hEnd⟩
  · rintro (hEnd | ⟨way, rest, rfl, hRest, hEnd⟩)
    · exact ⟨[], _, rfl, List.cons_ne_nil _ _, hEnd⟩
    · exact ⟨first :: way, rest, rfl, hRest, hEnd⟩

/-- **A double star in front of a glob lets it begin at any name.** -/
theorem run_leading {names : List String} (hSome : names ≠ [])
    (hNames : ∀ n ∈ names, Path.isName n = true) (test : Bytes → Bool) :
    Token.run .leading test (pathBytes names) = true ↔
      ∃ way rest, names = way ++ rest ∧ rest ≠ [] ∧ test (pathBytes rest) = true := by
  have hRun : ∀ text, Token.run .leading test text = (test text || skipDirs test text) :=
    fun text => by rw [Token.run]
  induction names with
  | nil => exact absurd rfl hSome
  | cons first names ih =>
    have hFirst := slash_notMem_name (hNames first List.mem_cons_self)
    have hTail : ∀ n ∈ names, Path.isName n = true :=
      fun n hn => hNames n (List.mem_cons_of_mem _ hn)
    rw [hRun, Bool.or_eq_true, exists_end_cons]
    refine or_congr_right ?_
    cases names with
    | nil =>
      have hNone : skipDirs test (bytes first.toList) = false := by
        rw [← List.append_nil (bytes first.toList), skipDirs_append hFirst]
        rfl
      simp [pathBytes_single, hNone]
    | cons next names =>
      refine Iff.trans ?_ (ih (List.cons_ne_nil _ _) hTail)
      rw [hRun, pathBytes_cons, skipDirs_append hFirst, skipDirs]
      simp

/-! ## The two kinds of globs -/

/-- The glob of the paths whose last name has an ending. -/
def Glob.ending (text : String) : Glob :=
  ⟨.leading :: .star :: text.toList.map .literal⟩

/-- The glob of the paths that lead through a directory of a name. -/
def Glob.inside (name : String) : Glob :=
  ⟨.leading :: (name.toList.map .literal ++ [.between, .star])⟩

/-- The characters with a meaning of their own in a glob, and the slash. -/
def globMarks : List Char :=
  ['?', '*', '[', '\x7b', '\x7d', ',', '\\', '/']

/-- The character is no blank and stands for itself inside a glob. -/
def isOrdinary (c : Char) : Bool :=
  !isBlank c && !globMarks.contains c

/-- All characters are ordinary, and there is a last one that is no dot. -/
def isOrdinaryEnding (text : String) : Bool :=
  text.toList.all isOrdinary && text.toList.getLast?.any (· != '.')

theorem ne_of_isOrdinary {c d : Char} (hc : isOrdinary c = true) (hd : isOrdinary d = false) :
    c ≠ d := by
  rintro rfl
  exact Bool.false_ne_true (hd.symm.trans hc)

theorem slash_notMem_ordinary {text : List Char} (hOrdinary : text.all isOrdinary = true) :
    slash ∉ bytes text := by
  intro hMem
  have hSlash := List.all_eq_true.1 hOrdinary _ (slash_mem_bytes.1 hMem)
  exact ne_of_isOrdinary hSlash (by decide) rfl

theorem isOrdinaryEnding_iff {text : String} :
    isOrdinaryEnding text = true ↔
      text.toList.all isOrdinary = true ∧
        ∃ front last, text.toList = front ++ [last] ∧ last ≠ '.' := by
  rw [isOrdinaryEnding, Bool.and_eq_true, Option.any_eq_true]
  simp only [List.getLast?_eq_some_iff, bne_iff_ne]
  refine and_congr_right fun _ => ?_
  constructor
  · rintro ⟨last, ⟨front, hText⟩, hLast⟩
    exact ⟨front, last, hText, hLast⟩
  · rintro ⟨front, last, hText, hLast⟩
    exact ⟨last, ⟨front, hText⟩, hLast⟩

theorem Glob.accepts_leading {tokens : List Token}
    (hAlive : Glob.isDead ⟨.leading :: tokens⟩ = false)
    (hSome : runAll tokens List.isEmpty [] = false) {names : List String}
    (hNames : ∀ n ∈ names, Path.isName n = true) :
    Glob.accepts ⟨.leading :: tokens⟩ (pathBytes names) = true ↔
      ∃ way rest, names = way ++ rest ∧ rest ≠ [] ∧
        runAll tokens List.isEmpty (pathBytes rest) = true := by
  have hTakes : ∀ text, Glob.accepts ⟨.leading :: tokens⟩ text =
      Token.run .leading (runAll tokens List.isEmpty) text := by
    intro text
    rw [Glob.accepts, hAlive, Glob.takesAll_eq]
    cases tokens with
    | nil => simp [runAll] at hSome
    | cons token tokens => simp [runAll]
  rw [hTakes]
  cases names with
  | nil =>
    have hNone : Token.run .leading (runAll tokens List.isEmpty) (pathBytes []) = false := by
      rw [Token.run]
      simpa [pathBytes, bytes, skipDirs] using hSome
    simp [hNone]
  | cons first names => exact run_leading (List.cons_ne_nil _ _) hNames _

theorem runAll_ending {letters : List Char} {text : Bytes} :
    runAll (.star :: letters.map .literal) List.isEmpty text = true ↔
      ∃ front, text = front ++ bytes letters ∧ slash ∉ front := by
  have hTest : runAll (letters.map .literal) List.isEmpty =
      fun rest => decide (rest = bytes letters) := by
    funext rest
    rw [runAll_literals, expect_isEmpty]
  rw [runAll, hTest, Token.run, skipName_iff]
  simp

theorem runAll_inside {letters : List Char} {text : Bytes} :
    runAll (letters.map .literal ++ [.between, .star]) List.isEmpty text = true ↔
      ∃ rest, text = bytes letters ++ slash :: rest := by
  have hStar : runAll [.star] List.isEmpty = skipName List.isEmpty := by
    funext rest
    have hEmpty : runAll [] List.isEmpty = List.isEmpty := funext fun rest => by rw [runAll]
    rw [runAll, Token.run, hEmpty]
  have hBelow : ∀ rest, runAll [.between, .star] List.isEmpty rest = true ↔
      ∃ more, rest = slash :: more := by
    intro rest
    rw [runAll, Token.run, hStar]
    cases rest <;> simp [one, skipDirs_skipName]
  rw [runAll_append, runAll_literals, expect_iff]
  simp [hBelow]

/-- **A double star, a star and an ending.** -/
theorem Glob.accepts_ending {text : String} (hText : isOrdinaryEnding text = true)
    {names : List String} (hNames : ∀ n ∈ names, Path.isName n = true) :
    (Glob.ending text).accepts (pathBytes names) = true ↔
      ∃ last ∈ names.getLast?, text.toList <:+ last.toList := by
  obtain ⟨hOrdinary, front, c, hLast, hDot⟩ := isOrdinaryEnding_iff.1 hText
  have hSlash := slash_notMem_ordinary hOrdinary
  have hAlive : (Glob.ending text).isDead = false := by
    have hToken : (Glob.ending text).tokens.getLast? = some (.literal c) := by
      rw [Glob.ending, hLast, List.map_append, ← List.cons_append, ← List.cons_append]
      exact List.getLast?_concat
    simp [isDead, hToken, Token.isChar, hDot]
  have hSome : runAll (.star :: text.toList.map .literal) List.isEmpty [] = false := by
    refine Bool.eq_false_iff.2 fun hNone => ?_
    obtain ⟨before, hEmpty, -⟩ := runAll_ending.1 hNone
    have hNil : bytes text.toList = bytes [] := (List.append_eq_nil_iff.1 hEmpty.symm).2
    simp [bytes_injective hNil] at hLast
  rw [Glob.ending, accepts_leading hAlive hSome hNames]
  simp only [runAll_ending]
  constructor
  · rintro ⟨way, rest, rfl, hRest, front, hBytes, hFront⟩
    obtain ⟨last, more, rfl⟩ := List.exists_cons_of_ne_nil hRest
    cases more with
    | nil => exact ⟨last, List.getLast?_concat, bytes_suffix_iff.1 ⟨front, hBytes.symm⟩⟩
    | cons next more =>
      have hMem : slash ∈ front ++ bytes text.toList := by
        rw [← hBytes, pathBytes_cons]
        simp
      exact absurd hMem (by simp [hFront, hSlash])
  · rintro ⟨last, hMem, hSuffix⟩
    obtain ⟨way, rfl⟩ := List.getLast?_eq_some_iff.1 hMem
    obtain ⟨front, hFront⟩ := bytes_suffix_iff.2 hSuffix
    refine ⟨way, [last], rfl, List.cons_ne_nil _ _, front, hFront.symm, fun hMem => ?_⟩
    exact slash_notMem_name (hNames last (by simp)) (hFront ▸ List.mem_append_left _ hMem)

theorem eq_of_append_slash {a b x y : Bytes} (ha : slash ∉ a) (hb : slash ∉ b)
    (hEq : a ++ slash :: x = b ++ slash :: y) : a = b := by
  have hFront : ∀ {a x : Bytes}, slash ∉ a → (a ++ slash :: x).takeWhile (· != slash) = a := by
    intro a x ha
    rw [List.takeWhile_append_of_pos fun b hb => bne_iff_ne.2 (ne_of_mem_of_not_mem hb ha)]
    simp
  rw [← hFront ha, hEq, hFront hb]

/-- **A double star, a name and a double star.** -/
theorem Glob.accepts_inside {name : String} (hName : name.toList.all isOrdinary = true)
    {names : List String} (hNames : ∀ n ∈ names, Path.isName n = true) :
    (Glob.inside name).accepts (pathBytes names) = true ↔ name ∈ names.dropLast := by
  have hAlive : (Glob.inside name).isDead = false := by
    have hToken : (Glob.inside name).tokens.getLast? = some .star := by
      rw [Glob.inside, ← List.cons_append]
      exact List.getLast?_append_of_ne_nil _ (List.cons_ne_nil _ _)
    simp [isDead, hToken, Token.isChar]
  have hSome : runAll (name.toList.map .literal ++ [.between, .star]) List.isEmpty [] = false := by
    refine Bool.eq_false_iff.2 fun hNone => ?_
    obtain ⟨rest, hEmpty⟩ := runAll_inside.1 hNone
    simp at hEmpty
  rw [Glob.inside, accepts_leading hAlive hSome hNames]
  simp only [runAll_inside]
  constructor
  · rintro ⟨way, rest, rfl, hRest, more, hBytes⟩
    obtain ⟨first, rest, rfl⟩ := List.exists_cons_of_ne_nil hRest
    cases rest with
    | nil =>
      refine absurd ?_ (slash_notMem_name (hNames first (by simp)))
      rw [← pathBytes_single, hBytes]
      simp
    | cons next rest =>
      have hFirst := slash_notMem_name (hNames first (by simp))
      rw [pathBytes_cons] at hBytes
      have hSame := bytes_injective
        (eq_of_append_slash hFirst (slash_notMem_ordinary hName) hBytes)
      simp [String.toList_inj.1 hSame, List.dropLast_append_of_ne_nil]
  · intro hMem
    rcases List.eq_nil_or_concat' names with rfl | ⟨front, last, rfl⟩
    · cases hMem
    · rw [List.dropLast_concat] at hMem
      obtain ⟨way, back, rfl⟩ := List.append_of_mem hMem
      obtain ⟨next, more, hNext⟩ := List.exists_cons_of_ne_nil
        (List.append_ne_nil_of_right_ne_nil back (List.cons_ne_nil last []))
      refine ⟨way, name :: (back ++ [last]), by simp, List.cons_ne_nil _ _,
        pathBytes (next :: more), ?_⟩
      rw [hNext, pathBytes_cons]

/-! ## Reading the patterns -/

theorem Draft.step_ordinary (d : Draft) {c : Char} (hc : isOrdinary c = true) (rest : List Char) :
    d.step c rest = .ok (d.push (.literal c), 0) := by
  have hNe : ∀ {e : Char}, isOrdinary e = false → c ≠ e := ne_of_isOrdinary hc
  unfold Draft.step
  split
  case h_8 => rfl
  all_goals exact absurd rfl (hNe (by decide))

theorem Draft.read_ordinary (d : Draft) {text : List Char} (hText : text.all isOrdinary = true)
    (rest : List Char) :
    ∃ last, d.read 0 (text ++ rest) =
      Draft.read { d with tokens := (text.map .literal).reverse ++ d.tokens, last } 0 rest := by
  induction text generalizing d with
  | nil => exact ⟨d.last, rfl⟩
  | cons c text ih =>
    rw [List.all_cons, Bool.and_eq_true] at hText
    obtain ⟨last, hLast⟩ := ih { d.push (.literal c) with last := some c } hText.2
    refine ⟨last, ?_⟩
    rw [List.cons_append, Draft.read, Draft.step_ordinary d hText.1]
    simp only [Draft.push, List.map_cons, List.reverse_cons, List.append_assoc,
      List.singleton_append]
    exact hLast

theorem Draft.stars_single (d : Draft) {rest : List Char} (hHead : rest.head? ≠ some '*') :
    d.stars rest = (d.push .star, 0) := by
  unfold Draft.stars
  split
  · exact absurd rfl hHead
  · rfl

theorem Glob.parse_ending {text : String} (hText : text.toList.all isOrdinary = true) :
    Glob.parse ('*' :: '*' :: '/' :: '*' :: text.toList) = .ok (.ending text) := by
  have hOpen : Draft.read {} 0 ('*' :: '*' :: '/' :: '*' :: text.toList) =
      Draft.read { tokens := [.leading], last := some '/' } 0 ('*' :: text.toList) := rfl
  have hHead : text.toList.head? ≠ some '*' := by
    intro hStar
    have hOrdinary := List.all_eq_true.1 hText _ (List.mem_of_head? hStar)
    exact ne_of_isOrdinary hOrdinary (by decide) rfl
  have hStar : Draft.read { tokens := [.leading], last := some '/' } 0 ('*' :: text.toList) =
      Draft.read { tokens := [.star, .leading], last := some '*' } 0 text.toList := by
    simp only [Draft.read, Draft.step, Draft.stars_single _ hHead]
    rfl
  obtain ⟨last, hRead⟩ :=
    Draft.read_ordinary { tokens := [.star, .leading], last := some '*' } hText []
  rw [List.append_nil] at hRead
  rw [Glob.parse, hOpen, hStar, hRead]
  simp [Draft.read, Glob.ending]

theorem Glob.parse_inside {name : String} (hName : name.toList.all isOrdinary = true) :
    Glob.parse ('*' :: '*' :: '/' :: name.toList ++ ['/', '*', '*', '/', '*']) =
      .ok (.inside name) := by
  obtain ⟨last, hRead⟩ := Draft.read_ordinary { tokens := [.leading], last := some '/' } hName
    ['/', '*', '*', '/', '*']
  have hOpen : Draft.read {} 0 ('*' :: '*' :: '/' :: name.toList ++ ['/', '*', '*', '/', '*']) =
      Draft.read { tokens := [.leading], last := some '/' } 0
        (name.toList ++ ['/', '*', '*', '/', '*']) := rfl
  have hClose : ∀ tokens, Draft.read { tokens, last } 0 ['/', '*', '*', '/', '*'] =
      .ok { tokens := .star :: .between :: tokens, last := some '*' } := fun tokens => rfl
  rw [Glob.parse, hOpen, hRead, hClose]
  simp [Glob.inside]

/-- A pattern that begins with a double star and does not end with a slash is read as a glob. -/
theorem IgnoreRule.parse_leading {front : List Char} {c : Char} {glob : Glob}
    (hc : isBlank c = false) (hSlash : c ≠ '/')
    (hGlob : Glob.parse (globText false ('*' :: '*' :: '/' :: front ++ [c])) = .ok glob) :
    IgnoreRule.parse ('*' :: '*' :: '/' :: front ++ [c]) = .ok (some ⟨glob, false, false⟩) := by
  have hTrim : trimLine ('*' :: '*' :: '/' :: front ++ [c]) = '*' :: '*' :: '/' :: front ++ [c] :=
    trimLine_concat hc
  have hMarks : readMarks ('*' :: '*' :: '/' :: front ++ [c]) =
      (false, false, '*' :: '*' :: '/' :: front ++ [c]) := rfl
  have hDir : readDirMark ('*' :: '*' :: '/' :: front ++ [c]) =
      (false, '*' :: '*' :: '/' :: front ++ [c]) := by
    simp [readDirMark, hSlash]
  have hHead : ('*' :: '*' :: '/' :: front ++ [c]).head? ≠ some '#' := by simp
  have hLine : '*' :: '*' :: '/' :: front ++ [c] ≠ [] := by simp
  rw [IgnoreRule.parse]
  simp only [hTrim, hHead, hLine, or_self, if_false, hMarks, hDir, hGlob]

theorem globText_of_slash {line : List Char} (hSlash : '/' ∈ line) :
    globText false line = if endsWith line ['/', '*', '*'] then line ++ ['/', '*'] else line := by
  simp only [globText, hSlash, true_or, or_true, if_true]

theorem isBlank_of_isOrdinary {c : Char} (hc : isOrdinary c = true) : isBlank c = false := by
  rw [isOrdinary, Bool.and_eq_true, Bool.not_eq_true'] at hc
  exact hc.1

theorem IgnoreRule.parse_ending {text : String} (hText : isOrdinaryEnding text = true) :
    IgnoreRule.parse ("**/*" ++ text).toList = .ok (some ⟨.ending text, false, false⟩) := by
  obtain ⟨hOrdinary, front, c, hLast, -⟩ := isOrdinaryEnding_iff.1 hText
  have hc : isOrdinary c = true := List.all_eq_true.1 hOrdinary c (by simp [hLast])
  have hLine : ("**/*" ++ text).toList = '*' :: '*' :: '/' :: ('*' :: front) ++ [c] := by
    rw [String.toList_append, hLast]
    rfl
  have hGlob : globText false ('*' :: '*' :: '/' :: ('*' :: front) ++ [c]) =
      '*' :: '*' :: '/' :: '*' :: text.toList := by
    have hEnd : endsWith ('*' :: '*' :: '/' :: ('*' :: front) ++ [c]) ['/', '*', '*'] = false :=
      endsWith_concat_ne _ ['/', '*'] (ne_of_isOrdinary hc (by decide))
    rw [globText_of_slash (by simp), hEnd, hLast]
    rfl
  rw [hLine]
  refine parse_leading (isBlank_of_isOrdinary hc) (ne_of_isOrdinary hc (by decide)) ?_
  rw [hGlob, Glob.parse_ending hOrdinary]

theorem IgnoreRule.parse_inside {name : String} (hName : name.toList.all isOrdinary = true) :
    IgnoreRule.parse ("**/" ++ name ++ "/**").toList = .ok (some ⟨.inside name, false, false⟩) := by
  have hLine : ("**/" ++ name ++ "/**").toList =
      '*' :: '*' :: '/' :: (name.toList ++ ['/', '*']) ++ ['*'] := by
    rw [String.toList_append, String.toList_append]
    simp
  have hGlob : globText false ('*' :: '*' :: '/' :: (name.toList ++ ['/', '*']) ++ ['*']) =
      '*' :: '*' :: '/' :: name.toList ++ ['/', '*', '*', '/', '*'] := by
    have hEnd : endsWith ('*' :: '*' :: '/' :: (name.toList ++ ['/', '*']) ++ ['*'])
        ['/', '*', '*'] = true := by
      simp [endsWith, after?]
    rw [globText_of_slash (by simp), hEnd]
    simp
  rw [hLine]
  refine parse_leading (by decide) (by decide) ?_
  rw [hGlob, Glob.parse_inside hName]

end Homonym.Pattern
