import Homonym.Pattern.Glob

/-!
# Matching globs

`runAll` tries every way to divide a text among the tokens. Here the same answer is found in one
pass per token, from the last to the first: `answers` lists what a test says about a text and
everything it ends with, and each token turns the list for what follows it into the list for
itself. Where nothing in the list holds, no token can change that, and the rest is left out.
`tableAll_answers` says that the answer is the same.

A glob with wild parts whose last character is a dot matches no path at all (`Glob.isDead`), because
a path that ends with a dot has no last name to compare.
-/

namespace Homonym.Pattern

/-- What a test says about a text and everything it ends with, the longest first. -/
def answers (test : Bytes → Bool) : Bytes → List Bool
  | [] => [test []]
  | b :: rest => test (b :: rest) :: answers test rest

/-- The answers for `skipName`, from those for the test. -/
def skipNameTable : Bytes → List Bool → List Bool
  | b :: text, v :: table =>
    let after := skipNameTable text table
    (v || (b != slash && after.headD false)) :: after
  | _, table => table

/-- The answers for `skipAny`, from those for the test. -/
def skipAnyTable : Bytes → List Bool → List Bool
  | _ :: text, v :: table =>
    let after := skipAnyTable text table
    (v || after.headD false) :: after
  | _, table => table

/-- The answers for `skipDirs`, from those for the test. -/
def skipDirsTable : Bytes → List Bool → List Bool
  | b :: text, _ :: table =>
    let after := skipDirsTable text table
    ((b == slash && table.headD false) || after.headD false) :: after
  | _, _ => [false]

/-- The answers for `one`, from those for the test. -/
def oneTable (p : UInt8 → Bool) : Bytes → List Bool → List Bool
  | b :: text, _ :: table => (p b && table.headD false) :: oneTable p text table
  | _, _ => [false]

/-- The answers for `expect`, from those for the test. -/
def expectTable (text : Bytes) (table : List Bool) : Bytes → List Bool
  | [] => table
  | w :: word => oneTable (· == w) text (expectTable text table word)

/-- The answers for one of two tests. -/
def eitherTable : List Bool → List Bool → List Bool :=
  List.zipWith or

mutual

/-- The answers for a token, from those for the test behind it. -/
def Token.table : Token → Bytes → List Bool → List Bool
  | .literal c, text, table => expectTable text table (String.utf8EncodeChar c)
  | .any, text, table => oneTable (· != slash) text table
  | .star, text, table => skipNameTable text table
  | .leading, text, table => eitherTable table (skipDirsTable text table)
  | .trailing, text, table => oneTable (· == slash) text (skipAnyTable text table)
  | .between, text, table =>
    oneTable (· == slash) text (eitherTable table (skipDirsTable text table))
  | .oneOf negated ranges, text, table =>
    oneTable (fun b => ranges.any (inRange b) != negated) text table
  | .alternates [], _, table => table
  | .alternates (branch :: rest), text, table =>
    eitherTable (tableAll branch text table) (tableSome rest text table)

/-- The answers for some tokens, one after the other. Nothing comes of answers none of which
holds. -/
def tableAll : List Token → Bytes → List Bool → List Bool
  | [], _, table => table
  | token :: rest, text, table =>
    let after := tableAll rest text table
    if after.contains true then token.table text after else after

/-- The answers for one of some branches. -/
def tableSome : List (List Token) → Bytes → List Bool → List Bool
  | [], _, table => table.map fun _ => false
  | branch :: rest, text, table =>
    eitherTable (tableAll branch text table) (tableSome rest text table)

end

/-! ## Nothing is changed -/

@[simp]
theorem head?_answers (test : Bytes → Bool) (text : Bytes) :
    (answers test text).head? = some (test text) := by
  cases text <;> rfl

theorem skipNameTable_answers (test : Bytes → Bool) (text : Bytes) :
    skipNameTable text (answers test text) = answers (skipName test) text := by
  induction text with
  | nil => rfl
  | cons b rest ih => simp [answers, skipNameTable, skipName, ih]

theorem skipAnyTable_answers (test : Bytes → Bool) (text : Bytes) :
    skipAnyTable text (answers test text) = answers (skipAny test) text := by
  induction text with
  | nil => rfl
  | cons b rest ih => simp [answers, skipAnyTable, skipAny, ih]

theorem skipDirsTable_answers (test : Bytes → Bool) (text : Bytes) :
    skipDirsTable text (answers test text) = answers (skipDirs test) text := by
  induction text with
  | nil => rfl
  | cons b rest ih => simp [answers, skipDirsTable, skipDirs, ih]

theorem oneTable_answers (p : UInt8 → Bool) (test : Bytes → Bool) (text : Bytes) :
    oneTable p text (answers test text) = answers (one p test) text := by
  induction text with
  | nil => rfl
  | cons b rest ih => simp [answers, oneTable, one, ih]

theorem expectTable_answers (test : Bytes → Bool) (text word : Bytes) :
    expectTable text (answers test text) word = answers (expect test word) text := by
  induction word with
  | nil => exact congrArg (answers · text) (funext fun _ => rfl)
  | cons w word ih =>
    rw [expectTable, ih, oneTable_answers]
    exact congrArg (answers · text) (funext fun _ => rfl)

theorem eitherTable_answers (a b : Bytes → Bool) (text : Bytes) :
    eitherTable (answers a text) (answers b text) = answers (fun t => a t || b t) text := by
  induction text with
  | nil => rfl
  | cons c rest ih => simpa [eitherTable, answers] using ih

theorem map_false_answers (test : Bytes → Bool) (text : Bytes) :
    (answers test text).map (fun _ => false) = answers (fun _ => false) text := by
  induction text with
  | nil => rfl
  | cons b rest ih => simpa [answers] using ih

/-! ## A test that never holds -/

/-- The test fails on a text and on everything it ends with. -/
def Fails (test : Bytes → Bool) (text : Bytes) : Prop :=
  ∀ rest, rest <:+ text → test rest = false

namespace Fails

variable {test : Bytes → Bool} {text : Bytes}

theorem at_text (h : Fails test text) : test text = false :=
  h text List.suffix_rfl

theorem tail {b : UInt8} (h : Fails test (b :: text)) : Fails test text :=
  fun rest hr => h rest (hr.trans (List.suffix_cons b text))

/-- What holds only where the test holds fails along with it. -/
theorem of_at {other : Bytes → Bool} (h : Fails test text)
    (step : ∀ rest, Fails test rest → other rest = false) : Fails other text :=
  fun rest hr => step rest fun more hm => h more (hm.trans hr)

theorem skipName_eq (h : Fails test text) : skipName test text = false := by
  induction text with
  | nil => exact h.at_text
  | cons b rest ih => simp [skipName, h.at_text, ih h.tail]

theorem skipAny_eq (h : Fails test text) : skipAny test text = false := by
  induction text with
  | nil => exact h.at_text
  | cons b rest ih => simp [skipAny, h.at_text, ih h.tail]

theorem skipDirs_eq (h : Fails test text) : skipDirs test text = false := by
  induction text with
  | nil => rfl
  | cons b rest ih => simp [skipDirs, h.tail.at_text, ih h.tail]

theorem one_eq (p : UInt8 → Bool) (h : Fails test text) : one p test text = false := by
  cases text with
  | nil => rfl
  | cons b rest => simp [one, h.tail.at_text]

theorem expect_eq (word : Bytes) (h : Fails test text) : expect test word text = false := by
  induction word generalizing text with
  | nil => exact h.at_text
  | cons w word ih => exact (h.of_at fun rest hr => ih hr).one_eq _

theorem either_eq (h : Fails test text) : (test text || skipDirs test text) = false := by
  simp [h.at_text, h.skipDirs_eq]

end Fails

mutual

theorem Token.run_eq_false (token : Token) {test : Bytes → Bool} {text : Bytes}
    (h : Fails test text) : token.run test text = false := by
  match token with
  | .literal c => rw [Token.run]; exact h.expect_eq _
  | .any => rw [Token.run]; exact h.one_eq _
  | .star => rw [Token.run]; exact h.skipName_eq
  | .leading => rw [Token.run]; exact h.either_eq
  | .trailing => rw [Token.run]; exact (h.of_at fun _ => Fails.skipAny_eq).one_eq _
  | .between => rw [Token.run]; exact (h.of_at fun _ => Fails.either_eq).one_eq _
  | .oneOf negated ranges => rw [Token.run]; exact h.one_eq _
  | .alternates [] => rw [Token.run]; exact h.at_text
  | .alternates (branch :: rest) =>
    rw [Token.run, runAll_eq_false branch h, runSome_eq_false rest h, Bool.or_false]

theorem runAll_eq_false (tokens : List Token) {test : Bytes → Bool} {text : Bytes}
    (h : Fails test text) : runAll tokens test text = false := by
  match tokens with
  | [] => rw [runAll]; exact h.at_text
  | token :: rest =>
    rw [runAll]
    exact Token.run_eq_false token (h.of_at fun _ => runAll_eq_false rest)

theorem runSome_eq_false (branches : List (List Token)) {test : Bytes → Bool} {text : Bytes}
    (h : Fails test text) : runSome branches test text = false := by
  match branches with
  | [] => rw [runSome]
  | branch :: rest =>
    rw [runSome, runAll_eq_false branch h, runSome_eq_false rest h, Bool.or_false]

end

theorem answers_congr {a b : Bytes → Bool} {text : Bytes}
    (h : ∀ rest, rest <:+ text → a rest = b rest) : answers a text = answers b text := by
  induction text with
  | nil => simp [answers, h [] List.suffix_rfl]
  | cons c rest ih =>
    rw [answers, answers, h _ List.suffix_rfl,
      ih fun more hm => h more (hm.trans (List.suffix_cons c rest))]

theorem fails_of_answers {test : Bytes → Bool} {text : Bytes}
    (h : (answers test text).contains true = false) : Fails test text := by
  induction text with
  | nil =>
    intro rest hr
    simpa [answers, List.suffix_nil.1 hr] using h
  | cons c tail ih =>
    simp only [answers, List.contains_cons, Bool.or_eq_false_iff] at h
    intro rest hr
    rcases List.suffix_cons_iff.1 hr with rfl | hr
    · simpa using h.1
    · exact ih h.2 rest hr

/-! ## Globs -/

mutual

theorem Token.table_answers (token : Token) (test : Bytes → Bool) (text : Bytes) :
    token.table text (answers test text) = answers (token.run test) text := by
  match token with
  | .literal c =>
    rw [Token.table, expectTable_answers]
    exact congrArg (answers · text) (funext fun _ => by rw [Token.run])
  | .any =>
    rw [Token.table, oneTable_answers]
    exact congrArg (answers · text) (funext fun _ => by rw [Token.run])
  | .star =>
    rw [Token.table, skipNameTable_answers]
    exact congrArg (answers · text) (funext fun _ => by rw [Token.run])
  | .leading =>
    rw [Token.table, skipDirsTable_answers, eitherTable_answers]
    exact congrArg (answers · text) (funext fun _ => by rw [Token.run])
  | .trailing =>
    rw [Token.table, skipAnyTable_answers, oneTable_answers]
    exact congrArg (answers · text) (funext fun _ => by rw [Token.run])
  | .between =>
    rw [Token.table, skipDirsTable_answers, eitherTable_answers, oneTable_answers]
    exact congrArg (answers · text) (funext fun _ => by rw [Token.run])
  | .oneOf negated ranges =>
    rw [Token.table, oneTable_answers]
    exact congrArg (answers · text) (funext fun _ => by rw [Token.run])
  | .alternates [] =>
    rw [Token.table]
    exact congrArg (answers · text) (funext fun _ => by rw [Token.run])
  | .alternates (branch :: rest) =>
    rw [Token.table, tableAll_answers branch test text, tableSome_answers rest test text,
      eitherTable_answers]
    exact congrArg (answers · text) (funext fun _ => by rw [Token.run])

theorem tableAll_answers (tokens : List Token) (test : Bytes → Bool) (text : Bytes) :
    tableAll tokens text (answers test text) = answers (runAll tokens test) text := by
  match tokens with
  | [] =>
    rw [tableAll]
    exact congrArg (answers · text) (funext fun _ => by rw [runAll])
  | token :: rest =>
    have all : runAll (token :: rest) test = token.run (runAll rest test) :=
      funext fun _ => by rw [runAll]
    rw [tableAll, tableAll_answers rest test text, Token.table_answers token _ text, all]
    split
    · rfl
    · next silent =>
      have fails := fails_of_answers (Bool.eq_false_iff.2 silent)
      exact answers_congr fun more hm =>
        (fails more hm).trans (token.run_eq_false fun last hl => fails last (hl.trans hm)).symm

theorem tableSome_answers (branches : List (List Token)) (test : Bytes → Bool) (text : Bytes) :
    tableSome branches text (answers test text) = answers (runSome branches test) text := by
  match branches with
  | [] =>
    rw [tableSome, map_false_answers]
    exact congrArg (answers · text) (funext fun _ => by rw [runSome])
  | branch :: rest =>
    rw [tableSome, tableAll_answers branch test text, tableSome_answers rest test text,
      eitherTable_answers]
    exact congrArg (answers · text) (funext fun _ => by rw [runSome])

end

/-! ## Whole globs -/

/-- The token is a character that stands for itself. -/
def Token.isLiteral : Token → Bool
  | .literal _ => true
  | _ => false

/-- The token is a given character. -/
def Token.isChar (c : Char) : Token → Bool
  | .literal d => d == c
  | _ => false

namespace Glob

/-- The glob is a plain path, which may stand below any directory. -/
def isPath (glob : Glob) : Bool :=
  match glob.tokens with
  | .leading :: rest => rest.all Token.isLiteral && rest.any (Token.isChar '/')
  | tokens => tokens.all Token.isLiteral

/-- The glob asks for a final dot and is no plain path, so that it matches nothing. -/
def isDead (glob : Glob) : Bool :=
  glob.tokens.getLast?.any (Token.isChar '.') && !glob.isPath

/-- The tokens take the whole text. A double star alone takes every text. -/
def takesAll (glob : Glob) (text : Bytes) : Bool :=
  match glob.tokens with
  | [.leading] => true
  | tokens => (tableAll tokens text (answers List.isEmpty text)).headD false

/-- The glob matches the whole text. -/
def accepts (glob : Glob) (text : Bytes) : Bool :=
  !glob.isDead && glob.takesAll text

theorem takesAll_eq (glob : Glob) (text : Bytes) :
    glob.takesAll text =
      match glob.tokens with
      | [.leading] => true
      | tokens => runAll tokens List.isEmpty text := by
  unfold takesAll
  split
  · rfl
  · simp [tableAll_answers]

end Glob

end Homonym.Pattern
