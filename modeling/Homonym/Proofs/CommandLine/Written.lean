import Homonym.CommandLine.Parser
import Homonym.Proofs.Toml.Values

/-!
# Command lines that are written out

The arguments of a scan can be written as words: one for each value of an option, behind the
option's name and an equals sign, and one for each flag that is set. An order of these words is any
that keeps the values of each option in theirs (`ScanArguments.Orders`); two hyphens and the path
end the line.

* What a reader has collected after some words is told from the words alone (`collect`), flag by
  flag and option by option, so the order between different options does not matter.
* A word that fits what was read before it adds itself to the collection and nothing else
  (`add_collect`), so by induction a whole line is collected (`readWords_entries`).
* The collection of a line is the arguments that were written (`toScan_collect`), hence `parse`
  gives them back (`parse_written`).
-/

namespace Homonym.CommandLine

/-! ## Arguments as words -/

/-- A flag, or an option with its value, as one word of a command line. -/
inductive Entry where
  | flag (flag : Flag)
  | value (option : ValueOption) (text : String)
deriving DecidableEq

/-- An entry written out. -/
def Entry.word : Entry → String
  | .flag f => "--" ++ f.name
  | .value o text => "--" ++ o.name ++ "=" ++ text

/-- The flags among some entries. -/
def flagsOf (entries : List Entry) : List Flag :=
  entries.filterMap fun
    | .flag flag => some flag
    | .value _ _ => none

/-- The values that some entries give to an option. -/
def textsOf (option : ValueOption) (entries : List Entry) : List String :=
  entries.filterMap fun
    | .flag _ => none
    | .value other text => if other = option then some text else none

/-- The flags that a scan alone knows. -/
def Flag.ofScan : List Flag :=
  [.includeInternal, .separateOverloads, .allowCrossModule, .followLinks, .noIgnoreFile, .strict]

/-- The option may be given only once. -/
def ValueOption.isSingle : ValueOption → Bool
  | .settingsFile | .format | .output | .maxDuplicates => true
  | .included | .excluded | .ignoredKind | .ignoredName => false

namespace ScanArguments

/-- The flag is set. -/
def isSet (a : ScanArguments) : Flag → Bool
  | .includeInternal => a.includeInternal
  | .separateOverloads => a.separateOverloads
  | .allowCrossModule => a.allowCrossModule
  | .followLinks => a.followLinks
  | .noIgnoreFile => a.noIgnoreFile
  | .strict => a.strict
  | _ => false

/-- The values of an option, as texts. -/
def texts (a : ScanArguments) : ValueOption → List String
  | .settingsFile => a.settingsFile.toList
  | .format => [a.format.label]
  | .output => a.output.toList
  | .included => a.includes
  | .excluded => a.excludes
  | .ignoredKind => a.ignoredKinds.map Kind.label
  | .ignoredName => a.ignoredNames
  | .maxDuplicates => a.maxDuplicates.toList.map toString

/-- All entries of the arguments. -/
def entries (a : ScanArguments) : List Entry :=
  (ValueOption.all.flatMap fun option => (a.texts option).map (.value option)) ++
    (Flag.ofScan.filter a.isSet).map .flag

/-- The entries of the arguments in any order that keeps the values of each option in theirs. -/
structure Orders (a : ScanArguments) (order : List Entry) : Prop where
  perm : order.Perm a.entries
  texts_eq : ∀ option, textsOf option order = a.texts option

end ScanArguments

/-! ## What has been collected -/

@[simp]
theorem flagsOf_concat (entries : List Entry) (e : Entry) :
    flagsOf (entries ++ [e]) = flagsOf entries ++ flagsOf [e] :=
  List.filterMap_append

@[simp]
theorem textsOf_concat (option : ValueOption) (entries : List Entry) (e : Entry) :
    textsOf option (entries ++ [e]) = textsOf option entries ++ textsOf option [e] :=
  List.filterMap_append

@[simp]
theorem textsOf_value (option other : ValueOption) (text : String) :
    textsOf option [.value other text] = if other = option then [text] else [] := by
  by_cases hSame : other = option <;> simp [textsOf, hSame]

/-- What a reader knows after some entries, none of which it refused. -/
def collect (entries : List Entry) : Given :=
  { flags := flagsOf entries
    settingsFile := (textsOf .settingsFile entries).head?
    format := (textsOf .format entries).head?.bind OutputFormat.ofLabel?
    output := (textsOf .output entries).head?
    includes := textsOf .included entries
    excludes := textsOf .excluded entries
    ignoredKinds := (textsOf .ignoredKind entries).filterMap Kind.ofLabel?
    ignoredNames := textsOf .ignoredName entries
    maxDuplicates := (textsOf .maxDuplicates entries).head?.bind int64? }

/-- Takes in an entry. -/
def Given.add (given : Given) : Entry → Except Stop Given
  | .flag flag => given.addFlag .scan flag
  | .value option text => given.addValue option text

/-- The text can be read as a value of the option. -/
def Readable (text : String) : ValueOption → Prop
  | .settingsFile | .output => text ≠ ""
  | .format => ∃ format, OutputFormat.ofLabel? text = some format
  | .ignoredKind => ∃ kind, Kind.ofLabel? text = some kind
  | .maxDuplicates => ∃ n, int64? text = some n
  | .included | .excluded | .ignoredName => True

/-- The entry can be taken in after others. -/
def Entry.Fits (before : List Entry) : Entry → Prop
  | .flag f => f ∈ Flag.ofScan ∧ f ∉ flagsOf before
  | .value o text => Readable text o ∧ (o.isSingle = true → textsOf o before = [])

theorem path?_of_ne_empty {text : String} (h : text ≠ "") : path? text = some text :=
  if_neg (by simpa using h)

@[simp]
theorem ok_bind {α β : Type} (a : α) (f : α → Except Stop β) : (.ok a >>= f) = f a := rfl

@[simp]
theorem pure_eq_ok {α : Type} (a : α) : (pure a : Except Stop α) = .ok a := rfl

@[simp]
theorem orStop_some {α : Type} (error : UsageError) (a : α) : orStop error (some a) = .ok a := rfl

@[simp]
theorem once_none {α : Type} (error : UsageError) (a : α) :
    once none error (some a) = .ok (some a) := rfl

theorem addFlag_of_mem {given : Given} {flag : Flag} (hOwn : flag ∈ Flag.ofScan)
    (hNew : flag ∉ given.flags) :
    given.addFlag .scan flag = .ok { given with flags := given.flags ++ [flag] } := by
  have hHas : given.has flag = false := by simpa [Given.has] using hNew
  cases flag <;> first | exact absurd hOwn (by decide) | simp [Given.addFlag, hHas]

/-- **One step.** An entry that fits adds itself to what has been collected. -/
theorem add_collect {before : List Entry} {e : Entry} (h : e.Fits before) :
    (collect before).add e = .ok (collect (before ++ [e])) := by
  cases e with
  | flag flag =>
    have hTexts : ∀ option, textsOf option [.flag flag] = [] := fun _ => rfl
    have hFlags : flagsOf [.flag flag] = [flag] := rfl
    rw [Given.add, addFlag_of_mem h.1 h.2]
    simp only [collect, flagsOf_concat, textsOf_concat, hFlags, hTexts, List.append_nil]
  | value option text =>
    have hFlags : flagsOf [.value option text] = [] := rfl
    obtain ⟨hText, hSingle⟩ := h
    rw [Given.add]
    cases option with
    | settingsFile =>
      have hPath := path?_of_ne_empty hText
      simp [Given.addValue, collect, hFlags, hSingle rfl, hPath]
    | format =>
      obtain ⟨format, hFormat⟩ := hText
      simp [Given.addValue, collect, hFlags, hSingle rfl, hFormat]
    | output =>
      have hPath := path?_of_ne_empty hText
      simp [Given.addValue, collect, hFlags, hSingle rfl, hPath]
    | maxDuplicates =>
      obtain ⟨n, hNumber⟩ := hText
      simp [Given.addValue, collect, hFlags, hSingle rfl, hNumber]
    | ignoredKind =>
      obtain ⟨kind, hKind⟩ := hText
      simp [Given.addValue, collect, hFlags, hKind]
    | included => simp [Given.addValue, collect, hFlags]
    | excluded => simp [Given.addValue, collect, hFlags]
    | ignoredName => simp [Given.addValue, collect, hFlags]

/-! ## Reading words -/

/-- A word behind two hyphens is a name up to its first equals sign, and a value behind it. -/
theorem word_long {r : Reading} (hPaths : r.pathsOnly = false) (level : Level) {word name : String}
    {rest : List Char} (hWord : word.toList = '-' :: '-' :: (name.toList ++ rest))
    (hSome : name ≠ "") (hName : ∀ c ∈ name.toList, (c != '=') = true)
    (hRest : ∀ c ∈ rest.head?, c = '=') :
    r.word level word = r.longWord level name (rest.tail?.map String.ofList) := by
  obtain ⟨c, more, hText⟩ : ∃ c more, name.toList = c :: more :=
    List.exists_cons_of_ne_nil (by simpa using hSome)
  have hLong : c :: (more ++ rest) = name.toList ++ rest := by rw [hText, List.cons_append]
  have hEnd : rest.dropWhile (· != '=') = rest ∧ rest.takeWhile (· != '=') = [] := by
    cases rest with
    | nil => exact ⟨rfl, rfl⟩
    | cons d text =>
      obtain rfl := hRest d rfl
      exact ⟨rfl, rfl⟩
  have hTake : (c :: (more ++ rest)).takeWhile (· != '=') = name.toList := by
    rw [hLong, List.takeWhile_append_of_pos hName, hEnd.2, List.append_nil]
  have hDrop : (c :: (more ++ rest)).dropWhile (· != '=') = rest := by
    rw [hLong, List.dropWhile_append_of_pos hName, hEnd.1]
  rw [hText, List.cons_append] at hWord
  simp only [Reading.word, hPaths, hWord, hTake, hDrop, String.ofList_toList, Bool.false_eq_true,
    if_false]
  cases rest <;> rfl

theorem word_flag (given : Given) {f : Flag} (hOwn : f ∈ Flag.ofScan) :
    Reading.word { given } .scan (Entry.flag f).word =
      (given.add (.flag f)).map fun given => { given } := by
  have hName : f.name.toList.all (· != '=') = true := by
    cases f <;> first | exact absurd hOwn (by decide) | decide
  have hNamed : Level.scan.named? f.name = some (.flag f) := by
    cases f <;> first | exact absurd hOwn (by decide) | decide
  have hWord : (Entry.flag f).word.toList = '-' :: '-' :: (f.name.toList ++ []) := by
    simp [Entry.word, String.toList_append]
  rw [word_long rfl .scan hWord (by cases f <;> decide) (List.all_eq_true.1 hName)
    (by simp)]
  simp only [List.tail?_nil, Option.map_none, Reading.longWord, hNamed, Reading.flag,
    Reading.settle, pure_eq_ok, ok_bind, Given.add]
  cases given.addFlag .scan f <;> rfl

theorem word_value (given : Given) (o : ValueOption) (text : String) :
    Reading.word { given } .scan (Entry.value o text).word =
      (given.add (.value o text)).map fun given => { given } := by
  have hName : o.name.toList.all (· != '=') = true := by cases o <;> decide
  have hNamed : Level.scan.named? o.name = some (.option o) := by cases o <;> decide
  have hWord : (Entry.value o text).word.toList =
      '-' :: '-' :: (o.name.toList ++ '=' :: text.toList) := by
    simp [Entry.word, String.toList_append]
  rw [word_long rfl .scan hWord (by cases o <;> decide) (List.all_eq_true.1 hName)
    (by simp)]
  simp only [List.tail?_cons, Option.map_some, String.ofList_toList, Reading.longWord, hNamed,
    Reading.option, Reading.settle, pure_eq_ok, ok_bind, Given.add]
  cases given.addValue o text <;> rfl

/-- What is collected after one word more. -/
theorem word_collect {before : List Entry} {e : Entry} (h : e.Fits before) :
    Reading.word { given := collect before } .scan e.word =
      .ok { given := collect (before ++ [e]) } := by
  have hAdd := add_collect h
  cases e with
  | flag f =>
    rw [word_flag _ h.1, hAdd]
    rfl
  | value o text =>
    rw [word_value, hAdd]
    rfl

/-- **A run.** Words that fit one after the other are collected. -/
theorem readWords_entries {before behind : List Entry}
    (h : ∀ front e back, before ++ behind = front ++ e :: back → e.Fits front)
    (rest : List String) :
    readWords .scan { given := collect before } (behind.map Entry.word ++ rest) =
      readWords .scan { given := collect (before ++ behind) } rest := by
  induction behind generalizing before with
  | nil => rw [List.append_nil, List.map_nil, List.nil_append]
  | cons e behind ih =>
    have hNext : before ++ e :: behind = before ++ [e] ++ behind := by simp
    rw [List.map_cons, List.cons_append, readWords, word_collect (h before e behind rfl), ok_bind,
      ih (hNext ▸ h), hNext]

/-- Behind two hyphens the path is read, whatever it looks like. -/
theorem readWords_path {given : Given} (hNone : given.path = none) {path : String}
    (hPath : path ≠ "") :
    readWords .scan { given } ["--", path] = .ok { given with path := some path } := by
  have hMarked : Reading.word { given } .scan "--" = .ok { given, pathsOnly := true } := rfl
  have hTaken : Reading.word { given, pathsOnly := true } .scan path =
      .ok { given, pathsOnly := true, pending := .path path } := by
    simp [Reading.word, Reading.plainPath, Reading.settle, hNone]
  have hSettled : given.addPath path = .ok { given with path := some path } := by
    simp [Given.addPath, hNone, path?_of_ne_empty hPath]
  rw [readWords, hMarked, ok_bind, readWords, hTaken, ok_bind, readWords, Reading.settle]
  simp only [hSettled, ok_bind]
  rfl

/-! ## Arguments that come back -/

/-- Decimal digits are read back behind the sign in front of them. -/
theorem int64?_of_digits {text : String} {n : Int64} {sign : Int} {m : Nat}
    (hText : text.toList = Nat.toDigits 10 m ∧ sign = 1 ∨
      text.toList = '-' :: Nat.toDigits 10 m ∧ sign = -1)
    (hValue : n.toInt = sign * m) : int64? text = some n := by
  have hRange : Int64.minValue.toInt ≤ n.toInt ∧ n.toInt ≤ Int64.maxValue.toInt :=
    ⟨n.minValue_le_toInt, n.toInt_le⟩
  have hDigits : (Nat.toDigits 10 m).all Char.isDigit = true :=
    List.all_eq_true.2 fun c hc => Json.isDigit_of_mem_toDigits hc
  obtain ⟨c, more, hFirst, hDigit⟩ := Json.exists_toDigits_eq_cons m
  have hRead : int64? text =
      if (Nat.toDigits 10 m).isEmpty || !(Nat.toDigits 10 m).all Char.isDigit then none
      else if Int64.minValue.toInt ≤ sign * Nat.ofDigitChars 10 (Nat.toDigits 10 m) 0 ∧
          sign * Nat.ofDigitChars 10 (Nat.toDigits 10 m) 0 ≤ Int64.maxValue.toInt then
        some (Int64.ofInt (sign * Nat.ofDigitChars 10 (Nat.toDigits 10 m) 0))
      else none := by
    rcases hText with ⟨hText, rfl⟩ | ⟨hText, rfl⟩
    · have hMinus : c ≠ '-' := by rintro rfl; cases hDigit
      have hPlus : c ≠ '+' := by rintro rfl; cases hDigit
      rw [int64?, hText, hFirst]
      split
      · next hSign =>
        split at hSign
        · next hEq => exact absurd (List.cons.inj hEq).1 hMinus
        · next hEq => exact absurd (List.cons.inj hEq).1 hPlus
        · cases hSign
          rfl
    · rw [int64?, hText]
      rfl
  rw [hRead, Nat.ofDigitChars_ten_toDigits, ← hValue, hDigits, hFirst, if_neg (by simp),
    if_pos hRange, Int64.ofInt_toInt]

theorem int64?_toString (n : Int64) : int64? (toString n) = some n := by
  have hText : (toString n).toList = Json.intText n.toInt := Toml.toList_toString_int n.toInt
  cases hInt : n.toInt with
  | ofNat m =>
    rw [hInt] at hText
    exact int64?_of_digits (.inl ⟨hText, rfl⟩) (by rw [hInt]; simp)
  | negSucc m =>
    rw [hInt] at hText
    exact int64?_of_digits (.inr ⟨hText, rfl⟩) (by rw [hInt]; omega)

theorem ofLabel?_label (format : OutputFormat) :
    OutputFormat.ofLabel? format.label = some format := by
  cases format <;> decide

namespace ScanArguments

/-- No path of the arguments is empty. -/
structure PathsGiven (a : ScanArguments) : Prop where
  path_ne : a.path ≠ ""
  settingsFile_ne : a.settingsFile ≠ some ""
  output_ne : a.output ≠ some ""

variable {a : ScanArguments} {order : List Entry}

theorem PathsGiven.readable (h : a.PathsGiven) {option : ValueOption} {text : String}
    (hText : text ∈ a.texts option) : Readable text option := by
  cases option with
  | settingsFile =>
    rintro rfl
    exact h.settingsFile_ne (Option.mem_toList.1 hText)
  | format =>
    obtain rfl := List.mem_singleton.1 hText
    exact ⟨a.format, ofLabel?_label a.format⟩
  | output =>
    rintro rfl
    exact h.output_ne (Option.mem_toList.1 hText)
  | ignoredKind =>
    obtain ⟨kind, -, rfl⟩ := List.mem_map.1 hText
    exact ⟨kind, Kind.ofLabel?_label kind⟩
  | maxDuplicates =>
    obtain ⟨n, -, rfl⟩ := List.mem_map.1 hText
    exact ⟨n, int64?_toString n⟩
  | included => trivial
  | excluded => trivial
  | ignoredName => trivial

theorem length_texts_le {option : ValueOption} (hSingle : option.isSingle = true) :
    (a.texts option).length ≤ 1 := by
  cases option with
  | settingsFile => exact Option.length_toList_le
  | format => exact Nat.le_refl 1
  | output => exact Option.length_toList_le
  | maxDuplicates =>
    rw [texts, List.length_map]
    exact Option.length_toList_le
  | included => cases hSingle
  | excluded => cases hSingle
  | ignoredKind => cases hSingle
  | ignoredName => cases hSingle

theorem flagsOf_entries (a : ScanArguments) :
    flagsOf a.entries = Flag.ofScan.filter a.isSet := by
  have hNone : flagsOf (ValueOption.all.flatMap fun o => (a.texts o).map (.value o)) = [] := by
    refine List.filterMap_eq_nil_iff.2 fun e he => ?_
    obtain ⟨o, -, hMem⟩ := List.mem_flatMap.1 he
    obtain ⟨text, -, rfl⟩ := List.mem_map.1 hMem
    rfl
  have hAll : ∀ flags : List Flag, flagsOf (flags.map .flag) = flags := fun flags => by
    rw [flagsOf, List.filterMap_map]
    exact List.filterMap_some
  rw [flagsOf] at hNone
  rw [entries, flagsOf, List.filterMap_append, hNone, List.nil_append]
  exact hAll _

theorem Orders.flags_perm (h : a.Orders order) :
    (flagsOf order).Perm (Flag.ofScan.filter a.isSet) :=
  a.flagsOf_entries ▸ h.perm.filterMap _

/-- Each entry of an order fits those in front of it. -/
theorem Orders.fits (h : a.Orders order) (hPathsGiven : a.PathsGiven) {front back : List Entry}
    {e : Entry} (hOrder : order = front ++ e :: back) : e.Fits front := by
  cases e with
  | flag f =>
    have hFlags : flagsOf order = flagsOf front ++ f :: flagsOf back := by
      rw [hOrder]
      exact List.filterMap_append
    have hUnique : (flagsOf order).Nodup :=
      h.flags_perm.nodup_iff.2 ((by decide : Flag.ofScan.Nodup).filter _)
    refine ⟨?_, ?_⟩
    · have hMem : f ∈ flagsOf order := by simp [hFlags]
      exact (List.mem_filter.1 (h.flags_perm.subset hMem)).1
    · rw [hFlags, List.nodup_append] at hUnique
      exact fun hMem => hUnique.2.2 f hMem f List.mem_cons_self rfl
  | value o text =>
    have hTexts : a.texts o = textsOf o front ++ text :: textsOf o back := by
      rw [← h.texts_eq o, hOrder]
      simp [textsOf]
    refine ⟨hPathsGiven.readable (by simp [hTexts]), fun hSingle => ?_⟩
    have hLength := a.length_texts_le hSingle
    rw [hTexts, List.length_append, List.length_cons] at hLength
    exact List.eq_nil_of_length_eq_zero (by omega)

theorem Orders.has_collect (h : a.Orders order) (f : Flag) : (collect order).has f = a.isSet f := by
  have hOwn : a.isSet f = true → f ∈ Flag.ofScan := by
    cases f <;> first | exact fun _ => by decide | exact fun hSet => by cases hSet
  rw [Given.has, Bool.eq_iff_iff, List.contains_iff_mem]
  exact h.flags_perm.mem_iff.trans
    (List.mem_filter.trans ⟨fun hBoth => hBoth.2, fun hSet => ⟨hOwn hSet, hSet⟩⟩)

/-- A line of the entries in any order, with the path behind them, is read to the end, and what is
given by it is the arguments. -/
theorem Orders.readWords_eq (h : a.Orders order) (hPathsGiven : a.PathsGiven) :
    ∃ given, readWords .scan {} (order.map Entry.word ++ ["--", a.path]) = .ok given ∧
      given.verbosity = 0 ∧ (∀ f, given.has f = a.isSet f) ∧ given.toScan = a := by
  have hFits : ∀ front e back, [] ++ order = front ++ e :: back → e.Fits front :=
    fun front e back hSplit => h.fits hPathsGiven hSplit
  have hRun := readWords_entries hFits ["--", a.path]
  have hHas : ∀ f, Given.has { collect order with path := some a.path } f = a.isSet f :=
    h.has_collect
  refine ⟨_, hRun.trans (readWords_path rfl hPathsGiven.path_ne), rfl, hHas, ?_⟩
  have hKinds : (a.ignoredKinds.map Kind.label).filterMap Kind.ofLabel? = a.ignoredKinds := by
    rw [List.filterMap_map, funext (f := Kind.ofLabel? ∘ Kind.label) Kind.ofLabel?_label]
    exact List.filterMap_some
  have hNumber : (a.maxDuplicates.toList.map toString).head?.bind int64? = a.maxDuplicates := by
    cases a.maxDuplicates with
    | none => rfl
    | some n => exact int64?_toString n
  simp only [Given.toScan, hHas, List.nil_append]
  simp only [collect, h.texts_eq, texts, isSet, hKinds, hNumber, ofLabel?_label, List.head?_cons,
    Option.bind_some, Option.getD_some, Option.head?_toList]

end ScanArguments

/-- Where colour is not turned off by a flag, the environment decides. -/
theorem colorOff_of_readable {given : Given} (hFlag : given.has .noColor = false)
    (colorless : Option Bool) :
    colorOff given (colorless.map toString) = .ok (colorless.getD false) := by
  unfold colorOff
  rw [hFlag]
  rcases colorless with _ | _ | _ <;> rfl

theorem checkVolume_of_not_quiet {given : Given} (hFlag : given.has .quiet = false) :
    checkVolume given = .ok () := by
  rw [checkVolume, hFlag]
  rfl

/-- **A written command line is read back.** Any order of the entries of some arguments, then two
hyphens and the path, gives the arguments and nothing else. The environment may turn colour off or
leave it on by `true` or `false`, or say nothing; any other value there is refused. -/
theorem parse_written {arguments : ScanArguments} (hPathsGiven : arguments.PathsGiven)
    {order : List Entry} (hOrder : arguments.Orders order) (colorless : Option Bool) :
    parse (colorless.map toString)
        ("scan" :: (order.map Entry.word ++ ["--", arguments.path])) =
      .ok { noColor := colorless.getD false, command := .scan arguments } := by
  have hTop : ∀ words, readTop {} ("scan" :: words) = .ok ({}, some (.scan, words)) := fun _ => rfl
  obtain ⟨given, hGiven, hVerbosity, hHas, hScan⟩ := hOrder.readWords_eq hPathsGiven
  have hQuiet : given.has .quiet = false := hHas .quiet
  have hColor : given.has .noColor = false := hHas .noColor
  have hErrors : given.has .jsonErrors = false := hHas .jsonErrors
  have hNone : ∀ f, Given.has {} f = false := fun _ => rfl
  rw [parse, hTop, ok_bind]
  simp [hGiven, colorOff_of_readable hColor, colorOff_of_readable (hNone _),
    checkVolume_of_not_quiet hQuiet, checkVolume_of_not_quiet (hNone _), hVerbosity, hQuiet,
    hErrors, hNone, hScan]

/-- Values that look like flags, are two hyphens or hold equals signs, kinds against their rank, the
least number, and options between each other. -/
theorem parse_written_odd_line :
    let arguments : ScanArguments :=
      { path := "--strict", settingsFile := some "-c=", format := .csv, includes := ["--", "a=b"],
        ignoredKinds := [.nameSpace, .function], ignoredNames := ["-v", ""],
        maxDuplicates := some Int64.minValue, followLinks := true, strict := true }
    let order : List Entry :=
      [.flag .strict, .value .ignoredKind "namespace", .value .included "--",
        .value .maxDuplicates "-9223372036854775808", .value .ignoredName "-v",
        .value .ignoredKind "function", .flag .followLinks, .value .ignoredName "",
        .value .format "csv", .value .included "a=b", .value .settingsFile "-c="]
    arguments.PathsGiven ∧ arguments.Orders order ∧
      order.map Entry.word ++ ["--", arguments.path] =
        ["--strict", "--ignore-type=namespace", "--include=--",
          "--max-duplicates=-9223372036854775808", "--ignore-name=-v", "--ignore-type=function",
          "--follow-symlinks", "--ignore-name=", "--format=csv", "--include=a=b", "--config=-c=",
          "--", "--strict"] ∧
      parse (some "true") ("scan" :: (order.map Entry.word ++ ["--", arguments.path])) =
        .ok { noColor := true, command := .scan arguments } := by
  intro arguments order
  have hPathsGiven : arguments.PathsGiven := ⟨by decide, by decide, by decide⟩
  have hOrder : arguments.Orders order := ⟨by decide, by intro option; cases option <;> decide⟩
  exact ⟨hPathsGiven, hOrder, by decide, parse_written hPathsGiven hOrder (some true)⟩

end Homonym.CommandLine
