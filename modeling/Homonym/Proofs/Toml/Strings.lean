import Homonym.Toml.Lexical
import Homonym.Toml.Writer

/-!
# Strings of TOML read back

The writer has five forms for a text and takes the plainest that can hold it. Every form is read
back as the text, if no further mark follows (`string?_textChars`).

Single marks are simple: `basicBody_singleBody` resolves one escape after the other, and
`literalBody_append` takes the text as it is. Between tripled marks a run of marks may stand raw if
it is shorter than three. At the end of the text such a run joins the closing marks, and the reader
has to divide up to five marks into those of the text and the last three. So what stands between
tripled marks must begin with a short run (`ShortRun`), and so must everything it ends with.
-/

namespace Homonym.Toml

open Text

/-! ## Characters -/

theorem isPrintable_of_not_isControl {c : Char} (hControl : isControl c = false)
    (hFeed : c ≠ '\n') :
    isPrintable c = true := by
  by_cases hTab : c = '\t'
  · simp [isPrintable, hTab]
  · simp [isControl, hTab, hFeed] at hControl
    simp [isPrintable, hTab]
    omega

theorem hexValue?_hexDigit {d : Nat} (hDigit : d < 16) : hexValue? (hexDigit d) = some d := by
  have hAll : ∀ d < 16, hexValue? (hexDigit d) = some d := by decide
  exact hAll d hDigit

/-- An escaped control is resolved. -/
theorem escape?_control {c : Char} (hSmall : c.toNat < 0x80) (rest : List Char) :
    escape? ('u' :: '0' :: '0' :: hexDigit (c.toNat / 16 % 16) :: hexDigit (c.toNat % 16) :: rest) =
      some (c, 5) := by
  have hHigh := hexValue?_hexDigit (Nat.mod_lt (c.toNat / 16) (by decide : 0 < 16))
  have hLow := hexValue?_hexDigit (Nat.mod_lt c.toNat (by decide : 0 < 16))
  have hZero : hexValue? '0' = some 0 := by decide
  have hNumber : hexNumber? ['0', '0', hexDigit (c.toNat / 16 % 16), hexDigit (c.toNat % 16)] =
      some c.toNat := by
    have hValue : c.toNat / 16 % 16 * 16 + c.toNat % 16 = c.toNat := by omega
    simp [hexNumber?, hZero, hHigh, hLow, hValue]
  have hChar : charOf? c.toNat = some c := by
    rw [charOf?, if_pos (by simp [Nat.isValidChar]; omega), Char.ofNat_toNat]
  simp [escape?, hNumber, hChar]

/-- A character is written as it is, or as an escape that is resolved to it. -/
theorem escape_cases (c : Char) :
    (escape c = [c] ∧ c ≠ '\\' ∧ isControl c = false) ∨
      ∃ e, escape c = '\\' :: e ∧ ∀ rest, escape? (e ++ rest) = some (c, e.length) := by
  unfold escape
  by_cases hSlash : c = '\\'
  · exact .inr ⟨['\\'], by rw [if_pos hSlash], fun rest => by rw [hSlash]; rfl⟩
  rw [if_neg hSlash]
  by_cases hTab : c = '\t'
  · exact .inr ⟨['t'], by rw [if_pos hTab], fun rest => by rw [hTab]; rfl⟩
  rw [if_neg hTab]
  by_cases hBack : c = '\x08'
  · exact .inr ⟨['b'], by rw [if_pos hBack], fun rest => by rw [hBack]; rfl⟩
  rw [if_neg hBack]
  by_cases hForm : c = '\x0c'
  · exact .inr ⟨['f'], by rw [if_pos hForm], fun rest => by rw [hForm]; rfl⟩
  rw [if_neg hForm]
  by_cases hReturn : c = '\r'
  · exact .inr ⟨['r'], by rw [if_pos hReturn], fun rest => by rw [hReturn]; rfl⟩
  rw [if_neg hReturn]
  by_cases hControl : isControl c = true
  · have hSmall : c.toNat < 0x80 := by
      simp [isControl] at hControl
      omega
    exact .inr ⟨_, by rw [if_pos hControl], escape?_control hSmall⟩
  · exact .inl ⟨if_neg hControl, hSlash, Bool.eq_false_iff.2 hControl⟩

/-! ## Single marks -/

theorem basicBody_skip (e rest : List Char) :
    basicBody e.length (e ++ rest) = basicBody 0 rest := by
  induction e with
  | nil => rfl
  | cons c e ih => rw [List.cons_append, List.length_cons, basicBody, ih]

theorem basicBody_escape {e : List Char} {c : Char}
    (hEscape : ∀ rest, escape? (e ++ rest) = some (c, e.length)) (rest : List Char) :
    basicBody 0 ('\\' :: (e ++ rest)) =
      (basicBody 0 rest).map fun (s, after) => (c :: s, after) := by
  rw [basicBody, hEscape]
  simp only [basicBody_skip]

theorem basicBody_plain {c : Char} (hQuote : c ≠ '"') (hSlash : c ≠ '\\')
    (hPrintable : isPrintable c = true) (rest : List Char) :
    basicBody 0 (c :: rest) = (basicBody 0 rest).map fun (s, after) => (c :: s, after) := by
  rw [basicBody, if_pos hPrintable]
  · exact hQuote
  · exact hSlash

theorem basicBody_singleBody (text rest : List Char) :
    basicBody 0 (singleBody text ++ '"' :: rest) = some (text, rest) := by
  induction text with
  | nil => simp [singleBody, basicBody]
  | cons c text ih =>
    have hText : singleBody (c :: text) = (if c = '"' then ['\\', '"'] else
        if c = '\n' then ['\\', 'n'] else escape c) ++ singleBody text := by
      simp [singleBody]
    rw [hText, List.append_assoc]
    by_cases hQuote : c = '"'
    · rw [if_pos hQuote, hQuote]
      exact (basicBody_escape (e := ['"']) (fun _ => rfl) _).trans (by rw [ih]; rfl)
    rw [if_neg hQuote]
    by_cases hFeed : c = '\n'
    · rw [if_pos hFeed, hFeed]
      exact (basicBody_escape (e := ['n']) (fun _ => rfl) _).trans (by rw [ih]; rfl)
    rw [if_neg hFeed]
    rcases escape_cases c with ⟨hRaw, hSlash, hControl⟩ | ⟨e, hEscaped, hEscape⟩
    · rw [hRaw, List.singleton_append, basicBody_plain hQuote hSlash
        (isPrintable_of_not_isControl hControl hFeed), ih]
      rfl
    · rw [hEscaped, List.cons_append, basicBody_escape hEscape, ih]
      rfl

theorem literalBody_append {text : List Char} (hMark : '\'' ∉ text)
    (hPrintable : ∀ c ∈ text, isPrintable c = true) (rest : List Char) :
    literalBody (text ++ '\'' :: rest) = some (text, rest) := by
  induction text with
  | nil => rfl
  | cons c text ih =>
    simp only [List.mem_cons, not_or] at hMark
    rw [List.cons_append, literalBody, if_pos (hPrintable c (by simp)),
      ih hMark.2 fun d hd => hPrintable d (by simp [hd])]
    · rfl
    · exact Ne.symm hMark.1

/-! ## Tripled marks -/

/-- A text begins with at most `n` marks, which are all of it or have another character behind
them. -/
def ShortRun (mark : Char) (n : Nat) (text : List Char) : Prop :=
  ∃ k ≤ n, text = List.replicate k mark ∨
    ∃ c rest, c ≠ mark ∧ text = List.replicate k mark ++ c :: rest

namespace ShortRun

variable {mark : Char} {n : Nat} {text : List Char}

theorem nil : ShortRun mark n [] := ⟨0, Nat.zero_le n, .inl rfl⟩

theorem other {c : Char} (hOther : c ≠ mark) : ShortRun mark n (c :: text) :=
  ⟨0, Nat.zero_le n, .inr ⟨c, text, hOther, rfl⟩⟩

theorem cons {c : Char} (hShort : c = mark → ShortRun mark n text) :
    ShortRun mark (n + 1) (c :: text) := by
  by_cases hMark : c = mark
  · obtain ⟨k, hLe, rfl | ⟨d, rest, hOther, rfl⟩⟩ := hShort hMark
    · exact ⟨k + 1, by omega, .inl (by rw [hMark]; rfl)⟩
    · exact ⟨k + 1, by omega, .inr ⟨d, rest, hOther, by rw [hMark]; rfl⟩⟩
  · exact .other hMark

theorem mono {m : Nat} (hShort : ShortRun mark n text) (hLe : n ≤ m) : ShortRun mark m text := by
  obtain ⟨k, hk, hText⟩ := hShort
  exact ⟨k, by omega, hText⟩

end ShortRun

theorem closing?_marks {mark : Char} {k : Nat} (hLe : k ≤ 2) {rest : List Char}
    (hRest : rest.head? ≠ some mark) :
    closing? mark (List.replicate k mark ++ mark :: mark :: mark :: rest) =
      some (List.replicate k mark, rest) := by
  have hMarks : List.replicate k mark ++ mark :: mark :: mark :: rest =
      List.replicate (k + 3) mark ++ rest := by
    rw [← List.replicate_append_replicate, List.append_assoc]
    rfl
  have hStop : rest.takeWhile (· == mark) = [] := by
    cases rest with
    | nil => rfl
    | cons c rest =>
      have hOther : c ≠ mark := by simpa using hRest
      simp [hOther]
  have hRun : ((List.replicate (k + 3) mark ++ rest).takeWhile (· == mark)).length = k + 3 := by
    rw [List.takeWhile_append_of_pos (by simp), hStop, List.append_nil, List.length_replicate]
  have hKept : min (k + 3 - 3) 2 = k := by omega
  have hDrop : (List.replicate (k + 3) mark ++ rest).drop (k + 3) = rest :=
    List.drop_left' (List.length_replicate ..)
  rw [closing?, hMarks]
  simp only [hRun, hKept, hDrop]
  rw [if_neg (by omega)]

theorem closing?_other {mark c : Char} {k : Nat} (hLe : k ≤ 2) (hOther : c ≠ mark)
    (rest : List Char) : closing? mark (List.replicate k mark ++ c :: rest) = none := by
  have hRun : ((List.replicate k mark ++ c :: rest).takeWhile (· == mark)).length = k := by
    rw [List.takeWhile_append_of_pos (by simp)]
    simp [hOther]
  rw [closing?, hRun, if_pos (by omega)]

/-- At the front of a text that begins with a short run, the closing marks are met only if nothing
but that run is left. -/
theorem closing?_of_shortRun {mark : Char} {text rest : List Char} (hShort : ShortRun mark 2 text)
    (hRest : rest.head? ≠ some mark) :
    closing? mark (text ++ mark :: mark :: mark :: rest) = none ∨
      (∃ k, text = List.replicate k mark) ∧
        closing? mark (text ++ mark :: mark :: mark :: rest) = some (text, rest) := by
  obtain ⟨k, hLe, rfl | ⟨c, more, hOther, rfl⟩⟩ := hShort
  · exact .inr ⟨⟨k, rfl⟩, closing?_marks hLe hRest⟩
  · rw [List.append_assoc, List.cons_append]
    exact .inl (closing?_other hLe hOther _)

theorem shortRun_of_not_hasTriple {mark : Char} {text : List Char}
    (hTriple : hasTriple mark text = false) : ShortRun mark 2 text := by
  match text, hTriple with
  | [], _ => exact .nil
  | [a], _ => exact .cons fun _ => .nil
  | [a, b], _ => exact .cons fun _ => .cons fun _ => .nil
  | a :: b :: c :: rest, hTriple =>
    simp only [hasTriple, Bool.or_eq_false_iff] at hTriple
    exact .cons fun hA => .cons fun hB => .other (by simpa [hA, hB] using hTriple.1)

theorem hasTriple_tail {mark c : Char} {text : List Char}
    (hTriple : hasTriple mark (c :: text) = false) : hasTriple mark text = false := by
  match text, hTriple with
  | [], _ => rfl
  | [_], _ => rfl
  | a :: b :: rest, hTriple =>
    rw [hasTriple, Bool.or_eq_false_iff] at hTriple
    exact hTriple.2

theorem tripleLiteralBody_plain {c : Char} {rest : List Char}
    (hOpen : closing? '\'' (c :: rest) = none) (hControl : isControl c = false) :
    tripleLiteralBody 0 (c :: rest) =
      (tripleLiteralBody 0 rest).map fun (s, after) => (c :: s, after) := by
  rw [tripleLiteralBody, hOpen]
  have hReturn : c ≠ '\r' := by
    rintro rfl
    cases hControl
  by_cases hFeed : c = '\n'
  · simp only [hFeed, if_true]
    rfl
  · simp only [hFeed, hReturn, isPrintable_of_not_isControl hControl hFeed, if_false, if_true]
    rfl

theorem tripleLiteralBody_append {text rest : List Char} (hTriple : hasTriple '\'' text = false)
    (hControl : ∀ c ∈ text, isControl c = false) (hRest : rest.head? ≠ some '\'') :
    tripleLiteralBody 0 (text ++ '\'' :: '\'' :: '\'' :: rest) = some (text, rest) := by
  induction text with
  | nil =>
    have hClosing : closing? '\'' ('\'' :: '\'' :: '\'' :: rest) = some ([], rest) :=
      closing?_marks (Nat.zero_le 2) hRest
    rw [List.nil_append, tripleLiteralBody, hClosing]
  | cons c text ih =>
    rcases closing?_of_shortRun (shortRun_of_not_hasTriple hTriple) hRest with hOpen | ⟨-, hClosed⟩
    · rw [List.cons_append] at hOpen ⊢
      rw [tripleLiteralBody_plain hOpen (hControl c (by simp)), ih (hasTriple_tail hTriple)
        fun d hd => hControl d (by simp [hd])]
      rfl
    · rw [List.cons_append] at hClosed ⊢
      rw [tripleLiteralBody, hClosed]

theorem tripleBasicBody_skip (e rest : List Char) :
    tripleBasicBody e.length (e ++ rest) = tripleBasicBody 0 rest := by
  induction e with
  | nil => rfl
  | cons c e ih => rw [List.cons_append, List.length_cons, tripleBasicBody, ih]

theorem tripleBasicBody_escape {e : List Char} {c : Char}
    (hEscape : ∀ rest, escape? (e ++ rest) = some (c, e.length)) (rest : List Char) :
    tripleBasicBody 0 ('\\' :: (e ++ rest)) =
      (tripleBasicBody 0 rest).map fun (s, after) => (c :: s, after) := by
  have hOpen : closing? '"' ('\\' :: (e ++ rest)) = none :=
    closing?_other (Nat.zero_le 2) (by decide) _
  rw [tripleBasicBody, hOpen]
  simp only [if_true, hEscape, tripleBasicBody_skip]
  rfl

theorem tripleBasicBody_plain {c : Char} {rest : List Char}
    (hOpen : closing? '"' (c :: rest) = none) (hSlash : c ≠ '\\') (hControl : isControl c = false) :
    tripleBasicBody 0 (c :: rest) =
      (tripleBasicBody 0 rest).map fun (s, after) => (c :: s, after) := by
  rw [tripleBasicBody, hOpen]
  have hReturn : c ≠ '\r' := by
    rintro rfl
    cases hControl
  by_cases hFeed : c = '\n'
  · simp only [hFeed, if_true]
    rfl
  · simp only [hSlash, hFeed, hReturn, isPrintable_of_not_isControl hControl hFeed, if_false,
      if_true]
    rfl

/-- Between tripled quotes no more than two quotes stand raw in a row, counting those before. -/
theorem shortRun_tripleBody {run : Nat} (hRun : run ≤ 2) (text : List Char) :
    ShortRun '"' (2 - run) (tripleBody run text) := by
  induction text generalizing run with
  | nil => exact .nil
  | cons c text ih =>
    rw [tripleBody]
    by_cases hQuote : c = '"'
    · rw [if_pos hQuote]
      by_cases hFull : run = 2
      · rw [if_pos hFull]
        exact .other (by decide)
      · rw [if_neg hFull]
        obtain ⟨left, hLeft⟩ : ∃ left, 2 - run = left + 1 := ⟨1 - run, by omega⟩
        rw [hLeft]
        exact .cons fun _ => (show left = 2 - (run + 1) by omega) ▸ ih (by omega)
    · rw [if_neg hQuote]
      by_cases hFeed : c = '\n'
      · rw [if_pos hFeed]
        exact .other (by decide)
      · rw [if_neg hFeed]
        rcases escape_cases c with ⟨hRaw, -, -⟩ | ⟨e, hEscaped, -⟩
        · rw [hRaw]
          exact .other hQuote
        · rw [hEscaped]
          exact .other (by decide)

/-- What is written as quotes alone is quotes alone. -/
theorem tripleBody_eq_self {run : Nat} {text : List Char}
    (hQuotes : ∀ b ∈ tripleBody run text, b = '"') : tripleBody run text = text := by
  induction text generalizing run with
  | nil => rfl
  | cons c text ih =>
    rw [tripleBody] at hQuotes ⊢
    by_cases hQuote : c = '"'
    · simp only [hQuote, if_true] at hQuotes ⊢
      by_cases hFull : run = 2
      · rw [if_pos hFull] at hQuotes
        exact absurd (hQuotes '\\' (by simp)) (by decide)
      · rw [if_neg hFull] at hQuotes ⊢
        rw [ih fun b hb => hQuotes b (by simp [hb])]
    · simp only [hQuote, if_false] at hQuotes
      by_cases hFeed : c = '\n'
      · rw [if_pos hFeed] at hQuotes
        exact absurd (hQuotes '\n' (by simp)) (by decide)
      · rw [if_neg hFeed] at hQuotes
        rcases escape_cases c with ⟨hRaw, -, -⟩ | ⟨e, hEscaped, -⟩
        · exact absurd (hQuotes c (by simp [hRaw])) hQuote
        · exact absurd (hQuotes '\\' (by simp [hEscaped])) (by decide)

/-- **A text between tripled quotes is read back.** -/
theorem tripleBasicBody_tripleBody {run : Nat} (hRun : run ≤ 2) (text : List Char)
    {rest : List Char} (hRest : rest.head? ≠ some '"') :
    tripleBasicBody 0 (tripleBody run text ++ '"' :: '"' :: '"' :: rest) = some (text, rest) := by
  induction text generalizing run with
  | nil =>
    have hClosing : closing? '"' ('"' :: '"' :: '"' :: rest) = some ([], rest) :=
      closing?_marks (Nat.zero_le 2) hRest
    rw [tripleBody, List.nil_append, tripleBasicBody, hClosing]
  | cons c text ih =>
    have hShort := (shortRun_tripleBody hRun (c :: text)).mono (Nat.sub_le 2 run)
    rcases closing?_of_shortRun hShort hRest with hOpen | ⟨⟨k, hAll⟩, hClosed⟩
    · rw [tripleBody] at hOpen ⊢
      by_cases hQuote : c = '"'
      · simp only [hQuote, if_true] at hOpen ⊢
        by_cases hFull : run = 2
        · have hStep := tripleBasicBody_escape (e := ['"']) (c := '"') (fun _ => rfl)
            (tripleBody 0 text ++ '"' :: '"' :: '"' :: rest)
          rw [ih (Nat.zero_le 2)] at hStep
          rw [if_pos hFull]
          exact hStep
        · rw [if_neg hFull, List.cons_append] at hOpen ⊢
          rw [tripleBasicBody_plain hOpen (by decide) (by decide), ih (by omega)]
          rfl
      · simp only [hQuote, if_false] at hOpen ⊢
        by_cases hFeed : c = '\n'
        · rw [if_pos hFeed, List.cons_append] at hOpen ⊢
          rw [tripleBasicBody_plain hOpen (by decide) (by decide), ih (Nat.zero_le 2), hFeed]
          rfl
        · rw [if_neg hFeed] at hOpen ⊢
          rcases escape_cases c with ⟨hRaw, hSlash, hControl⟩ | ⟨e, hEscaped, hEscape⟩
          · rw [hRaw, List.append_assoc, List.singleton_append] at hOpen ⊢
            rw [tripleBasicBody_plain hOpen hSlash hControl, ih (Nat.zero_le 2)]
            rfl
          · rw [hEscaped, List.append_assoc, List.cons_append, tripleBasicBody_escape hEscape,
              ih (Nat.zero_le 2)]
            rfl
    · -- The run of the text joins the closing marks, and the reader takes both at once.
      have hSelf : tripleBody run (c :: text) = c :: text :=
        tripleBody_eq_self fun b hb => List.eq_of_mem_replicate (hAll ▸ hb)
      rw [hSelf, List.cons_append] at hClosed ⊢
      rw [tripleBasicBody, hClosed]

/-! ## All forms -/

/-- No mark of a string follows. -/
def EndsString (rest : List Char) : Prop :=
  rest.head? ≠ some '"' ∧ rest.head? ≠ some '\''

theorem string?_basic (text : List Char) {rest : List Char} (hRest : rest.head? ≠ some '"') :
    string? ('"' :: (singleBody text ++ ['"']) ++ rest) = some (text, rest) := by
  have hBody := basicBody_singleBody text rest
  rw [List.cons_append, List.append_assoc, List.singleton_append, string?]
  · exact hBody
  · intro more hMore
    rw [(List.cons.inj hMore).2] at hBody
    cases hBody
    exact hRest rfl
  · simp

theorem string?_literal {text : List Char} (hSome : text ≠ []) (hMark : '\'' ∉ text)
    (hPrintable : ∀ c ∈ text, isPrintable c = true) (rest : List Char) :
    string? ('\'' :: (text ++ ['\'']) ++ rest) = some (text, rest) := by
  have hBody := literalBody_append hMark hPrintable rest
  rw [List.cons_append, List.append_assoc, List.singleton_append, string?]
  · exact hBody
  · simp
  · intro more hMore
    rw [(List.cons.inj hMore).2] at hBody
    cases hBody
    exact hSome rfl

/-- The line end that the writer puts behind opening marks is dropped, and no other. -/
theorem dropNewline_lead {multiline : Bool} {text : List Char}
    (hLead : multiline = false → ∀ c, text.head? = some c → c ≠ '\n' ∧ c ≠ '\r') :
    dropNewline ((if multiline then ['\n'] else []) ++ text) = text := by
  cases multiline with
  | true => rfl
  | false =>
    cases text with
    | nil => rfl
    | cons c text =>
      obtain ⟨hFeed, hReturn⟩ := hLead rfl c rfl
      have hNone : newline? (c :: text) = none := by
        unfold newline?
        split <;> simp_all
      simp [dropNewline, hNone]

theorem head_tripleBody {text : List Char} (hFeed : '\n' ∉ text) (rest : List Char) {c : Char}
    (hHead : (tripleBody 0 text ++ '"' :: rest).head? = some c) : c ≠ '\n' ∧ c ≠ '\r' := by
  cases text with
  | nil =>
    cases hHead
    decide
  | cons d text =>
    simp only [List.mem_cons, not_or] at hFeed
    rw [tripleBody, if_neg (by decide : ¬(0 = 2)), if_neg (Ne.symm hFeed.1)] at hHead
    by_cases hQuote : d = '"'
    · rw [if_pos hQuote] at hHead
      cases hHead
      decide
    · rw [if_neg hQuote] at hHead
      rcases escape_cases d with ⟨hRaw, -, hControl⟩ | ⟨e, hEscaped, -⟩
      · rw [hRaw] at hHead
        cases hHead
        refine ⟨Ne.symm hFeed.1, ?_⟩
        rintro rfl
        cases hControl
      · rw [hEscaped] at hHead
        cases hHead
        decide

theorem string?_tripledQuotes (text : List Char) {rest : List Char}
    (hRest : rest.head? ≠ some '"') :
    string? (tripled '"' (text.contains '\n') (tripleBody 0 text) ++ rest) = some (text, rest) := by
  have hText : tripled '"' (text.contains '\n') (tripleBody 0 text) ++ rest =
      '"' :: '"' :: '"' :: ((if text.contains '\n' then ['\n'] else []) ++
        (tripleBody 0 text ++ '"' :: '"' :: '"' :: rest)) := by
    simp [tripled]
  have hLead : dropNewline ((if text.contains '\n' then ['\n'] else []) ++
      (tripleBody 0 text ++ '"' :: '"' :: '"' :: rest)) =
      tripleBody 0 text ++ '"' :: '"' :: '"' :: rest :=
    dropNewline_lead fun hFeed c hHead => head_tripleBody (by simpa using hFeed) _ hHead
  rw [hText, string?, hLead, tripleBasicBody_tripleBody (Nat.zero_le 2) text hRest]

theorem string?_tripledApostrophes {text rest : List Char} (hSome : text ≠ [])
    (hTriple : hasTriple '\'' text = false) (hControl : ∀ c ∈ text, isControl c = false)
    (hRest : rest.head? ≠ some '\'') :
    string? (tripled '\'' (text.contains '\n') text ++ rest) = some (text, rest) := by
  have hText : tripled '\'' (text.contains '\n') text ++ rest =
      '\'' :: '\'' :: '\'' :: ((if text.contains '\n' then ['\n'] else []) ++
        (text ++ '\'' :: '\'' :: '\'' :: rest)) := by
    simp [tripled]
  have hLead : dropNewline ((if text.contains '\n' then ['\n'] else []) ++
      (text ++ '\'' :: '\'' :: '\'' :: rest)) = text ++ '\'' :: '\'' :: '\'' :: rest := by
    refine dropNewline_lead fun hFeed c hHead => ?_
    obtain ⟨d, more, rfl⟩ := List.exists_cons_of_ne_nil hSome
    cases hHead
    refine ⟨?_, ?_⟩
    · rintro rfl
      simp at hFeed
    · rintro rfl
      exact absurd (hControl '\r' (by simp)) (by decide)
  rw [hText, string?, hLead, tripleLiteralBody_append hTriple hControl hRest]

/-- **A text is read back in whatever form it is written.** -/
theorem string?_textChars (text : List Char) {rest : List Char} (hRest : EndsString rest) :
    string? (textChars text ++ rest) = some (text, rest) := by
  simp only [textChars]
  split
  · exact string?_basic text hRest.1
  rename_i hQuoted
  have hSome : text ≠ [] := by
    rintro rfl
    exact hQuoted rfl
  split
  · rename_i hLiteral
    simp only [Bool.not_eq_true', Bool.or_eq_false_iff, List.any_eq_false, List.contains_eq_mem,
      decide_eq_false_iff_not] at hLiteral
    obtain ⟨⟨hControl, hMark⟩, hFeed⟩ := hLiteral
    refine string?_literal hSome hMark (fun c hc => ?_) rest
    refine isPrintable_of_not_isControl (Bool.eq_false_iff.2 (hControl c hc)) ?_
    rintro rfl
    exact hFeed hc
  split
  · exact string?_tripledQuotes text hRest.1
  split
  · rename_i hLiteral
    simp only [Bool.not_eq_true', Bool.or_eq_false_iff, List.any_eq_false] at hLiteral
    exact string?_tripledApostrophes hSome hLiteral.2
      (fun c hc => Bool.eq_false_iff.2 (hLiteral.1 c hc)) hRest.2
  split
  · rename_i hFeed
    exact hFeed ▸ string?_tripledQuotes text hRest.1
  · exact string?_basic text hRest.1

end Homonym.Toml
