/-
  BytecodeFlow.Proofs.Dot.Quoted — QUOTED TEXT, read back.

  A reader of quoted text goes from left to right, and a backslash takes the character behind it
  along, whatever that is.  So the reader takes off tokens: a character that stands for itself, or
  a backslash with one character.  `Dot.tokens?` is this reader, and a quoted string ends at the
  first quote that is a token of its own (`Dot.untilQuote?`).

  A text can be told by its tokens (`Dot.tokens?_chars`), and each character of a title is written
  as at most one token (`Dot.escapeChar_eq`):

  | character          | token               |
  |--------------------|---------------------|
  | `\`, `"`, `<`, `>` | escaped, as itself  |
  | line feed          | escaped, as `n`     |
  | carriage return    | none                |
  | any other          | plain               |

  Hence runs of backslashes, or a backslash in front of an `n`, need no argument of their own: the
  token boundaries of an escaped title are those between its characters.

  Main statement: `Dot.escape_reads_back`.
-/
import BytecodeFlow.Graph.Dot

namespace BytecodeFlow.Dot

/-! ## §1. Readers of quoted text -/

/-- What a reader of quoted text takes off at once. -/
inductive Token where
  /-- A character that stands for itself. -/
  | plain (c : Char)
  /-- A backslash and the character behind it. -/
  | escaped (c : Char)
deriving DecidableEq

/-- The characters that stand for themselves behind a backslash. -/
def marks : List Char := ['\\', '"', '<', '>']

namespace Token

/-- A token as it is written. -/
def chars : Token → List Char
  | plain c => [c]
  | escaped c => ['\\', c]

/-- What a token stands for, if its backslash has a meaning. -/
def meaning? : Token → Option Char
  | plain c => some c
  | escaped c => if c = 'n' then some '\n' else if c ∈ marks then some c else none

end Token

/-- The tokens of a text; none if it ends in a backslash that has nothing to take along. -/
def tokens? : List Char → Option (List Token)
  | [] => some []
  | ['\\'] => none
  | '\\' :: c :: rest => (tokens? rest).map (.escaped c :: ·)
  | c :: rest => (tokens? rest).map (.plain c :: ·)

/-- The text in front of the first quote that no backslash takes along, and the text behind it. -/
def untilQuote? : List Char → Option (List Char × List Char)
  | [] => none
  | ['\\'] => none
  | '\\' :: c :: rest => (untilQuote? rest).map fun (text, behind) => ('\\' :: c :: text, behind)
  | '"' :: rest => some ([], rest)
  | c :: rest => (untilQuote? rest).map fun (text, behind) => (c :: text, behind)

/-- Any character but a backslash is a token by itself. -/
theorem tokens?_cons {c : Char} (hc : c ≠ '\\') (rest : List Char) :
    tokens? (c :: rest) = (tokens? rest).map (.plain c :: ·) := by
  rw [tokens?]
  · exact fun heq _ => hc heq
  · exact fun _ _ heq _ => hc heq

/-- Any character but a backslash and a quote goes on with the string. -/
theorem untilQuote?_cons {c : Char} (hc : c ≠ '\\') (hquote : c ≠ '"') (rest : List Char) :
    untilQuote? (c :: rest) = (untilQuote? rest).map fun (text, behind) => (c :: text, behind) := by
  rw [untilQuote?]
  · exact fun heq _ => hc heq
  · exact fun _ _ heq _ => hc heq
  · exact hquote

section Readers

variable {ts : List Token}

/-- **A text is read as the tokens that it is written from**, if none of them is a lone
    backslash. -/
theorem tokens?_chars (h : .plain '\\' ∉ ts) : tokens? (ts.flatMap Token.chars) = some ts := by
  -- on the tokens, since the reader takes one token at a time and not one character
  induction ts with
  | nil => rfl
  | cons t ts ih =>
    rw [List.mem_cons, not_or] at h
    have htail : tokens? (ts.flatMap Token.chars) = some ts := ih h.2
    rw [List.flatMap_cons]
    cases t with
    | plain c =>
      have hc : c ≠ '\\' := fun heq => h.1 (heq ▸ rfl)
      show tokens? (c :: ts.flatMap Token.chars) = _
      rw [tokens?_cons hc, htail, Option.map_some]
    | escaped c =>
      show (tokens? (ts.flatMap Token.chars)).map _ = _
      rw [htail, Option.map_some]

/-- A quoted string without plain quotes ends exactly at the quote behind it. -/
theorem untilQuote?_chars (h : .plain '\\' ∉ ts) (hquote : .plain '"' ∉ ts) (rest : List Char) :
    untilQuote? (ts.flatMap Token.chars ++ '"' :: rest) = some (ts.flatMap Token.chars, rest) := by
  induction ts with
  | nil => rfl
  | cons t ts ih =>
    rw [List.mem_cons, not_or] at h hquote
    have htail := ih h.2 hquote.2
    rw [List.flatMap_cons, List.append_assoc]
    cases t with
    | plain c =>
      have hc : c ≠ '\\' := fun heq => h.1 (heq ▸ rfl)
      -- neither kind of token can be the end: a plain one is no quote, an escaped one is taken
      -- whole
      have hq : c ≠ '"' := fun heq => hquote.1 (heq ▸ rfl)
      show untilQuote? (c :: (ts.flatMap Token.chars ++ '"' :: rest)) = _
      rw [untilQuote?_cons hc hq, htail]
      rfl
    | escaped c =>
      show (untilQuote? (ts.flatMap Token.chars ++ '"' :: rest)).map _ = _
      rw [htail]
      rfl

end Readers

/-! ## §2. One character of a title -/

/-- The tokens that one character of a title is written as. -/
def tokensOf (c : Char) : List Token :=
  if c ∈ marks then [.escaped c]
  else if c = '\n' then [.escaped 'n']
  else if c = '\r' then []
  else [.plain c]

theorem tokensOf_cases (c : Char) :
    c ∈ marks ∧ tokensOf c = [.escaped c] ∨ c = '\n' ∧ tokensOf c = [.escaped 'n'] ∨
      c = '\r' ∧ tokensOf c = [] ∨
      c ∉ marks ∧ c ≠ '\n' ∧ c ≠ '\r' ∧ tokensOf c = [.plain c] := by
  unfold tokensOf
  grind

/-- **The writer and the tokens agree**: what is written for a character is what its tokens are
    written as.  All further lemmas speak of tokens. -/
theorem escapeChar_eq (c : Char) : escapeChar c = (tokensOf c).flatMap Token.chars := by
  unfold escapeChar
  split
  -- the last line of the table, where the character is none of the six above
  case h_7 h₁ h₂ h₃ h₄ h₅ h₆ =>
    have hmarks : c ∉ marks := by
      unfold marks
      simp only [List.mem_cons, List.not_mem_nil, or_false, not_or]
      exact ⟨h₁, h₂, h₃, h₄⟩
    unfold tokensOf
    rw [if_neg hmarks, if_neg h₅, if_neg h₆]
    rfl
  all_goals rfl

/-- No token of a character is a lone mark. -/
theorem plain_not_mem_tokensOf {c d : Char} (hd : d ∈ marks) : .plain d ∉ tokensOf c := by
  rcases tokensOf_cases c with ⟨_, heq⟩ | ⟨_, heq⟩ | ⟨_, heq⟩ | ⟨hc, _, _, heq⟩
  · simp [heq]
  · simp [heq]
  · simp [heq]
  · rw [heq, List.mem_singleton, Token.plain.injEq]
    rintro rfl
    exact hc hd

/-- What is written has no line break. -/
theorem not_mem_chars_tokensOf {c d : Char} (hd : d = '\n' ∨ d = '\r') :
    d ∉ (tokensOf c).flatMap Token.chars := by
  have hmarks : d ∉ marks := by
    rcases hd with rfl | rfl
    · decide
    · decide
  have hslash : d ≠ '\\' := fun heq => hmarks (heq ▸ by decide)
  have hn : d ≠ 'n' := by
    rcases hd with rfl | rfl
    · decide
    · decide
  rcases tokensOf_cases c with ⟨hc, heq⟩ | ⟨_, heq⟩ | ⟨_, heq⟩ | ⟨_, hc₁, hc₂, heq⟩
  · have hne : d ≠ c := fun h => hmarks (h ▸ hc)
    simp [heq, Token.chars, hslash, hne]
  · simp [heq, Token.chars, hslash, hn]
  · simp [heq]
  · have hne : d ≠ c := by
      rcases hd with rfl | rfl
      · exact hc₁.symm
      · exact hc₂.symm
    simp [heq, Token.chars, hne]

/-- A character means itself, and a carriage return is gone. -/
theorem mapM_tokensOf (c : Char) :
    (tokensOf c).mapM Token.meaning? = some ([c].filter (· ≠ '\r')) := by
  rcases tokensOf_cases c with ⟨hc, heq⟩ | ⟨rfl, heq⟩ | ⟨rfl, heq⟩ | ⟨_, _, hc, heq⟩
  · -- a mark is neither a carriage return nor the `n` that stands for a line feed
    have hn : c ≠ 'n' := fun h => absurd (h ▸ hc) (by decide)
    have hr : c ≠ '\r' := fun h => absurd (h ▸ hc) (by decide)
    simp [heq, Token.meaning?, hn, hr, hc]
  · rw [heq]
    rfl
  · rw [heq]
    rfl
  · simp [heq, Token.meaning?, hc]

/-! ## §3. Titles -/

/-- The tokens that a title is written as. -/
def titleTokens (title : String) : List Token := title.toList.flatMap tokensOf

section Titles

variable (title : String)

/-- An escaped title is written from its tokens, one after another. -/
theorem toList_escape : (escape title).toList = (titleTokens title).flatMap Token.chars := by
  unfold escape titleTokens
  rw [String.toList_ofList, List.flatMap_assoc]
  congr 1
  funext c
  exact escapeChar_eq c

/-- In a written title every mark is taken along by a backslash. -/
theorem plain_not_mem_titleTokens {d : Char} (hd : d ∈ marks) : .plain d ∉ titleTokens title := by
  unfold titleTokens
  rw [List.mem_flatMap]
  rintro ⟨c, _, hc⟩
  exact plain_not_mem_tokensOf hd hc

/-- A written title stays on its line. -/
theorem not_mem_escape {d : Char} (hd : d = '\n' ∨ d = '\r') : d ∉ (escape title).toList := by
  rw [toList_escape, titleTokens, List.flatMap_assoc, List.mem_flatMap]
  rintro ⟨c, _, hc⟩
  exact not_mem_chars_tokensOf hd hc

/-- The tokens of a title mean its characters, one after another. -/
theorem mapM_titleTokens :
    (titleTokens title).mapM Token.meaning? = some (title.toList.filter (· ≠ '\r')) := by
  unfold titleTokens
  -- on the title: meaning is read off the tokens of one character at a time
  induction title.toList with
  | nil => rfl
  | cons c rest ih =>
    have hsplit : (c :: rest).filter (· ≠ '\r') = [c].filter (· ≠ '\r') ++ rest.filter (· ≠ '\r') :=
      List.filter_append [c] rest
    rw [hsplit, List.flatMap_cons, List.mapM_append, mapM_tokensOf, ih]
    rfl

theorem toList_titleLine : (titleLine title).toList =
    "    label=\"".toList ++ ("CFG: ".toList ++ ((escape title).toList ++ "\";".toList)) := by
  have hline : titleLine title = "    label=\"" ++ ("CFG: " ++ (escape title ++ "\";")) := by
    simp only [← String.append_assoc]
    rfl
  rw [hline, String.toList_append, String.toList_append, String.toList_append]

/-- The line of a title is a quoted string behind its key, and nothing but a semicolon follows. -/
theorem exists_quoted_titleLine :
    ∃ quoted, (titleLine title).toList = "    label=\"".toList ++ quoted ∧
      untilQuote? quoted = some ("CFG: ".toList ++ (escape title).toList, [';']) := by
  refine ⟨_, toList_titleLine title, ?_⟩
  -- the words in front of the title are plain tokens like any other
  have hwords : "CFG: ".toList ++ (escape title).toList =
      ("CFG: ".toList.map Token.plain ++ titleTokens title).flatMap Token.chars := by
    rw [List.flatMap_append, toList_escape]
    rfl
  rw [← List.append_assoc, hwords]
  refine untilQuote?_chars ?_ ?_ [';']
  · rw [List.mem_append, not_or]
    exact ⟨by decide, plain_not_mem_titleTokens title (by decide)⟩
  · rw [List.mem_append, not_or]
    exact ⟨by decide, plain_not_mem_titleTokens title (by decide)⟩

/-- **An escaped title is safe between quotes, and it can be read back.**  Read from the left it
    falls into tokens, so it does not end in a lone backslash; none of them is a quote, and there
    is no line break.  So a string quoted from it ends exactly at its closing quote, in any
    surroundings and in the line of a drawing.  What the tokens mean is the title, with its
    carriage returns left out. -/
theorem escape_reads_back :
    ∃ ts, tokens? (escape title).toList = some ts ∧ .plain '"' ∉ ts ∧
      '\n' ∉ (escape title).toList ∧ '\r' ∉ (escape title).toList ∧
      (∀ rest, untilQuote? ((escape title).toList ++ '"' :: rest) =
        some ((escape title).toList, rest)) ∧
      ts.mapM Token.meaning? = some (title.toList.filter (· ≠ '\r')) ∧
      ∃ quoted, (titleLine title).toList = "    label=\"".toList ++ quoted ∧
        untilQuote? quoted = some ("CFG: ".toList ++ (escape title).toList, [';']) := by
  have hslash : .plain '\\' ∉ titleTokens title := plain_not_mem_titleTokens title (by decide)
  have hquote : .plain '"' ∉ titleTokens title := plain_not_mem_titleTokens title (by decide)
  refine ⟨titleTokens title, ?_, hquote, not_mem_escape title (.inl rfl),
    not_mem_escape title (.inr rfl), ?_, mapM_titleTokens title, exists_quoted_titleLine title⟩
  · rw [toList_escape]
    exact tokens?_chars hslash
  · rw [toList_escape]
    exact untilQuote?_chars hslash hquote

/-- A backslash in front of an `n` beside a real line break: they are written apart. -/
example : (escape "\\n\r\n\"").toList = ['\\', '\\', 'n', '\\', 'n', '\\', '"'] := by decide

end Titles

end BytecodeFlow.Dot
