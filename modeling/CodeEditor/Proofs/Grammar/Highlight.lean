import CodeEditor.Grammar.Highlight
import CodeEditor.Pattern.Match
import CodeEditor.Proofs.Document.Edits
import CodeEditor.Proofs.Failure
import CodeEditor.Proofs.Grammar.Token
import CodeEditor.Proofs.Line.Contents
import CodeEditor.Proofs.Style.Layers

/-!
Styling a document against the tokens of its text.

A document is styled line by line, with the lines that its index has followed through all edits; the
tokens of a text come from cutting the text anew. `highlight_agrees` says that the two agree for
every document that edits lead to: either both stop with the same error, or each line is styled by
the tokens of the line with its content, where `Styled` says which attributes every offset has.
-/

namespace CodeEditor

/-- The attributes of a theme have no negative zeros. -/
def Theme.Unsigned (theme : Theme) : Prop :=
  ∀ name, (theme.attributes name).unsigned = theme.attributes name

namespace Grammar

/-- The attributes that tokens lay over those of an offset: the attributes of all tokens there, one
over the other. -/
def layered (theme : Theme) (tokens : List Token) (offset : Nat) (below : TextAttributes) :
    TextAttributes :=
  ((tokens.filter fun token => token.range.contains offset = some true).map fun token =>
    theme.attributes token.scope).foldl TextAttributes.overlay below

/-- A line with some content is styled by its tokens. Zeros keep their signs only in themes without
negative ones, since joined runs have the attributes of the first. -/
structure Styled (theme : Theme) (content : String) (tokens : List Token) (s : StyledText) :
    Prop where
  text : s.text = content
  inside : ∀ offset < Utf16.length content.toList, ∃ attributes,
    s.attributesAt offset = some attributes ∧
      attributes.unsigned = (layered theme tokens offset {}).unsigned ∧
      (theme.Unsigned → attributes = layered theme tokens offset {})
  outside : ∀ offset, Utf16.length content.toList ≤ offset → s.attributesAt offset = none

/-- The lines of a document are styled by tokens, which are given line by line. -/
structure Agrees {μ : Type} (theme : Theme) (d : Document μ) (tokens : List (List Token))
    (styled : List StyledText) : Prop where
  tokens_length : tokens.length = d.index.lineCount
  styled_length : styled.length = d.index.lineCount
  /-- The line of a row, whose content is that of the row in the text, is styled by its tokens. -/
  row : ∀ row < d.index.lineCount, ∃ line content tokensHere s, d.index.lines[row]? = some line ∧
    d.buffer.substring line.contentRange = .ok content ∧
    (lineTexts d.text.toList)[row]? = some content.toList ∧ tokens[row]? = some tokensHere ∧
    styled[row]? = some s ∧ Styled theme content tokensHere s

variable {theme : Theme} {tokens : List Token} {token : Token}

/-! ### One line -/

/-- What a token lays over a line. -/
def Token.layer (theme : Theme) (t : Token) : TextRange × TextAttributes :=
  (t.range, theme.attributes t.scope)

theorem layered_eq (words : ∀ token ∈ tokens, token.range.location + token.range.length < wordLimit)
    (theme : Theme) (offset : Nat) (below : TextAttributes) : layered theme tokens offset below =
      (StyledText.layersAt (tokens.map (Token.layer theme)) offset).foldl TextAttributes.overlay
        below := by
  rw [layered, StyledText.layersAt, List.filter_map, List.map_map]
  congr 2
  refine List.filter_congr fun token mem => ?_
  exact decide_eq_decide.mpr (TextRange.contains_iff (words token mem))

/-- One token is laid over a line. -/
theorem styleToken_ok {s : StyledText} (covered : s.Covered) (theme : Theme)
    (word : token.range.location + token.range.length < wordLimit) :
    ∃ s', (if (theme.attributes token.scope).isEmpty then some s
        else s.setAttributes token.range (theme.attributes token.scope)) = some s' ∧
      StyledText.Overlaid token.range (theme.attributes token.scope) s s' := by
  split
  · next empty => exact ⟨s, rfl, StyledText.overlaid_of_isEmpty covered empty token.range⟩
  · exact StyledText.setAttributes_ok covered word _

/-- All tokens of a line are laid over it. -/
theorem styleTokens_ok {s : StyledText} (covered : s.Covered)
    (words : ∀ token ∈ tokens, token.range.location + token.range.length < wordLimit) :
    ∃ s', tokens.foldlM (fun styled token =>
        let attributes := theme.attributes token.scope
        if attributes.isEmpty then some styled else styled.setAttributes token.range attributes) s =
          some s' ∧
      StyledText.Layered (tokens.map (Token.layer theme)) s s' := by
  induction tokens generalizing s with
  | nil => exact ⟨s, rfl, .nil s⟩
  | cons token tokens ih =>
      obtain ⟨word, words⟩ := List.forall_mem_cons.mp words
      obtain ⟨s₁, step, overlaid⟩ := styleToken_ok covered theme word
      obtain ⟨s', run, layered⟩ := ih overlaid.covered words
      refine ⟨s', ?_, .cons overlaid layered⟩
      rw [List.foldlM_cons]
      dsimp only
      rw [step]
      exact run

/-- A line is styled by tokens that lie in it. -/
theorem styleLine_ok {content : String} (short : Utf16.length content.toList < wordLimit)
    (within : ∀ token ∈ tokens,
      token.range.location + token.range.length ≤ Utf16.length content.toList) :
    ∃ s, styleLine theme content tokens = some s ∧ Styled theme content tokens s := by
  have words : ∀ token ∈ tokens, token.range.location + token.range.length < wordLimit :=
    fun token mem => Nat.lt_of_le_of_lt (within token mem) short
  obtain ⟨s, run, layered⟩ := @styleTokens_ok theme _ _ (StyledText.covered_plain content) words
  refine ⟨s, run, layered.text, fun offset inside => ?_, fun offset => layered.attributesAt_eq_none⟩
  obtain ⟨a, found, same, same'⟩ := layered.exists_attributesAt inside
  rw [layered_eq words]
  refine ⟨a, found, same, fun unsigned => same' ?_⟩
  exact List.forall_mem_map.mpr fun token _ => unsigned token.scope

/-! ### All lines -/

variable {g : Compiled}

theorem tokenizeLines_cons (g : Compiled) (line : String) (rest : List String) (stack : RuleStack) :
    g.tokenizeLines (line :: rest) stack =
      match g.tokenizeLine line stack with
      | .error e stack => .error e stack
      | .ok tokens stack =>
          match g.tokenizeLines rest stack with
          | .error e stack => .error e stack
          | .ok others stack => .ok (tokens :: others) stack := by
  rw [Compiled.tokenizeLines, List.mapM_cons]
  cases here : g.tokenizeLine line stack with
  | error e stack => exact bind_error here
  | ok tokens stack =>
      refine (bind_ok here).trans ?_
      dsimp only
      cases below : g.tokenizeLines rest stack with
      | error e stack => exact bind_error below
      | ok others stack => exact bind_ok below

theorem styleLines_cons {text : TextBuffer} {line : Line} {content : String}
    (read : text.substring line.contentRange = .ok content) (g : Compiled) (theme : Theme)
    (rest : List Line) (stack : RuleStack) :
    styleLines g theme text (line :: rest) stack =
      match g.tokenizeLine content stack with
      | .error e _ => .error (.grammar e)
      | .ok tokens stack =>
          match styleLine theme content tokens with
          | none => .error (.document .overflow)
          | some s =>
              match styleLines g theme text rest stack with
              | .error e => .error e
              | .ok styled => .ok (s :: styled) := by
  rw [styleLines, read]
  dsimp only [Except.mapError, bind, Except.bind]
  cases g.tokenizeLine content stack with
  | error e stack => rfl
  | ok tokens stack =>
      dsimp only
      cases styleLine theme content tokens with
      | none => rfl
      | some s =>
          dsimp only
          cases styleLines g theme text rest stack with
          | error e => rfl
          | ok styled => rfl

/-- Some lines are styled by tokens, which are given line by line. -/
def AllStyled (theme : Theme) (contents : List String) (tokens : List (List Token))
    (styled : List StyledText) : Prop :=
  List.Forall₂ (fun line s => Styled theme line.1 line.2 s) (contents.zip tokens) styled

/-- What can be read as text can be addressed. -/
theorem length_lt_of_substring {text : TextBuffer} {r : TextRange} {content : String}
    (read : text.substring r = .ok content) : Utf16.length content.toList < wordLimit := by
  obtain ⟨before, inside, after, split, rfl⟩ := TextBuffer.substring_eq_ok_iff.mp read
  obtain ⟨-, -, length, word⟩ := TextBuffer.split_eq_ok_iff.mp split
  rw [String.toList_ofList, length]
  omega

/-- Where the lines are those of some contents, styling them stops as tokenizing the contents does,
and otherwise they are styled by the tokens. -/
theorem styleLines_agrees {text : TextBuffer} {lines : List Line} {texts : List (List Char)}
    (contents : List.Forall₂ (fun line content =>
      text.substring line.contentRange = .ok (String.ofList content)) lines texts)
    (g : Compiled) (theme : Theme) (stack : RuleStack) :
    match g.tokenizeLines (texts.map String.ofList) stack with
    | .error e _ => styleLines g theme text lines stack = .error (.grammar e)
    | .ok tokens _ => tokens.length = texts.length ∧
        ∃ styled, styleLines g theme text lines stack = .ok styled ∧
          AllStyled theme (texts.map String.ofList) tokens styled := by
  induction contents generalizing stack with
  | nil => exact ⟨rfl, [], rfl, .nil⟩
  | @cons line content lines texts here _ ih =>
      rw [List.map_cons, tokenizeLines_cons, styleLines_cons here]
      cases first : g.tokenizeLine (String.ofList content) stack with
      | error e stack' => rfl
      | ok tokens stack' =>
          have below := ih stack'
          obtain ⟨s, done, styledHere⟩ := @styleLine_ok theme tokens _ (length_lt_of_substring here)
            fun token mem => Compiled.token_le_of_tokenizeLine first mem
          dsimp only
          rw [done]
          cases others : g.tokenizeLines (texts.map String.ofList) stack' with
          | error e stack'' =>
              rw [others] at below
              dsimp only at below ⊢
              rw [below]
          | ok more stack'' =>
              rw [others] at below
              obtain ⟨count, styled, run, all⟩ := below
              dsimp only
              rw [run]
              exact ⟨congrArg (· + 1) count, s :: styled, rfl, .cons styledHere all⟩

/-- Lines that are styled in their order make a styled document. -/
theorem agrees_of_allStyled {μ : Type} {d : Document μ} {tokens : List (List Token)}
    {styled : List StyledText} (fits : d.index.Fits d.buffer.units)
    (contents : List.Forall₂ (fun line content =>
      d.buffer.substring line.contentRange = .ok (String.ofList content)) d.index.lines
        (lineTexts d.text.toList))
    (length : tokens.length = (lineTexts d.text.toList).length)
    (all : AllStyled theme ((lineTexts d.text.toList).map String.ofList) tokens styled) :
    Agrees theme d tokens styled := by
  obtain ⟨linesLength, contents⟩ := List.forall₂_iff_get.mp contents
  obtain ⟨styledLength, all⟩ := List.forall₂_iff_get.mp all
  rw [List.length_zip, List.length_map, length, Nat.min_self] at styledLength
  rw [fits.length_lines] at linesLength
  constructor
  case tokens_length => exact length.trans linesLength.symm
  case styled_length => exact styledLength.symm.trans linesLength.symm
  case row =>
    intro row inside
    have inLines : row < d.index.lines.length := by rwa [fits.length_lines]
    have inTexts : row < (lineTexts d.text.toList).length := by omega
    have inTokens : row < tokens.length := by omega
    have inStyled : row < styled.length := by omega
    have here := all row (by rw [List.length_zip, List.length_map]; omega) inStyled
    rw [List.get_eq_getElem, List.getElem_zip, List.getElem_map] at here
    refine ⟨d.index.lines[row], _, tokens[row], styled[row], List.getElem?_eq_getElem inLines,
      contents row inLines inTexts, ?_, List.getElem?_eq_getElem inTokens,
      List.getElem?_eq_getElem inStyled, here⟩
    rw [String.toList_ofList]
    exact List.getElem?_eq_getElem inTexts

/-- Documents are styled by the tokens of their text, and both fail together. -/
theorem highlight_agrees {μ : Type} [LanguageMode μ] {d : Document μ} (reachable : d.Reachable)
    (g : Compiled) (theme : Theme) :
    (∀ e, g.tokenize d.text = .error e → highlight g theme d = .error (.grammar e)) ∧
      ∀ tokens, g.tokenize d.text = .ok tokens →
        ∃ styled, highlight g theme d = .ok styled ∧ Agrees theme d tokens styled := by
  obtain ⟨texts, on⟩ := reachable.exists_timeline
  have contents := on.fits.contents (on.short _ (List.mem_of_getElem? on.here))
  have whole : d.text.toList = d.buffer.chars := String.toList_ofList
  rw [← whole] at contents
  have agrees := styleLines_agrees contents g theme {}
  rw [Compiled.tokenize]
  cases run : g.tokenizeLines ((lineTexts d.text.toList).map String.ofList) {} with
  | error e stack =>
      rw [run] at agrees
      constructor
      · intro e' same
        cases same
        exact agrees
      · intro tokens same
        cases same
  | ok tokens stack =>
      rw [run] at agrees
      obtain ⟨length, styled, done, all⟩ := agrees
      constructor
      · intro e same
        cases same
      · intro tokens' same
        cases same
        exact ⟨styled, done, agrees_of_allStyled on.fits contents length all⟩

/-- A grammar of single digits. -/
def digits : Compiled where
  name := "digits"
  scopeName := "source.digits"
  rules := #[.phrase ⟨"number", (Pattern.char ⟨[.range '0' '9'], false, false⟩).search, .empty⟩]
  root := [0]

/-- A theme of bold numbers. -/
def boldNumbers : Theme :=
  (StyleSheet.withStyle {} "number" { traits := { bold := true } }).theme

/-- A digit that is typed on a line of its own. -/
theorem highlight_agrees_of_typed_digit :
    ∃ (replacement : Replacement) (d : Document PlainText) (styled : List StyledText),
      Document.replaceText ⟨1, 0⟩ "\n1" (Document.ofText "a" {} PlainText.mk) = .ok replacement d ∧
        highlight digits boldNumbers d = .ok styled ∧
        Agrees boldNumbers d [[], [⟨"number", ⟨0, 1⟩, "1"⟩]] styled := by
  have opened : Document.Saved (.ofString "a") (.ofText "a" {} PlainText.mk) :=
    .opened _ _ _ (by decide)
  obtain ⟨texts, on, -⟩ := opened.exists_timeline
  obtain ⟨replacement, d, b, typed, replaced, buffer, -⟩ :=
    @Document.OnTimeline.replaceText _ _ _ _ ⟨1, 0⟩ "" on "\n1" rfl
  obtain rfl : b = ⟨['a', '\n', '1']⟩ := Except.ok.inj (replaced.symm.trans rfl)
  have edit := Document.Edit.replaceText (.ofText "a" {} PlainText.mk) ⟨1, 0⟩ "\n1"
  rw [typed, Document.after, buffer] at edit
  have text : d.text = "a\n1" := by
    rw [Document.text, buffer]
    rfl
  have reachable : d.Reachable := ⟨_, opened.edit (edit (by decide))⟩
  obtain ⟨styled, done, agrees⟩ := (highlight_agrees reachable digits boldNumbers).2
    [[], [⟨"number", ⟨0, 1⟩, "1"⟩]] (by rw [text]; cbv)
  exact ⟨replacement, d, styled, typed, done, agrees⟩

end Grammar

end CodeEditor
