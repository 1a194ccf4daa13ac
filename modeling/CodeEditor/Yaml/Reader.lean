import CodeEditor.Yaml.Value
import CodeEditor.Text.CharClass
import CodeEditor.Line.Delimiter

/-!
Reading YAML documents.

A document is read line by line. Blocks are made by indentation: a sequence has one item behind each
hyphen of its column, a mapping one entry behind each key of its column, and the value of a key is
the block that is indented deeper, or a sequence in the key's own column. Scalars stand on one line,
plain or in single or double quotes; of the collections written in brackets only empty ones are
read. What goes beyond that is refused.
-/

namespace CodeEditor.Yaml

/-- A line with something on it: the column of its first character, and its text. -/
structure DocumentLine where
  indent : Nat
  text : List Char

/-- Only a comment follows, or nothing. -/
def isDone (cs : List Char) : Bool :=
  match cs.dropWhile fun c => c = ' ' || c = '\t' with
  | [] => true
  | c :: rest => c = '#' && rest.length + 1 ≠ cs.length

/-- The character that an escape with a code of a number of digits stands for, and the rest. -/
def coded? (count : Nat) (cs : List Char) : Option (Char × List Char) := do
  if cs.length < count then failure
  let code ← digits? 16 (cs.take count)
  if h : code.isValidChar then return (Char.ofNatAux code h, cs.drop count) else failure

/-- The text in double quotes up to the closing one, and the rest. -/
def doubleQuoted? : Nat → List Char → List Char → Option (String × List Char)
  | _, '"' :: rest, done => some (String.ofList done.reverse, rest)
  | fuel + 1, '\\' :: 'x' :: rest, done => do
      let (c, rest) ← coded? 2 rest
      doubleQuoted? fuel rest (c :: done)
  | fuel + 1, '\\' :: 'u' :: rest, done => do
      let (c, rest) ← coded? 4 rest
      doubleQuoted? fuel rest (c :: done)
  | fuel + 1, '\\' :: 'U' :: rest, done => do
      let (c, rest) ← coded? 8 rest
      doubleQuoted? fuel rest (c :: done)
  | fuel + 1, '\\' :: c :: rest, done => do
      let c ← [('0', '\x00'), ('a', '\x07'), ('b', '\x08'), ('t', '\t'), ('\t', '\t'), ('n', '\n'),
        ('v', '\x0b'), ('f', '\x0c'), ('r', '\r'), ('e', '\x1b'), (' ', ' '), ('"', '"'),
        ('/', '/'), ('\\', '\\'), ('N', '\u0085'), ('_', '\u00a0'), ('L', '\u2028'),
        ('P', '\u2029')].lookup c
      doubleQuoted? fuel rest (c :: done)
  | fuel + 1, c :: rest, done => doubleQuoted? fuel rest (c :: done)
  | _, _, _ => none

/-- The text in single quotes up to the closing one, and the rest. A quote inside is written
twice. -/
def singleQuoted? : List Char → List Char → Option (String × List Char)
  | '\'' :: '\'' :: rest, done => singleQuoted? rest ('\'' :: done)
  | '\'' :: rest, done => some (String.ofList done.reverse, rest)
  | c :: rest, done => singleQuoted? rest (c :: done)
  | [], _ => none

/-- The text of a plain scalar: all up to a comment, or up to a colon that ends a key, and the
rest. -/
def plainText : List Char → List Char → List Char × List Char
  | [], done => (done.reverse, [])
  | ':' :: [], done => (done.reverse, [':'])
  | ':' :: c :: rest, done =>
      if c = ' ' ∨ c = '\t' then (done.reverse, ':' :: c :: rest)
      else plainText (c :: rest) (':' :: done)
  | c :: rest, done =>
      match c, rest with
      | ' ', '#' :: _ | '\t', '#' :: _ => (done.reverse, c :: rest)
      | _, _ => plainText rest (c :: done)

/-- A text without the blanks at its end. -/
def trimRight (cs : List Char) : List Char :=
  (cs.reverse.dropWhile fun c => c = ' ' || c = '\t').reverse

/-- No plain scalar starts with one of these. -/
def indicators : List Char := "[]\x7b\x7d,&*!|>%@\x60#\"'".toList

/-- A scalar, and what follows it on its line. -/
def scalar? : List Char → Option (Value × List Char)
  | '"' :: rest => (doubleQuoted? rest.length rest []).map fun (t, rest) => (.string t, rest)
  | '\'' :: rest => (singleQuoted? rest []).map fun (t, rest) => (.string t, rest)
  | '[' :: ']' :: rest => some (.sequence [], rest)
  | '\x7b' :: '\x7d' :: rest => some (.mapping [], rest)
  | cs =>
      let starts := match cs with
        | [] => true
        | '-' :: rest | '?' :: rest | ':' :: rest => !(rest.isEmpty || rest.head? = some ' ')
        | c :: _ => c ∉ indicators
      if starts then
        let (t, rest) := plainText cs []
        some (.plain (String.ofList (trimRight t)), rest)
      else none

/-- The key that a line starts with and the text behind the colon, if the line has one. -/
def key? (cs : List Char) : Option (Value × List Char) :=
  match scalar? cs with
  | some (key, rest) =>
      match rest.dropWhile (· = ' ') with
      | ':' :: [] => some (key, [])
      | ':' :: c :: rest => if c = ' ' ∨ c = '\t' then some (key, rest) else none
      | _ => none
  | none => none

/-- A scalar that ends its line. -/
def lastScalar? (cs : List Char) : Option Value :=
  match scalar? cs with
  | some (value, rest) => if isDone rest then some value else none
  | none => none

/-- The text behind the hyphen of a sequence item, with the column it starts in relative to the
hyphen. -/
def item? : List Char → Option (Nat × List Char)
  | '-' :: [] => some (1, [])
  | '-' :: ' ' :: rest =>
      let text := rest.dropWhile (· = ' ')
      some (rest.length + 2 - text.length, text)
  | _ => none

/-- Nothing is said on the rest of a line. -/
def isBlank (cs : List Char) : Bool :=
  match cs.dropWhile fun c => c = ' ' || c = '\t' with
  | [] => true
  | c :: _ => c = '#'

mutual

/-- The block that starts on the first of some lines, and the lines behind it. -/
def block? : Nat → List DocumentLine → Option (Value × List DocumentLine)
  | 0, _ | _, [] => none
  | fuel + 1, line :: rest =>
      if (item? line.text).isSome then
        (items? fuel line.indent (line :: rest) []).map fun (vs, rest) => (.sequence vs, rest)
      else if (key? line.text).isSome then
        (entries? fuel line.indent (line :: rest) []).map fun (es, rest) => (.mapping es, rest)
      else (lastScalar? line.text).map fun v => (v, rest)

/-- The items of a sequence in a column. -/
def items? : Nat → Nat → List DocumentLine → List Value →
    Option (List Value × List DocumentLine)
  | _, _, [], done => some (done.reverse, [])
  | 0, _, _, _ => none
  | fuel + 1, column, line :: rest, done =>
      match if line.indent = column then item? line.text else none with
      | none => if line.indent ≤ column then some (done.reverse, line :: rest) else none
      | some (offset, text) => do
          let (value, rest) ←
            if isBlank text then nested? fuel (column + 1) rest
            else block? fuel (⟨column + offset, text⟩ :: rest)
          items? fuel column rest (value :: done)

/-- The entries of a mapping in a column. -/
def entries? : Nat → Nat → List DocumentLine → List (Value × Value) →
    Option (List (Value × Value) × List DocumentLine)
  | _, _, [], done => some (done.reverse, [])
  | 0, _, _, _ => none
  | fuel + 1, column, line :: rest, done =>
      if line.indent < column ∨ (item? line.text).isSome then
        if line.indent ≤ column then some (done.reverse, line :: rest) else none
      else if line.indent ≠ column then none
      else do
        let (key, text) ← key? line.text
        let (value, rest) ←
          if isBlank text then
            let sameColumn := match rest with
              | next :: _ => next.indent = column && (item? next.text).isSome
              | [] => false
            nested? fuel (if sameColumn then column else column + 1) rest
          else (lastScalar? (text.dropWhile fun c => c = ' ' || c = '\t')).map fun v => (v, rest)
        entries? fuel column rest ((key, value) :: done)

/-- The block on the next lines if it starts in a column or right of it, else nothing. -/
def nested? : Nat → Nat → List DocumentLine → Option (Value × List DocumentLine)
  | 0, _, _ => none
  | _ + 1, _, [] => some (.plain "", [])
  | fuel + 1, column, line :: rest =>
      if column ≤ line.indent then block? fuel (line :: rest)
      else some (.plain "", line :: rest)

end

/-- The lines of a document that say something. -/
def documentLines (text : List Char) : List DocumentLine :=
  (lineTexts text).filterMap fun cs =>
    let content := cs.dropWhile (· = ' ')
    if isBlank content then none else some ⟨cs.length - content.length, content⟩

/-- The value of a document, if it can be read. -/
def Value.ofDocument? (text : String) : Option Value :=
  let lines := match documentLines text.toList with
    | ⟨0, ['-', '-', '-']⟩ :: lines => lines
    | lines => lines
  match lines with
  | [] => some .null
  | lines =>
      match block? (4 * (text.length + 1)) lines with
      | some (value, []) => some value
      | _ => none

end CodeEditor.Yaml
