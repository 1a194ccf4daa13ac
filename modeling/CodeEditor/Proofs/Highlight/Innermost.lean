import CodeEditor.Highlight.Token
import CodeEditor.Proofs.Grammar.Highlight
import CodeEditor.Proofs.Sorting
import CodeEditor.Proofs.Style.Layers

/-!
Which captures show.

The captures over a line are sorted, cut to the line and laid over it one after the other.
`exists_style` says what comes out, without any of these steps: at every byte of the line, each part
of the attributes is that of the innermost capture there for which the theme sets it, and the traits
are those of all captures there. Captures are innermost when they are shortest; among those of one
range the name with most components counts (`Capture.components_eq`), and then the last (`Inner`).
How the captures lie to the line plays no part: those that begin before it or end behind it are like
any others.
-/

namespace CodeEditor

namespace ByteRange

/-- A byte lies in the range. -/
def Covers (r : ByteRange) (byte : Nat) : Prop := r.location ≤ byte ∧ byte < r.location + r.length

instance (r : ByteRange) (byte : Nat) : Decidable (r.Covers byte) :=
  inferInstanceAs (Decidable (_ ∧ _))

/-- Two ranges have no byte in common, or one of them has all bytes of the other. -/
def Laminar (r s : ByteRange) : Prop :=
  (∀ byte, r.Covers byte → ¬s.Covers byte) ∨ (∀ byte, r.Covers byte → s.Covers byte) ∨
    ∀ byte, s.Covers byte → r.Covers byte

/-- The bounds of the range can be counted, and they stand between code units. -/
structure Even (r : ByteRange) : Prop where
  word : r.location + r.length < wordLimit
  lower : 2 ∣ r.location
  upper : 2 ∣ r.location + r.length

variable {r s : ByteRange}

theorem upperBound_eq (word : r.location + r.length < wordLimit) :
    r.upperBound = some (r.location + r.length) :=
  Checked.add_eq_some_iff.mpr ⟨rfl, word⟩

/-- Ranges that overlap reach to each other, and others have no byte in common. -/
theorem exists_overlaps (word : r.location + r.length < wordLimit)
    (word' : s.location + s.length < wordLimit) : ∃ overlap, r.overlaps s = some overlap ∧
      (overlap = true → r.location ≤ s.location + s.length ∧ s.location ≤ r.location + r.length) ∧
      (overlap = false → ∀ byte, r.Covers byte → ¬s.Covers byte) := by
  simp only [overlaps, upperBound_eq word, upperBound_eq word', isEmpty, Option.map_some,
    Option.bind_eq_bind, Option.bind_some, Bool.and_eq_true, beq_iff_eq, Covers]
  split
  · exact ⟨_, rfl, fun same => by rw [beq_iff_eq] at same; omega, fun _ => by omega⟩
  · split
    · split
      · exact ⟨_, rfl, fun inside => by rw [decide_eq_true_eq] at inside; omega, fun _ => by omega⟩
      · exact ⟨_, rfl, fun never => absurd never Bool.false_ne_true, fun _ => by omega⟩
    · split
      · split
        · exact ⟨_, rfl, fun inside => by rw [decide_eq_true_eq] at inside; omega,
            fun _ => by omega⟩
        · exact ⟨_, rfl, fun never => absurd never Bool.false_ne_true, fun _ => by omega⟩
      · split
        · exact ⟨_, rfl, fun inside => by rw [decide_eq_true_eq] at inside; omega,
            fun apart => by rw [decide_eq_false_iff_not] at apart; omega⟩
        · exact ⟨_, rfl, fun never => absurd never Bool.false_ne_true, fun _ => by omega⟩

/-- Of two laminar ranges with a byte in common the one that starts later is shorter. -/
theorem length_lt_of_laminar {byte : Nat} (laminar : r.Laminar s) (covers : r.Covers byte)
    (covers' : s.Covers byte) (later : s.location < r.location) : r.length < s.length := by
  rcases laminar with apart | inside | around
  · exact absurd covers' (apart byte covers)
  · have last := inside (r.location + r.length - 1) (by rw [Covers] at *; omega)
    rw [Covers] at *
    omega
  · have first := around s.location (by rw [Covers] at *; omega)
    rw [Covers] at first
    omega

end ByteRange

namespace Highlight

variable {theme : Theme} {cs : List Capture} {line : ByteRange} {c : Capture} {byte offset : Nat}

/-! ### The tokens of a line -/

/-- What a token lays over a text. -/
def Token.layer (t : Token) : TextRange × TextAttributes := (t.range, t.attributes)

/-- The attributes that some captures have at a byte, in their order. -/
def attributesOf (theme : Theme) (cs : List Capture) (byte : Nat) : List TextAttributes :=
  (cs.filter fun c => c.byteRange.Covers byte).map fun c => theme.attributes c.name

/-- The part of a capture that lies in a line, counted from the start of the line. -/
def cut (c : Capture) (line : ByteRange) : ByteRange :=
  .ofBounds (max c.byteRange.location line.location - line.location)
    (min (c.byteRange.location + c.byteRange.length) (line.location + line.length) - line.location)

/-- A capture that overlaps a line is cut to it, and dropped if nothing is to be seen of it. -/
theorem tokenOf_eq (theme : Theme) (even : c.byteRange.Even) (evenLine : line.Even) :
    tokenOf theme line c = some none ∧
        (∀ byte, c.byteRange.Covers byte → ¬line.Covers byte) ∨
      tokenOf theme line c =
        some (if (cut c line).isEmpty || (theme.attributes c.name).isEmpty then none
          else some ⟨(cut c line).toText, theme.attributes c.name⟩) := by
  obtain ⟨overlap, ok, reach, apart⟩ := ByteRange.exists_overlaps even.word evenLine.word
  rw [tokenOf, ok]
  cases overlap with
  | false => exact .inl ⟨rfl, apart rfl⟩
  | true =>
      obtain ⟨below, above⟩ := reach rfl
      have lower : Checked.sub (max c.byteRange.location line.location) line.location =
          some (max c.byteRange.location line.location - line.location) :=
        Checked.sub_eq_some_iff.mpr (by omega)
      have upper : Checked.sub (min (c.byteRange.location + c.byteRange.length)
            (line.location + line.length)) line.location =
          some (min (c.byteRange.location + c.byteRange.length) (line.location + line.length) -
            line.location) := Checked.sub_eq_some_iff.mpr (by omega)
      right
      simp only [Option.bind_eq_bind, Option.bind_some, if_true,
        ByteRange.upperBound_eq even.word, ByteRange.upperBound_eq evenLine.word, lower, upper]
      rfl

/-- The code units of the cut part are those whose bytes lie in the capture. -/
theorem mem_cut_iff (even : c.byteRange.Even) (evenLine : line.Even)
    (inside : offset < line.length / 2) :
    ((cut c line).toText.location ≤ offset ∧
        offset < (cut c line).toText.location + (cut c line).toText.length) ↔
      c.byteRange.Covers (line.location + 2 * offset) := by
  obtain ⟨-, lower, upper⟩ := even
  obtain ⟨-, lower', upper'⟩ := evenLine
  rw [ByteRange.Covers]
  simp only [cut, ByteRange.ofBounds, ByteRange.toText, unitsOfBytes, bytesPerUnit]
  omega

/-- A capture gives a token, unless nothing is to be seen of it, and the token lies where the
capture does. -/
theorem exists_tokenOf (theme : Theme) (even : c.byteRange.Even) (evenLine : line.Even) :
    ∃ t, tokenOf theme line c = some t ∧
      (∀ token ∈ t, token.range.location + token.range.length < wordLimit ∧
        token.attributes = theme.attributes c.name) ∧
      ∀ offset < line.length / 2, ∀ a,
        (StyledText.layersAt (t.toList.map Token.layer) offset).foldl TextAttributes.overlay a =
          if c.byteRange.Covers (line.location + 2 * offset) then a.overlay
            (theme.attributes c.name)
          else a := by
  rcases tokenOf_eq theme even evenLine with ⟨ok, apart⟩ | ok
  · refine ⟨none, ok, fun _ never => absurd never (Option.not_mem_none _),
      fun offset inside a => ?_⟩
    rw [if_neg fun covers => apart _ covers ⟨Nat.le_add_right _ _, by omega⟩]
    rfl
  · refine ⟨_, ok, ?_, fun offset inside a => ?_⟩
    · intro token mem
      split at mem
      · cases mem
      · cases mem
        refine ⟨?_, rfl⟩
        have := even.word
        have := evenLine.word
        simp only [cut, ByteRange.ofBounds, ByteRange.toText, unitsOfBytes, bytesPerUnit]
        omega
    · have same := mem_cut_iff even evenLine inside
      split
      · next nothing =>
          rcases Bool.or_eq_true_iff.mp nothing with empty | unset
          · have empty : (cut c line).length = 0 := beq_iff_eq.mp empty
            rw [if_neg fun covers => ?_]
            · rfl
            · have := same.mpr covers
              simp only [ByteRange.toText, empty, unitsOfBytes, bytesPerUnit] at this
              omega
          · rw [TextAttributes.overlay_of_isEmpty unset, ite_self]
            rfl
      · rw [Option.toList_some, List.map_singleton, StyledText.layersAt_cons]
        simp only [Token.layer, same]
        rfl

theorem tokens_cons (theme : Theme) (c : Capture) (cs : List Capture) (line : ByteRange) :
    tokens theme (c :: cs) line =
      (tokenOf theme line c).bind fun t => (tokens theme cs line).map (t.toList ++ ·) := by
  rw [tokens, tokens, List.mapM_cons]
  cases tokenOf theme line c with
  | none => rfl
  | some t =>
      cases cs.mapM (tokenOf theme line) with
      | none => rfl
      | some ts =>
          cases t with
          | none => rfl
          | some t => rfl

/-- The tokens of a line lay over each of its code units what the captures have there. -/
theorem exists_tokens (theme : Theme) (even : ∀ c ∈ cs, c.byteRange.Even) (evenLine : line.Even) :
    ∃ ts, tokens theme cs line = some ts ∧
      (∀ t ∈ ts, t.range.location + t.range.length < wordLimit ∧
        ∃ c ∈ cs, t.attributes = theme.attributes c.name) ∧
      ∀ offset < line.length / 2, ∀ a,
        (StyledText.layersAt (ts.map Token.layer) offset).foldl TextAttributes.overlay a =
          (attributesOf theme cs (line.location + 2 * offset)).foldl TextAttributes.overlay a := by
  induction cs with
  | nil => exact ⟨[], rfl, fun _ never => absurd never List.not_mem_nil, fun _ _ _ => rfl⟩
  | cons c cs ih =>
      obtain ⟨here, even⟩ := List.forall_mem_cons.mp even
      obtain ⟨t, ok, words, laid⟩ := exists_tokenOf theme here evenLine
      obtain ⟨ts, oks, words', laid'⟩ := ih even
      refine ⟨t.toList ++ ts, ?_, ?_, fun offset inside a => ?_⟩
      · rw [tokens_cons, ok, oks]
        rfl
      · intro token mem
        rcases List.mem_append.mp mem with mem | mem
        · obtain ⟨word, same⟩ := words token (Option.mem_toList.mp mem)
          exact ⟨word, c, List.mem_cons_self, same⟩
        · obtain ⟨word, c', mem', same⟩ := words' token mem
          exact ⟨word, c', List.mem_cons_of_mem c mem', same⟩
      · rw [List.map_append, StyledText.layersAt_append, List.foldl_append, laid offset inside,
          laid' offset inside, attributesOf, attributesOf, List.filter_cons]
        split
        · next covers =>
            rw [if_pos (decide_eq_true covers)]
            rfl
        · next apart => rw [if_neg fun covers => apart (of_decide_eq_true covers)]

/-- Tokens are laid over a text in their order. -/
theorem exists_applyTokens {ts : List Token} {s : StyledText} (covered : s.Covered)
    (words : ∀ t ∈ ts, t.range.location + t.range.length < wordLimit) :
    ∃ s', applyTokens ts s = some s' ∧ StyledText.Layered (ts.map Token.layer) s s' := by
  induction ts generalizing s with
  | nil => exact ⟨s, rfl, .nil s⟩
  | cons t ts ih =>
      obtain ⟨word, words⟩ := List.forall_mem_cons.mp words
      obtain ⟨s₁, step, overlaid⟩ := StyledText.setAttributes_ok covered word t.attributes
      obtain ⟨s', run, layered⟩ := ih overlaid.covered words
      refine ⟨s', ?_, .cons overlaid layered⟩
      rw [applyTokens, List.foldlM_cons, step]
      exact run

/-! ### The innermost capture -/

theorem length_splitOn (x : Char) (cs : List Char) : (cs.splitOn x).length = cs.count x + 1 := by
  rw [List.splitOn]
  induction cs with
  | nil => rfl
  | cons c cs ih =>
      rw [List.splitOnP_cons_eq_if_modifyHead]
      split
      · next same =>
          obtain rfl := beq_iff_eq.mp same
          rw [List.length_cons, ih, List.count_cons_self]
      · next other =>
          rw [List.length_modifyHead, ih, List.count_cons_of_ne]
          simpa using other

/-- The components of a name are what its dots divide it into. -/
theorem Capture.components_eq (c : Capture) : c.components = (c.name.toList.splitOn '.').length :=
  (length_splitOn '.' _).symm

/-- One capture is not further out than another. Both come with their places in the list: of
captures with one range and as many components the later is further in. -/
def Inner (a b : Capture × Nat) : Prop :=
  a.1.byteRange.length < b.1.byteRange.length ∨
    a.1.byteRange.length = b.1.byteRange.length ∧ (b.1.components < a.1.components ∨
      b.1.components = a.1.components ∧ b.2 ≤ a.2)

/-- What shows at a byte: the value of the innermost capture there that has one. -/
def Shows {α : Type} (value : String → Option α) (cs : List Capture) (byte : Nat) : Option α → Prop
  | none => ∀ c ∈ cs, c.byteRange.Covers byte → value c.name = none
  | some a => ∃ i c, cs[i]? = some c ∧ c.byteRange.Covers byte ∧ value c.name = some a ∧
      ∀ j c', cs[j]? = some c' → c'.byteRange.Covers byte → value c'.name ≠ none →
        Inner (c, i) (c', j)

theorem le_iff {a b : Capture} : a.le b = true ↔ a.byteRange.location < b.byteRange.location ∨
    a.byteRange.location = b.byteRange.location ∧ (b.byteRange.length < a.byteRange.length ∨
      b.byteRange.length = a.byteRange.length ∧ a.components ≤ b.components) := by
  rw [Capture.le, bne_iff_ne, Capture.compare, ne_eq]
  simp only [Ordering.then_eq_gt, Nat.compare_eq_gt, Nat.compare_eq_eq]
  omega

theorem le_trans (a b c : Capture) (ab : a.le b = true) (bc : b.le c = true) : a.le c = true := by
  rw [le_iff] at *
  omega

theorem le_total (a b : Capture) : (a.le b || b.le a) = true := by
  rw [Bool.or_eq_true, le_iff, le_iff]
  omega

/-- Captures in their order, with their places in the list. -/
def placed (cs : List Capture) : List (Capture × Nat) :=
  cs.zipIdx.mergeSort fun a b => a.1.le b.1

theorem sort_eq (cs : List Capture) : Capture.sort cs = (placed cs).map (·.1) := by
  rw [Capture.sort, placed, List.map_mergeSort (s := Capture.le) (fun _ _ _ _ => rfl),
    List.zipIdx_map_fst]

theorem mem_placed_iff {p : Capture × Nat} : p ∈ placed cs ↔ cs[p.2]? = some p.1 := by
  rw [placed, List.mem_mergeSort]
  exact List.mem_zipIdx_iff_getElem?

/-- Captures that tie are in the order of the list. -/
theorem placed_sorted (cs : List Capture) :
    (placed cs).Pairwise fun a b => a.1.le b.1 = true ∧ (b.1.le a.1 = true → a.2 < b.2) := by
  refine pairwise_mergeSort (fun _ _ _ => le_trans _ _ _) (fun _ _ => le_total _ _) ?_
  have places := List.pairwise_lt_range' (s := 0) (n := cs.length)
  rw [← List.zipIdx_map_snd] at places
  exact List.pairwise_map.mp places

/-- Of two captures over a byte the one that is applied later is further in. -/
theorem inner_of_le {a b : Capture × Nat} (laminar : b.1.byteRange.Laminar a.1.byteRange)
    (covers : a.1.byteRange.Covers byte) (covers' : b.1.byteRange.Covers byte)
    (le : a.1.le b.1 = true) (tie : b.1.le a.1 = true → a.2 < b.2) : Inner b a := by
  rw [le_iff] at le tie
  rw [Inner]
  rcases le with later | ⟨same, rest⟩
  · exact .inl (ByteRange.length_lt_of_laminar laminar covers' covers later)
  · omega

/-- What is found from the end of a list stands before what has no value. -/
theorem exists_split_of_findSome?_reverse {α β : Type} {f : α → Option β} {xs : List α} {b : β}
    (found : xs.reverse.findSome? f = some b) :
    ∃ before x after, xs = before ++ x :: after ∧ f x = some b ∧ ∀ y ∈ after, f y = none := by
  obtain ⟨after, x, before, split, here, unset⟩ := List.findSome?_eq_some_iff.mp found
  refine ⟨before.reverse, x, after.reverse, ?_, here,
    fun y mem => unset y (List.mem_reverse.mp mem)⟩
  rw [List.reverse_eq_iff.mp split, List.reverse_append, List.reverse_cons, List.append_assoc,
    List.singleton_append]

/-- The last value that is laid over a byte is the one that shows. -/
theorem shows_findSome? {α : Type} (value : String → Option α)
    (laminar : ∀ a ∈ cs, ∀ b ∈ cs, a.byteRange.Laminar b.byteRange) (byte : Nat) :
    Shows value cs byte
      (((Capture.sort cs).filter fun c => c.byteRange.Covers byte).reverse.findSome?
      fun c => value c.name) := by
  have mem_iff {p : Capture × Nat} :
      p ∈ ((placed cs).filter fun p => p.1.byteRange.Covers byte) ↔
        cs[p.2]? = some p.1 ∧ p.1.byteRange.Covers byte := by
    rw [List.mem_filter, mem_placed_iff, decide_eq_true_eq]
  have sorted := (placed_sorted cs).filter fun p => p.1.byteRange.Covers byte
  rw [sort_eq, List.filter_map, ← List.map_reverse, List.findSome?_map]
  change Shows value cs byte
    (((placed cs).filter fun p => p.1.byteRange.Covers byte).reverse.findSome?
    fun p => value p.1.name)
  generalize (placed cs).filter (fun p => p.1.byteRange.Covers byte) = there at mem_iff sorted
  cases found : there.reverse.findSome? fun p => value p.1.name with
  | none =>
      intro c mem covers
      obtain ⟨i, here⟩ := List.getElem?_of_mem mem
      have inside : (c, i) ∈ there := mem_iff.mpr ⟨here, covers⟩
      exact List.findSome?_eq_none_iff.mp found (c, i) (List.mem_reverse.mpr inside)
  | some a =>
      obtain ⟨before, ⟨c, i⟩, after, rfl, set, unset⟩ := exists_split_of_findSome?_reverse found
      obtain ⟨here, covers⟩ := mem_iff.mp (List.mem_append_right before List.mem_cons_self)
      refine ⟨i, c, here, covers, set, fun j c' here' covers' set' => ?_⟩
      have inside : (c', j) ∈ before ++ (c, i) :: after := mem_iff.mpr ⟨here', covers'⟩
      rcases List.mem_append.mp inside with first | rest
      · obtain ⟨le, tie⟩ := (List.pairwise_append.mp sorted).2.2 _ first _ List.mem_cons_self
        exact inner_of_le (laminar c (List.mem_of_getElem? here) c' (List.mem_of_getElem? here'))
          covers' covers le tie
      · rcases List.mem_cons.mp rest with same | later
        · cases same
          exact .inr ⟨rfl, .inr ⟨rfl, Nat.le_refl _⟩⟩
        · exact absurd (unset (c', j) later) set'

/-! ### A whole line -/

/-- What is drawn at a byte. The numbers in fonts and shadows are told up to signs of zero, since
neighbours that compare as equal are joined, and exactly where the theme has no negative zeros. -/
structure Drawn (theme : Theme) (cs : List Capture) (byte : Nat) (a : TextAttributes) : Prop where
  color : Shows theme.color cs byte a.color
  font : Shows (fun name => (theme.font name).map Font.unsigned) cs byte (a.font.map Font.unsigned)
  shadow : Shows (fun name => (theme.shadow name).map Shadow.unsigned) cs byte
    (a.shadow.map Shadow.unsigned)
  exact : theme.Unsigned → Shows theme.font cs byte a.font ∧ Shows theme.shadow cs byte a.shadow
  bold : a.traits.bold = true ↔
    ∃ c ∈ cs, c.byteRange.Covers byte ∧ (theme.traits c.name).bold = true
  italic : a.traits.italic = true ↔
    ∃ c ∈ cs, c.byteRange.Covers byte ∧ (theme.traits c.name).italic = true

/-- A part in which upper attributes replace lower ones shows that of the innermost capture. -/
theorem shows_part {α : Type} (part : TextAttributes → Option α)
    (replaces : ∀ a b, part (a.overlay b) = (part b).or (part a)) (unset : part {} = none)
    (laminar : ∀ a ∈ cs, ∀ b ∈ cs, a.byteRange.Laminar b.byteRange) (theme : Theme) (byte : Nat) :
    Shows (fun name => part (theme.attributes name)) cs byte
      (part ((attributesOf theme (Capture.sort cs) byte).foldl TextAttributes.overlay {})) := by
  rw [TextAttributes.part_foldl_overlay replaces, unset, Option.or_none, attributesOf,
    ← List.map_reverse, List.findSome?_map]
  exact shows_findSome? (fun name => part (theme.attributes name)) laminar byte

/-- A trait is set when one of the captures has it. -/
theorem flag_iff (flag : TextAttributes → Bool)
    (adds : ∀ a b, flag (a.overlay b) = (flag a || flag b)) (unset : flag {} = false)
    (theme : Theme) (cs : List Capture) (byte : Nat) :
    flag ((attributesOf theme (Capture.sort cs) byte).foldl TextAttributes.overlay {}) = true ↔
      ∃ c ∈ cs, c.byteRange.Covers byte ∧ flag (theme.attributes c.name) = true := by
  rw [TextAttributes.flag_foldl_overlay adds, unset, attributesOf]
  simp [Capture.sort, and_assoc]

theorem drawn (laminar : ∀ a ∈ cs, ∀ b ∈ cs, a.byteRange.Laminar b.byteRange) {a : TextAttributes}
    (same : a.unsigned = ((attributesOf theme (Capture.sort cs) byte).foldl
      TextAttributes.overlay {}).unsigned)
    (same' : theme.Unsigned →
      a = (attributesOf theme (Capture.sort cs) byte).foldl TextAttributes.overlay {}) :
    Drawn theme cs byte a := by
  have color := congrArg TextAttributes.color same
  have font := congrArg TextAttributes.font same
  have shadow := congrArg TextAttributes.shadow same
  have traits := congrArg TextAttributes.traits same
  simp only [TextAttributes.unsigned] at color font shadow traits
  constructor
  case color =>
    rw [color]
    exact shows_part TextAttributes.color (fun _ _ => rfl) rfl laminar theme byte
  case font =>
    rw [font]
    exact shows_part (fun a => a.font.map Font.unsigned)
      (fun _ _ => Option.map_or) rfl laminar theme byte
  case shadow =>
    rw [shadow]
    exact shows_part (fun a => a.shadow.map Shadow.unsigned) (fun _ _ => Option.map_or) rfl laminar
      theme byte
  case exact =>
    intro unsigned
    rw [same' unsigned]
    exact ⟨shows_part TextAttributes.font (fun _ _ => rfl) rfl laminar theme byte,
      shows_part TextAttributes.shadow (fun _ _ => rfl) rfl laminar theme byte⟩
  case bold =>
    rw [traits]
    exact flag_iff (fun a => a.traits.bold) (fun _ _ => rfl) rfl theme cs byte
  case italic =>
    rw [traits]
    exact flag_iff (fun a => a.traits.italic) (fun _ _ => rfl) rfl theme cs byte

/-- Captures that lie inside each other are laid over a line so that the innermost shows at every
byte, wherever the line begins and ends. -/
theorem exists_style {text : String} (even : ∀ c ∈ cs, c.byteRange.Even)
    (laminar : ∀ a ∈ cs, ∀ b ∈ cs, a.byteRange.Laminar b.byteRange) (evenLine : line.Even)
    (length : line.length = 2 * Utf16.length text.toList) (theme : Theme) :
    ∃ ts styled, style theme (Capture.sort cs) line (.plain text) = some (ts, styled) ∧
      styled.text = text ∧
      (∀ offset < Utf16.length text.toList, ∃ a, styled.attributesAt offset = some a ∧
        Drawn theme cs (line.location + 2 * offset) a) ∧
      ∀ offset, Utf16.length text.toList ≤ offset → styled.attributesAt offset = none := by
  have even' : ∀ c ∈ Capture.sort cs, c.byteRange.Even :=
    fun c mem => even c (List.mem_mergeSort.mp mem)
  obtain ⟨ts, cutOk, words, laid⟩ := exists_tokens theme even' evenLine
  obtain ⟨styled, run, layered⟩ :=
    exists_applyTokens (StyledText.covered_plain text) fun t mem => (words t mem).1
  refine ⟨ts, styled, ?_, layered.text, fun offset inside => ?_,
    fun offset => layered.attributesAt_eq_none⟩
  · rw [style, cutOk, Option.bind_eq_bind, Option.bind_some, run]
    rfl
  · obtain ⟨a, here, same, same'⟩ := layered.exists_attributesAt inside
    rw [laid offset (by omega)] at same same'
    refine ⟨a, here, drawn laminar same fun unsigned => same' ?_⟩
    refine List.forall_mem_map.mpr fun t mem => ?_
    obtain ⟨-, c, -, attributes⟩ := words t mem
    rw [Token.layer, attributes]
    exact unsigned c.name

/-- A string with an escape in it. -/
def escaped : List Capture := [{ name := "string", byteRange := ⟨0, 12⟩ },
  { name := "string.escape", byteRange := ⟨4, 4⟩ }]

/-- A theme of blue strings and red escapes. -/
def redEscapes : Theme :=
  StyleSheet.theme ⟨[("string", { color := some (.opaqueRgb 0 0 255) }),
    ("string.escape", { color := some (.opaqueRgb 255 0 0) })]⟩

/-- The string begins before the line and ends behind it, and the escape shows above it. -/
theorem exists_style_escaped :
    (∀ c ∈ escaped, c.byteRange.Even) ∧
      (∀ a ∈ escaped, ∀ b ∈ escaped, a.byteRange.Laminar b.byteRange) ∧
      ∃ ts styled, style redEscapes (Capture.sort escaped) ⟨2, 6⟩ (.plain "abc") = some
        (ts, styled) ∧
        styled.text = "abc" ∧
        (∀ offset < 3, ∃ a, styled.attributesAt offset = some a ∧
          Drawn redEscapes escaped (2 + 2 * offset) a) ∧
        ∀ offset, 3 ≤ offset → styled.attributesAt offset = none := by
  have even : ∀ c ∈ escaped, c.byteRange.Even :=
    List.forall_mem_cons.mpr ⟨⟨by decide, by decide, by decide⟩,
      List.forall_mem_singleton.mpr ⟨by decide, by decide, by decide⟩⟩
  have inside : ∀ byte, ByteRange.Covers ⟨4, 4⟩ byte → ByteRange.Covers ⟨0, 12⟩ byte := by
    simp only [ByteRange.Covers]
    omega
  have laminar : ∀ a ∈ escaped, ∀ b ∈ escaped, a.byteRange.Laminar b.byteRange := by
    refine List.forall_mem_cons.mpr ⟨List.forall_mem_cons.mpr
      ⟨?_, List.forall_mem_singleton.mpr ?_⟩, List.forall_mem_singleton.mpr
        (List.forall_mem_cons.mpr ⟨?_, List.forall_mem_singleton.mpr ?_⟩)⟩
    · exact .inr (.inl fun _ covers => covers)
    · exact .inr (.inr inside)
    · exact .inr (.inl inside)
    · exact .inr (.inl fun _ covers => covers)
  exact ⟨even, laminar, exists_style even laminar ⟨by decide, by decide, by decide⟩ (by decide) _⟩

end Highlight

end CodeEditor
