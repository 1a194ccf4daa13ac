import CodeEditor.Mini.Vocabulary
import CodeEditor.Proofs.Layer.Upkeep

/-!
Places in trees of the mini language.

A lexeme is read off the characters that stand at its start, so all its places are places of the
text, and the nodes put together from lexemes start and end where these do (`engine_counts`).
-/

namespace CodeEditor

open Syntax (Mark Node)

/-- Some characters of a text stand at a place. -/
def TextBuffer.Reads (text : TextBuffer) (m : Mark) (cs : List Char) : Prop :=
  ∃ front rest, front ++ cs ++ rest = text.chars ∧ m = Mark.start.afterAll front

namespace TextBuffer.Reads

variable {text : TextBuffer} {m : Mark} {cs ds : List Char}

theorem start (reads : text.Reads m cs) : text.Holds m := by
  obtain ⟨front, rest, whole, rfl⟩ := reads
  exact ⟨front, cs ++ rest, by rw [← whole, List.append_assoc], rfl⟩

/-- Behind the first of the characters the others stand. -/
theorem behind (reads : text.Reads m (cs ++ ds)) : text.Reads (m.afterAll cs) ds := by
  obtain ⟨front, rest, whole, rfl⟩ := reads
  refine ⟨front ++ cs, rest, ?_, (Mark.afterAll_append _ _ _).symm⟩
  rw [← whole, List.append_assoc front]

theorem next {c : Char} (reads : text.Reads m (c :: cs)) : text.Reads (m.after c) cs :=
  @behind text m [c] cs reads

theorem stop (reads : text.Reads m cs) : text.Holds (m.afterAll cs) := by
  rw [← List.append_nil cs] at reads
  exact reads.behind.start

theorem of_prefix (reads : text.Reads m cs) (part : ds <+: cs) : text.Reads m ds := by
  obtain ⟨front, rest, whole, rfl⟩ := reads
  obtain ⟨more, rfl⟩ := part
  exact ⟨front, more ++ rest, by rw [← whole]; simp, rfl⟩

end TextBuffer.Reads

namespace Mini

variable {text : TextBuffer}

/-! ### Lexemes -/

namespace Lexeme

theorem append_prefix {cs ds es : List Char} (part : ds <+: cs) (more : es <+: cs.drop ds.length) :
    ds ++ es <+: cs := by
  have whole := List.prefix_iff_eq_append.mp part
  rw [← whole]
  exact (List.prefix_append_right_inj ds).mpr more

theorem stringRest_prefix (cs : List Char) : stringRest cs <+: cs := by
  rw [stringRest]
  split
  · next rest behind =>
      refine append_prefix (List.takeWhile_prefix _) ?_
      rw [behind]
      exact ⟨rest, rfl⟩
  · exact List.takeWhile_prefix _

/-- The further characters of a lexeme stand behind its first. -/
theorem shape_prefix (c : Char) (rest : List Char) : (shape c rest).2 <+: rest := by
  rw [shape]
  split
  · exact List.takeWhile_prefix _
  · split
    · exact stringRest_prefix rest
    · split
      · exact List.takeWhile_prefix _
      · split
        · exact List.takeWhile_prefix _
        · split <;> exact List.nil_prefix

theorem langAt_prefix (cs : List Char) : langAt cs <+: cs := by
  cases cs with
  | nil => exact List.nil_prefix
  | cons c rest =>
      rw [langAt]
      split
      · have name := (List.prefix_cons_inj c).mpr (List.takeWhile_prefix isWordPart (l := rest))
        exact append_prefix name (List.takeWhile_prefix _)
      · exact List.nil_prefix

/-- A lexeme starts and ends at places of the text. -/
def Fits (text : TextBuffer) (x : Lexeme) : Prop := text.Holds x.start ∧ text.Holds x.stop

/-- The characters at a place are read as lexemes at places of the text. -/
theorem readFrom_fits (fuel : Nat) {m : Mark} {cs : List Char} (reads : text.Reads m cs) :
    ∀ x ∈ readFrom fuel m cs, x.Fits text := by
  induction fuel generalizing m cs with
  | zero => exact fun x mem => absurd mem List.not_mem_nil
  | succ fuel ih =>
      cases cs with
      | nil => exact fun x mem => absurd mem List.not_mem_nil
      | cons c rest =>
          rw [readFrom]
          split
          · exact ih reads.next
          · have part := shape_prefix c rest
            generalize shape c rest = read at part ⊢
            obtain ⟨kind, more⟩ := read
            dsimp only at part ⊢
            rw [← List.prefix_iff_eq_append.mp part, ← List.cons_append] at reads
            have stop := reads.behind
            have first : Fits text ⟨kind, m, m.afterAll (c :: more)⟩ := ⟨reads.start, stop.start⟩
            generalize rest.drop more.length = rest' at stop
            have lang_part : (if kind = .opening .square then langAt rest' else []) <+: rest' := by
              split
              · exact langAt_prefix rest'
              · exact List.nil_prefix
            generalize (if kind = .opening .square then langAt rest' else []) = lang at lang_part ⊢
            split
            · rintro x (_ | ⟨_, mem⟩)
              · exact first
              · exact ih stop x mem
            · rw [← List.prefix_iff_eq_append.mp lang_part] at stop
              rintro x (_ | ⟨_, _ | ⟨_, mem⟩⟩)
              · exact first
              · exact ⟨stop.start, stop.behind.start⟩
              · exact ih stop.behind x mem

end Lexeme

/-! ### Nodes -/

/-- All nodes of a tree start and end at places of the text. -/
def Fits (text : TextBuffer) (x : Node) : Prop := ∀ y, x.Has y → text.Holds y.start ∧
    text.Holds y.stop

theorem Fits.node {x : Node} (start : text.Holds x.start) (stop : text.Holds x.stop)
    (children : ∀ c ∈ x.children, Fits text c) : Fits text x := by
  intro y has
  cases has with
  | self => exact ⟨start, stop⟩
  | child mem has => exact children _ mem y has

theorem Fits.bounds {x : Node} (fits : Fits text x) : text.Holds x.start ∧ text.Holds x.stop :=
  fits x (.self x)

theorem Lexeme.Fits.leaf {x : Lexeme} (fits : x.Fits text) (kind : String) (named : Bool) :
    Mini.Fits text (leaf kind named x.start x.stop) :=
  .node fits.1 fits.2 fun _ mem => absurd mem List.not_mem_nil

/-- An open bracket holds nodes of the text. -/
structure OpenBracket.Fits (text : TextBuffer) (o : OpenBracket) : Prop where
  start : text.Holds o.start
  stop : text.Holds o.stop
  lang : ∀ x, o.lang = some x → Mini.Fits text x
  items : ∀ x ∈ o.items, Mini.Fits text x

theorem OpenBracket.Fits.contents {o : OpenBracket} (fits : o.Fits text) :
    ∀ x ∈ o.contents, Mini.Fits text x := by
  have lang : ∀ x ∈ o.lang.toList, Mini.Fits text x :=
    fun x mem => fits.lang x (Option.mem_toList.mp mem)
  have items : ∀ x ∈ o.items.reverse, Mini.Fits text x :=
    fun x mem => fits.items x (List.mem_reverse.mp mem)
  rw [OpenBracket.contents]
  split
  · next first last _ here there =>
      intro x mem
      rcases List.mem_append.mp mem with mem | mem
      · exact lang x mem
      · rw [List.mem_singleton.mp mem]
        exact .node (items first (List.mem_of_head? here)).bounds.1
          (fits.items last (List.mem_of_head? there)).bounds.2 items
  · exact lang
  · exact items

/-- A bracket is closed by a leaf of the text or not at all. -/
theorem OpenBracket.Fits.close {o : OpenBracket} {m : Mark} {closing : Option Node}
    (fits : o.Fits text) (stop : text.Holds m) (leaf : ∀ x, closing = some x → Mini.Fits text x) :
    Mini.Fits text (o.close m closing) := by
  refine .node fits.start stop fun x mem => ?_
  rw [OpenBracket.close] at mem
  dsimp only at mem
  rcases List.mem_append.mp mem with mem | mem
  · rcases List.mem_cons.mp mem with rfl | mem
    · exact Lexeme.Fits.leaf (x := ⟨.lang, o.start, o.stop⟩) ⟨fits.start, fits.stop⟩ _ _
    · exact fits.contents x mem
  · exact leaf x (Option.mem_toList.mp mem)

/-- What has been read are nodes of the text. -/
structure Reading.Fits (text : TextBuffer) (r : Reading) : Prop where
  opened : ∀ o ∈ r.opened, o.Fits text
  items : ∀ x ∈ r.items, Mini.Fits text x

namespace Reading.Fits

variable {r : Reading}

theorem add {x : Node} (fits : r.Fits text) (item : Mini.Fits text x) : (r.add x).Fits text := by
  rw [Reading.add]
  split
  · exact ⟨fits.opened, List.forall_mem_cons.mpr ⟨item, fits.items⟩⟩
  · next o rest here =>
      obtain ⟨inner, outer⟩ := List.forall_mem_cons.mp (here ▸ fits.opened)
      exact ⟨List.forall_mem_cons.mpr
        ⟨{ inner with items := List.forall_mem_cons.mpr ⟨item, inner.items⟩ }, outer⟩, fits.items⟩

theorem take {x : Lexeme} (fits : r.Fits text) (lexeme : x.Fits text) : (r.take x).Fits text := by
  rw [Reading.take]
  split
  · exact fits.add (lexeme.leaf _ _)
  · exact ⟨List.forall_mem_cons.mpr ⟨⟨lexeme.1, lexeme.2, nofun, nofun⟩, fits.opened⟩, fits.items⟩
  · split
    · exact fits
    · next o rest here =>
        obtain ⟨inner, outer⟩ := List.forall_mem_cons.mp (here ▸ fits.opened)
        refine ⟨List.forall_mem_cons.mpr ⟨{ inner with lang := ?_ }, outer⟩, fits.items⟩
        rintro x ⟨⟩
        exact lexeme.leaf _ _
  · split
    · exact fits.add (lexeme.leaf _ _)
    · next o rest here =>
        obtain ⟨inner, outer⟩ := List.forall_mem_cons.mp (here ▸ fits.opened)
        split
        · refine add ⟨outer, fits.items⟩ (inner.close lexeme.2 ?_)
          rintro x ⟨⟩
          exact lexeme.leaf _ _
        · exact fits.add (lexeme.leaf _ _)

theorem closeAll {stop : Mark} (place : text.Holds stop) (opened : List OpenBracket)
    (brackets : ∀ o ∈ opened, o.Fits text) (fits : r.Fits text) :
    (Reading.closeAll stop opened r).Fits text := by
  induction opened generalizing r with
  | nil => exact fits
  | cons o rest ih =>
      obtain ⟨inner, outer⟩ := List.forall_mem_cons.mp brackets
      have filled : OpenBracket.Fits text { o with items := r.items ++ o.items } :=
        { inner with items := List.forall_mem_append.mpr ⟨fits.items, inner.items⟩ }
      rw [Reading.closeAll]
      exact ih outer ⟨nofun, List.forall_mem_singleton.mpr (filled.close place nofun)⟩

theorem finish {stop : Mark} (fits : r.Fits text) (place : text.Holds stop) :
    ∀ x ∈ r.finish stop, Mini.Fits text x := by
  have inner := closeAll place r.opened fits.opened (r := {}) ⟨nofun, nofun⟩
  intro x mem
  rw [Reading.finish, List.mem_reverse] at mem
  exact (List.mem_append.mp mem).elim (inner.items x) (fits.items x)

end Reading.Fits

theorem treeOf_fits {m : Mark} {cs : List Char} (reads : text.Reads m cs) :
    Fits text (treeOf m cs) := by
  have read : Reading.Fits text ((Lexeme.readFrom cs.length m cs).foldl Reading.take {}) := by
    have lexemes := Lexeme.readFrom_fits cs.length reads
    generalize Lexeme.readFrom cs.length m cs = xs at lexemes
    have start : Reading.Fits text {} := ⟨nofun, nofun⟩
    generalize ({} : Reading) = r at start
    induction xs generalizing r with
    | nil => exact start
    | cons x xs ih =>
        obtain ⟨first, rest⟩ := List.forall_mem_cons.mp lexemes
        exact ih rest _ (start.take first)
  have items := read.finish reads.stop
  rw [treeOf]
  generalize Reading.finish _ _ = xs at items ⊢
  refine .node ?_ reads.stop items
  cases xs with
  | nil => exact reads.stop
  | cons x xs => exact (items x List.mem_cons_self).bounds.1

/-- The part of a text stands where the part begins. -/
theorem part_reads {m : Mark} {cs : List Char} (r : ByteRange) (reads : text.Reads m cs) :
    text.Reads (part m r cs).1 (part m r cs).2 := by
  induction cs generalizing m with
  | nil => exact reads
  | cons c rest ih =>
      rw [part]
      split
      · exact ih reads.next
      · exact reads.of_prefix (prefix_within r m (c :: rest))
where
  prefix_within (r : ByteRange) (m : Mark) (cs : List Char) : part.within r m cs <+: cs := by
    induction cs generalizing m with
    | nil => exact List.nil_prefix
    | cons c rest ih =>
        rw [part.within]
        split
        · exact (List.prefix_cons_inj c).mpr (ih (m.after c))
        · exact List.nil_prefix

/-- The parser of the mini language says where its nodes start and end. -/
theorem engine_counts : engine.Counts := by
  intro n language text range root parsed
  cases parsed
  have whole : text.Reads .start text.chars := ⟨[], [], by simp, rfl⟩
  cases range with
  | none => exact treeOf_fits whole
  | some r => exact treeOf_fits (part_reads r whole)

end Mini

end CodeEditor
