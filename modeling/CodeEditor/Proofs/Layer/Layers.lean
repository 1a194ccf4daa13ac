import CodeEditor.Proofs.Layer.Candidates

/-!
The layers of a text without identities.

`Layers` is a layer with those below it, by their places in its tree. `Setting.Parsed` says that
every layer is the tree of a candidate of the layer above it, which layers are at all times. It
leaves open which of several candidates at a place has the layer; `Setting.Prefers` says that it is
the first one whose tree covers something. Both together leave no choice (`Setting.Parsed.unique`),
so that parsed layers are those of a fresh parse exactly when they prefer the first candidate
(`prefers_iff_eq`). Where candidates at one place are in one language they always do
(`Setting.Parsed.prefers`).
-/

namespace CodeEditor.Layer

open Syntax (Node Language)

/-- A layer and those below it. -/
structure Layers where
  language : Language
  range : Option ByteRange
  root : Node
  /-- The layers below by the paths of their nodes. -/
  inner : List Nat → Option Layers

theorem Layers.eta (v : Layers) : ⟨v.language, v.range, v.root, v.inner⟩ = v := by
  cases v
  rfl

namespace Setting

variable {w : Setting} {v u : Layers}

/-- Every layer is the tree of a candidate. A candidate whose tree covers something lacks a layer at
its place only if another one there covers nothing. -/
inductive Parsed (w : Setting) : Layers → Prop
  | layer {v : Layers} :
      v.root = w.parsed v.language v.range →
      (∀ path u, v.inner path = some u → ∃ c ∈ w.candidates v.language v.range,
        c.path = path ∧ w.Covers c ∧ u.language = c.language ∧ u.range = some c.range) →
      (∀ c ∈ w.candidates v.language v.range, w.Covers c → v.inner c.path = none →
        ∃ c' ∈ w.candidates v.language v.range, c'.path = c.path ∧ ¬w.Covers c') →
      (∀ path u, v.inner path = some u → Parsed w u) →
      Parsed w v

/-- Every place has the layer of the first candidate whose tree covers something. -/
inductive Prefers (w : Setting) : Layers → Prop
  | layer {v : Layers} :
      (∀ path, (v.inner path).map (fun u => (u.language, u.range)) =
        (w.first? v.language v.range path).map fun c => (c.language, some c.range)) →
      (∀ path u, v.inner path = some u → Prefers w u) →
      Prefers w v

/-- Candidates at one place are in one language. -/
inductive Unambiguous (w : Setting) : Layers → Prop
  | layer {v : Layers} :
      (∀ c ∈ w.candidates v.language v.range, ∀ c' ∈ w.candidates v.language v.range,
        c.path = c'.path → c.language = c'.language) →
      (∀ path u, v.inner path = some u → Unambiguous w u) →
      Unambiguous w v

/-- All layers below are in known languages. -/
inductive Known (known : String → Option Language) : Layers → Prop
  | layer {v : Layers} :
      (∀ path u, v.inner path = some u → ∃ name, known name = some u.language) →
      (∀ path u, v.inner path = some u → Known known u) →
      Known known v

theorem Known.inner {known : String → Option Language} (below : Known known v) {path : List Nat}
    (there : v.inner path = some u) : (∃ name, known name = some u.language) ∧ Known known u := by
  cases below with
  | layer languages inner => exact ⟨languages path u there, inner path u there⟩

theorem Known.range {known : String → Option Language} (below : Known known v)
    (range : Option ByteRange) : Known known { v with range } :=
  .layer (fun _ _ there => (below.inner there).1) fun _ _ there => (below.inner there).2

theorem Parsed.known (parsed : w.Parsed v) : Known w.known v := by
  induction parsed with
  | layer _ candidates _ _ ih =>
      refine .layer (fun path u there => ?_) ih
      obtain ⟨c, mem, -, -, language, -⟩ := candidates path u there
      rw [language]
      exact known_of_mem mem

/-- The layer at a place is that of the first candidate. -/
theorem Prefers.inner_eq (prefers : w.Prefers v) (path : List Nat) :
    (v.inner path).map (fun u => (u.language, u.range)) =
      (w.first? v.language v.range path).map fun c => (c.language, some c.range) := by
  cases prefers with
  | layer first _ => exact first path

theorem Prefers.of_inner (prefers : w.Prefers v) {path : List Nat} (there : v.inner path = some u) :
    w.Prefers u := by
  cases prefers with
  | layer _ below => exact below path u there

/-- Layers of one language and range that prefer the first candidate have layers at the same places,
in the same languages. -/
theorem Prefers.inner_eq_inner {v' : Layers} (prefers : w.Prefers v) (prefers' : w.Prefers v')
    (language : v.language = v'.language) (range : v.range = v'.range) (path : List Nat) :
    (v.inner path).map (fun u => (u.language, u.range)) =
      (v'.inner path).map fun u => (u.language, u.range) := by
  rw [prefers.inner_eq, prefers'.inner_eq, language, range]

/-- There is one way to parse layers that prefers the first candidate. -/
theorem Parsed.unique {v' : Layers} (parsed : w.Parsed v) (prefers : w.Prefers v)
    (parsed' : w.Parsed v') (prefers' : w.Prefers v') (language : v.language = v'.language)
    (range : v.range = v'.range) : v = v' := by
  induction parsed generalizing v' with
  | @layer v root _ _ _ ih =>
      cases parsed' with
      | layer root' _ _ below' =>
          obtain ⟨l, r, x, inner⟩ := v
          obtain ⟨l', r', x', inner'⟩ := v'
          dsimp only at language range root root' ih
          subst language range
          obtain rfl : x = x' := root.trans root'.symm
          congr 1
          funext path
          have same := prefers.inner_eq_inner prefers' rfl rfl path
          dsimp only at same
          cases there : inner path with
          | none =>
              rw [there] at same
              exact (Option.map_eq_none_iff.mp same.symm).symm
          | some u =>
              rw [there] at same
              obtain ⟨u', there', pair⟩ := Option.map_eq_some_iff.mp same.symm
              obtain ⟨languages, ranges⟩ := Prod.mk.inj pair
              rw [there', ih path u there (prefers.of_inner there) (below' path u' there')
                (prefers'.of_inner there') languages.symm ranges.symm]

/-- Parsed layers are those of a fresh parse when they prefer the first candidate. -/
theorem prefers_iff_eq {fresh : Layers} (parsed : w.Parsed v) (parsed' : w.Parsed fresh)
    (prefers' : w.Prefers fresh) (language : v.language = fresh.language)
    (range : v.range = fresh.range) : w.Prefers v ↔ v = fresh := by
  constructor
  · intro prefers
    exact parsed.unique prefers parsed' prefers' language range
  · rintro rfl
    exact prefers'

/-- Where the candidates at a place are in one language, there is no choice. -/
theorem Parsed.prefers {fresh : Layers} (parsed : w.Parsed v) (prefers' : w.Prefers fresh)
    (unambiguous : w.Unambiguous fresh) (language : v.language = fresh.language)
    (range : v.range = fresh.range) : w.Prefers v := by
  induction parsed generalizing fresh with
  | @layer v _ candidates covered _ ih =>
      cases unambiguous with
      | layer one below =>
          rw [← language, ← range] at one
          have first : ∀ path, (v.inner path).map (fun u => (u.language, u.range)) =
              (w.first? v.language v.range path).map fun c => (c.language, some c.range) := by
            intro path
            cases there : v.inner path with
            | some u =>
                obtain ⟨c, mem, rfl, covers, l, r⟩ := candidates path u there
                obtain ⟨c', found⟩ := exists_first? mem covers
                obtain ⟨mem', samePath, -⟩ := of_first? found
                rw [found, Option.map_some, Option.map_some, l, r, one c mem c' mem' samePath.symm,
                  range_eq_of_path mem mem' samePath.symm]
            | none =>
                cases found : w.first? v.language v.range path with
                | none => rfl
                | some c =>
                    obtain ⟨mem, rfl, covers⟩ := of_first? found
                    obtain ⟨c', mem', samePath, empty⟩ := covered c mem covers there
                    refine absurd ?_ empty
                    rw [Covers, one c' mem' c mem samePath, range_eq_of_path mem' mem samePath]
                    exact covers
          refine .layer first ?_
          intro path u there
          have same : (v.inner path).map (fun u => (u.language, u.range)) =
              (fresh.inner path).map fun u => (u.language, u.range) := by
            rw [first path, prefers'.inner_eq, language, range]
          rw [there] at same
          obtain ⟨u', there', pair⟩ := Option.map_eq_some_iff.mp same.symm
          obtain ⟨languages, ranges⟩ := Prod.mk.inj pair
          exact ih path u there (prefers'.of_inner there') (below path u' there') languages.symm
            ranges.symm

/-! ### Places filled in order -/

/-- What the places of a layer become when candidates are given layers in order, each one unless its
place has a layer or its tree covers nothing. -/
structure Filled (w : Setting) (cs : List Candidate) (inner inner' : List Nat → Option Layers) :
    Prop where
  kept : ∀ path u, inner path = some u → inner' path = some u
  first : ∀ path, inner path = none → (inner' path).map (fun u => (u.language, u.range)) =
    (cs.find? fun c => c.path = path ∧ w.Covers c).map fun c => (c.language, some c.range)
  parsed : ∀ path u, inner path = none → inner' path = some u → w.Parsed u ∧ w.Prefers u

namespace Filled

variable {c : Candidate} {cs cs' : List Candidate} {inner inner₁ inner' : List Nat → Option Layers}

theorem nil (w : Setting) (inner : List Nat → Option Layers) : w.Filled [] inner inner where
  kept := fun _ _ there => there
  first := by
    intro path free
    rw [free]
    rfl
  parsed := by
    intro path u free there
    rw [free] at there
    cases there

theorem append (front : w.Filled cs inner inner₁) (rest : w.Filled cs' inner₁ inner') :
    w.Filled (cs ++ cs') inner inner' := by
  refine ⟨fun path u there => rest.kept path u (front.kept path u there), ?_, ?_⟩
  · intro path free
    have here := front.first path free
    rw [List.find?_append]
    cases taken : inner₁ path with
    | some u =>
        rw [taken, Option.map_some] at here
        obtain ⟨c, found, same⟩ := Option.map_eq_some_iff.mp here.symm
        rw [rest.kept path u taken, found, Option.some_or, Option.map_some, Option.map_some, same]
    | none =>
        rw [taken, Option.map_none] at here
        rw [Option.map_eq_none_iff.mp here.symm, Option.none_or]
        exact rest.first path taken
  · intro path u free there
    cases here : inner₁ path with
    | none => exact rest.parsed path u here there
    | some u' =>
        obtain rfl : u' = u := Option.some.inj ((rest.kept path u' here).symm.trans there)
        exact front.parsed path u' free here

/-- A candidate is passed over. -/
theorem skip (passed : inner c.path = none → ¬w.Covers c) : w.Filled [c] inner inner where
  kept := fun _ _ there => there
  first := by
    intro path free
    rw [free, List.find?_cons]
    by_cases here : c.path = path
    · subst here
      simp [passed free]
    · simp [here]
  parsed := by
    intro path u free there
    rw [free] at there
    cases there

/-- A candidate gets a layer. -/
theorem put (free : inner c.path = none) (covers : w.Covers c) (language : u.language = c.language)
    (range : u.range = some c.range) (parsed : w.Parsed u) (prefers : w.Prefers u) :
    w.Filled [c] inner fun path => if path = c.path then some u else inner path where
  kept := by
    intro path u' there
    have elsewhere : path ≠ c.path := by
      rintro rfl
      rw [free] at there
      cases there
    rw [if_neg elsewhere, there]
  first := by
    intro path vacant
    by_cases here : path = c.path
    · subst here
      simp [covers, language, range]
    · simp [here, Ne.symm here, vacant]
  parsed := by
    intro path u' vacant there
    by_cases here : path = c.path
    · rw [if_pos here] at there
      obtain rfl := Option.some.inj there
      exact ⟨parsed, prefers⟩
    · rw [if_neg here, vacant] at there
      cases there

/-- A layer all of whose candidates were given layers in order is one of a fresh parse. -/
theorem complete (root : v.root = w.parsed v.language v.range)
    (filled : w.Filled (w.candidates v.language v.range) (fun _ => none) v.inner) :
    w.Parsed v ∧ w.Prefers v := by
  have first : ∀ path, (v.inner path).map (fun u => (u.language, u.range)) =
      (w.first? v.language v.range path).map fun c => (c.language, some c.range) := by
    intro path
    exact filled.first path rfl
  refine ⟨.layer root ?_ ?_ fun path u there => (filled.parsed path u rfl there).1,
    .layer first fun path u there => (filled.parsed path u rfl there).2⟩
  · intro path u there
    have here := first path
    rw [there, Option.map_some] at here
    obtain ⟨c, found, same⟩ := Option.map_eq_some_iff.mp here.symm
    obtain ⟨language, range⟩ := Prod.mk.inj same
    obtain ⟨mem, at?, covers⟩ := of_first? found
    exact ⟨c, mem, at?, covers, language.symm, range.symm⟩
  · intro c mem covers free
    have here := first c.path
    obtain ⟨c', found⟩ := exists_first? mem covers
    rw [free, found] at here
    cases here

end Filled

/-- What the places of a layer become when candidates are given layers in some order. -/
structure Added (w : Setting) (cs : List Candidate) (inner inner' : List Nat → Option Layers) :
    Prop where
  origin : ∀ path u, inner' path = some u → inner path = some u ∨
    ∃ c ∈ cs, c.path = path ∧ w.Covers c ∧ u.language = c.language ∧ u.range = some c.range ∧
      w.Parsed u
  vacant : ∀ path, inner' path = none → inner path = none ∧
    ∀ c ∈ cs, c.path = path → ¬w.Covers c

namespace Added

variable {c : Candidate} {cs cs' : List Candidate}
  {inner inner₁ inner' : List Nat → Option Layers}

theorem nil (w : Setting) (inner : List Nat → Option Layers) : w.Added [] inner inner where
  origin := fun _ _ there => .inl there
  vacant := fun _ free => ⟨free, fun _ mem => absurd mem List.not_mem_nil⟩

theorem append (first : w.Added cs inner inner₁) (second : w.Added cs' inner₁ inner') :
    w.Added (cs ++ cs') inner inner' where
  origin := by
    intro path u there
    rcases second.origin path u there with there | ⟨c, mem, holds⟩
    · rcases first.origin path u there with there | ⟨c, mem, holds⟩
      · exact .inl there
      · exact .inr ⟨c, List.mem_append_left _ mem, holds⟩
    · exact .inr ⟨c, List.mem_append_right _ mem, holds⟩
  vacant := by
    intro path free
    obtain ⟨free₁, empty'⟩ := second.vacant path free
    obtain ⟨free₀, empty⟩ := first.vacant path free₁
    refine ⟨free₀, fun c mem here => ?_⟩
    rcases List.mem_append.mp mem with mem | mem
    · exact empty c mem here
    · exact empty' c mem here

/-- The tree of a candidate covers nothing. -/
theorem skip (empty : ¬w.Covers c) : w.Added [c] inner inner where
  origin := fun _ _ there => .inl there
  vacant := by
    intro path free
    refine ⟨free, fun c' mem _ => ?_⟩
    obtain rfl := List.mem_singleton.mp mem
    exact empty

/-- A candidate gets a layer. -/
theorem put (free : inner c.path = none) (covers : w.Covers c) (language : u.language = c.language)
    (range : u.range = some c.range) (parsed : w.Parsed u) :
    w.Added [c] inner fun path => if path = c.path then some u else inner path where
  origin := by
    intro path u' there
    by_cases here : path = c.path
    · rw [if_pos here] at there
      obtain rfl := Option.some.inj there
      exact .inr ⟨c, List.mem_singleton_self c, here.symm, covers, language, range, parsed⟩
    · rw [if_neg here] at there
      exact .inl there
  vacant := by
    intro path there
    by_cases here : path = c.path
    · rw [if_pos here] at there
      cases there
    · rw [if_neg here] at there
      refine ⟨there, fun c' mem at? => ?_⟩
      obtain rfl := List.mem_singleton.mp mem
      exact absurd at?.symm here

/-- A layer all of whose places were given layers is parsed. -/
theorem complete (root : v.root = w.parsed v.language v.range)
    (added : w.Added cs (fun _ => none) v.inner)
    (among : ∀ c ∈ cs, c ∈ w.candidates v.language v.range)
    (every : ∀ c ∈ w.candidates v.language v.range, ∃ c' ∈ cs, c'.path = c.path) : w.Parsed v := by
  have origin : ∀ path u, v.inner path = some u → ∃ c ∈ w.candidates v.language v.range,
      c.path = path ∧ w.Covers c ∧ u.language = c.language ∧ u.range = some c.range ∧
        w.Parsed u := by
    intro path u there
    rcases added.origin path u there with nothing | ⟨c, mem, holds⟩
    · cases nothing
    · exact ⟨c, among c mem, holds⟩
  refine .layer root ?_ ?_ ?_
  · intro path u there
    obtain ⟨c, mem, here, covers, language, range, -⟩ := origin path u there
    exact ⟨c, mem, here, covers, language, range⟩
  · intro c mem _ free
    obtain ⟨c', mem', here⟩ := every c mem
    exact ⟨c', among c' mem', here, (added.vacant c.path free).2 c' mem' here⟩
  · intro path u there
    obtain ⟨-, -, -, -, -, -, parsed⟩ := origin path u there
    exact parsed

end Added

/-- The order left aside. -/
theorem Filled.added {cs : List Candidate} {inner inner' : List Nat → Option Layers}
    (filled : w.Filled cs inner inner') : w.Added cs inner inner' where
  origin := by
    intro path u there
    cases before : inner path with
    | some u' =>
        obtain rfl : u' = u := Option.some.inj ((filled.kept path u' before).symm.trans there)
        exact .inl rfl
    | none =>
        have here := filled.first path before
        rw [there, Option.map_some] at here
        obtain ⟨c, found, same⟩ := Option.map_eq_some_iff.mp here.symm
        obtain ⟨language, range⟩ := Prod.mk.inj same
        have holds := List.find?_some found
        simp only [decide_eq_true_eq] at holds
        exact .inr ⟨c, List.mem_of_find?_eq_some found, holds.1, holds.2, language.symm, range.symm,
          (filled.parsed path u before there).1⟩
  vacant := by
    intro path free
    cases before : inner path with
    | some u =>
        rw [filled.kept path u before] at free
        cases free
    | none =>
        refine ⟨rfl, fun c mem here covers => ?_⟩
        have missed := filled.first path before
        rw [free] at missed
        have unseen := List.find?_eq_none.mp (Option.map_eq_none_iff.mp missed.symm) c mem
        simp [here, covers] at unseen

end Setting

end CodeEditor.Layer
