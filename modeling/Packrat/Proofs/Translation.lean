import Packrat.Proofs.Nonterminals
import Packrat.Proofs.Outcome
import Packrat.Proofs.Scoping
import Packrat.Proofs.Shape
import Packrat.Source.Compile

/-!
# `Packrat.Proofs.Translation` — grammar sources fail with documented errors

The tree of a grammar source is made of untyped values. What its parts look like can be read off the grammar
of grammar sources (`Packrat.Proofs.Shape`), and this is what the translation relies on: it finds every field
that it looks for, with a value of the kind that it expects. So what is left to go wrong is a mistake in the
source, or a source that is nested too deeply.

## Contents
- **Trees.** `treeSchema`: what the values of `metaGrammar` look like.
- **Documented answers.** `Documented`: an answer, or a grammar error.
- **Access.** Fields that a schema promises are there.
- **Translating.** Every function of `Packrat.Source.Translate` answers in a documented way.
- **Compiling.** `parse_fits`, `parseSource_fits` and `compile_documented`.
-/

namespace Packrat.Source

variable {α β γ : Type}

/-! ## Trees -/

/-- The shape of the values of a rule. -/
def ruleShape (name : String) : Shape := .rule (Bytes.ascii name)

/-- The shape of a node with the given fields. -/
def nodeShape (tag : String) (fields : List (String × Shape)) : Shape :=
  .node (Bytes.ascii tag) (fields.map fun (name, s) => (Bytes.ascii name, s))

/-- What the trees of grammar sources look like. -/
def treeSchema : Schema :=
  [("Grammar", nodeShape "Grammar"
      [("lets", .list false (ruleShape "Let")), ("defs", .list true (ruleShape "Definition"))]),
    ("Let", nodeShape "Let" [("name", ruleShape "Identifier"), ("target", ruleShape "QualifiedName")]),
    ("Definition", nodeShape "Definition"
      [("name", ruleShape "Identifier"), ("arrow", ruleShape "Arrow"), ("body", ruleShape "Expression")]),
    ("Expression", nodeShape "Expression"
      [("first", ruleShape "Sequence"), ("rest", .list false (ruleShape "Sequence"))]),
    ("Sequence", nodeShape "Sequence" [("items", .list false (ruleShape "Item"))]),
    ("Item", nodeShape "Item"
      [("prefix", .option (ruleShape "Prefix")), ("binder", .option (ruleShape "Binder")),
        ("primary", ruleShape "Primary"), ("suffix", .option (ruleShape "Suffix"))]),
    ("Prefix", .text),
    ("Suffix", .text),
    ("Binder", .oneOf [ruleShape "AutoBind", ruleShape "Label"]),
    ("AutoBind", nodeShape "AutoBind" [("value", .text)]),
    ("Label", nodeShape "Label" [("name", ruleShape "IdentText")]),
    ("Primary", .oneOf [ruleShape "Call", ruleShape "Parenthesized", ruleShape "Literal", ruleShape "Class",
      ruleShape "Dot", ruleShape "Embedded"]),
    ("Call", nodeShape "Call" [("at", .option .text), ("name", ruleShape "QualifiedName")]),
    ("Parenthesized", nodeShape "Parenthesized" [("body", ruleShape "Expression")]),
    ("Literal", .oneOf
      [nodeShape "Literal"
          [("parts", .list false (ruleShape "SingleQuoted")), ("caseless", ruleShape "CaseFlag")],
        nodeShape "Literal"
          [("parts", .list false (ruleShape "DoubleQuoted")), ("caseless", ruleShape "CaseFlag")]]),
    ("SingleQuoted", ruleShape "LiteralPart"),
    ("DoubleQuoted", ruleShape "LiteralPart"),
    ("LiteralPart", .oneOf
      [ruleShape "Interpolation", ruleShape "StrayBrace", ruleShape "Escape", ruleShape "Plain"]),
    ("Interpolation", nodeShape "Interpolation" [("code", ruleShape "HostExpr")]),
    ("StrayBrace", nodeShape "StrayBrace" [("value", .text)]),
    ("Escape", .oneOf [.text, .text]),
    ("Plain", .text),
    ("CaseFlag", .text),
    ("Class", nodeShape "Class" [("body", ruleShape "ClassBody"), ("caseless", ruleShape "CaseFlag")]),
    ("ClassBody", .text),
    ("Dot", nodeShape "Dot" [("value", .text)]),
    ("Embedded", nodeShape "Embedded" [("code", ruleShape "HostExpr")]),
    ("HostExpr", .oneOf [ruleShape "HostCall", ruleShape "HostString", ruleShape "HostInteger",
      ruleShape "HostMatch", ruleShape "HostName"]),
    ("HostCall", nodeShape "HostCall"
      [("name", ruleShape "QualifiedName"), ("args", .option (ruleShape "HostArgs"))]),
    ("HostArgs", nodeShape ""
      [("first", ruleShape "HostExpr"), ("rest", .list false (ruleShape "HostExpr"))]),
    ("HostString", nodeShape "HostString" [("text", ruleShape "HostText")]),
    ("HostText", .text),
    ("HostInteger", nodeShape "HostInteger" [("digits", .text)]),
    ("HostMatch", nodeShape "HostMatch" [("value", .text)]),
    ("HostName", nodeShape "HostName" [("name", ruleShape "Identifier")]),
    ("Arrow", .oneOf [.text, .text]),
    ("Identifier", ruleShape "IdentText"),
    ("QualifiedName", .text),
    ("IdentText", .text),
    ("IdentChar", .text),
    ("S", .text),
    ("EndOfFile", .text)].map fun (name, s) => (Bytes.ascii name, s)

/-- The schema is what can be read off the rules. -/
theorem schema_metaGrammar : metaGrammar.schema? = some treeSchema := by
  rw [Nonterminal.metaGrammar_eq]
  rfl

theorem nodup_treeSchema : (treeSchema.map (·.1)).Nodup := by decide +kernel

/-- A value is a tree of the given rule. -/
def IsTree (name : String) (x : Spanned Value) : Prop := HasShape treeSchema (ruleShape name) x.value

/-- The value of a rule has the shape of the rule. -/
theorem shape_of_rule {name : String} {s : Shape} {v : Value}
    (h : HasShape treeSchema (ruleShape name) v) (hentry : findEntry (Bytes.ascii name) treeSchema = some s) :
    HasShape treeSchema s v := by
  cases h with
  | rule hentry' h =>
    rw [hentry] at hentry'
    cases hentry'
    exact h

/-- The value of a choice has one of its shapes. -/
theorem shape_of_choice {shapes : List Shape} {v : Value} (h : HasShape treeSchema (.oneOf shapes) v) :
    ∃ s ∈ shapes, HasShape treeSchema s v := by
  cases h with
  | oneOf hmem h => exact ⟨_, hmem, h⟩

/-- The value of a rule that makes nodes is a node. -/
theorem node_of_rule {name : String} {tag : Bytes} {shapes : List (Bytes × Shape)} {v : Value}
    (h : HasShape treeSchema (ruleShape name) v)
    (hentry : findEntry (Bytes.ascii name) treeSchema = some (.node tag shapes)) :
    ∃ fields, v = .node tag fields ∧ HaveShapes treeSchema shapes fields := by
  cases shape_of_rule h hentry with
  | node hfields => exact ⟨_, rfl, hfields⟩

/-- Whether the values of a shape are texts, looking into at most so many rules. -/
def isTextual : Nat → Shape → Bool
  | _, .text => true
  | fuel + 1, .rule name =>
    match findEntry name treeSchema with
    | some s => isTextual fuel s
    | none => false
  | fuel + 1, .oneOf shapes => shapes.all (isTextual fuel)
  | _, _ => false

theorem text_of_shape (fuel : Nat) {s : Shape} {v : Value} (htextual : isTextual fuel s = true)
    (h : HasShape treeSchema s v) : ∃ t, v = .text t := by
  induction fuel generalizing s with
  | zero =>
    cases h with
    | text => exact ⟨_, rfl⟩
    | _ => cases htextual
  | succ fuel ih =>
    cases h with
    | text => exact ⟨_, rfl⟩
    | rule hentry h =>
      unfold isTextual at htextual
      rw [hentry] at htextual
      exact ih htextual h
    | oneOf hmem h =>
      unfold isTextual at htextual
      exact ih (List.all_eq_true.mp htextual _ hmem) h
    | _ => cases htextual

/-! ## Documented answers -/

/-- An answer that satisfies `Q`, or a grammar error. -/
def Documented (x : Except Fault β) (Q : β → Prop) : Prop :=
  match x with
  | .ok b => Q b
  | .error f => ∃ e, f = .grammar e

namespace Documented

variable {x : Except Fault β} {Q : β → Prop} {R : γ → Prop}

theorem pure {b : β} (hb : Q b) : Documented (Pure.pure b) Q := hb

theorem grammar (e : GrammarError) : Documented (throw (.grammar e)) Q := ⟨e, rfl⟩

theorem bind {k : β → Except Fault γ} (hx : Documented x Q) (hk : ∀ b, Q b → Documented (k b) R) :
    Documented (x >>= k) R := by
  cases x with
  | ok b => exact hk b hx
  | error f => exact hx

theorem weaken {Q' : β → Prop} (hx : Documented x Q) (hQ : ∀ b, Q b → Q' b) : Documented x Q' := by
  cases x with
  | ok b => exact hQ b hx
  | error f => exact hx

/-- A translation of every element of a list. -/
theorem mapM {f : β → Except Fault γ} (xs : List β) (hf : ∀ x ∈ xs, Documented (f x) (fun _ => True)) :
    Documented (xs.mapM f) (fun ys => ys.length = xs.length) := by
  induction xs with
  | nil => exact pure rfl
  | cons x rest ih =>
    rw [List.mapM_cons]
    refine (hf x List.mem_cons_self).bind fun y _ => ?_
    refine (ih fun x' hx' => hf x' (List.mem_cons_of_mem x hx')).bind fun ys hys => ?_
    refine pure ?_
    rw [List.length_cons, List.length_cons, hys]

/-- An addition of every element of a list. -/
theorem foldlM {f : γ → β → Except Fault γ} (xs : List β) (c : γ)
    (hf : ∀ c, ∀ x ∈ xs, Documented (f c x) (fun _ => True)) :
    Documented (xs.foldlM f c) (fun _ => True) := by
  induction xs generalizing c with
  | nil => exact pure trivial
  | cons x rest ih =>
    rw [List.foldlM_cons]
    refine (hf c x List.mem_cons_self).bind fun c' _ => ?_
    exact ih c' fun c'' x' hx' => hf c'' x' (List.mem_cons_of_mem x hx')

end Documented

/-! ## Access -/

section Access

variable {shapes : List (Bytes × Shape)} {fields : List Field} {name : String}
  (hfields : HaveShapes treeSchema shapes fields)

include hfields

/-- A field of the schema is there, and less deep than its node. -/
theorem part_documented {s : Shape} (hs : findEntry (Bytes.ascii name) shapes = some s) :
    Documented (part fields name) fun x =>
      HasShape treeSchema s x.value ∧ x.value.depth ≤ Value.fieldsDepth fields := by
  obtain ⟨x, hx, hshape⟩ := hfields.find hs
  unfold part Value.fieldIn
  rw [hx]
  exact ⟨hshape, Value.depth_le_fieldsDepth hx⟩

theorem textPart_documented {s : Shape} (hs : findEntry (Bytes.ascii name) shapes = some s)
    (htextual : isTextual 3 s = true) : Documented (textPart fields name) (fun _ => True) := by
  unfold textPart
  refine (part_documented hfields hs).bind fun x hx => ?_
  obtain ⟨t, ht⟩ := text_of_shape 3 htextual hx.1
  rw [ht]
  exact trivial

theorem truthyPart_documented {s : Shape} (hs : findEntry (Bytes.ascii name) shapes = some s) :
    Documented (truthyPart fields name) (fun _ => True) := by
  unfold truthyPart
  exact (part_documented hfields hs).bind fun x _ => Documented.pure trivial

theorem listPart_documented {nonempty : Bool} {s : Shape}
    (hs : findEntry (Bytes.ascii name) shapes = some (.list nonempty s)) :
    Documented (listPart fields name) fun elements => (nonempty = true → elements ≠ []) ∧
      ∀ x ∈ elements, HasShape treeSchema s x.value ∧ x.value.depth ≤ Value.fieldsDepth fields := by
  unfold listPart
  refine (part_documented hfields hs).bind fun x hx => ?_
  obtain ⟨v, start, stop⟩ := x
  obtain ⟨hshape, hdepth⟩ := hx
  cases hshape with
  | @list _ _ elements hsome helements =>
    refine ⟨hsome, ?_⟩
    intro y hy
    have hle : y.value.depth ≤ Value.elementsDepth elements := Value.depth_le_elementsDepth hy
    have hlist : Value.elementsDepth elements + 1 ≤ Value.fieldsDepth fields := hdepth
    exact ⟨helements y hy, by omega⟩

theorem optionPart_documented {s : Shape}
    (hs : findEntry (Bytes.ascii name) shapes = some (.option s)) :
    Documented (optionPart fields name) fun content => ∀ x, content = some x →
      HasShape treeSchema s x.value ∧ x.value.depth ≤ Value.fieldsDepth fields := by
  unfold optionPart
  refine (part_documented hfields hs).bind fun x hx => ?_
  obtain ⟨v, start, stop⟩ := x
  obtain ⟨hshape, hdepth⟩ := hx
  cases hshape with
  | absent =>
    intro y hy
    cases hy
  | @present _ content h =>
    intro y hy
    cases hy
    obtain ⟨v', start', stop'⟩ := content
    have hoption : v'.depth + 1 ≤ Value.fieldsDepth fields := hdepth
    refine ⟨h, ?_⟩
    show v'.depth ≤ Value.fieldsDepth fields
    omega

end Access

/-- A node has a tag and fields. -/
theorem asNode_documented {v : Value} {tag : Bytes} {fields : List Field} (hv : v = .node tag fields) :
    Documented v.asNode (fun p => p = (tag, fields)) := by
  rw [hv]
  exact rfl

/-! ## Translating -/

section Translating

variable (scope : Scope)

/-- Host code is translated, by induction on a bound of its depth. -/
theorem translateHost_documented (depth : Nat) {x : Spanned Value} (hx : IsTree "HostExpr" x)
    (hdepth : x.value.depth ≤ depth) :
    Documented (translateHost scope depth x : Except Fault (Host α)) (fun _ => True) := by
  induction depth generalizing x with
  | zero =>
    have hpos := Value.depth_pos x.value
    omega
  | succ depth ih =>
    unfold translateHost
    obtain ⟨s, hmem, hs⟩ := shape_of_choice (shape_of_rule hx rfl)
    simp only [List.mem_cons, List.not_mem_nil, or_false] at hmem
    rcases hmem with hcall | hstring | hinteger | hmatch | hname
    · -- a call, with arguments that are less deep
      subst hcall
      obtain ⟨fields, hv, hfields⟩ := node_of_rule hs rfl
      have hlevel : Value.fieldsDepth fields ≤ depth := by
        rw [hv] at hdepth
        exact Nat.le_of_succ_le_succ hdepth
      refine (asNode_documented hv).bind fun p hp => ?_
      subst hp
      simp only
      rw [if_pos (by decide)]
      refine (textPart_documented hfields rfl rfl).bind fun name _ => ?_
      refine (optionPart_documented hfields rfl).bind fun args hargs => ?_
      cases args with
      | none => exact Documented.pure trivial
      | some args =>
        obtain ⟨hshape, hargsDepth⟩ := hargs args rfl
        obtain ⟨argFields, hargsValue, hargFields⟩ := node_of_rule hshape rfl
        have hargLevel : Value.fieldsDepth argFields ≤ depth := by
          rw [hargsValue] at hargsDepth
          have hsucc : Value.fieldsDepth argFields + 1 ≤ Value.fieldsDepth fields := hargsDepth
          omega
        simp only
        refine (asNode_documented hargsValue).bind fun p hp => ?_
        subst hp
        refine (part_documented hargFields rfl).bind fun first hfirst => ?_
        refine (ih hfirst.1 (Nat.le_trans hfirst.2 hargLevel)).bind fun _ _ => ?_
        refine (listPart_documented hargFields rfl).bind fun rest hrest => ?_
        refine (Documented.mapM rest fun y hy => ?_).bind fun _ _ => Documented.pure trivial
        exact ih (hrest.2 y hy).1 (Nat.le_trans (hrest.2 y hy).2 hargLevel)
    · subst hstring
      obtain ⟨fields, hv, hfields⟩ := node_of_rule hs rfl
      refine (asNode_documented hv).bind fun p hp => ?_
      subst hp
      simp only
      rw [if_neg (by decide), if_pos (by decide)]
      exact (textPart_documented hfields rfl rfl).bind fun _ _ => Documented.pure trivial
    · subst hinteger
      obtain ⟨fields, hv, hfields⟩ := node_of_rule hs rfl
      refine (asNode_documented hv).bind fun p hp => ?_
      subst hp
      simp only
      rw [if_neg (by decide), if_neg (by decide), if_pos (by decide)]
      refine (textPart_documented hfields rfl rfl).bind fun digits _ => ?_
      cases Decimal.int64? digits with
      | none => exact Documented.grammar _
      | some n => exact Documented.pure trivial
    · subst hmatch
      obtain ⟨fields, hv, hfields⟩ := node_of_rule hs rfl
      refine (asNode_documented hv).bind fun p hp => ?_
      subst hp
      simp only
      rw [if_neg (by decide), if_neg (by decide), if_neg (by decide), if_pos (by decide)]
      exact Documented.pure trivial
    · subst hname
      obtain ⟨fields, hv, hfields⟩ := node_of_rule hs rfl
      refine (asNode_documented hv).bind fun p hp => ?_
      subst hp
      simp only
      rw [if_neg (by decide), if_neg (by decide), if_neg (by decide), if_neg (by decide)]
      exact (textPart_documented hfields rfl rfl).bind fun _ _ => Documented.pure trivial

theorem hostOf_documented {x : Spanned Value} (hx : IsTree "HostExpr" x) :
    Documented (hostOf scope x : Except Fault (Host α)) (fun _ => True) :=
  translateHost_documented scope x.value.depth hx (Nat.le_refl _)

/-- A part of a literal is a text, a stray brace or an interpolation. -/
theorem literalPart_cases {x : Spanned Value} (hx : IsTree "LiteralPart" x) :
    (∃ t, x.value = .text t) ∨ (∃ fields, x.value = .node (Bytes.ascii "StrayBrace") fields) ∨
      ∃ fields, x.value = .node (Bytes.ascii "Interpolation") fields ∧
        HaveShapes treeSchema [(Bytes.ascii "code", ruleShape "HostExpr")] fields := by
  obtain ⟨s, hmem, hs⟩ := shape_of_choice (shape_of_rule hx rfl)
  simp only [List.mem_cons, List.not_mem_nil, or_false] at hmem
  rcases hmem with hcode | hbrace | hescape | hplain
  · subst hcode
    obtain ⟨fields, hv, hfields⟩ := node_of_rule hs rfl
    exact .inr (.inr ⟨fields, hv, hfields⟩)
  · subst hbrace
    obtain ⟨fields, hv, _⟩ := node_of_rule hs rfl
    exact .inr (.inl ⟨fields, hv⟩)
  · subst hescape
    exact .inl (text_of_shape 3 rfl hs)
  · subst hplain
    exact .inl (text_of_shape 3 rfl hs)

theorem literalSegments_documented (spelling : Bytes) (parts : List (Spanned Value))
    (hparts : ∀ x ∈ parts, IsTree "LiteralPart" x) :
    Documented (literalSegments scope spelling parts : Except Fault (Bool × Bytes × List (Segment α)))
      (fun _ => True) := by
  induction parts generalizing spelling with
  | nil => exact trivial
  | cons x rest ih =>
    have hrest : ∀ y ∈ rest, IsTree "LiteralPart" y := fun y hy => hparts y (List.mem_cons_of_mem x hy)
    unfold literalSegments
    rcases literalPart_cases (hparts x List.mem_cons_self) with
      ⟨t, ht⟩ | ⟨fields, hv⟩ | ⟨fields, hv, hfields⟩
    · rw [ht]
      exact ih (spelling ++ t) hrest
    · rw [hv]
      simp only [Value.isTagged]
      rw [if_pos (by decide)]
      exact Documented.grammar _
    · rw [hv]
      simp only [Value.isTagged]
      rw [if_neg (by decide)]
      split
      · exact Documented.grammar _
      · refine (asNode_documented rfl).bind fun p hp => ?_
        subst hp
        refine (part_documented hfields rfl).bind fun code hcode => ?_
        refine (hostOf_documented scope hcode.1).bind fun _ _ => ?_
        exact (ih [] hrest).bind fun _ _ => Documented.pure trivial

/-- The two ways to quote a literal make the same trees. -/
theorem literal_fields {v : Value} (h : HasShape treeSchema (ruleShape "Literal") v) :
    ∃ fields s, v = .node (Bytes.ascii "Literal") fields ∧
      HaveShapes treeSchema [(Bytes.ascii "parts", .list false s),
        (Bytes.ascii "caseless", ruleShape "CaseFlag")] fields ∧
      ∀ v', HasShape treeSchema s v' → HasShape treeSchema (ruleShape "LiteralPart") v' := by
  obtain ⟨s, hmem, hs⟩ := shape_of_choice (shape_of_rule h rfl)
  simp only [List.mem_cons, List.not_mem_nil, or_false] at hmem
  rcases hmem with hsingle | hdouble
  · subst hsingle
    cases hs with
    | node hfields => exact ⟨_, _, rfl, hfields, fun v' hv' => shape_of_rule hv' rfl⟩
  · subst hdouble
    cases hs with
    | node hfields => exact ⟨_, _, rfl, hfields, fun v' hv' => shape_of_rule hv' rfl⟩

theorem translateLookahead_documented {shapes : List (Bytes × Shape)} {fields : List Field}
    (hfields : HaveShapes treeSchema shapes fields)
    (hs : findEntry (Bytes.ascii "prefix") shapes = some (.option (ruleShape "Prefix"))) :
    Documented (translateLookahead fields) (fun _ => True) := by
  unfold translateLookahead
  refine (optionPart_documented hfields hs).bind fun content hcontent => ?_
  cases content with
  | none => exact Documented.pure trivial
  | some x =>
    obtain ⟨t, ht⟩ := text_of_shape 3 rfl (hcontent x rfl).1
    simp only [ht]
    exact Documented.pure trivial

theorem translateRepetition_documented {shapes : List (Bytes × Shape)} {fields : List Field}
    (hfields : HaveShapes treeSchema shapes fields)
    (hs : findEntry (Bytes.ascii "suffix") shapes = some (.option (ruleShape "Suffix"))) :
    Documented (translateRepetition fields) (fun _ => True) := by
  unfold translateRepetition
  refine (optionPart_documented hfields hs).bind fun content hcontent => ?_
  cases content with
  | none => exact Documented.pure trivial
  | some x =>
    obtain ⟨t, ht⟩ := text_of_shape 3 rfl (hcontent x rfl).1
    simp only [ht]
    exact Documented.pure trivial

theorem translateBinder_documented {shapes : List (Bytes × Shape)} {fields : List Field}
    (hfields : HaveShapes treeSchema shapes fields)
    (hs : findEntry (Bytes.ascii "binder") shapes = some (.option (ruleShape "Binder"))) :
    Documented (translateBinder fields) (fun _ => True) := by
  unfold translateBinder
  refine (optionPart_documented hfields hs).bind fun content hcontent => ?_
  cases content with
  | none => exact Documented.pure trivial
  | some x =>
    obtain ⟨s, hmem, hs'⟩ := shape_of_choice (shape_of_rule (hcontent x rfl).1 rfl)
    simp only [List.mem_cons, List.not_mem_nil, or_false] at hmem
    rcases hmem with hauto | hlabel
    · subst hauto
      obtain ⟨_, hv, _⟩ := node_of_rule hs' rfl
      simp only [hv, Value.isTagged]
      rw [if_pos (by decide)]
      exact Documented.pure trivial
    · subst hlabel
      obtain ⟨labelFields, hv, hlabelFields⟩ := node_of_rule hs' rfl
      simp only [hv, Value.isTagged]
      rw [if_neg (by decide)]
      refine (asNode_documented rfl).bind fun p hp => ?_
      subst hp
      exact (textPart_documented hlabelFields rfl rfl).bind fun _ _ => Documented.pure trivial

section Expressions

variable {expression : Spanned Value → Except Fault (Expr α)} {depth : Nat}
  (hexpression : ∀ x, IsTree "Expression" x → x.value.depth ≤ depth →
    Documented (expression x) (fun _ => True))

include hexpression

theorem translateBody_documented {x : Spanned Value} (hx : IsTree "Primary" x)
    (hdepth : x.value.depth ≤ depth) :
    Documented (translateBody scope expression x) (fun _ => True) := by
  unfold translateBody
  obtain ⟨s, hmem, hs⟩ := shape_of_choice (shape_of_rule hx rfl)
  simp only [List.mem_cons, List.not_mem_nil, or_false] at hmem
  rcases hmem with hcall | hgroup | hliteral | hclass | hdot | hcode
  · subst hcall
    obtain ⟨fields, hv, hfields⟩ := node_of_rule hs rfl
    refine (asNode_documented hv).bind fun p hp => ?_
    subst hp
    simp only
    rw [if_pos (by decide)]
    refine (textPart_documented hfields rfl rfl).bind fun _ _ => ?_
    exact (optionPart_documented hfields rfl).bind fun _ _ => Documented.pure trivial
  · subst hgroup
    obtain ⟨fields, hv, hfields⟩ := node_of_rule hs rfl
    -- the only body with an expression inside, which is less deep
    rw [hv] at hdepth
    have hlevel : Value.fieldsDepth fields + 1 ≤ depth := hdepth
    refine (asNode_documented hv).bind fun p hp => ?_
    subst hp
    simp only
    rw [if_neg (by decide), if_pos (by decide)]
    refine (part_documented hfields rfl).bind fun body hbody => ?_
    exact (hexpression body hbody.1 (by omega)).bind fun _ _ => Documented.pure trivial
  · subst hliteral
    obtain ⟨fields, s, hv, hfields, hpart⟩ := literal_fields hs
    refine (asNode_documented hv).bind fun p hp => ?_
    subst hp
    simp only
    rw [if_neg (by decide), if_neg (by decide), if_pos (by decide)]
    unfold translateLiteral
    refine (truthyPart_documented hfields rfl).bind fun caseless _ => ?_
    refine (listPart_documented hfields rfl).bind fun parts hparts => ?_
    refine (literalSegments_documented scope [] parts fun y hy => hpart _ (hparts.2 y hy).1).bind
      fun r _ => ?_
    simp only
    split
    · exact Documented.pure trivial
    · exact Documented.pure trivial
  · subst hclass
    obtain ⟨fields, hv, hfields⟩ := node_of_rule hs rfl
    refine (asNode_documented hv).bind fun p hp => ?_
    subst hp
    simp only
    rw [if_neg (by decide), if_neg (by decide), if_neg (by decide), if_pos (by decide)]
    refine (textPart_documented hfields rfl rfl).bind fun body _ => ?_
    refine (truthyPart_documented hfields rfl).bind fun caseless _ => ?_
    cases CharClass.parse? body caseless with
    | ok cls => exact Documented.pure trivial
    | error issue => exact Documented.grammar _
  · subst hdot
    obtain ⟨fields, hv, hfields⟩ := node_of_rule hs rfl
    refine (asNode_documented hv).bind fun p hp => ?_
    subst hp
    simp only
    rw [if_neg (by decide), if_neg (by decide), if_neg (by decide), if_neg (by decide),
      if_pos (by decide)]
    exact Documented.pure trivial
  · subst hcode
    obtain ⟨fields, hv, hfields⟩ := node_of_rule hs rfl
    refine (asNode_documented hv).bind fun p hp => ?_
    subst hp
    simp only
    rw [if_neg (by decide), if_neg (by decide), if_neg (by decide), if_neg (by decide),
      if_neg (by decide)]
    refine (part_documented hfields rfl).bind fun code hcode => ?_
    exact (hostOf_documented scope hcode.1).bind fun _ _ => Documented.pure trivial

theorem translateItem_documented {x : Spanned Value} (hx : IsTree "Item" x)
    (hdepth : x.value.depth ≤ depth) :
    Documented (translateItem scope expression x) (fun _ => True) := by
  unfold translateItem
  obtain ⟨fields, hv, hfields⟩ := node_of_rule hx rfl
  rw [hv] at hdepth
  have hlevel : Value.fieldsDepth fields + 1 ≤ depth := hdepth
  refine (asNode_documented hv).bind fun p hp => ?_
  subst hp
  refine (translateLookahead_documented hfields rfl).bind fun _ _ => ?_
  refine (translateBinder_documented hfields rfl).bind fun _ _ => ?_
  refine (part_documented hfields rfl).bind fun body hbody => ?_
  refine (translateBody_documented scope hexpression hbody.1 (by omega)).bind fun _ _ => ?_
  exact (translateRepetition_documented hfields rfl).bind fun _ _ => Documented.pure trivial

theorem translateSequence_documented {x : Spanned Value} (hx : IsTree "Sequence" x)
    (hdepth : x.value.depth ≤ depth) :
    Documented (translateSequence scope expression x) (fun _ => True) := by
  unfold translateSequence
  obtain ⟨fields, hv, hfields⟩ := node_of_rule hx rfl
  rw [hv] at hdepth
  have hlevel : Value.fieldsDepth fields + 1 ≤ depth := hdepth
  refine (asNode_documented hv).bind fun p hp => ?_
  subst hp
  refine (listPart_documented hfields rfl).bind fun items hitems => ?_
  refine (Documented.mapM items fun y hy => ?_).bind fun _ _ => Documented.pure trivial
  obtain ⟨hitem, hle⟩ := hitems.2 y hy
  exact translateItem_documented scope hexpression hitem (by omega)

end Expressions

/-- Expressions are translated, by induction on a bound of their depth: the expression in a group is less
deep. -/
theorem translateExpr_documented (depth : Nat) {x : Spanned Value} (hx : IsTree "Expression" x)
    (hdepth : x.value.depth ≤ depth) :
    Documented (translateExpr scope depth x : Except Fault (Expr α)) (fun _ => True) := by
  induction depth generalizing x with
  | zero =>
    have hpos := Value.depth_pos x.value
    omega
  | succ depth ih =>
    have hexpression : ∀ y, IsTree "Expression" y → y.value.depth ≤ depth →
        Documented (translateExpr scope depth y : Except Fault (Expr α)) (fun _ => True) :=
      fun y hy hle => ih hy hle
    unfold translateExpr
    obtain ⟨fields, hv, hfields⟩ := node_of_rule hx rfl
    rw [hv] at hdepth
    have hlevel : Value.fieldsDepth fields ≤ depth := Nat.le_of_succ_le_succ hdepth
    refine (asNode_documented hv).bind fun p hp => ?_
    subst hp
    refine (part_documented hfields rfl).bind fun first hfirst => ?_
    refine (translateSequence_documented scope hexpression hfirst.1 (by omega)).bind fun _ _ => ?_
    refine (listPart_documented hfields rfl).bind fun rest hrest => ?_
    refine (Documented.mapM rest fun y hy => ?_).bind fun _ _ => Documented.pure trivial
    obtain ⟨hseq, hle⟩ := hrest.2 y hy
    exact translateSequence_documented scope hexpression hseq (by omega)

theorem exprOf_documented {x : Spanned Value} (hx : IsTree "Expression" x) :
    Documented (exprOf scope x : Except Fault (Expr α)) (fun _ => True) :=
  translateExpr_documented scope x.value.depth hx (Nat.le_refl _)

/-! ## Adding -/

theorem addLet_documented (matchers : List (Bytes × Matcher)) (b : Builder α) {x : Spanned Value}
    (hx : IsTree "Let" x) : Documented (addLet scope matchers b x) (fun _ => True) := by
  unfold addLet
  obtain ⟨fields, hv, hfields⟩ := node_of_rule hx rfl
  refine (asNode_documented hv).bind fun p hp => ?_
  subst hp
  refine (textPart_documented hfields rfl rfl).bind fun target _ => ?_
  cases findEntry target matchers with
  | some matcher => exact (textPart_documented hfields rfl rfl).bind fun _ _ => Documented.pure trivial
  | none => exact (part_documented hfields rfl).bind fun _ _ => Documented.grammar _

theorem addDefinition_documented (b : Builder α) {x : Spanned Value} (hx : IsTree "Definition" x) :
    Documented (addDefinition scope b x) (fun _ => True) := by
  unfold addDefinition
  obtain ⟨fields, hv, hfields⟩ := node_of_rule hx rfl
  refine (asNode_documented hv).bind fun p hp => ?_
  subst hp
  refine (textPart_documented hfields rfl rfl).bind fun _ _ => ?_
  refine (textPart_documented hfields rfl rfl).bind fun _ _ => ?_
  refine (part_documented hfields rfl).bind fun body hbody => ?_
  exact (exprOf_documented scope hbody.1).bind fun _ _ => Documented.pure trivial

end Translating

theorem definedName_documented {name : String} {tag : Bytes} {shapes : List (Bytes × Shape)}
    {x : Spanned Value} (hx : IsTree name x)
    (hentry : findEntry (Bytes.ascii name) treeSchema = some (.node tag shapes))
    (hname : findEntry (Bytes.ascii "name") shapes = some (ruleShape "Identifier")) :
    Documented (definedName x) (fun _ => True) := by
  unfold definedName
  obtain ⟨fields, hv, hfields⟩ := node_of_rule hx hentry
  refine (asNode_documented hv).bind fun p hp => ?_
  subst hp
  exact textPart_documented hfields hname rfl

/-- A tree has a definition, so that there is a first one. -/
theorem addTree_documented (text : Bytes) (braces : BracePolicy) (matchers : List (Bytes × Matcher))
    (qualifier : Bytes) (b : Builder α) {tree : Spanned Value} (htree : IsTree "Grammar" tree) :
    Documented (addTree text braces matchers qualifier b tree) (fun _ => True) := by
  unfold addTree
  obtain ⟨fields, hv, hfields⟩ := node_of_rule htree rfl
  refine (asNode_documented hv).bind fun p hp => ?_
  subst hp
  refine (listPart_documented hfields rfl).bind fun lets hlets => ?_
  refine (listPart_documented hfields rfl).bind fun defs hdefs => ?_
  refine (Documented.mapM lets fun x hx => definedName_documented (hlets.2 x hx).1 rfl rfl).bind
    fun letNames _ => ?_
  refine (Documented.mapM defs fun x hx => definedName_documented (hdefs.2 x hx).1 rfl rfl).bind
    fun defNames hlength => ?_
  refine (Documented.foldlM lets b fun b x hx => addLet_documented _ matchers b (hlets.2 x hx).1).bind
    fun b _ => ?_
  refine (Documented.foldlM defs b fun b x hx => addDefinition_documented _ b (hdefs.2 x hx).1).bind
    fun b _ => ?_
  cases defNames with
  | cons first rest => exact Documented.pure trivial
  | nil =>
    have hnil : defs = [] := List.length_eq_zero_iff.mp hlength.symm
    exact absurd hnil (hdefs.1 rfl)

/-! ## Compiling -/

/-- No action is called in the grammar of grammar sources. -/
theorem pure_none (text : Bytes) : Client.none.Pure text := by
  refine ⟨?_, ?_⟩
  · intro a
    exact nomatch a
  · intro a
    exact nomatch a

/-- The hook of a client without actions raises nothing. -/
theorem quiet_none (f : Fault) : ¬Client.none.HookRaises f := by
  rintro ⟨call, user, hraises⟩
  cases hraises

/-- A parse with a grammar whose rules have shapes: depth runs out, or the text does not match, or its tree has the
shape of the start rule. -/
theorem parse_fits {g : Grammar Empty} {schema : Schema} {name : Bytes} (hschema : g.schema? = some schema)
    (hnodup : (schema.map (·.1)).Nodup) (hname : (g.rules.map (·.name))[g.start]? = some name)
    (hempty : ¬g.isEmpty = true) (source : Bytes) :
    (Parser.parse {} g Client.none g.start source (Env.fresh ())).1 = .error .callDepth ∨
      (∃ e, (Parser.parse {} g Client.none g.start source (Env.fresh ())).1 = .ok (.failure e)) ∨
      ∃ tree, (Parser.parse {} g Client.none g.start source (Env.fresh ())).1 = .ok (.tree tree) ∧
        HasShape schema (.rule name) tree.value := by
  obtain ⟨failures, answer, progress, houtcome, hverdict, _⟩ :=
    parse_verdict g g.start (Env.fresh ()) (pure_none source) {} hempty Bool.false_ne_true
  have hfits : ∀ m, (traceCall (parseBasis g Client.none source (Env.fresh ())) m g.start
      (Cursor.ofText source 0)).Answers (Result.Fits schema (.rule name)) :=
    fun m => traceCall_fits (b := parseBasis g Client.none source (Env.fresh ())) hschema hnodup m hname _
  rw [houtcome]
  cases hverdict with
  | exhausted h => exact .inl rfl
  | interrupted hraises => exact absurd hraises (quiet_none _)
  | faulted h =>
    obtain ⟨n, _, _, hsteady⟩ := h
    have hanswer := hsteady n (Nat.le_refl n)
    exact absurd (congrArg Traced.answer hanswer) ((hfits n).1 _)
  | @answered r h _ =>
    right
    obtain ⟨n, _, _, hsteady⟩ := h
    have hanswer := hsteady n (Nat.le_refl n)
    have hr : r.Fits schema (.rule name) := (hfits n).2 r (congrArg Traced.answer hanswer)
    cases r with
    | success tree next => exact .inr ⟨tree, rfl, hr⟩
    | failure offset => exact .inl ⟨_, rfl⟩

/-- The parse of a grammar source, with the grammar that linking answers. -/
theorem parseSource_of_linked {g : Grammar Empty} (hlinked : meta? = .ok g) (source : Bytes) :
    (parseSource source).1 =
      match (Parser.parse {} g Client.none g.start source (Env.fresh ())).1 with
      | .error fault => .error fault
      | .ok (.tree tree) => .ok tree
      | .ok (.failure e) => .error (.grammar ⟨.malformedSource e.expected, e.position⟩) := by
  -- as a function: to unfold a call, the kernel would link the grammar again
  have hparser : ∀ f, f = parseSource → (f source).1 =
      match (Parser.parse {} g Client.none g.start source (Env.fresh ())).1 with
      | .error fault => .error fault
      | .ok (.tree tree) => .ok tree
      | .ok (.failure e) => .error (.grammar ⟨.malformedSource e.expected, e.position⟩) := by
    intro f hf
    delta parseSource at hf
    rw [hf, hlinked]
    simp only [parseFresh, parse]
    cases (Parser.parse {} g Client.none g.start source (Env.fresh ())).1 with
    | error fault => rfl
    | ok outcome =>
      cases outcome with
      | tree tree => rfl
      | failure e => rfl
  exact hparser parseSource rfl

theorem parseSource_eq (source : Bytes) : (parseSource source).1 =
    match (Parser.parse {} metaGrammar Client.none metaGrammar.start source (Env.fresh ())).1 with
    | .error fault => .error fault
    | .ok (.tree tree) => .ok tree
    | .ok (.failure e) => .error (.grammar ⟨.malformedSource e.expected, e.position⟩) :=
  parseSource_of_linked Nonterminal.meta_eq source

/-- The start rule is `Grammar`. -/
theorem name_start : (metaGrammar.rules.map (·.name))[metaGrammar.start]? = some (Bytes.ascii "Grammar") := by
  rw [Nonterminal.metaGrammar_eq]
  rfl

/-- A grammar source has a tree of the rule `Grammar`, or it is malformed or nested too deeply. -/
theorem parseSource_fits (source : Bytes) :
    (parseSource source).1 = .error .callDepth ∨ Documented (parseSource source).1 (IsTree "Grammar") := by
  rw [parseSource_eq]
  rcases parse_fits schema_metaGrammar nodup_treeSchema name_start Nonterminal.metaGrammar_not_empty source with
    h | ⟨e, h⟩ | ⟨tree, h, hshape⟩
  · rw [h]
    exact .inl rfl
  · rw [h]
    exact .inr ⟨_, rfl⟩
  · rw [h]
    exact .inr hshape

section Sources

variable (braces : BracePolicy) (matchers : List (Bytes × Matcher)) (options : Options α)

/-- A source is added, unless it is nested too deeply or there is a mistake in it. -/
theorem addSource_documented (text qualifier : Bytes) (b : Builder α) :
    ((parseSource text).1 = .error .callDepth ∧
      addSource text braces matchers qualifier b = .error .callDepth) ∨
    Documented (addSource text braces matchers qualifier b) (fun _ => True) := by
  unfold addSource
  rcases parseSource_fits text with hdeep | hparse
  · left
    refine ⟨hdeep, ?_⟩
    rw [hdeep]
    rfl
  · right
    exact hparse.bind fun tree htree => addTree_documented text braces matchers qualifier b htree

theorem addModules_documented (modules : List (Bytes × Bytes)) (b : Builder α) :
    ((∃ m ∈ modules, (parseSource m.2).1 = .error .callDepth) ∧
      modules.foldlM (addModule options) b = .error .callDepth) ∨
    Documented (modules.foldlM (addModule options) b) (fun _ => True) := by
  induction modules generalizing b with
  | nil => exact .inr trivial
  | cons m rest ih =>
    rw [List.foldlM_cons]
    have hadd := addSource_documented options.braces options.matchers m.2 (m.1 ++ Bytes.ascii ".") b
    unfold addModule
    rcases hadd with ⟨hdeep, hadd⟩ | hadd
    · left
      refine ⟨⟨m, List.mem_cons_self, hdeep⟩, ?_⟩
      simp only [hadd]
      rfl
    · cases hm : addSource m.2 options.braces options.matchers (m.1 ++ Bytes.ascii ".") b with
      | error f =>
        right
        rw [hm] at hadd
        obtain ⟨e, he⟩ := hadd
        subst he
        simp only [hm]
        exact ⟨e, rfl⟩
      | ok r =>
        simp only [hm]
        rcases ih r.1 with ⟨⟨m', hmem, hdeep⟩, hrest⟩ | hrest
        · exact .inl ⟨⟨m', List.mem_cons_of_mem _ hmem, hdeep⟩, hrest⟩
        · exact .inr hrest

/-- The source or one of the modules is nested too deeply for the parse of it. -/
def TooDeep (source : Bytes) (options : Options α) : Prop :=
  (parseSource source).1 = .error .callDepth ∨
    ∃ m ∈ options.modules, (parseSource m.2).1 = .error .callDepth

theorem gather_documented (source : Bytes) :
    (TooDeep source options ∧ gather source options = .error .callDepth) ∨
      Documented (gather source options) (fun _ => True) := by
  unfold gather
  rcases addSource_documented options.braces options.matchers source []
    (({} : Builder α).addActions options.actions) with ⟨hdeep, hadd⟩ | hadd
  · left
    refine ⟨.inl hdeep, ?_⟩
    simp only [hadd]
    rfl
  · cases hm : addSource source options.braces options.matchers []
      (({} : Builder α).addActions options.actions) with
    | error f =>
      right
      rw [hm] at hadd
      simp only [hm]
      exact hadd
    | ok r =>
      simp only [hm]
      rcases addModules_documented options options.sortedModules r.1 with
        ⟨⟨m, hmem, hdeep⟩, hmodules⟩ | hmodules
      · left
        have hmem' : m ∈ options.modules := List.mem_mergeSort.mp hmem
        refine ⟨.inr ⟨m, hmem', hdeep⟩, ?_⟩
        show (options.sortedModules.foldlM (addModule options) r.1 >>= _) = _
        rw [hmodules]
        rfl
      · right
        have hboth : Documented
            (options.sortedModules.foldlM (addModule options) r.1 >>= fun b => pure (b, r.2))
            (fun _ => True) := hmodules.bind fun b _ => Documented.pure trivial
        exact hboth

/-- **Compiling fails with documented errors only.** Whatever the source and the options, the answer is a
grammar, or there is a mistake in the source, a module or the options, or the source or a module is nested
too deeply for the grammar of grammar sources. -/
theorem compile_documented (source : Bytes) :
    (∃ g, compile source options = .ok g) ∨ (∃ e, compile source options = .error (.grammar e)) ∨
      (TooDeep source options ∧ compile source options = .error .callDepth) := by
  unfold compile
  rcases gather_documented options source with ⟨hdeep, hgather⟩ | hgather
  · right
    right
    refine ⟨hdeep, ?_⟩
    rw [hgather]
    rfl
  · cases hm : gather source options with
    | error f =>
      rw [hm] at hgather
      obtain ⟨e, he⟩ := hgather
      subst he
      exact .inr (.inl ⟨e, rfl⟩)
    | ok r =>
      cases hbuild : (r.1.setStart (options.start.getD r.2)).build with
      | ok g =>
        left
        refine ⟨g, ?_⟩
        simp only [bind, Except.bind, hbuild]
        rfl
      | error e =>
        right
        left
        refine ⟨e, ?_⟩
        simp only [bind, Except.bind, hbuild]
        rfl

end Sources

end Packrat.Source
