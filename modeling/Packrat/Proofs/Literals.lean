import Packrat.Proofs.RoundTrip
import Packrat.Proofs.SourceTrees

/-!
# `Packrat.Proofs.Literals` — which literals of a compiled grammar match their own text

A literal of a grammar source is split into parts when the source is read, and its spelling is read once more when
it is matched. Compiling carries every spelling from the tree of the source to the rules of the grammar as it
stands, so that the two readings can be compared there (`Packrat.Proofs.Spellings`).

## Contents
- **Static literals.** `exprLiterals` lists the literals of an expression that have no code in them.
- **Linking.** It changes no literal.
- **Translating.** Every literal that comes out of a tree has parts of the source as its spelling.
- **Compiling.** So has every literal of a grammar, and `literals_match_exact` tells which of them match.
-/

namespace Packrat

variable {α : Type}

/-! ## Static literals -/

/-- A literal without code in it. -/
structure StaticLiteral where
  spelling : Bytes
  caseless : Bool
  braceSensitive : Bool
deriving DecidableEq

namespace StaticLiteral

/-- The literal matches the text that its spelling denotes, up to the end. -/
def MatchesItself (l : StaticLiteral) : Prop :=
  Terminal.literal? l.spelling l.braceSensitive l.caseless (unescape l.spelling) = some (unescape l.spelling).length

instance (l : StaticLiteral) : Decidable l.MatchesItself := inferInstanceAs (Decidable (_ = _))

/-- The spelling consists of parts that stand side by side in a source, where braces outside of them would matter. -/
def Sourced (l : StaticLiteral) : Prop :=
  l.braceSensitive = true ∧ ∃ parts rest, Parted rest parts ∧ l.spelling = Packrat.spelling parts

end StaticLiteral

mutual

/-- The static literals in a body. -/
def bodyLiterals : Body α → List StaticLiteral
  | .literal spelling caseless braceSensitive => [⟨spelling, caseless, braceSensitive⟩]
  | .group alternatives => exprLiterals alternatives
  | .code _ => []
  | .call _ _ _ => []
  | .interpolated _ _ => []
  | .cls _ => []
  | .any => []
termination_by structural body => body

/-- The static literals in an expression. -/
def exprLiterals : List (Sequence α (Body α)) → List StaticLiteral
  | [] => []
  | seq :: rest => sequenceLiterals seq ++ exprLiterals rest
termination_by structural alternatives => alternatives

/-- The static literals in a sequence. -/
def sequenceLiterals : Sequence α (Body α) → List StaticLiteral
  | ⟨items, _, _, _⟩ => itemsLiterals items
termination_by structural seq => seq

/-- The static literals in some items. -/
def itemsLiterals : List (Item (Body α)) → List StaticLiteral
  | [] => []
  | item :: rest => itemLiterals item ++ itemsLiterals rest
termination_by structural items => items

/-- The static literals in an item. -/
def itemLiterals : Item (Body α) → List StaticLiteral
  | ⟨_, _, _, body, _, _, _⟩ => bodyLiterals body
termination_by structural item => item

end

theorem mem_itemsLiterals {l : StaticLiteral} {items : List (Item (Body α))} :
    l ∈ itemsLiterals items ↔ ∃ item ∈ items, l ∈ itemLiterals item := by
  induction items with
  | nil => simp [itemsLiterals]
  | cons item rest ih => simp [itemsLiterals, ih]

theorem mem_exprLiterals {l : StaticLiteral} {alternatives : Expr α} :
    l ∈ exprLiterals alternatives ↔ ∃ seq ∈ alternatives, l ∈ itemsLiterals seq.items := by
  induction alternatives with
  | nil => simp [exprLiterals]
  | cons seq rest ih =>
    obtain ⟨items, action, layout, position⟩ := seq
    simp [exprLiterals, sequenceLiterals, ih]

/-! ## Linking -/

section Linking

variable {tables : NameTables}

mutual

theorem linkBody_literals {visible : List Bytes} {position : Position} :
    ∀ (body : Body α) {linked : Body α},
      linkBody tables visible position body = .ok linked → bodyLiterals linked = bodyLiterals body
  | .code _, linked, h => by
    unfold linkBody at h
    obtain ⟨_, _, h⟩ := bind_eq_ok.mp h
    cases h
    rfl
  | .call _ _ _, linked, h => by
    unfold linkBody at h
    split at h
    · cases h
      rfl
    · cases h
  | .group alternatives, linked, h => by
    unfold linkBody at h
    obtain ⟨alternatives', halternatives, h⟩ := bind_eq_ok.mp h
    cases h
    exact linkExpr_literals alternatives halternatives
  | .literal _ _ _, linked, h => by
    cases h
    rfl
  | .interpolated _ _, linked, h => by
    unfold linkBody at h
    obtain ⟨_, _, h⟩ := bind_eq_ok.mp h
    cases h
    rfl
  | .cls _, linked, h => by
    cases h
    rfl
  | .any, linked, h => by
    cases h
    rfl
termination_by structural body => body

theorem linkExpr_literals :
    ∀ (alternatives : List (Sequence α (Body α))) {linked : List (Sequence α (Body α))},
      linkExpr tables alternatives = .ok linked → exprLiterals linked = exprLiterals alternatives
  | [], linked, h => by
    cases h
    rfl
  | seq :: rest, linked, h => by
    unfold linkExpr at h
    obtain ⟨seq', hseq, h⟩ := bind_eq_ok.mp h
    obtain ⟨rest', hrest, h⟩ := bind_eq_ok.mp h
    cases h
    exact congrArg₂ (· ++ ·) (linkSequence_literals seq hseq) (linkExpr_literals rest hrest)
termination_by structural alternatives => alternatives

theorem linkSequence_literals :
    ∀ (seq : Sequence α (Body α)) {linked : Sequence α (Body α)},
      linkSequence tables seq = .ok linked → sequenceLiterals linked = sequenceLiterals seq
  | ⟨items, action, _, _⟩, linked, h => by
    unfold linkSequence at h
    obtain ⟨⟨items', layout⟩, hitems, h⟩ := bind_eq_ok.mp h
    have hsame := linkItems_literals items hitems
    cases action with
    | none =>
      cases h
      exact hsame
    | some host =>
      obtain ⟨_, _, h⟩ := bind_eq_ok.mp h
      cases h
      exact hsame
termination_by structural seq => seq

theorem linkItems_literals {visible layout : List Bytes} :
    ∀ (items : List (Item (Body α))) {linked : List (Item (Body α))},
      linkItems tables visible items = .ok (linked, layout) → itemsLiterals linked = itemsLiterals items
  | [], linked, h => by
    cases h
    rfl
  | item :: rest, linked, h => by
    unfold linkItems at h
    obtain ⟨⟨item', visible'⟩, hitem, h⟩ := bind_eq_ok.mp h
    obtain ⟨⟨rest', layout'⟩, hrest, h⟩ := bind_eq_ok.mp h
    cases h
    exact congrArg₂ (· ++ ·) (linkItem_literals item hitem) (linkItems_literals rest hrest)
termination_by structural items => items

theorem linkItem_literals {visible visible' : List Bytes} :
    ∀ (item : Item (Body α)) {linked : Item (Body α)},
      linkItem tables visible item = .ok (linked, visible') → itemLiterals linked = itemLiterals item
  | ⟨_, _, _, body, _, _, _⟩, linked, h => by
    unfold linkItem at h
    obtain ⟨body', hbody, h⟩ := bind_eq_ok.mp h
    obtain ⟨_, _, h⟩ := bind_eq_ok.mp h
    obtain ⟨⟨_, _⟩, _, h⟩ := bind_eq_ok.mp h
    cases h
    exact linkBody_literals body hbody
termination_by structural item => item

end

/-- The rules of a grammar have the literals of the rules that it was linked from. -/
theorem linkRules_literals {rules linked : List (Rule α)} (h : linkRules tables rules = .ok linked) :
    ∀ rule' ∈ linked, ∃ rule ∈ rules, exprLiterals rule'.body = exprLiterals rule.body := by
  induction rules generalizing linked with
  | nil =>
    cases h
    exact fun rule' hrule' => absurd hrule' List.not_mem_nil
  | cons r rest ih =>
    obtain ⟨body, rest', hbody, hrest, rfl⟩ := linkRules_cons h
    intro rule' hrule'
    rcases List.mem_cons.mp hrule' with rfl | htail
    · refine ⟨r, List.mem_cons_self, ?_⟩
      split at hbody
      · cases hbody
        rfl
      · exact linkExpr_literals r.body hbody
    · obtain ⟨rule, hrule, hsame⟩ := ih hrest rule' htail
      exact ⟨rule, List.mem_cons_of_mem r hrule, hsame⟩

end Linking

namespace Source

variable {source : Bytes} {scope : Scope} {x : Spanned Value}

/-! ## Translating -/

/-- What a translation of the elements of a list answers comes from its elements. -/
theorem mem_of_mapM_eq_ok {β γ : Type} {f : β → Except Fault γ} {xs : List β} {ys : List γ} (h : xs.mapM f = .ok ys) :
    ∀ y ∈ ys, ∃ x ∈ xs, f x = .ok y := by
  induction xs generalizing ys with
  | nil =>
    cases h
    exact fun y hy => absurd hy List.not_mem_nil
  | cons x xs ih =>
    rw [List.mapM_cons] at h
    obtain ⟨y, hy, h⟩ := bind_eq_ok.mp h
    obtain ⟨ys', hys, h⟩ := bind_eq_ok.mp h
    cases h
    intro z hz
    rcases List.mem_cons.mp hz with rfl | hz
    · exact ⟨x, List.mem_cons_self, hy⟩
    · obtain ⟨x', hx', hfx⟩ := ih hys z hz
      exact ⟨x', List.mem_cons_of_mem x hx', hfx⟩

/-- What every step of a fold keeps, the fold keeps. -/
theorem foldlM_keeps {β γ : Type} {P : γ → Prop} {f : γ → β → Except Fault γ} {xs : List β}
    (hstep : ∀ x ∈ xs, ∀ c c', P c → f c x = .ok c' → P c') {c c' : γ} (hc : P c) (h : xs.foldlM f c = .ok c') :
    P c' := by
  induction xs generalizing c with
  | nil =>
    cases h
    exact hc
  | cons x xs ih =>
    rw [List.foldlM_cons] at h
    obtain ⟨d, hd, h⟩ := bind_eq_ok.mp h
    exact ih (fun y hy => hstep y (List.mem_cons_of_mem x hy)) (hstep x List.mem_cons_self c d hc hd) h

/-- The parts of a literal without code are texts, and make up its spelling. -/
theorem literalSegments_static {acc spelling : Bytes} {xs : List (Spanned Value)} {segments : List (Segment α)}
    (h : literalSegments scope acc xs = .ok (false, spelling, segments)) :
    ∃ ts : List Bytes, xs.map (·.value) = ts.map .text ∧ spelling = acc ++ ts.flatten := by
  induction xs generalizing acc with
  | nil =>
    cases h
    exact ⟨[], rfl, (List.append_nil _).symm⟩
  | cons x xs ih =>
    unfold literalSegments at h
    split at h
    · next t ht =>
      obtain ⟨ts, hts, hspelling⟩ := ih h
      refine ⟨t :: ts, ?_, ?_⟩
      · rw [List.map_cons, List.map_cons, ht, hts]
      · rw [hspelling, List.append_assoc, List.flatten_cons]
    · -- anything else is a mistake, or code
      split at h
      · cases h
      · split at h
        · cases h
        · obtain ⟨⟨_, _⟩, _, h⟩ := bind_eq_ok.mp h
          obtain ⟨_, _, h⟩ := bind_eq_ok.mp h
          obtain ⟨_, _, h⟩ := bind_eq_ok.mp h
          obtain ⟨⟨_, _, _⟩, _, h⟩ := bind_eq_ok.mp h
          cases h

/-- A literal of a tree is translated to one whose spelling has parts, or to one with code. -/
theorem translateLiteral_sourced {fields : List Field} {body : Body α}
    (hx : Grown source .literal (.node (Bytes.ascii "Literal") fields)) (h : translateLiteral scope fields = .ok body) :
    ∀ l ∈ bodyLiterals body, l.Sourced := by
  obtain ⟨fields', xs, hfields, hxs, hparts⟩ := hx.literal
  obtain rfl : fields = fields' := (Value.node.inj hfields).2
  unfold translateLiteral at h
  obtain ⟨caseless, _, h⟩ := bind_eq_ok.mp h
  rw [hxs, ok_bind] at h
  obtain ⟨⟨dynamic, spelling, segments⟩, hsegments, h⟩ := bind_eq_ok.mp h
  cases dynamic with
  | true =>
    cases h
    exact fun l hl => absurd hl List.not_mem_nil
  | false =>
    cases h
    obtain ⟨ts, hts, rfl⟩ := literalSegments_static hsegments
    obtain ⟨parts, rest, hparted, hspelling⟩ := hparts ts hts
    intro l hl
    obtain rfl := List.mem_singleton.mp hl
    exact ⟨rfl, parts, rest, hparted, hspelling.symm⟩

/-- Splitting the action from some items keeps items and adds none. -/
theorem splitAction_subset (items : List (Item (Body α))) : (splitAction items).1 ⊆ items := by
  unfold splitAction
  split
  · exact List.dropLast_subset items
  · exact List.Subset.refl items

section Expressions

variable {expression : Spanned Value → Except Fault (Expr α)}
  (hexpression : ∀ x e, Grown source .expression x.value → expression x = .ok e → ∀ l ∈ exprLiterals e, l.Sourced)

include hexpression

theorem translateBody_sourced {body : Body α} (hx : Grown source .primary x.value)
    (h : translateBody scope expression x = .ok body) : ∀ l ∈ bodyLiterals body, l.Sourced := by
  obtain ⟨v, start, stop⟩ := x
  have hnone : bodyLiterals body = [] → ∀ l ∈ bodyLiterals body, l.Sourced := by
    intro hnil l hl
    rw [hnil] at hl
    cases hl
  rcases hx.primary with hgroup | hliteral | ⟨tag, fields, hv, hnotGroup, hnotLiteral⟩
  · obtain ⟨fields, inner, hv, hinner, hgrown⟩ := hgroup.group
    obtain rfl : v = _ := hv
    have htranslated : (expression inner >>= fun e => pure (.group e)) = .ok body := by
      rw [← h]
      unfold translateBody
      simp only [Value.asNode, ok_bind, hinner]
      rfl
    obtain ⟨e, he, h⟩ := bind_eq_ok.mp htranslated
    cases h
    exact hexpression inner e hgrown he
  · obtain ⟨fields, _, hv, -⟩ := hliteral.literal
    obtain rfl : v = _ := hv
    have htranslated : translateLiteral scope fields = .ok body := h
    exact translateLiteral_sourced hliteral htranslated
  · obtain rfl : v = _ := hv
    -- no other body has literals in it
    refine hnone ?_
    unfold translateBody at h
    simp only [Value.asNode, ok_bind, beq_iff_eq, hnotGroup, hnotLiteral, if_false] at h
    split at h
    · obtain ⟨_, _, h⟩ := bind_eq_ok.mp h
      obtain ⟨_, _, h⟩ := bind_eq_ok.mp h
      cases h
      rfl
    · split at h
      · obtain ⟨_, _, h⟩ := bind_eq_ok.mp h
        obtain ⟨_, _, h⟩ := bind_eq_ok.mp h
        split at h
        · cases h
          rfl
        · cases h
      · split at h
        · cases h
          rfl
        · obtain ⟨_, _, h⟩ := bind_eq_ok.mp h
          obtain ⟨_, _, h⟩ := bind_eq_ok.mp h
          cases h
          rfl

theorem translateItem_sourced {item : Item (Body α)} (hx : Grown source .item x.value)
    (h : translateItem scope expression x = .ok item) : ∀ l ∈ itemLiterals item, l.Sourced := by
  obtain ⟨v, start, stop⟩ := x
  obtain ⟨tag, fields, primary, hv, hprimary, hgrown⟩ := hx.item
  obtain rfl : v = _ := hv
  unfold translateItem at h
  simp only [Value.asNode, ok_bind, hprimary] at h
  obtain ⟨_, _, h⟩ := bind_eq_ok.mp h
  obtain ⟨⟨_, _⟩, _, h⟩ := bind_eq_ok.mp h
  obtain ⟨body, hbody, h⟩ := bind_eq_ok.mp h
  obtain ⟨_, _, h⟩ := bind_eq_ok.mp h
  cases h
  exact translateBody_sourced hexpression hgrown hbody

theorem translateSequence_sourced {seq : Sequence α (Body α)} (hx : Grown source .sequence x.value)
    (h : translateSequence scope expression x = .ok seq) : ∀ l ∈ itemsLiterals seq.items, l.Sourced := by
  obtain ⟨v, start, stop⟩ := x
  obtain ⟨tag, fields, xs, hv, hxs, hgrown⟩ := hx.sequence
  obtain rfl : v = _ := hv
  unfold translateSequence at h
  simp only [Value.asNode, ok_bind, hxs] at h
  obtain ⟨items, hitems, h⟩ := bind_eq_ok.mp h
  cases h
  intro l hl
  obtain ⟨item, hitem, hl⟩ := mem_itemsLiterals.mp hl
  obtain ⟨x, hx, htranslated⟩ := mem_of_mapM_eq_ok hitems item (splitAction_subset items hitem)
  exact translateItem_sourced hexpression (hgrown x hx) htranslated l hl

end Expressions

/-- Every literal of a translated expression has parts of the source as its spelling. -/
theorem translateExpr_sourced (depth : Nat) {e : Expr α} (hx : Grown source .expression x.value)
    (h : translateExpr scope depth x = .ok e) : ∀ l ∈ exprLiterals e, l.Sourced := by
  induction depth generalizing x e with
  | zero => cases h
  | succ depth ih =>
    obtain ⟨v, start, stop⟩ := x
    obtain ⟨tag, fields, first, rest, hv, hfirst, hgrown, hrest, hgrowns⟩ := hx.expression
    obtain rfl : v = _ := hv
    have hexpression : ∀ x e, Grown source .expression x.value → translateExpr scope depth x = .ok e →
        ∀ l ∈ exprLiterals e, l.Sourced := fun x e hx he => ih hx he
    unfold translateExpr at h
    simp only [Value.asNode, ok_bind, hfirst, hrest] at h
    obtain ⟨seq, hseq, h⟩ := bind_eq_ok.mp h
    obtain ⟨seqs, hseqs, h⟩ := bind_eq_ok.mp h
    cases h
    intro l hl
    obtain ⟨seq', hmem, hitems⟩ := mem_exprLiterals.mp hl
    rcases List.mem_cons.mp hmem with rfl | hmem
    · exact translateSequence_sourced hexpression hgrown hseq l hitems
    · obtain ⟨x, hx, htranslated⟩ := mem_of_mapM_eq_ok hseqs seq' hmem
      exact translateSequence_sourced hexpression (hgrowns x hx) htranslated l hitems

/-! ## Compiling -/

/-- The literals of all rules have parts of a source as their spelling. -/
def RulesSourced (rules : List (Rule α)) : Prop := ∀ rule ∈ rules, ∀ l ∈ exprLiterals rule.body, l.Sourced

theorem RulesSourced.snoc {rules : List (Rule α)} {rule : Rule α} (h : RulesSourced rules)
    (hrule : ∀ l ∈ exprLiterals rule.body, l.Sourced) : RulesSourced (rules ++ [rule]) := by
  intro r hr
  rcases List.mem_append.mp hr with hr | hr
  · exact h r hr
  · rw [List.mem_singleton.mp hr]
    exact hrule

theorem addLet_sourced {matchers : List (Bytes × Matcher)} {b b' : Builder α} (hb : RulesSourced b.rules)
    (h : addLet scope matchers b x = .ok b') : RulesSourced b'.rules := by
  unfold addLet at h
  obtain ⟨⟨_, fields⟩, _, h⟩ := bind_eq_ok.mp h
  obtain ⟨target, _, h⟩ := bind_eq_ok.mp h
  split at h
  · obtain ⟨name, _, h⟩ := bind_eq_ok.mp h
    cases h
    -- the rule of a matcher has no body
    exact hb.snoc fun l hl => absurd hl List.not_mem_nil
  · obtain ⟨_, _, h⟩ := bind_eq_ok.mp h
    cases h

theorem addDefinition_sourced {b b' : Builder α} (hb : RulesSourced b.rules) (hx : Grown source .definition x.value)
    (h : addDefinition scope b x = .ok b') : RulesSourced b'.rules := by
  obtain ⟨v, start, stop⟩ := x
  obtain ⟨tag, fields, _, body, hv, _, _, hbody, hgrown⟩ := hx.definition
  obtain rfl : v = _ := hv
  unfold addDefinition at h
  simp only [Value.asNode, ok_bind, hbody] at h
  obtain ⟨_, _, h⟩ := bind_eq_ok.mp h
  obtain ⟨_, _, h⟩ := bind_eq_ok.mp h
  obtain ⟨e, he, h⟩ := bind_eq_ok.mp h
  cases h
  exact hb.snoc (translateExpr_sourced _ hgrown he)

theorem addSource_sourced {text qualifier : Bytes} {braces : BracePolicy} {matchers : List (Bytes × Matcher)}
    {b : Builder α} {added : Builder α × Bytes} (hb : RulesSourced b.rules)
    (h : addSource text braces matchers qualifier b = .ok added) : RulesSourced added.1.rules := by
  unfold addSource at h
  obtain ⟨⟨v, start, stop⟩, htree, h⟩ := bind_eq_ok.mp h
  obtain ⟨tag, fields, _, defs, hv, _, _, hdefs, hgrown⟩ := (parseSource_grown htree).grammar
  obtain rfl : v = _ := hv
  unfold addTree at h
  simp only [Value.asNode, ok_bind, hdefs] at h
  obtain ⟨lets, _, h⟩ := bind_eq_ok.mp h
  obtain ⟨letNames, _, h⟩ := bind_eq_ok.mp h
  obtain ⟨defNames, _, h⟩ := bind_eq_ok.mp h
  obtain ⟨b', hb', h⟩ := bind_eq_ok.mp h
  obtain ⟨b'', hb'', h⟩ := bind_eq_ok.mp h
  have hlets : RulesSourced b'.rules :=
    foldlM_keeps (P := fun b => RulesSourced b.rules) (fun _ _ _ _ hc hadd => addLet_sourced hc hadd) hb hb'
  have hall : RulesSourced b''.rules :=
    foldlM_keeps (P := fun b => RulesSourced b.rules)
      (fun x hx _ _ hc hadd => addDefinition_sourced hc (hgrown x hx) hadd) hlets hb''
  split at h
  · cases h
    exact hall
  · cases h

theorem gather_sourced {options : Options α} {gathered : Builder α × Bytes}
    (h : gather source options = .ok gathered) : RulesSourced gathered.1.rules := by
  have hempty : RulesSourced ((({} : Builder α).addActions options.actions).rules) := by
    rw [rules_addActions]
    exact fun rule hrule => absurd hrule List.not_mem_nil
  unfold gather at h
  obtain ⟨⟨b, first⟩, hadd, h⟩ := bind_eq_ok.mp h
  obtain ⟨b', hb', h⟩ := bind_eq_ok.mp h
  cases h
  refine foldlM_keeps (P := fun b => RulesSourced b.rules) ?_ (addSource_sourced hempty hadd) hb'
  rintro ⟨name, text⟩ _ c c' hc hmodule
  obtain ⟨_, hadded, hmodule⟩ := bind_eq_ok.mp hmodule
  cases hmodule
  exact addSource_sourced hc hadded

/-- Every literal of a compiled grammar has parts of a source as its spelling. -/
theorem compile_sourced {options : Options α} {g : Grammar α} (h : compile source options = .ok g) :
    RulesSourced g.rules := by
  unfold compile at h
  obtain ⟨⟨b, first⟩, hgather, h⟩ := bind_eq_ok.mp h
  dsimp only at h
  split at h
  · next g' hbuild =>
    cases h
    obtain ⟨rules, start, hrules, rfl⟩ := Builder.build_eq_ok hbuild
    intro rule hrule l hl
    obtain ⟨rule', hrule', hsame⟩ := linkRules_literals hrules rule hrule
    rw [hsame] at hl
    exact gather_sourced hgather rule' hrule' l hl
  · cases h

/-- **A static literal matches the text that it denotes exactly if its code points are scalar values.** Whatever
source and options compile, the spelling of every static literal anywhere in the rules consists of parts: code points
in braces, characters behind a backslash, and characters that stand for themselves. The literal, with its own flags,
matches the text that its spelling denotes up to the end, unless one of these code points is no scalar value. -/
theorem literals_match_exact {options : Options α} {g : Grammar α} (h : compile source options = .ok g) :
    ∀ rule ∈ g.rules, ∀ l ∈ exprLiterals rule.body, ∃ parts rest,
      Parted rest parts ∧ l.spelling = spelling parts ∧ (l.MatchesItself ↔ ScalarCodes parts) := by
  intro rule hrule l hl
  obtain ⟨hsensitive, parts, rest, hparted, hspelling⟩ := compile_sourced h rule hrule l hl
  refine ⟨parts, rest, hparted, hspelling, ?_⟩
  rw [StaticLiteral.MatchesItself, hsensitive, hspelling, Terminal.literal?_unescape_iff]
  exact matchable_iff hparted

/-- A source with one rule and one literal, whose code point is beyond the last. -/
def beyondSource : Bytes := Bytes.ascii "S <- '\\u\x7b110000\x7d'"

/-- The braces of a code point that is too large are bare, and so the literal matches nothing. -/
theorem beyond_unmatched : ∃ g : Grammar Empty, compile beyondSource {} = .ok g ∧
    ∃ rule ∈ g.rules, ∃ l ∈ exprLiterals rule.body, l.spelling = Bytes.ascii "\\u\x7b110000\x7d" ∧
      unescape l.spelling = Bytes.ascii "u\x7b110000\x7d" ∧ ¬l.MatchesItself := by
  obtain ⟨g, hg, htest⟩ := compile_of_evaluatesTo rfl (show evaluatesTo (fun g : Grammar Empty =>
    g.rules.any fun rule => (exprLiterals rule.body).any fun l => l.spelling == Bytes.ascii "\\u\x7b110000\x7d" &&
      unescape l.spelling == Bytes.ascii "u\x7b110000\x7d" && !decide l.MatchesItself) {} beyondSource = true by
    decide +kernel)
  simp only [List.any_eq_true, Bool.and_eq_true, beq_iff_eq, Bool.not_eq_true', decide_eq_false_iff_not] at htest
  obtain ⟨rule, hrule, l, hl, ⟨hspelling, hdenoted⟩, hunmatched⟩ := htest
  exact ⟨g, hg, rule, hrule, l, hl, hspelling, hdenoted, hunmatched⟩

theorem literals_match_exact_letter : ∃ g : Grammar Empty, compile (Bytes.ascii "S <- '\\u\x7b61\x7d'i") {} = .ok g ∧
    (∃ rule ∈ g.rules, exprLiterals rule.body = [⟨Bytes.ascii "\\u\x7b61\x7d", true, true⟩]) ∧
    ∀ rule ∈ g.rules, ∀ l ∈ exprLiterals rule.body, ∃ parts rest,
      Parted rest parts ∧ l.spelling = spelling parts ∧ (l.MatchesItself ↔ ScalarCodes parts) := by
  obtain ⟨g, hg, htest⟩ := compile_of_evaluatesTo rfl (show evaluatesTo (fun g : Grammar Empty =>
    g.rules.any fun rule => exprLiterals rule.body == [⟨Bytes.ascii "\\u\x7b61\x7d", true, true⟩]) {}
      (Bytes.ascii "S <- '\\u\x7b61\x7d'i") = true by
    decide +kernel)
  simp only [List.any_eq_true, beq_iff_eq] at htest
  exact ⟨g, hg, htest, literals_match_exact hg⟩

end Source

end Packrat
