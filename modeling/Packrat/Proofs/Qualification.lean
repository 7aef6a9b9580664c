import Packrat.Proofs.Inclusion
import Packrat.Proofs.Literals

/-!
# `Packrat.Proofs.Qualification` — sources under a qualifier

A source adds the same rules to a builder whether its names get a qualifier or not, except that the rules have other
names and stand at other places. The names that a source defines are identifiers, without dots; so the qualifier shows
in the names of calls that lead to rules of the source, and nowhere else.

## Contents
- **Translating.** `Scope.qualified`, and what a qualifier changes in an expression.
- **Lets and definitions.** What each of them adds, to whatever builder.
- **Sources.** `Parts`: what a source is made of. `Parts.add_qualified`.
-/

namespace Packrat.Source

variable {α β γ : Type}

/-! ## Translating -/

/-- The same scope with another qualifier. -/
def Scope.qualified (scope : Scope) (qualifier : Bytes) : Scope := { scope with qualifier }

section Translating

variable {scope : Scope} {qualifier : Bytes}

theorem translateHost_qualified (depth : Nat) :
    (translateHost (scope.qualified qualifier) depth : Spanned Value → Except Fault (Host α)) =
      translateHost scope depth := by
  induction depth with
  | zero => rfl
  | succ depth ih =>
    funext x
    rw [translateHost, translateHost, ih]
    rfl

theorem hostOf_qualified (x : Spanned Value) :
    (hostOf (scope.qualified qualifier) x : Except Fault (Host α)) = hostOf scope x := by
  rw [hostOf, hostOf, translateHost_qualified]

theorem literalSegments_qualified (spelling : Bytes) (xs : List (Spanned Value)) :
    (literalSegments (scope.qualified qualifier) spelling xs : Except Fault (Bool × Bytes × List (Segment α))) =
      literalSegments scope spelling xs := by
  induction xs generalizing spelling with
  | nil => rfl
  | cons x xs ih =>
    rw [literalSegments, literalSegments]
    simp only [ih, hostOf_qualified]
    rfl

theorem translateLiteral_qualified (fields : List Field) :
    (translateLiteral (scope.qualified qualifier) fields : Except Fault (Body α)) = translateLiteral scope fields := by
  rw [translateLiteral, translateLiteral]
  simp only [literalSegments_qualified]

/-- What comes of a literal has no calls. -/
theorem translateLiteral_relocated (r : Relocation) (fields : List Field) :
    relocateBody r <$> (translateLiteral scope fields : Except Fault (Body α)) = translateLiteral scope fields := by
  unfold translateLiteral
  simp only [map_bind]
  refine bind_congr fun caseless => bind_congr fun parts => bind_congr fun segments => ?_
  obtain ⟨dynamic, spelling, segments⟩ := segments
  cases dynamic with
  | true => rfl
  | false => rfl

theorem mapM_map {f : β → Except Fault γ} {g : β → Except Fault γ} {h : γ → γ} (xs : List β)
    (hf : ∀ x ∈ xs, g x = h <$> f x) : xs.mapM g = List.map h <$> xs.mapM f := by
  induction xs with
  | nil => rfl
  | cons x xs ih =>
    rw [List.forall_mem_cons] at hf
    rw [List.mapM_cons, List.mapM_cons, hf.1, ih hf.2]
    cases f x with
    | error e => rfl
    | ok y =>
      cases xs.mapM f with
      | error e => rfl
      | ok ys => rfl

theorem relocateItems_eq_map (r : Relocation) (items : List (Item (Body α))) :
    relocateItems r items = items.map (relocateItem r) := by
  induction items with
  | nil => rfl
  | cons item items ih => rw [relocateItems, ih, List.map_cons]

theorem relocateExpr_eq_map (r : Relocation) (alternatives : Expr α) :
    relocateExpr r alternatives = alternatives.map (relocateSequence r) := by
  induction alternatives with
  | nil => rfl
  | cons seq rest ih => rw [relocateExpr, ih, List.map_cons]

theorem splitAction_relocated (r : Relocation) (items : List (Item (Body α))) :
    splitAction (items.map (relocateItem r)) =
      (((splitAction items).1.map (relocateItem r)), (splitAction items).2) := by
  unfold splitAction
  rw [List.getLast?_map]
  cases items.getLast? with
  | none => rfl
  | some item =>
    obtain ⟨name, autobind, lookahead, body, repetition, slot, position⟩ := item
    cases name with
    | some name => rfl
    | none =>
      cases autobind with
      | true => rfl
      | false =>
        cases lookahead with
        | ahead => rfl
        | notAhead => rfl
        | none =>
          cases repetition with
          | once =>
            cases body with
            | code host => simp [relocateItem, relocateBody, List.map_dropLast]
            | _ => rfl
          | _ =>
            cases body with
            | _ => rfl

variable {r : Relocation} (hqualifier : scope.qualifier = [])
  (hname : r.name = (scope.qualified qualifier).qualify)

include hqualifier hname

theorem translateBody_qualified {expression expression' : Spanned Value → Except Fault (Expr α)}
    (hexpression : ∀ x, expression' x = relocateExpr r <$> expression x) (x : Spanned Value) :
    translateBody (scope.qualified qualifier) expression' x = relocateBody r <$> translateBody scope expression x := by
  -- the scope of the module itself leaves names as they are
  have hplain : ∀ name, scope.qualify name = name := by
    intro name
    unfold Scope.qualify
    rw [hqualifier, List.nil_append, ite_self]
  unfold translateBody
  rw [map_bind]
  refine bind_congr ?_
  rintro ⟨tag, fields⟩
  simp only
  by_cases hcall : (tag == Bytes.ascii "Call") = true
  · rw [if_pos hcall, if_pos hcall, map_bind]
    refine bind_congr fun name => ?_
    rw [map_bind]
    refine bind_congr fun decorated => ?_
    rw [map_pure, relocateBody, hplain, hname]
    rfl
  rw [if_neg hcall, if_neg hcall]
  by_cases hgroup : (tag == Bytes.ascii "Parenthesized") = true
  · rw [if_pos hgroup, if_pos hgroup, map_bind]
    refine bind_congr fun body => ?_
    rw [hexpression, map_bind]
    cases expression body with
    | error e => rfl
    | ok e => rfl
  rw [if_neg hgroup, if_neg hgroup]
  by_cases hliteral : (tag == Bytes.ascii "Literal") = true
  · rw [if_pos hliteral, if_pos hliteral, translateLiteral_qualified, translateLiteral_relocated]
  rw [if_neg hliteral, if_neg hliteral]
  by_cases hclass : (tag == Bytes.ascii "Class") = true
  · rw [if_pos hclass, if_pos hclass, map_bind]
    refine bind_congr fun body => ?_
    rw [map_bind]
    refine bind_congr fun caseless => ?_
    cases CharClass.parse? body caseless with
    | ok cls => rfl
    | error issue => rfl
  rw [if_neg hclass, if_neg hclass]
  by_cases hdot : (tag == Bytes.ascii "Dot") = true
  · rw [if_pos hdot, if_pos hdot]
    rfl
  rw [if_neg hdot, if_neg hdot, map_bind]
  refine bind_congr fun code => ?_
  rw [hostOf_qualified, map_bind]
  rfl

theorem translateItem_qualified {expression expression' : Spanned Value → Except Fault (Expr α)}
    (hexpression : ∀ x, expression' x = relocateExpr r <$> expression x) (x : Spanned Value) :
    translateItem (scope.qualified qualifier) expression' x = relocateItem r <$> translateItem scope expression x := by
  unfold translateItem
  simp only [map_bind, translateBody_qualified hqualifier hname hexpression, bind_map_left]
  refine bind_congr ?_
  rintro ⟨tag, fields⟩
  refine bind_congr fun lookahead => bind_congr ?_
  rintro ⟨name, autobind⟩
  rfl

theorem translateSequence_qualified {expression expression' : Spanned Value → Except Fault (Expr α)}
    (hexpression : ∀ x, expression' x = relocateExpr r <$> expression x) (x : Spanned Value) :
    translateSequence (scope.qualified qualifier) expression' x =
      relocateSequence r <$> translateSequence scope expression x := by
  unfold translateSequence
  simp only [map_bind]
  refine bind_congr ?_
  rintro ⟨tag, fields⟩
  refine bind_congr fun xs => ?_
  rw [mapM_map xs fun y _ => translateItem_qualified hqualifier hname hexpression y, bind_map_left]
  refine bind_congr fun items => ?_
  rw [splitAction_relocated, map_pure, relocateSequence, relocateItems_eq_map]
  rfl

theorem translateExpr_qualified (depth : Nat) (x : Spanned Value) :
    (translateExpr (scope.qualified qualifier) depth x : Except Fault (Expr α)) =
      relocateExpr r <$> translateExpr scope depth x := by
  induction depth generalizing x with
  | zero => rfl
  | succ depth ih =>
    unfold translateExpr
    simp only [map_bind]
    refine bind_congr ?_
    rintro ⟨tag, fields⟩
    refine bind_congr fun first => ?_
    rw [translateSequence_qualified hqualifier hname ih, bind_map_left]
    refine bind_congr fun seq => bind_congr fun rest => ?_
    rw [mapM_map rest fun y _ => translateSequence_qualified hqualifier hname ih y, bind_map_left]
    refine bind_congr fun seqs => ?_
    rw [map_pure, relocateExpr, relocateExpr_eq_map]

end Translating

/-! ## Lets and definitions -/

/-- What a fold does to one state, another fold does to the state that corresponds. -/
theorem foldlM_corresponds {f : γ → β → Except Fault γ} (g : γ → β → Except Fault γ) (φ : γ → γ) {xs : List β}
    {c c' : γ} (hstep : ∀ x ∈ xs, ∀ c c', f c x = .ok c' → g (φ c) x = .ok (φ c'))
    (h : xs.foldlM f c = .ok c') : xs.foldlM g (φ c) = .ok (φ c') := by
  induction xs generalizing c with
  | nil =>
    cases h
    rfl
  | cons x xs ih =>
    rw [List.foldlM_cons] at h ⊢
    obtain ⟨d, hd, h⟩ := bind_eq_ok.mp h
    rw [hstep x List.mem_cons_self c d hd, ok_bind]
    exact ih (fun y hy => hstep y (List.mem_cons_of_mem x hy)) h

/-- Every element of a list that is translated has a translation. -/
theorem exists_of_mapM_eq_ok {f : β → Except Fault γ} {xs : List β} {ys : List γ} (h : xs.mapM f = .ok ys) :
    ∀ x ∈ xs, ∃ y ∈ ys, f x = .ok y := by
  induction xs generalizing ys with
  | nil => exact fun x hx => absurd hx List.not_mem_nil
  | cons x xs ih =>
    rw [List.mapM_cons] at h
    obtain ⟨y, hy, h⟩ := bind_eq_ok.mp h
    obtain ⟨ys', hys, h⟩ := bind_eq_ok.mp h
    cases h
    rw [List.forall_mem_cons]
    refine ⟨⟨y, List.mem_cons_self, hy⟩, ?_⟩
    intro z hz
    obtain ⟨w, hw, hfz⟩ := ih hys z hz
    exact ⟨w, List.mem_cons_of_mem y hw, hfz⟩

theorem mem_of_findEntry {name : Bytes} {x : β} {table : List (Bytes × β)} (h : findEntry name table = some x) :
    ∃ entry ∈ table, entry.2 = x := by
  induction table with
  | nil => cases h
  | cons entry rest ih =>
    rw [findEntry] at h
    split at h
    · cases h
      exact ⟨_, List.mem_cons_self, rfl⟩
    · obtain ⟨entry', hmem, hentry⟩ := ih h
      exact ⟨entry', List.mem_cons_of_mem _ hmem, hentry⟩

section Adding

variable {scope : Scope} {matchers : List (Bytes × Matcher)} {b c c' : Builder α} {x : Spanned Value}

/-- A let adds a matcher of the table under the name that it defines, to whatever builder. -/
theorem exists_of_addLet (h : addLet scope matchers c x = .ok c') : ∃ name matcher,
    definedName x = .ok name ∧ (∃ entry ∈ matchers, entry.2 = matcher) ∧
    ∀ (scope' : Scope) (b : Builder α), addLet scope' matchers b x =
      .ok (b.addMatcher (scope'.qualifier ++ name) matcher (scope'.position x)) := by
  unfold addLet at h
  obtain ⟨⟨tag, fields⟩, hnode, h⟩ := bind_eq_ok.mp h
  obtain ⟨target, htarget, h⟩ := bind_eq_ok.mp h
  cases hfound : findEntry target matchers with
  | none =>
    simp only [hfound] at h
    obtain ⟨_, _, h⟩ := bind_eq_ok.mp h
    cases h
  | some matcher =>
    simp only [hfound] at h
    obtain ⟨name, hname, -⟩ := bind_eq_ok.mp h
    refine ⟨name, matcher, ?_, mem_of_findEntry hfound, ?_⟩
    · rw [definedName, hnode, ok_bind]
      exact hname
    · intro scope' b
      simp only [addLet, hnode, ok_bind, htarget, hfound, hname]
      rfl

/-- A definition adds a rule with the expression of a tree under the name that it defines, to whatever builder. -/
theorem exists_of_addDefinition (h : addDefinition scope c x = .ok c') : ∃ name decorated tree,
    definedName x = .ok name ∧
    ∀ (scope' : Scope) (b : Builder α), addDefinition scope' b x = (exprOf scope' tree).map fun body =>
      b.addRule (scope'.qualifier ++ name) body decorated (scope'.position x) := by
  unfold addDefinition at h
  obtain ⟨⟨tag, fields⟩, hnode, h⟩ := bind_eq_ok.mp h
  obtain ⟨arrow, harrow, h⟩ := bind_eq_ok.mp h
  obtain ⟨name, hname, h⟩ := bind_eq_ok.mp h
  obtain ⟨tree, htree, -⟩ := bind_eq_ok.mp h
  refine ⟨name, arrow == Bytes.ascii "=", tree, ?_, ?_⟩
  · rw [definedName, hnode, ok_bind]
    exact hname
  · intro scope' b
    simp only [addDefinition, hnode, ok_bind, harrow, hname, htree]
    cases exprOf scope' tree with
    | error e => rfl
    | ok body => rfl

/-- A let adds a rule for a matcher of the table. -/
theorem addLet_eq_ok (h : addLet scope matchers c x = .ok c') : ∃ name matcher,
    definedName x = .ok name ∧ (∃ entry ∈ matchers, entry.2 = matcher) ∧
    c' = c.addMatcher (scope.qualifier ++ name) matcher (scope.position x) := by
  obtain ⟨name, matcher, hname, hmatcher, hadd⟩ := exists_of_addLet h
  exact ⟨name, matcher, hname, hmatcher, Except.ok.inj (h.symm.trans (hadd scope c))⟩

/-- A definition adds a rule with an expression. -/
theorem addDefinition_eq_ok (h : addDefinition scope c x = .ok c') : ∃ name decorated body,
    definedName x = .ok name ∧ c' = c.addRule (scope.qualifier ++ name) body decorated (scope.position x) := by
  obtain ⟨name, decorated, tree, hname, hadd⟩ := exists_of_addDefinition h
  rw [hadd] at h
  cases hbody : (exprOf scope tree : Except Fault (Expr α)) with
  | error e =>
    rw [hbody] at h
    cases h
  | ok body =>
    rw [hbody] at h
    exact ⟨name, decorated, body, hname, (Except.ok.inj h).symm⟩

variable {qualifier : Bytes} {r : Relocation} (hqualifier : scope.qualifier = [])
  (hdefined : ∀ name, definedName x = .ok name → r.name name = qualifier ++ name)

include hqualifier hdefined

theorem addLet_qualified (hmatcher : ∀ i, r.matcher i = b.matchers.length + i)
    (h : addLet scope matchers c x = .ok c') :
    addLet (scope.qualified qualifier) matchers (b.including c r) x = .ok (b.including c' r) := by
  obtain ⟨name, matcher, hname, -, hadd⟩ := exists_of_addLet h
  obtain rfl := Except.ok.inj (h.symm.trans (hadd scope c))
  rw [hadd]
  refine congrArg Except.ok ?_
  simp only [Builder.including, Builder.addMatcher, relocateRule, relocateExpr, hqualifier, hdefined name hname,
    hmatcher, List.nil_append, List.map_append, List.map_cons, List.map_nil, List.append_assoc, List.length_append,
    Option.map_some]
  rfl

theorem addDefinition_qualified (hrename : r.name = (scope.qualified qualifier).qualify)
    (h : addDefinition scope c x = .ok c') :
    addDefinition (scope.qualified qualifier) (b.including c r) x = .ok (b.including c' r) := by
  obtain ⟨name, decorated, tree, hname, hadd⟩ := exists_of_addDefinition h
  rw [hadd] at h ⊢
  have hexpr : (exprOf (scope.qualified qualifier) tree : Except Fault (Expr α)) =
      relocateExpr r <$> exprOf scope tree := translateExpr_qualified hqualifier hrename _ tree
  cases hbody : (exprOf scope tree : Except Fault (Expr α)) with
  | error e =>
    rw [hbody] at h
    cases h
  | ok body =>
    rw [hbody] at h hexpr
    rw [hexpr]
    obtain rfl := Except.ok.inj h
    refine congrArg Except.ok ?_
    simp only [Builder.including, Builder.addRule, relocateRule, hqualifier, hdefined name hname, List.nil_append,
      List.map_append, List.map_cons, List.map_nil, List.append_assoc, Option.map_none]
    rfl

end Adding

/-! ## Sources -/

/-- There is no dot in an identifier. -/
theorem dot_not_mem {name : Bytes} (h : isIdentifier name = true) : Bytes.char '.' ∉ name := by
  cases name with
  | nil => cases h
  | cons b rest =>
    have hletters : Bytes.char '.' ∉ letters := by decide
    have hwords : Bytes.char '.' ∉ wordBytes := by decide
    rw [isIdentifier, Bool.and_eq_true, List.contains_iff_mem, List.all_eq_true] at h
    intro hmem
    rcases List.mem_cons.mp hmem with heq | hrest
    · exact hletters (heq ▸ h.1)
    · exact hwords (List.contains_iff_mem.mp (h.2 _ hrest))

/-- An identifier is qualified where it is defined. -/
theorem Scope.qualify_local {scope : Scope} {name : Bytes} (hname : isIdentifier name = true)
    (hlocal : name ∈ scope.locals) : scope.qualify name = scope.qualifier ++ name := by
  have hdot : name.contains (Bytes.char '.') = false := by
    rw [Bool.eq_false_iff, ne_eq, List.contains_iff_mem]
    exact dot_not_mem hname
  unfold Scope.qualify
  rw [hdot, List.contains_iff_mem.mpr hlocal]
  rfl

/-- The parts of a source: its lets and definitions, the names that they define, and the first definition. -/
structure Parts where
  lets : List (Spanned Value)
  defs : List (Spanned Value)
  names : List Bytes
  first : Bytes

/-- Adds the parts of a source to a builder. -/
def Parts.add (parts : Parts) (scope : Scope) (matchers : List (Bytes × Matcher)) (b : Builder α) :
    Except Fault (Builder α) := do
  let b ← parts.lets.foldlM (addLet scope matchers) b
  parts.defs.foldlM (addDefinition scope) b

/-- A source has the given parts: adding it, under whatever qualifier, is adding them. The names that they define are
identifiers. -/
structure Parts.Of (parts : Parts) (text : Bytes) : Prop where
  add_eq : ∀ {α : Type} (braces : BracePolicy) (matchers : List (Bytes × Matcher)) (qualifier : Bytes) (b : Builder α),
    addSource text braces matchers qualifier b =
      (parts.add ⟨text, braces, qualifier, parts.names⟩ matchers b).map (·, qualifier ++ parts.first)
  defined : ∀ x, (x ∈ parts.lets ∨ x ∈ parts.defs) →
    ∃ name ∈ parts.names, definedName x = .ok name ∧ isIdentifier name = true

/-- A source that can be added has parts. -/
theorem exists_parts {text qualifier : Bytes} {braces : BracePolicy} {matchers : List (Bytes × Matcher)}
    {b : Builder α} {added : Builder α × Bytes} (h : addSource text braces matchers qualifier b = .ok added) :
    ∃ parts : Parts, parts.Of text := by
  unfold addSource at h
  obtain ⟨tree, htree, h⟩ := bind_eq_ok.mp h
  obtain ⟨tag, fields, lets, defs, hv, hlets, hletsgrown, hdefs, hdefsgrown⟩ := (parseSource_grown htree).grammar
  unfold addTree at h
  simp only [hv, Value.asNode, ok_bind, hlets, hdefs] at h
  obtain ⟨letNames, hletNames, h⟩ := bind_eq_ok.mp h
  obtain ⟨defNames, hdefNames, h⟩ := bind_eq_ok.mp h
  obtain ⟨_, _, h⟩ := bind_eq_ok.mp h
  obtain ⟨_, _, h⟩ := bind_eq_ok.mp h
  cases defNames with
  | nil => cases h
  | cons first others =>
    refine ⟨⟨lets, defs, letNames ++ first :: others, first⟩, ?_, ?_⟩
    · -- tree and names depend on the text alone, so that they are found again under every qualifier
      intro β braces matchers qualifier b
      unfold addSource addTree Parts.add
      simp only [htree, hv, Value.asNode, ok_bind, hlets, hdefs, hletNames, hdefNames]
      cases lets.foldlM (addLet ⟨text, braces, qualifier, letNames ++ first :: others⟩ matchers) b with
      | error e => rfl
      | ok c =>
        simp only [ok_bind]
        cases defs.foldlM (addDefinition ⟨text, braces, qualifier, letNames ++ first :: others⟩) c with
        | error e => rfl
        | ok c' => rfl
    · intro x hx
      obtain ⟨name, hname, hidentifier⟩ := definedName_identifier (hx.imp (hletsgrown x) (hdefsgrown x))
      refine ⟨name, ?_, hname, hidentifier⟩
      rcases hx with hx | hx
      · obtain ⟨y, hy, hxy⟩ := exists_of_mapM_eq_ok hletNames x hx
        rw [hname] at hxy
        cases hxy
        exact List.mem_append_left _ hy
      · obtain ⟨y, hy, hxy⟩ := exists_of_mapM_eq_ok hdefNames x hx
        rw [hname] at hxy
        cases hxy
        exact List.mem_append_right _ hy

namespace Parts

variable {parts : Parts} {qualifier : Bytes} {scope : Scope} {matchers : List (Bytes × Matcher)}
  {b c c' : Builder α}

/-- What the addition of every part keeps, the addition of all parts keeps. -/
theorem add_keeps {P : Builder α → Prop}
    (hlet : ∀ x ∈ parts.lets, ∀ c c', P c → addLet scope matchers c x = .ok c' → P c')
    (hdefinition : ∀ x ∈ parts.defs, ∀ c c', P c → addDefinition scope c x = .ok c' → P c') (hc : P c)
    (h : parts.add scope matchers c = .ok c') : P c' := by
  unfold add at h
  obtain ⟨d, hd, h⟩ := bind_eq_ok.mp h
  exact foldlM_keeps hdefinition (foldlM_keeps hlet hc hd) h

/-- The rules that are added have the names that the parts define. -/
theorem names_add (hqualifier : scope.qualifier = []) (hrules : c.rules = [])
    (h : parts.add scope matchers c = .ok c') :
    ∀ rule ∈ c'.rules, ∃ x, (x ∈ parts.lets ∨ x ∈ parts.defs) ∧ definedName x = .ok rule.name := by
  have hgrows : ∀ x, (x ∈ parts.lets ∨ x ∈ parts.defs) → ∀ d d' : Builder α,
      (∀ rule ∈ d.rules, ∃ y, (y ∈ parts.lets ∨ y ∈ parts.defs) ∧ definedName y = .ok rule.name) →
      (∃ rule, definedName x = .ok rule.name ∧ d'.rules = d.rules ++ [rule]) →
      ∀ rule ∈ d'.rules, ∃ y, (y ∈ parts.lets ∨ y ∈ parts.defs) ∧ definedName y = .ok rule.name := by
    rintro x hx d d' hd ⟨rule, hname, hrule⟩
    rw [hrule, List.forall_mem_append, List.forall_mem_singleton]
    exact ⟨hd, x, hx, hname⟩
  refine add_keeps (P := fun d => ∀ rule ∈ d.rules, ∃ y, (y ∈ parts.lets ∨ y ∈ parts.defs) ∧
    definedName y = .ok rule.name) ?_ ?_ ?_ h
  · intro x hx d d' hd hadd
    obtain ⟨name, matcher, hname, -, rfl⟩ := addLet_eq_ok hadd
    rw [hqualifier] at hadd ⊢
    exact hgrows x (.inl hx) d _ hd ⟨_, hname, rfl⟩
  · intro x hx d d' hd hadd
    obtain ⟨name, decorated, body, hname, rfl⟩ := addDefinition_eq_ok hadd
    rw [hqualifier] at hadd ⊢
    exact hgrows x (.inr hx) d _ hd ⟨_, hname, rfl⟩
  · rw [hrules]
    exact fun rule hrule => absurd hrule List.not_mem_nil

/-- **Parts under a qualifier add what they add without one, relocated.** -/
theorem add_qualified {r : Relocation} (hqualifier : scope.qualifier = [])
    (hdefined : ∀ x, (x ∈ parts.lets ∨ x ∈ parts.defs) →
      ∀ name, definedName x = .ok name → r.name name = qualifier ++ name)
    (hname : r.name = (scope.qualified qualifier).qualify) (hmatcher : ∀ i, r.matcher i = b.matchers.length + i)
    (h : parts.add scope matchers c = .ok c') :
    parts.add (scope.qualified qualifier) matchers (b.including c r) = .ok (b.including c' r) := by
  unfold add at h ⊢
  obtain ⟨d, hd, h⟩ := bind_eq_ok.mp h
  have hlets := foldlM_corresponds (addLet (scope.qualified qualifier) matchers) (fun c => b.including c r)
    (fun x hx e e' hadd => addLet_qualified hqualifier (hdefined x (.inl hx)) hmatcher hadd) hd
  have hdefs := foldlM_corresponds (addDefinition (scope.qualified qualifier)) (fun c => b.including c r)
    (fun x hx e e' hadd => addDefinition_qualified hqualifier (hdefined x (.inr hx)) hname hadd) h
  rw [hlets, ok_bind, hdefs]

end Parts

end Packrat.Source
