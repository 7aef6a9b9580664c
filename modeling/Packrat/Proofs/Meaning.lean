import Packrat.Proofs.Nonterminals
import Packrat.Proofs.Printing

/-!
# `Packrat.Proofs.Meaning` — what the nodes of a tree are translated to

A value means a part of a rule list if it is translated to that part, up to positions. There is one lemma for
each kind of node: what the node means, from what its fields mean.

## Contents
- **Access.** Fields that are there.
- **Host expressions.** `HostMeant`.
- **Literals.** `SegmentsMeant`.
- **Expressions.** `BodyMeant`, `ItemMeant`, `SequenceMeant`, `ExprMeant`.
-/

namespace Packrat.Source

variable {α β γ δ : Type}

/-! ## Access -/

theorem ok_bind (b : β) (k : β → Except Fault γ) : (Except.ok b >>= k) = k b := rfl

section Access

variable {fields : List Field} {name : String} {x : Spanned Value}
  (hx : Value.findField (Bytes.ascii name) fields = some x)

include hx

theorem part_eq : part fields name = .ok x := by
  unfold part Value.fieldIn
  rw [hx]

theorem textPart_eq {t : Bytes} (ht : x.value = .text t) : textPart fields name = .ok t := by
  unfold textPart
  rw [part_eq hx, ok_bind, ht]
  rfl

theorem listPart_eq {xs : List (Spanned Value)} (hxs : x.value = .list xs) :
    listPart fields name = .ok xs := by
  unfold listPart
  rw [part_eq hx, ok_bind, hxs]
  rfl

theorem optionPart_eq {content : Option (Spanned Value)} (hcontent : x.value = .option content) :
    optionPart fields name = .ok content := by
  unfold optionPart
  rw [part_eq hx, ok_bind, hcontent]
  rfl

theorem truthyPart_eq : truthyPart fields name = .ok x.value.truthy := by
  unfold truthyPart
  rw [part_eq hx, ok_bind]
  rfl

end Access

/-- Values that mean the members of a list, one by one, are translated to the list. -/
theorem mapM_of_allHold {P : β → Value → Prop} {f : Spanned Value → Except Fault γ} {e : β → δ} {d : γ → δ}
    {ys : List β} {xs : List (Spanned Value)} (h : AllHold (ys.map P) xs)
    (hf : ∀ x ∈ xs, ∀ y, P y x.value → ∃ y', f x = .ok y' ∧ d y' = e y) :
    ∃ ys', xs.mapM f = .ok ys' ∧ ys'.map d = ys.map e := by
  induction ys generalizing xs with
  | nil =>
    cases h
    exact ⟨[], rfl, rfl⟩
  | cons y ys ih =>
    cases h with
    | @cons x _ xs _ hx hxs =>
      obtain ⟨y', hy', hey⟩ := hf x List.mem_cons_self y hx
      obtain ⟨ys', hys', heys⟩ := ih hxs fun x' hmem => hf x' (List.mem_cons_of_mem x hmem)
      refine ⟨y' :: ys', ?_, ?_⟩
      · rw [List.mapM_cons, hy', ok_bind, hys', ok_bind]
        rfl
      · rw [List.map_cons, List.map_cons, hey, heys]

/-- A field is less deep than a node of at most the given depth. -/
theorem depth_field_le {tag : Bytes} {fields : List Field} {depth : Nat} {name : Bytes} {x : Spanned Value}
    (hdepth : (Value.node tag fields).depth ≤ depth + 1) (hx : Value.findField name fields = some x) :
    x.value.depth ≤ depth :=
  Nat.le_trans (Value.depth_le_fieldsDepth hx) (Nat.le_of_succ_le_succ hdepth)

theorem depth_element_le {xs : List (Spanned Value)} {depth : Nat} {x : Spanned Value}
    (hdepth : (Value.list xs).depth ≤ depth) (hx : x ∈ xs) : x.value.depth ≤ depth :=
  Nat.le_trans (Value.depth_le_elementsDepth hx) (Nat.le_of_succ_le hdepth)

theorem depth_content_le {x : Spanned Value} {depth : Nat} (hdepth : (Value.option (some x)).depth ≤ depth) :
    x.value.depth ≤ depth :=
  Nat.le_of_succ_le hdepth

/-- A node is translated within its depth, which is not zero. -/
theorem exists_succ_of_depth_le {v : Value} {depth : Nat} (hdepth : v.depth ≤ depth) :
    ∃ depth', depth = depth' + 1 := by
  have hpos := v.depth_pos
  exact ⟨depth - 1, by omega⟩

section Meaning

-- every lemma below opens the translation at one of these
attribute [local simp] translateHost translateLiteral translateBody translateLookahead translateBinder
  translateRepetition translateItem translateSequence translateExpr

variable (scope : Scope)

/-! ## Host expressions -/

/-- A value is translated to a host expression, up to positions. -/
def HostMeant (node : HostNode α) (v : Value) : Prop :=
  ∀ depth start stop, v.depth ≤ depth →
    ∃ host : Host α, translateHost scope depth ⟨v, start, stop⟩ = .ok host ∧ eraseHost host.node = eraseHost node

variable {scope}

theorem hostMeant_of_eq {tag : Bytes} {fields : List Field} {node : HostNode α}
    (h : ∀ depth start stop, translateHost scope (depth + 1) ⟨.node tag fields, start, stop⟩
      = .ok ⟨node, scope.position ⟨.node tag fields, start, stop⟩⟩) :
    HostMeant scope node (.node tag fields) := by
  intro depth start stop hdepth
  obtain ⟨depth', hsucc⟩ := exists_succ_of_depth_le hdepth
  subst hsucc
  exact ⟨_, h depth' start stop, rfl⟩

section Leaves

variable {fields : List Field} {x : Spanned Value} {t : Bytes}

theorem hostMeant_name (hx : Value.findField (Bytes.ascii "name") fields = some x) (ht : x.value = .text t) :
    HostMeant scope (hostOfName t : HostNode α) (.node Nonterminal.hostName.name fields) := by
  refine hostMeant_of_eq fun depth start stop => ?_
  simp only [translateHost, Value.asNode, ok_bind]
  rw [if_neg (by decide), if_neg (by decide), if_neg (by decide), if_neg (by decide), textPart_eq hx ht]
  rfl

theorem hostMeant_matched : HostMeant scope (.matched : HostNode α) (.node Nonterminal.hostMatch.name fields) := by
  refine hostMeant_of_eq fun depth start stop => ?_
  simp only [translateHost, Value.asNode, ok_bind]
  rw [if_neg (by decide), if_neg (by decide), if_neg (by decide), if_pos (by decide)]
  rfl

theorem hostMeant_integer {n : Int64} (hx : Value.findField (Bytes.ascii "digits") fields = some x)
    (ht : x.value = .text t) (hn : Decimal.int64? t = some n) :
    HostMeant scope (.const (.int n) : HostNode α) (.node Nonterminal.hostInteger.name fields) := by
  refine hostMeant_of_eq fun depth start stop => ?_
  simp only [translateHost, Value.asNode, ok_bind]
  rw [if_neg (by decide), if_neg (by decide), if_pos (by decide), textPart_eq hx ht, ok_bind, hn]
  rfl

theorem hostMeant_text (hx : Value.findField (Bytes.ascii "text") fields = some x) (ht : x.value = .text t) :
    HostMeant scope (.const (.text (unescape t)) : HostNode α) (.node Nonterminal.hostString.name fields) := by
  refine hostMeant_of_eq fun depth start stop => ?_
  simp only [translateHost, Value.asNode, ok_bind]
  rw [if_neg (by decide), if_pos (by decide), textPart_eq hx ht]
  rfl

variable {y : Spanned Value}

theorem hostMeant_constant_call (hx : Value.findField (Bytes.ascii "name") fields = some x)
    (ht : x.value = .text t) (hy : Value.findField (Bytes.ascii "args") fields = some y)
    (hargs : y.value = .option none) :
    HostMeant scope (.call t [] false none : HostNode α) (.node Nonterminal.hostCall.name fields) := by
  refine hostMeant_of_eq fun depth start stop => ?_
  simp only [translateHost, Value.asNode, ok_bind]
  rw [if_pos (by decide), textPart_eq hx ht, ok_bind, optionPart_eq hy hargs]
  rfl

/-- What the arguments of a call look like. -/
def ArgsMeant (scope : Scope) (args : List (Host α)) (v : Value) : Prop :=
  ∃ first rest tag fields x y xs, args = first :: rest ∧ v = .node tag fields ∧
    Value.findField (Bytes.ascii "first") fields = some x ∧ HostMeant scope first.node x.value ∧
    Value.findField (Bytes.ascii "rest") fields = some y ∧ y.value = .list xs ∧
    AllHold (rest.map fun arg => HostMeant scope arg.node) xs

theorem hostMeant_call {args : List (Host α)} {z : Spanned Value}
    (hx : Value.findField (Bytes.ascii "name") fields = some x)
    (ht : x.value = .text t) (hy : Value.findField (Bytes.ascii "args") fields = some y)
    (hargs : y.value = .option (some z)) (hz : ArgsMeant scope args z.value) :
    HostMeant scope (.call t args false none : HostNode α) (.node Nonterminal.hostCall.name fields) := by
  intro depth start stop hdepth
  obtain ⟨depth, hsucc⟩ := exists_succ_of_depth_le hdepth
  subst hsucc
  obtain ⟨first, rest, tag, argFields, a, b, xs, hsplit, hnode, ha, hfirst, hb, hxs, hrest⟩ := hz
  -- the arguments lie deep inside the node
  have hcontent : z.value.depth ≤ depth := by
    refine depth_content_le ?_
    rw [← hargs]
    exact depth_field_le hdepth hy
  have hlevel : Value.fieldsDepth argFields ≤ depth := by
    rw [hnode] at hcontent
    exact Nat.le_of_succ_le hcontent
  have hdepthFirst : a.value.depth ≤ depth := Nat.le_trans (Value.depth_le_fieldsDepth ha) hlevel
  have hdepthRest : (Value.list xs).depth ≤ depth := by
    rw [← hxs]
    exact Nat.le_trans (Value.depth_le_fieldsDepth hb) hlevel
  obtain ⟨first', hfirst', hefirst⟩ := hfirst depth a.start a.stop hdepthFirst
  obtain ⟨rest', hrest', herest⟩ := mapM_of_allHold (f := translateHost scope depth)
    (e := eraseCode) (d := eraseCode) hrest fun w hw arg harg => by
      obtain ⟨host, hhost, heq⟩ := harg depth w.start w.stop (depth_element_le hdepthRest hw)
      exact ⟨host, hhost, congrArg (Located.mk · .unknown) heq⟩
  refine ⟨⟨.call t (first' :: rest') false none, scope.position ⟨.node Nonterminal.hostCall.name fields, start, stop⟩⟩,
    ?_, ?_⟩
  · simp only [translateHost, Value.asNode, ok_bind]
    rw [if_pos (by decide), textPart_eq hx ht, ok_bind, optionPart_eq hy hargs, ok_bind]
    simp only [hnode, ok_bind]
    rw [part_eq ha, ok_bind, hfirst', ok_bind, listPart_eq hb hxs, ok_bind, hrest', ok_bind]
    rfl
  · rw [hsplit]
    simp only [eraseHost, eraseArgs_eq_map, List.map_cons, herest]
    rw [eraseCode, eraseCode, hefirst]

end Leaves

/-- Host code within the depth of its tree. -/
theorem hostOf_meant {node : HostNode α} {x : Spanned Value} (h : HostMeant scope node x.value) :
    ∃ host : Host α, hostOf scope x = .ok host ∧ eraseHost host.node = eraseHost node :=
  h x.value.depth x.start x.stop (Nat.le_refl _)

/-! ## Literals -/

/-- A value is translated to a part of a literal: an escape or an interpolation. -/
def PartMeant (scope : Scope) (part : Segment α) (v : Value) : Prop :=
  match part with
  | .spelling t => v = .text t
  | .code host => ∃ fields x, v = .node Nonterminal.interpolation.name fields ∧
      Value.findField (Bytes.ascii "code") fields = some x ∧ HostMeant scope host.node x.value

/-- The segments that the parts of a literal make: texts that follow each other are one segment. -/
def mergeParts (spelling : Bytes) : List (Segment α) → List (Segment α)
  | [] => spellingSegment spelling
  | .spelling t :: rest => mergeParts (spelling ++ t) rest
  | .code host :: rest => spellingSegment spelling ++ .code host :: mergeParts [] rest

/-- The text of the parts of a literal without interpolations. -/
def spelledBy : List (Segment α) → Bytes
  | [] => []
  | .spelling t :: rest => t ++ spelledBy rest
  | .code _ :: rest => spelledBy rest

theorem literalSegments_meant {parts : List (Segment α)} {xs : List (Spanned Value)}
    (h : AllHold (parts.map (PartMeant scope)) xs)
    (hbraces : parts.any isCodeSegment = true → scope.braces = .interpolate) (spelling : Bytes) :
    ∃ whole segments, literalSegments scope spelling xs = .ok (parts.any isCodeSegment, whole, segments) ∧
      segments.map eraseSegment = (mergeParts spelling parts).map eraseSegment ∧
      (parts.any isCodeSegment = false → whole = spelling ++ spelledBy parts) := by
  induction parts generalizing spelling xs with
  | nil =>
    cases h
    exact ⟨spelling, spellingSegment spelling, rfl, rfl, fun _ => (List.append_nil spelling).symm⟩
  | cons part rest ih =>
    cases h with
    | @cons x _ xs _ hx hxs =>
      cases part with
      | spelling t =>
        obtain ⟨whole, segments, hok, hsegments, hwhole⟩ := ih hxs hbraces (spelling ++ t)
        refine ⟨whole, segments, ?_, hsegments, fun hnone => ?_⟩
        · have hvalue : x.value = .text t := hx
          rw [literalSegments, hvalue]
          exact hok
        · rw [hwhole hnone, List.append_assoc]
          rfl
      | code host =>
        obtain ⟨fields, y, hvalue, hy, hhost⟩ := hx
        -- an interpolation ends the text collected so far, and the next one starts empty
        have hinterpolate : scope.braces = .interpolate := hbraces rfl
        obtain ⟨host', hhost', hehost⟩ := hostOf_meant hhost
        obtain ⟨whole, segments, hok, hsegments, _⟩ := ih hxs (fun _ => hinterpolate) []
        refine ⟨[], spellingSegment spelling ++ .code host' :: segments, ?_, ?_, fun hnone => by cases hnone⟩
        · rw [literalSegments, hvalue]
          simp only [Value.isTagged]
          rw [if_neg (by decide), if_neg (by rw [hinterpolate]; decide)]
          simp only [Value.asNode, ok_bind]
          rw [part_eq hy, ok_bind, hhost', ok_bind, hok, ok_bind]
          rfl
        · rw [mergeParts, List.map_append, List.map_append, List.map_cons, List.map_cons, hsegments]
          simp only [eraseSegment, eraseCode, hehost]

/-! ## Expressions -/

/-- A value is translated to a body, up to positions. -/
def BodyMeant (scope : Scope) (body : Body α) (v : Value) : Prop :=
  ∀ depth start stop, v.depth ≤ depth → ∃ body' : Body α,
    translateBody scope (translateExpr scope depth) ⟨v, start, stop⟩ = .ok body' ∧ eraseBody body' = eraseBody body

def ItemMeant (scope : Scope) (item : Item (Body α)) (v : Value) : Prop :=
  ∀ depth start stop, v.depth ≤ depth → ∃ item' : Item (Body α),
    translateItem scope (translateExpr scope depth) ⟨v, start, stop⟩ = .ok item' ∧ eraseItem item' = eraseItem item

def SequenceMeant (scope : Scope) (seq : Sequence α (Body α)) (v : Value) : Prop :=
  ∀ depth start stop, v.depth ≤ depth → ∃ seq' : Sequence α (Body α),
    translateSequence scope (translateExpr scope depth) ⟨v, start, stop⟩ = .ok seq' ∧
      eraseSequence seq' = eraseSequence seq

def ExprMeant (scope : Scope) (e : Expr α) (v : Value) : Prop :=
  ∀ depth start stop, v.depth ≤ depth → ∃ e' : Expr α,
    translateExpr scope depth ⟨v, start, stop⟩ = .ok e' ∧ eraseExpr e' = eraseExpr e

section Bodies

variable {fields : List Field} {x y : Spanned Value} {t : Bytes}

theorem bodyMeant_code {host : Host α} (hx : Value.findField (Bytes.ascii "code") fields = some x)
    (hhost : HostMeant scope host.node x.value) :
    BodyMeant scope (.code host) (.node Nonterminal.code.name fields) := by
  intro depth start stop _
  obtain ⟨host', hhost', hehost⟩ := hostOf_meant hhost
  refine ⟨.code host', ?_, ?_⟩
  · simp only [translateBody, Value.asNode, ok_bind]
    rw [if_neg (by decide), if_neg (by decide), if_neg (by decide), if_neg (by decide), if_neg (by decide),
      part_eq hx, ok_bind, hhost', ok_bind]
    rfl
  · simp only [eraseBody, eraseCode, hehost]

theorem bodyMeant_any : BodyMeant scope (.any : Body α) (.node Nonterminal.dot.name fields) := by
  intro depth start stop _
  refine ⟨.any, ?_, rfl⟩
  simp only [translateBody, Value.asNode, ok_bind]
  rw [if_neg (by decide), if_neg (by decide), if_neg (by decide), if_neg (by decide), if_pos (by decide)]
  rfl

theorem bodyMeant_cls {k : CharClass} (hx : Value.findField (Bytes.ascii "body") fields = some x)
    (ht : x.value = .text t) (hy : Value.findField (Bytes.ascii "caseless") fields = some y)
    (hparse : CharClass.parse? t y.value.truthy = .ok k) :
    BodyMeant scope (.cls k : Body α) (.node Nonterminal.bracket.name fields) := by
  intro depth start stop _
  refine ⟨.cls k, ?_, rfl⟩
  simp only [translateBody, Value.asNode, ok_bind]
  rw [if_neg (by decide), if_neg (by decide), if_neg (by decide), if_pos (by decide), textPart_eq hx ht,
    ok_bind, truthyPart_eq hy, ok_bind, hparse]
  rfl

theorem bodyMeant_group {e : Expr α} (hx : Value.findField (Bytes.ascii "body") fields = some x)
    (he : ExprMeant scope e x.value) :
    BodyMeant scope (.group e) (.node Nonterminal.group.name fields) := by
  intro depth start stop hdepth
  have hlevel : x.value.depth ≤ depth := depth_field_le (Nat.le_succ_of_le hdepth) hx
  obtain ⟨e', he', hee⟩ := he depth x.start x.stop hlevel
  refine ⟨.group e', ?_, ?_⟩
  · simp only [translateBody, Value.asNode, ok_bind]
    rw [if_neg (by decide), if_pos (by decide), part_eq hx, ok_bind, he', ok_bind]
    rfl
  · simp only [eraseBody, hee]

theorem bodyMeant_call (hqualifier : scope.qualifier = []) {content : Option (Spanned Value)}
    (hx : Value.findField (Bytes.ascii "at") fields = some x) (hcontent : x.value = .option content)
    (hy : Value.findField (Bytes.ascii "name") fields = some y) (ht : y.value = .text t) :
    BodyMeant scope (.call t content.isSome none : Body α) (.node Nonterminal.call.name fields) := by
  intro depth start stop _
  have hname : scope.qualify t = t := by
    unfold Scope.qualify
    rw [hqualifier, List.nil_append, ite_self]
  refine ⟨.call t content.isSome none, ?_, rfl⟩
  simp only [translateBody, Value.asNode, ok_bind]
  rw [if_pos (by decide), textPart_eq hy ht, ok_bind, optionPart_eq hx hcontent, ok_bind, hname]
  rfl

section Literals

variable {parts : List (Segment α)} {xs : List (Spanned Value)}
  (hx : Value.findField (Bytes.ascii "parts") fields = some x) (hxs : x.value = .list xs)
  (hparts : AllHold (parts.map (PartMeant scope)) xs)
  (hy : Value.findField (Bytes.ascii "caseless") fields = some y)

include hx hxs hparts hy

theorem bodyMeant_literal (hplain : parts.any isCodeSegment = false) :
    BodyMeant scope (.literal (spelledBy parts) y.value.truthy true : Body α)
      (.node Nonterminal.literal.name fields) := by
  intro depth start stop _
  obtain ⟨whole, segments, hok, _, hwhole⟩ := literalSegments_meant hparts
    (fun hany => by rw [hplain] at hany; cases hany) []
  refine ⟨.literal whole y.value.truthy true, ?_, ?_⟩
  · simp only [translateBody, Value.asNode, ok_bind]
    rw [if_neg (by decide), if_neg (by decide), if_pos (by decide)]
    unfold translateLiteral
    rw [truthyPart_eq hy, ok_bind, listPart_eq hx hxs, ok_bind, hok, ok_bind, hplain]
    rfl
  · rw [hwhole hplain]
    rfl

theorem bodyMeant_interpolated (hbraces : scope.braces = .interpolate) (hcode : parts.any isCodeSegment = true) :
    BodyMeant scope (.interpolated (mergeParts [] parts) y.value.truthy : Body α)
      (.node Nonterminal.literal.name fields) := by
  intro depth start stop _
  obtain ⟨whole, segments, hok, hsegments, _⟩ := literalSegments_meant hparts (fun _ => hbraces) []
  refine ⟨.interpolated segments y.value.truthy, ?_, ?_⟩
  · simp only [translateBody, Value.asNode, ok_bind]
    rw [if_neg (by decide), if_neg (by decide), if_pos (by decide)]
    unfold translateLiteral
    rw [truthyPart_eq hy, ok_bind, listPart_eq hx hxs, ok_bind, hok, ok_bind, hcode]
    rfl
  · simp only [eraseBody, hsegments]

end Literals

end Bodies

section Items

/-- A value is translated to a lookahead. -/
def LookaheadMeant : Lookahead → Value → Prop
  | .none, v => v = .option none
  | .ahead, v => ∃ x, v = .option (some x) ∧ x.value = .text (Bytes.ascii "&")
  | .notAhead, v => ∃ x, v = .option (some x) ∧ x.value = .text (Bytes.ascii "!")

/-- A value is translated to a name, or to the wish to take that of the rule. -/
def BinderMeant : Option Bytes → Bool → Value → Prop
  | none, false, v => v = .option none
  | none, true, v => ∃ x fields, v = .option (some x) ∧ x.value = .node Nonterminal.autobind.name fields
  | some name, false, v => ∃ x fields y, v = .option (some x) ∧ x.value = .node Nonterminal.label.name fields ∧
      Value.findField (Bytes.ascii "name") fields = some y ∧ y.value = .text name
  | some _, true, _ => False

/-- A value is translated to a repetition. -/
def RepetitionMeant (repetition : Repetition) (v : Value) : Prop :=
  if repetition = .once then v = .option none
  else ∃ x, v = .option (some x) ∧ x.value = .text (operator repetition)

variable {fields : List Field} {x : Spanned Value}

theorem translateLookahead_meant {lookahead : Lookahead}
    (hx : Value.findField (Bytes.ascii "prefix") fields = some x) (h : LookaheadMeant lookahead x.value) :
    translateLookahead fields = .ok lookahead := by
  unfold translateLookahead
  cases lookahead with
  | none =>
    rw [optionPart_eq hx h]
    rfl
  | ahead =>
    obtain ⟨y, hy, ht⟩ := h
    rw [optionPart_eq hx hy, ok_bind]
    simp only [ht]
    rfl
  | notAhead =>
    obtain ⟨y, hy, ht⟩ := h
    rw [optionPart_eq hx hy, ok_bind]
    simp only [ht]
    rfl

theorem translateBinder_meant {name : Option Bytes} {autobind : Bool}
    (hx : Value.findField (Bytes.ascii "binder") fields = some x) (h : BinderMeant name autobind x.value) :
    translateBinder fields = .ok (name, autobind) := by
  unfold translateBinder
  cases name with
  | none =>
    cases autobind with
    | false =>
      rw [optionPart_eq hx h]
      rfl
    | true =>
      obtain ⟨y, fields', hy, hnode⟩ := h
      rw [optionPart_eq hx hy, ok_bind]
      simp only [hnode]
      rfl
  | some name =>
    cases autobind with
    | false =>
      obtain ⟨y, fields', z, hy, hnode, hz, ht⟩ := h
      rw [optionPart_eq hx hy, ok_bind]
      simp only [hnode, Value.isTagged, Value.asNode, ok_bind]
      rw [if_neg (by decide), textPart_eq hz ht]
      rfl
    | true => exact h.elim

theorem translateRepetition_meant {repetition : Repetition}
    (hx : Value.findField (Bytes.ascii "suffix") fields = some x) (h : RepetitionMeant repetition x.value) :
    translateRepetition fields = .ok repetition := by
  unfold translateRepetition
  unfold RepetitionMeant at h
  split at h
  · next honce =>
    subst honce
    rw [optionPart_eq hx h]
    rfl
  · next honce =>
    obtain ⟨y, hy, ht⟩ := h
    rw [optionPart_eq hx hy, ok_bind]
    simp only [ht]
    cases repetition with
    | once => exact absurd rfl honce
    | optional => rfl
    | star => rfl
    | plus => rfl

theorem itemMeant {name : Option Bytes} {autobind : Bool} {lookahead : Lookahead} {body : Body α}
    {repetition : Repetition} {position : Position} {a b c d : Spanned Value}
    (ha : Value.findField (Bytes.ascii "prefix") fields = some a) (hlookahead : LookaheadMeant lookahead a.value)
    (hb : Value.findField (Bytes.ascii "binder") fields = some b) (hbinder : BinderMeant name autobind b.value)
    (hc : Value.findField (Bytes.ascii "primary") fields = some c) (hbody : BodyMeant scope body c.value)
    (hd : Value.findField (Bytes.ascii "suffix") fields = some d)
    (hrepetition : RepetitionMeant repetition d.value) :
    ItemMeant scope ⟨name, autobind, lookahead, body, repetition, none, position⟩
      (.node Nonterminal.item.name fields) := by
  intro depth start stop hdepth
  have hlevel : c.value.depth ≤ depth := depth_field_le (Nat.le_succ_of_le hdepth) hc
  obtain ⟨body', hbody', hebody⟩ := hbody depth c.start c.stop hlevel
  refine ⟨⟨name, autobind, lookahead, body', repetition, none,
    scope.position ⟨.node Nonterminal.item.name fields, start, stop⟩⟩, ?_, ?_⟩
  · simp only [translateItem, Value.asNode, ok_bind]
    rw [translateLookahead_meant ha hlookahead, ok_bind, translateBinder_meant hb hbinder, ok_bind,
      part_eq hc, ok_bind, hbody', ok_bind, translateRepetition_meant hd hrepetition, ok_bind]
    rfl
  · simp only [eraseItem, hebody]

end Items

section Sequences

/-- The item that an action is read as. -/
def actionItems : Option (Host α) → List (Item (Body α))
  | none => []
  | some host => [⟨none, false, .none, .code host, .once, none, .unknown⟩]

theorem isAction_eraseItem (item : Item (Body α)) : isAction (eraseItem item) = isAction item := by
  obtain ⟨name, autobind, lookahead, body, repetition, slot, position⟩ := item
  cases body <;> rfl

theorem splitAction_of_not_isAction {items : List (Item (Body α))}
    (h : items.getLast?.any isAction = false) : splitAction items = (items, none) := by
  unfold splitAction
  split
  · next hlast =>
    rw [hlast] at h
    cases h
  · rfl

/-- Items are split from their action as they are up to positions. -/
theorem splitAction_erase {items items' : List (Item (Body α))} {action : Option (Host α)}
    (hitems : eraseItems items' = eraseItems (items ++ actionItems action))
    (hnone : action = none → items.getLast?.any isAction = false) :
    eraseItems (splitAction items').1 = eraseItems items ∧
      (splitAction items').2.map eraseCode = action.map eraseCode := by
  rw [eraseItems_eq_map, eraseItems_eq_map] at hitems
  rw [eraseItems_eq_map, eraseItems_eq_map]
  cases action with
  | none =>
    rw [actionItems, List.append_nil] at hitems
    have hlast : (items'.getLast?.map eraseItem).any isAction = (items.getLast?.map eraseItem).any isAction := by
      rw [← List.getLast?_map, ← List.getLast?_map, hitems]
    have hsame : items'.getLast?.any isAction = items.getLast?.any isAction := by
      simpa [Option.any_map, Function.comp_def, isAction_eraseItem] using hlast
    rw [splitAction_of_not_isAction (hsame.trans (hnone rfl))]
    exact ⟨hitems, rfl⟩
  | some host =>
    rw [List.map_append] at hitems
    obtain ⟨front, back, hsplit, hfront, hback⟩ := List.map_eq_append_iff.mp hitems
    obtain ⟨last, hlast, helast⟩ := List.map_eq_singleton_iff.mp hback
    obtain ⟨name, autobind, lookahead, body, repetition, slot, position⟩ := last
    cases body with
    | code host' =>
      simp only [eraseItem, eraseBody, Item.mk.injEq, Body.code.injEq] at helast
      obtain ⟨hname, hautobind, hlookahead, hhost, hrepetition, _, _⟩ := helast
      subst hname hautobind hlookahead hrepetition hsplit hlast
      have hsplitAction : splitAction (front ++ [⟨none, false, .none, .code host', .once, slot, position⟩])
          = (front, some host') := by
        unfold splitAction
        simp
      rw [hsplitAction]
      exact ⟨hfront, congrArg some hhost⟩
    | _ => cases helast

theorem sequenceMeant {items : List (Item (Body α))} {action : Option (Host α)} {position : Position}
    {fields : List Field} {x : Spanned Value} {xs : List (Spanned Value)}
    (hnone : action = none → items.getLast?.any isAction = false)
    (hx : Value.findField (Bytes.ascii "items") fields = some x) (hxs : x.value = .list xs)
    (hitems : AllHold ((items ++ actionItems action).map (ItemMeant scope)) xs) :
    SequenceMeant scope ⟨items, action, [], position⟩ (.node Nonterminal.sequence.name fields) := by
  intro depth start stop hdepth
  have hlevel : (Value.list xs).depth ≤ depth := by
    rw [← hxs]
    exact depth_field_le (Nat.le_succ_of_le hdepth) hx
  obtain ⟨items', hitems', heitems⟩ := mapM_of_allHold
    (f := translateItem scope (translateExpr scope depth)) (e := eraseItem) (d := eraseItem) hitems
    fun y hy item hitem => hitem depth y.start y.stop (depth_element_le hlevel hy)
  rw [← eraseItems_eq_map, ← eraseItems_eq_map] at heitems
  obtain ⟨heinit, heaction⟩ := splitAction_erase heitems hnone
  refine ⟨⟨(splitAction items').1, (splitAction items').2, [],
    scope.position ⟨.node Nonterminal.sequence.name fields, start, stop⟩⟩, ?_, ?_⟩
  · simp only [translateSequence, Value.asNode, ok_bind]
    rw [listPart_eq hx hxs, ok_bind, hitems', ok_bind]
    rfl
  · simp only [eraseSequence, heinit, heaction]

theorem exprMeant {first : Sequence α (Body α)} {rest : Expr α} {fields : List Field} {x y : Spanned Value}
    {xs : List (Spanned Value)} (hx : Value.findField (Bytes.ascii "first") fields = some x)
    (hfirst : SequenceMeant scope first x.value) (hy : Value.findField (Bytes.ascii "rest") fields = some y)
    (hxs : y.value = .list xs) (hrest : AllHold (rest.map (SequenceMeant scope)) xs) :
    ExprMeant scope (first :: rest) (.node Nonterminal.expression.name fields) := by
  intro depth start stop hdepth
  obtain ⟨depth, hsucc⟩ := exists_succ_of_depth_le hdepth
  subst hsucc
  have hlevel : (Value.list xs).depth ≤ depth := by
    rw [← hxs]
    exact depth_field_le hdepth hy
  obtain ⟨first', hfirst', hefirst⟩ := hfirst depth x.start x.stop (depth_field_le hdepth hx)
  obtain ⟨rest', hrest', herest⟩ := mapM_of_allHold
    (f := translateSequence scope (translateExpr scope depth)) (e := eraseSequence) (d := eraseSequence) hrest
    fun z hz seq hseq => hseq depth z.start z.stop (depth_element_le hlevel hz)
  refine ⟨first' :: rest', ?_, ?_⟩
  · simp only [translateExpr, Value.asNode, ok_bind]
    rw [part_eq hx, ok_bind, hfirst', ok_bind, listPart_eq hy hxs, ok_bind, hrest', ok_bind]
    rfl
  · rw [eraseExpr_eq_map, eraseExpr_eq_map, List.map_cons, List.map_cons, hefirst, herest]

end Sequences

end Meaning

end Packrat.Source
