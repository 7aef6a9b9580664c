import Packrat.Parse
import Packrat.Proofs.Printing

/-!
# `Packrat.Proofs.Likeness` — rules that differ in positions only

The positions in a grammar say where its parts stand in a source. Linking needs them for its errors; what a
grammar does on a text does not depend on them. So a grammar that comes out of a source can be studied as one
that is written down without positions, once the two have been compared.

## Contents
- **Comparing.** `sameRules` compares rules without looking at positions.
- **Running.** A grammar does what it does without its positions.
-/

namespace Packrat

open Source (eraseHost eraseArgs eraseCode eraseSegment eraseBody eraseExpr eraseSequence eraseItems eraseItem
  eraseRule)

variable {α σ : Type}

/-! ## Comparing -/

/-- Whether two values are the same constant: constants have no parts. -/
def sameConstant : Value → Value → Bool
  | .bool a, .bool b => a == b
  | .int a, .int b => a == b
  | .text a, .text b => a == b
  | _, _ => false

theorem eq_of_sameConstant {v w : Value} (h : sameConstant v w = true) : v = w := by
  unfold sameConstant at h
  split at h
  · rw [eq_of_beq h]
  · rw [eq_of_beq h]
  · rw [eq_of_beq h]
  · cases h

mutual

/-- Whether two host expressions are the same up to positions. Actions of the host program without a name are
never the same. -/
def sameHost : HostNode α → HostNode α → Bool
  | .ref name slot, .ref name' slot' => name == name' && slot == slot'
  | .const v, .const w => sameConstant v w
  | .matched, .matched => true
  | .call name args constructs action, .call name' args' constructs' action' =>
    name == name' && sameArgs args args' && constructs == constructs' && action == action'
  | _, _ => false
termination_by structural node => node

/-- Whether two lists of arguments are. -/
def sameArgs : List (Host α) → List (Host α) → Bool
  | [], [] => true
  | ⟨node, _⟩ :: rest, ⟨node', _⟩ :: rest' => sameHost node node' && sameArgs rest rest'
  | _, _ => false
termination_by structural args => args

end

mutual

theorem eraseHost_eq_of_same : ∀ {node node' : HostNode α}, sameHost node node' = true →
    eraseHost node = eraseHost node'
  | .ref name slot, node', h => by
    cases node' with
    | ref name' slot' =>
      rw [sameHost, Bool.and_eq_true, beq_iff_eq, beq_iff_eq] at h
      rw [h.1, h.2]
    | _ => cases h
  | .const v, node', h => by
    cases node' with
    | const w => rw [eq_of_sameConstant h]
    | _ => cases h
  | .matched, node', h => by
    cases node' with
    | matched => rfl
    | _ => cases h
  | .native a, node', h => by cases node' <;> cases h
  | .call name args constructs action, node', h => by
    cases node' with
    | call name' args' constructs' action' =>
      simp only [sameHost, Bool.and_eq_true, beq_iff_eq] at h
      obtain ⟨⟨⟨rfl, hargs⟩, rfl⟩, rfl⟩ := h
      simp only [eraseHost, eraseArgs_eq_of_same hargs]
    | _ => cases h

theorem eraseArgs_eq_of_same : ∀ {args args' : List (Host α)}, sameArgs args args' = true →
    eraseArgs args = eraseArgs args'
  | [], args', h => by
    cases args' with
    | nil => rfl
    | cons _ _ => cases h
  | ⟨node, _⟩ :: rest, args', h => by
    cases args' with
    | nil => cases h
    | cons arg' rest' =>
      rw [sameArgs, Bool.and_eq_true] at h
      simp only [eraseArgs, eraseHost_eq_of_same h.1, eraseArgs_eq_of_same h.2]

end

/-- Whether two actions are the same up to positions. -/
def sameAction : Option (Host α) → Option (Host α) → Bool
  | none, none => true
  | some host, some host' => sameHost host.node host'.node
  | _, _ => false

theorem eraseCode_eq_of_same {action action' : Option (Host α)} (h : sameAction action action' = true) :
    action.map eraseCode = action'.map eraseCode := by
  unfold sameAction at h
  split at h
  · rfl
  · simp only [Option.map_some, eraseCode, eraseHost_eq_of_same h]
  · cases h

/-- Whether two classes are the same. -/
def sameClass (k k' : CharClass) : Bool :=
  k.ranges == k'.ranges && k.negated == k'.negated && k.caseless == k'.caseless && k.spelling == k'.spelling

theorem eq_of_sameClass {k k' : CharClass} (h : sameClass k k' = true) : k = k' := by
  obtain ⟨ranges, negated, caseless, spelling⟩ := k
  simp only [sameClass, Bool.and_eq_true, beq_iff_eq] at h
  obtain ⟨⟨⟨rfl, rfl⟩, rfl⟩, rfl⟩ := h
  rfl

mutual

/-- Whether two bodies are the same up to positions. Interpolated literals are never the same. -/
def sameBody : Body α → Body α → Bool
  | .code host, .code host' => sameHost host.node host'.node
  | .call name decorated target, .call name' decorated' target' =>
    name == name' && decorated == decorated' && target == target'
  | .group alternatives, .group alternatives' => sameExpr alternatives alternatives'
  | .literal spelling caseless braceSensitive, .literal spelling' caseless' braceSensitive' =>
    spelling == spelling' && caseless == caseless' && braceSensitive == braceSensitive'
  | .cls k, .cls k' => sameClass k k'
  | .any, .any => true
  | _, _ => false
termination_by structural body => body

/-- Whether two expressions are. -/
def sameExpr : List (Sequence α (Body α)) → List (Sequence α (Body α)) → Bool
  | [], [] => true
  | seq :: rest, seq' :: rest' => sameSequence seq seq' && sameExpr rest rest'
  | _, _ => false
termination_by structural alternatives => alternatives

/-- Whether two sequences are. -/
def sameSequence : Sequence α (Body α) → Sequence α (Body α) → Bool
  | ⟨items, action, layout, _⟩, ⟨items', action', layout', _⟩ =>
    sameItems items items' && sameAction action action' && layout == layout'
termination_by structural seq => seq

/-- Whether two lists of items are. -/
def sameItems : List (Item (Body α)) → List (Item (Body α)) → Bool
  | [], [] => true
  | item :: rest, item' :: rest' => sameItem item item' && sameItems rest rest'
  | _, _ => false
termination_by structural items => items

/-- Whether two items are. -/
def sameItem : Item (Body α) → Item (Body α) → Bool
  | ⟨name, autobind, lookahead, body, repetition, slot, _⟩,
    ⟨name', autobind', lookahead', body', repetition', slot', _⟩ =>
    name == name' && autobind == autobind' && lookahead == lookahead' && sameBody body body' &&
      repetition == repetition' && slot == slot'
termination_by structural item => item

end

mutual

theorem eraseBody_eq_of_same : ∀ {body body' : Body α}, sameBody body body' = true → eraseBody body = eraseBody body'
  | .code host, body', h => by
    cases body' with
    | code host' => simp only [eraseBody, eraseCode, eraseHost_eq_of_same h]
    | _ => cases h
  | .call name decorated target, body', h => by
    cases body' with
    | call name' decorated' target' =>
      simp only [sameBody, Bool.and_eq_true, beq_iff_eq] at h
      obtain ⟨⟨rfl, rfl⟩, rfl⟩ := h
      rfl
    | _ => cases h
  | .group alternatives, body', h => by
    cases body' with
    | group alternatives' => simp only [eraseBody, eraseExpr_eq_of_same h]
    | _ => cases h
  | .literal spelling caseless braceSensitive, body', h => by
    cases body' with
    | literal spelling' caseless' braceSensitive' =>
      simp only [sameBody, Bool.and_eq_true, beq_iff_eq] at h
      obtain ⟨⟨rfl, rfl⟩, rfl⟩ := h
      rfl
    | _ => cases h
  | .interpolated segments caseless, body', h => by cases body' <;> cases h
  | .cls k, body', h => by
    cases body' with
    | cls k' => rw [eq_of_sameClass h]
    | _ => cases h
  | .any, body', h => by
    cases body' with
    | any => rfl
    | _ => cases h

theorem eraseExpr_eq_of_same : ∀ {e e' : List (Sequence α (Body α))}, sameExpr e e' = true →
    eraseExpr e = eraseExpr e'
  | [], e', h => by
    cases e' with
    | nil => rfl
    | cons _ _ => cases h
  | seq :: rest, e', h => by
    cases e' with
    | nil => cases h
    | cons seq' rest' =>
      rw [sameExpr, Bool.and_eq_true] at h
      simp only [eraseExpr, eraseSequence_eq_of_same h.1, eraseExpr_eq_of_same h.2]

theorem eraseSequence_eq_of_same : ∀ {seq seq' : Sequence α (Body α)}, sameSequence seq seq' = true →
    eraseSequence seq = eraseSequence seq'
  | ⟨items, action, layout, _⟩, ⟨items', action', layout', _⟩, h => by
    simp only [sameSequence, Bool.and_eq_true, beq_iff_eq] at h
    obtain ⟨⟨hitems, haction⟩, rfl⟩ := h
    simp only [eraseSequence, eraseItems_eq_of_same hitems, eraseCode_eq_of_same haction]

theorem eraseItems_eq_of_same : ∀ {items items' : List (Item (Body α))}, sameItems items items' = true →
    eraseItems items = eraseItems items'
  | [], items', h => by
    cases items' with
    | nil => rfl
    | cons _ _ => cases h
  | item :: rest, items', h => by
    cases items' with
    | nil => cases h
    | cons item' rest' =>
      rw [sameItems, Bool.and_eq_true] at h
      simp only [eraseItems, eraseItem_eq_of_same h.1, eraseItems_eq_of_same h.2]

theorem eraseItem_eq_of_same : ∀ {item item' : Item (Body α)}, sameItem item item' = true →
    eraseItem item = eraseItem item'
  | ⟨name, autobind, lookahead, body, repetition, slot, _⟩,
    ⟨name', autobind', lookahead', body', repetition', slot', _⟩, h => by
    simp only [sameItem, Bool.and_eq_true, beq_iff_eq] at h
    obtain ⟨⟨⟨⟨⟨rfl, rfl⟩, rfl⟩, hbody⟩, rfl⟩, rfl⟩ := h
    simp only [eraseItem, eraseBody_eq_of_same hbody]

end

/-- Whether two rules are the same up to positions. -/
def sameRule (rule rule' : Rule α) : Bool :=
  rule.name == rule'.name && sameExpr rule.body rule'.body && rule.decorated == rule'.decorated &&
    rule.matcher == rule'.matcher

/-- Whether two lists of rules are. -/
def sameRules : List (Rule α) → List (Rule α) → Bool
  | [], [] => true
  | rule :: rest, rule' :: rest' => sameRule rule rule' && sameRules rest rest'
  | _, _ => false

theorem eraseRule_eq_of_same {rules rules' : List (Rule α)} (h : sameRules rules rules' = true) :
    rules.map eraseRule = rules'.map eraseRule := by
  induction rules generalizing rules' with
  | nil =>
    cases rules' with
    | nil => rfl
    | cons _ _ => cases h
  | cons rule rest ih =>
    cases rules' with
    | nil => cases h
    | cons rule' rest' =>
      simp only [sameRules, sameRule, Bool.and_eq_true, beq_iff_eq] at h
      obtain ⟨⟨⟨⟨hname, hbody⟩, hdecorated⟩, hmatcher⟩, hrest⟩ := h
      simp only [List.map_cons, ih hrest, eraseRule, hname, eraseExpr_eq_of_same hbody, hdecorated, hmatcher]

/-! ## Running -/

/-- A grammar without its positions. -/
def Grammar.erased (g : Grammar α) : Grammar α := { g with rules := g.rules.map eraseRule }

/-- A scene with its grammar without positions. -/
def Scene.erased (scene : Scene α σ) : Scene α σ := { scene with grammar := scene.grammar.erased }

section Running

variable (scene : Scene α σ)

theorem getElem?_rules_erased (i : Nat) :
    scene.erased.grammar.rules[i]? = scene.grammar.rules[i]?.map eraseRule :=
  List.getElem?_map ..

mutual

theorem evalHost_erased (frame : Frame) (stop : Nat) :
    ∀ node : HostNode α, evalHost scene.erased frame stop (eraseHost node) = evalHost scene frame stop node
  | .ref _ _ => rfl
  | .const _ => rfl
  | .matched => rfl
  | .native _ => rfl
  | .call name args constructs action => by
    simp only [eraseHost, evalHost, evalArgs_erased frame stop args]
    rfl

theorem evalArgs_erased (frame : Frame) (stop : Nat) :
    ∀ args : List (Host α), evalArgs scene.erased frame stop (eraseArgs args) = evalArgs scene frame stop args
  | [] => rfl
  | ⟨.ref name slot, _⟩ :: rest => by
    simp only [eraseArgs, eraseHost, evalArgs, evalArgs_erased frame stop rest]
  | ⟨.const v, _⟩ :: rest => by
    simp only [eraseArgs, eraseHost, evalArgs, evalArgs_erased frame stop rest]
    rfl
  | ⟨.matched, _⟩ :: rest => by
    simp only [eraseArgs, eraseHost, evalArgs, evalArgs_erased frame stop rest]
    rfl
  | ⟨.native a, _⟩ :: rest => by
    simp only [eraseArgs, eraseHost, evalArgs, evalArgs_erased frame stop rest]
    rfl
  | ⟨.call name args constructs action, _⟩ :: rest => by
    have hcall := evalHost_erased frame stop (.call name args constructs action)
    simp only [eraseHost] at hcall
    simp only [eraseArgs, eraseHost, evalArgs, evalArgs_erased frame stop rest, hcall]

end

theorem evalSegments_erased (frame : Frame) (stop : Nat) (segments : List (Segment α)) :
    evalSegments scene.erased frame stop (segments.map eraseSegment) = evalSegments scene frame stop segments := by
  induction segments with
  | nil => rfl
  | cons segment rest ih =>
    cases segment with
    | spelling text =>
      show (do return unescape text ++ (← evalSegments scene.erased frame stop (rest.map eraseSegment))) = _
      rw [ih]
      rfl
    | code host =>
      show (do
        let v ← evalHost scene.erased frame stop (eraseHost host.node)
        return v.toText ++ (← evalSegments scene.erased frame stop (rest.map eraseSegment))) = _
      rw [ih, evalHost_erased]
      rfl

variable (call : Bool → Nat → Step σ)

theorem evalCall_erased (quiet decorated : Bool) (target : Option Nat) :
    evalCall scene.erased call quiet decorated target = evalCall scene call quiet decorated target := by
  funext c
  cases target with
  | none => rfl
  | some i =>
    refine bind_congr fun r => ?_
    cases r with
    | failure offset => rfl
    | success tree next =>
      simp only [getElem?_rules_erased]
      cases scene.grammar.rules[i]? with
      | none => rfl
      | some rule => rfl

theorem isCode_eraseBody (body : Body α) : (eraseBody body).isCode = body.isCode := by cases body <;> rfl

theorem passesOn_eraseItems (items : List (Item (Body α))) : passesOn (eraseItems items) = passesOn items := by
  match items with
  | [] => rfl
  | [⟨_, _, lookahead, body, repetition, _, _⟩] => cases body <;> rfl
  | _ :: _ :: _ => rfl

theorem sequenceValue_erased (items : List (Item (Body α))) (action : Option (Host α)) :
    sequenceValue scene.erased (eraseItems items) (action.map eraseCode) = sequenceValue scene items action := by
  funext layout c slots last next
  cases action with
  | none => simp only [sequenceValue, Option.map_none, passesOn_eraseItems]
  | some host =>
    show (evalHost scene.erased _ _ (eraseHost host.node) >>= _) = _
    rw [evalHost_erased]
    rfl

mutual

theorem evalBody_erased (quiet : Bool) (frame : Frame) :
    ∀ body : Body α, evalBody scene.erased call quiet frame (eraseBody body) = evalBody scene call quiet frame body
  | .code host => by
    funext c
    show (evalHost scene.erased frame c.offset (eraseHost host.node) >>= _) = _
    rw [evalHost_erased]
    rfl
  | .call _ decorated target => evalCall_erased scene call quiet decorated target
  | .group alternatives => by
    funext c
    exact congrFun (evalExpr_erased quiet alternatives none) c
  | .literal _ _ _ => rfl
  | .interpolated segments caseless => by
    funext c
    show (evalSegments scene.erased frame c.offset (segments.map eraseSegment) >>= _) = _
    rw [evalSegments_erased]
    rfl
  | .cls _ => rfl
  | .any => rfl

theorem evalExpr_erased (quiet : Bool) : ∀ (e : List (Sequence α (Body α))) (earliest : Option Nat),
    evalExpr scene.erased call quiet (eraseExpr e) earliest = evalExpr scene call quiet e earliest
  | [], _ => rfl
  | seq :: rest, earliest => by
    funext c
    simp only [eraseExpr, evalExpr, evalSequence_erased quiet seq, evalExpr_erased quiet rest]

theorem evalSequence_erased (quiet : Bool) : ∀ seq : Sequence α (Body α),
    evalSequence scene.erased call quiet (eraseSequence seq) = evalSequence scene call quiet seq
  | ⟨items, action, layout, _⟩ => by
    funext c
    simp only [eraseSequence, evalSequence, evalItems_erased quiet layout c.offset items, sequenceValue_erased]

theorem evalItems_erased (quiet : Bool) (layout : List Bytes) (start : Nat) :
    ∀ (items : List (Item (Body α))) (slots : List (Spanned Value)) (last : Spanned Value) (c : Cursor),
      evalItems scene.erased call quiet layout start (eraseItems items) slots last c =
        evalItems scene call quiet layout start items slots last c
  | [], _, _, _ => rfl
  | ⟨name, autobind, lookahead, body, repetition, slot, position⟩ :: rest, slots, last, c => by
    have hitem := evalItem_erased quiet ⟨slots, layout, start⟩
      ⟨name, autobind, lookahead, body, repetition, slot, position⟩
    simp only [eraseItem] at hitem
    simp only [eraseItems, eraseItem, evalItems, hitem, evalItems_erased quiet layout start rest]

theorem evalItem_erased (quiet : Bool) (frame : Frame) : ∀ item : Item (Body α),
    evalItem scene.erased call quiet frame (eraseItem item) = evalItem scene call quiet frame item
  | ⟨_, _, lookahead, body, repetition, _, _⟩ => by
    simp only [eraseItem, evalItem, isCode_eraseBody, evalBody_erased _ frame body]
    rfl

end

theorem evalRule_erased (quiet : Bool) (rule : Rule α) :
    evalRule scene.erased call quiet (eraseRule rule) = evalRule scene call quiet rule := by
  funext c
  obtain ⟨name, body, decorated, matcher, position⟩ := rule
  cases matcher with
  | none =>
    simp only [evalRule, eraseRule, evalExpr_erased]
    rfl
  | some i => rfl

/-- Rule calls do not depend on positions. -/
theorem callRule_erased (depth : Nat) : callRule scene.erased depth = callRule scene depth := by
  induction depth with
  | zero =>
    funext quiet i c
    simp only [callRule, getElem?_rules_erased]
    cases scene.grammar.rules[i]? <;> rfl
  | succ depth ih =>
    funext quiet i c
    simp only [callRule, getElem?_rules_erased]
    cases scene.grammar.rules[i]? with
    | none => rfl
    | some rule =>
      simp only [Option.map_some, ih, evalRule_erased]
      rfl

end Running

/-- **Positions play no part in a parse.** -/
theorem Parser.parse_erased (p : Parser) (g : Grammar α) (client : Client α σ) (index : Nat) (input : Bytes)
    (env : Env σ) : Parser.parse p g.erased client index input env = Parser.parse p g client index input env := by
  have hempty : g.erased.isEmpty = g.isEmpty := List.isEmpty_map
  have hevaluate : ∀ (p : Parser) (c : Cursor) (env : Env σ),
      p.evaluate g.erased client index c env = p.evaluate g client index c env := by
    intro p c env
    have hcalls := callRule_erased (⟨g, client, env.settings, env.parsing, p.input, p.reach⟩ : Scene α σ)
      env.settings.maxDepth
    exact congrArg (fun call => (call false index c).run.run ⟨env.store, p.trail⟩) hcalls
  unfold Parser.parse
  simp only [hempty, hevaluate]

end Packrat
