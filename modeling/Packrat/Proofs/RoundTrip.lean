import Packrat.Proofs.ExprReading
import Packrat.Proofs.Memoization

/-!
# `Packrat.Proofs.RoundTrip` — printed rules are gathered from their source

The parts of a rule list are read as they are printed, and what is read is translated to what was printed. Put
together, compiling a printed source gathers its rules.

## Contents
- **Definitions.** A definition is read as it is printed and translated to its rule.
- **Lets.** No definition is taken for a let.
- **Sources.** A whole source is read up to its end, and its tree is translated to its rules.
- **Depth.** What the parse of a source answers unless depth runs out.
- **Evaluation.** `evaluatesTo`: what a source compiles to, evaluated without a memo.
- **Round trip.** `gather_printed`.
-/

namespace Packrat.Source

variable {α : Type} {source : Bytes} {scope : Scope} {g g' t rest : Bytes}

/-! ## Definitions -/

/-- A value is translated to a rule, up to positions. -/
def RuleMeant (scope : Scope) (rule : Rule α) (v : Value) : Prop :=
  ∀ start stop, definedName ⟨v, start, stop⟩ = .ok rule.name ∧
    ∀ b : Builder α, ∃ body position,
      addDefinition scope b ⟨v, start, stop⟩ = .ok (b.addRule rule.name body rule.decorated position) ∧
        eraseExpr body = eraseExpr rule.body

theorem ruleMeant (hqualifier : scope.qualifier = []) {rule : Rule α} {fields : List Field}
    {x y z : Spanned Value} (hx : Value.findField (Bytes.ascii "name") fields = some x)
    (hname : x.value = .text rule.name) (hy : Value.findField (Bytes.ascii "arrow") fields = some y)
    (harrow : y.value = .text (Bytes.ascii (if rule.decorated then "=" else "<-")))
    (hz : Value.findField (Bytes.ascii "body") fields = some z) (hbody : ExprMeant scope rule.body z.value) :
    RuleMeant scope rule (.node Nonterminal.definition.name fields) := by
  intro start stop
  refine ⟨?_, fun b => ?_⟩
  · simp only [definedName, Value.asNode, ok_bind]
    exact textPart_eq hx hname
  · obtain ⟨body, hok, hebody⟩ := hbody z.value.depth z.start z.stop (Nat.le_refl _)
    have hexpr : exprOf scope z = .ok body := hok
    have hdecorated : (Bytes.ascii (if rule.decorated then "=" else "<-") == Bytes.ascii "=")
        = rule.decorated := by
      cases rule.decorated <;> rfl
    refine ⟨body, scope.position ⟨.node Nonterminal.definition.name fields, start, stop⟩, ?_, hebody⟩
    simp only [addDefinition, Value.asNode, ok_bind]
    rw [textPart_eq hy harrow, ok_bind, textPart_eq hx hname, ok_bind, part_eq hz, ok_bind, hexpr, ok_bind,
      hdecorated, hqualifier, List.nil_append]
    rfl

/-- The names of the definitions. -/
theorem definedNames_meant {rules : List (Rule α)} {xs : List (Spanned Value)}
    (h : AllHold (rules.map (RuleMeant scope)) xs) : xs.mapM definedName = .ok (rules.map (·.name)) := by
  obtain ⟨names, hnames, hsame⟩ := mapM_of_allHold (f := definedName) (e := fun rule : Rule α => rule.name)
    (d := fun name => name) h fun x _ rule hrule => ⟨rule.name, (hrule x.start x.stop).1, rfl⟩
  rw [hnames, ← hsame, List.map_id']

/-- The definitions are added one after the other. -/
theorem addDefinitions_meant {rules : List (Rule α)} {xs : List (Spanned Value)}
    (h : AllHold (rules.map (RuleMeant scope)) xs) (hmatcher : ∀ rule ∈ rules, rule.matcher = none)
    (b : Builder α) : ∃ added, xs.foldlM (addDefinition scope) b = .ok { b with rules := b.rules ++ added } ∧
      added.map eraseRule = rules.map eraseRule := by
  induction rules generalizing xs b with
  | nil =>
    cases h
    exact ⟨[], by rw [List.append_nil]; rfl, rfl⟩
  | cons rule rules ih =>
    cases h with
    | @cons x _ xs _ hx hxs =>
      obtain ⟨body, position, hadd, hbody⟩ := (hx x.start x.stop).2 b
      obtain ⟨added, hrest, hsame⟩ := ih hxs (fun r hr => hmatcher r (List.mem_cons_of_mem rule hr))
        (b.addRule rule.name body rule.decorated position)
      refine ⟨⟨rule.name, body, rule.decorated, none, position⟩ :: added, ?_, ?_⟩
      · rw [List.foldlM_cons, hadd, ok_bind, hrest, Builder.addRule, List.append_assoc, List.singleton_append]
      · rw [List.map_cons, List.map_cons, hsame, eraseRule, eraseRule, hbody, hmatcher rule List.mem_cons_self]

section Definitions

variable {braces : BracePolicy} {tables : NameTables} (hqualifier : scope.qualifier = [])
  (hbraces : scope.braces = braces)

theorem RulesPrinted.startsIn {rules : List (Rule α)} (h : RulesPrinted braces rules t) : StartsIn letters t := by
  cases rules with
  | nil =>
    have ht : t = [] := h
    subst ht
    exact StartsIn.nil
  | cons rule rules =>
    obtain ⟨u, v, ⟨hname, _, g, g', w, _, _, _, hu⟩, _, ht⟩ := h
    subst hu ht
    obtain ⟨hne, hstart⟩ := startsIn_identifier hname
    exact (hstart.append_of_ne_nil hne).append_of_ne_nil (List.append_ne_nil_of_left_ne_nil hne _)

/-- An expression ends before further definitions, or at the end of the text. -/
theorem exprEnd_rules {rules : List (Rule α)} (h : RulesPrinted braces rules t) :
    ExprEnd source (!rules.isEmpty) t := by
  cases rules with
  | nil =>
    have ht : t = [] := h
    subst ht
    exact exprEnd_nil
  | cons rule rules =>
    obtain ⟨u, v, ⟨hname, _, g, g', w, hg, hg', hw, hu⟩, hv, ht⟩ := h
    subst hu ht
    have hsolid : StartsIn solid (w ++ v) :=
      (hw.startsIn.append (hv.startsIn.widen (by decide))).widen (by decide)
    obtain ⟨hne, hstart⟩ := startsIn_identifier hname
    simp only [List.append_assoc]
    refine ⟨fails_item_definition hname hg rule.decorated hg' hsolid, ?_, fun hfalse => by cases hfalse⟩
    exact (hstart.mono fun _ hb => List.mem_append_left _ hb).append_of_ne_nil hne

include hqualifier hbraces

theorem takes_definition {rule : Rule α} {followed : Bool} {linked : Expr α}
    (hlink : linkExpr tables rule.body = .ok linked) (h : RulePrinted braces followed rule t)
    (hend : ExprEnd source followed rest) :
    BodyTakes (basis source) Nonterminal.definition.body t rest (RuleMeant scope rule) := by
  obtain ⟨hname, _, g, g', u, hg, hg', hu, ht⟩ := h
  subst ht
  have hsolid : StartsIn solid (u ++ rest) := by
    have hrest : StartsIn itemEnds rest := hend.sequence.starts
    exact (hu.startsIn.append hrest).mono fun b hb => bodyEnds_subset_solid b (itemEnds_subset_bodyEnds b hb)
  have harrow : StartsIn (Bytes.ascii "<=")
      (Bytes.ascii (if rule.decorated then "=" else "<-") ++ g' ++ u ++ rest) := by
    rw [List.append_assoc, List.append_assoc]
    exact startsIn_arrow rule.decorated
  refine takes_record rfl rfl rfl ?_
  rw [← List.append_assoc rule.name, ← List.append_assoc (Bytes.ascii _)]
  refine ItemsTake.cons (ItemTakes.once (takes_identifier hname hg ?_ (harrow.widen (by decide))))
    fun x hx => ?_
  · exact hg.startsIn.append (harrow.widen (by decide))
  refine ItemsTake.cons (ItemTakes.once (takes_arrow rule.decorated hg' hsolid)) fun y hy => ?_
  refine ItemsTake.last (ItemTakes.once (takes_expr hqualifier hbraces rule.body hlink hu hend)) fun z hz => ?_
  exact ruleMeant hqualifier rfl hx rfl hy rfl hz

/-- Definitions are read one after the other. -/
theorem repeats_definitions {rules : List (Rule α)}
    (hlink : ∀ rule ∈ rules, ∃ linked, linkExpr tables rule.body = .ok linked)
    (h : RulesPrinted braces rules t) :
    Repeats (basis source) Nonterminal.definition.body [] t (rules.map (RuleMeant scope)) := by
  induction rules generalizing t with
  | nil =>
    have ht : t = [] := h
    subst ht
    exact Repeats.stop (fails_of_refused (StartsIn.nil : StartsIn [] []) (by decide))
  | cons rule rules ih =>
    obtain ⟨u, v, hu, hv, ht⟩ := h
    subst ht
    obtain ⟨linked, hlinked⟩ := hlink rule List.mem_cons_self
    have hne : u ≠ [] := by
      obtain ⟨hname, _, _, _, _, _, _, _, hu⟩ := hu
      subst hu
      exact List.append_ne_nil_of_left_ne_nil (startsIn_identifier hname).1 _
    have hend : ExprEnd source (!rules.isEmpty) (v ++ []) := by
      rw [List.append_nil]
      exact exprEnd_rules hv
    exact Repeats.more hne (takes_definition hqualifier hbraces hlinked hu hend)
      (ih (fun r hr => hlink r (List.mem_cons_of_mem rule hr)) hv)

end Definitions

/-! ## Lets -/

/-- An ASCII rune at the front of a text is the first of some runes, or they do not stand there. -/
theorem runes?_ascii {b : UInt8} (hb : b < 0x80) (c : Rune) (rs : List Rune) (text : Bytes) :
    Terminal.runes? false (c :: rs) (b :: text) =
      if b.toNat = c then (Terminal.runes? false rs text).map (1 + ·) else none := by
  rw [Terminal.runes?, Terminal.rune?_ascii hb]
  simp [Terminal.agree]

theorem breaks_ascii {b : UInt8} (hb : b ∈ breaks) : b < 0x80 ∧ b ∉ letters := by
  have hall : (breaks.all fun b => b < 0x80 && !letters.contains b) = true := by decide
  simpa using List.all_eq_true.mp hall b hb

theorem wordBytes_ascii {b : UInt8} (hb : b ∈ wordBytes) : b < 0x80 := by
  have hall : (wordBytes.all (· < 0x80)) = true := by decide
  exact of_decide_eq_true (List.all_eq_true.mp hall b hb)

/-- A word made of letters stands in front of a text only if the name there starts with it. -/
theorem word_or_none {w name back : Bytes} (hw : ∀ b ∈ w, b ∈ letters) (hname : ∀ b ∈ name, b ∈ wordBytes)
    (hback : StartsIn breaks back) :
    Terminal.runes? false (w.map (·.toNat)) (name ++ back) = none ∨ ∃ more, name = w ++ more := by
  induction w generalizing name with
  | nil => exact .inr ⟨name, rfl⟩
  | cons c w ih =>
    have hc : c ∈ letters := hw c List.mem_cons_self
    cases name with
    | nil =>
      left
      cases back with
      | nil => rfl
      | cons b back =>
        obtain ⟨hascii, hletter⟩ := breaks_ascii (hback b rfl)
        have hne : b.toNat ≠ c.toNat := by
          intro heq
          rw [UInt8.toNat_inj.mp heq] at hletter
          exact hletter hc
        rw [List.nil_append, List.map_cons, runes?_ascii hascii, if_neg hne]
    | cons b name =>
      rw [List.cons_append, List.map_cons, runes?_ascii (wordBytes_ascii (hname b List.mem_cons_self))]
      by_cases hbc : b.toNat = c.toNat
      · rw [if_pos hbc, UInt8.toNat_inj.mp hbc]
        rcases ih (fun b' hb' => hw b' (List.mem_cons_of_mem c hb'))
          (fun b' hb' => hname b' (List.mem_cons_of_mem b hb')) with hnone | ⟨more, hmore⟩
        · left
          rw [hnone]
          rfl
        · right
          exact ⟨more, congrArg (c :: ·) hmore⟩
      · left
        exact if_neg hbc

theorem identifier_wordBytes {name : Bytes} (h : isIdentifier name = true) : ∀ b ∈ name, b ∈ wordBytes := by
  cases name with
  | nil => cases h
  | cons b name =>
    simp only [isIdentifier, Bool.and_eq_true, List.contains_iff_mem, List.all_eq_true] at h
    intro b' hb'
    rcases List.mem_cons.mp hb' with heq | hmem
    · rw [heq]
      exact List.mem_append_left _ h.1
    · exact h.2 b' hmem

/-- A name before an arrow is no let, even if it starts like one or is the word itself. -/
theorem fails_letting {name : Bytes} (hname : isIdentifier name = true) (hg : Gap g)
    (hrest : StartsIn (Bytes.ascii "<=") rest) :
    BodyFails (basis source) Nonterminal.letting.body (name ++ (g ++ rest)) := by
  have hback : StartsIn breaks (g ++ rest) := hg.startsIn.append (hrest.widen (by decide))
  refine fails_body (ExprFails.cons (SequenceFails.of_items ?_) ExprFails.nil)
  rcases word_or_none (w := Bytes.ascii "let") (by decide) (identifier_wordBytes hname) hback with
    hnone | ⟨more, hmore⟩
  · exact ItemsFail.head (ItemFails.once (BodyFails.terminal rfl hnone))
  · subst hmore
    rw [List.append_assoc]
    refine ItemsFail.tail (ItemTakes.once (takes_word rfl)) ?_
    cases more with
    | nil =>
      rw [List.nil_append]
      refine ItemsFail.skip (ItemTakes.notAhead (fails_identRune hback)) ?_
      refine ItemsFail.tail (ItemTakes.once (takes_gap hg (hrest.widen (by decide)))) ?_
      exact ItemsFail.head (ItemFails.once (fails_of_refused hrest (by decide)))
    | cons b more =>
      have hb : b ∈ wordBytes :=
        identifier_wordBytes hname b (List.mem_append_right _ List.mem_cons_self)
      rw [List.cons_append, ← List.singleton_append]
      exact ItemsFail.head (ItemFails.notAhead rfl (takes_identRune hb))

/-! ## Sources -/

section Sources

variable {braces : BracePolicy} {tables : NameTables} {rules : List (Rule α)}

/-- Definitions do not start with a let. -/
theorem fails_letting_rules (hne : rules ≠ []) (h : RulesPrinted braces rules t) :
    BodyFails (basis source) Nonterminal.letting.body t := by
  cases rules with
  | nil => exact absurd rfl hne
  | cons rule rules =>
    obtain ⟨u, v, ⟨hname, _, g, g', w, hg, _, _, hu⟩, _, ht⟩ := h
    subst hu ht
    simp only [List.append_assoc]
    exact fails_letting hname hg (startsIn_arrow rule.decorated)

/-- A tree without lets is translated to a list of rules, up to positions. -/
def TreeMeant (scope : Scope) (rules : List (Rule α)) (v : Value) : Prop :=
  ∃ fields x y ys, v = .node Nonterminal.grammar.name fields ∧
    Value.findField (Bytes.ascii "lets") fields = some x ∧ x.value = .list [] ∧
    Value.findField (Bytes.ascii "defs") fields = some y ∧ y.value = .list ys ∧
      AllHold (rules.map (RuleMeant scope)) ys

/-- **Grammar sources are read as they are printed**, up to their end. -/
theorem takes_grammar (scope : Scope) (hqualifier : scope.qualifier = []) (hbraces : scope.braces = braces)
    (hlink : ∀ rule ∈ rules, ∃ linked, linkExpr tables rule.body = .ok linked) (hne : rules ≠ [])
    {text : Bytes} (h : SourcePrinted braces rules text) :
    RuleTakes (basis source) Nonterminal.grammar.place text [] (TreeMeant scope rules) := by
  obtain ⟨g, t, hg, ht, htext⟩ := h
  subst htext
  have hsolid : StartsIn solid (t ++ [] ++ []) := by
    rw [List.append_nil, List.append_nil]
    exact ht.startsIn.mono fun b hb => List.mem_append_left _ (List.mem_append_left _ hb)
  have hlets : Repeats (basis source) Nonterminal.letting.body (t ++ [] ++ []) [] [] := by
    rw [List.append_nil, List.append_nil]
    exact Repeats.stop (fails_letting_rules hne ht)
  have hdefs : Repeats (basis source) Nonterminal.definition.body ([] ++ []) t
      (rules.map (RuleMeant scope)) := repeats_definitions hqualifier hbraces hlink ht
  have hend : BodyTakes (basis source) Nonterminal.endOfFile.body [] [] (fun _ => True) := by
    refine takes_plain rfl (ExprTakes.first (SequenceTakes.matched rfl ?_ trivial))
    exact ItemsTake.last (ItemTakes.notAhead (BodyFails.terminal rfl rfl)) fun _ _ => trivial
  refine ruleTakes_record rfl rfl rfl ?_
  rw [← List.append_nil t]
  refine ItemsTake.next rfl (ItemTakes.once (takes_gap hg hsolid)) ?_
  rw [← List.nil_append (t ++ [])]
  refine ItemsTake.cons (ItemTakes.star (reach_basis source) hlets) fun x hx => ?_
  refine ItemsTake.cons (ItemTakes.plus_of_repeats (reach_basis source) hdefs ?_) fun y hy => ?_
  · rwa [Ne, List.map_eq_nil_iff]
  refine ItemsTake.last (ItemTakes.once hend) fun _ _ => ?_
  obtain ⟨xs, hxs, hnone⟩ := hx
  obtain ⟨ys, hys, hall⟩ := hy
  cases hnone
  exact ⟨_, x, y, ys, rfl, rfl, hxs, rfl, hys, hall⟩

/-- A tree without lets adds the rules that it means. -/
theorem addTree_meant (matchers : List (Bytes × Matcher)) (b : Builder α) {first : Rule α} {tree : Spanned Value}
    (h : TreeMeant ⟨source, braces, [], (first :: rules).map (·.name)⟩ (first :: rules) tree.value)
    (hmatcher : ∀ rule ∈ first :: rules, rule.matcher = none) : ∃ added,
      addTree source braces matchers [] b tree = .ok ({ b with rules := b.rules ++ added }, first.name) ∧
        added.map eraseRule = (first :: rules).map eraseRule := by
  obtain ⟨fields, x, y, ys, hnode, hx, hnone, hy, hys, hall⟩ := h
  obtain ⟨added, hadd, hsame⟩ := addDefinitions_meant hall hmatcher b
  refine ⟨added, ?_, hsame⟩
  unfold addTree
  rw [hnode]
  simp only [Value.asNode, ok_bind]
  rw [listPart_eq hx hnone, ok_bind, listPart_eq hy hys, ok_bind, definedNames_meant hall]
  show (ys.foldlM (addDefinition ⟨source, braces, [], (first :: rules).map (·.name)⟩) b >>= _) = _
  rw [hadd]
  rfl

theorem RulesPrinted.matcher (h : RulesPrinted braces rules t) : ∀ rule ∈ rules, rule.matcher = none := by
  induction rules generalizing t with
  | nil =>
    intro rule hmem
    cases hmem
  | cons rule rules ih =>
    obtain ⟨u, v, hu, hv, _⟩ := h
    intro r hmem
    rcases List.mem_cons.mp hmem with heq | hmem
    · rw [heq]
      exact hu.2.1
    · exact ih hv r hmem

/-- The bodies of rules that link are linked. -/
theorem linkExpr_of_linkRules {linked : List (Rule α)} (h : linkRules tables rules = .ok linked) :
    ∀ rule ∈ rules, rule.matcher = none → ∃ body, linkExpr tables rule.body = .ok body := by
  induction rules generalizing linked with
  | nil =>
    intro rule hmem
    cases hmem
  | cons rule rules ih =>
    obtain ⟨body, rest, hbody, hrest, _⟩ := linkRules_cons h
    intro r hmem hmatcher
    rcases List.mem_cons.mp hmem with heq | hmem
    · subst heq
      rw [Rule.isExternal, hmatcher] at hbody
      exact ⟨body, hbody⟩
    · exact ih hrest r hmem hmatcher

end Sources

/-! ## Depth -/

section Depth

variable {g : Grammar Empty} {index : Nat} {source : Bytes} (hempty : ¬g.isEmpty = true)

include hempty

/-- What a rule takes to its end is the tree of the parse, unless depth runs out. -/
theorem parse_takes {Q : Value → Prop}
    (h : RuleTakes (parseBasis g Client.none source (Env.fresh ())) index source [] Q) :
    (Parser.parse {} g Client.none index source (Env.fresh ())).1 = .error .callDepth ∨
      ∃ tree, (Parser.parse {} g Client.none index source (Env.fresh ())).1 = .ok (.tree tree) ∧ Q tree.value := by
  obtain ⟨failures, answer, progress, houtcome, hverdict, _⟩ :=
    parse_verdict g index (Env.fresh ()) (pure_none source) {} hempty Bool.false_ne_true
  obtain ⟨x, next, ⟨n, hn⟩, _, hx⟩ := h (Cursor.ofText source 0) rfl (List.append_nil source).symm
  rw [houtcome]
  -- the answer from some depth on is both that of the parse and the tree
  have hsame : ∀ {answer}, Steady (parseScene g Client.none source (Env.fresh ()))
      (Env.fresh ()).settings.maxDepth (fun m => traceCall (parseBasis g Client.none source (Env.fresh ())) m index
        (Cursor.ofText source 0)) ⟨failures, answer⟩ → answer = .ok (.success x next) := by
    rintro answer ⟨n', _, _, hsteady⟩
    rw [← hn (max n n') (Nat.le_max_left n n'), hsteady (max n n') (Nat.le_max_right n n')]
  cases hverdict with
  | exhausted => exact .inl rfl
  | interrupted hraises => exact absurd hraises (quiet_none _)
  | faulted hsteady => cases hsame hsteady
  | answered hsteady =>
    cases hsame hsteady
    exact .inr ⟨x, rfl, hx⟩

/-- A parse answers what its evaluation without a memo does, if that has enough depth. -/
theorem parse_answers {r : Result} (h : (traceCall (parseBasis g Client.none source (Env.fresh ()))
    (Env.fresh ()).settings.maxDepth index (Cursor.ofText source 0)).answer = .ok r) :
    ∃ progress : Progress Unit, (Parser.parse {} g Client.none index source (Env.fresh ())).1 =
      outcomeOf (Env.fresh ()).settings (.ok r) progress := by
  obtain ⟨failures, answer, progress, houtcome, hverdict, _⟩ :=
    parse_verdict g index (Env.fresh ()) (pure_none source) {} hempty Bool.false_ne_true
  have hrising := (parse_tracks g index (Env.fresh ()) (pure_none source)).rising
  have henough : ¬(traceCall (parseBasis g Client.none source (Env.fresh ())) (Env.fresh ()).settings.maxDepth
      index (Cursor.ofText source 0)).answer = .error .depth := by
    rw [h]
    exact fun herror => by cases herror
  obtain ⟨_, hsame⟩ := hverdict.of_enough quiet_none hrising henough
  have hok : answer = .ok r := hsame.trans (congrArg toAnswer h)
  exact ⟨progress, by rw [houtcome, hok]⟩

/-- A parse has enough depth where its evaluation without a memo has. -/
theorem parse_isOk (h : (traceCall (parseBasis g Client.none source (Env.fresh ()))
    (Env.fresh ()).settings.maxDepth index (Cursor.ofText source 0)).answer.isOk = true) :
    ∃ outcome, (Parser.parse {} g Client.none index source (Env.fresh ())).1 = .ok outcome := by
  cases hanswer : (traceCall (parseBasis g Client.none source (Env.fresh ())) (Env.fresh ()).settings.maxDepth index
    (Cursor.ofText source 0)).answer with
  | error stop =>
    rw [hanswer] at h
    cases h
  | ok r =>
    obtain ⟨progress, houtcome⟩ := parse_answers hempty hanswer
    rw [houtcome]
    cases r with
    | success tree next => exact ⟨_, rfl⟩
    | failure offset => exact ⟨_, rfl⟩

end Depth

/-- What the grammar of grammar sources takes is the tree of the source, unless depth runs out. -/
theorem parseSource_takes {Q : Value → Prop}
    (h : RuleTakes (basis source) Nonterminal.grammar.place source [] Q)
    (hdepth : (parseSource source).1 ≠ .error .callDepth) :
    ∃ tree, (parseSource source).1 = .ok tree ∧ Q tree.value := by
  rw [parseSource_eq, Nonterminal.start_metaGrammar] at hdepth ⊢
  rcases parse_takes Nonterminal.metaGrammar_not_empty h with hdeep | ⟨tree, htree, hQ⟩
  · rw [hdeep] at hdepth
    exact absurd rfl hdepth
  · rw [htree]
    exact ⟨tree, rfl, hQ⟩

/-- The parse of a source has enough depth where its evaluation without a memo has. -/
theorem parseSource_ne_callDepth (h : (traceCall (basis source) (Env.fresh ()).settings.maxDepth
    Nonterminal.grammar.place (Cursor.ofText source 0)).answer.isOk = true) :
    (parseSource source).1 ≠ .error .callDepth := by
  obtain ⟨outcome, houtcome⟩ := parse_isOk Nonterminal.metaGrammar_not_empty h
  rw [parseSource_eq, Nonterminal.start_metaGrammar, houtcome]
  cases outcome with
  | tree tree => exact fun herror => by cases herror
  | failure e => exact fun herror => by cases herror

/-- The tree of a source is the one that its evaluation without a memo answers. -/
theorem parseSource_answers {tree : Spanned Value} {next : Cursor}
    (h : (traceCall (basis source) (Env.fresh ()).settings.maxDepth Nonterminal.grammar.place
      (Cursor.ofText source 0)).answer = .ok (.success tree next)) : (parseSource source).1 = .ok tree := by
  obtain ⟨progress, houtcome⟩ := parse_answers Nonterminal.metaGrammar_not_empty h
  rw [parseSource_eq, Nonterminal.start_metaGrammar, houtcome]
  rfl

/-! ## Evaluation -/

/-- What the parse of a source depends on, with the rules of the grammar of grammar sources written out. -/
def linkedBasis (source : Bytes) : Basis Empty :=
  parseBasis ⟨Nonterminal.all.map Nonterminal.rule, Builtin.table, [], Nonterminal.grammar.place⟩ Client.none source
    (Env.fresh ())

theorem basis_eq (source : Bytes) : basis source = linkedBasis source := by
  rw [basis, Nonterminal.metaGrammar_eq, linkedBasis]

/-- Whether reading a source without a memo, and linking what it defines, gives a grammar that passes a test. -/
def evaluatesTo (test : Grammar α → Bool) (options : Options α) (source : Bytes) : Bool :=
  match (traceCall (linkedBasis source) (Env.fresh ()).settings.maxDepth Nonterminal.grammar.place
    (Cursor.ofText source 0)).answer with
  | .ok (.success tree _) =>
    match addTree source options.braces options.matchers [] (({} : Builder α).addActions options.actions) tree with
    | .ok (b, first) =>
      match (b.setStart (options.start.getD first)).build with
      | .ok g => test g
      | .error _ => false
    | .error _ => false
  | _ => false

/-- A source without modules compiles to the grammar that it evaluates to. -/
theorem compile_of_evaluatesTo {test : Grammar α → Bool} {options : Options α} (hmodules : options.modules = [])
    (h : evaluatesTo test options source = true) : ∃ g, compile source options = .ok g ∧ test g = true := by
  unfold evaluatesTo at h
  rw [← basis_eq] at h
  split at h
  · next tree next hanswer =>
    split at h
    · next b first hadd =>
      split at h
      · next g hg =>
        refine ⟨g, ?_, h⟩
        have hsorted : options.sortedModules = [] := by
          rw [Options.sortedModules, hmodules]
          exact List.mergeSort_nil
        simp only [compile, gather, addSource, parseSource_answers hanswer, ok_bind, hadd, hsorted, List.foldlM_nil]
        simp only [pure_bind, hg]
        rfl
      · cases h
    · cases h
  · cases h

/-! ## Round trip -/

theorem rules_addActions (b : Builder α) (actions : List (Bytes × α)) :
    (b.addActions actions).rules = b.rules := by
  induction actions generalizing b with
  | nil => rfl
  | cons entry actions ih => exact ih (b.addAction entry.1 entry.2)

/-- The builder that has the actions of the options and the given rules. -/
def Options.builderOf (options : Options α) (rules : List (Rule α)) : Builder α :=
  { ({} : Builder α).addActions options.actions with rules }

/-- **No silent misreading of grammar sources.** However a list of rules that links is printed, compiling the
source gathers exactly these rules up to positions, and the name of the first of them, unless depth runs out in
the parse of the source. The rules of modules come behind them. -/
theorem gather_printed (options : Options α) (first : Rule α) (rules more : List (Rule α)) (source : Bytes)
    (hprinted : SourcePrinted options.braces (first :: rules) source)
    (hlinks : ∃ g, (options.builderOf (first :: rules ++ more)).build = .ok g)
    (hdepth : (parseSource source).1 ≠ .error .callDepth) : ∃ added : List (Rule α),
      added.map eraseRule = (first :: rules).map eraseRule ∧
        gather source options = (options.sortedModules.foldlM (addModule options)
          (options.builderOf added)).map fun b => (b, first.name) := by
  obtain ⟨g, hg⟩ := hlinks
  obtain ⟨linked, _, hlinked, _⟩ := Builder.build_eq_ok hg
  obtain ⟨gap, text, hgap, htext, hsource⟩ := hprinted
  have hlink := fun rule hmem => linkExpr_of_linkRules hlinked rule (List.mem_append_left more hmem)
    (htext.matcher rule hmem)
  obtain ⟨tree, htree, hmeant⟩ := parseSource_takes (takes_grammar
    ⟨source, options.braces, [], (first :: rules).map (·.name)⟩ rfl rfl hlink
    (List.cons_ne_nil _ _) ⟨gap, text, hgap, htext, hsource⟩) hdepth
  obtain ⟨added, hadd, hsame⟩ := addTree_meant options.matchers (({} : Builder α).addActions options.actions)
    hmeant htext.matcher
  rw [rules_addActions, List.nil_append] at hadd
  refine ⟨added, hsame, ?_⟩
  unfold gather addSource
  simp only [htree, ok_bind, hadd]
  show (options.sortedModules.foldlM (addModule options) (options.builderOf added) >>= _) = _
  cases options.sortedModules.foldlM (addModule options) (options.builderOf added) with
  | error fault => rfl
  | ok b => rfl

/-- An item that binds nothing. -/
theorem not_bindsConstant_none (body : Body α) : ¬BindsConstant none false body := by
  rintro ⟨n, position, hname, _⟩
  cases hname

/-- `S <- x:let .` calls a rule that is named like the word `let`. -/
def callsLet : Rule Empty :=
  ⟨Bytes.ascii "S", Expr.andThen (Expr.bind (Bytes.ascii "x") (Expr.call (Bytes.ascii "let"))) Expr.any, false,
    none, .unknown⟩

/-- The rule `let = '\u{61}'i`. -/
def namedLet : Rule Empty :=
  ⟨Bytes.ascii "let", Expr.literal (Bytes.ascii "\\u\x7b61\x7d") true, true, none, .unknown⟩

/-- The two rules, one to a line. -/
def letSource : Bytes := Bytes.ascii "S <- x:let .\nlet = '\\u\x7b61\x7d'i"

theorem printed_callsLet : RulePrinted .interpolate true callsLet (Bytes.ascii "S <- x:let .\n") := by
  have hcall : ItemPrinted .interpolate
      (⟨some (Bytes.ascii "x"), false, .none, .call (Bytes.ascii "let") false none, .once, none, .unknown⟩ :
        Item (Body Empty)) (Bytes.ascii "x:let") := by
    refine ⟨rfl, ?_, [], Bytes.ascii "x:", Bytes.ascii "let", [], rfl, ⟨rfl, [], [], .nil, .nil, rfl⟩,
      ⟨rfl, .single rfl, rfl⟩, rfl, rfl⟩
    rintro ⟨n, position, hname, b, hb⟩
    cases hname
    revert b
    decide
  have hdot : ItemPrinted .interpolate
      (⟨none, false, .none, .any, .once, none, .unknown⟩ : Item (Body Empty)) (Bytes.ascii ".") :=
    ⟨rfl, not_bindsConstant_none _, [], [], Bytes.ascii ".", [], rfl, rfl, rfl, rfl, rfl⟩
  refine ⟨rfl, rfl, Bytes.ascii " ", Bytes.ascii " ", Bytes.ascii "x:let .\n", .blank (by decide) .nil,
    .blank (by decide) .nil, ?_, rfl⟩
  refine ⟨Bytes.ascii "x:let .\n", [], ⟨rfl, fun _ => rfl, [], rfl, ?_⟩, rfl, rfl⟩
  refine ⟨Bytes.ascii "x:let", Bytes.ascii " ", Bytes.ascii ".\n", hcall, .blank (by decide) .nil, ?_,
    .inl (by decide), rfl⟩
  exact ⟨Bytes.ascii ".", Bytes.ascii "\n", [], hdot, .blank (by decide) .nil, rfl, .inl (by decide), rfl⟩

theorem printed_namedLet :
    RulePrinted .interpolate false namedLet (Bytes.ascii "let = '\\u\x7b61\x7d'i") := by
  have hliteral : ItemPrinted .interpolate
      (⟨none, false, .none, .literal (Bytes.ascii "\\u\x7b61\x7d") true true, .once, none, .unknown⟩ :
        Item (Body Empty)) (Bytes.ascii "'\\u\x7b61\x7d'i") := by
    refine ⟨rfl, not_bindsConstant_none _, [], [], Bytes.ascii "'\\u\x7b61\x7d'i", [], rfl, rfl,
      ⟨rfl, ?_, Bytes.ascii "'", .inl rfl, rfl⟩, rfl, rfl⟩
    have hescape : HexEscapes
        (Bytes.ascii "\\u\x7b" ++ (Bytes.ascii "61" ++ (Bytes.ascii "\x7d" ++ []))) :=
      .cons (by decide) (by decide) .nil
    exact hescape
  refine ⟨rfl, rfl, Bytes.ascii " ", Bytes.ascii " ", Bytes.ascii "'\\u\x7b61\x7d'i", .blank (by decide) .nil,
    .blank (by decide) .nil, ?_, rfl⟩
  refine ⟨Bytes.ascii "'\\u\x7b61\x7d'i", [], ⟨rfl, fun _ => rfl, [], rfl, ?_⟩, rfl, rfl⟩
  exact ⟨Bytes.ascii "'\\u\x7b61\x7d'i", [], [], hliteral, .nil, rfl, .inr ⟨rfl, rfl⟩, rfl⟩

theorem gather_printed_letSource : ∃ added : List (Rule Empty),
    added.map eraseRule = [callsLet, namedLet].map eraseRule ∧
      gather letSource {} = .ok (({} : Options Empty).builderOf added, Bytes.ascii "S") := by
  have hprinted : SourcePrinted .interpolate [callsLet, namedLet] letSource :=
    ⟨[], letSource, .nil, ⟨_, _, printed_callsLet, ⟨_, [], printed_namedLet, rfl, rfl⟩, by decide⟩, rfl⟩
  obtain ⟨added, hsame, hgather⟩ := gather_printed ({} : Options Empty) callsLet [namedLet] [] letSource
    hprinted ⟨_, rfl⟩ (parseSource_ne_callDepth (by rw [basis_eq]; decide +kernel))
  have hmodules : ({} : Options Empty).sortedModules = [] := List.mergeSort_nil
  rw [hmodules] at hgather
  exact ⟨added, hsame, hgather⟩

end Packrat.Source
