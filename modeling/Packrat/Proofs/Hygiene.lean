import Packrat.Proofs.Memoization
import Packrat.Proofs.Qualification

/-!
# `Packrat.Proofs.Hygiene` — modules keep to themselves

A source that compiles on its own compiles to the same rules when it is imported as a module, whatever else is
imported and whatever the importing source defines: its calls lead to its own rules. Only the names of the rules
differ, by the name of the module and a dot in front. They show in the tags that rules give their values and in the
labels of matchers. So a parse from a rule of the module has the same outcome in both grammars, up to these words, if
no action looks at tags.

## Contents
- **Gathering.** What a source and its modules add to a builder, in which order.
- **Compiling.** `compile_embeds`: the grammar of a module is embedded in that of a source that imports it.
- **Words.** `Imported`: how words of the module come out of the larger grammar.
- **Evaluation.** What a source with one module compiles to, computed.
- **Hygiene.** `compile_hygienic`, and what actions that look at tags do to it.
-/

namespace Packrat.Source

variable {α β γ σ : Type}

/-! ## Gathering -/

section Gathering

variable {text qualifier source name : Bytes} {options : Options α} {b : Builder α}

/-- The builder that a source and its modules are added to. -/
def Options.base (options : Options α) : Builder α := ({} : Builder α).addActions options.actions

theorem addActions_keeps {P : Builder α → Prop} (hstep : ∀ b name action, P b → P (b.addAction name action))
    (hb : P b) (actions : List (Bytes × α)) : P (b.addActions actions) := by
  induction actions generalizing b with
  | nil => exact hb
  | cons entry actions ih => exact ih (hstep b entry.1 entry.2 hb)

theorem base_assembled (options : Options α) : options.base.Assembled :=
  addActions_keeps (fun _ name action h => .action h name action) .new options.actions

theorem rules_base (options : Options α) : options.base.rules = [] :=
  addActions_keeps (P := fun b => b.rules = []) (fun _ _ _ h => h) rfl options.actions

theorem matchers_base (options : Options α) : options.base.matchers = [] :=
  addActions_keeps (P := fun b => b.matchers = []) (fun _ _ _ h => h) rfl options.actions

/-- Parts are added behind what is there. -/
theorem Parts.extends_add {parts : Parts} {scope : Scope} {matchers : List (Bytes × Matcher)} {c : Builder α}
    (h : parts.add scope matchers b = .ok c) : b.Extends c := by
  refine Parts.add_keeps (P := b.Extends) ?_ ?_ (.refl b) h
  · intro x _ d d' hd hlet
    obtain ⟨name, matcher, -, -, rfl⟩ := addLet_eq_ok hlet
    exact hd.trans ⟨⟨_, rfl⟩, ⟨_, rfl⟩, rfl⟩
  · intro x _ d d' hd hdefinition
    obtain ⟨name, decorated, body, -, rfl⟩ := addDefinition_eq_ok hdefinition
    exact hd.trans ⟨⟨_, rfl⟩, ⟨[], (List.append_nil _).symm⟩, rfl⟩

theorem addSource_extends {braces : BracePolicy} {matchers : List (Bytes × Matcher)} {added : Builder α × Bytes}
    (h : addSource text braces matchers qualifier b = .ok added) : b.Extends added.1 := by
  obtain ⟨parts, hparts⟩ := exists_parts h
  rw [hparts.add_eq] at h
  cases hadd : parts.add ⟨text, braces, qualifier, parts.names⟩ matchers b with
  | error e =>
    rw [hadd] at h
    cases h
  | ok c =>
    rw [hadd] at h
    cases h
    exact Parts.extends_add hadd

theorem addModule_extends {c : Builder α} {entry : Bytes × Bytes} (h : addModule options b entry = .ok c) :
    b.Extends c := by
  obtain ⟨name, text⟩ := entry
  obtain ⟨added, hadd, h⟩ := bind_eq_ok.mp h
  cases h
  exact addSource_extends hadd

/-- A fold passes every element, with states before and behind that a relation leads to and on from. -/
theorem foldlM_passes {R : γ → γ → Prop} (hrefl : ∀ c, R c c) (htrans : ∀ {c d e}, R c d → R d e → R c e)
    {f : γ → β → Except Fault γ} {xs : List β} (hstep : ∀ x c c', f c x = .ok c' → R c c') {c c' : γ}
    (h : xs.foldlM f c = .ok c') {x : β} (hx : x ∈ xs) : ∃ d d', R c d ∧ f d x = .ok d' ∧ R d' c' := by
  induction xs generalizing c with
  | nil => cases hx
  | cons y xs ih =>
    rw [List.foldlM_cons] at h
    obtain ⟨d, hd, hxs⟩ := bind_eq_ok.mp h
    rcases List.mem_cons.mp hx with rfl | hx
    · refine ⟨c, d, hrefl c, hd, ?_⟩
      exact foldlM_keeps (P := R d) (fun y _ e e' he hy => htrans he (hstep y e e' hy)) (hrefl d) hxs
    · obtain ⟨e, e', hde, he, hrest⟩ := ih hxs hx
      exact ⟨e, e', htrans (hstep y c d hd) hde, he, hrest⟩

/-- A module is added to a builder with the actions of the options, and what comes after it stays behind it. -/
theorem exists_of_gather {gathered : Builder α × Bytes} (hmodule : (name, text) ∈ options.modules)
    (h : gather source options = .ok gathered) : ∃ (b c : Builder α) (first : Bytes),
      addSource text options.braces options.matchers (name ++ Bytes.ascii ".") b = .ok (c, first) ∧
      b.actions = options.base.actions ∧ c.Extends gathered.1 := by
  unfold gather at h
  obtain ⟨⟨d, first⟩, hsource, h⟩ := bind_eq_ok.mp h
  obtain ⟨d', hmodules, h⟩ := bind_eq_ok.mp h
  cases h
  have hmem : (name, text) ∈ options.sortedModules := List.mem_mergeSort.mpr hmodule
  obtain ⟨b, c, hdb, hadd, hrest⟩ := foldlM_passes Builder.Extends.refl Builder.Extends.trans
    (fun entry e e' he => addModule_extends he) hmodules hmem
  obtain ⟨⟨c', first'⟩, hadded, hc⟩ := bind_eq_ok.mp hadd
  cases hc
  exact ⟨b, c', first', hadded, hdb.actions.trans (addSource_extends hsource).actions, hrest⟩

/-- A source without modules is all that is gathered. -/
theorem gather_alone {start : Option Bytes} {gathered : Builder α × Bytes}
    (h : gather text { options with modules := [], start } = .ok gathered) :
    addSource text options.braces options.matchers [] options.base = .ok gathered := by
  unfold gather at h
  obtain ⟨⟨d, first⟩, hsource, h⟩ := bind_eq_ok.mp h
  have hsorted : ({ options with modules := [], start } : Options α).sortedModules = [] := List.mergeSort_nil
  rw [hsorted] at h
  cases h
  exact hsource

end Gathering

/-! ## Compiling -/

/-- A grammar is what the parts that are gathered for it link to. -/
theorem exists_of_compile {source : Bytes} {options : Options α} {g : Grammar α}
    (h : compile source options = .ok g) :
    ∃ (b : Builder α) (first : Bytes), gather source options = .ok (b, first) ∧
      (b.setStart (options.start.getD first)).build = .ok g := by
  unfold compile at h
  obtain ⟨⟨b, first⟩, hgather, h⟩ := bind_eq_ok.mp h
  dsimp only at h
  split at h
  · next g' hbuild =>
    cases h
    exact ⟨b, first, hgather, hbuild⟩
  · cases h

theorem takeWhile_identifier {name : Bytes} (h : isIdentifier name = true) (rest : Bytes) :
    (name.reverse ++ rest).takeWhile (· != Bytes.char '.') = name.reverse ++ rest.takeWhile (· != Bytes.char '.') := by
  refine List.takeWhile_append_of_pos ?_
  intro b hb
  rw [bne_iff_ne]
  rintro rfl
  exact dot_not_mem h (List.mem_reverse.mp hb)

/-- An identifier has one part. -/
theorem unqualified_of_identifier {name : Bytes} (h : isIdentifier name = true) : Bytes.unqualified name = name := by
  have htake := takeWhile_identifier h []
  rw [List.append_nil, List.takeWhile_nil, List.append_nil] at htake
  rw [Bytes.unqualified, htake, List.reverse_reverse]

/-- The last part of a dotted name is the identifier behind the last dot. -/
theorem unqualified_identifier {name : Bytes} (h : isIdentifier name = true) (module : Bytes) :
    Bytes.unqualified (module ++ Bytes.ascii "." ++ name) = name := by
  have hdot : (Bytes.ascii ".").reverse = [Bytes.char '.'] := by decide
  rw [Bytes.unqualified, List.reverse_append, List.reverse_append, takeWhile_identifier h, hdot]
  simp

/-- What a source without modules adds is put together by the operations of builders. -/
theorem Parts.assembled {parts : Parts} {scope : Scope} {matchers : List (Bytes × Matcher)} {b c : Builder α}
    (hb : b.Assembled) (h : parts.add scope matchers b = .ok c) : c.Assembled := by
  refine Parts.add_keeps (P := Builder.Assembled) ?_ ?_ hb h
  · intro x _ d d' hd hlet
    obtain ⟨name, matcher, -, -, rfl⟩ := addLet_eq_ok hlet
    exact .matcher hd _ _ _
  · intro x _ d d' hd hdefinition
    obtain ⟨name, decorated, body, -, rfl⟩ := addDefinition_eq_ok hdefinition
    exact .rule hd _ _ _ _

/-- The matchers that a source adds are those of the table. -/
theorem Parts.matchers_add {parts : Parts} {scope : Scope} {matchers : List (Bytes × Matcher)} {b c : Builder α}
    (hb : b.matchers = []) (h : parts.add scope matchers b = .ok c) :
    ∀ matcher ∈ c.matchers, ∃ entry ∈ matchers, entry.2 = matcher := by
  refine Parts.add_keeps (P := fun c => ∀ matcher ∈ c.matchers, ∃ entry ∈ matchers, entry.2 = matcher) ?_ ?_ ?_ h
  · intro x _ d d' hd hlet
    obtain ⟨name, matcher, -, hmatcher, rfl⟩ := addLet_eq_ok hlet
    show ∀ m ∈ d.matchers ++ [matcher], _
    rw [List.forall_mem_append, List.forall_mem_singleton]
    exact ⟨hd, hmatcher⟩
  · intro x _ d d' hd hdefinition
    obtain ⟨name, decorated, body, -, rfl⟩ := addDefinition_eq_ok hdefinition
    exact hd
  · rw [hb]
    exact fun matcher hmatcher => absurd hmatcher List.not_mem_nil

/-- What a source on its own compiles from. -/
theorem exists_of_compile_alone {text : Bytes} {options : Options α} {start : Option Bytes} {small : Grammar α}
    (h : compile text { options with modules := [], start } = .ok small) :
    ∃ (parts : Parts) (c : Builder α) (first : Bytes), parts.Of text ∧
      parts.add ⟨text, options.braces, [], parts.names⟩ options.matchers options.base = .ok c ∧
      (c.setStart first).build = .ok small := by
  obtain ⟨c, first, hgather, hbuild⟩ := exists_of_compile h
  have halone := gather_alone hgather
  obtain ⟨parts, hparts⟩ := exists_parts halone
  refine ⟨parts, c, _, hparts, ?_, hbuild⟩
  rw [hparts.add_eq] at halone
  revert halone
  cases parts.add ⟨text, options.braces, [], parts.names⟩ options.matchers options.base with
  | error e => exact fun halone => nomatch halone
  | ok d =>
    intro halone
    cases halone
    rfl

section Compiling

variable {source text name : Bytes} {options : Options α} {start : Option Bytes} {large small : Grammar α}

/-- The matchers of a grammar without modules are those of the table. -/
theorem compile_matchers (h : compile text { options with modules := [], start } = .ok small) :
    ∀ matcher ∈ small.matchers, ∃ entry ∈ options.matchers, entry.2 = matcher := by
  obtain ⟨parts, c, first, -, hadd, hbuild⟩ := exists_of_compile_alone h
  obtain ⟨rules, place, -, rfl⟩ := Builder.build_eq_ok hbuild
  exact Parts.matchers_add (c := c) (matchers_base options) hadd

/-- The names that the parts of a source define get the qualifier in front, wherever the parts call them. -/
theorem Parts.Of.qualify_defined {parts : Parts} {braces : BracePolicy} {qualifier : Bytes} (hparts : parts.Of text) :
    ∀ x, (x ∈ parts.lets ∨ x ∈ parts.defs) → ∀ n, definedName x = .ok n → isIdentifier n = true ∧
      Scope.qualify ⟨text, braces, qualifier, parts.names⟩ n = qualifier ++ n := by
  intro x hx n hn
  obtain ⟨n', hmem, hn', hidentifier⟩ := hparts.defined x hx
  rw [hn] at hn'
  cases hn'
  exact ⟨hidentifier, Scope.qualify_local hidentifier hmem⟩

/-- So do the rules that the parts add without a qualifier. -/
theorem Parts.Of.qualify_rules {parts : Parts} {braces braces' : BracePolicy} {qualifier : Bytes}
    {matchers : List (Bytes × Matcher)} {c : Builder α} (hparts : parts.Of text)
    (hadd : parts.add ⟨text, braces', [], parts.names⟩ matchers options.base = .ok c) :
    ∀ rule ∈ c.rules, isIdentifier rule.name = true ∧
      Scope.qualify ⟨text, braces, qualifier, parts.names⟩ rule.name = qualifier ++ rule.name := by
  intro rule hrule
  obtain ⟨x, hx, hname⟩ := Parts.names_add rfl (rules_base options) hadd rule hrule
  exact hparts.qualify_defined x hx rule.name hname

/-- What the parts of a source add to an empty builder, they add under a qualifier to any builder, relocated. -/
theorem Parts.Of.add_relocated {parts : Parts} {braces : BracePolicy} {qualifier : Bytes}
    {matchers : List (Bytes × Matcher)} {c : Builder α} (hparts : parts.Of text)
    (hadd : parts.add ⟨text, braces, [], parts.names⟩ matchers options.base = .ok c) (b : Builder α) (size : Nat) :
    parts.add ⟨text, braces, qualifier, parts.names⟩ matchers b = .ok (b.including c
      (b.relocation c (Scope.qualify ⟨text, braces, qualifier, parts.names⟩) size)) := by
  have hincluding : parts.add (Scope.qualified ⟨text, braces, [], parts.names⟩ qualifier) matchers
      (b.including options.base (b.relocation c (Scope.qualify ⟨text, braces, qualifier, parts.names⟩) size)) =
      .ok (b.including c (b.relocation c (Scope.qualify ⟨text, braces, qualifier, parts.names⟩) size)) :=
    Parts.add_qualified rfl (fun x hx n hn => (hparts.qualify_defined x hx n hn).2) rfl (fun i => rfl) hadd
  rwa [Builder.including_empty b _ (rules_base options) (matchers_base options)] at hincluding

/-- **The grammar of a module is embedded in that of a source that imports it.** The names of its rules are
identifiers, and get the name of the module and a dot in front. -/
theorem compile_embeds (hmodule : (name, text) ∈ options.modules) (hlarge : compile source options = .ok large)
    (hsmall : compile text { options with modules := [], start } = .ok small) :
    ∃ r : Relocation, r.Embeds small large ∧ ∀ rule ∈ small.rules,
      isIdentifier rule.name = true ∧ r.name rule.name = name ++ Bytes.ascii "." ++ rule.name := by
  obtain ⟨parts, c, first, hparts, hadd, hbuild⟩ := exists_of_compile_alone hsmall
  obtain ⟨d, first', hgather, hbuild'⟩ := exists_of_compile hlarge
  obtain ⟨b, d', first'', hadded, hactions, hextends⟩ := exists_of_gather hmodule hgather
  have hnames : ∀ rule ∈ c.rules, isIdentifier rule.name = true ∧
      Scope.qualify ⟨text, options.braces, name ++ Bytes.ascii ".", parts.names⟩ rule.name =
        name ++ Bytes.ascii "." ++ rule.name := hparts.qualify_rules hadd
  generalize hrename : Scope.qualify ⟨text, options.braces, name ++ Bytes.ascii ".", parts.names⟩ = rename at hnames
  -- the module adds to the larger builder what it adds to its own, relocated
  obtain rfl : d' = b.including c (b.relocation c rename d.rules.length) := by
    rw [hparts.add_eq, hparts.add_relocated hadd b d.rules.length, hrename] at hadded
    cases hadded
    rfl
  have hembeds : (b.relocation c rename d.rules.length).Embeds small large := by
    show (b.relocation (c.setStart first) rename (d.setStart (options.start.getD first')).rules.length).Embeds _ _
    refine Builder.build_embeds (.start (Parts.assembled (base_assembled options) hadd) first) hbuild hbuild'
      ⟨hextends.rules, hextends.matchers, hextends.actions⟩ ?_ ?_
    · show d.actions = c.actions
      rw [(Parts.extends_add hadd).actions, ← hactions]
      exact hextends.actions
    · intro rule hrule
      obtain ⟨hidentifier, hname⟩ := hnames rule hrule
      rw [hname, unqualified_identifier hidentifier name]
      exact (unqualified_of_identifier hidentifier).symm
  refine ⟨_, hembeds, ?_⟩
  intro rule hrule
  obtain ⟨rule', hrule', hname⟩ : ∃ rule' ∈ (c.setStart first).rules, rule'.name = rule.name := by
    rw [← List.mem_map, ← Builder.names_of_build hbuild]
    exact List.mem_map_of_mem hrule
  rw [← hname]
  exact hnames rule' hrule'

/-- A grammar that compiles has different names. -/
theorem nodup_of_compile {g : Grammar α} (h : compile source options = .ok g) : (g.rules.map (·.name)).Nodup := by
  obtain ⟨b, first, -, hbuild⟩ := exists_of_compile h
  exact Builder.nodup_names hbuild

/-! ## Words -/

/-- How the words of a module come out when its names get a qualifier: the tag of a rule and the label of a matcher
with it, and all other words as they are. These are the words that the rules spell out, the texts that interpolated
literals quote, the tag of a node without one, and the `others`: tags that matchers and actions make. -/
inductive Imported (qualifier : Bytes) (g : Grammar α) (others : Bytes → Prop) : Word → Word → Prop
  | tag {rule : Rule α} (h : rule ∈ g.rules) :
      Imported qualifier g others (.tag rule.name) (.tag (qualifier ++ rule.name))
  | label {rule : Rule α} (h : rule ∈ g.rules) (hexternal : rule.isExternal = true) :
      Imported qualifier g others (.label rule.name) (.label (qualifier ++ rule.name))
  | spelled {word : Word} (h : word ∈ g.words) : Imported qualifier g others word word
  | quoted (text : Bytes) : Imported qualifier g others (.label (quoteText text)) (.label (quoteText text))
  | untagged : Imported qualifier g others (.tag []) (.tag [])
  | other {tag : Bytes} (h : others tag) : Imported qualifier g others (.tag tag) (.tag tag)

theorem imported_carries {r : Relocation} {qualifier : Bytes} {others : Bytes → Prop}
    (hnames : ∀ rule ∈ small.rules, isIdentifier rule.name = true ∧ r.name rule.name = qualifier ++ rule.name)
    (hmatchers : ∀ matcher ∈ small.matchers, ∀ c v n, matcher c = .ok (.success v n) → ∀ tag ∈ v.tags, others tag) :
    r.Carries small (Imported qualifier small others) := by
  refine ⟨?_, ?_, ?_, .quoted, ?_, .untagged, ?_⟩
  · intro rule hrule
    rw [(hnames rule hrule).2]
    exact .tag hrule
  · intro rule hrule hexternal
    rw [(hnames rule hrule).2]
    exact .label hrule hexternal
  · intro rule hrule w hw
    exact .spelled (List.mem_flatMap.mpr ⟨rule, hrule, hw⟩)
  · intro matcher hmatcher c v n hv t ht
    exact .other (hmatchers matcher hmatcher c v n hv t ht)
  · rintro t t' ⟨⟩
    · next rule hrule =>
      have hne : rule.name ≠ [] := by
        intro hempty
        have hidentifier := (hnames rule hrule).1
        rw [hempty] at hidentifier
        cases hidentifier
      simp [hne]
    · exact Iff.rfl
    · exact Iff.rfl
    · exact Iff.rfl

end Compiling

/-! ## Evaluation -/

/-- The tree of a source, read without a memo. -/
def treeOf? (source : Bytes) : Option (Spanned Value) :=
  match (traceCall (linkedBasis source) (Env.fresh ()).settings.maxDepth Nonterminal.grammar.place
    (Cursor.ofText source 0)).answer with
  | .ok (.success tree _) => some tree
  | _ => none

theorem parseSource_of_treeOf? {source : Bytes} {tree : Spanned Value} (h : treeOf? source = some tree) :
    (parseSource source).1 = .ok tree := by
  unfold treeOf? at h
  rw [← basis_eq] at h
  split at h
  · next tree' next hanswer =>
    cases h
    exact parseSource_answers hanswer
  · cases h

/-- Whether reading a source and one module without a memo, and linking what they define, gives a grammar that passes
a test. -/
def importsTo (test : Grammar α → Bool) (options : Options α) (name text source : Bytes) : Bool :=
  match treeOf? source, treeOf? text with
  | some tree, some tree' =>
    match addTree source options.braces options.matchers [] options.base tree with
    | .ok (b, first) =>
      match addTree text options.braces options.matchers (name ++ Bytes.ascii ".") b tree' with
      | .ok (b, _) =>
        match (b.setStart (options.start.getD first)).build with
        | .ok g => test g
        | .error _ => false
      | .error _ => false
    | .error _ => false
  | _, _ => false

/-- A source with one module compiles to the grammar that both evaluate to. -/
theorem compile_of_importsTo {test : Grammar α → Bool} {options : Options α} {name text source : Bytes}
    (hmodules : options.modules = [(name, text)]) (h : importsTo test options name text source = true) :
    ∃ g, compile source options = .ok g ∧ test g = true := by
  unfold importsTo at h
  split at h
  · next tree tree' htree htree' =>
    split at h
    · next b first hadd =>
      split at h
      · next c first' hmodule =>
        split at h
        · next g hg =>
          refine ⟨g, ?_, h⟩
          have hsorted : options.sortedModules = [(name, text)] := by
            rw [Options.sortedModules, hmodules]
            exact List.mergeSort_singleton _
          have hsource : addSource source options.braces options.matchers [] options.base = .ok (b, first) := by
            rw [addSource, parseSource_of_treeOf? htree, ok_bind, hadd]
          have hadded : addModule options b (name, text) = .ok c := by
            rw [addModule, addSource, parseSource_of_treeOf? htree', ok_bind, hmodule]
            rfl
          have hmodules : options.sortedModules.foldlM (addModule options) b = .ok c := by
            rw [hsorted, List.foldlM_cons, hadded]
            rfl
          have hgather : gather source options = .ok (c, first) := by
            rw [Options.base] at hsource
            rw [gather, hsource]
            show (options.sortedModules.foldlM (addModule options) b >>= fun b => pure (b, first)) = _
            rw [hmodules]
            rfl
          simp only [compile, hgather, ok_bind, hg]
          rfl
        · cases h
      · cases h
    · cases h
  · cases h

/-- Whether a parse has matched with a value that passes a test. -/
def matchesWith (test : Value → Bool) : Except Fault Outcome → Bool
  | .ok (.tree x) => test x.value
  | _ => false

theorem exists_of_matchesWith {test : Value → Bool} {answer : Except Fault Outcome}
    (h : matchesWith test answer = true) : ∃ x, answer = .ok (.tree x) ∧ test x.value = true := by
  unfold matchesWith at h
  split at h
  · next x => exact ⟨x, rfl, h⟩
  · cases h

/-! ## Hygiene -/

section Hygiene

variable {source text name : Bytes} {options : Options α} {start : Option Bytes} {large small : Grammar α}

/-- **Modules are hygienic.** A source that compiles on its own, and is imported by another one next to whatever
other modules, has the same outcomes in both grammars, from each of its rules and on every input: a tree of one shape
and with one span, or a failure at one offset and position. The words in them differ by the name of the module and a
dot, in the tags of its rules and the labels of its matchers only. -/
theorem compile_hygienic {client : Client α σ} {input : Bytes} {env : Env σ} {others : Bytes → Prop}
    (hmodule : (name, text) ∈ options.modules) (hlarge : compile source options = .ok large)
    (hsmall : compile text { options with modules := [], start } = .ok small)
    (hmatchers : ∀ entry ∈ options.matchers, ∀ c v n, entry.2 c = .ok (.success v n) → ∀ tag ∈ v.tags, others tag)
    (hclient : client.Portable (Imported (name ++ Bytes.ascii ".") small others) input) :
    ∀ rule ∈ small.rules, Related (Outcome.Renamed (Imported (name ++ Bytes.ascii ".") small others))
      (parseNamed small client rule.name input env).1
      (parseNamed large client (name ++ Bytes.ascii "." ++ rule.name) input env).1 := by
  obtain ⟨r, hembeds, hnames⟩ := compile_embeds hmodule hlarge hsmall
  have hcarries : r.Carries small (Imported (name ++ Bytes.ascii ".") small others) := by
    refine imported_carries hnames ?_
    intro matcher hmatcher
    obtain ⟨entry, hentry, rfl⟩ := compile_matchers hsmall matcher hmatcher
    exact hmatchers entry hentry
  intro rule hrule
  obtain ⟨i, hi⟩ := List.getElem?_of_mem hrule
  -- a rule is found under its name in the one grammar, and where it has moved to in the other
  have hfind : small.find rule.name = some i := by
    rw [Grammar.find_eq_idxOf?]
    refine idxOf?_of_nodup (nodup_of_compile hsmall) ?_
    rw [List.getElem?_map, hi]
    rfl
  have hfind' : large.find (name ++ Bytes.ascii "." ++ rule.name) = some (r.place i) := by
    rw [Grammar.find_eq_idxOf?]
    refine idxOf?_of_nodup (nodup_of_compile hlarge) ?_
    rw [List.getElem?_map, hembeds.rules, hi]
    exact congrArg some (hnames rule hrule).2
  simp only [parseNamed, hfind, hfind', Packrat.parse]
  exact parse_embedded hclient hembeds hcarries {} {} hi

end Hygiene

/-- A source that imports a module `N`, whose second rule has the name of a rule of the module. -/
def importingSource : Bytes := Bytes.ascii "S <- N.X\ny <- 'b'"

/-- A module with a rule that tags its value. -/
def taggingModule : Bytes := Bytes.ascii "X = y:y\ny <- 'a' \x7bword()\x7d"

/-- The action `word`, and the module `N`. -/
def importingOptions : Options Unit where
  actions := [(Bytes.ascii "word", ())]
  modules := [(Bytes.ascii "N", taggingModule)]

theorem matchedText_portable {R : Word → Word → Prop} (text : Bytes) : matchedText.Portable R text := by
  refine ⟨matchedText_pure text, ?_, matchedText_quiet⟩
  intro a ctx args store _ _ _
  exact .ok (.text _)

/-- The tags that the standard matchers make: none. -/
theorem standard_untagged : ∀ entry ∈ Matcher.standard, ∀ c v n, entry.2 c = .ok (.success v n) → v.tags = [] := by
  intro entry hentry c v n hv
  simp only [Matcher.standard, List.mem_cons, List.not_mem_nil, or_false] at hentry
  rcases hentry with rfl | rfl | rfl | rfl
  · cases hv
    rfl
  · simp only [Matcher.identifier] at hv
    split at hv
    · cases hv
    · cases hv
      rfl
  · cases hv
    rfl
  · simp only [Matcher.endOfInput] at hv
    split at hv
    · cases hv
      rfl
    · cases hv

/-- An environment without a memo. -/
def uncached : Env Unit := (Env.fresh ()).memoizing false

theorem compile_hygienic_tagging : ∃ large small : Grammar Unit,
    (Bytes.ascii "N", taggingModule) ∈ importingOptions.modules ∧
    compile importingSource importingOptions = .ok large ∧
    compile taggingModule { importingOptions with modules := [], start := none } = .ok small ∧
    (∀ entry ∈ importingOptions.matchers, ∀ c v n, entry.2 c = .ok (.success v n) → ∀ tag ∈ v.tags, False) ∧
    matchedText.Portable (Imported (Bytes.ascii "N" ++ Bytes.ascii ".") small fun _ => False) (Bytes.ascii "a") ∧
    (∃ x, (parseNamed small matchedText (Bytes.ascii "X") (Bytes.ascii "a") uncached).1 = .ok (.tree x) ∧
      x.value.isTagged (Bytes.ascii "X") = true) ∧
    (∃ x, (parseNamed large matchedText (Bytes.ascii "N.X") (Bytes.ascii "a") uncached).1 = .ok (.tree x) ∧
      x.value.isTagged (Bytes.ascii "N.X") = true) ∧
    ∀ rule ∈ small.rules,
      Related (Outcome.Renamed (Imported (Bytes.ascii "N" ++ Bytes.ascii ".") small fun _ => False))
        (parseNamed small matchedText rule.name (Bytes.ascii "a") uncached).1
        (parseNamed large matchedText (Bytes.ascii "N" ++ Bytes.ascii "." ++ rule.name) (Bytes.ascii "a")
          uncached).1 := by
  obtain ⟨large, hlarge, htagged⟩ := compile_of_importsTo rfl (show importsTo (fun g : Grammar Unit =>
    matchesWith (·.isTagged (Bytes.ascii "N.X"))
      (parseNamed g matchedText (Bytes.ascii "N.X") (Bytes.ascii "a") uncached).1) importingOptions
    (Bytes.ascii "N") taggingModule importingSource = true by decide +kernel)
  obtain ⟨small, hsmall, htagged'⟩ := compile_of_evaluatesTo rfl (show evaluatesTo (fun g : Grammar Unit =>
    matchesWith (·.isTagged (Bytes.ascii "X"))
      (parseNamed g matchedText (Bytes.ascii "X") (Bytes.ascii "a") uncached).1)
    { importingOptions with modules := [], start := none } taggingModule = true by decide +kernel)
  have hmodule : (Bytes.ascii "N", taggingModule) ∈ importingOptions.modules := List.mem_cons_self
  have hmatchers : ∀ entry ∈ importingOptions.matchers, ∀ c v n, entry.2 c = .ok (.success v n) →
      ∀ tag ∈ v.tags, (fun _ => False) tag := by
    intro entry hentry c v n hv tag htag
    rw [standard_untagged entry hentry c v n hv] at htag
    cases htag
  exact ⟨large, small, hmodule, hlarge, hsmall, hmatchers, matchedText_portable _, exists_of_matchesWith htagged',
    exists_of_matchesWith htagged,
    compile_hygienic hmodule hlarge hsmall hmatchers (matchedText_portable _)⟩

/-! ### Actions that look at tags -/

/-- A client whose action yields the tag of its first argument. -/
def tagReader : Client Unit Unit where
  act _ ctx := ActionM.lift do return .text (← (← ctx.value 0).asNode).1

theorem tagReader_pure (text : Bytes) : tagReader.Pure text :=
  Client.pure_of_lift (f := fun _ ctx => do return .text (← (← ctx.value 0).asNode).1) (fun _ _ => rfl)
    (fun _ _ _ => rfl) text

/-- A module with a rule whose value is the tag of another one. -/
def tagReadingModule : Bytes := Bytes.ascii "S <- a:@X \x7btag(a)\x7d\nX <- 'x'"

/-- The action `tag`, and the module `N`. -/
def tagReadingOptions : Options Unit where
  actions := [(Bytes.ascii "tag", ())]
  modules := [(Bytes.ascii "N", tagReadingModule)]

/-- A pure action that looks at the tag of a rule tells the two grammars apart: the one has the text `X` as its value,
the other the text `N.X`, which no renaming of tags makes equal. -/
theorem hygiene_broken_by_tags : ∃ large small : Grammar Unit,
    compile (Bytes.ascii "M <- N.S") tagReadingOptions = .ok large ∧
    compile tagReadingModule { tagReadingOptions with modules := [], start := none } = .ok small ∧
    tagReader.Pure (Bytes.ascii "x") ∧
    (∃ x, (parseNamed small tagReader (Bytes.ascii "S") (Bytes.ascii "x") uncached).1 = .ok (.tree x) ∧
      x.value = .text (Bytes.ascii "X")) ∧
    (∃ x, (parseNamed large tagReader (Bytes.ascii "N.S") (Bytes.ascii "x") uncached).1 = .ok (.tree x) ∧
      x.value = .text (Bytes.ascii "N.X")) ∧
    ∀ R, ¬Related (Outcome.Renamed R) (parseNamed small tagReader (Bytes.ascii "S") (Bytes.ascii "x") uncached).1
      (parseNamed large tagReader (Bytes.ascii "N.S") (Bytes.ascii "x") uncached).1 := by
  have htext : ∀ {v : Value} {t : Bytes}, (v.isText && v.toText == t) = true → v = .text t := by
    intro v t hv
    rw [Bool.and_eq_true, beq_iff_eq] at hv
    cases v with
    | text u => exact congrArg Value.text hv.2
    | _ => cases hv.1
  obtain ⟨large, hlarge, hvalue⟩ := compile_of_importsTo rfl (show importsTo (fun g : Grammar Unit =>
    matchesWith (fun v => v.isText && v.toText == Bytes.ascii "N.X")
      (parseNamed g tagReader (Bytes.ascii "N.S") (Bytes.ascii "x") uncached).1) tagReadingOptions
    (Bytes.ascii "N") tagReadingModule (Bytes.ascii "M <- N.S") = true by decide +kernel)
  obtain ⟨small, hsmall, hvalue'⟩ := compile_of_evaluatesTo rfl (show evaluatesTo (fun g : Grammar Unit =>
    matchesWith (fun v => v.isText && v.toText == Bytes.ascii "X")
      (parseNamed g tagReader (Bytes.ascii "S") (Bytes.ascii "x") uncached).1)
    { tagReadingOptions with modules := [], start := none } tagReadingModule = true by decide +kernel)
  obtain ⟨⟨v, start, stop⟩, hparse, hv⟩ := exists_of_matchesWith hvalue
  obtain ⟨⟨v', start', stop'⟩, hparse', hv'⟩ := exists_of_matchesWith hvalue'
  obtain rfl := htext hv
  obtain rfl := htext hv'
  refine ⟨large, small, hlarge, hsmall, tagReader_pure _, ⟨_, hparse', rfl⟩, ⟨_, hparse, rfl⟩, ?_⟩
  intro R h
  rw [hparse, hparse'] at h
  generalize hN : Bytes.ascii "N.X" = t at h
  generalize hX : Bytes.ascii "X" = t' at h
  cases h with
  | ok h =>
    cases h with
    | tree h =>
      cases h with
      | mk h =>
        cases h
        exact absurd (hX.trans hN.symm) (by decide)

end Packrat.Source
