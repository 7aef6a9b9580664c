import Packrat.Grammar.Link

/-!
# `Packrat.Proofs.Scoping` — what linking establishes

In a scoped grammar every call leads to a rule, every host call to an action or a constructor, and every name
to the slot of an item of that name further left in the same sequence. A group is a scope of its own.

## Contents
- **Scoped syntax.** `HostScoped`, `BodyScoped` and their companions, on the structure of an expression.
- **Linking.** `linkHost_scoped`, `linkBody_scoped` … : what linking answers is scoped.
- **Building.** `Builder.Assembled`, the builders that the operations of `Packrat.Grammar.Builder` make, and
  `Builder.build_scoped`.
-/

namespace Packrat

variable {α β γ : Type}

/-- A computation in two parts that answers has answered in both parts. -/
theorem bind_eq_ok {ε : Type} {x : Except ε β} {k : β → Except ε γ} {c : γ} :
    (x >>= k) = .ok c ↔ ∃ b, x = .ok b ∧ k b = .ok c := by
  cases x with
  | error e =>
    constructor
    · intro h
      cases h
    · rintro ⟨b, hb, _⟩
      cases hb
  | ok b =>
    constructor
    · intro h
      exact ⟨b, rfl, h⟩
    · rintro ⟨b', hb', hk⟩
      cases hb'
      exact hk

/-! ## Scoped syntax -/

/-- How many rules and actions there are. -/
structure TableSizes where
  rules : Nat
  actions : Nat

mutual

/-- Every name in a host expression leads to its slot, where the names in `visible` are bound to the slots in
this order, and every call to an action or constructor. -/
def HostScoped (sizes : TableSizes) (visible : List Bytes) : HostNode α → Prop
  | .ref name slot => ∃ i, slot = some i ∧ visible[i]? = some name
  | .const _ => True
  | .matched => True
  | .native _ => True
  | .call _ args constructs action =>
    ArgsScoped sizes visible args ∧ (constructs = true ∨ ∃ i, action = some i ∧ i < sizes.actions)
termination_by structural node => node

/-- The arguments of a call are scoped. -/
def ArgsScoped (sizes : TableSizes) (visible : List Bytes) : List (Host α) → Prop
  | [] => True
  | ⟨node, _⟩ :: rest => HostScoped sizes visible node ∧ ArgsScoped sizes visible rest
termination_by structural args => args

end

/-- The code in an interpolated literal is scoped. -/
def SegmentsScoped (sizes : TableSizes) (visible : List Bytes) : List (Segment α) → Prop
  | [] => True
  | .spelling _ :: rest => SegmentsScoped sizes visible rest
  | .code host :: rest => HostScoped sizes visible host.node ∧ SegmentsScoped sizes visible rest

/-- An item binds its name, which is new, to the next slot, and so `visible` grows to `visible'`. -/
def Binds (name : Option Bytes) (slot : Option Nat) (visible visible' : List Bytes) : Prop :=
  match name with
  | none => slot = none ∧ visible' = visible
  | some n => n ∉ visible ∧ slot = some visible.length ∧ visible' = visible ++ [n]

mutual

/-- A body is scoped where the names in `visible` are bound. -/
def BodyScoped (sizes : TableSizes) (visible : List Bytes) : Body α → Prop
  | .code host => HostScoped sizes visible host.node
  | .call _ _ target => ∃ i, target = some i ∧ i < sizes.rules
  | .group alternatives => ExprScoped sizes alternatives
  | .literal _ _ _ => True
  | .interpolated segments _ => SegmentsScoped sizes visible segments
  | .cls _ => True
  | .any => True
termination_by structural body => body

/-- Every alternative of an expression is scoped. -/
def ExprScoped (sizes : TableSizes) : List (Sequence α (Body α)) → Prop
  | [] => True
  | seq :: rest => SequenceScoped sizes seq ∧ ExprScoped sizes rest
termination_by structural alternatives => alternatives

/-- A sequence starts without names, and its action sees all of them. -/
def SequenceScoped (sizes : TableSizes) : Sequence α (Body α) → Prop
  | ⟨items, action, layout, _⟩ =>
    ItemsScoped sizes [] layout items ∧ ∀ host, action = some host → HostScoped sizes layout host.node
termination_by structural seq => seq

/-- Items are scoped where the names in `visible` are bound, and behind them those in `layout` are. -/
def ItemsScoped (sizes : TableSizes) (visible layout : List Bytes) : List (Item (Body α)) → Prop
  | [] => visible = layout
  | item :: rest =>
    ItemScoped sizes visible item ∧
      ∃ visible', Binds item.name item.slot visible visible' ∧ ItemsScoped sizes visible' layout rest
termination_by structural items => items

/-- An item is scoped where the names in `visible` are bound. -/
def ItemScoped (sizes : TableSizes) (visible : List Bytes) : Item (Body α) → Prop
  | ⟨_, _, _, body, _, _, _⟩ => BodyScoped sizes visible body
termination_by structural item => item

end

/-- How many rules and actions a grammar has. -/
def Grammar.sizes (g : Grammar α) : TableSizes := ⟨g.rules.length, g.actions.length⟩

/-- A grammar whose calls, names and matchers all lead somewhere. -/
structure Grammar.Scoped (g : Grammar α) : Prop where
  body : ∀ rule ∈ g.rules, rule.matcher = none → ExprScoped g.sizes rule.body
  matcher : ∀ rule ∈ g.rules, ∀ i, rule.matcher = some i → i < g.matchers.length

/-- The names that are visible stay visible further right. -/
theorem ItemsScoped.prefix {sizes : TableSizes} {visible layout : List Bytes}
    {items : List (Item (Body α))} (h : ItemsScoped sizes visible layout items) : visible <+: layout := by
  induction items generalizing visible with
  | nil =>
    unfold ItemsScoped at h
    subst h
    exact List.prefix_rfl
  | cons item rest ih =>
    unfold ItemsScoped at h
    obtain ⟨_, visible', hbinds, hrest⟩ := h
    have hstep : visible <+: visible' := by
      unfold Binds at hbinds
      split at hbinds
      · obtain ⟨_, hsame⟩ := hbinds
        subst hsame
        exact List.prefix_rfl
      · rw [hbinds.2.2]
        exact List.prefix_append _ _
    exact hstep.trans (ih hrest)

/-! ## Linking -/

/-- The sizes of the tables that linking looks names up in. -/
def NameTables.sizes (tables : NameTables) : TableSizes := ⟨tables.rules.length, tables.actions.length⟩

/-- Where a name is found in a list, it stands. -/
theorem getElem?_of_idxOf? {names : List Bytes} {name : Bytes} {i : Nat}
    (h : names.idxOf? name = some i) : names[i]? = some name := by
  rw [List.idxOf?_eq_some_iff] at h
  obtain ⟨hlt, hname, _⟩ := h
  rw [List.getElem?_eq_getElem hlt, hname]

theorem lt_of_idxOf? {names : List Bytes} {name : Bytes} {i : Nat} (h : names.idxOf? name = some i) :
    i < names.length := by
  rw [List.idxOf?_eq_some_iff] at h
  exact h.1

section Linking

variable {tables : NameTables}

mutual

theorem linkHost_scoped {visible : List Bytes} :
    ∀ (node : HostNode α) {position : Position} {linked : HostNode α},
      linkHost tables visible node position = .ok linked → HostScoped tables.sizes visible linked
  | .ref name _, position, linked, h => by
    unfold linkHost at h
    split at h
    · next slot hslot =>
      cases h
      exact ⟨slot, rfl, getElem?_of_idxOf? hslot⟩
    · cases h
  | .const v, position, linked, h => by
    cases h
    exact trivial
  | .matched, position, linked, h => by
    cases h
    exact trivial
  | .native a, position, linked, h => by
    cases h
    exact trivial
  | .call name args constructs _, position, linked, h => by
    unfold linkHost at h
    obtain ⟨args', hargs, h⟩ := bind_eq_ok.mp h
    have hscoped := linkArgs_scoped args hargs
    split at h
    · cases h
      exact ⟨hscoped, .inl rfl⟩
    · split at h
      · next i hi =>
        cases h
        exact ⟨hscoped, .inr ⟨i, rfl, lt_of_idxOf? hi⟩⟩
      · split at h
        · cases h
          exact ⟨hscoped, .inl rfl⟩
        · cases h
termination_by structural node => node

theorem linkArgs_scoped {visible : List Bytes} :
    ∀ (args : List (Host α)) {linked : List (Host α)},
      linkArgs tables visible args = .ok linked → ArgsScoped tables.sizes visible linked
  | [], linked, h => by
    cases h
    exact trivial
  | ⟨node, position⟩ :: rest, linked, h => by
    unfold linkArgs at h
    obtain ⟨node', hnode, h⟩ := bind_eq_ok.mp h
    obtain ⟨rest', hrest, h⟩ := bind_eq_ok.mp h
    cases h
    exact ⟨linkHost_scoped node hnode, linkArgs_scoped rest hrest⟩
termination_by structural args => args

end

theorem linkSegments_scoped {visible : List Bytes} (segments : List (Segment α))
    {linked : List (Segment α)} (h : linkSegments tables visible segments = .ok linked) :
    SegmentsScoped tables.sizes visible linked := by
  induction segments generalizing linked with
  | nil =>
    cases h
    exact trivial
  | cons segment rest ih =>
    cases segment with
    | spelling text =>
      unfold linkSegments at h
      obtain ⟨rest', hrest, h⟩ := bind_eq_ok.mp h
      cases h
      show SegmentsScoped tables.sizes visible rest'
      exact ih hrest
    | code host =>
      unfold linkSegments at h
      obtain ⟨node', hnode, h⟩ := bind_eq_ok.mp h
      obtain ⟨rest', hrest, h⟩ := bind_eq_ok.mp h
      cases h
      exact ⟨linkHost_scoped host.node hnode, ih hrest⟩

theorem bindSlot_binds {visible visible' : List Bytes} {name : Option Bytes} {position : Position}
    {slot : Option Nat} (h : bindSlot visible name position = .ok (slot, visible')) :
    Binds name slot visible visible' := by
  unfold bindSlot at h
  cases name with
  | none =>
    cases h
    exact ⟨rfl, rfl⟩
  | some n =>
    simp only at h
    split at h
    · cases h
    · next hnew =>
      cases h
      have hnew' : n ∉ visible := by
        rw [List.contains_iff_mem] at hnew
        exact hnew
      exact ⟨hnew', rfl, rfl⟩

mutual

theorem linkBody_scoped {visible : List Bytes} {position : Position} :
    ∀ (body : Body α) {linked : Body α},
      linkBody tables visible position body = .ok linked → BodyScoped tables.sizes visible linked
  | .code ⟨node, at_⟩, linked, h => by
    unfold linkBody at h
    obtain ⟨node', hnode, h⟩ := bind_eq_ok.mp h
    cases h
    exact linkHost_scoped node hnode
  | .call name decorated _, linked, h => by
    unfold linkBody at h
    split at h
    · next i hi =>
      cases h
      exact ⟨i, rfl, lt_of_idxOf? hi⟩
    · cases h
  | .group alternatives, linked, h => by
    unfold linkBody at h
    obtain ⟨alternatives', halternatives, h⟩ := bind_eq_ok.mp h
    cases h
    exact linkExpr_scoped alternatives halternatives
  | .literal spelling caseless braceSensitive, linked, h => by
    cases h
    exact trivial
  | .interpolated segments caseless, linked, h => by
    unfold linkBody at h
    obtain ⟨segments', hsegments, h⟩ := bind_eq_ok.mp h
    cases h
    exact linkSegments_scoped segments hsegments
  | .cls cls, linked, h => by
    cases h
    exact trivial
  | .any, linked, h => by
    cases h
    exact trivial
termination_by structural body => body

theorem linkExpr_scoped :
    ∀ (alternatives : List (Sequence α (Body α))) {linked : List (Sequence α (Body α))},
      linkExpr tables alternatives = .ok linked → ExprScoped tables.sizes linked
  | [], linked, h => by
    cases h
    exact trivial
  | seq :: rest, linked, h => by
    unfold linkExpr at h
    obtain ⟨seq', hseq, h⟩ := bind_eq_ok.mp h
    obtain ⟨rest', hrest, h⟩ := bind_eq_ok.mp h
    cases h
    exact ⟨linkSequence_scoped seq hseq, linkExpr_scoped rest hrest⟩
termination_by structural alternatives => alternatives

theorem linkSequence_scoped :
    ∀ (seq : Sequence α (Body α)) {linked : Sequence α (Body α)},
      linkSequence tables seq = .ok linked → SequenceScoped tables.sizes linked
  | ⟨items, action, _, position⟩, linked, h => by
    unfold linkSequence at h
    obtain ⟨⟨items', layout⟩, hitems, h⟩ := bind_eq_ok.mp h
    have hscoped := linkItems_scoped items hitems
    cases action with
    | none =>
      cases h
      refine ⟨hscoped, ?_⟩
      intro host hhost
      cases hhost
    | some host =>
      obtain ⟨node', hnode, h⟩ := bind_eq_ok.mp h
      cases h
      refine ⟨hscoped, ?_⟩
      intro host' hhost
      cases hhost
      exact linkHost_scoped host.node hnode
termination_by structural seq => seq

theorem linkItems_scoped {visible layout : List Bytes} :
    ∀ (items : List (Item (Body α))) {linked : List (Item (Body α))},
      linkItems tables visible items = .ok (linked, layout) →
        ItemsScoped tables.sizes visible layout linked
  | [], linked, h => by
    cases h
    exact rfl
  | item :: rest, linked, h => by
    unfold linkItems at h
    obtain ⟨⟨item', visible'⟩, hitem, h⟩ := bind_eq_ok.mp h
    obtain ⟨⟨rest', layout'⟩, hrest, h⟩ := bind_eq_ok.mp h
    cases h
    obtain ⟨hscoped, hbinds⟩ := linkItem_scoped item hitem
    exact ⟨hscoped, visible', hbinds, linkItems_scoped rest hrest⟩
termination_by structural items => items

theorem linkItem_scoped {visible visible' : List Bytes} :
    ∀ (item : Item (Body α)) {linked : Item (Body α)},
      linkItem tables visible item = .ok (linked, visible') →
        ItemScoped tables.sizes visible linked ∧ Binds linked.name linked.slot visible visible'
  | ⟨name, autobind, lookahead, body, repetition, _, position⟩, linked, h => by
    unfold linkItem at h
    obtain ⟨body', hbody, h⟩ := bind_eq_ok.mp h
    obtain ⟨name', _, h⟩ := bind_eq_ok.mp h
    obtain ⟨⟨slot, visible''⟩, hslot, h⟩ := bind_eq_ok.mp h
    cases h
    exact ⟨linkBody_scoped body hbody, bindSlot_binds hslot⟩
termination_by structural item => item

end

/-- The first of some rules is linked, and then the others. -/
theorem linkRules_cons {r : Rule α} {rest linked : List (Rule α)}
    (h : linkRules tables (r :: rest) = .ok linked) : ∃ body rest',
      (if r.isExternal then .ok r.body else linkExpr tables r.body) = .ok body ∧
        linkRules tables rest = .ok rest' ∧ linked = { r with body } :: rest' := by
  unfold linkRules at h
  simp only at h
  split at h
  · next hexternal =>
    obtain ⟨body, hbody, h⟩ := bind_eq_ok.mp h
    obtain ⟨rest', hrest, h⟩ := bind_eq_ok.mp h
    cases h
    exact ⟨body, rest', (if_pos hexternal).trans hbody, hrest, rfl⟩
  · next hinternal =>
    obtain ⟨body, hbody, h⟩ := bind_eq_ok.mp h
    obtain ⟨rest', hrest, h⟩ := bind_eq_ok.mp h
    cases h
    exact ⟨body, rest', (if_neg hinternal).trans hbody, hrest, rfl⟩

/-- Linking changes neither the number of the rules nor what they are matched by. -/
theorem linkRules_scoped (rules : List (Rule α)) {linked : List (Rule α)}
    (h : linkRules tables rules = .ok linked) :
    linked.length = rules.length ∧ linked.map (·.matcher) = rules.map (·.matcher) ∧
      ∀ rule ∈ linked, rule.matcher = none → ExprScoped tables.sizes rule.body := by
  induction rules generalizing linked with
  | nil =>
    cases h
    refine ⟨rfl, rfl, ?_⟩
    intro rule hrule
    cases hrule
  | cons r rest ih =>
    obtain ⟨body, rest', hbody, hrest, hlinked⟩ := linkRules_cons h
    subst hlinked
    obtain ⟨hlength, hmatchers, hscoped⟩ := ih hrest
    refine ⟨?_, ?_, ?_⟩
    · rw [List.length_cons, List.length_cons, hlength]
    · rw [List.map_cons, List.map_cons, hmatchers]
    · intro rule hrule hnone
      rcases List.mem_cons.mp hrule with hhead | htail
      · subst hhead
        have hinternal : ¬r.isExternal = true := by
          unfold Rule.isExternal
          rw [show r.matcher = none from hnone]
          exact Bool.false_ne_true
        rw [if_neg hinternal] at hbody
        exact linkExpr_scoped r.body hbody
      · exact hscoped rule htail hnone

end Linking

/-! ## Building -/

namespace Builder

/-- A builder that comes about by adding rules, matchers and actions and by naming a start rule. -/
inductive Assembled : Builder α → Prop
  | new : Assembled {}
  | rule {b : Builder α} (h : Assembled b) (name : Bytes) (body : Expr α) (decorated : Bool)
      (position : Position) : Assembled (b.addRule name body decorated position)
  | matcher {b : Builder α} (h : Assembled b) (name : Bytes) (matcher : Matcher) (position : Position) :
      Assembled (b.addMatcher name matcher position)
  | action {b : Builder α} (h : Assembled b) (name : Bytes) (action : α) :
      Assembled (b.addAction name action)
  | start {b : Builder α} (h : Assembled b) (name : Bytes) : Assembled (b.setStart name)

/-- The rules that stand for a matcher name one that has been added. -/
theorem Assembled.matcher_lt {b : Builder α} (h : Assembled b) :
    ∀ m ∈ b.rules.map (·.matcher), ∀ i, m = some i → i < b.matchers.length := by
  induction h with
  | new =>
    intro m hm
    cases hm
  | rule h name body decorated position ih =>
    intro m hm i hi
    simp only [addRule, List.map_append, List.mem_append, List.map_cons, List.map_nil,
      List.mem_singleton] at hm
    rcases hm with hold | hnew
    · exact ih m hold i hi
    · rw [hnew] at hi
      cases hi
  | @matcher b h name matcher position ih =>
    intro m hm i hi
    simp only [addMatcher, List.map_append, List.mem_append, List.map_cons, List.map_nil,
      List.mem_singleton] at hm
    show i < (b.matchers ++ [matcher]).length
    rw [List.length_append, List.length_singleton]
    rcases hm with hold | hnew
    · exact Nat.lt_succ_of_lt (ih m hold i hi)
    · rw [hnew] at hi
      cases hi
      exact Nat.lt_succ_self _
  | action h name action ih => exact ih
  | start h name ih => exact ih

/-- The rules of a grammar are the linked rules of its builder. -/
theorem build_eq_ok {b : Builder α} {g : Grammar α} (h : b.build = .ok g) : ∃ rules start,
    linkRules b.nameTables b.rules = .ok rules ∧ g = ⟨rules, b.actions, b.matchers, start⟩ := by
  unfold build at h
  simp only at h
  split at h
  · cases h
  · obtain ⟨_, _, h⟩ := bind_eq_ok.mp h
    obtain ⟨rules, hrules, h⟩ := bind_eq_ok.mp h
    obtain ⟨start, _, h⟩ := bind_eq_ok.mp h
    cases h
    exact ⟨rules, start, hrules, rfl⟩

/-- **A grammar that links is scoped.** -/
theorem build_scoped {b : Builder α} (hb : b.Assembled) {g : Grammar α} (h : b.build = .ok g) :
    g.Scoped := by
  obtain ⟨rules, start, hrules, hg⟩ := build_eq_ok h
  subst hg
  obtain ⟨hlength, hmatchers, hscoped⟩ := linkRules_scoped b.rules hrules
  have hsizes : b.nameTables.sizes = Grammar.sizes ⟨rules, b.actions, b.matchers, start⟩ := by
    unfold nameTables NameTables.sizes Grammar.sizes
    rw [List.length_map, List.length_map, hlength]
  refine ⟨?_, ?_⟩
  · rw [← hsizes]
    exact hscoped
  · intro rule hrule i hi
    have hmem : rule.matcher ∈ b.rules.map (·.matcher) := by
      rw [← hmatchers]
      exact List.mem_map_of_mem hrule
    exact hb.matcher_lt _ hmem i hi

end Builder

end Packrat
