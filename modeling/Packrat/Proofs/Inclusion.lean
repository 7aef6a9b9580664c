import Packrat.Proofs.Embedding
import Packrat.Proofs.Linking

/-!
# `Packrat.Proofs.Inclusion` — builders within builders

What links to a grammar on its own links to the same rules inside of a larger builder, under new names and at new
places, as long as the calls lead to the same rules there. So the one grammar is embedded in the other.

## Contents
- **Linking.** `Relocation.Finds`: tables in which relocated rules are found. `linkRules_relocated` and what leads to
  it, on the structure of an expression.
- **Builders.** `Builder.Extends` and `Builder.including`: a builder with the parts of another one behind its own.
- **Building.** `Builder.build_embeds`.
-/

namespace Packrat

variable {α β γ : Type}

-- the linter does not see an assumption that only a companion of a mutual block uses
set_option linter.unusedSectionVars false

/-! ## Linking -/

/-- Two tables in which relocation can be linked: the names of the first stand in the second under their new names at
their new places, with the same last parts, and the actions are the same. -/
structure Relocation.Finds (r : Relocation) (tables tables' : NameTables) : Prop where
  places : ∀ name i, tables.rules.idxOf? name = some i → tables'.rules.idxOf? (r.name name) = some (r.place i)
  unqualified : ∀ name ∈ tables.rules, Bytes.unqualified (r.name name) = Bytes.unqualified name
  actions : tables'.actions = tables.actions

section Linking

variable {r : Relocation} {tables tables' : NameTables}

mutual

/-- Linking a host expression asks for the actions only. -/
theorem linkHost_of_actions (h : tables'.actions = tables.actions) {visible : List Bytes} :
    ∀ (node : HostNode α) (position : Position),
      linkHost tables' visible node position = linkHost tables visible node position
  | .ref name slot, position => rfl
  | .const v, position => rfl
  | .matched, position => rfl
  | .native a, position => rfl
  | .call name args constructs action, position => by
    unfold linkHost
    rw [linkArgs_of_actions h args, h]
termination_by structural node => node

theorem linkArgs_of_actions (h : tables'.actions = tables.actions) {visible : List Bytes} :
    ∀ args : List (Host α), linkArgs tables' visible args = linkArgs tables visible args
  | [] => rfl
  | ⟨node, position⟩ :: rest => by
    unfold linkArgs
    rw [linkHost_of_actions h node position, linkArgs_of_actions h rest]
termination_by structural args => args

end

theorem linkSegments_of_actions (h : tables'.actions = tables.actions) {visible : List Bytes}
    (segments : List (Segment α)) : linkSegments tables' visible segments = linkSegments tables visible segments := by
  induction segments with
  | nil => rfl
  | cons segment rest ih =>
    cases segment with
    | spelling text =>
      unfold linkSegments
      rw [ih]
    | code host =>
      unfold linkSegments
      rw [linkHost_of_actions h, ih]

variable (h : r.Finds tables tables')

include h

/-- A relocated item binds the name that it binds without that. -/
theorem bindingName_relocated {visible : List Bytes} {position : Position} {body linked : Body α}
    (hbody : linkBody tables visible position body = .ok linked) (autobind : Bool) (name : Option Bytes) :
    bindingName autobind name (relocateBody r body) position = bindingName autobind name body position := by
  unfold bindingName
  cases autobind with
  | false => rfl
  | true =>
    cases body with
    | call rule decorated target =>
      have hmem : rule ∈ tables.rules := by
        unfold linkBody at hbody
        cases hfound : tables.rules.idxOf? rule with
        | none =>
          rw [hfound] at hbody
          cases hbody
        | some i => exact exists_idxOf?_iff.mp ⟨i, hfound⟩
      simp only [relocateBody, if_true, h.unqualified rule hmem]
    | _ => rfl

mutual

theorem linkBody_relocated {visible : List Bytes} {position : Position} : ∀ {body linked : Body α},
    linkBody tables visible position body = .ok linked →
      linkBody tables' visible position (relocateBody r body) = .ok (relocateBody r linked)
  | .code ⟨node, at_⟩, linked, hbody => by
    unfold linkBody at hbody
    obtain ⟨node', hnode, hbody⟩ := bind_eq_ok.mp hbody
    cases hbody
    rw [relocateBody, linkBody, linkHost_of_actions h.actions, hnode]
    rfl
  | .call name decorated target, linked, hbody => by
    unfold linkBody at hbody
    cases hfound : tables.rules.idxOf? name with
    | none =>
      rw [hfound] at hbody
      cases hbody
    | some i =>
      rw [hfound] at hbody
      cases hbody
      rw [relocateBody, linkBody, h.places name i hfound]
      rfl
  | .group alternatives, linked, hbody => by
    unfold linkBody at hbody
    obtain ⟨alternatives', halternatives, hbody⟩ := bind_eq_ok.mp hbody
    cases hbody
    rw [relocateBody, linkBody, linkExpr_relocated halternatives]
    rfl
  | .literal spelling caseless braceSensitive, linked, hbody => by
    cases hbody
    rfl
  | .interpolated segments caseless, linked, hbody => by
    unfold linkBody at hbody
    obtain ⟨segments', hsegments, hbody⟩ := bind_eq_ok.mp hbody
    cases hbody
    rw [relocateBody, linkBody, linkSegments_of_actions h.actions, hsegments]
    rfl
  | .cls cls, linked, hbody => by
    cases hbody
    rfl
  | .any, linked, hbody => by
    cases hbody
    rfl
termination_by structural body => body

theorem linkExpr_relocated : ∀ {alternatives linked : List (Sequence α (Body α))},
    linkExpr tables alternatives = .ok linked →
      linkExpr tables' (relocateExpr r alternatives) = .ok (relocateExpr r linked)
  | [], linked, hexpr => by
    cases hexpr
    rfl
  | seq :: rest, linked, hexpr => by
    unfold linkExpr at hexpr
    obtain ⟨seq', hseq, hexpr⟩ := bind_eq_ok.mp hexpr
    obtain ⟨rest', hrest, hexpr⟩ := bind_eq_ok.mp hexpr
    cases hexpr
    rw [relocateExpr, linkExpr, linkSequence_relocated hseq]
    show (linkExpr tables' (relocateExpr r rest) >>= _) = _
    rw [linkExpr_relocated hrest]
    rfl
termination_by structural alternatives => alternatives

theorem linkSequence_relocated : ∀ {seq linked : Sequence α (Body α)}, linkSequence tables seq = .ok linked →
    linkSequence tables' (relocateSequence r seq) = .ok (relocateSequence r linked)
  | ⟨items, action, layout, position⟩, linked, hseq => by
    unfold linkSequence at hseq
    obtain ⟨⟨items', layout'⟩, hitems, hseq⟩ := bind_eq_ok.mp hseq
    rw [relocateSequence, linkSequence, linkItems_relocated hitems]
    cases action with
    | none =>
      cases hseq
      rfl
    | some host =>
      obtain ⟨node', hnode, hseq⟩ := bind_eq_ok.mp hseq
      cases hseq
      show (linkHost tables' layout' host.node host.position >>= _) = _
      rw [linkHost_of_actions h.actions, hnode]
      rfl
termination_by structural seq => seq

theorem linkItems_relocated {visible layout : List Bytes} : ∀ {items linked : List (Item (Body α))},
    linkItems tables visible items = .ok (linked, layout) →
      linkItems tables' visible (relocateItems r items) = .ok (relocateItems r linked, layout)
  | [], linked, hitems => by
    cases hitems
    rfl
  | item :: rest, linked, hitems => by
    unfold linkItems at hitems
    obtain ⟨⟨item', visible'⟩, hitem, hitems⟩ := bind_eq_ok.mp hitems
    obtain ⟨⟨rest', layout'⟩, hrest, hitems⟩ := bind_eq_ok.mp hitems
    cases hitems
    rw [relocateItems, linkItems, linkItem_relocated hitem]
    show (linkItems tables' visible' (relocateItems r rest) >>= _) = _
    rw [linkItems_relocated hrest]
    rfl
termination_by structural items => items

theorem linkItem_relocated {visible visible' : List Bytes} : ∀ {item linked : Item (Body α)},
    linkItem tables visible item = .ok (linked, visible') →
      linkItem tables' visible (relocateItem r item) = .ok (relocateItem r linked, visible')
  | ⟨name, autobind, lookahead, body, repetition, slot, position⟩, linked, hitem => by
    unfold linkItem at hitem
    obtain ⟨body', hbody, hitem⟩ := bind_eq_ok.mp hitem
    obtain ⟨binding, hbinding, hitem⟩ := bind_eq_ok.mp hitem
    obtain ⟨⟨slot', visible''⟩, hslot, hitem⟩ := bind_eq_ok.mp hitem
    cases hitem
    rw [relocateItem, linkItem, linkBody_relocated hbody]
    show (bindingName autobind name (relocateBody r body) position >>= _) = _
    rw [bindingName_relocated h hbody, hbinding]
    show (bindSlot visible binding position >>= _) = _
    rw [hslot]
    rfl
termination_by structural item => item

end

omit h in
/-- A rule in front of linked rules is linked if its expression is. -/
theorem linkRules_cons_of {rule : Rule α} {rest rest' : List (Rule α)} {body : Expr α}
    (hbody : (if rule.isExternal then .ok rule.body else linkExpr tables rule.body) = .ok body)
    (hrest : linkRules tables rest = .ok rest') :
    linkRules tables (rule :: rest) = .ok ({ rule with body } :: rest') := by
  unfold linkRules
  simp only
  split at hbody
  · next hexternal =>
    cases hbody
    rw [if_pos hexternal, hrest]
    rfl
  · next hinternal =>
    rw [if_neg hinternal, hbody, hrest]
    rfl

omit h in
/-- Rules in front are linked in front. -/
theorem linkRules_append {xs ys linked : List (Rule α)} (hrules : linkRules tables (xs ++ ys) = .ok linked) :
    ∃ xs' ys', linkRules tables xs = .ok xs' ∧ linkRules tables ys = .ok ys' ∧ linked = xs' ++ ys' := by
  induction xs generalizing linked with
  | nil => exact ⟨[], linked, rfl, hrules, rfl⟩
  | cons rule rest ih =>
    obtain ⟨body, linked', hbody, hrest, rfl⟩ := linkRules_cons hrules
    obtain ⟨rest', ys', hrest', hys, rfl⟩ := ih hrest
    exact ⟨{ rule with body } :: rest', ys', linkRules_cons_of hbody hrest', hys, rfl⟩

theorem linkRules_relocated {rules linked : List (Rule α)} (hrules : linkRules tables rules = .ok linked) :
    linkRules tables' (rules.map (relocateRule r)) = .ok (linked.map (relocateRule r)) := by
  induction rules generalizing linked with
  | nil =>
    cases hrules
    rfl
  | cons rule rest ih =>
    obtain ⟨body, rest', hbody, hrest, rfl⟩ := linkRules_cons hrules
    have hbody' : (if (relocateRule r rule).isExternal then .ok (relocateRule r rule).body
        else linkExpr tables' (relocateRule r rule).body) = .ok (relocateExpr r body) := by
      obtain ⟨name, expr, decorated, matcher, position⟩ := rule
      cases matcher with
      | none => exact linkExpr_relocated h hbody
      | some i =>
        cases hbody
        rfl
    exact linkRules_cons_of hbody' (ih hrest)

end Linking

/-! ## Builders -/

/-- A name is found at the one place where it stands. -/
theorem idxOf?_of_nodup {names : List Bytes} {name : Bytes} {i : Nat} (hnodup : names.Nodup)
    (h : names[i]? = some name) : names.idxOf? name = some i := by
  obtain ⟨j, hj⟩ := exists_idxOf?_iff.mpr (List.mem_of_getElem? h)
  have hlt : i < names.length := by
    by_contra hle
    rw [List.getElem?_eq_none (Nat.le_of_not_lt hle)] at h
    cases h
  rw [hj, (List.getElem?_inj hlt hnodup).mp (h.trans (getElem?_of_idxOf? hj).symm)]

/-- The place of a rule is that of its name. -/
theorem Grammar.find_eq_idxOf? (g : Grammar α) (name : Bytes) :
    g.find name = (g.rules.map (·.name)).idxOf? name := by
  unfold Grammar.find
  rw [List.idxOf?, List.findIdx?_map]
  rfl

/-- A builder has the parts of another one, and more behind them. -/
structure Builder.Extends (b b' : Builder α) : Prop where
  rules : ∃ more, b'.rules = b.rules ++ more
  matchers : ∃ more, b'.matchers = b.matchers ++ more
  actions : b'.actions = b.actions

namespace Builder

theorem Extends.refl (b : Builder α) : b.Extends b := by
  refine ⟨⟨[], ?_⟩, ⟨[], ?_⟩, rfl⟩
  · rw [List.append_nil]
  · rw [List.append_nil]

theorem Extends.trans {b c d : Builder α} (h : b.Extends c) (h' : c.Extends d) : b.Extends d := by
  obtain ⟨⟨rules, hrules⟩, ⟨matchers, hmatchers⟩, hactions⟩ := h
  obtain ⟨⟨rules', hrules'⟩, ⟨matchers', hmatchers'⟩, hactions'⟩ := h'
  refine ⟨⟨rules ++ rules', ?_⟩, ⟨matchers ++ matchers', ?_⟩, hactions'.trans hactions⟩
  · rw [hrules', hrules, List.append_assoc]
  · rw [hmatchers', hmatchers, List.append_assoc]

/-- A builder with the parts of another one behind its own, relocated. -/
def including (b c : Builder α) (r : Relocation) : Builder α :=
  { b with rules := b.rules ++ c.rules.map (relocateRule r), matchers := b.matchers ++ c.matchers }

theorem including_empty (b : Builder α) {c : Builder α} (r : Relocation) (hrules : c.rules = [])
    (hmatchers : c.matchers = []) : b.including c r = b := by
  unfold including
  rw [hrules, hmatchers, List.map_nil, List.append_nil, List.append_nil]

/-- The relocation of the rules of a builder behind those of another one, in a table of a given size. What is no
place of a rule goes beyond the table. -/
def relocation (b c : Builder α) (rename : Bytes → Bytes) (size : Nat) : Relocation where
  name := rename
  place i := if i < c.rules.length then b.rules.length + i else size + i
  matcher i := b.matchers.length + i

/-! ## Building -/

section Building

variable {b c large : Builder α} {rename : Bytes → Bytes}

/-- What stands behind the rules of a builder is found there. -/
theorem relocation_finds {g : Grammar α} (hbuild : large.build = .ok g)
    (hextends : (b.including c (b.relocation c rename large.rules.length)).Extends large)
    (hactions : large.actions = c.actions)
    (hunqualified : ∀ rule ∈ c.rules, Bytes.unqualified (rename rule.name) = Bytes.unqualified rule.name) :
    (b.relocation c rename large.rules.length).Finds c.nameTables large.nameTables := by
  refine ⟨?_, ?_, ?_⟩
  · intro name i hfound
    have hlt : i < c.rules.length := by
      have hi := lt_of_idxOf? hfound
      rwa [nameTables, List.length_map] at hi
    refine idxOf?_of_nodup (WellFormed.of_build hbuild).distinct ?_
    obtain ⟨more, hmore⟩ := hextends.rules
    have hname : (c.rules.map (·.name))[i]? = some name := getElem?_of_idxOf? hfound
    rw [List.getElem?_map, Option.map_eq_some_iff] at hname
    obtain ⟨rule, hrule, rfl⟩ := hname
    show (large.rules.map (·.name))[if i < c.rules.length then b.rules.length + i else large.rules.length + i]? =
      some (rename rule.name)
    rw [if_pos hlt, hmore, including, List.append_assoc, List.getElem?_map,
      List.getElem?_append_right (Nat.le_add_right _ _), Nat.add_sub_cancel_left,
      List.getElem?_append_left (by rwa [List.length_map]), List.getElem?_map, hrule]
    rfl
  · intro name hname
    obtain ⟨rule, hrule, rfl⟩ := List.mem_map.mp hname
    exact hunqualified rule hrule
  · show large.actions.map (·.1) = c.actions.map (·.1)
    rw [hactions]

/-- **A grammar is embedded in what links with its parts inside.** -/
theorem build_embeds {g g' : Grammar α} (hassembled : c.Assembled) (hbuild : c.build = .ok g)
    (hbuild' : large.build = .ok g')
    (hextends : (b.including c (b.relocation c rename large.rules.length)).Extends large)
    (hactions : large.actions = c.actions)
    (hunqualified : ∀ rule ∈ c.rules, Bytes.unqualified (rename rule.name) = Bytes.unqualified rule.name) :
    (b.relocation c rename large.rules.length).Embeds g g' := by
  have hfinds := relocation_finds hbuild' hextends hactions hunqualified
  have hscoped := build_scoped hassembled hbuild
  obtain ⟨rules, start, hrules, rfl⟩ := build_eq_ok hbuild
  obtain ⟨rules', start', hrules', rfl⟩ := build_eq_ok hbuild'
  obtain ⟨more, hmore⟩ := hextends.rules
  obtain ⟨moreMatchers, hmatchers⟩ := hextends.matchers
  have hlength := (linkRules_scoped c.rules hrules).1
  have hlength' := (linkRules_scoped large.rules hrules').1
  rw [hmore, including, List.append_assoc] at hrules'
  -- the rules of the whole: those before, those of the part, and those behind, each linked in the same tables
  obtain ⟨front, linked, hfront, hlinked, rfl⟩ := linkRules_append hrules'
  obtain ⟨middle, back, hmiddle, -, rfl⟩ := linkRules_append hlinked
  rw [linkRules_relocated hfinds hrules] at hmiddle
  obtain rfl := Except.ok.inj hmiddle
  have hfrontLength := (linkRules_scoped b.rules hfront).1
  refine ⟨?_, ?_, hactions, ?_⟩
  · intro i
    show (front ++ (rules.map (relocateRule _) ++ back))[if i < c.rules.length then _ else _]? = rules[i]?.map _
    by_cases hi : i < c.rules.length
    · rw [if_pos hi, List.getElem?_append_right (by omega), hfrontLength, Nat.add_sub_cancel_left,
        List.getElem?_append_left (by simpa [hlength] using hi), List.getElem?_map]
    · rw [if_neg hi, List.getElem?_eq_none (by omega), List.getElem?_eq_none (by omega)]
      rfl
  · intro i j hij
    -- numbers of rules that the part does not have are moved behind all others
    simp only [relocation] at hij
    have hle : b.rules.length + c.rules.length ≤ large.rules.length := by
      rw [hmore, including]
      simp
    by_cases hi : i < c.rules.length
    · by_cases hj : j < c.rules.length
      · rw [if_pos hi, if_pos hj] at hij
        omega
      · rw [if_pos hi, if_neg hj] at hij
        omega
    · by_cases hj : j < c.rules.length
      · rw [if_neg hi, if_pos hj] at hij
        omega
      · rw [if_neg hi, if_neg hj] at hij
        omega
  · intro rule hrule i hi
    have hlt : i < c.matchers.length := hscoped.matcher rule hrule i hi
    show large.matchers[b.matchers.length + i]? = c.matchers[i]?
    rw [hmatchers, including]
    simp only [List.append_assoc]
    rw [List.getElem?_append_right (by omega), Nat.add_sub_cancel_left, List.getElem?_append_left hlt]

end Building

end Builder

end Packrat
