import Packrat.Grammar.Combinators
import Packrat.Proofs.Linking
import Packrat.Proofs.Recognisers

/-!
# `Packrat.Proofs.Operators` — what the operators mean

An operator changes its operand in place where the shape of the operand leaves room for it, and puts it into a
group otherwise. Whatever it does, the expression that it builds recognises what its operands recognise, put
together as the operator says.

## Contents
- **Linking.** What linking makes of items does not depend on the names around them, unless they refer to names.
- **Denotations.** `Denotes`: what an expression recognises once it is linked.
- **Operators.** One law for each way to build an expression, and `operators_denote`, which holds them together.
-/

namespace Packrat

variable {α β σ : Type}

/-! ## Linking -/

/-- An item without its name and its place in a sequence. -/
def Item.bare (item : Item β) : Item β := ⟨none, false, item.lookahead, item.body, item.repetition, none, .unknown⟩

section Linking

variable {tables : NameTables} {visible visible' : List Bytes} {position : Position}

/-- What reads nothing of the sequence around it is linked in the same way everywhere. -/
theorem linkBody_closed {body body' : Body α} (h : body.isClosed = true)
    (hlink : linkBody tables visible position body = .ok body') :
    body'.isClosed = true ∧
      ∀ visible' position', linkBody tables visible' position' body = .ok body' := by
  cases body with
  | code host => cases h
  | interpolated segments caseless => cases h
  | call name decorated target =>
    unfold linkBody at hlink ⊢
    cases hfind : tables.rules.idxOf? name with
    | none =>
      rw [hfind] at hlink
      cases hlink
    | some i =>
      rw [hfind] at hlink
      cases hlink
      exact ⟨rfl, fun _ _ => rfl⟩
  | group alternatives =>
    have hsame : ∀ visible' position', linkBody tables visible' position' (.group alternatives) =
        linkBody tables visible position (.group alternatives) :=
      fun _ _ => by rw [linkBody, linkBody]
    refine ⟨?_, fun visible' position' => (hsame visible' position').trans hlink⟩
    rw [linkBody] at hlink
    obtain ⟨alternatives', -, hlink⟩ := bind_eq_ok.mp hlink
    cases hlink
    rfl
  | literal spelling caseless braceSensitive =>
    cases hlink
    exact ⟨rfl, fun _ _ => rfl⟩
  | cls cls =>
    cases hlink
    exact ⟨rfl, fun _ _ => rfl⟩
  | any =>
    cases hlink
    exact ⟨rfl, fun _ _ => rfl⟩

/-- An item that links where some names are visible links where fewer are. -/
theorem linkItem_of_subset {item linked : Item (Body α)} {names : List Bytes} (h : item.body.isClosed = true)
    (hsub : visible' ⊆ visible) (hlink : linkItem tables visible item = .ok (linked, names)) :
    linked.body.isClosed = true ∧ ∃ linked' names', linkItem tables visible' item = .ok (linked', names') ∧
      names' ⊆ names ∧ linked'.bare = linked.bare := by
  obtain ⟨name, autobind, lookahead, body, repetition, slot, position⟩ := item
  unfold linkItem at hlink
  obtain ⟨body', hbody, hlink⟩ := bind_eq_ok.mp hlink
  obtain ⟨name', hname, hlink⟩ := bind_eq_ok.mp hlink
  obtain ⟨⟨slot', names'⟩, hslot, hlink⟩ := bind_eq_ok.mp hlink
  cases hlink
  obtain ⟨hclosed, hanywhere⟩ := linkBody_closed h hbody
  obtain ⟨hnew, -, hnames⟩ := bindSlot_eq_ok.mp hslot
  -- a name that is new among some names is new among fewer
  have hslot' : bindSlot visible' name' position =
      .ok (name'.map (fun _ => visible'.length), visible' ++ name'.toList) :=
    bindSlot_eq_ok.mpr ⟨fun n hn hmem => hnew n hn (hsub hmem), rfl, rfl⟩
  refine ⟨hclosed, ⟨name', autobind, lookahead, body', repetition, name'.map fun _ => visible'.length, position⟩,
    visible' ++ name'.toList, ?_, ?_, rfl⟩
  · unfold linkItem
    rw [hanywhere visible' position, hname]
    exact bind_eq_ok.mpr ⟨_, rfl, bind_eq_ok.mpr ⟨_, rfl, bind_eq_ok.mpr ⟨_, hslot', rfl⟩⟩⟩
  · rw [hnames]
    exact List.append_subset.mpr
      ⟨List.Subset.trans hsub (List.subset_append_left _ _), List.subset_append_right _ _⟩

theorem linkItems_of_subset {items linked : List (Item (Body α))} {names : List Bytes}
    (h : ∀ item ∈ items, item.body.isClosed = true) (hsub : visible' ⊆ visible)
    (hlink : linkItems tables visible items = .ok (linked, names)) :
    (∀ item ∈ linked, item.body.isClosed = true) ∧
      ∃ linked' names', linkItems tables visible' items = .ok (linked', names') ∧
        linked'.map Item.bare = linked.map Item.bare := by
  induction items generalizing visible visible' linked names with
  | nil =>
    cases hlink
    exact ⟨fun item hitem => absurd hitem List.not_mem_nil, [], visible', rfl, rfl⟩
  | cons item rest ih =>
    rw [List.forall_mem_cons] at h
    unfold linkItems at hlink
    obtain ⟨⟨item', seen⟩, hitem, hlink⟩ := bind_eq_ok.mp hlink
    obtain ⟨⟨rest', names⟩, hrest, hlink⟩ := bind_eq_ok.mp hlink
    cases hlink
    obtain ⟨hclosed, item'', seen', hitem', hseen, hbare⟩ := linkItem_of_subset h.1 hsub hitem
    obtain ⟨hclosed', rest'', names', hrest', hbare'⟩ := ih h.2 hseen hrest
    refine ⟨List.forall_mem_cons.mpr ⟨hclosed, hclosed'⟩, item'' :: rest'', names', ?_, ?_⟩
    · unfold linkItems
      exact bind_eq_ok.mpr ⟨_, hitem', bind_eq_ok.mpr ⟨_, hrest', rfl⟩⟩
    · rw [List.map_cons, List.map_cons, hbare, hbare']

/-- Items are linked one after the other. -/
theorem linkItems_append {items rest linked : List (Item (Body α))} {names : List Bytes}
    (hlink : linkItems tables visible (items ++ rest) = .ok (linked, names)) :
    ∃ items' seen rest', linkItems tables visible items = .ok (items', seen) ∧
      linkItems tables seen rest = .ok (rest', names) ∧ linked = items' ++ rest' := by
  induction items generalizing visible linked with
  | nil => exact ⟨[], visible, linked, rfl, hlink, rfl⟩
  | cons item items ih =>
    rw [List.cons_append] at hlink
    unfold linkItems at hlink
    obtain ⟨⟨item', seen⟩, hitem, hlink⟩ := bind_eq_ok.mp hlink
    obtain ⟨⟨linked', names'⟩, htail, hlink⟩ := bind_eq_ok.mp hlink
    cases hlink
    obtain ⟨items', seen', rest', hitems, hrest, rfl⟩ := ih htail
    refine ⟨item' :: items', seen', rest', ?_, hrest, rfl⟩
    unfold linkItems
    exact bind_eq_ok.mpr ⟨_, hitem, bind_eq_ok.mpr ⟨_, hitems, rfl⟩⟩

theorem linkItems_singleton {item : Item (Body α)} {linked : List (Item (Body α))} {names : List Bytes} :
    linkItems tables visible [item] = .ok (linked, names) ↔
      ∃ item', linkItem tables visible item = .ok (item', names) ∧ linked = [item'] := by
  constructor
  · intro hlink
    unfold linkItems at hlink
    obtain ⟨⟨item', seen⟩, hitem, hlink⟩ := bind_eq_ok.mp hlink
    cases hlink
    exact ⟨item', hitem, rfl⟩
  · rintro ⟨item', hitem, rfl⟩
    unfold linkItems
    exact bind_eq_ok.mpr ⟨(item', names), hitem, rfl⟩

/-- Alternatives are linked one after the other. -/
theorem linkExpr_append {e₁ e₂ linked : Expr α} (hlink : linkExpr tables (e₁ ++ e₂) = .ok linked) :
    ∃ l₁ l₂, linkExpr tables e₁ = .ok l₁ ∧ linkExpr tables e₂ = .ok l₂ ∧ linked = l₁ ++ l₂ := by
  induction e₁ generalizing linked with
  | nil => exact ⟨[], linked, rfl, hlink, rfl⟩
  | cons seq rest ih =>
    rw [List.cons_append] at hlink
    unfold linkExpr at hlink
    obtain ⟨seq', hseq, hlink⟩ := bind_eq_ok.mp hlink
    obtain ⟨tail, htail, hlink⟩ := bind_eq_ok.mp hlink
    cases hlink
    obtain ⟨l₁, l₂, h₁, h₂, rfl⟩ := ih htail
    refine ⟨seq' :: l₁, l₂, ?_, h₂, rfl⟩
    unfold linkExpr
    exact bind_eq_ok.mpr ⟨_, hseq, bind_eq_ok.mpr ⟨_, h₁, rfl⟩⟩

theorem linkExpr_singleton {seq : Sequence α (Body α)} {linked : Expr α} :
    linkExpr tables [seq] = .ok linked ↔ ∃ seq', linkSequence tables seq = .ok seq' ∧ linked = [seq'] := by
  constructor
  · intro hlink
    unfold linkExpr at hlink
    obtain ⟨seq', hseq, hlink⟩ := bind_eq_ok.mp hlink
    cases hlink
    exact ⟨seq', hseq, rfl⟩
  · rintro ⟨seq', hseq, rfl⟩
    unfold linkExpr
    exact bind_eq_ok.mpr ⟨seq', hseq, rfl⟩

/-- Without an action only the items of a sequence have to be linked. -/
theorem linkSequence_none {items : List (Item (Body α))} {layout : List Bytes} {linked : Sequence α (Body α)} :
    linkSequence tables ⟨items, none, layout, position⟩ = .ok linked ↔
      ∃ items' names, linkItems tables [] items = .ok (items', names) ∧ linked = ⟨items', none, names, position⟩ := by
  constructor
  · intro hlink
    unfold linkSequence at hlink
    obtain ⟨⟨items', names⟩, hitems, hlink⟩ := bind_eq_ok.mp hlink
    cases hlink
    exact ⟨items', names, hitems, rfl⟩
  · rintro ⟨items', names, hitems, rfl⟩
    unfold linkSequence
    exact bind_eq_ok.mpr ⟨(items', names), hitems, rfl⟩

end Linking

/-! ## Denotations -/

/-- Whether the items of an expression read nothing of the sequences that they stand in. -/
def Expr.IsClosed (e : Expr α) : Prop := ∀ seq ∈ e, ∀ item ∈ seq.items, item.body.isClosed = true

theorem isClosed_of_isStatic {items : List (Item (Body α))} (h : (itemsPattern items).isStatic = true) :
    ∀ item ∈ items, item.body.isClosed = true := by
  induction items with
  | nil => exact fun item hitem => absurd hitem List.not_mem_nil
  | cons item rest ih =>
    unfold itemsPattern at h
    obtain ⟨hitem, hrest⟩ := Bool.and_eq_true_iff.mp h
    refine List.forall_mem_cons.mpr ⟨?_, ih hrest⟩
    obtain ⟨name, autobind, lookahead, body, repetition, slot, position⟩ := item
    unfold itemPattern at hitem
    rw [Lookahead.isStatic_pattern, Repetition.isStatic_pattern] at hitem
    cases body with
    | code host => cases hitem
    | interpolated segments caseless => cases hitem
    | _ => rfl

/-- Without code and interpolated literals nothing reads the sequence that it stands in. -/
theorem Expr.isClosed_of_isStatic {e : Expr α} (h : (exprPattern e).isStatic = true) : e.IsClosed := by
  induction e with
  | nil => exact fun seq hseq => absurd hseq List.not_mem_nil
  | cons seq rest ih =>
    unfold exprPattern at h
    obtain ⟨hseq, hrest⟩ := Bool.and_eq_true_iff.mp h
    refine List.forall_mem_cons.mpr ⟨?_, ih hrest⟩
    obtain ⟨items, action, layout, position⟩ := seq
    unfold sequencePattern at hseq
    exact Packrat.isClosed_of_isStatic hseq

/-- Once it is linked, an expression recognises what `r` does. -/
def Denotes (scene : Scene α σ) (depth : Nat) (tables : NameTables) (e : Expr α) (r : Recogniser σ) : Prop :=
  ∃ linked, linkExpr tables e = .ok linked ∧ recogniseExpr scene (callRule scene depth) linked = r

section Denotations

variable {scene : Scene α σ} {depth : Nat} {tables : NameTables} {e e₁ e₂ : Expr α} {r s : Recogniser σ}

theorem Denotes.unique (hr : Denotes scene depth tables e r) (hs : Denotes scene depth tables e s) : r = s := by
  obtain ⟨linked, hlink, rfl⟩ := hr
  obtain ⟨linked', hlink', rfl⟩ := hs
  rw [hlink] at hlink'
  cases hlink'
  rfl

/-- Names and slots do not matter to what items recognise. -/
theorem recogniseItems_bare (call : Bool → Nat → Step σ) (items : List (Item (Body α))) :
    recogniseItems scene call (items.map Item.bare) = recogniseItems scene call items := by
  induction items with
  | nil => rfl
  | cons item rest ih =>
    rw [List.map_cons, recogniseItems, ih]
    rfl

/-- A sequence without an action denotes what its items recognise. -/
theorem denotes_items {items : List (Item (Body α))} {layout : List Bytes} {position : Position}
    (h : ∀ item ∈ items, item.body.isClosed = true) :
    Denotes scene depth tables [⟨items, none, layout, position⟩] r ↔
      ∃ items' names, linkItems tables [] items = .ok (items', names) ∧
        recogniseItems scene (callRule scene depth) items' = r := by
  have hplaces : ∀ items' names, linkItems tables [] items = .ok (items', names) →
      recogniseExpr scene (callRule scene depth) [⟨items', none, names, position⟩] =
        recogniseItems scene (callRule scene depth) items' := by
    intro items' names hitems
    obtain ⟨hclosed, -⟩ := linkItems_of_subset h (List.Subset.refl _) hitems
    rw [recogniseExpr_singleton]
    funext quiet c
    exact place_evalSequence hclosed names position quiet c
  constructor
  · rintro ⟨linked, hlink, rfl⟩
    obtain ⟨seq', hseq, rfl⟩ := linkExpr_singleton.mp hlink
    obtain ⟨items', names, hitems, rfl⟩ := linkSequence_none.mp hseq
    exact ⟨items', names, hitems, (hplaces items' names hitems).symm⟩
  · rintro ⟨items', names, hitems, rfl⟩
    exact ⟨_, linkExpr_singleton.mpr ⟨_, linkSequence_none.mpr ⟨_, _, hitems, rfl⟩, rfl⟩, hplaces items' names hitems⟩

/-- The expression of one item denotes what the item recognises, if it can bind its name. -/
theorem denotes_item {name : Option Bytes} {autobind : Bool} {lookahead : Lookahead} {body : Body α}
    {repetition : Repetition} {slot : Option Nat} {layout : List Bytes} {position position' : Position}
    (h : body.isClosed = true) :
    Denotes scene depth tables
        [⟨[⟨name, autobind, lookahead, body, repetition, slot, position⟩], none, layout, position'⟩] r ↔
      ∃ body', linkBody tables [] position body = .ok body' ∧
        (∃ name', bindingName autobind name body position = .ok name') ∧
        lookahead.recogniser (repetition.recogniser scene.reach
          (recogniseBody scene (callRule scene depth) body')) = r := by
  rw [denotes_items (List.forall_mem_singleton.mpr h)]
  simp only [linkItems_singleton]
  constructor
  · rintro ⟨items', names, ⟨item', hitem, rfl⟩, rfl⟩
    unfold linkItem at hitem
    obtain ⟨body', hbody, hitem⟩ := bind_eq_ok.mp hitem
    obtain ⟨name', hname, hitem⟩ := bind_eq_ok.mp hitem
    obtain ⟨⟨slot', seen'⟩, -, hitem⟩ := bind_eq_ok.mp hitem
    cases hitem
    rw [recogniseItems_singleton]
    exact ⟨body', hbody, ⟨name', hname⟩, rfl⟩
  · rintro ⟨body', hbody, ⟨name', hname⟩, rfl⟩
    -- the name of the only item is new
    have hslot : bindSlot [] name' position = .ok (name'.map (fun _ => 0), [] ++ name'.toList) :=
      bindSlot_eq_ok.mpr ⟨fun n _ => List.not_mem_nil, rfl, rfl⟩
    refine ⟨_, [] ++ name'.toList,
      ⟨⟨name', autobind, lookahead, body', repetition, name'.map fun _ => 0, position⟩, ?_, rfl⟩, ?_⟩
    · unfold linkItem
      exact bind_eq_ok.mpr ⟨_, hbody, bind_eq_ok.mpr ⟨_, hname, bind_eq_ok.mpr ⟨_, hslot, rfl⟩⟩⟩
    · rw [recogniseItems_singleton]
      rfl

/-- An item around a group denotes what the group does, with its repetition and its lookahead. -/
theorem denotes_group {name : Option Bytes} {lookahead : Lookahead} {repetition : Repetition}
    {layout : List Bytes} {position position' : Position} :
    Denotes scene depth tables [⟨[⟨name, false, lookahead, .group e, repetition, none, position'⟩], none, layout,
      position⟩] r ↔ ∃ s, Denotes scene depth tables e s ∧
        lookahead.recogniser (repetition.recogniser scene.reach s) = r := by
  rw [denotes_item rfl]
  simp only [linkBody]
  constructor
  · rintro ⟨body, hbody, -, rfl⟩
    obtain ⟨linked, hlink, hbody⟩ := bind_eq_ok.mp hbody
    cases hbody
    exact ⟨_, ⟨linked, hlink, rfl⟩, by rw [recogniseBody_group]⟩
  · rintro ⟨s, ⟨linked, hlink, rfl⟩, rfl⟩
    exact ⟨.group linked, bind_eq_ok.mpr ⟨linked, hlink, rfl⟩, ⟨name, rfl⟩, by rw [recogniseBody_group]⟩

theorem isClosed_itemsOf (h : e.IsClosed) : ∀ item ∈ Expr.itemsOf e, item.body.isClosed = true := by
  unfold Expr.itemsOf
  split
  · exact h _ List.mem_cons_self
  · exact List.forall_mem_singleton.mpr rfl

/-- An item stands for an expression: it denotes the same alone in a sequence, and nothing is bound to it. -/
structure StandsFor (scene : Scene α σ) (depth : Nat) (tables : NameTables) (item : Item (Body α))
    (layout : List Bytes) (position : Position) (e : Expr α) : Prop where
  closed : item.body.isClosed = true
  name : item.name = none
  autobind : item.autobind = false
  denotes : ∀ r, Denotes scene depth tables [⟨[item], none, layout, position⟩] r ↔ Denotes scene depth tables e r

theorem StandsFor.group (scene : Scene α σ) (depth : Nat) (tables : NameTables) (e : Expr α) :
    StandsFor scene depth tables ⟨none, false, .none, .group e, .once, none, .unknown⟩ [] .unknown e where
  closed := rfl
  name := rfl
  autobind := rfl
  denotes r := by
    rw [denotes_group]
    constructor
    · rintro ⟨s, hs, rfl⟩
      exact hs
    · intro hr
      exact ⟨r, hr, rfl⟩

/-- An expression denotes what its items do, which group it if need be. -/
theorem denotes_itemsOf (h : e.IsClosed) : Denotes scene depth tables e r ↔
    ∃ items' names, linkItems tables [] (Expr.itemsOf e) = .ok (items', names) ∧
      recogniseItems scene (callRule scene depth) items' = r := by
  have hclosed := isClosed_itemsOf h
  unfold Expr.itemsOf at hclosed ⊢
  split
  · exact denotes_items hclosed
  · rw [← denotes_items (List.forall_mem_singleton.mpr rfl)]
    exact ((StandsFor.group scene depth tables e).denotes r).symm

/-- The sole item of an expression is all there is to it. -/
theorem StandsFor.sole (h : e.IsClosed) {item : Item (Body α)} {rebuild : Item (Body α) → Expr α}
    (hsole : Expr.soleItem? e = some (item, rebuild)) : ∃ layout position,
      StandsFor scene depth tables item layout position e ∧
        rebuild = fun changed => [⟨[changed], none, layout, position⟩] := by
  unfold Expr.soleItem? at hsole
  split at hsole
  · next only layout position =>
    split at hsole
    · cases hsole
    · next hplain =>
      cases hsole
      rw [Bool.or_eq_true, not_or, Bool.not_eq_true, Bool.not_eq_true, Option.isSome_eq_false_iff,
        Option.isNone_iff_eq_none] at hplain
      have hclosed : item.body.isClosed = true := h _ List.mem_cons_self _ List.mem_cons_self
      exact ⟨layout, position, ⟨hclosed, hplain.1, hplain.2, fun r => Iff.rfl⟩, rfl⟩
  · cases hsole

/-- Whatever is changed about an item that stands for an expression, its body is linked as it was. -/
theorem StandsFor.changed {item : Item (Body α)} {layout : List Bytes} {position : Position}
    (hitem : StandsFor scene depth tables item layout position e) {name : Option Bytes} {autobind : Bool}
    {lookahead : Lookahead} {repetition : Repetition} {slot : Option Nat}
    (h : Denotes scene depth tables
      [⟨[⟨name, autobind, lookahead, item.body, repetition, slot, item.position⟩], none, layout, position⟩] r) :
    ∃ body, r = lookahead.recogniser (repetition.recogniser scene.reach
        (recogniseBody scene (callRule scene depth) body)) ∧
      ∀ lookahead repetition, Denotes scene depth tables [⟨[⟨item.name, item.autobind, lookahead, item.body, repetition,
        item.slot, item.position⟩], none, layout, position⟩]
          (lookahead.recogniser (repetition.recogniser scene.reach
            (recogniseBody scene (callRule scene depth) body))) := by
  rw [denotes_item hitem.closed] at h
  obtain ⟨body, hlink, -, hr⟩ := h
  refine ⟨body, hr.symm, fun lookahead repetition => (denotes_item hitem.closed).mpr ⟨body, hlink, ⟨none, ?_⟩, rfl⟩⟩
  unfold bindingName
  simp only [hitem.name, hitem.autobind, Bool.false_eq_true, if_false]

/-- So the expression is denoted by the body, with the lookahead and the repetition that the item had. -/
theorem StandsFor.unchanged {item : Item (Body α)} {layout : List Bytes} {position : Position}
    (hitem : StandsFor scene depth tables item layout position e) {name : Option Bytes} {autobind : Bool}
    {lookahead : Lookahead} {repetition : Repetition} {slot : Option Nat}
    (h : Denotes scene depth tables
      [⟨[⟨name, autobind, lookahead, item.body, repetition, slot, item.position⟩], none, layout, position⟩] r) :
    ∃ body, r = lookahead.recogniser (repetition.recogniser scene.reach
        (recogniseBody scene (callRule scene depth) body)) ∧
      Denotes scene depth tables e (item.lookahead.recogniser (item.repetition.recogniser scene.reach
        (recogniseBody scene (callRule scene depth) body))) := by
  obtain ⟨body, hr, hlinked⟩ := hitem.changed h
  exact ⟨body, hr, (hitem.denotes _).mp (hlinked item.lookahead item.repetition)⟩

end Denotations

/-! ## Operators -/

section Operators

variable {scene : Scene α σ} {depth : Nat} {tables : NameTables} {e e₁ e₂ : Expr α} {r : Recogniser σ}

theorem denotes_grouped : Denotes scene depth tables (Expr.grouped e) r ↔ Denotes scene depth tables e r :=
  (StandsFor.group scene depth tables e).denotes r

theorem denotes_orElse (h : Denotes scene depth tables (Expr.orElse e₁ e₂) r) :
    ∃ r₁ r₂, Denotes scene depth tables e₁ r₁ ∧ Denotes scene depth tables e₂ r₂ ∧ r = r₁.orElse r₂ := by
  obtain ⟨linked, hlink, rfl⟩ := h
  obtain ⟨l₁, l₂, h₁, h₂, rfl⟩ := linkExpr_append hlink
  exact ⟨_, _, ⟨l₁, h₁, rfl⟩, ⟨l₂, h₂, rfl⟩, recogniseExpr_append l₁ l₂⟩

/-- The second operand sees fewer names alone than behind the first, but reads none of them. -/
theorem denotes_andThen (h₁ : e₁.IsClosed) (h₂ : e₂.IsClosed)
    (h : Denotes scene depth tables (Expr.andThen e₁ e₂) r) :
    ∃ r₁ r₂, Denotes scene depth tables e₁ r₁ ∧ Denotes scene depth tables e₂ r₂ ∧ r = r₁.andThen r₂ := by
  have hclosed₁ := isClosed_itemsOf h₁
  have hclosed₂ := isClosed_itemsOf h₂
  have hclosed : ∀ item ∈ Expr.itemsOf e₁ ++ Expr.itemsOf e₂, item.body.isClosed = true :=
    List.forall_mem_append.mpr ⟨hclosed₁, hclosed₂⟩
  unfold Expr.andThen at h
  obtain ⟨linked, names, hlink, rfl⟩ := (denotes_items hclosed).mp h
  obtain ⟨items₁, seen, items₂, hitems₁, hitems₂, rfl⟩ := linkItems_append hlink
  -- alone, the second operand takes other slots, and is the same but for those
  obtain ⟨-, items₂', names', hitems₂', hbare⟩ := linkItems_of_subset hclosed₂ (List.nil_subset seen) hitems₂
  refine ⟨_, _, (denotes_itemsOf h₁).mpr ⟨items₁, seen, hitems₁, rfl⟩,
    (denotes_itemsOf h₂).mpr ⟨items₂', names', hitems₂', rfl⟩, ?_⟩
  rw [recogniseItems_append, ← recogniseItems_bare _ items₂', hbare, recogniseItems_bare]

/-- A lookahead changes an item that has none. -/
theorem withLookahead_spec (scene : Scene α σ) (depth : Nat) (tables : NameTables) (lookahead : Lookahead)
    (h : e.IsClosed) : ∃ item layout position,
    StandsFor scene depth tables item layout position e ∧ item.lookahead = .none ∧
      Expr.withLookahead lookahead e = [⟨[{ item with lookahead }], none, layout, position⟩] := by
  have hgroup := StandsFor.group scene depth tables e
  unfold Expr.withLookahead
  cases hsole : Expr.soleItem? e with
  | none => exact ⟨_, _, _, hgroup, rfl, rfl⟩
  | some found =>
    obtain ⟨item, rebuild⟩ := found
    simp only
    split
    · next hnone =>
      obtain ⟨layout, position, hitem, rfl⟩ := StandsFor.sole h hsole
      exact ⟨item, layout, position, hitem, hnone, rfl⟩
    · exact ⟨_, _, _, hgroup, rfl, rfl⟩

/-- A repetition changes an item that has neither lookahead nor repetition. -/
theorem withRepetition_spec (scene : Scene α σ) (depth : Nat) (tables : NameTables) (h : e.IsClosed) :
    ∃ item layout position,
    StandsFor scene depth tables item layout position e ∧ item.lookahead = .none ∧ item.repetition = .once ∧
      ∀ repetition, Expr.withRepetition repetition e = [⟨[{ item with repetition }], none, layout, position⟩] := by
  have hgroup := StandsFor.group scene depth tables e
  unfold Expr.withRepetition
  cases hsole : Expr.soleItem? e with
  | none => exact ⟨_, _, _, hgroup, rfl, rfl, fun _ => rfl⟩
  | some found =>
    obtain ⟨item, rebuild⟩ := found
    simp only
    split
    · next hplain =>
      obtain ⟨layout, position, hitem, rfl⟩ := StandsFor.sole h hsole
      exact ⟨item, layout, position, hitem, hplain.1, hplain.2, fun _ => rfl⟩
    · exact ⟨_, _, _, hgroup, rfl, rfl, fun _ => rfl⟩

/-- A name is given to an item that has none. -/
theorem itemOf_spec (scene : Scene α σ) (depth : Nat) (tables : NameTables) (h : e.IsClosed) : ∃ item layout position,
    StandsFor scene depth tables item layout position e ∧
      Expr.itemOf e = (item, fun changed => [⟨[changed], none, layout, position⟩]) := by
  unfold Expr.itemOf
  cases hsole : Expr.soleItem? e with
  | none => exact ⟨_, _, _, StandsFor.group scene depth tables e, rfl⟩
  | some found =>
    obtain ⟨item, rebuild⟩ := found
    obtain ⟨layout, position, hitem, rfl⟩ := StandsFor.sole h hsole
    exact ⟨item, layout, position, hitem, rfl⟩

theorem denotes_withLookahead (lookahead : Lookahead) (h : e.IsClosed)
    (hdenotes : Denotes scene depth tables (Expr.withLookahead lookahead e) r) :
    ∃ r₁, Denotes scene depth tables e r₁ ∧ r = lookahead.recogniser r₁ := by
  obtain ⟨item, layout, position, hitem, hnone, hexpr⟩ :=
    withLookahead_spec scene depth tables lookahead h
  rw [hexpr] at hdenotes
  obtain ⟨body, hr, horiginal⟩ := hitem.unchanged hdenotes
  rw [hnone] at horiginal
  exact ⟨_, horiginal, hr⟩

/-- An expression that can be repeated in one way can be repeated in any. -/
theorem denotes_withRepetition (repetition : Repetition) (h : e.IsClosed)
    (hdenotes : Denotes scene depth tables (Expr.withRepetition repetition e) r) :
    ∃ body, Denotes scene depth tables e (recogniseBody scene (callRule scene depth) body) ∧
      r = repetition.recogniser scene.reach (recogniseBody scene (callRule scene depth) body) ∧
      ∀ repetition, Denotes scene depth tables (Expr.withRepetition repetition e)
        (repetition.recogniser scene.reach (recogniseBody scene (callRule scene depth) body)) := by
  obtain ⟨item, layout, position, hitem, hnone, honce, hexpr⟩ :=
    withRepetition_spec scene depth tables h
  rw [hexpr] at hdenotes
  obtain ⟨body, hr, hlinked⟩ := hitem.changed hdenotes
  rw [hnone] at hr
  have horiginal := (hitem.denotes _).mp (hlinked item.lookahead item.repetition)
  rw [hnone, honce] at horiginal
  refine ⟨body, horiginal, hr, fun repetition => ?_⟩
  have hrepeated := hlinked item.lookahead repetition
  rw [hexpr]
  rw [hnone] at hrepeated ⊢
  exact hrepeated

/-- A name changes nothing. -/
theorem denotes_bind (name : Bytes) (h : e.IsClosed) (hdenotes : Denotes scene depth tables (Expr.bind name e) r) :
    Denotes scene depth tables e r := by
  obtain ⟨item, layout, position, hitem, hexpr⟩ :=
    itemOf_spec scene depth tables h
  unfold Expr.bind at hdenotes
  rw [hexpr] at hdenotes
  obtain ⟨body, rfl, horiginal⟩ := hitem.unchanged hdenotes
  exact horiginal

theorem denotes_autobind (h : e.IsClosed) (hdenotes : Denotes scene depth tables (Expr.autobind e) r) :
    Denotes scene depth tables e r := by
  obtain ⟨item, layout, position, hitem, hexpr⟩ :=
    itemOf_spec scene depth tables h
  unfold Expr.autobind at hdenotes
  rw [hexpr] at hdenotes
  obtain ⟨body, rfl, horiginal⟩ := hitem.unchanged hdenotes
  exact horiginal

/-- `s` does what `r` does, and then computes a host expression whose value does not matter: the two answer the same,
unless that computation raises a fault, and leave the same trail. -/
def Recogniser.ComputesBehind (scene : Scene α σ) (r s : Recogniser σ) (node : HostNode α) : Prop :=
  ∀ quiet c p,
    ((s quiet c).run.run p).2.trail = ((r quiet c).run.run p).2.trail ∧
      (((s quiet c).run.run p).1 = ((r quiet c).run.run p).1 ∨
        ∃ frame next fault, ((r quiet c).run.run p).1 = .ok (some next) ∧
          ((evalHost scene frame next.offset node).run.run ((r quiet c).run.run p).2).1 = .error fault ∧
          ((s quiet c).run.run p).1 = .error fault)

/-- Behind the items of a sequence its action is computed. -/
theorem place_sequenceValue_some (items : List (Item (Body α))) (host : Host α) (layout : List Bytes) (c : Cursor)
    (slots : List (Spanned Value)) (last : Spanned Value) (next : Cursor) :
    Result.place? <$> (sequenceValue scene items (some host) layout c slots last next >>= fun v =>
        pure (.success v next)) =
      evalHost scene ⟨slots, layout, c.offset⟩ next.offset host.node >>= fun _ => pure (some next) := by
  unfold sequenceValue
  simp only [bind_assoc, map_bind, pure_bind, map_pure]
  rfl

/-- The action of a sequence is computed where its items have matched. -/
theorem computesBehind_items (call : Bool → Nat → Step σ) {items : List (Item (Body α))}
    (h : ∀ item ∈ items, item.body.isClosed = true) (host : Host α) (layout : List Bytes) (position : Position) :
    Recogniser.ComputesBehind scene (recogniseItems scene call items)
      (recogniseExpr scene call [⟨items, some host, layout, position⟩]) host.node := by
  intro quiet c p
  rw [recogniseExpr_singleton,
    ← place_evalItems h quiet layout c.offset (List.replicate layout.length default) default c]
  simp only [evalSequence, map_bind]
  rw [← bind_pure_comp]
  cases hitems : (evalItems scene call quiet layout c.offset items (List.replicate layout.length default) default
    c).run.run p with
  | mk answer p' =>
    cases answer with
    | error fault =>
      rw [run_bind_error hitems, run_bind_error hitems]
      exact ⟨rfl, .inl rfl⟩
    | ok result =>
      rw [run_bind_ok hitems, run_bind_ok hitems]
      cases result with
      | failure offset => exact ⟨rfl, .inl rfl⟩
      | success slots last next =>
        have htrail := (evalHost_asks scene ⟨slots, layout, c.offset⟩ next.offset host.node).trail p'
        simp only [place_sequenceValue_some]
        cases hhost : (evalHost scene ⟨slots, layout, c.offset⟩ next.offset host.node).run.run p' with
        | mk value p'' =>
          rw [hhost] at htrail
          cases value with
          | error fault =>
            rw [run_bind_error hhost]
            exact ⟨htrail, .inr ⟨⟨slots, layout, c.offset⟩, next, fault, rfl, congrArg Prod.fst hhost, rfl⟩⟩
          | ok v =>
            rw [run_bind_ok hhost]
            exact ⟨htrail, .inl rfl⟩

/-- An action goes behind the items of its expression, which are grouped if need be. -/
theorem withAction_eq (e : Expr α) (host : Host α) :
    ∃ layout position, Expr.withAction e host = [⟨Expr.itemsOf e, some host, layout, position⟩] := by
  unfold Expr.withAction Expr.itemsOf
  split
  · exact ⟨_, _, rfl⟩
  · exact ⟨_, _, rfl⟩

theorem denotes_withAction (host : Host α) (h : e.IsClosed)
    (hdenotes : Denotes scene depth tables (Expr.withAction e host) r) :
    ∃ r₁ names node, Denotes scene depth tables e r₁ ∧
      linkHost tables names host.node host.position = .ok node ∧ Recogniser.ComputesBehind scene r₁ r node := by
  obtain ⟨layout, position, hexpr⟩ := withAction_eq e host
  rw [hexpr] at hdenotes
  obtain ⟨linked, hlink, rfl⟩ := hdenotes
  obtain ⟨seq, hseq, rfl⟩ := linkExpr_singleton.mp hlink
  unfold linkSequence at hseq
  obtain ⟨⟨items, names⟩, hitems, hseq⟩ := bind_eq_ok.mp hseq
  obtain ⟨node, hnode, hseq⟩ := bind_eq_ok.mp hseq
  cases hseq
  obtain ⟨hclosed, -⟩ := linkItems_of_subset (isClosed_itemsOf h) (List.Subset.refl _) hitems
  exact ⟨_, names, node, (denotes_itemsOf h).mpr ⟨items, names, hitems, rfl⟩, hnode,
    computesBehind_items _ hclosed ⟨node, host.position⟩ names position⟩

theorem denotes_star (h : e.IsClosed) (hdenotes : Denotes scene depth tables (Expr.star e) r) :
    ∃ r₁, Denotes scene depth tables e r₁ ∧
      (depth ≤ scene.settings.maxDepth → Recogniser.Greedy scene r₁ r) := by
  obtain ⟨body, hbody, rfl, -⟩ := denotes_withRepetition .star h hdenotes
  exact ⟨_, hbody, fun hdepth => (recogniseBody_goesForward scene hdepth body).greedy⟩

theorem denotes_plus (h : e.IsClosed) (hdenotes : Denotes scene depth tables (Expr.plus e) r) :
    ∃ r₁ s, Denotes scene depth tables e r₁ ∧ Denotes scene depth tables (Expr.star e) s ∧ r = r₁.andThen s := by
  obtain ⟨body, hbody, rfl, hrepeated⟩ := denotes_withRepetition .plus h hdenotes
  exact ⟨_, _, hbody, hrepeated .star, rfl⟩

theorem isClosed_andThen (h₁ : e₁.IsClosed) (h₂ : e₂.IsClosed) : (Expr.andThen e₁ e₂).IsClosed := by
  unfold Expr.andThen
  exact List.forall_mem_singleton.mpr
    (List.forall_mem_append.mpr ⟨isClosed_itemsOf h₁, isClosed_itemsOf h₂⟩)

theorem isClosed_star (scene : Scene α σ) (depth : Nat) (tables : NameTables) (h : e.IsClosed) :
    (Expr.star e).IsClosed := by
  obtain ⟨item, layout, position, hitem, -, -, hexpr⟩ := withRepetition_spec scene depth tables h
  unfold Expr.star
  rw [hexpr]
  exact List.forall_mem_singleton.mpr (List.forall_mem_singleton.mpr hitem.closed)

theorem denotes_separatedBy (h₁ : e₁.IsClosed) (h₂ : e₂.IsClosed)
    (hdenotes : Denotes scene depth tables (Expr.separatedBy e₁ e₂) r) :
    ∃ r₁ r₂ s, Denotes scene depth tables e₁ r₁ ∧ Denotes scene depth tables e₂ r₂ ∧ r = r₁.andThen s ∧
      (depth ≤ scene.settings.maxDepth → Recogniser.Greedy scene (r₂.andThen r₁) s) := by
  have hrepeated := isClosed_andThen h₂ h₁
  obtain ⟨r₁, s, hr₁, hs, rfl⟩ := denotes_andThen h₁ (isClosed_star scene depth tables hrepeated) hdenotes
  obtain ⟨t, ht, hgreedy⟩ := denotes_star hrepeated hs
  obtain ⟨r₂, r₁', hr₂, hr₁', rfl⟩ := denotes_andThen h₂ h₁ ht
  -- the operand stands there twice, and denotes the same both times
  rw [hr₁'.unique hr₁] at hgreedy
  exact ⟨r₁, r₂, s, hr₁, hr₂, rfl, hgreedy⟩

/-- The rules of a grammar that has been built stand where those of the builder do. -/
theorem getElem?_linkRules {rules linked : List (Rule α)} (hlink : linkRules tables rules = .ok linked) {i : Nat}
    {rule : Rule α} (hrule : rules[i]? = some rule) (hmatcher : rule.matcher = none) :
    ∃ body, linkExpr tables rule.body = .ok body ∧ linked[i]? = some { rule with body } := by
  induction rules generalizing linked i with
  | nil => cases hrule
  | cons first rest ih =>
    obtain ⟨body, rest', hbody, hrest, rfl⟩ := linkRules_cons hlink
    cases i with
    | zero =>
      cases hrule
      have hinternal : ¬rule.isExternal = true := by
        unfold Rule.isExternal
        rw [hmatcher]
        exact Bool.false_ne_true
      rw [if_neg hinternal] at hbody
      exact ⟨body, hbody, rfl⟩
    | succ i => exact ih hrest hrule

/-- A rule recognises what its expression denotes. -/
theorem place_evalRule {b : Builder α} {g : Grammar α} (hbuild : b.build = .ok g) {i : Nat} {rule : Rule α}
    (hrule : b.rules[i]? = some rule) (hmatcher : rule.matcher = none) :
    ∃ linked, g.rules[i]? = some linked ∧
      Denotes scene depth b.nameTables rule.body
        (fun quiet c => Result.place? <$> evalRule scene (callRule scene depth) quiet linked c) := by
  obtain ⟨rules, start, hrules, rfl⟩ := Builder.build_eq_ok hbuild
  obtain ⟨body, hbody, hlinked⟩ := getElem?_linkRules hrules hrule hmatcher
  refine ⟨{ rule with body }, hlinked, body, hbody, ?_⟩
  funext quiet c
  unfold evalRule recogniseExpr
  simp only [hmatcher]
  conv => lhs; rw [← bind_pure (Result.place? <$> _)]
  refine (map_bind_of_factors fun result => ?_).symm
  cases result with
  | failure offset => rfl
  | success tree next =>
    -- a decoration changes the value only
    by_cases hdecorated : rule.decorated = true
    · simp only [if_pos hdecorated]
      rfl
    · simp only [if_neg hdecorated]
      rfl

end Operators

/-- What the operators mean: whatever an operator makes of the shapes of its operands, the expression denotes what
they denote, put together as the operator says. Here an expression denotes what it recognises wherever it is
evaluated, with the faults that its evaluation raises and what it leaves behind. -/
structure OperatorLaws (scene : Scene α σ) (depth : Nat) (tables : NameTables) (e e' : Expr α) : Prop where
  /-- One expression after the other. -/
  andThen : ∀ r, Denotes scene depth tables (e.andThen e') r →
    ∃ s s', Denotes scene depth tables e s ∧ Denotes scene depth tables e' s' ∧ r = s.andThen s'
  /-- An ordered choice. -/
  orElse : ∀ r, Denotes scene depth tables (e.orElse e') r →
    ∃ s s', Denotes scene depth tables e s ∧ Denotes scene depth tables e' s' ∧ r = s.orElse s'
  optional : ∀ r, Denotes scene depth tables e.optional r →
    ∃ s, Denotes scene depth tables e s ∧ r = s.optional
  /-- A greedy repetition, which a match that takes nothing ends. -/
  star : ∀ r, Denotes scene depth tables e.star r →
    ∃ s, Denotes scene depth tables e s ∧ (depth ≤ scene.settings.maxDepth → s.Greedy scene r)
  /-- One match, and then the greedy repetition. -/
  plus : ∀ r, Denotes scene depth tables e.plus r →
    ∃ s s', Denotes scene depth tables e s ∧ Denotes scene depth tables e.star s' ∧ r = s.andThen s'
  /-- A test that takes nothing. -/
  ahead : ∀ r, Denotes scene depth tables e.ahead r → ∃ s, Denotes scene depth tables e s ∧ r = s.ahead
  notAhead : ∀ r, Denotes scene depth tables e.notAhead r → ∃ s, Denotes scene depth tables e s ∧ r = s.notAhead
  /-- One match, and then the greedy repetition of a separator and another match. -/
  separatedBy : ∀ r, Denotes scene depth tables (e.separatedBy e') r →
    ∃ s s' t, Denotes scene depth tables e s ∧ Denotes scene depth tables e' s' ∧ r = s.andThen t ∧
      (depth ≤ scene.settings.maxDepth → (s'.andThen s).Greedy scene t)
  grouped : ∀ r, Denotes scene depth tables e.grouped r → Denotes scene depth tables e r
  bind : ∀ name r, Denotes scene depth tables (e.bind name) r → Denotes scene depth tables e r
  autobind : ∀ r, Denotes scene depth tables e.autobind r → Denotes scene depth tables e r
  /-- An action does not matter, unless it raises a fault. -/
  action : ∀ host r, Denotes scene depth tables (e.withAction host) r →
    ∃ s names node, Denotes scene depth tables e s ∧ linkHost tables names host.node host.position = .ok node ∧
      s.ComputesBehind scene r node
  /-- What is denoted goes forward, and remembers nothing that goes backwards. -/
  forward : ∀ r, Denotes scene depth tables e r → depth ≤ scene.settings.maxDepth → r.GoesForward scene
  /-- What is denoted is what a rule recognises that stands for the expression. -/
  rule : ∀ (b : Builder α) (g : Grammar α) (i : Nat) (rule : Rule α), b.build = .ok g → b.nameTables = tables →
    b.rules[i]? = some rule → rule.matcher = none → rule.body = e →
    ∃ linked, g.rules[i]? = some linked ∧ Denotes scene depth tables e
      (fun quiet c => Result.place? <$> evalRule scene (callRule scene depth) quiet linked c)

/-- **Operators mean what they say**, whatever they flatten. -/
theorem operators_denote (scene : Scene α σ) (depth : Nat) (tables : NameTables) (e e' : Expr α)
    (h : (exprPattern e).isStatic = true) (h' : (exprPattern e').isStatic = true) :
    OperatorLaws scene depth tables e e' := by
  have hclosed := Expr.isClosed_of_isStatic h
  have hclosed' := Expr.isClosed_of_isStatic h'
  exact {
    andThen := fun r => denotes_andThen hclosed hclosed'
    orElse := fun r => denotes_orElse
    optional := fun r hr => by
      obtain ⟨body, hbody, rfl, -⟩ := denotes_withRepetition .optional hclosed hr
      exact ⟨_, hbody, rfl⟩
    star := fun r => denotes_star hclosed
    plus := fun r => denotes_plus hclosed
    ahead := fun r => denotes_withLookahead .ahead hclosed
    notAhead := fun r => denotes_withLookahead .notAhead hclosed
    separatedBy := fun r => denotes_separatedBy hclosed hclosed'
    grouped := fun r => denotes_grouped.mp
    bind := fun name r => denotes_bind name hclosed
    autobind := fun r => denotes_autobind hclosed
    action := fun host r => denotes_withAction host hclosed
    forward := fun r hr hdepth => by
      obtain ⟨linked, -, rfl⟩ := hr
      exact recogniseExpr_goesForward scene hdepth linked
    rule := by
      rintro b g i rule hbuild rfl hrule hmatcher rfl
      exact place_evalRule hbuild hrule hmatcher }

/-- `a` or else `ab`. -/
def letters : Expr Empty := Expr.orElse (Expr.ascii "a") (Expr.ascii "ab")

/-- A scene for inputs of up to three bytes. -/
def smallScene : Scene Empty Unit := ⟨{}, Client.none, {}, false, [], 3⟩

/-- The choice is grouped, not flattened: behind it `c` is not found in `abc`. -/
theorem operators_denote_letters :
    (∃ r s s', Denotes smallScene 0 ⟨[], []⟩ (letters.andThen (Expr.ascii "c")) r ∧
      Denotes smallScene 0 ⟨[], []⟩ letters s ∧ Denotes smallScene 0 ⟨[], []⟩ (Expr.ascii "c") s' ∧
      r = s.andThen s' ∧
      ((r false (Cursor.ofText (Bytes.ascii "abc") 0)).run.run ⟨{ user := () }, {}⟩).1 = .ok none) ∧
    ∃ r s ending, Denotes smallScene 0 ⟨[], []⟩ letters.star r ∧ Denotes smallScene 0 ⟨[], []⟩ letters s ∧
      s.Repeats false (Cursor.ofText (Bytes.ascii "aac") 0) ⟨{ user := () }, {}⟩ ending ∧
      ending.1 = .ok (some (Cursor.ofText (Bytes.ascii "aac") 2)) := by
  have laws := operators_denote smallScene 0 ⟨[], []⟩ letters (Expr.ascii "c") (by decide) (by decide)
  have hchoice : Denotes smallScene 0 ⟨[], []⟩ (letters.andThen (Expr.ascii "c")) _ := ⟨_, rfl, rfl⟩
  have hstar : Denotes smallScene 0 ⟨[], []⟩ letters.star _ := ⟨_, rfl, rfl⟩
  obtain ⟨s, s', hs, hs', hr⟩ := laws.andThen _ hchoice
  obtain ⟨t, ht, hgreedy⟩ := laws.star _ hstar
  have hrepeats := hgreedy (Nat.zero_le _) false (Cursor.ofText (Bytes.ascii "aac") 0) ⟨{ user := () }, {}⟩ (by decide)
    (Memo.within_empty _)
  exact ⟨⟨_, s, s', hchoice, hs, hs', hr, rfl⟩, _, t, _, hstar, ht, hrepeats, rfl⟩

end Packrat
