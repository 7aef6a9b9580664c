import Packrat.Proofs.Json.Reading

/-!
# `Packrat.Proofs.Json.Parsing` — the JSON grammar reads the texts of documents

The text of every tree of the concrete syntax parses to the tree of its document, with stray commas or without.

## Contents
- **Arrays and objects.** One argument for both, from what the rule of their parts reads.
- **Values.** The rule for values comes to the right alternative.
- **Texts.** `parse_concrete`.
-/

namespace Packrat.Json

open Source (StartsIn)

section Parsing

variable {input text rest : Bytes} {n r r' : Nat} {e : Ending (Spanned Value)}

/-! ## Arrays and objects -/

namespace Kind

/-- The rule of a container. -/
def symbol : Kind → Symbol
  | array => .array
  | object => .object

/-- The tree of a part. -/
def partTree : Kind → Bytes × Json → Value
  | array, (_, j) => tree j
  | object, (k, j) =>
    .node (Bytes.ascii "Member") [(Bytes.ascii "k", ⟨.text k, 0, 0⟩), (Bytes.ascii "v", ⟨tree j, 0, 0⟩)]

theorem elementTrees_eq_map (elements : List Json) : elementTrees elements = elements.map fun j => ⟨tree j, 0, 0⟩ := by
  induction elements with
  | nil => rfl
  | cons j rest ih => rw [elementTrees, ih, List.map_cons]

theorem memberTrees_eq_map (members : List (Bytes × Json)) :
    memberTrees members = members.map fun p => ⟨object.partTree p, 0, 0⟩ := by
  induction members with
  | nil => rfl
  | cons p rest ih => rw [memberTrees, ih, List.map_cons]; rfl

/-- The tree of a container holds the trees of its parts. -/
theorem tree_collect (kind : Kind) (parts : List (Bytes × Json)) :
    tree (kind.collect parts) =
      .node (Bytes.ascii kind.tag) [([], ⟨.list (parts.map fun p => ⟨kind.partTree p, 0, 0⟩), 0, 0⟩)] := by
  have helements : elementTrees (parts.map (·.2)) = parts.map fun p => ⟨array.partTree p, 0, 0⟩ := by
    rw [elementTrees_eq_map, List.map_map]
    rfl
  cases kind with
  | array => rw [collect, tree, helements]; rfl
  | object => rw [collect, tree, memberTrees_eq_map]; rfl

end Kind

/-- The bytes that values start with. -/
def valueStarts : Bytes := Bytes.ascii "\"[\x7b-0123456789tfn"

theorem Concrete.starts {c : Concrete} (h : c.Formed true) (more : Bytes) : StartsIn valueStarts (c.text ++ more) := by
  cases c with
  | keyword word after =>
    rcases word with _ | _ | _
    · exact StartsIn.cons (by decide)
    · exact StartsIn.cons (by decide)
    · exact StartsIn.cons (by decide)
  | number spelling after =>
    rw [Concrete.text, List.append_assoc]
    exact (h.1.startsIn _).widen (by decide)
  | string glyphs after => exact StartsIn.cons (by decide)
  | container kind opening parts after => cases kind <;> exact StartsIn.cons (by decide)

/-- A value is read where what follows it stands. -/
def ValueGoes (input : Bytes) (c : Concrete) : Prop :=
  ∀ rest r, StartsIn followBytes rest → r ≤ 1 →
    RuleGoes (course input) c.depth Symbol.value.place (c.text ++ rest) r (.takes rest 1 (·.value.unspanned = tree c.doc))

/-- A part is read where what follows it stands. -/
def PartGoes (input : Bytes) (kind : Kind) (part : Part Concrete) : Prop :=
  ∀ rest r, StartsIn followBytes rest → r ≤ kind.part.rank →
    RuleGoes (course input) (partDepth part.name part.value.depth) kind.part.place
      (nameText part.name ++ (part.value.text ++ rest)) r
      (.takes rest 1 (·.value.unspanned = kind.partTree (nameDenoted part.name, part.value.doc)))

/-- A member is read as its name and its value. -/
theorem goes_member {name : Name} {c : Concrete} (hname : name.Valid) (hc : c.Formed true) (h : ValueGoes input c)
    (hrest : StartsIn followBytes rest) (hr : r ≤ 4) :
    RuleGoes (course input) (max (deepest name.glyphs + 1) c.depth + 1) Symbol.member.place
      (name.text ++ (c.text ++ rest)) r
      (.takes rest 1 (·.value.unspanned = Kind.object.partTree (denoted name.glyphs, c.doc))) := by
  obtain ⟨hglyphs, hafter, hcolon⟩ := hname
  have htext : name.text ++ (c.text ++ rest) = quoted name.glyphs ++
      (name.after ++ Bytes.char ':' :: (name.afterColon ++ (c.text ++ rest))) := by
    simp only [Name.text, List.append_assoc, List.cons_append]
  have hvalue : StartsIn solidBytes (c.text ++ rest) := (Concrete.starts hc rest).widen (by decide)
  have hlt : rest.length < (quoted name.glyphs ++
      (name.after ++ Bytes.char ':' :: (name.afterColon ++ (c.text ++ rest)))).length := by
    simp only [List.length_append, List.length_cons]
    omega
  have hcost : max (deepest name.glyphs + 1) c.depth =
      max (deepest name.glyphs + 1) (max 0 (max 1 (max c.depth 0))) := by
    have hdeepest := one_le_deepest name.glyphs
    omega
  rw [htext, hcost]
  refine goes_rule hr (.inl hlt) (ExprGoes.first (SequenceGoes.acts
    (R := fun x => ∃ y z, x.1 = [y, z] ∧ y.value = .text (denoted name.glyphs) ∧ z.value.unspanned = tree c.doc) ?_ ?_))
  · refine ItemsGo.cons (ItemGoes.once (goes_body (goes_string hglyphs hafter (StartsIn.cons (by decide))
      (Nat.le_succ 4)))) fun y hy => ?_
    refine ItemsGo.cons (ItemGoes.once (BodyGoes.word (t := Bytes.ascii ":") (by decide))) fun _ _ => ?_
    refine ItemsGo.cons (item_blanks hcolon hvalue) fun _ _ => ?_
    refine ItemsGo.cons (ItemGoes.once (goes_body (h rest 1 hrest (Nat.le_refl 1)))) fun z hz => ?_
    exact ItemsGo.nil (Nat.le_refl 1) ⟨y, z, rfl, hy, hz⟩
  · rintro ⟨slots, last⟩ ⟨⟨v, start, stop⟩, ⟨u, start', stop'⟩, rfl, rfl, hz⟩
    refine ⟨_, HostGives.constructs (ArgsGive.ref rfl (ArgsGive.ref rfl ArgsGive.nil)), ?_⟩
    show Value.node _ [(_, ⟨_, 0, 0⟩), (_, ⟨u.unspanned, 0, 0⟩)] = _
    rw [hz]
    rfl

theorem goes_part {kind : Kind} {comma : Option Bytes} {name : Option Name} {c : Concrete} (hname : NameFits kind name)
    (hc : c.Formed true) (h : ValueGoes input c) : PartGoes input kind ⟨comma, name, c⟩ := by
  intro rest r hrest hr
  cases kind with
  | array =>
    cases name with
    | none => exact h rest r hrest hr
    | some name => exact hname.elim
  | object =>
    cases name with
    | none => exact hname.elim
    | some name => exact goes_member hname hc h hrest hr

/-- Values of the trees of parts, one by one. -/
def Parts (kind : Kind) (parts : List (Part Concrete)) (xs : List (Spanned Value)) : Prop :=
  xs.map (·.value.unspanned) = (Concrete.docOfParts parts).map kind.partTree

/-- A part starts with a token. -/
theorem starts_part {kind : Kind} {name : Option Name} {c : Concrete} (hname : NameFits kind name)
    (hc : c.Formed true) (more : Bytes) : StartsIn solidBytes (nameText name ++ (c.text ++ more)) := by
  cases name with
  | some name => exact StartsIn.cons (by decide)
  | none => exact (Concrete.starts hc more).widen (by decide)

/-- The text between brackets starts with a token. -/
theorem starts_parts {kind : Kind} {first : Bool} {parts : List (Part Concrete)}
    (h : Concrete.FormedParts true kind first parts) (more : Bytes) :
    StartsIn solidBytes (Concrete.textOfParts parts ++ kind.closes :: more) := by
  cases parts with
  | nil => cases kind <;> exact StartsIn.cons (by decide)
  | cons part parts =>
    obtain ⟨comma, name, value⟩ := part
    obtain ⟨-, hname, hvalue, -⟩ := h
    simp only [Concrete.textOfParts, List.append_assoc]
    cases comma with
    | some blanks => exact StartsIn.cons (by decide)
    | none => exact starts_part hname hvalue _

/-- What stands behind a part: a comma or the closing bracket. -/
theorem follows_parts {kind : Kind} {parts : List (Part Concrete)} (h : Concrete.FormedParts true kind false parts)
    (more : Bytes) : StartsIn followBytes (Concrete.textOfParts parts ++ kind.closes :: more) := by
  cases parts with
  | nil => cases kind <;> exact StartsIn.cons (by decide)
  | cons part parts =>
    obtain ⟨comma, name, value⟩ := part
    obtain ⟨hcomma, -, -, -⟩ := h
    cases comma with
    | some blanks => exact StartsIn.cons (by decide)
    | none => cases hcomma

/-- A part behind a comma is read. -/
theorem goes_further {kind : Kind} {blanks : Bytes} {name : Option Name} {c : Concrete}
    (hblanks : Blank blanks) (h : PartGoes input kind ⟨some blanks, name, c⟩)
    (hstart : StartsIn solidBytes (nameText name ++ (c.text ++ rest))) (hrest : StartsIn followBytes rest) :
    BodyGoes (course input) (partDepth name c.depth) kind.further
      (Bytes.char ',' :: (blanks ++ (nameText name ++ (c.text ++ rest)))) r
      (.takes rest 1 (·.value.unspanned = kind.partTree (nameDenoted name, c.doc))) := by
  have hcost : partDepth name c.depth = max 0 (max 1 (max (partDepth name c.depth) 0)) := by
    have hdepth := three_le_partDepth name c
    omega
  have hrank : 1 ≤ kind.part.rank := by cases kind <;> decide
  rw [hcost]
  refine BodyGoes.group (ExprGoes.first (SequenceGoes.acts
    (R := fun x => ∃ y, x.1 = [y] ∧ y.value.unspanned = kind.partTree (nameDenoted name, c.doc)) ?_ ?_))
  · refine ItemsGo.cons (ItemGoes.once (BodyGoes.word (t := Bytes.ascii ",") (by decide))) fun _ _ => ?_
    refine ItemsGo.cons (item_blanks hblanks hstart) fun _ _ => ?_
    refine ItemsGo.cons (ItemGoes.once (goes_body (h rest 1 hrest hrank))) fun y hy => ?_
    exact ItemsGo.nil (Nat.le_refl 1) ⟨y, rfl, hy⟩
  · rintro ⟨slots, last⟩ ⟨y, rfl, hy⟩
    exact ⟨_, HostGives.ref rfl, hy⟩

/-- The bytes that close arrays and objects. -/
def closingBytes : Bytes := Bytes.ascii "]\x7d"

theorem starts_closes (kind : Kind) (more : Bytes) : StartsIn closingBytes (kind.closes :: more) :=
  StartsIn.cons (by cases kind <;> decide)

/-- The parts behind the first one are read up to the closing bracket. -/
theorem loop_parts {kind : Kind} {parts : List (Part Concrete)} (more : Bytes)
    (hformed : Concrete.FormedParts true kind false parts) (h : ∀ part ∈ parts, PartGoes input kind part) :
    LoopGoes (course input) (Concrete.depthOfParts parts) kind.further
      (Concrete.textOfParts parts ++ kind.closes :: more) r
      (.takes (kind.closes :: more) (max r 1) (Parts kind parts)) := by
  induction parts generalizing r with
  | nil =>
    have hstop : BodyGoes (course input) 0 kind.further (kind.closes :: more) r (.fails (kind.closes :: more) r) :=
      BodyGoes.refused (course_plain input) (starts_closes kind more) (by cases kind <;> decide)
    intro frame fuel collected c hc hfuel
    refine (LoopGoes.stop hstop frame fuel collected c hc hfuel).mono fun _ _ hmet => ?_
    exact hmet.weaken (Nat.le_max_left r 1) fun xs hxs => by rw [hxs]; rfl
  | cons part parts ih =>
    obtain ⟨comma, name, value⟩ := part
    obtain ⟨hcomma, hname, hvalue, hparts⟩ := hformed
    rw [List.forall_mem_cons] at h
    cases comma with
    | none => cases hcomma
    | some blanks =>
      have hrest := follows_parts hparts more
      have hfurther := goes_further (r := r) hcomma.2 h.1
        (starts_part hname hvalue (Concrete.textOfParts parts ++ kind.closes :: more)) hrest
      -- every round uses up a comma at least
      have hlt : (Concrete.textOfParts parts ++ kind.closes :: more).length <
          (Bytes.char ',' :: (blanks ++ (nameText name ++ (value.text ++
            (Concrete.textOfParts parts ++ kind.closes :: more))))).length := by
        simp only [List.length_cons, List.length_append]
        omega
      have hloop := LoopGoes.more hlt hfurther (ih (r := 1) hparts h.2)
      have htext : Concrete.textOfParts (⟨some blanks, name, value⟩ :: parts) ++ kind.closes :: more =
          Bytes.char ',' :: (blanks ++ (nameText name ++ (value.text ++
            (Concrete.textOfParts parts ++ kind.closes :: more)))) := by
        simp only [Concrete.textOfParts, commaText, List.append_assoc, List.cons_append]
      rw [htext]
      intro frame fuel collected c hc hfuel
      refine (hloop frame fuel collected c hc hfuel).mono fun _ _ hmet => ?_
      refine hmet.weaken (Nat.le_max_right r 1) ?_
      rintro xs ⟨x, others, rfl, hx, hothers⟩
      unfold Parts at hothers ⊢
      rw [List.map_cons, hx, hothers]
      rfl

/-- An alternative that calls a rule is passed over where the rule is refused. -/
theorem pass_over {set : Bytes} (s : Symbol) {others : Expr JsonAction} (hr : r ≤ s.rank) (htext : StartsIn set text)
    (hrefused : (set.all (· < 0x80) && (none :: set.map fun b => some b.toNat).all fun front =>
      refusesExpr (fun _ => false) front s.alternatives) = true)
    (h : ExprGoes (course input) n others text (s.rank + 1) e) :
    ExprGoes (course input) (max 1 n) (plain [step s.body] :: others) text r e :=
  ExprGoes.later (SequenceGoes.fails (ItemsGo.fails (ItemGoes.once (goes_refused s hr htext hrefused)))) h

/-- No value is read before a comma or a closing bracket. -/
theorem value_absent (htext : StartsIn followBytes text) (hr : r ≤ 1) :
    BodyGoes (course input) 2 Symbol.value.body text r (.fails text 8) := by
  refine goes_body (goes_rule hr (.inr ⟨rfl, by decide⟩) ?_)
  refine pass_over (n := 1) .object (by decide) htext (by decide) ?_
  refine pass_over (n := 1) .array (by decide) htext (by decide) ?_
  refine pass_over (n := 1) .string (by decide) htext (by decide) ?_
  refine pass_over (n := 1) .number (by decide) htext (by decide) ?_
  exact pass_over (n := 0) .keyword (by decide) htext (by decide) (ExprGoes.nil (Nat.le_refl 8))

/-- No member is read there. -/
theorem member_absent (htext : StartsIn followBytes text) (hr : r ≤ 4) :
    BodyGoes (course input) 2 Symbol.member.body text r (.fails text 6) := by
  refine goes_body (goes_rule hr (.inr ⟨rfl, by decide⟩) ?_)
  have hname : BodyGoes (course input) 1 Symbol.string.body text 4 (.fails text 6) :=
    goes_refused .string (Nat.le_succ 4) htext (by decide)
  exact ExprGoes.later (n := 1) (j := 0) (SequenceGoes.fails (ItemsGo.fails (ItemGoes.once hname)))
    (ExprGoes.nil (Nat.le_refl 6))

/-- No part is read there. -/
theorem part_absent (kind : Kind) (htext : StartsIn followBytes text) (hr : r ≤ 1) :
    ∃ k, BodyGoes (course input) 2 kind.part.body text r (.fails text k) := by
  cases kind with
  | array => exact ⟨8, value_absent htext hr⟩
  | object => exact ⟨6, member_absent htext (hr.trans (by decide))⟩

/-- Two values are joined to the list of some parts. -/
def Joined (kind : Kind) (parts : List (Part Concrete)) (x y : Spanned Value) : Prop :=
  Parts kind parts (Builtin.pieces x ++ Builtin.pieces y)

/-- The parts of a container are read: the first one, if no comma stands in front of it, and then the others. -/
theorem items_parts {kind : Kind} {parts : List (Part Concrete)} {more : Bytes} {last : Spanned Value}
    {items : List (Item (Body JsonAction))} {end_ : Ending (List (Spanned Value) × Spanned Value)}
    (hformed : Concrete.FormedParts true kind true parts) (h : ∀ part ∈ parts, PartGoes input kind part)
    (hitems : ∀ x y k, Joined kind parts x y →
      ItemsGo (course input) n items [x, y] y (kind.closes :: more) k end_) :
    ItemsGo (course input) (max (max 2 (Concrete.depthOfParts parts)) n)
      (bound "first" 0 kind.part.body .optional :: bound "rest" 1 kind.further .star :: items)
      [default, default] last (Concrete.textOfParts parts ++ kind.closes :: more) 1 end_ := by
  have hw := course_plain input
  -- the first part is missing: there is none, or a comma stands in front of it
  have habsent : Concrete.FormedParts true kind false parts →
      ItemsGo (course input) (max (max 2 (Concrete.depthOfParts parts)) n)
        (bound "first" 0 kind.part.body .optional :: bound "rest" 1 kind.further .star :: items)
        [default, default] last (Concrete.textOfParts parts ++ kind.closes :: more) 1 end_ := by
    intro hothers
    obtain ⟨k, hpart⟩ : ∃ k, BodyGoes (course input) 2 kind.part.body _ 1 (.fails _ k) :=
      part_absent kind (follows_parts hothers more) (Nat.le_refl 1)
    rw [Nat.max_assoc]
    refine ItemsGo.cons (ItemGoes.absent hpart) fun x hx => ?_
    refine ItemsGo.cons (ItemGoes.star hw (loop_parts more hothers h)) fun y hy => hitems x y _ ?_
    obtain ⟨ys, hys, hparts⟩ := hy
    unfold Joined
    rw [Builtin.pieces, hx, Builtin.pieces, hys]
    exact hparts
  cases parts with
  | nil => exact habsent trivial
  | cons part parts =>
    obtain ⟨comma, name, value⟩ := part
    obtain ⟨hcomma, hname, hvalue, hparts⟩ := hformed
    cases comma with
    | some blanks => exact habsent ⟨⟨.inr rfl, hcomma.2⟩, hname, hvalue, hparts⟩
    | none =>
      rw [List.forall_mem_cons] at h
      have hrank : 1 ≤ kind.part.rank := by cases kind <;> decide
      have hfirst := h.1 _ 1 (follows_parts hparts more) hrank
      have hcost : max (max 2 (Concrete.depthOfParts (⟨none, name, value⟩ :: parts))) n =
          max (partDepth name value.depth) (max (Concrete.depthOfParts parts) n) := by
        have hdepth := three_le_partDepth name value
        rw [Concrete.depthOfParts]
        omega
      have htext : Concrete.textOfParts (⟨none, name, value⟩ :: parts) ++ kind.closes :: more =
          nameText name ++ (value.text ++ (Concrete.textOfParts parts ++ kind.closes :: more)) := by
        simp only [Concrete.textOfParts, commaText, List.append_assoc, List.nil_append]
      rw [hcost, htext]
      refine ItemsGo.cons (ItemGoes.present (goes_body hfirst)) fun x hx => ?_
      refine ItemsGo.cons (ItemGoes.star hw (loop_parts more hparts h.2)) fun y hy => hitems x y _ ?_
      obtain ⟨z, rfl, hz⟩ := hx
      obtain ⟨ys, hys, hrest⟩ := hy
      unfold Joined Parts at *
      rw [Builtin.pieces, Builtin.pieces, hys]
      show (z :: ys).map (·.value.unspanned) = _
      rw [List.map_cons, hz, hrest]
      rfl

theorem unspannedElements_eq_map (xs : List (Spanned Value)) :
    unspannedElements xs = xs.map fun x => ⟨x.value.unspanned, 0, 0⟩ := by
  induction xs with
  | nil => rfl
  | cons x xs ih => rw [unspannedElements, ih, List.map_cons]

/-- The trees of parts are the elements of the tree of a container. -/
theorem tree_of_joined {kind : Kind} {parts : List (Part Concrete)} {x y : Spanned Value} (h : Joined kind parts x y)
    (start stop : Nat) :
    (Value.node (Bytes.ascii kind.tag) [([], ⟨.list ([x, y].flatMap Builtin.pieces), start, stop⟩)]).unspanned =
      tree (kind.collect (Concrete.docOfParts parts)) := by
  have hpieces : [x, y].flatMap Builtin.pieces = Builtin.pieces x ++ Builtin.pieces y := by
    simp only [List.flatMap_cons, List.flatMap_nil, List.append_nil]
  unfold Joined Parts at h
  rw [Kind.tree_collect, hpieces]
  show Value.node _ [(_, ⟨.list (unspannedElements _), 0, 0⟩)] = _
  have hmap : ∀ zs : List (Spanned Value), unspannedElements zs =
      (zs.map (·.value.unspanned)).map fun v => ⟨v, 0, 0⟩ := by
    intro zs
    rw [unspannedElements_eq_map, List.map_map]
    rfl
  rw [hmap, h, List.map_map]
  rfl

/-- An array or object is read with the white space behind it. -/
theorem goes_container {kind : Kind} {opening after : Bytes} {parts : List (Part Concrete)} (hopening : Blank opening)
    (hformed : Concrete.FormedParts true kind true parts) (h : ∀ part ∈ parts, PartGoes input kind part)
    (hafter : Blank after) (hrest : StartsIn solidBytes rest) (hr : r ≤ kind.symbol.rank) :
    RuleGoes (course input) (max 2 (Concrete.depthOfParts parts) + 1) kind.symbol.place
      ((Concrete.container kind opening parts after).text ++ rest) r
      (.takes rest 1 (·.value.unspanned = tree (kind.collect (Concrete.docOfParts parts)))) := by
  have htext : (Concrete.container kind opening parts after).text ++ rest =
      kind.opens :: (opening ++ (Concrete.textOfParts parts ++ kind.closes :: (after ++ rest))) := by
    simp only [Concrete.text, List.cons_append, List.append_assoc]
  have hlt : rest.length <
      (kind.opens :: (opening ++ (Concrete.textOfParts parts ++ kind.closes :: (after ++ rest)))).length := by
    simp only [List.length_cons, List.length_append]
    omega
  have hcost : max 2 (Concrete.depthOfParts parts) =
      max 0 (max 1 (max (max 2 (Concrete.depthOfParts parts)) (max 0 (max 1 0)))) := by omega
  have hopens : BodyGoes (course input) 0 kind.opening
      (kind.opens :: (opening ++ (Concrete.textOfParts parts ++ kind.closes :: (after ++ rest)))) kind.symbol.rank
      (.takes (opening ++ (Concrete.textOfParts parts ++ kind.closes :: (after ++ rest))) 0 fun _ => True) :=
    fun frame => (BodyGoes.word (t := [kind.opens]) (by cases kind <;> decide) frame).weaken (Nat.le_refl 0)
      fun _ _ => trivial
  have hcloses : ∀ k, BodyGoes (course input) 0 kind.closing (kind.closes :: (after ++ rest)) k
      (.takes (after ++ rest) 0 fun _ => True) :=
    fun k frame => (BodyGoes.word (t := [kind.closes]) (by cases kind <;> decide) frame).weaken (Nat.le_refl 0)
      fun _ _ => trivial
  rw [htext]
  refine goes_rule hr (.inl hlt) ?_
  rw [hcost, show kind.symbol.alternatives = [kind.sequence] by cases kind <;> rfl]
  refine ExprGoes.first (SequenceGoes.acts
    (R := fun s => ∃ x y, s.1 = [x, y] ∧ Joined kind parts x y) ?_ ?_)
  · refine ItemsGo.cons (ItemGoes.once hopens) fun _ _ => ?_
    refine ItemsGo.cons (item_blanks hopening (starts_parts hformed _)) fun _ _ => ?_
    refine items_parts hformed h fun x y k hjoined => ?_
    refine ItemsGo.cons (ItemGoes.once (hcloses k)) fun _ _ => ?_
    exact ItemsGo.cons (item_blanks hafter hrest) fun _ _ => ItemsGo.nil (Nat.le_refl 1) ⟨x, y, rfl, hjoined⟩
  · -- the action joins the first part, if any, and the list of the others
    rintro ⟨slots, last⟩ ⟨x, y, rfl, hjoined⟩
    refine ⟨_, HostGives.constructs (ArgsGive.call (HostGives.builtin (b := .concat)
      (ArgsGive.ref rfl (ArgsGive.ref rfl ArgsGive.nil)) rfl fun ctx hctx => ?_) ArgsGive.nil),
      tree_of_joined hjoined _ _⟩
    rw [Builtin.run, hctx]
    rfl

/-! ## Values -/

/-- An alternative that calls a rule passes on what the rule reads. -/
theorem chosen {Q : Spanned Value → Prop} {others : Expr JsonAction} (s : Symbol)
    (h : RuleGoes (course input) n s.place text r (.takes rest r' Q)) :
    ExprGoes (course input) n (plain [step s.body] :: others) text r (.takes rest r' Q) :=
  ExprGoes.first (SequenceGoes.passed rfl (ItemGoes.once (goes_body h)))

/-- A value takes more than the text behind it. -/
theorem value_advances {c : Concrete} (hc : c.Formed true) (rest : Bytes) :
    rest.length < (c.text ++ rest).length := by
  have hpos : 0 < c.text.length := by
    cases c with
    | keyword word after => rcases word with _ | _ | _ <;> exact Nat.succ_pos _
    | number spelling after =>
      have hne := List.length_pos_iff.mpr hc.1.ne_nil
      simp only [Concrete.text, List.length_append]
      omega
    | string glyphs after => exact Nat.succ_pos _
    | container kind opening parts after => exact Nat.succ_pos _
  rw [List.length_append]
  omega

theorem goes_value_keyword {word : Keyword} {after : Bytes} (hafter : Blank after) :
    ValueGoes input (.keyword word after) := by
  intro rest r hrest hr
  have hstart : StartsIn (Bytes.ascii "tfn") (word.text ++ (after ++ rest)) := by
    rcases word with _ | _ | _
    · exact StartsIn.cons (by decide)
    · exact StartsIn.cons (by decide)
    · exact StartsIn.cons (by decide)
  refine goes_rule (n := 2) hr (.inl (value_advances (c := .keyword word after) hafter rest)) ?_
  rw [Concrete.text, List.append_assoc]
  refine pass_over (n := 2) .object (by decide) hstart (by decide) ?_
  refine pass_over (n := 2) .array (by decide) hstart (by decide) ?_
  refine pass_over (n := 2) .string (by decide) hstart (by decide) ?_
  refine pass_over (n := 2) .number (by decide) hstart (by decide) ?_
  exact chosen .keyword (goes_keyword word hafter hrest (by decide))

theorem goes_value_number {spelling after : Bytes} (hspelling : IsNumber spelling) (hafter : Blank after) :
    ValueGoes input (.number spelling after) := by
  intro rest r hrest hr
  have hstart := hspelling.startsIn (after ++ rest)
  refine goes_rule (n := 2) hr (.inl (value_advances (c := .number spelling after) ⟨hspelling, hafter⟩ rest)) ?_
  rw [Concrete.text, List.append_assoc]
  refine pass_over (n := 2) .object (by decide) hstart (by decide +kernel) ?_
  refine pass_over (n := 2) .array (by decide) hstart (by decide +kernel) ?_
  refine pass_over (n := 2) .string (by decide) hstart (by decide +kernel) ?_
  exact chosen .number (goes_number hspelling hafter hrest (by decide))

theorem goes_value_string {glyphs : List Glyph} {after : Bytes} (hglyphs : ∀ g ∈ glyphs, g.Valid)
    (hafter : Blank after) : ValueGoes input (.string glyphs after) := by
  intro rest r hrest hr
  have hstart : StartsIn (Bytes.ascii "\"") (quoted glyphs ++ (after ++ rest)) := StartsIn.cons (by decide)
  have hcost : (Concrete.string glyphs after).depth = max 1 (max 1 (deepest glyphs + 1)) + 1 := by
    rw [Concrete.depth]
    omega
  rw [hcost]
  refine goes_rule hr (.inl (value_advances (c := .string glyphs after) ⟨hglyphs, hafter⟩ rest)) ?_
  rw [Concrete.text, List.append_assoc]
  refine pass_over .object (by decide) hstart (by decide) ?_
  refine pass_over .array (by decide) hstart (by decide) ?_
  refine chosen .string fun c hc => ?_
  refine (goes_string hglyphs hafter (hrest.widen (by decide)) (Nat.le_succ 4) c hc).mono fun _ _ hmet => ?_
  exact hmet.weaken (Nat.le_refl 1) fun x hx => by rw [hx]; rfl

theorem goes_value_container {kind : Kind} {opening after : Bytes} {parts : List (Part Concrete)}
    (hformed : (Concrete.container kind opening parts after).Formed true)
    (h : ∀ part ∈ parts, PartGoes input kind part) : ValueGoes input (.container kind opening parts after) := by
  intro rest r hrest hr
  have hcontainer : ∀ {r}, r ≤ kind.symbol.rank → RuleGoes (course input) _ kind.symbol.place _ r (.takes rest 1 _) :=
    goes_container hformed.1 hformed.2.1 h hformed.2.2 (hrest.widen (by decide))
  have hadvances := value_advances hformed rest
  cases kind with
  | object =>
    exact goes_rule hr (.inl hadvances) (chosen .object (hcontainer (by decide)))
  | array =>
    have hstart : StartsIn (Bytes.ascii "[") ((Concrete.container .array opening parts after).text ++ rest) :=
      StartsIn.cons (by decide)
    have hcost : (Concrete.container .array opening parts after).depth =
        max 1 (max 2 (Concrete.depthOfParts parts) + 1) + 1 := by
      rw [Concrete.depth]
      omega
    rw [hcost]
    refine goes_rule hr (.inl hadvances) (pass_over .object (by decide) hstart (by decide) ?_)
    exact chosen .array (hcontainer (by decide))

mutual

/-- Every tree is read as its document. -/
theorem goes_value : ∀ c : Concrete, c.Formed true → ValueGoes input c
  | .keyword _ _, h => goes_value_keyword h
  | .number _ _, h => goes_value_number h.1 h.2
  | .string _ _, h => goes_value_string h.1 h.2
  | .container kind _ parts _, h => goes_value_container h (goes_parts kind true parts h.2.1)
termination_by structural c => c

theorem goes_parts (kind : Kind) : ∀ (first : Bool) (parts : List (Part Concrete)),
    Concrete.FormedParts true kind first parts → ∀ part ∈ parts, PartGoes input kind part
  | _, [], _ => fun _ hmem => absurd hmem List.not_mem_nil
  | first, ⟨comma, name, value⟩ :: rest, h => by
    obtain ⟨-, hname, hvalue, hrest⟩ := h
    rw [List.forall_mem_cons]
    exact ⟨goes_part hname hvalue (goes_value value hvalue), goes_parts kind false rest hrest⟩
termination_by structural _ parts => parts

end

/-! ## Texts -/

/-- A text is read as the document of its tree. -/
theorem goes_text {before : Bytes} {c : Concrete} (hbefore : Blank before) (hc : c.Formed true) :
    RuleGoes (course input) (c.depth + 1) Symbol.text.place (before ++ c.text) 0
      (.takes [] 2 (·.value.unspanned = tree c.doc)) := by
  have hvalue : RuleGoes (course input) c.depth Symbol.value.place (c.text ++ []) 1
      (.takes [] 1 (·.value.unspanned = tree c.doc)) := goes_value c hc [] 1 StartsIn.nil (Nat.le_refl 1)
  have hstart : StartsIn solidBytes (c.text ++ []) := (Concrete.starts hc []).widen (by decide)
  have hlt : ([] : Bytes).length < (before ++ c.text).length := by
    have hpos := value_advances hc []
    rw [List.append_nil] at hpos
    rw [List.length_append]
    omega
  have hcost : c.depth = max 1 (max c.depth (max 0 0)) := by
    have hdepth := three_le_depth c
    omega
  rw [List.append_nil] at hvalue hstart
  rw [hcost]
  refine goes_rule (Nat.le_refl 0) (.inl hlt) (ExprGoes.first (SequenceGoes.acts
    (R := fun x => ∃ y, x.1 = [y] ∧ y.value.unspanned = tree c.doc) ?_ ?_))
  · refine ItemsGo.cons (item_blanks hbefore hstart) fun _ _ => ?_
    refine ItemsGo.cons (ItemGoes.once (goes_body hvalue)) fun y hy => ?_
    refine ItemsGo.cons (ItemGoes.notAhead (BodyGoes.terminal_fails rfl rfl)) fun _ _ => ?_
    exact ItemsGo.nil (Nat.le_succ 1) ⟨y, rfl, hy⟩
  · rintro ⟨slots, last⟩ ⟨y, rfl, hy⟩
    exact ⟨_, HostGives.ref rfl, hy⟩

/-- **Texts of documents are read.** The text of a tree parses to the tree of its document, unless it nests more
calls than a parse may. -/
theorem parse_concrete {before : Bytes} {c : Concrete} (hbefore : Blank before) (hc : c.Formed true) :
    if c.depth + 1 ≤ (Env.fresh ()).settings.maxDepth then
      ∃ x, parse (before ++ c.text) = .ok (.tree x) ∧ x.value.unspanned = tree c.doc
    else parse (before ++ c.text) = .error .callDepth := by
  rw [parse_eq]
  exact parse_goes {} (by decide) (by decide) (goes_text hbefore hc)

end Parsing

end Packrat.Json
