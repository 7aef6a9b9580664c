import Mathlib.Data.List.Induction
import Packrat.Proofs.Scoping

/-!
# `Packrat.Proofs.Linking` — which grammars link

Linking walks over a grammar from left to right and stops at the first mistake. Here the grammars without a
mistake are described without reference to that walk: which names may stand where, for each sequence on its
own, whether it is an alternative of a rule or stands in a group.

## Contents
- **Occurrences.** `HostNode.Mentions`, `HostNode.Invokes`, `Body.hosts` and `Expr.Contains`.
- **Well-formed grammars.** `Sequence.WellFormed` and `Builder.WellFormed`.
- **Host expressions.** `linkHost_answers_iff` and its companions: linking one answers where its names are
  visible and its actions known.
- **Expressions.** `linkBody_answers_iff` … `linkExpr_answers_iff`, on the structure of an expression.
- **Building.** `Builder.build_answers_iff`.
-/

namespace Packrat

variable {α β γ : Type}

/-! ## Occurrences -/

/-- A host expression refers to a name. -/
inductive HostNode.Mentions (name : Bytes) : HostNode α → Prop
  | ref (slot : Option Nat) : Mentions name (.ref name slot)
  | arg {callee : Bytes} {args : List (Host α)} {constructs : Bool} {action : Option Nat} (arg : Host α)
      (harg : arg ∈ args) (h : arg.node.Mentions name) : Mentions name (.call callee args constructs action)

/-- A host expression holds a call, not marked as a construction, of the given name. -/
inductive HostNode.Invokes (callee : Bytes) : HostNode α → Prop
  | call (args : List (Host α)) (action : Option Nat) : Invokes callee (.call callee args false action)
  | arg {outer : Bytes} {args : List (Host α)} {constructs : Bool} {action : Option Nat} (arg : Host α)
      (harg : arg ∈ args) (h : arg.node.Invokes callee) : Invokes callee (.call outer args constructs action)

/-- The host expressions in an interpolated literal. -/
def segmentHosts : List (Segment α) → List (HostNode α)
  | [] => []
  | .spelling _ :: rest => segmentHosts rest
  | .code host :: rest => host.node :: segmentHosts rest

/-- The host expressions that a body computes in the scope of its own sequence: embedded code and the code in
an interpolated literal. -/
def Body.hosts : Body α → List (HostNode α)
  | .code host => [host.node]
  | .interpolated segments _ => segmentHosts segments
  | .call _ _ _ | .group _ | .literal _ _ _ | .cls _ | .any => []

/-- A sequence is one of the alternatives, or stands in a group somewhere inside of them. -/
inductive Expr.Contains : Expr α → Sequence α (Body α) → Prop
  | alternative {alternatives : Expr α} {seq : Sequence α (Body α)} (h : seq ∈ alternatives) :
      Contains alternatives seq
  | inside {alternatives inner : Expr α} {outer seq : Sequence α (Body α)} {item : Item (Body α)}
      (houter : outer ∈ alternatives) (hitem : item ∈ outer.items) (hbody : item.body = .group inner)
      (h : Contains inner seq) : Contains alternatives seq

/-! ## Well-formed grammars -/

/-- The name that an item binds. An autobind takes the last part of the name of the rule that it calls. -/
def Item.binding (item : Item (Body α)) : Option Bytes :=
  if item.autobind then
    match item.body with
    | .call rule _ _ => some (Bytes.unqualified rule)
    | _ => none
  else item.name

/-- The names that items bind, from left to right. -/
def bindings (items : List (Item (Body α))) : List Bytes := items.filterMap Item.binding

/-- A name that a host expression may call: that of an action, or one with an upper-case ASCII letter in front,
which constructs. -/
def NameTables.Callable (tables : NameTables) (callee : Bytes) : Prop :=
  callee ∈ tables.actions ∨
    ∃ letter rest, callee = letter :: rest ∧ Bytes.char 'A' ≤ letter ∧ letter ≤ Bytes.char 'Z'

/-- A sequence whose names all have a meaning. Of the sequences in its groups it says nothing, since those
neither see nor bind names of this one. -/
structure Sequence.WellFormed (tables : NameTables) (seq : Sequence α (Body α)) : Prop where
  /-- Every rule that is called exists. -/
  calls : ∀ item ∈ seq.items, ∀ name decorated target,
    item.body = .call name decorated target → name ∈ tables.rules
  /-- Every autobind item calls a rule. -/
  autobinds : ∀ item ∈ seq.items, item.autobind = true →
    ∃ name decorated target, item.body = .call name decorated target
  /-- No name is bound twice. -/
  distinct : (bindings seq.items).Nodup
  /-- Code in an item refers to names of earlier items only. -/
  earlier : ∀ before item after, seq.items = before ++ item :: after →
    ∀ host ∈ item.body.hosts, ∀ name, host.Mentions name → name ∈ bindings before
  /-- The action refers to names of items of the sequence. -/
  trailing : ∀ host, seq.action = some host → ∀ name, host.node.Mentions name → name ∈ bindings seq.items
  /-- Code in an item calls what can be called. -/
  callees : ∀ item ∈ seq.items, ∀ host ∈ item.body.hosts, ∀ callee, host.Invokes callee →
    tables.Callable callee
  /-- The action calls what can be called. -/
  trailingCallees : ∀ host, seq.action = some host → ∀ callee, host.node.Invokes callee →
    tables.Callable callee

/-- A builder whose parts make a grammar. -/
structure Builder.WellFormed (b : Builder α) : Prop where
  /-- There is a rule. -/
  inhabited : b.rules ≠ []
  /-- No two rules share a name. -/
  distinct : (b.rules.map (·.name)).Nodup
  /-- The start rule that is asked for exists. -/
  start : ∀ name, b.start = some name → name ∈ b.rules.map (·.name)
  /-- Every sequence of every rule that stands for no matcher is well-formed, at whatever depth. -/
  sequences : ∀ rule ∈ b.rules, rule.matcher = none → ∀ seq, Expr.Contains rule.body seq →
    seq.WellFormed b.nameTables

/-! ## Host expressions -/

/-- A computation in two parts answers where the first part does and the second does with what it gives. -/
theorem bind_answers {ε : Type} {x : Except ε β} {k : β → Except ε γ} :
    (∃ c, (x >>= k) = .ok c) ↔ ∃ b, x = .ok b ∧ ∃ c, k b = .ok c := by
  constructor
  · rintro ⟨c, h⟩
    obtain ⟨b, hb, hk⟩ := bind_eq_ok.mp h
    exact ⟨b, hb, c, hk⟩
  · rintro ⟨b, hb, c, hk⟩
    exact ⟨c, bind_eq_ok.mpr ⟨b, hb, hk⟩⟩

/-- Where the second part always answers, the first part decides. -/
theorem bind_answers_of_total {ε : Type} {x : Except ε β} {k : β → Except ε γ}
    (h : ∀ b, ∃ c, k b = .ok c) : (∃ c, (x >>= k) = .ok c) ↔ ∃ b, x = .ok b := by
  rw [bind_answers]
  constructor
  · rintro ⟨b, hb, _⟩
    exact ⟨b, hb⟩
  · rintro ⟨b, hb⟩
    exact ⟨b, hb, h b⟩

/-- A name is found in a list where it stands in it. -/
theorem exists_idxOf?_iff {names : List Bytes} {name : Bytes} :
    (∃ i, names.idxOf? name = some i) ↔ name ∈ names := by
  rw [← Option.isSome_iff_exists, List.isSome_idxOf?]

theorem isConstructor_iff {name : Bytes} : Bytes.isConstructor name = true ↔
    ∃ letter rest, name = letter :: rest ∧ Bytes.char 'A' ≤ letter ∧ letter ≤ Bytes.char 'Z' := by
  cases name with
  | nil => simp [Bytes.isConstructor]
  | cons letter rest => simp [Bytes.isConstructor]

/-- What a host expression needs for its names and calls to have a meaning. -/
def HostNode.Resolves (tables : NameTables) (visible : List Bytes) (node : HostNode α) : Prop :=
  (∀ name, node.Mentions name → name ∈ visible) ∧ ∀ callee, node.Invokes callee → tables.Callable callee

section HostNode

variable {tables : NameTables} {visible : List Bytes}

/-- A reference resolves where its name is visible. -/
theorem HostNode.resolves_ref {name : Bytes} {slot : Option Nat} :
    (HostNode.ref name slot : HostNode α).Resolves tables visible ↔ name ∈ visible := by
  constructor
  · intro h
    exact h.1 name (.ref slot)
  · intro h
    refine ⟨?_, ?_⟩
    · rintro _ ⟨⟩
      exact h
    · rintro _ ⟨⟩

/-- A host expression without names and calls resolves everywhere. -/
theorem HostNode.resolves_const {v : Value} : (HostNode.const v : HostNode α).Resolves tables visible := by
  refine ⟨?_, ?_⟩
  · rintro _ ⟨⟩
  · rintro _ ⟨⟩

theorem HostNode.resolves_matched : (HostNode.matched : HostNode α).Resolves tables visible := by
  refine ⟨?_, ?_⟩
  · rintro _ ⟨⟩
  · rintro _ ⟨⟩

theorem HostNode.resolves_native {a : α} : (HostNode.native a).Resolves tables visible := by
  refine ⟨?_, ?_⟩
  · rintro _ ⟨⟩
  · rintro _ ⟨⟩

/-- A call resolves where its arguments do and it constructs or can be called. -/
theorem HostNode.resolves_call {name : Bytes} {args : List (Host α)} {constructs : Bool}
    {action : Option Nat} : (HostNode.call name args constructs action).Resolves tables visible ↔
      (∀ arg ∈ args, arg.node.Resolves tables visible) ∧
        (constructs = false → tables.Callable name) := by
  constructor
  · intro h
    refine ⟨?_, ?_⟩
    · intro arg harg
      refine ⟨?_, ?_⟩
      · intro n hn
        exact h.1 n (.arg arg harg hn)
      · intro callee hcallee
        exact h.2 callee (.arg arg harg hcallee)
    · intro hplain
      subst hplain
      exact h.2 name (.call args action)
  · rintro ⟨hargs, hname⟩
    refine ⟨?_, ?_⟩
    · rintro n ⟨⟩
      next arg hn harg => exact (hargs arg harg).1 n hn
    · rintro callee ⟨⟩
      · exact hname rfl
      · next arg hcallee harg => exact (hargs arg harg).2 callee hcallee

mutual

/-- **Linking a host expression answers where it resolves.** -/
theorem linkHost_answers_iff : ∀ (node : HostNode α) (position : Position),
    (∃ linked, linkHost tables visible node position = .ok linked) ↔ node.Resolves tables visible
  | .ref name slot, position => by
    rw [HostNode.resolves_ref, ← exists_idxOf?_iff]
    unfold linkHost
    cases visible.idxOf? name <;> simp
  | .const v, position => by
    simp [linkHost, HostNode.resolves_const]
  | .matched, position => by
    simp [linkHost, HostNode.resolves_matched]
  | .native a, position => by
    simp [linkHost, HostNode.resolves_native]
  | .call name args constructs action, position => by
    rw [HostNode.resolves_call, ← linkArgs_answers_iff args]
    unfold linkHost
    rw [bind_answers]
    -- Whether the call itself can be linked does not depend on what its arguments become.
    have hcallee : ∀ args' : List (Host α),
        (∃ linked : HostNode α, (if constructs then Except.ok (.call name args' true none)
          else match tables.actions.idxOf? name with
            | some i => Except.ok (.call name args' false (some i))
            | none =>
              if Bytes.isConstructor name then Except.ok (.call name args' true none)
              else Except.error (⟨.unknownAction name, position⟩ : GrammarError)) = .ok linked) ↔
          (constructs = false → tables.Callable name) := by
      intro args'
      unfold NameTables.Callable
      rw [← exists_idxOf?_iff, ← isConstructor_iff]
      cases constructs with
      | true => simp
      | false =>
        cases tables.actions.idxOf? name with
        | some i => simp
        | none =>
          by_cases hupper : Bytes.isConstructor name = true
          · simp [hupper]
          · simp [hupper]
    constructor
    · rintro ⟨args', hargs, h⟩
      exact ⟨⟨args', hargs⟩, (hcallee args').mp h⟩
    · rintro ⟨⟨args', hargs⟩, h⟩
      exact ⟨args', hargs, (hcallee args').mpr h⟩
termination_by structural node => node

theorem linkArgs_answers_iff : ∀ (args : List (Host α)),
    (∃ linked, linkArgs tables visible args = .ok linked) ↔
      ∀ arg ∈ args, arg.node.Resolves tables visible
  | [] => by simp [linkArgs]
  | ⟨node, position⟩ :: rest => by
    unfold linkArgs
    rw [List.forall_mem_cons, ← linkArgs_answers_iff rest,
      ← linkHost_answers_iff node position, bind_answers]
    constructor
    · rintro ⟨node', hnode, h⟩
      exact ⟨⟨node', hnode⟩, (bind_answers_of_total (fun rest' => ⟨_, rfl⟩)).mp h⟩
    · rintro ⟨⟨node', hnode⟩, h⟩
      exact ⟨node', hnode, (bind_answers_of_total (fun rest' => ⟨_, rfl⟩)).mpr h⟩
termination_by structural args => args

end

/-- Linking an interpolated literal answers where all code in it resolves. -/
theorem linkSegments_answers_iff (segments : List (Segment α)) :
    (∃ linked, linkSegments tables visible segments = .ok linked) ↔
      ∀ host ∈ segmentHosts segments, host.Resolves tables visible := by
  induction segments with
  | nil => simp [linkSegments, segmentHosts]
  | cons segment rest ih =>
    cases segment with
    | spelling text =>
      unfold linkSegments segmentHosts
      rw [← ih]
      exact bind_answers_of_total (fun rest' => ⟨_, rfl⟩)
    | code host =>
      unfold linkSegments segmentHosts
      rw [List.forall_mem_cons, ← ih, ← linkHost_answers_iff host.node host.position,
        bind_answers]
      constructor
      · rintro ⟨node', hnode, h⟩
        exact ⟨⟨node', hnode⟩, (bind_answers_of_total (fun rest' => ⟨_, rfl⟩)).mp h⟩
      · rintro ⟨⟨node', hnode⟩, h⟩
        exact ⟨node', hnode, (bind_answers_of_total (fun rest' => ⟨_, rfl⟩)).mpr h⟩

end HostNode

/-! ## Expressions -/

/-- Every sequence inside of the alternatives is well-formed. -/
def Expr.WellFormed (tables : NameTables) (alternatives : Expr α) : Prop :=
  ∀ seq, Expr.Contains alternatives seq → seq.WellFormed tables

/-- What a body needs where the names in `visible` are bound. -/
def Body.Resolves (tables : NameTables) (visible : List Bytes) : Body α → Prop
  | .call name _ _ => name ∈ tables.rules
  | .group alternatives => Expr.WellFormed tables alternatives
  | body => ∀ host ∈ body.hosts, host.Resolves tables visible

/-- What an item needs where the names in `visible` are bound. -/
structure Item.Resolves (tables : NameTables) (visible : List Bytes) (item : Item (Body α)) : Prop where
  body : item.body.Resolves tables visible
  autobind : item.autobind = true → ∃ name decorated target, item.body = .call name decorated target
  new : ∀ name, item.binding = some name → name ∉ visible

/-- What items need where the names in `visible` are bound: each adds the name that it binds to those that the
next one sees. -/
def ItemsResolve (tables : NameTables) : List Bytes → List (Item (Body α)) → Prop
  | _, [] => True
  | visible, item :: rest =>
    item.Resolves tables visible ∧ ItemsResolve tables (visible ++ item.binding.toList) rest

/-- What a sequence needs, with the groups in it. -/
def Sequence.Resolves (tables : NameTables) (seq : Sequence α (Body α)) : Prop :=
  ItemsResolve tables [] seq.items ∧
    ∀ host, seq.action = some host → host.node.Resolves tables (bindings seq.items)

section Expr

variable {tables : NameTables}

theorem bindings_nil : bindings ([] : List (Item (Body α))) = [] := rfl

theorem bindings_cons (item : Item (Body α)) (rest : List (Item (Body α))) :
    bindings (item :: rest) = item.binding.toList ++ bindings rest := by
  unfold bindings
  rw [List.filterMap_cons]
  cases item.binding with
  | none => rfl
  | some name => rfl

theorem bindings_append (items rest : List (Item (Body α))) :
    bindings (items ++ rest) = bindings items ++ bindings rest := List.filterMap_append

/-- Items resolve where each does behind the items in front of it. -/
theorem itemsResolve_iff {visible : List Bytes} {items : List (Item (Body α))} :
    ItemsResolve tables visible items ↔
      ∀ before item after, items = before ++ item :: after →
        item.Resolves tables (visible ++ bindings before) := by
  induction items generalizing visible with
  | nil =>
    constructor
    · rintro - before item after h
      exact absurd h.symm (by simp)
    · intro _
      exact trivial
  | cons item rest ih =>
    show (item.Resolves tables visible ∧ ItemsResolve tables (visible ++ item.binding.toList) rest) ↔ _
    rw [ih]
    constructor
    · rintro ⟨hitem, hrest⟩ before item' after hsplit
      rcases List.cons_eq_append_iff.mp hsplit with ⟨hbefore, hafter⟩ | ⟨before', hbefore, hafter⟩
      · subst hbefore
        cases hafter
        rw [bindings_nil, List.append_nil]
        exact hitem
      · subst hbefore
        rw [bindings_cons, ← List.append_assoc]
        exact hrest before' item' after hafter
    · intro h
      refine ⟨?_, ?_⟩
      · have hfirst := h [] item rest rfl
        rw [bindings_nil, List.append_nil] at hfirst
        exact hfirst
      · intro before item' after hsplit
        have hlater := h (item :: before) item' after (by rw [hsplit]; rfl)
        rw [bindings_cons, ← List.append_assoc] at hlater
        exact hlater

/-- Items bind no name twice where each binds none that an earlier one has bound. -/
theorem nodup_bindings_iff {items : List (Item (Body α))} :
    (bindings items).Nodup ↔
      ∀ before item after, items = before ++ item :: after →
        ∀ name, item.binding = some name → name ∉ bindings before := by
  constructor
  · intro h before item after hsplit name hname hmem
    subst hsplit
    rw [bindings_append, bindings_cons, hname] at h
    exact (List.nodup_append.mp h).2.2 name hmem name (List.mem_append_left _ (by simp)) rfl
  · intro h
    -- From the right, since the last item is the one that sees all others.
    induction items using List.reverseRecOn with
    | nil => exact List.nodup_nil
    | append_singleton items item ih =>
      rw [bindings_append, bindings_cons, bindings_nil, List.append_nil]
      have hitems : (bindings items).Nodup := by
        apply ih
        intro before item' after hsplit
        exact h before item' (after ++ [item]) (by rw [hsplit]; simp)
      have hitem := h items item [] rfl
      cases hname : item.binding with
      | none => simpa [hname] using hitems
      | some name =>
        refine List.nodup_append.mpr ⟨hitems, by simp, ?_⟩
        intro a ha b hb hab
        rw [Option.toList_some, List.mem_singleton] at hb
        rw [hab, hb] at ha
        exact hitem name hname ha

/-- What a body needs, by the parts that it may have. -/
theorem Body.resolves_iff {visible : List Bytes} {body : Body α} : body.Resolves tables visible ↔
    (∀ name decorated target, body = .call name decorated target → name ∈ tables.rules) ∧
      (∀ inner, body = .group inner → Expr.WellFormed tables inner) ∧
        ∀ host ∈ body.hosts, host.Resolves tables visible := by
  cases body with
  | call name decorated target =>
    constructor
    · intro h
      refine ⟨?_, by rintro _ ⟨⟩, by rintro _ ⟨⟩⟩
      rintro _ _ _ ⟨⟩
      exact h
    · rintro ⟨h, -, -⟩
      exact h name decorated target rfl
  | group inner =>
    constructor
    · intro h
      refine ⟨by rintro _ _ _ ⟨⟩, ?_, by rintro _ ⟨⟩⟩
      rintro _ ⟨⟩
      exact h
    · rintro ⟨-, h, -⟩
      exact h inner rfl
  | code _ | interpolated _ _ | literal _ _ _ | cls _ | any =>
    constructor
    · intro h
      exact ⟨by rintro _ _ _ ⟨⟩, by rintro _ ⟨⟩, h⟩
    · rintro ⟨-, -, h⟩
      exact h

/-- A sequence resolves where it is well-formed itself and the groups in it are. -/
theorem Sequence.resolves_iff {seq : Sequence α (Body α)} : seq.Resolves tables ↔
    seq.WellFormed tables ∧
      ∀ item ∈ seq.items, ∀ inner, item.body = .group inner → Expr.WellFormed tables inner := by
  unfold Sequence.Resolves
  rw [itemsResolve_iff]
  simp only [List.nil_append]
  constructor
  · rintro ⟨hitems, haction⟩
    -- Every item is the one between the items before and behind it.
    have hitem : ∀ item ∈ seq.items, ∃ before : List (Item (Body α)),
        item.Resolves tables (bindings before) := by
      intro item hmem
      obtain ⟨before, after, hsplit⟩ := List.append_of_mem hmem
      exact ⟨before, hitems before item after hsplit⟩
    refine ⟨⟨?_, ?_, ?_, ?_, ?_, ?_, ?_⟩, ?_⟩
    · intro item hmem
      obtain ⟨before, h⟩ := hitem item hmem
      exact (Body.resolves_iff.mp h.body).1
    · intro item hmem
      obtain ⟨before, h⟩ := hitem item hmem
      exact h.autobind
    · rw [nodup_bindings_iff]
      intro before item after hsplit
      exact (hitems before item after hsplit).new
    · intro before item after hsplit host hhost
      exact ((Body.resolves_iff.mp (hitems before item after hsplit).body).2.2 host hhost).1
    · intro host hhost
      exact (haction host hhost).1
    · intro item hmem host hhost
      obtain ⟨before, h⟩ := hitem item hmem
      exact ((Body.resolves_iff.mp h.body).2.2 host hhost).2
    · intro host hhost
      exact (haction host hhost).2
    · intro item hmem
      obtain ⟨before, h⟩ := hitem item hmem
      exact (Body.resolves_iff.mp h.body).2.1
  · rintro ⟨hseq, hgroups⟩
    refine ⟨?_, ?_⟩
    · intro before item after hsplit
      have hmem : item ∈ seq.items := by
        rw [hsplit]
        simp
      refine ⟨Body.resolves_iff.mpr ⟨hseq.calls item hmem, hgroups item hmem, ?_⟩,
        hseq.autobinds item hmem, nodup_bindings_iff.mp hseq.distinct before item after hsplit⟩
      intro host hhost
      exact ⟨hseq.earlier before item after hsplit host hhost, hseq.callees item hmem host hhost⟩
    · intro host hhost
      exact ⟨hseq.trailing host hhost, hseq.trailingCallees host hhost⟩

/-- The alternatives are well-formed throughout where each of them resolves. -/
theorem Expr.wellFormed_iff {alternatives : Expr α} : Expr.WellFormed tables alternatives ↔
    ∀ seq ∈ alternatives, seq.Resolves tables := by
  simp only [Sequence.resolves_iff]
  constructor
  · intro h seq hseq
    refine ⟨h seq (.alternative hseq), ?_⟩
    intro item hitem inner hbody seq' hseq'
    exact h seq' (.inside hseq hitem hbody hseq')
  · rintro h seq (hseq | ⟨houter, hitem, hbody, hinner⟩)
    · exact (h seq hseq).1
    · exact (h _ houter).2 _ hitem _ hbody seq hinner

/-- The name that an item binds is found where the item calls a rule or does not bind by itself. -/
theorem bindingName_eq_ok (item : Item (Body α)) {position : Position} {name : Option Bytes} :
    bindingName item.autobind item.name item.body position = .ok name ↔
      (item.autobind = true → ∃ rule decorated target, item.body = .call rule decorated target) ∧
        name = item.binding := by
  unfold bindingName Item.binding
  cases item.autobind with
  | false =>
    simp only [Bool.false_eq_true, if_false, Except.ok.injEq, false_implies, true_and]
    exact eq_comm
  | true =>
    cases item.body with
    | call rule decorated target =>
      simp only [if_true, Except.ok.injEq, true_implies]
      constructor
      · intro h
        exact ⟨⟨rule, decorated, target, rfl⟩, h.symm⟩
      · intro h
        exact h.2.symm
    | _ => simp

/-- A name takes a slot where it is new, and is visible from there on. -/
theorem bindSlot_eq_ok {visible visible' : List Bytes} {name : Option Bytes} {position : Position}
    {slot : Option Nat} : bindSlot visible name position = .ok (slot, visible') ↔
      (∀ n, name = some n → n ∉ visible) ∧ slot = name.map (fun _ => visible.length) ∧
        visible' = visible ++ name.toList := by
  unfold bindSlot
  cases name with
  | none => simp [eq_comm]
  | some n =>
    by_cases hmem : n ∈ visible
    · simp [hmem]
    · simp [hmem, eq_comm]

/-- The names visible behind an item. -/
theorem linkItem_visible {visible visible' : List Bytes} {item linked : Item (Body α)}
    (h : linkItem tables visible item = .ok (linked, visible')) :
    visible' = visible ++ item.binding.toList := by
  obtain ⟨name, autobind, lookahead, body, repetition, slot, position⟩ := item
  unfold linkItem at h
  obtain ⟨body', _, h⟩ := bind_eq_ok.mp h
  obtain ⟨name', hname, h⟩ := bind_eq_ok.mp h
  obtain ⟨⟨slot', visible''⟩, hslot, h⟩ := bind_eq_ok.mp h
  cases h
  have hbinding := (bindingName_eq_ok
    ⟨name, autobind, lookahead, body, repetition, slot, position⟩).mp hname
  rw [← hbinding.2]
  exact (bindSlot_eq_ok.mp hslot).2.2

/-- The names visible behind items are those visible before and those that the items bind. -/
theorem linkItems_visible {visible layout : List Bytes} {items linked : List (Item (Body α))}
    (h : linkItems tables visible items = .ok (linked, layout)) : layout = visible ++ bindings items := by
  induction items generalizing visible layout linked with
  | nil =>
    cases h
    exact (List.append_nil _).symm
  | cons item rest ih =>
    unfold linkItems at h
    obtain ⟨⟨item', visible'⟩, hitem, h⟩ := bind_eq_ok.mp h
    obtain ⟨⟨rest', layout'⟩, hrest, h⟩ := bind_eq_ok.mp h
    cases h
    rw [ih hrest, linkItem_visible hitem, bindings_cons, List.append_assoc]

mutual

theorem linkBody_answers_iff {visible : List Bytes} {position : Position} : ∀ (body : Body α),
    (∃ linked, linkBody tables visible position body = .ok linked) ↔ body.Resolves tables visible
  | .code ⟨node, at_⟩ => by
    unfold linkBody
    rw [bind_answers_of_total (fun node' => ⟨_, rfl⟩), linkHost_answers_iff]
    show _ ↔ ∀ host ∈ [node], host.Resolves tables visible
    rw [List.forall_mem_singleton]
  | .call name decorated target => by
    show _ ↔ name ∈ tables.rules
    unfold linkBody
    rw [← exists_idxOf?_iff]
    cases tables.rules.idxOf? name <;> simp
  | .group alternatives => by
    unfold linkBody
    rw [bind_answers_of_total (fun alternatives' => ⟨_, rfl⟩), linkExpr_answers_iff alternatives]
    rfl
  | .literal spelling caseless braceSensitive => by
    simp [linkBody, Body.Resolves, Body.hosts]
  | .interpolated segments caseless => by
    unfold linkBody
    rw [bind_answers_of_total (fun segments' => ⟨_, rfl⟩), linkSegments_answers_iff]
    rfl
  | .cls cls => by
    simp [linkBody, Body.Resolves, Body.hosts]
  | .any => by
    simp [linkBody, Body.Resolves, Body.hosts]
termination_by structural body => body

/-- **Linking an expression answers where every sequence inside of it is well-formed.** -/
theorem linkExpr_answers_iff : ∀ (alternatives : List (Sequence α (Body α))),
    (∃ linked, linkExpr tables alternatives = .ok linked) ↔ Expr.WellFormed tables alternatives
  | [] => by
    rw [Expr.wellFormed_iff]
    simp [linkExpr]
  | seq :: rest => by
    unfold linkExpr
    rw [Expr.wellFormed_iff, List.forall_mem_cons, ← Expr.wellFormed_iff, ← linkExpr_answers_iff rest,
      ← linkSequence_answers_iff seq, bind_answers]
    constructor
    · rintro ⟨seq', hseq, h⟩
      exact ⟨⟨seq', hseq⟩, (bind_answers_of_total (fun rest' => ⟨_, rfl⟩)).mp h⟩
    · rintro ⟨⟨seq', hseq⟩, h⟩
      exact ⟨seq', hseq, (bind_answers_of_total (fun rest' => ⟨_, rfl⟩)).mpr h⟩
termination_by structural alternatives => alternatives

theorem linkSequence_answers_iff : ∀ (seq : Sequence α (Body α)),
    (∃ linked, linkSequence tables seq = .ok linked) ↔ seq.Resolves tables
  | ⟨items, action, layout, position⟩ => by
    unfold linkSequence
    rw [bind_answers]
    constructor
    · rintro ⟨⟨items', layout'⟩, hitems, h⟩
      refine ⟨(linkItems_answers_iff items).mp ⟨_, hitems⟩, ?_⟩
      have hlayout := linkItems_visible hitems
      rw [List.nil_append] at hlayout
      subst hlayout
      rintro ⟨node, at_⟩ hhost
      change action = some ⟨node, at_⟩ at hhost
      subst hhost
      rw [← linkHost_answers_iff node at_]
      exact (bind_answers_of_total (fun node' => ⟨_, rfl⟩)).mp h
    · rintro ⟨hitems, haction⟩
      obtain ⟨⟨items', layout'⟩, hitems⟩ := (linkItems_answers_iff items).mpr hitems
      refine ⟨⟨items', layout'⟩, hitems, ?_⟩
      have hlayout := linkItems_visible hitems
      rw [List.nil_append] at hlayout
      subst hlayout
      cases action with
      | none => exact ⟨_, rfl⟩
      | some host =>
        have hhost := haction host rfl
        rw [← linkHost_answers_iff host.node host.position] at hhost
        exact (bind_answers_of_total (fun node' => ⟨_, rfl⟩)).mpr hhost
termination_by structural seq => seq

theorem linkItems_answers_iff {visible : List Bytes} : ∀ (items : List (Item (Body α))),
    (∃ linked, linkItems tables visible items = .ok linked) ↔ ItemsResolve tables visible items
  | [] => by simp [linkItems, ItemsResolve]
  | item :: rest => by
    unfold linkItems
    rw [bind_answers]
    constructor
    · rintro ⟨⟨item', visible'⟩, hitem, h⟩
      have hvisible := linkItem_visible hitem
      subst hvisible
      refine ⟨(linkItem_answers_iff item).mp ⟨_, hitem⟩, (linkItems_answers_iff rest).mp ?_⟩
      exact (bind_answers_of_total (fun rest' => ⟨_, rfl⟩)).mp h
    · rintro ⟨hitem, hrest⟩
      obtain ⟨⟨item', visible'⟩, hitem⟩ := (linkItem_answers_iff item).mpr hitem
      have hvisible := linkItem_visible hitem
      subst hvisible
      refine ⟨⟨item', _⟩, hitem, (bind_answers_of_total (fun rest' => ⟨_, rfl⟩)).mpr ?_⟩
      exact (linkItems_answers_iff rest).mpr hrest
termination_by structural items => items

theorem linkItem_answers_iff {visible : List Bytes} : ∀ (item : Item (Body α)),
    (∃ linked, linkItem tables visible item = .ok linked) ↔ item.Resolves tables visible
  | ⟨name, autobind, lookahead, body, repetition, slot, position⟩ => by
    unfold linkItem
    rw [bind_answers]
    constructor
    · rintro ⟨body', hbody, h⟩
      obtain ⟨name', hname, h⟩ := bind_answers.mp h
      obtain ⟨⟨slot', visible'⟩, hslot, _⟩ := bind_answers.mp h
      obtain ⟨hautobind, hbinding⟩ := (bindingName_eq_ok
        ⟨name, autobind, lookahead, body, repetition, slot, position⟩).mp hname
      subst hbinding
      exact ⟨(linkBody_answers_iff body).mp ⟨body', hbody⟩, hautobind, (bindSlot_eq_ok.mp hslot).1⟩
    · intro h
      obtain ⟨body', hbody⟩ := (linkBody_answers_iff body).mpr h.body
      have hname : bindingName autobind name body position = .ok _ := (bindingName_eq_ok
        ⟨name, autobind, lookahead, body, repetition, slot, position⟩).mpr ⟨h.autobind, rfl⟩
      refine ⟨body', hbody, bind_answers.mpr ⟨_, hname, ?_⟩⟩
      exact bind_answers.mpr ⟨_, bindSlot_eq_ok.mpr ⟨h.new, rfl, rfl⟩, _, rfl⟩
termination_by structural item => item

end

end Expr

/-! ## Building -/

namespace Builder

/-- No name stands twice, and none that has been seen before. -/
theorem checkNames_answers_iff {seen : List Bytes} {rules : List (Rule α)} :
    (∃ u, checkNames seen rules = .ok u) ↔
      (rules.map (·.name)).Nodup ∧ ∀ name ∈ rules.map (·.name), name ∉ seen := by
  induction rules generalizing seen with
  | nil => simp [checkNames]
  | cons r rest ih =>
    unfold checkNames
    by_cases hseen : r.name ∈ seen
    · simp [hseen]
    · rw [if_neg (by simpa using hseen), ih, List.map_cons, List.nodup_cons, List.forall_mem_cons]
      simp only [List.mem_cons, not_or]
      constructor
      · rintro ⟨hnodup, hnew⟩
        refine ⟨⟨fun hmem => (hnew r.name hmem).1 rfl, hnodup⟩, hseen, ?_⟩
        intro name hname
        exact (hnew name hname).2
      · rintro ⟨⟨hfirst, hnodup⟩, _, hnew⟩
        refine ⟨hnodup, ?_⟩
        intro name hname
        exact ⟨fun heq => hfirst (heq ▸ hname), hnew name hname⟩

/-- Rules link where the sequences of each that stands for no matcher are well-formed. -/
theorem linkRules_answers_iff {tables : NameTables} {rules : List (Rule α)} :
    (∃ linked, linkRules tables rules = .ok linked) ↔
      ∀ rule ∈ rules, rule.matcher = none → Expr.WellFormed tables rule.body := by
  induction rules with
  | nil => simp [linkRules]
  | cons r rest ih =>
    unfold linkRules
    rw [List.forall_mem_cons, ← ih, ← linkExpr_answers_iff]
    cases hmatcher : r.matcher with
    | some i =>
      simp only [Rule.isExternal, hmatcher, Option.isSome_some, if_true, reduceCtorEq, false_implies,
        true_and]
      exact bind_answers_of_total (fun rest' => ⟨_, rfl⟩)
    | none =>
      simp only [Rule.isExternal, hmatcher, Option.isSome_none, Bool.false_eq_true, if_false,
        true_implies]
      rw [bind_answers]
      constructor
      · rintro ⟨body, hbody, h⟩
        exact ⟨⟨body, hbody⟩, (bind_answers_of_total (fun rest' => ⟨_, rfl⟩)).mp h⟩
      · rintro ⟨⟨body, hbody⟩, h⟩
        exact ⟨body, hbody, (bind_answers_of_total (fun rest' => ⟨_, rfl⟩)).mpr h⟩

/-- Linking leaves the names of the rules as they are. -/
theorem linkRules_names {tables : NameTables} {rules linked : List (Rule α)}
    (h : linkRules tables rules = .ok linked) : linked.map (·.name) = rules.map (·.name) := by
  induction rules generalizing linked with
  | nil =>
    cases h
    rfl
  | cons r rest ih =>
    obtain ⟨body, rest', _, hrest, hlinked⟩ := linkRules_cons h
    subst hlinked
    rw [List.map_cons, List.map_cons, ih hrest]

/-- The start rule is found where it is not asked for or exists. -/
theorem startIndex_answers_iff {start : Option Bytes} {rules : List (Rule α)} :
    (∃ i, startIndex start rules = .ok i) ↔ ∀ name, start = some name → name ∈ rules.map (·.name) := by
  cases start with
  | none => simp [startIndex]
  | some name =>
    have hfind : (∃ i, rules.findIdx? (·.name == name) = some i) ↔ name ∈ rules.map (·.name) := by
      rw [← Option.isSome_iff_exists, List.findIdx?_isSome, List.any_eq_true, List.mem_map]
      simp
    simp only [Option.some.injEq, forall_eq']
    rw [← hfind]
    cases hfound : rules.findIdx? (·.name == name) with
    | some i => simp [startIndex, hfound]
    | none => simp [startIndex, hfound]

/-- What links makes a grammar. -/
theorem WellFormed.of_build {b : Builder α} {g : Grammar α} (h : b.build = .ok g) : b.WellFormed := by
  unfold build at h
  simp only at h
  split at h
  · cases h
  · next hempty =>
    obtain ⟨u, hnames, h⟩ := bind_eq_ok.mp h
    obtain ⟨rules, hrules, h⟩ := bind_eq_ok.mp h
    obtain ⟨start, hstart, h⟩ := bind_eq_ok.mp h
    have hstart' := startIndex_answers_iff.mp ⟨start, hstart⟩
    rw [linkRules_names hrules] at hstart'
    exact ⟨by simpa using hempty, (checkNames_answers_iff.mp ⟨u, hnames⟩).1, hstart',
      linkRules_answers_iff.mp ⟨rules, hrules⟩⟩

/-- A linked grammar has the names of the builder. -/
theorem names_of_build {b : Builder α} {g : Grammar α} (h : b.build = .ok g) :
    g.rules.map (·.name) = b.rules.map (·.name) := by
  obtain ⟨rules, start, hrules, rfl⟩ := build_eq_ok h
  exact linkRules_names hrules

/-- The rules of a linked grammar have different names. -/
theorem nodup_names {b : Builder α} {g : Grammar α} (h : b.build = .ok g) :
    (g.rules.map (·.name)).Nodup := by
  rw [names_of_build h]
  exact (WellFormed.of_build h).distinct

/-- What makes a grammar links. -/
theorem WellFormed.build {b : Builder α} (h : b.WellFormed) : ∃ g, b.build = .ok g := by
  obtain ⟨u, hnames⟩ := checkNames_answers_iff.mpr ⟨h.distinct, fun _ _ => List.not_mem_nil⟩
  obtain ⟨rules, hrules⟩ := linkRules_answers_iff.mpr h.sequences
  have hstart := h.start
  rw [← linkRules_names hrules] at hstart
  obtain ⟨start, hstart⟩ := startIndex_answers_iff.mpr hstart
  refine ⟨⟨rules, b.actions, b.matchers, start⟩, ?_⟩
  unfold Builder.build
  rw [if_neg (by simpa using h.inhabited)]
  exact bind_eq_ok.mpr ⟨u, hnames, bind_eq_ok.mpr ⟨rules, hrules,
    bind_eq_ok.mpr ⟨start, hstart, rfl⟩⟩⟩

/-- **A builder links where its parts make a grammar, and otherwise the answer is a grammar error.** -/
theorem build_answers_iff (b : Builder α) :
    ((∃ g, b.build = .ok g) ↔ b.WellFormed) ∧
      (¬b.WellFormed → ∃ error : GrammarError, b.build = .error error) := by
  refine ⟨⟨?_, WellFormed.build⟩, ?_⟩
  · rintro ⟨g, h⟩
    exact .of_build h
  · intro hill
    cases hbuild : b.build with
    | error error => exact ⟨error, rfl⟩
    | ok g => exact absurd (.of_build hbuild) hill

end Builder

end Packrat
