import Packrat.Proofs.Meaning
import Packrat.Proofs.Tokens
import Packrat.Proofs.Translation

/-!
# `Packrat.Proofs.HostReading` — host expressions are read as they are printed

## Contents
- **Choices.** Going through the alternatives of a rule.
- **Constants.** Names, integers and texts.
- **Host expressions.** `takes_host`, on the structure of a host expression.
- **Code.** `takes_code`: host expressions in braces.
-/

-- the linter does not see an assumption that only a companion of a mutual block uses
set_option linter.unusedSectionVars false

namespace Packrat.Source

variable {α : Type} {source : Bytes} {scope : Scope} {n : Nonterminal}
  {g t u rest text : Bytes} {Q : Value → Prop}

/-! ## Choices -/

/-- An alternative that calls a rule. -/
def calling (n : Nonterminal) : Sequence Empty (Body Empty) := sequenceOf [step n.body]

theorem takes_calling (h : BodyTakes (basis source) n.body t rest Q) :
    SequenceTakes (basis source) (calling n) t rest Q :=
  SequenceTakes.passed rfl (ItemTakes.once h)

theorem fails_calling (hfails : BodyFails (basis source) n.body text) :
    SequenceFails (basis source) (calling n) text :=
  SequenceFails.of_items (ItemsFail.head (ItemFails.once hfails))

/-- An alternative is taken where all earlier ones fail at the first byte. -/
theorem takes_choice {set : Bytes} (before after : List Nonterminal) (hstart : StartsIn set (t ++ rest))
    (h : BodyTakes (basis source) n.body t rest Q)
    (hrefused : (before.all fun m => refused set m.body) = true) :
    ExprTakes (basis source) ((before ++ n :: after).map calling) t rest Q := by
  induction before with
  | nil => exact ExprTakes.first (takes_calling h)
  | cons m before ih =>
    rw [List.all_cons, Bool.and_eq_true] at hrefused
    exact ExprTakes.later (fails_calling (fails_of_refused hstart hrefused.1)) (ih hrefused.2)

/-- All alternatives fail at the first byte. -/
theorem fails_choice {set : Bytes} (all : List Nonterminal) (hstart : StartsIn set text)
    (hrefused : (all.all fun m => refused set m.body) = true) :
    ExprFails (basis source) (all.map calling) text := by
  induction all with
  | nil => exact ExprFails.nil
  | cons m all ih =>
    rw [List.all_cons, Bool.and_eq_true] at hrefused
    exact ExprFails.cons (fails_calling (fails_of_refused hstart hrefused.1)) (ih hrefused.2)

/-- A word is taken, whatever follows. -/
theorem takes_word {s : String} {r : Bytes}
    (h : (wordBody s).taken? (Bytes.ascii s ++ r) = some (Bytes.ascii s).length) :
    BodyTakes (basis source) (wordBody s) (Bytes.ascii s) r (fun _ => True) :=
  BodyTakes.terminal rfl h trivial

/-! ## Constants -/

/-- The bytes that may follow a host expression. -/
def hostEnds : Bytes := Bytes.ascii "),\x7d"

/-- The bytes that host expressions start with. -/
def hostStarts : Bytes := wordBytes ++ Bytes.ascii "\"$-"

theorem startsIn_identifier (h : isIdentifier t = true) : t ≠ [] ∧ StartsIn letters t := by
  cases t with
  | nil => cases h
  | cons b t =>
    simp only [isIdentifier, Bool.and_eq_true, List.contains_iff_mem] at h
    exact ⟨List.cons_ne_nil b t, StartsIn.cons h.1⟩

/-- A word is read as a name. -/
theorem takes_hostName (hname : isIdentifier t = true) (hg : Gap g) (hrest : StartsIn hostEnds rest) :
    BodyTakes (basis source) Nonterminal.host.body (t ++ g) rest
      (HostMeant scope (hostOfName t : HostNode α)) := by
  obtain ⟨hne, hstart⟩ := startsIn_identifier hname
  have hbreak : StartsIn breaks (g ++ rest) := hg.startsIn.append (hrest.widen (by decide))
  have hsolid : StartsIn solid rest := hrest.widen (by decide)
  have hletter : StartsIn letters (t ++ g ++ rest) :=
    StartsIn.append_of_ne_nil (hstart.append_of_ne_nil hne) (List.append_ne_nil_of_left_ne_nil hne g)
  -- behind the name of a call there would be a bracket
  have hcall : BodyFails (basis source) Nonterminal.hostCall.body (t ++ g ++ rest) := by
    refine fails_body (ExprFails.cons (SequenceFails.of_items ?_) ExprFails.nil)
    refine ItemsFail.tail (ItemTakes.once (takes_qualifiedName (.single hname) hg hbreak hsolid)) ?_
    exact ItemsFail.head (ItemFails.once (fails_of_refused hrest (by decide)))
  refine takes_plain rfl (ExprTakes.later (fails_calling hcall) ?_)
  refine takes_choice [.hostString, .hostInteger, .hostMatch] [] hletter ?_ (by decide)
  refine takes_record rfl rfl rfl ?_
  refine ItemsTake.last (ItemTakes.once (takes_identifier hname hg hbreak hsolid)) fun x hx => ?_
  exact hostMeant_name rfl hx

theorem mem_decimalDigits {b : UInt8} {d : Nat} (h : Decimal.digit? b = some d) : b ∈ decimalDigits := by
  have hall := forall_byte (p := fun b => (Decimal.digit? b).isNone || decimalDigits.contains b)
    (by decide +kernel) b
  simpa [h] using hall

theorem digits_of_digitsAfter {acc value : Nat} (h : Decimal.digitsAfter acc t = some value) :
    ∀ b ∈ t, b ∈ decimalDigits := by
  induction t generalizing acc with
  | nil =>
    intro b hb
    cases hb
  | cons b t ih =>
    rw [Decimal.digitsAfter, Option.bind_eq_some_iff] at h
    obtain ⟨d, hd, ht⟩ := h
    intro b' hb'
    cases hb' with
    | head => exact mem_decimalDigits hd
    | tail _ hb' => exact ih ht b' hb'

theorem digits_of_digits? {value : Nat} (h : Decimal.digits? t = some value) :
    ∃ b digits, t = [b] ++ digits ∧ b ∈ decimalDigits ∧ ∀ b' ∈ digits, b' ∈ decimalDigits := by
  cases t with
  | nil => cases h
  | cons b t =>
    have hall := digits_of_digitsAfter h
    exact ⟨b, t, rfl, hall b List.mem_cons_self, fun b' hb' => hall b' (List.mem_cons_of_mem b hb')⟩

/-- A text that denotes an integer is a run of digits behind an optional sign. -/
theorem digits_of_int64? {z : Int64} (h : Decimal.int64? t = some z) :
    ∃ sign b digits, (sign = [] ∨ sign = Bytes.ascii "-") ∧ t = sign ++ ([b] ++ digits) ∧
      b ∈ decimalDigits ∧ ∀ b' ∈ digits, b' ∈ decimalDigits := by
  unfold Decimal.int64? at h
  obtain ⟨value, hvalue, _⟩ := Option.bind_eq_some_iff.mp h
  cases t with
  | nil => cases hvalue
  | cons b t =>
    rw [Decimal.int?] at hvalue
    split at hvalue
    · next hminus =>
      obtain ⟨magnitude, hmagnitude, _⟩ := Option.map_eq_some_iff.mp hvalue
      obtain ⟨number, hdigits, _⟩ := Option.bind_eq_some_iff.mp hmagnitude
      obtain ⟨b', digits, ht, hb', hall⟩ := digits_of_digits? hdigits
      have hsign : b = Bytes.char '-' := beq_iff_eq.mp hminus
      refine ⟨Bytes.ascii "-", b', digits, .inr rfl, ?_, hb', hall⟩
      rw [ht, hsign]
      rfl
    · obtain ⟨magnitude, hmagnitude, _⟩ := Option.map_eq_some_iff.mp hvalue
      obtain ⟨number, hdigits, _⟩ := Option.bind_eq_some_iff.mp hmagnitude
      obtain ⟨b', digits, ht, hb', hall⟩ := digits_of_digits? hdigits
      exact ⟨[], b', digits, .inl rfl, ht, hb', hall⟩

theorem takes_hostInteger {z : Int64} (hz : Decimal.int64? t = some z) (hg : Gap g)
    (hrest : StartsIn hostEnds rest) :
    BodyTakes (basis source) Nonterminal.host.body (t ++ g) rest
      (HostMeant scope (.const (.int z) : HostNode α)) := by
  obtain ⟨sign, b, digits, hsign, ht, hb, hdigits⟩ := digits_of_int64? hz
  have hbreak : StartsIn breaks (g ++ rest) := hg.startsIn.append (hrest.widen (by decide))
  have hstart : StartsIn (Bytes.ascii "-0123456789") (t ++ g ++ rest) := by
    rw [ht]
    have hdigit : StartsIn (Bytes.ascii "-0123456789") ([b] ++ digits ++ g ++ rest) :=
      StartsIn.cons (List.mem_cons_of_mem _ hb)
    cases hsign with
    | inl hnone =>
      subst hnone
      exact hdigit
    | inr hminus =>
      subst hminus
      exact StartsIn.cons List.mem_cons_self
  -- the digits behind the sign
  obtain ⟨Qs, hmore⟩ : ∃ Qs,
      Repeats (basis source) (classBody "[0-9]" [('0', '9')] false) (g ++ rest) digits Qs :=
    repeats_bytes hdigits (fails_of_refused hbreak (by decide +kernel)) (by decide)
  have hrun : ItemTakes (basis source) (step (classBody "[0-9]" [('0', '9')] false) .plus) ([b] ++ digits)
      (g ++ rest) _ :=
    ItemTakes.plus (reach_basis source) (takes_byte hb (by decide)) hmore
  have hnumber : BodyTakes (basis source) (.group [sequenceOf [step (wordBody "-") .optional,
      step (classBody "[0-9]" [('0', '9')] false) .plus]]) t (g ++ rest) (fun v => v = .text t) := by
    refine BodyTakes.group (ExprTakes.first (SequenceTakes.matched rfl ?_ rfl))
    rw [ht]
    have hlast : ItemsTake (basis source) [step (classBody "[0-9]" [('0', '9')] false) .plus] []
        ([b] ++ digits) (g ++ rest) (fun _ => True) := ItemsTake.last hrun fun _ _ => trivial
    cases hsign with
    | inl hnone =>
      subst hnone
      have hdigit : StartsIn decimalDigits ([b] ++ digits ++ (g ++ rest)) := StartsIn.cons hb
      exact ItemsTake.next rfl (ItemTakes.absent (fails_of_refused hdigit (by decide))) hlast
    | inr hminus =>
      subst hminus
      exact ItemsTake.next rfl (ItemTakes.present (takes_word rfl)) hlast
  refine takes_plain rfl (takes_choice [.hostCall, .hostString] [.hostMatch, .hostName] hstart ?_ (by decide +kernel))
  refine takes_record rfl rfl rfl ?_
  refine ItemsTake.cons (ItemTakes.once hnumber) fun x hx => ?_
  refine ItemsTake.last (ItemTakes.once (takes_gap hg (hrest.widen (by decide)))) fun _ _ => ?_
  exact hostMeant_integer rfl hx hz

/-- The body that matches a character of a text between double quotes. -/
def textUnit : Body Empty :=
  .group [sequenceOf [step (classBody "[^\"\\\\]" [('"', '"'), ('\\', '\\')] true)],
    sequenceOf [step (wordBody "\\"), step .any]]

/-- The characters of a text are read up to the closing quote. -/
theorem takes_hostText (hu : Escapable (· ≠ '"'.toNat) u) :
    BodyTakes (basis source) Nonterminal.hostText.body u (Bytes.ascii "\"" ++ rest) (fun v => v = .text u) := by
  have hunits : ∃ Qs, Repeats (basis source) textUnit (Bytes.ascii "\"" ++ rest) u Qs := by
    induction hu with
    | nil =>
      have hclose : StartsIn (Bytes.ascii "\"") (Bytes.ascii "\"" ++ rest) := StartsIn.cons List.mem_cons_self
      exact ⟨[], Repeats.stop (fails_of_refused hclose (by decide))⟩
    | @plain u t r hu hr hbackslash _ ih =>
      obtain ⟨Qs, hmore⟩ := ih
      have hcontains : CharClass.contains ⟨[⟨'"'.toNat, '"'.toNat⟩, ⟨'\\'.toNat, '\\'.toNat⟩], true, false,
          Bytes.ascii "[^\"\\\\]"⟩ r = true := by
        simp [CharClass.contains, CharClass.covers, RuneRange.contains]
        exact ⟨hr, hbackslash⟩
      refine ⟨(fun _ => True) :: Qs, Repeats.more hu.ne_nil ?_ hmore⟩
      refine BodyTakes.group (ExprTakes.first (SequenceTakes.matched rfl ?_ trivial))
      exact ItemsTake.last (ItemTakes.once (takes_rune (Q := fun _ => True) hu hcontains trivial))
        fun _ _ => trivial
    | @escaped u t r hu _ ih =>
      obtain ⟨Qs, hmore⟩ := ih
      refine ⟨(fun _ => True) :: Qs, ?_⟩
      rw [← List.append_assoc]
      refine Repeats.more (List.cons_ne_nil _ _) ?_ hmore
      have hclass : BodyFails (basis source) (classBody "[^\"\\\\]" [('"', '"'), ('\\', '\\')] true)
          (Bytes.ascii "\\" ++ u ++ (t ++ (Bytes.ascii "\"" ++ rest))) := BodyFails.terminal rfl rfl
      refine BodyTakes.group (ExprTakes.later ?_ (ExprTakes.first (SequenceTakes.matched rfl ?_ trivial)))
      · exact SequenceFails.of_items (ItemsFail.head (ItemFails.once hclass))
      · refine ItemsTake.next rfl (ItemTakes.once (takes_word rfl)) ?_
        exact ItemsTake.last (ItemTakes.once (takes_any hu)) fun _ _ => trivial
  obtain ⟨Qs, hunits⟩ := hunits
  refine takes_plain rfl (ExprTakes.first (SequenceTakes.matched rfl ?_ rfl))
  exact ItemsTake.last (ItemTakes.star (reach_basis source) hunits) fun _ _ => trivial

theorem takes_hostString (hu : Escapable (· ≠ '"'.toNat) u) (hg : Gap g) (hrest : StartsIn hostEnds rest) :
    BodyTakes (basis source) Nonterminal.host.body (Bytes.ascii "\"" ++ (u ++ (Bytes.ascii "\"" ++ g))) rest
      (HostMeant scope (.const (.text (unescape u)) : HostNode α)) := by
  have hquote : StartsIn (Bytes.ascii "\"") (Bytes.ascii "\"" ++ (u ++ (Bytes.ascii "\"" ++ g)) ++ rest) :=
    StartsIn.cons List.mem_cons_self
  refine takes_plain rfl (takes_choice [.hostCall] [.hostInteger, .hostMatch, .hostName] hquote ?_ (by decide))
  refine takes_record rfl rfl rfl ?_
  refine ItemsTake.next rfl (ItemTakes.once (takes_word rfl)) ?_
  refine ItemsTake.cons (ItemTakes.once (takes_hostText hu)) fun x hx => ?_
  refine ItemsTake.next rfl (ItemTakes.once (takes_word rfl)) ?_
  refine ItemsTake.last (ItemTakes.once (takes_gap hg (hrest.widen (by decide)))) fun _ _ => ?_
  exact hostMeant_text rfl hx

theorem takes_hostMatch (hg : Gap g) (hrest : StartsIn hostEnds rest) :
    BodyTakes (basis source) Nonterminal.host.body (Bytes.ascii "$" ++ g) rest
      (HostMeant scope (.matched : HostNode α)) := by
  have hdollar : StartsIn (Bytes.ascii "$") (Bytes.ascii "$" ++ g ++ rest) := StartsIn.cons List.mem_cons_self
  refine takes_plain rfl (takes_choice [.hostCall, .hostString, .hostInteger] [.hostName] hdollar ?_ (by decide))
  refine takes_tagged rfl ?_
  refine ExprTakes.first (SequenceTakes.matched rfl ?_ fun _ _ => hostMeant_matched)
  refine ItemsTake.next rfl (ItemTakes.once (takes_word rfl)) ?_
  exact ItemsTake.last (ItemTakes.once (takes_gap hg (hrest.widen (by decide)))) fun _ _ => trivial

/-! ## Host expressions -/

theorem isIdentifier_boolWord (b : Bool) : isIdentifier (Value.boolWord b) = true := by
  cases b <;> decide

theorem Dotted.startsIn (h : Dotted t) : t ≠ [] ∧ StartsIn letters t := by
  cases h with
  | single h => exact startsIn_identifier h
  | dot h _ =>
    obtain ⟨hne, hstart⟩ := startsIn_identifier h
    exact ⟨List.append_ne_nil_of_left_ne_nil hne _, hstart.append_of_ne_nil hne⟩

theorem ConstantPrinted.startsIn {v : Value} (h : ConstantPrinted v t) : t ≠ [] ∧ StartsIn hostStarts t := by
  unfold ConstantPrinted at h
  split at h
  · next b =>
    subst h
    obtain ⟨hne, hstart⟩ := startsIn_identifier (isIdentifier_boolWord b)
    exact ⟨hne, hstart.widen (by decide)⟩
  · obtain ⟨sign, b, digits, hsign, ht, hb, _⟩ := digits_of_int64? h
    have hmem : b ∈ hostStarts := (by decide : ∀ b ∈ decimalDigits, b ∈ hostStarts) b hb
    subst ht
    cases hsign with
    | inl hnone =>
      subst hnone
      exact ⟨List.cons_ne_nil _ _, StartsIn.cons hmem⟩
    | inr hminus =>
      subst hminus
      exact ⟨List.cons_ne_nil _ _, StartsIn.cons (by decide)⟩
  · obtain ⟨u, _, _, ht⟩ := h
    subst ht
    exact ⟨List.cons_ne_nil _ _, StartsIn.cons (by decide)⟩
  · exact h.elim

theorem HostPrinted.startsIn {node : HostNode α} (h : HostPrinted node t) :
    t ≠ [] ∧ StartsIn hostStarts t := by
  have hfront : ∀ {front back : Bytes}, front ≠ [] → StartsIn hostStarts front →
      front ++ back ≠ [] ∧ StartsIn hostStarts (front ++ back) :=
    fun hne hstart => ⟨List.append_ne_nil_of_left_ne_nil hne _, hstart.append_of_ne_nil hne⟩
  cases node with
  | ref name slot =>
    obtain ⟨_, hname, g, _, ht⟩ := h
    subst ht
    obtain ⟨hne, hstart⟩ := startsIn_identifier hname
    exact hfront hne (hstart.widen (by decide))
  | const v =>
    obtain ⟨u, g, hu, _, ht⟩ := h
    subst ht
    exact hfront hu.startsIn.1 hu.startsIn.2
  | matched =>
    obtain ⟨g, _, ht⟩ := h
    subst ht
    exact hfront (List.cons_ne_nil _ _) (StartsIn.cons (by decide))
  | native a => exact h.elim
  | call name args constructs action =>
    obtain ⟨_, _, hname, _, _, _, _, _, _, _, _, ht⟩ := h
    subst ht
    obtain ⟨hne, hstart⟩ := hname.startsIn
    exact hfront hne (hstart.widen (by decide))

theorem hostOfName_of_ne (hname : ∀ b, t ≠ Value.boolWord b) : (hostOfName t : HostNode α) = .ref t none := by
  have htrue : ¬(t == Bytes.ascii "true") = true := fun h => hname true (beq_iff_eq.mp h)
  have hfalse : ¬(t == Bytes.ascii "false") = true := fun h => hname false (beq_iff_eq.mp h)
  unfold hostOfName
  rw [if_neg htrue, if_neg hfalse]

theorem hostOfName_boolWord (b : Bool) : (hostOfName (Value.boolWord b) : HostNode α) = .const (.bool b) := by
  cases b <;> rfl

theorem takes_constant {v : Value} (h : ConstantPrinted v t) (hg : Gap g) (hrest : StartsIn hostEnds rest) :
    BodyTakes (basis source) Nonterminal.host.body (t ++ g) rest
      (HostMeant scope (.const v : HostNode α)) := by
  unfold ConstantPrinted at h
  split at h
  · next b =>
    subst h
    rw [← hostOfName_boolWord]
    exact takes_hostName (isIdentifier_boolWord b) hg hrest
  · exact takes_hostInteger h hg hrest
  · obtain ⟨u, hu, hs, ht⟩ := h
    subst ht hs
    rw [List.append_assoc, List.append_assoc]
    exact takes_hostString hu hg hrest
  · exact h.elim

section

variable {tables : NameTables} {visible : List Bytes}

/-- What stands behind the bracket of a call: nothing, or arguments. -/
def CallArgsMeant (scope : Scope) (args : List (Host α)) (v : Value) : Prop :=
  v = .option none ∧ args = [] ∨ ∃ z : Spanned Value, v = .option (some z) ∧ ArgsMeant scope args z.value

/-- A call, from its arguments. -/
theorem takes_hostCall {name g g' g'' : Bytes} {args : List (Host α)} (hname : Dotted name) (hg : Gap g)
    (hg' : Gap g') (hg'' : Gap g'') (hstart : StartsIn hostStarts u) (hrest : StartsIn hostEnds rest)
    (hargs : ItemTakes (basis source) (bound "args" 1 Nonterminal.hostArgs.body .optional) u
      (Bytes.ascii ")" ++ g'' ++ rest) (CallArgsMeant scope args)) :
    BodyTakes (basis source) Nonterminal.host.body
      (name ++ (g ++ (Bytes.ascii "(" ++ (g' ++ (u ++ (Bytes.ascii ")" ++ g'')))))) rest
      (HostMeant scope (.call name args false none : HostNode α)) := by
  have hbreak : ∀ {back : Bytes}, StartsIn breaks (g ++ (Bytes.ascii "(" ++ back)) := fun {back} =>
    hg.startsIn.append (StartsIn.cons (by decide))
  have hsolid : StartsIn solid (u ++ (Bytes.ascii ")" ++ g'') ++ rest) :=
    ((hstart.widen (by decide)).append (StartsIn.cons (by decide))).append
      (hrest.widen (by decide))
  refine takes_plain rfl (ExprTakes.first (takes_calling ?_))
  refine takes_record rfl rfl rfl ?_
  rw [← List.append_assoc name]
  refine ItemsTake.cons (ItemTakes.once (takes_qualifiedName hname hg hbreak
    (StartsIn.cons (by decide)))) fun x hx => ?_
  refine ItemsTake.next rfl (ItemTakes.once (takes_word rfl)) ?_
  refine ItemsTake.next rfl (ItemTakes.once (takes_gap hg' hsolid)) ?_
  refine ItemsTake.cons hargs fun y hy => ?_
  refine ItemsTake.next rfl (ItemTakes.once (takes_word rfl)) ?_
  refine ItemsTake.last (ItemTakes.once (takes_gap hg'' (hrest.widen (by decide)))) fun _ _ => ?_
  rcases hy with ⟨hy, hnil⟩ | ⟨z, hy, hz⟩
  · subst hnil
    exact hostMeant_constant_call rfl hx rfl hy
  · exact hostMeant_call rfl hx rfl hy hz

variable (hvisible : ∀ b, Value.boolWord b ∉ visible)

include hvisible

mutual

/-- **Host expressions are read as they are printed**, where no bound name stands for a constant. -/
theorem takes_host :
    ∀ (node : HostNode α) {position : Position} {linked : HostNode α} {t rest : Bytes},
      linkHost tables visible node position = .ok linked → HostPrinted node t → StartsIn hostEnds rest →
        BodyTakes (basis source) Nonterminal.host.body t rest (HostMeant scope node)
  | .ref name slot, position, linked, t, rest, hlink, h, hrest => by
    obtain ⟨hslot, hname, g, hg, ht⟩ := h
    subst hslot ht
    have hne : ∀ b, name ≠ Value.boolWord b := by
      intro b hb
      unfold linkHost at hlink
      split at hlink
      · next slot hfound =>
        rw [hb] at hfound
        exact hvisible b (List.mem_of_getElem? (getElem?_of_idxOf? hfound))
      · cases hlink
    rw [← hostOfName_of_ne hne]
    exact takes_hostName hname hg hrest
  | .const v, position, linked, t, rest, hlink, h, hrest => by
    obtain ⟨u, g, hu, hg, ht⟩ := h
    subst ht
    exact takes_constant hu hg hrest
  | .matched, position, linked, t, rest, hlink, h, hrest => by
    obtain ⟨g, hg, ht⟩ := h
    subst ht
    exact takes_hostMatch hg hrest
  | .native a, position, linked, t, rest, hlink, h, hrest => h.elim
  | .call name args constructs action, position, linked, t, rest, hlink, h, hrest => by
    obtain ⟨hconstructs, haction, hname, g, g', u, g'', hg, hg', hargs, hg'', ht⟩ := h
    subst hconstructs haction ht
    unfold linkHost at hlink
    obtain ⟨args', hlinkArgs, _⟩ := bind_eq_ok.mp hlink
    obtain ⟨hstart, hitem⟩ := takes_args args hlinkArgs hargs
    exact takes_hostCall hname hg hg' hg'' hstart hrest (hitem (Bytes.ascii ")" ++ g'' ++ rest)
      (StartsIn.cons List.mem_cons_self))
termination_by structural node => node

theorem takes_args :
    ∀ (args : List (Host α)) {linked : List (Host α)} {u : Bytes},
      linkArgs tables visible args = .ok linked → ArgsPrinted args u → StartsIn hostStarts u ∧
        ∀ rest, StartsIn (Bytes.ascii ")") rest →
          ItemTakes (basis source) (bound "args" 1 Nonterminal.hostArgs.body .optional) u rest
            (CallArgsMeant scope args)
  | [], linked, u, hlink, h => by
    have hu : u = [] := h
    subst hu
    refine ⟨StartsIn.nil, fun rest hrest frame => ?_⟩
    refine Takes.weaken (ItemTakes.absent (fails_of_refused hrest (by decide)) frame) ?_
    exact fun v hv => .inl ⟨hv, rfl⟩
  | ⟨node, position⟩ :: others, linked, u, hlink, h => by
    obtain ⟨v, w, hv, hw, hu⟩ := h
    subst hu
    unfold linkArgs at hlink
    obtain ⟨node', hnode, hlink⟩ := bind_eq_ok.mp hlink
    obtain ⟨others', hothers, _⟩ := bind_eq_ok.mp hlink
    obtain ⟨hcomma, hmore⟩ := repeats_args others hothers hw
    refine ⟨hv.startsIn.2.append_of_ne_nil hv.startsIn.1, fun rest hrest frame => ?_⟩
    have hends : StartsIn hostEnds (w ++ rest) :=
      (hcomma.widen (by decide)).append (hrest.widen (by decide))
    have hargs : BodyTakes (basis source) Nonterminal.hostArgs.body (v ++ w) rest
        (ArgsMeant scope (⟨node, position⟩ :: others)) := by
      refine takes_plain rfl (ExprTakes.first (SequenceTakes.record rfl ?_))
      refine ItemsTake.cons (ItemTakes.once (takes_host node hnode hv hends)) fun x hx => ?_
      refine ItemsTake.last (ItemTakes.star (reach_basis source) (hmore rest hrest)) fun y hy => ?_
      obtain ⟨xs, hxs, hall⟩ := hy
      exact ⟨_, _, _, _, x, y, xs, rfl, rfl, rfl, hx, rfl, hxs, hall⟩
    refine Takes.weaken (ItemTakes.present hargs frame) ?_
    exact fun v hv => .inr hv
termination_by structural args => args

theorem repeats_args :
    ∀ (args : List (Host α)) {linked : List (Host α)} {v : Bytes},
      linkArgs tables visible args = .ok linked → MoreArgsPrinted args v → StartsIn (Bytes.ascii ",") v ∧
        ∀ rest, StartsIn (Bytes.ascii ")") rest →
          Repeats (basis source) (.group [yielding [step (wordBody ","), step Nonterminal.gap.body,
            bound "arg" 0 Nonterminal.host.body] "arg"]) rest v
            (args.map fun arg => HostMeant scope arg.node)
  | [], linked, v, hlink, h => by
    have hv : v = [] := h
    subst hv
    exact ⟨StartsIn.nil, fun rest hrest => Repeats.stop (fails_of_refused hrest (by decide))⟩
  | ⟨node, position⟩ :: others, linked, v, hlink, h => by
    obtain ⟨g, u, w, hg, hu, hw, hv⟩ := h
    subst hv
    unfold linkArgs at hlink
    obtain ⟨node', hnode, hlink⟩ := bind_eq_ok.mp hlink
    obtain ⟨others', hothers, _⟩ := bind_eq_ok.mp hlink
    obtain ⟨hcomma, hmore⟩ := repeats_args others hothers hw
    refine ⟨StartsIn.cons List.mem_cons_self, fun rest hrest => ?_⟩
    have hends : StartsIn hostEnds (w ++ rest) :=
      (hcomma.widen (by decide)).append (hrest.widen (by decide))
    have hsolid : StartsIn solid (u ++ (w ++ rest)) :=
      (hu.startsIn.2.widen (by decide)).append_of_ne_nil hu.startsIn.1
    rw [← List.append_assoc g, ← List.append_assoc (Bytes.ascii ",")]
    refine Repeats.more (List.cons_ne_nil _ _) ?_ (hmore rest hrest)
    refine BodyTakes.group (ExprTakes.first (SequenceTakes.bound ?_))
    refine ItemsTake.next rfl (ItemTakes.once (takes_word rfl)) ?_
    refine ItemsTake.next rfl (ItemTakes.once (takes_gap hg hsolid)) ?_
    refine ItemsTake.last (ItemTakes.once (takes_host node hnode hu hends)) fun x hx => ?_
    exact ⟨x, rfl, hx⟩
termination_by structural args => args

end

end

/-! ## Code -/

theorem CodePrinted.startsIn {node : HostNode α} (h : CodePrinted node t) :
    t ≠ [] ∧ StartsIn (Bytes.ascii "\x7b") t := by
  obtain ⟨g, u, _, _, ht⟩ := h
  subst ht
  exact ⟨List.cons_ne_nil _ _, StartsIn.cons List.mem_cons_self⟩

section

variable {tables : NameTables} {visible : List Bytes} (hvisible : ∀ b, Value.boolWord b ∉ visible)
  {host : Host α} {position : Position} {linked : HostNode α}
  (hlink : linkHost tables visible host.node position = .ok linked)

include hvisible hlink

/-- Code in braces among the items of a sequence. -/
theorem takes_code (h : CodePrinted host.node t) (hg : Gap g) (hrest : StartsIn solid rest) :
    BodyTakes (basis source) Nonterminal.code.body (t ++ g) rest (BodyMeant scope (.code host)) := by
  obtain ⟨g', u, hg', hu, ht⟩ := h
  subst ht
  have hsolid : ∀ {back : Bytes}, StartsIn solid (u ++ back) := fun {back} =>
    (hu.startsIn.2.widen (by decide)).append_of_ne_nil hu.startsIn.1
  refine takes_record rfl rfl rfl ?_
  rw [List.append_assoc, List.append_assoc, List.append_assoc]
  refine ItemsTake.next rfl (ItemTakes.once (takes_word rfl)) ?_
  refine ItemsTake.next rfl (ItemTakes.once (takes_gap hg' ?_)) ?_
  · rw [List.append_assoc]
    exact hsolid
  refine ItemsTake.cons (Q := HostMeant scope host.node) (ItemTakes.once (takes_host hvisible host.node hlink hu
    (StartsIn.cons (by decide)))) fun x hx => ?_
  refine ItemsTake.next rfl (ItemTakes.once (takes_word rfl)) ?_
  refine ItemsTake.last (ItemTakes.once (takes_gap hg hrest)) fun _ _ => ?_
  exact bodyMeant_code rfl hx

/-- Code in braces in a literal. -/
theorem takes_interpolation (h : CodePrinted host.node t) :
    BodyTakes (basis source) Nonterminal.interpolation.body t rest (PartMeant scope (.code host)) := by
  obtain ⟨g', u, hg', hu, ht⟩ := h
  subst ht
  have hsolid : ∀ {back : Bytes}, StartsIn solid (u ++ back) := fun {back} =>
    (hu.startsIn.2.widen (by decide)).append_of_ne_nil hu.startsIn.1
  refine takes_record rfl rfl rfl ?_
  refine ItemsTake.next rfl (ItemTakes.once (takes_word rfl)) ?_
  refine ItemsTake.next rfl (ItemTakes.once (takes_gap hg' ?_)) ?_
  · rw [List.append_assoc]
    exact hsolid
  refine ItemsTake.cons (Q := HostMeant scope host.node) (ItemTakes.once (takes_host hvisible host.node hlink hu
    (StartsIn.cons (by decide)))) fun x hx => ?_
  refine ItemsTake.last (ItemTakes.once (takes_word rfl)) fun _ _ => ?_
  exact ⟨_, x, rfl, rfl, hx⟩

end

end Packrat.Source
