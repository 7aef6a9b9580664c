import Packrat.Proofs.Course
import Packrat.Proofs.Json.Rules
import Packrat.Proofs.Json.Tree

/-!
# `Packrat.Proofs.Json.Reading` — the JSON grammar reads tokens

Every token of the concrete syntax is taken by the rule for it, with the white space behind it, and its value is the
tree of what it denotes. How many calls that nests is known exactly, so that a text is refused for its depth or read,
and nothing else.

## Contents
- **Depth.** `Concrete.depth`: how many calls inside each other a tree needs.
- **Order.** The calls at one offset come in an order of the rules.
- **White space, strings, numbers, words.** What the rules for tokens read.
-/

namespace Packrat.Json

open Source (StartsIn Encodes bytesFrom decimalDigits)

/-! ## Depth -/

/-- How many calls the rule for a character nests. -/
def Glyph.depth : Glyph → Nat
  | plain _ => 1
  | short _ => 2
  | code _ => 3

/-- How many calls the deepest character of a string nests; the call behind the last character counts. -/
def deepest : List Glyph → Nat
  | [] => 1
  | g :: rest => max g.depth (deepest rest)

/-- How many calls a part nests whose value nests `n`. -/
def partDepth : Option Name → Nat → Nat
  | none, n => n
  | some name, n => max (deepest name.glyphs + 1) n + 1

namespace Concrete

mutual

/-- How many calls the rule for values nests. -/
def depth : Concrete → Nat
  | keyword _ _ => 3
  | number _ _ => 3
  | string glyphs _ => deepest glyphs + 2
  | container _ _ parts _ => max 2 (depthOfParts parts) + 2
termination_by structural c => c

/-- How many calls the deepest of some parts nests. -/
def depthOfParts : List (Part Concrete) → Nat
  | [] => 0
  | ⟨_, name, value⟩ :: rest => max (partDepth name value.depth) (depthOfParts rest)
termination_by structural parts => parts

end

end Concrete

theorem one_le_deepest (glyphs : List Glyph) : 1 ≤ deepest glyphs := by
  induction glyphs with
  | nil => exact Nat.le_refl 1
  | cons g rest ih => exact Nat.le_trans ih (Nat.le_max_right _ _)

theorem three_le_depth (c : Concrete) : 3 ≤ c.depth := by
  cases c with
  | keyword word after => exact Nat.le_refl 3
  | number spelling after => exact Nat.le_refl 3
  | string glyphs after => exact Nat.add_le_add_right (one_le_deepest glyphs) 2
  | container kind opening parts after =>
    show 3 ≤ max 2 (Concrete.depthOfParts parts) + 2
    omega

theorem three_le_partDepth (name : Option Name) (c : Concrete) : 3 ≤ partDepth name c.depth := by
  have hvalue := three_le_depth c
  cases name with
  | none => exact hvalue
  | some name =>
    show 3 ≤ max (deepest name.glyphs + 1) c.depth + 1
    omega

/-! ## Order -/

namespace Symbol

/-- The order of the calls at one offset. -/
def rank : Symbol → Nat
  | text => 0
  | blanks => 0
  | value => 1
  | object => 2
  | array => 3
  | member => 4
  | string => 5
  | number => 6
  | keyword => 7
  | char => 8
  | escape => 9
  | hex => 10

end Symbol

/-- The evaluation of a rule of the grammar on an input. -/
abbrev course (input : Bytes) : Course JsonAction Unit :=
  parseCourse grammar client input (Env.fresh ()) fun i => (Symbol.all.map Symbol.rank).getD i 0

theorem course_plain (input : Bytes) : (course input).Plain := ⟨fun _ => rfl, rfl⟩

section Reading

variable {input t u rest text blanks : Bytes} {n r r' : Nat} {s : Symbol} {e : Ending (Spanned Value)}
  {P : Value → Prop}

theorem rank_place (s : Symbol) : (course input).rank s.place = s.rank := by cases s <;> rfl

theorem length_lt_cons (b : UInt8) (t rest : Bytes) : rest.length < (b :: (t ++ rest)).length := by
  rw [List.length_cons, List.length_append]
  omega

/-- A rule ends as its alternatives do, one level deeper. -/
theorem goes_rule (hr : r ≤ s.rank) (hbehind : e.Behind text s.rank)
    (h : ExprGoes (course input) n s.alternatives text s.rank e) :
    RuleGoes (course input) (n + 1) s.place text r e := by
  have hrank : (course input).rank s.place = s.rank := rank_place s
  rw [← hrank] at hr hbehind h
  exact RuleGoes.body (course_plain input) (rule_at s) rfl rfl hr hbehind h

theorem goes_body (h : RuleGoes (course input) n s.place text r e) : BodyGoes (course input) n s.body text r e :=
  BodyGoes.call (rule_at s) h

/-- Alternatives that are refused without a call are passed over. -/
theorem skip {set : Bytes} (refused : Expr JsonAction) {others : Expr JsonAction} (htext : StartsIn set text)
    (hrefused : (set.all (· < 0x80) && (none :: set.map fun b => some b.toNat).all fun front =>
      refused.all (refusesSequence (fun _ => false) front)) = true)
    (h : ExprGoes (course input) n others text r e) :
    ExprGoes (course input) n (refused ++ others) text r e := by
  induction refused with
  | nil => exact h
  | cons seq rest ih =>
    simp only [List.all_cons (f := refusesSequence _ _), Bool.and_eq_true,
      List.all_eq_true (p := fun front => refusesSequence _ front seq && _)] at hrefused
    have hseq : SequenceGoes (course input) 0 seq text r (.fails text r) := by
      refine SequenceGoes.refused (course_plain input) htext ?_
      rw [Bool.and_eq_true, List.all_eq_true (p := fun front => refusesSequence _ front seq)]
      exact ⟨hrefused.1, fun front hfront => (hrefused.2 front hfront).1⟩
    rw [← Nat.zero_max n]
    refine ExprGoes.later hseq (ih ?_)
    rw [Bool.and_eq_true, List.all_eq_true (p := fun front => List.all rest _)]
    exact ⟨hrefused.1, fun front hfront => (hrefused.2 front hfront).2⟩

/-- A rule that is refused without a call fails. -/
theorem goes_refused {set : Bytes} (s : Symbol) (hr : r ≤ s.rank) (htext : StartsIn set text)
    (hrefused : (set.all (· < 0x80) && (none :: set.map fun b => some b.toNat).all fun front =>
      refusesExpr (fun _ => false) front s.alternatives) = true) :
    BodyGoes (course input) 1 s.body text r (.fails text (s.rank + 1)) := by
  have hrule : RuleGoes (course input) 1 s.place text r (.fails text ((course input).rank s.place + 1)) :=
    RuleGoes.refused (course_plain input) (rule_at s) rfl rfl (hr.trans_eq (rank_place s).symm) htext hrefused
  rw [rank_place] at hrule
  exact goes_body hrule

/-! ## White space -/

/-- The bytes that tokens start with. -/
def solidBytes : Bytes := Bytes.ascii "\"[\x7b-0123456789tfn,:]\x7d"

/-- White space is skipped up to the next token. -/
theorem goes_blanks (hblanks : Blank blanks) (hrest : StartsIn solidBytes rest) :
    RuleGoes (course input) 1 Symbol.blanks.place (blanks ++ rest) 0 (.takes rest 1 fun _ => True) := by
  have hw := course_plain input
  refine goes_rule (Nat.le_refl 0) ?_ ?_
  · cases blanks with
    | nil => exact .inr ⟨rfl, Nat.zero_lt_one⟩
    | cons b blanks => exact .inl (length_lt_cons b blanks rest)
  · refine ExprGoes.first (SequenceGoes.matched (R := fun _ => True) rfl ?_ trivial)
    have hstop : BodyGoes (course input) 0 (.cls blankClass) rest 0 (.fails rest 0) :=
      BodyGoes.refused hw hrest (by decide +kernel)
    have hloop := LoopGoes.bytes hblanks hstop (by decide +kernel)
    exact ItemsGo.cons (ItemGoes.star hw hloop) fun _ _ => ItemsGo.nil (Nat.zero_le 1) trivial

/-- White space in a sequence. -/
theorem item_blanks (hblanks : Blank blanks) (hrest : StartsIn solidBytes rest) :
    ItemGoes (course input) 1 (step Symbol.blanks.body) (blanks ++ rest) 0 (.takes rest 1 fun _ => True) :=
  ItemGoes.once (goes_body (goes_blanks hblanks hrest))

/-! ## Strings -/

theorem goes_hex {d : UInt8} (hd : (hexDigit? d).isSome = true) (hr : r ≤ 10) :
    RuleGoes (course input) 1 Symbol.hex.place (d :: rest) r (.takes rest 0 fun _ => True) := by
  refine goes_rule hr (.inl (length_lt_cons d [] rest)) (ExprGoes.first ?_)
  refine SequenceGoes.matched (t := [d]) (R := fun _ => True) rfl ?_ trivial
  refine ItemsGo.cons (n := 0) (j := 0) (ItemGoes.once (BodyGoes.byte (Source.mem_hexBytes hd) (by decide))) ?_
  exact fun _ _ => ItemsGo.nil (Nat.le_refl 0) trivial

/-- The action on four digits yields the character of their code point. -/
theorem gives_codepoint {frame : Frame} {stop : Nat} {x : Spanned Value} {digits : Bytes}
    (hx : frame.slots[0]? = some x) (hdigits : x.value = .text digits) :
    HostGives (course input) frame stop (acting "codepoint" [slotRef "h" 0] 5).node
      (.ok (.text (Utf8.encode (hexNumber digits)))) := by
  refine HostGives.calls (ArgsGive.ref hx ArgsGive.nil) rfl ?_
  obtain ⟨v, start, stop⟩ := x
  simp only at hdigits
  subst hdigits
  rfl

/-- An escape is read up to its last letter or digit. -/
theorem goes_code {digits : Bytes} (h : (Glyph.code digits).Valid) (hr : r ≤ 9) :
    RuleGoes (course input) 2 Symbol.escape.place (Bytes.char 'u' :: (digits ++ rest)) r
      (.takes rest 0 (·.value = .text (Utf8.encode (hexNumber digits)))) := by
  obtain ⟨hlength, hdigits⟩ := h
  obtain ⟨a, b, c, d, rfl⟩ : ∃ a b c d, digits = [a, b, c, d] := by
    match digits, hlength with
    | [a, b, c, d], _ => exact ⟨a, b, c, d, rfl⟩
  have hhex : ∀ {x more s}, x ∈ [a, b, c, d] → s ≤ 10 → ItemGoes (course input) 1 (step Symbol.hex.body) (x :: more) s
      (.takes more 0 fun _ => True) := fun hx hs => ItemGoes.once (goes_body (goes_hex (hdigits _ hx) hs))
  refine goes_rule hr (.inl (length_lt_cons _ [a, b, c, d] rest)) (ExprGoes.first (SequenceGoes.acts
    (R := fun x => ∃ y, x.1 = [y] ∧ y.value = .text [a, b, c, d]) ?_ ?_))
  · refine ItemsGo.cons (n := 0) (j := 1) (ItemGoes.once (BodyGoes.word (t := [Bytes.char 'u']) (by decide))) fun _ _ => ?_
    have hwhole : ∀ {items : List (Item (Body JsonAction))}, passesOn items = false →
        ItemsGo (course input) 1 items [] default ([a, b, c, d] ++ rest) 0 (.takes rest 0 fun _ => True) →
        BodyGoes (course input) 1 (.group [plain items]) ([a, b, c, d] ++ rest) 0
          (.takes rest 0 (·.value = .text [a, b, c, d])) := fun hpasses hitems =>
      BodyGoes.group (ExprGoes.first (SequenceGoes.matched hpasses hitems rfl))
    refine ItemsGo.cons (n := 1) (j := 0) (ItemGoes.once (hwhole rfl ?_)) fun x hx =>
      ItemsGo.nil (Nat.le_refl 0) ⟨x, rfl, hx⟩
    refine ItemsGo.cons (n := 1) (j := 1) (hhex (by simp) (Nat.zero_le _)) fun _ _ => ?_
    refine ItemsGo.cons (n := 1) (j := 1) (hhex (by simp) (Nat.zero_le _)) fun _ _ => ?_
    refine ItemsGo.cons (n := 1) (j := 1) (hhex (by simp) (Nat.zero_le _)) fun _ _ => ?_
    refine ItemsGo.cons (n := 1) (j := 0) (hhex (by simp) (Nat.zero_le _)) fun _ _ => ?_
    exact ItemsGo.nil (Nat.le_refl 0) trivial
  · rintro ⟨slots, last⟩ ⟨y, rfl, hy⟩
    exact ⟨_, gives_codepoint rfl hy, rfl⟩

/-- A short escape is read as the byte of its letter. -/
theorem goes_short {letter : UInt8} (h : (Glyph.short letter).Valid) (hr : r ≤ 9) :
    RuleGoes (course input) 1 Symbol.escape.place (letter :: rest) r
      (.takes rest 0 (·.value = .text [unescaped letter])) := by
  refine goes_rule hr (.inl (length_lt_cons letter [] rest)) ?_
  have hconstant : ∀ (spelling : String) (byte : UInt8),
      (word spelling).spells [letter] = true → SequenceGoes (course input) 0 (shortEscape spelling byte)
        (letter :: rest) 9 (.takes rest 0 (·.value = .text [byte])) := by
    intro spelling byte hspells
    refine SequenceGoes.acts (R := fun _ => True) ?_ fun x _ => ⟨_, fun p _ => rfl, rfl⟩
    refine ItemsGo.cons (n := 0) (j := 0) (ItemGoes.once (BodyGoes.word (t := [letter]) hspells)) fun _ _ => ?_
    exact ItemsGo.nil (Nat.le_refl 0) trivial
  have hself : letter ∈ Bytes.ascii "\"\\/" → SequenceGoes (course input) 0
      (acts [bound "c" 0 (.cls escapedClass)] ["c"] (slotRef "c" 0)) (letter :: rest) 9
        (.takes rest 0 (·.value = .text [letter])) := by
    intro hletter
    refine SequenceGoes.acts (R := fun x => ∃ y, x.1 = [y] ∧ y.value = .text [letter]) ?_ ?_
    · refine ItemsGo.cons (n := 0) (j := 0) (ItemGoes.once (BodyGoes.byte hletter (by decide))) fun x hx => ?_
      exact ItemsGo.nil (Nat.le_refl 0) ⟨x, rfl, by rw [hx]⟩
    · rintro ⟨slots, last⟩ ⟨y, rfl, hy⟩
      exact ⟨_, HostGives.ref rfl, hy⟩
  have hhere : StartsIn [letter] (letter :: rest) := StartsIn.cons List.mem_cons_self
  have hletters : letter ∈ [0x22, 0x5C, 0x2F, 0x62, 0x66, 0x6E, 0x72, 0x74] := h
  simp only [List.mem_cons, List.not_mem_nil, or_false] at hletters
  -- the alternatives in front of that of the letter are refused
  rcases hletters with rfl | rfl | rfl | rfl | rfl | rfl | rfl | rfl
  · exact skip (Symbol.escape.alternatives.take 6) hhere (by decide) (ExprGoes.first (hself (by decide)))
  · exact skip (Symbol.escape.alternatives.take 6) hhere (by decide) (ExprGoes.first (hself (by decide)))
  · exact skip (Symbol.escape.alternatives.take 6) hhere (by decide) (ExprGoes.first (hself (by decide)))
  · exact skip (Symbol.escape.alternatives.take 1) hhere (by decide) (ExprGoes.first (hconstant "b" 0x08 (by decide)))
  · exact skip (Symbol.escape.alternatives.take 2) hhere (by decide) (ExprGoes.first (hconstant "f" 0x0C (by decide)))
  · exact skip (Symbol.escape.alternatives.take 3) hhere (by decide) (ExprGoes.first (hconstant "n" 0x0A (by decide)))
  · exact skip (Symbol.escape.alternatives.take 4) hhere (by decide) (ExprGoes.first (hconstant "r" 0x0D (by decide)))
  · exact skip (Symbol.escape.alternatives.take 5) hhere (by decide) (ExprGoes.first (hconstant "t" 0x09 (by decide)))

theorem encodes_encode {a : Rune} (h : a.isScalar = true) : Encodes (Utf8.encode a) a := by
  have hdecode := (Utf8.shortest_encode h).decode_append []
  rw [List.append_nil] at hdecode
  exact hdecode

/-- The characters that stand for themselves belong to their class. -/
theorem plainClass_contains {a : Rune} (h : (Glyph.plain a).Valid) : plainClass.contains a = true := by
  obtain ⟨-, hcontrol, hquote, hbackslash⟩ := h
  have hranges : ∀ a : Nat, 0x20 ≤ a → a ≠ 0x22 → a ≠ 0x5C →
      (¬0x22 ≤ a ∨ ¬a ≤ 0x22) ∧ (¬0x5C ≤ a ∨ ¬a ≤ 0x5C) ∧ (¬0 ≤ a ∨ ¬a ≤ 0x1F) ∧ True :=
    fun a _ _ _ => ⟨by omega, by omega, by omega, trivial⟩
  have hcovers : plainClass.covers a = false := by
    simp only [CharClass.covers, plainClass, List.any_cons, List.any_nil, RuneRange.contains, Bool.or_eq_false_iff,
      Bool.and_eq_false_iff, decide_eq_false_iff_not]
    exact hranges a hcontrol hquote hbackslash
  simp only [CharClass.contains, hcovers]
  rfl

/-- An action behind a backslash or a character that stands for itself passes its value on. -/
theorem goes_bound {name : String} {body : Body JsonAction} {v : Value}
    (h : BodyGoes (course input) n body text r (.takes rest r' (·.value = v))) :
    ItemsGo (course input) n [bound name 0 body] [default] default text r
      (.takes rest r' fun x => ∃ y, x.1 = [y] ∧ y.value = v) := by
  rw [← Nat.max_zero n]
  exact ItemsGo.cons (ItemGoes.once h) fun x hx => ItemsGo.nil (Nat.le_refl _) ⟨x, rfl, hx⟩

/-- A character is read as the bytes that it denotes. -/
theorem goes_glyph {g : Glyph} (h : g.Valid) (hr : r ≤ 8) :
    RuleGoes (course input) g.depth Symbol.char.place (g.text ++ rest) r
      (.takes rest 0 (·.value = .text g.denotes)) := by
  -- what stands behind a backslash
  have hescape : ∀ {m t v}, RuleGoes (course input) m Symbol.escape.place (t ++ rest) 0
      (.takes rest 0 (·.value = .text v)) → RuleGoes (course input) (m + 1) Symbol.char.place
        (Bytes.char '\\' :: (t ++ rest)) r (.takes rest 0 (·.value = .text v)) := by
    intro m t v hrule
    refine goes_rule hr (.inl (length_lt_cons _ t rest)) (ExprGoes.first ?_)
    refine SequenceGoes.acts (R := fun x => ∃ y, x.1 = [y] ∧ y.value = .text v) ?_ ?_
    · rw [← Nat.zero_max m]
      refine ItemsGo.cons (ItemGoes.once (BodyGoes.word (t := [Bytes.char '\\']) (by decide))) fun _ _ => ?_
      exact goes_bound (goes_body hrule)
    · rintro ⟨slots, last⟩ ⟨y, rfl, hy⟩
      exact ⟨_, HostGives.ref rfl, hy⟩
  cases g with
  | short letter => exact hescape (t := [letter]) (goes_short h (Nat.zero_le _))
  | code digits => exact hescape (t := Bytes.char 'u' :: digits) (goes_code h (Nat.zero_le _))
  | plain a =>
    have hu : Encodes (Utf8.encode a) a := encodes_encode h.1
    have hlt : rest.length < (Utf8.encode a ++ rest).length := by
      have hpos := List.length_pos_iff.mpr hu.ne_nil
      rw [List.length_append]
      omega
    refine goes_rule hr (.inl hlt) ?_
    have hclass : BodyGoes (course input) 0 (.cls plainClass) (Utf8.encode a ++ rest) 8
        (.takes rest 0 (·.value = .text (Utf8.encode a))) :=
      fun frame => (BodyGoes.rune hu (plainClass_contains h) frame).weaken (Nat.le_refl 0) fun x hx => by rw [hx]
    -- no backslash stands here
    have hother : SequenceGoes (course input) 0 (acts [step (word "\\\\"), bound "e" 0 Symbol.escape.body] ["e"]
        (slotRef "e" 0)) (Utf8.encode a ++ rest) 8 (.fails (Utf8.encode a ++ rest) 8) := by
      refine SequenceGoes.fails (ItemsGo.fails (ItemGoes.once (BodyGoes.terminal_fails rfl ?_)))
      have hdiffer : Terminal.agree false a 0x5C = false := by
        rw [Terminal.agree]
        exact beq_false_of_ne h.2.2.2
      show Terminal.runes? false [0x5C] (Utf8.encode a ++ rest) = none
      simp only [Terminal.runes?, hu.rune? rest, hdiffer]
      rfl
    refine ExprGoes.later (n := 0) (j := 0) hother (ExprGoes.first (SequenceGoes.acts (goes_bound hclass) ?_))
    rintro ⟨slots, last⟩ ⟨y, rfl, hy⟩
    exact ⟨_, HostGives.ref rfl, hy⟩

/-- Values are the texts that characters denote, one by one. -/
def Denote (glyphs : List Glyph) (xs : List (Spanned Value)) : Prop :=
  xs.map (·.value) = glyphs.map fun g => .text g.denotes

theorem Glyph.text_ne_nil {g : Glyph} (h : g.Valid) : g.text ≠ [] := by
  cases g with
  | plain a => exact (encodes_encode h.1).ne_nil
  | short letter => exact List.cons_ne_nil _ _
  | code digits => exact List.cons_ne_nil _ _

/-- The characters of a string are read up to its closing quote. -/
theorem loop_glyphs {glyphs : List Glyph} (h : ∀ g ∈ glyphs, g.Valid) (hr : r ≤ 8) :
    LoopGoes (course input) (deepest glyphs) Symbol.char.body (spelled glyphs ++ Bytes.char '"' :: rest) r
      (.takes (Bytes.char '"' :: rest) 9 (Denote glyphs)) := by
  induction glyphs generalizing r with
  | nil =>
    have hquote : BodyGoes (course input) 1 Symbol.char.body (Bytes.char '"' :: rest) r
        (.fails (Bytes.char '"' :: rest) 9) :=
      goes_refused .char hr (show StartsIn (Bytes.ascii "\"") _ from StartsIn.cons (by decide)) (by decide)
    refine (LoopGoes.stop hquote).weaken fun xs hxs => ?_
    rw [hxs]
    rfl
  | cons g glyphs ih =>
    rw [List.forall_mem_cons] at h
    have hlt : (spelled glyphs ++ Bytes.char '"' :: rest).length <
        (g.text ++ (spelled glyphs ++ Bytes.char '"' :: rest)).length := by
      have hpos := List.length_pos_iff.mpr (Glyph.text_ne_nil h.1)
      simp only [List.length_append]
      omega
    have hglyph : BodyGoes (course input) g.depth Symbol.char.body
        (g.text ++ (spelled glyphs ++ Bytes.char '"' :: rest)) r (.takes _ 0 _) := goes_body (goes_glyph h.1 hr)
    have hmore := LoopGoes.more hlt hglyph (ih h.2 (Nat.zero_le _))
    unfold spelled at hmore ⊢
    rw [List.flatMap_cons, List.append_assoc]
    refine hmore.weaken ?_
    rintro xs ⟨x, others, rfl, hx, hothers⟩
    unfold Denote at hothers ⊢
    rw [List.map_cons, List.map_cons, hx, hothers]

/-- The text of the values of characters. -/
theorem elementsToText_denote {glyphs : List Glyph} {xs : List (Spanned Value)} (h : Denote glyphs xs) :
    Value.elementsToText xs = denoted glyphs := by
  induction glyphs generalizing xs with
  | nil =>
    rw [List.map_eq_nil_iff.mp h]
    rfl
  | cons g glyphs ih =>
    cases xs with
    | nil => cases h
    | cons x xs =>
      obtain ⟨v, start, stop⟩ := x
      unfold Denote at h
      rw [List.map_cons, List.map_cons, List.cons.injEq] at h
      obtain ⟨rfl, h⟩ := h
      rw [Value.elementsToText, ih h]
      rfl

/-- A string is read with the white space behind it. -/
theorem goes_string {glyphs : List Glyph} {after : Bytes} (h : ∀ g ∈ glyphs, g.Valid) (hafter : Blank after)
    (hrest : StartsIn solidBytes rest) (hr : r ≤ 5) :
    RuleGoes (course input) (deepest glyphs + 1) Symbol.string.place (quoted glyphs ++ (after ++ rest)) r
      (.takes rest 1 (·.value = .text (denoted glyphs))) := by
  have hw := course_plain input
  have htext : quoted glyphs ++ (after ++ rest) =
      Bytes.char '"' :: (spelled glyphs ++ Bytes.char '"' :: (after ++ rest)) := by
    simp only [quoted, List.cons_append, List.append_assoc]
    rfl
  have hdeepest := one_le_deepest glyphs
  have hcost : deepest glyphs = max 0 (max (deepest glyphs) (max 0 (max 1 0))) := by omega
  have hlt : rest.length < (Bytes.char '"' :: (spelled glyphs ++ Bytes.char '"' :: (after ++ rest))).length := by
    simp only [List.length_cons, List.length_append]
    omega
  rw [htext]
  refine goes_rule hr (.inl hlt) ?_
  rw [hcost]
  refine ExprGoes.first (SequenceGoes.acts (R := fun x => ∃ y, x.1 = [y] ∧ Lists (Denote glyphs) y) ?_ ?_)
  · refine ItemsGo.cons (ItemGoes.once (BodyGoes.word (t := [Bytes.char '"']) (by decide))) fun _ _ => ?_
    refine ItemsGo.cons (ItemGoes.star hw (loop_glyphs h (Nat.zero_le 8))) fun x hx => ?_
    refine ItemsGo.cons (ItemGoes.once (BodyGoes.word (t := [Bytes.char '"']) (by decide))) fun _ _ => ?_
    exact ItemsGo.cons (item_blanks hafter hrest) fun _ _ => ItemsGo.nil (Nat.le_refl 1) ⟨x, rfl, hx⟩
  · rintro ⟨slots, last⟩ ⟨y, rfl, xs, hy, hxs⟩
    refine ⟨_, HostGives.builtin (b := .text) (ArgsGive.ref rfl ArgsGive.nil) rfl fun ctx hctx => ?_, rfl⟩
    have htext : y.value.toText = denoted glyphs := by rw [hy, Value.toText, elementsToText_denote hxs]
    simp [Builtin.run, hctx, htext]

/-! ## Numbers and words -/

/-- The bytes that may stand behind a value. -/
def followBytes : Bytes := Bytes.ascii ",]\x7d"

/-- The bytes that may stand behind the digits of a fraction. -/
def digitsEnd : Bytes := Bytes.ascii "eE" ++ (blankBytes ++ followBytes)

/-- The bytes that may stand behind the integer part of a number. -/
def intEnd : Bytes := Bytes.ascii "." ++ digitsEnd

/-- An optional terminal that stands here. -/
theorem item_present {body : Body JsonAction} {Q : Spanned Value → Prop}
    (h : BodyGoes (course input) n body text r (.takes rest 0 Q)) :
    ItemGoes (course input) n (step body .optional) text r (.takes rest 0 fun _ => True) := by
  exact fun frame => (ItemGoes.present h frame).weaken (Nat.le_refl 0) fun _ _ => trivial

/-- An optional group of items without names. -/
theorem item_optional {items : List (Item (Body JsonAction))} (hpasses : passesOn items = false)
    (h : ItemsGo (course input) n items [] default (t ++ rest) r (.takes rest 0 fun _ => True)) :
    ItemGoes (course input) n (step (.group [plain items]) .optional) (t ++ rest) r (.takes rest 0 fun _ => True) :=
  item_present (Q := fun _ => True) (BodyGoes.group (ExprGoes.first (SequenceGoes.matched hpasses h trivial)))

/-- It is absent before the bytes that it refuses. -/
theorem item_absent {set : Bytes} {body : Body JsonAction} (htext : StartsIn set text)
    (hbody : (set.all (· < 0x80) && (none :: set.map fun b => some b.toNat).all fun front =>
      refusesBody (fun _ => false) front body) = true) :
    ItemGoes (course input) 0 (step body .optional) text r (.takes text r fun _ => True) := by
  have hrefused := BodyGoes.refused (course_plain input) (r := r) htext hbody
  exact fun frame => (ItemGoes.absent hrefused frame).weaken (Nat.le_refl r) fun _ _ => trivial

/-- An optional minus. -/
theorem item_minus {minus : Bytes} (h : minus = [] ∨ minus = Bytes.ascii "-")
    (hrest : StartsIn decimalDigits rest) :
    ItemGoes (course input) 0 (step (word "-") .optional) (minus ++ rest) r (.takes rest r fun _ => True) := by
  rcases h with rfl | rfl
  · exact item_absent hrest (by decide)
  · have hword : BodyGoes (course input) 0 (word "-") (Bytes.ascii "-" ++ rest) r
        (.takes rest r fun _ => True) := fun frame =>
      (BodyGoes.word (by decide) frame).weaken (Nat.zero_le r) fun _ _ => trivial
    exact fun frame => (ItemGoes.present hword frame).weaken (Nat.le_refl r) fun _ _ => trivial

/-- The integer part of a number. -/
theorem item_integer {int : Bytes} (h : IsInteger int) (hrest : StartsIn intEnd rest) :
    ItemGoes (course input) 0 (step (.group [plain [step (word "0")],
      plain [step (.cls nonzeroClass), step (.cls digitClass) .star]])) (int ++ rest) r
        (.takes rest 0 fun _ => True) := by
  have hw := course_plain input
  refine ItemGoes.once (BodyGoes.group ?_)
  rcases h with rfl | ⟨d, ds, hd, hds, rfl⟩
  · refine ExprGoes.first (SequenceGoes.matched (R := fun _ => True) rfl ?_ trivial)
    exact ItemsGo.cons (n := 0) (j := 0) (ItemGoes.once (BodyGoes.word (by decide))) fun _ _ => ItemsGo.nil (Nat.le_refl 0) trivial
  · have hzero : StartsIn (bytesFrom '1' '9') (d :: ds ++ rest) := StartsIn.cons hd
    refine ExprGoes.later (n := 0) (j := 0) (SequenceGoes.refused hw hzero (by decide)) (ExprGoes.first ?_)
    refine SequenceGoes.matched (R := fun _ => True) rfl ?_ trivial
    refine ItemsGo.cons (n := 0) (j := 0) (ItemGoes.once (BodyGoes.byte hd (by decide))) fun _ _ => ?_
    have hloop := LoopGoes.bytes (w := course input) (k := digitClass) hds (BodyGoes.refused hw hrest (by decide)) (by decide)
    exact ItemsGo.cons (n := 0) (j := 0) (ItemGoes.star hw hloop) fun _ _ => ItemsGo.nil (Nat.le_refl 0) trivial

/-- A run of digits that is not empty. -/
theorem item_digits {ds : Bytes} (hne : ds ≠ []) (hds : Digits ds)
    (hrest : StartsIn digitsEnd rest) :
    ItemGoes (course input) 0 (step (.cls digitClass) .plus) (ds ++ rest) r (.takes rest 0 fun _ => True) := by
  have hw := course_plain input
  cases ds with
  | nil => exact absurd rfl hne
  | cons d ds =>
    have hd : d ∈ decimalDigits := hds d List.mem_cons_self
    have hloop := LoopGoes.bytes (w := course input) (k := digitClass)
      (fun b hb => hds b (List.mem_cons_of_mem d hb)) (BodyGoes.refused hw hrest (by decide)) (by decide)
    have hfirst : BodyGoes (course input) 0 (.cls digitClass) (d :: (ds ++ rest)) r (.takes (ds ++ rest) 0 _) :=
      BodyGoes.byte hd (by decide)
    exact fun frame => (ItemGoes.plus hw hfirst hloop frame).weaken (Nat.le_refl 0) fun _ _ => trivial

/-- The fraction of a number. -/
theorem item_fraction {fraction : Bytes} (h : IsFraction fraction) (hrest : StartsIn digitsEnd rest) :
    ItemGoes (course input) 0 (step (.group [plain [step (word "."), step (.cls digitClass) .plus]]) .optional)
      (fraction ++ rest) 0 (.takes rest 0 fun _ => True) := by
  rcases h with rfl | ⟨ds, hne, hds, rfl⟩
  · exact item_absent hrest (by decide)
  · refine item_optional (n := 0) rfl ?_
    refine ItemsGo.cons (n := 0) (j := 0) (ItemGoes.once (BodyGoes.word (t := Bytes.ascii ".") (by decide))) fun _ _ => ?_
    exact ItemsGo.cons (n := 0) (j := 0) (item_digits hne hds hrest) fun _ _ => ItemsGo.nil (Nat.le_refl 0) trivial

/-- The exponent of a number. -/
theorem item_exponent {exponent : Bytes} (h : IsExponent exponent)
    (hrest : StartsIn (blankBytes ++ followBytes) rest) :
    ItemGoes (course input) 0 (step (.group [plain [step (.cls exponentClass), step (.cls signClass) .optional,
      step (.cls digitClass) .plus]]) .optional) (exponent ++ rest) 0 (.takes rest 0 fun _ => True) := by
  rcases h with rfl | ⟨e, sign, ds, he, hsign, hne, hds, rfl⟩
  · exact item_absent hrest (by decide)
  · have htext : sign ++ ds ++ rest = sign ++ (ds ++ rest) := List.append_assoc ..
    have hdigits : StartsIn decimalDigits (ds ++ rest) :=
      StartsIn.append_of_ne_nil (fun b hb => hds b (List.mem_of_head? hb)) hne
    have hsign' : ItemGoes (course input) 0 (step (.cls signClass) .optional) (sign ++ ds ++ rest) 0
        (.takes (ds ++ rest) 0 fun _ => True) := by
      rw [htext]
      rcases hsign with rfl | ⟨s, hs, rfl⟩
      · exact item_absent hdigits (by decide)
      · exact item_present (BodyGoes.byte hs (by decide))
    refine item_optional (n := 0) rfl (ItemsGo.cons (n := 0) (j := 0) (ItemGoes.once (BodyGoes.byte he (by decide))) fun _ _ => ?_)
    refine ItemsGo.cons (n := 0) (j := 0) hsign' fun _ _ => ?_
    exact ItemsGo.cons (n := 0) (j := 0) (item_digits hne hds (hrest.widen (by decide))) fun _ _ =>
      ItemsGo.nil (Nat.le_refl 0) trivial

theorem IsInteger.starts {int : Bytes} (h : IsInteger int) : int ≠ [] ∧ StartsIn decimalDigits int := by
  rcases h with rfl | ⟨d, ds, hd, -, rfl⟩
  · exact ⟨by decide, StartsIn.cons (by decide)⟩
  · have hd' : StartsIn (bytesFrom '1' '9') (d :: ds) := StartsIn.cons hd
    exact ⟨List.cons_ne_nil _ _, hd'.widen (by decide)⟩

theorem IsFraction.starts {fraction : Bytes} (h : IsFraction fraction) : StartsIn intEnd fraction := by
  rcases h with rfl | ⟨ds, -, -, rfl⟩
  · exact StartsIn.nil
  · exact StartsIn.cons (by decide)

theorem IsExponent.starts {exponent : Bytes} (h : IsExponent exponent) : StartsIn digitsEnd exponent := by
  rcases h with rfl | ⟨e, sign, ds, he, -, -, -, rfl⟩
  · exact StartsIn.nil
  · exact StartsIn.cons (List.mem_append_left _ he)

/-- The digits of a number are read as its spelling. -/
theorem goes_numeral {spelling : Bytes} (h : IsNumber spelling)
    (hrest : StartsIn (blankBytes ++ followBytes) rest) :
    BodyGoes (course input) 0 numeral (spelling ++ rest) r (.takes rest 0 (·.value = .text spelling)) := by
  obtain ⟨minus, int, fraction, exponent, hminus, hint, hfraction, hexponent, hspelling⟩ := h
  have hend : StartsIn digitsEnd (exponent ++ rest) := StartsIn.append hexponent.starts (hrest.widen (by decide))
  have hend' : StartsIn intEnd (fraction ++ (exponent ++ rest)) := StartsIn.append hfraction.starts (hend.widen (by decide))
  have htext : spelling ++ rest = minus ++ (int ++ (fraction ++ (exponent ++ rest))) := by
    rw [hspelling]
    simp only [List.append_assoc]
  refine BodyGoes.group (ExprGoes.first (SequenceGoes.matched (R := fun _ => True) rfl ?_ rfl))
  rw [htext]
  refine ItemsGo.cons (n := 0) (j := 0) (item_minus hminus (hint.starts.2.append_of_ne_nil hint.starts.1)) fun _ _ => ?_
  refine ItemsGo.cons (n := 0) (j := 0) (item_integer hint hend') fun _ _ => ?_
  refine ItemsGo.cons (n := 0) (j := 0) (item_fraction hfraction hend) fun _ _ => ?_
  exact ItemsGo.cons (n := 0) (j := 0) (item_exponent hexponent hrest) fun _ _ => ItemsGo.nil (Nat.le_refl 0) trivial

theorem IsNumber.ne_nil {spelling : Bytes} (h : IsNumber spelling) : spelling ≠ [] := by
  obtain ⟨minus, int, fraction, exponent, -, hint, -, -, rfl⟩ := h
  simp [hint.starts.1]

/-- The bytes that numbers start with. -/
def numberStarts : Bytes := Bytes.ascii "-0123456789"

theorem IsNumber.startsIn {spelling : Bytes} (h : IsNumber spelling) (more : Bytes) :
    StartsIn numberStarts (spelling ++ more) := by
  obtain ⟨minus, int, fraction, exponent, hminus, hint, -, -, rfl⟩ := h
  rcases hminus with rfl | rfl
  · have hdigit := hint.starts.2.append_of_ne_nil (u := fraction ++ exponent ++ more) hint.starts.1
    simp only [List.nil_append, List.append_assoc] at hdigit ⊢
    exact hdigit.widen (by decide)
  · exact StartsIn.cons (by decide)

/-- A number is read with the white space behind it. -/
theorem goes_number {spelling after : Bytes} (h : IsNumber spelling) (hafter : Blank after)
    (hrest : StartsIn followBytes rest) (hr : r ≤ 6) :
    RuleGoes (course input) 2 Symbol.number.place (spelling ++ (after ++ rest)) r
      (.takes rest 1 (·.value.unspanned = tree (.number spelling))) := by
  have hend : StartsIn (blankBytes ++ followBytes) (after ++ rest) :=
    StartsIn.append (fun b hb => List.mem_append_left _ (hafter b (List.mem_of_head? hb)))
      (hrest.mono fun b hb => List.mem_append_right _ hb)
  have hlt : rest.length < (spelling ++ (after ++ rest)).length := by
    have hpos := List.length_pos_iff.mpr h.ne_nil
    simp only [List.length_append]
    omega
  refine goes_rule hr (.inl hlt) (ExprGoes.first (SequenceGoes.acts
    (R := fun x => ∃ y, x.1 = [y] ∧ y.value = .text spelling) ?_ ?_))
  · refine ItemsGo.cons (n := 0) (j := 1) (ItemGoes.once (goes_numeral h hend)) fun x hx => ?_
    refine ItemsGo.cons (n := 1) (j := 0) (item_blanks hafter (hrest.widen (by decide))) fun _ _ => ?_
    exact ItemsGo.nil (Nat.le_refl 1) ⟨x, rfl, hx⟩
  · rintro ⟨slots, last⟩ ⟨⟨v, start, stop⟩, rfl, rfl⟩
    exact ⟨_, HostGives.constructs (ArgsGive.ref rfl ArgsGive.nil), rfl⟩

/-- A word is read with the white space behind it. -/
theorem goes_keyword {after : Bytes} (k : Keyword) (hafter : Blank after) (hrest : StartsIn followBytes rest)
    (hr : r ≤ 7) : RuleGoes (course input) 2 Symbol.keyword.place (k.text ++ (after ++ rest)) r
      (.takes rest 1 (·.value.unspanned = tree k.doc)) := by
  have halternative : ∀ {spelling : String} {action : Host JsonAction}, (word spelling).spells k.text = true →
      (∀ frame stop, HostGives (course input) frame stop action.node (.ok (tree k.doc))) →
      (tree k.doc).unspanned = tree k.doc →
      SequenceGoes (course input) 1 (acts [step (word spelling), step Symbol.blanks.body] [] action)
        (k.text ++ (after ++ rest)) 7 (.takes rest 1 (·.value.unspanned = tree k.doc)) := by
    intro spelling action hspells haction hbare
    refine SequenceGoes.acts (R := fun _ => True) ?_ fun x _ => ⟨_, haction _ _, hbare⟩
    refine ItemsGo.cons (n := 0) (j := 1) (ItemGoes.once (BodyGoes.word hspells)) fun _ _ => ?_
    exact ItemsGo.cons (n := 1) (j := 0) (item_blanks hafter (hrest.widen (by decide))) fun _ _ => ItemsGo.nil (Nat.le_refl 1) trivial
  have hlt : rest.length < (k.text ++ (after ++ rest)).length := by
    have hpos : 0 < k.text.length := by rcases k with _ | _ | _ <;> decide
    simp only [List.length_append]
    omega
  refine goes_rule hr (.inl hlt) ?_
  rcases k with _ | _ | _
  · have hfront : StartsIn (Bytes.ascii "n") (Keyword.null.text ++ (after ++ rest)) :=
      StartsIn.cons (by decide)
    exact skip (Symbol.keyword.alternatives.take 2) hfront (by decide)
      (ExprGoes.first (halternative (by decide) (fun _ _ => HostGives.constructs ArgsGive.nil) rfl))
  · have hfront : StartsIn (Bytes.ascii "f") ((Keyword.bool false).text ++ (after ++ rest)) :=
      StartsIn.cons (by decide)
    exact skip (Symbol.keyword.alternatives.take 1) hfront (by decide)
      (ExprGoes.first (halternative (by decide) (fun _ _ _ _ => rfl) rfl))
  · exact ExprGoes.first (halternative (by decide) (fun _ _ _ _ => rfl) rfl)

end Reading

end Packrat.Json
