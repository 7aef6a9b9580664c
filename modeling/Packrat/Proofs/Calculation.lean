import Packrat.Calculator.Program
import Packrat.Proofs.Arithmetic
import Packrat.Proofs.Course
import Packrat.Proofs.HostReading

/-!
# `Packrat.Proofs.Calculation` — the calculator evaluates exactly

An arithmetic expression is a tree; its text follows the usual precedence and groups operators of one precedence
from the left. The grammar reads the text, and the actions compute while it does so. The result is that of the
integers, as long as every step fits in 64 bits and no divisor is zero, and a fault otherwise.

## Contents
- **Formulas.** Their exact value, when every step of it is sound, and what breaks an unsound step.
- **Texts.** `Written`: the texts of a formula, with any blanks behind each token.
- **The grammar.** The linked rules below `Sum`, and an order of their calls.
- **Tokens, factors, chains.** What the rules read. A chain is a first operand and the steps that join others to
  it; folding the steps evaluates the formula.
- **Sums.** `parse_sum`.
-/

namespace Packrat.Calculator

open Source (StartsIn bytesFrom decimalDigits digits_of_digits?)

/-! ## Formulas -/

/-- An arithmetic expression. -/
inductive Formula where
  | literal (n : Nat)
  /-- The variable of a letter, which may have either case. -/
  | letter (name : UInt8)
  | operate (op : Operator) (left right : Formula)

/-- The lower-case form of a letter. -/
def lowerCase (letter : UInt8) : UInt8 :=
  if Bytes.char 'A' ≤ letter && letter ≤ Bytes.char 'Z' then letter + 32 else letter

namespace Formula

variable (values : UInt8 → Int64)

/-- The exact value. -/
def value : Formula → Int
  | literal n => n
  | letter name => (values (lowerCase name)).toInt
  | operate op l r => op.exact l.value r.value

/-- Every step fits in 64 bits, and no divisor is zero. -/
def Sound : Formula → Prop
  | literal _ => True
  | letter _ => True
  | operate op l r => l.Sound ∧ r.Sound ∧ ¬(op = .div ∧ r.value values = 0) ∧
    Decimal.fits (op.exact (l.value values) (r.value values)) = true

/-- Soundness is decided along the formula. -/
instance decidableSound : (f : Formula) → Decidable (f.Sound values)
  | literal _ => .isTrue trivial
  | letter _ => .isTrue trivial
  | operate op l r =>
    have := decidableSound l
    have := decidableSound r
    inferInstanceAs (Decidable (l.Sound values ∧ r.Sound values ∧ ¬(op = .div ∧ r.value values = 0) ∧
      Decimal.fits (op.exact (l.value values) (r.value values)) = true))

/-- A step on sound operands divides by zero or does not fit. -/
inductive Breaks : Formula → HostFault → Prop
  | left {op : Operator} {l r : Formula} {fault : HostFault} (h : Breaks l fault) : Breaks (operate op l r) fault
  | right {op : Operator} {l r : Formula} {fault : HostFault} (h : Breaks r fault) : Breaks (operate op l r) fault
  | divisionByZero {l r : Formula} (hl : l.Sound values) (hr : r.Sound values) (hzero : r.value values = 0) :
    Breaks (operate .div l r) .divisionByZero
  | overflow {op : Operator} {l r : Formula} (hl : l.Sound values) (hr : r.Sound values)
    (hdivisor : ¬(op = .div ∧ r.value values = 0))
    (hout : ¬Decimal.fits (op.exact (l.value values) (r.value values)) = true) : Breaks (operate op l r) .overflow

end Formula

section Formulas

variable {values : UInt8 → Int64} {f g : Formula} {fault : HostFault}

/-- What breaks is not sound. -/
theorem Formula.Breaks.not_sound (h : f.Breaks values fault) : ¬f.Sound values := by
  induction h with
  | left _ ih => exact fun hsound => ih hsound.1
  | right _ ih => exact fun hsound => ih hsound.2.1
  | divisionByZero _ _ hzero => exact fun hsound => hsound.2.2.1 ⟨rfl, hzero⟩
  | overflow _ _ _ hout => exact fun hsound => hout hsound.2.2.2

/-- One step of the machine on sound operands is one step of the formula. -/
theorem apply_operate (op : Operator) {l r : Int64} (hl : l.toInt = f.value values) (hr : r.toInt = g.value values)
    (hf : f.Sound values) (hg : g.Sound values) :
    ((Formula.operate op f g).Sound values ∧
      ∃ n, apply op l r = .ok n ∧ n.toInt = (Formula.operate op f g).value values) ∨
    ∃ fault, (Formula.operate op f g).Breaks values fault ∧ apply op l r = .error fault := by
  rw [apply_eq, hl, hr]
  split
  · next hzero =>
    obtain ⟨rfl, hzero⟩ := hzero
    exact .inr ⟨.divisionByZero, .divisionByZero hf hg hzero, rfl⟩
  · next hdivisor =>
    split
    · next hfits => exact .inl ⟨⟨hf, hg, hdivisor, hfits⟩, _, rfl, toInt_ofInt_of_fits hfits⟩
    · next hout => exact .inr ⟨.overflow, .overflow hf hg hdivisor hout, rfl⟩

end Formulas

/-! ## Texts -/

def blankBytes : Bytes := Bytes.ascii " \t"

def letterBytes : Bytes := bytesFrom 'A' 'Z' ++ bytesFrom 'a' 'z'

/-- A run of blanks. -/
def Blank (t : Bytes) : Prop := ∀ b ∈ t, b ∈ blankBytes

/-- The byte that stands for an operator. -/
def Operator.byte : Operator → UInt8
  | .add => Bytes.char '+'
  | .sub => Bytes.char '-'
  | .mul => Bytes.char '*'
  | .div => Bytes.char '/'

/-- How tightly the parts of an expression are bound together. -/
inductive Tier where
  | sum
  | product
  | factor
deriving DecidableEq

namespace Tier

/-- The operators that join operands of the next tier. -/
def joins : Tier → Operator → Bool
  | sum, op => op = .add || op = .sub
  | product, op => op = .mul || op = .div
  | factor, _ => false

/-- The next tier. -/
def operand : Tier → Tier
  | sum => product
  | product => factor
  | factor => factor

end Tier

/-- The texts of a formula as part of an expression of a tier. Operators of one tier group from the left, and any
part may stand between parentheses. -/
inductive Written : Tier → Formula → Bytes → Prop
  | literal {n : Nat} {digits blanks : Bytes} (hn : n < 2 ^ 63) (hdigits : Decimal.digits? digits = some n)
    (hblanks : Blank blanks) : Written .factor (.literal n) (digits ++ blanks)
  | letter {name : UInt8} {blanks : Bytes} (hname : name ∈ letterBytes) (hblanks : Blank blanks) :
    Written .factor (.letter name) (name :: blanks)
  | parenthesised {f : Formula} {before t after : Bytes} (hbefore : Blank before) (h : Written .sum f t)
    (hafter : Blank after) :
    Written .factor f (Bytes.char '(' :: (before ++ (t ++ Bytes.char ')' :: after)))
  | operand {tier : Tier} {f : Formula} {t : Bytes} (h : Written tier.operand f t) : Written tier f t
  | joined {tier : Tier} {op : Operator} {l r : Formula} {t blanks u : Bytes} (hop : tier.joins op = true)
    (hl : Written tier l t) (hblanks : Blank blanks) (hr : Written tier.operand r u) :
    Written tier (.operate op l r) (t ++ op.byte :: (blanks ++ u))

/-! ## The grammar -/

/-- The linked grammar. -/
def grammar : Grammar DeskAction := grammar?.toOption.getD {}

theorem grammar?_eq : grammar? = .ok grammar := rfl

/-- An item of a linked sequence. -/
def itemOf (name : Option String) (body : Body DeskAction) (repetition : Repetition) (slot : Option Nat) :
    Item (Body DeskAction) :=
  ⟨name.map Bytes.ascii, false, .none, body, repetition, slot, .unknown⟩

/-- The value in a slot. -/
def slotRef (name : String) (i : Nat) : Host DeskAction := ⟨.ref (Bytes.ascii name) (some i), .unknown⟩

/-- A call of a rule in a linked sequence. -/
def callTo (name : String) (i : Nat) : Body DeskAction := .call (Bytes.ascii name) false (some i)

namespace Tier

/-- The place of the rule that reads the expressions of a tier. -/
def place : Tier → Nat
  | sum => 2
  | product => 3
  | factor => 4

/-- The name of that rule. -/
def name : Tier → String
  | sum => "Sum"
  | product => "Product"
  | factor => "Value"

/-- The class of the operators of a tier. -/
def operators : Tier → CharClass
  | sum => ⟨[⟨43, 43⟩, ⟨45, 45⟩], false, false, Bytes.ascii "[+-]"⟩
  | product => ⟨[⟨42, 42⟩, ⟨47, 47⟩], false, false, Bytes.ascii "[*/]"⟩
  | factor => ⟨[], false, false, []⟩

/-- One step of a chain: an operator and its right operand. -/
def step (tier : Tier) : Body DeskAction :=
  .group [⟨[itemOf (some "op") (.cls tier.operators) .once (some 0), itemOf none (callTo "_" 7) .once none,
      itemOf (some "r") (callTo tier.operand.name tier.operand.place) .once (some 1)],
    some ⟨.call (Bytes.ascii "Op") [slotRef "op" 0, slotRef "r" 1] true none, .unknown⟩,
    [Bytes.ascii "op", Bytes.ascii "r"], .unknown⟩]

/-- The expression of a chain: a first operand and steps. -/
def chain (tier : Tier) : DeskExpr :=
  [⟨[itemOf (some "l") (callTo tier.operand.name tier.operand.place) .once (some 0),
      itemOf (some "rest") tier.step .star (some 1)],
    some ⟨.call (Bytes.ascii "fold") [slotRef "l" 0, slotRef "rest" 1] false (some 5), .unknown⟩,
    [Bytes.ascii "l", Bytes.ascii "rest"], .unknown⟩]

end Tier

def blankClass : CharClass := ⟨[⟨32, 32⟩, ⟨9, 9⟩], false, false, Bytes.ascii "[ \t]"⟩

def digitClass : CharClass := ⟨[⟨48, 57⟩], false, false, Bytes.ascii "[0-9]"⟩

def letterClass : CharClass := ⟨[⟨97, 122⟩, ⟨65, 90⟩], false, false, Bytes.ascii "[a-zA-Z]"⟩

/-- Blanks. -/
def blanksSequence : Sequence DeskAction (Body DeskAction) :=
  ⟨[itemOf none (.cls blankClass) .star none], none, [], .unknown⟩

/-- A letter, with blanks behind it. -/
def nameSequence : Sequence DeskAction (Body DeskAction) :=
  ⟨[itemOf (some "id") (.cls letterClass) .once (some 0), itemOf none (callTo "_" 7) .once none],
    some (slotRef "id" 0), [Bytes.ascii "id"], .unknown⟩

/-- A run of digits, as a number. -/
def numberSequence : Sequence DeskAction (Body DeskAction) :=
  ⟨[itemOf (some "n") (.cls digitClass) .plus (some 0),
      itemOf none (callTo "_" 7) .once none],
    some ⟨.call (Bytes.ascii "integer") [slotRef "n" 0] false (some 1), .unknown⟩, [Bytes.ascii "n"], .unknown⟩

/-- A variable that is not assigned to. -/
def variableSequence : Sequence DeskAction (Body DeskAction) :=
  ⟨[itemOf (some "id") (callTo "Name" 5) .once (some 0),
      ⟨none, false, .notAhead, .literal (Bytes.ascii "=") false true, .once, none, .unknown⟩],
    some ⟨.native .fetch, .unknown⟩, [Bytes.ascii "id"], .unknown⟩

/-- A sum between parentheses. -/
def groupSequence : Sequence DeskAction (Body DeskAction) :=
  ⟨[itemOf none (.literal (Bytes.ascii "(") false true) .once none, itemOf none (callTo "_" 7) .once none,
      itemOf (some "s") (callTo "Sum" 2) .once (some 0),
      itemOf none (.literal (Bytes.ascii ")") false true) .once none, itemOf none (callTo "_" 7) .once none],
    some (slotRef "s" 0), [Bytes.ascii "s"], .unknown⟩

/-- A rule of the grammar. -/
def ruleOf (name : String) (body : DeskExpr) : Rule DeskAction :=
  ⟨Bytes.ascii name, body, false, none, .unknown⟩

theorem rule_sum : grammar.rules[2]? = some (ruleOf "Sum" (Tier.chain .sum)) := rfl

theorem rule_product : grammar.rules[3]? = some (ruleOf "Product" (Tier.chain .product)) := rfl

theorem rule_value :
    grammar.rules[4]? = some (ruleOf "Value" [numberSequence, variableSequence, groupSequence]) := rfl

theorem rule_name : grammar.rules[5]? = some (ruleOf "Name" [nameSequence]) := rfl

theorem rule_blanks : grammar.rules[7]? = some (ruleOf "_" [blanksSequence]) := rfl

/-- The order of the calls at one offset. -/
def callRank (i : Nat) : Nat := [0, 0, 1, 2, 3, 4, 0, 0].getD i 0

/-- The evaluation of a rule of the grammar on an input. -/
abbrev course (input : Bytes) (env : Env Desk) : Course DeskAction Desk :=
  parseCourse grammar client input env callRank

theorem course_plain (input : Bytes) (env : Env Desk) : (course input env).Plain := ⟨fun _ => rfl, rfl⟩

section Reading

variable {input : Bytes} {env : Env Desk} {rest t u blanks : Bytes} {r : Nat}

/-! ## Tokens -/

/-- The bytes that tokens start with. -/
def solidBytes : Bytes := decimalDigits ++ letterBytes ++ Bytes.ascii "()+-*/"

/-- Blanks are skipped up to the next token. -/
theorem goes_blanks (hblanks : Blank blanks) (hrest : StartsIn solidBytes rest) :
    RuleGoes (course input env) 1 7 (blanks ++ rest) 0 (.takes rest 1 fun _ => True) := by
  have hw := course_plain input env
  refine RuleGoes.body hw rule_blanks rfl rfl (Nat.le_refl 0) ?_ ?_
  · cases blanks with
    | nil => exact .inr ⟨rfl, Nat.zero_lt_one⟩
    | cons b blanks => exact .inl (by simp only [List.length_cons, List.length_append]; omega)
  · refine ExprGoes.first (SequenceGoes.matched (R := fun _ => True) rfl ?_ trivial)
    have hloop := LoopGoes.bytes (w := course input env) (k := blankClass) hblanks (BodyGoes.refused hw hrest (by decide)) (by decide)
    exact ItemsGo.cons (ItemGoes.star hw hloop) fun _ _ => ItemsGo.nil (Nat.zero_le 1) trivial

/-- A call for blanks in a sequence. -/
theorem item_blanks (hblanks : Blank blanks) (hrest : StartsIn solidBytes rest) :
    ItemGoes (course input env) 1 (itemOf none (callTo "_" 7) .once none) (blanks ++ rest) 0
      (.takes rest 1 fun _ => True) :=
  ItemGoes.once (BodyGoes.call rule_blanks (goes_blanks hblanks hrest))

/-- A letter is read with the blanks behind it. -/
theorem goes_name {letter : UInt8} (hletter : letter ∈ letterBytes) (hblanks : Blank blanks)
    (hrest : StartsIn solidBytes rest) :
    RuleGoes (course input env) 2 5 (letter :: (blanks ++ rest)) 3 (.takes rest 1 (·.value = .text [letter])) := by
  have hw := course_plain input env
  refine RuleGoes.body hw rule_name rfl rfl (by decide : 3 ≤ callRank 5) (.inl (by simp only [List.length_cons, List.length_append]; omega)) ?_
  refine ExprGoes.first (SequenceGoes.acts (R := fun x => ∃ y, x.1 = [y] ∧ y.value = .text [letter]) ?_ ?_)
  · refine ItemsGo.cons (n := 0) (j := 1) (ItemGoes.once (BodyGoes.byte hletter (by decide))) fun x hx => ?_
    refine ItemsGo.cons (n := 1) (j := 0) (item_blanks hblanks hrest) fun y _ => ?_
    exact ItemsGo.nil (Nat.le_refl _) ⟨x, rfl, by rw [hx]⟩
  · rintro ⟨slots, last⟩ ⟨y, rfl, hy⟩
    exact ⟨y.value, HostGives.ref rfl, hy⟩

/-! ## Factors -/

namespace Tier

/-- The bytes that may stand behind an expression of a tier. -/
def follow : Tier → Bytes
  | sum => Bytes.ascii ")"
  | product => Bytes.ascii ")+-"
  | factor => Bytes.ascii ")+-*/"

/-- How many rules read an expression of a tier above those that read its factors. -/
def height : Tier → Nat
  | sum => 2
  | product => 1
  | factor => 0

end Tier

/-- The bytes that an expression starts with. -/
def firstBytes : Bytes := decimalDigits ++ letterBytes ++ Bytes.ascii "("

/-- How the rule of a tier ends on the text of a formula: with its value, if the formula is sound, and else with a
fault that breaks it. -/
inductive Ends (input : Bytes) (env : Env Desk) (tier : Tier) (f : Formula) (text rest : Bytes) :
    Ending (Spanned Value) → Prop
  | value {n : Int64} (hsound : f.Sound env.store.user.values) (hn : n.toInt = f.value env.store.user.values) :
    Ends input env tier f text rest
      (.takes rest 1 (· = ⟨.int n, (course input env).place text, (course input env).place rest⟩))
  | fault {fault : HostFault} (hbreaks : f.Breaks env.store.user.values fault) :
    Ends input env tier f text rest (.raises (.host fault))

/-- The rule of a tier reads a text as a formula, whatever may follow. -/
structure Reads (input : Bytes) (env : Env Desk) (tier : Tier) (f : Formula) (t : Bytes) : Prop where
  ne_nil : t ≠ []
  starts : StartsIn firstBytes t
  goes : ∀ rest, StartsIn tier.follow rest → ∃ n e, n ≤ 3 * t.length + tier.height ∧
    Ends input env tier f (t ++ rest) rest e ∧
    RuleGoes (course input env) n tier.place (t ++ rest) ((course input env).rank tier.place) e

/-- The text of a run of values. -/
theorem elementsToText_bytewise {xs : List (Spanned Value)} (h : Bytewise t xs) : Value.elementsToText xs = t := by
  induction t generalizing xs with
  | nil =>
    rw [List.map_eq_nil_iff.mp h]
    rfl
  | cons b t ih =>
    cases xs with
    | nil => cases h
    | cons x xs =>
      obtain ⟨v, start, stop⟩ := x
      unfold Bytewise at h
      rw [List.map_cons, List.map_cons, List.cons.injEq] at h
      obtain ⟨rfl, h⟩ := h
      rw [Value.elementsToText, ih h]
      rfl

theorem integerOf_digits {n : Nat} {b : UInt8} (hdigits : Decimal.digits? (b :: t) = some n) (hb : b ∈ decimalDigits)
    (hn : n < 2 ^ 63) : Value.integerOf (b :: t) = .ok (Int64.ofInt n) := by
  have hminus : (b == Bytes.char '-') = false := by
    rw [beq_eq_false_iff_ne]
    rintro rfl
    exact absurd hb (by decide)
  have hfits : Decimal.fits n = true := fits_iff.mpr (by omega)
  simp [Value.integerOf, Decimal.int64?, Decimal.int?, hminus, hdigits, hfits]

theorem reads_literal {n : Nat} (hn : n < 2 ^ 63) (hdigits : Decimal.digits? t = some n) (hblanks : Blank blanks) :
    Reads input env .factor (.literal n) (t ++ blanks) := by
  have hw := course_plain input env
  obtain ⟨d, t, rfl, hd, ht⟩ := digits_of_digits? hdigits
  refine ⟨by simp, StartsIn.cons (List.mem_append_left _ (List.mem_append_left _ hd)), fun rest hrest => ?_⟩
  have hvalue : (Int64.ofInt n).toInt = (Formula.literal n).value env.store.user.values :=
    toInt_ofInt_of_fits (fits_iff.mpr (by omega))
  refine ⟨2, _, by simp; omega, .value trivial hvalue, ?_⟩
  have htext : [d] ++ t ++ blanks ++ rest = d :: (t ++ (blanks ++ rest)) := by simp
  have hend : StartsIn (blankBytes ++ Tier.factor.follow) (blanks ++ rest) :=
    StartsIn.append (fun b hb => List.mem_append_left _ (hblanks b (List.mem_of_head? hb)))
      (hrest.mono fun b hb => List.mem_append_right _ hb)
  rw [htext]
  refine RuleGoes.body hw rule_value rfl rfl (Nat.le_refl _) (.inl (by simp only [List.length_cons, List.length_append]; omega)) ?_
  refine ExprGoes.first (SequenceGoes.acts (R := fun x => ∃ y, x.1 = [y] ∧ Lists (Bytewise (d :: t)) y) ?_ ?_)
  · have hloop := LoopGoes.bytes (w := course input env) (k := digitClass) ht (BodyGoes.refused hw hend (by decide)) (by decide)
    refine ItemsGo.cons (n := 0) (j := 1) (ItemGoes.plus hw (BodyGoes.byte hd (by decide)) hloop) fun x hx => ?_
    refine ItemsGo.cons (n := 1) (j := 0) (item_blanks hblanks (hrest.widen (by decide))) fun y _ => ?_
    refine ItemsGo.nil (Nat.le_refl _) ⟨x, rfl, ?_⟩
    obtain ⟨xs, hxs, y, others, rfl, rfl, hothers⟩ := hx
    exact ⟨_, hxs, by rw [Bytewise, List.map_cons, List.map_cons, hothers]⟩
  · rintro ⟨slots, last⟩ ⟨y, rfl, xs, hy, hxs⟩
    refine ⟨_, HostGives.builtin (b := .integer) (ArgsGive.ref rfl ArgsGive.nil) rfl fun ctx hctx => ?_, rfl⟩
    have htext : y.value.toText = d :: t := by rw [hy, Value.toText, elementsToText_bytewise hxs]
    have hlist : y.value.isInteger = false := by rw [hy]; rfl
    have hnumber : Value.integerOf (d :: t) = .ok (Int64.ofInt n) := integerOf_digits hdigits hd hn
    simp only [Builtin.run, hctx, List.map_cons, hlist, htext, hnumber, Bool.false_eq_true, if_false]
    rfl

/-- The lower-case letter that the calculator looks a variable up under. -/
theorem letterOf_eq {letter : UInt8} (hletter : letter ∈ letterBytes) : letterOf [letter] = lowerCase letter := by
  have hall : (letterBytes.all fun b => letterOf [b] == lowerCase b) = true := by decide
  exact eq_of_beq (List.all_eq_true.mp hall letter hletter)

theorem reads_letter {letter : UInt8} (hletter : letter ∈ letterBytes) (hblanks : Blank blanks) :
    Reads input env .factor (.letter letter) (letter :: blanks) := by
  have hw := course_plain input env
  refine ⟨by simp, StartsIn.cons (List.mem_append_left _ (List.mem_append_right _ hletter)), fun rest hrest => ?_⟩
  have htext : letter :: blanks ++ rest = letter :: (blanks ++ rest) := rfl
  refine ⟨3, _, by simp; omega, .value trivial rfl, ?_⟩
  rw [htext]
  refine RuleGoes.body hw rule_value rfl rfl (Nat.le_refl _) (.inl (by simp only [List.length_cons, List.length_append]; omega)) ?_
  refine ExprGoes.later (n := 0) (j := 2) (SequenceGoes.refused hw (StartsIn.cons hletter) (by decide)) ?_
  refine ExprGoes.first (SequenceGoes.acts (R := fun x => ∃ y, x.1 = [y] ∧ y.value = .text [letter]) ?_ ?_)
  · have hname : RuleGoes (course input env) 2 5 (letter :: (blanks ++ rest)) 3 _ :=
      goes_name hletter hblanks (hrest.widen (by decide))
    refine ItemsGo.cons (n := 2) (j := 0) (ItemGoes.once (BodyGoes.call rule_name hname)) fun x hx => ?_
    have hequals : BodyGoes (course input env).hushed 0 (.literal (Bytes.ascii "=") false true) rest 1
      (.fails rest 1) := BodyGoes.refused hw.hushed hrest (by decide)
    refine ItemsGo.cons (n := 0) (j := 0) (ItemGoes.notAhead hequals) fun y _ => ?_
    exact ItemsGo.nil (Nat.le_refl _) ⟨x, rfl, hx⟩
  · rintro ⟨slots, last⟩ ⟨y, rfl, hy⟩
    refine ⟨.int (env.store.user.values (lowerCase letter)), HostGives.native ?_, rfl⟩
    rw [← letterOf_eq hletter]
    obtain ⟨v, start, stop⟩ := y
    simp only at hy
    subst hy
    rfl

/-- A sum between parentheses. The sequence ends as its sum does. -/
theorem goes_group {f : Formula} {before after : Bytes} (hbefore : Blank before) (h : Reads input env .sum f t)
    (hafter : Blank after) (hrest : StartsIn Tier.factor.follow rest) : ∃ n e, n ≤ 3 * t.length + 2 ∧
      Ends input env .factor f (Bytes.ascii "(" ++ (before ++ (t ++ (Bytes.ascii ")" ++ (after ++ rest))))) rest e ∧
      ExprGoes (course input env) n [groupSequence]
        (Bytes.ascii "(" ++ (before ++ (t ++ (Bytes.ascii ")" ++ (after ++ rest))))) 5 e := by
  -- what stands behind the sum is its closing parenthesis
  have hclose : StartsIn Tier.sum.follow (Bytes.ascii ")" ++ (after ++ rest)) := StartsIn.cons (by decide)
  obtain ⟨n, e, hn, he, hsum⟩ := h.goes (Bytes.ascii ")" ++ (after ++ rest)) hclose
  have hsolid : StartsIn solidBytes (t ++ (Bytes.ascii ")" ++ (after ++ rest))) :=
    (h.starts.append_of_ne_nil h.ne_nil).widen (by decide)
  have hbefore' : ItemGoes (course input env) 1 (itemOf none (callTo "_" 7) .once none)
      (before ++ (t ++ (Bytes.ascii ")" ++ (after ++ rest)))) 0 (.takes _ 1 fun _ => True) :=
    item_blanks hbefore hsolid
  have hafter' : ItemGoes (course input env) 1 (itemOf none (callTo "_" 7) .once none) (after ++ rest) 0
      (.takes rest 1 fun _ => True) := item_blanks hafter (hrest.widen (by decide))
  have hcost : max 0 (max 1 (max n (max 0 (max 1 0)))) ≤ 3 * t.length + 2 := by
    simp only [Tier.height] at hn
    omega
  cases he with
  | @value v hsound hv =>
    refine ⟨_, _, hcost, .value hsound hv, ExprGoes.first (SequenceGoes.acts
      (R := fun x => ∃ y, x.1 = [y] ∧ y.value = .int v) ?_ ?_)⟩
    · refine ItemsGo.cons (ItemGoes.once (BodyGoes.word (by decide))) fun _ _ => ItemsGo.cons hbefore' fun _ _ => ?_
      refine ItemsGo.cons (ItemGoes.once (BodyGoes.call rule_sum hsum)) fun x hx => ?_
      refine ItemsGo.cons (ItemGoes.once (BodyGoes.word (by decide))) fun _ _ => ItemsGo.cons hafter' fun _ _ => ?_
      exact ItemsGo.nil (Nat.le_refl _) ⟨x, rfl, by rw [hx]⟩
    · rintro ⟨slots, last⟩ ⟨y, rfl, hy⟩
      exact ⟨y.value, HostGives.ref rfl, by rw [hy]⟩
  | fault hbreaks =>
    refine ⟨max 0 (max 1 n), _, by omega, .fault hbreaks, ExprGoes.raises (SequenceGoes.raises ?_)⟩
    refine ItemsGo.cons (ItemGoes.once (BodyGoes.word (by decide))) fun _ _ => ItemsGo.cons hbefore' fun _ _ => ?_
    exact ItemsGo.raises (ItemGoes.once (BodyGoes.call rule_sum hsum))

/-- A sum between parentheses is read as a factor. -/
theorem reads_parenthesised {f : Formula} {before after : Bytes} (hbefore : Blank before)
    (h : Reads input env .sum f t) (hafter : Blank after) :
    Reads input env .factor f (Bytes.char '(' :: (before ++ (t ++ Bytes.char ')' :: after))) := by
  have hw := course_plain input env
  have hopen : Bytes.char '(' ∈ Bytes.ascii "(" := by decide
  refine ⟨by simp, StartsIn.cons (List.mem_append_right _ hopen), fun rest hrest => ?_⟩
  have htext : Bytes.char '(' :: (before ++ (t ++ Bytes.char ')' :: after)) ++ rest =
      Bytes.ascii "(" ++ (before ++ (t ++ (Bytes.ascii ")" ++ (after ++ rest)))) := by
    simp [Bytes.ascii, Bytes.char]
  obtain ⟨n, e, hn, he, hgroup⟩ := goes_group hbefore h hafter hrest
  rw [htext]
  -- no number and no name stands here
  have hnumber : ∀ back, SequenceGoes (course input env) 0 numberSequence (Bytes.ascii "(" ++ back) 3
      (.fails (Bytes.ascii "(" ++ back) 3) :=
    fun back => SequenceGoes.refused hw (StartsIn.cons hopen) (by decide)
  have hname : ∀ back, RuleGoes (course input env) 1 5 (Bytes.ascii "(" ++ back) 3
      (.fails (Bytes.ascii "(" ++ back) 5) :=
    fun back => RuleGoes.refused hw rule_name rfl rfl (by decide : 3 ≤ callRank 5) (StartsIn.cons hopen) (by decide)
  have hvariable : ∀ back, SequenceGoes (course input env) 1 variableSequence (Bytes.ascii "(" ++ back) 3
      (.fails (Bytes.ascii "(" ++ back) 5) :=
    fun back => SequenceGoes.fails (ItemsGo.fails (ItemGoes.once (BodyGoes.call rule_name (hname back))))
  refine ⟨_, e, ?_, he, RuleGoes.body hw rule_value rfl rfl (Nat.le_refl _) ?_
    (ExprGoes.later (hnumber _) (ExprGoes.later (hvariable _) hgroup))⟩
  · simp [Tier.height]
    omega
  · cases he with
    | value => exact .inl (by simp [Bytes.ascii]; omega)
    | fault => exact trivial

/-! ## Chains -/

/-- A step of a chain: an operator, blanks, and the text of an operand. -/
structure Joined where
  op : Operator
  blanks : Bytes
  operand : Formula
  text : Bytes

/-- The text of a step. -/
def Joined.whole (s : Joined) : Bytes := s.op.byte :: (s.blanks ++ s.text)

/-- The formula of a chain. -/
def joinAll (first : Formula) (steps : List Joined) : Formula :=
  steps.foldl (fun l s => .operate s.op l s.operand) first

/-- A step whose operand is read by the next tier. -/
structure Joined.Reads (input : Bytes) (env : Env Desk) (tier : Tier) (s : Joined) : Prop where
  joins : tier.joins s.op = true
  blank : Blank s.blanks
  operand : Calculator.Reads input env tier.operand s.operand s.text

/-- A formula and its text are a chain of operands that the next tier reads. -/
def Chain (input : Bytes) (env : Env Desk) (tier : Tier) (f : Formula) (t : Bytes) : Prop :=
  ∃ first u steps, Reads input env tier.operand first u ∧ (∀ s ∈ steps, Joined.Reads input env tier s) ∧
    f = joinAll first steps ∧ t = u ++ steps.flatMap Joined.whole

section Joins

variable {values : UInt8 → Int64} {f : Formula} {steps : List Joined} {fault : HostFault}

theorem joinAll_concat (s : Joined) :
    joinAll f (steps ++ [s]) = .operate s.op (joinAll f steps) s.operand := by
  unfold joinAll
  rw [List.foldl_append]
  rfl

/-- What breaks the first operand breaks the chain. -/
theorem breaks_joinAll (h : f.Breaks values fault) : (joinAll f steps).Breaks values fault := by
  induction steps generalizing f with
  | nil => exact h
  | cons s steps ih => exact ih (.left h)

/-- So does what breaks a later operand. -/
theorem breaks_joinAll_of_mem {s : Joined} (hs : s ∈ steps) (h : s.operand.Breaks values fault) :
    (joinAll f steps).Breaks values fault := by
  induction steps generalizing f with
  | nil => cases hs
  | cons s' steps ih =>
    cases hs with
    | head => exact breaks_joinAll (f := .operate s.op f s.operand) (.right h)
    | tail _ hs => exact ih hs

/-- A node of a step, with the value of its operand. -/
def Stepped (values : UInt8 → Int64) (s : Joined) (x : Spanned Value) : Prop :=
  ∃ op r n, x.value = .node (Bytes.ascii "Op") [(Bytes.ascii "op", op), (Bytes.ascii "r", r)] ∧
    op.value = .text [s.op.byte] ∧ r.value = .int n ∧ n.toInt = s.operand.value values

/-- A formula is sound, and its value is a number of the machine. -/
def Valued (values : UInt8 → Int64) (f : Formula) : Prop :=
  f.Sound values ∧ ∃ n : Int64, n.toInt = f.value values

/-- Applying a node of a step applies its operator. -/
theorem applyStep_stepped {s : Joined} {x : Spanned Value} {n : Int64} (hn : n.toInt = s.operand.value values)
    (h : Stepped values s x) (l : Int64) : applyStep l x =
      match apply s.op l n with
      | .ok n => .ok n
      | .error fault => .error (.host fault) := by
  obtain ⟨op, r, n', hx, hop, hr, hn'⟩ := h
  obtain rfl : n = n' := Int64.toInt_inj.mp (hn.trans hn'.symm)
  have hoperator : Operator.ofByte s.op.byte = s.op := by cases s.op <;> rfl
  have hfield : x.value.field (Bytes.ascii "op") = .ok op := by rw [hx]; rfl
  have hfield' : x.value.field (Bytes.ascii "r") = .ok r := by rw [hx]; rfl
  simp only [applyStep, hfield, hfield', hop, hr, Source.ok_bind, Value.asText, Value.asInteger]
  exact congrArg (fun op => match apply op l n with
    | .ok n => (.ok n : Except Fault Int64)
    | .error fault => .error (.host fault)) hoperator

/-- Folding the steps of a chain evaluates the chain, whatever nodes of the steps are given. -/
theorem foldSteps_joinAll {l : Int64} (hf : f.Sound values) (hl : l.toInt = f.value values)
    (hsteps : ∀ s ∈ steps, Valued values s.operand) :
    ((joinAll f steps).Sound values ∧ ∃ n : Int64, n.toInt = (joinAll f steps).value values ∧
      ∀ xs, List.Forall₂ (Stepped values) steps xs → xs.foldlM applyStep l = .ok n) ∨
    ∃ fault, (joinAll f steps).Breaks values fault ∧
      ∀ xs, List.Forall₂ (Stepped values) steps xs → xs.foldlM applyStep l = .error (.host fault) := by
  induction steps generalizing f l with
  | nil =>
    refine .inl ⟨hf, l, hl, fun xs hxs => ?_⟩
    cases hxs
    rfl
  | cons s steps ih =>
    rw [List.forall_mem_cons] at hsteps
    obtain ⟨⟨hsound, n, hn⟩, hsteps⟩ := hsteps
    have hfold : ∀ {answer : Except Fault Int64},
        (∀ xs, List.Forall₂ (Stepped values) steps xs →
          ((match apply s.op l n with
            | .ok n => .ok n
            | .error fault => .error (.host fault) : Except Fault Int64) >>= fun m => xs.foldlM applyStep m)
            = answer) →
        ∀ xs, List.Forall₂ (Stepped values) (s :: steps) xs → xs.foldlM applyStep l = answer := by
      intro answer h xs hxs
      cases hxs with
      | cons hx hxs => rw [List.foldlM_cons, applyStep_stepped hn hx, h _ hxs]
    rcases apply_operate s.op hl hn hf hsound with ⟨hjoined, m, hm, hvalue⟩ | ⟨fault, hbreaks, hfault⟩
    · rw [hm] at hfold
      rcases ih hjoined hvalue hsteps with ⟨hall, v, hv, hrest⟩ | ⟨fault, hbreaks, hrest⟩
      · exact .inl ⟨hall, v, hv, hfold hrest⟩
      · exact .inr ⟨fault, hbreaks, hfold hrest⟩
    · rw [hfault] at hfold
      exact .inr ⟨fault, breaks_joinAll (f := .operate s.op f s.operand) hbreaks, hfold fun _ _ => rfl⟩

end Joins

/-- The class of the operators of a tier accepts them. -/
theorem takes_operator {tier : Tier} {op : Operator} (h : tier.joins op = true) :
    BodyGoes (course input env) 0 (.cls tier.operators) (op.byte :: rest) 1
      (.takes rest 0 (·.value = .text [op.byte])) := by
  have haccepts : (op.byte < 0x80 && tier.operators.contains op.byte.toNat) = true := by
    revert h
    cases tier <;> cases op <;> decide
  rw [Bool.and_eq_true, decide_eq_true_eq] at haccepts
  have hrune : BodyGoes (course input env) 0 (.cls tier.operators) ([op.byte] ++ rest) 1 (.takes rest 0 _) :=
    BodyGoes.rune (Source.encodes_ascii haccepts.1) haccepts.2
  exact fun frame => (hrune frame).weaken (Nat.le_refl 0) fun x hx => by rw [hx]

/-- The rule of an operand. -/
theorem rule_operand {tier : Tier} (htier : tier ≠ .factor) :
    ∃ rule, grammar.rules[tier.operand.place]? = some rule := by
  cases tier with
  | sum => exact ⟨_, rule_product⟩
  | product => exact ⟨_, rule_value⟩
  | factor => exact absurd rfl htier

/-- What may stand behind an operand. -/
theorem follow_operand {tier : Tier} (htier : tier ≠ .factor) {steps : List Joined}
    (hsteps : ∀ s ∈ steps, s.Reads input env tier) (hrest : StartsIn tier.follow rest) :
    StartsIn tier.operand.follow (steps.flatMap Joined.whole ++ rest) := by
  cases steps with
  | nil =>
    cases tier with
    | sum => exact hrest.widen (by decide)
    | product => exact hrest.widen (by decide)
    | factor => exact hrest
  | cons s steps =>
    have hop : s.op.byte ∈ tier.operand.follow := by
      have hjoins := (hsteps s List.mem_cons_self).joins
      revert hjoins
      cases tier <;> cases s.op <;> decide
    exact StartsIn.cons hop

/-- A step is read up to its operand, and ends as that does. -/
theorem goes_step {tier : Tier} (htier : tier ≠ .factor) {s : Joined} (hs : s.Reads input env tier)
    (hrest : StartsIn tier.operand.follow rest) : ∃ n, n ≤ 3 * s.whole.length + tier.operand.height ∧
      ((Valued env.store.user.values s.operand ∧
        BodyGoes (course input env) n tier.step (s.whole ++ rest) 1
          (.takes rest 1 (Stepped env.store.user.values s))) ∨
      ∃ fault, s.operand.Breaks env.store.user.values fault ∧
        BodyGoes (course input env) n tier.step (s.whole ++ rest) 1 (.raises (.host fault))) := by
  obtain ⟨rule, hrule⟩ := rule_operand htier
  obtain ⟨n, e, hn, he, hoperand⟩ := hs.operand.goes rest hrest
  have hrank : 1 ≤ (course input env).rank tier.operand.place := by
    cases tier with
    | sum => exact (by decide : 1 ≤ callRank 3)
    | product => exact (by decide : 1 ≤ callRank 4)
    | factor => exact absurd rfl htier
  have hcall : BodyGoes (course input env) n (callTo tier.operand.name tier.operand.place) (s.text ++ rest) 1 e :=
    fun frame c hc => (BodyGoes.call hrule hoperand frame c hc).earlier hrank
  have htext : s.whole ++ rest = s.op.byte :: (s.blanks ++ (s.text ++ rest)) := by
    simp [Joined.whole]
  have hblanks : ItemGoes (course input env) 1 (itemOf none (callTo "_" 7) .once none)
      (s.blanks ++ (s.text ++ rest)) 0 (.takes _ 1 fun _ => True) :=
    item_blanks hs.blank
      ((hs.operand.starts.append_of_ne_nil hs.operand.ne_nil).widen (by decide))
  have hcost : max 0 (max 1 (max n 0)) ≤ 3 * s.whole.length + tier.operand.height := by
    simp only [Joined.whole, List.length_cons, List.length_append]
    omega
  rw [htext]
  -- the operator, white space and the operand; a step with a value is then put together by its action
  cases he with
  | @value v hsound hv =>
    refine ⟨_, hcost, .inl ⟨⟨hsound, v, hv⟩, BodyGoes.group (ExprGoes.first (SequenceGoes.acts
      (R := fun x => ∃ op r, x.1 = [op, r] ∧ op.value = .text [s.op.byte] ∧ r.value = .int v) ?_ ?_))⟩⟩
    · refine ItemsGo.cons (ItemGoes.once (takes_operator hs.joins)) fun x hx => ?_
      refine ItemsGo.cons hblanks fun _ _ => ItemsGo.cons (ItemGoes.once hcall) fun y hy => ?_
      exact ItemsGo.nil (Nat.le_refl _) ⟨x, y, rfl, hx, by rw [hy]⟩
    · rintro ⟨slots, last⟩ ⟨op, r, rfl, hop, hr⟩
      exact ⟨_, HostGives.constructs (ArgsGive.ref rfl (ArgsGive.ref rfl ArgsGive.nil)), op, r, v, rfl, hop, hr, hv⟩
  | fault hbreaks =>
    refine ⟨max 0 (max 1 n), by omega, .inr ⟨_, hbreaks, BodyGoes.group (ExprGoes.raises (SequenceGoes.raises ?_))⟩⟩
    refine ItemsGo.cons (ItemGoes.once (takes_operator hs.joins)) fun _ _ => ItemsGo.cons hblanks fun _ _ => ?_
    exact ItemsGo.raises (ItemGoes.once hcall)

/-- The steps of a chain are read one after the other, up to the first that breaks. -/
theorem loop_steps {tier : Tier} (htier : tier ≠ .factor) {steps : List Joined}
    (hsteps : ∀ s ∈ steps, s.Reads input env tier) (hrest : StartsIn tier.follow rest) : ∃ n,
    n ≤ 3 * (steps.flatMap Joined.whole).length + tier.operand.height ∧
    (((∀ s ∈ steps, Valued env.store.user.values s.operand) ∧
      LoopGoes (course input env) n tier.step (steps.flatMap Joined.whole ++ rest) 1
        (.takes rest 1 (List.Forall₂ (Stepped env.store.user.values) steps))) ∨
    ∃ s ∈ steps, ∃ fault, s.operand.Breaks env.store.user.values fault ∧
      LoopGoes (course input env) n tier.step (steps.flatMap Joined.whole ++ rest) 1 (.raises (.host fault))) := by
  have hw := course_plain input env
  induction steps with
  | nil =>
    refine ⟨0, Nat.zero_le _, .inl ⟨by simp, ?_⟩⟩
    -- what follows the chain is no operator of its tier
    have hstop : BodyGoes (course input env) 0 tier.step rest 1 (.fails rest 1) := by
      cases tier with
      | sum => exact BodyGoes.refused hw hrest (by decide)
      | product => exact BodyGoes.refused hw hrest (by decide)
      | factor => exact absurd rfl htier
    refine (LoopGoes.stop hstop).weaken fun xs hxs => ?_
    rw [hxs]
    exact List.Forall₂.nil
  | cons s steps ih =>
    rw [List.forall_mem_cons] at hsteps
    obtain ⟨n, hn, hstep⟩ := goes_step htier hsteps.1 (follow_operand htier hsteps.2 hrest)
    obtain ⟨n', hn', hloop⟩ := ih hsteps.2
    have hlength : (List.flatMap Joined.whole (s :: steps)).length =
        s.whole.length + (steps.flatMap Joined.whole).length := by
      rw [List.flatMap_cons, List.length_append]
    have hlt : (steps.flatMap Joined.whole ++ rest).length <
        (s.whole ++ (steps.flatMap Joined.whole ++ rest)).length := by
      simp [Joined.whole]
      omega
    rw [List.flatMap_cons, List.append_assoc, ← List.flatMap_cons, hlength]
    rcases hstep with ⟨hsound, hstep⟩ | ⟨fault, hbreaks, hstep⟩
    · rcases hloop with ⟨hsounds, hloop⟩ | ⟨s', hs', fault, hbreaks, hloop⟩
      · refine ⟨max n n', by omega, .inl ⟨List.forall_mem_cons.mpr ⟨hsound, hsounds⟩, ?_⟩⟩
        refine (LoopGoes.more hlt hstep hloop).weaken ?_
        rintro xs ⟨x, others, rfl, hx, hothers⟩
        exact List.Forall₂.cons hx hothers
      · refine ⟨max n n', by omega, .inr ⟨s', List.mem_cons_of_mem s hs', fault, hbreaks, ?_⟩⟩
        exact LoopGoes.more hlt hstep hloop
    · exact ⟨n, by omega, .inr ⟨s, List.mem_cons_self, fault, hbreaks, LoopGoes.stuck hstep⟩⟩

/-- The rule of a tier evaluates as the expression of a chain. -/
theorem rule_chain {tier : Tier} (htier : tier ≠ .factor) :
    ∃ name, grammar.rules[tier.place]? = some (ruleOf name tier.chain) := by
  cases tier with
  | sum => exact ⟨_, rule_sum⟩
  | product => exact ⟨_, rule_product⟩
  | factor => exact absurd rfl htier

theorem foldSteps_eq {ctx : Context} (n : Int64) (xs : List (Spanned Value))
    (hl : ctx.named (Bytes.ascii "l") = .ok (.int n)) (hrest : ctx.named (Bytes.ascii "rest") = .ok (.list xs)) :
    foldSteps ctx = (xs.foldlM applyStep n).map .int := by
  unfold foldSteps
  rw [hl, hrest]
  simp only [Source.ok_bind, Value.asInteger, Value.asList]
  cases xs.foldlM applyStep n with
  | ok m => rfl
  | error fault => rfl

/-- The action of a chain folds its steps. -/
theorem fold_gives {start stop : Nat} {l rest : Spanned Value} {n : Int64} {xs : List (Spanned Value)}
    (hl : l.value = .int n) (hxs : rest.value = .list xs) :
    HostGives (course input env) ⟨[l, rest], [Bytes.ascii "l", Bytes.ascii "rest"], start⟩ stop
      (.call (Bytes.ascii "fold") [slotRef "l" 0, slotRef "rest" 1] false (some 5))
      ((xs.foldlM applyStep n).map .int) := by
  refine HostGives.calls (ArgsGive.ref (x := l) rfl (ArgsGive.ref (x := rest) rfl ArgsGive.nil))
    (show grammar.actions[5]? = some (Bytes.ascii "fold", .custom .fold) from rfl) ?_
  show (ActionM.lift (foldSteps _)).run.run _ = _
  rw [foldSteps_eq n xs]
  · rfl
  · rw [← hl]
    rfl
  · rw [← hxs]
    rfl

/-- A chain is read as its formula. -/
theorem reads_chain {tier : Tier} (htier : tier ≠ .factor) {f : Formula} (h : Chain input env tier f t) :
    Reads input env tier f t := by
  obtain ⟨first, u, steps, hfirst, hsteps, rfl, rfl⟩ := h
  have hw := course_plain input env
  obtain ⟨name, hrule⟩ := rule_chain htier
  obtain ⟨rule, hoperandRule⟩ := rule_operand htier
  refine ⟨List.append_ne_nil_of_left_ne_nil hfirst.ne_nil _, hfirst.starts.append_of_ne_nil hfirst.ne_nil,
    fun rest hrest => ?_⟩
  obtain ⟨n, e, hn, he, hoperand⟩ := hfirst.goes _ (follow_operand htier hsteps hrest)
  obtain ⟨n', hn', hloop⟩ := loop_steps htier hsteps hrest
  have hpos : 0 < u.length := List.length_pos_iff.mpr hfirst.ne_nil
  -- the call of the first operand comes behind the call of the chain
  have hrank : (course input env).rank tier.place ≤ (course input env).rank tier.operand.place := by
    cases tier with
    | sum => exact (by decide : callRank 2 ≤ callRank 3)
    | product => exact (by decide : callRank 3 ≤ callRank 4)
    | factor => exact absurd rfl htier
  have hcall : ItemGoes (course input env) n
      (itemOf (some "l") (callTo tier.operand.name tier.operand.place) .once (some 0))
      (u ++ (steps.flatMap Joined.whole ++ rest)) ((course input env).rank tier.place) e :=
    ItemGoes.once fun frame c hc => (BodyGoes.call hoperandRule hoperand frame c hc).earlier hrank
  have hcost : max n n' + 1 ≤ 3 * (u ++ steps.flatMap Joined.whole).length + tier.height := by
    have hheight : tier.height = tier.operand.height + 1 := by
      cases tier with
      | sum => rfl
      | product => rfl
      | factor => exact absurd rfl htier
    rw [List.length_append]
    omega
  rw [List.append_assoc]
  cases he with
  | fault hbreaks =>
    refine ⟨n + 1, _, by omega, .fault (breaks_joinAll hbreaks), ?_⟩
    exact RuleGoes.body hw hrule rfl rfl (Nat.le_refl _) trivial
      (ExprGoes.raises (SequenceGoes.raises (ItemsGo.raises hcall)))
  | @value v hsound hv =>
    rcases hloop with ⟨hvalued, hloop⟩ | ⟨s, hs, fault, hbreaks, hloop⟩
    · have hitems : ItemsGo (course input env) (max n (max n' 0))
          [itemOf (some "l") (callTo tier.operand.name tier.operand.place) .once (some 0),
            itemOf (some "rest") tier.step .star (some 1)] [default, default] default
          (u ++ (steps.flatMap Joined.whole ++ rest)) ((course input env).rank tier.place)
          (.takes rest 1 fun x => ∃ l rest, x.1 = [l, rest] ∧ l.value = .int v ∧
            Lists (List.Forall₂ (Stepped env.store.user.values) steps) rest) :=
        ItemsGo.cons hcall fun x hx => ItemsGo.cons (ItemGoes.star hw hloop) fun y hy =>
          ItemsGo.nil (Nat.le_refl _) ⟨x, y, rfl, by rw [hx], hy⟩
      rcases foldSteps_joinAll hsound hv hvalued with ⟨hall, m, hm, hfold⟩ | ⟨fault, hbreaks, hfold⟩
      · refine ⟨max n (max n' 0) + 1, _, by omega, .value hall hm, ?_⟩
        refine RuleGoes.body hw hrule rfl rfl (Nat.le_refl _) (.inl (by simp only [List.length_append]; omega)) ?_
        refine ExprGoes.first (SequenceGoes.acts hitems ?_)
        rintro ⟨slots, last⟩ ⟨l, rest, rfl, hl, xs, hrest, hxs⟩
        refine ⟨.int m, ?_, rfl⟩
        show HostGives _ _ _ _ ((Except.ok m).map .int)
        rw [← hfold xs hxs]
        exact fold_gives hl hrest
      · refine ⟨max n (max n' 0) + 1, _, by omega, .fault hbreaks, ?_⟩
        refine RuleGoes.body hw hrule rfl rfl (Nat.le_refl _) trivial ?_
        refine ExprGoes.raises (SequenceGoes.acts_raises hitems ?_)
        rintro ⟨slots, last⟩ ⟨l, rest, rfl, hl, xs, hrest, hxs⟩
        show HostGives _ _ _ _ ((Except.error (.host fault) : Except Fault Int64).map .int)
        rw [← hfold xs hxs]
        exact fold_gives hl hrest
    · refine ⟨max n n' + 1, _, hcost, .fault (breaks_joinAll_of_mem hs hbreaks), ?_⟩
      refine RuleGoes.body hw hrule rfl rfl (Nat.le_refl _) trivial (ExprGoes.raises (SequenceGoes.raises ?_))
      exact ItemsGo.cons hcall fun _ _ => ItemsGo.raises (ItemGoes.star_raises hw hloop)

/-! ## Sums -/

/-- What is known of a text of a tier: it is a chain of operands, or a factor that is read. -/
def Parsed (input : Bytes) (env : Env Desk) (tier : Tier) (f : Formula) (t : Bytes) : Prop :=
  if tier = .factor then Reads input env tier f t else Chain input env tier f t

theorem Parsed.reads {tier : Tier} {f : Formula} (h : Parsed input env tier f t) : Reads input env tier f t := by
  unfold Parsed at h
  split at h
  · exact h
  · next htier => exact reads_chain htier h

theorem parsed_written {tier : Tier} {f : Formula} (h : Written tier f t) : Parsed input env tier f t := by
  induction h with
  | literal hn hdigits hblanks => exact reads_literal hn hdigits hblanks
  | letter hname hblanks => exact reads_letter hname hblanks
  | parenthesised hbefore _ hafter ih => exact reads_parenthesised hbefore ih.reads hafter
  | @operand tier f t h ih =>
    unfold Parsed
    split
    · next htier =>
      subst htier
      exact ih.reads
    · exact ⟨f, t, [], ih.reads, by simp, rfl, by simp⟩
  | @joined tier op l r t blanks u hop hl hblanks hr ihl ihr =>
    have htier : tier ≠ .factor := by
      rintro rfl
      cases hop
    unfold Parsed at ihl ⊢
    rw [if_neg htier] at ihl ⊢
    obtain ⟨first, v, steps, hfirst, hsteps, rfl, rfl⟩ := ihl
    refine ⟨first, v, steps ++ [⟨op, blanks, r, u⟩], hfirst, ?_, ?_, ?_⟩
    · intro s hs
      rw [List.mem_append, List.mem_singleton] at hs
      rcases hs with hs | rfl
      · exact hsteps s hs
      · exact ⟨hop, hblanks, ihr.reads⟩
    · rw [joinAll_concat]
    · simp [Joined.whole]

end Reading

/-- The calculator evaluates exactly: the rule for sums takes the whole text of a formula. If every step fits in 64
bits and no divisor is zero, it yields the exact value, and else the parse ends in the fault of a step that breaks.
Only a depth that is small for the text may end it before. -/
theorem parse_sum : ∃ i, grammar? = .ok grammar ∧ grammar.find (Bytes.ascii "Sum") = some i ∧
    ∀ {f : Formula} {text : Bytes}, Written .sum f text → ∀ (p : Parser) (env : Env Desk), env.parsing = false →
      let answer := (Parser.parse p grammar client i text env).1
      (answer = .error .callDepth ∧ env.settings.maxDepth < 3 * text.length + 2) ∨
        ((f.Sound env.store.user.values → ∃ n : Int64, n.toInt = f.value env.store.user.values ∧
          answer = .ok (.tree ⟨.int n, 0, text.length⟩)) ∧
        (¬f.Sound env.store.user.values → ∃ fault, f.Breaks env.store.user.values fault ∧
          answer = .error (.host fault))) := by
  refine ⟨2, grammar?_eq, by decide, fun {f text} hwritten p env hparsing => ?_⟩
  have hreads : Reads text env .sum f text := (parsed_written hwritten).reads
  obtain ⟨n, e, hn, he, hsum⟩ := hreads.goes [] StartsIn.nil
  rw [List.append_nil] at he hsum
  have hrule : RuleGoes (course text env) n 2 text 0 e := fun c hc => (hsum c hc).earlier (Nat.zero_le _)
  have hanswer := parse_goes p (by decide : ¬grammar.isEmpty = true) (by rw [hparsing]; exact Bool.false_ne_true) hrule
  split at hanswer
  · refine .inr ?_
    cases he with
    | @value m hsound hm =>
      obtain ⟨x, hparse, rfl⟩ := hanswer
      refine ⟨fun _ => ⟨m, hm, ?_⟩, fun h => absurd hsound h⟩
      rw [hparse]
      have hplace : (course text env).place text = 0 := Nat.sub_self _
      have hend : (course text env).place [] = text.length := Nat.sub_zero _
      rw [hplace, hend]
    | fault hbreaks => exact ⟨fun hsound => absurd hsound hbreaks.not_sound, fun _ => ⟨_, hbreaks, hanswer⟩⟩
  · next hdepth =>
    refine .inl ⟨hanswer, ?_⟩
    simp only [Tier.height] at hn
    omega

/-- Subtractions group from the left, and a variable is found under its lower-case letter. -/
theorem parse_sum_differences :
    (Parser.parse {} grammar client 2 (Bytes.ascii "7- 2-A")
      (Env.fresh { values := fun letter => if letter = Bytes.char 'a' then 1 else 0 })).1 =
      .ok (.tree ⟨.int 4, 0, 6⟩) := by
  have hnone : Blank [] := fun b hb => absurd hb List.not_mem_nil
  have hblank : Blank [0x20] := fun b hb => List.mem_singleton.mp hb ▸ by decide
  have hseven : Written .factor (.literal 7) ([0x37] ++ []) := .literal (by decide) rfl hnone
  have htwo : Written .factor (.literal 2) ([0x32] ++ []) := .literal (by decide) rfl hnone
  have hletter : Written .factor (.letter 0x41) [0x41] := .letter (by decide) hnone
  have hsum : Written .sum (.literal 7) [0x37] := .operand (.operand hseven)
  have hproduct : Written .product (.literal 2) [0x32] := .operand htwo
  have hproduct' : Written .product (.letter 0x41) [0x41] := .operand hletter
  have hwritten : Written .sum (.operate .sub (.operate .sub (.literal 7) (.literal 2)) (.letter 0x41))
      (Bytes.ascii "7- 2-A") := .joined rfl (.joined rfl hsum hblank hproduct) hnone hproduct'
  obtain ⟨i, _, hi, hparse⟩ := parse_sum
  obtain rfl : i = 2 := Option.some.inj (hi.symm.trans (by decide))
  rcases hparse hwritten {} (Env.fresh { values := fun letter => if letter = Bytes.char 'a' then 1 else 0 }) rfl with
    ⟨_, hdepth⟩ | ⟨hsound, _⟩
  · exact absurd hdepth (by decide)
  · obtain ⟨n, hn, hanswer⟩ := hsound (by decide)
    obtain rfl : n = 4 := Int64.toInt_inj.mp (hn.trans (by decide))
    exact hanswer

end Packrat.Calculator
