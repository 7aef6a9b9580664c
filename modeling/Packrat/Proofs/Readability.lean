import Packrat.Matcher
import Packrat.Proofs.Encodings
import Packrat.Proofs.Json.Tree
import Packrat.Proofs.Nonterminals
import Packrat.Value.Text

/-!
# `Packrat.Proofs.Readability` — printed values can be read in one way only

What is printed of a value tells its form, and where the next part ends. So the printed form of a value determines the
value up to spans, if its names and tags are such that they cannot be mistaken for other parts: they are identifiers,
a node without a tag starts with the name of a field, and so does a node whose tag is that of an option.

## Contents
- **Runs.** A run of bytes of a kind ends where a byte of another kind follows.
- **Texts and integers.** Quoted texts and decimal numbers, with anything behind them.
- **Names.** Identifiers and tags, and the name or tag in front of a text.
- **Legible values.** `Value.Legible`.
- **Forms.** The form of a value is seen in front of what is printed of it.
- **Reading.** `render_cancel`, by induction on the value, and `render_unambiguous`.
-/

namespace Packrat

open Source (StartsIn)

variable {t u r s : Bytes}

/-! ## Runs -/

section Runs

variable {p : UInt8 → Bool}

theorem takeWhile_run (ht : ∀ b ∈ t, p b = true) (hr : ∀ b, r.head? = some b → p b = false) :
    (t ++ r).takeWhile p = t ∧ (t ++ r).dropWhile p = r := by
  rw [List.takeWhile_append_of_pos ht, List.dropWhile_append_of_pos ht]
  cases r with
  | nil => exact ⟨List.append_nil t, rfl⟩
  | cons b r =>
    have hb : ¬p b = true := Bool.not_eq_true _ ▸ hr b rfl
    rw [List.takeWhile_cons_of_neg hb, List.dropWhile_cons_of_neg hb]
    exact ⟨List.append_nil t, rfl⟩

/-- Two runs of bytes of one kind are the same if they are followed by bytes of another kind in one text. -/
theorem run_cancel (ht : ∀ b ∈ t, p b = true) (hu : ∀ b ∈ u, p b = true)
    (hr : ∀ b, r.head? = some b → p b = false) (hs : ∀ b, s.head? = some b → p b = false)
    (h : t ++ r = u ++ s) : t = u ∧ r = s := by
  have ht := takeWhile_run ht hr
  have hu := takeWhile_run hu hs
  rw [h] at ht
  exact ⟨ht.1.symm.trans hu.1, ht.2.symm.trans hu.2⟩

end Runs

/-! ## Texts and integers -/

/-- The byte that a letter stands for behind a backslash. -/
def letterByte (letter : UInt8) : UInt8 :=
  if letter = Bytes.char 'n' then 0x0A
  else if letter = Bytes.char 'r' then 0x0D
  else if letter = Bytes.char 't' then 0x09
  else letter

/-- The text up to the first quote that no backslash stands before, and what follows. A backslash may already stand
before the first byte. -/
def unquote? (afterBackslash : Bool) : Bytes → Option (Bytes × Bytes)
  | [] => none
  | b :: rest =>
    if afterBackslash then (unquote? false rest).map fun (text, behind) => (letterByte b :: text, behind)
    else if b = Bytes.char '"' then some ([], rest)
    else if b = Bytes.char '\\' then unquote? true rest
    else (unquote? false rest).map fun (text, behind) => (b :: text, behind)

/-- A byte is written as a letter behind a backslash, or as it is. -/
theorem escape_cases (b : UInt8) :
    (∃ letter, quoteText.escape b = [Bytes.char '\\', letter] ∧ letterByte letter = b) ∨
      (quoteText.escape b = [b] ∧ b ≠ Bytes.char '"' ∧ b ≠ Bytes.char '\\') := by
  unfold quoteText.escape
  split_ifs with hquote hbackslash hfeed hreturn htab
  · exact .inl ⟨Bytes.char '"', rfl, (beq_iff_eq.mp hquote).symm⟩
  · exact .inl ⟨Bytes.char '\\', rfl, (beq_iff_eq.mp hbackslash).symm⟩
  · exact .inl ⟨Bytes.char 'n', rfl, (beq_iff_eq.mp hfeed).symm⟩
  · exact .inl ⟨Bytes.char 'r', rfl, (beq_iff_eq.mp hreturn).symm⟩
  · exact .inl ⟨Bytes.char 't', rfl, (beq_iff_eq.mp htab).symm⟩
  · exact .inr ⟨rfl, mt beq_iff_eq.mpr hquote, mt beq_iff_eq.mpr hbackslash⟩

theorem unquote?_escape (b : UInt8) (rest : Bytes) :
    unquote? false (quoteText.escape b ++ rest) =
      (unquote? false rest).map fun (text, behind) => (b :: text, behind) := by
  rcases escape_cases b with ⟨letter, hescape, hletter⟩ | ⟨hescape, hquote, hbackslash⟩
  · rw [hescape, ← hletter]
    rfl
  · rw [hescape, List.singleton_append, unquote?, if_neg Bool.false_ne_true, if_neg hquote, if_neg hbackslash]

theorem unquote?_quoted (t r : Bytes) :
    unquote? false (t.flatMap quoteText.escape ++ Bytes.char '"' :: r) = some (t, r) := by
  induction t with
  | nil => rfl
  | cons b t ih =>
    rw [List.flatMap_cons, List.append_assoc, unquote?_escape, ih]
    rfl

theorem quoteText_append (t r : Bytes) :
    quoteText t ++ r = Bytes.char '"' :: (t.flatMap quoteText.escape ++ Bytes.char '"' :: r) := by
  simp only [quoteText, List.cons_append, List.append_assoc, List.nil_append]

theorem quoteText_cancel (h : quoteText t ++ r = quoteText u ++ s) : t = u ∧ r = s := by
  rw [quoteText_append, quoteText_append] at h
  have hread := unquote?_quoted t r
  rw [(List.cons.inj h).2, unquote?_quoted] at hread
  cases hread
  exact ⟨rfl, rfl⟩

/-- The bytes of names, tags and numbers. -/
def isTagByte (b : UInt8) : Bool := b == Bytes.char '.' || Matcher.isIdentifierRune b.toNat

/-- What stands behind a part of a value: nothing, a blank or a closing bracket. -/
def EndsPart (r : Bytes) : Prop := StartsIn (Bytes.ascii " )]") r

theorem EndsPart.not_isTagByte (h : EndsPart r) (b : UInt8) (hb : r.head? = some b) : isTagByte b = false := by
  have hends : (Bytes.ascii " )]").all (fun b => !isTagByte b) = true := by decide
  exact Bool.not_eq_true' _ ▸ List.all_eq_true.mp hends b (h b hb)

namespace Decimal

theorem digit_bounds {n : Nat} {c : Char} (hc : c ∈ Nat.toDigits 10 n) :
    48 ≤ c.toNat ∧ c.toNat ≤ 57 ∧ (Bytes.char c).toNat = c.toNat := by
  have hdigit := Nat.isDigit_of_mem_toDigits (by decide) (by decide) hc
  rw [Char.isDigit, Bool.and_eq_true] at hdigit
  have hfirst : 48 ≤ c.toNat := of_decide_eq_true hdigit.1
  have hlast : c.toNat ≤ 57 := of_decide_eq_true hdigit.2
  exact ⟨hfirst, hlast, Utf8.toNat_toUInt8 (by omega)⟩

/-- The characters of a number are read off its bytes. -/
theorem toDigits_ofNat (n : Nat) : (ofNat n).map (fun b => Char.ofNat b.toNat) = Nat.toDigits 10 n := by
  rw [ofNat, List.map_map]
  conv => rhs; rw [← List.map_id (Nat.toDigits 10 n)]
  refine List.map_congr_left fun c hc => ?_
  show Char.ofNat (Bytes.char c).toNat = c
  rw [(digit_bounds hc).2.2, Char.ofNat_toNat]

theorem ofNat_injective {n m : Nat} (h : ofNat n = ofNat m) : n = m := by
  rw [← Nat.ofDigitChars_ten_toDigits (n := n), ← toDigits_ofNat, h, toDigits_ofNat,
    Nat.ofDigitChars_ten_toDigits]

theorem isTagByte_ofNat {n : Nat} : ∀ b ∈ ofNat n, isTagByte b = true := by
  intro b hb
  obtain ⟨c, hc, rfl⟩ := List.mem_map.mp hb
  obtain ⟨hfirst, hlast, hbyte⟩ := digit_bounds hc
  have hdigit : (decide (48 ≤ c.toNat) && decide (c.toNat ≤ 57)) = true := by simp [hfirst, hlast]
  rw [isTagByte, Matcher.isIdentifierRune, hbyte, hdigit, Bool.or_true, Bool.or_true]

theorem exists_ofNat (n : Nat) : ∃ d digits, ofNat n = d :: digits ∧ 48 ≤ d.toNat ∧ d.toNat ≤ 57 := by
  obtain ⟨c, digits, hdigits⟩ := List.exists_cons_of_ne_nil (Nat.toDigits_ne_nil (n := n) (b := 10))
  obtain ⟨hfirst, hlast, hbyte⟩ := digit_bounds (hdigits ▸ List.mem_cons_self : c ∈ Nat.toDigits 10 n)
  exact ⟨Bytes.char c, digits.map Bytes.char, by rw [ofNat, hdigits, List.map_cons], by omega, by omega⟩

theorem ofNat_cancel {n m : Nat} (hr : EndsPart r) (hs : EndsPart s) (h : ofNat n ++ r = ofNat m ++ s) :
    n = m ∧ r = s := by
  obtain ⟨hdigits, hrest⟩ := run_cancel isTagByte_ofNat isTagByte_ofNat hr.not_isTagByte hs.not_isTagByte h
  exact ⟨ofNat_injective hdigits, hrest⟩

/-- No natural number is written with a minus in front. -/
theorem minus_ne_ofNat (n : Nat) (t : Bytes) : Bytes.char '-' :: t ≠ ofNat n ++ r := by
  obtain ⟨d, digits, hdigits, hfirst, -⟩ := exists_ofNat n
  rw [hdigits]
  intro h
  rw [← (List.cons.inj h).1] at hfirst
  exact absurd hfirst (by decide)

theorem ofInt_cancel {n m : Int} (hr : EndsPart r) (hs : EndsPart s) (h : ofInt n ++ r = ofInt m ++ s) :
    n = m ∧ r = s := by
  cases n with
  | ofNat n =>
    cases m with
    | ofNat m =>
      obtain ⟨rfl, hrest⟩ := ofNat_cancel hr hs h
      exact ⟨rfl, hrest⟩
    | negSucc m => exact absurd h.symm (minus_ne_ofNat n _)
  | negSucc n =>
    cases m with
    | ofNat m => exact absurd h (minus_ne_ofNat m _)
    | negSucc m =>
      obtain ⟨hsucc, hrest⟩ := ofNat_cancel hr hs (List.cons.inj h).2
      exact ⟨congrArg Int.negSucc (Nat.succ.inj hsucc), hrest⟩

end Decimal

/-! ## Names -/

/-- A letter, an underscore or a rune beyond ASCII, and then also digits. -/
def IsIdentifier (name : Bytes) : Prop :=
  ∃ first rest, (∀ r ∈ first :: rest, r.isScalar = true) ∧ Matcher.isIdentifierStart first = true ∧
    (∀ r ∈ rest, Matcher.isIdentifierRune r = true) ∧ name = (first :: rest).flatMap Utf8.encode

/-- Identifiers with dots between them. -/
inductive IsTag : Bytes → Prop
  | identifier {name : Bytes} (h : IsIdentifier name) : IsTag name
  | dot {name rest : Bytes} (h : IsIdentifier name) (hrest : IsTag rest) :
    IsTag (name ++ (Bytes.ascii "." ++ rest))

theorem isTagByte_encode {r : Rune} (hscalar : r.isScalar = true) (hr : Matcher.isIdentifierRune r = true) :
    ∀ b ∈ Utf8.encode r, isTagByte b = true := by
  intro b hb
  by_cases hascii : r < 0x80
  · rw [Utf8.encode_of_lt hascii, List.mem_singleton] at hb
    have hbyte : r.toUInt8.toNat = r := Utf8.toNat_toUInt8 (Nat.lt_trans hascii (by decide))
    rw [hb, isTagByte, hbyte, hr, Bool.or_true]
  · have hle := Utf8.le_of_mem_encode hscalar hascii hb
    simp [isTagByte, Matcher.isIdentifierRune, Matcher.isIdentifierStart, hle]

theorem IsIdentifier.isTagByte {name : Bytes} (h : IsIdentifier name) : ∀ b ∈ name, isTagByte b = true := by
  obtain ⟨first, rest, hscalars, hfirst, hrest, rfl⟩ := h
  intro b hb
  obtain ⟨r, hr, hb⟩ := List.mem_flatMap.mp hb
  refine isTagByte_encode (hscalars r hr) ?_ b hb
  cases hr with
  | head => rw [Matcher.isIdentifierRune, hfirst, Bool.true_or]
  | tail _ hr => exact hrest r hr

theorem IsIdentifier.ne_nil {name : Bytes} (h : IsIdentifier name) : name ≠ [] := by
  obtain ⟨first, rest, hscalars, -, -, rfl⟩ := h
  exact List.append_ne_nil_of_left_ne_nil (Utf8.encode_ne_nil (hscalars first List.mem_cons_self)) _

theorem IsTag.isTagByte {tag : Bytes} (h : IsTag tag) : ∀ b ∈ tag, isTagByte b = true := by
  induction h with
  | identifier h => exact h.isTagByte
  | dot h _ ih =>
    have hdot : ∀ b ∈ Bytes.ascii ".", Packrat.isTagByte b = true := by decide
    intro b hb
    rw [List.mem_append, List.mem_append] at hb
    exact hb.elim (h.isTagByte b) fun hb => hb.elim (hdot b) (ih b)

theorem IsTag.ne_nil {tag : Bytes} (h : IsTag tag) : tag ≠ [] := by
  cases h with
  | identifier h => exact h.ne_nil
  | dot h => exact List.append_ne_nil_of_left_ne_nil h.ne_nil _

/-- Whether an equals sign follows the word in front of a text. -/
def isLabelled (t : Bytes) : Bool := (t.dropWhile isTagByte).head? == some (Bytes.char '=')

/-- The name in front of a text, if an equals sign follows it. -/
def nameIn (t : Bytes) : Bytes := if isLabelled t then t.takeWhile isTagByte else []

/-- The tag in front of a text: a word, unless it is the name of a field. -/
def tagIn (t : Bytes) : Bytes := if isLabelled t then [] else t.takeWhile isTagByte

/-- What stands behind a word decides whether it is a label. -/
theorem isLabelled_run (ht : ∀ b ∈ t, isTagByte b = true) (r : Bytes) : isLabelled (t ++ r) = isLabelled r := by
  rw [isLabelled, List.dropWhile_append_of_pos ht, isLabelled]

theorem EndsPart.not_isLabelled (h : EndsPart r) : isLabelled r = false := by
  cases r with
  | nil => rfl
  | cons b r =>
    have hb := h.not_isTagByte b rfl
    have hne : b ≠ Bytes.char '=' := by
      rintro rfl
      exact absurd (h _ rfl) (by decide)
    rw [isLabelled, List.dropWhile_cons_of_neg (by rw [hb]; exact Bool.false_ne_true)]
    simpa using hne

/-! ## Legible values -/

mutual

/-- The names and tags of a value can be told from its other parts, and no object of the host program occurs. -/
def Value.Legible : Value → Prop
  | .unit => True
  | .bool _ => True
  | .int _ => True
  | .text _ => True
  | .list elements => LegibleElements elements
  | .option none => True
  | .option (some ⟨v, _, _⟩) => v.Legible
  | .node tag fields =>
    (tag = [] ∨ IsTag tag) ∧ (tag = [] → ∃ name, fields.head?.map (·.1) = some name ∧ name ≠ []) ∧
      (tag = Bytes.ascii "some" → fields.head?.map (·.1) ≠ some []) ∧ LegibleFields fields
  | .host _ => False
termination_by structural v => v

/-- The elements of a list are legible. -/
def LegibleElements : List (Spanned Value) → Prop
  | [] => True
  | ⟨v, _, _⟩ :: rest => v.Legible ∧ LegibleElements rest
termination_by structural elements => elements

/-- The fields of a node are legible. -/
def LegibleFields : List (Bytes × Spanned Value) → Prop
  | [] => True
  | (name, ⟨v, _, _⟩) :: rest => (name = [] ∨ IsIdentifier name) ∧ v.Legible ∧ LegibleFields rest
termination_by structural fields => fields

end

namespace Value

theorem Legible.fields {tag : Bytes} {fields : List Field} (h : (Value.node tag fields).Legible) :
    LegibleFields fields := h.2.2.2

/-- Behind an element there is the next one, or the list ends. -/
theorem ends_elements (elements : List (Spanned Value)) (r : Bytes) :
    EndsPart (renderElements false elements ++ Bytes.char ']' :: r) := by
  cases elements with
  | nil => exact StartsIn.cons (by decide)
  | cons x rest => exact StartsIn.cons (b := Bytes.char ' ') (by decide)

/-- Behind a field there is the next one, or the node ends. -/
theorem ends_fields (fields : List Field) (r : Bytes) :
    EndsPart (renderFields false fields ++ Bytes.char ')' :: r) := by
  cases fields with
  | nil => exact StartsIn.cons (by decide)
  | cons x rest => exact StartsIn.cons (b := Bytes.char ' ') (by decide)

/-- What is printed of a value does not start with a label. -/
theorem not_isLabelled_render (v : Value) (hr : EndsPart r) : isLabelled (v.render ++ r) = false := by
  cases v with
  | unit => rfl
  | bool b =>
    have hword : ∀ b' ∈ boolWord b, isTagByte b' = true := by revert b; decide
    exact (isLabelled_run hword r).trans hr.not_isLabelled
  | int n =>
    rw [render]
    cases n.toInt with
    | ofNat n => exact (isLabelled_run Decimal.isTagByte_ofNat r).trans hr.not_isLabelled
    | negSucc n => rfl
  | text t => rfl
  | list elements => rfl
  | option content =>
    cases content with
    | none =>
      have hword : ∀ b ∈ Bytes.ascii "none", isTagByte b = true := by decide
      exact (isLabelled_run hword r).trans hr.not_isLabelled
    | some x => rfl
  | node tag fields => rfl
  | host object => rfl

theorem nameIn_label {name : Bytes} (hname : name = [] ∨ IsIdentifier name) (v : Value) (hr : EndsPart r) :
    nameIn (label name ++ (v.render ++ r)) = name := by
  rcases hname with rfl | hname
  · exact if_neg (Bool.not_eq_true _ ▸ not_isLabelled_render v hr)
  · have hne : name.isEmpty = false := List.isEmpty_eq_false_iff.mpr hname.ne_nil
    rw [label, hne, if_neg Bool.false_ne_true, List.append_assoc, nameIn, isLabelled_run hname.isTagByte]
    have hsign : ∀ b, (Bytes.ascii "=" ++ (v.render ++ r)).head? = some b → isTagByte b = false := by
      rintro _ ⟨⟩
      rfl
    exact (if_pos rfl).trans (takeWhile_run hname.isTagByte hsign).1

/-- What is printed of a node behind its bracket. -/
def nodeText (tag : Bytes) (fields : List Field) (r : Bytes) : Bytes :=
  tag ++ (renderFields tag.isEmpty fields ++ Bytes.char ')' :: r)

/-- A node starts with a label if it has no tag, and only then. -/
theorem isLabelled_node {tag : Bytes} {fields : List Field} (h : (Value.node tag fields).Legible) (r : Bytes) :
    isLabelled (nodeText tag fields r) = tag.isEmpty := by
  obtain ⟨htag, huntagged, -, hfields⟩ := h
  rcases htag with rfl | htag
  · -- the name of the first field stands right behind the bracket
    obtain ⟨first, hfirst, hne⟩ := huntagged rfl
    cases fields with
    | nil => cases hfirst
    | cons field rest =>
      obtain ⟨name, v, start, stop⟩ := field
      cases hfirst
      have hname : name.isEmpty = false := List.isEmpty_eq_false_iff.mpr hne
      have hlabel (t : Bytes) : isLabelled (name ++ (Bytes.ascii "=" ++ t)) = true :=
        isLabelled_run (hfields.1.resolve_left hne).isTagByte _
      simpa [nodeText, renderFields, separator, label, hname] using hlabel _
  · rw [nodeText, isLabelled_run htag.isTagByte, List.isEmpty_eq_false_iff.mpr htag.ne_nil]
    exact (ends_fields fields r).not_isLabelled

/-- The tag of a node is seen in front of what is printed behind its bracket. -/
theorem tagIn_node {tag : Bytes} {fields : List Field} (h : (Value.node tag fields).Legible) (r : Bytes) :
    tagIn (nodeText tag fields r) = tag := by
  rw [tagIn, isLabelled_node h]
  rcases h.1 with rfl | htag
  · rfl
  · have hne : tag.isEmpty = false := List.isEmpty_eq_false_iff.mpr htag.ne_nil
    rw [nodeText, hne, if_neg Bool.false_ne_true]
    exact (takeWhile_run htag.isTagByte (ends_fields fields r).not_isTagByte).1

/-! ## Forms -/

/-- The forms of values. -/
inductive Form where
  | unit
  | bool
  | int
  | text
  | list
  | absent
  | present
  | node
  | host

def form : Value → Form
  | .unit => .unit
  | .bool _ => .bool
  | .int _ => .int
  | .text _ => .text
  | .list _ => .list
  | .option none => .absent
  | .option (some _) => .present
  | .node _ _ => .node
  | .host _ => .host

/-- What stands in front of an option that is present, behind the bracket. -/
def someWord : Bytes := Bytes.ascii "some "

/-- The form that a text starts like. What starts like an option that is present is a node if a label follows. -/
def formIn : Bytes → Form
  | [] => .unit
  | b :: t =>
    if b = Bytes.char '"' then .text
    else if b = Bytes.char '[' then .list
    else if b = Bytes.char '(' then
      if t.head? = some (Bytes.char ')') then .unit
      else if Bytes.startsWith someWord t ∧ nameIn (t.drop someWord.length) = [] then .present
      else .node
    else if b = Bytes.char 'n' then .absent
    else if b = Bytes.char 't' ∨ b = Bytes.char 'f' then .bool
    else if b = Bytes.char '-' ∨ 48 ≤ b.toNat ∧ b.toNat ≤ 57 then .int
    else .host

theorem render_node_append (tag : Bytes) (fields : List Field) (r : Bytes) :
    (Value.node tag fields).render ++ r = Bytes.char '(' :: nodeText tag fields r := by
  simp only [render, List.append_assoc]
  rfl

theorem render_present_append (v : Value) (start stop : Nat) (r : Bytes) :
    (Value.option (some ⟨v, start, stop⟩)).render ++ r =
      Bytes.char '(' :: (someWord ++ (v.render ++ Bytes.char ')' :: r)) := by
  simp only [render, List.append_assoc]
  rfl

theorem render_list_append (elements : List (Spanned Value)) (r : Bytes) :
    (Value.list elements).render ++ r = Bytes.char '[' :: (renderElements true elements ++ Bytes.char ']' :: r) := by
  simp only [render, List.append_assoc]
  rfl

theorem ends_closing (r : Bytes) : EndsPart (Bytes.char ')' :: r) := StartsIn.cons (by decide)

/-- Behind the word of an option that is present, a node goes on with a label. -/
theorem nameIn_node {tag : Bytes} {fields : List Field} (h : (Value.node tag fields).Legible)
    (ht : nodeText tag fields r = someWord ++ t) : nameIn t ≠ [] := by
  -- the word is the whole tag, since a blank ends it
  have htag : tag = Bytes.ascii "some" := by
    rw [← tagIn_node h r, ht]
    rfl
  obtain ⟨-, -, hsome, hfields⟩ := h
  subst htag
  cases fields with
  | nil => cases ht
  | cons field rest =>
    obtain ⟨name, v, start, stop⟩ := field
    have hfront : nodeText (Bytes.ascii "some") ((name, ⟨v, start, stop⟩) :: rest) r =
        someWord ++ (label name ++ (v.render ++ (renderFields false rest ++ Bytes.char ')' :: r))) := by
      simp only [nodeText, renderFields, List.append_assoc]
      rfl
    rw [← List.append_cancel_left (hfront.symm.trans ht), nameIn_label hfields.1 v (ends_fields rest r)]
    exact fun hname => hsome rfl (congrArg some hname)

theorem formIn_bracket (t : Bytes) : formIn (Bytes.char '(' :: t) =
    if t.head? = some (Bytes.char ')') then .unit
    else if Bytes.startsWith someWord t ∧ nameIn (t.drop someWord.length) = [] then .present
    else .node := rfl

/-- A node does not end where it starts. -/
theorem head_node {tag : Bytes} {fields : List Field} (h : (Value.node tag fields).Legible) (r : Bytes) :
    (nodeText tag fields r).head? ≠ some (Bytes.char ')') := by
  intro hhead
  obtain ⟨t, ht⟩ := List.head?_eq_some_iff.mp hhead
  have hlabelled := isLabelled_node h r
  have htag := tagIn_node h r
  rw [ht] at hlabelled htag
  rw [← htag] at hlabelled
  cases hlabelled

theorem formIn_node {tag : Bytes} {fields : List Field} (h : (Value.node tag fields).Legible) (r : Bytes) :
    formIn (Bytes.char '(' :: nodeText tag fields r) = .node := by
  have hpresent : ¬(Bytes.startsWith someWord (nodeText tag fields r) = true ∧
      nameIn ((nodeText tag fields r).drop someWord.length) = []) := by
    rintro ⟨hstart, hname⟩
    obtain ⟨t, ht⟩ := Bytes.startsWith_iff.mp hstart
    rw [ht, List.drop_left] at hname
    exact nameIn_node h ht hname
  rw [formIn_bracket, if_neg (head_node h r), if_neg hpresent]

theorem formIn_present (v : Value) (r : Bytes) :
    formIn (Bytes.char '(' :: (someWord ++ (v.render ++ Bytes.char ')' :: r))) = .present := by
  have hname : nameIn (v.render ++ Bytes.char ')' :: r) = [] := nameIn_label (.inl rfl) v (ends_closing r)
  have hstart : Bytes.startsWith someWord (someWord ++ (v.render ++ Bytes.char ')' :: r)) = true :=
    Bytes.startsWith_iff.mpr ⟨_, rfl⟩
  have hhead : (someWord ++ (v.render ++ Bytes.char ')' :: r)).head? ≠ some (Bytes.char ')') :=
    show some (Bytes.char 's') ≠ _ by decide
  rw [formIn_bracket, if_neg hhead, List.drop_left, if_pos ⟨hstart, hname⟩]

theorem formIn_int (n : Int) (r : Bytes) : formIn (Decimal.ofInt n ++ r) = .int := by
  cases n with
  | negSucc n => rfl
  | ofNat n =>
    obtain ⟨d, digits, hdigits, hfirst, hlast⟩ := Decimal.exists_ofNat n
    have hne {b : UInt8} (hb : b.toNat < 48 ∨ 57 < b.toNat) : d ≠ b := by
      rintro rfl
      omega
    rw [Decimal.ofInt, hdigits, List.cons_append, formIn, if_neg (hne (by decide)), if_neg (hne (by decide)),
      if_neg (hne (by decide)), if_neg (hne (by decide)),
      if_neg (not_or.mpr ⟨hne (by decide), hne (by decide)⟩), if_pos (.inr ⟨hfirst, hlast⟩)]

/-- What is printed of a value starts like its form. -/
theorem formIn_render {v : Value} (h : v.Legible) (r : Bytes) : formIn (v.render ++ r) = v.form := by
  cases v with
  | unit => rfl
  | bool b => cases b <;> rfl
  | int n => exact formIn_int n.toInt r
  | text t => rfl
  | list elements => rfl
  | option content =>
    cases content with
    | none => rfl
    | some x =>
      obtain ⟨v, start, stop⟩ := x
      rw [render_present_append]
      exact formIn_present v r
  | node tag fields =>
    rw [render_node_append]
    exact formIn_node h r
  | host object => exact h.elim

/-- Two values are of one form. -/
inductive Alike : Value → Value → Prop
  | unit : Alike .unit .unit
  | bool (a b : Bool) : Alike (.bool a) (.bool b)
  | int (n m : Int64) : Alike (.int n) (.int m)
  | text (t u : Bytes) : Alike (.text t) (.text u)
  | list (xs ys : List (Spanned Value)) : Alike (.list xs) (.list ys)
  | absent : Alike (.option none) (.option none)
  | present (x y : Spanned Value) : Alike (.option (some x)) (.option (some y))
  | node (tag tag' : Bytes) (xs ys : List Field) : Alike (.node tag xs) (.node tag' ys)
  | host (x y : HostObject) : Alike (.host x) (.host y)

theorem Alike.of_form : ∀ (v w : Value), v.form = w.form → Alike v w
  | .unit, .unit, _ => .unit
  | .bool a, .bool b, _ => .bool a b
  | .int n, .int m, _ => .int n m
  | .text t, .text u, _ => .text t u
  | .list xs, .list ys, _ => .list xs ys
  | .option none, .option none, _ => .absent
  | .option (some x), .option (some y), _ => .present x y
  | .node tag xs, .node tag' ys, _ => .node tag tag' xs ys
  | .host x, .host y, _ => .host x y

end Value

/-! ## Reading -/

namespace Value

/-- Legible values are of one form if what is printed of them starts one text. -/
theorem alike_of_render {v w : Value} (hv : v.Legible) (hw : w.Legible) (h : v.render ++ r = w.render ++ s) :
    Alike v w :=
  Alike.of_form v w ((formIn_render hv r).symm.trans (h ▸ formIn_render hw s))

theorem boolWord_cancel {a b : Bool} (h : boolWord a ++ r = boolWord b ++ s) : a = b ∧ r = s := by
  cases a <;> cases b
  · exact ⟨rfl, List.append_cancel_left h⟩
  · exact absurd (List.cons.inj h).1 (by decide)
  · exact absurd (List.cons.inj h).1 (by decide)
  · exact ⟨rfl, List.append_cancel_left h⟩

/-- No legible value starts with a byte that no form starts with. -/
theorem render_ne {v : Value} (hv : v.Legible) (h : formIn t = .host) : v.render ++ r ≠ t := by
  rintro rfl
  rw [formIn_render hv] at h
  cases v with
  | host object => exact hv
  | option content => cases content <;> cases h
  | _ => cases h

theorem renderElements_cons (fresh : Bool) (v : Value) (start stop : Nat) (rest : List (Spanned Value)) (r : Bytes) :
    renderElements fresh (⟨v, start, stop⟩ :: rest) ++ r =
      separator fresh ++ (v.render ++ (renderElements false rest ++ r)) := by
  simp only [renderElements, List.append_assoc]

theorem renderFields_cons (fresh : Bool) (name : Bytes) (v : Value) (start stop : Nat) (rest : List Field)
    (r : Bytes) :
    renderFields fresh ((name, ⟨v, start, stop⟩) :: rest) ++ r =
      separator fresh ++ (label name ++ (v.render ++ (renderFields false rest ++ r))) := by
  simp only [renderFields, List.append_assoc]

/-- A list that goes on does not end. -/
theorem element_ne_closing {v : Value} (hv : v.Legible) (fresh : Bool) :
    separator fresh ++ (v.render ++ t) ≠ Bytes.char ']' :: r := by
  cases fresh with
  | true => exact render_ne hv rfl
  | false => exact fun h => absurd (List.cons.inj h).1 (by decide)

/-- A node that goes on does not end. -/
theorem field_ne_closing {name : Bytes} {v : Value} (hname : name = [] ∨ IsIdentifier name) (hv : v.Legible)
    (ht : EndsPart t) (fresh : Bool) : separator fresh ++ (label name ++ (v.render ++ t)) ≠ Bytes.char ')' :: r := by
  cases fresh with
  | false => exact fun h => absurd (List.cons.inj h).1 (by decide)
  | true =>
    intro h
    -- no label stands in front of the bracket, so that the value would start with it
    have hnone : name = [] := (nameIn_label hname v ht).symm.trans (congrArg nameIn h)
    subst hnone
    exact render_ne hv rfl h

-- Induction on the first value or list. The second value is of the same form, so that one case of it remains; what
-- stands behind a part is the rest of the list, which is why any texts that end a part may stand there.
mutual

/-- What is printed of legible values, with what stands behind them, can be told apart. -/
theorem render_cancel : ∀ (v w : Value) {r s : Bytes}, v.Legible → w.Legible → EndsPart r → EndsPart s →
    v.render ++ r = w.render ++ s → v.unspanned = w.unspanned ∧ r = s
  | .unit, w, _, _, hv, hw, _, _, h => by
    cases alike_of_render hv hw h
    exact ⟨rfl, List.append_cancel_left h⟩
  | .bool a, w, _, _, hv, hw, _, _, h => by
    cases alike_of_render hv hw h
    obtain ⟨rfl, hrest⟩ := boolWord_cancel h
    exact ⟨rfl, hrest⟩
  | .int n, w, _, _, hv, hw, hr, hs, h => by
    cases alike_of_render hv hw h
    obtain ⟨hn, hrest⟩ := Decimal.ofInt_cancel hr hs h
    exact ⟨congrArg Value.int (Int64.toInt_inj.mp hn), hrest⟩
  | .text t, w, _, _, hv, hw, _, _, h => by
    cases alike_of_render hv hw h
    obtain ⟨rfl, hrest⟩ := quoteText_cancel h
    exact ⟨rfl, hrest⟩
  | .list xs, w, _, _, hv, hw, _, _, h => by
    cases alike_of_render hv hw h with
    | list _ ys =>
      rw [render_list_append, render_list_append] at h
      obtain ⟨hxs, hrest⟩ := elements_cancel xs ys hv hw (List.cons.inj h).2
      exact ⟨congrArg Value.list hxs, hrest⟩
  | .option none, w, _, _, hv, hw, _, _, h => by
    cases alike_of_render hv hw h
    exact ⟨rfl, List.append_cancel_left h⟩
  | .option (some ⟨v, start, stop⟩), w, r, s, hv, hw, _, _, h => by
    cases alike_of_render hv hw h with
    | present _ y =>
      obtain ⟨w, start', stop'⟩ := y
      rw [render_present_append, render_present_append] at h
      obtain ⟨hvalue, hrest⟩ := render_cancel v w hv hw (ends_closing r) (ends_closing s)
        (List.append_cancel_left (List.cons.inj h).2)
      exact ⟨congrArg (fun v => Value.option (some ⟨v, 0, 0⟩)) hvalue, (List.cons.inj hrest).2⟩
  | .node tag xs, w, r, s, hv, hw, _, _, h => by
    cases alike_of_render hv hw h with
    | node _ tag' _ ys =>
      rw [render_node_append, render_node_append] at h
      have htext := (List.cons.inj h).2
      have htag : tag = tag' := by rw [← tagIn_node hv r, htext, tagIn_node hw s]
      subst htag
      obtain ⟨hxs, hrest⟩ := fields_cancel xs ys hv.fields hw.fields (List.append_cancel_left htext)
      exact ⟨congrArg (Value.node tag) hxs, hrest⟩
  | .host _, _, _, _, hv, _, _, _, _ => hv.elim

theorem elements_cancel : ∀ (xs ys : List (Spanned Value)) {fresh : Bool} {r s : Bytes},
    LegibleElements xs → LegibleElements ys →
    renderElements fresh xs ++ Bytes.char ']' :: r = renderElements fresh ys ++ Bytes.char ']' :: s →
    unspannedElements xs = unspannedElements ys ∧ r = s
  | [], [], _, _, _, _, _, h => ⟨rfl, (List.cons.inj h).2⟩
  | [], ⟨w, start, stop⟩ :: ys, fresh, _, _, _, hys, h => by
    rw [renderElements_cons] at h
    exact absurd h.symm (element_ne_closing hys.1 fresh)
  | ⟨v, start, stop⟩ :: xs, [], fresh, _, _, hxs, _, h => by
    rw [renderElements_cons] at h
    exact absurd h (element_ne_closing hxs.1 fresh)
  | ⟨v, _, _⟩ :: xs, ⟨w, _, _⟩ :: ys, _, r, s, hxs, hys, h => by
    rw [renderElements_cons, renderElements_cons] at h
    obtain ⟨hvalue, hrest⟩ := render_cancel v w hxs.1 hys.1 (ends_elements xs r) (ends_elements ys s)
      (List.append_cancel_left h)
    obtain ⟨htail, hrest⟩ := elements_cancel xs ys hxs.2 hys.2 hrest
    exact ⟨by rw [unspannedElements, unspannedElements, hvalue, htail], hrest⟩

theorem fields_cancel : ∀ (xs ys : List Field) {fresh : Bool} {r s : Bytes},
    LegibleFields xs → LegibleFields ys →
    renderFields fresh xs ++ Bytes.char ')' :: r = renderFields fresh ys ++ Bytes.char ')' :: s →
    unspannedFields xs = unspannedFields ys ∧ r = s
  | [], [], _, _, _, _, _, h => ⟨rfl, (List.cons.inj h).2⟩
  | [], (name, ⟨w, start, stop⟩) :: ys, fresh, _, s, _, hys, h => by
    rw [renderFields_cons] at h
    exact absurd h.symm (field_ne_closing hys.1 hys.2.1 (ends_fields ys s) fresh)
  | (name, ⟨v, start, stop⟩) :: xs, [], fresh, r, _, hxs, _, h => by
    rw [renderFields_cons] at h
    exact absurd h (field_ne_closing hxs.1 hxs.2.1 (ends_fields xs r) fresh)
  | (name, ⟨v, _, _⟩) :: xs, (name', ⟨w, _, _⟩) :: ys, _, r, s, hxs, hys, h => by
    rw [renderFields_cons, renderFields_cons] at h
    have hlabelled := List.append_cancel_left h
    have hname : name = name' := by
      rw [← nameIn_label hxs.1 v (ends_fields xs r), hlabelled, nameIn_label hys.1 w (ends_fields ys s)]
    subst hname
    obtain ⟨hvalue, hrest⟩ := render_cancel v w hxs.2.1 hys.2.1 (ends_fields xs r) (ends_fields ys s)
      (List.append_cancel_left hlabelled)
    obtain ⟨htail, hrest⟩ := fields_cancel xs ys hxs.2.2 hys.2.2 hrest
    exact ⟨by rw [unspannedFields, unspannedFields, hvalue, htail], hrest⟩

end

/-- **Printed values are unambiguous.** Legible values that are printed alike are the same up to their spans. -/
theorem render_unambiguous (v w : Value) (hv : v.Legible) (hw : w.Legible) (h : v.render = w.render) :
    v.unspanned = w.unspanned :=
  (render_cancel v w hv hw StartsIn.nil StartsIn.nil (congrArg (· ++ []) h)).1

/-- A node tagged like an option, `(some of="\"" [-3 (some ())])`, with the spans of its parts from some offset on. -/
def someNode (start : Nat) : Value :=
  .node (Bytes.ascii "some")
    [(Bytes.ascii "of", ⟨.text (Bytes.ascii "\""), start, start + 3⟩),
      ([], ⟨.list [⟨.int (-3), start + 4, start + 6⟩,
          ⟨.option (some ⟨.unit, start + 7, start + 9⟩), start + 7, start + 9⟩],
        start + 3, start + 10⟩)]

theorem legible_someNode (start : Nat) : (someNode start).Legible := by
  have htag : IsIdentifier (Bytes.ascii "some") :=
    ⟨0x73, [0x6F, 0x6D, 0x65], by decide, by decide, by decide, by decide⟩
  have hname : IsIdentifier (Bytes.ascii "of") :=
    ⟨0x6F, [0x66], by decide, by decide, by decide, by decide⟩
  have hempty : Bytes.ascii "some" ≠ [] := by decide
  have hnamed : some (Bytes.ascii "of") ≠ some [] := by decide
  exact ⟨.inr (.identifier htag), fun h => absurd h hempty, fun _ => hnamed, .inr hname, trivial, .inl rfl,
    ⟨trivial, trivial, trivial⟩, trivial⟩

theorem unspanned_someNode : (someNode 0).Legible ∧ (someNode 7).Legible ∧
    (someNode 0).render = (someNode 7).render ∧ (someNode 0).unspanned = (someNode 7).unspanned :=
  have hrender : (someNode 0).render = (someNode 7).render := by decide +kernel
  ⟨legible_someNode 0, legible_someNode 7, hrender,
    render_unambiguous (someNode 0) (someNode 7) (legible_someNode 0) (legible_someNode 7) hrender⟩

/-- A node that is not legible is printed like an option. -/
example :
    (Value.node (Bytes.ascii "some") [([], ⟨.unit, 0, 0⟩)]).render = (Value.option (some ⟨.unit, 0, 0⟩)).render := by
  decide

end Value

end Packrat
