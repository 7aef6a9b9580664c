import Packrat.Json.Formatter
import Packrat.Proofs.Json.Acceptance
import Packrat.Proofs.Json.Strings
import Packrat.Proofs.Queries

/-!
# `Packrat.Proofs.Json.Formatting` — formatted documents are read again

Writing the document of a text gives the text of another tree of the document: one in which every character is
written as the printer escapes it and the white space is that of the layout. It nests no more calls, so that what has
been read can be written and read again.

## Contents
- **Characters.** `inscribed`: how the printer writes a code point.
- **Trees.** `Concrete.laidOut`, with its document and its depth.
- **Texts.** What is written is the text of the tree.
- **Formatting.** `format_roundtrip`.
-/

namespace Packrat.Json

/-! ## Characters -/

/-- A code point as the printer writes it. -/
def inscribed (r : Rune) : Glyph :=
  if r = 0x22 then .short (Bytes.char '"')
  else if r = 0x5C then .short (Bytes.char '\\')
  else if r = 0x08 then .short (Bytes.char 'b')
  else if r = 0x0C then .short (Bytes.char 'f')
  else if r = 0x0A then .short (Bytes.char 'n')
  else if r = 0x0D then .short (Bytes.char 'r')
  else if r = 0x09 then .short (Bytes.char 't')
  else if r < 0x20 then .code (Bytes.ascii "00" ++ [hexDigit (r / 16), hexDigit (r % 16)])
  else if r.isScalar then .plain r
  else .plain Rune.replacement

/-- A code point that stands for itself. -/
theorem inscribed_plain {r : Nat} (hcontrol : 0x20 ≤ r) (hquote : r ≠ 0x22) (hbackslash : r ≠ 0x5C) :
    inscribed r = .plain (if Rune.isScalar r = true then r else Rune.replacement) := by
  have hlarge : ∀ m : Nat, m < 0x20 → ¬r = m := fun m hm => Nat.ne_of_gt (Nat.lt_of_lt_of_le hm hcontrol)
  unfold inscribed
  rw [if_neg hquote, if_neg hbackslash, if_neg (hlarge 0x08 (by decide)), if_neg (hlarge 0x0C (by decide)),
    if_neg (hlarge 0x0A (by decide)), if_neg (hlarge 0x0D (by decide)), if_neg (hlarge 0x09 (by decide)),
    if_neg (Nat.not_lt_of_le hcontrol)]
  split <;> rfl

/-- What holds of the code points that need an escape can be computed. -/
theorem forall_inscribed {P : Rune → Prop} [DecidablePred P] (hsmall : ∀ r ∈ List.range 0x60, P r)
    (hplain : ∀ r : Nat, 0x20 ≤ r → r ≠ 0x22 → r ≠ 0x5C → P r) (r : Rune) : P r := by
  by_cases h : r < 0x60
  · exact hsmall r (List.mem_range.mpr h)
  · have hlarge : ∀ r : Nat, ¬r < 0x60 → 0x20 ≤ r ∧ r ≠ 0x22 ∧ r ≠ 0x5C := fun r _ => by omega
    obtain ⟨hcontrol, hquote, hbackslash⟩ := hlarge r h
    exact hplain r hcontrol hquote hbackslash

theorem escapeByte_self {b : UInt8} (hcontrol : 0x20 ≤ b.toNat) (hquote : b.toNat ≠ 0x22) (hbackslash : b.toNat ≠ 0x5C) :
    escapeByte b = [b] := by
  have hall := forall_byte (p := fun b => decide (b.toNat < 0x20) || b.toNat == 0x22 || b.toNat == 0x5C ||
    escapeByte b == [b]) (by decide +kernel) b
  simp only [Bool.or_eq_true, decide_eq_true_eq, beq_iff_eq] at hall
  rcases hall with ((h | h) | h) | h
  · omega
  · exact absurd h hquote
  · exact absurd h hbackslash
  · exact h

/-- The bytes of a scalar value that stands for itself are not escaped. -/
theorem escape_encode {r : Nat} (hscalar : Rune.isScalar r = true) (hcontrol : 0x20 ≤ r) (hquote : r ≠ 0x22)
    (hbackslash : r ≠ 0x5C) : (Utf8.encode r).flatMap escapeByte = Utf8.encode r := by
  have hself : ∀ b ∈ Utf8.encode r, escapeByte b = [b] := by
    intro b hb
    by_cases hone : r < 0x80
    · rw [Utf8.encode_of_lt hone, List.mem_singleton] at hb
      have hvalue : b.toNat = r := by rw [hb, Utf8.toNat_toUInt8 (by omega)]
      exact escapeByte_self (by omega) (by omega) (by omega)
    · have hlarge := Utf8.le_of_mem_encode hscalar hone hb
      exact escapeByte_self (by omega) (by omega) (by omega)
  rw [List.flatMap_congr hself, List.flatMap_singleton']

theorem inscribed_valid (r : Rune) : (inscribed r).Valid := by
  refine forall_inscribed (P := fun r => (inscribed r).Valid) (by decide +kernel) ?_ r
  intro r hcontrol hquote hbackslash
  rw [inscribed_plain hcontrol hquote hbackslash]
  split
  · next hscalar => exact ⟨hscalar, hcontrol, hquote, hbackslash⟩
  · decide

theorem denotes_inscribed (r : Rune) : (inscribed r).denotes = Utf8.encode r := by
  refine forall_inscribed (P := fun r => (inscribed r).denotes = Utf8.encode r) (by decide +kernel) ?_ r
  intro r hcontrol hquote hbackslash
  rw [inscribed_plain hcontrol hquote hbackslash]
  split
  · rfl
  · next hscalar => exact (Utf8.encode_of_not_isScalar (Bool.eq_false_iff.mpr hscalar)).symm

theorem text_inscribed (r : Rune) : (inscribed r).text = (Utf8.encode r).flatMap escapeByte := by
  refine forall_inscribed (P := fun r => (inscribed r).text = (Utf8.encode r).flatMap escapeByte)
    (by decide +kernel) ?_ r
  intro r hcontrol hquote hbackslash
  rw [inscribed_plain hcontrol hquote hbackslash]
  split
  · next hscalar => exact (escape_encode hscalar hcontrol hquote hbackslash).symm
  · next hscalar =>
    rw [Utf8.encode_of_not_isScalar (Bool.eq_false_iff.mpr hscalar)]
    decide

namespace Glyph

variable {g : Glyph}

/-- A character as the printer writes what it denotes. -/
def rewritten (g : Glyph) : Glyph := inscribed g.point

theorem rewritten_valid (g : Glyph) : g.rewritten.Valid := inscribed_valid g.point

theorem denotes_rewritten (h : g.Valid) : g.rewritten.denotes = g.denotes := by
  rw [rewritten, denotes_inscribed, denotes_eq_encode h]

theorem text_rewritten (h : g.Valid) : g.rewritten.text = g.denotes.flatMap escapeByte := by
  rw [rewritten, text_inscribed, denotes_eq_encode h]

/-- What had to be escaped still has to be, in no longer a way. -/
theorem depth_rewritten (h : g.Valid) : g.rewritten.depth ≤ g.depth := by
  cases g with
  | plain r =>
    obtain ⟨hscalar, hcontrol, hquote, hbackslash⟩ := h
    rw [rewritten, point, inscribed_plain hcontrol hquote hbackslash]
    exact Nat.le_refl 1
  | short letter =>
    have hletters : letter ∈ [0x22, 0x5C, 0x2F, 0x62, 0x66, 0x6E, 0x72, 0x74] := h
    simp only [List.mem_cons, List.not_mem_nil, or_false] at hletters
    rcases hletters with rfl | rfl | rfl | rfl | rfl | rfl | rfl | rfl <;> decide
  | code digits =>
    generalize (code digits).rewritten = g
    cases g with
    | plain r => exact Nat.le_succ_of_le (Nat.le_succ 1)
    | short letter => exact Nat.le_succ 2
    | code digits => exact Nat.le_refl 3

end Glyph

variable {glyphs : List Glyph}

theorem denoted_rewritten (h : ∀ g ∈ glyphs, g.Valid) : denoted (glyphs.map Glyph.rewritten) = denoted glyphs := by
  induction glyphs with
  | nil => rfl
  | cons g glyphs ih =>
    rw [List.forall_mem_cons] at h
    exact congrArg₂ (· ++ ·) (Glyph.denotes_rewritten h.1) (ih h.2)

/-- What is written for a text between quotes are the rewritten characters of the string. -/
theorem quoted_rewritten (h : ∀ g ∈ glyphs, g.Valid) :
    quoted (glyphs.map Glyph.rewritten) = writeString (denoted glyphs) := by
  have hspelled : spelled (glyphs.map Glyph.rewritten) = (denoted glyphs).flatMap escapeByte := by
    induction glyphs with
    | nil => rfl
    | cons g glyphs ih =>
      rw [List.forall_mem_cons] at h
      show g.rewritten.text ++ spelled (glyphs.map Glyph.rewritten) = (g.denotes ++ denoted glyphs).flatMap escapeByte
      rw [List.flatMap_append, ih h.2, Glyph.text_rewritten h.1]
  rw [quoted, hspelled, writeString]
  rfl

theorem deepest_rewritten (h : ∀ g ∈ glyphs, g.Valid) : deepest (glyphs.map Glyph.rewritten) ≤ deepest glyphs := by
  induction glyphs with
  | nil => exact Nat.le_refl 1
  | cons g glyphs ih =>
    rw [List.forall_mem_cons] at h
    have hfirst := Glyph.depth_rewritten h.1
    have hothers := ih h.2
    show max g.rewritten.depth (deepest (glyphs.map Glyph.rewritten)) ≤ max g.depth (deepest glyphs)
    omega

/-! ## Trees -/

/-- The white space behind the colon of a member. -/
def Layout.afterColon : Layout → Bytes
  | .compact => []
  | .pretty _ => [0x20]

/-- A name as the printer writes it. -/
def Name.laidOut (layout : Layout) (name : Name) : Name := ⟨name.glyphs.map Glyph.rewritten, [], layout.afterColon⟩

/-- A line break and the blanks in front of the next line. -/
def Layout.line (layout : Layout) (level : Nat) : Bytes := layout.newline ++ layout.indent level

/-- The white space in front of the remaining parts of a container, where there is no comma that carries it: in front
of the first part, and in front of the closing bracket if there are no more parts. -/
def Layout.lead (layout : Layout) (level : Nat) (first atEnd : Bool) : Bytes :=
  if atEnd then layout.line level else if first then layout.line (level + 1) else []

namespace Concrete

variable (layout : Layout)

mutual

/-- A tree as the printer writes it, with the given white space behind it. -/
def laidOut : Nat → Bytes → Concrete → Concrete
  | _, after, keyword word _ => keyword word after
  | _, after, number spelling _ => number spelling after
  | _, after, string glyphs _ => string (glyphs.map Glyph.rewritten) after
  | level, after, container kind _ parts _ =>
    container kind (layout.lead level true parts.isEmpty) (partsLaidOut level true parts) after
termination_by structural _ _ c => c

/-- The parts of an array or object, each on a line of its own. -/
def partsLaidOut : Nat → Bool → List (Part Concrete) → List (Part Concrete)
  | _, _, [] => []
  | level, first, ⟨_, name, value⟩ :: rest =>
    ⟨if first then none else some (layout.line (level + 1)), name.map (Name.laidOut layout),
      laidOut (level + 1) (layout.lead level false rest.isEmpty) value⟩ :: partsLaidOut level false rest
termination_by structural _ _ parts => parts

end

variable {layout : Layout} {stray : Bool}

theorem nameDenoted_laidOut {kind : Kind} {name : Option Name} (h : NameFits kind name) :
    nameDenoted (name.map (Name.laidOut layout)) = nameDenoted name := by
  cases name with
  | none => rfl
  | some name =>
    cases kind with
    | array => exact h.elim
    | object => exact denoted_rewritten h.1

theorem nameFits_laidOut {kind : Kind} {name : Option Name} (h : NameFits kind name) :
    NameFits kind (name.map (Name.laidOut layout)) := by
  cases name with
  | none => exact h
  | some name =>
    cases kind with
    | array => exact h.elim
    | object =>
      refine ⟨List.forall_mem_map.mpr fun g _ => g.rewritten_valid, blank_nil, ?_⟩
      cases layout with
      | compact => exact blank_nil
      | pretty n => exact (show Blank [0x20] by decide)

theorem partDepth_laidOut {kind : Kind} {name : Option Name} (h : NameFits kind name) {n m : Nat} (hn : n ≤ m) :
    partDepth (name.map (Name.laidOut layout)) n ≤ partDepth name m := by
  cases name with
  | none => exact hn
  | some name =>
    cases kind with
    | array => exact h.elim
    | object =>
      have hname := deepest_rewritten h.1
      show max (deepest (name.glyphs.map Glyph.rewritten) + 1) n + 1 ≤ max (deepest name.glyphs + 1) m + 1
      omega

theorem blank_line (level : Nat) : Blank (layout.line level) := by
  cases layout with
  | compact => exact blank_nil
  | pretty n =>
    intro b hb
    rcases List.mem_cons.mp hb with rfl | hb
    · decide
    · rw [(List.mem_replicate.mp hb).2]
      decide

theorem blank_lead (level : Nat) (first atEnd : Bool) : Blank (layout.lead level first atEnd) := by
  cases atEnd with
  | true => exact blank_line level
  | false =>
    cases first with
    | true => exact blank_line (level + 1)
    | false => exact blank_nil

mutual

/-- It stands for the same document. -/
theorem doc_laidOut : ∀ {level : Nat} {after : Bytes} {c : Concrete}, c.Formed stray →
    (c.laidOut layout level after).doc = c.doc
  | _, _, .keyword _ _, _ => rfl
  | _, _, .number _ _, _ => rfl
  | _, _, .string _ _, h => congrArg Json.string (denoted_rewritten h.1)
  | _, _, .container kind _ parts _, h => congrArg kind.collect (docOfParts_laidOut parts h.2.1)
termination_by structural _ _ c => c

theorem docOfParts_laidOut {kind : Kind} {first : Bool} : ∀ {level : Nat} {start : Bool} (parts : List (Part Concrete)),
    FormedParts stray kind first parts → docOfParts (partsLaidOut layout level start parts) = docOfParts parts
  | _, _, [], _ => rfl
  | _, _, ⟨_, name, value⟩ :: rest, h => by
    obtain ⟨-, hname, hvalue, hrest⟩ := h
    rw [partsLaidOut, docOfParts, nameDenoted_laidOut hname, doc_laidOut hvalue, docOfParts_laidOut rest hrest]
    rfl
termination_by structural _ _ parts => parts

end

mutual

/-- It has no stray commas. -/
theorem formed_laidOut : ∀ {level : Nat} {after : Bytes} {c : Concrete}, c.Formed stray → Blank after →
    (c.laidOut layout level after).Formed false
  | _, _, .keyword _ _, _, hafter => hafter
  | _, _, .number _ _, h, hafter => ⟨h.1, hafter⟩
  | _, _, .string _ _, _, hafter => ⟨List.forall_mem_map.mpr fun g _ => g.rewritten_valid, hafter⟩
  | _, _, .container _ _ parts _, h, hafter => ⟨blank_lead _ _ _, formedParts_laidOut parts h.2.1, hafter⟩
termination_by structural _ _ c => c

theorem formedParts_laidOut {kind : Kind} {first : Bool} : ∀ {level : Nat} {start : Bool} (parts : List (Part Concrete)),
    FormedParts stray kind first parts → FormedParts false kind start (partsLaidOut layout level start parts)
  | _, _, [], _ => trivial
  | level, start, ⟨_, name, value⟩ :: rest, h => by
    obtain ⟨-, hname, hvalue, hrest⟩ := h
    refine ⟨?_, nameFits_laidOut hname, formed_laidOut hvalue (blank_lead _ _ _), formedParts_laidOut rest hrest⟩
    cases start with
    | true => rfl
    | false => exact ⟨.inl rfl, blank_line _⟩
termination_by structural _ _ parts => parts

end

mutual

/-- It nests no more calls. -/
theorem depth_laidOut : ∀ {level : Nat} {after : Bytes} {c : Concrete}, c.Formed stray →
    (c.laidOut layout level after).depth ≤ c.depth
  | _, _, .keyword _ _, _ => Nat.le_refl 3
  | _, _, .number _ _, _ => Nat.le_refl 3
  | _, _, .string _ _, h => Nat.add_le_add_right (deepest_rewritten h.1) 2
  | level, _, .container kind _ parts _, h => by
    have hparts : depthOfParts (partsLaidOut layout level true parts) ≤ depthOfParts parts :=
      depthOfParts_laidOut parts h.2.1
    show max 2 (depthOfParts (partsLaidOut layout level true parts)) + 2 ≤ max 2 (depthOfParts parts) + 2
    omega
termination_by structural _ _ c => c

theorem depthOfParts_laidOut {kind : Kind} {first : Bool} : ∀ {level : Nat} {start : Bool} (parts : List (Part Concrete)),
    FormedParts stray kind first parts → depthOfParts (partsLaidOut layout level start parts) ≤ depthOfParts parts
  | _, _, [], _ => Nat.le_refl 0
  | level, start, ⟨_, name, value⟩ :: rest, h => by
    obtain ⟨-, hname, hvalue, hrest⟩ := h
    have hpart : partDepth (name.map (Name.laidOut layout)) (value.laidOut layout (level + 1)
        (layout.lead level false rest.isEmpty)).depth ≤ partDepth name value.depth :=
      partDepth_laidOut hname (depth_laidOut hvalue)
    have hothers : depthOfParts (partsLaidOut layout level false rest) ≤ depthOfParts rest :=
      depthOfParts_laidOut rest hrest
    rw [partsLaidOut, depthOfParts, depthOfParts]
    omega
termination_by structural _ _ parts => parts

end

end Concrete

/-! ## Texts -/

namespace Kind

/-- The parts of a container as the printer writes them. -/
def writeParts (layout : Layout) (level : Nat) : Kind → List (Bytes × Json) → Bytes
  | array, parts => writeElements layout level (parts.map (·.2))
  | object, parts => writeMembers layout level parts

/-- What the printer writes in front of the value of a part. -/
def writeName (layout : Layout) : Kind → Bytes → Bytes
  | array, _ => []
  | object, name => writeString name ++ layout.colon

variable {layout : Layout} {level : Nat}

theorem writeParts_cons (kind : Kind) (name : Bytes) (j : Json) (rest : List (Bytes × Json)) :
    kind.writeParts layout level ((name, j) :: rest) =
      layout.indent level ++ (kind.writeName layout name ++ (write layout level j ++
        (comma rest.isEmpty ++ (layout.newline ++ kind.writeParts layout level rest)))) := by
  cases kind with
  | array =>
    have hlast : (rest.map (·.2)).isEmpty = rest.isEmpty := List.isEmpty_map
    simp only [writeParts, writeName, List.map_cons, writeElements, hlast, List.append_assoc, List.nil_append]
  | object => simp only [writeParts, writeName, writeMembers, List.append_assoc]

theorem write_collect (kind : Kind) (parts : List (Bytes × Json)) :
    write layout level (kind.collect parts) = kind.opens :: (layout.newline ++
      (kind.writeParts layout (level + 1) parts ++ (layout.indent level ++ [kind.closes]))) := by
  cases kind with
  | array => simp only [collect, write, writeParts, List.append_assoc]; rfl
  | object => simp only [collect, write, writeParts, List.append_assoc]; rfl

end Kind

namespace Concrete

variable {layout : Layout} {stray : Bool}

theorem nameText_laidOut {kind : Kind} {name : Option Name} (h : NameFits kind name) :
    nameText (name.map (Name.laidOut layout)) = kind.writeName layout (nameDenoted name) := by
  cases name with
  | none =>
    cases kind with
    | array => rfl
    | object => exact h.elim
  | some name =>
    cases kind with
    | array => exact h.elim
    | object =>
      show quoted (name.glyphs.map Glyph.rewritten) ++ ([] ++ Bytes.char ':' :: layout.afterColon) =
        writeString (denoted name.glyphs) ++ layout.colon
      rw [quoted_rewritten h.1]
      cases layout <;> rfl

theorem isEmpty_docOfParts (parts : List (Part Concrete)) : (docOfParts parts).isEmpty = parts.isEmpty := by
  cases parts with
  | nil => rfl
  | cons part parts => rfl

mutual

/-- Its text is what the printer writes. -/
theorem text_laidOut : ∀ {level : Nat} {after : Bytes} {c : Concrete}, c.Formed stray →
    (c.laidOut layout level after).text = write layout level c.doc ++ after
  | _, _, .keyword word _, _ => by rcases word with _ | _ | _ <;> rfl
  | _, _, .number _ _, _ => rfl
  | _, after, .string glyphs _, h => congrArg (· ++ after) (quoted_rewritten h.1)
  | level, after, .container kind _ parts _, h => by
    have hparts : layout.lead level true parts.isEmpty ++ textOfParts (partsLaidOut layout level true parts) =
        layout.newline ++ (kind.writeParts layout (level + 1) (docOfParts parts) ++ layout.indent level) :=
      textOfParts_laidOut parts h.2.1
    calc
      _ = kind.opens :: ((layout.lead level true parts.isEmpty ++ textOfParts (partsLaidOut layout level true parts)) ++
          kind.closes :: after) := by rw [List.append_assoc]; rfl
      _ = write layout level (kind.collect (docOfParts parts)) ++ after := by
        rw [hparts, Kind.write_collect]
        simp only [List.append_assoc, List.cons_append, List.nil_append]
termination_by structural _ _ c => c

/-- The text between brackets, from the line break in front of it. -/
theorem textOfParts_laidOut {kind : Kind} {first : Bool} : ∀ {level : Nat} {start : Bool}
    (parts : List (Part Concrete)), FormedParts stray kind first parts →
    layout.lead level start parts.isEmpty ++ textOfParts (partsLaidOut layout level start parts) =
      comma (start || parts.isEmpty) ++ (layout.newline ++
        (kind.writeParts layout (level + 1) (docOfParts parts) ++ layout.indent level))
  | level, start, [], _ => by
    have hnone : kind.writeParts layout (level + 1) [] = [] := by cases kind <;> rfl
    show layout.line level ++ [] = comma (start || true) ++ (layout.newline ++ (_ ++ layout.indent level))
    rw [List.append_nil, Bool.or_true, docOfParts, hnone]
    rfl
  | level, start, ⟨_, name, value⟩ :: rest, h => by
    obtain ⟨-, hname, hvalue, hrest⟩ := h
    have hothers : layout.lead level false rest.isEmpty ++ textOfParts (partsLaidOut layout level false rest) =
        comma rest.isEmpty ++ (layout.newline ++
          (kind.writeParts layout (level + 1) (docOfParts rest) ++ layout.indent level)) :=
      textOfParts_laidOut rest hrest
    have hstart : ∀ more, layout.lead level start false ++ (commaText (if start then none else some (layout.line (level + 1))) ++
        more) = comma start ++ (layout.newline ++ (layout.indent (level + 1) ++ more)) := by
      intro more
      cases start with
      | true => exact List.append_assoc _ _ _
      | false => exact congrArg (Bytes.char ',' :: ·) (List.append_assoc _ _ _)
    show layout.lead level start false ++ (commaText _ ++ (nameText _ ++ (text _ ++ textOfParts _))) =
      comma (start || false) ++ (layout.newline ++ (kind.writeParts layout (level + 1) ((_, _) :: _) ++ _))
    rw [hstart, nameText_laidOut hname, text_laidOut hvalue, List.append_assoc, hothers, Bool.or_false,
      Kind.writeParts_cons, isEmpty_docOfParts]
    simp only [List.append_assoc]
termination_by structural _ _ parts => parts

end

end Concrete

/-! ## Formatting -/

end Packrat.Json
