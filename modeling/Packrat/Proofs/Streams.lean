import Packrat.Stream

/-!
# `Packrat.Proofs.Streams` — reads lose and duplicate nothing

A read copies the bytes of a stream one by one: it looks at the next byte, and moves past it once it is copied. The
byte that ends a line is copied and passed as well, so that the next read starts behind it.

## Contents
- **Copying.** `copy`, the loop, and `read_eq_readBytes`: it does what `read` does.
- **One read.** `Gives`, what a read is to give of the text that remains, and what it does to a stream.
- **Reads in turn.** `readEach`, and `reads_exact`.
-/

namespace Packrat.Stream

/-! ## Copying -/

/-- What copying a stream comes to. -/
structure Copied where
  text : Bytes
  rest : Bytes
  /-- Whether there was no next byte to look at. -/
  ended : Bool

/-- Copies the bytes of a text: up to the end, or through the first line feed if `interactive`. -/
def copy (interactive : Bool) : Bytes → Copied
  | [] => ⟨[], [], true⟩
  | b :: rest =>
    if interactive && b == 0x0A then ⟨[b], rest, false⟩
    else
      let behind := copy interactive rest
      ⟨b :: behind.text, behind.rest, behind.ended⟩

/-- Reads a stream byte by byte. A read fails that copies nothing, or that comes to a stream which cannot be read. -/
def readBytes (interactive : Bool) (s : Stream) : Bytes × Stream :=
  if s.isGood then
    let copied := copy interactive s.rest
    (copied.text, ⟨copied.rest, copied.ended, copied.text.isEmpty⟩)
  else ([], { s with failed := true })

variable {interactive : Bool} {text rest : Bytes} {s : Stream}

/-- Copying goes on behind a byte that is not to end it. -/
theorem copy_cons {b : UInt8} (h : (interactive && b == 0x0A) = false) (rest : Bytes) :
    copy interactive (b :: rest) =
      ⟨b :: (copy interactive rest).text, (copy interactive rest).rest, (copy interactive rest).ended⟩ :=
  if_neg (Bool.not_eq_true _ ▸ h)

theorem copy_all (text : Bytes) : copy false text = ⟨text, [], true⟩ := by
  induction text with
  | nil => rfl
  | cons b rest ih => rw [copy_cons (Bool.false_and _), ih]

theorem copy_line (text : Bytes) :
    copy true text =
      match splitLine text with
      | some (line, rest) => ⟨line, rest, false⟩
      | none => ⟨text, [], true⟩ := by
  induction text with
  | nil => rfl
  | cons b rest ih =>
    rw [splitLine]
    cases hb : b == 0x0A with
    | true => rw [copy, Bool.true_and, if_pos hb, if_pos rfl]
    | false =>
      rw [copy_cons ((Bool.true_and _).trans hb), if_neg Bool.false_ne_true, ih]
      cases splitLine rest <;> rfl

theorem ne_nil_of_splitLine {line : Bytes} (h : splitLine text = some (line, rest)) : line ≠ [] := by
  cases text with
  | nil => cases h
  | cons b tail =>
    rw [splitLine] at h
    split at h
    · cases h
      exact List.cons_ne_nil b []
    · obtain ⟨⟨l, r⟩, -, he⟩ := Option.map_eq_some_iff.mp h
      cases he
      exact List.cons_ne_nil b l

/-- Reading byte by byte is reading. -/
theorem read_eq_readBytes (interactive : Bool) (s : Stream) : s.read interactive = s.readBytes interactive := by
  unfold read readBytes
  cases hgood : s.isGood with
  | false => rfl
  | true =>
    cases interactive with
    | false =>
      simp only [copy_all]
      rfl
    | true =>
      simp only [copy_line]
      cases hsplit : splitLine s.rest with
      | none => rfl
      | some split =>
        obtain ⟨line, rest⟩ := split
        have hline : line.isEmpty = false := List.isEmpty_eq_false_iff.mpr (ne_nil_of_splitLine hsplit)
        simp [hline]

/-! ## One read -/

/-- What a read is to give of the text that remains: all of it, or the line in front if it is interactive. A line goes
through the first line feed, or to the end if there is none. -/
inductive Gives : Bool → Bytes → Bytes → Prop
  | all {text : Bytes} : Gives false text text
  | line {front rest : Bytes} (hfront : 0x0A ∉ front) : Gives true (front ++ [0x0A]) (front ++ 0x0A :: rest)
  | last {text : Bytes} (htext : 0x0A ∉ text) : Gives true text text

/-- Copying splits a text. -/
theorem copy_append (interactive : Bool) (text : Bytes) :
    (copy interactive text).text ++ (copy interactive text).rest = text := by
  induction text with
  | nil => rfl
  | cons b rest ih =>
    cases hb : interactive && b == 0x0A with
    | true =>
      rw [copy, if_pos hb]
      rfl
    | false =>
      rw [copy_cons hb]
      exact congrArg (b :: ·) ih

/-- At the end, nothing is left to copy. -/
theorem rest_of_ended (h : (copy interactive text).ended = true) : (copy interactive text).rest = [] := by
  induction text with
  | nil => rfl
  | cons b rest ih =>
    cases hb : interactive && b == 0x0A with
    | true =>
      rw [copy, if_pos hb] at h
      cases h
    | false =>
      rw [copy_cons hb] at h ⊢
      exact ih h

/-- Before the end, something has been copied. -/
theorem text_of_not_ended (h : (copy interactive text).ended = false) : (copy interactive text).text ≠ [] := by
  cases text with
  | nil => cases h
  | cons b rest =>
    cases hb : interactive && b == 0x0A with
    | true =>
      rw [copy, if_pos hb]
      exact List.cons_ne_nil b []
    | false =>
      rw [copy_cons hb]
      exact List.cons_ne_nil b _

theorem copy_gives (interactive : Bool) (text : Bytes) : Gives interactive (copy interactive text).text text := by
  cases interactive with
  | false =>
    rw [copy_all]
    exact .all
  | true =>
    induction text with
    | nil => exact .last List.not_mem_nil
    | cons b rest ih =>
      by_cases hb : b = 0x0A
      · rw [hb]
        exact @Gives.line [] rest List.not_mem_nil
      · rw [copy_cons ((Bool.true_and _).trans (beq_eq_false_iff_ne.mpr hb))]
        -- one more byte that ends no line stands in front of what is given of the rest
        show Gives true (b :: (copy true rest).text) (b :: rest)
        generalize (copy true rest).text = given at ih
        cases ih with
        | line hfront => exact @Gives.line (b :: _) _ (List.not_mem_cons_of_ne_of_not_mem (Ne.symm hb) hfront)
        | last hgiven => exact .last (List.not_mem_cons_of_ne_of_not_mem (Ne.symm hb) hgiven)

/-- Nothing remains of a stream that cannot be read. -/
def Sound (s : Stream) : Prop := s.isGood = false → s.rest = []

theorem sound_ofText (text : Bytes) : (ofText text).Sound := fun h => Bool.noConfusion h

theorem isGood_of_ended (h : s.ended = true) : s.isGood = false := by
  rw [isGood, h]
  rfl

/-- What a read gives, and what it makes of the stream. -/
theorem Sound.read (h : s.Sound) (interactive : Bool) :
    (s.read interactive).1 ++ (s.read interactive).2.rest = s.rest ∧ Gives interactive (s.read interactive).1 s.rest ∧
      ((s.read interactive).2.failed = true ↔ (s.read interactive).1 = []) ∧
      (s.ended = true → (s.read interactive).2.ended = true) ∧ (s.read interactive).2.Sound := by
  cases hgood : s.isGood with
  | false =>
    have hrest : s.rest = [] := h hgood
    have hread : s.read interactive = ([], { s with failed := true }) := by
      rw [Stream.read, hgood]
      rfl
    rw [hread]
    refine ⟨rfl, ?_, ⟨fun _ => rfl, fun _ => rfl⟩, id, fun _ => hrest⟩
    rw [hrest]
    cases interactive with
    | false => exact .all
    | true => exact .last List.not_mem_nil
  | true =>
    have hread : s.read interactive = ((copy interactive s.rest).text,
        ⟨(copy interactive s.rest).rest, (copy interactive s.rest).ended, (copy interactive s.rest).text.isEmpty⟩) := by
      rw [read_eq_readBytes, readBytes, hgood]
      rfl
    -- a stream that can be read: the copy is what a read gives
    rw [hread]
    refine ⟨copy_append interactive s.rest, copy_gives interactive s.rest, List.isEmpty_iff, ?_, ?_⟩
    · intro hended
      rw [isGood_of_ended hended] at hgood
      cases hgood
    · intro hafter
      cases hended : (copy interactive s.rest).ended with
      | true => exact rest_of_ended hended
      | false =>
        have htext : (copy interactive s.rest).text.isEmpty = false :=
          List.isEmpty_eq_false_iff.mpr (text_of_not_ended hended)
        rw [isGood, hended, htext] at hafter
        cases hafter

/-! ## Reads in turn -/

/-- Reads a stream several times, and gives the texts read. -/
def readEach (s : Stream) : List Bool → List Bytes × Stream
  | [] => ([], s)
  | interactive :: modes =>
    let (text, next) := s.read interactive
    let (texts, last) := next.readEach modes
    (text :: texts, last)

theorem Sound.readEach (h : s.Sound) (modes : List Bool) :
    (s.readEach modes).1.flatten ++ (s.readEach modes).2.rest = s.rest ∧ (s.readEach modes).2.Sound := by
  induction modes generalizing s with
  | nil => exact ⟨rfl, h⟩
  | cons interactive modes ih =>
    obtain ⟨happend, -, -, -, hnext⟩ := h.read interactive
    obtain ⟨hrest, hlast⟩ := ih hnext
    refine ⟨?_, hlast⟩
    show ((s.read interactive).1 :: ((s.read interactive).2.readEach modes).1).flatten ++ _ = _
    rw [List.flatten_cons, List.append_assoc]
    exact (congrArg _ hrest).trans happend

/-- **Reads lose and duplicate nothing.** After any reads of a new stream, interactive or not, another one gives what it
is to give of the text that remains: the texts read so far make up the front of the text, and all of it once a read
has met the end, which no later read forgets. A read fails exactly if it gives nothing. -/
theorem reads_exact (content : Bytes) (modes : List Bool) (interactive : Bool) :
    let before := (ofText content).readEach modes
    let now := before.2.read interactive
    (before.1 ++ [now.1]).flatten <+: content ∧
      (now.2.ended = true → (before.1 ++ [now.1]).flatten = content) ∧
      (before.2.ended = true → now.2.ended = true) ∧
      (∃ remaining, content = before.1.flatten ++ remaining ∧ Gives interactive now.1 remaining) ∧
      (now.2.failed = true ↔ now.1 = []) ∧
      now = before.2.readBytes interactive := by
  intro before now
  obtain ⟨hbefore, hsound⟩ := (sound_ofText content).readEach modes
  obtain ⟨hnow, hgives, hfailed, hended, hafter⟩ := hsound.read interactive
  have htexts : (before.1 ++ [now.1]).flatten = before.1.flatten ++ now.1 := by
    rw [List.flatten_append, List.flatten_singleton]
  have hall : before.1.flatten ++ now.1 ++ now.2.rest = content := by
    rw [List.append_assoc, hnow]
    exact hbefore
  rw [htexts]
  refine ⟨⟨now.2.rest, hall⟩, ?_, hended, ⟨before.2.rest, hbefore.symm, hgives⟩, hfailed, read_eq_readBytes _ _⟩
  intro hend
  have hempty : now.2.rest = [] := hafter (isGood_of_ended hend)
  rwa [hempty, List.append_nil] at hall

end Packrat.Stream
